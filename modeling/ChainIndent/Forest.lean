import ChainIndent.Layout.Run

/-!
# ChainIndent.Forest

Builder chains as forests, and how a forest is written down.

1. A forest is a row of ordinary lines, callbacks and nodes.  A callback has
   an opener, any lines that do not close it, and a closer; a node has an
   opening line, a forest of its own and a closing line.
2. Written at depth `d`, an ordinary line stands `d` levels in from the
   outermost calls, and so do the two lines of a node and the two of a
   callback.  The forest of a node is written one deeper.
3. Inside a callback comments stand at the depth of the callback, blank
   lines are empty and all others are left as they are.

The writer goes by the tree alone and keeps no context from line to line.
-/

namespace ChainIndent

/-- A row of lines, callbacks and nodes. -/
inductive Forest where
  | nil
  | line (raw : Line) (rest : Forest)
  | callback (opener : Line) (inner : List Line) (closer : Line) (rest : Forest)
  | node (opener : Line) (children : Forest) (closer : Line) (rest : Forest)
  deriving DecidableEq, Repr

namespace Forest

/-- The lines of a forest, from top to bottom. -/
def flatten : Forest → List Line
  | .nil => []
  | .line raw rest => raw :: rest.flatten
  | .callback opener inner closer rest => opener :: inner ++ closer :: rest.flatten
  | .node opener children closer rest => opener :: children.flatten ++ closer :: rest.flatten

/-- Whether the kind of every line is what its place in the forest says. -/
def Fits (s : Style) : Forest → Prop
  | .nil => True
  | .line raw rest =>
    s.kindOf raw ∈ [.plain, .comment, .blank, .verbatimEnd] ∧ rest.Fits s
  | .callback opener inner closer rest =>
    s.kindOf opener = .verbatimStart ∧ (∀ l ∈ inner, s.kindOf l ≠ .verbatimEnd) ∧
      s.kindOf closer = .verbatimEnd ∧ rest.Fits s
  | .node opener children closer rest =>
    s.kindOf opener = .indent ∧ children.Fits s ∧ s.kindOf closer = .dedent ∧ rest.Fits s

instance decidableFits (s : Style) : (f : Forest) → Decidable (f.Fits s)
  | .nil => .isTrue trivial
  | .line _ rest =>
    have := decidableFits s rest
    inferInstanceAs (Decidable (_ ∧ rest.Fits s))
  | .callback _ _ _ rest =>
    have := decidableFits s rest
    inferInstanceAs (Decidable (_ ∧ _ ∧ _ ∧ rest.Fits s))
  | .node _ children _ rest =>
    have := decidableFits s children
    have := decidableFits s rest
    inferInstanceAs (Decidable (_ ∧ children.Fits s ∧ _ ∧ rest.Fits s))

/-- A line `d` levels in from the outermost calls; a blank one is empty. -/
def writeAt (s : Style) (d : Nat) (raw : Line) : Line :=
  if isBlankLine raw then []
  else (List.replicate (s.baseIndent + d) s.indentUnit).flatten ++ trimStart raw

/-- A line inside a callback that stands at depth `d`. -/
def writeInner (s : Style) (d : Nat) (raw : Line) : Line :=
  if s.kindOf raw = .blank ∨ s.kindOf raw = .comment then writeAt s d raw else raw

/-- The lines of a forest written at depth `d`. -/
def write (s : Style) (d : Nat) : Forest → List Line
  | .nil => []
  | .line raw rest => writeAt s d raw :: rest.write s d
  | .callback opener inner closer rest =>
    writeAt s d opener :: inner.map (writeInner s d) ++ writeAt s d closer :: rest.write s d
  | .node opener children closer rest =>
    writeAt s d opener :: children.write s (d + 1) ++ writeAt s d closer :: rest.write s d

end Forest

end ChainIndent
