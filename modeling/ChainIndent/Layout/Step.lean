import ChainIndent.Line.Kind

/-!
# ChainIndent.Layout.Step

One line of a builder chain is laid out at a time.  All that is remembered
between two lines is a `Context`: the indent level, whether a callback is
open, and how many braces the callback has open.  A line enters only through
its kind and its braces.

1. Blank lines become empty and comments stand at the current level, inside
   and outside callbacks; neither changes the context.
2. Outside callbacks an indent marker acts after its own line and a dedent
   marker before it.  The level never falls below that of the outermost
   calls.
3. The opener of a callback stands at the current level, and so does its
   closer, which is recognised wherever it stands.  Between them every other
   line is copied byte for byte, markers and further openers included.
4. The brace balance counts from the opener to the closer, comments left
   out; it only informs.
-/

namespace ChainIndent

/-! ## Context -/

/-- What is remembered from line to line. -/
structure Context where
  /-- The level at which the next ordinary line stands. -/
  level : Nat
  /-- Whether a callback is open. -/
  inCallback : Bool
  /-- Opening less closing braces since the last callback was opened. -/
  balance : Int
  /-- The level of the outermost calls. -/
  base : Nat
  deriving DecidableEq, Repr

namespace Context

/-- The context before the first line. -/
def start (base : Nat) : Context := ⟨base, false, 0, base⟩

/-- One level deeper. -/
def opened (c : Context) : Context := { c with level := c.level + 1 }

/-- One level less deep, but not above the outermost calls. -/
def closed (c : Context) : Context := { c with level := max (c.level - 1) c.base }

/-- The context after a line of kind `k` with `net` more braces opened than
closed. -/
def after (c : Context) (k : LineKind) (net : Int) : Context :=
  match k, c.inCallback with
  | .blank, _ | .comment, _ => c
  | .verbatimEnd, true => { c with inCallback := false, balance := c.balance + net }
  | _, true => { c with balance := c.balance + net }
  | .verbatimStart, false => { c with inCallback := true, balance := net }
  | .dedent, false => c.closed
  | .indent, false => c.opened
  | .verbatimEnd, false | .plain, false => c

end Context

/-! ## Placement -/

/-- A line of output, before the indentation is written out. -/
inductive Placed where
  /-- An empty line. -/
  | blank
  /-- The text behind `level` units of indentation. -/
  | indented (level : Nat) (text : Line)
  /-- The line as it came. -/
  | verbatim (raw : Line)
  deriving DecidableEq, Repr

namespace Placed

/-- The line of output, with `unit` for one level. -/
def render (unit : List Char) : Placed → Line
  | .blank => []
  | .indented n t => (List.replicate n unit).flatten ++ t
  | .verbatim raw => raw

def isIndented : Placed → Bool
  | .indented .. => true
  | _ => false

def isVerbatim : Placed → Bool
  | .verbatim _ => true
  | _ => false

end Placed

/-- Where a line of kind `k` goes. -/
def Context.place (c : Context) (k : LineKind) (raw : Line) : Placed :=
  match k, c.inCallback with
  | .blank, _ => .blank
  | .comment, _ | .verbatimEnd, _ => .indented c.level (trimStart raw)
  | _, true => .verbatim raw
  | .dedent, false => .indented c.closed.level (trimStart raw)
  | .verbatimStart, false | .indent, false | .plain, false => .indented c.level (trimStart raw)

/-! ## A step -/

/-- What laying out one line does. -/
structure Step where
  before : Context
  after : Context
  placed : Placed
  deriving DecidableEq, Repr

namespace Style

/-- Lay out one line. -/
def step (s : Style) (c : Context) (raw : Line) : Step :=
  { before := c
    after := c.after (s.kindOf raw) (netBraces (trimStart raw))
    placed := c.place (s.kindOf raw) raw }

/-- The context before the first line of a region. -/
def start (s : Style) : Context := Context.start s.baseIndent

end Style

/-! ## What a step keeps -/

@[simp] theorem Context.base_after (c : Context) (k : LineKind) (net : Int) :
    (c.after k net).base = c.base := by
  unfold Context.after
  split <;> rfl

/-- Whether a callback is open after a line: its closer ends one, its opener
begins one, and no other line matters. -/
theorem Context.inCallback_after (c : Context) (k : LineKind) (net : Int) :
    (c.after k net).inCallback =
      if c.inCallback then decide (k ≠ .verbatimEnd) else decide (k = .verbatimStart) := by
  obtain ⟨n, b, m, base⟩ := c
  cases k <;> cases b <;> rfl

/-- The level does not fall below that of the outermost calls. -/
theorem Context.base_le_level_after {c : Context} (h : c.base ≤ c.level) (k : LineKind) (net : Int) :
    c.base ≤ (c.after k net).level := by
  obtain ⟨n, b, m, base⟩ := c
  simp only at h
  cases k <;> cases b <;> simp [Context.after, Context.closed, Context.opened] <;> omega

end ChainIndent
