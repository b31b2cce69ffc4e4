import ChainIndent.Toml.Expression

/-!
# ChainIndent.Toml.Document

A whole TOML document.

1. A byte order mark in front is skipped.
2. Each line holds a pair, a header or nothing, and a comment behind it if
   wanted.  Values may run over several lines; then the line ends where the
   last of them does.
3. A header opens a table, a double header a new element of an array of
   tables, and the pairs that follow belong there; before the first header
   they belong to the document.
4. One mistake anywhere makes the whole document invalid.
-/

namespace ChainIndent.Toml

/-- What a line holds. -/
inductive Statement where
  | pair (key : KeyPath) (value : Value)
  | header (key : KeyPath)
  | elementHeader (key : KeyPath)

/-- The statement on a line that is not empty, up to the end of the
statement. -/
def readStatement : Reader Statement
  | '[' :: '[' :: r =>
    match readPath r with
    | some (p, ']' :: ']' :: r') => some (.elementHeader p, r')
    | _ => none
  | '[' :: r =>
    match readPath r with
    | some (p, ']' :: r') => some (.header p, r')
    | _ => none
  | cs => (readPair (readValue (depthLimit - 1)) cs).map fun x => (.pair x.1.1 x.1.2, x.2)

/-- One line: its statement, if it has one, and what follows the line. -/
def readLine (cs : List Char) : Option (Option Statement × List Char) :=
  match lineRest? cs with
  | some r => some (none, r)
  | none =>
    match readStatement (skipGaps cs) with
    | none => none
    | some (s, r) => (lineRest? r).map fun r' => (some s, r')

/-- The statements of a text. -/
def readStatements (cs : List Char) : Option (List Statement) :=
  if cs = [] then some []
  else match readLine cs with
    | none => none
    | some (s, r) =>
      if _h : r.length < cs.length then (readStatements r).map (s.toList ++ ·) else none
termination_by cs.length

/-- A document while its statements are carried out: the table so far, and
where the pairs go that come next. -/
structure Draft where
  root : Table
  current : List Key

/-- Carry out one statement. -/
def Draft.add (d : Draft) : Statement → Option Draft
  | .pair p v =>
    (Table.alter true (Table.addPair p.parents p.last v) d.current .header d.root).map fun t =>
      { d with root := t }
  | .header p => (d.root.openTable p.parents p.last).map fun t => ⟨t, p.parents ++ [p.last]⟩
  | .elementHeader p => (d.root.openElement p.parents p.last).map fun t => ⟨t, p.parents ++ [p.last]⟩

/-- The text without a byte order mark in front. -/
def dropMark : List Char → List Char
  | '\uFEFF' :: r => r
  | cs => cs

/-- The table that a document writes, unless it is invalid. -/
def parse? (cs : List Char) : Option Table :=
  ((readStatements (dropMark cs)).bind fun ss => ss.foldlM Draft.add ⟨[], []⟩).map Draft.root

end ChainIndent.Toml
