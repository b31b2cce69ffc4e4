/-!
# ChainIndent.Toml.Value

The values of a TOML document, and tables as they grow while the document is
read.

1. A table is a list of keys and values in the order in which they were
   written; no key stands in it twice.
2. How a table came about decides who may still add to it.  A table with a
   header of its own is closed to dotted keys; one that dotted keys made is
   closed to headers; one that only stands above a header may be given its
   own header once; an inline table is complete as it is written.
3. An array of tables that headers made is open at its last element.
-/

namespace ChainIndent.Toml

/-- A key, with its quotes and escapes resolved. -/
abbrev Key := List Char

/-- How a table came about. -/
inductive Origin where
  /-- By a header of its own, or as the document itself. -/
  | header
  /-- Above a table that has a header. -/
  | implied
  /-- By a dotted key. -/
  | dotted
  /-- Between braces. -/
  | inBraces
  deriving DecidableEq, Repr

/-- A TOML value.  Floats and dates keep their spelling, which nothing here
computes with. -/
inductive Value where
  | string (s : List Char)
  | integer (n : Int)
  | float (spelling : List Char)
  | boolean (b : Bool)
  | moment (spelling : List Char)
  | array (items : List Value)
  | table (origin : Origin) (entries : List (Key × Value))
  | tables (elements : List (List (Key × Value)))

/-- The entries of a table. -/
abbrev Table := List (Key × Value)

namespace Table

/-- Give a key a value, in its old place if it had one. -/
def set (k : Key) (v : Value) : Table → Table
  | [] => [(k, v)]
  | (j, w) :: t => if j = k then (j, v) :: t else (j, w) :: set k v t

/-! ## Growing a table -/

/-- Whether a key path may lead through a table, in a header or in a dotted
key. -/
def mayEnter (inHeader : Bool) : Origin → Bool
  | .header => inHeader
  | .implied | .dotted => true
  | .inBraces => false

/-- The tables that a path makes where it finds none. -/
def madeBy (inHeader : Bool) : Origin := if inHeader then .implied else .dotted

/-- Follow a path of keys down from a table and change the table at its end,
making the tables that are missing.  `none` if the path leads through
something that is closed to it, or the change fails. -/
def alter (inHeader : Bool) (change : Origin → Table → Option Table) :
    List Key → Origin → Table → Option Table
  | [], o, t => change o t
  | k :: ks, _, t =>
    match t.lookup k with
    | none => (alter inHeader change ks (madeBy inHeader) []).map fun u =>
        t.set k (.table (madeBy inHeader) u)
    | some (.table o u) =>
      if mayEnter inHeader o then (alter inHeader change ks o u).map fun u => t.set k (.table o u)
      else none
    | some (.tables us) =>
      match us.getLast? with
      | none => none
      | some u => (alter inHeader change ks .header u).map fun u =>
          t.set k (.tables (us.dropLast ++ [u]))
    | some _ => none

/-- Add a value under a dotted key: `path` leads to the table, `k` names the
value in it.  The table must be one that the same kind of key made, and the
name must be new. -/
def addPair (path : List Key) (k : Key) (v : Value) : Origin → Table → Option Table :=
  alter false (fun o t =>
    if decide (o = .dotted) = path.isEmpty then none
    else match t.lookup k with
      | some _ => none
      | none => some (t.set k v)) path

/-- Open the table that a header names. -/
def openTable (path : List Key) (k : Key) : Table → Option Table :=
  alter true (fun _ t =>
    match t.lookup k with
    | none => some (t.set k (.table .header []))
    | some (.table .implied u) => some (t.set k (.table .header u))
    | some _ => none) path .header

/-- Open a new element of the array of tables that a double header names. -/
def openElement (path : List Key) (k : Key) : Table → Option Table :=
  alter true (fun _ t =>
    match t.lookup k with
    | none => some (t.set k (.tables [[]]))
    | some (.tables us) => some (t.set k (.tables (us ++ [[]])))
    | some _ => none) path .header

end Table

end ChainIndent.Toml
