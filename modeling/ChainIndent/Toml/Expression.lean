import ChainIndent.Toml.Moment
import ChainIndent.Toml.Value

/-!
# ChainIndent.Toml.Expression

Keys and values.

1. A key is bare (letters, digits, `_` and `-`, all of ASCII) or quoted on
   one line; keys joined by dots, with blanks around them, form a path.
2. A value is a quoted text, a word (a number, a moment, `true` or
   `false`), an array or an inline table.
3. An array may run over several lines, hold comments and end in a comma.
   An inline table stands on one line and may not.
4. Arrays and inline tables nest fewer than 80 deep, and a path has fewer
   than 80 keys.
-/

namespace ChainIndent.Toml

/-- The depth that arrays and inline tables do not reach, nor the keys of a
path. -/
def depthLimit : Nat := 80

/-! ## Keys -/

def isBareKeyChar (c : Char) : Bool :=
  ('a' ≤ c && c ≤ 'z') || ('A' ≤ c && c ≤ 'Z') || ('0' ≤ c && c ≤ '9') || c = '_' || c = '-'

/-- One key. -/
def readKey (cs : List Char) : Option (Key × List Char) :=
  match cs with
  | '"' :: _ | '\'' :: _ => readQuoted cs
  | _ =>
    match cs.takeWhile isBareKeyChar with
    | [] => none
    | c :: k => some (c :: k, cs.dropWhile isBareKeyChar)

/-- A path of keys: those that lead to a table, and the one that names a
value in it. -/
structure KeyPath where
  parents : List Key
  last : Key
  deriving DecidableEq, Repr

/-- A path of keys, with the blanks around it. -/
def readKeys (cs : List Char) : Option (List Key × List Char) :=
  match readKey (skipGaps cs) with
  | none => none
  | some (k, r) =>
    match skipGaps r with
    | '.' :: r' =>
      if _h : r'.length < cs.length then (readKeys r').map fun x => (k :: x.1, x.2) else none
    | r' => some ([k], r')
termination_by cs.length

/-- A path of keys that is not too deep. -/
def readPath (cs : List Char) : Option (KeyPath × List Char) :=
  match readKeys cs with
  | none => none
  | some (ks, r) =>
    match ks.getLast? with
    | none => none
    | some k => if ks.length < depthLimit then some (⟨ks.dropLast, k⟩, r) else none

/-! ## Words -/

/-- A character of a number, a moment or a name of a value. -/
def isWordChar (c : Char) : Bool := isBareKeyChar c || c = '+' || c = '.' || c = ':'

/-- The value that a word writes. -/
def wordValue? (w : List Char) : Option Value :=
  if w = "true".toList then some (.boolean true)
  else if w = "false".toList then some (.boolean false)
  else if isMoment w then some (.moment w)
  else if isFloat w then some (.float w)
  else (integer? w).map .integer

/-- A word.  A date takes in the time that one space parts from it. -/
def readWord (cs : List Char) : Option (Value × List Char) :=
  let w := cs.takeWhile isWordChar
  let r := cs.dropWhile isWordChar
  let whole := match r with
    | ' ' :: c :: r' =>
      if isDate w && (digit? 10 c).isSome then
        (w ++ ' ' :: (c :: r').takeWhile isWordChar, (c :: r').dropWhile isWordChar)
      else (w, r)
    | _ => (w, r)
  (wordValue? whole.1).map fun v => (v, whole.2)

/-! ## Arrays and inline tables -/

/-- The items of an array and its closing bracket. -/
def readItems (item : Reader Value) (cs : List Char) : Option (List Value × List Char) :=
  match skipTrivia false cs with
  | some (']' :: r) => some ([], r)
  | some cs' =>
    match item cs' with
    | none => none
    | some (v, r) =>
      match skipTrivia false r with
      | some (',' :: r') =>
        if _h : r'.length < cs.length then (readItems item r').map fun x => (v :: x.1, x.2) else none
      | some (']' :: r') => some ([v], r')
      | _ => none
  | none => none
termination_by cs.length

/-- A key path, the equals sign and a value, with the blanks around them. -/
def readPair (item : Reader Value) (cs : List Char) : Option ((KeyPath × Value) × List Char) :=
  match readPath cs with
  | some (p, '=' :: r) => (item (skipGaps r)).map fun x => ((p, x.1), skipGaps x.2)
  | _ => none

/-- The pairs of an inline table that is not empty, and its closing brace. -/
def readPairs (item : Reader Value) (cs : List Char) : Option (List (KeyPath × Value) × List Char) :=
  match readPair item cs with
  | some (kv, ',' :: r) =>
    if _h : r.length < cs.length then (readPairs item r).map fun x => (kv :: x.1, x.2) else none
  | some (kv, '}' :: r) => some ([kv], r)
  | _ => none
termination_by cs.length

/-- The table that some pairs make. -/
def tableOfPairs? (kvs : List (KeyPath × Value)) : Option Table :=
  kvs.foldlM (fun t kv => t.addPair kv.1.parents kv.1.last kv.2 .inBraces) []

/-- A value in which arrays and inline tables nest at most `depth` deep. -/
def readValue : Nat → Reader Value
  | depth, cs =>
    match depth, cs with
    | _, '"' :: _ | _, '\'' :: _ => (readString cs).map fun x => (.string x.1, x.2)
    | n + 1, '[' :: r => (readItems (readValue n) r).map fun x => (.array x.1, x.2)
    | n + 1, '{' :: r =>
      match skipGaps r with
      | '}' :: r' => some (.table .inBraces [], r')
      | _ =>
        match readPairs (readValue n) r with
        | none => none
        | some (kvs, r') => (tableOfPairs? kvs).map fun t => (.table .inBraces t, r')
    | _, _ => readWord cs

end ChainIndent.Toml
