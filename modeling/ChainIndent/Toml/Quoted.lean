import ChainIndent.Toml.Blank

/-!
# ChainIndent.Toml.Quoted

The four kinds of quoted text.

1. Between double quotes a backslash begins an escape: one of the letters
   `b t n f r`, a quote or a backslash, or `u` and `U` with four or eight hex
   digits that name a Unicode scalar value.
2. Between single quotes every character stands for itself.
3. Three quotes open a text over several lines.  A line ending right after
   them is dropped, CR LF is read as LF, and one or two quotes may stand
   anywhere in the text, also in front of the three that close it.
4. In the double-quoted text over several lines a backslash at the end of a
   line takes away the line ending and all white space after it.
-/

namespace ChainIndent.Toml

/-- The value of a hexadecimal digit. -/
def hexDigit? (c : Char) : Option Nat :=
  if '0' ≤ c ∧ c ≤ '9' then some (c.toNat - '0'.toNat)
  else if 'a' ≤ c ∧ c ≤ 'f' then some (c.toNat - 'a'.toNat + 10)
  else if 'A' ≤ c ∧ c ≤ 'F' then some (c.toNat - 'A'.toNat + 10)
  else none

/-- The character with a code point, unless it is a surrogate or too
large. -/
def scalar? (n : Nat) : Option Char := if n.isValidChar then some (Char.ofNat n) else none

/-- The character that a letter stands for behind a backslash. -/
def escaped? : Char → Option Char
  | 'b' => some '\x08'
  | 't' => some '\t'
  | 'n' => some '\n'
  | 'f' => some '\x0c'
  | 'r' => some '\r'
  | '"' => some '"'
  | '\\' => some '\\'
  | _ => none

/-- Where in a double-quoted text the reader is. -/
inductive QuoteState where
  /-- Among ordinary characters. -/
  | text
  /-- Behind a backslash. -/
  | escape
  /-- Inside a code point: digits still to come, and the value so far. -/
  | code (left value : Nat)
  /-- Between a backslash and the end of its line. -/
  | lineEnd
  /-- Behind a line ending that a backslash took away. -/
  | joined
  deriving DecidableEq, Repr

/-- Up to two quotes that stand in front of the closing ones, once three
have been read. -/
def closingQuotes (q : Char) (r : List Char) : List Char × List Char :=
  match r with
  | a :: b :: r' =>
    if a = q then if b = q then ([q, q], r') else ([q], b :: r') else ([], r)
  | [a] => if a = q then ([q], []) else ([], r)
  | [] => ([], [])

/-- The rest of a double-quoted text, `multi` telling whether it may run
over several lines. -/
def readBasic (multi : Bool) : QuoteState → Reader (List Char)
  | _, [] => none
  | .escape, c :: r =>
    match escaped? c with
    | some d => (readBasic multi .text r).map fun x => (d :: x.1, x.2)
    | none =>
      if c = 'u' then readBasic multi (.code 4 0) r
      else if c = 'U' then readBasic multi (.code 8 0) r
      else if !multi then none
      else if c = '\n' then readBasic multi .joined r
      else if isGap c || (c = '\r' && r.head? = some '\n') then readBasic multi .lineEnd r
      else none
  | .code left value, c :: r =>
    match hexDigit? c with
    | none => none
    | some d =>
      if left = 1 then
        match scalar? (16 * value + d) with
        | none => none
        | some e => (readBasic multi .text r).map fun x => (e :: x.1, x.2)
      else readBasic multi (.code (left - 1) (16 * value + d)) r
  | .lineEnd, c :: r =>
    if c = '\n' then readBasic multi .joined r
    else if isGap c || (c = '\r' && r.head? = some '\n') then readBasic multi .lineEnd r
    else none
  | state, c :: r =>
    if c = '"' then
      if !multi then some ([], r)
      else match r with
        | '"' :: '"' :: r' => some (closingQuotes '"' r')
        | _ => (readBasic multi .text r).map fun x => ('"' :: x.1, x.2)
    else if c = '\\' then readBasic multi .escape r
    else if multi && c = '\r' && r.head? = some '\n' then readBasic multi state r
    else if state = .joined && (isGap c || c = '\n') then readBasic multi .joined r
    else if isPlain c || (multi && c = '\n') then
      (readBasic multi .text r).map fun x => (c :: x.1, x.2)
    else none

/-- The rest of a single-quoted text. -/
def readLiteral (multi : Bool) : Reader (List Char)
  | [] => none
  | c :: r =>
    if c = '\'' then
      if !multi then some ([], r)
      else match r with
        | '\'' :: '\'' :: r' => some (closingQuotes '\'' r')
        | _ => (readLiteral multi r).map fun x => ('\'' :: x.1, x.2)
    else if multi && c = '\r' && r.head? = some '\n' then readLiteral multi r
    else if isPlain c || (multi && c = '\n') then
      (readLiteral multi r).map fun x => (c :: x.1, x.2)
    else none

/-- The text behind the line ending that may follow three opening quotes. -/
def afterOpening (r : List Char) : List Char := (lineEnding? r).getD r

/-- A quoted text on one line. -/
def readQuoted : Reader (List Char)
  | '"' :: r => readBasic false .text r
  | '\'' :: r => readLiteral false r
  | _ => none

/-- A quoted text of any kind. -/
def readString : Reader (List Char)
  | '"' :: '"' :: '"' :: r => readBasic true .text (afterOpening r)
  | '\'' :: '\'' :: '\'' :: r => readLiteral true (afterOpening r)
  | cs => readQuoted cs

end ChainIndent.Toml
