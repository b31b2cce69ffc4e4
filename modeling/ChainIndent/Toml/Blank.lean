/-!
# ChainIndent.Toml.Blank

What may stand between the parts of a TOML document.

1. Blanks are spaces and tabs, and a line ends with LF or CR LF; a lone CR
   is nowhere allowed.
2. A comment runs from `#` to the end of its line.  It may hold any
   character but control characters, of which only the tab is excepted.

A reader takes what it reads from the front of a text and gives back the
rest, or fails.
-/

namespace ChainIndent.Toml

/-- Reads an `α` from the front of a text. -/
abbrev Reader (α : Type) := List Char → Option (α × List Char)

/-- A space or a tab. -/
def isGap (c : Char) : Bool := c = ' ' || c = '\t'

/-- A character that comments and strings may hold as it is: no control
character but the tab. -/
def isPlain (c : Char) : Bool := c = '\t' || (0x20 ≤ c.toNat && c.toNat ≠ 0x7F)

/-- The text behind its leading spaces and tabs. -/
def skipGaps (cs : List Char) : List Char := cs.dropWhile isGap

/-- The text behind one line ending, if it begins with one. -/
def lineEnding? : List Char → Option (List Char)
  | '\n' :: r => some r
  | '\r' :: '\n' :: r => some r
  | _ => none

/-- The text behind a comment, if it begins with one, without its line
ending. -/
def skipComment (cs : List Char) : List Char :=
  match cs with
  | '#' :: r => r.dropWhile isPlain
  | _ => cs

/-- The text behind the rest of a line that holds nothing more than a
comment. -/
def lineRest? (cs : List Char) : Option (List Char) :=
  match skipComment (skipGaps cs) with
  | [] => some []
  | c :: r => lineEnding? (c :: r)

/-- Spaces, tabs, line endings and comments, as they may stand between the
items of an array.  `inComment` tells that a comment has begun. -/
def skipTrivia (inComment : Bool) : List Char → Option (List Char)
  | [] => some []
  | c :: r =>
    if c = '\n' then skipTrivia false r
    else if c = '\r' then (match r with
      | '\n' :: _ => skipTrivia false r
      | _ => none)
    else if inComment then (if isPlain c then skipTrivia true r else none)
    else if c = '#' then skipTrivia true r
    else if isGap c then skipTrivia false r
    else some (c :: r)

end ChainIndent.Toml
