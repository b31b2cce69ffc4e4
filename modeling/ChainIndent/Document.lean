import ChainIndent.Layout.Run
import ChainIndent.Region

/-!
# ChainIndent.Document

Formatting the text of a document:

1. a style that is not valid formats nothing;
2. a text without the signature is returned as it is, byte for byte, with a
   tally of zeros;
3. otherwise the region is laid out and every line of the document, those
   outside the region included, is ended by a newline.
-/

namespace ChainIndent

/-- What formatting a text gives. -/
structure Formatted where
  text : List Char
  tally : Tally
  events : List Event
  deriving DecidableEq, Repr

namespace Style

/-- Format a text with a style that is known to be valid. -/
def formatValid (s : Style) (text : List Char) : Formatted :=
  let r := s.locate (splitLines text)
  if r.isFound then
    let d := s.reindent r.body
    let tally := { d.tally with regionFound := true }
    { text := r.rewrite d.lines
      tally := tally
      events := r.event s :: d.events ++ [.regionReindented tally] }
  else { text := text, tally := {}, events := [r.event s, .documentUnchanged s.signature] }

/-- Format a text, if the style is valid.  Nothing else can fail: markers are
compared as the words they are, and the limit that a compiled matcher sets to
their size is left out. -/
def format (s : Style) (text : List Char) : Except Problem Formatted :=
  match s.problem? with
  | some p => .error p
  | none => .ok (s.formatValid text)

theorem format_of_valid {s : Style} (h : s.Valid) (text : List Char) :
    s.format text = .ok (s.formatValid text) := by
  simp [format, problem?_eq_none_iff.2 h]

/-- The text that formatting gives. -/
def formatText (s : Style) (text : List Char) : Except Problem (List Char) :=
  (s.format text).map Formatted.text

theorem formatText_of_valid {s : Style} (h : s.Valid) (text : List Char) :
    s.formatText text = .ok (s.formatValid text).text := by
  rw [formatText, format_of_valid h]
  rfl

end Style

end ChainIndent
