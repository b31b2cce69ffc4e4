import ChainIndent.Style
import ChainIndent.Text.Literal

/-!
# ChainIndent.Line.Kind

The kind of a line decides all that is done with it.  It is read off the
text alone, after the indentation: a marker inside a string literal or
behind other code is a marker too.  The first rule that fits wins:

1. nothing but white space: `blank`;
2. exactly the style's `verbatimEnd`: `verbatimEnd`;
3. starts with the comment prefix, if there is one: `comment`;
4. holds the opener of callbacks, if there is one: `verbatimStart`;
5. starts with a dedent marker: `dedent`;
6. starts with an indent marker: `indent`;
7. anything else: `plain`.
-/

namespace ChainIndent

/-- What a line is in a builder chain. -/
inductive LineKind where
  | blank
  | comment
  | verbatimStart
  | verbatimEnd
  | dedent
  | indent
  | plain
  deriving DecidableEq, Repr

namespace Style

/-- The kind of a line whose indentation is already taken off. -/
def classify (s : Style) (t : Line) : LineKind :=
  if isBlankLine t then .blank
  else if t = s.verbatimEnd then .verbatimEnd
  else if s.commentPrefix ≠ [] ∧ s.commentPrefix.isPrefixOf t = true then .comment
  else if hasMarker .anywhere [s.verbatimStart] t then .verbatimStart
  else if hasMarker .atStart s.dedentMarkers t then .dedent
  else if hasMarker .atStart s.indentMarkers t then .indent
  else .plain

/-- The kind of a line as it stands in the document. -/
def kindOf (s : Style) (l : Line) : LineKind := s.classify (trimStart l)

/-- A line is of kind `blank` exactly when it holds white space only. -/
theorem kindOf_eq_blank_iff {s : Style} {l : Line} : s.kindOf l = .blank ↔ isBlankLine l = true := by
  rw [← isBlankLine_trimStart]
  unfold kindOf classify
  constructor
  · intro h
    repeat' split at h
    all_goals first | assumption | cases h
  · intro h
    rw [if_pos h]

end Style

end ChainIndent
