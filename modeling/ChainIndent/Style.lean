import ChainIndent.Text.Blank

/-!
# ChainIndent.Style

A *style* says where the builder chain of a document stands, which words in
it mark nesting and callbacks, and what one step of indentation is:

1. the region begins after the first line that holds `signature` and
   `headerLines` further lines, and ends before the first line outside a
   callback that starts with `regionEndPrefix`;
2. a line that starts with an indent marker opens a level for the lines
   after it, a line that starts with a dedent marker closes one;
3. a line that holds `verbatimStart` opens a callback, and a line that is
   exactly `verbatimEnd` closes it;
4. the outermost calls stand at level `baseIndent`, and one level is
   `indentChar` written `indentWidth` times.

The defaults fit the command trees that the command-line builders of Go
programs write.  A style is *valid* when its numbers stay under their
limits and none of the words that must be there is empty; only then is a
document formatted with it.
-/

namespace ChainIndent

/-- How to find a builder chain and how to indent it. -/
structure Style where
  baseIndent : Nat := 2
  indentChar : List Char := ['\t']
  indentWidth : Nat := 1
  signature : List Char := "func buildRootCommand()".toList
  headerLines : Nat := 1
  commentPrefix : List Char := "//".toList
  indentMarkers : List (List Char) := ["Subcommand(".toList, "Flag(".toList, "Arg(".toList]
  dedentMarkers : List (List Char) := ["Done().".toList]
  verbatimStart : List Char := "Handler(func".toList
  verbatimEnd : List Char := ['}', ')', '.']
  regionEndPrefix : List Char := ['}']
  deriving DecidableEq, Repr

namespace Style

/-- The style in force where no other is given. -/
def standard : Style := {}

instance : Inhabited Style := ⟨standard⟩

/-- What one level of indentation looks like. -/
def indentUnit (s : Style) : List Char := (List.replicate s.indentWidth s.indentChar).flatten

/-! ## Limits -/

/-- The deepest level at which the outermost calls may stand. -/
def maxBaseIndent : Nat := 32

/-- The most repetitions of `indentChar` in one level. -/
def maxIndentWidth : Nat := 16

/-- The most lines that may follow the signature before the region begins. -/
def maxHeaderLines : Nat := 8

/-- Why a style cannot be used. -/
inductive Problem where
  | baseIndentTooLarge (n : Nat)
  | indentCharEmpty
  | indentWidthZero
  | indentWidthTooLarge (n : Nat)
  | headerLinesTooLarge (n : Nat)
  | signatureEmpty
  | verbatimEndEmpty
  | regionEndPrefixEmpty
  deriving DecidableEq, Repr

/-- The wording of a problem. -/
def Problem.message : Problem → String
  | .baseIndentTooLarge n => s!"base_indent {n} exceeds maximum of {maxBaseIndent}"
  | .indentCharEmpty => "indent_char must not be empty"
  | .indentWidthZero => "indent_width must be at least 1"
  | .indentWidthTooLarge n => s!"indent_width {n} exceeds maximum of {maxIndentWidth}"
  | .headerLinesTooLarge n => s!"header_lines {n} exceeds maximum of {maxHeaderLines}"
  | .signatureEmpty => "signature must not be empty"
  | .verbatimEndEmpty => "verbatim_end must not be empty"
  | .regionEndPrefixEmpty => "region_end_prefix must not be empty"

/-- The first problem of a style, in the order of its fields.  An empty
comment prefix or callback opener is none: it only switches the rule off. -/
def problem? (s : Style) : Option Problem :=
  if s.baseIndent > maxBaseIndent then some (.baseIndentTooLarge s.baseIndent)
  else if s.indentChar = [] then some .indentCharEmpty
  else if s.indentWidth = 0 then some .indentWidthZero
  else if s.indentWidth > maxIndentWidth then some (.indentWidthTooLarge s.indentWidth)
  else if s.headerLines > maxHeaderLines then some (.headerLinesTooLarge s.headerLines)
  else if s.signature = [] then some .signatureEmpty
  else if s.verbatimEnd = [] then some .verbatimEndEmpty
  else if s.regionEndPrefix = [] then some .regionEndPrefixEmpty
  else none

/-- A style that a document may be formatted with. -/
structure Valid (s : Style) : Prop where
  baseIndent_le : s.baseIndent ≤ maxBaseIndent
  indentChar_ne_nil : s.indentChar ≠ []
  one_le_indentWidth : 1 ≤ s.indentWidth
  indentWidth_le : s.indentWidth ≤ maxIndentWidth
  headerLines_le : s.headerLines ≤ maxHeaderLines
  signature_ne_nil : s.signature ≠ []
  verbatimEnd_ne_nil : s.verbatimEnd ≠ []
  regionEndPrefix_ne_nil : s.regionEndPrefix ≠ []

/-- A style is valid exactly when no problem is found. -/
theorem problem?_eq_none_iff {s : Style} : s.problem? = none ↔ s.Valid := by
  unfold problem?
  constructor
  · intro h
    repeat' split at h
    all_goals first | (cases h; done) | skip
    constructor <;> first | assumption | omega
  · rintro ⟨h1, h2, h3, h4, h5, h6, h7, h8⟩
    simp only [h2, h6, h7, h8, if_false, gt_iff_lt, Nat.not_lt.2 h1, Nat.not_lt.2 h4,
      Nat.not_lt.2 h5, Nat.ne_of_gt h3]

instance (s : Style) : Decidable s.Valid := decidable_of_iff _ problem?_eq_none_iff

/-- The standard style is valid. -/
theorem valid_standard : standard.Valid := by decide

end Style

end ChainIndent
