/-!
# ChainIndent.Text.Blank

What counts as white space, and the two questions a formatter asks about it:

1. a character is blank exactly when it has the Unicode property
   `White_Space`: 25 characters in ten ranges, among them the no-break
   spaces and the line and paragraph separators, but neither the zero-width
   space U+200B nor the byte order mark U+FEFF;
2. the *indentation* of a line is its longest blank prefix, and `trimStart`
   is what is left of the line after it;
3. a line is blank when nothing is left.
-/

namespace ChainIndent

/-- A line of text, without its line ending. -/
abbrev Line := List Char

/-! ## Blank characters -/

/-- The ranges of code points with the property `White_Space`, both ends
included, in ascending order. -/
def blankRanges : List (Nat × Nat) :=
  [(0x0009, 0x000D), (0x0020, 0x0020), (0x0085, 0x0085), (0x00A0, 0x00A0), (0x1680, 0x1680),
   (0x2000, 0x200A), (0x2028, 0x2029), (0x202F, 0x202F), (0x205F, 0x205F), (0x3000, 0x3000)]

/-- A character with the property `White_Space`. -/
def isBlank (c : Char) : Bool :=
  blankRanges.any fun r => r.1 ≤ c.toNat && c.toNat ≤ r.2

/-! ## Indentation -/

/-- What follows the indentation of a line. -/
def trimStart (l : Line) : Line := l.dropWhile isBlank

/-- A line of white space only, the empty one included. -/
def isBlankLine (l : Line) : Bool := l.all isBlank

@[simp] theorem trimStart_nil : trimStart [] = [] := rfl

theorem trimStart_cons_of_blank {c : Char} {l : Line} (h : isBlank c = true) :
    trimStart (c :: l) = trimStart l := by
  simp [trimStart, h]

theorem trimStart_cons_of_not_blank {c : Char} {l : Line} (h : isBlank c = false) :
    trimStart (c :: l) = c :: l := by
  simp [trimStart, h]

/-- Blank characters in front of a line are indentation. -/
theorem trimStart_append_of_blank {u l : Line} (h : isBlankLine u = true) :
    trimStart (u ++ l) = trimStart l := by
  induction u with
  | nil => rfl
  | cons c u ih =>
    simp only [isBlankLine, List.all_cons, Bool.and_eq_true] at h
    rw [List.cons_append, trimStart_cons_of_blank h.1, ih h.2]

/-- A trimmed line has no indentation left. -/
@[simp] theorem trimStart_trimStart (l : Line) : trimStart (trimStart l) = trimStart l := by
  induction l with
  | nil => rfl
  | cons c l ih =>
    cases h : isBlank c with
    | true => rw [trimStart_cons_of_blank h, ih]
    | false => rw [trimStart_cons_of_not_blank h, trimStart_cons_of_not_blank h]

/-- Trimming takes nothing from a line but its beginning. -/
theorem trimStart_suffix (l : Line) : trimStart l <:+ l := List.dropWhile_suffix _

/-- A line is blank exactly when trimming leaves nothing. -/
theorem trimStart_eq_nil_iff {l : Line} : trimStart l = [] ↔ isBlankLine l = true := by
  induction l with
  | nil => simp [isBlankLine]
  | cons c l ih =>
    cases h : isBlank c with
    | true => rw [trimStart_cons_of_blank h, ih]; simp [isBlankLine, h]
    | false => rw [trimStart_cons_of_not_blank h]; simp [isBlankLine, h]

/-- A trimmed line is blank exactly when the line is. -/
theorem isBlankLine_trimStart (l : Line) : isBlankLine (trimStart l) = isBlankLine l := by
  rw [Bool.eq_iff_iff, ← trimStart_eq_nil_iff, ← trimStart_eq_nil_iff, trimStart_trimStart]

end ChainIndent
