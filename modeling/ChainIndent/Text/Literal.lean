import ChainIndent.Text.Blank

/-!
# ChainIndent.Text.Literal

Looking for literal words in a line.  A word is a plain character sequence:
no character in it has a special meaning.

1. a word occurs in a line when the line holds it as a contiguous part, and
   the empty word occurs in every line;
2. a list of words is looked for as alternatives, at the start of the line
   or anywhere in it; empty words in the list are dropped first, and a list
   without any other word accepts nothing.

The brace count of a line stands here too, as the only other question that
is asked of the bare text.
-/

namespace ChainIndent

/-! ## One word -/

/-- Whether a line holds the word `w` somewhere. -/
def occursIn (w : List Char) : Line → Bool
  | [] => w.isEmpty
  | c :: l => w.isPrefixOf (c :: l) || occursIn w l

/-- `occursIn` decides the contiguous-sublist relation. -/
theorem occursIn_iff {w l : List Char} : occursIn w l = true ↔ w <:+: l := by
  induction l with
  | nil => simp [occursIn]
  | cons c l ih => simp [occursIn, ih, List.infix_cons_iff]

/-! ## Several words -/

/-- Where in a line a word has to stand. -/
inductive Anchor where
  | atStart
  | anywhere
  deriving DecidableEq, Repr

/-- Words of which one has to be found. -/
structure Alternatives where
  anchor : Anchor
  words : List (List Char)

namespace Alternatives

/-- The alternatives among some words.  The empty ones do not count, and
without another there are no alternatives. -/
def ofWords? (anchor : Anchor) (words : List (List Char)) : Option Alternatives :=
  match words.filter fun w => !w.isEmpty with
  | [] => none
  | w :: ws => some ⟨anchor, w :: ws⟩

/-- Whether one word stands where it has to. -/
def stands (anchor : Anchor) (w : List Char) (l : Line) : Bool :=
  match anchor with
  | .atStart => w.isPrefixOf l
  | .anywhere => occursIn w l

/-- Whether a line has one of the words where it has to stand. -/
def accepts (a : Alternatives) (l : Line) : Bool := a.words.any fun w => stands a.anchor w l

end Alternatives

/-- Whether a line has one of the non-empty words among `words`. -/
def hasMarker (anchor : Anchor) (words : List (List Char)) (l : Line) : Bool :=
  (Alternatives.ofWords? anchor words).any fun a => a.accepts l

/-- A marker is found exactly when some non-empty word stands in its place:
neither the order of the list nor its repetitions and empty entries matter. -/
theorem hasMarker_iff {anchor : Anchor} {words : List (List Char)} {l : Line} :
    hasMarker anchor words l = true ↔
      ∃ w ∈ words, w ≠ [] ∧ Alternatives.stands anchor w l = true := by
  have key : hasMarker anchor words l =
      (words.filter fun w => !w.isEmpty).any fun w => Alternatives.stands anchor w l := by
    unfold hasMarker Alternatives.ofWords?
    cases words.filter fun w => !w.isEmpty <;> simp [Alternatives.accepts]
  rw [key]
  simp

/-! ## Braces -/

/-- How many more braces a text opens than it closes. -/
def netBraces (l : List Char) : Int := (l.count '{' : Int) - l.count '}'

@[simp] theorem netBraces_nil : netBraces [] = 0 := rfl

theorem netBraces_append (l m : List Char) : netBraces (l ++ m) = netBraces l + netBraces m := by
  simp only [netBraces, List.count_append]; omega

end ChainIndent
