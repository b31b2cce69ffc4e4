import ChainIndent.Line.Kind

/-!
# ChainIndent.Callback

Where callbacks are open, told without a history: a place in a region lies
inside a callback when an opener stands somewhere before it and no closer
stands between the two.  Further openers on the way do not matter, nor do
closers before the opener, and comments and blank lines never count, because
they are lines of another kind.
-/

namespace ChainIndent

/-- Whether place `i`, in front of line `i`, lies inside a callback, among
lines of the kinds `ks`. -/
def InsideCallback (ks : List LineKind) (i : Nat) : Prop :=
  ∃ j, j < i ∧ ks[j]? = some .verbatimStart ∧ ∀ m, m < i → j < m → ks[m]? ≠ some .verbatimEnd

instance (ks : List LineKind) (i : Nat) : Decidable (InsideCallback ks i) :=
  decidable_of_iff (∃ j, ∃ _ : j < i, ks[j]? = some .verbatimStart ∧
    ∀ m, m < i → j < m → ks[m]? ≠ some .verbatimEnd)
    ⟨fun ⟨j, hj, h⟩ => ⟨j, hj, h⟩, fun ⟨j, hj, h⟩ => ⟨j, hj, h⟩⟩

/-- The first place lies in no callback. -/
theorem not_insideCallback_zero (ks : List LineKind) : ¬ InsideCallback ks 0 := by
  rintro ⟨j, hj, _⟩
  omega

namespace Style

/-- The kinds of some lines. -/
def kinds (s : Style) (ls : List Line) : List LineKind := ls.map s.kindOf

@[simp] theorem length_kinds (s : Style) (ls : List Line) : (s.kinds ls).length = ls.length := by
  simp [kinds]

end Style

end ChainIndent
