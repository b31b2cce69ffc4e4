import ChainIndent.Callback
import ChainIndent.Region
import ChainIndent.Layout.Run

/-!
# ChainIndent.Proofs.OpenCallback

Whether a callback is open is tracked twice: the scan for the end of a region
carries a flag from line to line, and the layout carries one in its context.
Both flags step in the same way (`opensAfter`), so behind any lines both hold
the same value, `openBehind`, and that value has a description without a
history (`openBehind_take_iff`):

* `insideCallback_succ_iff` — what one line does to the description;
* `openBehind_take_iff` — the flag of a scan is the description;
* `inCallback_lastContext` — the flag of the layout is the flag of a scan.
-/

namespace ChainIndent

/-! ## the description, line by line -/

/-- Behind a line a callback is open if one was open before it that the line
does not close, or if the line opens one. -/
theorem insideCallback_succ_iff {ks : List LineKind} {i : Nat} {k : LineKind}
    (h : ks[i]? = some k) :
    InsideCallback ks (i + 1) ↔
      (InsideCallback ks i ∧ k ≠ .verbatimEnd) ∨ k = .verbatimStart := by
  constructor
  · intro ⟨j, hj, hstart, hend⟩
    obtain hlt | rfl := Nat.lt_succ_iff_lt_or_eq.1 hj
    · left
      have hk : k ≠ .verbatimEnd := by
        intro hk
        exact hend i (Nat.lt_succ_self i) hlt (hk ▸ h)
      exact ⟨⟨j, hlt, hstart, fun m hm => hend m (Nat.lt_succ_of_lt hm)⟩, hk⟩
    · right
      rw [hstart] at h
      exact (Option.some.inj h).symm
  · intro hbehind
    obtain ⟨⟨j, hj, hstart, hend⟩, hk⟩ | rfl := hbehind
    · refine ⟨j, Nat.lt_succ_of_lt hj, hstart, fun m hm hjm => ?_⟩
      obtain hlt | rfl := Nat.lt_succ_iff_lt_or_eq.1 hm
      · exact hend m hlt hjm
      · rw [h]
        exact fun he => hk (Option.some.inj he)
    · exact ⟨i, Nat.lt_succ_self i, h, fun m hm him => by omega⟩

/-- Behind the last line nothing changes any more. -/
theorem insideCallback_succ_iff_of_none {ks : List LineKind} {i : Nat} (h : ks[i]? = none) :
    InsideCallback ks (i + 1) ↔ InsideCallback ks i := by
  constructor
  · intro ⟨j, hj, hstart, hend⟩
    obtain hlt | rfl := Nat.lt_succ_iff_lt_or_eq.1 hj
    · exact ⟨j, hlt, hstart, fun m hm => hend m (Nat.lt_succ_of_lt hm)⟩
    · rw [h] at hstart; contradiction
  · intro ⟨j, hj, hstart, hend⟩
    refine ⟨j, Nat.lt_succ_of_lt hj, hstart, fun m hm hjm => ?_⟩
    obtain hlt | rfl := Nat.lt_succ_iff_lt_or_eq.1 hm
    · exact hend m hlt hjm
    · rw [h]; exact fun he => nomatch he

/-! ## the description in a larger document -/

/-- Whether place `i` lies inside a callback that was opened at place `start`
or behind it. -/
def InsideCallbackFrom (start : Nat) (ks : List LineKind) (i : Nat) : Prop :=
  ∃ j, start ≤ j ∧ j < i ∧ ks[j]? = some .verbatimStart ∧
    ∀ m, j < m → m < i → ks[m]? ≠ some .verbatimEnd

instance (start : Nat) (ks : List LineKind) (i : Nat) : Decidable (InsideCallbackFrom start ks i) :=
  decidable_of_iff (∃ j, ∃ _ : j < i, start ≤ j ∧ ks[j]? = some .verbatimStart ∧
    ∀ m, m < i → j < m → ks[m]? ≠ some .verbatimEnd)
    ⟨fun ⟨j, hj, hstart, hopen, h⟩ => ⟨j, hstart, hj, hopen, fun m hjm hm => h m hm hjm⟩,
      fun ⟨j, hstart, hj, hopen, h⟩ => ⟨j, hj, hstart, hopen, fun m hm hjm => h m hjm hm⟩⟩

theorem InsideCallbackFrom.mono {first start : Nat} (hle : first ≤ start) {ks : List LineKind}
    {i : Nat} (h : InsideCallbackFrom start ks i) : InsideCallbackFrom first ks i := by
  obtain ⟨j, hstart, hj, hopen, hclose⟩ := h
  exact ⟨j, Nat.le_trans hle hstart, hj, hopen, hclose⟩

/-- The middle of three parts, counted from its own beginning. -/
theorem getElem?_append_inside {α : Type} {xs ms zs : List α} {j : Nat} (hj : j < ms.length) :
    (xs ++ ms ++ zs)[xs.length + j]? = ms[j]? := by
  rw [List.append_assoc, List.getElem?_append_right (Nat.le_add_right _ _),
    Nat.add_sub_cancel_left, List.getElem?_append_left hj]

/-- Places of a region can be counted from its own beginning. -/
theorem insideCallbackFrom_append_iff {before ks after : List LineKind} {i : Nat}
    (hi : i ≤ ks.length) :
    InsideCallbackFrom before.length (before ++ ks ++ after) (before.length + i) ↔
      InsideCallback ks i := by
  have hget : ∀ m, m < i → (before ++ ks ++ after)[before.length + m]? = ks[m]? :=
    fun m hm => getElem?_append_inside (by omega)
  constructor
  · intro ⟨j, hstart, hj, hopen, hclose⟩
    obtain ⟨j, rfl⟩ := Nat.exists_eq_add_of_le hstart
    have hji : j < i := by omega
    rw [hget j hji] at hopen
    refine ⟨j, hji, hopen, fun m hm hjm => ?_⟩
    rw [← hget m hm]
    exact hclose (before.length + m) (by omega) (by omega)
  · intro ⟨j, hj, hopen, hclose⟩
    have hopen' : (before ++ ks ++ after)[before.length + j]? = some .verbatimStart := by
      rw [hget j hj, hopen]
    refine ⟨before.length + j, by omega, by omega, hopen', fun m hjm hm => ?_⟩
    have hle : before.length ≤ m := by omega
    obtain ⟨m, rfl⟩ := Nat.exists_eq_add_of_le hle
    have hmi : m < i := by omega
    rw [hget m hmi]
    exact hclose m hmi (by omega)

namespace Style

/-! ## the flag of a scan -/

/-- Whether a callback is open behind some lines, if `isOpen` tells whether
one is before them. -/
def openBehind (s : Style) (isOpen : Bool) (ls : List Line) : Bool :=
  (s.kinds ls).foldl opensAfter isOpen

@[simp] theorem openBehind_nil (s : Style) (isOpen : Bool) : s.openBehind isOpen [] = isOpen := rfl

@[simp] theorem openBehind_cons (s : Style) (isOpen : Bool) (l : Line) (ls : List Line) :
    s.openBehind isOpen (l :: ls) = s.openBehind (opensAfter isOpen (s.kindOf l)) ls := rfl

theorem openBehind_append (s : Style) (isOpen : Bool) (ls ms : List Line) :
    s.openBehind isOpen (ls ++ ms) = s.openBehind (s.openBehind isOpen ls) ms := by
  simp [openBehind, kinds]

/-- Only the kinds of the lines matter. -/
theorem openBehind_congr {s : Style} {ls ms : List Line} (h : s.kinds ls = s.kinds ms)
    (isOpen : Bool) : s.openBehind isOpen ls = s.openBehind isOpen ms := by
  rw [openBehind, openBehind, h]

theorem opensAfter_eq_true_iff {isOpen : Bool} {k : LineKind} :
    opensAfter isOpen k = true ↔ (isOpen = true ∧ k ≠ .verbatimEnd) ∨ k = .verbatimStart := by
  cases isOpen <;> cases k <;> simp [opensAfter]

/-- **The flag has no memory**: in front of line `i` it is set exactly when
place `i` lies inside a callback. -/
theorem openBehind_take_iff (s : Style) (ls : List Line) (i : Nat) :
    s.openBehind false (ls.take i) = true ↔ InsideCallback (s.kinds ls) i := by
  induction i with
  | zero => simp [not_insideCallback_zero]
  | succ i ih =>
      cases h : ls[i]? with
      | none =>
          have hk : (s.kinds ls)[i]? = none := by simp [kinds, h]
          have htake : ls.take (i + 1) = ls.take i := by rw [List.take_add_one, h]; simp
          rw [htake, ih, insideCallback_succ_iff_of_none hk]
      | some l =>
          have hk : (s.kinds ls)[i]? = some (s.kindOf l) := by simp [kinds, h]
          have htake : ls.take (i + 1) = ls.take i ++ [l] := by rw [List.take_add_one, h]; rfl
          rw [htake, openBehind_append, openBehind_cons, openBehind_nil, opensAfter_eq_true_iff,
            ih, insideCallback_succ_iff hk]

/-! ## the flag of the layout -/

theorem inCallback_after_step (s : Style) (c : Context) (l : Line) :
    (s.step c l).after.inCallback = opensAfter c.inCallback (s.kindOf l) := by
  rw [step, Context.inCallback_after]
  rfl

/-- **The two flags agree**: the layout and the scan see the same callbacks. -/
theorem inCallback_lastContext (s : Style) (c : Context) (ls : List Line) :
    (lastContext c (run s.step c ls)).inCallback = s.openBehind c.inCallback ls := by
  induction ls generalizing c with
  | nil => rfl
  | cons l ls ih =>
      rw [run_cons, lastContext_cons, ih, inCallback_after_step, openBehind_cons]

end Style

end ChainIndent
