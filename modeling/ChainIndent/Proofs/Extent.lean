import ChainIndent.Proofs.OpenCallback

/-!
# ChainIndent.Proofs.Extent

How far the region of a document reaches.

* `le_bodyLength_iff` — the scan for the end goes past `n` lines exactly when
  none of them ends the region, that is, stands outside all callbacks and
  looks like a closing line;
* `bodyLength_append` — over two groups of lines it goes on with the second
  where it left the first;
* `signatureLine?_take_append` — what follows the signature line does not
  move it;
* `isFound_locate_iff` — there is a region when some line holds the signature;
* `locate_append_append` — a document is cut between parts that the search and
  the scan would leave whole;
* `locate_congr` — the cut is the same for styles that look for the same things.
-/

namespace ChainIndent

namespace Style

/-! ## the end of the region -/

theorem endsRegion_eq_true_iff {s : Style} {l : Line} :
    s.endsRegion l = true ↔ s.regionEndPrefix <+: l ∧ ¬ s.verbatimEnd <:+: l := by
  rw [endsRegion, Bool.and_eq_true, List.isPrefixOf_iff_prefix, Bool.not_eq_true',
    ← Bool.not_eq_true, occursIn_iff]

/-- Line `m` ends the region that begins with the lines `ls`, if `isOpen`
tells whether a callback is open before them. -/
def EndsAt (s : Style) (isOpen : Bool) (ls : List Line) (m : Nat) : Prop :=
  s.openBehind isOpen (ls.take m) = false ∧ ∃ l, ls[m]? = some l ∧ s.endsRegion l = true

theorem endsAt_zero_cons {s : Style} {isOpen : Bool} {l : Line} {ls : List Line} :
    s.EndsAt isOpen (l :: ls) 0 ↔ isOpen = false ∧ s.endsRegion l = true := by
  simp [EndsAt]

theorem endsAt_succ_cons {s : Style} {isOpen : Bool} {l : Line} {ls : List Line} {m : Nat} :
    s.EndsAt isOpen (l :: ls) (m + 1) ↔ s.EndsAt (opensAfter isOpen (s.kindOf l)) ls m := by
  simp [EndsAt]

/-- **The region ends at the first line that ends it**, or with the document. -/
theorem le_bodyLength_iff {s : Style} {isOpen : Bool} {ls : List Line} {n : Nat} :
    n ≤ s.bodyLength isOpen ls ↔ n ≤ ls.length ∧ ∀ m, m < n → ¬ s.EndsAt isOpen ls m := by
  induction ls generalizing isOpen n with
  | nil =>
      simp only [bodyLength, List.length_nil, Nat.le_zero]
      constructor
      · intro hn
        exact ⟨hn, fun m hm => by omega⟩
      · exact And.left
  | cons l ls ih =>
      rw [bodyLength]
      split
      · next hstop =>
          have hends : s.EndsAt isOpen (l :: ls) 0 := by
            rw [endsAt_zero_cons]; simpa using hstop
          constructor
          · intro hn
            exact ⟨by omega, fun m hm => by omega⟩
          · intro hall
            by_cases hn : n = 0
            · omega
            · exact absurd hends (hall.2 0 (by omega))
      · next hgo =>
          have hends : ¬ s.EndsAt isOpen (l :: ls) 0 := by
            rw [endsAt_zero_cons]; simpa using hgo
          cases n with
          | zero => simp
          | succ n =>
              rw [Nat.succ_le_succ_iff, ih, List.length_cons, Nat.succ_le_succ_iff]
              constructor
              · intro hall
                refine ⟨hall.1, fun m hm => ?_⟩
                cases m with
                | zero => exact hends
                | succ m =>
                    rw [endsAt_succ_cons]
                    exact hall.2 m (by omega)
              · intro hall
                refine ⟨hall.1, fun m hm => ?_⟩
                rw [← endsAt_succ_cons (l := l)]
                exact hall.2 (m + 1) (by omega)

/-- If the region stops short of the document, the next line ends it. -/
theorem endsAt_bodyLength {s : Style} {isOpen : Bool} {ls : List Line}
    (h : s.bodyLength isOpen ls < ls.length) : s.EndsAt isOpen ls (s.bodyLength isOpen ls) := by
  have hself : ∀ m, m < s.bodyLength isOpen ls → ¬ s.EndsAt isOpen ls m :=
    (le_bodyLength_iff.1 (Nat.le_refl _)).2
  apply Classical.byContradiction
  intro hnot
  have hmore : s.bodyLength isOpen ls + 1 ≤ s.bodyLength isOpen ls := by
    refine le_bodyLength_iff.2 ⟨h, fun m hm => ?_⟩
    obtain hlt | rfl := Nat.lt_succ_iff_lt_or_eq.1 hm
    · exact hself m hlt
    · exact hnot
  omega

/-- A line that ends the region bounds its length. -/
theorem bodyLength_le_of_endsAt {s : Style} {isOpen : Bool} {ls : List Line} {m : Nat}
    (h : s.EndsAt isOpen ls m) : s.bodyLength isOpen ls ≤ m := by
  apply Nat.le_of_not_lt
  intro hlt
  exact (le_bodyLength_iff.1 (Nat.succ_le_of_lt hlt)).2 m (Nat.lt_succ_self m) h

/-- Over two groups of lines the scan stops in the first, or goes on with the
second where it left the first. -/
theorem bodyLength_append (s : Style) (isOpen : Bool) (xs ys : List Line) :
    s.bodyLength isOpen (xs ++ ys) =
      if s.bodyLength isOpen xs = xs.length then
        xs.length + s.bodyLength (s.openBehind isOpen xs) ys
      else s.bodyLength isOpen xs := by
  induction xs generalizing isOpen with
  | nil => simp [bodyLength]
  | cons x xs ih =>
      by_cases hstop : (!isOpen && s.endsRegion x) = true
      · simp [bodyLength, hstop]
      · grind [bodyLength, openBehind_cons]

/-- Whether the scan stops at a line is no matter of the lines behind it. -/
theorem bodyLength_append_cons_eq_iff {s : Style} {isOpen : Bool} {xs ys : List Line} {l : Line} :
    s.bodyLength isOpen (xs ++ l :: ys) = xs.length ↔
      s.bodyLength isOpen xs = xs.length ∧ s.openBehind isOpen xs = false ∧
        s.endsRegion l = true := by
  have hstop : s.bodyLength (s.openBehind isOpen xs) (l :: ys) = 0 ↔
      s.openBehind isOpen xs = false ∧ s.endsRegion l = true := by
    rw [bodyLength]
    split <;> simp_all
  rw [bodyLength_append, ← hstop]
  split <;> simp_all

/-! ## the beginning of the region -/

/-- The signature line depends on nothing behind it. -/
theorem signatureLine?_take_append {s : Style} {ls : List Line} {i n : Nat}
    (h : s.signatureLine? ls = some i) (hi : i < n) (ms : List Line) :
    s.signatureLine? (ls.take n ++ ms) = some i := by
  obtain ⟨hlen, hat, hbefore⟩ := List.findIdx?_eq_some_iff_getElem.1 h
  have htake : (ls.take n).findIdx? (occursIn s.signature) = some i := by
    rw [List.findIdx?_eq_some_iff_getElem]
    refine ⟨by rw [List.length_take]; omega, by simpa using hat, fun j hj => ?_⟩
    simpa using hbefore j hj
  exact (List.prefix_append _ _).findIdx?_eq_some htake

theorem signatureLine?_eq_none_iff {s : Style} {ls : List Line} :
    s.signatureLine? ls = none ↔ ∀ l ∈ ls, ¬ s.signature <:+: l := by
  rw [signatureLine?, List.findIdx?_eq_none_iff]
  simp only [← occursIn_iff, Bool.not_eq_true]

/-- Nor does it depend on the lines in front of it that do not hold the
signature, but for their number. -/
theorem signatureLine?_append_cons {s : Style} {before : List Line}
    (hbefore : ∀ l ∈ before, ¬ s.signature <:+: l) {l : Line} (hl : s.signature <:+: l)
    (ls : List Line) : s.signatureLine? (before ++ l :: ls) = some before.length := by
  have hnone := signatureLine?_eq_none_iff.2 hbefore
  rw [signatureLine?] at hnone ⊢
  simp [List.findIdx?_append, hnone, List.findIdx?_cons, occursIn_iff.2 hl]

/-! ## the region -/

theorem locate_of_none {s : Style} {ls : List Line} (h : s.signatureLine? ls = none) :
    s.locate ls = { before := ls, body := [], after := [], signatureLine := none } := by
  rw [locate, h]

theorem locate_of_some {s : Style} {ls : List Line} {i : Nat} (h : s.signatureLine? ls = some i) :
    s.locate ls = s.cutAt ls i (i + 1 + s.headerLines) := by
  rw [locate, h]

theorem signatureLine_locate (s : Style) (ls : List Line) :
    (s.locate ls).signatureLine = s.signatureLine? ls := by
  rw [locate]
  split <;> simp [cutAt, *]

theorem isFound_locate_iff {s : Style} {ls : List Line} :
    (s.locate ls).isFound = true ↔ ∃ l ∈ ls, s.signature <:+: l := by
  rw [Region.isFound, signatureLine_locate, Option.isSome_iff_ne_none, Ne,
    signatureLine?_eq_none_iff]
  simp

/-- A document is cut between three parts if the search finds the signature in
the first and the scan goes past the second and no further. -/
theorem locate_append_append {s : Style} {before body after : List Line} {i : Nat}
    (hsig : s.signatureLine? (before ++ body ++ after) = some i)
    (hbefore : before.length = i + 1 + s.headerLines)
    (hbody : s.bodyLength false (body ++ after) = body.length) :
    s.locate (before ++ body ++ after) =
      { before := before, body := body, after := after, signatureLine := some i } := by
  rw [locate_of_some hsig, cutAt, ← hbefore, List.append_assoc, List.take_left, List.drop_left,
    hbody, List.take_left, List.drop_left]

/-! ## two styles -/

section Congr

variable {s s' : Style} (hends : ∀ l, s'.endsRegion l = s.endsRegion l)
  (hkind : ∀ l, s'.kindOf l = s.kindOf l)

include hends hkind

theorem bodyLength_congr (isOpen : Bool) (ls : List Line) :
    s'.bodyLength isOpen ls = s.bodyLength isOpen ls := by
  induction ls generalizing isOpen with
  | nil => rfl
  | cons l ls ih => rw [bodyLength, bodyLength, hends, hkind, ih]

/-- **Where the region stands** is a matter of the signature, the header lines,
the lines that look like closing lines and the kinds of lines. -/
theorem locate_congr (hsig : s'.signature = s.signature) (hheader : s'.headerLines = s.headerLines)
    (ls : List Line) : s'.locate ls = s.locate ls := by
  have hline : s'.signatureLine? ls = s.signatureLine? ls := by
    rw [signatureLine?, signatureLine?, hsig]
  cases h : s.signatureLine? ls with
  | none => rw [locate_of_none h, locate_of_none (hline.trans h)]
  | some i =>
      rw [locate_of_some h, locate_of_some (hline.trans h), hheader, cutAt, cutAt,
        bodyLength_congr hends hkind]

end Congr

end Style

end ChainIndent
