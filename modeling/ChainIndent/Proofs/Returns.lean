import ChainIndent.Text.Lines

/-!
# ChainIndent.Proofs.Returns

Reading back what was written.  Lines without a newline come back one by one
from their text, except that reading takes one carriage return off the end of
each (`splitLines_joinLines`).  So a line is read back as it is exactly when
it does not end in a carriage return, and one that ends in several gets
shorter with every round.  `trailingReturns` counts how many rounds are left.
-/

namespace ChainIndent

/-! ## carriage returns at the end of a line -/

/-- How many carriage returns a line ends in. -/
def trailingReturns (l : Line) : Nat := (l.reverse.takeWhile (· == '\r')).length

@[simp] theorem trailingReturns_nil : trailingReturns [] = 0 := rfl

@[simp] theorem trailingReturns_append_return (l : Line) :
    trailingReturns (l ++ ['\r']) = trailingReturns l + 1 := by
  simp [trailingReturns]

theorem trailingReturns_eq_zero_iff {l : Line} :
    trailingReturns l = 0 ↔ l.getLast? ≠ some '\r' := by
  obtain rfl | ⟨l, c, rfl⟩ := List.eq_nil_or_concat l
  · simp
  · by_cases hc : c = '\r' <;> simp [trailingReturns, hc]

/-- Reading a line takes one carriage return off it. -/
theorem trailingReturns_chomp (l : Line) : trailingReturns (chomp l) = trailingReturns l - 1 := by
  by_cases h : l.getLast? = some '\r'
  · obtain ⟨m, rfl⟩ := List.getLast?_eq_some_iff.1 h
    rw [chomp_append_cr, trailingReturns_append_return, Nat.add_sub_cancel]
  · rw [chomp_of_getLast?_ne h, trailingReturns_eq_zero_iff.2 h]

/-- Characters in front of another one than a carriage return do not count. -/
theorem trailingReturns_append_cons {c : Char} (hc : c ≠ '\r') (u w : Line) :
    trailingReturns (u ++ c :: w) = trailingReturns (c :: w) := by
  have key : ∀ a b : Line, (a ++ c :: b).takeWhile (· == '\r') = a.takeWhile (· == '\r') := by
    intro a b
    induction a with
    | nil => simp [hc]
    | cons d a ih => rw [List.cons_append, List.takeWhile_cons, List.takeWhile_cons, ih]
  rw [trailingReturns, trailingReturns, List.reverse_append, List.reverse_cons,
    List.append_assoc, List.singleton_append, key, key]

/-- What stands in front of the text of a line does not matter for its end. -/
theorem trailingReturns_append_trimStart {l : Line} (h : isBlankLine l = false) (u : Line) :
    trailingReturns (u ++ trimStart l) = trailingReturns l := by
  obtain ⟨v, hv⟩ := trimStart_suffix l
  cases ht : trimStart l with
  | nil => rw [trimStart_eq_nil_iff.1 ht] at h; contradiction
  | cons c w =>
      have hc : c ≠ '\r' := by
        intro hc
        subst hc
        have hcons := trimStart_cons_of_blank (l := w) (show isBlank '\r' = true by decide)
        have hself := trimStart_trimStart l
        rw [ht, hcons] at hself
        have hlen := (trimStart_suffix w).length_le
        rw [hself, List.length_cons] at hlen
        omega
      rw [trailingReturns_append_cons hc, ← hv, ht, trailingReturns_append_cons hc]

/-! ## the longest end -/

/-- The largest number of carriage returns that a line of `ls` ends in. -/
def mostReturns (ls : List Line) : Nat := (ls.map trailingReturns).foldr max 0

theorem mostReturns_le_iff {ls : List Line} {k : Nat} :
    mostReturns ls ≤ k ↔ ∀ l ∈ ls, trailingReturns l ≤ k := by
  induction ls with
  | nil => simp [mostReturns]
  | cons l ls ih =>
      rw [mostReturns, List.map_cons, List.foldr_cons, Nat.max_le]
      rw [mostReturns] at ih
      rw [ih, List.forall_mem_cons]

/-! ## reading what was written -/

theorem not_mem_of_mem_splitLines {t : List Char} {l : Line} (h : l ∈ splitLines t) :
    '\n' ∉ l := by
  obtain ⟨p, hp, rfl⟩ := List.mem_map.1 h
  have hstart := chomp_prefix p
  exact fun hn => not_mem_of_mem_pieces hp (hstart.subset hn)

theorem splitLines_joinLines {ls : List Line} (h : ∀ l ∈ ls, '\n' ∉ l) :
    splitLines (joinLines ls) = ls.map chomp := by
  rw [splitLines, pieces_joinLines h]

/-- Lines that end in no carriage return are read back as they are. -/
theorem splitLines_joinLines_of_no_return {ls : List Line} (h : ∀ l ∈ ls, '\n' ∉ l)
    (hr : ∀ l ∈ ls, trailingReturns l = 0) : splitLines (joinLines ls) = ls := by
  rw [splitLines_joinLines h]
  calc
    ls.map chomp = ls.map id :=
      List.map_congr_left fun l hl =>
        chomp_of_getLast?_ne (trailingReturns_eq_zero_iff.1 (hr l hl))
    _ = ls := List.map_id ls

/-- Lines without a newline are determined by their text. -/
theorem eq_of_joinLines_eq {ls ms : List Line} (hl : ∀ l ∈ ls, '\n' ∉ l)
    (hm : ∀ l ∈ ms, '\n' ∉ l) (h : joinLines ls = joinLines ms) : ls = ms := by
  rw [← pieces_joinLines hl, h, pieces_joinLines hm]

end ChainIndent
