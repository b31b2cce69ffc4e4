import ChainIndent.Proofs.Nesting
import Mathlib.Data.Nat.Find

/-!
# ChainIndent.Proofs.FailOpen

A callback that is never closed.  The layout fails open: what stands behind
the opener is code that belongs to someone else, and it is copied.

* `OpensLast` — which line opened the callback, told without a run;
* `exists_opensLast` — if a callback is open behind the last line, there is
  such a line;
* `lines_behind_opener` — the lines behind it are written as the inside of a
  callback at the depth of the opener.

Failing open is still laying out: comments are indented and blank lines are
emptied inside a callback, and that it will not be closed cannot be known when
they are reached.  So not all of the rest stays as it is
(`reindent_unclosed_changes`).
-/

namespace ChainIndent

/-- Line `o` opens the callback that is open behind the last line: no closer
stands behind it, but one stands behind every opener in front of it. -/
structure OpensLast (ks : List LineKind) (o : Nat) : Prop where
  opener : ks[o]? = some .verbatimStart
  unclosed : LineKind.verbatimEnd ∉ ks.drop (o + 1)
  first : ∀ j, j < o → ks[j]? = some .verbatimStart → LineKind.verbatimEnd ∈ ks.drop (j + 1)

instance (ks : List LineKind) (o : Nat) : Decidable (OpensLast ks o) :=
  decidable_of_iff (ks[o]? = some .verbatimStart ∧ LineKind.verbatimEnd ∉ ks.drop (o + 1) ∧
    ∀ j, j < o → ks[j]? = some .verbatimStart → LineKind.verbatimEnd ∈ ks.drop (j + 1))
    ⟨fun ⟨h₁, h₂, h₃⟩ => ⟨h₁, h₂, h₃⟩, fun ⟨h₁, h₂, h₃⟩ => ⟨h₁, h₂, h₃⟩⟩

theorem mem_drop_succ_iff {α : Type} {xs : List α} {x : α} {j : Nat} :
    x ∈ xs.drop (j + 1) ↔ ∃ m, j < m ∧ xs[m]? = some x := by
  rw [List.mem_iff_getElem?]
  simp only [List.getElem?_drop]
  constructor
  · intro ⟨n, hn⟩
    exact ⟨j + 1 + n, by omega, hn⟩
  · intro ⟨m, hjm, hm⟩
    obtain ⟨n, rfl⟩ := Nat.exists_eq_add_of_le (Nat.succ_le_of_lt hjm)
    exact ⟨n, hm⟩

/-- Among the openers that no closer follows, there is a first one. -/
theorem exists_opensLast {ks : List LineKind} (h : InsideCallback ks ks.length) :
    ∃ o, OpensLast ks o := by
  classical
  obtain ⟨j, _, hstart, hclose⟩ := h
  have hunclosed : LineKind.verbatimEnd ∉ ks.drop (j + 1) := by
    rw [mem_drop_succ_iff]
    intro ⟨m, hjm, hm⟩
    exact hclose m (List.getElem?_eq_some_iff.1 hm).1 hjm hm
  -- the first one, because an opener inside the open callback has no closer behind it either
  have hex : ∃ j, ks[j]? = some .verbatimStart ∧ LineKind.verbatimEnd ∉ ks.drop (j + 1) :=
    ⟨j, hstart, hunclosed⟩
  obtain ⟨hopener, hlast⟩ := Nat.find_spec hex
  refine ⟨Nat.find hex, hopener, hlast, fun i hi hopen => ?_⟩
  have hmin := Nat.find_min hex hi
  apply Classical.byContradiction
  intro hnot
  exact hmin ⟨hopen, hnot⟩

/-- In front of the opener no callback is open. -/
theorem OpensLast.not_insideCallback {ks : List LineKind} {o : Nat} (h : OpensLast ks o) :
    ¬ InsideCallback ks o := by
  intro ⟨j, hj, hstart, hclose⟩
  obtain ⟨m, hjm, hm⟩ := mem_drop_succ_iff.1 (h.first j hj hstart)
  obtain hlt | heq | hgt := Nat.lt_trichotomy m o
  · exact hclose m hlt hjm hm
  · rw [heq, h.opener] at hm
    contradiction
  · exact h.unclosed (mem_drop_succ_iff.2 ⟨m, hgt, hm⟩)

namespace Style

variable {s : Style} {ls : List Line} {o : Nat}

theorem unterminatedVerbatim_reindent_iff :
    (s.reindent ls).tally.unterminatedVerbatim = true ↔
      InsideCallback (s.kinds ls) (s.kinds ls).length := by
  rw [← openBehind_take_iff, length_kinds, List.take_length]
  exact Bool.eq_iff_iff.1 (inCallback_lastContext s s.start ls)

/-- The context behind the opener, and where the opener itself is written. -/
theorem exists_atDepth_opener (h : OpensLast (s.kinds ls) o) :
    ∃ d l, ls[o]? = some l ∧ (s.reindent ls).lines[o]? = some (Forest.writeAt s d l) ∧
      (s.contextBefore ls (o + 1)).AtDepth s d true := by
  have hopener := h.opener
  rw [kinds, List.getElem?_map] at hopener
  obtain ⟨l, hl, hk⟩ := Option.map_eq_some_iff.1 hopener
  obtain ⟨d, hdepth⟩ := exists_atDepth_contextBefore s ls o
  have houtside : (s.contextBefore ls o).inCallback = false := by
    rw [← Bool.not_eq_true, inCallback_contextBefore_iff]
    exact h.not_insideCallback
  rw [houtside] at hdepth
  have hsame : depthAfter false d .verbatimStart = d := rfl
  have hline := render_place_of_atDepth hdepth hk rfl
  rw [hsame, Nat.min_self] at hline
  refine ⟨d, l, hl, ?_, ?_⟩
  · rw [getElem?_lines_reindent s hl, hline]
  · rw [contextBefore_succ hl]
    exact atDepth_after_step hdepth hk

/-- **What stands behind the opener** is written as the inside of a callback,
at the depth of the opener. -/
theorem lines_behind_opener (h : OpensLast (s.kinds ls) o) :
    ∃ d l, ls[o]? = some l ∧ (s.reindent ls).lines[o]? = some (Forest.writeAt s d l) ∧
      (s.reindent ls).lines.drop (o + 1) = (ls.drop (o + 1)).map (Forest.writeInner s d) := by
  obtain ⟨d, l, hl, hline, hdepth⟩ := exists_atDepth_opener h
  have hinner : ∀ m ∈ ls.drop (o + 1), s.kindOf m ≠ .verbatimEnd := by
    intro m hm hk
    have hmem : s.kindOf m ∈ (ls.drop (o + 1)).map s.kindOf := List.mem_map_of_mem hm
    rw [List.map_drop, hk] at hmem
    exact h.unclosed hmem
  refine ⟨d, l, hl, hline, ?_⟩
  rw [← (written_inner hdepth hinner).1, lines_reindent, ← List.map_drop, steps, run_drop]
  rfl

/-- **Failing open**: behind the opener of a callback that is never closed all
lines are copied, but for comments and blank lines. -/
theorem reindent_fails_open (s : Style) {ls : List Line}
    (h : (s.reindent ls).tally.unterminatedVerbatim = true) :
    ∃ o d, OpensLast (s.kinds ls) o ∧
      (∃ l, ls[o]? = some l ∧ (s.reindent ls).lines[o]? = some (Forest.writeAt s d l)) ∧
      ∀ i raw, o < i → ls[i]? = some raw →
        ∃ out, (s.reindent ls).lines[i]? = some out ∧
          (s.kindOf raw ∉ [LineKind.blank, .comment] → out = raw) ∧
          (s.kindOf raw = .blank → out = []) ∧
          (s.kindOf raw = .comment → out = Forest.writeAt s d raw) := by
  obtain ⟨o, ho⟩ := exists_opensLast (unterminatedVerbatim_reindent_iff.1 h)
  obtain ⟨d, l, hl, hline, hbehind⟩ := lines_behind_opener ho
  refine ⟨o, d, ho, ⟨l, hl, hline⟩, fun i raw hi hraw => ?_⟩
  obtain ⟨n, rfl⟩ := Nat.exists_eq_add_of_le (Nat.succ_le_of_lt hi)
  have hout : (s.reindent ls).lines[o + 1 + n]? = some (Forest.writeInner s d raw) := by
    rw [← List.getElem?_drop, hbehind, List.getElem?_map, List.getElem?_drop, hraw]
    rfl
  refine ⟨_, hout, fun hk => ?_, fun hk => ?_, fun hk => ?_⟩
  · rw [Forest.writeInner, if_neg]
    intro hlaid
    exact hk (by simpa using hlaid)
  · rw [Forest.writeInner, if_pos (.inl hk), writeAt_of_blank hk]
  · rw [Forest.writeInner, if_pos (.inr hk)]

/-- A closed callback, and one in a node that is not closed, with lines of
every kind but a closer behind its opener. -/
theorem reindent_fails_open_markers :
    let ls := ["Handler(func".toList, standard.verbatimEnd, "Flag(".toList,
      " Handler(func".toList, "  Handler(func".toList, " Done().".toList, "Flag(".toList,
      "\t".toList, "//".toList, standard.regionEndPrefix]
    (standard.reindent ls).tally.unterminatedVerbatim = true ∧
      ∃ o d, OpensLast (standard.kinds ls) o ∧
        (∃ l, ls[o]? = some l ∧
          (standard.reindent ls).lines[o]? = some (Forest.writeAt standard d l)) ∧
        ∀ i raw, o < i → ls[i]? = some raw →
          ∃ out, (standard.reindent ls).lines[i]? = some out ∧
            (standard.kindOf raw ∉ [LineKind.blank, .comment] → out = raw) ∧
            (standard.kindOf raw = .blank → out = []) ∧
            (standard.kindOf raw = .comment → out = Forest.writeAt standard d raw) :=
  ⟨by decide, reindent_fails_open standard (by decide)⟩

/-- A line of white space and a comment behind an opener do not stay. -/
theorem reindent_unclosed_changes :
    let opener := "Handler(func() ".toList ++ ['{']
    let ls := [opener, "  ".toList, "  // note".toList]
    standard.Valid ∧ (standard.reindent ls).tally.unterminatedVerbatim = true ∧
      OpensLast (standard.kinds ls) 0 ∧
      (standard.reindent ls).lines = ["\t\t".toList ++ opener, [], "\t\t// note".toList] ∧
      ∀ i : Nat, i < 3 → 0 < i → (standard.reindent ls).lines[i]? ≠ ls[i]? := by
  decide

end Style

end ChainIndent
