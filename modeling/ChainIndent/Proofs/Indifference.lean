import ChainIndent.Proofs.Boundaries
import ChainIndent.Proofs.SecondRun

/-!
# ChainIndent.Proofs.Indifference

The old indentation tells nothing.  Of a line that is laid out anew, formatting
sees the text behind the indentation only; so two documents with the same lines
but for the indentation of such lines are formatted alike.

Which lines are laid out anew is itself found out on the way, by the run over
the first document.  The two runs go in step: as long as they are in the same
context, a line that the one copies is copied by the other, and of any other
line both see the same (`run_congr`).

Nothing is assumed of the indent unit.
-/

namespace ChainIndent

/-- Two documents cut alike that agree outside the middle part agree in the
outer ones. -/
theorem outer_eq_of_getElem?_eq {α : Type} {xs ms zs xs' ms' zs' : List α}
    (hfront : xs.length = xs'.length) (hmiddle : ms.length = ms'.length)
    (h : ∀ i : Nat, i < xs.length ∨ xs.length + ms.length ≤ i →
      (xs ++ ms ++ zs)[i]? = (xs' ++ ms' ++ zs')[i]?) : xs = xs' ∧ zs = zs' := by
  constructor
  · refine List.ext_getElem? fun i => ?_
    by_cases hi : i < xs.length
    · have hline := h i (.inl hi)
      rwa [List.append_assoc, List.append_assoc, List.getElem?_append_left hi,
        List.getElem?_append_left (by omega)] at hline
    · rw [List.getElem?_eq_none (by omega), List.getElem?_eq_none (by omega)]
  · refine List.ext_getElem? fun i => ?_
    have hline := h (xs.length + ms.length + i) (.inr (Nat.le_add_right _ _))
    have hlen : (xs ++ ms).length = xs.length + ms.length := List.length_append
    have hlen' : (xs' ++ ms').length = xs.length + ms.length := by
      rw [List.length_append, hfront, hmiddle]
    rwa [List.getElem?_append_right (by omega), List.getElem?_append_right (by omega), hlen, hlen',
      Nat.add_sub_cancel_left] at hline

namespace Style

variable {s : Style}

/-! ## two runs in step -/

/-- **In step**: two runs over lines with the same text, of which those that
the first one copies are the same, are the same run. -/
theorem run_congr {c : Context} {ls ms : List Line} (htrim : ls.map trimStart = ms.map trimStart)
    (hcopied : ∀ (i : Nat) t, (run s.step c ls)[i]? = some t → t.placed.isVerbatim = true →
      ls[i]? = ms[i]?) :
    run s.step c ls = run s.step c ms := by
  induction ls generalizing c ms with
  | nil => rw [List.map_eq_nil_iff.1 htrim.symm]
  | cons l ls ih =>
      cases ms with
      | nil => contradiction
      | cons m ms =>
          rw [List.map_cons, List.map_cons, List.cons.injEq] at htrim
          have hsame : copied c.inCallback (s.kindOf l) = true → l = m := by
            rw [← Context.isVerbatim_place c (s.kindOf l) l, ← placed_step]
            intro hv
            simpa using hcopied 0 _ rfl hv
          have hstep : s.step c l = s.step c m := step_congr htrim.1 hsame
          rw [run_cons, run_cons, ← hstep, ih htrim.2 fun i t ht => hcopied (i + 1) t ht]

/-! ## two documents -/

/-- The lines of the body, found in the document. -/
theorem getElem?_add_length_before (s : Style) (ls : List Line) {j : Nat}
    (hj : j < (s.locate ls).body.length) :
    ls[(s.locate ls).before.length + j]? = (s.locate ls).body[j]? := by
  have hline : ((s.locate ls).before ++ (s.locate ls).body ++
      (s.locate ls).after)[(s.locate ls).before.length + j]? = (s.locate ls).body[j]? :=
    getElem?_append_inside hj
  rwa [locate_append] at hline

/-- Two documents that are cut alike and differ in nothing but the indentation
of lines that are laid out anew. -/
structure SameButIndentation (s : Style) (ls ms : List Line) : Prop where
  length_eq : ls.length = ms.length
  signatureLine_eq : (s.locate ls).signatureLine = (s.locate ms).signatureLine
  length_body_eq : (s.locate ls).body.length = (s.locate ms).body.length
  /-- Lines outside the region are the same. -/
  outside : ∀ i : Nat, i < (s.locate ls).before.length ∨
    (s.locate ls).before.length + (s.locate ls).body.length ≤ i → ls[i]? = ms[i]?
  /-- Lines of the region have the same text. -/
  inside : ∀ i : Nat, (s.locate ls).before.length ≤ i →
    i < (s.locate ls).before.length + (s.locate ls).body.length →
      ls[i]?.map trimStart = ms[i]?.map trimStart
  /-- Lines that the run over the first document copies are the same. -/
  copied : ∀ (j : Nat) t, (s.steps (s.locate ls).body)[j]? = some t →
    t.placed.isVerbatim = true →
      ls[(s.locate ls).before.length + j]? = ms[(s.locate ls).before.length + j]?

theorem SameButIndentation.length_before_eq {ls ms : List Line} (h : s.SameButIndentation ls ms)
    (hfound : (s.locate ls).isFound = true) :
    (s.locate ls).before.length = (s.locate ms).before.length := by
  obtain ⟨i, hi⟩ := Option.isSome_iff_exists.1 hfound
  have hline := hi
  have hline' := hi
  rw [signatureLine_locate] at hline
  rw [h.signatureLine_eq, signatureLine_locate] at hline'
  obtain ⟨-, hbefore, -⟩ := (isRegion_locate s ls).found i (signatureLine?_eq_some_iff.1 hline)
  obtain ⟨-, hbefore', -⟩ := (isRegion_locate s ms).found i (signatureLine?_eq_some_iff.1 hline')
  rw [hbefore, hbefore', h.length_eq]

/-- The same is said of the parts that the documents are cut into. -/
theorem SameButIndentation.parts {ls ms : List Line} (h : s.SameButIndentation ls ms)
    (hfound : (s.locate ls).isFound = true) :
    (s.locate ls).before = (s.locate ms).before ∧ (s.locate ls).after = (s.locate ms).after ∧
      s.steps (s.locate ls).body = s.steps (s.locate ms).body := by
  have hbefore := h.length_before_eq hfound
  have hbody := h.length_body_eq
  obtain ⟨hfront, hback⟩ := outer_eq_of_getElem?_eq hbefore hbody (by
    rw [locate_append, locate_append]
    exact h.outside)
  have hline : ∀ j : Nat, j < (s.locate ls).body.length →
      ls[(s.locate ls).before.length + j]? = (s.locate ls).body[j]? :=
    fun j hj => getElem?_add_length_before s ls hj
  have hline' : ∀ j : Nat, j < (s.locate ls).body.length →
      ms[(s.locate ls).before.length + j]? = (s.locate ms).body[j]? := by
    intro j hj
    rw [hbefore]
    exact getElem?_add_length_before s ms (by omega)
  refine ⟨hfront, hback, run_congr ?_ fun j t ht hv => ?_⟩
  · refine List.ext_getElem? fun j => ?_
    rw [List.getElem?_map, List.getElem?_map]
    by_cases hj : j < (s.locate ls).body.length
    · rw [← hline j hj, ← hline' j hj]
      exact h.inside _ (Nat.le_add_right _ _) (Nat.add_lt_add_left hj _)
    · rw [List.getElem?_eq_none (by omega), List.getElem?_eq_none (by omega)]
  · have hj : j < (s.locate ls).body.length := by
      have hlen := (List.getElem?_eq_some_iff.1 ht).1
      rwa [length_run] at hlen
    rw [← hline j hj, ← hline' j hj]
    exact h.copied j t ht hv

/-- **The old indentation tells nothing**: two documents that differ in nothing
but the indentation of lines that are laid out anew have the same output, the
same tally and the same events. -/
theorem format_eq_of_sameButIndentation (hs : s.Valid) {text text' : List Char}
    (hfound : (s.locate (splitLines text)).isFound = true)
    (h : s.SameButIndentation (splitLines text) (splitLines text')) :
    ∃ out, s.format text = .ok out ∧ s.format text' = .ok out := by
  obtain ⟨hbefore, hafter, hsteps⟩ := h.parts hfound
  have hfound' : (s.locate (splitLines text')).isFound = true := by
    rw [Region.isFound, ← h.signatureLine_eq]
    exact hfound
  have hevent : (s.locate (splitLines text')).event s = (s.locate (splitLines text)).event s := by
    rw [Region.event, Region.event, h.signatureLine_eq, h.length_body_eq]
  have hreindent : s.reindent (s.locate (splitLines text')).body =
      s.reindent (s.locate (splitLines text)).body := by
    rw [reindent, ← hsteps, reindent]
  have hsame : s.formatValid text' = s.formatValid text := by
    rw [formatValid, formatValid]
    simp only [if_pos hfound, if_pos hfound', hreindent, hevent, Region.rewrite, hbefore, hafter]
  exact ⟨s.formatValid text, format_of_valid hs text, by rw [format_of_valid hs, hsame]⟩

/-- A callback, and the same document with other white space in front of all
lines but the one that is copied. -/
theorem format_eq_of_sameButIndentation_callback :
    let s : Style := { signature := "f".toList }
    let closing := s.regionEndPrefix
    let text := joinLines [['f'], [], "\t Handler(func".toList, " x".toList, [' '],
      "  ".toList ++ s.verbatimEnd] ++ closing
    let text' := joinLines [['f'], [], "\u3000Handler(func\r".toList, " x".toList, [],
      s.verbatimEnd, closing]
    (s.Valid ∧ (s.locate (splitLines text)).isFound = true ∧
        s.SameButIndentation (splitLines text) (splitLines text')) ∧
      ∃ out, s.format text = .ok out ∧ s.format text' = .ok out := by
  intro s closing text text'
  have hs : s.Valid := by decide
  have hfound : (s.locate (splitLines text)).isFound = true := by decide
  have houtside : ∀ i : Nat, i < 7 → i < 2 ∨ 6 ≤ i →
      (splitLines text)[i]? = (splitLines text')[i]? := by decide
  have hinside : ∀ i : Nat, i < 6 →
      (splitLines text)[i]?.map trimStart = (splitLines text')[i]?.map trimStart := by decide
  have hcopied : ∀ j : Nat, j < 4 → (s.steps (s.locate (splitLines text)).body)[j]?.all
      (fun t => t.placed.isVerbatim → (splitLines text)[2 + j]? = (splitLines text')[2 + j]?) =
        true := by decide
  have h : s.SameButIndentation (splitLines text) (splitLines text') := by
    refine ⟨by decide, by decide, by decide, fun i hi => ?_, fun i _ hi => hinside i hi,
      fun j t ht hv => ?_⟩
    · by_cases hlt : i < 7
      · exact houtside i hlt hi
      · have hlen : (splitLines text).length = 7 ∧ (splitLines text').length = 7 := by decide
        rw [List.getElem?_eq_none (by omega), List.getElem?_eq_none (by omega)]
    · have hj : j < 4 := (List.getElem?_eq_some_iff.1 ht).1
      have hall := hcopied j hj
      rw [ht] at hall
      have hline : (splitLines text)[2 + j]? = (splitLines text')[2 + j]? := by
        simpa [hv] using hall
      exact hline
  exact ⟨⟨hs, hfound, h⟩, format_eq_of_sameButIndentation hs hfound h⟩

end Style

end ChainIndent
