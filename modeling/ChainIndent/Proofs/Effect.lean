import ChainIndent.Proofs.Relaid

/-!
# ChainIndent.Proofs.Effect

The exact effect of formatting on each line of a document, told without the
run that brings it about.  Lines outside the region are left alone.  What
becomes of a line of the region depends on its kind and on whether it stands
inside a callback (`Effect`), and the latter can be read off the kinds of the
lines before it (`InsideCallbackFrom`).

Nothing is assumed of the indent unit.
-/

namespace ChainIndent

namespace Style

/-- What formatting makes of a line of the region, `inside` telling whether
it stands inside a callback. -/
structure Effect (s : Style) (inside : Prop) (raw out : Line) : Prop where
  /-- Blank lines become empty. -/
  emptied : s.kindOf raw = .blank → out = []
  /-- Code of a callback is copied byte for byte. -/
  copied : inside → s.kindOf raw ∉ [LineKind.blank, .comment, .verbatimEnd] → out = raw
  /-- All else stands at some level, not below that of the outermost calls. -/
  indented : s.kindOf raw ≠ .blank →
    ¬ (inside ∧ s.kindOf raw ∉ [LineKind.blank, .comment, .verbatimEnd]) →
    ∃ n, s.baseIndent ≤ n ∧ out = (List.replicate n s.indentUnit).flatten ++ trimStart raw

theorem effect_render_place {s : Style} {c : Context} (hbase : c.base = s.baseIndent)
    (hlevel : c.base ≤ c.level) {inside : Prop} (hinside : c.inCallback = true ↔ inside)
    (raw : Line) :
    s.Effect inside raw ((c.place (s.kindOf raw) raw).render s.indentUnit) := by
  obtain ⟨hk, hp⟩ | ⟨hcopy, hp⟩ | ⟨hk, hcopy, n, hp⟩ := c.place_cases (s.kindOf raw) raw
  · refine ⟨fun _ => by rw [hp]; rfl, fun _ hnot => ?_, fun hnot => absurd hk hnot⟩
    rw [hk] at hnot
    exact absurd List.mem_cons_self hnot
  · rw [copied_eq_true_iff, hinside] at hcopy
    refine ⟨fun hblank => ?_, fun _ _ => by rw [hp]; rfl, fun _ hnot => absurd hcopy hnot⟩
    rw [hblank] at hcopy
    exact absurd List.mem_cons_self hcopy.2
  · rw [← Bool.not_eq_true, copied_eq_true_iff, hinside] at hcopy
    refine ⟨fun hblank => absurd hblank hk, fun hin hnot => absurd ⟨hin, hnot⟩ hcopy,
      fun _ _ => ⟨n, ?_, by rw [hp]; rfl⟩⟩
    rw [← hbase]
    exact Context.base_le_of_place hlevel hp

/-- The effect on the lines of a region. -/
theorem exists_effect_reindent (s : Style) {ls : List Line} {i : Nat} {raw : Line}
    (h : ls[i]? = some raw) :
    ∃ out, (s.reindent ls).lines[i]? = some out ∧
      s.Effect (InsideCallback (s.kinds ls) i) raw out := by
  have hbase := base_contextBefore s ls i
  have hlevel : (s.contextBefore ls i).base ≤ (s.contextBefore ls i).level := by
    rw [hbase]
    exact baseIndent_le_level_contextBefore s ls i
  exact ⟨_, getElem?_lines_reindent s h,
    effect_render_place hbase hlevel (inCallback_contextBefore_iff s ls i) raw⟩

/-! ## the lines of a document -/

theorem getElem?_append_outside {xs ms ns zs : List Line} (h : ms.length = ns.length) {i : Nat}
    (hi : i < xs.length ∨ xs.length + ns.length ≤ i) :
    (xs ++ ms ++ zs)[i]? = (xs ++ ns ++ zs)[i]? := by
  cases hi with
  | inl hi =>
      rw [List.append_assoc, List.append_assoc, List.getElem?_append_left hi,
        List.getElem?_append_left hi]
  | inr hi =>
      have hlen : (xs ++ ms).length = (xs ++ ns).length := by
        rw [List.length_append, List.length_append, h]
      have hns : (xs ++ ns).length ≤ i := by
        rw [List.length_append]
        exact hi
      rw [List.getElem?_append_right (hlen ▸ hns), List.getElem?_append_right hns, hlen]

/-- Lines outside the region stay. -/
theorem getElem?_layOut_outside (s : Style) (ls : List Line) {i : Nat}
    (hi : i < (s.locate ls).before.length ∨
      (s.locate ls).before.length + (s.locate ls).body.length ≤ i) :
    (s.layOut ls)[i]? = ls[i]? := by
  rw [layOut, getElem?_append_outside (length_lines_reindent s (s.locate ls).body) hi,
    locate_append]

/-- Behind the lines in front, callbacks are open as they are in the body. -/
theorem insideCallbackFrom_locate_iff (s : Style) (ls : List Line) {j : Nat}
    (hj : j < (s.locate ls).body.length) :
    InsideCallbackFrom (s.locate ls).before.length (s.kinds ls)
        ((s.locate ls).before.length + j) ↔
      InsideCallback (s.kinds (s.locate ls).body) j := by
  have hkinds : s.kinds ls = s.kinds (s.locate ls).before ++ s.kinds (s.locate ls).body ++
      s.kinds (s.locate ls).after := by
    conv => lhs; rw [← locate_append s ls]
    rw [kinds, List.map_append, List.map_append]
    rfl
  rw [hkinds, ← length_kinds s (s.locate ls).before]
  exact insideCallbackFrom_append_iff (by rw [length_kinds]; exact Nat.le_of_lt hj)

/-- The effect on the lines inside the region. -/
theorem exists_effect_layOut (s : Style) (ls : List Line) {i : Nat} {raw : Line}
    (hfirst : (s.locate ls).before.length ≤ i)
    (hlast : i < (s.locate ls).before.length + (s.locate ls).body.length)
    (hraw : ls[i]? = some raw) :
    ∃ o, (s.layOut ls)[i]? = some o ∧
      s.Effect (InsideCallbackFrom (s.locate ls).before.length (s.kinds ls) i) raw o := by
  obtain ⟨j, rfl⟩ := Nat.exists_eq_add_of_le hfirst
  have hj : j < (s.locate ls).body.length := Nat.lt_of_add_lt_add_left hlast
  have hbody : (s.locate ls).body[j]? = some raw := by
    rw [← hraw, ← getElem?_append_inside hj, locate_append]
  obtain ⟨o, ho, heffect⟩ := exists_effect_reindent s hbody
  refine ⟨o, ?_, ?_⟩
  · rw [layOut, getElem?_append_inside (by rw [length_lines_reindent]; exact hj)]
    exact ho
  · rw [insideCallbackFrom_locate_iff s ls hj]
    exact heffect

/-- **The effect of formatting**, line by line: outside the region nothing
changes, and inside it the kind of a line and its place decide. -/
theorem formatText_effect {s : Style} (hs : s.Valid) {text : List Char}
    (hfound : (s.locate (splitLines text)).isFound = true) :
    let ls := splitLines text
    let first := (s.locate ls).before.length
    let last := first + (s.locate ls).body.length
    ∃ out : List Line, s.formatText text = .ok (joinLines out) ∧ out.length = ls.length ∧
      (∀ i : Nat, i < first ∨ last ≤ i → out[i]? = ls[i]?) ∧
      ∀ i raw, first ≤ i → i < last → ls[i]? = some raw →
        ∃ o, out[i]? = some o ∧ s.Effect (InsideCallbackFrom first (s.kinds ls) i) raw o := by
  intro ls first last
  have hout : s.formatText text = .ok (joinLines (s.layOut ls)) :=
    formatText_of_found hs (isFound_locate_iff.1 hfound)
  refine ⟨s.layOut ls, hout, length_layOut s ls, ?_, ?_⟩
  · intro i hi
    exact getElem?_layOut_outside s ls hi
  · intro i raw hfirst hlast hraw
    exact exists_effect_layOut s ls hfirst hlast hraw

/-- A callback with a comment, a blank line and code, and a line after it. -/
theorem formatText_effect_callback :
    let s : Style := { baseIndent := 1 }
    let text := joinLines ["func buildRootCommand()".toList, [],
      "Handler(func() ".toList ++ ['{'], "// Handler(func\r".toList, " \r".toList, " x".toList,
      s.verbatimEnd, " y".toList, s.regionEndPrefix] ++ ['z']
    (s.Valid ∧ (s.locate (splitLines text)).isFound = true) ∧
      ∃ out : List Line, s.formatText text = .ok (joinLines out) ∧ out.length = 10 ∧
        (∀ i : Nat, i < 2 ∨ 8 ≤ i → out[i]? = (splitLines text)[i]?) ∧
        ∀ i raw, 2 ≤ i → i < 8 → (splitLines text)[i]? = some raw →
          ∃ o, out[i]? = some o ∧
            s.Effect (InsideCallbackFrom 2 (s.kinds (splitLines text)) i) raw o :=
  ⟨by decide, formatText_effect (by decide) (by decide)⟩

end Style

end ChainIndent
