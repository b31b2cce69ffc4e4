import ChainIndent.Proofs.Relaid

/-!
# ChainIndent.Proofs.SecondRun

Formatting lines that were formatted before.

1. A step over a line that was laid out already is the step over the line
   before that (`step_render_place`): kind and text of the two are the same,
   and a line that has to be copied was copied the first time.  So whole runs
   repeat, even if the second style has another unit and another base
   (`reindent_reindent`).
2. The second search for the region begins at the same line, because all
   lines up to there are kept, and goes no further, because the closing line
   is kept too.  It may stop earlier: at base level zero, a line that looks
   like a closing line but was indented has moved to the margin
   (`locate_layOut`).
3. The lines that drop out of the region were laid out the first time and
   are not touched the second time, so they too stay as they are
   (`layOut_layOut`).
-/

namespace ChainIndent

/-! ## steps and runs -/

/-- Two lines with the same text are placed alike, unless they differ and are
copied. -/
theorem Context.place_congr {c : Context} {k : LineKind} {out raw : Line}
    (ht : trimStart out = trimStart raw) (hcopied : copied c.inCallback k = true → out = raw) :
    c.place k out = c.place k raw := by
  obtain ⟨hk, hp⟩ | ⟨hcopy, _⟩ | ⟨hk, hcopy, _⟩ := c.place_cases k raw
  · rw [hp, hk]
    rfl
  · rw [hcopied hcopy]
  · obtain ⟨level, inCallback, balance, base⟩ := c
    cases k <;> cases inCallback <;> simp_all [place, copied]

namespace Style

variable {s s' : Style}

/-- Two lines with the same text are laid out alike, unless they differ and are
copied. -/
theorem step_congr {c : Context} {raw out : Line} (ht : trimStart raw = trimStart out)
    (hcopied : copied c.inCallback (s.kindOf raw) = true → raw = out) :
    s.step c raw = s.step c out := by
  have hk : s.kindOf raw = s.kindOf out := by rw [kindOf, kindOf, ht]
  rw [step, step, Context.place_congr ht hcopied, ht, hk]

/-- **One line**: laying out what was laid out is laying out the line itself. -/
theorem step_render_place (hb : s.BlankIndent) (hkind : ∀ l, s.kindOf l = s'.kindOf l)
    {c c' : Context} (hc : c.inCallback = c'.inCallback) (raw : Line) :
    s'.step c' ((c.place (s.kindOf raw) raw).render s.indentUnit) = s'.step c' raw := by
  have hrelaid := relaid_render_place s c raw
  have htrim := hrelaid.trimStart_eq hb
  have hk : s'.kindOf ((c.place (s.kindOf raw) raw).render s.indentUnit) = s'.kindOf raw := by
    rw [← hkind, ← hkind, hrelaid.kindOf_eq hb]
  have hcopied : copied c'.inCallback (s'.kindOf ((c.place (s.kindOf raw) raw).render
      s.indentUnit)) = true → (c.place (s.kindOf raw) raw).render s.indentUnit = raw := by
    rw [hk, ← hc, ← hkind]
    intro hcopy
    rw [Context.place_of_copied hcopy]
    rfl
  exact step_congr htrim hcopied

/-- **All lines of a region.** -/
theorem run_render (hb : s.BlankIndent) (hkind : ∀ l, s.kindOf l = s'.kindOf l)
    {c c' : Context} (hc : c.inCallback = c'.inCallback) (ls : List Line) :
    run s'.step c' ((run s.step c ls).map fun t => t.placed.render s.indentUnit) =
      run s'.step c' ls := by
  induction ls generalizing c c' with
  | nil => rfl
  | cons l ls ih =>
      have hstep := step_render_place hb hkind hc l
      have hafter : (s.step c l).after.inCallback = (s'.step c' l).after.inCallback := by
        rw [inCallback_after_step, inCallback_after_step, hc, hkind]
      rw [run_cons, run_cons, List.map_cons, run_cons, placed_step, hstep, ih hafter]

/-- The last style wins, lines, tally and events alike. -/
theorem reindent_reindent (hb : s.BlankIndent) (hkind : ∀ l, s.kindOf l = s'.kindOf l)
    (ls : List Line) : s'.reindent (s.reindent ls).lines = s'.reindent ls := by
  have hstart : s.start.inCallback = s'.start.inCallback := rfl
  have hsteps : s'.steps (s.reindent ls).lines = s'.steps ls := by
    rw [lines_reindent, steps, steps, steps]
    exact run_render hb hkind hstart ls
  rw [reindent, hsteps, reindent]

/-! ## the region of the output -/

theorem kinds_lines_reindent (hb : s.BlankIndent) (ls : List Line) :
    s.kinds (s.reindent ls).lines = s.kinds ls :=
  map_eq_of_forall₂ (forall₂_relaid_run s s.start ls) fun _ _ h => h.kindOf_eq hb

/-- The region does not grow: its closing line still stands behind it. -/
theorem bodyLength_reindent_le (hb : s.BlankIndent) (ls : List Line) :
    s.bodyLength false ((s.reindent (ls.take (s.bodyLength false ls))).lines ++
        ls.drop (s.bodyLength false ls)) ≤
      (s.reindent (ls.take (s.bodyLength false ls))).lines.length := by
  by_cases hend : s.bodyLength false ls < ls.length
  · obtain ⟨hopen, l, hl, hcloses⟩ := endsAt_bodyLength hend
    have hopen' : s.openBehind false (s.reindent (ls.take (s.bodyLength false ls))).lines =
        false := by
      rw [openBehind_congr (kinds_lines_reindent hb _), hopen]
    refine bodyLength_le_of_endsAt ⟨?_, l, ?_, hcloses⟩
    · rw [List.take_left, hopen']
    · rw [List.getElem?_append_right (Nat.le_refl _), Nat.sub_self, List.getElem?_drop]
      exact hl
  · have hdrop : ls.drop (s.bodyLength false ls) = [] :=
      List.drop_eq_nil_of_le (Nat.le_of_not_lt hend)
    rw [hdrop, List.append_nil]
    exact bodyLength_le s false _

/-- The signature is found where it was. -/
theorem signatureLine?_layOut {ls : List Line} {i : Nat} (h : s.signatureLine? ls = some i) :
    s.signatureLine? (s.layOut ls) = some i := by
  rw [layOut, locate_of_some h, cutAt, List.append_assoc]
  exact signatureLine?_take_append h (by omega) _

theorem exists_infix_layOut {ls : List Line} (h : ∃ l ∈ ls, s.signature <:+: l) :
    ∃ l ∈ s.layOut ls, s.signature <:+: l := by
  rw [← isFound_locate_iff, Region.isFound, signatureLine_locate] at h ⊢
  obtain ⟨i, hi⟩ := Option.isSome_iff_exists.1 h
  rw [signatureLine?_layOut hi]
  rfl

/-- A cut does not move when all behind it is replaced, unless it was made
behind the last line. -/
theorem take_append_cut {ls ms : List Line} {n : Nat} (h : ls.length ≤ n → ms = []) :
    (ls.take n ++ ms).take n = ls.take n ∧ (ls.take n ++ ms).drop n = ms := by
  by_cases hlen : n ≤ ls.length
  · have htake : (ls.take n).length = n := List.length_take_of_le hlen
    exact ⟨List.take_left' htake, List.drop_left' htake⟩
  · have hms : ms = [] := h (Nat.le_of_not_le hlen)
    rw [hms, List.append_nil, List.take_take, Nat.min_self]
    exact ⟨rfl, List.drop_take_self⟩

/-- **The region of the output** begins with the region of the input and
reaches at most as far. -/
theorem locate_layOut (hb : s.BlankIndent) {ls : List Line} {i : Nat}
    (h : s.signatureLine? ls = some i) :
    ∃ n, n ≤ (s.reindent (s.locate ls).body).lines.length ∧
      s.locate (s.layOut ls) =
        { before := (s.locate ls).before
          body := (s.reindent (s.locate ls).body).lines.take n
          after := (s.reindent (s.locate ls).body).lines.drop n ++ (s.locate ls).after
          signatureLine := some i } := by
  rw [locate_of_some (signatureLine?_layOut h)]
  rw [layOut, locate_of_some h]
  simp only [cutAt, List.append_assoc]
  generalize hstart : i + 1 + s.headerLines = start
  generalize hrest : ls.drop start = rest
  have hle := bodyLength_reindent_le hb rest
  generalize houts : (s.reindent (rest.take (s.bodyLength false rest))).lines = outs at hle ⊢
  generalize hafter : rest.drop (s.bodyLength false rest) = after at hle ⊢
  -- the header lines may reach past the end of the document
  have hnothing : ls.length ≤ start → outs ++ after = [] := by
    intro hlen
    have hnil : rest = [] := by
      rw [← hrest]
      exact List.drop_eq_nil_of_le hlen
    subst hnil
    rw [← houts, ← hafter]
    rfl
  have hcut := take_append_cut hnothing
  refine ⟨s.bodyLength false (outs ++ after), hle, ?_⟩
  rw [hcut.1, hcut.2, List.take_append_of_le_length hle, List.drop_append_of_le_length hle]

/-- **Laying out twice is laying out once.** -/
theorem layOut_layOut (hb : s.BlankIndent) (ls : List Line) :
    s.layOut (s.layOut ls) = s.layOut ls := by
  cases h : s.signatureLine? ls with
  | none => rw [layOut_of_none h, layOut_of_none h]
  | some i =>
      obtain ⟨n, _, hlocate⟩ := locate_layOut hb h
      have hlines : (s.reindent ((s.reindent (s.locate ls).body).lines.take n)).lines =
          (s.reindent (s.locate ls).body).lines.take n := by
        rw [lines_reindent_take, reindent_reindent hb fun _ => rfl]
      rw [layOut, hlocate]
      simp only
      rw [hlines, layOut, List.append_assoc, ← List.append_assoc (List.take n _),
        List.take_append_drop, List.append_assoc]

end Style

end ChainIndent
