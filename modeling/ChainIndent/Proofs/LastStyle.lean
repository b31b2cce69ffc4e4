import ChainIndent.Proofs.Agreement
import ChainIndent.Proofs.SecondRun

/-!
# ChainIndent.Proofs.LastStyle

The last style wins: a document that was formatted with other indentation
before is formatted as if it had not been.

A second run lays out anew whatever the first did (`reindent_reindent`), so
all that has to be shown is that it finds the same region.  It might find a
shorter one, where an indented line has moved to the margin and looks like the
closing line there.  It does not if the outermost calls stand off the margin
and closing lines begin with ink: then no line that the first run has laid out
begins as a closing line does (`not_endsRegion_render_place`), and a line that
it has copied stands in a callback.
-/

namespace ChainIndent

namespace Style

/-- The same style with another indentation. -/
def withIndent (s : Style) (base : Nat) (char : List Char) (width : Nat) : Style :=
  { s with baseIndent := base, indentChar := char, indentWidth := width }

/-- Where the region stands is no matter of indentation. -/
theorem locate_withIndent (s : Style) (base : Nat) (char : List Char) (width : Nat)
    (ls : List Line) : (s.withIndent base char width).locate ls = s.locate ls := by
  have hends : ∀ l, (s.withIndent base char width).endsRegion l = s.endsRegion l := fun _ => rfl
  have hkind : ∀ l, (s.withIndent base char width).kindOf l = s.kindOf l := fun _ => rfl
  exact locate_congr hends hkind rfl rfl ls

variable {s : Style}

/-! ## no line of a layout looks like a closing line -/

/-- A closing line begins with ink. -/
def InkyEnd (s : Style) : Prop := ∃ c w, s.regionEndPrefix = c :: w ∧ isBlank c = false

/-- Indentation of at least one level begins with white space. -/
theorem exists_cons_levels (hs : s.Valid) (hb : s.BlankIndent) {n : Nat} (hn : 1 ≤ n) :
    ∃ c u, (List.replicate n s.indentUnit).flatten = c :: u ∧ isBlank c = true := by
  obtain ⟨m, rfl⟩ := Nat.exists_eq_add_of_le' hn
  obtain ⟨k, hk⟩ := Nat.exists_eq_add_of_le' hs.one_le_indentWidth
  obtain ⟨c, u, hchar⟩ := List.exists_cons_of_ne_nil hs.indentChar_ne_nil
  have hunit : s.indentUnit = c :: (u ++ (List.replicate k s.indentChar).flatten) := by
    rw [indentUnit, hk, List.replicate_succ, List.flatten_cons, hchar, List.cons_append]
  have hblank : isBlank c = true := (hb c (by rw [hchar]; exact List.mem_cons_self)).1
  exact ⟨c, _, by rw [List.replicate_succ, List.flatten_cons, hunit, List.cons_append], hblank⟩

/-- A line that is emptied or indented does not look like a closing line. -/
theorem not_endsRegion_render_place (hs : s.Valid) (hb : s.BlankIndent) (hend : s.InkyEnd)
    {c : Context} (hbase : 1 ≤ c.base) (hlevel : c.base ≤ c.level) (hopen : c.inCallback = false)
    (raw : Line) : ¬ s.endsRegion ((c.place (s.kindOf raw) raw).render s.indentUnit) = true := by
  obtain ⟨ink, w, hprefix, hink⟩ := hend
  rw [endsRegion_eq_true_iff, hprefix]
  intro ⟨hstarts, _⟩
  obtain ⟨_, hp⟩ | ⟨hcopy, _⟩ | ⟨_, _, n, hp⟩ := c.place_cases (s.kindOf raw) raw
  · rw [hp] at hstarts
    exact absurd (List.prefix_nil.1 hstarts) (List.cons_ne_nil ink w)
  · rw [copied, hopen] at hcopy
    contradiction
  · have hn : 1 ≤ n := Nat.le_trans hbase (Context.base_le_of_place hlevel hp)
    obtain ⟨d, u, hlevels, hblank⟩ := exists_cons_levels hs hb hn
    rw [hp, Placed.render, hlevels, List.cons_append] at hstarts
    rw [(List.cons_prefix_cons.1 hstarts).1, hblank] at hink
    contradiction

/-- Nor does any line of a layout, where no callback is open. -/
theorem not_endsAt_lines_reindent (hs : s.Valid) (hb : s.BlankIndent) (hend : s.InkyEnd)
    (hbase : 1 ≤ s.baseIndent) (ls after : List Line) {m : Nat} (hm : m < ls.length) :
    ¬ s.EndsAt false ((s.reindent ls).lines ++ after) m := by
  intro ⟨hclosed, out, hout, hends⟩
  have hlen : m < (s.reindent ls).lines.length := by
    rw [length_lines_reindent]
    exact hm
  have hopen : (s.contextBefore ls m).inCallback = false := by
    have hkinds : s.kinds ((s.reindent ls).lines.take m) = s.kinds (ls.take m) := by
      rw [← lines_reindent_take, kinds_lines_reindent hb]
    rw [List.take_append_of_le_length (Nat.le_of_lt hlen), openBehind_congr hkinds] at hclosed
    rw [contextBefore, steps, inCallback_lastContext]
    exact hclosed
  have hcontext := base_contextBefore s ls m
  have hlevel : (s.contextBefore ls m).base ≤ (s.contextBefore ls m).level := by
    rw [hcontext]
    exact baseIndent_le_level_contextBefore s ls m
  rw [List.getElem?_append_left hlen,
    getElem?_lines_reindent s (List.getElem?_eq_getElem hm)] at hout
  rw [← Option.some.inj hout] at hends
  exact not_endsRegion_render_place hs hb hend (by rw [hcontext]; exact hbase) hlevel hopen _ hends

/-! ## the region of the output -/

/-- **The region is found again** in full. -/
theorem locate_layOut_eq (hs : s.Valid) (hb : s.BlankIndent) (hend : s.InkyEnd)
    (hbase : 1 ≤ s.baseIndent) {ls : List Line} (hfound : (s.locate ls).isFound = true) :
    s.locate (s.layOut ls) =
      { s.locate ls with body := (s.reindent (s.locate ls).body).lines } := by
  have hsig := signatureLine_locate s ls
  obtain ⟨i, hi⟩ := Option.isSome_iff_exists.1 hfound
  rw [hi] at hsig
  obtain ⟨n, hn, hlocate⟩ := locate_layOut hb hsig.symm
  have hscan := bodyLength_locate s (s.layOut ls)
  rw [hlocate] at hscan ⊢
  simp only [← List.append_assoc, List.take_append_drop] at hscan
  have hall : (s.reindent (s.locate ls).body).lines.length ≤
      s.bodyLength false ((s.reindent (s.locate ls).body).lines ++ (s.locate ls).after) := by
    refine le_bodyLength_iff.2 ⟨by rw [List.length_append]; omega, fun m hm => ?_⟩
    rw [length_lines_reindent] at hm
    exact not_endsAt_lines_reindent hs hb hend hbase _ _ hm
  rw [hscan, List.length_take, Nat.min_eq_left hn] at hall
  rw [List.take_of_length_le hall, List.drop_of_length_le hall, List.nil_append]
  simp only [hi]

/-- A second run over the output does what it would have done to the input. -/
theorem formatValid_withIndent_layOut (hs : s.Valid) (hb : s.BlankIndent) (hend : s.InkyEnd)
    (hbase : 1 ≤ s.baseIndent) (base : Nat) (char : List Char) (width : Nat) {text out : List Char}
    (hfound : (s.locate (splitLines text)).isFound = true)
    (hread : splitLines out = s.layOut (splitLines text)) :
    (s.withIndent base char width).formatValid out =
      (s.withIndent base char width).formatValid text := by
  have hregion := locate_layOut_eq hs hb hend hbase hfound
  have hkind : ∀ l, s.kindOf l = (s.withIndent base char width).kindOf l := fun _ => rfl
  have hfound' : (s.locate (s.layOut (splitLines text))).isFound = true := by
    rw [hregion]
    exact hfound
  rw [formatValid, formatValid, locate_withIndent, locate_withIndent, hread]
  simp only [if_pos hfound, if_pos hfound']
  rw [hregion]
  simp only [reindent_reindent hb hkind, Region.rewrite, Region.event, length_lines_reindent]

/-- **The last style wins**: formatting with one indentation and then with
another is formatting with the other, text, tally and events alike. -/
theorem format_withIndent_formatText (hs : s.Valid) (hb : s.BlankIndent)
    (hbase : 1 ≤ s.baseIndent) (hend : s.InkyEnd) {base : Nat} {char : List Char} {width : Nat}
    (hs' : (s.withIndent base char width).Valid) {text : List Char}
    (hclean : ∀ l ∈ splitLines text, l.getLast? ≠ some '\r') :
    ∃ out last, s.formatText text = .ok out ∧
      (s.withIndent base char width).format text = .ok last ∧
      (s.withIndent base char width).format out = .ok last := by
  refine ⟨_, _, formatText_of_valid hs text, format_of_valid hs' text, ?_⟩
  rw [format_of_valid hs', text_formatValid]
  by_cases hfound : (s.locate (splitLines text)).isFound = true
  · have hread := splitLines_joinLines_layOut hb hclean
    rw [if_pos hfound, formatValid_withIndent_layOut hs hb hend hbase _ _ _ hfound hread]
  · rw [if_neg hfound]

/-- An indented line that would close the function at the margin, and a
callback whose own closing brace stands there. -/
theorem format_withIndent_formatText_margin :
    let s : Style := { baseIndent := 1, indentChar := ['\u3000'] }
    let closing := s.regionEndPrefix
    let text := joinLines ["func buildRootCommand()".toList, [], "  ".toList ++ closing,
      "Handler(func".toList, closing, ' ' :: s.verbatimEnd, " Flag(".toList, ' ' :: closing,
      closing] ++ closing
    (s.Valid ∧ s.BlankIndent ∧ 1 ≤ s.baseIndent ∧ s.InkyEnd ∧
        (s.withIndent 0 "\n".toList 2).Valid ∧
        ∀ l ∈ splitLines text, l.getLast? ≠ some '\r') ∧
      ∃ out last, s.formatText text = .ok out ∧
        (s.withIndent 0 "\n".toList 2).format text = .ok last ∧
        (s.withIndent 0 "\n".toList 2).format out = .ok last := by
  intro s closing text
  have hs : s.Valid := by decide
  have hb : s.BlankIndent := by decide
  have hend : s.InkyEnd := ⟨'}', [], rfl, by decide⟩
  have hs' : (s.withIndent 0 "\n".toList 2).Valid := by decide
  have hclean : ∀ l ∈ splitLines text, l.getLast? ≠ some '\r' := by decide
  exact ⟨⟨hs, hb, by decide, hend, hs', hclean⟩,
    format_withIndent_formatText hs hb (by decide) hend hs' hclean⟩

end Style

end ChainIndent
