import ChainIndent.Proofs.SecondRun

/-!
# ChainIndent.Proofs.Idempotence

Formatting a text again.

1. If the lines that were written are read back as they are, the second run
   changes nothing (`layOut_layOut`).
2. They are, unless one of them ends in a carriage return: written before a
   newline, it is taken for a part of the line ending.  Every run takes one
   carriage return off the end of each line, so after as many runs as the
   longest end has carriage returns, and one more, the text is settled.
3. So a single run is enough exactly when it leaves no line with a carriage
   return at its end, and that is the case when all lines that end in one are
   blank lines of the region.
-/

namespace ChainIndent

/-- A word that does not end in a carriage return is not cut by reading. -/
theorem infix_chomp {w l : Line} (hw : w.getLast? ≠ some '\r') (h : w <:+: l) : w <:+: chomp l := by
  by_cases hl : l.getLast? = some '\r'
  · obtain ⟨a, b, rfl⟩ := h
    cases b with
    | nil =>
        cases hlast : w.getLast? with
        | none =>
            rw [List.getLast?_eq_none_iff.1 hlast]
            exact List.nil_infix
        | some c =>
            rw [List.append_nil, List.getLast?_append, hlast, Option.some_or] at hl
            exact absurd (hlast.trans hl) hw
    | cons c b =>
        rw [chomp, if_pos hl, List.dropLast_append_cons]
        exact ⟨a, (c :: b).dropLast, rfl⟩
  · rw [chomp_of_getLast?_ne hl]
    exact h

namespace Style

variable {s : Style}

/-- The text after formatting it `n` times. -/
def formatTimes (s : Style) : Nat → List Char → Except Problem (List Char)
  | 0, text => .ok text
  | n + 1, text => (s.formatText text).bind (s.formatTimes n)

theorem formatTimes_one (s : Style) (text : List Char) :
    s.formatTimes 1 text = s.formatText text := by
  rw [formatTimes]
  cases s.formatText text with
  | error _ => rfl
  | ok _ => rfl

/-! ## one run more -/

/-- Lines that are read back as they are, and are laid out, stay. -/
theorem formatText_joinLines_layOut (hs : s.Valid) (hb : s.BlankIndent) {ls : List Line}
    (hn : ∀ l ∈ ls, '\n' ∉ l) (hr : ∀ out ∈ s.layOut ls, trailingReturns out = 0) :
    s.formatText (joinLines (s.layOut ls)) = .ok (joinLines (s.layOut ls)) := by
  have hread : splitLines (joinLines (s.layOut ls)) = s.layOut ls :=
    splitLines_joinLines_of_no_return (newline_not_mem_of_mem_layOut hb hn) hr
  by_cases h : ∃ l ∈ splitLines (joinLines (s.layOut ls)), s.signature <:+: l
  · rw [formatText_of_found hs h, hread, layOut_layOut hb]
  · exact formatText_of_missing hs h

/-- Every run takes one carriage return off the end of each line. -/
theorem trailingReturns_le_of_mem_splitLines (hb : s.BlankIndent) {text : List Char} {k : Nat}
    (h : ∀ l ∈ splitLines text, trailingReturns l ≤ k + 1) :
    ∀ l ∈ splitLines (joinLines (s.layOut (splitLines text))), trailingReturns l ≤ k := by
  have hn := newline_not_mem_of_mem_layOut hb fun l hl => not_mem_of_mem_splitLines (t := text) hl
  rw [splitLines_joinLines hn]
  intro l hl
  obtain ⟨out, hout, rfl⟩ := List.mem_map.1 hl
  have hle := trailingReturns_le_of_mem_layOut h out hout
  rw [trailingReturns_chomp]
  omega

theorem formatTimes_of_settled {text : List Char} (h : s.formatText text = .ok text) (n : Nat) :
    s.formatTimes n text = .ok text := by
  induction n with
  | zero => rfl
  | succ n ih => rw [formatTimes, h, Except.bind, ih]

theorem exists_formatTimes_of_missing (hs : s.Valid) {text : List Char}
    (h : ¬ ∃ l ∈ splitLines text, s.signature <:+: l) (n : Nat) :
    ∃ out, s.formatTimes n text = .ok out ∧ s.formatText out = .ok out := by
  have hsettled := formatText_of_missing hs h
  exact ⟨text, formatTimes_of_settled hsettled n, hsettled⟩

/-- If no line ends in more than `k` carriage returns, `k + 1` runs settle
the text. -/
theorem exists_formatTimes_settled (hs : s.Valid) (hb : s.BlankIndent) {k : Nat}
    {text : List Char} (h : ∀ l ∈ splitLines text, trailingReturns l ≤ k) :
    ∃ out, s.formatTimes (k + 1) text = .ok out ∧ s.formatText out = .ok out := by
  induction k generalizing text with
  | zero =>
      by_cases hfound : ∃ l ∈ splitLines text, s.signature <:+: l
      · rw [formatTimes, formatText_of_found hs hfound]
        have hn : ∀ l ∈ splitLines text, '\n' ∉ l := fun l hl => not_mem_of_mem_splitLines hl
        have hr : ∀ out ∈ s.layOut (splitLines text), trailingReturns out = 0 :=
          fun out hout => Nat.le_zero.1 (trailingReturns_le_of_mem_layOut h out hout)
        exact ⟨_, rfl, formatText_joinLines_layOut hs hb hn hr⟩
      · exact exists_formatTimes_of_missing hs hfound 1
  | succ k ih =>
      by_cases hfound : ∃ l ∈ splitLines text, s.signature <:+: l
      · rw [formatTimes, formatText_of_found hs hfound]
        exact ih (trailingReturns_le_of_mem_splitLines hb h)
      · exact exists_formatTimes_of_missing hs hfound (k + 2)

/-- If no line ends in a carriage return, one run settles the text. -/
theorem formatText_formatText (hs : s.Valid) (hb : s.BlankIndent) {text out : List Char}
    (hclean : ∀ l ∈ splitLines text, l.getLast? ≠ some '\r')
    (hout : s.formatText text = .ok out) : s.formatText out = .ok out := by
  have hr : ∀ l ∈ splitLines text, trailingReturns l ≤ 0 :=
    fun l hl => Nat.le_of_eq (trailingReturns_eq_zero_iff.2 (hclean l hl))
  obtain ⟨out', hone, hfixed⟩ := exists_formatTimes_settled hs hb hr
  rw [formatTimes_one, hout] at hone
  rw [Except.ok.inj hone]
  exact hfixed

/-- **Convergence**: as many runs as the longest end of a line has carriage
returns, and one more, settle a text.  A single run is enough if no line ends
in one. -/
theorem formatTimes_converges (hs : s.Valid) (hb : s.BlankIndent) (text : List Char) :
    (∃ out, s.formatTimes (mostReturns (splitLines text) + 1) text = .ok out ∧
      s.formatText out = .ok out) ∧
    ((∀ l ∈ splitLines text, l.getLast? ≠ some '\r') →
      ∃ out, s.formatText text = .ok out ∧ s.formatText out = .ok out) := by
  constructor
  · exact exists_formatTimes_settled hs hb (mostReturns_le_iff.1 (Nat.le_refl _))
  · intro hclean
    have hr : ∀ l ∈ splitLines text, trailingReturns l ≤ 0 :=
      fun l hl => Nat.le_of_eq (trailingReturns_eq_zero_iff.2 (hclean l hl))
    obtain ⟨out, hone, hfixed⟩ := exists_formatTimes_settled hs hb hr
    rw [formatTimes_one] at hone
    exact ⟨out, hone, hfixed⟩

/-- Base level zero takes an indented closing line to the margin, so the
second run finds a shorter region. -/
theorem formatTimes_converges_shrinking :
    let s : Style := { baseIndent := 0, indentChar := [' ', '\r'] }
    let head := "func buildRootCommand()\n\n  ".toList ++ s.regionEndPrefix
    let text := head ++ "\n Flag(\r\r\r\n x\n".toList
    let clean := head ++ "\n Flag(\n x".toList
    (s.Valid ∧ s.BlankIndent) ∧
      (∃ out, s.formatTimes 3 text = .ok out ∧ s.formatText out = .ok out) ∧
      ∃ out, s.formatText clean = .ok out ∧ s.formatText out = .ok out :=
  ⟨by decide, (formatTimes_converges (by decide) (by decide) _).1,
    (formatTimes_converges (by decide) (by decide) _).2 (by decide)⟩

/-! ## when one run is enough -/

theorem trailingReturns_render_place (s : Style) (c : Context) (raw : Line) :
    trailingReturns ((c.place (s.kindOf raw) raw).render s.indentUnit) =
      if isBlankLine raw then 0 else trailingReturns raw := by
  obtain ⟨hk, hp⟩ | ⟨hcopy, hp⟩ | ⟨hk, _, n, hp⟩ := c.place_cases (s.kindOf raw) raw
  · rw [hp, if_pos (kindOf_eq_blank_iff.1 hk)]
    rfl
  · have hk : s.kindOf raw ≠ .blank := by
      intro hblank
      rw [hblank, copied_blank] at hcopy
      contradiction
    rw [hp, if_neg fun h => hk (kindOf_eq_blank_iff.2 h)]
    rfl
  · have hblank : ¬ isBlankLine raw = true := fun h => hk (kindOf_eq_blank_iff.2 h)
    rw [hp, if_neg hblank]
    exact trailingReturns_append_trimStart (Bool.eq_false_iff.2 hblank) _

theorem map_trailingReturns_run (s : Style) (c : Context) (ls : List Line) :
    ((run s.step c ls).map fun t => trailingReturns (t.placed.render s.indentUnit)) =
      ls.map fun l => if isBlankLine l then 0 else trailingReturns l := by
  induction ls generalizing c with
  | nil => rfl
  | cons l ls ih =>
      rw [run_cons, List.map_cons, List.map_cons, ih, placed_step, trailingReturns_render_place]

/-- Formatting leaves no carriage return at the end of a line if there was
none but on blank lines of the region. -/
theorem forall_mem_layOut_iff {ls : List Line} :
    (∀ out ∈ s.layOut ls, trailingReturns out = 0) ↔
      (∀ l ∈ (s.locate ls).before ++ (s.locate ls).after, l.getLast? ≠ some '\r') ∧
      ∀ l ∈ (s.locate ls).body, l.getLast? = some '\r' → isBlankLine l = true := by
  have hbody : (∀ out ∈ (s.reindent (s.locate ls).body).lines, trailingReturns out = 0) ↔
      ∀ l ∈ (s.locate ls).body, l.getLast? = some '\r' → isBlankLine l = true := by
    have hmap := map_trailingReturns_run s s.start (s.locate ls).body
    have hends : (∀ out ∈ (s.reindent (s.locate ls).body).lines, trailingReturns out = 0) ↔
        ∀ n ∈ (run s.step s.start (s.locate ls).body).map
          fun t => trailingReturns (t.placed.render s.indentUnit), n = 0 := by
      rw [lines_reindent, List.forall_mem_map, List.forall_mem_map]
      rfl
    rw [hends, hmap, List.forall_mem_map]
    refine forall_congr' fun l => imp_congr_right fun _ => ?_
    by_cases hl : isBlankLine l = true
    · simp [hl]
    · simp [hl, trailingReturns_eq_zero_iff]
  rw [layOut, List.forall_mem_append, List.forall_mem_append, hbody, List.forall_mem_append]
  simp only [trailingReturns_eq_zero_iff]
  exact and_right_comm

/-- A text with a region is settled after one run exactly when no line of the
output is cut in reading. -/
theorem formatText_layOut_iff (hs : s.Valid) (hb : s.BlankIndent)
    (hsig : s.signature.getLast? ≠ some '\r') {ls : List Line} (hn : ∀ l ∈ ls, '\n' ∉ l)
    (hfound : ∃ l ∈ ls, s.signature <:+: l) :
    s.formatText (joinLines (s.layOut ls)) = .ok (joinLines (s.layOut ls)) ↔
      ∀ out ∈ s.layOut ls, trailingReturns out = 0 := by
  constructor
  · intro hsettled
    have hn' := newline_not_mem_of_mem_layOut hb hn
    have hread : splitLines (joinLines (s.layOut ls)) = (s.layOut ls).map chomp :=
      splitLines_joinLines hn'
    have hfound' : ∃ l ∈ (s.layOut ls).map chomp, s.signature <:+: l := by
      obtain ⟨l, hl, hw⟩ := exists_infix_layOut hfound
      exact ⟨chomp l, List.mem_map_of_mem hl, infix_chomp hsig hw⟩
    rw [formatText_of_found hs (by rw [hread]; exact hfound'), hread] at hsettled
    have hchomp : ∀ l ∈ (s.layOut ls).map chomp, '\n' ∉ l := by
      rw [← hread]
      exact fun l hl => not_mem_of_mem_splitLines hl
    have hlines : s.layOut ((s.layOut ls).map chomp) = s.layOut ls :=
      eq_of_joinLines_eq (newline_not_mem_of_mem_layOut hb hchomp) hn' (Except.ok.inj hsettled)
    -- line by line, the second run turns `chomp out` back into `out`, and
    -- formatting never adds a carriage return
    have hrelaid := forall₂_relaid_layOut s ((s.layOut ls).map chomp)
    rw [hlines, List.forall₂_map_left_iff, List.forall₂_same] at hrelaid
    intro out hout
    have hle := (hrelaid out hout).trailingReturns_le
    rw [trailingReturns_chomp] at hle
    omega
  · exact formatText_joinLines_layOut hs hb hn

/-- **Idempotence** of the standard style: a second run changes nothing
exactly when there is no region, or carriage returns at the end of a line
occur on blank lines of the region only. -/
theorem standard_settled_iff (text : List Char) :
    (∃ out, standard.formatText text = .ok out ∧ standard.formatText out = .ok out) ↔
      (∀ l ∈ splitLines text, ¬ standard.signature <:+: l) ∨
      ((∀ l ∈ (standard.locate (splitLines text)).before ++
          (standard.locate (splitLines text)).after, l.getLast? ≠ some '\r') ∧
        ∀ l ∈ (standard.locate (splitLines text)).body,
          l.getLast? = some '\r' → isBlankLine l = true) := by
  have hs : standard.Valid := valid_standard
  have hb : standard.BlankIndent := by decide
  have hsig : standard.signature.getLast? ≠ some '\r' := by decide
  by_cases hfound : ∃ l ∈ splitLines text, standard.signature <:+: l
  · have hn : ∀ l ∈ splitLines text, '\n' ∉ l := fun l hl => not_mem_of_mem_splitLines hl
    have hmissing : ¬ ∀ l ∈ splitLines text, ¬ standard.signature <:+: l := by
      obtain ⟨l, hl, hw⟩ := hfound
      exact fun hnone => hnone l hl hw
    rw [← forall_mem_layOut_iff, ← formatText_layOut_iff hs hb hsig hn hfound,
      formatText_of_found hs hfound, or_iff_right hmissing]
    constructor
    · intro ⟨out, hout, hfixed⟩
      rw [Except.ok.inj hout]
      exact hfixed
    · exact fun hfixed => ⟨_, rfl, hfixed⟩
  · have hsettled := formatText_of_missing hs hfound
    exact iff_of_true ⟨text, hsettled, hsettled⟩
      (.inl fun l hl hw => hfound ⟨l, hl, hw⟩)

/-- Two carriage returns at the end of a line take more than one run. -/
theorem standard_not_idempotent :
    ∃ out, standard.formatText "func buildRootCommand()\r\r\n".toList = .ok out ∧
      standard.formatText out ≠ .ok out := by
  refine ⟨"func buildRootCommand()\r\n".toList, rfl, fun h => ?_⟩
  have hout : "func buildRootCommand()\n".toList = "func buildRootCommand()\r\n".toList :=
    Except.ok.inj h
  exact absurd hout (by decide)

end Style

end ChainIndent
