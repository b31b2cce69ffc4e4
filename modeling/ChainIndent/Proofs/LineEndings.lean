import ChainIndent.Proofs.Relaid

/-!
# ChainIndent.Proofs.LineEndings

Line endings do not matter.  A line can be ended by LF or by CR LF, and the
last one by nothing, so the same lines have many texts (`Spells`).

* `splitLines_of_spells` — all of them are read as the same lines, provided
  that no line could itself be taken for an ending (`CleanLine`);
* `crlf_not_infix_joinLines` — clean lines are written with LF only;
* `cleanLine_of_mem_layOut` — formatting keeps lines clean, because it adds
  nothing to their ends;
* `formatsLines_layOut` — so what becomes of a text with a region is told by its
  lines alone (`FormatsLines`).

So a text with a region is formatted as its lines are, whatever their
endings, and only a text without one keeps them.
-/

namespace ChainIndent

/-! ## lines and their texts -/

/-- A line that is read back as it is, however it is ended. -/
structure CleanLine (l : Line) : Prop where
  newline_not_mem : '\n' ∉ l
  getLast?_ne_return : l.getLast? ≠ some '\r'

instance (l : Line) : Decidable (CleanLine l) :=
  decidable_of_iff ('\n' ∉ l ∧ l.getLast? ≠ some '\r') ⟨fun ⟨h₁, h₂⟩ => ⟨h₁, h₂⟩, fun ⟨h₁, h₂⟩ => ⟨h₁, h₂⟩⟩

/-- A text made of some lines, each with an ending of its own.  The last line
may have none, but then it must not be empty. -/
inductive Spells : List Line → List Char → Prop
  | nil : Spells [] []
  | unended {l : Line} (h : l ≠ []) : Spells [l] l
  | lf (l : Line) {ls : List Line} {text : List Char} (h : Spells ls text) :
      Spells (l :: ls) (l ++ '\n' :: text)
  | crlf (l : Line) {ls : List Line} {text : List Char} (h : Spells ls text) :
      Spells (l :: ls) (l ++ '\r' :: '\n' :: text)

theorem spells_joinLines (ls : List Line) : Spells ls (joinLines ls) := by
  induction ls with
  | nil => exact .nil
  | cons l ls ih => rw [joinLines_cons]; exact .lf l ih

theorem chomp_of_clean {l : Line} (h : CleanLine l) : chomp l = l :=
  chomp_of_getLast?_ne h.getLast?_ne_return

/-- **Reading** gives the lines, whatever their endings. -/
theorem splitLines_of_spells {ls : List Line} {text : List Char} (h : Spells ls text)
    (hls : ∀ l ∈ ls, CleanLine l) : splitLines text = ls := by
  induction h with
  | nil => rfl
  | @unended l hne =>
      have hl := hls l List.mem_cons_self
      rw [splitLines, pieces_of_not_mem hl.newline_not_mem hne, List.map_singleton,
        chomp_of_clean hl]
  | lf l _ ih =>
      rw [List.forall_mem_cons] at hls
      have hrest := ih hls.2
      rw [splitLines] at hrest ⊢
      rw [pieces_append_newline hls.1.newline_not_mem, List.map_cons, hrest,
        chomp_of_clean hls.1]
  | @crlf l ls text _ ih =>
      rw [List.forall_mem_cons] at hls
      have hrest := ih hls.2
      -- the carriage return is read with the line, and then taken off it
      have hline : '\n' ∉ l ++ ['\r'] := by
        simpa using hls.1.newline_not_mem
      have hassoc : l ++ '\r' :: '\n' :: text = (l ++ ['\r']) ++ '\n' :: text := by simp
      rw [splitLines] at hrest ⊢
      rw [hassoc, pieces_append_newline hline, List.map_cons, hrest, chomp_append_cr]

/-- **Writing** uses no CR LF. -/
theorem crlf_not_infix_joinLines {ls : List Line} (hls : ∀ l ∈ ls, CleanLine l) :
    ¬ ['\r', '\n'] <:+: joinLines ls := by
  induction ls with
  | nil => simp
  | cons l ls ih =>
      rw [List.forall_mem_cons] at hls
      intro ⟨front, back, h⟩
      have hsplit : front ++ '\r' :: '\n' :: back = l ++ '\n' :: joinLines ls := by
        rw [← joinLines_cons, ← h]
        simp
      obtain ⟨mid, hl, hmid⟩ | ⟨mid, hfront, hmid⟩ := List.append_eq_append_iff.1 hsplit
      · cases mid with
        | nil => simp at hmid
        | cons c mid =>
            rw [List.cons_append] at hmid
            obtain ⟨rfl, hrest⟩ := List.cons.inj hmid
            cases mid with
            | nil =>
                -- the CR ends the line
                have hlast : l.getLast? = some '\r' := by rw [hl]; simp
                exact hls.1.getLast?_ne_return hlast
            | cons d mid =>
                rw [List.cons_append] at hrest
                obtain ⟨rfl, -⟩ := List.cons.inj hrest
                have hmem : '\n' ∈ l := by rw [hl]; simp
                exact hls.1.newline_not_mem hmem
      · -- the CR stands behind the whole line
        cases mid with
        | nil => simp at hmid
        | cons c mid =>
            rw [List.cons_append] at hmid
            obtain ⟨rfl, hrest⟩ := List.cons.inj hmid
            exact ih hls.2 ⟨mid, back, by rw [hrest]; simp⟩

namespace Style

variable {s : Style}

/-- Formatting keeps lines clean. -/
theorem cleanLine_of_mem_layOut (hu : '\n' ∉ s.indentChar) {ls : List Line}
    (hls : ∀ l ∈ ls, CleanLine l) : ∀ out ∈ s.layOut ls, CleanLine out := by
  have hnewline := forall_newline_not_mem_layOut hu fun l hl => (hls l hl).newline_not_mem
  have hreturns := trailingReturns_eq_zero_of_mem_layOut (s := s) fun l hl =>
    (hls l hl).getLast?_ne_return
  exact fun out hout => ⟨hnewline out hout, trailingReturns_eq_zero_iff.1 (hreturns out hout)⟩

/-- With a region, all that is done to a text depends on its lines only. -/
theorem formatValid_congr {text text' : List Char} (h : splitLines text = splitLines text')
    (hfound : (s.locate (splitLines text')).isFound = true) :
    s.formatValid text = s.formatValid text' := by
  rw [formatValid, formatValid, h]
  simp only [if_pos hfound]

/-- However the lines `ls` are ended, they become the lines `outs`, each ended
by a newline, with that tally. -/
def FormatsLines (s : Style) (ls outs : List Line) (tally : Tally) : Prop :=
  ∀ text, Spells ls text → ∃ out, s.format text = .ok out ∧ out.text = joinLines outs ∧
    splitLines out.text = outs ∧ out.tally = tally

theorem formatsLines_layOut (hs : s.Valid) (hu : '\n' ∉ s.indentChar) {ls : List Line}
    (hls : ∀ l ∈ ls, CleanLine l) (hfound : (s.locate ls).isFound = true) :
    s.FormatsLines ls (s.layOut ls)
      { (s.reindent (s.locate ls).body).tally with regionFound := true } := by
  intro text htext
  have hlines := splitLines_of_spells htext hls
  have hclean := cleanLine_of_mem_layOut hu hls
  have hout : (s.formatValid text).text = joinLines (s.layOut ls) := by
    rw [text_formatValid, hlines, if_pos hfound]
  refine ⟨s.formatValid text, format_of_valid hs text, hout, ?_, ?_⟩
  · rw [hout, splitLines_of_spells (spells_joinLines _) hclean]
  · rw [formatValid, hlines]
    simp only [if_pos hfound]

/-- **Line endings do not matter**: two texts of the same lines are formatted
alike, and written with LF only, unless there is no region and both stay as
they are. -/
theorem format_line_endings (hs : s.Valid) (hu : '\n' ∉ s.indentChar) {ls : List Line}
    (hls : ∀ l ∈ ls, CleanLine l) {text text' : List Char} (h : Spells ls text)
    (h' : Spells ls text') :
    ((∃ l ∈ ls, s.signature <:+: l) →
      ∃ out, s.format text = .ok out ∧ s.format text' = .ok out ∧
        ¬ ['\r', '\n'] <:+: out.text) ∧
    ((∀ l ∈ ls, ¬ s.signature <:+: l) →
      s.formatText text = .ok text ∧ s.formatText text' = .ok text') := by
  have hlines := splitLines_of_spells h hls
  have hlines' := splitLines_of_spells h' hls
  constructor
  · intro hfound
    have hregion : (s.locate (splitLines text')).isFound = true := by
      rw [hlines', isFound_locate_iff]
      exact hfound
    have hsame := formatValid_congr (hlines.trans hlines'.symm) hregion
    refine ⟨s.formatValid text', ?_, format_of_valid hs text', ?_⟩
    · rw [format_of_valid hs, hsame]
    · rw [text_formatValid, if_pos hregion, hlines']
      exact crlf_not_infix_joinLines (cleanLine_of_mem_layOut hu hls)
  · intro hmissing
    have hnone : ¬ ∃ l ∈ ls, s.signature <:+: l := fun ⟨l, hl, hw⟩ => hmissing l hl hw
    exact ⟨formatText_of_missing hs (by rw [hlines]; exact hnone),
      formatText_of_missing hs (by rw [hlines']; exact hnone)⟩

/-- Three endings for the same lines, among them a closer of callbacks, which
is compared as a whole line; the unit is a carriage return. -/
theorem format_line_endings_mixed :
    let s : Style := { indentChar := ['\r'] }
    let first := "func buildRootCommand() ".toList ++ ['{']
    let closer := s.verbatimEnd
    let closing := s.regionEndPrefix
    let ls := [first, [], "Handler(func".toList, " \ra".toList, closer, closing]
    let lf := "\n".toList
    let crlf := "\r\n".toList
    let text := first ++ crlf ++ lf ++ "Handler(func\r\n \ra\n".toList ++ closer ++ crlf ++ closing
    let text' := first ++ lf ++ crlf ++ "Handler(func\n \ra\r\n".toList ++ closer ++ lf ++ closing ++
      crlf
    (s.Valid ∧ '\n' ∉ s.indentChar ∧ (∀ l ∈ ls, CleanLine l) ∧ Spells ls text ∧ Spells ls text') ∧
      ∃ out, s.format text = .ok out ∧ s.format text' = .ok out ∧
        ¬ ['\r', '\n'] <:+: out.text := by
  intro s first closer closing ls lf crlf text text'
  have hs : s.Valid := by decide
  have hu : '\n' ∉ s.indentChar := by decide
  have hls : ∀ l ∈ ls, CleanLine l := by decide
  have htext : Spells ls text :=
    .crlf _ (.lf _ (.crlf _ (.lf _ (.crlf _ (.unended (by decide))))))
  have htext' : Spells ls text' := .lf _ (.crlf _ (.lf _ (.crlf _ (.lf _ (.crlf _ .nil)))))
  have hfound : ∃ l ∈ ls, s.signature <:+: l :=
    ⟨_, List.mem_cons_self, [], [' ', '{'], by decide⟩
  exact ⟨⟨hs, hu, hls, htext, htext'⟩, (format_line_endings hs hu hls htext htext').1 hfound⟩

end Style

end ChainIndent
