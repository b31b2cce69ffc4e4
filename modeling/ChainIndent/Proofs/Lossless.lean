import ChainIndent.Proofs.Relaid

/-!
# ChainIndent.Proofs.Lossless

Formatting loses nothing.  What stands between two newlines of a text is cut
into white space, contents and line ending; formatting may write other white
space and drop one carriage return of the line ending, but keeps the contents
and their place (`SameContents`).  A missing last newline is added.

Tokens, the words between white space, are read off the contents, so they are
kept too.
-/

namespace ChainIndent

/-! ## tokens -/

/-- The words of a line, in order. -/
def tokens (l : Line) : List (List Char) := (l.splitOnP isBlank).filter fun w => !w.isEmpty

@[simp] theorem tokens_nil : tokens [] = [] := by simp [tokens, List.splitOnP_nil]

/-- A blank character separates words. -/
theorem tokens_append_blank_cons {c : Char} (hc : isBlank c = true) (l m : Line) :
    tokens (l ++ c :: m) = tokens l ++ tokens m := by
  rw [tokens, List.splitOnP_append_cons l m hc, List.filter_append]
  rfl

theorem tokens_append_of_blank {u : Line} (h : isBlankLine u = true) (l : Line) :
    tokens (u ++ l) = tokens l := by
  induction u with
  | nil => rfl
  | cons c u ih =>
      rw [isBlankLine, List.all_cons, Bool.and_eq_true] at h
      have hcons := tokens_append_blank_cons h.1 [] (u ++ l)
      rw [tokens_nil, List.nil_append, List.nil_append, ih h.2] at hcons
      exact hcons

theorem tokens_append_return (l : Line) : tokens (l ++ ['\r']) = tokens l := by
  rw [tokens_append_blank_cons (by decide) l [], tokens_nil, List.append_nil]

/-! ## contents -/

/-- Two pieces of text that differ at most in their indentation and in one
carriage return at the end of the first. -/
def SameContents (p q : Line) : Prop :=
  ∃ u v w e : Line, isBlankLine u = true ∧ isBlankLine v = true ∧ (e = [] ∨ e = ['\r']) ∧
    p = u ++ w ++ e ∧ q = v ++ w

theorem exists_blank_append_trimStart (l : Line) :
    ∃ u, isBlankLine u = true ∧ l = u ++ trimStart l :=
  ⟨l.takeWhile isBlank, List.all_takeWhile, List.takeWhile_append_dropWhile.symm⟩

theorem exists_chomp_append (p : Line) : ∃ e, (e = [] ∨ e = ['\r']) ∧ p = chomp p ++ e := by
  by_cases h : p.getLast? = some '\r'
  · obtain ⟨l, rfl⟩ := List.getLast?_eq_some_iff.1 h
    exact ⟨['\r'], .inr rfl, by rw [chomp_append_cr]⟩
  · exact ⟨[], .inl rfl, by rw [chomp_of_getLast?_ne h, List.append_nil]⟩

theorem sameContents_of_trimStart_eq {p q : Line} (h : trimStart q = trimStart (chomp p)) :
    SameContents p q := by
  obtain ⟨e, he, hp⟩ := exists_chomp_append p
  obtain ⟨u, hu, hraw⟩ := exists_blank_append_trimStart (chomp p)
  obtain ⟨v, hv, hq⟩ := exists_blank_append_trimStart q
  refine ⟨u, v, trimStart (chomp p), e, hu, hv, he, ?_, ?_⟩
  · rw [← hraw]
    exact hp
  · rw [← h]
    exact hq

theorem SameContents.tokens_eq {p q : Line} (h : SameContents p q) : tokens q = tokens p := by
  obtain ⟨u, v, w, e, hu, hv, he, rfl, rfl⟩ := h
  rw [tokens_append_of_blank hv, List.append_assoc, tokens_append_of_blank hu]
  cases he with
  | inl he => rw [he, List.append_nil]
  | inr he => rw [he, tokens_append_return]

/-! ## texts and their pieces -/

/-- A text is its pieces, each ended by a newline, but for the last newline. -/
theorem joinLines_pieces (t : List Char) :
    joinLines (pieces t) = t ∨ joinLines (pieces t) = t ++ ['\n'] := by
  induction t with
  | nil => exact .inl rfl
  | cons c t ih =>
      by_cases hc : c = '\n'
      · rw [hc, pieces_newline_cons, joinLines_cons, List.nil_append, List.cons_append]
        exact ih.imp (congrArg _) (congrArg _)
      · cases hp : pieces t with
        | nil =>
            rw [pieces_eq_nil_iff.1 hp, pieces_of_not_mem (by simpa using Ne.symm hc) (by simp)]
            exact .inr rfl
        | cons p ps =>
            have hcons : joinLines (pieces (c :: t)) = c :: joinLines (p :: ps) := by
              rw [pieces_cons, hp]
              simp [consPiece, hc, joinLines_cons]
            rw [hp] at ih
            rw [hcons, List.cons_append]
            exact ih.imp (congrArg _) (congrArg _)

theorem getLast?_joinLines {ls : List Line} (h : ls ≠ []) :
    (joinLines ls).getLast? = some '\n' := by
  obtain hnil | ⟨ms, l, hms⟩ := List.eq_nil_or_concat ls
  · exact absurd hnil h
  · rw [hms, List.concat_eq_append, joinLines_append, joinLines_cons, joinLines_nil,
      List.getLast?_append, List.getLast?_append]
    rfl

namespace Style

variable {s : Style}

theorem map_trimStart_layOut (hb : s.BlankIndent) (ls : List Line) :
    (s.layOut ls).map trimStart = ls.map trimStart :=
  map_eq_of_forall₂ (forall₂_relaid_layOut s ls) fun _ _ h => h.trimStart_eq hb

theorem forall₂_sameContents_layOut (hb : s.BlankIndent) (text : List Char) :
    List.Forall₂ SameContents (pieces text) (s.layOut (splitLines text)) := by
  have hrelaid := forall₂_relaid_layOut s (splitLines text)
  rw [splitLines, List.forall₂_map_left_iff] at hrelaid
  exact hrelaid.imp fun _ _ h => sameContents_of_trimStart_eq (h.trimStart_eq hb)

/-- **Losslessness**: without the signature nothing is changed, and with it
the output has the same lines but for indentation and line endings. -/
theorem formatText_lossless (hs : s.Valid) (hb : s.BlankIndent) (text : List Char) :
    ((∀ l ∈ splitLines text, ¬ s.signature <:+: l) → s.formatText text = .ok text) ∧
    ((∃ l ∈ splitLines text, s.signature <:+: l) →
      ∃ out, s.formatText text = .ok out ∧
        out.getLast? = some '\n' ∧
        (pieces out).length = (splitLines text).length ∧
        (∀ i : Nat, (pieces out)[i]?.map trimStart = (splitLines text)[i]?.map trimStart) ∧
        (pieces out).map tokens = (pieces text).map tokens ∧
        List.Forall₂ SameContents (pieces text) (pieces out) ∧
        joinLines (pieces out) = out ∧
        (joinLines (pieces text) = text ∨ joinLines (pieces text) = text ++ ['\n'])) := by
  constructor
  · intro hmissing
    exact formatText_of_missing hs fun ⟨l, hl, hw⟩ => hmissing l hl hw
  · intro hfound
    have hpieces : pieces (joinLines (s.layOut (splitLines text))) = s.layOut (splitLines text) :=
      pieces_joinLines
        (newline_not_mem_of_mem_layOut hb fun l hl => not_mem_of_mem_splitLines hl)
    have hcontents := forall₂_sameContents_layOut hb text
    have htokens : (s.layOut (splitLines text)).map tokens = (pieces text).map tokens :=
      map_eq_of_forall₂ hcontents fun _ _ h => SameContents.tokens_eq h
    have hne : s.layOut (splitLines text) ≠ [] := by
      obtain ⟨l, hl, _⟩ := hfound
      rw [← List.length_pos_iff, length_layOut]
      exact List.length_pos_of_mem hl
    refine ⟨_, formatText_of_found hs hfound, getLast?_joinLines hne, ?_, ?_, ?_, ?_, ?_,
      joinLines_pieces text⟩
    · rw [hpieces, length_layOut]
    · intro i
      rw [hpieces, ← List.getElem?_map, ← List.getElem?_map, map_trimStart_layOut hb]
    · rw [hpieces, htokens]
    · rw [hpieces]
      exact hcontents
    · rw [hpieces]

/-- Carriage returns in the indentation and before the newlines, and a text
without the signature. -/
theorem formatText_lossless_returns :
    let s : Style := { baseIndent := 0, indentChar := ['\r', '\u3000'], indentWidth := 2 }
    let header := "func buildRootCommand() ".toList ++ ['{', '\r']
    let text := joinLines ["x\r".toList, header ++ ['\r'], "\t\r".toList, "  Flag( a\r\r".toList,
      "\tb\r".toList] ++ " ".toList ++ s.regionEndPrefix ++ " c".toList
    (s.Valid ∧ s.BlankIndent) ∧
      s.formatText "a\r\nb".toList = .ok "a\r\nb".toList ∧
      ∃ out, s.formatText text = .ok out ∧ (pieces out).length = 6 ∧
        (pieces out).map tokens = (pieces text).map tokens := by
  intro s header text
  have hs : s.Valid := by decide
  have hb : s.BlankIndent := by decide
  have hmissing : s.formatText "a\r\nb".toList = .ok "a\r\nb".toList :=
    (formatText_lossless hs hb _).1 (by decide)
  have hfound : ∃ l ∈ splitLines text, s.signature <:+: l :=
    ⟨header, by decide, [], [' ', '{', '\r'], by decide⟩
  obtain ⟨out, hout, _, hlen, _, htokens, _⟩ := (formatText_lossless hs hb text).2 hfound
  exact ⟨⟨hs, hb⟩, hmissing, out, hout, hlen, htokens⟩

end Style

end ChainIndent
