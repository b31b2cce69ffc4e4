import ChainIndent.Proofs.LineEndings
import ChainIndent.Proofs.Lossless

/-!
# ChainIndent.Proofs.RoundTrip

Reading and writing lines undo each other, each way round on the clean inputs
and on no others.

* Lines are read back from their text exactly when no line could be taken for
  something else: none holds a newline and none ends in a carriage return
  (`splitLines_joinLines_eq_iff`).
* A text is written back from its lines exactly when every line in it is ended,
  and by LF (`joinLines_splitLines_eq_iff`).  Its carriage returns may stand
  anywhere but in front of a newline.
* Of the text that is written, the newlines tell the number of lines
  (`count_newline_joinLines`).
-/

namespace ChainIndent

/-! ## lines, then text, then lines -/

theorem chomp_eq_self_iff {l : Line} : chomp l = l ↔ l.getLast? ≠ some '\r' := by
  constructor
  · intro h
    have hlen := trailingReturns_chomp l
    rw [h] at hlen
    rw [← trailingReturns_eq_zero_iff]
    omega
  · exact chomp_of_getLast?_ne

/-- **Lines are read back** exactly when they are clean. -/
theorem splitLines_joinLines_eq_iff {ls : List Line} :
    splitLines (joinLines ls) = ls ↔ ∀ l ∈ ls, CleanLine l := by
  constructor
  · intro h
    have hnewline : ∀ l ∈ ls, '\n' ∉ l := fun l hl =>
      not_mem_of_mem_splitLines (by rw [h]; exact hl)
    rw [splitLines_joinLines hnewline] at h
    have hchomp : ∀ l ∈ ls, chomp l = id l := List.map_inj_left.1 (by rw [h, List.map_id])
    exact fun l hl => ⟨hnewline l hl, chomp_eq_self_iff.1 (hchomp l hl)⟩
  · exact splitLines_of_spells (spells_joinLines ls)

theorem count_newline_joinLines {ls : List Line} (h : ∀ l ∈ ls, '\n' ∉ l) :
    (joinLines ls).count '\n' = ls.length := by
  induction ls with
  | nil => rfl
  | cons l ls ih =>
      rw [List.forall_mem_cons] at h
      rw [joinLines_cons, List.count_append, List.count_cons_self, List.count_eq_zero.2 h.1,
        ih h.2, List.length_cons, Nat.zero_add]

/-! ## text, then lines, then text -/

/-- A text of which every line is ended, and by LF. -/
structure CleanText (text : List Char) : Prop where
  crlf_not_infix : ¬ ['\r', '\n'] <:+: text
  ended : text = [] ∨ text.getLast? = some '\n'

instance (text : List Char) : Decidable (CleanText text) :=
  decidable_of_iff
    (¬ occursIn ['\r', '\n'] text = true ∧ (text = [] ∨ text.getLast? = some '\n'))
    ⟨fun h => ⟨mt occursIn_iff.2 h.1, h.2⟩, fun h => ⟨mt occursIn_iff.1 h.1, h.2⟩⟩

/-- The CR LF of a text stand where its lines end in a carriage return. -/
theorem crlf_infix_joinLines_iff {ls : List Line} (h : ∀ l ∈ ls, '\n' ∉ l) :
    ['\r', '\n'] <:+: joinLines ls ↔ ∃ l ∈ ls, l.getLast? = some '\r' := by
  constructor
  · intro hinfix
    by_contra hnone
    have hclean : ∀ l ∈ ls, CleanLine l := fun l hl => ⟨h l hl, fun hlast => hnone ⟨l, hl, hlast⟩⟩
    exact crlf_not_infix_joinLines hclean hinfix
  · rintro ⟨l, hl, hlast⟩
    obtain ⟨front, back, rfl⟩ := List.append_of_mem hl
    obtain ⟨m, rfl⟩ := List.getLast?_eq_some_iff.1 hlast
    exact ⟨joinLines front ++ m, joinLines back, by simp [joinLines_cons]⟩

/-- A text that ends in a newline is its pieces, each ended by one. -/
theorem joinLines_pieces_append_newline (t : List Char) :
    joinLines (pieces (t ++ ['\n'])) = t ++ ['\n'] := by
  have hpieces : ∀ l ∈ pieces t, '\n' ∉ l := fun _ => not_mem_of_mem_pieces
  obtain ⟨ls, hls, ht⟩ : ∃ ls, (∀ l ∈ ls, '\n' ∉ l) ∧ joinLines ls = t ++ ['\n'] := by
    rcases joinLines_pieces t with h | h
    · -- the newline is an empty line more
      refine ⟨pieces t ++ [[]], ?_, by rw [joinLines_append, h]; rfl⟩
      simpa [or_imp, forall_and] using hpieces
    · exact ⟨pieces t, hpieces, h⟩
  rw [← ht, pieces_joinLines hls]

theorem joinLines_pieces_of_ended {t : List Char} (h : t = [] ∨ t.getLast? = some '\n') :
    joinLines (pieces t) = t := by
  rcases h with rfl | h
  · rfl
  · obtain ⟨u, rfl⟩ := List.getLast?_eq_some_iff.1 h
    exact joinLines_pieces_append_newline u

theorem joinLines_ended (ls : List Line) :
    joinLines ls = [] ∨ (joinLines ls).getLast? = some '\n' := by
  by_cases h : ls = []
  · rw [h]
    exact .inl rfl
  · exact .inr (getLast?_joinLines h)

/-- **A text is written back** exactly when it is clean. -/
theorem joinLines_splitLines_eq_iff {text : List Char} :
    joinLines (splitLines text) = text ↔ CleanText text := by
  constructor
  · intro h
    have hclean : ∀ l ∈ splitLines text, CleanLine l := by
      rw [← splitLines_joinLines_eq_iff, h]
    have hcrlf := crlf_not_infix_joinLines hclean
    have hended := joinLines_ended (splitLines text)
    rw [h] at hcrlf hended
    exact ⟨hcrlf, hended⟩
  · intro h
    have htext := joinLines_pieces_of_ended h.ended
    have hreturn : ∀ p ∈ pieces text, p.getLast? ≠ some '\r' := by
      intro p hp hlast
      have hcrlf := (crlf_infix_joinLines_iff fun _ => not_mem_of_mem_pieces).2 ⟨p, hp, hlast⟩
      rw [htext] at hcrlf
      exact h.crlf_not_infix hcrlf
    calc
      joinLines (splitLines text) = joinLines ((pieces text).map id) :=
        congrArg joinLines (List.map_congr_left fun p hp => chomp_of_getLast?_ne (hreturn p hp))
      _ = text := by rw [List.map_id, htext]

/-! ## three parts -/

/-- **Cutting and joining are inverse on clean input and on no other**: lines put
together in three parts are read back exactly when all are clean, and however
the lines of a text are cut into three parts, they give the text back exactly
when it is clean, and always one newline for each line. -/
theorem splitLines_rewrite_inverse :
    (∀ (r : Region) (body : List Line),
      splitLines (r.rewrite body) = r.before ++ body ++ r.after ↔
        ∀ l ∈ r.before ++ body ++ r.after, CleanLine l) ∧
    ∀ (text : List Char) (r : Region) (body : List Line),
      r.before ++ body ++ r.after = splitLines text →
        (r.rewrite body = text ↔ CleanText text) ∧
        (r.rewrite body).count '\n' = (splitLines text).length := by
  constructor
  · intro r body
    exact splitLines_joinLines_eq_iff
  · intro text r body hcut
    rw [Region.rewrite, hcut]
    exact ⟨joinLines_splitLines_eq_iff, count_newline_joinLines fun _ => not_mem_of_mem_splitLines⟩

/-- A clean text with carriage returns inside its lines and an empty line, and
one that ends in a carriage return after a line that ends in two. -/
theorem splitLines_rewrite_inverse_returns :
    let r : Region := ⟨["\ra".toList], [], ["b\rc".toList], none⟩
    let text := "\ra\n\nb\rc\n".toList
    let r' : Region := ⟨["a\r".toList], [], [], none⟩
    let text' := "a\r\r\n\r".toList
    (r.before ++ [[]] ++ r.after = splitLines text ∧ CleanText text ∧
      r.rewrite [[]] = text ∧ (r.rewrite [[]]).count '\n' = 3) ∧
    (r'.before ++ [[]] ++ r'.after = splitLines text' ∧ ¬ CleanText text' ∧
      r'.rewrite [[]] ≠ text' ∧ (r'.rewrite [[]]).count '\n' = 2) := by
  intro r text r' text'
  obtain ⟨-, hback⟩ := splitLines_rewrite_inverse
  have hcut : r.before ++ [[]] ++ r.after = splitLines text := by decide
  have hcut' : r'.before ++ [[]] ++ r'.after = splitLines text' := by decide
  have hclean : CleanText text := by decide
  have hclean' : ¬ CleanText text' := by decide
  obtain ⟨htext, hcount⟩ := hback text r [[]] hcut
  obtain ⟨htext', hcount'⟩ := hback text' r' [[]] hcut'
  exact ⟨⟨hcut, hclean, htext.2 hclean, hcount⟩,
    ⟨hcut', hclean', fun h => hclean' (htext'.1 h), hcount'⟩⟩

end ChainIndent
