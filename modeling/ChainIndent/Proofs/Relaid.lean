import ChainIndent.Document
import ChainIndent.Proofs.Placement
import ChainIndent.Proofs.Extent
import ChainIndent.Proofs.Returns
import Mathlib.Data.List.Forall2

/-!
# ChainIndent.Proofs.Relaid

What formatting makes of the lines of a document, `layOut`, and of each line
on its own, `Relaid`: whatever the region and whatever the context, a line is
kept, or emptied if it is blank, or gets another indentation if it is not.

If the indent unit is itself white space without a newline (`BlankIndent`),
such a line cannot be told from the old one but by its indentation: it has
the same text, it is one line again, and it ends in no more carriage returns.
-/

namespace ChainIndent

/-- Lists related member by member agree in all that related members share. -/
theorem map_eq_of_forall₂ {α β : Type} {R : α → α → Prop} {xs ys : List α}
    (h : List.Forall₂ R xs ys) {f : α → β} (hf : ∀ x y, R x y → f y = f x) :
    ys.map f = xs.map f := by
  induction h with
  | nil => rfl
  | cons hxy _ ih => rw [List.map_cons, List.map_cons, hf _ _ hxy, ih]

namespace Style

/-! ## blank indentation -/

/-- The indentation is white space, and stays inside its line. -/
def BlankIndent (s : Style) : Prop := ∀ c ∈ s.indentChar, isBlank c = true ∧ c ≠ '\n'

instance (s : Style) : Decidable s.BlankIndent :=
  List.decidableBAll _ s.indentChar

theorem mem_indentChar_of_mem_levels {s : Style} {n : Nat} {c : Char}
    (h : c ∈ (List.replicate n s.indentUnit).flatten) : c ∈ s.indentChar := by
  obtain ⟨u, hu, hc⟩ := List.mem_flatten.1 h
  rw [List.eq_of_mem_replicate hu, indentUnit] at hc
  obtain ⟨v, hv, hcv⟩ := List.mem_flatten.1 hc
  rw [List.eq_of_mem_replicate hv] at hcv
  exact hcv

theorem isBlankLine_levels {s : Style} (hb : s.BlankIndent) (n : Nat) :
    isBlankLine (List.replicate n s.indentUnit).flatten = true := by
  rw [isBlankLine, List.all_eq_true]
  exact fun c hc => (hb c (mem_indentChar_of_mem_levels hc)).1

theorem BlankIndent.newline_not_mem {s : Style} (hb : s.BlankIndent) : '\n' ∉ s.indentChar :=
  fun hc => (hb _ hc).2 rfl

theorem newline_not_mem_levels {s : Style} (hu : '\n' ∉ s.indentChar) (n : Nat) :
    '\n' ∉ (List.replicate n s.indentUnit).flatten :=
  fun hc => hu (mem_indentChar_of_mem_levels hc)

/-! ## one line -/

/-- What formatting may make of a line. -/
inductive Relaid (s : Style) (raw : Line) : Line → Prop
  | kept : Relaid s raw raw
  | emptied : isBlankLine raw = true → Relaid s raw []
  | indented (n : Nat) : isBlankLine raw = false →
      Relaid s raw ((List.replicate n s.indentUnit).flatten ++ trimStart raw)

theorem relaid_render_place (s : Style) (c : Context) (raw : Line) :
    s.Relaid raw ((c.place (s.kindOf raw) raw).render s.indentUnit) := by
  obtain ⟨hk, hp⟩ | ⟨_, hp⟩ | ⟨hk, _, n, hp⟩ := c.place_cases (s.kindOf raw) raw
  · rw [hp]
    exact .emptied (kindOf_eq_blank_iff.1 hk)
  · rw [hp]
    exact .kept
  · rw [hp]
    have hblank : isBlankLine raw = false := by
      rw [← Bool.not_eq_true]
      exact fun h => hk (kindOf_eq_blank_iff.2 h)
    exact .indented n hblank

theorem Relaid.trimStart_eq {s : Style} (hb : s.BlankIndent) {raw out : Line}
    (h : s.Relaid raw out) : trimStart out = trimStart raw := by
  cases h with
  | kept => rfl
  | emptied hblank => rw [trimStart_nil, trimStart_eq_nil_iff.2 hblank]
  | indented n _ => rw [trimStart_append_of_blank (isBlankLine_levels hb n), trimStart_trimStart]

theorem Relaid.kindOf_eq {s : Style} (hb : s.BlankIndent) {raw out : Line}
    (h : s.Relaid raw out) : s.kindOf out = s.kindOf raw := by
  rw [kindOf, kindOf, h.trimStart_eq hb]

theorem Relaid.newline_not_mem {s : Style} (hu : '\n' ∉ s.indentChar) {raw out : Line}
    (h : s.Relaid raw out) (hraw : '\n' ∉ raw) : '\n' ∉ out := by
  cases h with
  | kept => exact hraw
  | emptied _ => exact List.not_mem_nil
  | indented n _ =>
      have htext := (trimStart_suffix raw).subset
      intro hmem
      cases List.mem_append.1 hmem with
      | inl hlevels => exact newline_not_mem_levels hu n hlevels
      | inr htrim => exact hraw (htext htrim)

theorem Relaid.trailingReturns_le {s : Style} {raw out : Line} (h : s.Relaid raw out) :
    trailingReturns out ≤ trailingReturns raw := by
  cases h with
  | kept => exact Nat.le_refl _
  | emptied _ => exact Nat.zero_le _
  | indented n hblank => exact Nat.le_of_eq (trailingReturns_append_trimStart hblank _)

/-! ## all lines -/

/-- The lines of a document after formatting. -/
def layOut (s : Style) (ls : List Line) : List Line :=
  (s.locate ls).before ++ (s.reindent (s.locate ls).body).lines ++ (s.locate ls).after

theorem text_formatValid (s : Style) (text : List Char) :
    (s.formatValid text).text =
      if (s.locate (splitLines text)).isFound then joinLines (s.layOut (splitLines text))
      else text := by
  rw [formatValid]
  split
  · rfl
  · rfl

/-- Without the signature a text is returned byte for byte. -/
theorem formatText_of_missing {s : Style} (hs : s.Valid) {text : List Char}
    (h : ¬ ∃ l ∈ splitLines text, s.signature <:+: l) : s.formatText text = .ok text := by
  have hfound : ¬ (s.locate (splitLines text)).isFound = true := by
    rw [isFound_locate_iff]
    exact h
  rw [formatText_of_valid hs, text_formatValid, if_neg hfound]

theorem formatText_of_found {s : Style} (hs : s.Valid) {text : List Char}
    (h : ∃ l ∈ splitLines text, s.signature <:+: l) :
    s.formatText text = .ok (joinLines (s.layOut (splitLines text))) := by
  rw [formatText_of_valid hs, text_formatValid, if_pos (isFound_locate_iff.2 h)]

theorem layOut_of_none {s : Style} {ls : List Line} (h : s.signatureLine? ls = none) :
    s.layOut ls = ls := by
  rw [layOut, locate_of_none h]
  exact (List.append_nil _).trans (List.append_nil ls)

theorem forall₂_relaid_run (s : Style) (c : Context) (ls : List Line) :
    List.Forall₂ s.Relaid ls ((run s.step c ls).map fun t => t.placed.render s.indentUnit) := by
  induction ls generalizing c with
  | nil => exact .nil
  | cons l ls ih => exact .cons (relaid_render_place s c l) (ih _)

/-- **Line for line**: formatting neither adds nor drops nor moves a line. -/
theorem forall₂_relaid_layOut (s : Style) (ls : List Line) :
    List.Forall₂ s.Relaid ls (s.layOut ls) := by
  have hkept : ∀ ms : List Line, List.Forall₂ s.Relaid ms ms :=
    fun ms => List.forall₂_same.2 fun _ _ => .kept
  have hbody := forall₂_relaid_run s s.start (s.locate ls).body
  have hall : List.Forall₂ s.Relaid
      ((s.locate ls).before ++ (s.locate ls).body ++ (s.locate ls).after) (s.layOut ls) :=
    List.rel_append (List.rel_append (hkept _) hbody) (hkept _)
  rw [locate_append] at hall
  exact hall

theorem length_layOut (s : Style) (ls : List Line) : (s.layOut ls).length = ls.length :=
  (forall₂_relaid_layOut s ls).length_eq.symm

/-- Every line of the output comes from a line of the input. -/
theorem exists_relaid_of_mem_layOut {s : Style} {ls : List Line} {out : Line}
    (h : out ∈ s.layOut ls) : ∃ raw ∈ ls, s.Relaid raw out := by
  obtain ⟨i, hi, rfl⟩ := List.getElem_of_mem h
  have hi' : i < ls.length := by rw [← length_layOut s ls]; exact hi
  exact ⟨ls[i], List.getElem_mem hi', (forall₂_relaid_layOut s ls).get hi' hi⟩

/-- A unit without a newline breaks no line in two. -/
theorem forall_newline_not_mem_layOut {s : Style} (hu : '\n' ∉ s.indentChar) {ls : List Line}
    (hls : ∀ l ∈ ls, '\n' ∉ l) : ∀ out ∈ s.layOut ls, '\n' ∉ out := by
  intro out hout
  obtain ⟨raw, hraw, h⟩ := exists_relaid_of_mem_layOut hout
  exact h.newline_not_mem hu (hls raw hraw)

theorem newline_not_mem_of_mem_layOut {s : Style} (hb : s.BlankIndent) {ls : List Line}
    (hls : ∀ l ∈ ls, '\n' ∉ l) : ∀ out ∈ s.layOut ls, '\n' ∉ out :=
  forall_newline_not_mem_layOut hb.newline_not_mem hls

theorem trailingReturns_le_of_mem_layOut {s : Style} {ls : List Line} {k : Nat}
    (hls : ∀ l ∈ ls, trailingReturns l ≤ k) : ∀ out ∈ s.layOut ls, trailingReturns out ≤ k := by
  intro out hout
  obtain ⟨raw, hraw, h⟩ := exists_relaid_of_mem_layOut hout
  exact Nat.le_trans h.trailingReturns_le (hls raw hraw)

/-- Formatting adds no carriage return to the end of a line. -/
theorem trailingReturns_eq_zero_of_mem_layOut {s : Style} {ls : List Line}
    (hls : ∀ l ∈ ls, l.getLast? ≠ some '\r') : ∀ out ∈ s.layOut ls, trailingReturns out = 0 := by
  have hends : ∀ l ∈ ls, trailingReturns l ≤ 0 :=
    fun l hl => Nat.le_of_eq (trailingReturns_eq_zero_iff.2 (hls l hl))
  exact fun out hout => Nat.le_zero.1 (trailingReturns_le_of_mem_layOut hends out hout)

/-- What was written is read back as it is, unless a line ends in a carriage
return. -/
theorem splitLines_joinLines_layOut {s : Style} (hb : s.BlankIndent) {text : List Char}
    (hclean : ∀ l ∈ splitLines text, l.getLast? ≠ some '\r') :
    splitLines (joinLines (s.layOut (splitLines text))) = s.layOut (splitLines text) :=
  splitLines_joinLines_of_no_return
    (newline_not_mem_of_mem_layOut hb fun _ hl => not_mem_of_mem_splitLines hl)
    (trailingReturns_eq_zero_of_mem_layOut hclean)

end Style

end ChainIndent
