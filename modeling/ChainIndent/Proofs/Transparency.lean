import ChainIndent.Proofs.Agreement
import ChainIndent.Proofs.LineEndings
import Mathlib.Data.List.InsertIdx

/-!
# ChainIndent.Proofs.Transparency

Comments and blank lines are transparent: one more of them in a region is one
more line of output, and nothing else changes.

They are the *inert* kinds.  An inert line leaves the flag of the scan and the
context of the layout as it finds them, inside a callback and outside, whatever
braces or markers its text holds.  So both readers go on behind it as if it were
not there:

* `bodyLength_insertIdx` — the scan goes past it, if it does not look like a
  closing line;
* `run_insertIdx` — the layout has one more step, the other steps are the same;
* `locate_insertIdx` — the document is cut in the same places.
-/

namespace ChainIndent

/-! ## inert kinds -/

/-- Lines of this kind leave every context as it is. -/
def LineKind.Inert (k : LineKind) : Prop := k = .blank ∨ k = .comment

instance (k : LineKind) : Decidable k.Inert := inferInstanceAs (Decidable (_ ∨ _))

theorem Style.opensAfter_of_inert {k : LineKind} (hk : k.Inert) (isOpen : Bool) :
    opensAfter isOpen k = isOpen := by
  obtain rfl | rfl := hk <;> cases isOpen <;> rfl

namespace Context

theorem after_of_inert {k : LineKind} (hk : k.Inert) (c : Context) (net : Int) :
    c.after k net = c := by
  obtain rfl | rfl := hk <;> rfl

/-- A line of an inert kind is never copied. -/
theorem render_place_of_inert {k : LineKind} (hk : k.Inert) (c : Context) (unit : List Char)
    (l : Line) :
    (c.place k l).render unit =
      if k = .blank then [] else (List.replicate c.level unit).flatten ++ trimStart l := by
  obtain rfl | rfl := hk <;> rfl

theorem isIndented_place_of_inert {k : LineKind} (hk : k.Inert) (c : Context) (l : Line) :
    (c.place k l).isIndented = decide (k = .comment) := by
  obtain rfl | rfl := hk <;> rfl

theorem isVerbatim_place_of_inert {k : LineKind} (hk : k.Inert) (c : Context) (l : Line) :
    (c.place k l).isVerbatim = false := by
  obtain rfl | rfl := hk <;> rfl

end Context

/-! ## one more member of a list -/

theorem insertIdx_length_add {α : Type} (xs ys : List α) (n : Nat) (a : α) :
    (xs ++ ys).insertIdx (xs.length + n) a = xs ++ ys.insertIdx n a := by
  induction xs with
  | nil => simp
  | cons x xs ih => simp [Nat.add_right_comm, ih]

theorem insertIdx_append_of_le {α : Type} {xs : List α} {n : Nat} (hn : n ≤ xs.length)
    (ys : List α) (a : α) : (xs ++ ys).insertIdx n a = xs.insertIdx n a ++ ys := by
  induction xs generalizing n with
  | nil => simp_all
  | cons x xs ih => cases n with
    | zero => simp
    | succ n => simp [ih (Nat.le_of_succ_le_succ hn)]

theorem countP_insertIdx {α : Type} {xs : List α} {n : Nat} (hn : n ≤ xs.length) (p : α → Bool)
    (a : α) : (xs.insertIdx n a).countP p = xs.countP p + if p a then 1 else 0 := by
  rw [(List.perm_insertIdx a xs hn).countP_eq, List.countP_cons]

namespace Style

variable {s : Style}

/-! ## the scan -/

theorem bodyLength_insertIdx {isOpen : Bool} {ls : List Line} {n : Nat}
    (hn : n ≤ s.bodyLength isOpen ls) {l : Line} (hl : (s.kindOf l).Inert)
    (hends : s.endsRegion l = false) :
    s.bodyLength isOpen (ls.insertIdx n l) = s.bodyLength isOpen ls + 1 := by
  induction n generalizing isOpen ls with
  | zero => simp [bodyLength, hends, opensAfter_of_inert hl]
  | succ n ih =>
      cases ls with
      | nil => simp [bodyLength] at hn
      | cons x xs =>
          rw [List.insertIdx_succ_cons]
          unfold bodyLength at hn ⊢
          split at hn
          · omega
          · next hgo => rw [if_neg hgo, if_neg hgo, ih (Nat.le_of_succ_le_succ hn)]

/-! ## the layout -/

/-- The other steps are the same, and the new one leaves its context. -/
theorem run_insertIdx {c : Context} {ls : List Line} {n : Nat} (hn : n ≤ ls.length) {l : Line}
    (hl : (s.kindOf l).Inert) :
    run s.step c (ls.insertIdx n l) =
      (run s.step c ls).insertIdx n (s.step (lastContext c (run s.step c (ls.take n))) l) := by
  have hstays : ∀ c, (s.step c l).after = c := by
    intro c
    rw [after_step, Context.after_of_inert hl]
  induction n generalizing c ls with
  | zero => simp [hstays]
  | succ n ih =>
      cases ls with
      | nil => simp at hn
      | cons x xs => simp [ih (Nat.le_of_succ_le_succ hn)]

theorem lastContext_run_insertIdx {c : Context} {ls : List Line} {n : Nat} (hn : n ≤ ls.length)
    {l : Line} (hl : (s.kindOf l).Inert) :
    lastContext c (run s.step c (ls.insertIdx n l)) = lastContext c (run s.step c ls) := by
  induction n generalizing c ls with
  | zero => simp [after_step, Context.after_of_inert hl]
  | succ n ih =>
      cases ls with
      | nil => simp at hn
      | cons x xs => simp [ih (Nat.le_of_succ_le_succ hn)]

/-- What becomes of an inert line in front of line `n`: a blank one is empty, and
a comment stands at the level that is reached there. -/
def inertLine (s : Style) (ls : List Line) (n : Nat) (l : Line) : Line :=
  if s.kindOf l = .blank then []
  else (List.replicate (s.contextBefore ls n).level s.indentUnit).flatten ++ trimStart l

theorem lines_reindent_insertIdx {ls : List Line} {n : Nat} (hn : n ≤ ls.length) {l : Line}
    (hl : (s.kindOf l).Inert) :
    (s.reindent (ls.insertIdx n l)).lines =
      (s.reindent ls).lines.insertIdx n (s.inertLine ls n l) := by
  rw [lines_reindent, lines_reindent, steps, steps, run_insertIdx hn hl, List.map_insertIdx,
    placed_step, Context.render_place_of_inert hl]
  rfl

theorem tally_reindent_insertIdx {ls : List Line} {n : Nat} (hn : n ≤ ls.length) {l : Line}
    (hl : (s.kindOf l).Inert) :
    (s.reindent (ls.insertIdx n l)).tally =
      { (s.reindent ls).tally with
        reindentedLines :=
          (s.reindent ls).tally.reindentedLines + if s.kindOf l = .comment then 1 else 0 } := by
  have hlast := lastContext_run_insertIdx (c := s.start) hn hl
  have hlen : n ≤ (run s.step s.start ls).length := by rwa [length_run]
  simp only [reindent, Reindented.ofRun, Tally.ofRun, steps, hlast]
  rw [run_insertIdx hn hl]
  simp [countP_insertIdx hlen, Context.isIndented_place_of_inert hl,
    Context.isVerbatim_place_of_inert hl, Step.entersCallback, step, Context.after_of_inert hl]

/-! ## the document -/

section Document

variable {ls : List Line} {i n : Nat} {l : Line}

/-- **The cut** stays where it is, and the line is in the region. -/
theorem locate_insertIdx (hi : (s.locate ls).signatureLine = some i)
    (hheader : i + 1 + s.headerLines ≤ ls.length) (hn : n ≤ (s.locate ls).body.length)
    (hl : (s.kindOf l).Inert) (hstart : ¬ s.regionEndPrefix <+: l) :
    s.locate (ls.insertIdx ((s.locate ls).before.length + n) l) =
      { s.locate ls with body := (s.locate ls).body.insertIdx n l } := by
  have hwhole := locate_append s ls
  have hscan := bodyLength_locate s ls
  have hends : s.endsRegion l = false := by
    rw [← Bool.not_eq_true, endsRegion_eq_true_iff]
    exact fun h => hstart h.1
  rw [signatureLine_locate] at hi
  have hbefore : (s.locate ls).before = ls.take (i + 1 + s.headerLines) := by
    rw [locate_of_some hi, cutAt]
  have hparts : ls.insertIdx ((s.locate ls).before.length + n) l =
      (s.locate ls).before ++ (s.locate ls).body.insertIdx n l ++ (s.locate ls).after :=
    calc
      ls.insertIdx ((s.locate ls).before.length + n) l
        = ((s.locate ls).before ++ ((s.locate ls).body ++ (s.locate ls).after)).insertIdx
            ((s.locate ls).before.length + n) l := by rw [← List.append_assoc, hwhole]
      _ = _ := by rw [insertIdx_length_add, insertIdx_append_of_le hn, List.append_assoc]
  have hsig : (s.locate ls).signatureLine = some i := by rw [signatureLine_locate, hi]
  simp only [hparts, hsig]
  apply locate_append_append
  · rw [hbefore, List.append_assoc]
    exact signatureLine?_take_append hi (by omega) _
  · rw [hbefore, List.length_take_of_le hheader]
  · rw [← insertIdx_append_of_le hn, bodyLength_insertIdx (by omega) hl hends, hscan,
      List.length_insertIdx_of_le_length hn]

theorem layOut_insertIdx (hi : (s.locate ls).signatureLine = some i)
    (hheader : i + 1 + s.headerLines ≤ ls.length) (hn : n ≤ (s.locate ls).body.length)
    (hl : (s.kindOf l).Inert) (hstart : ¬ s.regionEndPrefix <+: l) :
    s.layOut (ls.insertIdx ((s.locate ls).before.length + n) l) =
      (s.layOut ls).insertIdx ((s.locate ls).before.length + n)
        (s.inertLine (s.locate ls).body n l) := by
  have hlen : n ≤ (s.reindent (s.locate ls).body).lines.length := by
    rwa [length_lines_reindent]
  rw [layOut, locate_insertIdx hi hheader hn hl hstart, layOut]
  simp only [lines_reindent_insertIdx hn hl, List.append_assoc]
  rw [insertIdx_length_add, insertIdx_append_of_le hlen]

/-- **Comments and blank lines are transparent**: one more of them in a region
or at its end is one more line of output there, all other lines are the same,
and of the tally only the count of placed lines changes, by a comment. -/
theorem formatsLines_insertIdx (hs : s.Valid) (hu : '\n' ∉ s.indentChar)
    (hls : ∀ m ∈ ls, CleanLine m) (hi : (s.locate ls).signatureLine = some i)
    (hheader : i + 1 + s.headerLines ≤ ls.length) (hn : n ≤ (s.locate ls).body.length)
    (hclean : CleanLine l) (hl : s.kindOf l = .blank ∨ s.kindOf l = .comment)
    (hstart : ¬ s.regionEndPrefix <+: l) :
    let place := (s.locate ls).before.length + n
    ∃ outs tally, outs.length = ls.length ∧ s.FormatsLines ls outs tally ∧
      s.FormatsLines (ls.insertIdx place l)
        (outs.insertIdx place (s.inertLine (s.locate ls).body n l))
        { tally with
          reindentedLines := tally.reindentedLines + if s.kindOf l = .comment then 1 else 0 } := by
  intro place
  have hlocate := locate_insertIdx hi hheader hn hl hstart
  have hfound : (s.locate ls).isFound = true := by
    rw [Region.isFound, hi]
    rfl
  have hfound' : (s.locate (ls.insertIdx place l)).isFound = true := by
    rw [hlocate]
    exact hfound
  have hls' : ∀ m ∈ ls.insertIdx place l, CleanLine m := by
    intro m hm
    obtain rfl | hm := List.eq_or_mem_of_mem_insertIdx hm
    · exact hclean
    · exact hls m hm
  have hformats := formatsLines_layOut hs hu hls' hfound'
  rw [layOut_insertIdx hi hheader hn hl hstart, hlocate, tally_reindent_insertIdx hn hl] at hformats
  exact ⟨s.layOut ls, _, length_layOut s ls, formatsLines_layOut hs hu hls hfound, hformats⟩

end Document

/-- A comment that holds an opener, a closer and braces, set into a callback one
level deep. -/
theorem formatsLines_insertIdx_callback :
    let closer := standard.verbatimEnd
    let ls := ["func buildRootCommand() ".toList ++ ['{'], [], "Flag(".toList,
      "Handler(func".toList, " x".toList, closer, standard.regionEndPrefix]
    let comment := "// Handler(func ".toList ++ '{' :: ' ' :: closer ++ " Done().".toList
    let l := ' ' :: comment
    (standard.Valid ∧ '\n' ∉ standard.indentChar ∧ (∀ m ∈ ls, CleanLine m) ∧
        (standard.locate ls).signatureLine = some 0 ∧ 0 + 1 + standard.headerLines ≤ ls.length ∧
        3 ≤ (standard.locate ls).body.length ∧ CleanLine l ∧
        standard.kindOf l = .comment ∧ ¬ standard.regionEndPrefix <+: l) ∧
      ∃ outs tally, outs.length = 7 ∧ standard.FormatsLines ls outs tally ∧
        standard.FormatsLines (ls.insertIdx 5 l)
          (outs.insertIdx 5 ("\t\t\t".toList ++ comment))
          { tally with reindentedLines := tally.reindentedLines + 1 } := by
  intro closer ls comment l
  have hu : '\n' ∉ standard.indentChar := by decide
  have hls : ∀ m ∈ ls, CleanLine m := by decide
  have hi : (standard.locate ls).signatureLine = some 0 := by decide
  have hheader : 0 + 1 + standard.headerLines ≤ ls.length := by decide
  have hn : 3 ≤ (standard.locate ls).body.length := by decide
  have hclean : CleanLine l := by decide
  have hkind : standard.kindOf l = .comment := by decide
  have hstart : ¬ standard.regionEndPrefix <+: l := by decide
  have hformats :=
    formatsLines_insertIdx valid_standard hu hls hi hheader hn hclean (.inr hkind) hstart
  have hplace : (standard.locate ls).before.length + 3 = 5 := by decide
  have hwritten : standard.inertLine (standard.locate ls).body 3 l =
      "\t\t\t".toList ++ comment := by decide
  rw [hplace, hwritten, if_pos hkind] at hformats
  exact ⟨⟨valid_standard, hu, hls, hi, hheader, hn, hclean, hkind, hstart⟩, hformats⟩

end Style

end ChainIndent
