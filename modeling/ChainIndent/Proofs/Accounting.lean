import ChainIndent.Proofs.FailOpen
import Mathlib.Data.Nat.Count

/-!
# ChainIndent.Proofs.Accounting

The tally of a region accounts for its lines.

1. A step empties its line, indents it or copies it, and it empties the blank
   lines only; so what is not tallied is blank (`length_eq_tallied`).
2. Which step copies its line or enters a callback is known without a run, so
   a count over the steps is a count over places (`countP_steps`).
3. A callback is counted where it is entered, but it can as well be counted
   where it is closed: the two counts differ by the callback that is still
   open (`count_entered`).
-/

namespace ChainIndent

/-! ## lines of callbacks -/

/-- Line `i` is code of a callback: inside one, but neither its closer nor a
line that is laid out there too. -/
def IsCodeLine (ks : List LineKind) (i : Nat) : Prop :=
  InsideCallback ks i ∧ ∃ k ∈ ks[i]?, k ∉ [LineKind.blank, .comment, .verbatimEnd]

/-- Line `i` closes a callback: a closer, and inside one. -/
def IsClosingLine (ks : List LineKind) (i : Nat) : Prop :=
  InsideCallback ks i ∧ ks[i]? = some .verbatimEnd

instance (ks : List LineKind) : DecidablePred (IsCodeLine ks) :=
  fun i => inferInstanceAs (Decidable (InsideCallback ks i ∧ _))

instance (ks : List LineKind) : DecidablePred (IsClosingLine ks) :=
  fun i => inferInstanceAs (Decidable (InsideCallback ks i ∧ _))

/-- A callback is left by its closing line and by no other. -/
theorem isClosingLine_iff {ks : List LineKind} {i : Nat} :
    IsClosingLine ks i ↔ InsideCallback ks i ∧ ¬ InsideCallback ks (i + 1) := by
  rw [IsClosingLine]
  cases h : ks[i]? with
  | none => simp [insideCallback_succ_iff_of_none h]
  | some k =>
      rw [insideCallback_succ_iff h, Option.some.injEq]
      constructor
      · rintro ⟨hopen, rfl⟩
        simp [hopen]
      · rintro ⟨hopen, hleft⟩
        simp_all

/-- **Entered and closed**: every callback that was entered was closed, but for
the one that is open. -/
theorem count_entered (ks : List LineKind) (n : Nat) :
    Nat.count (fun i => ¬ InsideCallback ks i ∧ InsideCallback ks (i + 1)) n =
      Nat.count (IsClosingLine ks) n + if InsideCallback ks n then 1 else 0 := by
  induction n with
  | zero => simp [not_insideCallback_zero]
  | succ n ih =>
      rw [Nat.count_succ, Nat.count_succ, ih]
      simp only [isClosingLine_iff]
      by_cases hbefore : InsideCallback ks n
      · by_cases hafter : InsideCallback ks (n + 1) <;> simp [hbefore, hafter]
      · by_cases hafter : InsideCallback ks (n + 1) <;> simp [hbefore, hafter]

/-! ## counting by places -/

/-- A property of the entries that can be told from their places. -/
theorem countP_eq_count {α : Type} {p : α → Bool} {q : Nat → Prop} [DecidablePred q]
    {xs : List α} (h : ∀ i x, xs[i]? = some x → (p x = true ↔ q i)) :
    xs.countP p = Nat.count q xs.length := by
  induction xs using List.reverseRecOn with
  | nil => rfl
  | append_singleton xs x ih =>
      have hlast : p x = true ↔ q xs.length := h xs.length x (by simp)
      have hfront : xs.countP p = Nat.count q xs.length := by
        refine ih fun i y hy => h i y ?_
        rw [List.getElem?_append_left (List.getElem?_eq_some_iff.1 hy).1, hy]
      rw [List.countP_append, List.countP_singleton, List.length_append, List.length_singleton,
        Nat.count_succ, hfront]
      simp only [hlast]

namespace Style

variable {s : Style} {ls : List Line} {i : Nat} {raw : Line}

/-- Steps are counted by the places of their lines. -/
theorem countP_steps {p : Step → Bool} {q : Nat → Prop} [DecidablePred q]
    (h : ∀ i raw, ls[i]? = some raw → (p (s.step (s.contextBefore ls i) raw) = true ↔ q i)) :
    (s.steps ls).countP p = Nat.count q ls.length := by
  have hlen : (s.steps ls).length = ls.length := length_run ..
  rw [← hlen]
  refine countP_eq_count fun i t ht => ?_
  rw [getElem?_steps] at ht
  obtain ⟨raw, hraw, rfl⟩ := Option.map_eq_some_iff.1 ht
  exact h i raw hraw

/-- The lines that are copied are the code of callbacks. -/
theorem isVerbatim_step_iff (h : ls[i]? = some raw) :
    (s.step (s.contextBefore ls i) raw).placed.isVerbatim = true ↔
      IsCodeLine (s.kinds ls) i := by
  rw [placed_step, Context.isVerbatim_place, copied_eq_true_iff, inCallback_contextBefore_iff,
    IsCodeLine]
  simp [kinds, h]

/-- A callback is entered where there was none before the line and is one
behind it. -/
theorem entersCallback_step_iff (h : ls[i]? = some raw) :
    (s.step (s.contextBefore ls i) raw).entersCallback = true ↔
      ¬ InsideCallback (s.kinds ls) i ∧ InsideCallback (s.kinds ls) (i + 1) := by
  rw [← inCallback_contextBefore_iff, ← inCallback_contextBefore_iff, contextBefore_succ h,
    Step.entersCallback, Bool.and_eq_true, Bool.not_eq_true', Bool.not_eq_true]
  rfl

/-- **No line is missed**: what is neither indented nor copied is blank. -/
theorem length_eq_tallied (s : Style) (c : Context) (ls : List Line) :
    (run s.step c ls).countP (fun t => t.placed.isIndented) +
        (run s.step c ls).countP (fun t => t.placed.isVerbatim) + (s.kinds ls).count .blank =
      ls.length := by
  induction ls generalizing c with
  | nil => rfl
  | cons l ls ih =>
      have hrest := ih (s.step c l).after
      rw [kinds] at hrest ⊢
      rw [run_cons, List.countP_cons, List.countP_cons, List.map_cons, List.count_cons,
        List.length_cons, placed_step, Context.isIndented_place, Context.isVerbatim_place]
      by_cases hk : s.kindOf l = .blank
      · simp [hk]
        omega
      · cases hcopy : copied c.inCallback (s.kindOf l) <;> simp [hk] <;> omega

/-- **The tally accounts for every line.**  Lines that are not blank are tallied
once each, as copied if they are code of a callback and as indented if not.  A
callback is tallied for each closing line, and one more if the region ends
inside a callback, which is reported. -/
theorem tally_accounts_for_lines (s : Style) (ls : List Line) :
    let ks := s.kinds ls
    let t := (s.reindent ls).tally
    (s.reindent ls).lines.length = ls.length ∧
      t.reindentedLines + t.verbatimLines + ks.count .blank = ls.length ∧
      t.verbatimLines = Nat.count (IsCodeLine ks) ls.length ∧
      t.verbatimBlocks =
        Nat.count (IsClosingLine ks) ls.length + (if t.unterminatedVerbatim then 1 else 0) ∧
      (t.unterminatedVerbatim = true ↔ InsideCallback ks ls.length) := by
  intro ks t
  have hopen : t.unterminatedVerbatim = true ↔ InsideCallback ks ls.length := by
    rw [← length_kinds s ls]
    exact unterminatedVerbatim_reindent_iff
  refine ⟨length_lines_reindent s ls, length_eq_tallied s s.start ls, ?_, ?_, hopen⟩
  · exact countP_steps fun i raw => isVerbatim_step_iff
  · have hentered : t.verbatimBlocks = Nat.count
        (fun i => ¬ InsideCallback ks i ∧ InsideCallback ks (i + 1)) ls.length :=
      countP_steps fun i raw => entersCallback_step_iff
    rw [hentered, count_entered]
    simp only [hopen]

/-- A stray closer, a callback with an opener and a comment inside it, and one
that is not closed. -/
example :
    let closer := standard.verbatimEnd
    let ls := [closer, "Handler(func".toList, " Handler(func".toList, "// ".toList ++ closer,
      "Done().".toList, closer, [], "Handler(func".toList]
    (standard.reindent ls).tally =
      { reindentedLines := 5, verbatimLines := 2, verbatimBlocks := 2,
        unterminatedVerbatim := true } := by
  decide

end Style

end ChainIndent
