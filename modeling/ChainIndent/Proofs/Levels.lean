import ChainIndent.Proofs.Placement
import Mathlib.Algebra.BigOperators.Intervals
import Mathlib.Algebra.Order.Group.Int
import Mathlib.Order.Bounds.Basic

/-!
# ChainIndent.Proofs.Levels

The indent level in closed form.  It is not the number of openers less the
number of closers: a closer among the outermost calls has no effect, and from
there on that difference is too small.

1. One line shifts the level by one step or not at all (`levelShift`), and the
   shift is held up at the level of the outermost calls (`Context.level_after`).
2. Held up or not, behind `n` lines the level is as far above the outermost
   calls as the last lines, some number of them, have climbed at best
   (`isGreatest_climb`).  The last zero lines have climbed nothing, so the
   level is never too low; a closer that is held up only ends the stretch that
   climbs best.
3. A line that is indented stands at the smaller one of the levels around it.
-/

namespace ChainIndent

/-! ## one line -/

/-- What a line of kind `k` does to the level unless it is held up, `isOpen`
telling whether a callback is open before it. -/
def levelShift (isOpen : Bool) (k : LineKind) : Int :=
  match isOpen, k with
  | false, .indent => 1
  | false, .dedent => -1
  | _, _ => 0

/-- The level is shifted, and held up at the base. -/
theorem Context.level_after {c : Context} (hc : c.base ≤ c.level) (k : LineKind) (net : Int) :
    ((c.after k net).level : Int) = max (c.level + levelShift c.inCallback k) c.base := by
  obtain ⟨level, inCallback, balance, base⟩ := c
  have hbase : base ≤ level := hc
  cases k <;> cases inCallback <;> simp only [after, opened, closed, levelShift] <;> omega

/-! ## sums over the last lines -/

/-- One more summand prolongs every sum but the empty one. -/
theorem isGreatest_lastSums_succ {f : Nat → Int} {n : Nat} {x : Int}
    (h : IsGreatest ((fun j => ∑ m ∈ Finset.Ico j n, f m) '' Set.Iic n) x) :
    IsGreatest ((fun j => ∑ m ∈ Finset.Ico j (n + 1), f m) '' Set.Iic (n + 1))
      (max (x + f n) 0) := by
  have hsum : ∀ j ≤ n, ∑ m ∈ Finset.Ico j (n + 1), f m = ∑ m ∈ Finset.Ico j n, f m + f n :=
    fun j hj => Finset.sum_Ico_succ_top hj f
  have hempty : ∑ m ∈ Finset.Ico (n + 1) (n + 1), f m = 0 := by simp
  obtain ⟨⟨j, hj, hx⟩, hmax⟩ := h
  constructor
  · rcases max_choice (x + f n) 0 with hchoice | hchoice
    · exact ⟨j, Nat.le_succ_of_le hj, by rw [hchoice, ← hx]; exact hsum j hj⟩
    · exact ⟨n + 1, Nat.le_refl _, by rw [hchoice]; exact hempty⟩
  · rintro _ ⟨i, hi, rfl⟩
    rcases Nat.le_succ_iff.1 hi with hi | rfl
    · have hle : ∑ m ∈ Finset.Ico i n, f m ≤ x := hmax ⟨i, hi, rfl⟩
      simp only [hsum i hi]
      omega
    · simp only [hempty]
      omega

namespace Style

/-! ## all lines -/

/-- The shift of line `m` in a layout. -/
def shiftAt (s : Style) (ls : List Line) (m : Nat) : Int :=
  ls[m]?.elim 0 fun l => levelShift (s.contextBefore ls m).inCallback (s.kindOf l)

/-- How far the lines from `j` on, up to line `n`, climb. -/
def climb (s : Style) (ls : List Line) (n j : Nat) : Int := ∑ m ∈ Finset.Ico j n, s.shiftAt ls m

theorem level_contextBefore_succ (s : Style) (ls : List Line) (n : Nat) :
    ((s.contextBefore ls (n + 1)).level : Int) =
      max ((s.contextBefore ls n).level + s.shiftAt ls n) s.baseIndent := by
  have hbase := base_contextBefore s ls n
  have hle := baseIndent_le_level_contextBefore s ls n
  cases h : ls[n]? with
  | none =>
      have hsame : s.contextBefore ls (n + 1) = s.contextBefore ls n := by
        rw [contextBefore, contextBefore, List.take_add_one, h, Option.toList_none,
          List.append_nil]
      rw [hsame, shiftAt, h, Option.elim_none]
      omega
  | some l =>
      rw [contextBefore_succ h, after_step, Context.level_after (by omega), hbase, shiftAt, h,
        Option.elim_some]

/-- The level above the outermost calls is what the last lines climb at best. -/
theorem isGreatest_climb (s : Style) (ls : List Line) (n : Nat) :
    IsGreatest (s.climb ls n '' Set.Iic n)
      ((s.contextBefore ls n).level - s.baseIndent) := by
  induction n with
  | zero =>
      have hstart : (s.contextBefore ls 0).level = s.baseIndent := rfl
      rw [hstart, Int.sub_self]
      constructor
      · exact ⟨0, Nat.le_refl 0, rfl⟩
      · rintro _ ⟨j, hj, rfl⟩
        obtain rfl : j = 0 := Nat.le_zero.1 hj
        exact le_rfl
  | succ n ih =>
      have hnext : ((s.contextBefore ls (n + 1)).level : Int) - s.baseIndent =
          max ((s.contextBefore ls n).level - s.baseIndent + s.shiftAt ls n) 0 := by
        rw [level_contextBefore_succ]
        omega
      rw [hnext]
      exact isGreatest_lastSums_succ ih

/-- **The level in closed form**: behind `n` lines it is the base and the
highest climb of the last of them, and an indented line stands at the smaller
one of the levels around it. -/
theorem level_isGreatest_climb (s : Style) (ls : List Line) :
    (∀ n : Nat, IsGreatest {x : Int | ∃ j ≤ n, x = s.baseIndent + s.climb ls n j}
        (s.contextBefore ls n).level) ∧
      (∀ n : Nat, s.baseIndent ≤ (s.contextBefore ls n).level) ∧
      ∀ i raw k t, ls[i]? = some raw →
        (s.step (s.contextBefore ls i) raw).placed = .indented k t →
          k = min (s.contextBefore ls i).level (s.contextBefore ls (i + 1)).level := by
  refine ⟨fun n => ?_, baseIndent_le_level_contextBefore s ls, fun i raw k t hraw hplaced => ?_⟩
  · obtain ⟨⟨j, hj, hclimb⟩, hmax⟩ := isGreatest_climb s ls n
    constructor
    · exact ⟨j, hj, by rw [hclimb]; omega⟩
    · rintro _ ⟨i, hi, rfl⟩
      have hle := hmax ⟨i, hi, rfl⟩
      omega
  · have hle : (s.contextBefore ls i).base ≤ (s.contextBefore ls i).level := by
      rw [base_contextBefore]
      exact baseIndent_le_level_contextBefore s ls i
    rw [contextBefore_succ hraw, after_step]
    exact Context.level_of_place hle hplaced _

/-- A closer that is held up, and one inside a callback: of the six lines the
last five climb best. -/
theorem level_isGreatest_climb_held_up :
    let ls := ["Done().".toList, "Flag(".toList, " Handler(func".toList, "Done().".toList,
      standard.verbatimEnd, "Arg(".toList]
    IsGreatest {x : Int | ∃ j ≤ 6, x = 2 + standard.climb ls 6 j} 4 ∧
      standard.climb ls 6 0 = 1 ∧ standard.climb ls 6 1 = 2 ∧
      ((standard.step (standard.contextBefore ls 5) "Arg(".toList).placed =
          .indented 3 "Arg(".toList ∧
        3 = min (standard.contextBefore ls 5).level (standard.contextBefore ls 6).level) := by
  intro ls
  obtain ⟨hclimb, -, hplaced⟩ := level_isGreatest_climb standard ls
  have hline : (standard.step (standard.contextBefore ls 5) "Arg(".toList).placed =
      .indented 3 "Arg(".toList := by decide
  exact ⟨hclimb 6, by decide, by decide, hline, hplaced 5 _ _ _ (by decide) hline⟩

end Style

end ChainIndent
