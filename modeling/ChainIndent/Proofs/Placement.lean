import ChainIndent.Proofs.OpenCallback

/-!
# ChainIndent.Proofs.Placement

Where the lines of a region end up.  The layout is a run of steps, so line
`i` is placed by the context that the lines in front of it leave,
`contextBefore`.  Of that context two things are known without a run: it is
inside a callback exactly when place `i` is (`inCallback_contextBefore_iff`),
and its level is not below that of the outermost calls
(`baseIndent_le_level_contextBefore`).

A line is emptied, copied or indented, and `place_cases` says when.  An
indented line stands at the smaller one of the levels before and after it,
because openers act behind their line and closers in front of it.
-/

namespace ChainIndent

/-! ## runs, line by line -/

theorem lastContext_append (c : Context) (xs ys : List Step) :
    lastContext c (xs ++ ys) = lastContext (lastContext c xs) ys := by
  induction xs generalizing c with
  | nil => rfl
  | cons x xs ih => rw [List.cons_append, lastContext_cons, lastContext_cons, ih]

theorem run_take (move : Context → Line → Step) (c : Context) (ls : List Line) (n : Nat) :
    run move c (ls.take n) = (run move c ls).take n := by
  induction ls generalizing c n with
  | nil => simp
  | cons l ls ih =>
      cases n with
      | zero => rfl
      | succ n => simp [ih]

/-- Line `i` is moved from the context behind the lines in front of it. -/
theorem getElem?_run (move : Context → Line → Step) (c : Context) (ls : List Line) (i : Nat) :
    (run move c ls)[i]? = ls[i]?.map (move (lastContext c (run move c (ls.take i)))) := by
  induction ls generalizing c i with
  | nil => simp
  | cons l ls ih =>
      cases i with
      | zero => simp
      | succ i => simp [ih]

/-- From line `n` on, a run is a run from the context behind the lines in
front of it. -/
theorem run_drop (move : Context → Line → Step) (c : Context) (ls : List Line) (n : Nat) :
    (run move c ls).drop n = run move (lastContext c (run move c (ls.take n))) (ls.drop n) := by
  induction ls generalizing c n with
  | nil => simp
  | cons l ls ih =>
      cases n with
      | zero => rfl
      | succ n => simp [ih]

/-! ## one step -/

/-- Whether a line of kind `k` is copied as it stands, `isOpen` telling
whether a callback is open before it. -/
def copied (isOpen : Bool) (k : LineKind) : Bool :=
  isOpen && decide (k ∉ [LineKind.blank, .comment, .verbatimEnd])

theorem copied_eq_true_iff {isOpen : Bool} {k : LineKind} :
    copied isOpen k = true ↔ isOpen = true ∧ k ∉ [LineKind.blank, .comment, .verbatimEnd] := by
  rw [copied, Bool.and_eq_true, decide_eq_true_eq]

@[simp] theorem copied_blank (isOpen : Bool) : copied isOpen .blank = false := by simp [copied]

/-- A line is emptied if it is blank, copied if it is code of a callback, and
indented otherwise. -/
theorem Context.place_cases (c : Context) (k : LineKind) (raw : Line) :
    (k = .blank ∧ c.place k raw = .blank) ∨
    (copied c.inCallback k = true ∧ c.place k raw = .verbatim raw) ∨
    (k ≠ .blank ∧ copied c.inCallback k = false ∧
      ∃ n, c.place k raw = .indented n (trimStart raw)) := by
  obtain ⟨level, inCallback, balance, base⟩ := c
  cases k <;> cases inCallback <;> simp [place, copied]

theorem Context.place_of_copied {c : Context} {k : LineKind} (h : copied c.inCallback k = true)
    (raw : Line) : c.place k raw = .verbatim raw := by
  obtain ⟨hk, _⟩ | ⟨_, hp⟩ | ⟨_, hnot, _⟩ := c.place_cases k raw
  · rw [hk, copied_blank] at h
    contradiction
  · exact hp
  · rw [h] at hnot
    contradiction

theorem Context.isVerbatim_place (c : Context) (k : LineKind) (raw : Line) :
    (c.place k raw).isVerbatim = copied c.inCallback k := by
  obtain ⟨level, inCallback, balance, base⟩ := c
  cases k <;> cases inCallback <;> rfl

theorem Context.isIndented_place (c : Context) (k : LineKind) (raw : Line) :
    (c.place k raw).isIndented = (decide (k ≠ .blank) && !copied c.inCallback k) := by
  obtain ⟨level, inCallback, balance, base⟩ := c
  cases k <;> cases inCallback <;> rfl

/-- An indented line stands at the smaller one of the levels around it. -/
theorem Context.level_of_place {c : Context} (hc : c.base ≤ c.level) {k : LineKind} {raw t : Line}
    {n : Nat} (h : c.place k raw = .indented n t) (net : Int) :
    n = min c.level (c.after k net).level := by
  obtain ⟨level, inCallback, balance, base⟩ := c
  have hbase : base ≤ level := hc
  cases k <;> cases inCallback <;>
    simp only [place, closed, Placed.indented.injEq, reduceCtorEq] at h
  all_goals
    rw [← h.1]
    simp only [after, closed, opened]
    omega

theorem Context.base_le_of_place {c : Context} (hc : c.base ≤ c.level) {k : LineKind}
    {raw t : Line} {n : Nat} (h : c.place k raw = .indented n t) : c.base ≤ n := by
  rw [level_of_place hc h 0]
  exact Nat.le_min.2 ⟨hc, base_le_level_after hc k 0⟩

namespace Style

theorem placed_step (s : Style) (c : Context) (raw : Line) :
    (s.step c raw).placed = c.place (s.kindOf raw) raw := rfl

theorem after_step (s : Style) (c : Context) (raw : Line) :
    (s.step c raw).after = c.after (s.kindOf raw) (netBraces (trimStart raw)) := rfl

/-! ## contexts of a layout -/

/-- The context in which line `i` is laid out. -/
def contextBefore (s : Style) (ls : List Line) (i : Nat) : Context :=
  lastContext s.start (s.steps (ls.take i))

/-- Behind line `i` the layout is in the context that its step leaves. -/
theorem contextBefore_succ {s : Style} {ls : List Line} {i : Nat} {l : Line}
    (h : ls[i]? = some l) :
    s.contextBefore ls (i + 1) = (s.step (s.contextBefore ls i) l).after := by
  have htake : ls.take (i + 1) = ls.take i ++ [l] := by rw [List.take_add_one, h]; rfl
  rw [contextBefore, htake, steps, run_append, lastContext_append]
  rfl

theorem getElem?_steps (s : Style) (ls : List Line) (i : Nat) :
    (s.steps ls)[i]? = ls[i]?.map (s.step (s.contextBefore ls i)) :=
  getElem?_run s.step s.start ls i

theorem inCallback_contextBefore_iff (s : Style) (ls : List Line) (i : Nat) :
    (s.contextBefore ls i).inCallback = true ↔ InsideCallback (s.kinds ls) i := by
  rw [contextBefore, steps, inCallback_lastContext]
  exact openBehind_take_iff s ls i

theorem base_lastContext (s : Style) (c : Context) (ls : List Line) :
    (lastContext c (run s.step c ls)).base = c.base := by
  induction ls generalizing c with
  | nil => rfl
  | cons l ls ih => rw [run_cons, lastContext_cons, ih, after_step, Context.base_after]

theorem base_le_level_lastContext (s : Style) {c : Context} (hc : c.base ≤ c.level)
    (ls : List Line) :
    (lastContext c (run s.step c ls)).base ≤ (lastContext c (run s.step c ls)).level := by
  induction ls generalizing c with
  | nil => exact hc
  | cons l ls ih =>
      rw [run_cons, lastContext_cons]
      have hstep : (s.step c l).after.base ≤ (s.step c l).after.level := by
        rw [after_step, Context.base_after]
        exact Context.base_le_level_after hc _ _
      exact ih hstep

theorem base_contextBefore (s : Style) (ls : List Line) (i : Nat) :
    (s.contextBefore ls i).base = s.baseIndent :=
  base_lastContext s s.start (ls.take i)

/-- No context of a layout has a level below that of the outermost calls. -/
theorem baseIndent_le_level_contextBefore (s : Style) (ls : List Line) (i : Nat) :
    s.baseIndent ≤ (s.contextBefore ls i).level := by
  rw [← base_contextBefore s ls i]
  exact base_le_level_lastContext s (Nat.le_refl s.baseIndent) (ls.take i)

/-! ## lines of a layout -/

theorem lines_reindent (s : Style) (ls : List Line) :
    (s.reindent ls).lines = (s.steps ls).map fun t => t.placed.render s.indentUnit := rfl

theorem getElem?_lines_reindent (s : Style) {ls : List Line} {i : Nat} {raw : Line}
    (h : ls[i]? = some raw) :
    (s.reindent ls).lines[i]? =
      some (((s.contextBefore ls i).place (s.kindOf raw) raw).render s.indentUnit) := by
  rw [lines_reindent, List.getElem?_map, getElem?_steps, h]
  rfl

/-- The first lines of a layout do not depend on those behind them. -/
theorem lines_reindent_take (s : Style) (ls : List Line) (n : Nat) :
    (s.reindent (ls.take n)).lines = (s.reindent ls).lines.take n := by
  rw [lines_reindent, lines_reindent, steps, steps, run_take, List.map_take]

end Style

end ChainIndent
