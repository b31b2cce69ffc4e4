import ChainIndent.Forest
import ChainIndent.Proofs.Placement

/-!
# ChainIndent.Proofs.Nesting

Indentation shows nesting: the layout, which goes line by line and remembers
a context, writes a forest just as `Forest.write` does, which goes by the
tree and remembers nothing.

All that the layout has to remember of the tree is how deep it is and whether
a callback is open (`Context.AtDepth`).  The section is layered:

* **one line** — a line takes the depth to `depthAfter`, and unless it is
  copied it is written at the smaller one of the two depths
  (`atDepth_after_step`, `render_place_of_atDepth`);
* **the inside of a callback** — lines that do not close it keep the depth,
  whatever they look like (`written_inner`);
* **a forest** — the induction over the tree.  Every node takes back the level
  that it opened, so its row is continued at the depth where it began
  (`written_flatten`).
-/

namespace ChainIndent

/-- A context `d` levels deeper than the outermost calls, `isOpen` telling
whether a callback is open. -/
structure Context.AtDepth (c : Context) (s : Style) (d : Nat) (isOpen : Bool) : Prop where
  level_eq : c.level = s.baseIndent + d
  base_eq : c.base = s.baseIndent
  inCallback_eq : c.inCallback = isOpen

/-- The depth behind a line of kind `k`. -/
def depthAfter (isOpen : Bool) (d : Nat) (k : LineKind) : Nat :=
  match isOpen, k with
  | false, .indent => d + 1
  | false, .dedent => d - 1
  | _, _ => d

@[simp] theorem depthAfter_of_open (d : Nat) (k : LineKind) : depthAfter true d k = d := by
  cases k <;> rfl

namespace Style

variable {s : Style} {c : Context} {d : Nat} {isOpen : Bool}

/-! ## what a run writes and leaves -/

/-- The lines that a run from `c` writes. -/
def written (s : Style) (c : Context) (ls : List Line) : List Line :=
  (run s.step c ls).map fun t => t.placed.render s.indentUnit

/-- The context that a run from `c` leaves. -/
def contextBehind (s : Style) (c : Context) (ls : List Line) : Context :=
  lastContext c (run s.step c ls)

@[simp] theorem contextBehind_nil (s : Style) (c : Context) : s.contextBehind c [] = c := rfl

theorem written_cons (s : Style) (c : Context) (l : Line) (ls : List Line) :
    s.written c (l :: ls) =
      (c.place (s.kindOf l) l).render s.indentUnit :: s.written (s.step c l).after ls := rfl

theorem contextBehind_cons (s : Style) (c : Context) (l : Line) (ls : List Line) :
    s.contextBehind c (l :: ls) = s.contextBehind (s.step c l).after ls := by
  rw [contextBehind, run_cons, lastContext_cons, contextBehind]

theorem written_append (s : Style) (c : Context) (ls ms : List Line) :
    s.written c (ls ++ ms) = s.written c ls ++ s.written (s.contextBehind c ls) ms := by
  rw [written, run_append, List.map_append, written, written, contextBehind]

theorem contextBehind_append (s : Style) (c : Context) (ls ms : List Line) :
    s.contextBehind c (ls ++ ms) = s.contextBehind (s.contextBehind c ls) ms := by
  rw [contextBehind, run_append, lastContext_append, contextBehind, contextBehind]

/-- Lines between an opener and a closer, and the lines behind the closer. -/
theorem written_enclosed (s : Style) (c : Context) (opener closer : Line) (ls ms : List Line) :
    let inside := (s.step c opener).after
    let behind := s.contextBehind inside ls
    s.written c (opener :: ls ++ closer :: ms) =
      (c.place (s.kindOf opener) opener).render s.indentUnit :: s.written inside ls ++
        (behind.place (s.kindOf closer) closer).render s.indentUnit ::
          s.written (s.step behind closer).after ms := by
  intro inside behind
  rw [List.cons_append, written_cons, written_append, written_cons, List.cons_append]

theorem contextBehind_enclosed (s : Style) (c : Context) (opener closer : Line)
    (ls ms : List Line) :
    let behind := s.contextBehind (s.step c opener).after ls
    s.contextBehind c (opener :: ls ++ closer :: ms) =
      s.contextBehind (s.step behind closer).after ms := by
  intro behind
  rw [List.cons_append, contextBehind_cons, contextBehind_append, contextBehind_cons]

/-! ## one line -/

theorem atDepth_start (s : Style) : s.start.AtDepth s 0 false := ⟨rfl, rfl, rfl⟩

/-- Every context of a layout stands at some depth. -/
theorem exists_atDepth_contextBefore (s : Style) (ls : List Line) (i : Nat) :
    ∃ d, (s.contextBefore ls i).AtDepth s d (s.contextBefore ls i).inCallback := by
  have hle := baseIndent_le_level_contextBefore s ls i
  exact ⟨(s.contextBefore ls i).level - s.baseIndent, by omega, base_contextBefore s ls i, rfl⟩

/-- What a line does to the depth: closing above the outermost calls is held
up, as subtraction is at zero. -/
theorem atDepth_after_step (hc : c.AtDepth s d isOpen) {raw : Line} {k : LineKind}
    (hk : s.kindOf raw = k) :
    (s.step c raw).after.AtDepth s (depthAfter isOpen d k) (opensAfter isOpen k) := by
  subst hk
  have hmode : (s.step c raw).after.inCallback = opensAfter isOpen (s.kindOf raw) := by
    rw [inCallback_after_step, hc.inCallback_eq]
  have hbase : (s.step c raw).after.base = s.baseIndent := by
    rw [after_step, Context.base_after, hc.base_eq]
  have hlevel : (s.step c raw).after.level =
      s.baseIndent + depthAfter isOpen d (s.kindOf raw) := by
    rw [after_step]
    obtain ⟨level, inCallback, balance, base⟩ := c
    obtain ⟨rfl, rfl, rfl⟩ := hc
    cases s.kindOf raw <;> cases inCallback <;>
      simp only [Context.after, Context.opened, Context.closed, depthAfter] <;> omega
  exact ⟨hlevel, hbase, hmode⟩

theorem writeAt_of_blank {raw : Line} (h : s.kindOf raw = .blank) (d : Nat) :
    Forest.writeAt s d raw = [] := by
  rw [Forest.writeAt, if_pos (kindOf_eq_blank_iff.1 h)]

theorem writeAt_of_not_blank {raw : Line} (h : s.kindOf raw ≠ .blank) (d : Nat) :
    Forest.writeAt s d raw =
      (List.replicate (s.baseIndent + d) s.indentUnit).flatten ++ trimStart raw := by
  rw [Forest.writeAt, if_neg fun hblank => h (kindOf_eq_blank_iff.2 hblank)]

/-- A line that is not copied is written at the smaller one of the depths
around it: openers act behind their line and closers in front of it. -/
theorem render_place_of_atDepth (hc : c.AtDepth s d isOpen) {raw : Line} {k : LineKind}
    (hk : s.kindOf raw = k) (hcopy : copied isOpen k = false) :
    (c.place (s.kindOf raw) raw).render s.indentUnit =
      Forest.writeAt s (min d (depthAfter isOpen d k)) raw := by
  obtain ⟨hblank, hp⟩ | ⟨hcopied, _⟩ | ⟨hblank, _, n, hp⟩ := c.place_cases (s.kindOf raw) raw
  · rw [hp, writeAt_of_blank hblank]
    rfl
  · rw [hc.inCallback_eq, hk, hcopy] at hcopied
    contradiction
  · have hle : c.base ≤ c.level := by
      rw [hc.level_eq, hc.base_eq]
      omega
    have hn : n = s.baseIndent + min d (depthAfter isOpen d k) := by
      have hmin := Context.level_of_place hle hp (netBraces (trimStart raw))
      have hafter := (atDepth_after_step hc hk).level_eq
      rw [after_step] at hafter
      rw [hmin, hc.level_eq, hafter]
      omega
    rw [hp, writeAt_of_not_blank hblank, ← hn]
    rfl

/-! ## the inside of a callback -/

/-- Inside a callback, a line that does not close it. -/
theorem render_place_inner (hc : c.AtDepth s d true) {raw : Line}
    (hk : s.kindOf raw ≠ .verbatimEnd) :
    (c.place (s.kindOf raw) raw).render s.indentUnit = Forest.writeInner s d raw := by
  have hcopied : copied true (s.kindOf raw) = true ↔
      ¬ (s.kindOf raw = .blank ∨ s.kindOf raw = .comment) := by
    rw [copied_eq_true_iff]
    simp [hk]
  rw [Forest.writeInner]
  by_cases hlaid : s.kindOf raw = .blank ∨ s.kindOf raw = .comment
  · have hcopy : copied true (s.kindOf raw) = false := by
      rw [← Bool.not_eq_true, hcopied]
      exact not_not_intro hlaid
    rw [if_pos hlaid, render_place_of_atDepth hc rfl hcopy, depthAfter_of_open, Nat.min_self]
  · obtain ⟨hblank, _⟩ | ⟨_, hp⟩ | ⟨_, hcopy, _⟩ := c.place_cases (s.kindOf raw) raw
    · exact absurd (.inl hblank) hlaid
    · rw [if_neg hlaid, hp]
      rfl
    · rw [hc.inCallback_eq, hcopied.2 hlaid] at hcopy
      contradiction

theorem atDepth_after_inner (hc : c.AtDepth s d true) {raw : Line}
    (hk : s.kindOf raw ≠ .verbatimEnd) : (s.step c raw).after.AtDepth s d true := by
  have hkind : s.kindOf raw = s.kindOf raw := rfl
  have hafter := atDepth_after_step hc hkind
  rw [depthAfter_of_open, opensAfter_eq_true_iff.2 (.inl ⟨rfl, hk⟩)] at hafter
  exact hafter

/-- Markers inside a callback do not count: its lines are written one by one,
and nothing is remembered of them. -/
theorem written_inner (hc : c.AtDepth s d true) {ls : List Line}
    (hls : ∀ l ∈ ls, s.kindOf l ≠ .verbatimEnd) :
    s.written c ls = ls.map (Forest.writeInner s d) ∧
      (s.contextBehind c ls).AtDepth s d true := by
  induction ls generalizing c with
  | nil => exact ⟨rfl, hc⟩
  | cons l ls ih =>
      rw [List.forall_mem_cons] at hls
      obtain ⟨hwritten, hbehind⟩ := ih (atDepth_after_inner hc hls.1) hls.2
      rw [written_cons, contextBehind_cons, render_place_inner hc hls.1, hwritten]
      exact ⟨rfl, hbehind⟩

/-! ## a forest -/

/-- An ordinary line changes neither the depth nor the mode. -/
theorem depthAfter_of_ordinary {k : LineKind}
    (hk : k ∈ [LineKind.plain, .comment, .blank, .verbatimEnd]) (d : Nat) :
    depthAfter false d k = d ∧ opensAfter false k = false := by
  cases k <;> simp_all [depthAfter, opensAfter]

/-- **A forest in its place**: laid out from depth `d`, it is written at depth
`d`, and the layout goes on at depth `d`. -/
theorem written_flatten {f : Forest} (hf : f.Fits s) (hc : c.AtDepth s d false) :
    s.written c f.flatten = f.write s d ∧ (s.contextBehind c f.flatten).AtDepth s d false := by
  -- for every depth, since the forest of a node is laid out one deeper than its row
  induction f generalizing c d with
  | nil => exact ⟨rfl, hc⟩
  | line raw rest ih =>
      obtain ⟨hk, hrest⟩ := hf
      obtain ⟨hdepth, hmode⟩ := depthAfter_of_ordinary hk d
      have hkind : s.kindOf raw = s.kindOf raw := rfl
      have hline := render_place_of_atDepth hc hkind rfl
      have hafter := atDepth_after_step hc hkind
      rw [hdepth, Nat.min_self] at hline
      rw [hdepth, hmode] at hafter
      obtain ⟨hwritten, hbehind⟩ := ih hrest hafter
      rw [Forest.flatten, written_cons, contextBehind_cons, hline, hwritten]
      exact ⟨rfl, hbehind⟩
  | callback opener inner closer rest ih =>
      obtain ⟨hkopen, hkinner, hkclose, hrest⟩ := hf
      have hopener := render_place_of_atDepth hc hkopen rfl
      have hopen : (s.step c opener).after.AtDepth s d true := atDepth_after_step hc hkopen
      obtain ⟨hinner, hin⟩ := written_inner hopen hkinner
      have hcloser := render_place_of_atDepth hin hkclose rfl
      have hclosed := atDepth_after_step hin hkclose
      rw [depthAfter_of_open] at hcloser hclosed
      obtain ⟨hwritten, hbehind⟩ := ih hrest hclosed
      rw [Forest.flatten, written_enclosed, contextBehind_enclosed, hopener, hinner, hcloser,
        hwritten]
      exact ⟨by simp [Forest.write, depthAfter], hbehind⟩
  | node opener children closer rest ihc ih =>
      obtain ⟨hkopen, hkids, hkclose, hrest⟩ := hf
      have hopener := render_place_of_atDepth hc hkopen rfl
      have hopen : (s.step c opener).after.AtDepth s (d + 1) false := atDepth_after_step hc hkopen
      obtain ⟨hchildren, hin⟩ := ihc hkids hopen
      have hcloser := render_place_of_atDepth hin hkclose rfl
      have hclosed : (s.step _ closer).after.AtDepth s d false := atDepth_after_step hin hkclose
      obtain ⟨hwritten, hbehind⟩ := ih hrest hclosed
      rw [Forest.flatten, written_enclosed, contextBehind_enclosed, hopener, hchildren, hcloser,
        hwritten]
      exact ⟨by simp [Forest.write, depthAfter], hbehind⟩

/-- **Indentation shows nesting**: the layout of a forest's lines is the
forest written at depth zero, and it ends as it began. -/
theorem reindent_flatten (s : Style) {f : Forest} (hf : f.Fits s) :
    (s.reindent f.flatten).lines = f.write s 0 ∧
      (lastContext s.start (s.steps f.flatten)).level = s.baseIndent ∧
      (lastContext s.start (s.steps f.flatten)).inCallback = false := by
  obtain ⟨hwritten, hbehind⟩ := written_flatten hf (atDepth_start s)
  exact ⟨hwritten, hbehind.level_eq, hbehind.inCallback_eq⟩

/-- A node in a node, a callback full of markers, and closers without an
opener. -/
theorem reindent_flatten_nested :
    let opener := "Handler(func() ".toList ++ ['{']
    let closer := standard.verbatimEnd
    let f : Forest :=
      .line "\t// root".toList <|
      .node "Subcommand(\"a\").".toList
        (.callback ("  ".toList ++ opener)
          ["\tDone().".toList, "  // Handler(func".toList, " \t".toList, "Flag(".toList]
          closer <|
        .node " Flag(\"n\").".toList (.line "Int().".toList .nil) "\t\t\tDone().".toList .nil)
        "Done().".toList <|
      .line (' ' :: closer) .nil
    f.Fits standard ∧
      (standard.reindent f.flatten).lines =
        ["\t\t// root".toList, "\t\tSubcommand(\"a\").".toList,
          "\t\t\t".toList ++ opener, "\tDone().".toList,
          "\t\t\t// Handler(func".toList, [], "Flag(".toList, "\t\t\t".toList ++ closer,
          "\t\t\tFlag(\"n\").".toList, "\t\t\t\tInt().".toList, "\t\t\tDone().".toList,
          "\t\tDone().".toList, "\t\t".toList ++ closer] ∧
      (lastContext standard.start (standard.steps f.flatten)).level = 2 ∧
      (lastContext standard.start (standard.steps f.flatten)).inCallback = false :=
  ⟨by decide, reindent_flatten standard (by decide)⟩

end Style

end ChainIndent
