import ChainIndent.Proofs.Independence
import ChainIndent.Proofs.Repeats

/-!
# ChainIndent.Proofs.AnyOrder

Formatting several files at once.

The tasks use one path each (`usesOnly_formatTask`).  If the paths name
different files, the tasks are independent, and every order of their requests
ends where formatting the files one after the other ends.  If a file is listed
more than once, every order still leaves it formatted, as long as formatting
twice is formatting once.
-/

namespace ChainIndent

namespace Action

variable {α β : Type}

theorem usesOnly_reportAll {p : Path} {es : List Event} {next : Action α}
    (h : next.UsesOnly p) : (reportAll es next).UsesOnly p := by
  induction es with
  | nil => exact h
  | cons e es ih => exact ih

theorem UsesOnly.bind {p : Path} {a : Action α} {f : α → Action β} (ha : a.UsesOnly p)
    (hf : ∀ x, (f x).UsesOnly p) : (a.bind f).UsesOnly p := by
  induction a with
  | done x => exact hf x
  | report e next ih => exact ih ha
  | readFile r next ih => exact ⟨ha.1, fun x => ih x (ha.2 x)⟩
  | writeFile r b next ih => exact ⟨ha.1, fun x => ih x (ha.2 x)⟩
  | _ => exact ha.elim

end Action

namespace Style

theorem usesOnly_formatFile (s : Style) (p : Path) : (s.formatFile p).UsesOnly p := by
  refine ⟨rfl, fun r => ?_⟩
  dsimp only
  cases readText r with
  | error e => trivial
  | ok text =>
      dsimp only
      cases s.format text with
      | error problem => trivial
      | ok f =>
          refine Action.usesOnly_reportAll ?_
          split
          · trivial
          · refine ⟨rfl, fun x => ?_⟩
            cases x with
            | error e => trivial
            | ok _ => trivial

theorem usesOnly_formatTask (s : Style) (p : Path) : (s.formatTask p).UsesOnly p :=
  (s.usesOnly_formatFile p).bind fun _ => trivial

theorem value_formatTask (s : Style) (p : Path) (cwd : Place) (t : FileTree) :
    ((s.formatTask p).run cwd t).value = (p, ((s.formatFile p).run cwd t).value) := by
  rw [formatTask, Action.run_bind]
  rfl

theorem tree_formatTask (s : Style) (p : Path) (cwd : Place) (t : FileTree) :
    ((s.formatTask p).run cwd t).tree = ((s.formatFile p).run cwd t).tree := by
  rw [formatTask, Action.run_bind]
  rfl

/-- Formatting files is running the tasks one after the other. -/
theorem runAll_formatTask (s : Style) (cwd : Place) (ps : List Path) (t : FileTree) :
    Action.runAll cwd (ps.map s.formatTask) t =
      (((s.formatFiles ps).run cwd t).value, ((s.formatFiles ps).run cwd t).tree) := by
  induction ps generalizing t with
  | nil => rfl
  | cons p ps ih =>
      have hrun : (s.formatFiles (p :: ps)).run cwd t =
          ((s.formatFile p).bind fun r => (s.formatFiles ps).bind fun rs =>
            .done ((p, r) :: rs)).run cwd t := rfl
      rw [hrun, Action.run_bind, Action.run_bind, List.map_cons, Action.runAll]
      simp only [ih, value_formatTask, tree_formatTask]
      rfl

/-- **Any order**: tasks that format different files end, in every order of
their requests, with the tree that is left when they run one after the other,
and with the answers that each gives alone.  If files are listed more than
once, they end with every listed file formatted and nothing else changed. -/
theorem formatTasks_any_order (s : Style) (cwd : Place) (t : FileTree) (ps : List Path) :
    (ps.Pairwise (t.Apart cwd) →
      Pool.AlwaysEnds cwd ⟨t, ps.map s.formatTask⟩ fun t' vs =>
        t' = ((s.formatFiles ps).run cwd t).tree ∧
          vs = ps.map fun p => (p, ((s.formatFile p).run cwd t).value)) ∧
    (s.Valid → s.BlankIndent → t.CleanTexts cwd ps →
      Pool.AlwaysEnds cwd ⟨t, ps.map s.formatTask⟩ fun t' vs =>
        s.FormatsAll cwd ps t t' ∧ vs.map Prod.fst = ps) := by
  constructor
  · intro hapart
    have huses : List.Forall₂ Action.UsesOnly ps (ps.map s.formatTask) := by
      rw [List.forall₂_map_right_iff, List.forall₂_same]
      exact fun p _ => s.usesOnly_formatTask p
    have hends := Pool.alwaysEnds_of_apart huses hapart
    rw [runAll_formatTask, List.map_map] at hends
    simp only [Function.comp_def, value_formatTask] at hends
    exact hends
  · intro hs hb hclean
    exact Pool.alwaysEnds_of_invariant (fun _ _ h hstep => h.step hs hb hclean hstep)
      (fun _ _ h => h.formatsAll hs) (s.progress_start cwd ps t)

/-- Two files, and one of them twice. -/
theorem formatTasks_any_order_twice :
    let messy : File := { content := encodeText "func buildRootCommand()\n\nArg(\n".toList }
    let neat : File := { content := encodeText "func buildRootCommand()\n\n\t\tArg(\n".toList }
    let t : FileTree := ⟨[([['a']], .file messy), ([['b']], .file messy)]⟩
    let a : Path := ⟨['a']⟩
    let b : Path := ⟨['b']⟩
    Pool.AlwaysEnds [] ⟨t, [a, b].map standard.formatTask⟩ (fun t' vs =>
      t' = ((standard.formatFiles [a, b]).run [] t).tree ∧
        vs = [a, b].map fun p => (p, ((standard.formatFile p).run [] t).value)) ∧
    Pool.AlwaysEnds [] ⟨t, [a, a].map standard.formatTask⟩ (fun t' _ =>
      t'.node? [['a']] = some (.file neat) ∧ t'.node? [['b']] = some (.file messy)) := by
  intro messy neat t a b
  have ha : t.target [] a = .ok ([['a']], messy) := rfl
  have hb : t.target [] b = .ok ([['b']], messy) := rfl
  have hdecode := decodeText?_encodeText "func buildRootCommand()\n\nArg(\n".toList
  have hapart : [a, b].Pairwise (t.Apart []) := by
    refine List.pairwise_pair.2 fun q hqa hqb => ?_
    rw [hqa.unique ⟨messy, ha⟩] at hqb
    exact absurd (hqb.unique ⟨messy, hb⟩) (by decide)
  have htwice : ∀ p ∈ [a, a], p = a := by simp
  have hclean : t.CleanTexts [] [a, a] := by
    intro p hp text htext
    obtain rfl := htwice p hp
    obtain ⟨q, f, hf, -, htext⟩ := FileTree.text_eq_ok_iff.1 htext
    cases ha.symm.trans hf
    cases hdecode.symm.trans htext
    decide
  refine ⟨(formatTasks_any_order standard [] t [a, b]).1 hapart,
    ((formatTasks_any_order standard [] t [a, a]).2 valid_standard (by decide) hclean).imp ?_⟩
  intro t' vs ⟨hall, _⟩
  refine ⟨hall.formatted a (by simp) _ _ _ _ ha rfl rfl hdecode (by decide), ?_⟩
  refine (hall.unlisted [['b']] fun p hp hq => ?_).trans rfl
  obtain rfl := htwice p hp
  exact absurd (hq.unique ⟨messy, ha⟩) (by decide)

end Style

end ChainIndent
