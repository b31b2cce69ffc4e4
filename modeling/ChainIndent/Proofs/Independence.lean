import ChainIndent.Proofs.Files
import ChainIndent.Proofs.Pools

/-!
# ChainIndent.Proofs.Independence

Actions that use different files do not notice each other.

1. An action that reads and writes at one path only (`Action.UsesOnly`) sees
   nothing of what is done to a file that the path does not name, and leaves
   it where it is (`advance_replaceContent`, `run_replaceContent`).
2. So a request of one action may be moved past the whole run of another
   (`advance_tree_run`), and carrying out any one request of a pool changes
   nothing about what running its actions one after the other comes to
   (`runAll_advance`).
3. However the requests are ordered, the pool ends where this run ends, and
   every action gives the answer that it gives alone (`alwaysEnds_of_apart`).
-/

namespace ChainIndent

namespace FileTree

variable {t t' : FileTree} {cwd : Place} {p p' : Path}

/-! ## different files -/

/-- The paths name no file together. -/
def Apart (t : FileTree) (cwd : Place) (p p' : Path) : Prop :=
  ∀ q, t.Names cwd p q → ¬ t.Names cwd p' q

theorem Apart.symm (h : t.Apart cwd p p') : t.Apart cwd p' p := fun q hp' hp => h q hp hp'

/-- The tree with, at most, another content of the file that the path names. -/
def Touched (t : FileTree) (cwd : Place) (p : Path) (t' : FileTree) : Prop :=
  t' = t ∨ ∃ q b, t.Names cwd p q ∧ t' = t.replaceContent q b

theorem Touched.names_iff (h : t.Touched cwd p t') {q : Place} :
    t'.Names cwd p' q ↔ t.Names cwd p' q := by
  obtain rfl | ⟨q', b, -, rfl⟩ := h
  · rfl
  · exact names_replaceContent_iff

theorem Touched.apart_iff {r : Path} (h : t.Touched cwd r t') :
    t'.Apart cwd p p' ↔ t.Apart cwd p p' := by
  simp only [Apart, h.names_iff]

theorem Touched.trans {u : FileTree} (h : t.Touched cwd p t') (h' : t'.Touched cwd p u) :
    t.Touched cwd p u := by
  obtain rfl | ⟨q', b', hnames', rfl⟩ := h'
  · exact h
  · obtain rfl | ⟨q, b, hnames, rfl⟩ := h
    · exact .inr ⟨q', b', hnames', rfl⟩
    · obtain rfl := hnames.unique (names_replaceContent_iff.1 hnames')
      exact .inr ⟨q, b', hnames, replaceContent_replaceContent t q b b'⟩

theorem touched_of_write {b : ByteArray} (h : t.write cwd p b = .ok t') : t.Touched cwd p t' := by
  obtain ⟨q, f, htarget, -, rfl⟩ := write_eq_ok_iff.1 h
  exact .inr ⟨q, b, ⟨f, htarget⟩, rfl⟩

end FileTree

namespace Action

variable {α : Type} {cwd : Place} {t t' : FileTree} {p p' : Path} {a a' b : Action α}

/-! ## one path -/

/-- Nothing is asked of the tree but to read and write at one path. -/
def UsesOnly (p : Path) : Action α → Prop
  | .done _ => True
  | .report _ next => next.UsesOnly p
  | .readFile r next => r = p ∧ ∀ x, (next x).UsesOnly p
  | .writeFile r _ next => r = p ∧ ∀ x, (next x).UsesOnly p
  | .askDirectory .. | .askFile .. | .askHere _ => False

theorem UsesOnly.advance (ha : a.UsesOnly p) (h : a.advance cwd t = some (a', t')) :
    a'.UsesOnly p ∧ t.Touched cwd p t' := by
  cases a with
  | done v => nomatch h
  | report e next =>
      cases h
      exact ⟨ha, .inl rfl⟩
  | readFile r next =>
      cases h
      exact ⟨ha.2 _, .inl rfl⟩
  | writeFile r b next =>
      obtain ⟨rfl, hnext⟩ := ha
      rw [Action.advance] at h
      cases hw : t.write cwd r b with
      | error e =>
          rw [hw] at h
          cases h
          exact ⟨hnext _, .inl rfl⟩
      | ok u =>
          rw [hw] at h
          cases h
          exact ⟨hnext _, FileTree.touched_of_write hw⟩
  | _ => exact ha.elim

theorem UsesOnly.touched_run (ha : a.UsesOnly p) (cwd : Place) (t : FileTree) :
    t.Touched cwd p (a.run cwd t).tree := by
  induction a generalizing t with
  | done v => exact .inl rfl
  | report e next ih => exact ih ha t
  | readFile r next ih => exact ih _ (ha.2 _) t
  | writeFile r b next ih =>
      obtain ⟨rfl, hnext⟩ := ha
      rw [run]
      cases hw : t.write cwd r b with
      | error e => exact ih _ (hnext _) t
      | ok t' => exact (FileTree.touched_of_write hw).trans (ih _ (hnext _) t')
  | _ => exact ha.elim

/-! ## what another file is to it -/

theorem advance_replaceContent {q : Place} (ha : a.UsesOnly p) (h : ¬ t.Names cwd p q)
    (c : ByteArray) :
    a.advance cwd (t.replaceContent q c) =
      (a.advance cwd t).map fun x => (x.1, x.2.replaceContent q c) := by
  cases a with
  | done v => rfl
  | report e next => rfl
  | readFile r next =>
      obtain ⟨rfl, -⟩ := ha
      rw [Action.advance, FileTree.read_replaceContent h]
      rfl
  | writeFile r b next =>
      obtain ⟨rfl, -⟩ := ha
      rw [Action.advance, Action.advance, FileTree.write_replaceContent h]
      cases t.write cwd r b with
      | error e => rfl
      | ok t' => rfl
  | _ => exact ha.elim

theorem run_replaceContent {q : Place} (ha : a.UsesOnly p) (h : ¬ t.Names cwd p q)
    (c : ByteArray) :
    (a.run cwd (t.replaceContent q c)).value = (a.run cwd t).value ∧
      (a.run cwd (t.replaceContent q c)).tree = (a.run cwd t).tree.replaceContent q c := by
  induction a generalizing t with
  | done v => exact ⟨rfl, rfl⟩
  | report e next ih => exact ih ha h
  | readFile r next ih =>
      obtain ⟨rfl, hnext⟩ := ha
      rw [run, FileTree.read_replaceContent h]
      exact ih _ (hnext _) h
  | writeFile r b next ih =>
      obtain ⟨rfl, hnext⟩ := ha
      rw [run, run, FileTree.write_replaceContent h]
      cases hw : t.write cwd r b with
      | error e => exact ih _ (hnext _) h
      | ok t' => exact ih _ (hnext _) (by rwa [(FileTree.touched_of_write hw).names_iff])
  | _ => exact ha.elim

/-- An action gives the same answer whatever is done to another file. -/
theorem value_run_of_touched (ha : a.UsesOnly p) (hapart : t.Apart cwd p p')
    (h : t.Touched cwd p' t') : (a.run cwd t').value = (a.run cwd t).value := by
  obtain rfl | ⟨q, c, hnames, rfl⟩ := h
  · rfl
  · exact (run_replaceContent ha (hapart.symm q hnames) c).1

/-- A request may as well be carried out behind the whole run of an action
that uses another file. -/
theorem advance_tree_run (ha : a.UsesOnly p) (hb : b.UsesOnly p') (hapart : t.Apart cwd p p')
    (h : a.advance cwd t = some (a', t')) :
    a.advance cwd (b.run cwd t).tree = some (a', (b.run cwd t').tree) := by
  obtain rfl | ⟨q, c, hnames, rfl⟩ := (ha.advance h).2
  · obtain hrun | ⟨q', c', hnames', hrun⟩ := hb.touched_run cwd t'
    · rw [hrun, h]
    · rw [hrun, advance_replaceContent ha (hapart.symm q' hnames'), h]
      rfl
  · rw [(run_replaceContent hb (hapart q hnames) c).2]
    obtain hrun | ⟨q', c', hnames', hrun⟩ := hb.touched_run cwd t
    · rw [hrun, h]
    · have hne : q ≠ q' := fun heq => hapart q hnames (heq ▸ hnames')
      rw [hrun, advance_replaceContent ha (hapart.symm q' hnames'), h, Option.map_some,
        FileTree.replaceContent_comm t hne]

/-! ## one after the other -/

/-- Run actions one after the other. -/
def runAll (cwd : Place) : List (Action α) → FileTree → List α × FileTree
  | [], t => ([], t)
  | a :: as, t =>
    let r := a.run cwd t
    let rs := runAll cwd as r.tree
    (r.value :: rs.1, rs.2)

@[simp] theorem runAll_map_done (cwd : Place) (vs : List α) (t : FileTree) :
    runAll cwd (vs.map .done) t = (vs, t) := by
  induction vs with
  | nil => rfl
  | cons v vs ih =>
      rw [List.map_cons, runAll, run]
      simp only [ih]

variable {ps : List Path} {as before after : List (Action α)}

/-- Every action gives the answer that it gives alone. -/
theorem runAll_fst (has : List.Forall₂ UsesOnly ps as) (hapart : ps.Pairwise (t.Apart cwd)) :
    (runAll cwd as t).1 = as.map fun a => (a.run cwd t).value := by
  induction has generalizing t with
  | nil => rfl
  | @cons p a ps as ha has ih =>
      obtain ⟨hfirst, hrest⟩ := List.pairwise_cons.1 hapart
      have htouched := ha.touched_run cwd t
      have hrest' : ps.Pairwise ((a.run cwd t).tree.Apart cwd) :=
        hrest.imp fun h => htouched.apart_iff.2 h
      have halone : as.map (fun b => (b.run cwd (a.run cwd t).tree).value) =
          as.map fun b => (b.run cwd t).value := by
        refine List.map_congr_left fun b hb => ?_
        obtain ⟨before, after, rfl⟩ := List.append_of_mem hb
        obtain ⟨ps₁, r, ps₂, rfl, -, hbr, -⟩ := exists_append_of_forall₂ has
        exact value_run_of_touched hbr (hfirst r (by simp)).symm htouched
      rw [runAll, List.map_cons]
      simp only [ih hrest', halone]

/-- Any request may come first. -/
theorem runAll_advance (hbefore : List.Forall₂ UsesOnly ps before)
    (hapart : ∀ r ∈ ps, t.Apart cwd p r) (ha : a.UsesOnly p)
    (h : a.advance cwd t = some (a', t')) :
    runAll cwd (before ++ a' :: after) t' = runAll cwd (before ++ a :: after) t := by
  induction hbefore generalizing t t' with
  | nil =>
      obtain ⟨hvalue, htree⟩ := run_of_advance h
      simp only [List.nil_append, runAll, hvalue, htree]
  | @cons r b ps before hb _ ih =>
      obtain ⟨hfirst, hrest⟩ := List.forall_mem_cons.1 hapart
      -- the request comes before the run of `b` or behind it, to the same effect
      have hnext := advance_tree_run ha hb hfirst h
      have hvalue := value_run_of_touched hb hfirst.symm (ha.advance h).2
      have hrest' : ∀ r' ∈ ps, (b.run cwd t).tree.Apart cwd p r' :=
        fun r' hr' => (hb.touched_run cwd t).apart_iff.2 (hrest r' hr')
      simp only [List.cons_append, runAll, hvalue, ih hrest' hnext]

end Action

namespace Pool

variable {α : Type} {cwd : Place} {t : FileTree} {ps : List Path} {as : List (Action α)}

/-- The actions use files of their own, and are on the way to where running
them one after the other ends. -/
structure Independent (cwd : Place) (ps : List Path) (last : List α × FileTree) (p : Pool α) :
    Prop where
  usesOnly : List.Forall₂ Action.UsesOnly ps p.tasks
  apart : ps.Pairwise (p.tree.Apart cwd)
  runAll_eq : Action.runAll cwd p.tasks p.tree = last

theorem Independent.step {last : List α × FileTree} {p q : Pool α}
    (hp : p.Independent cwd ps last) (h : Step cwd p q) : q.Independent cwd ps last := by
  cases h with
  | @move t t' a a' before after h =>
      obtain ⟨ps₁, r, ps₂, rfl, hbefore, ha, hafter⟩ := exists_append_of_forall₂ hp.usesOnly
      obtain ⟨ha', htouched⟩ := ha.advance h
      have hapart : ∀ r' ∈ ps₁, t.Apart cwd r r' := fun r' hr' =>
        ((List.pairwise_append.1 hp.apart).2.2 r' hr' r List.mem_cons_self).symm
      exact
        { usesOnly := List.rel_append hbefore (.cons ha' hafter)
          apart := hp.apart.imp fun h => htouched.apart_iff.2 h
          runAll_eq := (Action.runAll_advance hbefore hapart ha h).trans hp.runAll_eq }

/-- **Independence**: actions that use files of their own end, in every order
of their requests, as if they had run one after the other. -/
theorem alwaysEnds_of_apart (has : List.Forall₂ Action.UsesOnly ps as)
    (hapart : ps.Pairwise (t.Apart cwd)) :
    AlwaysEnds cwd ⟨t, as⟩ fun t' vs =>
      t' = (Action.runAll cwd as t).2 ∧ vs = as.map fun a => (a.run cwd t).value := by
  have hstart : Independent cwd ps (Action.runAll cwd as t) ⟨t, as⟩ := ⟨has, hapart, rfl⟩
  refine alwaysEnds_of_invariant (fun p q hp h => hp.step h) (fun t' vs hend => ?_) hstart
  have hlast := hend.runAll_eq
  rw [Action.runAll_map_done] at hlast
  rw [← Action.runAll_fst has hapart, ← hlast]
  exact ⟨rfl, rfl⟩

end Pool

end ChainIndent
