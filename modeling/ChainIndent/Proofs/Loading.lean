import ChainIndent.Discovery
import ChainIndent.Proofs.Files

/-!
# ChainIndent.Proofs.Loading

Loading the style of a file, told without the requests that it takes.

* `ReadOnly` — an action that never writes leaves the tree as it is
  (`ReadOnly.tree_run`), and loading a style is one (`readOnly_load`).
* `FileTree.writtenStyle` — the style that a tree holds for a path: the layers
  of the style files above it, laid over the standard style.
* `value_load` — loading finds that style, and fails if it is not valid.
-/

namespace ChainIndent

/-- A traversal goes through exactly when every step does. -/
theorem exists_mapM_eq_ok_iff {ε α β : Type} {f : α → Except ε β} {as : List α} :
    (∃ bs, as.mapM f = .ok bs) ↔ ∀ a ∈ as, ∃ b, f a = .ok b := by
  induction as with
  | nil => exact iff_of_true ⟨[], rfl⟩ (List.forall_mem_nil _)
  | cons a as ih =>
      rw [List.forall_mem_cons, ← ih, List.mapM_cons]
      cases f a with
      | error e => simp [bind, Except.bind]
      | ok b =>
          cases as.mapM f with
          | error e => simp [bind, Except.bind]
          | ok bs => simp [bind, Except.bind, pure, Except.pure]

namespace Action

variable {α β : Type}

/-! ## actions that never write -/

/-- Whatever is answered, nothing is written. -/
def ReadOnly : Action α → Prop
  | .done _ => True
  | .report _ next => next.ReadOnly
  | .readFile _ next => ∀ r, (next r).ReadOnly
  | .writeFile .. => False
  | .askDirectory _ next => ∀ r, (next r).ReadOnly
  | .askFile _ next => ∀ r, (next r).ReadOnly
  | .askHere next => ∀ r, (next r).ReadOnly

theorem ReadOnly.bind {a : Action α} {f : α → Action β} (ha : a.ReadOnly)
    (hf : ∀ x, (f x).ReadOnly) : (a >>= f).ReadOnly := by
  change (a.bind f).ReadOnly
  induction a with
  | done x => exact hf x
  | report e next ih => exact ih ha
  | readFile p next ih => exact fun r => ih r (ha r)
  | writeFile p b next => exact ha.elim
  | askDirectory p next ih => exact fun r => ih r (ha r)
  | askFile p next ih => exact fun r => ih r (ha r)
  | askHere next ih => exact fun r => ih r (ha r)

theorem ReadOnly.tree_run {a : Action α} (h : a.ReadOnly) (cwd : Place) (t : FileTree) :
    (a.run cwd t).tree = t := by
  induction a with
  | done x => rfl
  | report e next ih => exact ih h
  | readFile p next ih => exact ih _ (h _)
  | writeFile p b next => exact h.elim
  | askDirectory p next ih => exact ih _ (h _)
  | askFile p next ih => exact ih _ (h _)
  | askHere next ih => exact ih _ (h _)

/-- Behind an action that never writes, the tree is the one before it. -/
theorem value_run_bind {a : Action α} (ha : a.ReadOnly) (f : α → Action β) (cwd : Place)
    (t : FileTree) : ((a >>= f).run cwd t).value = ((f (a.run cwd t).value).run cwd t).value := by
  change ((a.bind f).run cwd t).value = _
  rw [run_bind, ha.tree_run]

theorem tree_run_bind {a : Action α} (ha : a.ReadOnly) (f : α → Action β) (cwd : Place)
    (t : FileTree) : ((a >>= f).run cwd t).tree = ((f (a.run cwd t).value).run cwd t).tree := by
  change ((a.bind f).run cwd t).tree = _
  rw [run_bind, ha.tree_run]

theorem readOnly_isDirectory (p : Path) : (isDirectory p).ReadOnly := fun _ => trivial

theorem readOnly_isFile (p : Path) : (isFile p).ReadOnly := fun _ => trivial

theorem readOnly_here : here.ReadOnly := fun _ => trivial

end Action

/-! ## loading never writes -/

theorem readOnly_searchStart (p : Path) : (searchStart p).ReadOnly := by
  refine Action.ReadOnly.bind (Action.readOnly_isDirectory p) fun isDirectory => ?_
  cases isDirectory with
  | true => trivial
  | false =>
      cases p.parent? with
      | none => exact Action.readOnly_here
      | some q =>
          simp only [Bool.false_eq_true, if_false]
          split
          · exact Action.readOnly_here
          · trivial

theorem readOnly_keepFiles (found ps : List Path) : (keepFiles found ps).ReadOnly := by
  induction ps generalizing found with
  | nil => trivial
  | cons p ps ih =>
      refine Action.ReadOnly.bind (Action.readOnly_isFile p) fun isFile => ?_
      split
      · exact ih _
      · exact ih _

theorem readOnly_styleFiles (p : Path) : (styleFiles p).ReadOnly := by
  refine Action.ReadOnly.bind (readOnly_searchStart p) fun start => ?_
  cases start with
  | none => trivial
  | some start => exact readOnly_keepFiles [] _

theorem readOnly_readLayer (p : Path) : (readLayer p).ReadOnly := fun _ => trivial

namespace Style

theorem readOnly_applyFiles (s : Style) (ps : List Path) : (s.applyFiles ps).ReadOnly := by
  induction ps generalizing s with
  | nil => trivial
  | cons p ps ih =>
      refine Action.ReadOnly.bind (readOnly_readLayer p) fun layer => ?_
      cases layer with
      | error e => trivial
      | ok l => exact ih _

theorem readOnly_load (p : Path) : (load p).ReadOnly := by
  refine Action.ReadOnly.bind (readOnly_styleFiles p) fun files => ?_
  refine Action.ReadOnly.bind (readOnly_applyFiles standard files) fun style => ?_
  cases style with
  | error e => trivial
  | ok s => trivial

end Style

/-! ## what is loaded -/

/-- One more candidate is looked at. -/
def FileTree.keepFile (t : FileTree) (cwd : Place) (found : List Path) (p : Path) : List Path :=
  if t.isFile cwd p && !found.any (·.sameAs p) then found ++ [p] else found

theorem value_keepFiles (cwd : Place) (t : FileTree) (found ps : List Path) :
    ((keepFiles found ps).run cwd t).value = ps.foldl (t.keepFile cwd) found := by
  induction ps generalizing found with
  | nil => rfl
  | cons p ps ih =>
      have hanswer : ((Action.isFile p).run cwd t).value = t.isFile cwd p := rfl
      rw [keepFiles, Action.value_run_bind (Action.readOnly_isFile p), hanswer, List.foldl_cons,
        FileTree.keepFile]
      split
      · exact ih _
      · exact ih _

namespace FileTree

/-- The style files above a path, the farthest first. -/
def styleFilesAbove (t : FileTree) (cwd : Place) (p : Path) : List Path :=
  ((styleFiles p).run cwd t).value

theorem styleFilesAbove_of_start {t : FileTree} {cwd : Place} {p start : Path}
    (h : ((searchStart p).run cwd t).value = some start) :
    t.styleFilesAbove cwd p = (styleFileCandidates start).foldl (t.keepFile cwd) [] := by
  rw [styleFilesAbove, styleFiles, Action.value_run_bind (readOnly_searchStart p), h]
  exact value_keepFiles ..

/-- What a style file sets. -/
def layerAt (t : FileTree) (cwd : Place) (p : Path) : Except Failure Style.Layer :=
  layerOf p (t.read cwd p)

theorem layerAt_eq_ok_iff {t : FileTree} {cwd : Place} {p : Path} {l : Style.Layer} :
    t.layerAt cwd p = .ok l ↔
      ∃ text, t.text cwd p = .ok text ∧ Style.Layer.ofToml? text = some l := by
  rw [layerAt, layerOf, FileTree.text]
  cases readText (t.read cwd p) with
  | error e => simp
  | ok text =>
      cases hl : Style.Layer.ofToml? text with
      | none => simp [hl]
      | some l' => simp [hl]

/-- The style that the style files above a path write. -/
def writtenStyle (t : FileTree) (cwd : Place) (p : Path) : Except Failure Style :=
  ((t.styleFilesAbove cwd p).mapM (t.layerAt cwd)).map (List.foldl Style.overlay Style.standard)

/-- Every style file counts, also one that a nearer one overrides. -/
theorem exists_writtenStyle_iff {t : FileTree} {cwd : Place} {p : Path} :
    (∃ s, t.writtenStyle cwd p = .ok s) ↔
      ∀ q ∈ t.styleFilesAbove cwd p, ∃ l, t.layerAt cwd q = .ok l := by
  rw [← exists_mapM_eq_ok_iff, writtenStyle]
  cases (t.styleFilesAbove cwd p).mapM (t.layerAt cwd) with
  | error e => simp [Except.map]
  | ok ls => simp [Except.map]

end FileTree

namespace Style

theorem value_applyFiles (s : Style) (cwd : Place) (t : FileTree) (ps : List Path) :
    ((s.applyFiles ps).run cwd t).value =
      (ps.mapM (t.layerAt cwd)).map (List.foldl overlay s) := by
  induction ps generalizing s with
  | nil => rfl
  | cons p ps ih =>
      have hlayer : ((readLayer p).run cwd t).value = t.layerAt cwd p := rfl
      rw [applyFiles, Action.run, Action.value_run_bind (readOnly_readLayer p), hlayer,
        List.mapM_cons]
      cases t.layerAt cwd p with
      | error e => rfl
      | ok l =>
          rw [ih]
          cases ps.mapM (t.layerAt cwd) with
          | error e => rfl
          | ok ls => rfl

/-- **Loading** finds the style that is written for the path, and only then
checks it. -/
theorem value_load (cwd : Place) (t : FileTree) (p : Path) :
    ((load p).run cwd t).value = (t.writtenStyle cwd p).bind checked := by
  have hwritten : ((standard.applyFiles (t.styleFilesAbove cwd p)).run cwd t).value =
      t.writtenStyle cwd p := value_applyFiles ..
  rw [load, Action.value_run_bind (readOnly_styleFiles p),
    Action.value_run_bind (readOnly_applyFiles _ _), ← FileTree.styleFilesAbove, hwritten]
  cases t.writtenStyle cwd p with
  | error e => rfl
  | ok s => rfl

theorem checked_eq_ok_iff {s s' : Style} : s.checked = .ok s' ↔ s = s' ∧ s.Valid := by
  rw [checked, ← problem?_eq_none_iff]
  cases s.problem? with
  | none => simp
  | some problem => simp

/-- Only a valid style is loaded. -/
theorem value_load_eq_ok_iff {cwd : Place} {t : FileTree} {p : Path} {s : Style} :
    ((load p).run cwd t).value = .ok s ↔ t.writtenStyle cwd p = .ok s ∧ s.Valid := by
  rw [value_load]
  cases t.writtenStyle cwd p with
  | error e => simp [Except.bind]
  | ok s' =>
      simp only [Except.bind, checked_eq_ok_iff, Except.ok.injEq]
      exact and_congr_right fun heq => by rw [heq]

end Style

end ChainIndent
