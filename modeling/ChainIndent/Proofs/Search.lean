import ChainIndent.Proofs.Directories

/-!
# ChainIndent.Proofs.Search

Which style files a search finds, however the path is spelled.

1. A search starts at one place, `FileTree.SearchStart` (`exists_searchStart`).
2. From there it goes up from parent to parent, `Path.Ascent`, which comes to an
   end (`ascent_iff`), for each parent has one component less
   (`of_parent?_eq_some`).
3. What is found are all candidates that are files, the shorter ones first, and
   the one beside the start last (`exists_styleFileCandidates_eq`).
-/

namespace ChainIndent

namespace Path

/-! ## going up -/

/-- A path, its parent and so on, up to a path without a parent. -/
inductive Ascent : Path → List Path → Prop
  | top {p : Path} (h : p.parent? = none) : Ascent p [p]
  | step {p q : Path} {as : List Path} (h : p.parent? = some q) (hrest : Ascent q as) :
      Ascent p (p :: as)

theorem ascent_ancestors (p : Path) : p.Ascent p.ancestors := by
  induction p using ancestors.induct with
  | case1 p hnone =>
      rw [ancestors_of_parent?_eq_none hnone]
      exact .top hnone
  | case2 p q hq ih =>
      rw [ancestors_of_parent?_eq_some hq]
      exact .step hq ih

/-- Going up comes to an end, in one way. -/
theorem ascent_iff {p : Path} {as : List Path} : p.Ascent as ↔ as = p.ancestors := by
  constructor
  · intro h
    induction h with
    | top hnone => rw [ancestors_of_parent?_eq_none hnone]
    | step hq _ ih => rw [ancestors_of_parent?_eq_some hq, ih]
  · rintro rfl
    exact p.ascent_ancestors

/-- **One step up** takes one component away, and what is left is spelled as
before. -/
theorem of_parent?_eq_some {p q : Path} (h : p.parent? = some q) :
    q.spelling <+: p.spelling ∧ ∃ c, p.components = q.components ++ [c] := by
  obtain ⟨hnone, -⟩ | ⟨r, c, hr, hroot, hspelling, htrail⟩ := p.parent?_cases
  · rw [hnone] at h
    contradiction
  · obtain rfl : r = q := Option.some.inj (hr.symm.trans h)
    exact ⟨hspelling, c, by rw [components_eq, components_eq, hroot, htrail, List.append_assoc]⟩

/-- Slashes, dots and steps up in the spelling are kept as they are. -/
example : Ascent ⟨"./a//../b/.".toList⟩
    [⟨"./a//../b/.".toList⟩, ⟨"./a//..".toList⟩, ⟨"./a".toList⟩, ⟨".".toList⟩, ⟨[]⟩] :=
  .step (by decide) (.step (by decide) (.step (by decide) (.step (by decide) (.top (by decide)))))

end Path

/-! ## where a search starts -/

/-- A search starts at a directory itself, else at its parent, else in the working
directory. -/
inductive FileTree.SearchStart (t : FileTree) (cwd : Place) (p : Path) : Path → Prop
  | directory (h : t.isDirectory cwd p = true) : SearchStart t cwd p p
  | parent {q : Path} (h : t.isDirectory cwd p = false) (hq : p.parent? = some q)
      (hne : q.spelling ≠ []) : SearchStart t cwd p q
  | here (h : t.isDirectory cwd p = false) (hq : ∀ q, p.parent? = some q → q.spelling = []) :
      SearchStart t cwd p cwd.path

namespace FileTree

variable {t : FileTree} {cwd : Place} {p : Path}

theorem SearchStart.value_eq {start : Path} (h : t.SearchStart cwd p start) :
    ((searchStart p).run cwd t).value = some start := by
  have hdirectory : ((Action.isDirectory p).run cwd t).value = t.isDirectory cwd p := rfl
  rw [searchStart, Action.value_run_bind (Action.readOnly_isDirectory p), hdirectory]
  cases h with
  | directory hdir =>
      rw [if_pos hdir]
      rfl
  | parent hdir hq hne =>
      simp only [hdir, hq, hne, Bool.false_eq_true, if_false]
      rfl
  | here hdir hempty =>
      simp only [hdir, Bool.false_eq_true, if_false]
      split
      · next q hq =>
          rw [if_pos (hempty q hq)]
          rfl
      · rfl

/-- There is one place to start at, and only one. -/
theorem exists_searchStart (t : FileTree) (cwd : Place) (p : Path) :
    ∃ start, ∀ start', t.SearchStart cwd p start' ↔ start' = start := by
  have hsome : ∃ start, t.SearchStart cwd p start := by
    cases hdir : t.isDirectory cwd p with
    | true => exact ⟨p, .directory hdir⟩
    | false =>
        by_cases hempty : ∀ q, p.parent? = some q → q.spelling = []
        · exact ⟨_, .here hdir hempty⟩
        · push Not at hempty
          obtain ⟨q, hq, hne⟩ := hempty
          exact ⟨q, .parent hdir hq hne⟩
  obtain ⟨start, hstart⟩ := hsome
  refine ⟨start, fun start' => ⟨fun h => ?_, by rintro rfl; exact hstart⟩⟩
  exact Option.some.inj (h.value_eq.symm.trans hstart.value_eq)

end FileTree

/-! ## the style files in order -/

/-- The candidate beside the start itself is the last one. -/
theorem exists_styleFileCandidates_eq (start : Path) :
    ∃ cs, styleFileCandidates start = cs ++ [start.join styleFileName] := by
  have hfirst : ∃ as, start.ancestors = start :: as := by
    cases h : start.parent? with
    | none => exact ⟨_, Path.ancestors_of_parent?_eq_none h⟩
    | some q => exact ⟨_, Path.ancestors_of_parent?_eq_some h⟩
  obtain ⟨as, has⟩ := hfirst
  exact ⟨_, by rw [styleFileCandidates, has, List.reverse_cons, List.map_append]; rfl⟩

namespace FileTree

/-- **The style files** above a path, however it is spelled, are the candidates
beside the ancestors of the start that are files.

Each ancestor is the parent of the one before it, with one component less, and
they end.  So the files come in the order of their length, no two of them are
the same path, and the one beside the start, if there is one, is the last. -/
theorem styleFilesAbove_ordered (t : FileTree) (cwd : Place) (p : Path) :
    ∃ start, (∀ start', t.SearchStart cwd p start' ↔ start' = start) ∧
      start.Ascent start.ancestors ∧
      (∀ a ∈ start.ancestors, a.spelling <+: start.spelling ∧
        ∀ b, a.parent? = some b → ∃ c, a.components = b.components ++ [c]) ∧
      t.styleFilesAbove cwd p =
        (start.ancestors.reverse.map fun a => a.join styleFileName).filter (t.isFile cwd) ∧
      (t.styleFilesAbove cwd p).Pairwise (fun q r =>
        q.components.length < r.components.length ∧ q.sameAs r = false) ∧
      (t.isFile cwd (start.join styleFileName) = true →
        (t.styleFilesAbove cwd p).getLast? = some (start.join styleFileName)) := by
  obtain ⟨start, hstart⟩ := t.exists_searchStart cwd p
  have hfiles : t.styleFilesAbove cwd p = (styleFileCandidates start).filter (t.isFile cwd) :=
    styleFilesAbove_eq_filter ((hstart start).2 rfl).value_eq
  have hordered := (pairwise_length_styleFileCandidates start).and
    (pairwise_styleFileCandidates start)
  refine ⟨start, hstart, start.ascent_ancestors, fun a ha => ?_, hfiles, ?_, fun hfile => ?_⟩
  · exact ⟨(Path.of_mem_ancestors ha).2, fun b hb => (Path.of_parent?_eq_some hb).2⟩
  · rw [hfiles]
    exact hordered.filter _
  · obtain ⟨cs, hcs⟩ := exists_styleFileCandidates_eq start
    rw [hfiles, hcs, List.filter_append, List.filter_cons_of_pos hfile, List.filter_nil,
      List.getLast?_concat]

end FileTree

end ChainIndent
