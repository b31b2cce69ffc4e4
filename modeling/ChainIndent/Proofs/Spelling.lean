import ChainIndent.Proofs.Directories

/-!
# ChainIndent.Proofs.Spelling

What the spelling of a path means for the style that is loaded for a file.

1. The style comes from the directories on the way to the file
   (`toOption_load_of_names`): from the root down if the path is absolute or a
   mere name, otherwise only from the working directory down, since the
   ancestors of a relative path end there.
2. The working directory joined with a path of names leads to the same file
   (`resolve_join_path`), so both spellings load the same style if no style
   file stands above the working directory (`load_of_spellings`), and not in
   general (`load_depends_on_spelling`).
-/

namespace ChainIndent

/-! ## the path of a place -/

namespace Place

variable {d : Place}

theorem isAbsolute_path (d : Place) : d.path.isAbsolute = true := rfl

theorem trail_path (hd : ∀ n ∈ d, Path.IsName n) : d.path.trail = d.map .name := by
  rw [path, Path.trail, Path.cut_slash_cons, Path.componentsOf_nil_cons,
    Path.componentsOf_cut_glue fun n hn => (hd n hn).slash_not_mem,
    Path.componentsOf_of_isName hd]

theorem trail_join_path (hd : ∀ n ∈ d, Path.IsName n) {p : Path} {ns : List (List Char)}
    (hp : p.trail = ns.map .name) : (d.path.join p.spelling).trail = (d ++ ns).map .name := by
  have hpath : d.path.spelling ≠ [] := List.cons_ne_nil _ _
  rw [Path.trail_join hpath, trail_path hd, Path.componentsOf_false_eq_names hp, List.map_append]

end Place

namespace FileTree

variable {t : FileTree} {cwd : Place} {p : Path} {ns : List (List Char)}

/-! ## paths of names that lead to a file -/

theorem isFile_eq_true_iff :
    t.isFile cwd p = true ↔ ∃ q f, t.resolve cwd p = .ok q ∧ t.node? q = some (.file f) := by
  rw [isFile]
  cases t.resolve cwd p with
  | error e => simp
  | ok q =>
      simp only [file?, Except.ok.injEq, exists_and_left, exists_eq_left']
      cases t.node? q with
      | none => simp
      | some n => cases n <;> simp

theorem isDirectory_of_isFile (hfile : t.isFile cwd p = true) : t.isDirectory cwd p = false := by
  obtain ⟨q, f, hq, hf⟩ := isFile_eq_true_iff.1 hfile
  simp only [isDirectory, hq, hf]
  rfl

theorem isDirectoryAt_origin (hcwd : t.IsDirectoryAt cwd) (p : Path) :
    t.IsDirectoryAt (origin cwd p) := by
  rw [origin]
  split
  · exact t.isDirectoryAt_root
  · exact hcwd

theorem spelling_ne_nil_of_isFile (hfile : t.isFile cwd p = true) : p.spelling ≠ [] := by
  intro hnil
  rw [isFile, resolve, if_pos hnil] at hfile
  contradiction

/-- A path of names that leads to a file has a last name, and a directory
holds it. -/
theorem of_isFile_names (hcwd : t.IsDirectoryAt cwd) (hp : p.trail = ns.map .name)
    (hfile : t.isFile cwd p = true) :
    ns ≠ [] ∧ t.IsDirectoryAt (origin cwd p ++ ns.dropLast) := by
  have horigin := isDirectoryAt_origin hcwd p
  obtain ⟨q, f, hq, hf⟩ := isFile_eq_true_iff.1 hfile
  rw [resolve_eq_walk_cut t cwd (spelling_ne_nil_of_isFile hfile)] at hq
  have hwalk : t.walk (origin cwd p) ns = .ok q := by
    rw [← Path.filter_of_componentsOf_eq_names hp]
    exact walk_filter_of_walk hq
  refine ⟨?_, horigin.append_of_walk (Path.isName_of_trail hp) hwalk⟩
  rintro rfl
  rw [← Except.ok.inj hwalk, horigin.node?_eq] at hf
  exact Node.noConfusion (Option.some.inj hf)

/-! ## where the search starts -/

/-- For a file, the search starts beside it, or in the working directory if
the path is a mere name. -/
theorem value_searchStart_of_isFile (hfile : t.isFile cwd p = true) {q : Path}
    (hq : p.parent? = some q) :
    ((searchStart p).run cwd t).value = some (if q.spelling = [] then cwd.path else q) := by
  have hanswer : ((Action.isDirectory p).run cwd t).value = false := isDirectory_of_isFile hfile
  rw [searchStart, Action.value_run_bind (Action.readOnly_isDirectory p), hanswer, hq]
  simp only [Bool.false_eq_true, if_false]
  split <;> rfl

/-- The directories that are searched for style files, for a path of names. -/
def searched (cwd : Place) (p : Path) (ns : List (List Char)) : List Place :=
  if p.isAbsolute = false ∧ ns.length = 1 then cwd.inits
  else ns.dropLast.inits.map (origin cwd p ++ ·)

theorem searched_of_isAbsolute (h : p.isAbsolute = true) (cwd : Place)
    (ns : List (List Char)) : searched cwd p ns = ns.dropLast.inits := by
  rw [searched, if_neg (by simp [h]), origin, if_pos h]
  exact List.map_id _

theorem searched_of_not_isAbsolute (h : p.isAbsolute = false) (cwd : Place)
    (ns : List (List Char)) :
    searched cwd p ns =
      if ns.length = 1 then cwd.inits else ns.dropLast.inits.map (cwd ++ ·) := by
  rw [searched, origin, h]
  simp

/-- **The style of a file** comes from those directories. -/
theorem toOption_load_of_names (hcwd : t.IsDirectoryAt cwd) (hp : p.trail = ns.map .name)
    (hfile : t.isFile cwd p = true) :
    ((Style.load p).run cwd t).value.toOption = t.styleFrom (searched cwd p ns) := by
  obtain ⟨hne, hdir⟩ := of_isFile_names hcwd hp hfile
  obtain ⟨q, hq, hroot, hqtrail, hempty⟩ := Path.exists_parent_of_names hp hne
  have hstart := value_searchStart_of_isFile hfile hq
  -- an empty parent has no ancestors; the absolute path of the working directory takes its place
  by_cases hmere : q.spelling = []
  · rw [searched, if_pos (hempty.1 hmere)]
    rw [if_pos hmere] at hstart
    have hplace : t.IsDirectoryAt (origin cwd cwd.path ++ cwd) := hcwd
    have hlooks := forall₂_looksInto (Place.trail_path hcwd.isName) hplace
    rw [show (fun e => origin cwd cwd.path ++ e) = id from rfl, List.map_id] at hlooks
    exact toOption_load hstart hlooks
  · rw [searched, if_neg (hempty.not.1 hmere)]
    rw [if_neg hmere] at hstart
    have horigin : origin cwd q = origin cwd p := by rw [origin, origin, hroot]
    rw [← horigin] at hdir ⊢
    exact toOption_load hstart (forall₂_looksInto hqtrail hdir)

/-! ## two spellings of one path -/

/-- Pieces that are the names of a directory, but for pieces that stay where
they are, lead there. -/
theorem IsDirectoryAt.walk_of_names {d : Place} (h : t.IsDirectoryAt d) {leading : Bool}
    {ps : List (List Char)} (hps : Path.componentsOf leading ps = d.map .name) :
    t.walk [] ps = .ok d := by
  refine walk_of_walk_filter ?_ h.node?_eq
  rw [Path.filter_of_componentsOf_eq_names hps, h.walk_eq]

theorem isAbsolute_join_path (cwd : Place) (r : List Char) :
    (cwd.path.join r).isAbsolute = true :=
  (Path.isAbsolute_join (List.cons_ne_nil _ _) r).trans cwd.isAbsolute_path

/-- The working directory joined with a relative path leads where the relative
path leads. -/
theorem resolve_join_path (hcwd : t.IsDirectoryAt cwd) (hrel : p.isAbsolute = false)
    (hne : p.spelling ≠ []) : t.resolve cwd (cwd.path.join p.spelling) = t.resolve cwd p := by
  have habs := isAbsolute_join_path cwd p.spelling
  have hjoin : (cwd.path.join p.spelling).spelling ≠ [] := by
    intro hnil
    rw [Path.isAbsolute, hnil] at habs
    contradiction
  obtain ⟨ps, hcut, -, hcomponents⟩ := cwd.path.exists_cut_join p.spelling
  rw [resolve_eq_walk_cut t cwd hjoin, resolve_eq_walk_cut t cwd hne, origin, origin, if_pos habs,
    hrel, hcut, walk_append,
    hcwd.walk_of_names (hcomponents.trans (Place.trail_path hcwd.isName))]
  rfl

theorem isFile_join_path (hcwd : t.IsDirectoryAt cwd) (hrel : p.isAbsolute = false)
    (hfile : t.isFile cwd p = true) : t.isFile cwd (cwd.path.join p.spelling) = true := by
  have hresolve := resolve_join_path hcwd hrel (spelling_ne_nil_of_isFile hfile)
  rw [isFile_eq_true_iff] at hfile ⊢
  rwa [hresolve]

theorem styleFrom_append_of_none {ds es : List Place} (h : ∀ d ∈ ds, t.styleFileIn d = none) :
    t.styleFrom (ds ++ es) = t.styleFrom es := by
  rw [styleFrom, styleFrom, List.filterMap_append, List.filterMap_eq_nil_iff.2 h, List.nil_append]

/-- The two searches look into the same directories, or differ by those above
the working directory only. -/
theorem styleFrom_searched_eq
    (h : ns.length = 1 ∨ ∀ d, d <+: cwd → d ≠ cwd → t.styleFileIn d = none) :
    t.styleFrom (if ns.length = 1 then cwd.inits else ns.dropLast.inits.map (cwd ++ ·)) =
      t.styleFrom (cwd ++ ns.dropLast).inits := by
  by_cases hone : ns.length = 1
  · have hlast : ns.dropLast = [] := by
      rw [← List.length_eq_zero_iff, List.length_dropLast, hone]
    rw [if_pos hone, hlast, List.append_nil]
  · have hnone : ∀ d ∈ cwd.inits.dropLast, t.styleFileIn d = none := fun d hd =>
      (Path.of_mem_dropLast_inits hd).elim (h.resolve_left hone d)
    rw [if_neg hone, Path.inits_append_eq, styleFrom_append_of_none hnone]

end FileTree

namespace Style

open FileTree

/-- A file two directories below the root, and a style file in the directory
`d`. -/
def treeWithStyle (d : Place) : FileTree where
  entries :=
    [(["work".toList], .directory),
      (["work".toList, "sub".toList], .directory),
      (["work".toList, "sub".toList, "tree.go".toList], .file { content := encodeText [] }),
      (d ++ [styleFileName], .file { content := encodeText "base_indent = 4\n".toList })]

theorem isDirectoryAt_treeWithStyle (d : Place) : (treeWithStyle d).IsDirectoryAt ["work".toList] :=
  (isDirectoryAt_root _).append_name (by decide) rfl

theorem styleFrom_of_baseIndent {t : FileTree} {ds : List Place}
    (h : ds.filterMap t.styleFileIn = [{ content := encodeText "base_indent = 4\n".toList }]) :
    t.styleFrom ds = some { standard with baseIndent := 4 } := by
  have hlayer : Layer.ofToml? "base_indent = 4\n".toList = some { baseIndent := some 4 } := by
    decide +kernel
  rw [styleFrom, h, List.mapM_cons, File.layer?, if_pos rfl, decodeText?_encodeText,
    Option.bind_some, hlayer]
  rfl

/-- **Two spellings** of the path of a file load the same style if the path is
a mere name or no style file stands above the working directory.

In general the working directory joined with the path finds the style files on
the whole way to the file, and the path itself only those from the working
directory on. -/
theorem load_of_spellings {t : FileTree} {cwd : Place} {p : Path} {ns : List (List Char)}
    (hcwd : t.IsDirectoryAt cwd) (hp : p.components = ns.map .name)
    (hfile : t.isFile cwd p = true) :
    ((load (cwd.path.join p.spelling)).run cwd t).value.toOption =
        t.styleFrom (cwd ++ ns.dropLast).inits ∧
      ((load p).run cwd t).value.toOption =
        t.styleFrom (if ns.length = 1 then cwd.inits else ns.dropLast.inits.map (cwd ++ ·)) ∧
      ((ns.length = 1 ∨ ∀ d, d <+: cwd → d ≠ cwd → t.styleFileIn d = none) →
        ((load p).run cwd t).value.toOption =
          ((load (cwd.path.join p.spelling)).run cwd t).value.toOption) := by
  obtain ⟨hrel, htrail⟩ := Path.of_components_eq_names hp
  have hne := (of_isFile_names hcwd htrail hfile).1
  have habsolute := toOption_load_of_names hcwd (Place.trail_join_path hcwd.isName htrail)
    (isFile_join_path hcwd hrel hfile)
  have hrelative := toOption_load_of_names hcwd htrail hfile
  rw [searched_of_isAbsolute (isAbsolute_join_path cwd _),
    List.dropLast_append_of_ne_nil hne] at habsolute
  rw [searched_of_not_isAbsolute hrel] at hrelative
  refine ⟨habsolute, hrelative, fun h => ?_⟩
  rw [hrelative, habsolute, styleFrom_searched_eq h]

/-- Slashes and dots in the spelling do no harm, and a style file in the
working directory itself is found in both ways. -/
theorem load_of_spellings_with_dots :
    ((load ⟨"/work/sub//./tree.go".toList⟩).run ["work".toList]
        (treeWithStyle ["work".toList])).value.toOption = some { standard with baseIndent := 4 } ∧
      ((load ⟨"sub//./tree.go".toList⟩).run ["work".toList]
        (treeWithStyle ["work".toList])).value.toOption =
          some { standard with baseIndent := 4 } := by
  have hp : Path.components ⟨"sub//./tree.go".toList⟩ =
      ["sub".toList, "tree.go".toList].map .name := by decide
  obtain ⟨habsolute, -, hsame⟩ :=
    load_of_spellings (isDirectoryAt_treeWithStyle ["work".toList]) hp rfl
  have hwritten := habsolute.trans (styleFrom_of_baseIndent rfl)
  refine ⟨hwritten, (hsame (.inr fun d hd hne => ?_)).trans hwritten⟩
  obtain rfl | rfl : d = [] ∨ d = ["work".toList] := by
    simpa [List.prefix_cons_iff] using hd
  · rfl
  · contradiction

/-- A style file above the working directory is missed on the way from there. -/
theorem load_depends_on_spelling :
    ∃ (t : FileTree) (cwd : Place) (p : Path) (ns : List (List Char)),
      t.IsDirectoryAt cwd ∧ p.components = ns.map .name ∧ t.isFile cwd p = true ∧
        ((load (cwd.path.join p.spelling)).run cwd t).value.toOption =
          some { standard with baseIndent := 4 } ∧
        ((load p).run cwd t).value.toOption = some standard := by
  have hcwd := isDirectoryAt_treeWithStyle []
  have htrail : Path.trail ⟨"sub/tree.go".toList⟩ =
      ["sub".toList, "tree.go".toList].map .name := by decide
  refine ⟨treeWithStyle [], ["work".toList], ⟨"sub/tree.go".toList⟩,
    ["sub".toList, "tree.go".toList], hcwd, by decide, rfl, ?_, ?_⟩
  · have hjoined := Place.trail_join_path hcwd.isName htrail
    exact (toOption_load_of_names hcwd hjoined rfl).trans (styleFrom_of_baseIndent rfl)
  · exact toOption_load_of_names hcwd htrail rfl

end Style

end ChainIndent
