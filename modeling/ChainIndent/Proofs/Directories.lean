import ChainIndent.Proofs.Ancestors
import ChainIndent.Proofs.Loading
import Mathlib.Data.List.Forall2

/-!
# ChainIndent.Proofs.Directories

The search for style files, told by the directories that it looks into.

1. Pieces of a path that stay where they are do not count on the way to a name
   (`walk_filter_append`), so that a path which is made of names leads where
   its names lead (`resolve_join_of_trail`).
2. The candidates of a search are pairwise different, so none is dropped for
   being there already (`styleFilesAbove_eq_filter`).
3. A search that begins at a path looks into the directories that the
   beginnings of its trail lead to (`forall₂_looksInto`), and what it loads is
   the style that their files write, `styleFrom` (`toOption_load`).
-/

namespace ChainIndent

theorem toOption_mapM {ε α β : Type} (f : α → Except ε β) (as : List α) :
    (as.mapM f).toOption = as.mapM fun a => (f a).toOption := by
  induction as with
  | nil => rfl
  | cons a as ih =>
      rw [List.mapM_cons, List.mapM_cons, ← ih]
      cases f a with
      | error e => rfl
      | ok b =>
          cases as.mapM f with
          | error e => rfl
          | ok bs => rfl

namespace FileTree

variable {t : FileTree} {cwd : Place}

/-! ## walking -/

theorem walk_cons_of_stays {q : Place} (hq : t.node? q = some .directory) {n : List Char}
    (hn : n = [] ∨ n = ['.']) (ns : List (List Char)) : t.walk q (n :: ns) = t.walk q ns := by
  rw [walk, hq]
  exact if_pos hn

/-- Any piece asks for a directory. -/
theorem walk_cons_of_not_directory {q : Place} (hq : t.node? q ≠ some .directory) (n : List Char)
    (ns : List (List Char)) : t.walk q (n :: ns) = .error .notADirectory := by
  rw [walk]
  split
  · next h => exact absurd h hq
  · rfl

theorem walk_append (t : FileTree) (q : Place) (ms ns : List (List Char)) :
    t.walk q (ms ++ ns) = (t.walk q ms).bind fun r => t.walk r ns := by
  induction ms generalizing q with
  | nil => rfl
  | cons m ms ih =>
      rw [List.cons_append, walk, walk]
      split
      · split
        · exact ih q
        · split
          · exact ih _
          · split
            · exact ih _
            · rfl
      · rfl

/-- Without the pieces that stay where they are, a path leads to the same
place, unless it asks for a directory there and there is none. -/
theorem walk_filter_cases (t : FileTree) (q : Place) (ps : List (List Char)) :
    t.walk q (ps.filter fun p => p ≠ [] ∧ p ≠ ['.']) = t.walk q ps ∨
      t.walk q ps = .error .notADirectory ∧
        ∃ r, t.walk q (ps.filter fun p => p ≠ [] ∧ p ≠ ['.']) = .ok r ∧
          t.node? r ≠ some .directory := by
  induction ps generalizing q with
  | nil => exact .inl rfl
  | cons p ps ih =>
      by_cases hp : p = [] ∨ p = ['.']
      · rw [List.filter_cons_of_neg (by simpa using fun hne => hp.resolve_left hne)]
        by_cases hq : t.node? q = some .directory
        · rw [walk_cons_of_stays hq hp]
          exact ih q
        · rw [walk_cons_of_not_directory hq]
          cases hrest : ps.filter fun p => p ≠ [] ∧ p ≠ ['.'] with
          | nil => exact .inr ⟨rfl, q, rfl, hq⟩
          | cons m ms => exact .inl (walk_cons_of_not_directory hq m ms)
      · rw [List.filter_cons_of_pos (by simpa using hp), walk, walk]
        split
        · rw [if_neg hp, if_neg hp]
          split
          · exact ih _
          · split
            · exact ih _
            · exact .inl rfl
        · exact .inl rfl

theorem walk_filter_of_walk {q r : Place} {ps : List (List Char)} (h : t.walk q ps = .ok r) :
    t.walk q (ps.filter fun p => p ≠ [] ∧ p ≠ ['.']) = .ok r := by
  obtain heq | ⟨herror, -⟩ := t.walk_filter_cases q ps
  · rw [heq, h]
  · rw [h] at herror
    contradiction

theorem walk_of_walk_filter {q r : Place} {ps : List (List Char)}
    (h : t.walk q (ps.filter fun p => p ≠ [] ∧ p ≠ ['.']) = .ok r)
    (hr : t.node? r = some .directory) : t.walk q ps = .ok r := by
  obtain heq | ⟨-, r', hr', hnot⟩ := t.walk_filter_cases q ps
  · rw [← heq, h]
  · rw [h, Except.ok.injEq] at hr'
    rw [hr'] at hr
    exact absurd hr hnot

/-- In front of a name they do not count at all. -/
theorem walk_filter_append (t : FileTree) (q : Place) (ps : List (List Char)) (n : List Char) :
    t.walk q ((ps.filter fun p => p ≠ [] ∧ p ≠ ['.']) ++ [n]) = t.walk q (ps ++ [n]) := by
  rw [walk_append, walk_append]
  obtain h | ⟨h, r, hr, hnot⟩ := t.walk_filter_cases q ps
  · rw [h]
  · rw [h, hr]
    exact walk_cons_of_not_directory hnot n []

theorem walk_name {q : Place} (hq : t.node? q = some .directory) {n : List Char}
    (hn : Path.IsName n) (ns : List (List Char)) :
    t.walk q (n :: ns) =
      if (t.node? (q ++ [n])).isSome then t.walk (q ++ [n]) ns else .error .notFound := by
  rw [walk, hq]
  simp only [hn.ne_nil, hn.ne_here, hn.ne_up, or_self, if_false]

/-! ## directories -/

/-- At `d` stands a directory, and directories on the way to it. -/
structure IsDirectoryAt (t : FileTree) (d : Place) : Prop where
  isName : ∀ n ∈ d, Path.IsName n
  onTheWay : ∀ e, e <+: d → t.node? e = some .directory

theorem isDirectoryAt_root (t : FileTree) : t.IsDirectoryAt [] :=
  ⟨List.forall_mem_nil _, fun e he => by rw [List.prefix_nil.1 he]; rfl⟩

theorem IsDirectoryAt.node?_eq {d : Place} (h : t.IsDirectoryAt d) :
    t.node? d = some .directory := h.onTheWay d (List.prefix_refl d)

theorem IsDirectoryAt.above {d e : Place} (h : t.IsDirectoryAt d) (he : e <+: d) :
    t.IsDirectoryAt e :=
  ⟨fun n hn => h.isName n (he.subset hn), fun _ hf => h.onTheWay _ (hf.trans he)⟩

theorem IsDirectoryAt.append_name {d : Place} (h : t.IsDirectoryAt d) {n : List Char}
    (hn : Path.IsName n) (hnode : t.node? (d ++ [n]) = some .directory) :
    t.IsDirectoryAt (d ++ [n]) := by
  constructor
  · simpa [or_imp, forall_and] using ⟨h.isName, hn⟩
  · intro e he
    obtain rfl | he := List.prefix_concat_iff.1 he
    · exact hnode
    · exact h.onTheWay e he

/-- Its names lead to a directory. -/
theorem IsDirectoryAt.walk_eq {d : Place} (h : t.IsDirectoryAt d) : t.walk [] d = .ok d := by
  induction d using List.reverseRecOn with
  | nil => rfl
  | append_singleton e n ih =>
      have he := h.above (List.prefix_append e [n])
      rw [walk_append, ih he, Except.bind, walk_name he.node?_eq (h.isName n (by simp)),
        h.node?_eq]
      rfl

/-- A walk by names that arrives has gone through directories. -/
theorem IsDirectoryAt.append_of_walk {d : Place} (h : t.IsDirectoryAt d) {ns : List (List Char)}
    (hns : ∀ n ∈ ns, Path.IsName n) {r : Place} (hwalk : t.walk d ns = .ok r) :
    t.IsDirectoryAt (d ++ ns.dropLast) := by
  induction ns generalizing d with
  | nil => rwa [List.dropLast_nil, List.append_nil]
  | cons n ns ih =>
      rw [List.forall_mem_cons] at hns
      rw [walk_name h.node?_eq hns.1] at hwalk
      split at hwalk
      · cases ns with
        | nil => rwa [List.dropLast_singleton, List.append_nil]
        | cons m ms =>
            have hnode : t.node? (d ++ [n]) = some .directory := by
              apply Classical.byContradiction
              intro hnot
              rw [walk_cons_of_not_directory hnot] at hwalk
              contradiction
            have hrest := ih (h.append_name hns.1 hnode) hns.2 hwalk
            rwa [List.append_assoc] at hrest
      · contradiction

/-! ## paths of names -/

/-- Where a path is resolved from. -/
def origin (cwd : Place) (p : Path) : Place := if p.isAbsolute then [] else cwd

theorem resolve_eq_walk_cut (t : FileTree) (cwd : Place) {p : Path} (hp : p.spelling ≠ []) :
    t.resolve cwd p = t.walk (origin cwd p) (Path.cut p.spelling) := by
  rw [resolve, if_neg hp, origin, Path.body]
  cases h : p.isAbsolute with
  | false => rfl
  | true =>
      obtain ⟨spelling⟩ := p
      cases spelling with
      | nil => contradiction
      | cons c u =>
          have hc : c = '/' := by simpa [Path.isAbsolute] using h
          subst hc
          rw [Path.cut_slash_cons]
          rfl

/-- A name joined to a path of names is looked for where the names lead. -/
theorem resolve_join_of_trail (t : FileTree) (cwd : Place) {a : Path} {ns : List (List Char)}
    (ha : a.trail = ns.map .name) {n : List Char} (hn : Path.IsName n) :
    t.resolve cwd (a.join n) = t.walk (origin cwd a) (ns ++ [n]) := by
  have hne : (a.join n).spelling ≠ [] := by
    rw [Path.join]
    split <;> simp [hn.ne_nil]
  have horigin : origin cwd (a.join n) = origin cwd a := by
    rw [origin, origin, Path.isAbsolute_join_name a hn]
  obtain ⟨ps, hcut, -, hcomponents⟩ := a.exists_cut_join n
  rw [resolve_eq_walk_cut t cwd hne, horigin, hcut,
    Path.cut_of_slash_not_mem hn.slash_not_mem, ← walk_filter_append,
    Path.filter_of_componentsOf_eq_names (hcomponents.trans ha)]

end FileTree

/-! ## candidates -/

theorem isName_styleFileName : Path.IsName styleFileName := by decide

/-- A candidate has one component more than its directory. -/
theorem pairwise_length_styleFileCandidates (start : Path) :
    (styleFileCandidates start).Pairwise fun p q => p.components.length < q.components.length := by
  rw [styleFileCandidates, List.pairwise_map]
  refine start.pairwise_length_ancestors.imp fun {a b} hlt => ?_
  simp only [Path.components_join_name _ isName_styleFileName, List.length_append]
  omega

/-- No candidate is the same path as another one. -/
theorem pairwise_styleFileCandidates (start : Path) :
    (styleFileCandidates start).Pairwise fun p q => p.sameAs q = false := by
  refine (pairwise_length_styleFileCandidates start).imp fun {p q} hlt => ?_
  rw [Path.sameAs, decide_eq_false_iff_not]
  intro heq
  rw [heq] at hlt
  exact Nat.lt_irrefl _ hlt

namespace FileTree

variable {t : FileTree} {cwd : Place}

/-- Among different paths, none is there already. -/
theorem foldl_keepFile {found ps : List Path}
    (h : (found ++ ps).Pairwise fun p q => p.sameAs q = false) :
    ps.foldl (t.keepFile cwd) found = found ++ ps.filter (t.isFile cwd) := by
  induction ps generalizing found with
  | nil => simp
  | cons p ps ih =>
      have hnew : (found.any fun q => q.sameAs p) = false := by
        rw [List.any_eq_false]
        intro q hq
        rw [Bool.not_eq_true]
        exact (List.pairwise_append.1 h).2.2 q hq p List.mem_cons_self
      rw [List.foldl_cons, keepFile, hnew, Bool.not_false, Bool.and_true]
      cases hp : t.isFile cwd p with
      | true =>
          rw [if_pos rfl, List.filter_cons_of_pos hp, ih (by simpa using h), List.append_assoc]
          rfl
      | false =>
          have hrest : (found ++ ps).Pairwise fun p q => p.sameAs q = false :=
            h.sublist (List.Sublist.append_left (List.sublist_cons_self p ps) found)
          rw [if_neg Bool.false_ne_true, List.filter_cons_of_neg (by simp [hp]), ih hrest]

/-- The style files that are found are the candidates that are files. -/
theorem styleFilesAbove_eq_filter {p start : Path}
    (h : ((searchStart p).run cwd t).value = some start) :
    t.styleFilesAbove cwd p = (styleFileCandidates start).filter (t.isFile cwd) := by
  rw [styleFilesAbove_of_start h]
  exact foldl_keepFile (pairwise_styleFileCandidates start)

end FileTree

/-! ## style files in directories -/

/-- What a style file sets, if it can be read and is a valid layer. -/
def File.layer? (f : File) : Option Style.Layer :=
  if f.readable then (decodeText? f.content).bind Style.Layer.ofToml? else none

namespace FileTree

variable {t : FileTree} {cwd : Place}

/-- The style file in a directory, if there is one. -/
def styleFileIn (t : FileTree) (d : Place) : Option File := t.file? (d ++ [styleFileName])

/-- The style that the style files in some directories write, the farthest
directory first, if they can be read and make a valid style. -/
def styleFrom (t : FileTree) (ds : List Place) : Option Style :=
  ((ds.filterMap t.styleFileIn).mapM File.layer?).bind fun ls =>
    (ls.foldl Style.overlay Style.standard).checked.toOption

/-- A candidate beside the path `a` is a file in the directory `d`. -/
structure LooksInto (t : FileTree) (cwd : Place) (a : Path) (d : Place) : Prop where
  directory : t.IsDirectoryAt d
  resolve_eq : t.resolve cwd (a.join styleFileName) = t.walk d [styleFileName]

theorem LooksInto.isFile_eq {a : Path} {d : Place} (h : t.LooksInto cwd a d) :
    t.isFile cwd (a.join styleFileName) = (t.styleFileIn d).isSome := by
  rw [isFile, h.resolve_eq, walk_name h.directory.node?_eq isName_styleFileName, styleFileIn, file?]
  cases hnode : t.node? (d ++ [styleFileName]) with
  | none => rfl
  | some n =>
      rw [Option.isSome_some, if_pos rfl, walk]
      simp only [file?, hnode]

theorem LooksInto.toOption_layerAt {a : Path} {d : Place} (h : t.LooksInto cwd a d) {f : File}
    (hf : t.styleFileIn d = some f) :
    (t.layerAt cwd (a.join styleFileName)).toOption = f.layer? := by
  have hnode : t.node? (d ++ [styleFileName]) = some (.file f) := by
    rw [styleFileIn, file?] at hf
    split at hf
    · next g hg => rw [hg, Option.some.inj hf]
    · contradiction
  have hread : t.read cwd (a.join styleFileName) =
      if f.readable then .ok f.content else .error .permissionDenied := by
    rw [read, h.resolve_eq, walk_name h.directory.node?_eq isName_styleFileName, hnode]
    simp only [Option.isSome_some, if_true, walk, bind, Except.bind, hnode]
  rw [layerAt, hread, File.layer?]
  cases f.readable with
  | false => rfl
  | true =>
      simp only [if_true, layerOf, readText]
      cases decodeText? f.content with
      | none => rfl
      | some text =>
          simp only [Option.bind_some]
          cases Style.Layer.ofToml? text with
          | none => rfl
          | some l => rfl

/-- The layers that are loaded are those of the style files in the
directories. -/
theorem mapM_toOption_layerAt {as : List Path} {ds : List Place}
    (h : List.Forall₂ (t.LooksInto cwd) as ds) :
    ((as.map fun a => a.join styleFileName).filter (t.isFile cwd)).mapM
        (fun c => (t.layerAt cwd c).toOption) =
      (ds.filterMap t.styleFileIn).mapM File.layer? := by
  induction h with
  | nil => rfl
  | @cons a d as ds hlooks _ ih =>
      have hfile := hlooks.isFile_eq
      cases hd : t.styleFileIn d with
      | none =>
          rw [hd, Option.isSome_none] at hfile
          rw [List.map_cons, List.filter_cons_of_neg (by simp [hfile]),
            List.filterMap_cons_none hd, ih]
      | some f =>
          rw [hd, Option.isSome_some] at hfile
          rw [List.map_cons, List.filter_cons_of_pos hfile, List.filterMap_cons_some hd,
            List.mapM_cons, List.mapM_cons, hlooks.toOption_layerAt hd, ih]

/-- **What is loaded** is the style of the directories that are looked into. -/
theorem toOption_load {p start : Path} (hstart : ((searchStart p).run cwd t).value = some start)
    {ds : List Place} (h : List.Forall₂ (t.LooksInto cwd) start.ancestors.reverse ds) :
    ((Style.load p).run cwd t).value.toOption = t.styleFrom ds := by
  rw [Style.value_load, writtenStyle, styleFilesAbove_eq_filter hstart, styleFrom,
    ← mapM_toOption_layerAt h, ← toOption_mapM]
  rw [styleFileCandidates]
  cases ((start.ancestors.reverse.map fun a => a.join styleFileName).filter
      (t.isFile cwd)).mapM (t.layerAt cwd) with
  | error e => rfl
  | ok ls => rfl

/-- **The directories of a search** that begins at a path of names are those
on the way to where the names lead. -/
theorem forall₂_looksInto {start : Path} {ns : List (List Char)}
    (htrail : start.trail = ns.map .name) (hdir : t.IsDirectoryAt (origin cwd start ++ ns)) :
    List.Forall₂ (t.LooksInto cwd) start.ancestors.reverse
      (ns.inits.map (origin cwd start ++ ·)) := by
  -- the ancestors and the beginnings of the names go in step, for their trails are the same
  have hinj : Function.Injective Component.name := fun _ _ h => Component.name.inj h
  have htrails : start.ancestors.reverse.map Path.trail = ns.inits.map (List.map .name) := by
    rw [Path.map_trail_ancestors, htrail, List.map_inits]
  rw [← List.forall₂_eq_eq_eq, List.forall₂_map_left_iff, List.forall₂_map_right_iff] at htrails
  have hall := (List.forall₂_and_left _ _).2 ⟨fun a ha => ha, htrails⟩
  rw [List.forall₂_map_right_iff]
  refine hall.imp fun a e hae => ?_
  obtain ⟨ha, hae⟩ := hae
  have he : e <+: ns := by
    have hmem : a.trail ∈ start.ancestors.reverse.map Path.trail := List.mem_map_of_mem ha
    rw [Path.map_trail_ancestors, List.mem_inits, htrail, hae] at hmem
    exact (List.prefix_map_iff_of_injective hinj).1 hmem
  have horigin : origin cwd a = origin cwd start := by
    rw [origin, origin, (Path.of_mem_ancestors (List.mem_reverse.1 ha)).1]
  have hd := hdir.above ((List.prefix_append_right_inj _).2 he)
  refine ⟨hd, ?_⟩
  have hwalk : t.walk (origin cwd start) e = .ok (origin cwd start ++ e) := by
    have hroot := hdir.above (List.prefix_append _ ns)
    have hall := hd.walk_eq
    rwa [walk_append, hroot.walk_eq] at hall
  rw [resolve_join_of_trail t cwd hae isName_styleFileName, horigin, walk_append, hwalk]
  rfl

end FileTree

end ChainIndent
