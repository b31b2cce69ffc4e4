import ChainIndent.Proofs.Loading
import Mathlib.Data.List.Forall2
import Mathlib.Data.List.Induction

/-!
# ChainIndent.Proofs.Layers

The style that is loaded, told field by field, and the files that are read for
it.

1. A style has eleven fields.  Each of them is `Style.get` of the style and
   `Layer.get?` of a layer, and laying a layer over a style does the same to
   all of them (`get_overlay`).
2. Of layers that are laid over the standard style one after the other, the
   nearest that sets a field wins (`get_foldl_overlay_eq_iff`), so what a
   farther one gives to that field does not matter (`foldl_overlay_hidden`).
3. Style files are read in order, up to the first that cannot be used
   (`reads_applyFiles_append`, `mapM_eq_error_iff`).
4. Only the style that all of them make is checked, none in between
   (`writtenStyle_eq_ok_iff`, `writtenStyle_eq_error_iff`).
-/

namespace ChainIndent

namespace Style

/-! ## fields -/

/-- A field of a style. -/
inductive Field where
  | baseIndent
  | indentChar
  | indentWidth
  | signature
  | headerLines
  | commentPrefix
  | indentMarkers
  | dedentMarkers
  | verbatimStart
  | verbatimEnd
  | regionEndPrefix
  deriving DecidableEq, Repr

/-- What a field holds. -/
def Field.Value : Field → Type
  | .baseIndent | .indentWidth | .headerLines => Nat
  | .indentMarkers | .dedentMarkers => List (List Char)
  | .indentChar | .signature | .commentPrefix | .verbatimStart | .verbatimEnd
  | .regionEndPrefix => List Char

def get (s : Style) : (f : Field) → f.Value
  | .baseIndent => s.baseIndent
  | .indentChar => s.indentChar
  | .indentWidth => s.indentWidth
  | .signature => s.signature
  | .headerLines => s.headerLines
  | .commentPrefix => s.commentPrefix
  | .indentMarkers => s.indentMarkers
  | .dedentMarkers => s.dedentMarkers
  | .verbatimStart => s.verbatimStart
  | .verbatimEnd => s.verbatimEnd
  | .regionEndPrefix => s.regionEndPrefix

def Layer.get? (l : Layer) : (f : Field) → Option f.Value
  | .baseIndent => l.baseIndent
  | .indentChar => l.indentChar
  | .indentWidth => l.indentWidth
  | .signature => l.signature
  | .headerLines => l.headerLines
  | .commentPrefix => l.commentPrefix
  | .indentMarkers => l.indentMarkers
  | .dedentMarkers => l.dedentMarkers
  | .verbatimStart => l.verbatimStart
  | .verbatimEnd => l.verbatimEnd
  | .regionEndPrefix => l.regionEndPrefix

/-- A style is nothing but its fields. -/
theorem eq_of_get_eq {s s' : Style} (h : ∀ f, s.get f = s'.get f) : s = s' := by
  cases s
  cases s'
  simp only [mk.injEq]
  exact ⟨h .baseIndent, h .indentChar, h .indentWidth, h .signature, h .headerLines,
    h .commentPrefix, h .indentMarkers, h .dedentMarkers, h .verbatimStart, h .verbatimEnd,
    h .regionEndPrefix⟩

/-- Every field is laid over in the same way. -/
theorem get_overlay (s : Style) (l : Layer) (f : Field) :
    (s.overlay l).get f = (l.get? f).getD (s.get f) := by
  cases f <;> rfl

/-! ## layers on layers -/

/-- The value of a field in the nearest layer that sets it, or the standard
one if none does.  The nearest layer is the last. -/
inductive Nearest (ls : List Layer) (f : Field) : f.Value → Prop
  | set {front back : List Layer} {l : Layer} {v : f.Value} (hls : ls = front ++ l :: back)
      (hl : l.get? f = some v) (hback : ∀ m ∈ back, m.get? f = none) : Nearest ls f v
  | standard (hls : ∀ l ∈ ls, l.get? f = none) : Nearest ls f (standard.get f)

theorem get_foldl_overlay (s : Style) (ls : List Layer) (f : Field) :
    (ls.foldl overlay s).get f = (ls.reverse.findSome? (·.get? f)).getD (s.get f) := by
  induction ls using List.reverseRecOn with
  | nil => rfl
  | append_singleton ls l ih =>
      rw [List.foldl_concat, get_overlay, ih, List.reverse_concat, List.findSome?_cons]
      cases l.get? f with
      | none => rfl
      | some v => rfl

/-- **The nearest layer wins**, field by field. -/
theorem get_foldl_overlay_eq_iff {ls : List Layer} {f : Field} {v : f.Value} :
    (ls.foldl overlay standard).get f = v ↔ Nearest ls f v := by
  rw [get_foldl_overlay]
  constructor
  · rintro rfl
    cases h : ls.reverse.findSome? (·.get? f) with
    | none => exact .standard (by simpa using h)
    | some v =>
        obtain ⟨back, l, front, hls, hl, hback⟩ := List.findSome?_eq_some_iff.1 h
        rw [List.reverse_eq_iff, List.reverse_append, List.reverse_cons] at hls
        exact .set (by rw [hls, List.append_assoc]; rfl) hl (by simpa using hback)
  · intro h
    cases h with
    | @set front back l v hls hl hback =>
        have hsome : ls.reverse.findSome? (·.get? f) = some v := by
          rw [List.findSome?_eq_some_iff]
          exact ⟨back.reverse, l, front.reverse, by simp [hls], hl, by simpa using hback⟩
        rw [hsome, Option.getD_some]
    | standard hls =>
        have hnone : ls.reverse.findSome? (·.get? f) = none := by simpa using hls
        rw [hnone, Option.getD_none]

/-- A style whose fields are all the nearest of some layers. -/
def MergeOf (s : Style) (ls : List Layer) : Prop := ∀ f, Nearest ls f (s.get f)

theorem mergeOf_iff {s : Style} {ls : List Layer} :
    s.MergeOf ls ↔ ls.foldl overlay standard = s := by
  simp only [MergeOf, ← get_foldl_overlay_eq_iff]
  exact ⟨eq_of_get_eq, by rintro rfl f; rfl⟩

/-- **What is overridden does not matter.** -/
theorem foldl_overlay_hidden {front back : List Layer} {far far' : Layer}
    (h : ∀ f, far.get? f ≠ far'.get? f → ∃ m ∈ back, m.get? f ≠ none) (s : Style) :
    (front ++ far :: back).foldl overlay s = (front ++ far' :: back).foldl overlay s := by
  refine eq_of_get_eq fun f => ?_
  simp only [get_foldl_overlay, List.reverse_append, List.reverse_cons, List.append_assoc,
    List.findSome?_append, List.findSome?_cons, List.findSome?_nil]
  cases hback : back.reverse.findSome? (·.get? f) with
  | some v => rfl
  | none =>
      have hfar : far.get? f = far'.get? f := by
        by_contra hne
        obtain ⟨m, hm, hset⟩ := h f hne
        exact hset (List.findSome?_eq_none_iff.1 hback m (List.mem_reverse.2 hm))
      rw [hfar]

/-- A width that no style may have is no harm under a valid one. -/
example :
    let far : Layer := { indentWidth := some 99 }
    let near : Layer := { indentWidth := some 4 }
    ¬(standard.overlay far).Valid ∧ ([far, near].foldl overlay standard).Valid := by decide

end Style

/-! ## the first failure -/

theorem mapM_eq_ok_iff {ε α β : Type} {f : α → Except ε β} {as : List α} {bs : List β} :
    as.mapM f = .ok bs ↔ List.Forall₂ (fun a b => f a = .ok b) as bs := by
  induction as generalizing bs with
  | nil => cases bs <;> simp [pure, Except.pure]
  | cons a as ih =>
      rw [List.mapM_cons, List.forall₂_cons_left_iff]
      simp only [← ih]
      cases f a with
      | error e => simp [bind, Except.bind]
      | ok b =>
          cases as.mapM f with
          | error e => simp [bind, Except.bind]
          | ok bs' => simp [bind, Except.bind, pure, Except.pure, eq_comm]

/-- A traversal fails with the first step that does. -/
theorem mapM_eq_error_iff {ε α β : Type} {f : α → Except ε β} {as : List α} {e : ε} :
    as.mapM f = .error e ↔
      ∃ front a back, as = front ++ a :: back ∧ (∀ a' ∈ front, ∃ b, f a' = .ok b) ∧
        f a = .error e := by
  induction as with
  | nil => simp [pure, Except.pure]
  | cons a as ih =>
      rw [List.mapM_cons]
      cases ha : f a with
      | error e' =>
          simp only [bind, Except.bind, Except.error.injEq]
          constructor
          · rintro rfl
            exact ⟨[], a, as, rfl, List.forall_mem_nil _, ha⟩
          · rintro ⟨front, a', back, hsplit, hfront, ha'⟩
            cases front with
            | nil => simp_all
            | cons c front => simp_all
      | ok b =>
          have herror : ((Except.ok b : Except ε β) >>= fun b => as.mapM f >>= fun bs =>
              pure (b :: bs)) = .error e ↔ as.mapM f = .error e := by
            cases as.mapM f <;> simp [bind, Except.bind, pure, Except.pure]
          rw [herror, ih]
          constructor
          · rintro ⟨front, a', back, rfl, hfront, ha'⟩
            exact ⟨a :: front, a', back, rfl, List.forall_mem_cons.2 ⟨⟨b, ha⟩, hfront⟩, ha'⟩
          · rintro ⟨front, a', back, hsplit, hfront, ha'⟩
            cases front with
            | nil => simp_all
            | cons c front =>
                rw [List.cons_append, List.cons.injEq] at hsplit
                exact ⟨front, a', back, hsplit.2, (List.forall_mem_cons.1 hfront).2, ha'⟩

/-! ## the files that are read -/

namespace Action

variable {α β : Type}

/-- The files whose content a run asks for, in order. -/
def reads (cwd : Place) : Action α → FileTree → List Path
  | .done _, _ => []
  | .report _ next, t => next.reads cwd t
  | .readFile p next, t => p :: (next (t.read cwd p)).reads cwd t
  | .writeFile p b next, t =>
    match t.write cwd p b with
    | .ok t' => (next (.ok ())).reads cwd t'
    | .error e => (next (.error e)).reads cwd t
  | .askDirectory p next, t => (next (t.isDirectory cwd p)).reads cwd t
  | .askFile p next, t => (next (t.isFile cwd p)).reads cwd t
  | .askHere next, t => (next (some cwd.path)).reads cwd t

theorem reads_bind (cwd : Place) (a : Action α) (f : α → Action β) (t : FileTree) :
    (a >>= f).reads cwd t =
      a.reads cwd t ++ (f (a.run cwd t).value).reads cwd (a.run cwd t).tree := by
  change (a.bind f).reads cwd t = _
  induction a generalizing t with
  | done x => rfl
  | report e next ih => exact ih t
  | readFile p next ih => simp only [bind, reads, run, ih, List.cons_append]
  | writeFile p b next ih =>
      simp only [bind, reads, run]
      cases t.write cwd p b with
      | ok t' => exact ih ..
      | error e => exact ih ..
  | askDirectory p next ih => exact ih ..
  | askFile p next ih => exact ih ..
  | askHere next ih => exact ih ..

end Action

theorem reads_searchStart (cwd : Place) (t : FileTree) (p : Path) :
    (searchStart p).reads cwd t = [] := by
  rw [searchStart, Action.reads_bind]
  simp only [Action.isDirectory, Action.reads, Action.run, List.nil_append]
  cases t.isDirectory cwd p with
  | true => rfl
  | false =>
      cases p.parent? with
      | none => rfl
      | some q =>
          simp only [Bool.false_eq_true, if_false]
          split
          · rfl
          · rfl

theorem reads_keepFiles (cwd : Place) (t : FileTree) (found ps : List Path) :
    (keepFiles found ps).reads cwd t = [] := by
  induction ps generalizing found with
  | nil => rfl
  | cons p ps ih =>
      rw [keepFiles, Action.reads_bind]
      simp only [Action.isFile, Action.reads, Action.run, List.nil_append]
      split
      · exact ih _
      · exact ih _

/-- Finding the style files takes no look into them. -/
theorem reads_styleFiles (cwd : Place) (t : FileTree) (p : Path) :
    (styleFiles p).reads cwd t = [] := by
  rw [styleFiles, Action.reads_bind, reads_searchStart]
  split
  · rfl
  · exact reads_keepFiles ..

namespace FileTree

/-- A style file sets the fields of a layer and no others. -/
def Sets (t : FileTree) (cwd : Place) (q : Path) (l : Style.Layer) : Prop :=
  ∃ text, t.text cwd q = .ok text ∧ Style.Layer.ofToml? text = some l

/-- A style file that cannot be used, and what is told about it. -/
inductive Unusable (t : FileTree) (cwd : Place) (q : Path) : Failure → Prop
  | unread {e : IoError} (h : t.text cwd q = .error e) : Unusable t cwd q (.styleRead q e)
  | undecoded {text : List Char} (h : t.text cwd q = .ok text)
      (hnone : Style.Layer.ofToml? text = none) : Unusable t cwd q (.styleParse q)

/-- Of some style files, the farthest first, `q` is the first that cannot be
used, behind those in `front`. -/
structure FarthestUnusable (t : FileTree) (cwd : Place) (files front : List Path) (q : Path)
    (e : Failure) : Prop where
  isPrefix : front ++ [q] <+: files
  usable : ∀ r ∈ front, ∃ l, t.Sets cwd r l
  unusable : t.Unusable cwd q e

variable {t : FileTree} {cwd : Place}

theorem layerAt_eq_error_iff {q : Path} {e : Failure} :
    t.layerAt cwd q = .error e ↔ t.Unusable cwd q e := by
  rw [layerAt, layerOf]
  constructor
  · intro h
    split at h
    · next io hio => cases h; exact .unread hio
    · next text htext =>
        split at h
        · next hnone => cases h; exact .undecoded htext hnone
        · contradiction
  · rintro (hio | ⟨htext, hnone⟩)
    · rw [text] at hio
      rw [hio]
    · rw [text] at htext
      simp only [htext, hnone]

end FileTree

namespace Style

variable {t : FileTree} {cwd : Place}

/-- Files that can be used are all read before any behind them. -/
theorem reads_applyFiles_append {front : List Path} (h : ∀ q ∈ front, ∃ l, t.Sets cwd q l)
    (s : Style) (ps : List Path) :
    ∃ s' : Style, (s.applyFiles (front ++ ps)).reads cwd t =
      front ++ (s'.applyFiles ps).reads cwd t := by
  induction front generalizing s with
  | nil => exact ⟨s, rfl⟩
  | cons q front ih =>
      rw [List.forall_mem_cons] at h
      obtain ⟨l, hl⟩ := h.1
      obtain ⟨s', hs'⟩ := ih h.2 (s.overlay l)
      have hlayer : ((readLayer q).run cwd t).value = .ok l := FileTree.layerAt_eq_ok_iff.2 hl
      refine ⟨s', ?_⟩
      rw [List.cons_append, applyFiles, Action.reads, Action.reads_bind, hlayer,
        (readOnly_readLayer q).tree_run, hs']
      rfl

theorem reads_applyFiles_of_usable {ps : List Path} (h : ∀ q ∈ ps, ∃ l, t.Sets cwd q l)
    (s : Style) : (s.applyFiles ps).reads cwd t = ps := by
  obtain ⟨s', hs'⟩ := reads_applyFiles_append h s []
  rw [List.append_nil] at hs'
  rw [hs', applyFiles, Action.reads, List.append_nil]

/-- Behind a file that cannot be used nothing is read. -/
theorem reads_applyFiles_of_unusable {ps front : List Path} {q : Path} {e : Failure}
    (h : t.FarthestUnusable cwd ps front q e) (s : Style) :
    (s.applyFiles ps).reads cwd t = front ++ [q] := by
  obtain ⟨⟨back, rfl⟩, husable, hq⟩ := h
  rw [List.append_assoc]
  obtain ⟨s', hs'⟩ := reads_applyFiles_append husable s ([q] ++ back)
  have hlayer : ((readLayer q).run cwd t).value = .error e :=
    FileTree.layerAt_eq_error_iff.2 hq
  rw [hs', List.singleton_append, applyFiles, Action.reads, Action.reads_bind, hlayer]
  rfl

theorem reads_load (p : Path) :
    (load p).reads cwd t = (standard.applyFiles (t.styleFilesAbove cwd p)).reads cwd t := by
  have hfiles := readOnly_styleFiles p
  rw [load, Action.reads_bind, reads_styleFiles, hfiles.tree_run, ← FileTree.styleFilesAbove,
    Action.reads_bind]
  split
  · simp [Action.reads, pure]
  · simp [Action.reads, pure]

/-! ## the style that is loaded -/

theorem writtenStyle_eq_ok_iff {p : Path} {s : Style} :
    t.writtenStyle cwd p = .ok s ↔
      ∃ ls, List.Forall₂ (t.Sets cwd) (t.styleFilesAbove cwd p) ls ∧ s.MergeOf ls := by
  have hsets : t.Sets cwd = fun q l => t.layerAt cwd q = .ok l := by
    funext q l
    rw [FileTree.layerAt_eq_ok_iff, FileTree.Sets]
  simp only [hsets, ← mapM_eq_ok_iff, mergeOf_iff, FileTree.writtenStyle]
  cases (t.styleFilesAbove cwd p).mapM (t.layerAt cwd) with
  | error e => simp [Except.map]
  | ok ls => simp [Except.map]

theorem writtenStyle_eq_error_iff {p : Path} {e : Failure} :
    t.writtenStyle cwd p = .error e ↔
      ∃ front q, t.FarthestUnusable cwd (t.styleFilesAbove cwd p) front q e := by
  have hmap : t.writtenStyle cwd p = .error e ↔
      (t.styleFilesAbove cwd p).mapM (t.layerAt cwd) = .error e := by
    rw [FileTree.writtenStyle]
    cases (t.styleFilesAbove cwd p).mapM (t.layerAt cwd) <;> simp [Except.map]
  rw [hmap, mapM_eq_error_iff]
  constructor
  · rintro ⟨front, q, back, hsplit, hfront, hq⟩
    exact ⟨front, q, ⟨back, by simp [hsplit]⟩,
      fun r hr => (hfront r hr).imp fun l hl => FileTree.layerAt_eq_ok_iff.1 hl,
      FileTree.layerAt_eq_error_iff.1 hq⟩
  · rintro ⟨front, q, ⟨back, hsplit⟩, husable, hq⟩
    exact ⟨front, q, back, by simp [← hsplit],
      fun r hr => (husable r hr).imp fun l hl => FileTree.layerAt_eq_ok_iff.2 hl,
      FileTree.layerAt_eq_error_iff.2 hq⟩

theorem checked_eq_error_iff {s : Style} {e : Failure} :
    s.checked = .error e ↔ ∃ problem, s.problem? = some problem ∧ e = .invalidStyle problem := by
  rw [checked]
  cases s.problem? with
  | none => simp
  | some problem => simp [eq_comm]

/-- **Loading** merges the style files above a path, field by field.

It succeeds exactly when every file can be used and the style they make
together is valid.  Otherwise it tells about the farthest file that cannot be
used, and has not looked at a nearer one, or about the first problem of the
style that all files make.  No style in between is checked: what a far file
gives to fields that nearer ones set makes no difference. -/
theorem load_merges_layers (t : FileTree) (cwd : Place) (p : Path) :
    (∀ s, ((load p).run cwd t).value = .ok s ↔
      ∃ ls, List.Forall₂ (t.Sets cwd) (t.styleFilesAbove cwd p) ls ∧ s.MergeOf ls ∧ s.Valid) ∧
    (∀ e, ((load p).run cwd t).value = .error e ↔
      (∃ front q, t.FarthestUnusable cwd (t.styleFilesAbove cwd p) front q e) ∨
      ∃ ls, ∃ s : Style, List.Forall₂ (t.Sets cwd) (t.styleFilesAbove cwd p) ls ∧ s.MergeOf ls ∧
        ∃ problem, s.problem? = some problem ∧ e = .invalidStyle problem) ∧
    (∀ front q e, t.FarthestUnusable cwd (t.styleFilesAbove cwd p) front q e →
      (load p).reads cwd t = front ++ [q]) ∧
    ((∀ q ∈ t.styleFilesAbove cwd p, ∃ l, t.Sets cwd q l) →
      (load p).reads cwd t = t.styleFilesAbove cwd p) ∧
    (∀ front far far' back,
      List.Forall₂ (t.Sets cwd) (t.styleFilesAbove cwd p) (front ++ far :: back) →
      (∀ f, far.get? f ≠ far'.get? f → ∃ m ∈ back, m.get? f ≠ none) →
      ((load p).run cwd t).value = ((front ++ far' :: back).foldl overlay standard).checked) := by
  refine ⟨fun s => ?_, fun e => ?_, fun front q e h => ?_, fun h => ?_,
    fun front far far' back hsets hhidden => ?_⟩
  · simp only [value_load_eq_ok_iff, writtenStyle_eq_ok_iff, exists_and_right, ← and_assoc]
  · rw [value_load, ← writtenStyle_eq_error_iff]
    have hinvalid : (∃ ls, ∃ s : Style,
        List.Forall₂ (t.Sets cwd) (t.styleFilesAbove cwd p) ls ∧ s.MergeOf ls ∧
          ∃ problem, s.problem? = some problem ∧ e = .invalidStyle problem) ↔
        ∃ s, t.writtenStyle cwd p = .ok s ∧ s.checked = .error e := by
      simp only [writtenStyle_eq_ok_iff, checked_eq_error_iff]
      grind
    rw [hinvalid]
    cases t.writtenStyle cwd p with
    | error e' => simp [Except.bind]
    | ok s => simp [Except.bind]
  · rw [reads_load, reads_applyFiles_of_unusable h]
  · rw [reads_load, reads_applyFiles_of_usable h]
  · have hwritten := writtenStyle_eq_ok_iff.2 ⟨_, hsets, mergeOf_iff.2 rfl⟩
    rw [value_load, hwritten, foldl_overlay_hidden hhidden]
    rfl

/-- The far file asks for a width that no style may have, and is not obeyed. -/
theorem load_merges_layers_far_width :
    let t : FileTree :=
      ⟨[([styleFileName], .file { content := encodeText "indent_width = 99\n".toList }),
        (["work".toList], .directory),
        (["work".toList, styleFileName],
          .file { content := encodeText "indent_width = 4\n".toList })]⟩
    let p : Path := ⟨"/work".toList⟩
    ¬{ standard with indentWidth := 99 : Style }.Valid ∧
      ((load p).run [] t).value = .ok { standard with indentWidth := 4 } ∧
      (load p).reads [] t = [⟨"/fluent-indent.toml".toList⟩,
        ⟨"/work/fluent-indent.toml".toList⟩] := by
  intro t p
  have hparent : p.parent? = some ⟨['/']⟩ := by decide
  have hcandidates : styleFileCandidates p =
      [⟨"/fluent-indent.toml".toList⟩, ⟨"/work/fluent-indent.toml".toList⟩] := by
    rw [styleFileCandidates, Path.ancestors_of_parent?_eq_some hparent,
      Path.ancestors_of_parent?_eq_none (by decide)]
    decide
  have hstart : ((searchStart p).run [] t).value = some p := rfl
  have hfiles : t.styleFilesAbove [] p =
      [⟨"/fluent-indent.toml".toList⟩, ⟨"/work/fluent-indent.toml".toList⟩] := by
    rw [FileTree.styleFilesAbove_of_start hstart, hcandidates]
    rfl
  have hfar : t.Sets [] ⟨"/fluent-indent.toml".toList⟩ { indentWidth := some 99 } :=
    ⟨_, FileTree.text_eq_ok_iff.2 ⟨_, _, rfl, rfl, decodeText?_encodeText _⟩, by decide +kernel⟩
  have hnear : t.Sets [] ⟨"/work/fluent-indent.toml".toList⟩ { indentWidth := some 4 } :=
    ⟨_, FileTree.text_eq_ok_iff.2 ⟨_, _, rfl, rfl, decodeText?_encodeText _⟩, by decide +kernel⟩
  obtain ⟨hok, -, -, hreads, -⟩ := load_merges_layers t [] p
  rw [hfiles] at hok hreads
  have hmerged := (hok { standard with indentWidth := 4 }).2
    ⟨_, .cons hfar (.cons hnear .nil), mergeOf_iff.2 rfl, by decide⟩
  exact ⟨by decide, hmerged, hreads (by simpa using ⟨⟨_, hfar⟩, ⟨_, hnear⟩⟩)⟩

end Style

end ChainIndent
