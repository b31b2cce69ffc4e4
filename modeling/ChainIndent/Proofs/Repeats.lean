import ChainIndent.Proofs.FileRun
import ChainIndent.Proofs.Pools

/-!
# ChainIndent.Proofs.Repeats

Files that are formatted several times at once.

1. While tasks are under way, a file is as it was or as it will be
   (`Underway.target_eq`), because every write puts the formatted text of the
   first content.
2. It does, although a task may read what another one wrote
   (`Underway.text_cases`): the text that it reads then is formatted already,
   and formatting it again changes nothing (`Underway.of_read`).  A task that
   read before the other wrote puts the same text once more.
3. So every request keeps a tree that is under way so, and keeps what is
   settled (`Stage.advance`), and with the last task all listed files are
   (`Progress.formatsAll`).

The second point is where carriage returns at the ends of lines have to be
excluded: formatting such a text twice is not formatting it once.
-/

namespace ChainIndent

namespace Action

theorem bind_reportAll {α β : Type} (es : List Event) (next : Action α) (f : α → Action β) :
    (reportAll es next).bind f = reportAll es (next.bind f) := by
  induction es with
  | nil => rfl
  | cons e es ih => exact congrArg (Action.report e) ih

end Action

namespace FileTree

/-- The path names a file that has a text and may be written. -/
structure Formattable (t : FileTree) (cwd : Place) (p : Path) (q : Place) (f : File)
    (text : List Char) : Prop where
  target : t.target cwd p = .ok (q, f)
  readable : f.readable = true
  writable : f.writable = true
  decode : decodeText? f.content = some text

/-- No line of a listed file ends in a carriage return. -/
def CleanTexts (t : FileTree) (cwd : Place) (ps : List Path) : Prop :=
  ∀ p ∈ ps, ∀ text, t.text cwd p = .ok text → ∀ l ∈ splitLines text, l.getLast? ≠ some '\r'

end FileTree

namespace Style

/-! ## tasks -/

/-- Format one file and tell which. -/
def formatTask (s : Style) (p : Path) : Action (Path × Except Diagnosis Outcome) :=
  (s.formatFile p).bind fun r => .done (p, r)

variable {s : Style} {cwd : Place} {t t' : FileTree} {p p' : Path} {q q' : Place} {f f' : File}
  {text : List Char} {ps : List Path}

/-! ## the files that come out -/

/-- The file with its text formatted, if it has one and may be written. -/
def formattedFile (s : Style) (f : File) : File :=
  if f.readable && f.writable then
    match decodeText? f.content with
    | none => f
    | some text => { f with content := encodeText (s.formatValid text).text }
  else f

theorem formattedFile_of_open (s : Style) (hr : f.readable = true) (hw : f.writable = true)
    (htext : decodeText? f.content = some text) :
    s.formattedFile f = { f with content := encodeText (s.formatValid text).text } := by
  simp [formattedFile, hr, hw, htext]

/-- A file is left alone if it may not be read or written, or has no text. -/
theorem formattedFile_of_closed (s : Style)
    (h : f.readable = true → f.writable = true → decodeText? f.content = none) :
    s.formattedFile f = f := by
  rw [formattedFile]
  split
  · next hopen =>
      obtain ⟨hr, hw⟩ := Bool.and_eq_true_iff.1 hopen
      rw [h hr hw]
  · rfl

@[simp] theorem readable_formattedFile (s : Style) (f : File) :
    (s.formattedFile f).readable = f.readable := by
  rw [formattedFile]
  split
  · cases decodeText? f.content <;> rfl
  · rfl

@[simp] theorem writable_formattedFile (s : Style) (f : File) :
    (s.formattedFile f).writable = f.writable := by
  rw [formattedFile]
  split
  · cases decodeText? f.content <;> rfl
  · rfl

/-! ## trees on the way -/

/-- Some of the listed files have been formatted, each once or more often. -/
inductive Underway (s : Style) (cwd : Place) (ps : List Path) (t : FileTree) : FileTree → Prop
  | start : Underway s cwd ps t t
  | write {t' : FileTree} {p : Path} {q : Place} {f : File} {text : List Char}
      (h : Underway s cwd ps t t') (hp : p ∈ ps) (hf : t.Formattable cwd p q f text) :
      Underway s cwd ps t (t'.replaceContent q (encodeText (s.formatValid text).text))

/-- The path names a file that is formatted now, or none. -/
def Settled (s : Style) (cwd : Place) (t : FileTree) (p : Path) (t' : FileTree) : Prop :=
  ∀ q f, t.target cwd p = .ok (q, f) → t'.target cwd p = .ok (q, s.formattedFile f)

/-- What a path sees of a file that is formatted, maybe once more. -/
theorem target_write {g : File} (hf : t.target cwd p = .ok (q, f))
    (hf' : t.Formattable cwd p' q' f' text) (hg : t'.target cwd p = .ok (q, g))
    (hreadable : g.readable = f.readable) (hwritable : g.writable = f.writable) :
    (t'.replaceContent q' (encodeText (s.formatValid text).text)).target cwd p =
      .ok (q, if q = q' then s.formattedFile f else g) := by
  rw [FileTree.target_replaceContent, hg]
  by_cases hq : q = q'
  · subst hq
    obtain rfl := FileTree.file_eq_of_target hf hf'.target
    simp [Except.map, formattedFile_of_open s hf'.readable hf'.writable hf'.decode, hreadable,
      hwritable]
  · simp [Except.map, hq]

theorem Settled.write (h : s.Settled cwd t p t') (hf' : t.Formattable cwd p' q' f' text) :
    s.Settled cwd t p (t'.replaceContent q' (encodeText (s.formatValid text).text)) := by
  intro q f hf
  rw [target_write hf hf' (h q f hf) (readable_formattedFile s f) (writable_formattedFile s f),
    ite_self]

namespace Underway

theorem names_iff (h : s.Underway cwd ps t t') : t'.Names cwd p q ↔ t.Names cwd p q := by
  induction h with
  | start => rfl
  | write _ _ _ ih => rw [FileTree.names_replaceContent_iff, ih]

/-- A file on the way is as it was or as it will be. -/
theorem target_eq (h : s.Underway cwd ps t t') (hf : t.target cwd p = .ok (q, f)) :
    t'.target cwd p = .ok (q, f) ∨ t'.target cwd p = .ok (q, s.formattedFile f) := by
  induction h with
  | start => exact .inl hf
  | @write t' p' q' f' text _ _ hf' ih =>
      obtain ih | ih := ih
      · rw [target_write hf hf' ih rfl rfl]
        split
        · exact .inr rfl
        · exact .inl rfl
      · rw [target_write hf hf' ih (readable_formattedFile s f) (writable_formattedFile s f),
          ite_self]
        exact .inr rfl

theorem settled_write (h : s.Underway cwd ps t t') (hf : t.Formattable cwd p q f text) :
    s.Settled cwd t p (t'.replaceContent q (encodeText (s.formatValid text).text)) := by
  intro q' f' hf'
  cases hf.target.symm.trans hf'
  obtain hg | hg := h.target_eq hf'
  · rw [target_write hf' hf hg rfl rfl, if_pos rfl]
  · rw [target_write hf' hf hg (readable_formattedFile s f) (writable_formattedFile s f),
      if_pos rfl]

/-- Permissions stay. -/
theorem exists_target (h : s.Underway cwd ps t t') (hf : t.target cwd p = .ok (q, f)) :
    ∃ g, t'.target cwd p = .ok (q, g) ∧ g.writable = f.writable := by
  obtain hg | hg := h.target_eq hf
  · exact ⟨f, hg, rfl⟩
  · exact ⟨s.formattedFile f, hg, writable_formattedFile s f⟩

/-- Nothing happens where no listed path leads. -/
theorem node?_eq (h : s.Underway cwd ps t t') (hq : ∀ p ∈ ps, ¬ t.Names cwd p q) :
    t'.node? q = t.node? q := by
  induction h with
  | start => rfl
  | @write t' p' q' f' text _ hp hf' ih =>
      have hne : q ≠ q' := fun heq => hq p' hp ⟨f', by rw [heq, hf'.target]⟩
      rw [FileTree.node?_replaceContent_of_ne t' hne, ih]

theorem settled_of_closed (h : s.Underway cwd ps t t')
    (hclosed : ∀ q f, t.target cwd p = .ok (q, f) →
      f.readable = true → f.writable = true → decodeText? f.content = none) :
    s.Settled cwd t p t' := by
  intro q f hf
  have hsame := h.target_eq hf
  rw [formattedFile_of_closed s (hclosed q f hf), or_self] at hsame
  rw [formattedFile_of_closed s (hclosed q f hf), hsame]

/-- A file that cannot be read is left as it is. -/
theorem settled_of_unread (h : s.Underway cwd ps t t') {e : IoError}
    (hread : t'.text cwd p = .error e) : s.Settled cwd t p t' := by
  refine h.settled_of_closed fun q f hf hr hw => ?_
  cases htext : decodeText? f.content with
  | none => rfl
  | some text =>
      have hsome : ∃ out, t'.text cwd p = .ok out := by
        obtain hf' | hf' := h.target_eq hf
        · exact ⟨text, FileTree.text_eq_ok_iff.2 ⟨q, f, hf', hr, htext⟩⟩
        · rw [formattedFile_of_open s hr hw htext] at hf'
          exact ⟨_, FileTree.text_eq_ok_iff.2 ⟨q, _, hf', hr, decodeText?_encodeText _⟩⟩
      obtain ⟨out, hout⟩ := hsome
      rw [hread] at hout
      contradiction

/-- So is a file that cannot be written. -/
theorem settled_of_unwritten (h : s.Underway cwd ps t t') {b : ByteArray} {e : IoError}
    (hwrite : t'.write cwd p b = .error e) : s.Settled cwd t p t' := by
  refine h.settled_of_closed fun q f hf _ hw => ?_
  obtain ⟨g, hg, hgf⟩ := h.exists_target hf
  rw [FileTree.write_eq, hg] at hwrite
  simp [Except.bind, hgf, hw] at hwrite

end Underway

/-- A file whose text is formatted already comes out as it is. -/
theorem formattedFile_of_fixed (htext : decodeText? f.content = some text)
    (hfixed : (s.formatValid text).text = text) : s.formattedFile f = f := by
  rw [formattedFile]
  split
  · rw [htext]
    simp only [hfixed, encodeText_of_decodeText? htext]
  · rfl

theorem formatValid_text_formatValid (hs : s.Valid) (hb : s.BlankIndent)
    (hclean : ∀ l ∈ splitLines text, l.getLast? ≠ some '\r') :
    (s.formatValid (s.formatValid text).text).text = (s.formatValid text).text := by
  have hagain := formatText_formatText hs hb hclean (formatText_of_valid hs text)
  rw [formatText_of_valid hs] at hagain
  exact Except.ok.inj hagain

/-- The text that is read on the way is the first one, or the one that was
formatted for it. -/
theorem Underway.text_cases {text' : List Char} (h : s.Underway cwd ps t t')
    (hread : t'.text cwd p = .ok text') :
    ∃ q f text, t.target cwd p = .ok (q, f) ∧ f.readable = true ∧
      decodeText? f.content = some text ∧
      (text' = text ∧ t'.target cwd p = .ok (q, f) ∨
        text' = (s.formatValid text).text ∧ t'.target cwd p = .ok (q, s.formattedFile f)) := by
  obtain ⟨q, g, hg, hr, htext'⟩ := FileTree.text_eq_ok_iff.1 hread
  obtain ⟨f, hf⟩ : t.Names cwd p q := h.names_iff.1 ⟨g, hg⟩
  by_cases hsame : g = f
  · subst hsame
    exact ⟨q, g, text', hf, hr, htext', .inl ⟨rfl, hg⟩⟩
  · obtain rfl : g = s.formattedFile f := by
      obtain hg' | hg' := h.target_eq hf
      · cases hg.symm.trans hg'
        exact absurd rfl hsame
      · cases hg.symm.trans hg'
        rfl
    rw [readable_formattedFile] at hr
    obtain ⟨hw, text, htext⟩ : f.writable = true ∧ ∃ text, decodeText? f.content = some text := by
      by_contra hclosed
      refine hsame (formattedFile_of_closed s fun _ hw => ?_)
      rw [Option.eq_none_iff_forall_ne_some]
      exact fun text htext => hclosed ⟨hw, text, htext⟩
    rw [formattedFile_of_open s hr hw htext, decodeText?_encodeText] at htext'
    exact ⟨q, f, text, hf, hr, htext, .inr ⟨(Option.some.inj htext').symm, hg⟩⟩

/-- Read early or late, a text leads to the same formatted text; and if it is
formatted when it is read, so is the file. -/
theorem Underway.of_read {text' : List Char} (hs : s.Valid) (hb : s.BlankIndent)
    (hclean : t.CleanTexts cwd ps) (h : s.Underway cwd ps t t') (hp : p ∈ ps)
    (hread : t'.text cwd p = .ok text') :
    ∃ q f text, t.target cwd p = .ok (q, f) ∧ f.readable = true ∧
      decodeText? f.content = some text ∧ (s.formatValid text').text = (s.formatValid text).text ∧
      ((s.formatValid text').text = text' → s.Settled cwd t p t') := by
  obtain ⟨q, f, text, hf, hr, htext, ⟨rfl, hnow⟩ | ⟨rfl, hnow⟩⟩ := h.text_cases hread
  · refine ⟨q, f, text', hf, hr, htext, rfl, fun hfixed q' f' hf' => ?_⟩
    cases hf.symm.trans hf'
    rw [formattedFile_of_fixed htext hfixed, hnow]
  · have hfirst : t.text cwd p = .ok text := FileTree.text_eq_ok_iff.2 ⟨q, f, hf, hr, htext⟩
    have hagain := formatValid_text_formatValid hs hb (hclean p hp text hfirst)
    refine ⟨q, f, text, hf, hr, htext, hagain, fun _ q' f' hf' => ?_⟩
    cases hf.symm.trans hf'
    exact hnow

/-! ## how far a task is -/

/-- A task that has read the file of its path, early or late, writes nothing
but the formatted text of what the file held in the beginning. -/
inductive Stage (s : Style) (cwd : Place) (t : FileTree) (p : Path) (t' : FileTree) :
    Action (Path × Except Diagnosis Outcome) → Prop
  | waiting : Stage s cwd t p t' (s.formatTask p)
  | report {e : Event} {next : Action (Path × Except Diagnosis Outcome)}
      (h : Stage s cwd t p t' next) : Stage s cwd t p t' (.report e next)
  | writing {q : Place} {f : File} {text : List Char}
      {next : Except IoError Unit → Action (Path × Except Diagnosis Outcome)}
      (hf : t.target cwd p = .ok (q, f)) (hr : f.readable = true)
      (htext : decodeText? f.content = some text) (hnext : ∀ x, ∃ r, next x = .done (p, r)) :
      Stage s cwd t p t' (.writeFile p (encodeText (s.formatValid text).text) next)
  | done {r : Except Diagnosis Outcome} (h : s.Settled cwd t p t') :
      Stage s cwd t p t' (.done (p, r))

variable {a a' : Action (Path × Except Diagnosis Outcome)}

namespace Stage

theorem mono {u : FileTree} (h : s.Stage cwd t p t' a)
    (hu : s.Settled cwd t p t' → s.Settled cwd t p u) : s.Stage cwd t p u a := by
  induction h with
  | waiting => exact .waiting
  | report _ ih => exact .report ih
  | writing hf hr htext hnext => exact .writing hf hr htext hnext
  | done h => exact .done (hu h)

theorem reportAll (es : List Event) (h : s.Stage cwd t p t' a) :
    s.Stage cwd t p t' (Action.reportAll es a) := by
  induction es with
  | nil => exact h
  | cons e es ih => exact .report ih

/-- What a task goes on with when it has read its file. -/
theorem of_read (hs : s.Valid) (hb : s.BlankIndent) (hclean : t.CleanTexts cwd ps)
    (h : s.Underway cwd ps t t') (hp : p ∈ ps)
    (ha : (s.formatTask p).advance cwd t' = some (a, t')) : s.Stage cwd t p t' a := by
  rw [formatTask, formatFile, Action.bind, Action.advance] at ha
  cases hread : readText (t'.read cwd p) with
  | error e =>
      simp only [hread] at ha
      cases ha
      exact .done (h.settled_of_unread hread)
  | ok text' =>
      obtain ⟨q, f, text, hf, hr, htext, hsame, hfixed⟩ := h.of_read hs hb hclean hp hread
      simp only [hread, format_of_valid hs, Action.bind_reportAll] at ha
      cases ha
      refine .reportAll _ ?_
      by_cases hout : (s.formatValid text').text = text'
      · rw [if_pos hout]
        exact .done (hfixed hout)
      · rw [if_neg hout, hsame]
        refine .writing hf hr htext fun x => ?_
        cases x with
        | error e => exact ⟨_, rfl⟩
        | ok _ => exact ⟨_, rfl⟩

/-- One request of a task: the tree is still on the way, no file that was
formatted is touched in what it holds, and the task has come further. -/
theorem advance {u : FileTree} (hs : s.Valid) (hb : s.BlankIndent)
    (hclean : t.CleanTexts cwd ps) (h : s.Underway cwd ps t t') (hp : p ∈ ps)
    (hstage : s.Stage cwd t p t' a) (ha : a.advance cwd t' = some (a', u)) :
    s.Underway cwd ps t u ∧ (∀ p', s.Settled cwd t p' t' → s.Settled cwd t p' u) ∧
      s.Stage cwd t p u a' := by
  cases hstage with
  | waiting =>
      obtain rfl : t' = u := by
        rw [formatTask, formatFile, Action.bind, Action.advance] at ha
        exact congrArg Prod.snd (Option.some.inj ha)
      exact ⟨h, fun _ => id, of_read hs hb hclean h hp ha⟩
  | report hnext =>
      cases ha
      exact ⟨h, fun _ => id, hnext⟩
  | @writing q f text next hf hr htext hnext =>
      rw [Action.advance] at ha
      cases hwrite : t'.write cwd p (encodeText (s.formatValid text).text) with
      | error e =>
          rw [hwrite] at ha
          cases ha
          obtain ⟨r, hdone⟩ := hnext (.error e)
          rw [hdone]
          exact ⟨h, fun _ => id, .done (h.settled_of_unwritten hwrite)⟩
      | ok t'' =>
          obtain ⟨g, hg, hgf⟩ := h.exists_target hf
          obtain ⟨q', g', hg', hw, rfl⟩ := FileTree.write_eq_ok_iff.1 hwrite
          cases hg.symm.trans hg'
          have hformattable : t.Formattable cwd p q f text := ⟨hf, hr, hgf ▸ hw, htext⟩
          rw [hwrite] at ha
          cases ha
          obtain ⟨r, hdone⟩ := hnext (.ok ())
          rw [hdone]
          exact ⟨h.write hp hformattable, fun p' hp' => hp'.write hformattable,
            .done (h.settled_write hformattable)⟩
  | done => cases ha

end Stage

/-! ## all tasks -/

/-- The tree and every task are on the way. -/
structure Progress (s : Style) (cwd : Place) (ps : List Path) (t : FileTree)
    (pool : Pool (Path × Except Diagnosis Outcome)) : Prop where
  underway : s.Underway cwd ps t pool.tree
  stages : List.Forall₂ (fun p a => s.Stage cwd t p pool.tree a) ps pool.tasks

theorem progress_start (s : Style) (cwd : Place) (ps : List Path) (t : FileTree) :
    s.Progress cwd ps t ⟨t, ps.map s.formatTask⟩ where
  underway := .start
  stages := by
    rw [List.forall₂_map_right_iff, List.forall₂_same]
    exact fun p _ => .waiting

theorem Progress.step {pool pool' : Pool (Path × Except Diagnosis Outcome)} (hs : s.Valid)
    (hb : s.BlankIndent) (hclean : t.CleanTexts cwd ps) (h : s.Progress cwd ps t pool)
    (hstep : Pool.Step cwd pool pool') : s.Progress cwd ps t pool' := by
  cases hstep with
  | @move t' u a a' before after ha =>
      obtain ⟨ps₁, p, ps₂, hps, hbefore, hstage, hafter⟩ := exists_append_of_forall₂ h.stages
      have hp : p ∈ ps := by rw [hps]; simp
      obtain ⟨hunderway, hsettled, hstage'⟩ := hstage.advance hs hb hclean h.underway hp ha
      -- the others stay where they are, and what they left is still there
      have hkept : ∀ r b, s.Stage cwd t r t' b → s.Stage cwd t r u b :=
        fun r b hb => hb.mono (hsettled r)
      refine ⟨hunderway, ?_⟩
      rw [hps]
      exact List.rel_append (hbefore.imp hkept) (.cons hstage' (hafter.imp hkept))

/-- What all the files are in the end. -/
structure FormatsAll (s : Style) (cwd : Place) (ps : List Path) (t t' : FileTree) : Prop where
  /-- A listed file that can be read and written holds its text formatted. -/
  formatted : ∀ p ∈ ps, ∀ q f text out, t.target cwd p = .ok (q, f) → f.readable = true →
    f.writable = true → decodeText? f.content = some text → s.formatText text = .ok out →
    t'.node? q = some (.file { f with content := encodeText out })
  /-- Another listed file is left as it was. -/
  closed : ∀ p ∈ ps, ∀ q f, t.target cwd p = .ok (q, f) →
    (f.readable = true → f.writable = true → decodeText? f.content = none) →
    t'.node? q = t.node? q
  /-- So is everything that is not listed. -/
  unlisted : ∀ q, (∀ p ∈ ps, ¬ t.Names cwd p q) → t'.node? q = t.node? q

theorem Progress.formatsAll {vs : List (Path × Except Diagnosis Outcome)} (hs : s.Valid)
    (h : s.Progress cwd ps t ⟨t', vs.map .done⟩) :
    s.FormatsAll cwd ps t t' ∧ vs.map Prod.fst = ps := by
  have hdone : List.Forall₂ (fun p v => s.Settled cwd t p t' ∧ p = v.1) ps vs := by
    refine (List.forall₂_map_right_iff.1 h.stages).imp fun p v hstage => ?_
    cases hstage with
    | done hsettled => exact ⟨hsettled, rfl⟩
  obtain ⟨hsettled, hpaths⟩ := (List.forall₂_and_left ps vs).1 hdone
  have hnode : ∀ p ∈ ps, ∀ q f, t.target cwd p = .ok (q, f) →
      t'.node? q = some (.file (s.formattedFile f)) :=
    fun p hp q f hf => (FileTree.target_eq_ok_iff.1 (hsettled p hp q f hf)).2
  have hall : s.FormatsAll cwd ps t t' :=
    { formatted := by
        intro p hp q f text out hf hr hw htext hout
        rw [formatText_of_valid hs] at hout
        rw [hnode p hp q f hf, formattedFile_of_open s hr hw htext, Except.ok.inj hout]
      closed := by
        intro p hp q f hf hclosed
        rw [hnode p hp q f hf, formattedFile_of_closed s hclosed,
          (FileTree.target_eq_ok_iff.1 hf).2]
      unlisted := fun q hq => h.underway.node?_eq hq }
  have heq : List.Forall₂ Eq ps (vs.map Prod.fst) := List.forall₂_map_right_iff.2 hpaths
  rw [List.forall₂_eq_eq_eq] at heq
  exact ⟨hall, heq.symm⟩

end Style

end ChainIndent
