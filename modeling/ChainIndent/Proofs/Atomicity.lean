import ChainIndent.CommandLine
import ChainIndent.Proofs.FileRun
import ChainIndent.Proofs.Loading

/-!
# ChainIndent.Proofs.Atomicity

A run succeeds and writes at most the one file it was called for, or it fails
and writes nothing.

1. Which runs fail is told by the arguments and the tree alone (`Fails`): the
   arguments do not name one file, a style file above it holds no layer, the
   style that they write together is not valid, or the file cannot be
   formatted where it is (`Style.FileFails`).
2. Until the file is written, a run only reads (`Style.readOnly_load`), and
   writing is the last thing it does.  So a failure leaves the tree as it was
   found, and a file that needs no change is not written.

`formatting_atomic` puts both together, for a file and for the whole program.
-/

namespace ChainIndent

namespace CommandLine

/-! ## arguments -/

/-- Arguments that name one file.  One `--` may stand beside it, and has to if
the file is called so. -/
inductive Operand : List (List Char) → List Char → Prop
  | alone {a : List Char} (ha : a ≠ []) (hne : a ≠ ['-', '-']) : Operand [a] a
  | behind {a : List Char} (ha : a ≠ []) : Operand [['-', '-'], a] a
  | before {a : List Char} (ha : a ≠ []) : Operand [a, ['-', '-']] a

theorem parse_of_erase_eq {args : List (List Char)} {a : List Char} (ha : a ≠ [])
    (h : args.erase ['-', '-'] = [a]) : parse args = .ok ⟨a⟩ := by
  simp only [parse, h, if_neg ha]

theorem parse_of_operand {args : List (List Char)} {a : List Char} (h : Operand args a) :
    parse args = .ok ⟨a⟩ := by
  cases h with
  | alone ha hne => exact parse_of_erase_eq ha (by simp [hne])
  | behind ha => exact parse_of_erase_eq ha (by simp)
  | before ha =>
      refine parse_of_erase_eq ha ?_
      by_cases hdash : a = ['-', '-']
      · simp [hdash]
      · simp [hdash]

theorem erase_eq_of_parse {args : List (List Char)} {a : List Char} (h : parse args = .ok ⟨a⟩) :
    args.erase ['-', '-'] = [a] ∧ a ≠ [] := by
  unfold parse at h
  split at h
  · contradiction
  · next b hb =>
      split at h
      · contradiction
      · next hne =>
          cases h
          exact ⟨hb, hne⟩
  · contradiction

theorem operand_of_parse {args : List (List Char)} {a : List Char} (h : parse args = .ok ⟨a⟩) :
    Operand args a := by
  obtain ⟨herase, ha⟩ := erase_eq_of_parse h
  by_cases hdash : ['-', '-'] ∈ args
  · obtain ⟨before, after, -, rfl, hrest⟩ := List.exists_erase_eq hdash
    rw [hrest, List.append_eq_singleton_iff] at herase
    obtain ⟨rfl, rfl⟩ | ⟨rfl, rfl⟩ := herase
    · exact .behind ha
    · exact .before ha
  · rw [List.erase_of_not_mem hdash] at herase
    subst herase
    exact .alone ha fun heq => hdash (by simp [heq])

theorem parse_eq_ok_iff {args : List (List Char)} {a : List Char} :
    parse args = .ok ⟨a⟩ ↔ Operand args a :=
  ⟨operand_of_parse, parse_of_operand⟩

/-! ## runs -/

variable {cwd : Place} {t : FileTree} {p : Path} {s : Style}

/-- Without a style nothing more is done. -/
theorem run_format_of_error {e : Failure} (h : ((Style.load p).run cwd t).value = .error e) :
    ((format p).run cwd t).value = .error { during := some (.loadingStyle p), failure := e } ∧
      ((format p).run cwd t).tree = t := by
  have hload := Style.readOnly_load p
  rw [format, Action.value_run_bind hload, Action.tree_run_bind hload, h]
  exact ⟨rfl, rfl⟩

/-- Reporting an outcome leaves the answer and the tree alone. -/
theorem run_reportDone (cwd : Place) (t : FileTree) (p : Path) (r : Except Diagnosis Outcome) :
    ((reportDone p r).run cwd t).value = r ∧ ((reportDone p r).run cwd t).tree = t := by
  cases r with
  | error d => exact ⟨rfl, rfl⟩
  | ok o => exact ⟨rfl, rfl⟩

/-- With its style, the file is formatted in the tree as it was found. -/
theorem run_format_of_ok (h : ((Style.load p).run cwd t).value = .ok s) :
    ((format p).run cwd t).value = ((s.formatFile p).run cwd t).value ∧
      ((format p).run cwd t).tree = ((s.formatFile p).run cwd t).tree := by
  have hload := Style.readOnly_load p
  rw [format, Action.value_run_bind hload, Action.tree_run_bind hload, h]
  show (((s.formatFile p).bind (reportDone p)).run cwd t).value = _ ∧
    (((s.formatFile p).bind (reportDone p)).run cwd t).tree = _
  rw [Action.run_bind]
  exact run_reportDone cwd _ p _

theorem run_program_of_ok (cwd : Place) (t : FileTree) {args : List (List Char)}
    (h : parse args = .ok p) :
    ((program args).run cwd t).value = exitOf p ((format p).run cwd t).value ∧
      ((program args).run cwd t).tree = ((format p).run cwd t).tree := by
  have hrun : (program args).run cwd t =
      ((format p).bind fun r => .done (exitOf p r)).run cwd t := by
    rw [program, h]
    rfl
  rw [hrun, Action.run_bind]
  exact ⟨rfl, rfl⟩

/-- Why a file cannot be formatted with the style that is written for it. -/
inductive FormatFails (cwd : Place) (t : FileTree) (p : Path) : Prop
  | styleFile {q : Path} (hq : q ∈ t.styleFilesAbove cwd p)
      (h : ∀ text, t.text cwd q = .ok text → Style.Layer.ofToml? text = none)
  | file {s : Style} (hs : t.writtenStyle cwd p = .ok s) (h : s.FileFails cwd t p)

/-- Why a run fails. -/
inductive Fails (cwd : Place) (t : FileTree) (args : List (List Char)) : Prop
  | arguments (h : ∀ a, ¬ Operand args a)
  | format {a : List Char} (ha : Operand args a) (h : FormatFails cwd t ⟨a⟩)

theorem forall_layerAt_ne_ok_iff {q : Path} :
    (∀ l, t.layerAt cwd q ≠ .ok l) ↔
      ∀ text, t.text cwd q = .ok text → Style.Layer.ofToml? text = none := by
  constructor
  · intro h text htext
    rw [Option.eq_none_iff_forall_ne_some]
    exact fun l hl => h l (FileTree.layerAt_eq_ok_iff.2 ⟨text, htext, hl⟩)
  · intro h l hl
    obtain ⟨text, htext, hsome⟩ := FileTree.layerAt_eq_ok_iff.1 hl
    rw [h text htext] at hsome
    contradiction

theorem formatFails_iff (hs : t.writtenStyle cwd p = .ok s) :
    FormatFails cwd t p ↔ s.FileFails cwd t p := by
  refine ⟨fun h => ?_, .file hs⟩
  cases h with
  | styleFile hq hnone =>
      obtain ⟨l, hl⟩ := FileTree.exists_writtenStyle_iff.1 ⟨s, hs⟩ _ hq
      exact absurd hl (forall_layerAt_ne_ok_iff.2 hnone l)
  | file hs' h =>
      cases hs.symm.trans hs'
      exact h

theorem exists_error_format_iff :
    (∃ d, ((format p).run cwd t).value = .error d) ↔ FormatFails cwd t p := by
  cases hload : ((Style.load p).run cwd t).value with
  | error e =>
      refine iff_of_true ⟨_, (run_format_of_error hload).1⟩ ?_
      -- either the style is written but not valid, or some style file holds no layer
      by_cases hwritten : ∃ s, t.writtenStyle cwd p = .ok s
      · obtain ⟨s, hs⟩ := hwritten
        refine .file hs (.invalidStyle fun hvalid => ?_)
        rw [Style.value_load_eq_ok_iff.2 ⟨hs, hvalid⟩] at hload
        contradiction
      · simp only [FileTree.exists_writtenStyle_iff, not_forall, not_exists] at hwritten
        obtain ⟨q, hq, hlayer⟩ := hwritten
        exact .styleFile hq (forall_layerAt_ne_ok_iff.1 hlayer)
  | ok s =>
      obtain ⟨hs, -⟩ := Style.value_load_eq_ok_iff.1 hload
      rw [(run_format_of_ok hload).1, (Style.formatsFile_run s cwd t p).exists_error_iff,
        formatFails_iff hs]

theorem tree_format_of_error {d : Diagnosis} (h : ((format p).run cwd t).value = .error d) :
    ((format p).run cwd t).tree = t := by
  cases hload : ((Style.load p).run cwd t).value with
  | error e => exact (run_format_of_error hload).2
  | ok s =>
      obtain ⟨hvalue, htree⟩ := run_format_of_ok hload
      rw [hvalue] at h
      rw [htree]
      exact (Style.formatsFile_run s cwd t p).tree_eq (by simp [h])

end CommandLine

/-! ## all or nothing -/

/-- What formatting a file where it is does and leaves alone. -/
structure Style.FormatsAtomically (s : Style) (cwd : Place) (t : FileTree) (p : Path) : Prop where
  /-- Without the answer that the file has changed, nothing has. -/
  kept : ((s.formatFile p).run cwd t).value ≠ .ok .changed → ((s.formatFile p).run cwd t).tree = t
  /-- A file that cannot be read or has to be written and cannot be, or a style
  that is not valid: these failures and no others. -/
  failed_iff : (∃ d, ((s.formatFile p).run cwd t).value = .error d) ↔ s.FileFails cwd t p
  /-- A readable file whose text is formatted already need not be writable. -/
  unchanged_iff : ((s.formatFile p).run cwd t).value = .ok .unchanged ↔
    ∃ text, t.text cwd p = .ok text ∧ s.Valid ∧ s.formatText text = .ok text
  /-- The file then holds the formatted text, with the permissions it had, and
  everything else is as it was. -/
  changed : ((s.formatFile p).run cwd t).value = .ok .changed →
    ∃ q f text out, t.target cwd p = .ok (q, f) ∧ decodeText? f.content = some text ∧
      s.formatText text = .ok out ∧ encodeText out ≠ f.content ∧
      ((s.formatFile p).run cwd t).tree = t.replaceContent q (encodeText out) ∧
      ((s.formatFile p).run cwd t).tree.node? q =
        some (.file { f with content := encodeText out }) ∧
      ∀ q', q' ≠ q → ((s.formatFile p).run cwd t).tree.node? q' = t.node? q'
  /-- And then it is settled. -/
  again : ((s.formatFile p).run cwd t).value = .ok .changed → s.BlankIndent →
    (∀ text, t.text cwd p = .ok text → ∀ l ∈ splitLines text, l.getLast? ≠ some '\r') →
    ((s.formatFile p).run cwd ((s.formatFile p).run cwd t).tree).value = .ok .unchanged

/-- What a run of the program does and leaves alone. -/
structure CommandLine.RunsAtomically (cwd : Place) (t : FileTree) (args : List (List Char)) :
    Prop where
  failed : Fails cwd t args →
    (seen ((program args).run cwd t)).code = 1 ∧ (seen ((program args).run cwd t)).stdout = "" ∧
      ((program args).run cwd t).tree = t
  succeeded : ¬ Fails cwd t args →
    ∃ a s, Operand args a ∧ t.writtenStyle cwd ⟨a⟩ = .ok s ∧ s.Valid ∧
      (seen ((program args).run cwd t)).code = 0 ∧
      (seen ((program args).run cwd t)).stdout =
        "Fixed indentation in " ++ String.ofList a ++ "\n" ∧
      ((program args).run cwd t).tree = ((s.formatFile ⟨a⟩).run cwd t).tree ∧
      ∃ text out, t.text cwd ⟨a⟩ = .ok text ∧ s.formatText text = .ok out ∧
        ((program args).run cwd t).tree.text cwd ⟨a⟩ = .ok out

theorem Style.formatsAtomically (s : Style) (cwd : Place) (t : FileTree) (p : Path) :
    s.FormatsAtomically cwd t p where
  kept := (formatsFile_run s cwd t p).tree_eq
  failed_iff := (formatsFile_run s cwd t p).exists_error_iff
  unchanged_iff := (formatsFile_run s cwd t p).eq_unchanged_iff
  changed hchanged := by
    obtain ⟨q, f, text, out, htarget, -, -, htext, -, hout, hne, htree⟩ :=
      (formatsFile_run s cwd t p).exists_replaceContent hchanged
    obtain ⟨-, hnode⟩ := FileTree.target_eq_ok_iff.1 htarget
    refine ⟨q, f, text, out, htarget, htext, hout, encodeText_ne_of_decodeText? htext hne, htree,
      ?_, ?_⟩
    · rw [htree, FileTree.node?_replaceContent, hnode]
      simp [Node.setContent]
    · intro q' hq'
      rw [htree, FileTree.node?_replaceContent_of_ne t hq']
  again hchanged hb hclean := value_formatFile_again hb hclean hchanged

theorem CommandLine.runsAtomically (cwd : Place) (t : FileTree) (args : List (List Char)) :
    RunsAtomically cwd t args where
  failed hfails := by
    cases hfails with
    | arguments h =>
        cases hparse : parse args with
        | error e =>
            rw [program, hparse]
            exact ⟨rfl, rfl, rfl⟩
        | ok p => exact absurd (parse_eq_ok_iff.1 hparse) (h p.spelling)
    | format ha h =>
        obtain ⟨hvalue, htree⟩ := run_program_of_ok cwd t (parse_eq_ok_iff.2 ha)
        obtain ⟨d, hd⟩ := exists_error_format_iff.2 h
        rw [seen, hvalue, htree, hd]
        exact ⟨rfl, rfl, tree_format_of_error hd⟩
  succeeded hfails := by
    cases hparse : parse args with
    | error e =>
        refine absurd (.arguments fun a ha => ?_) hfails
        rw [parse_eq_ok_iff.2 ha] at hparse
        contradiction
    | ok p =>
        have ha : Operand args p.spelling := parse_eq_ok_iff.1 hparse
        have hok : ¬ ∃ d, ((format p).run cwd t).value = .error d :=
          fun hd => hfails (.format ha (exists_error_format_iff.1 hd))
        cases hload : ((Style.load p).run cwd t).value with
        | error e => exact absurd ⟨_, (run_format_of_error hload).1⟩ hok
        | ok s =>
            obtain ⟨hs, hvalid⟩ := Style.value_load_eq_ok_iff.1 hload
            obtain ⟨hvalue, htree⟩ := run_program_of_ok cwd t hparse
            obtain ⟨hvalue', htree'⟩ := run_format_of_ok hload
            rw [htree, htree', seen, hvalue]
            cases hformat : ((format p).run cwd t).value with
            | error d => exact absurd ⟨d, hformat⟩ hok
            | ok o =>
                rw [hformat] at hvalue'
                exact ⟨p.spelling, s, ha, hs, hvalid, rfl, rfl, rfl,
                  (Style.formatsFile_run s cwd t p).text_of_ok hvalue'.symm⟩

/-- **Atomicity**: formatting a file changes all of its text or nothing, and a
run of the program fails with nothing written or succeeds with that file
formatted. -/
theorem formatting_atomic (cwd : Place) (t : FileTree) :
    (∀ (s : Style) (p : Path), s.FormatsAtomically cwd t p) ∧
      ∀ args, CommandLine.RunsAtomically cwd t args :=
  ⟨fun s p => s.formatsAtomically cwd t p, CommandLine.runsAtomically cwd t⟩

/-- In a root without a style file the standard style is in force. -/
theorem writtenStyle_of_bare_root {t : FileTree} {p : Path}
    (hstart : ((searchStart p).run [] t).value = some ⟨['/']⟩)
    (hnone : t.isFile [] ⟨'/' :: styleFileName⟩ = false) :
    t.writtenStyle [] p = .ok Style.standard := by
  have hcandidates : styleFileCandidates ⟨['/']⟩ = [⟨'/' :: styleFileName⟩] := by
    rw [styleFileCandidates, Path.ancestors_of_parent?_eq_none (by decide)]
    rfl
  have hfiles : t.styleFilesAbove [] p = [] := by
    rw [FileTree.styleFilesAbove_of_start hstart, hcandidates, List.foldl_cons,
      FileTree.keepFile, hnone]
    rfl
  rw [FileTree.writtenStyle, hfiles]
  rfl

/-- Two files with the same text to format, of which one cannot be written. -/
theorem formatting_atomic_locked :
    let messy := "func buildRootCommand()\n\nArg(\n".toList
    let neat := "func buildRootCommand()\n\n\t\tArg(\n".toList
    let t : FileTree :=
      ⟨[([['a']], .file { content := encodeText messy, writable := false }),
        ([['b']], .file { content := encodeText messy })]⟩
    (CommandLine.Fails [] t [['a']] ∧
      (CommandLine.seen ((CommandLine.program [['a']]).run [] t)).code = 1 ∧
      ((CommandLine.program [['a']]).run [] t).tree = t) ∧
    (¬ CommandLine.Fails [] t [['b']] ∧
      (CommandLine.seen ((CommandLine.program [['b']]).run [] t)).code = 0 ∧
      ((CommandLine.program [['b']]).run [] t).tree.text [] ⟨['b']⟩ = .ok neat) ∧
    ((Style.standard.formatFile ⟨['b']⟩).run []
      ((Style.standard.formatFile ⟨['b']⟩).run [] t).tree).value = .ok .unchanged := by
  intro messy neat t
  have hneat : Style.standard.formatText messy = .ok neat := by decide
  have hne : Style.standard.formatText messy ≠ .ok messy := by decide
  have htext : ∀ a ∈ [['a'], ['b']], t.text [] ⟨a⟩ = .ok messy := by
    simp only [List.forall_mem_cons, FileTree.text_eq_ok_iff]
    exact ⟨⟨_, _, rfl, rfl, decodeText?_encodeText messy⟩,
      ⟨_, _, rfl, rfl, decodeText?_encodeText messy⟩, List.forall_mem_nil _⟩
  have hstyle : ∀ a ∈ [['a'], ['b']], t.writtenStyle [] ⟨a⟩ = .ok Style.standard := by
    simp only [List.forall_mem_cons]
    exact ⟨writtenStyle_of_bare_root rfl rfl, writtenStyle_of_bare_root rfl rfl,
      List.forall_mem_nil _⟩
  have hlocked : Style.standard.FileFails [] t ⟨['a']⟩ :=
    .unwritable rfl (htext _ (by simp)) hne rfl
  have hopen : ¬ Style.standard.FileFails [] t ⟨['b']⟩ := by
    intro h
    cases h with
    | unreadable h => exact h messy (htext _ (by simp))
    | invalidStyle h => exact h Style.valid_standard
    | unwritable htarget _ _ h =>
        cases htarget
        exact Bool.noConfusion h
  have hfails : CommandLine.Fails [] t [['a']] :=
    .format (.alone (by simp) (by simp)) (.file (hstyle _ (by simp)) hlocked)
  have hsucceeds : ¬ CommandLine.Fails [] t [['b']] := by
    intro h
    cases h with
    | arguments h => exact h ['b'] (.alone (by simp) (by simp))
    | format ha h =>
        cases ha
        exact hopen ((CommandLine.formatFails_iff (hstyle _ (by simp))).1 h)
  have hread : t.text [] ⟨['b']⟩ = .ok messy := htext _ (by simp)
  obtain ⟨hfile, hrun⟩ := formatting_atomic [] t
  obtain ⟨hcode, -, htree⟩ := (hrun [['a']]).failed hfails
  obtain ⟨a, s, ha, hs, -, hcode', -, -, text, out, htext', hout, hout'⟩ :=
    (hrun [['b']]).succeeded hsucceeds
  cases ha
  cases (hstyle _ (by simp)).symm.trans hs
  cases hread.symm.trans htext'
  cases hneat.symm.trans hout
  have hchanged : ((Style.standard.formatFile ⟨['b']⟩).run [] t).value = .ok .changed := by
    cases hvalue : ((Style.standard.formatFile ⟨['b']⟩).run [] t).value with
    | error d => exact absurd ((hfile _ _).failed_iff.1 ⟨d, hvalue⟩) hopen
    | ok o =>
        cases o with
        | changed => rfl
        | unchanged =>
            obtain ⟨text, htext, -, hfixed⟩ := (hfile _ _).unchanged_iff.1 hvalue
            cases hread.symm.trans htext
            exact absurd hfixed hne
  have hclean : ∀ text, t.text [] ⟨['b']⟩ = .ok text →
      ∀ l ∈ splitLines text, l.getLast? ≠ some '\r' := by
    intro text htext
    cases hread.symm.trans htext
    decide
  exact ⟨⟨hfails, hcode, htree⟩, ⟨hsucceeds, hcode', hout'⟩,
    (hfile _ _).again hchanged (by decide) hclean⟩

end ChainIndent
