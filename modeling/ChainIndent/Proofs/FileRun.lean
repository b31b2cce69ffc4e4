import ChainIndent.InPlace
import ChainIndent.Proofs.Files
import ChainIndent.Proofs.Idempotence

/-!
# ChainIndent.Proofs.FileRun

Formatting one file where it is.

* `FormatsFile` lists the five ways in which it can go, with the answer and
  the tree of each; `formatsFile_run` — there are no others.
* `FormatsFile.eq_unchanged_iff`, `FormatsFile.exists_error_iff` — which of
  them it is, told by the file, its text and the style.
* `FormatsFile.tree_eq`, `FormatsFile.exists_replaceContent` — nothing is half
  done: the tree is as it was, or the file holds the whole new text.
* `value_formatFile_again` — the file that was written is not written again.
-/

namespace ChainIndent

namespace Style

/-! ## the ways it can go -/

/-- The answer of formatting a file, and the tree it leaves. -/
inductive FormatsFile (s : Style) (cwd : Place) (t : FileTree) (p : Path) :
    Except Diagnosis Outcome → FileTree → Prop
  | unread {e : IoError} (hread : t.text cwd p = .error e) :
      FormatsFile s cwd t p (.error { failure := .read p e }) t
  | rejected {text : List Char} {problem : Problem} (hread : t.text cwd p = .ok text)
      (hbad : s.problem? = some problem) :
      FormatsFile s cwd t p
        (.error { during := some (.formatting p), failure := .invalidStyle problem }) t
  | settled {text : List Char} (hread : t.text cwd p = .ok text) (hs : s.Valid)
      (hout : s.formatText text = .ok text) :
      FormatsFile s cwd t p (.ok .unchanged) t
  | refused {text out : List Char} {e : IoError} (hread : t.text cwd p = .ok text) (hs : s.Valid)
      (hout : s.formatText text = .ok out) (hne : out ≠ text)
      (hwrite : t.write cwd p (encodeText out) = .error e) :
      FormatsFile s cwd t p (.error { failure := .write p e }) t
  | rewritten {text out : List Char} {t' : FileTree} (hread : t.text cwd p = .ok text)
      (hs : s.Valid) (hout : s.formatText text = .ok out) (hne : out ≠ text)
      (hwrite : t.write cwd p (encodeText out) = .ok t') :
      FormatsFile s cwd t p (.ok .changed) t'

theorem formatsFile_run (s : Style) (cwd : Place) (t : FileTree) (p : Path) :
    s.FormatsFile cwd t p ((s.formatFile p).run cwd t).value ((s.formatFile p).run cwd t).tree := by
  rw [formatFile, Action.run]
  cases hread : readText (t.read cwd p) with
  | error e => exact .unread hread
  | ok text =>
      cases hbad : s.problem? with
      | some problem =>
          simp only [format, hbad]
          exact .rejected hread hbad
      | none =>
          have hs : s.Valid := problem?_eq_none_iff.1 hbad
          have hout : s.formatText text = .ok (s.formatValid text).text :=
            formatText_of_valid hs text
          simp only [format, hbad, Action.run_reportAll]
          by_cases hne : (s.formatValid text).text = text
          · rw [hne] at hout
            rw [if_pos hne]
            exact .settled hread hs hout
          · rw [if_neg hne, Action.run]
            cases hwrite : t.write cwd p (encodeText (s.formatValid text).text) with
            | error e => exact .refused hread hs hout hne hwrite
            | ok t' => exact .rewritten hread hs hout hne hwrite

/-! ## what is answered, and what is left -/

variable {s : Style} {cwd : Place} {t t' : FileTree} {p : Path} {r : Except Diagnosis Outcome}

namespace FormatsFile

/-- Whether the file can be written plays no part. -/
theorem eq_unchanged_iff (h : s.FormatsFile cwd t p r t') :
    r = .ok .unchanged ↔
      ∃ text, t.text cwd p = .ok text ∧ s.Valid ∧ s.formatText text = .ok text := by
  cases h with
  | unread hread => simp [hread]
  | rejected hread hbad => simp [← problem?_eq_none_iff, hbad]
  | settled hread hs hout => exact iff_of_true rfl ⟨_, hread, hs, hout⟩
  | refused hread hs hout hne => simp [hread, hout, hne]
  | rewritten hread hs hout hne => simp [hread, hout, hne]

/-- Nothing is written unless the answer says so. -/
theorem tree_eq (h : s.FormatsFile cwd t p r t') (hr : r ≠ .ok .changed) : t' = t := by
  cases h with
  | rewritten => exact absurd rfl hr
  | _ => rfl

/-- What is written is the whole new text, and nothing else changes. -/
theorem exists_replaceContent (h : s.FormatsFile cwd t p r t') (hr : r = .ok .changed) :
    ∃ q f text out, t.target cwd p = .ok (q, f) ∧ f.readable = true ∧ f.writable = true ∧
      decodeText? f.content = some text ∧ s.Valid ∧ s.formatText text = .ok out ∧ out ≠ text ∧
      t' = t.replaceContent q (encodeText out) := by
  cases h with
  | rewritten hread hs hout hne hwrite =>
      obtain ⟨q, f, htarget, hreadable, hwritable, htext, htree⟩ :=
        FileTree.exists_target_of_text_of_write hread hwrite
      exact ⟨q, f, _, _, htarget, hreadable, hwritable, htext, hs, hout, hne, htree⟩
  | _ => nomatch hr

end FormatsFile

/-- Why a file cannot be formatted where it is. -/
inductive FileFails (s : Style) (cwd : Place) (t : FileTree) (p : Path) : Prop
  | unreadable (h : ∀ text, t.text cwd p ≠ .ok text)
  | invalidStyle (h : ¬ s.Valid)
  | unwritable {q : Place} {f : File} {text : List Char} (htarget : t.target cwd p = .ok (q, f))
      (hread : t.text cwd p = .ok text) (hout : s.formatText text ≠ .ok text)
      (h : f.writable = false)

/-- These are all the reasons, and each is enough. -/
theorem FormatsFile.exists_error_iff (h : s.FormatsFile cwd t p r t') :
    (∃ d, r = .error d) ↔ s.FileFails cwd t p := by
  cases h with
  | unread hread => exact iff_of_true ⟨_, rfl⟩ (.unreadable (by simp [hread]))
  | rejected hread hbad =>
      exact iff_of_true ⟨_, rfl⟩ (.invalidStyle (by simp [← problem?_eq_none_iff, hbad]))
  | settled hread hs hout =>
      refine iff_of_false (by simp) fun hfails => ?_
      cases hfails with
      | unreadable h => exact h _ hread
      | invalidStyle h => exact h hs
      | unwritable _ hread' hout' =>
          cases hread.symm.trans hread'
          exact hout' hout
  | @refused text out e hread hs hout hne hwrite =>
      obtain ⟨q, f, htarget, -, -⟩ := FileTree.text_eq_ok_iff.1 hread
      refine iff_of_true ⟨_, rfl⟩ (.unwritable htarget hread (by simp [hout, hne]) ?_)
      rw [FileTree.write_eq, htarget] at hwrite
      cases hw : f.writable with
      | false => rfl
      | true => simp [Except.bind, hw] at hwrite
  | @rewritten text out t' hread hs hout hne hwrite =>
      refine iff_of_false (by simp) fun hfails => ?_
      obtain ⟨q, f, htarget, hwritable, -⟩ := FileTree.write_eq_ok_iff.1 hwrite
      cases hfails with
      | unreadable h => exact h _ hread
      | invalidStyle h => exact h hs
      | unwritable htarget' _ _ h =>
          cases htarget.symm.trans htarget'
          rw [hwritable] at h
          contradiction

/-- Either way, success leaves the formatted text in the file. -/
theorem FormatsFile.text_of_ok {o : Outcome} (h : s.FormatsFile cwd t p r t') (hr : r = .ok o) :
    ∃ text out, t.text cwd p = .ok text ∧ s.formatText text = .ok out ∧
      t'.text cwd p = .ok out := by
  cases h with
  | @settled text hread hs hout => exact ⟨text, text, hread, hout, hread⟩
  | @rewritten text out _ hread hs hout hne hwrite =>
      obtain ⟨q, f, htarget, hreadable, -, -, rfl⟩ :=
        FileTree.exists_target_of_text_of_write hread hwrite
      exact ⟨text, out, hread, hout, FileTree.text_replaceContent htarget hreadable⟩
  | _ => nomatch hr

/-! ## once more -/

/-- A file that was written is settled, unless a line of it ended in a
carriage return. -/
theorem value_formatFile_again (hb : s.BlankIndent)
    (hclean : ∀ text, t.text cwd p = .ok text → ∀ l ∈ splitLines text, l.getLast? ≠ some '\r')
    (hr : ((s.formatFile p).run cwd t).value = .ok .changed) :
    ((s.formatFile p).run cwd ((s.formatFile p).run cwd t).tree).value = .ok .unchanged := by
  obtain ⟨q, f, text, out, htarget, hreadable, -, htext, hs, hout, -, htree⟩ :=
    (formatsFile_run s cwd t p).exists_replaceContent hr
  have hread : t.text cwd p = .ok text :=
    FileTree.text_eq_ok_iff.2 ⟨q, f, htarget, hreadable, htext⟩
  rw [(formatsFile_run ..).eq_unchanged_iff, htree]
  exact ⟨out, FileTree.text_replaceContent htarget hreadable, hs,
    formatText_formatText hs hb (hclean text hread) hout⟩

end Style

end ChainIndent
