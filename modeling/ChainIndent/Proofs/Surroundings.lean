import ChainIndent.Proofs.Agreement
import ChainIndent.Proofs.Boundaries
import ChainIndent.Proofs.LineEndings

/-!
# ChainIndent.Proofs.Surroundings

A function is formatted in the same way wherever it stands.

Its lines run from the signature line to the closing line.  The search for the
signature passes over all lines in front of them that do not hold it, and the
scan for the closing line ends with that line, whatever stands behind it: other
signatures, markers, callbacks that are never closed.

* `exists_functionLines` — a document whose region is followed by a line holds
  such lines;
* `locate_surrounded` — they are cut in the same places in every document;
* `layOut_surrounded` — so they are laid out as the same lines, and the lines
  around them stay.
-/

namespace ChainIndent

namespace Style

variable {s : Style}

/-- The lines from a signature line to the line that closes its function. -/
structure FunctionLines (s : Style) where
  signatureLine : Line
  header : List Line
  body : List Line
  closingLine : Line
  signature_infix : s.signature <:+: signatureLine
  length_header : header.length = s.headerLines
  /-- The scan stops at the closing line, and not before. -/
  bodyLength_eq : s.bodyLength false (body ++ [closingLine]) = body.length

namespace FunctionLines

/-- All lines, from top to bottom. -/
def lines (f : s.FunctionLines) : List Line :=
  f.signatureLine :: f.header ++ f.body ++ [f.closingLine]

/-- The lines after formatting. -/
def laidOut (f : s.FunctionLines) : List Line :=
  f.signatureLine :: f.header ++ (s.reindent f.body).lines ++ [f.closingLine]

theorem length_laidOut (f : s.FunctionLines) : f.laidOut.length = f.lines.length := by
  simp [laidOut, lines]

/-! ## other surroundings -/

variable {before : List Line}

/-- **The cut** goes with the function. -/
theorem locate_surrounded (f : s.FunctionLines) (hbefore : ∀ l ∈ before, ¬ s.signature <:+: l)
    (after : List Line) :
    s.locate (before ++ f.lines ++ after) =
      { before := before ++ f.signatureLine :: f.header
        body := f.body
        after := f.closingLine :: after
        signatureLine := some before.length } := by
  have hparts : before ++ f.lines ++ after =
      (before ++ f.signatureLine :: f.header) ++ f.body ++ f.closingLine :: after := by
    simp [lines]
  rw [hparts]
  apply locate_append_append
  · simp only [List.append_assoc, List.cons_append]
    exact signatureLine?_append_cons hbefore f.signature_infix _
  · simp only [List.length_append, List.length_cons, f.length_header]
    omega
  · have hstops := bodyLength_append_cons_eq_iff.1 f.bodyLength_eq
    exact bodyLength_append_cons_eq_iff.2 hstops

theorem layOut_surrounded (f : s.FunctionLines) (hbefore : ∀ l ∈ before, ¬ s.signature <:+: l)
    (after : List Line) :
    s.layOut (before ++ f.lines ++ after) = before ++ f.laidOut ++ after := by
  rw [layOut, f.locate_surrounded hbefore]
  simp [laidOut]

/-- What formatting does to the function, and what it reports, is the same in
all surroundings. -/
theorem formatsLines_surrounded (f : s.FunctionLines) (hs : s.Valid) (hu : '\n' ∉ s.indentChar)
    (hbefore : ∀ l ∈ before, ¬ s.signature <:+: l) {after : List Line}
    (hclean : ∀ l ∈ before ++ f.lines ++ after, CleanLine l) :
    s.FormatsLines (before ++ f.lines ++ after) (before ++ f.laidOut ++ after)
      { (s.reindent f.body).tally with regionFound := true } := by
  have hlocate := f.locate_surrounded hbefore after
  have hfound : (s.locate (before ++ f.lines ++ after)).isFound = true := by
    rw [hlocate]
    rfl
  have hformats := formatsLines_layOut hs hu hclean hfound
  rwa [f.layOut_surrounded hbefore, hlocate] at hformats

end FunctionLines

/-! ## the function of a document -/

/-- No line in front of the signature line holds the signature. -/
theorem FirstSignature.not_infix_of_mem_take {ls : List Line} {i : Nat}
    (h : s.FirstSignature ls i) : ∀ l ∈ ls.take i, ¬ s.signature <:+: l := by
  intro l hl hsig
  obtain ⟨j, hj, rfl⟩ := List.mem_take_iff_getElem.1 hl
  have hle : i ≤ j := h.2 ⟨_, List.getElem?_eq_getElem (by omega), hsig⟩
  omega

/-- A document whose region is followed by a line is a function and what stands
around it. -/
theorem exists_functionLines {ls : List Line} {i : Nat} {closing : Line} {after : List Line}
    (hi : (s.locate ls).signatureLine = some i) (hafter : (s.locate ls).after = closing :: after) :
    ∃ f : s.FunctionLines,
      f.lines = (s.locate ls).before.drop i ++ (s.locate ls).body ++ [closing] ∧
        ls.take i ++ f.lines ++ after = ls ∧ ∀ l ∈ ls.take i, ¬ s.signature <:+: l := by
  rw [signatureLine_locate] at hi
  have hfirst := signatureLine?_eq_some_iff.1 hi
  obtain ⟨l, hl, hsig⟩ := hfirst.1
  have hscan := bodyLength_locate s ls
  have hwhole := locate_append s ls
  have hbefore : (s.locate ls).before = ls.take (i + 1 + s.headerLines) := by
    rw [locate_of_some hi, cutAt]
  -- the closing line stands behind all header lines, so none of them is missing
  have hlong : i + 1 + s.headerLines < ls.length := by
    have hrest : (s.locate ls).after ≠ [] := by simp [hafter]
    rw [locate_of_some hi, cutAt] at hrest
    simp only [ne_eq, List.drop_eq_nil_iff, List.length_drop] at hrest
    omega
  have hhead : (s.locate ls).before.drop i = l :: (ls.drop (i + 1)).take s.headerLines := by
    obtain ⟨hlen, hget⟩ := List.getElem?_eq_some_iff.1 hl
    rw [hbefore, List.drop_take, List.drop_eq_getElem_cons hlen, hget,
      show i + 1 + s.headerLines - i = s.headerLines + 1 by omega, List.take_succ_cons]
  have hfront : ls.take i = (s.locate ls).before.take i := by
    rw [hbefore, List.take_take, Nat.min_eq_left (by omega)]
  rw [hafter, bodyLength_append_cons_eq_iff] at hscan
  let f : s.FunctionLines :=
    { signatureLine := l
      header := (ls.drop (i + 1)).take s.headerLines
      body := (s.locate ls).body
      closingLine := closing
      signature_infix := hsig
      length_header := by simp only [List.length_take, List.length_drop]; omega
      bodyLength_eq := bodyLength_append_cons_eq_iff.2 hscan }
  have hlines : f.lines = (s.locate ls).before.drop i ++ (s.locate ls).body ++ [closing] := by
    rw [hhead]
    rfl
  refine ⟨f, hlines, ?_, hfirst.not_infix_of_mem_take⟩
  have hsplit := List.take_append_drop i (s.locate ls).before
  calc
    ls.take i ++ f.lines ++ after
      = ((s.locate ls).before.take i ++ (s.locate ls).before.drop i) ++ (s.locate ls).body ++
          closing :: after := by
        simp only [hlines, hfront, List.append_assoc, List.singleton_append]
    _ = ls := by rw [hsplit, ← hafter, hwhole]

/-- **Surroundings do not matter**: whatever lines without the signature stand
before a function, and whatever lines stand after it, its lines become the same
lines, the others stay, and the tally is the same. -/
theorem formatsLines_surroundings (hs : s.Valid) (hu : '\n' ∉ s.indentChar) {ls : List Line}
    (hls : ∀ l ∈ ls, CleanLine l) {i : Nat} (hi : (s.locate ls).signatureLine = some i)
    {closing : Line} {after : List Line} (hafter : (s.locate ls).after = closing :: after) :
    let before := ls.take i
    let core := (s.locate ls).before.drop i ++ (s.locate ls).body ++ [closing]
    before ++ core ++ after = ls ∧
      ∃ laidOut tally, laidOut.length = core.length ∧
        s.FormatsLines ls (before ++ laidOut ++ after) tally ∧
        ∀ before' after' : List Line, (∀ l ∈ before', CleanLine l ∧ ¬ s.signature <:+: l) →
          (∀ l ∈ after', CleanLine l) →
            s.FormatsLines (before' ++ core ++ after') (before' ++ laidOut ++ after') tally := by
  intro before core
  obtain ⟨f, hlines, hwhole, hbefore⟩ := exists_functionLines hi hafter
  have hclean : ∀ l ∈ before ++ f.lines ++ after, CleanLine l := by rwa [hwhole]
  have hformats := f.formatsLines_surrounded hs hu hbefore hclean
  rw [hwhole] at hformats
  rw [show core = f.lines from hlines.symm]
  refine ⟨hwhole, f.laidOut, _, f.length_laidOut, hformats, ?_⟩
  intro before' after' hbefore' hafter'
  refine f.formatsLines_surrounded hs hu (fun l hl => (hbefore' l hl).2) fun l hl => ?_
  simp only [List.mem_append] at hl
  obtain (hl | hl) | hl := hl
  · exact (hbefore' l hl).1
  · exact hclean l (by simp [hl])
  · exact hafter' l hl

/-- A function moved in front of another one with a callback that is never
closed, and behind a line that looks like an opener. -/
theorem formatsLines_surroundings_second_function :
    let closing := standard.regionEndPrefix
    let core := ["func buildRootCommand() ".toList ++ ['{'], "return".toList,
      "Handler(func".toList, closing, standard.verbatimEnd, closing]
    let ls := "// x".toList :: core ++ ["y".toList]
    let before' := ["Handler(func".toList]
    let after' := ["func buildRootCommand()".toList, [], " Flag(".toList, "Handler(func".toList]
    (standard.Valid ∧ '\n' ∉ standard.indentChar ∧ (∀ l ∈ ls, CleanLine l) ∧
        (standard.locate ls).signatureLine = some 1 ∧
        (standard.locate ls).after = [closing, "y".toList]) ∧
      ∃ laidOut tally, laidOut.length = 6 ∧
        standard.FormatsLines ls (["// x".toList] ++ laidOut ++ ["y".toList]) tally ∧
        standard.FormatsLines (before' ++ core ++ after') (before' ++ laidOut ++ after') tally := by
  intro closing core ls before' after'
  have hu : '\n' ∉ standard.indentChar := by decide
  have hls : ∀ l ∈ ls, CleanLine l := by decide
  have hi : (standard.locate ls).signatureLine = some 1 := by decide
  have hafter : (standard.locate ls).after = [closing, "y".toList] := by decide
  have hcore : (standard.locate ls).before.drop 1 ++ (standard.locate ls).body ++
      [closing] = core := by decide
  have hbefore' : ∀ l ∈ before', CleanLine l ∧ ¬ standard.signature <:+: l := by
    simp only [← occursIn_iff]
    decide
  obtain ⟨-, laidOut, tally, hlength, hhere, hthere⟩ :=
    formatsLines_surroundings valid_standard hu hls hi hafter
  rw [hcore] at hlength hthere
  exact ⟨⟨valid_standard, hu, hls, hi, hafter⟩, laidOut, tally, hlength, hhere,
    hthere before' after' hbefore' (by decide)⟩

end Style

end ChainIndent
