import ChainIndent.InPlace
import ChainIndent.Words
import ChainIndent.Proofs.Lossless
import Mathlib.Algebra.Group.Nat.Defs
import Mathlib.Data.List.Flatten

/-!
# ChainIndent.Proofs.Overflow

Counting in 64-bit words is counting, for a valid style and a text that fits
into memory.

1. What is counted is bounded by what was read.  A line raises the level by one
   at most and changes the balance by no more than its characters
   (`Context.Within.after`), so behind some lines the level is at most the base
   and their number, and the balance at most the number of their characters
   (`within_contextBefore`).
2. What was read is bounded by the bytes of the text: every line costs a
   character that is not in it, but for the last (`length_flatten_add_length_le`),
   and every character a byte (`length_le_size_encodeText`).
3. While every context fits into words, a run in words is the run
   (`run_stepInWords`).

The counts are the line numbers, the level, the balance and the tally.  How much
memory to reserve for a line or a text is computed too, but it is only a hint
and not among them.

The limits of a valid style enter twice, and both are needed: as the base of the
level, and as the number of header lines that the search adds to a line number.
-/

namespace ChainIndent

/-! ## what a line can change -/

theorem natAbs_netBraces_le (l : List Char) : (netBraces l).natAbs ≤ l.length := by
  have hopening : l.count '{' ≤ l.length := List.count_le_length
  have hclosing : l.count '}' ≤ l.length := List.count_le_length
  rw [netBraces]
  omega

/-- What a context can have counted behind so many lines with so many
characters. -/
structure Context.Within (c : Context) (lines chars : Nat) : Prop where
  base_le_level : c.base ≤ c.level
  level_le : c.level ≤ c.base + lines
  natAbs_balance_le : c.balance.natAbs ≤ chars

theorem Context.Within.after {c : Context} {lines chars : Nat} (h : c.Within lines chars)
    (k : LineKind) (net : Int) : (c.after k net).Within (lines + 1) (chars + net.natAbs) := by
  obtain ⟨level, inCallback, balance, base⟩ := c
  obtain ⟨hbase, hlevel, hbalance⟩ := h
  simp only at hbase hlevel hbalance
  constructor <;> cases k <;> cases inCallback <;>
    simp only [Context.after, opened, closed] <;> omega

/-! ## what fits into words -/

/-- A number that a signed word can hold. -/
def FitsSigned (n : Int) : Prop := Int64.minValue.toInt ≤ n ∧ n ≤ Int64.maxValue.toInt

theorem fitsSigned_of_natAbs_lt {n : Int} (h : n.natAbs < 2 ^ 63) : FitsSigned n := by
  have hmin : Int64.minValue.toInt = -9223372036854775808 := by decide
  have hmax : Int64.maxValue.toInt = 9223372036854775807 := by decide
  rw [FitsSigned, hmin, hmax]
  omega

/-- A context that words can hold. -/
structure Context.FitsWords (c : Context) : Prop where
  level_lt : c.level < UInt64.size
  balance : FitsSigned c.balance

/-- A tally that words can hold. -/
structure Tally.FitsWords (t : Tally) : Prop where
  reindentedLines_lt : t.reindentedLines < UInt64.size
  verbatimLines_lt : t.verbatimLines < UInt64.size
  verbatimBlocks_lt : t.verbatimBlocks < UInt64.size

theorem Context.Within.fitsWords {c : Context} {lines chars : Nat} (h : c.Within lines chars)
    (hlines : c.base + lines < UInt64.size) (hchars : chars < 2 ^ 63) : c.FitsWords where
  level_lt := Nat.lt_of_le_of_lt h.level_le hlines
  balance := fitsSigned_of_natAbs_lt (Nat.lt_of_le_of_lt h.natAbs_balance_le hchars)

theorem Context.FitsWords.inWords_eq {c : Context} (h : c.FitsWords) : c.inWords = c := by
  rw [inWords, unsignedWord_of_lt h.level_lt, signedWord_of_bounds h.balance.1 h.balance.2]

theorem Tally.FitsWords.inWords_eq {t : Tally} (h : t.FitsWords) : t.inWords = t := by
  rw [inWords, unsignedWord_of_lt h.reindentedLines_lt, unsignedWord_of_lt h.verbatimLines_lt,
    unsignedWord_of_lt h.verbatimBlocks_lt]

/-! ## what a text can hold -/

theorem length_joinLines (ls : List Line) :
    (joinLines ls).length = ls.flatten.length + ls.length := by
  induction ls with
  | nil => rfl
  | cons l ls ih =>
      rw [joinLines_cons, List.length_append, List.length_cons, ih, List.flatten_cons,
        List.length_append, List.length_cons]
      omega

theorem length_flatten_map_chomp_le (ps : List Line) :
    (ps.map chomp).flatten.length ≤ ps.flatten.length := by
  induction ps with
  | nil => exact Nat.le_refl 0
  | cons p ps ih =>
      have hstart := chomp_prefix p
      have hchomp := hstart.length_le
      rw [List.map_cons, List.flatten_cons, List.flatten_cons, List.length_append,
        List.length_append]
      omega

/-- The characters of the lines and the lines are as many as the characters of
the text, and one more if the last line is not ended. -/
theorem length_flatten_add_length_le (t : List Char) :
    (splitLines t).flatten.length + (splitLines t).length ≤ t.length + 1 := by
  have hpieces : (joinLines (pieces t)).length ≤ t.length + 1 := by
    rcases joinLines_pieces t with h | h <;> rw [h] <;> simp
  rw [length_joinLines] at hpieces
  have hchomp := length_flatten_map_chomp_le (pieces t)
  rw [splitLines, List.length_map]
  omega

theorem length_le_size_encodeText (t : List Char) : t.length ≤ (encodeText t).size := by
  rw [encodeText, String.toUTF8_eq_toByteArray, String.toByteArray_ofList]
  induction t with
  | nil => exact Nat.zero_le _
  | cons c t ih =>
      have hc := c.utf8Size_pos
      rw [List.utf8Encode_cons, ByteArray.size_append, List.utf8Encode_singleton,
        List.size_toByteArray, String.length_utf8EncodeChar, List.length_cons]
      omega

namespace Style

variable {s : Style}

/-! ## runs -/

theorem within_start (s : Style) : s.start.Within 0 0 :=
  ⟨Nat.le_refl s.baseIndent, Nat.le_refl s.baseIndent, Nat.le_refl 0⟩

theorem within_step {c : Context} {lines chars : Nat} (h : c.Within lines chars) (l : Line) :
    (s.step c l).after.Within (lines + 1) (chars + l.length) := by
  have hafter := h.after (s.kindOf l) (netBraces (trimStart l))
  have hnet := natAbs_netBraces_le (trimStart l)
  have htrim := (trimStart_suffix l).length_le
  exact ⟨hafter.base_le_level, hafter.level_le, Nat.le_trans hafter.natAbs_balance_le (by omega)⟩

/-- Behind `n` lines a context has counted no more than those lines hold. -/
theorem within_contextBefore (s : Style) {ls : List Line} {n : Nat} (hn : n ≤ ls.length) :
    (s.contextBefore ls n).Within n (ls.take n).flatten.length := by
  induction n with
  | zero => exact within_start s
  | succ n ih =>
      have hline : ls[n]? = some ls[n] := List.getElem?_eq_getElem hn
      have hstep := within_step (s := s) (ih (Nat.le_of_succ_le hn)) ls[n]
      rw [← contextBefore_succ hline] at hstep
      rw [List.take_add_one, hline, Option.toList_some, List.flatten_append, List.flatten_singleton,
        List.length_append]
      exact hstep

/-- While every context fits into words, a run in words is the run. -/
theorem run_stepInWords {c : Context} {ls : List Line}
    (h : ∀ t ∈ run s.step c ls, t.after.FitsWords) :
    run s.stepInWords c ls = run s.step c ls := by
  induction ls generalizing c with
  | nil => rfl
  | cons l ls ih =>
      rw [run_cons, List.forall_mem_cons] at h
      have hstep : s.stepInWords c l = s.step c l := by rw [stepInWords, h.1.inWords_eq]
      rw [run_cons, run_cons, hstep, ih h.2]

theorem steps_inWords {ls : List Line} (h : ∀ n ≤ ls.length, (s.contextBefore ls n).FitsWords) :
    run s.stepInWords s.start ls = s.steps ls := by
  refine run_stepInWords fun t ht => ?_
  obtain ⟨i, hi⟩ := List.mem_iff_getElem?.1 ht
  rw [← steps, getElem?_steps] at hi
  obtain ⟨raw, hraw, rfl⟩ := Option.map_eq_some_iff.1 hi
  rw [← contextBefore_succ hraw]
  exact h (i + 1) (List.getElem?_eq_some_iff.1 hraw).1

theorem reindentInWords_eq {ls : List Line} (hrun : run s.stepInWords s.start ls = s.steps ls)
    (htally : (s.reindent ls).tally.FitsWords) : s.reindentInWords ls = s.reindent ls := by
  rw [reindentInWords, hrun, ← reindent, htally.inWords_eq]

/-! ## regions -/

theorem length_body_locate_le (s : Style) (ls : List Line) :
    (s.locate ls).body.length ≤ ls.length ∧
      (s.locate ls).body.flatten.length ≤ ls.flatten.length := by
  have hbody : (s.locate ls).body <:+: ls := ⟨_, _, locate_append s ls⟩
  exact ⟨hbody.length_le, hbody.sublist.flatten.length_le⟩

theorem start_le_of_signatureLine? (hs : s.Valid) {ls : List Line} {i : Nat}
    (h : s.signatureLine? ls = some i) : i + 1 + s.headerLines ≤ ls.length + 8 := by
  have hlen : i < ls.length := (List.findIdx?_eq_some_iff_getElem.1 h).1
  have hheader : s.headerLines ≤ 8 := hs.headerLines_le
  omega

theorem locateInWords_eq {ls : List Line}
    (h : ∀ i, s.signatureLine? ls = some i → i + 1 + s.headerLines < UInt64.size) :
    s.locateInWords ls = s.locate ls := by
  cases hline : s.signatureLine? ls with
  | none => rw [locateInWords, locate_of_none hline, hline]
  | some i =>
      rw [locateInWords, hline, locate_of_some hline]
      exact congrArg (s.cutAt ls i) (unsignedWord_of_lt (h i hline))

/-! ## all counts -/

/-- All that is counted behind `n` lines: it is bounded by what those lines hold,
and fits into words. -/
structure CountsFit (s : Style) (ls : List Line) (n : Nat) : Prop where
  level_le : (s.contextBefore ls n).level ≤ 32 + n
  natAbs_balance_le : (s.contextBefore ls n).balance.natAbs ≤ (ls.take n).flatten.length
  context : (s.contextBefore ls n).FitsWords
  reindentedLines_le : (s.reindent (ls.take n)).tally.reindentedLines ≤ n
  verbatimLines_le : (s.reindent (ls.take n)).tally.verbatimLines ≤ n
  verbatimBlocks_le : (s.reindent (ls.take n)).tally.verbatimBlocks ≤ n
  tally : (s.reindent (ls.take n)).tally.FitsWords

/-- A counter of a tally counts some of the steps. -/
theorem countP_steps_take_le (s : Style) (ls : List Line) (n : Nat) (p : Step → Bool) :
    (s.steps (ls.take n)).countP p ≤ n :=
  calc
    (s.steps (ls.take n)).countP p ≤ (s.steps (ls.take n)).length := List.countP_le_length
    _ = (ls.take n).length := length_run ..
    _ ≤ n := List.length_take_le n ls

theorem countsFit (hs : s.Valid) {ls : List Line} (hlines : ls.length ≤ 2 ^ 62)
    (hchars : ls.flatten.length ≤ 2 ^ 62) {n : Nat} (hn : n ≤ ls.length) : s.CountsFit ls n := by
  have hsize : UInt64.size = 18446744073709551616 := rfl
  have hwithin := within_contextBefore s hn
  have hbase : (s.contextBefore ls n).base ≤ 32 := by
    rw [base_contextBefore]
    exact hs.baseIndent_le
  have htake : (ls.take n).flatten.length ≤ ls.flatten.length :=
    (List.take_sublist n ls).flatten.length_le
  have hcount := countP_steps_take_le s ls n
  have hword : ∀ p : Step → Bool, (s.steps (ls.take n)).countP p < UInt64.size := fun p =>
    Nat.lt_of_le_of_lt (hcount p) (by omega)
  exact {
    level_le := Nat.le_trans hwithin.level_le (Nat.add_le_add_right hbase n)
    natAbs_balance_le := hwithin.natAbs_balance_le
    context := hwithin.fitsWords (by omega) (by omega)
    reindentedLines_le := hcount _
    verbatimLines_le := hcount _
    verbatimBlocks_le := hcount _
    tally := ⟨hword _, hword _, hword _⟩ }

/-- **No count overflows**: with a valid style and a text of less than 2 ^ 62 bytes,
the place where the region begins, and all that is counted behind each of its
lines and each character of them, fits into 64-bit words.  So the region, the
run over its lines and the report on it are the same in words. -/
theorem counts_fit_words (hs : s.Valid) {text : List Char}
    (htext : (encodeText text).size < 2 ^ 62) :
    let ls := splitLines text
    let body := (s.locate ls).body
    (∀ i, s.signatureLine? ls = some i → i + 1 + s.headerLines ≤ ls.length + 8) ∧
      ls.length + 8 < UInt64.size ∧
      (∀ n ≤ body.length, s.CountsFit body n) ∧
      (∀ l ∈ body, ∀ p, p <+: trimStart l → FitsSigned (netBraces p)) ∧
      s.locateInWords ls = s.locate ls ∧
      run s.stepInWords s.start body = s.steps body ∧
      s.reindentInWords body = s.reindent body := by
  intro ls body
  have hsize : UInt64.size = 18446744073709551616 := rfl
  have hbytes := length_le_size_encodeText text
  have hheld : ls.flatten.length + ls.length ≤ text.length + 1 := length_flatten_add_length_le text
  obtain ⟨hlines, hchars⟩ : body.length ≤ ls.length ∧ body.flatten.length ≤ ls.flatten.length :=
    length_body_locate_le s ls
  have hcounts : ∀ n ≤ body.length, s.CountsFit body n := fun n hn =>
    countsFit hs (by omega) (by omega) hn
  have hrun : run s.stepInWords s.start body = s.steps body :=
    steps_inWords fun n hn => (hcounts n hn).context
  have htally := (hcounts body.length (Nat.le_refl _)).tally
  rw [List.take_length] at htally
  refine ⟨fun i => start_le_of_signatureLine? hs, by omega, hcounts, fun l hl p hp => ?_,
    locateInWords_eq fun i hi => ?_, hrun, reindentInWords_eq hrun htally⟩
  · have hbraces := natAbs_netBraces_le p
    have hprefix := hp.length_le
    have htrim := (trimStart_suffix l).length_le
    have hline : l.length ≤ body.flatten.length := (List.sublist_flatten_of_mem hl).length_le
    exact fitsSigned_of_natAbs_lt (by omega)
  · have hstart := start_le_of_signatureLine? hs hi
    omega

/-- Both limits are reached, and the lines behind the header lines raise the level
and open braces. -/
theorem counts_fit_words_limits :
    let s : Style := { baseIndent := 32, headerLines := 8 }
    let text := "func buildRootCommand()\n1\n2\n3\n4\n5\n6\n7\n8\n".toList ++
      joinLines ["Flag(".toList, "Handler(func ".toList ++ ['{', '{'], [' ', '{']]
    let body := (s.locate (splitLines text)).body
    (s.Valid ∧ (encodeText text).size < 2 ^ 62) ∧
      (s.signatureLine? (splitLines text) = some 0 ∧ 0 + 1 + 8 ≤ (splitLines text).length + 8) ∧
      (body.length = 3 ∧ s.CountsFit body 3 ∧
        s.contextBefore body 3 = ⟨33, true, 3, 32⟩ ∧ (body.take 3).flatten.length = 22) ∧
      s.locateInWords (splitLines text) = s.locate (splitLines text) ∧
      s.reindentInWords body = s.reindent body := by
  intro s text body
  have hs : s.Valid := by decide
  have htext : (encodeText text).size < 2 ^ 62 := by decide
  have hline : s.signatureLine? (splitLines text) = some 0 := by decide
  have hlen : body.length = 3 := by decide
  obtain ⟨hstart, -, hcounts, -, hlocate, -, hreindent⟩ := counts_fit_words hs htext
  exact ⟨⟨hs, htext⟩, ⟨hline, hstart 0 hline⟩,
    ⟨hlen, hcounts 3 (Nat.le_of_eq hlen.symm), by decide, by decide⟩, hlocate, hreindent⟩

/-- Without the limit on header lines the place where the region begins can wrap
around, and then the region holds the line of the signature. -/
example :
    let s : Style := { headerLines := 18446744073709551615 }
    let ls := ["func buildRootCommand()".toList, "Flag(".toList]
    (s.locateInWords ls).body = ls ∧ (s.locate ls).body = [] := by
  decide

end Style

end ChainIndent
