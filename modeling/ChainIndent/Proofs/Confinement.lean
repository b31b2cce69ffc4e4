import ChainIndent.Proofs.Effect

/-!
# ChainIndent.Proofs.Confinement

Formatting is confined to one function: from the function's closing line on
nothing is touched, nor is anything up to its last header line.

The scan for the closing line begins behind the header lines, and so does its
count of callbacks.  A closing line among the lines behind the header is found
all the same, because a callback that the scan sees open is open indeed
(`length_before_add_body_le`).  One among the header lines themselves is not:
they are never looked at, and the region runs on into the next function
(`formatText_not_confined_by_header`).
-/

namespace ChainIndent

namespace Style

/-- Line `e` closes the function whose signature stands in line `i`: it starts
with the end prefix, holds no closer of callbacks, and stands outside the
callbacks opened behind line `i`. -/
structure ClosesFunction (s : Style) (ls : List Line) (i e : Nat) : Prop where
  behind : i < e
  closing : ∃ l, ls[e]? = some l ∧ s.regionEndPrefix <+: l ∧ ¬ s.verbatimEnd <:+: l
  outside : ¬ InsideCallbackFrom (i + 1) (s.kinds ls) e

/-- Behind line `start`, callbacks are open as they are in the rest. -/
theorem insideCallbackFrom_drop_iff (s : Style) {ls : List Line} {start m : Nat}
    (h : start + m ≤ ls.length) :
    InsideCallbackFrom start (s.kinds ls) (start + m) ↔
      InsideCallback (s.kinds (ls.drop start)) m := by
  have hkinds : s.kinds ls = s.kinds (ls.take start) ++ s.kinds (ls.drop start) ++ [] := by
    rw [List.append_nil, kinds, kinds, kinds, ← List.map_append, List.take_append_drop]
  have hstart : (s.kinds (ls.take start)).length = start := by
    rw [length_kinds, List.length_take]
    omega
  have hm : m ≤ (s.kinds (ls.drop start)).length := by
    rw [length_kinds, List.length_drop]
    omega
  have hinside : InsideCallbackFrom (s.kinds (ls.take start)).length
      (s.kinds (ls.take start) ++ s.kinds (ls.drop start) ++ [])
      ((s.kinds (ls.take start)).length + m) ↔ InsideCallback (s.kinds (ls.drop start)) m :=
    insideCallbackFrom_append_iff hm
  rw [← hkinds, hstart] at hinside
  exact hinside

/-- A closing line that stands behind the header lines, outside the callbacks
opened behind them, bounds the region. -/
theorem length_before_add_body_le {s : Style} {ls : List Line} {i e : Nat} {l : Line}
    (hsig : s.signatureLine? ls = some i) (hheader : i + s.headerLines < e)
    (hl : ls[e]? = some l) (hends : s.endsRegion l = true)
    (houtside : ¬ InsideCallbackFrom (i + 1 + s.headerLines) (s.kinds ls) e) :
    (s.locate ls).before.length + (s.locate ls).body.length ≤ e := by
  have hle : i + 1 + s.headerLines ≤ e := by omega
  obtain ⟨m, rfl⟩ := Nat.exists_eq_add_of_le hle
  generalize hstart : i + 1 + s.headerLines = start at *
  have hlen : start + m < ls.length := (List.getElem?_eq_some_iff.1 hl).1
  have hclosed : s.openBehind false ((ls.drop start).take m) = false := by
    rw [← Bool.not_eq_true, openBehind_take_iff,
      ← insideCallbackFrom_drop_iff s (Nat.le_of_lt hlen)]
    exact houtside
  have hend : s.EndsAt false (ls.drop start) m := by
    refine ⟨hclosed, l, ?_, hends⟩
    rw [List.getElem?_drop]
    exact hl
  have hbody := bodyLength_le_of_endsAt hend
  rw [locate_of_some hsig, hstart, cutAt, List.length_take, List.length_take]
  omega

/-- The header lines stand in front of the region. -/
theorem headerLines_lt_length_before {s : Style} {ls : List Line} {i j : Nat}
    (hsig : s.signatureLine? ls = some i) (hj : j ≤ i + s.headerLines) (hlen : j < ls.length) :
    j < (s.locate ls).before.length := by
  rw [locate_of_some hsig, cutAt, List.length_take]
  omega

/-- **Confinement**: with a closing line behind the header lines, nothing from
that line on is touched, and nothing up to the last header line. -/
theorem formatText_confined {s : Style} (hs : s.Valid) {text : List Char} {i e : Nat}
    (hsig : s.signatureLine? (splitLines text) = some i)
    (hclose : s.ClosesFunction (splitLines text) i e) (hheader : i + s.headerLines < e) :
    ∃ out : List Line, s.formatText text = .ok (joinLines out) ∧
      out.length = (splitLines text).length ∧
      ∀ j : Nat, j ≤ i + s.headerLines ∨ e ≤ j → out[j]? = (splitLines text)[j]? := by
  obtain ⟨hbehind, ⟨l, hl, hstarts, hcloser⟩, houtside⟩ := hclose
  have hfound : (s.locate (splitLines text)).isFound = true := by
    rw [Region.isFound, signatureLine_locate, hsig]
    rfl
  have hregion : (s.locate (splitLines text)).before.length +
      (s.locate (splitLines text)).body.length ≤ e := by
    have hends : s.endsRegion l = true := endsRegion_eq_true_iff.2 ⟨hstarts, hcloser⟩
    -- an opener in a header line is never read, so for the scan fewer callbacks are open
    refine length_before_add_body_le hsig hheader hl hends fun hinside => ?_
    exact houtside (hinside.mono (Nat.le_add_right (i + 1) s.headerLines))
  have hlen : e < (splitLines text).length := (List.getElem?_eq_some_iff.1 hl).1
  refine ⟨s.layOut (splitLines text), formatText_of_found hs (isFound_locate_iff.1 hfound),
    length_layOut s _, fun j hj => getElem?_layOut_outside s _ ?_⟩
  cases hj with
  | inl hfront => exact .inl (headerLines_lt_length_before hsig hfront (by omega))
  | inr hback => exact .inr (Nat.le_trans hregion hback)

/-- A closing line that looks like one inside a callback, the closing line
itself, and a function behind it. -/
theorem formatText_confined_callback :
    let closing := standard.regionEndPrefix
    let text := joinLines ["func buildRootCommand()".toList, "\treturn x.".toList,
      " Handler(func".toList, closing, "  ".toList ++ standard.verbatimEnd, closing,
      "func main()".toList, " y".toList] ++ closing
    (standard.Valid ∧ standard.signatureLine? (splitLines text) = some 0 ∧
      standard.ClosesFunction (splitLines text) 0 5 ∧ 0 + standard.headerLines < 5) ∧
      ∃ out : List Line, standard.formatText text = .ok (joinLines out) ∧ out.length = 9 ∧
        ∀ j : Nat, j ≤ 1 ∨ 5 ≤ j → out[j]? = (splitLines text)[j]? := by
  intro closing text
  have hsig : standard.signatureLine? (splitLines text) = some 0 := by decide
  have hclose : standard.ClosesFunction (splitLines text) 0 5 :=
    ⟨by decide, ⟨closing, by decide, by decide, by decide⟩, by decide⟩
  exact ⟨⟨valid_standard, hsig, hclose, by decide⟩,
    formatText_confined valid_standard hsig hclose (by decide)⟩

/-- A function that closes in its header line: the next one is laid out. -/
theorem formatText_not_confined_by_header :
    let closing := standard.regionEndPrefix
    let next := "func main() ".toList ++ ['{']
    let head := ["func buildRootCommand() ".toList ++ ['{'], closing, []]
    let text := joinLines (head ++ [next, "\trun()".toList, closing])
    let out := joinLines (head ++ ["\t\t".toList ++ next, "\t\trun()".toList, closing])
    (standard.Valid ∧ standard.signatureLine? (splitLines text) = some 0 ∧
        standard.ClosesFunction (splitLines text) 0 1 ∧
        ∀ e, standard.ClosesFunction (splitLines text) 0 e → 1 ≤ e) ∧
      standard.formatText text = .ok out ∧
      (splitLines out)[3]? ≠ (splitLines text)[3]? := by
  intro closing next head text out
  have hclose : standard.ClosesFunction (splitLines text) 0 1 :=
    ⟨by decide, ⟨closing, by decide, by decide, by decide⟩, by decide⟩
  exact ⟨⟨valid_standard, by decide, hclose, fun e he => he.behind⟩, rfl, by decide⟩

end Style

end ChainIndent
