import ChainIndent.Proofs.Confinement
import Mathlib.Order.Bounds.Basic

/-!
# ChainIndent.Proofs.Boundaries

Where a document is cut, told without the scans that find it: `IsRegion` says
of three parts that they are those before, in and behind the region, by
least line numbers alone.

* `isRegion_locate` — the parts that `locate` cuts are of that kind;
* `IsRegion.unique` — no others are;
* `locate_eq_iff` — both together.

A callback counts for the end of the body from the first line of the body on,
so a header line opens none.
-/

namespace ChainIndent

namespace Style

/-- Line `i` is the first that holds the signature. -/
def FirstSignature (s : Style) (ls : List Line) (i : Nat) : Prop :=
  IsLeast {j : Nat | ∃ l, ls[j]? = some l ∧ s.signature <:+: l} i

/-- Line `i` ends a body that begins at line `start`: it starts with the end
prefix, holds no closer of callbacks, and stands outside the callbacks opened
from line `start` on. -/
structure EndsBody (s : Style) (ls : List Line) (start i : Nat) : Prop where
  start_le : start ≤ i
  closing : ∃ l, ls[i]? = some l ∧ s.regionEndPrefix <+: l ∧ ¬ s.verbatimEnd <:+: l
  outside : ¬ InsideCallbackFrom start (s.kinds ls) i

/-- A body that begins at line `start` goes up to line `stop`: to the first
line that ends it, or to the end of the document without such a line. -/
def BodyGoesTo (s : Style) (ls : List Line) (start stop : Nat) : Prop :=
  IsLeast {i : Nat | s.EndsBody ls start i} stop ∨
    stop = ls.length ∧ ∀ i, ¬ s.EndsBody ls start i

/-- What the parts of a document are. -/
structure IsRegion (s : Style) (ls : List Line) (r : Region) : Prop where
  whole : r.before ++ r.body ++ r.after = ls
  missing : (∀ l ∈ ls, ¬ s.signature <:+: l) → r.signatureLine = none ∧ r.before = ls
  found : ∀ i, s.FirstSignature ls i →
    r.signatureLine = some i ∧
      r.before.length = min (i + 1 + s.headerLines) ls.length ∧
      s.BodyGoesTo ls r.before.length (r.before.length + r.body.length)

variable {s : Style} {ls : List Line}

/-! ## the signature line -/

theorem signatureLine?_eq_some_iff {i : Nat} :
    s.signatureLine? ls = some i ↔ s.FirstSignature ls i := by
  rw [signatureLine?, List.findIdx?_eq_some_iff_getElem]
  constructor
  · rintro ⟨hlen, hat, hbefore⟩
    refine ⟨⟨ls[i], List.getElem?_eq_getElem hlen, occursIn_iff.1 hat⟩, ?_⟩
    rintro j ⟨l, hl, hin⟩
    obtain ⟨hj, rfl⟩ := List.getElem?_eq_some_iff.1 hl
    exact Nat.le_of_not_lt fun hji => hbefore j hji (occursIn_iff.2 hin)
  · rintro ⟨⟨l, hl, hin⟩, hleast⟩
    obtain ⟨hlen, rfl⟩ := List.getElem?_eq_some_iff.1 hl
    refine ⟨hlen, occursIn_iff.2 hin, fun j hji hat => ?_⟩
    have hij : i ≤ j :=
      hleast ⟨ls[j], List.getElem?_eq_getElem (by omega), occursIn_iff.1 hat⟩
    omega

/-! ## the end of the body -/

/-- The scan stops where the body ends. -/
theorem endsBody_add_iff {start m : Nat} :
    s.EndsBody ls start (start + m) ↔ s.EndsAt false (ls.drop start) m := by
  have hflag : start + m < ls.length →
      (¬ InsideCallbackFrom start (s.kinds ls) (start + m) ↔
        s.openBehind false ((ls.drop start).take m) = false) := by
    intro hlen
    rw [insideCallbackFrom_drop_iff s (Nat.le_of_lt hlen), ← openBehind_take_iff,
      Bool.not_eq_true]
  constructor
  · intro ⟨_, ⟨l, hl, hends⟩, houtside⟩
    have hlen := (List.getElem?_eq_some_iff.1 hl).1
    exact ⟨(hflag hlen).1 houtside, l, by rw [List.getElem?_drop, hl],
      endsRegion_eq_true_iff.2 hends⟩
  · intro ⟨hclosed, l, hl, hends⟩
    rw [List.getElem?_drop] at hl
    have hlen := (List.getElem?_eq_some_iff.1 hl).1
    exact ⟨Nat.le_add_right start m, ⟨l, hl, endsRegion_eq_true_iff.1 hends⟩,
      (hflag hlen).2 hclosed⟩

theorem EndsBody.lt_length {start i : Nat} (h : s.EndsBody ls start i) : i < ls.length := by
  obtain ⟨l, hl, _⟩ := h.closing
  exact (List.getElem?_eq_some_iff.1 hl).1

theorem bodyGoesTo_bodyLength {start : Nat} (hstart : start ≤ ls.length) :
    s.BodyGoesTo ls start (start + s.bodyLength false (ls.drop start)) := by
  have hbound : ∀ i, s.EndsBody ls start i → start + s.bodyLength false (ls.drop start) ≤ i := by
    intro i hi
    obtain ⟨m, rfl⟩ := Nat.exists_eq_add_of_le hi.start_le
    exact Nat.add_le_add_left (bodyLength_le_of_endsAt (endsBody_add_iff.1 hi)) start
  by_cases hend : s.bodyLength false (ls.drop start) < (ls.drop start).length
  · exact .inl ⟨endsBody_add_iff.2 (endsAt_bodyLength hend), hbound⟩
  · have hall : start + s.bodyLength false (ls.drop start) = ls.length := by
      have hle := s.bodyLength_le false (ls.drop start)
      rw [List.length_drop] at hle hend
      omega
    refine .inr ⟨hall, fun i hi => ?_⟩
    have hge := hbound i hi
    have hlt := hi.lt_length
    omega

theorem BodyGoesTo.unique {start stop stop' : Nat} (h : s.BodyGoesTo ls start stop)
    (h' : s.BodyGoesTo ls start stop') : stop = stop' := by
  rcases h with h | ⟨rfl, hnone⟩ <;> rcases h' with h' | ⟨rfl, hnone'⟩
  · exact h.unique h'
  · exact absurd h.1 (hnone' _)
  · exact absurd h'.1 (hnone _)
  · rfl

/-! ## the parts -/

/-- The parts that are cut are those of the document. -/
theorem isRegion_locate (s : Style) (ls : List Line) : s.IsRegion ls (s.locate ls) := by
  refine ⟨locate_append s ls, fun hmissing => ?_, fun i hi => ?_⟩
  · rw [locate_of_none (signatureLine?_eq_none_iff.2 hmissing)]
    exact ⟨rfl, rfl⟩
  · rw [locate_of_some (signatureLine?_eq_some_iff.2 hi), cutAt]
    generalize i + 1 + s.headerLines = start
    have hbody : ((ls.drop start).take (s.bodyLength false (ls.drop start))).length =
        s.bodyLength false (ls.drop start) :=
      List.length_take_of_le (s.bodyLength_le false _)
    have hbefore : (ls.take start).length = min start ls.length := List.length_take
    -- header lines that are missing leave the same rest as none: no line at all
    have hrest : ls.drop start = ls.drop (min start ls.length) := by
      by_cases h : start ≤ ls.length
      · rw [Nat.min_eq_left h]
      · rw [Nat.min_eq_right (Nat.le_of_not_le h), List.drop_length,
          List.drop_of_length_le (Nat.le_of_not_le h)]
    refine ⟨rfl, hbefore, ?_⟩
    simp only [hbody, hbefore]
    rw [hrest]
    exact bodyGoesTo_bodyLength (Nat.min_le_right start ls.length)

/-- There is one way to cut a document. -/
theorem IsRegion.unique {r r' : Region} (h : s.IsRegion ls r) (h' : s.IsRegion ls r') :
    r = r' := by
  have hparts : r.signatureLine = r'.signatureLine ∧ r.before.length = r'.before.length ∧
      r.body.length = r'.body.length := by
    cases hsig : s.signatureLine? ls with
    | none =>
        have hmissing := signatureLine?_eq_none_iff.1 hsig
        obtain ⟨hline, hbefore⟩ := h.missing hmissing
        obtain ⟨hline', hbefore'⟩ := h'.missing hmissing
        have hlen := congrArg List.length h.whole
        have hlen' := congrArg List.length h'.whole
        simp only [List.length_append, hbefore, hbefore'] at hlen hlen'
        exact ⟨by rw [hline, hline'], by rw [hbefore, hbefore'], by omega⟩
    | some i =>
        have hfirst := signatureLine?_eq_some_iff.1 hsig
        obtain ⟨hline, hbefore, hbody⟩ := h.found i hfirst
        obtain ⟨hline', hbefore', hbody'⟩ := h'.found i hfirst
        have hsame : r.before.length = r'.before.length := by rw [hbefore, hbefore']
        rw [← hsame] at hbody'
        exact ⟨by rw [hline, hline'], hsame, Nat.add_left_cancel (hbody.unique hbody')⟩
  obtain ⟨hline, hbefore, hbody⟩ := hparts
  have hwhole : r.before ++ (r.body ++ r.after) = r'.before ++ (r'.body ++ r'.after) := by
    rw [← List.append_assoc, ← List.append_assoc, h.whole, h'.whole]
  obtain ⟨hfront, hrest⟩ := List.append_inj hwhole hbefore
  obtain ⟨hmiddle, hback⟩ := List.append_inj hrest hbody
  cases r
  cases r'
  rw [Region.mk.injEq]
  exact ⟨hfront, hmiddle, hback, hline⟩

/-- **The cut, specified**: a region is what `locate` finds exactly when its
parts are the document, and its signature line, header lines and end are the
first of their kind. -/
theorem locate_eq_iff {r : Region} : s.locate ls = r ↔ s.IsRegion ls r := by
  constructor
  · rintro rfl
    exact isRegion_locate s ls
  · exact (isRegion_locate s ls).unique

end Style

end ChainIndent
