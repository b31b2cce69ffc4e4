import ChainIndent.Document
import ChainIndent.Proofs.Extent

/-!
# ChainIndent.Proofs.Markers

What a list of markers means.  A marker is looked for at the start of a line, so
of two markers one of which begins with the other, the longer adds nothing.

1. Two lists of markers mean the same if every marker of each begins with one of
   the other (`SameMarkers`).  This is so exactly when they are found in the same
   lines (`sameMarkers_iff_hasMarker`), and exactly when they have the same
   shortest markers (`sameMarkers_iff_shortest`).  Empty words are no markers.
2. Of its markers a style makes no use but for the kinds of lines, and with the
   kinds of lines the whole of formatting stays (`format_withMarkers`).
-/

namespace ChainIndent

/-! ## lists of words -/

section Words

variable {vs ws : List (List Char)}

/-- Every non-empty word among `ws` begins with one among `vs`. -/
def Starts (vs ws : List (List Char)) : Prop :=
  ∀ w ∈ ws, w ≠ [] → ∃ v ∈ vs, v ≠ [] ∧ v <+: w

instance (vs ws : List (List Char)) : Decidable (Starts vs ws) :=
  inferInstanceAs (Decidable (∀ w ∈ ws, w ≠ [] → ∃ v ∈ vs, v ≠ [] ∧ v <+: w))

/-- Two lists of words that are the same as markers. -/
structure SameMarkers (vs ws : List (List Char)) : Prop where
  left : Starts vs ws
  right : Starts ws vs

theorem SameMarkers.symm (h : SameMarkers vs ws) : SameMarkers ws vs := ⟨h.right, h.left⟩

/-- A non-empty word that begins with no other of the list. -/
def Shortest (ws : List (List Char)) (w : List Char) : Prop :=
  (w ∈ ws ∧ w ≠ []) ∧ ∀ v ∈ ws, v ≠ [] → v <+: w → v = w

instance (ws : List (List Char)) (w : List Char) : Decidable (Shortest ws w) :=
  inferInstanceAs (Decidable ((w ∈ ws ∧ w ≠ []) ∧ ∀ v ∈ ws, v ≠ [] → v <+: w → v = w))

theorem hasMarker_atStart_iff {l : Line} :
    hasMarker .atStart ws l = true ↔ ∃ w ∈ ws, w ≠ [] ∧ w <+: l := by
  simp [hasMarker_iff, Alternatives.stands]

/-- What begins with a word begins with what the word begins with. -/
theorem Starts.hasMarker (h : Starts vs ws) {l : Line} (hl : hasMarker .atStart ws l = true) :
    hasMarker .atStart vs l = true := by
  rw [hasMarker_atStart_iff] at hl ⊢
  obtain ⟨w, hw, hne, hwl⟩ := hl
  obtain ⟨v, hv, hne', hvw⟩ := h w hw hne
  exact ⟨v, hv, hne', hvw.trans hwl⟩

/-- **Lists that mean the same** are found in the same lines; each word is a line
too, so it shows what it begins with. -/
theorem sameMarkers_iff_hasMarker :
    SameMarkers vs ws ↔ ∀ l, hasMarker .atStart vs l = hasMarker .atStart ws l := by
  constructor
  · intro h l
    rw [Bool.eq_iff_iff]
    exact ⟨h.right.hasMarker, h.left.hasMarker⟩
  · intro h
    have hstarts : ∀ {xs ys : List (List Char)},
        (∀ l, hasMarker .atStart xs l = hasMarker .atStart ys l) → Starts xs ys := by
      intro xs ys hsame w hw hne
      rw [← hasMarker_atStart_iff, hsame, hasMarker_atStart_iff]
      exact ⟨w, hw, hne, List.prefix_rfl⟩
    exact ⟨hstarts h, hstarts fun l => (h l).symm⟩

/-- Every word begins with a shortest one. -/
theorem exists_shortest {w : List Char} (hw : w ∈ ws) (hne : w ≠ []) :
    ∃ v, Shortest ws v ∧ v <+: w := by
  -- by its length: a word that is not shortest begins with a shorter one
  induction hn : w.length using Nat.strongRecOn generalizing w with
  | ind n ih =>
      by_cases hfirst : ∀ v ∈ ws, v ≠ [] → v <+: w → v = w
      · exact ⟨w, ⟨⟨hw, hne⟩, hfirst⟩, List.prefix_rfl⟩
      · simp only [Classical.not_forall] at hfirst
        obtain ⟨v, hv, hvne, hvw, hdiff⟩ := hfirst
        have hshorter : v.length < n := by
          have hle := hvw.length_le
          have hlen : v.length ≠ w.length := fun heq => hdiff (hvw.eq_of_length heq)
          omega
        obtain ⟨u, hu, huv⟩ := ih v.length hshorter hv hvne rfl
        exact ⟨u, hu, huv.trans hvw⟩

theorem SameMarkers.shortest (h : SameMarkers vs ws) {w : List Char} (hw : Shortest vs w) :
    Shortest ws w := by
  obtain ⟨⟨hmem, hne⟩, hfirst⟩ := hw
  have hfirst' : ∀ u ∈ ws, u ≠ [] → u <+: w → u = w := by
    intro u hu hune huw
    obtain ⟨v, hv, hvne, hvu⟩ := h.left u hu hune
    obtain rfl := hfirst v hv hvne (hvu.trans huw)
    exact huw.eq_of_length_le hvu.length_le
  obtain ⟨u, hu, hune, huw⟩ := h.right w hmem hne
  obtain rfl := hfirst' u hu hune huw
  exact ⟨⟨hu, hne⟩, hfirst'⟩

/-- **Lists that mean the same** have the same shortest words. -/
theorem sameMarkers_iff_shortest :
    SameMarkers vs ws ↔ ∀ w, Shortest vs w ↔ Shortest ws w := by
  constructor
  · exact fun h w => ⟨h.shortest, h.symm.shortest⟩
  · intro h
    constructor
    · intro w hw hne
      obtain ⟨v, hv, hvw⟩ := exists_shortest hw hne
      obtain ⟨⟨hmem, hvne⟩, -⟩ := (h v).2 hv
      exact ⟨v, hmem, hvne, hvw⟩
    · intro w hw hne
      obtain ⟨v, hv, hvw⟩ := exists_shortest hw hne
      obtain ⟨⟨hmem, hvne⟩, -⟩ := (h v).1 hv
      exact ⟨v, hmem, hvne, hvw⟩

end Words

namespace Style

/-! ## two styles -/

/-- The same style with other markers. -/
def withMarkers (s : Style) (indent dedent : List (List Char)) : Style :=
  { s with indentMarkers := indent, dedentMarkers := dedent }

variable {s : Style} {indent dedent : List (List Char)}

theorem classify_withMarkers (hindent : SameMarkers s.indentMarkers indent)
    (hdedent : SameMarkers s.dedentMarkers dedent) (t : Line) :
    (s.withMarkers indent dedent).classify t = s.classify t := by
  have hopens := sameMarkers_iff_hasMarker.1 hindent t
  have hcloses := sameMarkers_iff_hasMarker.1 hdedent t
  rw [classify, classify, hopens, hcloses]
  rfl

theorem kindOf_withMarkers (hindent : SameMarkers s.indentMarkers indent)
    (hdedent : SameMarkers s.dedentMarkers dedent) (l : Line) :
    (s.withMarkers indent dedent).kindOf l = s.kindOf l :=
  classify_withMarkers hindent hdedent (trimStart l)

theorem reindent_withMarkers (hindent : SameMarkers s.indentMarkers indent)
    (hdedent : SameMarkers s.dedentMarkers dedent) (ls : List Line) :
    (s.withMarkers indent dedent).reindent ls = s.reindent ls := by
  have hstep : (s.withMarkers indent dedent).step = s.step := by
    funext c raw
    rw [step, step, kindOf_withMarkers hindent hdedent]
  rw [reindent, steps, hstep]
  rfl

/-- A style formats alike with lists of markers that mean the same, and if it is
not valid, fails alike. -/
theorem format_withMarkers (hindent : SameMarkers s.indentMarkers indent)
    (hdedent : SameMarkers s.dedentMarkers dedent) (text : List Char) :
    (s.withMarkers indent dedent).format text = s.format text := by
  have hends : ∀ l, (s.withMarkers indent dedent).endsRegion l = s.endsRegion l := fun _ => rfl
  have hkind := kindOf_withMarkers hindent hdedent
  have hlocate : (s.withMarkers indent dedent).locate (splitLines text) =
      s.locate (splitLines text) := locate_congr hends hkind rfl rfl _
  have hvalid : (s.withMarkers indent dedent).formatValid text = s.formatValid text := by
    rw [formatValid, formatValid, hlocate, reindent_withMarkers hindent hdedent]
    rfl
  have hproblem : (s.withMarkers indent dedent).problem? = s.problem? := rfl
  rw [format, format, hproblem, hvalid]

/-- **Only the shortest markers matter.**  Lists of which each marker begins with
one of the other have the same shortest markers; with either, every line is of
the same kind and every text has the same output, tally and events. -/
theorem format_eq_of_sameMarkers (hs : s.Valid) (hindent : SameMarkers s.indentMarkers indent)
    (hdedent : SameMarkers s.dedentMarkers dedent) :
    (∀ w, Shortest s.indentMarkers w ↔ Shortest indent w) ∧
      (∀ w, Shortest s.dedentMarkers w ↔ Shortest dedent w) ∧
      (∀ t, (s.withMarkers indent dedent).classify t = s.classify t) ∧
      ∀ text, ∃ out, s.format text = .ok out ∧
        (s.withMarkers indent dedent).format text = .ok out := by
  refine ⟨sameMarkers_iff_shortest.1 hindent, sameMarkers_iff_shortest.1 hdedent,
    classify_withMarkers hindent hdedent, fun text => ?_⟩
  have hok := format_of_valid hs text
  exact ⟨s.formatValid text, hok, by rw [format_withMarkers hindent hdedent, hok]⟩

/-- The standard markers in another order, with an empty one, one that is listed
twice and two that begin with others. -/
theorem format_eq_of_sameMarkers_standard :
    let indent := ["Flag(".toList, [], "Arg(".toList, "Flag(\"-v".toList, "Subcommand(".toList,
      "Arg(".toList]
    let dedent := ["Done().Arg(".toList, "Done().".toList]
    let text := "func buildRootCommand()\n\nFlag(\"-v\").\nBool().\nDone().Arg(".toList
    (standard.Valid ∧ SameMarkers standard.indentMarkers indent ∧
        SameMarkers standard.dedentMarkers dedent) ∧
      Shortest indent "Flag(".toList ∧
      (standard.withMarkers indent dedent).classify "Done().Arg(".toList = .dedent ∧
      ∃ out, standard.format text = .ok out ∧
        (standard.withMarkers indent dedent).format text = .ok out := by
  intro indent dedent text
  have hindent : SameMarkers standard.indentMarkers indent := ⟨by decide, by decide⟩
  have hdedent : SameMarkers standard.dedentMarkers dedent := ⟨by decide, by decide⟩
  obtain ⟨hshortest, -, hkinds, hformat⟩ := format_eq_of_sameMarkers valid_standard hindent hdedent
  have hflag : Shortest standard.indentMarkers "Flag(".toList := by decide
  exact ⟨⟨valid_standard, hindent, hdedent⟩, (hshortest _).1 hflag, (hkinds _).trans (by decide),
    hformat text⟩

end Style

end ChainIndent
