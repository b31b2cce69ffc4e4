import ChainIndent.Document
import ChainIndent.Proofs.Extent

/-!
# ChainIndent.Proofs.Agreement

The two readers of a region see the same callbacks.  The scan for the end of
the region carries a flag from line to line and stops at the closing line; the
layout carries a context over the lines that the scan left it.  Each decides
for itself when a callback is open.

* `scanFlags` — the flags of the scan, one before each line that it goes past
  and the last one, which it holds when it stops;
* `contexts` — the contexts of the layout, one before each line and the last;
* `scanFlags_eq_map_contexts` — flag for flag they agree, by induction over
  the scan;
* `inCallback_of_after_ne_nil` — so a region that stops short of the end of
  the document is left outside all callbacks.
-/

namespace ChainIndent

/-- The contexts of a layout from `c`: one before each line, and the last. -/
def contexts (c : Context) (steps : List Step) : List Context :=
  steps.map Step.before ++ [lastContext c steps]

namespace Style

/-! ## the flags of the scan -/

/-- The flags that `bodyLength` holds: one before each line that it goes past,
and the one that it stops with. -/
def scanFlags (s : Style) (isOpen : Bool) : List Line → List Bool
  | [] => [isOpen]
  | l :: ls =>
    if !isOpen && s.endsRegion l then [isOpen]
    else isOpen :: s.scanFlags (opensAfter isOpen (s.kindOf l)) ls

theorem getElem?_scanFlags_zero (s : Style) (isOpen : Bool) (ls : List Line) :
    (s.scanFlags isOpen ls)[0]? = some isOpen := by
  cases ls with
  | nil => rfl
  | cons l ls =>
      rw [scanFlags]
      split <;> rfl

/-- From line `i` on, the scan is a scan that begins there with flag `i`. -/
theorem bodyLength_of_scanFlags {s : Style} {isOpen b : Bool} {ls : List Line} {i : Nat}
    (h : (s.scanFlags isOpen ls)[i]? = some b) :
    s.bodyLength isOpen ls = s.bodyLength b (ls.drop i) + i := by
  induction i generalizing isOpen ls with
  | zero =>
      rw [getElem?_scanFlags_zero] at h
      rw [Option.some.inj h, List.drop_zero, Nat.add_zero]
  | succ i ih =>
      cases ls with
      | nil => contradiction
      | cons l ls =>
          rw [scanFlags] at h
          by_cases hstop : (!isOpen && s.endsRegion l) = true
          · rw [if_pos hstop] at h
            contradiction
          · rw [if_neg hstop, List.getElem?_cons_succ] at h
            rw [bodyLength, if_neg hstop, ih h, List.drop_succ_cons, Nat.add_assoc]

/-! ## flags and contexts -/

theorem contexts_nil (c : Context) : contexts c [] = [c] := rfl

theorem contexts_run_cons (s : Style) (c : Context) (l : Line) (ls : List Line) :
    contexts c (run s.step c (l :: ls)) =
      c :: contexts (s.step c l).after (run s.step (s.step c l).after ls) := by
  rw [contexts, run_cons, List.map_cons, lastContext_cons]
  rfl

/-- **Flag for flag**: over the lines that the scan goes past, it holds the
flags of the layout's contexts. -/
theorem scanFlags_eq_map_contexts {s : Style} {c : Context} {isOpen : Bool}
    (hc : c.inCallback = isOpen) (ls : List Line) :
    s.scanFlags isOpen ls =
      (contexts c (run s.step c (ls.take (s.bodyLength isOpen ls)))).map Context.inCallback := by
  induction ls generalizing c isOpen with
  | nil => rw [scanFlags, List.take_nil, run_nil, contexts_nil, List.map_singleton, hc]
  | cons l ls ih =>
      rw [scanFlags, bodyLength]
      by_cases hstop : (!isOpen && s.endsRegion l) = true
      · rw [if_pos hstop, if_pos hstop, List.take_zero, run_nil, contexts_nil,
          List.map_singleton, hc]
      · have hafter : (s.step c l).after.inCallback = opensAfter isOpen (s.kindOf l) := by
          rw [inCallback_after_step, hc]
        rw [if_neg hstop, if_neg hstop, List.take_succ_cons, contexts_run_cons, List.map_cons,
          hc, ih hafter]

/-! ## the region of a document -/

/-- The scan runs over all lines behind those in front, and the lines that it
goes past are the body. -/
theorem bodyLength_locate (s : Style) (ls : List Line) :
    s.bodyLength false ((s.locate ls).body ++ (s.locate ls).after) =
      (s.locate ls).body.length := by
  cases h : s.signatureLine? ls with
  | none => rw [locate_of_none h]; rfl
  | some i =>
      rw [locate_of_some h, cutAt, List.take_append_drop, List.length_take,
        Nat.min_eq_left (s.bodyLength_le false _)]

/-- A region that stops short of the document ends outside all callbacks. -/
theorem inCallback_of_after_ne_nil {s : Style} {ls : List Line} (h : (s.locate ls).after ≠ []) :
    (lastContext s.start (s.steps (s.locate ls).body)).inCallback = false := by
  have hlen := bodyLength_locate s ls
  have hshort : s.bodyLength false ((s.locate ls).body ++ (s.locate ls).after) <
      ((s.locate ls).body ++ (s.locate ls).after).length := by
    rw [hlen, List.length_append]
    have hpos := List.length_pos_iff.2 h
    omega
  have hclosed := (endsAt_bodyLength hshort).1
  rw [hlen, List.take_left] at hclosed
  rw [steps, inCallback_lastContext]
  exact hclosed

theorem eq_formatValid_of_format {s : Style} {text : List Char} {out : Formatted}
    (h : s.format text = .ok out) : out = s.formatValid text := by
  rw [format] at h
  split at h
  · contradiction
  · exact (Except.ok.inj h).symm

/-- What is reported of a document is reported of its region. -/
theorem inCallback_of_unterminatedVerbatim {s : Style} {text : List Char}
    (h : (s.formatValid text).tally.unterminatedVerbatim = true) :
    (lastContext s.start (s.steps (s.locate (splitLines text)).body)).inCallback = true := by
  rw [formatValid] at h
  split at h
  · exact h
  · contradiction

/-- **The two readers agree**: the flags that the scan goes on with are those
of the layout.  So behind a callback that is reported to be unclosed there is
no line left, and with lines behind the region no callback is open. -/
theorem scan_agrees_with_layout (s : Style) :
    (∀ ls : List Line,
      let scanned := (s.locate ls).body ++ (s.locate ls).after
      s.bodyLength false scanned = (s.locate ls).body.length ∧
        (∀ i b, (s.scanFlags false scanned)[i]? = some b →
          s.bodyLength false scanned = s.bodyLength b (scanned.drop i) + i) ∧
        s.scanFlags false scanned =
          (contexts s.start (s.steps (s.locate ls).body)).map Context.inCallback) ∧
      (∀ (text : List Char) (out : Formatted), s.format text = .ok out →
        out.tally.unterminatedVerbatim = true → (s.locate (splitLines text)).after = []) ∧
      ∀ ls : List Line, (s.locate ls).after ≠ [] →
        (lastContext s.start (s.steps (s.locate ls).body)).inCallback = false := by
  refine ⟨fun ls => ?_, fun text out hout hunclosed => ?_, fun ls h => ?_⟩
  · have hlen := bodyLength_locate s ls
    have hstart : s.start.inCallback = false := rfl
    refine ⟨hlen, fun i b hflag => bodyLength_of_scanFlags hflag, ?_⟩
    rw [scanFlags_eq_map_contexts hstart, hlen, List.take_left, steps]
  · rw [eq_formatValid_of_format hout] at hunclosed
    have hopen := inCallback_of_unterminatedVerbatim hunclosed
    apply Classical.byContradiction
    intro hafter
    rw [inCallback_of_after_ne_nil hafter] at hopen
    contradiction
  · exact inCallback_of_after_ne_nil h

/-- A callback with a closing line in it, once closed and once not. -/
theorem scan_agrees_with_layout_closing_line :
    let closer := standard.verbatimEnd
    let closing := standard.regionEndPrefix
    let unclosed := joinLines ["func buildRootCommand()".toList, [], "Handler(func".toList, closing,
      "// ".toList ++ closer]
    let closed := splitLines (unclosed ++ joinLines [closer, closing] ++ ['x'])
    (contexts standard.start (standard.steps (standard.locate closed).body)).map
        Context.inCallback = [false, true, true, true, false] ∧
      ((standard.locate closed).after ≠ [] ∧
        (lastContext standard.start (standard.steps (standard.locate closed).body)).inCallback =
          false) ∧
      ∃ out, standard.format unclosed = .ok out ∧ out.tally.unterminatedVerbatim = true ∧
        (standard.locate (splitLines unclosed)).after = [] := by
  intro closer closing unclosed closed
  obtain ⟨hflags, hunclosed, hclosed⟩ := scan_agrees_with_layout standard
  have hafter : (standard.locate closed).after ≠ [] := by decide
  have hformat := format_of_valid valid_standard unclosed
  have hopen : (standard.formatValid unclosed).tally.unterminatedVerbatim = true := by decide
  refine ⟨?_, ⟨hafter, hclosed closed hafter⟩, _, hformat, hopen, hunclosed _ _ hformat hopen⟩
  rw [← (hflags closed).2.2]
  decide

end Style

end ChainIndent
