import ChainIndent.Layout.Step
import ChainIndent.Event

/-!
# ChainIndent.Layout.Run

Laying out all lines of a region.  A run is the list of its steps, one per
line and in order, each beginning with the context that the one before left.
Everything that is reported is read off that list:

1. the lines of output, rendered with the style's indent unit;
2. the tally: lines placed at a level, lines copied, callbacks entered, and
   whether the last one stayed open;
3. one trace event per step, and a warning if a callback stayed open.
-/

namespace ChainIndent

/-! ## Runs -/

/-- The steps over some lines, each made by `move` from the context that the
step before left. -/
def run (move : Context → Line → Step) (c : Context) : List Line → List Step
  | [] => []
  | l :: ls => move c l :: run move (move c l).after ls

/-- The context that a run from `c` ends in. -/
def lastContext (c : Context) (steps : List Step) : Context :=
  (steps.getLast?.map Step.after).getD c

@[simp] theorem run_nil (move : Context → Line → Step) (c : Context) : run move c [] = [] := rfl

@[simp] theorem run_cons (move : Context → Line → Step) (c : Context) (l : Line) (ls : List Line) :
    run move c (l :: ls) = move c l :: run move (move c l).after ls := rfl

@[simp] theorem length_run (move : Context → Line → Step) (c : Context) (ls : List Line) :
    (run move c ls).length = ls.length := by
  induction ls generalizing c with
  | nil => rfl
  | cons l ls ih => simp [ih]

@[simp] theorem lastContext_nil (c : Context) : lastContext c [] = c := rfl

@[simp] theorem lastContext_cons (c : Context) (s : Step) (steps : List Step) :
    lastContext c (s :: steps) = lastContext s.after steps := by
  cases steps <;> simp [lastContext, List.getLast?_cons]

/-- A run over two groups of lines goes on with the second where the first
left it. -/
theorem run_append (move : Context → Line → Step) (c : Context) (ls ms : List Line) :
    run move c (ls ++ ms) = run move c ls ++ run move (lastContext c (run move c ls)) ms := by
  induction ls generalizing c with
  | nil => rfl
  | cons l ls ih => simp [ih]

/-! ## Tally -/

/-- A step that enters a callback. -/
def Step.entersCallback (s : Step) : Bool := !s.before.inCallback && s.after.inCallback

/-- The tally of a run from `c`. -/
def Tally.ofRun (c : Context) (steps : List Step) : Tally :=
  { reindentedLines := steps.countP fun s => s.placed.isIndented
    verbatimLines := steps.countP fun s => s.placed.isVerbatim
    verbatimBlocks := steps.countP Step.entersCallback
    unterminatedVerbatim := (lastContext c steps).inCallback }

/-! ## Re-indenting -/

/-- A region laid out. -/
structure Reindented where
  lines : List Line
  tally : Tally
  events : List Event
  deriving DecidableEq, Repr

/-- One trace event per step, the lines counted from `n`. -/
def traceEvents (n : Nat) : List Step → List Event
  | [] => []
  | s :: steps => .lineLaidOut n s.after.level s.after.inCallback :: traceEvents (n + 1) steps

/-- The report on a run from `c`, with `unit` for one level. -/
def Reindented.ofRun (unit : List Char) (c : Context) (steps : List Step) : Reindented :=
  { lines := steps.map fun s => s.placed.render unit
    tally := Tally.ofRun c steps
    events := traceEvents 1 steps ++
      if (lastContext c steps).inCallback then [.callbackUnclosed (lastContext c steps).balance]
      else [] }

namespace Style

/-- The steps over the lines of a region. -/
def steps (s : Style) (ls : List Line) : List Step := run s.step s.start ls

/-- Lay out the lines of a region, one line of output for each. -/
def reindent (s : Style) (ls : List Line) : Reindented :=
  .ofRun s.indentUnit s.start (s.steps ls)

/-- Lines are neither lost nor added. -/
@[simp] theorem length_lines_reindent (s : Style) (ls : List Line) :
    (s.reindent ls).lines.length = ls.length := by
  simp [reindent, Reindented.ofRun, steps]

end Style

end ChainIndent
