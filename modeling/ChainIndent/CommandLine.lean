import ChainIndent.Discovery

/-!
# ChainIndent.CommandLine

The program as it is called from a shell: one argument, the file to format.

1. The first `--` among the arguments only says that no options follow, and
   there are none.  What is left must be exactly one argument, and not
   empty; it may begin with a hyphen.
2. The style is loaded for the path, then the file is formatted with it, and
   a success is reported as the last event.
3. Success is told on standard output, failure on standard error with exit
   code 1.  Warnings go to standard error as they arise, so they stand in
   front of a failure.
-/

namespace ChainIndent

/-- What the caller of a program sees of it. -/
structure Exit where
  code : Nat
  stdout : String := ""
  stderr : String := ""
  deriving DecidableEq, Repr

namespace CommandLine

/-- The file that some arguments name. -/
def parse (args : List (List Char)) : Except Failure Path :=
  match args.erase ['-', '-'] with
  | [] => .error .usage
  | [a] => if a = [] then .error .usage else .ok ⟨a⟩
  | _ => .error .usage

/-- Report the outcome for a file, if there is one. -/
def reportDone (p : Path) (r : Except Diagnosis Outcome) : Action (Except Diagnosis Outcome) :=
  match r with
  | .error _ => .done r
  | .ok o => .report (.fileDone p o) (.done r)

/-- Load the style for a file and format it. -/
def format (p : Path) : Action (Except Diagnosis Outcome) := do
  match ← Style.load p with
  | .error e => return .error { during := some (.loadingStyle p), failure := e }
  | .ok s => reportDone p (← s.formatFile p)

/-- How a run on a file ends. -/
def exitOf (p : Path) : Except Diagnosis Outcome → Exit
  | .ok _ => { code := 0, stdout := s!"Fixed indentation in {p}\n" }
  | .error d => { code := 1, stderr := s!"Error: {d.message}\n" }

/-- The program, given the arguments behind its name. -/
def program (args : List (List Char)) : Action Exit :=
  match parse args with
  | .error e => .done { code := 1, stderr := e.message ++ "\n" }
  | .ok p => do return exitOf p (← format p)

/-- The lines of the warnings among some events. -/
def warnings (es : List Event) : String :=
  String.join ((es.filter fun e => e.severity = .warn).map Event.line)

/-- What the caller sees of a run: the warnings come first on standard
error. -/
def seen (r : Action.Result Exit) : Exit :=
  { r.value with stderr := warnings r.events ++ r.value.stderr }

end CommandLine

end ChainIndent
