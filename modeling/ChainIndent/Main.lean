import ChainIndent.CommandLine

/-!
# ChainIndent.Main

The command line: carries the program out on the real file system.  Every
request of an action becomes one call, and warnings are printed as they are
reported; all decisions are made by `CommandLine.program`.
-/

namespace ChainIndent

/-- What a refusal of the operating system means.  The code of a wrong kind
of file comes with either sign, depending on the call. -/
def IoError.ofSystem : IO.Error → IoError
  | .noFileOrDirectory .. => .notFound
  | .permissionDenied .. => .permissionDenied
  | .inappropriateType _ code _ =>
    if code = 20 ∨ 0 - code = 20 then .notADirectory else .isADirectory
  | e => .other (toString e)

/-- Make a call and turn its failure into an answer. -/
def attempt {α : Type} (call : IO α) : IO (Except IoError α) := do
  match ← call.toBaseIO with
  | .ok a => return .ok a
  | .error e => return .error (.ofSystem e)

/-- Whether a path leads to a directory. -/
def leadsToDirectory (p : Path) : IO Bool := do
  if p.spelling = [] then return false
  let q := (← IO.currentDir) / toString p
  q.isDir

/-- Whether a path leads to a regular file. -/
def leadsToFile (p : Path) : IO Bool := do
  if p.spelling = [] then return false
  let q := (← IO.currentDir) / toString p
  match ← (q.metadata).toBaseIO with
  | .ok m => return m.type == .file
  | .error _ => return false

/-- Carry an action out. -/
def Action.perform {α : Type} : Action α → IO α
  | .done a => return a
  | .report e next => do
    if e.severity = .warn then IO.eprint e.line
    next.perform
  | .readFile p next => do (next (← attempt (IO.FS.readBinFile (toString p)))).perform
  | .writeFile p b next => do (next (← attempt (IO.FS.writeBinFile (toString p) b))).perform
  | .askDirectory p next => do (next (← leadsToDirectory p)).perform
  | .askFile p next => do (next (← leadsToFile p)).perform
  | .askHere next => do
    match ← attempt IO.currentDir with
    | .ok d => (next (some ⟨d.toString.toList⟩)).perform
    | .error _ => (next none).perform

end ChainIndent

/-- Run the program on the arguments behind its name. -/
def main (args : List String) : IO UInt32 := do
  let e ← (ChainIndent.CommandLine.program (args.map String.toList)).perform
  IO.print e.stdout
  IO.eprint e.stderr
  return UInt32.ofNat e.code
