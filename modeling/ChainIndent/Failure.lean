import ChainIndent.FileTree
import ChainIndent.Style

/-!
# ChainIndent.Failure

What can go wrong, and how it is told.

1. A failure is a cause; its message is worded in one place.
2. What is told to the user is a chain: what the program was doing, the
   message, and the cause behind the message.  A failure of the file system
   names its cause in its own message already, so the chain ends with the
   cause twice.
3. Nothing is told about where in a style file the mistake is.
-/

namespace ChainIndent

/-- The name under which the program is called. -/
def programName : String := "fluent-indent"

/-- Why a run failed.  Markers are not among the reasons.  They are compared
as plain words, so no matcher is compiled from them that could turn out too
large; a marker of any length is as good as another. -/
inductive Failure where
  | usage
  | read (path : Path) (cause : IoError)
  | write (path : Path) (cause : IoError)
  | styleRead (path : Path) (cause : IoError)
  | styleParse (path : Path)
  | invalidStyle (problem : Style.Problem)
  | stream (cause : IoError)
  deriving DecidableEq, Repr

namespace Failure

/-- The wording of a failure. -/
def message : Failure → String
  | .usage => s!"Usage: {programName} <file>"
  | .read path cause => s!"Failed to read {path}: {cause.message}"
  | .write path cause => s!"Failed to write {path}: {cause.message}"
  | .styleRead path cause => s!"Failed to read config file at {path}: {cause.message}"
  | .styleParse path => s!"Failed to parse config file at {path}: <toml>"
  | .invalidStyle problem => s!"Invalid configuration: {problem.message}"
  | .stream cause => cause.message

/-- The cause that stands behind a failure and is told again. -/
def cause? : Failure → Option IoError
  | .read _ cause | .write _ cause | .styleRead _ cause => some cause
  | _ => none

end Failure

/-- What the program was doing. -/
inductive Activity where
  | formatting (path : Path)
  | loadingStyle (path : Path)
  deriving DecidableEq, Repr

/-- The wording of an activity. -/
def Activity.message : Activity → String
  | .formatting path => s!"formatting {path}"
  | .loadingStyle path => s!"loading configuration for {path}"

/-- A failure, and what the program was doing when it happened. -/
structure Diagnosis where
  during : Option Activity := none
  failure : Failure
  deriving DecidableEq, Repr

/-- The chain from what the program was doing down to the last cause. -/
def Diagnosis.chain (d : Diagnosis) : List String :=
  (d.during.map Activity.message).toList ++ [d.failure.message]
    ++ (d.failure.cause?.map IoError.message).toList

/-- The chain in one line. -/
def Diagnosis.message (d : Diagnosis) : String := ": ".intercalate d.chain

end ChainIndent
