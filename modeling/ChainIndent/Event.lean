import ChainIndent.Path

/-!
# ChainIndent.Event

What the program reports while it works.  An event is a value that a run
returns beside its result; only the command line decides which of them are
shown.

1. Each event has a severity, a fixed message and named fields.
2. Warnings are for the two cases in which the text, or a part of it, is
   left as it is: no signature, and a callback that is never closed.
3. Two events tell what a piece of work came to: the tally of a region, and
   the outcome for a file.
4. A warning is written as one line: its severity, its message, and every
   field as `name=value`.
-/

namespace ChainIndent

/-- How much an event matters. -/
inductive Severity where
  | trace
  | debug
  | warn
  deriving DecidableEq, Repr

/-- What formatting did to a document. -/
structure Tally where
  /-- The signature was found. -/
  regionFound : Bool := false
  /-- Lines placed at a level. -/
  reindentedLines : Nat := 0
  /-- Lines copied from inside callbacks. -/
  verbatimLines : Nat := 0
  /-- Callbacks entered. -/
  verbatimBlocks : Nat := 0
  /-- The region ended inside a callback. -/
  unterminatedVerbatim : Bool := false
  deriving DecidableEq, Repr

/-- What happened to a file. -/
inductive Outcome where
  | changed
  | unchanged
  deriving DecidableEq, Repr

def Outcome.label : Outcome → String
  | .changed => "Changed"
  | .unchanged => "Unchanged"

/-- Something that happened during a run. -/
inductive Event where
  /-- No line holds the signature. -/
  | signatureMissing (signature : List Char)
  /-- The region was found: its signature line, counted from one, and the
  length of its body. -/
  | regionLocated (signatureLine bodyLines : Nat)
  /-- A line of the body, counted from one, was laid out; the level and the
  callback mode are those after it. -/
  | lineLaidOut (line level : Nat) (inCallback : Bool)
  /-- The body ended inside a callback with this many braces open. -/
  | callbackUnclosed (balance : Int)
  /-- The document had no region and was not touched. -/
  | documentUnchanged (signature : List Char)
  /-- The region of the document was laid out, with this tally. -/
  | regionReindented (tally : Tally)
  /-- A style file is about to be read. -/
  | applyingStyleFile (path : Path)
  /-- A file was formatted where it is. -/
  | fileDone (path : Path) (outcome : Outcome)
  deriving DecidableEq, Repr

/-- The value of a field. -/
inductive FieldValue where
  | text (t : List Char)
  | count (n : Int)
  | flag (b : Bool)
  deriving DecidableEq, Repr

namespace Event

def severity : Event → Severity
  | .lineLaidOut .. => .trace
  | .callbackUnclosed _ | .documentUnchanged _ => .warn
  | _ => .debug

def message : Event → String
  | .signatureMissing _ => "signature not found"
  | .regionLocated .. => "located builder region"
  | .lineLaidOut .. => "indent transition"
  | .callbackUnclosed _ => "region ended inside a callback body; trailing lines kept unchanged"
  | .documentUnchanged _ => "signature not found; document left unchanged"
  | .regionReindented _ => "re-indented builder region"
  | .applyingStyleFile _ => "applying config file"
  | .fileDone .. => "done"

/-- The fields that hold a plain value.  A tally is none: it is read off the
event as the record it is. -/
def fields : Event → List (String × FieldValue)
  | .signatureMissing s => [("signature", .text s)]
  | .regionLocated n k => [("signature_line", .count n), ("body_lines", .count k)]
  | .lineLaidOut n k b => [("line", .count n), ("level", .count k), ("verbatim", .flag b)]
  | .callbackUnclosed n => [("brace_balance", .count n)]
  | .documentUnchanged s => [("signature", .text s)]
  | .regionReindented _ => []
  | .applyingStyleFile p => [("config", .text p.spelling)]
  | .fileDone p o => [("file", .text p.spelling), ("outcome", .text o.label.toList)]

end Event

/-- The value of a field as it is written in a line of text. -/
def FieldValue.render : FieldValue → String
  | .text t => String.ofList t
  | .count n => toString n
  | .flag b => toString b

def Severity.label : Severity → String
  | .trace => "TRACE"
  | .debug => "DEBUG"
  | .warn => "WARN"

/-- The line that reports an event by its plain fields, which are all that a
warning has. -/
def Event.line (e : Event) : String :=
  e.severity.label ++ " " ++ e.message
    ++ String.join (e.fields.map fun f => " " ++ f.1 ++ "=" ++ f.2.render) ++ "\n"

end ChainIndent
