import ChainIndent.Action
import ChainIndent.Document
import ChainIndent.Failure

/-!
# ChainIndent.InPlace

Formatting files where they are.

1. A file is read whole, as UTF-8, before anything else; then the style is
   checked.
2. A file that is formatted already is not written, so it need not be
   writable.
3. Otherwise the whole new content is written at once.
4. Several files are formatted one by one; a failure concerns its own file
   only, and the answers come in the order of the paths.
-/

namespace ChainIndent

/-! ## Text in bytes -/

/-- The text that some bytes encode. -/
def decodeText? (b : ByteArray) : Option (List Char) := (String.fromUTF8? b).map String.toList

/-- The bytes of a text. -/
def encodeText (t : List Char) : ByteArray := (String.ofList t).toUTF8

@[simp] theorem decodeText?_encodeText (t : List Char) : decodeText? (encodeText t) = some t := by
  have h : String.fromUTF8? (encodeText t) = some (String.ofList t) := by
    unfold String.fromUTF8? encodeText
    rw [String.toUTF8_eq_toByteArray, dif_pos (String.ofList t).isValidUTF8]
    rfl
  simp [decodeText?, h]

/-- Bytes that encode a text are the bytes of that text. -/
theorem encodeText_of_decodeText? {b : ByteArray} {t : List Char} (h : decodeText? b = some t) :
    encodeText t = b := by
  unfold decodeText? String.fromUTF8? at h
  split at h
  · simp only [Option.map_some, Option.some.injEq] at h
    subst h
    rw [encodeText, String.ofList_toList]
    rfl
  · cases h

/-! ## Streams -/

/-- Format a stream of bytes. -/
def Style.formatBytes (s : Style) (b : ByteArray) : Except Failure Formatted :=
  match decodeText? b with
  | none => .error (.stream .invalidUtf8)
  | some text => (s.format text).mapError .invalidStyle

/-! ## Files -/

/-- The text of a file that was read, or why there is none. -/
def readText (r : Except IoError ByteArray) : Except IoError (List Char) :=
  match r with
  | .error e => .error e
  | .ok b =>
    match decodeText? b with
    | none => .error .invalidUtf8
    | some text => .ok text

namespace Style

/-- Format one file. -/
def formatFile (s : Style) (p : Path) : Action (Except Diagnosis Outcome) :=
  .readFile p fun r =>
    match readText r with
    | .error e => .done (.error { failure := .read p e })
    | .ok text =>
      match s.format text with
      | .error problem =>
        .done (.error { during := some (.formatting p), failure := .invalidStyle problem })
      | .ok f =>
        .reportAll f.events <|
          if f.text = text then .done (.ok .unchanged)
          else .writeFile p (encodeText f.text) fun
            | .error e => .done (.error { failure := .write p e })
            | .ok () => .done (.ok .changed)

/-- Format several files. -/
def formatFiles (s : Style) : List Path → Action (List (Path × Except Diagnosis Outcome))
  | [] => .done []
  | p :: ps => do
    let r ← s.formatFile p
    let rs ← s.formatFiles ps
    return (p, r) :: rs

end Style

end ChainIndent
