import ChainIndent.InPlace
import ChainIndent.Style.Layer

/-!
# ChainIndent.Discovery

Finding the style of a file.  A style file may stand in any directory above
the file that is formatted.

1. The search starts at the path itself if it is a directory, otherwise at
   its parent, or at the working directory if the parent is missing or
   empty.
2. Style files are looked for beside every ancestor of the start, the
   farthest first.  Only regular files count, and none counts twice.
3. They are laid over the standard style in that order, so the nearest wins,
   field by field.  The first that cannot be read or is no valid layer ends
   the search with a failure.
4. Only the style that comes out is checked; what a farther file sets is
   harmless where a nearer one overrides it.
-/

namespace ChainIndent

/-- The name of a style file. -/
def styleFileName : List Char := "fluent-indent.toml".toList

/-- The directory where the search for style files starts. -/
def searchStart (p : Path) : Action (Option Path) := do
  if ← Action.isDirectory p then return some p
  match p.parent? with
  | some q => if q.spelling = [] then Action.here else return some q
  | none => Action.here

/-- Where style files may stand, the farthest place first. -/
def styleFileCandidates (start : Path) : List Path :=
  start.ancestors.reverse.map fun a => a.join styleFileName

/-- The candidates that are files, behind those already found, of which
none is the same path again. -/
def keepFiles (found : List Path) : List Path → Action (List Path)
  | [] => .done found
  | p :: ps => do
    if (← Action.isFile p) && !found.any (·.sameAs p) then keepFiles (found ++ [p]) ps
    else keepFiles found ps

/-- The style files above a path, the farthest first. -/
def styleFiles (p : Path) : Action (List Path) := do
  match ← searchStart p with
  | none => return []
  | some start => keepFiles [] (styleFileCandidates start)

/-- What a style file sets, once it was read. -/
def layerOf (p : Path) (r : Except IoError ByteArray) : Except Failure Style.Layer :=
  match readText r with
  | .error e => .error (.styleRead p e)
  | .ok text =>
    match Style.Layer.ofToml? text with
    | none => .error (.styleParse p)
    | some l => .ok l

/-- What a style file sets. -/
def readLayer (p : Path) : Action (Except Failure Style.Layer) :=
  .readFile p fun r => .done (layerOf p r)

namespace Style

/-- Lay style files over a style, one after the other. -/
def applyFiles (s : Style) : List Path → Action (Except Failure Style)
  | [] => .done (.ok s)
  | p :: ps =>
    .report (.applyingStyleFile p) do
      match ← readLayer p with
      | .error e => return .error e
      | .ok l => (s.overlay l).applyFiles ps

/-- A style, if it is valid. -/
def checked (s : Style) : Except Failure Style :=
  match s.problem? with
  | some problem => .error (.invalidStyle problem)
  | none => .ok s

/-- The style for a path: what the style files above it make of the
standard style. -/
def load (p : Path) : Action (Except Failure Style) := do
  match ← standard.applyFiles (← styleFiles p) with
  | .error e => return .error e
  | .ok s => return s.checked

/-- The style that one file writes, not checked. -/
def loadFile (p : Path) : Action (Except Failure Style) := do
  match ← readLayer p with
  | .error e => return .error e
  | .ok l => return .ok (standard.overlay l)

end Style

end ChainIndent
