import ChainIndent.Path

/-!
# ChainIndent.FileTree

A tree of directories and files, as far as a program can see it that reads
whole files and replaces their content.

1. A *place* is the list of names from the root down.  The root is always a
   directory.
2. A path is resolved one piece at a time, from the root if it is absolute
   and from the working directory otherwise.  Every piece but the last has
   to lead to a directory, and so has the last if the path goes on with a
   slash; empty pieces and `.` stay where they are, `..` goes up, and the
   empty path leads nowhere.
3. A file may be closed to reading or to writing.
4. Writing replaces the content of one file or fails, and changes nothing
   else.
-/

namespace ChainIndent

/-- Why the file system refused. -/
inductive IoError where
  | notFound
  | permissionDenied
  | notADirectory
  | isADirectory
  | invalidUtf8
  | other (text : String)
  deriving DecidableEq, Repr

/-- The wording of a refusal. -/
def IoError.message : IoError → String
  | .notFound => "No such file or directory (os error 2)"
  | .permissionDenied => "Permission denied (os error 13)"
  | .notADirectory => "Not a directory (os error 20)"
  | .isADirectory => "Is a directory (os error 21)"
  | .invalidUtf8 => "stream did not contain valid UTF-8"
  | .other text => text

/-- The names from the root down. -/
abbrev Place := List (List Char)

/-- The path of a place, from the root. -/
def Place.path (p : Place) : Path := ⟨'/' :: Path.glue p⟩

/-- A file with its content. -/
structure File where
  content : ByteArray
  readable : Bool := true
  writable : Bool := true

/-- What stands at a place. -/
inductive Node where
  | directory
  | file (f : File)

/-- Whether a node is a directory. -/
def Node.isDirectory : Node → Bool
  | .directory => true
  | .file _ => false

/-- The same node with another content, if it is a file. -/
def Node.setContent (b : ByteArray) : Node → Node
  | .directory => .directory
  | .file f => .file { f with content := b }

/-- The places below the root and what stands there. -/
structure FileTree where
  entries : List (Place × Node) := []

namespace FileTree

/-! ## Looking -/

/-- What stands at a place. -/
def node? (t : FileTree) (p : Place) : Option Node :=
  if p = [] then some .directory else t.entries.lookup p

/-- The file at a place. -/
def file? (t : FileTree) (p : Place) : Option File :=
  match t.node? p with
  | some (.file f) => some f
  | _ => none

/-- Follow pieces of a path from a place. -/
def walk (t : FileTree) (p : Place) : List (List Char) → Except IoError Place
  | [] => .ok p
  | n :: ns =>
    match t.node? p with
    | some .directory =>
      if n = [] ∨ n = ['.'] then t.walk p ns
      else if n = ['.', '.'] then t.walk p.dropLast ns
      else if (t.node? (p ++ [n])).isSome then t.walk (p ++ [n]) ns
      else .error .notFound
    | _ => .error .notADirectory

/-- The place that a path leads to, seen from the working directory
`here`. -/
def resolve (t : FileTree) (here : Place) (p : Path) : Except IoError Place :=
  if p.spelling = [] then .error .notFound
  else t.walk (if p.isAbsolute then [] else here) p.body

/-- Whether a path leads to a directory. -/
def isDirectory (t : FileTree) (here : Place) (p : Path) : Bool :=
  match t.resolve here p with
  | .ok q => (t.node? q).any Node.isDirectory
  | .error _ => false

/-- Whether a path leads to a file. -/
def isFile (t : FileTree) (here : Place) (p : Path) : Bool :=
  match t.resolve here p with
  | .ok q => (t.file? q).isSome
  | .error _ => false

/-- The content of the file that a path leads to. -/
def read (t : FileTree) (here : Place) (p : Path) : Except IoError ByteArray := do
  let q ← t.resolve here p
  match t.node? q with
  | some (.file f) => if f.readable then .ok f.content else .error .permissionDenied
  | some .directory => .error .isADirectory
  | none => .error .notFound

/-! ## Changing -/

/-- Another content for the file at a place. -/
def replaceContent (t : FileTree) (p : Place) (b : ByteArray) : FileTree :=
  ⟨t.entries.map fun e => if e.1 = p then (e.1, e.2.setContent b) else e⟩

/-- Replace the content of the file that a path leads to.  No file is made:
where there is none, writing is refused.  Only files that were read before are
written, so a run does not come to that. -/
def write (t : FileTree) (here : Place) (p : Path) (b : ByteArray) : Except IoError FileTree := do
  let q ← t.resolve here p
  match t.node? q with
  | some (.file f) => if f.writable then .ok (t.replaceContent q b) else .error .permissionDenied
  | some .directory => .error .isADirectory
  | none => .error .notFound

/-- Put a node at a place where nothing stands yet. -/
def insertNew (t : FileTree) (p : Place) (n : Node) : FileTree :=
  if (t.node? p).isSome then t else ⟨t.entries ++ [(p, n)]⟩

/-- The tree with a directory at the end of some names below a place, and
every directory on the way. -/
def makeDirectories (t : FileTree) (above : Place) : List (List Char) → FileTree
  | [] => t
  | n :: ns => (t.insertNew (above ++ [n]) .directory).makeDirectories (above ++ [n]) ns

/-- The tree without what stands at a place or below it. -/
def remove (t : FileTree) (p : Place) : FileTree :=
  ⟨t.entries.filter fun e => !p.isPrefixOf e.1⟩

/-- The tree with a file at a place, in directories made for it where they
are missing, and instead of what stood there. -/
def put (t : FileTree) (p : Place) (f : File) : FileTree :=
  ((t.makeDirectories [] p.dropLast).remove p).insertNew p (.file f)

/-- The places of all files. -/
def files (t : FileTree) : List (Place × File) :=
  t.entries.filterMap fun e =>
    match e.2 with
    | .file f => some (e.1, f)
    | .directory => none

/-! ## How looking and changing fit together -/

/-- Replacing a content changes the node at that place only. -/
theorem node?_replaceContent (t : FileTree) (p q : Place) (b : ByteArray) :
    (t.replaceContent p b).node? q =
      (t.node? q).map fun n => if q = p then n.setContent b else n := by
  unfold node? replaceContent
  by_cases hq : q = []
  · subst hq; simp only [if_true, Option.map_some, Node.setContent]; split <;> rfl
  · simp only [hq, if_false]
    induction t.entries with
    | nil => rfl
    | cons e es ih =>
      obtain ⟨r, n⟩ := e
      by_cases hr : q = r
      · subst hr
        by_cases hp : q = p <;> simp [hp]
      · have hb : (q == r) = false := beq_false_of_ne hr
        by_cases hp : r = p
        · subst hp; simpa [List.lookup_cons, hb] using ih
        · simpa [List.lookup_cons, hb, hp] using ih

/-- What stands where, and so every resolution of a path, is untouched by
replacing a content. -/
theorem walk_replaceContent (t : FileTree) (p : Place) (b : ByteArray) (q : Place)
    (ns : List (List Char)) : (t.replaceContent p b).walk q ns = t.walk q ns := by
  induction ns generalizing q with
  | nil => rfl
  | cons n ns ih =>
    have hsome : ∀ r, ((t.replaceContent p b).node? r).isSome = (t.node? r).isSome := by
      intro r
      rw [node?_replaceContent, Option.isSome_map]
    rw [walk, walk]
    simp only [ih, hsome]
    rw [node?_replaceContent]
    cases h : t.node? q with
    | none => rfl
    | some m => cases m <;> by_cases hq : q = p <;> simp [hq, Node.setContent]

end FileTree

end ChainIndent
