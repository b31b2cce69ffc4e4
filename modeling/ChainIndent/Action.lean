import ChainIndent.Event
import ChainIndent.FileTree

/-!
# ChainIndent.Action

Programs that use the file system, as data.  An action is a tree of
requests: each node asks for one thing and tells how to go on with the
answer.  It can be run on a `FileTree`, one request after the other, or be
taken apart into single requests when several run side by side; the command
line carries the same actions out on the real file system.

1. A request is atomic: a whole file is read or replaced at once.
2. Reading and asking never change the tree.
3. Events are kept in the order in which they are reported.
-/

namespace ChainIndent

/-- A program that ends with an `α`. -/
inductive Action (α : Type) where
  /-- The end. -/
  | done (a : α)
  /-- Report an event. -/
  | report (e : Event) (next : Action α)
  /-- Read a whole file. -/
  | readFile (p : Path) (next : Except IoError ByteArray → Action α)
  /-- Replace the content of a file. -/
  | writeFile (p : Path) (b : ByteArray) (next : Except IoError Unit → Action α)
  /-- Ask whether a path leads to a directory. -/
  | askDirectory (p : Path) (next : Bool → Action α)
  /-- Ask whether a path leads to a file. -/
  | askFile (p : Path) (next : Bool → Action α)
  /-- Ask for the path of the working directory. -/
  | askHere (next : Option Path → Action α)

namespace Action

/-! ## Putting actions together -/

/-- Go on with another action at the end. -/
def bind {α β : Type} (f : α → Action β) : Action α → Action β
  | .done a => f a
  | .report e next => .report e (next.bind f)
  | .readFile p next => .readFile p fun r => (next r).bind f
  | .writeFile p b next => .writeFile p b fun r => (next r).bind f
  | .askDirectory p next => .askDirectory p fun r => (next r).bind f
  | .askFile p next => .askFile p fun r => (next r).bind f
  | .askHere next => .askHere fun r => (next r).bind f

instance : Monad Action where
  pure := .done
  bind a f := a.bind f

/-- Report some events, in order. -/
def reportAll {α : Type} (es : List Event) (next : Action α) : Action α :=
  es.foldr Action.report next

def read (p : Path) : Action (Except IoError ByteArray) := .readFile p .done

def write (p : Path) (b : ByteArray) : Action (Except IoError Unit) := .writeFile p b .done

def isDirectory (p : Path) : Action Bool := .askDirectory p .done

def isFile (p : Path) : Action Bool := .askFile p .done

def here : Action (Option Path) := .askHere .done

/-! ## Running on a tree -/

/-- What is left after an action has run. -/
structure Result (α : Type) where
  value : α
  tree : FileTree
  events : List Event

/-- Run an action to its end, in the working directory `cwd`. -/
def run {α : Type} (cwd : Place) : Action α → FileTree → Result α
  | .done a, t => ⟨a, t, []⟩
  | .report e next, t =>
    let r := next.run cwd t
    { r with events := e :: r.events }
  | .readFile p next, t => (next (t.read cwd p)).run cwd t
  | .writeFile p b next, t =>
    match t.write cwd p b with
    | .ok t' => (next (.ok ())).run cwd t'
    | .error e => (next (.error e)).run cwd t
  | .askDirectory p next, t => (next (t.isDirectory cwd p)).run cwd t
  | .askFile p next, t => (next (t.isFile cwd p)).run cwd t
  | .askHere next, t => (next (some cwd.path)).run cwd t

/-- An action that goes on runs in one piece with what it goes on with. -/
theorem run_bind {α β : Type} (cwd : Place) (f : α → Action β) (a : Action α) (t : FileTree) :
    (a.bind f).run cwd t =
      { (f (a.run cwd t).value).run cwd (a.run cwd t).tree with
        events := (a.run cwd t).events ++ ((f (a.run cwd t).value).run cwd (a.run cwd t).tree).events } := by
  induction a generalizing t with
  | done a => simp [bind, run]
  | report e next ih => simp [bind, run, ih]
  | readFile p next ih => simp [bind, run, ih]
  | writeFile p b next ih =>
    simp only [bind, run]
    split <;> simp [ih]
  | askDirectory p next ih => simp [bind, run, ih]
  | askFile p next ih => simp [bind, run, ih]
  | askHere next ih => simp [bind, run, ih]

@[simp] theorem run_reportAll {α : Type} (cwd : Place) (es : List Event) (next : Action α)
    (t : FileTree) :
    (reportAll es next).run cwd t =
      { next.run cwd t with events := es ++ (next.run cwd t).events } := by
  induction es with
  | nil => rfl
  | cons e es ih => simp only [reportAll, List.foldr_cons, run] at ih ⊢; rw [ih]; rfl

end Action

end ChainIndent
