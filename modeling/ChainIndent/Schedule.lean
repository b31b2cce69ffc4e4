import ChainIndent.Action

/-!
# ChainIndent.Schedule

Actions that run side by side on one tree.

1. One request of one action is carried out at a time, whole; which action
   moves next is open.
2. A pool has finished when all its actions are done.  Its actions keep
   their order, so the answers come out in the order in which the actions
   were given.
-/

namespace ChainIndent

/-- Carry out the first request of an action, if it has one. -/
def Action.advance {α : Type} (cwd : Place) : Action α → FileTree → Option (Action α × FileTree)
  | .done _, _ => none
  | .report _ next, t => some (next, t)
  | .readFile p next, t => some (next (t.read cwd p), t)
  | .writeFile p b next, t =>
    match t.write cwd p b with
    | .ok t' => some (next (.ok ()), t')
    | .error e => some (next (.error e), t)
  | .askDirectory p next, t => some (next (t.isDirectory cwd p), t)
  | .askFile p next, t => some (next (t.isFile cwd p), t)
  | .askHere next, t => some (next (some cwd.path), t)

/-- Actions in progress, and the tree they share. -/
structure Pool (α : Type) where
  tree : FileTree
  tasks : List (Action α)

namespace Pool

/-- One request of one of the actions. -/
inductive Step {α : Type} (cwd : Place) : Pool α → Pool α → Prop where
  | move {t t' : FileTree} {a a' : Action α} (before after : List (Action α))
      (h : a.advance cwd t = some (a', t')) :
      Step cwd ⟨t, before ++ a :: after⟩ ⟨t', before ++ a' :: after⟩

/-- Any number of requests, in any order. -/
inductive Reaches {α : Type} (cwd : Place) : Pool α → Pool α → Prop where
  | refl (p : Pool α) : Reaches cwd p p
  | head {p q r : Pool α} (h : Step cwd p q) (hs : Reaches cwd q r) : Reaches cwd p r

/-- The answers of a pool whose actions are all done. -/
def answers? {α : Type} (p : Pool α) : Option (List α) :=
  p.tasks.mapM fun a =>
    match a with
    | .done v => some v
    | _ => none

/-- A pool ends in a tree with some answers when some order of requests
leads there. -/
def Ends {α : Type} (cwd : Place) (p : Pool α) (t : FileTree) (as : List α) : Prop :=
  ∃ q, Reaches cwd p q ∧ q.tree = t ∧ q.answers? = some as

end Pool

/-- Advancing an action by one request changes nothing about where its run
ends. -/
theorem Action.run_of_advance {α : Type} {cwd : Place} {a a' : Action α} {t t' : FileTree}
    (h : a.advance cwd t = some (a', t')) :
    (a.run cwd t).value = (a'.run cwd t').value ∧ (a.run cwd t).tree = (a'.run cwd t').tree := by
  cases a with
  | done v => cases h
  | writeFile p b next =>
    simp only [advance] at h
    simp only [run]
    cases hw : t.write cwd p b <;> rw [hw] at h <;> cases h <;> exact ⟨rfl, rfl⟩
  | _ => cases h; exact ⟨rfl, rfl⟩

end ChainIndent
