import ChainIndent.Schedule
import Mathlib.Logic.Hydra

/-!
# ChainIndent.Proofs.Pools

What holds of a pool however its requests are ordered.

* `wellFounded_step` — there is no endless order: a request takes one action
  to what comes behind it, so the bag of actions goes down in
  `Relation.CutExpand`, even though an action may go on for long after some
  answers and end at once after others.
* `exists_step` — as long as an action is not done, some request is left.
* `alwaysEnds_of_invariant` — so what every step keeps, and what is enough
  when all actions are done, comes out of every order.
-/

namespace ChainIndent

/-- What is related to a list with a marked member has a member marked. -/
theorem exists_append_of_forall₂ {α β : Type} {R : α → β → Prop} {as : List α}
    {before after : List β} {b : β} (h : List.Forall₂ R as (before ++ b :: after)) :
    ∃ as₁ a as₂, as = as₁ ++ a :: as₂ ∧ List.Forall₂ R as₁ before ∧ R a b ∧
      List.Forall₂ R as₂ after := by
  induction before generalizing as with
  | nil =>
      obtain ⟨a, as₂, hab, hafter, rfl⟩ := List.forall₂_cons_right_iff.1 h
      exact ⟨[], a, as₂, rfl, .nil, hab, hafter⟩
  | cons c before ih =>
      obtain ⟨d, as', hdc, hrest, rfl⟩ := List.forall₂_cons_right_iff.1 h
      obtain ⟨as₁, a, as₂, rfl, hbefore, hab, hafter⟩ := ih hrest
      exact ⟨d :: as₁, a, as₂, rfl, .cons hdc hbefore, hab, hafter⟩

variable {α : Type} {cwd : Place}

namespace Action

/-! ## one action -/

/-- What an action may be after one request. -/
def Behind (cwd : Place) (a' a : Action α) : Prop := ∃ t t', a.advance cwd t = some (a', t')

theorem wellFounded_behind (cwd : Place) : WellFounded (Behind (α := α) cwd) := by
  refine ⟨fun a => ?_⟩
  induction a with
  | done v =>
      refine ⟨_, ?_⟩
      rintro a' ⟨t, t', h⟩
      cases h
  | report e next ih =>
      refine ⟨_, ?_⟩
      rintro a' ⟨t, t', h⟩
      cases h
      exact ih
  | readFile p next ih =>
      refine ⟨_, ?_⟩
      rintro a' ⟨t, t', h⟩
      cases h
      exact ih _
  | writeFile p b next ih =>
      refine ⟨_, ?_⟩
      rintro a' ⟨t, t', h⟩
      rw [advance] at h
      split at h
      · cases h
        exact ih _
      · cases h
        exact ih _
  | askDirectory p next ih =>
      refine ⟨_, ?_⟩
      rintro a' ⟨t, t', h⟩
      cases h
      exact ih _
  | askFile p next ih =>
      refine ⟨_, ?_⟩
      rintro a' ⟨t, t', h⟩
      cases h
      exact ih _
  | askHere next ih =>
      refine ⟨_, ?_⟩
      rintro a' ⟨t, t', h⟩
      cases h
      exact ih _

/-- The answer of an action that is done. -/
def answer? : Action α → Option α
  | .done v => some v
  | _ => none

theorem answer?_eq_some_iff {a : Action α} {v : α} : a.answer? = some v ↔ a = .done v := by
  cases a with
  | done v' => simp [answer?]
  | _ => simp [answer?]

/-- An action that is not done has a request. -/
theorem exists_advance {a : Action α} (h : a.answer? = none) (cwd : Place) (t : FileTree) :
    ∃ a' t', a.advance cwd t = some (a', t') := by
  cases a with
  | done v => nomatch h
  | writeFile p b next =>
      rw [advance]
      cases t.write cwd p b with
      | error e => exact ⟨_, _, rfl⟩
      | ok t' => exact ⟨_, _, rfl⟩
  | _ => exact ⟨_, _, rfl⟩

end Action

namespace Pool

variable {p q : Pool α}

/-! ## all actions -/

/-- No order of requests is endless. -/
theorem wellFounded_step (cwd : Place) : WellFounded fun q p : Pool α => Step cwd p q := by
  have hcut := (Action.wellFounded_behind (α := α) cwd).cutExpand
  let bag (p : Pool α) : Multiset (Action α) := p.tasks
  refine Subrelation.wf (fun {q p} h => ?_) (InvImage.wf bag hcut)
  cases h with
  | @move t t' a a' before after h =>
      refine ⟨{a'}, a, fun b hb => ?_, ?_⟩
      · rw [Multiset.mem_singleton.1 hb]
        exact ⟨t, t', h⟩
      · simp only [bag, ← Multiset.coe_add, ← Multiset.cons_coe, ← Multiset.singleton_add]
        ac_rfl

theorem answers?_cons (t : FileTree) (a : Action α) (as : List (Action α)) :
    (Pool.mk t (a :: as)).answers? =
      a.answer?.bind fun v => (Pool.mk t as).answers?.map (v :: ·) := by
  rw [answers?, List.mapM_cons]
  cases a with
  | done v =>
      rw [Action.answer?, Option.bind_some, Option.map_eq_bind]
      rfl
  | _ => rfl

theorem answers?_eq_some_iff {t : FileTree} {as : List (Action α)} {vs : List α} :
    (Pool.mk t as).answers? = some vs ↔ as = vs.map .done := by
  induction as generalizing vs with
  | nil =>
      cases vs with
      | nil => exact iff_of_true rfl rfl
      | cons v vs => exact iff_of_false nofun nofun
  | cons a as ih =>
      rw [answers?_cons, Option.bind_eq_some_iff]
      cases vs with
      | nil => simp
      | cons v vs => simp [Action.answer?_eq_some_iff, ih]

/-- As long as an action is not done, something can be carried out. -/
theorem exists_step (h : p.answers? = none) (cwd : Place) : ∃ q, Step cwd p q := by
  obtain ⟨t, as⟩ := p
  have hopen : ∃ a ∈ as, a.answer? = none := by
    induction as with
    | nil => nomatch h
    | cons a as ih =>
        rw [answers?_cons] at h
        cases ha : a.answer? with
        | none => exact ⟨a, List.mem_cons_self, ha⟩
        | some v =>
            rw [ha, Option.bind_some, Option.map_eq_none_iff] at h
            obtain ⟨b, hb, hopen⟩ := ih h
            exact ⟨b, List.mem_cons_of_mem a hb, hopen⟩
  obtain ⟨a, ha, hnone⟩ := hopen
  obtain ⟨before, after, rfl⟩ := List.append_of_mem ha
  obtain ⟨a', t', hadvance⟩ := a.exists_advance hnone cwd t
  exact ⟨_, .move before after hadvance⟩

/-! ## all orders -/

/-- However the requests are ordered, they come to an end with all actions
done, and then the tree and the answers are as told. -/
structure AlwaysEnds (cwd : Place) (p : Pool α) (P : FileTree → List α → Prop) : Prop where
  /-- No order is endless. -/
  acc : Acc (fun q p => Step cwd p q) p
  /-- No order gets stuck. -/
  exists_step : ∀ q, Reaches cwd p q → q.answers? = none → ∃ r, Step cwd q r
  /-- Every order that ends, ends so. -/
  ends : ∀ t vs, Ends cwd p t vs → P t vs

theorem AlwaysEnds.imp {P Q : FileTree → List α → Prop} (h : AlwaysEnds cwd p P)
    (hPQ : ∀ t vs, P t vs → Q t vs) : AlwaysEnds cwd p Q where
  acc := h.acc
  exists_step := h.exists_step
  ends t vs hends := hPQ t vs (h.ends t vs hends)

theorem alwaysEnds_of_invariant {Inv : Pool α → Prop} {P : FileTree → List α → Prop}
    (hstep : ∀ p q, Inv p → Step cwd p q → Inv q)
    (hend : ∀ t vs, Inv ⟨t, vs.map .done⟩ → P t vs) (hp : Inv p) : AlwaysEnds cwd p P where
  acc := (wellFounded_step cwd).apply p
  exists_step q _ hq := Pool.exists_step hq cwd
  ends t vs h := by
    obtain ⟨q, hreaches, rfl, hanswers⟩ := h
    have hq : Inv q := by
      clear hanswers
      induction hreaches with
      | refl => exact hp
      | head h _ ih => exact ih (hstep _ _ hp h)
    refine hend _ _ ?_
    rw [← answers?_eq_some_iff.1 hanswers]
    exact hq

end Pool

end ChainIndent
