import Mathlib.Data.List.Nodup

/-!
# Transition systems and outstanding operations

An event that may occur in a state either leads to a next state or has no defined
effect, which is `none`. Invariants are shown once, here, to hold in every reachable
state, also relative to another invariant.

The second part is about systems in which every live object has exactly one
outstanding operation: what finishing one and beginning another does to that.
-/

namespace Transition

structure System (State Event : Type) where
  initial : State → Prop
  enabled : State → Event → Prop
  next : State → Event → Option State

namespace System

variable {State Event : Type} (S : System State Event)

inductive Reachable : State → Prop where
  | initial {s : State} : S.initial s → Reachable s
  | step {s s' : State} {e : Event} : Reachable s → S.enabled s e → S.next s e = some s' → Reachable s'

/-- Every event that may occur has a defined effect. -/
def Safe (s : State) : Prop := ∀ e, S.enabled s e → ∃ s', S.next s e = some s'

/-- What holds initially and is kept by every step that starts with `I`. -/
structure InvariantUnder (I J : State → Prop) : Prop where
  initial : ∀ s, S.initial s → J s
  step : ∀ s e s', I s → J s → S.enabled s e → S.next s e = some s' → J s'

/-- What holds initially and is kept by every step. -/
def Invariant (J : State → Prop) : Prop := S.InvariantUnder (fun _ => True) J

variable {S}

theorem InvariantUnder.of_reachable {I J : State → Prop} (h : S.InvariantUnder I J)
    (hI : ∀ s, S.Reachable s → I s) {s : State} (hs : S.Reachable s) : J s := by
  induction hs with
  | initial h₀ => exact h.initial _ h₀
  | step hr he hn ih => exact h.step _ _ _ (hI _ hr) ih he hn

theorem Invariant.of_reachable {J : State → Prop} (h : S.Invariant J) {s : State} (hs : S.Reachable s) : J s :=
  InvariantUnder.of_reachable h (fun _ _ => trivial) hs

/-- The events occur one after the other, each in a state where it may. -/
inductive Run (S : System State Event) : State → List Event → State → Prop where
  | nil (s : State) : Run S s [] s
  | cons {s s' s'' : State} {e : Event} {es : List Event} :
    S.enabled s e → S.next s e = some s' → Run S s' es s'' → Run S s (e :: es) s''

/-- Events that may always occur lead from a reachable state to reachable states. -/
theorem Reachable.foldlM {s s' : State} {es : List Event} (hs : S.Reachable s) (he : ∀ e ∈ es, ∀ s, S.enabled s e)
    (h : es.foldlM S.next s = some s') : S.Reachable s' := by
  induction es generalizing s with
  | nil => exact Option.some.inj h ▸ hs
  | cons e es ih =>
    rw [List.foldlM_cons] at h
    obtain ⟨s₁, hn, hrest⟩ := Option.bind_eq_some_iff.mp h
    exact ih (hs.step (he e List.mem_cons_self s) hn) (fun e' he' => he e' (List.mem_cons_of_mem _ he')) hrest

/-- What an observer notes who looks at every step of a run. -/
def observe {Output : Type} (S : System State Event) (look : State → Event → State → List Output) :
    State → List Event → List Output
  | _, [] => []
  | s, e :: es =>
    match S.next s e with
    | none => []
    | some s' => look s e s' ++ S.observe look s' es

theorem observe_cons {Output : Type} (look : State → Event → State → List Output) {s s' : State} {e : Event}
    (h : S.next s e = some s') (es : List Event) :
    S.observe look s (e :: es) = look s e s' ++ S.observe look s' es := by
  rw [observe, h]

end System

section Outstanding

variable {Owner Op : Type}

/-- Every live owner has exactly one outstanding operation, and nobody else has one. -/
structure OneEach (pending : List (Owner × Op)) (live : Owner → Prop) : Prop where
  nodup : (pending.map Prod.fst).Nodup
  live_iff : ∀ o, live o ↔ ∃ op, (o, op) ∈ pending

namespace OneEach

variable {pending : List (Owner × Op)} {live live' : Owner → Prop} {o : Owner} {op op' : Op}

theorem congr (h : OneEach pending live) (hl : ∀ o, live' o ↔ live o) : OneEach pending live' :=
  ⟨h.nodup, fun o => (hl o).trans (h.live_iff o)⟩

theorem live_of_mem (h : OneEach pending live) (hm : (o, op) ∈ pending) : live o := (h.live_iff o).mpr ⟨op, hm⟩

theorem unique (h : OneEach pending live) (hm : (o, op) ∈ pending) (hm' : (o, op') ∈ pending) : op = op' :=
  (Prod.mk.inj (List.inj_on_of_nodup_map h.nodup hm hm' rfl)).2

/-- An owner that is not live begins an operation and is live. -/
theorem start (h : OneEach pending live) (hn : ¬ live o) (op : Op) :
    OneEach (pending ++ [(o, op)]) fun o' => live o' ∨ o' = o := by
  have hnew : o ∉ pending.map Prod.fst := by
    intro hm
    obtain ⟨⟨o', op'⟩, hp, rfl⟩ := List.mem_map.mp hm
    exact hn (h.live_of_mem hp)
  refine ⟨?_, ?_⟩
  · rw [List.map_append, List.nodup_append]
    refine ⟨h.nodup, List.nodup_singleton _, ?_⟩
    intro a ha b hb he
    rw [List.map_singleton, List.mem_singleton] at hb
    rw [he, hb] at ha
    exact hnew ha
  · intro o'
    simp only [List.mem_append, List.mem_singleton, Prod.mk.injEq, exists_or, h.live_iff]
    simp

variable [DecidableEq Owner] [DecidableEq Op]

theorem mem_erase_of_ne {o' : Owner} (hne : o' ≠ o) :
    (o', op') ∈ pending.erase (o, op) ↔ (o', op') ∈ pending :=
  List.mem_erase_of_ne fun he => hne (Prod.mk.inj he).1

/-- An owner whose operation is finished has none. -/
theorem finish (h : OneEach pending live) (hm : (o, op) ∈ pending) :
    OneEach (pending.erase (o, op)) fun o' => live o' ∧ o' ≠ o := by
  have hperm := (List.perm_cons_erase hm).map Prod.fst
  have hnodup := hperm.nodup h.nodup
  rw [List.map_cons, List.nodup_cons] at hnodup
  refine ⟨hnodup.2, ?_⟩
  intro o'
  by_cases he : o' = o
  · subst he
    simp only [ne_eq, not_true_eq_false, and_false, false_iff, not_exists]
    intro op' hm'
    exact hnodup.1 (List.mem_map.mpr ⟨_, hm', rfl⟩)
  · simp only [ne_eq, he, not_false_eq_true, and_true, mem_erase_of_ne he, h.live_iff]

end OneEach

end Outstanding

end Transition
