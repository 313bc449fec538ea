import Altumo.Library.Refill

/-!
# Runs in lockstep

Two runs of a program from related states: both are undefined, or both return the
same in states that are related again.
-/

namespace Lockstep

variable {α α' β β' σ : Type}

/-- The same result, and related states. -/
def Agree (R : σ → σ → Prop) (p q : α × σ) : Prop := p.1 = q.1 ∧ R p.2 q.2

section Rules

variable {S : α → α' → Prop} {T : β → β' → Prop}

theorem rel_bind {x : Option α} {y : Option α'} {f : α → Option β} {g : α' → Option β'} (h : Option.Rel S x y)
    (hk : ∀ a b, S a b → Option.Rel T (f a) (g b)) : Option.Rel T (x.bind f) (y.bind g) := by
  cases h with
  | some hab => exact hk _ _ hab
  | none => exact .none

theorem rel_ite {c : Prop} [Decidable c] {x x' : Option α} {y y' : Option α'} (hpos : c → Option.Rel S x y)
    (hneg : ¬ c → Option.Rel S x' y') : Option.Rel S (if c then x else x') (if c then y else y') := by
  by_cases hc : c
  · rw [if_pos hc, if_pos hc]
    exact hpos hc
  · rw [if_neg hc, if_neg hc]
    exact hneg hc

theorem exists_of_rel {x : Option α} {y : Option α'} (h : Option.Rel S x y) {a : α} (hx : x = some a) :
    ∃ b, y = some b ∧ S a b := by
  cases h with
  | some hab =>
    obtain rfl := Option.some.inj hx
    exact ⟨_, rfl, hab⟩
  | none => cases hx

variable {R : σ → σ → Prop} {s t : σ}

theorem agree_some (a : α) (h : R s t) : Option.Rel (Agree R) (some (a, s)) (some (a, t)) := .some ⟨rfl, h⟩

/-- What follows on a result goes on from related states. -/
theorem agree_bind {x y : Option (α × σ)} {f : α × σ → Option β} {g : α × σ → Option β'}
    (h : Option.Rel (Agree R) x y)
    (hk : ∀ a s t, R s t → Option.Rel T (f (a, s)) (g (a, t))) : Option.Rel T (x.bind f) (y.bind g) := by
  refine rel_bind h ?_
  rintro ⟨a, s⟩ ⟨b, t⟩ ⟨hab, hst⟩
  obtain rfl : a = b := hab
  exact hk a s t hst

end Rules

open Refill

/-- A relation that nothing a reader sees of a source tells apart. -/
structure Keeps (S : Source σ α) (R : σ → σ → Prop) : Prop where
  wellFormed : ∀ {s t}, R s t → S.wellFormed s → S.wellFormed t
  closed : ∀ {s t}, R s t → S.closed t = S.closed s
  ready : ∀ {s t}, R s t → S.ready t = S.ready s
  consume : ∀ {s t}, R s t → ∀ n, R (S.consume n s) (S.consume n t)
  fill : ∀ {s t}, R s t → Option.Rel R (S.fill s) (S.fill t)

/-- Related states yield the same. -/
theorem Keeps.yields {S : Source σ α} {R : σ → σ → Prop} (hR : Keeps S R) {s t e : σ} {c : List α} (h : Yields S s c e)
    (hst : R s t) : ∃ e', Yields S t c e' ∧ R e e' := by
  induction h generalizing t with
  | closed hc => exact ⟨t, .closed ((hR.closed hst).trans hc), hst⟩
  | ready ho hne _ ih =>
    rename_i s e c _
    obtain ⟨e', hy, he⟩ := ih (hR.consume hst (S.ready s).length)
    have hready := hR.ready hst
    refine ⟨e', ?_, he⟩
    rw [← hready] at hne hy ⊢
    exact .ready ((hR.closed hst).trans ho) hne hy
  | fill ho hr hf hw hp _ ih =>
    obtain ⟨t', hf', hst'⟩ := exists_of_rel (hR.fill hst) hf
    obtain ⟨e', hy, he⟩ := ih hst'
    refine ⟨e', .fill ((hR.closed hst).trans ho) ((hR.ready hst).trans hr) hf' (hR.wellFormed hst' hw) ?_ hy, he⟩
    intro hc
    rw [hR.ready hst']
    exact hp ((hR.closed hst').symm.trans hc)

end Lockstep
