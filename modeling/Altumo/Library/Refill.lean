import Mathlib.Data.List.Basic

/-!
# Sources that are read through a buffer

A state has some items ready and can be refilled when it has none. What a source
yields is what its reader gets in all, however the refills cut it.
-/

namespace Refill

structure Source (σ α : Type) where
  wellFormed : σ → Prop
  closed : σ → Bool
  ready : σ → List α
  consume : Nat → σ → σ
  fill : σ → Option σ
  ready_consume : ∀ n s, ready (consume n s) = (ready s).drop n
  wellFormed_consume : ∀ n s, wellFormed s → wellFormed (consume n s)
  closed_consume : ∀ n s, closed (consume n s) = closed s
  consume_zero : ∀ s, consume 0 s = s
  consume_consume : ∀ m n s, consume n (consume m s) = consume (m + n) s

variable {σ α : Type} (S : Source σ α)

/-- Read to its end, the source gives these items and closes in that state. -/
inductive Yields : σ → List α → σ → Prop where
  | closed {s : σ} : S.closed s = true → Yields s [] s
  | ready {s e : σ} {c : List α} : S.closed s = false → S.ready s ≠ [] →
    Yields (S.consume (S.ready s).length s) c e → Yields s (S.ready s ++ c) e
  | fill {s s' e : σ} {c : List α} : S.closed s = false → S.ready s = [] → S.fill s = some s' → S.wellFormed s' →
    (S.closed s' = false → S.ready s' ≠ []) → Yields s' c e → Yields s c e

variable {S}

namespace Yields

variable {s e : σ} {c : List α}

/-- The items that are ready are the next ones, and may be taken in parts. -/
theorem consume (h : Yields S s c e) (ho : S.closed s = false) {n : Nat} (hn : n ≤ (S.ready s).length) :
    c.take n = (S.ready s).take n ∧ Yields S (S.consume n s) (c.drop n) e := by
  cases h with
  | closed hc => rw [ho] at hc; cases hc
  | ready _ hr hy =>
    rename_i c
    refine ⟨by rw [List.take_append_of_le_length hn], ?_⟩
    rw [List.drop_append_of_le_length hn]
    by_cases hlt : n < (S.ready s).length
    · have hready : S.ready (S.consume n s) = (S.ready s).drop n := S.ready_consume n s
      rw [← hready]
      refine .ready (by rw [S.closed_consume, ho]) ?_ ?_
      · rw [hready]
        exact fun hnil => absurd (List.drop_eq_nil_iff.mp hnil) (by omega)
      · rw [hready, S.consume_consume, List.length_drop, show n + ((S.ready s).length - n) = (S.ready s).length by omega]
        exact hy
    · have heq : n = (S.ready s).length := by omega
      rw [heq, List.drop_length, List.nil_append]
      exact hy
  | fill _ hr hf hw hp hy =>
    have hzero : n = 0 := by rw [hr] at hn; simpa using hn
    rw [hzero, S.consume_zero]
    exact ⟨by simp, .fill ho hr hf hw hp hy⟩

theorem eq_nil_of_closed (h : Yields S s c e) (hc : S.closed s = true) : c = [] ∧ e = s := by
  cases h with
  | closed _ => exact ⟨rfl, rfl⟩
  | ready ho _ _ => rw [hc] at ho; cases ho
  | fill ho _ _ _ _ _ => rw [hc] at ho; cases ho

/-- Nothing ready: the next refill says how it goes on. -/
theorem exists_fill (h : Yields S s c e) (ho : S.closed s = false) (hr : S.ready s = []) :
    ∃ s', S.fill s = some s' ∧ S.wellFormed s' ∧ (S.closed s' = false → S.ready s' ≠ []) ∧ Yields S s' c e := by
  cases h with
  | closed hc => rw [ho] at hc; cases hc
  | ready _ hne _ => exact absurd hr hne
  | fill _ _ hf hw hp hy => exact ⟨_, hf, hw, hp, hy⟩

theorem closed_end (h : Yields S s c e) : S.closed e = true := by
  induction h with
  | closed hc => exact hc
  | ready _ _ _ ih => exact ih
  | fill _ _ _ _ _ _ ih => exact ih

end Yields

end Refill
