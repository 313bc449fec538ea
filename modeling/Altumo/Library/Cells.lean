import Mathlib.Data.List.Nodup

/-!
# Cells that are released once

A heap is a list of cells, and a released cell is `none`. To release a position
without a live cell has no defined effect.
-/

namespace Cells

variable {α : Type}

abbrev Heap (α : Type) := List (Option α)

def release (heap : Heap α) (p : Nat) : Option (Heap α) :=
  match heap[p]? with
  | some (some _) => some (heap.set p none)
  | _ => none

def releaseAll (heap : Heap α) (ps : List Nat) : Option (Heap α) := ps.foldlM release heap

def Live (heap : Heap α) (p : Nat) : Prop := ∃ a, heap[p]? = some (some a)

theorem release_eq_some_iff {heap heap' : Heap α} {p : Nat} :
    release heap p = some heap' ↔ Live heap p ∧ heap' = heap.set p none := by
  rw [release, Live]
  cases heap[p]? with
  | none => simp
  | some cell =>
    cases cell with
    | none => simp
    | some a => simp [eq_comm]

theorem live_set (heap : Heap α) (p q : Nat) : Live (heap.set p none) q ↔ Live heap q ∧ q ≠ p := by
  simp only [Live, List.getElem?_set]
  by_cases h : p = q
  · subst h
    by_cases hp : p < heap.length <;> simp [hp]
  · simp [h, Ne.symm h]

/-- What is live after a pass is what the pass did not release. -/
theorem live_releaseAll {heap heap' : Heap α} {ps : List Nat} (h : releaseAll heap ps = some heap') :
    heap'.length = heap.length ∧ ∀ q, Live heap' q ↔ Live heap q ∧ q ∉ ps := by
  induction ps generalizing heap with
  | nil =>
    cases h
    simp
  | cons p ps ih =>
    rw [releaseAll, List.foldlM_cons, Option.bind_eq_bind, Option.bind_eq_some_iff] at h
    obtain ⟨mid, hr, h⟩ := h
    obtain ⟨-, rfl⟩ := release_eq_some_iff.mp hr
    obtain ⟨hlen, hlive⟩ := ih h
    rw [List.length_set] at hlen
    refine ⟨hlen, fun q => ?_⟩
    rw [hlive, live_set, List.mem_cons, not_or, and_assoc]

/-- A pass has a defined effect exactly when its positions are live and different. -/
theorem releaseAll_isSome_iff (heap : Heap α) (ps : List Nat) :
    (∃ heap', releaseAll heap ps = some heap') ↔ ps.Nodup ∧ ∀ p ∈ ps, Live heap p := by
  induction ps generalizing heap with
  | nil => simp [releaseAll]
  | cons p ps ih =>
    have hstep : (∃ heap', releaseAll heap (p :: ps) = some heap') ↔
        Live heap p ∧ ∃ heap', releaseAll (heap.set p none) ps = some heap' := by
      simp only [releaseAll, List.foldlM_cons, Option.bind_eq_bind, Option.bind_eq_some_iff, release_eq_some_iff]
      constructor
      · rintro ⟨heap', mid, ⟨hp, rfl⟩, h⟩
        exact ⟨hp, heap', h⟩
      · rintro ⟨hp, heap', h⟩
        exact ⟨heap', _, ⟨hp, rfl⟩, h⟩
    rw [hstep, ih, List.nodup_cons, List.forall_mem_cons]
    simp only [live_set]
    constructor
    · rintro ⟨hp, hnodup, hlive⟩
      exact ⟨⟨fun hin => (hlive p hin).2 rfl, hnodup⟩, hp, fun q hq => (hlive q hq).1⟩
    · rintro ⟨⟨hnot, hnodup⟩, hp, hlive⟩
      exact ⟨hp, hnodup, fun q hq => ⟨hlive q hq, fun he => hnot (he ▸ hq)⟩⟩

theorem live_new_iff (as : List α) (p : Nat) : Live (as.map some) p ↔ p < as.length := by
  simp only [Live, List.getElem?_map, Option.map_eq_some_iff, Option.some.injEq, exists_eq_right]
  rw [← Option.isSome_iff_exists]
  simp

theorem eq_replicate_iff (heap : Heap α) : heap = List.replicate heap.length none ↔ ∀ p, ¬ Live heap p := by
  rw [List.eq_replicate_iff]
  simp only [true_and, Live, not_exists]
  constructor
  · intro h p a hp
    cases h _ (List.mem_of_getElem? hp)
  · intro h cell hcell
    obtain ⟨p, hp⟩ := List.getElem?_of_mem hcell
    cases cell with
    | none => rfl
    | some a => exact absurd hp (h p a)

/-- A pass over a new heap releases every cell exactly once when it goes through every
position exactly once. -/
theorem releaseAll_all_iff (as : List α) (ps : List Nat) :
    releaseAll (as.map some) ps = some (List.replicate as.length none) ↔
      ps.Nodup ∧ ∀ p, p ∈ ps ↔ p < as.length := by
  constructor
  · intro h
    obtain ⟨hnodup, hin⟩ := (releaseAll_isSome_iff _ ps).mp ⟨_, h⟩
    refine ⟨hnodup, fun p => ⟨fun hp => (live_new_iff as p).mp (hin p hp), fun hp => ?_⟩⟩
    have hdead := (eq_replicate_iff (List.replicate as.length (none : Option α))).mp (by simp) p
    rw [(live_releaseAll h).2, live_new_iff] at hdead
    by_contra hnot
    exact hdead ⟨hp, hnot⟩
  · rintro ⟨hnodup, hall⟩
    obtain ⟨heap', h⟩ := (releaseAll_isSome_iff (as.map some) ps).mpr
      ⟨hnodup, fun p hp => (live_new_iff as p).mpr ((hall p).mp hp)⟩
    obtain ⟨hlen, hlive⟩ := live_releaseAll h
    rw [List.length_map] at hlen
    rw [h, ← hlen, ← (eq_replicate_iff heap').mpr]
    intro p
    rw [hlive, live_new_iff, hall]
    exact fun ⟨hp, hnot⟩ => hnot hp

end Cells
