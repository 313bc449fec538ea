import Mathlib.Data.Set.Pairwise.Basic
import Altumo.Library.OrderedMap

/-!
# Disjoint intervals behind a predecessor search

A family of closed intervals, no two of which meet, is stored in a map from lower
ends to values. The search takes the value at the greatest lower end that is at
most the point, provided that some lower end lies above the point. Where the
point is covered, and where it is not, decides whether the answer is the value of
the interval around the point.
-/

namespace Intervals

variable {K V : Type} [LinearOrder K]

structure Interval (K V : Type) where
  lo : K
  hi : K
  value : V

def Interval.Covers (i : Interval K V) (x : K) : Prop := i.lo ≤ x ∧ x ≤ i.hi

/-- One interval ends before the other begins. -/
def Apart (i j : Interval K V) : Prop := i.hi < j.lo ∨ j.hi < i.lo

/-- A family of nonempty intervals, no two of which meet, indexed by a map. -/
structure Indexed (S : Set (Interval K V)) (m : OrderedMap K V) : Prop where
  nonempty : ∀ i ∈ S, i.lo ≤ i.hi
  apart : S.Pairwise Apart
  index : ∀ k v, m.find? k = some v ↔ ∃ i ∈ S, i.lo = k ∧ i.value = v

/-- The answer of the search at a point. -/
def Found (m : OrderedMap K V) (x : K) (v : V) : Prop :=
  OrderedMap.IsFloor m.find? x v ∧ ∃ k, x < k ∧ m.find? k ≠ none

variable {S : Set (Interval K V)} {m : OrderedMap K V}

theorem Indexed.stored_iff (h : Indexed S m) (k : K) : m.find? k ≠ none ↔ ∃ i ∈ S, i.lo = k := by
  constructor
  · intro hk
    obtain ⟨v, hv⟩ := Option.ne_none_iff_exists'.mp hk
    obtain ⟨i, hi, hlo, -⟩ := (h.index k v).mp hv
    exact ⟨i, hi, hlo⟩
  · rintro ⟨i, hi, hlo⟩
    rw [(h.index k i.value).mpr ⟨i, hi, hlo, rfl⟩]
    simp

/-- No other interval begins between the lower end of an interval and a point in it. -/
theorem Indexed.lo_le_of_covers (h : Indexed S m) {i j : Interval K V} (hi : i ∈ S) (hj : j ∈ S) {x : K}
    (hx : i.Covers x) (hjx : j.lo ≤ x) : j.lo ≤ i.lo := by
  by_cases he : j = i
  · rw [he]
  · rcases h.apart hj hi he with hlt | hlt
    · exact le_of_lt (lt_of_le_of_lt (h.nonempty j hj) hlt)
    · exact absurd (lt_of_le_of_lt hx.2 hlt) (not_lt.mpr hjx)

/-- The floor of a covered point is the value of the interval around it. -/
theorem Indexed.isFloor_of_covers (h : Indexed S m) {i : Interval K V} (hi : i ∈ S) {x : K}
    (hx : i.Covers x) : OrderedMap.IsFloor m.find? x i.value := by
  refine ⟨i.lo, hx.1, (h.index _ _).mpr ⟨i, hi, rfl, rfl⟩, ?_⟩
  intro k hk hstored
  obtain ⟨j, hj, rfl⟩ := (h.stored_iff k).mp hstored
  exact h.lo_le_of_covers hi hj hx hk

/-- A covered point is answered exactly when another interval begins higher up. -/
theorem Indexed.found_iff_of_covers (h : Indexed S m) {i : Interval K V} (hi : i ∈ S) {x : K}
    (hx : i.Covers x) : Found m x i.value ↔ ∃ j ∈ S, i.lo < j.lo := by
  constructor
  · rintro ⟨-, k, hk, hstored⟩
    obtain ⟨j, hj, rfl⟩ := (h.stored_iff k).mp hstored
    exact ⟨j, hj, lt_of_le_of_lt hx.1 hk⟩
  · rintro ⟨j, hj, hlt⟩
    refine ⟨h.isFloor_of_covers hi hx, j.lo, ?_, (h.stored_iff _).mpr ⟨j, hj, rfl⟩⟩
    by_contra hle
    exact absurd hlt (not_lt.mpr (h.lo_le_of_covers hi hj hx (not_lt.mp hle)))

/-- Every answer at a point is the value of an interval around it exactly when the
point is covered, lies below all intervals, or has no lower end above it. -/
theorem Indexed.found_sound_iff (h : Indexed S m) (x : K) :
    (∀ v, Found m x v → ∃ i ∈ S, i.Covers x ∧ i.value = v) ↔
      (∃ i ∈ S, i.Covers x) ∨ (∀ i ∈ S, x < i.lo) ∨ (∀ i ∈ S, i.lo ≤ x) := by
  constructor
  · intro hs
    by_contra hno
    push Not at hno
    obtain ⟨hnot, ⟨i, hi, hix⟩, ⟨j, hj, hjx⟩⟩ := hno
    obtain ⟨v, hv⟩ := m.exists_isFloor hix ((h.stored_iff _).mpr ⟨i, hi, rfl⟩)
    obtain ⟨l, hl, hcov, -⟩ := hs v ⟨hv, j.lo, hjx, (h.stored_iff _).mpr ⟨j, hj, rfl⟩⟩
    exact hnot l hl hcov
  · rintro (⟨i, hi, hx⟩ | hbelow | habove) v ⟨hfloor, k, hk, hstored⟩
    · exact ⟨i, hi, hx, (h.isFloor_of_covers hi hx).unique hfloor⟩
    · obtain ⟨l, hl, hfl, -⟩ := hfloor
      obtain ⟨j, hj, rfl, -⟩ := (h.index l v).mp hfl
      exact absurd (hbelow j hj) (not_lt.mpr hl)
    · obtain ⟨j, hj, rfl⟩ := (h.stored_iff k).mp hstored
      exact absurd hk (not_lt.mpr (habove j hj))

end Intervals
