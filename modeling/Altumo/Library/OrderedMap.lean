import Mathlib.Data.List.Nodup
import Mathlib.Order.Lattice
import Mathlib.Order.Nat

/-!
# Ordered maps with insertion that never overwrites

The map is its list of entries in strictly increasing key order. An iterator is
a position in that list: `begin` is zero and `end` is the length. What a map
means is the partial function `find?`; the upper bound of a key is characterised
by that function alone.
-/

structure OrderedMap (K V : Type) [LinearOrder K] where
  entries : List (K × V)
  sorted : entries.Pairwise fun a b => a.1 < b.1

namespace OrderedMap

variable {K V : Type} [LinearOrder K]

def empty : OrderedMap K V := ⟨[], List.Pairwise.nil⟩

def find? (m : OrderedMap K V) (k : K) : Option V := (m.entries.find? fun e => e.1 = k).map Prod.snd

/-- Insertion in key order; an entry that has the key already stays. -/
def insertEntry (k : K) (v : V) : List (K × V) → List (K × V)
  | [] => [(k, v)]
  | e :: es => if k < e.1 then (k, v) :: e :: es else if e.1 < k then e :: insertEntry k v es else e :: es

theorem mem_insertEntry {k : K} {v : V} {es : List (K × V)} {e : K × V}
    (h : e ∈ insertEntry k v es) : e = (k, v) ∨ e ∈ es := by
  induction es with
  | nil => simpa [insertEntry] using h
  | cons d es ih =>
    simp only [insertEntry] at h
    split at h
    · simpa using h
    · split at h
      · rcases List.mem_cons.mp h with h | h
        · exact .inr (by simp [h])
        · rcases ih h with h | h
          · exact .inl h
          · exact .inr (by simp [h])
      · exact .inr h

theorem sorted_insertEntry {k : K} {v : V} {es : List (K × V)}
    (h : es.Pairwise fun a b => a.1 < b.1) :
    (insertEntry k v es).Pairwise fun a b => a.1 < b.1 := by
  induction es with
  | nil => simp [insertEntry]
  | cons e es ih =>
    obtain ⟨hhead, htail⟩ := List.pairwise_cons.mp h
    simp only [insertEntry]
    split
    · rename_i hk
      refine List.pairwise_cons.mpr ⟨?_, h⟩
      intro d hd
      rcases List.mem_cons.mp hd with hd | hd
      · subst hd; exact hk
      · exact lt_trans hk (hhead d hd)
    · split
      · rename_i hk
        refine List.pairwise_cons.mpr ⟨?_, ih htail⟩
        intro d hd
        rcases mem_insertEntry hd with hd | hd
        · subst hd; exact hk
        · exact hhead d hd
      · exact h

/-- `insert( pair(k, v) )` of `std::map`. -/
def insert (m : OrderedMap K V) (k : K) (v : V) : OrderedMap K V :=
  ⟨insertEntry k v m.entries, sorted_insertEntry m.sorted⟩

def insertAll (m : OrderedMap K V) (kvs : List (K × V)) : OrderedMap K V :=
  kvs.foldl (fun m e => m.insert e.1 e.2) m

/-- `upper_bound`: the position of the first key above `k`, or the end. -/
def upperBound (m : OrderedMap K V) (k : K) : Nat := m.entries.findIdx fun e => k < e.1

/-- `begin()`. -/
def first (_ : OrderedMap K V) : Nat := 0

/-- `end()`. -/
def last (m : OrderedMap K V) : Nat := m.entries.length

/-- The number of entries. -/
def size (m : OrderedMap K V) : Nat := m.entries.length

@[simp] theorem find?_empty (k : K) : (empty : OrderedMap K V).find? k = none := rfl

@[simp] theorem insertAll_nil (m : OrderedMap K V) : m.insertAll [] = m := rfl

@[simp] theorem insertAll_cons (m : OrderedMap K V) (e : K × V) (kvs : List (K × V)) :
    m.insertAll (e :: kvs) = (m.insert e.1 e.2).insertAll kvs := rfl

theorem insertAll_append (m : OrderedMap K V) (xs ys : List (K × V)) :
    m.insertAll (xs ++ ys) = (m.insertAll xs).insertAll ys := by
  simp [insertAll, List.foldl_append]

/-- Positions are ordered as their keys are. -/
theorem key_lt_of_lt (m : OrderedMap K V) {i j : Nat} (hj : j < m.entries.length) (h : i < j) :
    m.entries[i].1 < m.entries[j].1 :=
  List.pairwise_iff_getElem.mp m.sorted i j _ hj h

/-- Two entries with one key are one entry. -/
theorem entry_unique (m : OrderedMap K V) {a b : K × V} (ha : a ∈ m.entries) (hb : b ∈ m.entries)
    (h : a.1 = b.1) : a = b := by
  obtain ⟨i, hi, rfl⟩ := List.getElem_of_mem ha
  obtain ⟨j, hj, rfl⟩ := List.getElem_of_mem hb
  rcases Nat.lt_trichotomy i j with hij | hij | hij
  · exact absurd h (ne_of_lt (m.key_lt_of_lt hj hij))
  · subst hij; rfl
  · exact absurd h.symm (ne_of_lt (m.key_lt_of_lt hi hij))

theorem mem_entries_iff (m : OrderedMap K V) {k : K} {v : V} :
    (k, v) ∈ m.entries ↔ m.find? k = some v := by
  constructor
  · intro h
    rw [find?]
    cases hf : m.entries.find? (fun e => e.1 = k) with
    | none =>
      have := List.find?_eq_none.mp hf _ h
      simp at this
    | some e =>
      have he := List.mem_of_find?_eq_some hf
      have hk : e.1 = k := by simpa using List.find?_some hf
      rw [m.entry_unique he h hk]
      rfl
  · intro h
    rw [find?, Option.map_eq_some_iff] at h
    obtain ⟨e, hf, rfl⟩ := h
    have hk : e.1 = k := by simpa using List.find?_some hf
    rw [← hk]
    exact List.mem_of_find?_eq_some hf

theorem find?_insertEntry (k j : K) (v : V) (es : List (K × V))
    (h : es.Pairwise fun a b => a.1 < b.1) :
    ((insertEntry k v es).find? fun e => e.1 = j).map Prod.snd =
      ((es.find? fun e => e.1 = j).map Prod.snd).or (if k = j then some v else none) := by
  induction es with
  | nil => by_cases hj : k = j <;> simp [insertEntry, hj]
  | cons e es ih =>
    obtain ⟨hhead, htail⟩ := List.pairwise_cons.mp h
    simp only [insertEntry]
    split
    · rename_i hk
      by_cases hj : k = j
      · have habsent : (e :: es).find? (fun e => e.1 = j) = none := by
          rw [List.find?_eq_none]
          intro d hd
          rcases List.mem_cons.mp hd with hd | hd
          · subst hd; simpa [← hj] using ne_of_gt hk
          · simpa [← hj] using ne_of_gt (lt_trans hk (hhead d hd))
        rw [habsent]
        simp [hj]
      · simp [hj]
    · split
      · by_cases he : e.1 = j
        · simp [he]
        · simpa [he] using ih htail
      · rename_i hle hge
        have hk : k = e.1 := le_antisymm (not_lt.mp hge) (not_lt.mp hle)
        by_cases hj : e.1 = j
        · simp [hj]
        · simp [hk, hj]

/-- Insertion under a key that is there already changes nothing. -/
theorem insertEntry_of_mem {k : K} {v w : V} {es : List (K × V)} (h : es.Pairwise fun a b => a.1 < b.1)
    (hm : (k, w) ∈ es) : insertEntry k v es = es := by
  induction es with
  | nil => cases hm
  | cons e es ih =>
    obtain ⟨hhead, htail⟩ := List.pairwise_cons.mp h
    simp only [insertEntry]
    rcases List.mem_cons.mp hm with rfl | hm
    · simp
    · have hlt := hhead _ hm
      rw [if_neg (not_lt.mpr (le_of_lt hlt)), if_pos hlt, ih htail hm]

/-- Insertion under a new key adds one entry. -/
theorem length_insertEntry {k : K} {v : V} {es : List (K × V)} (hm : ∀ e ∈ es, e.1 ≠ k) :
    (insertEntry k v es).length = es.length + 1 := by
  induction es with
  | nil => rfl
  | cons e es ih =>
    rw [List.forall_mem_cons] at hm
    simp only [insertEntry]
    split
    · rfl
    · split
      · rw [List.length_cons, ih hm.2, List.length_cons]
      · rename_i hle hge
        exact absurd (le_antisymm (not_lt.mp hle) (not_lt.mp hge)) hm.1

theorem insert_of_stored {m : OrderedMap K V} {k : K} (v : V) (h : m.find? k ≠ none) : m.insert k v = m := by
  obtain ⟨w, hw⟩ := Option.ne_none_iff_exists'.mp h
  rw [insert]
  congr 1
  exact insertEntry_of_mem m.sorted (m.mem_entries_iff.mpr hw)

theorem size_insert {m : OrderedMap K V} {k : K} (v : V) (h : m.find? k = none) :
    (m.insert k v).size = m.size + 1 := by
  refine length_insertEntry fun e he hk => ?_
  have := m.mem_entries_iff.mp (show (e.1, e.2) ∈ m.entries from he)
  rw [hk, h] at this
  cases this

/-- The entry that came first is kept. -/
@[simp] theorem find?_insert (m : OrderedMap K V) (k j : K) (v : V) :
    (m.insert k v).find? j = (m.find? j).or (if k = j then some v else none) :=
  find?_insertEntry k j v m.entries m.sorted

theorem find?_insertAll (m : OrderedMap K V) (kvs : List (K × V)) (j : K) :
    (m.insertAll kvs).find? j =
      (m.find? j).or ((kvs.find? fun e => e.1 = j).map Prod.snd) := by
  induction kvs generalizing m with
  | nil => simp
  | cons e kvs ih =>
    rw [insertAll_cons, ih, find?_insert, Option.or_assoc]
    by_cases he : e.1 = j <;> simp [he]

/-- When no key comes with two values, the map holds exactly the inserted pairs. -/
theorem find?_insertAll_empty {kvs : List (K × V)} (h : ∀ a ∈ kvs, ∀ b ∈ kvs, a.1 = b.1 → a = b)
    {k : K} {v : V} : (empty.insertAll kvs).find? k = some v ↔ (k, v) ∈ kvs := by
  rw [find?_insertAll, find?_empty, Option.none_or, Option.map_eq_some_iff]
  constructor
  · rintro ⟨e, hf, rfl⟩
    have hk : e.1 = k := by simpa using List.find?_some hf
    rw [← hk]
    exact List.mem_of_find?_eq_some hf
  · intro hm
    cases hf : kvs.find? (fun e => e.1 = k) with
    | none =>
      have := List.find?_eq_none.mp hf _ hm
      simp at this
    | some e =>
      have hk : e.1 = k := by simpa using List.find?_some hf
      exact ⟨e, rfl, by rw [h e (List.mem_of_find?_eq_some hf) _ hm hk]⟩

/-- Of the pairs that a list offers the first under a key is found. -/
theorem find?_insertAll_filterMap {α : Type} (xs : List α) (f : α → Option (K × V)) (k : K) :
    (empty.insertAll (xs.filterMap f)).find? k =
      ((xs.find? fun a => (f a).map Prod.fst = some k).bind f).map Prod.snd := by
  have hany : ∀ a, (f a).any (fun e => decide (e.1 = k)) = decide ((f a).map Prod.fst = some k) := by
    intro a
    cases f a <;> simp
  rw [find?_insertAll, find?_empty, Option.none_or, List.find?_filterMap]
  simp only [hany]

/-- The values, in the order of their keys. -/
def values (m : OrderedMap K V) : List V := m.entries.map Prod.snd

theorem mem_values_iff (m : OrderedMap K V) (v : V) : v ∈ m.values ↔ ∃ k, m.find? k = some v := by
  simp only [values, List.mem_map, Prod.exists, exists_eq_right, mem_entries_iff]

/-- When no value is stored under two keys, no value comes twice. -/
theorem values_nodup {m : OrderedMap K V} (h : ∀ j k v, m.find? j = some v → m.find? k = some v → j = k) :
    m.values.Nodup := by
  refine List.Nodup.map_on ?_ (m.sorted.imp ?_)
  · rintro ⟨j, v⟩ hj ⟨k, w⟩ hk he
    simp only at he
    subst he
    rw [mem_entries_iff] at hj hk
    rw [h j k v hj hk]
  · intro a b hlt he
    rw [he] at hlt
    exact absurd hlt (lt_irrefl _)

/-- Nothing lies above the upper bound position exactly when it is the end. -/
theorem upperBound_eq_last_iff (m : OrderedMap K V) (k : K) :
    m.upperBound k = m.last ↔ ∀ j, k < j → m.find? j = none := by
  rw [upperBound, last, List.findIdx_eq_length]
  constructor
  · intro h j hj
    cases hf : m.find? j with
    | none => rfl
    | some v =>
      have := h _ (m.mem_entries_iff.mpr hf)
      simp only [decide_eq_false_iff_not] at this
      exact absurd hj this
  · intro h e he
    have hf := m.mem_entries_iff.mp (show (e.1, e.2) ∈ m.entries from he)
    simp only [decide_eq_false_iff_not]
    intro hlt
    rw [h _ hlt] at hf
    cases hf

/-- The value stored at the greatest key that is at most `k`. -/
def IsFloor (f : K → Option V) (k : K) (v : V) : Prop :=
  ∃ j, j ≤ k ∧ f j = some v ∧ ∀ i, i ≤ k → f i ≠ none → i ≤ j

theorem IsFloor.unique {f : K → Option V} {k : K} {v w : V} (hv : IsFloor f k v)
    (hw : IsFloor f k w) : v = w := by
  obtain ⟨i, hi, hfi, hmaxi⟩ := hv
  obtain ⟨j, hj, hfj, hmaxj⟩ := hw
  have hij : i = j := le_antisymm (hmaxj i hi (by simp [hfi])) (hmaxi j hj (by simp [hfj]))
  subst hij
  rw [hfi] at hfj
  exact Option.some.inj hfj

/-- The floor in a table whose values all lead somewhere is where the floor leads. -/
theorem isFloor_bind {W : Type} {f : K → Option V} {g : V → Option W}
    (hg : ∀ j v, f j = some v → ∃ w, g v = some w) {k : K} {w : W} : IsFloor (fun j => (f j).bind g) k w ↔ ∃ v, IsFloor f k v ∧ g v = some w := by
  have hne : ∀ i, (f i).bind g ≠ none ↔ f i ≠ none := by
    intro i
    cases hf : f i with
    | none => simp
    | some v =>
      obtain ⟨w, hw⟩ := hg i v hf
      simp [hw]
  simp only [IsFloor, hne, Option.bind_eq_some_iff]
  constructor
  · rintro ⟨j, hj, ⟨v, hv, hw⟩, hmax⟩
    exact ⟨v, ⟨j, hj, hv, hmax⟩, hw⟩
  · rintro ⟨v, ⟨j, hj, hv, hmax⟩, hw⟩
    exact ⟨j, hj, ⟨v, hv, hw⟩, hmax⟩

theorem upperBound_le (m : OrderedMap K V) (k : K) : m.upperBound k ≤ m.entries.length :=
  List.findIdx_le_length

/-- The keys below the upper bound position are exactly those that are at most `k`. -/
theorem lt_upperBound_iff (m : OrderedMap K V) {k : K} {i : Nat} (hi : i < m.entries.length) :
    i < m.upperBound k ↔ m.entries[i].1 ≤ k := by
  constructor
  · intro h
    simpa using List.not_of_lt_findIdx h
  · intro h
    by_contra hge
    have hub : m.upperBound k < m.entries.length := by omega
    have habove : k < m.entries[m.upperBound k].1 := of_decide_eq_true (List.findIdx_getElem (w := hub))
    rcases Nat.lt_or_eq_of_le (Nat.le_of_not_lt hge) with hlt | heq
    · exact absurd (lt_trans habove (m.key_lt_of_lt hi hlt)) (not_lt.mpr h)
    · simp only [heq] at habove
      exact absurd habove (not_lt.mpr h)

/-- A key with a value has a position. -/
theorem exists_position (m : OrderedMap K V) {k : K} {v : V} (h : m.find? k = some v) :
    ∃ n, ∃ hn : n < m.entries.length, m.entries[n] = (k, v) := by
  obtain ⟨n, hn, hget⟩ := List.getElem_of_mem (m.mem_entries_iff.mpr h)
  exact ⟨n, hn, hget⟩

theorem find?_of_position (m : OrderedMap K V) {n : Nat} (hn : n < m.entries.length) :
    m.find? m.entries[n].1 = some m.entries[n].2 :=
  m.mem_entries_iff.mp (List.getElem_mem hn)

/-- Stepping back from the upper bound finds the floor of the key, if there is one. -/
theorem upperBound_pred (m : OrderedMap K V) (k : K) (v : V) :
    (m.upperBound k ≠ m.first ∧ ∃ j, m.entries[m.upperBound k - 1]? = some (j, v)) ↔
      IsFloor m.find? k v := by
  have hub := m.upperBound_le k
  constructor
  · rintro ⟨hne, j, hj⟩
    obtain ⟨hlen, hget⟩ := List.getElem?_eq_some_iff.mp hj
    simp only [first] at hne
    have hkey := (m.lt_upperBound_iff hlen).mp (by omega : _ < m.upperBound k)
    rw [hget] at hkey
    refine ⟨j, hkey, m.mem_entries_iff.mp (List.mem_of_getElem? hj), ?_⟩
    intro i hi hf
    obtain ⟨w, hw⟩ := Option.ne_none_iff_exists'.mp hf
    obtain ⟨n, hn, hget'⟩ := m.exists_position hw
    have hnlt : n < m.upperBound k := (m.lt_upperBound_iff hn).mpr (by rw [hget']; exact hi)
    rcases Nat.lt_or_eq_of_le (Nat.le_sub_one_of_lt hnlt) with h | h
    · have := m.key_lt_of_lt hlen h
      rw [hget, hget'] at this
      exact le_of_lt this
    · subst h
      rw [hget] at hget'
      rw [(Prod.mk.inj hget').1]
  · rintro ⟨j, hjk, hfj, hmax⟩
    obtain ⟨n, hn, hget⟩ := m.exists_position hfj
    have hnlt : n < m.upperBound k := (m.lt_upperBound_iff hn).mpr (by rw [hget]; exact hjk)
    have hlen : m.upperBound k - 1 < m.entries.length := by omega
    have hn' : n = m.upperBound k - 1 := by
      by_contra hne
      have hlt := m.key_lt_of_lt (i := n) hlen (by omega)
      have hle := (m.lt_upperBound_iff hlen).mp (by omega : _ < m.upperBound k)
      rw [hget] at hlt
      exact absurd hlt (not_lt.mpr (hmax _ hle (by rw [m.find?_of_position hlen]; simp)))
    refine ⟨by simp only [first]; omega, j, ?_⟩
    rw [← hn', List.getElem?_eq_getElem hn, hget]

/-- A key that is at least some stored key has a floor. -/
theorem exists_isFloor (m : OrderedMap K V) {j k : K} (hjk : j ≤ k) (hj : m.find? j ≠ none) :
    ∃ v, IsFloor m.find? k v := by
  obtain ⟨w, hw⟩ := Option.ne_none_iff_exists'.mp hj
  obtain ⟨n, hn, hget⟩ := m.exists_position hw
  have hnlt : n < m.upperBound k := (m.lt_upperBound_iff hn).mpr (by rw [hget]; exact hjk)
  have hub := m.upperBound_le k
  have hlen : m.upperBound k - 1 < m.entries.length := by omega
  refine ⟨_, (m.upperBound_pred k _).mp ⟨?_, _, List.getElem?_eq_getElem hlen⟩⟩
  simp only [first]
  omega

end OrderedMap
