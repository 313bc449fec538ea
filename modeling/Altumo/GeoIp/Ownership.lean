import Altumo.GeoIp.Counters
import Altumo.Library.Cells

/-!
# Who owns the Locations

The locations table owns the Locations, and the address table shares them. The
destructor deletes the values of the locations table, so it deletes every Location
exactly once when every Location is a value of exactly one key.
-/

namespace GeoIp

open CString Numeral InputStream

/-- `~GeoIpServer()`: the Locations in the order of the iterator. What is left of the heap is
the result, a deleted Location being `none`; a second delete of one Location has no defined
effect. -/
def destructor (server : GeoIpServer) : Option (Cells.Heap Location) :=
  Cells.releaseAll (server.heap.map some) server.locationsTable.values

/-- The server after some lines of a locations file and some lines of a blocks file. -/
def serverAfter (locations blocks : List Text) : GeoIpServer :=
  (blocks.foldl blocksLine (.start (afterLocations locations) [])).server

/-- Every Location has one key, and the address table shares what the locations table has. -/
structure Owned (server : GeoIpServer) : Prop where
  one_key : ∀ p < server.heap.length, ∃! k, server.locationsTable.find? k = some p
  shared : ∀ k p, server.addressTable.find? k = some p → ∃ j, server.locationsTable.find? j = some p

/-- The destructor deletes every Location that was created, and none of them twice. -/
def DeletesEachOnce (server : GeoIpServer) : Prop :=
  destructor server = some (List.replicate server.heap.length none)

theorem afterLocations_heap (locations : List Text) :
    (afterLocations locations).heap = (locationRecords locations).map LocationRecord.location := by
  simp only [afterLocations, locationsLines, LoadState.start, newServer, List.nil_append]

theorem serverAfter_heap (locations blocks : List Text) :
    (serverAfter locations blocks).heap = (afterLocations locations).heap := by
  simp only [serverAfter, blocksLines, LoadState.start]

theorem serverAfter_locationsTable (locations blocks : List Text) :
    (serverAfter locations blocks).locationsTable = (afterLocations locations).locationsTable := by
  simp only [serverAfter, blocksLines, LoadState.start]

/-- A stored pointer is the position of the record whose id is the key. -/
theorem afterLocations_stored {locations : List Text} {k : Nat} {p : LocationPtr}
    (h : (afterLocations locations).locationsTable.find? k = some p) :
    ∃ r, (locationRecords locations)[p]? = some r ∧ strtoul r.id = k ∧ k ≠ ulongMax :=
  find?_locationEntries (afterLocations_locationsTable locations ▸ h)

/-- No Location is stored under two keys. -/
theorem afterLocations_key_unique {locations : List Text} {j k : Nat} {p : LocationPtr}
    (hj : (afterLocations locations).locationsTable.find? j = some p)
    (hk : (afterLocations locations).locationsTable.find? k = some p) : j = k := by
  obtain ⟨r, hr, rfl, -⟩ := afterLocations_stored hj
  obtain ⟨r', hr', rfl, -⟩ := afterLocations_stored hk
  rw [hr] at hr'
  cases hr'
  rfl

/-- A block shares a Location that the locations table has. -/
theorem serverAfter_shared (locations blocks : List Text) {k : Nat} {p : LocationPtr}
    (h : (serverAfter locations blocks).addressTable.find? k = some p) :
    ∃ j, (serverAfter locations blocks).locationsTable.find? j = some p := by
  rw [serverAfter_locationsTable]
  simp only [serverAfter, blocksLines, LoadState.start, afterLocations_addressTable, OrderedMap.find?_insertAll,
    OrderedMap.find?_empty, Option.none_or, Option.map_eq_some_iff] at h
  obtain ⟨e, he, rfl⟩ := h
  obtain ⟨b, -, hb⟩ := List.mem_filterMap.mp (List.mem_of_find?_eq_some he)
  exact ⟨_, (blockEntry_eq_some_iff.mp hb).2.2.1⟩

theorem serverAfter_eq (locations blocks : List Text) :
    serverAfter locations blocks = loadedServer locations blocks := by
  simp only [serverAfter, afterLocations, blocksLines, LoadState.start, locationsLines, newServer, loadedServer,
    List.nil_append, List.length_nil]

/-- Both tables hold Locations of records, and all of them are in the locations table. -/
theorem loadedServer_stored (locations blocks : List Text) {k : Nat} {p : LocationPtr}
    (h : (loadedServer locations blocks).locationsTable.find? k = some p ∨
      (loadedServer locations blocks).addressTable.find? k = some p) :
    ∃ j r, (loadedServer locations blocks).locationsTable.find? j = some p ∧ r ∈ locationRecords locations ∧
      (loadedServer locations blocks).heap[p]? = some r.location := by
  rw [← serverAfter_eq] at h ⊢
  have hlocations : ∃ j, (serverAfter locations blocks).locationsTable.find? j = some p := by
    rcases h with h | h
    · exact ⟨k, h⟩
    · exact serverAfter_shared locations blocks h
  obtain ⟨j, hj⟩ := hlocations
  obtain ⟨r, hr, -⟩ := afterLocations_stored (serverAfter_locationsTable locations blocks ▸ hj)
  refine ⟨j, r, hj, List.mem_of_getElem? hr, ?_⟩
  rw [serverAfter_heap, afterLocations_heap, List.getElem?_map, hr, Option.map_some]

/-- A stored pointer is that of a Location that was created. -/
theorem afterLocations_lt {locations : List Text} {k : Nat} {p : LocationPtr}
    (h : (afterLocations locations).locationsTable.find? k = some p) :
    p < (afterLocations locations).heap.length := by
  obtain ⟨r, hr, -⟩ := afterLocations_stored h
  rw [afterLocations_heap, List.length_map]
  exact (List.getElem?_eq_some_iff.mp hr).1

theorem afterLocations_values_nodup (locations : List Text) :
    (afterLocations locations).locationsTable.values.Nodup :=
  OrderedMap.values_nodup fun _ _ _ hj hk => afterLocations_key_unique hj hk

/-- The destructor always has a defined effect: every value is a Location that exists, and no
two keys have one Location. -/
theorem destructor_defined (locations blocks : List Text) :
    ∃ heap, destructor (serverAfter locations blocks) = some heap := by
  rw [destructor, serverAfter_locationsTable, serverAfter_heap, Cells.releaseAll_isSome_iff]
  refine ⟨afterLocations_values_nodup locations, fun p hp => ?_⟩
  obtain ⟨k, hk⟩ := (OrderedMap.mem_values_iff _ p).mp hp
  exact (Cells.live_new_iff _ p).mpr (afterLocations_lt hk)

/-- The destructor deletes every Location exactly when every Location is owned. -/
theorem deletesEachOnce_iff (locations blocks : List Text) :
    DeletesEachOnce (serverAfter locations blocks) ↔ Owned (serverAfter locations blocks) := by
  rw [DeletesEachOnce, destructor, serverAfter_locationsTable, serverAfter_heap, Cells.releaseAll_all_iff]
  simp only [OrderedMap.mem_values_iff]
  constructor
  · rintro ⟨-, hall⟩
    refine ⟨fun p hp => ?_, fun k p => serverAfter_shared locations blocks⟩
    rw [serverAfter_heap] at hp
    obtain ⟨k, hk⟩ := (hall p).mpr hp
    rw [serverAfter_locationsTable]
    exact ⟨k, hk, fun j hj => afterLocations_key_unique hj hk⟩
  · intro h
    refine ⟨afterLocations_values_nodup locations, fun p => ⟨?_, fun hp => ?_⟩⟩
    · rintro ⟨k, hk⟩
      exact afterLocations_lt hk
    · rw [← serverAfter_heap locations blocks] at hp
      obtain ⟨k, hk, -⟩ := h.one_key p hp
      rw [serverAfter_locationsTable] at hk
      exact ⟨k, hk⟩

/-- On clean records the table holds every record under its id. -/
theorem afterLocations_find?_of_clean {locations : List Text} (h : CleanLocations (locationRecords locations))
    {p : LocationPtr} {r : LocationRecord} (hr : (locationRecords locations)[p]? = some r) :
    (afterLocations locations).locationsTable.find? (strtoul r.id) = some p := by
  have hstored : (afterLocations locations).locationsTable.find? (strtoul r.id) ≠ none :=
    (afterLocations_find? locations _).mpr ⟨h.in_range r (List.mem_of_getElem? hr), r, List.mem_of_getElem? hr, rfl⟩
  obtain ⟨q, hq⟩ := Option.ne_none_iff_exists'.mp hstored
  obtain ⟨r', hr', hid, -⟩ := afterLocations_stored hq
  have hids : ∀ {i : Nat} {s : LocationRecord}, (locationRecords locations)[i]? = some s →
      ((locationRecords locations).map fun r => strtoul r.id)[i]? = some (strtoul s.id) := by
    intro i s hs
    rw [List.getElem?_map, hs, Option.map_some]
  have hpq : p = q := by
    refine (List.getElem?_inj ?_ h.distinct).mp ?_
    · exact (List.getElem?_eq_some_iff.mp (hids hr)).1
    · rw [hids hr, hids hr', hid]
  rw [hpq]
  exact hq

/-- Every Location is owned exactly when every record is stored. -/
theorem owned_iff (locations blocks : List Text) :
    Owned (serverAfter locations blocks) ↔ CleanLocations (locationRecords locations) := by
  constructor
  · intro h
    have hkey : ∀ {p : LocationPtr} {r : LocationRecord}, (locationRecords locations)[p]? = some r →
        (afterLocations locations).locationsTable.find? (strtoul r.id) = some p ∧ strtoul r.id ≠ ulongMax := by
      intro p r hr
      have hp := (List.getElem?_eq_some_iff.mp hr).1
      obtain ⟨k, hk, -⟩ := h.one_key p (by rwa [serverAfter_heap, afterLocations_heap, List.length_map])
      rw [serverAfter_locationsTable] at hk
      obtain ⟨r', hr', rfl, hrange⟩ := afterLocations_stored hk
      rw [hr] at hr'
      cases hr'
      exact ⟨hk, hrange⟩
    refine ⟨?_, ?_⟩
    · intro r hr
      obtain ⟨p, hp⟩ := List.getElem?_of_mem hr
      exact (hkey hp).2
    · rw [List.Nodup, List.pairwise_map, List.pairwise_iff_getElem]
      intro i j hi hj hij he
      have hfi := (hkey (List.getElem?_eq_getElem hi)).1
      have hfj := (hkey (List.getElem?_eq_getElem hj)).1
      rw [he, hfj] at hfi
      exact absurd (Option.some.inj hfi) (Nat.ne_of_gt hij)
  · intro h
    refine ⟨fun p hp => ?_, fun k p => serverAfter_shared locations blocks⟩
    rw [serverAfter_heap, afterLocations_heap, List.length_map] at hp
    have hk := afterLocations_find?_of_clean h (List.getElem?_eq_getElem hp)
    rw [serverAfter_locationsTable]
    exact ⟨_, hk, fun j hj => afterLocations_key_unique hj hk⟩

/-- After every pass over the two files every Location is owned, and the destructor deletes
every Location exactly once. The blocks file is read when `loadLocationsFile` has returned. -/
structure OwnershipKept (locations blocks : FileState) : Prop where
  locationsFile : ∀ cout n, Owned (locationsLoop.passes newServer cout locations n).server ∧
    DeletesEachOnce (locationsLoop.passes newServer cout locations n).server
  blocksFile : ∀ fuel cout st, loadLocationsFile fuel locations newServer cout = some st →
    ∀ n, Owned (blocksLoop.passes st.server st.cout blocks n).server ∧
      DeletesEachOnce (blocksLoop.passes st.server st.cout blocks n).server

theorem locationsPasses_server (cout : Text) (file : FileState) (n : Nat) :
    (locationsLoop.passes newServer cout file n).server = serverAfter (handed n (ifstream file) []) [] := by
  rw [LineLoop.passes, serverAfter, List.foldl_nil, afterLocations]
  exact (locationsLines _ (.start newServer cout)).trans (locationsLines _ (.start newServer [])).symm

theorem blocksPasses_server (locations : List Text) (cout : Text) (file : FileState) (n : Nat) :
    (blocksLoop.passes (afterLocations locations) cout file n).server =
      serverAfter locations (handed n (ifstream file) []) := by
  rw [LineLoop.passes, serverAfter]
  exact (blocksLines _ (.start _ cout)).trans (blocksLines _ (.start _ [])).symm

/-- Owned Locations are each deleted once, so the records decide both. -/
theorem kept_iff (locations blocks : List Text) :
    Owned (serverAfter locations blocks) ∧ DeletesEachOnce (serverAfter locations blocks) ↔
      CleanLocations (locationRecords locations) := by
  rw [deletesEachOnce_iff, and_self, owned_iff]

theorem CleanLocations.of_prefix {done lines : List Text} (h : CleanLocations (locationRecords lines))
    (hp : done <+: lines) : CleanLocations (locationRecords done) := by
  have hsub : (locationRecords done).Sublist (locationRecords lines) := hp.sublist.filterMap _
  exact ⟨fun r hr => h.in_range r (hsub.subset hr), (hsub.map _).nodup h.distinct⟩

/-- A line that is handed over twice brings no record. -/
theorem CleanLocations.not_twice {done : List Text} {line : Text}
    (h : CleanLocations (locationRecords (done ++ [line, line]))) : locationRecord? line = none := by
  cases hr : locationRecord? line with
  | none => rfl
  | some r =>
    have hd := h.distinct
    rw [locationRecords, List.filterMap_append, List.map_append, List.nodup_append] at hd
    simp [hr] at hd

/-- The passes bring clean records exactly when the lines do and no stale line is accepted. -/
theorem clean_handed_iff (file : FileState) :
    (∀ n, CleanLocations (locationRecords (handed n (ifstream file) []))) ↔
      CleanLocations (locationRecords file.lines) ∧
        (file.ReadsToEnd ∨ locationRecord? (file.lines.getLastD []) = none) := by
  by_cases hend : file.ReadsToEnd
  · simp only [handed_of_readsToEnd hend, hend, true_or, and_true]
    constructor
    · intro h
      simpa only [List.take_length] using h file.lines.length
    · intro h n
      exact h.of_prefix (List.take_prefix _ _)
  · simp only [handed_endless hend, hend, false_or]
    constructor
    · intro h
      have htwice := h (file.lines.length + 2)
      rw [List.take_of_length_le (Nat.le_add_right _ 2), Nat.add_sub_cancel_left] at htwice
      exact ⟨htwice.of_prefix (List.prefix_append _ _), htwice.not_twice⟩
    · rintro ⟨h, hlast⟩ n
      have hstale : ∀ k, locationRecords (List.replicate k (file.lines.getLastD [])) = [] := by
        intro k
        exact List.filterMap_eq_nil_iff.mpr fun l hl => (List.eq_of_mem_replicate hl) ▸ hlast
      rw [locationRecords, List.filterMap_append, ← locationRecords, ← locationRecords, hstale, List.append_nil]
      exact h.of_prefix (List.take_prefix _ _)

/-- Ownership is kept exactly on the files in which no id is out of range and no two accepted
lines have one id, and which do not stop with a read error behind an accepted line: on every
other file a Location is forgotten. -/
theorem ownership_kept_iff (locations blocks : FileState) :
    OwnershipKept locations blocks ↔ CleanLocations (locationRecords locations.lines) ∧
      (locations.ReadsToEnd ∨ locationRecord? (locations.lines.getLastD []) = none) := by
  rw [← clean_handed_iff]
  constructor
  · intro h n
    exact (kept_iff _ []).mp (locationsPasses_server [] locations n ▸ h.locationsFile [] n)
  · intro h
    refine ⟨fun cout n => ?_, fun fuel cout st hst n => ?_⟩
    · rw [locationsPasses_server]
      exact (kept_iff _ []).mpr (h n)
    · rw [loadLocationsFile_server hst, blocksPasses_server]
      exact (kept_iff _ _).mpr ((clean_handed_iff locations).mp h).1

/-- The id of a locations record that no `unsigned long` holds. -/
def wideId : Text := text "18446744073709551616"

/-- A Location whose id is out of range is forgotten: the destructor leaves it. -/
theorem wide_id_forgotten : ¬ OwnershipKept (bareRecord wideId (by decide)).file (.readable [] false) := by
  intro h
  have hone := h.locationsFile [] 1
  rw [locationsPasses_server, handed_of_readsToEnd (show (bareRecord wideId (by decide)).file.ReadsToEnd from rfl),
    kept_iff, List.take_of_length_le (by
      simp [CsvRecord.file, FileState.lines, lines_last (CsvRecord.newline_notMem _)]),
    CsvRecord.locationRecords_file] at hone
  exact hone.in_range _ (List.mem_singleton_self _) (by decide)

end GeoIp
