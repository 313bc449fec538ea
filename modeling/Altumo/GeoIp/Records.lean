import Altumo.GeoIp.Csv

/-!
# What loading computes

The records of a file are its accepted lines. Loading the two files builds the
heap of all Locations and the two tables from the records alone; the loaders'
loops are related to this by a fact about one line and an induction on the lines.
-/

namespace GeoIp

open CString Numeral InputStream

structure LocationRecord where
  id : Text
  location : Location
  deriving DecidableEq

structure BlockRecord where
  first : Text
  last : Text
  id : Text
  deriving DecidableEq

def locationRecord? (line : Text) : Option LocationRecord :=
  (regexMatchLine locationsPattern line).map fun result => ⟨sub result 1, newLocation result⟩

def blockRecord? (line : Text) : Option BlockRecord :=
  (regexMatchLine blocksPattern line).map fun result => ⟨sub result 1, sub result 2, sub result 3⟩

def locationRecords (lines : List Text) : List LocationRecord := lines.filterMap locationRecord?

def blockRecords (lines : List Text) : List BlockRecord := lines.filterMap blockRecord?

/-- The line of a MaxMind record is accepted as that record. -/
theorem CsvRecord.locationRecord?_line (r : CsvRecord) :
    locationRecord? r.line = some ⟨r.id, r.location⟩ := by
  rw [locationRecord?, r.regexMatchLine_eq, Option.map_some, CsvRecord.groups, sub_locationGroups,
    newLocation_locationGroups]

/-- A record with the given id and empty texts elsewhere. -/
def bareRecord (id : Text) (hid : id ≠ [] ∧ Digits id) : CsvRecord where
  id := id
  location := ⟨text "US", [], [], [], [], [], [], []⟩
  id_digits := hid
  country_length := rfl
  metroCode_digits := by simp [Digits]
  areaCode_digits := by simp [Digits]
  fields_clean := by decide
  latitude_no_comma := by simp
  longitude_no_comma := by simp

/-- A locations file of one record. -/
def CsvRecord.file (r : CsvRecord) : FileState := .readable r.line false

theorem CsvRecord.locationRecords_file (r : CsvRecord) :
    locationRecords r.file.lines = [⟨r.id, r.location⟩] := by
  simp only [CsvRecord.file, FileState.lines, lines_last r.newline_notMem, locationRecords,
    List.filterMap_cons, r.locationRecord?_line, List.filterMap_nil]

/-- The record of an accepted locations line. -/
theorem locationRecord?_some {line : Text} {r : LocationRecord} (h : locationRecord? line = some r) :
    (r.id ≠ [] ∧ Digits r.id) ∧ r.location.country.length = 2 ∧ Digits r.location.metroCode ∧
      Digits r.location.areaCode ∧ cStr line = formatLocation r.id r.location := by
  rw [locationRecord?, Option.map_eq_some_iff] at h
  obtain ⟨result, hm, rfl⟩ := h
  obtain ⟨id, l, hid, hc, hme, har, hs, rfl⟩ := regexMatchLine_locations_some hm
  exact ⟨hid, hc, hme, har, hs⟩

/-- A blocks line is accepted exactly as the record that it is the text of. -/
theorem blockRecord?_eq_some_iff {line : Text} {b : BlockRecord} :
    blockRecord? line = some b ↔
      (b.first ≠ [] ∧ Digits b.first) ∧ (b.last ≠ [] ∧ Digits b.last) ∧ (b.id ≠ [] ∧ Digits b.id) ∧
        cStr line = formatBlock b.first b.last b.id := by
  rw [blockRecord?, Option.map_eq_some_iff]
  constructor
  · rintro ⟨result, hm, rfl⟩
    obtain ⟨f, l, id, hf, hl, hid, hs, rfl⟩ := regexMatchLine_blocks_iff.mp hm
    exact ⟨hf, hl, hid, hs⟩
  · rintro ⟨hf, hl, hid, hs⟩
    exact ⟨_, regexMatchLine_blocks_iff.mpr ⟨_, _, _, hf, hl, hid, hs, rfl⟩, rfl⟩

theorem blockRecord?_formatBlock {first last id : Text} (hf : first ≠ [] ∧ Digits first)
    (hl : last ≠ [] ∧ Digits last) (hid : id ≠ [] ∧ Digits id) :
    blockRecord? (formatBlock first last id) = some ⟨first, last, id⟩ := by
  have hz : (0 : Byte) ∉ formatBlock first last id := by
    have h0 : isDigit 0 = false := by decide
    simp [formatBlock_eq, hf.2.notMem h0, hl.2.notMem h0, hid.2.notMem h0]
  exact blockRecord?_eq_some_iff.mpr ⟨hf, hl, hid, cStr_eq_self hz⟩

section
variable (readId readStart : Text → Nat)

/-- The entry that a locations record at a position of the heap offers to the table. -/
def locationEntryWith (r : LocationRecord × LocationPtr) : Option (Nat × LocationPtr) :=
  if readId r.1.id = ulongMax then none else some (readId r.1.id, r.2)

/-- The entry that a blocks record offers, given the locations. -/
def blockEntryWith (table : LocationMap) (b : BlockRecord) : Option (Nat × LocationPtr) :=
  if readId b.id = ulongMax then none
  else match table.find? (readId b.id) with
    | none => none
    | some location => if readStart b.first = ulongMax then none else some (readStart b.first, location)

end

def locationEntry : LocationRecord × LocationPtr → Option (Nat × LocationPtr) := locationEntryWith strtoul

def blockEntry : LocationMap → BlockRecord → Option (Nat × LocationPtr) := blockEntryWith strtoul strtoul

/-- A locations record whose id is in range offers an entry under the id. -/
theorem locationEntry_eq_some_iff {r : LocationRecord} {p : LocationPtr} {e : Nat × LocationPtr} :
    locationEntry (r, p) = some e ↔ strtoul r.id ≠ ulongMax ∧ (strtoul r.id, p) = e := by
  simp only [locationEntry, locationEntryWith]
  by_cases h : strtoul r.id = ulongMax <;> simp [h]

/-- A blocks record with numbers in range offers an entry when its location is known. -/
theorem blockEntry_eq_some_iff {table : LocationMap} {b : BlockRecord} {e : Nat × LocationPtr} :
    blockEntry table b = some e ↔ strtoul b.id ≠ ulongMax ∧ strtoul b.first ≠ ulongMax ∧
      table.find? (strtoul b.id) = some e.2 ∧ strtoul b.first = e.1 := by
  obtain ⟨k, p⟩ := e
  simp only [blockEntry, blockEntryWith]
  by_cases hid : strtoul b.id = ulongMax
  · simp [hid]
  · cases hf : table.find? (strtoul b.id) with
    | none => simp [hid]
    | some q => by_cases hs : strtoul b.first = ulongMax <;> simp [hid, hs, and_comm]

/-- The entries offered by records that are created from position `base` on. -/
def locationEntries (base : Nat) (records : List LocationRecord) : List (Nat × LocationPtr) :=
  (records.zipIdx base).filterMap locationEntry

theorem mem_locationEntries_iff {records : List LocationRecord} {e : Nat × LocationPtr} :
    e ∈ locationEntries 0 records ↔ ∃ r, records[e.2]? = some r ∧ strtoul r.id = e.1 ∧ e.1 ≠ ulongMax := by
  obtain ⟨k, p⟩ := e
  rw [locationEntries, List.mem_filterMap]
  constructor
  · rintro ⟨⟨r, q⟩, hr, he⟩
    obtain ⟨hne, he⟩ := locationEntry_eq_some_iff.mp he
    cases he
    exact ⟨r, List.mem_zipIdx_iff_getElem?.mp hr, rfl, hne⟩
  · rintro ⟨r, hr, rfl, hne⟩
    exact ⟨(r, p), List.mem_zipIdx_iff_getElem?.mpr hr, locationEntry_eq_some_iff.mpr ⟨hne, rfl⟩⟩

/-- A stored pointer is the position of a record whose id is the key. -/
theorem find?_locationEntries {records : List LocationRecord} {k : Nat} {p : LocationPtr}
    (h : (OrderedMap.empty.insertAll (locationEntries 0 records)).find? k = some p) :
    ∃ r, records[p]? = some r ∧ strtoul r.id = k ∧ k ≠ ulongMax := by
  rw [OrderedMap.find?_insertAll, OrderedMap.find?_empty, Option.none_or, Option.map_eq_some_iff] at h
  obtain ⟨e, he, rfl⟩ := h
  have hk : e.1 = k := by simpa using List.find?_some he
  rw [← hk]
  exact mem_locationEntries_iff.mp (List.mem_of_find?_eq_some he)

/-- The server after both files. -/
def loadedServer (locations blocks : List Text) : GeoIpServer :=
  let records := locationRecords locations
  let table := OrderedMap.empty.insertAll (locationEntries 0 records)
  { heap := records.map LocationRecord.location
    addressTable := OrderedMap.empty.insertAll ((blockRecords blocks).filterMap (blockEntry table))
    locationsTable := table }

@[simp] theorem skip_server (st : LoadState) (message : Text) : (st.skip message).server = st.server := rfl

/-- A refused locations line changes no table and creates no Location. -/
theorem locationsLine_refused {st : LoadState} {line : Text} (h : locationRecord? line = none) :
    (locationsLine st line).server = st.server := by
  rw [locationRecord?, Option.map_eq_none_iff] at h
  simp only [locationsLine, locationsLineWith, h, skip_server]

/-- An accepted locations line creates one Location and offers one entry. -/
theorem locationsLineWith_accepted (readId : Text → Nat) {st : LoadState} {line : Text} {r : LocationRecord}
    (h : locationRecord? line = some r) :
    (locationsLineWith readId st line).server =
      { st.server with
        heap := st.server.heap ++ [r.location]
        locationsTable := st.server.locationsTable.insertAll
          (locationEntryWith readId (r, st.server.heap.length)).toList } := by
  rw [locationRecord?, Option.map_eq_some_iff] at h
  obtain ⟨result, hm, rfl⟩ := h
  simp only [locationsLineWith, hm, locationEntryWith]
  split <;> rfl

theorem locationsLine_accepted {st : LoadState} {line : Text} {r : LocationRecord}
    (h : locationRecord? line = some r) :
    (locationsLine st line).server =
      { st.server with
        heap := st.server.heap ++ [r.location]
        locationsTable := st.server.locationsTable.insertAll
          (locationEntry (r, st.server.heap.length)).toList } :=
  locationsLineWith_accepted strtoul h

/-- The lines of a locations file, one after the other. -/
theorem locationsLines (lines : List Text) (st : LoadState) :
    (lines.foldl locationsLine st).server =
      { st.server with
        heap := st.server.heap ++ (locationRecords lines).map LocationRecord.location
        locationsTable := st.server.locationsTable.insertAll
          (locationEntries st.server.heap.length (locationRecords lines)) } := by
  induction lines generalizing st with
  | nil => simp [locationRecords, locationEntries]
  | cons line lines ih =>
    rw [List.foldl_cons, ih]
    cases h : locationRecord? line with
    | none => simp only [locationRecords, List.filterMap_cons, h, locationsLine_refused h]
    | some r =>
      simp only [locationRecords, List.filterMap_cons, h, locationsLine_accepted h, List.map_cons,
        List.append_assoc, List.cons_append, List.nil_append, List.length_append, List.length_singleton,
        locationEntries, List.zipIdx_cons]
      cases he : locationEntry (r, st.server.heap.length) with
      | none => simp
      | some e => simp

/-- A blocks line offers the entry of its record, if it has one. -/
theorem blocksLineWith_server (readId readStart : Text → Nat) (st : LoadState) (line : Text) :
    (blocksLineWith readId readStart st line).server =
      { st.server with
        addressTable := st.server.addressTable.insertAll
          ((blockRecord? line).bind (blockEntryWith readId readStart st.server.locationsTable)).toList } := by
  simp only [blocksLineWith, blockRecord?]
  cases regexMatchLine blocksPattern line with
  | none => rfl
  | some result =>
    simp only [Option.map_some, Option.bind_some, blockEntryWith]
    split
    · rfl
    · cases st.server.locationsTable.find? (readId (sub result 3)) with
      | none => rfl
      | some location =>
        simp only
        split <;> rfl

theorem blocksLine_server (st : LoadState) (line : Text) :
    (blocksLine st line).server =
      { st.server with
        addressTable := st.server.addressTable.insertAll
          ((blockRecord? line).bind (blockEntry st.server.locationsTable)).toList } :=
  blocksLineWith_server strtoul strtoul st line

/-- The lines of a blocks file, one after the other. -/
theorem blocksLines (lines : List Text) (st : LoadState) :
    (lines.foldl blocksLine st).server =
      { st.server with
        addressTable := st.server.addressTable.insertAll
          ((blockRecords lines).filterMap (blockEntry st.server.locationsTable)) } := by
  induction lines generalizing st with
  | nil => rfl
  | cons line lines ih =>
    rw [List.foldl_cons, ih, blocksLine_server]
    simp only [← OrderedMap.insertAll_append]
    cases h : blockRecord? line with
    | none => simp [blockRecords, h]
    | some b =>
      cases he : blockEntry st.server.locationsTable b with
      | none => simp [blockRecords, h, he]
      | some e => simp [blockRecords, h, he]

/-- `loadLocationsFile()` on a new server leaves the heap and the table of the records. -/
theorem loadLocationsFile_result {file : FileState} {fuel : Nat} {cout : Text} {st : LoadState}
    (h : loadLocationsFile fuel file newServer cout = some st) :
    st.server.heap = (locationRecords file.lines).map LocationRecord.location ∧
      st.server.locationsTable = OrderedMap.empty.insertAll (locationEntries 0 (locationRecords file.lines)) := by
  simp only [loadLocationsFile, Option.map_eq_some_iff] at h
  obtain ⟨lst, hl, rfl⟩ := h
  rw [(whileNotEof_result hl).2]
  simp only [LoadState.report, LoadState.start, locationsLines, newServer, List.nil_append, List.length_nil,
    and_self]

theorem CsvRecord.file_loads (r : CsvRecord) : ∃ st, loadLocationsFile 2 r.file newServer [] = some st := by
  have hfuel : r.file.lines.length < 2 := by
    simp only [CsvRecord.file, FileState.lines, lines_last r.newline_notMem, List.length_singleton,
      Nat.one_lt_two]
  simp only [loadLocationsFile, whileNotEof_returns _ (show r.file.ReadsToEnd from rfl) _ _ hfuel,
    Option.map_some]
  exact ⟨_, rfl⟩

/-- Every stored pointer leads to the Location of a record. -/
theorem stored_location {file : FileState} {fuel : Nat} {cout : Text} {st : LoadState}
    (h : loadLocationsFile fuel file newServer cout = some st) {k : Nat} {p : LocationPtr}
    (hp : st.server.locationsTable.find? k = some p) :
    ∃ r ∈ locationRecords file.lines, st.server.heap[p]? = some r.location := by
  obtain ⟨hheap, htable⟩ := loadLocationsFile_result h
  obtain ⟨r, hr, -⟩ := find?_locationEntries (htable ▸ hp)
  refine ⟨r, List.mem_of_getElem? hr, ?_⟩
  rw [hheap, List.getElem?_map, hr, Option.map_some]

/-- No field of a record holds a NUL. -/
theorem zero_notMem_fields {lines : List Text} {r : LocationRecord} (h : r ∈ locationRecords lines) :
    ∀ f ∈ r.location.fields, (0 : Byte) ∉ f := by
  obtain ⟨line, -, hl⟩ := List.mem_filterMap.mp h
  have hz := zero_notMem_cStr line
  rw [(locationRecord?_some hl).2.2.2.2, formatLocation_eq] at hz
  simp only [List.mem_append, List.mem_cons, not_or] at hz
  simp only [Location.fields, List.mem_cons, List.not_mem_nil, or_false, forall_eq_or_imp, forall_eq]
  grind

/-- `loadData()` on files that open and are read to their end. -/
theorem loadData_returns {locations blocks : FileState} (hl : locations.ReadsToEnd)
    (hb : blocks.ReadsToEnd) (server : GeoIpServer) (cout : Text) {fuel : Nat}
    (hfl : locations.lines.length < fuel) (hfb : blocks.lines.length < fuel) :
    ∃ cout', loadData fuel locations blocks server cout = some ((blocks.lines.foldl blocksLine
      (.start (locations.lines.foldl locationsLine (.start server cout)).server cout')).report " block") := by
  refine ⟨((locations.lines.foldl locationsLine (.start server cout)).report " locations").cout, ?_⟩
  simp only [loadData, loadLocationsFile, loadBlocksFile, whileNotEof_returns _ hl _ _ hfl, Option.map_some,
    Option.bind_eq_bind, Option.bind_some, whileNotEof_returns _ hb _ _ hfb]
  rfl

/-- `loadData()` returns exactly on files that open and are read to their end,
and leaves the server that the lines determine. -/
theorem loads_iff (locations blocks : FileState) (server : GeoIpServer) :
    Loads locations blocks server ↔
      locations.ReadsToEnd ∧ blocks.ReadsToEnd ∧ server = loadedServer locations.lines blocks.lines := by
  have hserver : ∀ cout cout', ((blocks.lines.foldl blocksLine
      (.start (locations.lines.foldl locationsLine (.start newServer cout)).server cout')).report " block").server =
        loadedServer locations.lines blocks.lines := by
    intro cout cout'
    simp only [LoadState.report, blocksLines, LoadState.start, locationsLines, newServer, loadedServer,
      List.nil_append, List.length_nil]
  constructor
  · rintro ⟨fuel, cout, st, h, rfl⟩
    simp only [loadData, loadLocationsFile, loadBlocksFile, Option.bind_eq_bind, Option.bind_eq_some_iff,
      Option.map_eq_some_iff] at h
    obtain ⟨_, ⟨lst, hl, rfl⟩, bst, hb, rfl⟩ := h
    obtain ⟨hlr, hlst⟩ := whileNotEof_result hl
    obtain ⟨hbr, hbst⟩ := whileNotEof_result hb
    refine ⟨hlr, hbr, ?_⟩
    rw [hbst, hlst]
    exact hserver cout _
  · rintro ⟨hl, hb, rfl⟩
    have hfuel : locations.lines.length < locations.lines.length + blocks.lines.length + 1 := by omega
    obtain ⟨cout', h⟩ := loadData_returns hl hb newServer [] hfuel (by omega)
    exact ⟨_, [], _, h, hserver [] cout'⟩

end GeoIp
