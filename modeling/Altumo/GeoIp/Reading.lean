import Altumo.GeoIp.Records

/-!
# How the loaders read: the loop and the numbers

The loops end on the files that open and are read to their end, and on no other.
The numbers are decimal on the digit strings that base zero does not turn into
another octal value, and on no other.
-/

namespace GeoIp

open CString Numeral InetAddress InputStream

/-- Both loops end with the body applied to the lines of the file, and no pass
ever hands over anything else than the next line. -/
structure LoopsOverLines (file : FileState) : Prop where
  locations : ∀ server cout, ∃ fuel, loadLocationsFile fuel file server cout =
    some ((file.lines.foldl locationsLine (.start server cout)).report " locations")
  blocks : ∀ server cout, ∃ fuel, loadBlocksFile fuel file server cout =
    some ((file.lines.foldl blocksLine (.start server cout)).report " block")
  passes : ∀ n, handed n (ifstream file) [] = file.lines.take n

theorem loops_over_lines_iff (file : FileState) : LoopsOverLines file ↔ file.ReadsToEnd := by
  constructor
  · intro h
    obtain ⟨fuel, hf⟩ := h.locations newServer []
    rw [loadLocationsFile, Option.map_eq_some_iff] at hf
    obtain ⟨st, hst, -⟩ := hf
    exact (whileNotEof_result hst).1
  · intro h
    refine ⟨?_, ?_, ?_⟩
    · intro server cout
      refine ⟨file.lines.length + 1, ?_⟩
      rw [loadLocationsFile, whileNotEof_returns _ h _ _ (Nat.lt_succ_self _)]
      rfl
    · intro server cout
      refine ⟨file.lines.length + 1, ?_⟩
      rw [loadBlocksFile, whileNotEof_returns _ h _ _ (Nat.lt_succ_self _)]
      rfl
    · intro n
      exact handed_of_readsToEnd h n []

/-- On every other file neither loop ends: once the readable lines are used up, each
pass hands over the last string again. -/
theorem loops_for_ever {file : FileState} (h : ¬ file.ReadsToEnd) :
    (∀ fuel server cout, loadLocationsFile fuel file server cout = none) ∧
      (∀ fuel server cout, loadBlocksFile fuel file server cout = none) ∧
      ∀ n, handed n (ifstream file) [] =
        file.lines.take n ++ List.replicate (n - file.lines.length) (file.lines.getLastD []) := by
  have hnone : ∀ (body : LoadState → Text → LoadState) fuel st,
      whileNotEof body fuel (ifstream file) [] st = none := by
    intro body fuel st
    rw [Option.eq_none_iff_forall_ne_some]
    intro st' hst
    exact h (whileNotEof_result hst).1
  refine ⟨?_, ?_, handed_endless h⟩
  · intro fuel server cout
    rw [loadLocationsFile, hnone, Option.map_none]
  · intro fuel server cout
    rw [loadBlocksFile, hnone, Option.map_none]

/-- On a path that does not open neither loop ends. -/
theorem missing_file_loops : ¬ LoopsOverLines .missing ∧
    (∀ fuel server cout, loadLocationsFile fuel .missing server cout = none) ∧
    ∀ fuel server cout, loadBlocksFile fuel .missing server cout = none := by
  obtain ⟨hlocations, hblocks, -⟩ := @loops_for_ever .missing id
  refine ⟨?_, hlocations, hblocks⟩
  intro h
  obtain ⟨fuel, hf⟩ := h.locations newServer []
  rw [hlocations] at hf
  cases hf

/-- The decimal value of a digit string, or the mark of what is out of range. -/
def decimalReading (s : Text) : Nat := min ulongMax (decimalValue s)

theorem decimalReading_of_lt {s : Text} (h : decimalValue s < ulongMax) :
    decimalReading s = decimalValue s := by
  rw [decimalReading]
  omega

/-- Two readings that agree on the id treat a locations line alike. -/
theorem locationsLineWith_congr {read read' : Text → Nat} {line : Text} {r : LocationRecord}
    (h : locationRecord? line = some r) (he : read r.id = read' r.id) (st : LoadState) :
    locationsLineWith read st line = locationsLineWith read' st line := by
  rw [locationRecord?, Option.map_eq_some_iff] at h
  obtain ⟨result, hm, rfl⟩ := h
  simp only at he
  simp only [locationsLineWith, hm, he]

/-- Two readings that agree on the id and on the start treat a blocks line alike. -/
theorem blocksLineWith_congr {readId readId' readStart readStart' : Text → Nat} {line : Text}
    {b : BlockRecord} (h : blockRecord? line = some b) (hid : readId b.id = readId' b.id)
    (hs : readStart b.first = readStart' b.first) (st : LoadState) :
    blocksLineWith readId readStart st line = blocksLineWith readId' readStart' st line := by
  rw [blockRecord?, Option.map_eq_some_iff] at h
  obtain ⟨result, hm, rfl⟩ := h
  simp only at hid hs
  simp only [blocksLineWith, hm, hid, hs]

/-- What it means that the numbers of a locations line and of a blocks line are
taken to be decimal, for the digit strings of their two ids and of the start. -/
structure ReadsDecimal (locationId blockId start : Text) : Prop where
  /-- A locations line with this id is processed as its decimal value says. -/
  location_id : ∀ st line location, locationRecord? line = some ⟨locationId, location⟩ →
    locationsLine st line = locationsLineWith decimalReading st line
  /-- A blocks line with this location id is processed as its decimal value says. -/
  block_id : ∀ st line first last, blockRecord? line = some ⟨first, last, blockId⟩ →
    blocksLine st line = blocksLineWith decimalReading strtoul st line
  /-- A blocks line with this start is processed as its decimal value says. -/
  block_start : ∀ st line last id, blockRecord? line = some ⟨start, last, id⟩ →
    blocksLine st line = blocksLineWith strtoul decimalReading st line
  /-- A new block is joined to a new location exactly when the ids have one value. -/
  joined : decimalValue locationId < ulongMax → decimalValue blockId < ulongMax →
    decimalValue start < ulongMax → ∀ st line line' location last,
    locationRecord? line = some ⟨locationId, location⟩ →
    blockRecord? line' = some ⟨start, last, blockId⟩ →
    st.server.locationsTable.find? (decimalValue locationId) = none →
    st.server.addressTable.find? (decimalValue start) = none →
    (∀ k, st.server.locationsTable.find? k ≠ some st.server.heap.length) →
    ((blocksLine (locationsLine st line) line').server.addressTable.find? (decimalValue start) =
      some st.server.heap.length ↔ decimalValue locationId = decimalValue blockId)
  /-- The key of a block is the integer that the lookup makes of the same address. -/
  key : ∀ table last id e src octets, blockEntry table ⟨start, last, id⟩ = some e →
    inetPton (cStr src) = some octets → ntohl octets = decimalValue start → e.1 = ntohl octets

/-- The table that one reading of a number leads to. -/
def singleEntry (x : Nat) : LocationMap :=
  OrderedMap.empty.insertAll (if x = ulongMax then none else some (x, 0)).toList

theorem singleEntry_injective {x y : Nat} (h : singleEntry x = singleEntry y) : x = y := by
  have hx := congrArg (fun m => m.find? x) h
  have hy := congrArg (fun m => m.find? y) h
  simp only [singleEntry, OrderedMap.find?_insertAll] at hx hy
  by_contra hne
  by_cases hxm : x = ulongMax
  · have hym : y ≠ ulongMax := fun he => hne (hxm.trans he.symm)
    simp [hxm, hym] at hy
  · by_cases hym : y = ulongMax
    · simp [hxm, hym] at hx
    · simp [hxm, hym, Ne.symm hne] at hx

theorem location_id_decimal {s : Text} (hs : s ≠ [] ∧ Digits s)
    (h : ∀ st line location, locationRecord? line = some ⟨s, location⟩ →
      locationsLine st line = locationsLineWith decimalReading st line) :
    strtoul s = decimalReading s := by
  have hr := (bareRecord s hs).locationRecord?_line
  have he := congrArg (fun st => st.server.locationsTable) (h (.start newServer []) _ _ hr)
  simp only [locationsLine, locationsLineWith_accepted _ hr] at he
  exact singleEntry_injective he

/-- A server with one location, under the given id. -/
def oneLocation (id : Nat) : GeoIpServer := ⟨[], .empty, OrderedMap.empty.insert id 0⟩

theorem oneLocation_find? (id k : Nat) :
    (oneLocation id).locationsTable.find? k = if id = k then some 0 else none := by
  simp [oneLocation]

/-- The address table after a blocks line on a server with one location. -/
theorem blocksLineWith_oneLocation (readId readStart : Text → Nat) (id : Nat) {line : Text}
    {b : BlockRecord} (h : blockRecord? line = some b) :
    (blocksLineWith readId readStart (.start (oneLocation id) []) line).server.addressTable =
      if readId b.id = ulongMax ∨ id ≠ readId b.id then .empty else singleEntry (readStart b.first) := by
  simp only [blocksLineWith_server, h, Option.bind_some, blockEntryWith, LoadState.start, oneLocation_find?]
  by_cases hm : readId b.id = ulongMax
  · simp [hm, oneLocation]
  · by_cases hid : id = readId b.id
    · simp only [hm, hid, ne_eq, not_true_eq_false, or_self, ↓reduceIte]
      rfl
    · simp [hm, hid, oneLocation]

theorem zero_digits : [(48 : Byte)] ≠ [] ∧ Digits [48] := by decide

theorem block_id_decimal {s : Text} (hs : s ≠ [] ∧ Digits s)
    (h : ∀ st line first last, blockRecord? line = some ⟨first, last, s⟩ →
      blocksLine st line = blocksLineWith decimalReading strtoul st line) :
    strtoul s = decimalReading s := by
  have hr := blockRecord?_formatBlock zero_digits zero_digits hs
  have hkey : (singleEntry (strtoul [48])).find? 0 = some 0 := by decide
  -- The server whose only location has the id that one of the readings gives.
  have htry : ∀ id, (if strtoul s = ulongMax ∨ id ≠ strtoul s then OrderedMap.empty
      else singleEntry (strtoul [48])) =
      (if decimalReading s = ulongMax ∨ id ≠ decimalReading s then OrderedMap.empty
      else singleEntry (strtoul [48])) := by
    intro id
    have he := congrArg (fun st => st.server.addressTable) (h (.start (oneLocation id) []) _ _ _ hr)
    simpa only [blocksLine, blocksLineWith_oneLocation _ _ id hr] using he
  by_contra hne
  by_cases hm : strtoul s = ulongMax
  · have hm' : decimalReading s ≠ ulongMax := fun he => hne (hm.trans he.symm)
    have he := congrArg (fun m => m.find? 0) (htry (decimalReading s))
    simp [hm, hm', hkey] at he
  · have he := congrArg (fun m => m.find? 0) (htry (strtoul s))
    simp [hm, hne, hkey] at he

theorem block_start_decimal {s : Text} (hs : s ≠ [] ∧ Digits s)
    (h : ∀ st line last id, blockRecord? line = some ⟨s, last, id⟩ →
      blocksLine st line = blocksLineWith strtoul decimalReading st line) :
    strtoul s = decimalReading s := by
  have hr := blockRecord?_formatBlock hs zero_digits zero_digits
  have he := congrArg (fun st => st.server.addressTable) (h (.start (oneLocation 0) []) _ _ _ hr)
  have hz : strtoul [48] = 0 := by decide
  simp only [blocksLine, blocksLineWith_oneLocation _ _ 0 hr, hz, ne_eq, not_true_eq_false, or_false,
    show (0 : Nat) ≠ ulongMax by decide, ↓reduceIte] at he
  exact singleEntry_injective he

/-- Decimal ids join a new block to a new location exactly when they are equal. -/
theorem joined_of_decimal {locationId blockId start : Text}
    (hl : strtoul locationId = decimalReading locationId) (hb : strtoul blockId = decimalReading blockId)
    (hs : strtoul start = decimalReading start) (hlr : decimalValue locationId < ulongMax)
    (hbr : decimalValue blockId < ulongMax) (hsr : decimalValue start < ulongMax) {st : LoadState}
    {line line' : Text} {location : Location} {last : Text}
    (hline : locationRecord? line = some ⟨locationId, location⟩)
    (hline' : blockRecord? line' = some ⟨start, last, blockId⟩)
    (hnew : st.server.locationsTable.find? (decimalValue locationId) = none)
    (hfree : st.server.addressTable.find? (decimalValue start) = none)
    (hfresh : ∀ k, st.server.locationsTable.find? k ≠ some st.server.heap.length) :
    (blocksLine (locationsLine st line) line').server.addressTable.find? (decimalValue start) =
      some st.server.heap.length ↔ decimalValue locationId = decimalValue blockId := by
  rw [decimalReading_of_lt hlr] at hl
  rw [decimalReading_of_lt hbr] at hb
  rw [decimalReading_of_lt hsr] at hs
  simp only [blocksLine_server, locationsLine_accepted hline, hline', Option.bind_some, locationEntry,
    locationEntryWith, blockEntry, blockEntryWith, hl, hb, hs, Nat.ne_of_lt hlr, Nat.ne_of_lt hbr,
    Nat.ne_of_lt hsr, ↓reduceIte, Option.toList_some, OrderedMap.insertAll_cons, OrderedMap.insertAll_nil,
    OrderedMap.find?_insert]
  by_cases he : decimalValue locationId = decimalValue blockId
  · rw [he] at hnew
    simp [he, hnew, hfree]
  · simp only [he, ↓reduceIte, Option.or_none, iff_false]
    cases hq : st.server.locationsTable.find? (decimalValue blockId) with
    | none => simp [hfree]
    | some q =>
      have hne : q ≠ st.server.heap.length := fun heq => hfresh _ (heq ▸ hq)
      simp [hfree, hne]

/-- The loaders take their numbers to be decimal exactly on the digit strings
without leading zero, of a value below eight, or out of range in octal too. -/
theorem reads_decimal_iff {locationId blockId start : Text} (hl : locationId ≠ [] ∧ Digits locationId)
    (hb : blockId ≠ [] ∧ Digits blockId) (hs : start ≠ [] ∧ Digits start) :
    ReadsDecimal locationId blockId start ↔
      ReadsAsDecimal locationId ∧ ReadsAsDecimal blockId ∧ ReadsAsDecimal start := by
  rw [← strtoul_eq_decimal_iff hl.2, ← strtoul_eq_decimal_iff hb.2, ← strtoul_eq_decimal_iff hs.2]
  constructor
  · intro h
    exact ⟨location_id_decimal hl h.location_id, block_id_decimal hb h.block_id,
      block_start_decimal hs h.block_start⟩
  · rintro ⟨hlr, hbr, hsr⟩
    refine ⟨?_, ?_, ?_, ?_, ?_⟩
    · intro st line location hline
      exact locationsLineWith_congr hline hlr st
    · intro st line first last hline
      exact blocksLineWith_congr hline hbr rfl st
    · intro st line last id hline
      exact blocksLineWith_congr hline rfl hsr st
    · intro h₁ h₂ h₃ st line line' location last hline hline' hnew hfree hfresh
      exact joined_of_decimal hlr hbr hsr h₁ h₂ h₃ hline hline' hnew hfree hfresh
    · intro table last id e src octets he hsrc hval
      have hlt : decimalValue start < ulongMax := by
        obtain ⟨hlen, hle⟩ := inetPton_spec hsrc
        have := ntohl_lt hlen hle
        rw [hval] at this
        exact Nat.lt_trans this (by decide)
      have hkey : strtoul start = decimalValue start := by
        rw [hsr]
        exact decimalReading_of_lt hlt
      obtain ⟨-, -, -, hstart⟩ := blockEntry_eq_some_iff.mp he
      exact hstart.symm.trans (hkey.trans hval.symm)

theorem reads_decimal_plain : ReadsDecimal (text "17") (text "17") (text "16777216") :=
  (reads_decimal_iff (by decide) (by decide) (by decide)).mpr ⟨.inl (by decide), .inl (by decide), .inl (by decide)⟩

/-- A location id with a leading zero is read in octal. -/
theorem leading_zero_not_decimal : ¬ ReadsDecimal (text "010") (text "10") (text "16777216") := by
  intro h
  have := location_id_decimal (by decide) h.location_id
  revert this
  decide

end GeoIp
