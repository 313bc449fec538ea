import Mathlib.Data.List.Pairwise
import Altumo.GeoIp.Records
import Altumo.Library.Intervals

/-!
# Lookups after loading

On well-formed files the address table indexes the intervals of the blocks whose
location is known, so the lookup is the search among disjoint intervals. The last
interval is never answered, and a gap below the last start is answered with the
interval before it.
-/

namespace GeoIp

open CString Numeral InetAddress InputStream Intervals

def LocationRecord.locationId (r : LocationRecord) : Nat := decimalValue r.id

def BlockRecord.start (b : BlockRecord) : Nat := decimalValue b.first

def BlockRecord.stop (b : BlockRecord) : Nat := decimalValue b.last

def BlockRecord.locationId (b : BlockRecord) : Nat := decimalValue b.id

/-- Plain decimal fields in range. -/
def BlockRecord.Plain (b : BlockRecord) : Prop :=
  Numeral.Plain b.first ∧ Numeral.Plain b.last ∧ Numeral.Plain b.id ∧ b.locationId < ulongMax ∧
    b.start ≤ b.stop ∧ b.stop < 2 ^ 32

def BlockRecord.Apart (b c : BlockRecord) : Prop := b.stop < c.start ∨ c.stop < b.start

instance (b : BlockRecord) : Decidable b.Plain :=
  inferInstanceAs (Decidable (Numeral.Plain b.first ∧ Numeral.Plain b.last ∧ Numeral.Plain b.id ∧
    b.locationId < ulongMax ∧ b.start ≤ b.stop ∧ b.stop < 2 ^ 32))

instance (b c : BlockRecord) : Decidable (b.Apart c) :=
  inferInstanceAs (Decidable (b.stop < c.start ∨ c.stop < b.start))

/-- The matching records have plain decimal numbers in range, the ids of the
locations are distinct and the ranges of the blocks are disjoint. -/
structure WellFormed (locations : List LocationRecord) (blocks : List BlockRecord) : Prop where
  ids_plain : ∀ r ∈ locations, Numeral.Plain r.id ∧ r.locationId < ulongMax
  ids_distinct : locations.Pairwise fun r s => r.locationId ≠ s.locationId
  blocks_plain : ∀ b ∈ blocks, b.Plain
  blocks_apart : blocks.Pairwise BlockRecord.Apart

instance (locations : List LocationRecord) (blocks : List BlockRecord) :
    Decidable (WellFormed locations blocks) :=
  decidable_of_iff
    ((∀ r ∈ locations, Numeral.Plain r.id ∧ r.locationId < ulongMax) ∧
      (locations.Pairwise fun r s => r.locationId ≠ s.locationId) ∧ (∀ b ∈ blocks, b.Plain) ∧
      blocks.Pairwise BlockRecord.Apart)
    ⟨fun ⟨h₁, h₂, h₃, h₄⟩ => ⟨h₁, h₂, h₃, h₄⟩, fun ⟨h₁, h₂, h₃, h₄⟩ => ⟨h₁, h₂, h₃, h₄⟩⟩

/-- The block names a location of the locations file, so that the loader keeps it. -/
def BlockRecord.Known (locations : List LocationRecord) (b : BlockRecord) : Prop :=
  ∃ r ∈ locations, r.locationId = b.locationId

instance (locations : List LocationRecord) (b : BlockRecord) : Decidable (b.Known locations) :=
  inferInstanceAs (Decidable (∃ r ∈ locations, r.locationId = b.locationId))

/-- The intervals of the blocks that are kept, with the Locations they lead to. -/
def blockIntervals (locations : List LocationRecord) (blocks : List BlockRecord) :
    Set (Interval Nat LocationPtr) :=
  {i | ∃ b ∈ blocks, ∃ r, locations[i.value]? = some r ∧ r.locationId = b.locationId ∧
    i.lo = b.start ∧ i.hi = b.stop}

theorem digits_of_mem_locationRecords {lines : List Text} {r : LocationRecord}
    (h : r ∈ locationRecords lines) : Digits r.id := by
  obtain ⟨line, -, hl⟩ := List.mem_filterMap.mp h
  exact (locationRecord?_some hl).1.2

theorem digits_of_mem_blockRecords {lines : List Text} {b : BlockRecord} (h : b ∈ blockRecords lines) :
    Digits b.first ∧ Digits b.last ∧ Digits b.id := by
  obtain ⟨line, -, hl⟩ := List.mem_filterMap.mp h
  obtain ⟨hf, hl, hid, -⟩ := blockRecord?_eq_some_iff.mp hl
  exact ⟨hf.2, hl.2, hid.2⟩

section
variable {locationLines blockLines : List Text}
  (hw : WellFormed (locationRecords locationLines) (blockRecords blockLines))
include hw

theorem strtoul_locationId {r : LocationRecord} (h : r ∈ locationRecords locationLines) :
    strtoul r.id = r.locationId ∧ r.locationId ≠ ulongMax := by
  obtain ⟨hp, hlt⟩ := hw.ids_plain r h
  refine ⟨?_, Nat.ne_of_lt hlt⟩
  rw [strtoul_plain (digits_of_mem_locationRecords h) hp]
  exact Nat.min_eq_right (Nat.le_of_lt hlt)

theorem strtoul_blockFields {b : BlockRecord} (h : b ∈ blockRecords blockLines) :
    strtoul b.id = b.locationId ∧ b.locationId ≠ ulongMax ∧ strtoul b.first = b.start ∧
      b.start ≠ ulongMax := by
  obtain ⟨hpf, -, hpi, hlt, hle, hstop⟩ := hw.blocks_plain b h
  obtain ⟨hdf, -, hdi⟩ := digits_of_mem_blockRecords h
  have hstart : b.start < ulongMax := Nat.lt_of_le_of_lt hle (Nat.lt_trans hstop (by decide))
  refine ⟨?_, Nat.ne_of_lt hlt, ?_, Nat.ne_of_lt hstart⟩
  · rw [strtoul_plain hdi hpi]
    exact Nat.min_eq_right (Nat.le_of_lt hlt)
  · rw [strtoul_plain hdf hpf]
    exact Nat.min_eq_right (Nat.le_of_lt hstart)

/-- Two blocks are one block or their ranges are disjoint. -/
theorem apart_of_ne {b c : BlockRecord} (hb : b ∈ blockRecords blockLines) (hc : c ∈ blockRecords blockLines)
    (hne : b ≠ c) : b.Apart c := by
  have hsymm : Std.Symm BlockRecord.Apart := ⟨fun _ _ h => h.symm⟩
  exact hw.blocks_apart.forall hb hc hne

/-- Two positions of the locations file with one id are one position. -/
theorem position_unique {p q : Nat} {r s : LocationRecord}
    (hp : (locationRecords locationLines)[p]? = some r) (hq : (locationRecords locationLines)[q]? = some s)
    (h : r.locationId = s.locationId) : p = q := by
  obtain ⟨hpl, rfl⟩ := List.getElem?_eq_some_iff.mp hp
  obtain ⟨hql, rfl⟩ := List.getElem?_eq_some_iff.mp hq
  have hd := List.pairwise_iff_getElem.mp hw.ids_distinct
  rcases Nat.lt_trichotomy p q with hlt | heq | hgt
  · exact absurd h (hd p q hpl hql hlt)
  · exact heq
  · exact absurd h.symm (hd q p hql hpl hgt)

/-- The locations table maps the id of each record to its Location. -/
theorem locationsTable_find? (k : Nat) (p : LocationPtr) :
    (loadedServer locationLines blockLines).locationsTable.find? k = some p ↔
      ∃ r, (locationRecords locationLines)[p]? = some r ∧ r.locationId = k := by
  have hmem : ∀ e, e ∈ locationEntries 0 (locationRecords locationLines) ↔
      ∃ r, (locationRecords locationLines)[e.2]? = some r ∧ r.locationId = e.1 := by
    intro e
    rw [mem_locationEntries_iff]
    refine exists_congr fun r => and_congr_right fun hr => ?_
    obtain ⟨hid, hne⟩ := strtoul_locationId hw (List.mem_of_getElem? hr)
    rw [hid]
    exact ⟨fun h => h.1, fun h => ⟨h, h ▸ hne⟩⟩
  have hunique : ∀ a ∈ locationEntries 0 (locationRecords locationLines),
      ∀ b ∈ locationEntries 0 (locationRecords locationLines), a.1 = b.1 → a = b := by
    intro a ha b hb he
    obtain ⟨r, hr, hrk⟩ := (hmem a).mp ha
    obtain ⟨s, hs, hsk⟩ := (hmem b).mp hb
    exact Prod.ext he (position_unique hw hr hs (by rw [hrk, hsk, he]))
  simp only [loadedServer]
  rw [OrderedMap.find?_insertAll_empty hunique, hmem]

/-- The address table maps the start of each kept block to the Location of its id. -/
theorem addressTable_find? (k : Nat) (p : LocationPtr) :
    (loadedServer locationLines blockLines).addressTable.find? k = some p ↔
      ∃ b ∈ blockRecords blockLines, b.start = k ∧
        ∃ r, (locationRecords locationLines)[p]? = some r ∧ r.locationId = b.locationId := by
  have hentry : ∀ b ∈ blockRecords blockLines, ∀ e,
      blockEntry (loadedServer locationLines blockLines).locationsTable b = some e ↔
        b.start = e.1 ∧ ∃ r, (locationRecords locationLines)[e.2]? = some r ∧ r.locationId = b.locationId := by
    rintro b hb ⟨k, p⟩
    obtain ⟨hid, hidne, hst, hstne⟩ := strtoul_blockFields hw hb
    rw [← locationsTable_find? hw]
    rw [blockEntry_eq_some_iff, hid, hst, and_iff_right hidne, and_iff_right hstne]
    exact and_comm
  have hmem : ∀ e, e ∈ (blockRecords blockLines).filterMap
      (blockEntry (loadedServer locationLines blockLines).locationsTable) ↔
      ∃ b ∈ blockRecords blockLines, b.start = e.1 ∧
        ∃ r, (locationRecords locationLines)[e.2]? = some r ∧ r.locationId = b.locationId := by
    intro e
    rw [List.mem_filterMap]
    constructor
    · rintro ⟨b, hb, he⟩
      exact ⟨b, hb, (hentry b hb e).mp he⟩
    · rintro ⟨b, hb, he⟩
      exact ⟨b, hb, (hentry b hb e).mpr he⟩
  have hunique : ∀ a ∈ (blockRecords blockLines).filterMap
      (blockEntry (loadedServer locationLines blockLines).locationsTable), ∀ b ∈ (blockRecords blockLines).filterMap
      (blockEntry (loadedServer locationLines blockLines).locationsTable), a.1 = b.1 → a = b := by
    intro x hx y hy he
    obtain ⟨b, hb, hbk, r, hr, hrb⟩ := (hmem x).mp hx
    obtain ⟨c, hc, hck, s, hs, hsc⟩ := (hmem y).mp hy
    have hbc : b = c := by
      by_contra hne
      have hbl := (hw.blocks_plain b hb).2.2.2.2.1
      have hcl := (hw.blocks_plain c hc).2.2.2.2.1
      have hapart := apart_of_ne hw hb hc hne
      simp only [BlockRecord.Apart] at hapart
      omega
    subst hbc
    exact Prod.ext he (position_unique hw hr hs (by rw [hrb, hsc]))
  have htable : (loadedServer locationLines blockLines).addressTable =
      OrderedMap.empty.insertAll ((blockRecords blockLines).filterMap
        (blockEntry (loadedServer locationLines blockLines).locationsTable)) := rfl
  rw [htable, OrderedMap.find?_insertAll_empty hunique, hmem]

/-- The address table indexes the disjoint intervals of the kept blocks. -/
theorem addressTable_indexed : Indexed
    (blockIntervals (locationRecords locationLines) (blockRecords blockLines))
    (loadedServer locationLines blockLines).addressTable := by
  refine ⟨?_, ?_, ?_⟩
  · rintro i ⟨b, hb, -, -, -, hlo, hhi⟩
    rw [hlo, hhi]
    exact (hw.blocks_plain b hb).2.2.2.2.1
  · rintro i ⟨b, hb, r, hr, hrb, hlo, hhi⟩ j ⟨c, hc, s, hs, hsc, hlo', hhi'⟩ hne
    have hbc : b ≠ c := by
      rintro rfl
      apply hne
      have hval := position_unique hw hr hs (by rw [hrb, hsc])
      cases i
      cases j
      simp only at hlo hhi hlo' hhi' hval
      rw [hlo, hhi, hlo', hhi', hval]
    rw [Intervals.Apart, hlo, hhi, hlo', hhi']
    exact apart_of_ne hw hb hc hbc
  · intro k p
    rw [addressTable_find? hw]
    constructor
    · rintro ⟨b, hb, rfl, r, hr, hrb⟩
      exact ⟨⟨b.start, b.stop, p⟩, ⟨b, hb, r, hr, hrb, rfl, rfl⟩, rfl, rfl⟩
    · rintro ⟨i, ⟨b, hb, r, hr, hrb, hlo, -⟩, rfl, rfl⟩
      exact ⟨b, hb, hlo.symm, r, hr, hrb⟩

end

/-- The server answers an address with the Location of a record, through both
overloads. -/
def Answers (locations : List LocationRecord) (server : GeoIpServer) (ip : Nat) (r : LocationRecord) : Prop :=
  ∃ p, getLocationByIp server ip = some p ∧ getLocationByIpText server (dottedQuad ip) = some p ∧
    locations[p]? = some r ∧ server.heap[p]? = some r.location

/-- Every address of every block with a known location is answered with it. -/
def LookupComplete (locations : List LocationRecord) (blocks : List BlockRecord) (server : GeoIpServer) :
    Prop :=
  ∀ b ∈ blocks, ∀ r ∈ locations, r.locationId = b.locationId →
    ∀ ip, b.start ≤ ip → ip ≤ b.stop → Answers locations server ip r

/-- An address of a known block is answered with its location exactly when another
known block starts above it. -/
theorem lookup_complete_iff {locations blocks : FileState} {server : GeoIpServer}
    (hload : Loads locations blocks server)
    (hw : WellFormed (locationRecords locations.lines) (blockRecords blocks.lines)) {b : BlockRecord}
    (hb : b ∈ blockRecords blocks.lines) {r : LocationRecord} (hr : r ∈ locationRecords locations.lines)
    (hid : r.locationId = b.locationId) {ip : Nat} (hlo : b.start ≤ ip) (hhi : ip ≤ b.stop) :
    Answers (locationRecords locations.lines) server ip r ↔
      ∃ c ∈ blockRecords blocks.lines, c.Known (locationRecords locations.lines) ∧ b.start < c.start := by
  obtain ⟨-, -, rfl⟩ := (loads_iff _ _ _).mp hload
  obtain ⟨p, hp, hpr⟩ := List.getElem_of_mem hr
  have hpr : (locationRecords locations.lines)[p]? = some r := by rw [List.getElem?_eq_getElem hp, hpr]
  have hindex := addressTable_indexed hw
  have hmem : (⟨b.start, b.stop, p⟩ : Interval Nat LocationPtr) ∈
      blockIntervals (locationRecords locations.lines) (blockRecords blocks.lines) :=
    ⟨b, hb, r, hpr, hid, rfl, rfl⟩
  have hlt : ip < 2 ^ 32 := Nat.lt_of_le_of_lt hhi (hw.blocks_plain b hb).2.2.2.2.2
  have hfound : Answers (locationRecords locations.lines) (loadedServer locations.lines blocks.lines) ip r ↔
      Found (loadedServer locations.lines blocks.lines).addressTable ip p := by
    simp only [Answers, getLocationByIpText_dottedQuad _ hlt, getLocationByIp_eq_some_iff]
    constructor
    · rintro ⟨q, hq, -, hqr, -⟩
      rw [position_unique hw hpr hqr rfl]
      exact hq
    · intro h
      refine ⟨p, h, h, hpr, ?_⟩
      simp only [loadedServer, List.getElem?_map, hpr, Option.map_some]
  rw [hfound, hindex.found_iff_of_covers hmem ⟨hlo, hhi⟩]
  constructor
  · rintro ⟨j, ⟨c, hc, s, hs, hsc, hjlo, -⟩, hlt⟩
    exact ⟨c, hc, ⟨s, List.mem_of_getElem? hs, hsc⟩, by rw [← hjlo]; exact hlt⟩
  · rintro ⟨c, hc, ⟨s, hs, hsc⟩, hlt⟩
    obtain ⟨q, hq, hqs⟩ := List.getElem_of_mem hs
    exact ⟨⟨c.start, c.stop, q⟩, ⟨c, hc, s, by rw [List.getElem?_eq_getElem hq, hqs], hsc, rfl, rfl⟩, hlt⟩

def twoLocations : FileState := .readable
  (text "1,\"US\",\"CA\",\"Oakland\",\"94601\",37.8,-122.2,807,510\n2,\"AU\",\"\",\"\",\"\",-27,133,,\n") false

def oneBlock : FileState := .readable (text "\"16777216\",\"16777471\",\"1\"\n") false

/-- Two blocks with a refused line between them and addresses of no block. -/
def twoBlocks : FileState := .readable
  (text "\"16777216\",\"16777471\",\"1\"\n16777472\n\"33554432\",\"33554687\",\"2\"\n") false

def oakland : LocationRecord :=
  ⟨text "1", ⟨text "US", text "CA", text "Oakland", text "94601", text "37.8", text "-122.2", text "807",
    text "510"⟩⟩

def australia : LocationRecord :=
  ⟨text "2", ⟨text "AU", [], [], [], text "-27", text "133", [], []⟩⟩

def lowerBlock : BlockRecord := ⟨text "16777216", text "16777471", text "1"⟩

def upperBlock : BlockRecord := ⟨text "33554432", text "33554687", text "2"⟩

theorem twoLocations_records : locationRecords twoLocations.lines = [oakland, australia] := by decide +kernel

theorem oneBlock_records : blockRecords oneBlock.lines = [lowerBlock] := by decide +kernel

theorem twoBlocks_records : blockRecords twoBlocks.lines = [lowerBlock, upperBlock] := by decide +kernel

theorem twoBlocks_loads : Loads twoLocations twoBlocks (loadedServer twoLocations.lines twoBlocks.lines) :=
  (loads_iff _ _ _).mpr ⟨rfl, rfl, rfl⟩

theorem twoBlocks_wellFormed :
    WellFormed (locationRecords twoLocations.lines) (blockRecords twoBlocks.lines) := by
  rw [twoLocations_records, twoBlocks_records]
  decide +kernel

theorem lower_block_answered : Answers (locationRecords twoLocations.lines)
    (loadedServer twoLocations.lines twoBlocks.lines) 16777471 oakland :=
  (lookup_complete_iff twoBlocks_loads twoBlocks_wellFormed (b := lowerBlock)
    (by simp [twoBlocks_records]) (by simp [twoLocations_records]) (by decide) (by decide) (by decide)).mpr
    ⟨upperBlock, by simp [twoBlocks_records], ⟨australia, by simp [twoLocations_records], by decide⟩, by decide⟩

/-- The addresses of the only block are not found. -/
theorem only_block_not_found :
    Loads twoLocations oneBlock (loadedServer twoLocations.lines oneBlock.lines) ∧
      WellFormed (locationRecords twoLocations.lines) (blockRecords oneBlock.lines) ∧
      ¬ LookupComplete (locationRecords twoLocations.lines) (blockRecords oneBlock.lines)
        (loadedServer twoLocations.lines oneBlock.lines) := by
  refine ⟨(loads_iff _ _ _).mpr ⟨rfl, rfl, rfl⟩, ?_, ?_⟩
  · rw [twoLocations_records, oneBlock_records]
    decide +kernel
  · intro h
    obtain ⟨p, hp, -⟩ := h lowerBlock (by simp [oneBlock_records]) oakland (by simp [twoLocations_records])
      (by decide) 16777216 (by decide) (by decide)
    have hnone : getLocationByIp (loadedServer twoLocations.lines oneBlock.lines) 16777216 = none := by
      rw [loadedServer, twoLocations_records, oneBlock_records]
      decide +kernel
    rw [hnone] at hp
    cases hp

/-- A property of the range is common to all kept intervals when it is common to
all known blocks. -/
theorem forall_blockIntervals {locations : List LocationRecord} {blocks : List BlockRecord}
    (P : Nat → Nat → Prop) :
    (∀ i ∈ blockIntervals locations blocks, P i.lo i.hi) ↔
      ∀ b ∈ blocks, b.Known locations → P b.start b.stop := by
  constructor
  · rintro h b hb ⟨r, hr, hrb⟩
    obtain ⟨p, hp⟩ := List.mem_iff_getElem?.mp hr
    exact h ⟨b.start, b.stop, p⟩ ⟨b, hb, r, hp, hrb, rfl, rfl⟩
  · rintro h i ⟨b, hb, r, hr, hrb, hlo, hhi⟩
    rw [hlo, hhi]
    exact h b hb ⟨r, List.mem_of_getElem? hr, hrb⟩

theorem exists_blockIntervals {locations : List LocationRecord} {blocks : List BlockRecord}
    (P : Nat → Nat → Prop) :
    (∃ i ∈ blockIntervals locations blocks, P i.lo i.hi) ↔
      ∃ b ∈ blocks, b.Known locations ∧ P b.start b.stop := by
  have h : (∀ i ∈ blockIntervals locations blocks, ¬P i.lo i.hi) ↔
      ∀ b ∈ blocks, b.Known locations → ¬P b.start b.stop := forall_blockIntervals fun lo hi => ¬P lo hi
  rw [← not_iff_not]
  push Not
  exact h

/-- Every answer at an address is the location of a block around it. -/
def LookupSound (locations : List LocationRecord) (blocks : List BlockRecord) (server : GeoIpServer)
    (ip : Nat) : Prop :=
  ∀ p, getLocationByIp server ip = some p → ∃ b ∈ blocks, b.start ≤ ip ∧ ip ≤ b.stop ∧
    ∃ r, locations[p]? = some r ∧ r.locationId = b.locationId

/-- The answer at an address is right exactly when a known block is around it, or
all known blocks start above it, or none does. -/
theorem lookup_sound_iff {locations blocks : FileState} {server : GeoIpServer}
    (hload : Loads locations blocks server)
    (hw : WellFormed (locationRecords locations.lines) (blockRecords blocks.lines)) (ip : Nat) :
    LookupSound (locationRecords locations.lines) (blockRecords blocks.lines) server ip ↔
      (∃ b ∈ blockRecords blocks.lines, b.Known (locationRecords locations.lines) ∧ b.start ≤ ip ∧ ip ≤ b.stop) ∨
      (∀ b ∈ blockRecords blocks.lines, b.Known (locationRecords locations.lines) → ip < b.start) ∨
      (∀ b ∈ blockRecords blocks.lines, b.Known (locationRecords locations.lines) → b.start ≤ ip) := by
  obtain ⟨-, -, rfl⟩ := (loads_iff _ _ _).mp hload
  rw [← exists_blockIntervals fun lo hi => lo ≤ ip ∧ ip ≤ hi,
    ← forall_blockIntervals fun lo _ => ip < lo, ← forall_blockIntervals fun lo _ => lo ≤ ip]
  refine Iff.trans (forall_congr' fun p => ?_) ((addressTable_indexed hw).found_sound_iff ip)
  rw [getLocationByIp_eq_some_iff]
  refine imp_congr Iff.rfl ?_
  constructor
  · rintro ⟨b, hb, hlo, hhi, r, hr, hrb⟩
    exact ⟨⟨b.start, b.stop, p⟩, ⟨b, hb, r, hr, hrb, rfl, rfl⟩, ⟨hlo, hhi⟩, rfl⟩
  · rintro ⟨i, ⟨b, hb, r, hr, hrb, hlo, hhi⟩, ⟨hil, hih⟩, rfl⟩
    exact ⟨b, hb, by rw [← hlo]; exact hil, by rw [← hhi]; exact hih, r, hr, hrb⟩

theorem lookup_sound_in_block : LookupSound (locationRecords twoLocations.lines)
    (blockRecords twoBlocks.lines) (loadedServer twoLocations.lines twoBlocks.lines) 16777300 :=
  (lookup_sound_iff twoBlocks_loads twoBlocks_wellFormed 16777300).mpr
    (.inl ⟨lowerBlock, by simp [twoBlocks_records], ⟨oakland, by simp [twoLocations_records], by decide⟩,
      by decide, by decide⟩)

/-- An address between the two blocks is answered with the Location of the lower one. -/
theorem gap_attributed_to_lower_block :
    Loads twoLocations twoBlocks (loadedServer twoLocations.lines twoBlocks.lines) ∧
      WellFormed (locationRecords twoLocations.lines) (blockRecords twoBlocks.lines) ∧
      ¬ LookupSound (locationRecords twoLocations.lines) (blockRecords twoBlocks.lines)
        (loadedServer twoLocations.lines twoBlocks.lines) 20000000 := by
  refine ⟨twoBlocks_loads, twoBlocks_wellFormed, ?_⟩
  intro h
  have hfound : getLocationByIp (loadedServer twoLocations.lines twoBlocks.lines) 20000000 = some 0 := by
    rw [loadedServer, twoLocations_records, twoBlocks_records]
    decide +kernel
  obtain ⟨b, hb, hlo, hhi, -⟩ := h 0 hfound
  rw [twoBlocks_records] at hb
  have hno : ∀ b ∈ [lowerBlock, upperBlock], ¬ (b.start ≤ 20000000 ∧ 20000000 ≤ b.stop) := by decide
  exact hno b hb ⟨hlo, hhi⟩

end GeoIp
