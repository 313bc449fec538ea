import Altumo.GeoIp.Ownership

/-!
# Loading depends on the set of lines

Of the lines that are kept under one key the first is the one whose record the table has.
So when no two different lines have one key, neither the order of the lines nor their
repetition matters to any lookup, although the Locations are created in another order.
-/

namespace GeoIp

open CString Numeral InetAddress InputStream

/-- The id under which a locations line is kept, if it is not skipped. -/
def keptId (line : Text) : Option Nat :=
  (locationRecord? line).bind fun r => (locationEntry (r, 0)).map Prod.fst

/-- The start under which a blocks line is kept, if it is not skipped. -/
def keptStart (server : GeoIpServer) (line : Text) : Option Nat :=
  (blockRecord? line).bind fun b => (blockEntry server.locationsTable b).map Prod.fst

/-- The Location that a pointer leads to. -/
def GeoIpServer.deref (server : GeoIpServer) (pointer : Option LocationPtr) : Option Location :=
  pointer.bind fun p => server.heap[p]?

theorem keptId_eq_some_iff {line : Text} {k : Nat} :
    keptId line = some k ↔ ∃ r, locationRecord? line = some r ∧ strtoul r.id = k ∧ k ≠ ulongMax := by
  simp only [keptId, Option.bind_eq_some_iff, Option.map_eq_some_iff, locationEntry_eq_some_iff]
  refine exists_congr fun r => and_congr_right fun _ => ?_
  constructor
  · rintro ⟨e, ⟨hrange, rfl⟩, rfl⟩
    exact ⟨rfl, hrange⟩
  · rintro ⟨rfl, hrange⟩
    exact ⟨_, ⟨hrange, rfl⟩, rfl⟩

/-- A blocks line is kept when its numbers are in range and its location is known. -/
theorem keptStart_eq_some_iff {server : GeoIpServer} {line : Text} {k : Nat} :
    keptStart server line = some k ↔ ∃ b, blockRecord? line = some b ∧ strtoul b.id ≠ ulongMax ∧
      strtoul b.first ≠ ulongMax ∧ server.locationsTable.find? (strtoul b.id) ≠ none ∧ strtoul b.first = k := by
  simp only [keptStart, Option.bind_eq_some_iff, Option.map_eq_some_iff, blockEntry_eq_some_iff]
  refine exists_congr fun b => and_congr_right fun _ => ?_
  constructor
  · rintro ⟨e, ⟨hid, hfirst, hf, he⟩, rfl⟩
    exact ⟨hid, hfirst, by simp [hf], he⟩
  · rintro ⟨hid, hfirst, hf, he⟩
    obtain ⟨p, hp⟩ := Option.ne_none_iff_exists'.mp hf
    exact ⟨(k, p), ⟨hid, hfirst, hp, he⟩, rfl⟩

theorem find?_locationRecords (locations : List Text) (k : Nat) :
    (locationRecords locations).find? (fun r => (locationEntry (r, 0)).map Prod.fst = some k) =
      (locations.find? fun line => keptId line = some k).bind locationRecord? := by
  have hany : ∀ line, (locationRecord? line).any (fun r => decide ((locationEntry (r, 0)).map Prod.fst = some k)) =
      decide (keptId line = some k) := by
    intro line
    rw [keptId]
    cases locationRecord? line <;> simp
  rw [locationRecords, List.find?_filterMap]
  simp only [hany]

/-- The first line that is kept under an id has its Location in the locations table. -/
theorem location_stored (locations blocks : List Text) (k : Nat) :
    (loadedServer locations blocks).deref ((loadedServer locations blocks).locationsTable.find? k) =
      ((locations.find? fun line => keptId line = some k).bind locationRecord?).map LocationRecord.location := by
  have hpositions : (locationRecords locations).find? (fun r => (locationEntry (r, 0)).map Prod.fst = some k) =
      ((locationRecords locations).zipIdx.find? fun a => (locationEntry a).map Prod.fst = some k).map Prod.fst := by
    have hmap := List.zipIdx_map_fst 0 (locationRecords locations)
    conv_lhs => rw [← hmap, List.find?_map]
    congr 2
    funext a
    simp only [Function.comp_apply, locationEntry_key a.1 0 a.2]
  rw [← find?_locationRecords, hpositions, loadedServer, locationEntries, OrderedMap.find?_insertAll_filterMap]
  cases hf : (locationRecords locations).zipIdx.find? fun a => (locationEntry a).map Prod.fst = some k with
  | none => rfl
  | some a =>
    have hentry : (locationEntry a).map Prod.fst = some k := by simpa using List.find?_some hf
    obtain ⟨e, he, -⟩ := Option.map_eq_some_iff.mp hentry
    have hp : e.2 = a.2 := by
      obtain ⟨-, rfl⟩ := locationEntry_eq_some_iff.mp he
      rfl
    have hr := List.mem_zipIdx_iff_getElem?.mp (List.mem_of_find?_eq_some hf)
    simp only [Option.bind_some, he, Option.map_some, hp, GeoIpServer.deref, List.getElem?_map, hr]

/-- The first line that is kept under a start has its Location in the address table. -/
theorem address_stored (locations blocks : List Text) (k : Nat) :
    (loadedServer locations blocks).addressTable.find? k =
      ((blocks.find? fun line => keptStart (loadedServer locations blocks) line = some k).bind blockRecord?).bind
        fun b => (loadedServer locations blocks).locationsTable.find? (strtoul b.id) := by
  have hoffers : (blockRecords blocks).filterMap (blockEntry (loadedServer locations blocks).locationsTable) =
      blocks.filterMap fun line =>
        (blockRecord? line).bind (blockEntry (loadedServer locations blocks).locationsTable) := by
    rw [blockRecords, List.filterMap_filterMap]
  have hkept : ∀ line, ((blockRecord? line).bind (blockEntry (loadedServer locations blocks).locationsTable)).map
      Prod.fst = keptStart (loadedServer locations blocks) line := by
    intro line
    rw [keptStart, Option.map_bind]
    rfl
  have htable : (loadedServer locations blocks).addressTable = OrderedMap.empty.insertAll
    ((blockRecords blocks).filterMap (blockEntry (loadedServer locations blocks).locationsTable)) := rfl
  rw [htable, hoffers, OrderedMap.find?_insertAll_filterMap]
  simp only [hkept]
  cases hf : blocks.find? fun line => keptStart (loadedServer locations blocks) line = some k with
  | none => rfl
  | some line =>
    have hk : keptStart (loadedServer locations blocks) line = some k := by simpa using List.find?_some hf
    obtain ⟨b, hb, he⟩ := Option.bind_eq_some_iff.mp hk
    obtain ⟨e, he, -⟩ := Option.map_eq_some_iff.mp he
    simp only [Option.bind_some, hb, he, Option.map_some, (blockEntry_eq_some_iff.mp he).2.2.1]

/-- Every pointer in the tables leads to a Location. -/
structure Sound (server : GeoIpServer) : Prop where
  locations : ∀ k p, server.locationsTable.find? k = some p → ∃ l, server.heap[p]? = some l
  addresses : ∀ k p, server.addressTable.find? k = some p → ∃ l, server.heap[p]? = some l

theorem loadedServer_sound (locations blocks : List Text) : Sound (loadedServer locations blocks) := by
  refine ⟨fun k p h => ?_, fun k p h => ?_⟩
  · obtain ⟨-, r, -, -, hl⟩ := loadedServer_stored locations blocks (.inl h)
    exact ⟨r.location, hl⟩
  · obtain ⟨-, r, -, -, hl⟩ := loadedServer_stored locations blocks (.inr h)
    exact ⟨r.location, hl⟩

theorem deref_eq_none_iff {server : GeoIpServer} {pointer : Option LocationPtr}
    (h : ∀ p, pointer = some p → ∃ l, server.heap[p]? = some l) :
    server.deref pointer = none ↔ pointer = none := by
  cases pointer with
  | none => simp [GeoIpServer.deref]
  | some p =>
    obtain ⟨l, hl⟩ := h p rfl
    simp [GeoIpServer.deref, hl]

/-- Two results are both NULL, or both lead to Locations with equal fields. -/
def SameAnswer (server server' : GeoIpServer) (pointer pointer' : Option LocationPtr) : Prop :=
  (pointer = none ∧ pointer' = none) ∨ ∃ p p' l, pointer = some p ∧ pointer' = some p' ∧
    server.heap[p]? = some l ∧ server'.heap[p']? = some l

/-- No lookup tells the two servers apart. -/
structure SameAnswers (server server' : GeoIpServer) : Prop where
  address : ∀ ip, SameAnswer server server' (getLocationByIp server ip) (getLocationByIp server' ip)
  text : ∀ ip, SameAnswer server server' (getLocationByIpText server ip) (getLocationByIpText server' ip)

section
variable {server server' : GeoIpServer}

theorem sameAnswer_of_deref {pointer pointer' : Option LocationPtr}
    (hp : ∀ p, pointer = some p → ∃ l, server.heap[p]? = some l)
    (hp' : ∀ p, pointer' = some p → ∃ l, server'.heap[p]? = some l)
    (h : server.deref pointer = server'.deref pointer') : SameAnswer server server' pointer pointer' := by
  cases pointer with
  | none =>
    have hnone : server'.deref pointer' = none := h.symm
    exact .inl ⟨rfl, (deref_eq_none_iff hp').mp hnone⟩
  | some p =>
    obtain ⟨l, hl⟩ := hp p rfl
    have hsome : server'.deref pointer' = some l := h.symm.trans hl
    obtain ⟨p', he, hl'⟩ := Option.bind_eq_some_iff.mp hsome
    exact .inr ⟨p, p', l, rfl, he, hl, hl'⟩

/-- What a lookup finds, as a Location. -/
theorem deref_getLocationByIp (hs : Sound server) (ip : Nat) (l : Location) :
    server.deref (getLocationByIp server ip) = some l ↔
      OrderedMap.IsFloor (fun k => server.deref (server.addressTable.find? k)) ip l ∧
      ∃ j, ip < j ∧ server.deref (server.addressTable.find? j) ≠ none := by
  have hne : ∀ j, server.deref (server.addressTable.find? j) ≠ none ↔ server.addressTable.find? j ≠ none :=
    fun j => not_congr (deref_eq_none_iff (hs.addresses j))
  simp only [hne]
  simp only [GeoIpServer.deref, OrderedMap.isFloor_bind hs.addresses, Option.bind_eq_some_iff,
    getLocationByIp_eq_some_iff]
  constructor
  · rintro ⟨p, ⟨hp, hj⟩, hl⟩
    exact ⟨⟨p, hp, hl⟩, hj⟩
  · rintro ⟨⟨p, hp, hl⟩, hj⟩
    exact ⟨p, ⟨hp, hj⟩, hl⟩

/-- Lookups depend on the Locations that the address table leads to. -/
theorem sameAnswers_of_deref (hs : Sound server) (hs' : Sound server')
    (h : ∀ k, server.deref (server.addressTable.find? k) = server'.deref (server'.addressTable.find? k)) :
    SameAnswers server server' := by
  have hfound : ∀ {server : GeoIpServer}, Sound server → ∀ ip p, getLocationByIp server ip = some p →
      ∃ l, server.heap[p]? = some l := by
    intro server hs ip p hp
    obtain ⟨j, -, hj, -⟩ := ((getLocationByIp_eq_some_iff _ _ _).mp hp).1
    exact hs.addresses j p hj
  have haddress : ∀ ip, SameAnswer server server' (getLocationByIp server ip) (getLocationByIp server' ip) := by
    intro ip
    refine sameAnswer_of_deref (hfound hs ip) (hfound hs' ip) (Option.ext fun l => ?_)
    simp only [deref_getLocationByIp hs, deref_getLocationByIp hs', h]
  refine ⟨haddress, fun ip => ?_⟩
  simp only [getLocationByIpText]
  cases inetPton (cStr ip) with
  | none => exact .inl ⟨rfl, rfl⟩
  | some octets => exact haddress (ntohl octets)

/-- Which blocks lines are kept depends on the ids in the locations table alone. -/
theorem keptStart_congr (h : ∀ k, server.locationsTable.find? k = none ↔ server'.locationsTable.find? k = none) :
    keptStart server = keptStart server' := by
  funext line
  refine Option.ext fun k => ?_
  simp only [keptStart_eq_some_iff, ne_eq, h]

end

/-- Two files have the same lines, up to the empty line behind a final newline. -/
def SameLines (lines lines' : List Text) : Prop := ∀ line, line ≠ [] → (line ∈ lines ↔ line ∈ lines')

/-- No two different lines are kept under one key. -/
def KeysDiffer (key : Text → Option Nat) (lines : List Text) : Prop :=
  ∀ line ∈ lines, ∀ line' ∈ lines, ∀ k, key line = some k → key line' = some k → line = line'

/-- When one line at most is kept under a key, the set of lines determines it. -/
theorem find?_of_sameLines {key : Text → Option Nat} (hempty : key [] = none) {lines lines' : List Text}
    (hs : SameLines lines lines') (hd : KeysDiffer key lines) (k : Nat) :
    (lines.find? fun line => key line = some k) = lines'.find? fun line => key line = some k := by
  have hmem : ∀ line, key line = some k → (line ∈ lines ↔ line ∈ lines') := by
    intro line hk
    refine hs line fun he => ?_
    rw [he, hempty] at hk
    cases hk
  cases hf : lines.find? fun line => key line = some k with
  | none =>
    symm
    rw [List.find?_eq_none] at hf ⊢
    intro line hin hk
    exact hf line ((hmem line (by simpa using hk)).mpr hin) hk
  | some line =>
    have hk : key line = some k := by simpa using List.find?_some hf
    have hin := List.mem_of_find?_eq_some hf
    cases hf' : lines'.find? fun line => key line = some k with
    | none =>
      have := List.find?_eq_none.mp hf' line ((hmem line hk).mp hin)
      simp [hk] at this
    | some line' =>
      have hk' : key line' = some k := by simpa using List.find?_some hf'
      have hin' := (hmem line' hk').mpr (List.mem_of_find?_eq_some hf')
      rw [hd line hin line' hin' k hk hk']

/-- Two pairs of files with the same lines, no two under one key, give the same answers. -/
theorem sameAnswers_of_sameLines {locations locations' blocks blocks' : List Text}
    (hl : SameLines locations locations') (hb : SameLines blocks blocks') (hdl : KeysDiffer keptId locations)
    (hdb : KeysDiffer (keptStart (loadedServer locations blocks)) blocks) :
    SameAnswers (loadedServer locations blocks) (loadedServer locations' blocks') := by
  have hlocations : ∀ k,
      (loadedServer locations blocks).deref ((loadedServer locations blocks).locationsTable.find? k) =
        (loadedServer locations' blocks').deref ((loadedServer locations' blocks').locationsTable.find? k) := by
    intro k
    rw [location_stored, location_stored, find?_of_sameLines (by decide) hl hdl]
  have hsound := loadedServer_sound locations blocks
  have hsound' := loadedServer_sound locations' blocks'
  have hstart : keptStart (loadedServer locations blocks) = keptStart (loadedServer locations' blocks') := by
    refine keptStart_congr fun k => ?_
    rw [← deref_eq_none_iff (hsound.locations k), hlocations, deref_eq_none_iff (hsound'.locations k)]
  refine sameAnswers_of_deref hsound hsound' fun k => ?_
  rw [address_stored, address_stored, ← hstart, find?_of_sameLines (by rfl) hb hdb]
  cases (blocks'.find? fun line => keptStart (loadedServer locations blocks) line = some k).bind blockRecord? with
  | none => rfl
  | some b => exact hlocations (strtoul b.id)

/-- Of the lines that are kept under one key, the first one's record is in the table. -/
structure FirstKept (locations blocks : List Text) (server : GeoIpServer) : Prop where
  locationsFile : ∀ done line rest k, locations = done ++ line :: rest → keptId line = some k →
    (∀ l ∈ done, keptId l ≠ some k) → ∃ r p, locationRecord? line = some r ∧
      server.locationsTable.find? k = some p ∧ server.heap[p]? = some r.location
  blocksFile : ∀ done line rest k, blocks = done ++ line :: rest → keptStart server line = some k →
    (∀ l ∈ done, keptStart server l ≠ some k) → ∃ b p, blockRecord? line = some b ∧
      server.locationsTable.find? (strtoul b.id) = some p ∧ server.addressTable.find? k = some p

theorem find?_first {key : Text → Option Nat} {done rest : List Text} {line : Text} {k : Nat}
    (hk : key line = some k) (hfirst : ∀ l ∈ done, key l ≠ some k) :
    (done ++ line :: rest).find? (fun l => key l = some k) = some line :=
  List.find?_eq_some_iff_append.mpr ⟨by simpa using hk, done, rest, rfl, by simpa using hfirst⟩

theorem firstKept (locations blocks : List Text) :
    FirstKept locations blocks (loadedServer locations blocks) := by
  refine ⟨?_, ?_⟩
  · intro done line rest k he hk hfirst
    obtain ⟨r, hr, -⟩ := keptId_eq_some_iff.mp hk
    have hstored := location_stored locations blocks k
    rw [he, find?_first hk hfirst, ← he, Option.bind_some, hr, Option.map_some, GeoIpServer.deref,
      Option.bind_eq_some_iff] at hstored
    obtain ⟨p, hp, hl⟩ := hstored
    exact ⟨r, p, hr, hp, hl⟩
  · intro done line rest k he hk hfirst
    obtain ⟨b, hb, hentry⟩ := Option.bind_eq_some_iff.mp hk
    obtain ⟨e, hentry, -⟩ := Option.map_eq_some_iff.mp hentry
    have hp := (blockEntry_eq_some_iff.mp hentry).2.2.1
    have hstored := address_stored locations blocks k
    have hfind : (blocks.find? fun l => keptStart (loadedServer locations blocks) l = some k) = some line := by
      conv_lhs => rw [he]
      exact find?_first hk hfirst
    rw [hfind, Option.bind_some, hb, Option.bind_some, hp] at hstored
    exact ⟨b, e.2, hb, hp, hstored⟩

/-- `loadData()` on two pairs of files with the same sets of lines, in which no two different
lines are kept under one key, gives servers that answer every address alike. On every pair of
files the first line under a key is the one whose record is kept. -/
theorem load_depends_on_line_sets :
    (∀ {locations locations' blocks blocks' : FileState} {server server' : GeoIpServer},
      Loads locations blocks server → Loads locations' blocks' server' →
      SameLines locations.lines locations'.lines → SameLines blocks.lines blocks'.lines →
      KeysDiffer keptId locations.lines → KeysDiffer (keptStart server) blocks.lines →
      SameAnswers server server') ∧
    ∀ {locations blocks : FileState} {server : GeoIpServer}, Loads locations blocks server →
      FirstKept locations.lines blocks.lines server := by
  constructor
  · intro locations locations' blocks blocks' server server' h h' hl hb hdl hdb
    obtain ⟨-, -, rfl⟩ := (loads_iff _ _ _).mp h
    obtain ⟨-, -, rfl⟩ := (loads_iff _ _ _).mp h'
    exact sameAnswers_of_sameLines hl hb hdl hdb
  · intro locations blocks server h
    obtain ⟨-, -, rfl⟩ := (loads_iff _ _ _).mp h
    exact firstKept locations.lines blocks.lines

theorem keptStart_some {server : GeoIpServer} {line : Text} {b : BlockRecord} {k : Nat}
    (hb : blockRecord? line = some b) (h : keptStart server line = some k) : strtoul b.first = k := by
  obtain ⟨b', hb', -, -, -, hk⟩ := keptStart_eq_some_iff.mp h
  rw [hb] at hb'
  cases hb'
  exact hk

/-- A locations file of one record, and the same with its line repeated. -/
def siteRecord : CsvRecord := bareRecord (text "7") (by decide)

def repeatedSite : FileState := .readable (siteRecord.line ++ newline :: siteRecord.line) false

/-- Two blocks of that location, in both orders. -/
def lowBlock : Text := formatBlock (text "1") (text "2") (text "7")

def highBlock : Text := formatBlock (text "5") (text "6") (text "7")

def lowHigh : FileState := .readable (lowBlock ++ newline :: highBlock) false

def highLow : FileState := .readable (highBlock ++ newline :: lowBlock) false

theorem load_of_repeated_and_swapped_lines :
    SameAnswers (loadedServer siteRecord.file.lines lowHigh.lines) (loadedServer repeatedSite.lines highLow.lines) ∧
      FirstKept repeatedSite.lines highLow.lines (loadedServer repeatedSite.lines highLow.lines) := by
  have hone : siteRecord.file.lines = [siteRecord.line] := lines_last siteRecord.newline_notMem
  have htwo : repeatedSite.lines = [siteRecord.line, siteRecord.line] := by
    rw [repeatedSite, FileState.lines, lines_newline siteRecord.newline_notMem, lines_last siteRecord.newline_notMem]
  have hlow : newline ∉ lowBlock := by decide
  have hhigh : newline ∉ highBlock := by decide
  have hlowHigh : lowHigh.lines = [lowBlock, highBlock] := by
    rw [lowHigh, FileState.lines, lines_newline hlow, lines_last hhigh]
  have hhighLow : highLow.lines = [highBlock, lowBlock] := by
    rw [highLow, FileState.lines, lines_newline hhigh, lines_last hlow]
  have hload : Loads siteRecord.file lowHigh (loadedServer siteRecord.file.lines lowHigh.lines) :=
    (loads_iff _ _ _).mpr ⟨rfl, rfl, rfl⟩
  have hload' : Loads repeatedSite highLow (loadedServer repeatedSite.lines highLow.lines) :=
    (loads_iff _ _ _).mpr ⟨rfl, rfl, rfl⟩
  have hsites : SameLines siteRecord.file.lines repeatedSite.lines := by
    intro line _
    simp [hone, htwo]
  have hblocks : SameLines lowHigh.lines highLow.lines := by
    intro line _
    simp [hlowHigh, hhighLow, or_comm]
  have hids : KeysDiffer keptId siteRecord.file.lines := by
    intro line hline line' hline' k _ _
    rw [hone, List.mem_singleton] at hline hline'
    rw [hline, hline']
  have hstarts : KeysDiffer (keptStart (loadedServer siteRecord.file.lines lowHigh.lines)) lowHigh.lines := by
    intro line hline line' hline' k hk hk'
    have hrl : blockRecord? lowBlock = some ⟨text "1", text "2", text "7"⟩ :=
      blockRecord?_formatBlock (by decide) (by decide) (by decide)
    have hrh : blockRecord? highBlock = some ⟨text "5", text "6", text "7"⟩ :=
      blockRecord?_formatBlock (by decide) (by decide) (by decide)
    have hne : strtoul (text "1") ≠ strtoul (text "5") := by decide
    rw [hlowHigh, List.mem_cons, List.mem_singleton] at hline hline'
    rcases hline with rfl | rfl
    · rcases hline' with rfl | rfl
      · rfl
      · exact absurd ((keptStart_some hrl hk).trans (keptStart_some hrh hk').symm) hne
    · rcases hline' with rfl | rfl
      · exact absurd ((keptStart_some hrl hk').trans (keptStart_some hrh hk).symm) hne
      · rfl
  exact ⟨load_depends_on_line_sets.1 hload hload' hsites hblocks hids hstarts, load_depends_on_line_sets.2 hload'⟩

end GeoIp
