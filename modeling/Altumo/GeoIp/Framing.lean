import Altumo.GeoIp.Records
import Altumo.GeoIp.Session

/-!
# Requests and responses on the wire

Requests carry no mark of their end: a session takes what one read returns for a
whole request. Responses are frames of fixed size whose text ends at the first NUL.
-/

namespace GeoIp

open CString Numeral InetAddress InputStream

/-- The client gets the text of the first frame of a stream. -/
theorem client_reads_frame (what : Text) (f : Buffer maxLength) (later : Text) :
    clientGetLocationByIp what (f.bytes ++ later) = f.toCString := by
  have hle : maxLength ≤ (f.bytes ++ later).length := by
    rw [List.length_append, f.length_eq]
    exact Nat.le_add_right _ _
  have hr : readFrame (f.bytes ++ later) = some f := by
    rw [readFrame, dif_pos hle]
    exact congrArg some (Buffer.ext (List.take_left' f.length_eq))
  simp only [clientGetLocationByIp, hr]

/-- The record of one location with empty names. -/
def probeRecord : CsvRecord := bareRecord (text "1") (by decide)

/-- A block of one address, and one that starts right above it. -/
def probeBlocks (ip : Nat) : FileState := .readable
  (formatBlock (decimal ip) (decimal ip) (text "1") ++ newline ::
    formatBlock (decimal (ip + 1)) (decimal (ip + 1)) (text "1")) false

def probeServer (ip : Nat) : GeoIpServer := loadedServer probeRecord.file.lines (probeBlocks ip).lines

theorem probe_loads (ip : Nat) : Loads probeRecord.file (probeBlocks ip) (probeServer ip) :=
  (loads_iff _ _ _).mpr ⟨rfl, rfl, rfl⟩

theorem probe_heap (ip : Nat) : (probeServer ip).heap = [probeRecord.location] := by
  simp only [probeServer, loadedServer, probeRecord.locationRecords_file, List.map_cons, List.map_nil]

/-- A response fits its array, its frame ends in a NUL, and the client's string is the
response, whatever the array held and whatever follows on the connection. -/
def RoundTrips (response : Text) : Prop :=
  ∀ data, ∃ f, frame data response = some f ∧ 0 ∈ f.bytes ∧
    ∀ what later, clientGetLocationByIp what (f.bytes ++ later) = some response

/-- A text without NUL comes back exactly when it leaves room for one. -/
theorem roundTrips_iff {response : Text} (hz : (0 : Byte) ∉ response) :
    RoundTrips response ↔ response.length < maxLength := by
  constructor
  · intro h
    obtain ⟨f, hf, hzero, -⟩ := h (Buffer.zeroed maxLength)
    by_contra hlt
    rcases Nat.lt_or_eq_of_le (Nat.not_lt.mp hlt) with hover | hfull
    · rw [frame_eq_none hover] at hf
      cases hf
    · obtain ⟨g, hg, hb⟩ := frame_eq_some (Nat.le_of_eq hfull.symm) (Buffer.zeroed maxLength)
      rw [hf] at hg
      cases hg
      rw [hb, strncpyBytes_self hz, hfull, Nat.sub_self, List.replicate_zero, List.append_nil] at hzero
      exact hz hzero
  · intro hlt data
    obtain ⟨f, hf, hb⟩ := frame_eq_some (Nat.le_of_lt hlt) data
    obtain ⟨n, hn⟩ := Nat.exists_eq_add_of_lt hlt
    have hbytes : f.bytes = response ++ 0 :: List.replicate n 0 := by
      rw [hb, strncpyBytes_self hz, ← List.replicate_succ]
      congr 2
      omega
    have hzero : (0 : Byte) ∈ f.bytes := by simp [hbytes]
    refine ⟨f, hf, hzero, ?_⟩
    intro what later
    rw [client_reads_frame, Buffer.toCString, if_pos hzero, hbytes, cStr_append_zero hz]

/-- The bytes of all fields. -/
def Location.size (l : Location) : Nat := (l.fields.map List.length).sum

theorem locationResponse_length (l : Location) : (locationResponse l).length = 113 + l.size := by
  have hnames : ((locationMembers l).map fun m => m.1.length) = [4, 6, 7, 8, 9, 9, 10, 11] := rfl
  simp only [locationMembers, List.map_cons, List.map_nil, List.cons.injEq] at hnames
  simp only [locationResponse_eq, locationMembers, objectText, furtherMembers, memberText, List.length_cons,
    List.length_append, List.length_nil, hnames, Location.size, Location.fields, List.map_cons, List.map_nil,
    List.sum_cons, List.sum_nil]
  omega

theorem zero_notMem_locationResponse {l : Location} (h : ∀ f ∈ l.fields, (0 : Byte) ∉ f) :
    (0 : Byte) ∉ locationResponse l := by
  simp only [Location.fields, List.mem_cons, List.not_mem_nil, or_false, forall_eq_or_imp, forall_eq] at h
  obtain ⟨hcountry, hregion, hcity, hpostal, hlatitude, hlongitude, hmetro, harea⟩ := h
  simp only [locationResponse, List.mem_flatten, List.mem_cons, List.not_mem_nil, or_false, not_exists, not_and,
    forall_eq_or_imp, forall_eq]
  exact ⟨by decide, by decide, hcity, by decide, by decide, hregion, by decide, by decide, hcountry, by decide,
    by decide, hlatitude, by decide, by decide, hlongitude, by decide, by decide, harea, by decide,
    by decide, hmetro, by decide, by decide, hpostal, by decide, by decide⟩

/-- The response of a stored Location comes back exactly when its fields have at most
910 bytes, and the response without Location always does. -/
theorem response_round_trip_iff {file : FileState} {fuel : Nat} {cout : Text} {st : LoadState}
    (hload : loadLocationsFile fuel file newServer cout = some st) :
    (∃ response, responseText st.server none = some response ∧ RoundTrips response) ∧
      ∀ k p, st.server.locationsTable.find? k = some p → ∃ l response, st.server.heap[p]? = some l ∧
        responseText st.server (some p) = some response ∧ (RoundTrips response ↔ l.size ≤ 910) := by
  refine ⟨⟨text "\x7b\x7d", rfl, (roundTrips_iff (by decide)).mpr (by decide)⟩, ?_⟩
  intro k p hp
  obtain ⟨r, hr, hheap⟩ := stored_location hload hp
  refine ⟨r.location, locationResponse r.location, hheap, ?_, ?_⟩
  · rw [responseText, hheap, Option.map_some]
  · rw [roundTrips_iff (zero_notMem_locationResponse (zero_notMem_fields hr)), locationResponse_length, maxLength]
    omega

theorem probe_response_round_trips : ∃ st, loadLocationsFile 2 probeRecord.file newServer [] = some st ∧
    RoundTrips (locationResponse probeRecord.location) := by
  obtain ⟨st, hload⟩ := probeRecord.file_loads
  obtain ⟨hheap, htable⟩ := loadLocationsFile_result hload
  rw [probeRecord.locationRecords_file] at hheap htable
  have hp : st.server.locationsTable.find? 1 = some 0 := by
    rw [htable]
    decide
  obtain ⟨l, response, hl, hr, hiff⟩ := (response_round_trip_iff hload).2 1 0 hp
  rw [hheap, List.map_cons, List.getElem?_cons_zero] at hl
  cases hl
  rw [responseText, hheap, List.map_cons, List.getElem?_cons_zero, Option.map_some] at hr
  cases hr
  exact ⟨st, hload, hiff.mpr (by decide)⟩

/-- A record whose city fills the frame. -/
def longRecord : CsvRecord where
  id := text "1"
  location := ⟨text "US", [], List.replicate 909 97, [], [], [], [], []⟩
  id_digits := by decide
  country_length := by decide
  metroCode_digits := by decide
  areaCode_digits := by decide
  fields_clean := by decide +kernel
  latitude_no_comma := by decide
  longitude_no_comma := by decide

/-- Its response of 1024 bytes leaves no room for a NUL. -/
theorem long_response_unterminated : ∃ st, loadLocationsFile 2 longRecord.file newServer [] = some st ∧
    st.server.locationsTable.find? 1 = some 0 ∧ ∃ response, responseText st.server (some 0) = some response ∧
      ¬ RoundTrips response := by
  obtain ⟨st, hload⟩ := longRecord.file_loads
  obtain ⟨hheap, htable⟩ := loadLocationsFile_result hload
  rw [longRecord.locationRecords_file] at hheap htable
  have hz : (0 : Byte) ∉ locationResponse longRecord.location :=
    zero_notMem_locationResponse fun f hf => (longRecord.fields_clean f hf).2.1
  refine ⟨st, hload, ?_, locationResponse longRecord.location, ?_, ?_⟩
  · rw [htable]
    decide
  · rw [responseText, hheap]
    rfl
  · rw [roundTrips_iff hz, locationResponse_length]
    decide +kernel

end GeoIp
