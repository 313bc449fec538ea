import Mathlib.Data.List.Forall2
import Altumo.GeoIp.Csv
import Altumo.GeoIp.Session
import Altumo.Library.Charset
import Altumo.Library.Json

/-!
# Responses as JSON

A response is put together from the fields as they are. It is the JSON object that
names them exactly when no field needs an escape, whatever the character set in
which the bytes are read.
-/

namespace GeoIp

open CString Encoding

/-- The decoded texts of a name and its value. -/
def DecodesMember (charset : Charset) (m : Text × Text) (d : List Char × List Char) : Prop :=
  charset.decode m.1 = some d.1 ∧ charset.decode m.2 = some d.2

/-- The text is one JSON object whose members are exactly the given ones. -/
def DecodesTo (charset : Charset) (response : Text) (members : List (Text × Text)) : Prop :=
  ∃ chars decoded ms, charset.decode response = some chars ∧
    List.Forall₂ (DecodesMember charset) members decoded ∧ Json.parse chars = some (.object ms) ∧
      ms.Perm (decoded.map Json.memberOf)

/-- A byte that stands for itself in a JSON string. -/
def PlainByte (b : Byte) : Prop := 32 ≤ b.toNat ∧ b.toNat ≠ 34 ∧ b.toNat ≠ 92

instance (b : Byte) : Decidable (PlainByte b) :=
  inferInstanceAs (Decidable (32 ≤ b.toNat ∧ b.toNat ≠ 34 ∧ b.toNat ≠ 92))

variable (charset : Charset)

theorem decode_memberText (m : Text × Text) (rest : Text) (chars : List Char) :
    charset.decode (memberText m rest) = some chars ↔ ∃ d r, DecodesMember charset m d ∧
      charset.decode rest = some r ∧ chars = Json.memberChars d r := by
  have hquote : (34 : Byte).toNat < 128 := by decide
  have hcolon : (58 : Byte).toNat < 128 := by decide
  simp only [memberText, charset.decode_cons hquote, charset.decode_cons hcolon,
    charset.decode_append_cons hquote, Option.map_eq_some_iff, Option.bind_eq_some_iff]
  constructor
  · rintro ⟨_, ⟨name, hname, _, ⟨_, ⟨_, ⟨value, hvalue, r, hr, rfl⟩, rfl⟩, rfl⟩, rfl⟩, rfl⟩
    exact ⟨(name, value), r, ⟨hname, hvalue⟩, hr, rfl⟩
  · rintro ⟨⟨name, value⟩, r, ⟨hname, hvalue⟩, hr, rfl⟩
    exact ⟨_, ⟨name, hname, _, ⟨_, ⟨_, ⟨value, hvalue, r, hr, rfl⟩, rfl⟩, rfl⟩, rfl⟩, rfl⟩

theorem decode_furtherMembers (ms : List (Text × Text)) (chars : List Char) :
    charset.decode (furtherMembers ms) = some chars ↔
      ∃ ds, List.Forall₂ (DecodesMember charset) ms ds ∧ chars = Json.objectRest ds := by
  have hcomma : (44 : Byte).toNat < 128 := by decide
  have hclose : (125 : Byte).toNat < 128 := by decide
  induction ms generalizing chars with
  | nil =>
    simp only [furtherMembers, charset.decode_cons hclose, Charset.decode_nil, Option.map_some,
      Option.some.injEq, List.forall₂_nil_left_iff, exists_eq_left]
    exact eq_comm
  | cons m ms ih =>
    simp only [furtherMembers, charset.decode_cons hcomma, Option.map_eq_some_iff, decode_memberText, ih,
      List.forall₂_cons_left_iff]
    constructor
    · rintro ⟨_, ⟨d, _, hd, ⟨ds, hds, rfl⟩, rfl⟩, rfl⟩
      exact ⟨d :: ds, ⟨d, ds, hd, hds, rfl⟩, rfl⟩
    · rintro ⟨_, ⟨d, ds, hd, hds, rfl⟩, rfl⟩
      exact ⟨_, ⟨d, _, hd, ⟨ds, hds, rfl⟩, rfl⟩, rfl⟩

/-- Reading the bytes of an object reads the bytes of its names and values. -/
theorem decode_objectText (ms : List (Text × Text)) (chars : List Char) :
    charset.decode (objectText ms) = some chars ↔
      ∃ ds, List.Forall₂ (DecodesMember charset) ms ds ∧ chars = Json.objectText ds := by
  have hopen : (123 : Byte).toNat < 128 := by decide
  have hclose : (125 : Byte).toNat < 128 := by decide
  cases ms with
  | nil =>
    simp only [objectText, charset.decode_cons hopen, charset.decode_cons hclose, Charset.decode_nil,
      Option.map_some, Option.some.injEq, List.forall₂_nil_left_iff, exists_eq_left]
    exact eq_comm
  | cons m ms =>
    simp only [objectText, charset.decode_cons hopen, Option.map_eq_some_iff, decode_memberText,
      decode_furtherMembers, List.forall₂_cons_left_iff]
    constructor
    · rintro ⟨_, ⟨d, _, hd, ⟨ds, hds, rfl⟩, rfl⟩, rfl⟩
      exact ⟨d :: ds, ⟨d, ds, hd, hds, rfl⟩, rfl⟩
    · rintro ⟨_, ⟨d, ds, hd, hds, rfl⟩, rfl⟩
      exact ⟨_, ⟨d, _, hd, ⟨ds, hds, rfl⟩, rfl⟩, rfl⟩

/-- A text needs no escape exactly when none of its bytes does. -/
theorem plain_iff {s : Text} {v : List Char} (h : charset.decode s = some v) :
    (∀ c ∈ v, Json.Plain c.toNat) ↔ ∀ b ∈ s, PlainByte b := by
  constructor
  · intro hv b hb
    by_cases hlt : b.toNat < 128
    · have hp := hv _ ((charset.mem_decode_iff h hlt).mpr hb)
      rwa [toNat_charOf] at hp
    · exact ⟨by omega, by omega, by omega⟩
  · intro hs c hc
    by_cases hlt : c.toNat < 128
    · have hb : c.toNat.toUInt8.toNat = c.toNat := by
        rw [Nat.toUInt8, UInt8.toNat_ofNat']
        omega
      have hm : c.toNat.toUInt8 ∈ s := by
        rw [← charset.mem_decode_iff h (by omega), charOf_toUInt8 (by omega)]
        exact hc
      have hp := hs _ hm
      rwa [PlainByte, hb] at hp
    · exact ⟨by omega, by omega, by omega⟩

/-- What is related to an entry of one of two related lists. -/
theorem exists_of_mem_left {α β : Type} {R : α → β → Prop} {xs : List α} {ys : List β}
    (h : List.Forall₂ R xs ys) {x : α} (hx : x ∈ xs) : ∃ y ∈ ys, R x y := by
  induction h with
  | nil => cases hx
  | cons hr _ ih =>
    rcases List.mem_cons.mp hx with rfl | hx
    · exact ⟨_, List.mem_cons_self .., hr⟩
    · obtain ⟨y, hy, hr⟩ := ih hx
      exact ⟨y, List.mem_cons_of_mem _ hy, hr⟩

theorem exists_forall₂ {α β : Type} {R : α → β → Prop} {xs : List α} (h : ∀ x ∈ xs, ∃ y, R x y) :
    ∃ ys, List.Forall₂ R xs ys := by
  induction xs with
  | nil => exact ⟨[], .nil⟩
  | cons x xs ih =>
    rw [List.forall_mem_cons] at h
    obtain ⟨⟨y, hy⟩, h⟩ := h
    obtain ⟨ys, hys⟩ := ih h
    exact ⟨y :: ys, .cons hy hys⟩

/-- A member that needs no escape. -/
def PlainMember (m : Text × Text) (d : List Char × List Char) : Prop :=
  DecodesMember charset m d ∧ (∀ b ∈ m.1, PlainByte b) ∧ ∀ b ∈ m.2, PlainByte b

/-- The object of some members reads as these members exactly when every name and
every value is a text of the character set without bytes that need an escape. -/
theorem decodesTo_objectText_iff {ms : List (Text × Text)} (hne : ms ≠ []) :
    DecodesTo charset (objectText ms) ms ↔ ∀ m ∈ ms, ∃ d, PlainMember charset m d := by
  constructor
  · rintro ⟨chars, ds, vs, hchars, hds, hparse, hperm⟩ m hm
    obtain ⟨ds', hds', rfl⟩ := (decode_objectText charset ms chars).mp hchars
    have hunique : ds' = ds := by
      have hr : Relator.RightUnique (DecodesMember charset) := by
        rintro n ⟨_, _⟩ ⟨_, _⟩ ⟨h₁, h₂⟩ ⟨h₃, h₄⟩
        exact Prod.ext (Option.some.inj (h₁.symm.trans h₃)) (Option.some.inj (h₂.symm.trans h₄))
      exact hr.forall₂ hds' hds
    subst hunique
    have hstrings : ∀ v ∈ vs, ∃ s, v.2 = .string s := by
      intro v hv
      obtain ⟨d, -, rfl⟩ := List.mem_map.mp (hperm.mem_iff.mp hv)
      exact ⟨_, rfl⟩
    -- The object takes exactly the characters of its members, so nothing is escaped.
    have hds_ne : ds' ≠ [] := by
      rintro rfl
      exact hne (List.forall₂_nil_right_iff.mp hds)
    have hsize : (Json.objectText ds').length ≤ 1 + Json.sizes vs := by
      rw [Json.objectText_length hds_ne, Json.sizes, Json.sizes, (hperm.map Json.Member.size).sum_nat]
    have hplain := Json.parse_object_plain hparse hstrings hsize
    obtain ⟨d, hd, hmd⟩ := exists_of_mem_left hds hm
    obtain ⟨s, hs, hname, hvalue⟩ := hplain _ (hperm.mem_iff.mpr (List.mem_map_of_mem hd))
    cases hs
    simp only [Json.memberOf, Json.codePoints, List.forall_mem_map] at hname hvalue
    exact ⟨d, hmd, (plain_iff charset hmd.1).mp hname, (plain_iff charset hmd.2).mp hvalue⟩
  · intro h
    obtain ⟨ds, hds⟩ := exists_forall₂ h
    have hdecodes : List.Forall₂ (DecodesMember charset) ms ds := hds.imp fun _ _ hr => hr.1
    have hplain : ∀ d ∈ ds, (∀ c ∈ d.1, Json.Plain c.toNat) ∧ ∀ c ∈ d.2, Json.Plain c.toNat := by
      intro d hd
      obtain ⟨m, -, hm, hname, hvalue⟩ := exists_of_mem_left hds.flip hd
      exact ⟨(plain_iff charset hm.1).mpr hname, (plain_iff charset hm.2).mpr hvalue⟩
    exact ⟨_, ds, _, (decode_objectText charset ms _).mpr ⟨ds, hdecodes, rfl⟩, hdecodes,
      Json.parse_objectText hplain, List.Perm.refl _⟩

/-- The members that the response is to have, by the captures of the locations line. -/
def capturedMembers (result : List Text) : List (Text × Text) :=
  [(text "city", sub result 4), (text "region", sub result 3), (text "country", sub result 2),
    (text "latitude", sub result 6), (text "longitude", sub result 7), (text "area_code", sub result 9),
    (text "metro_code", sub result 8), (text "postal_code", sub result 5)]

/-- The captured texts are of the character set and have no bytes that need an escape. -/
def CapturesPlain (result : List Text) : Prop :=
  ∀ m ∈ capturedMembers result, (charset.decode m.2).isSome ∧ ∀ b ∈ m.2, PlainByte b

/-- An ASCII text that needs no escape, as a test. -/
theorem plainAscii_iff {s : Text} : (s.all fun b => decide (b.toNat < 128 ∧ PlainByte b)) = true ↔
    ∀ b ∈ s, b.toNat < 128 ∧ PlainByte b := by
  simp only [List.all_eq_true, decide_eq_true_eq]

theorem capturedMembers_names (result : List Text) :
    ∀ m ∈ capturedMembers result, ∀ b ∈ m.1, b.toNat < 128 ∧ PlainByte b := by
  simp only [capturedMembers, List.forall_mem_cons, List.not_mem_nil, false_implies, implies_true, and_true,
    ← plainAscii_iff]
  decide

theorem capturedMembers_plain_iff (result : List Text) :
    (∀ m ∈ capturedMembers result, ∃ d, PlainMember charset m d) ↔ CapturesPlain charset result := by
  refine forall₂_congr fun m hm => ?_
  have hname := capturedMembers_names result m hm
  rw [Option.isSome_iff_exists]
  constructor
  · rintro ⟨d, hd, -, ht⟩
    exact ⟨⟨d.2, hd.2⟩, ht⟩
  · rintro ⟨⟨v, hv⟩, ht⟩
    exact ⟨(m.1.map charOf, v), ⟨charset.decode_ascii fun b hb => (hname b hb).1, hv⟩,
      fun b hb => (hname b hb).2, ht⟩

theorem locationMembers_newLocation (result : List Text) :
    locationMembers (newLocation result) = capturedMembers result := rfl

/-- The response for the Location of an accepted line is the JSON object of its captures
exactly when no capture needs an escape. -/
theorem response_decodes_iff (st : LoadState) {line : Text} {result : List Text}
    (h : regexMatchLine locationsPattern line = some result) :
    ∃ response, responseText (locationsLine st line).server (some st.server.heap.length) = some response ∧
      (DecodesTo charset response (capturedMembers result) ↔ CapturesPlain charset result) := by
  refine ⟨locationResponse (newLocation result), ?_, ?_⟩
  · rw [responseText, locationsLine_heap h, List.getElem?_concat_length, Option.map_some]
  · rw [locationResponse_eq, locationMembers_newLocation,
      decodesTo_objectText_iff charset (by simp [capturedMembers]), capturedMembers_plain_iff]

/-- A locations line, and what the pattern captures of it. -/
def oaklandLine : Text := text "1,\"US\",\"CA\",\"Oakland\",\"94601\",37.8,-122.2,807,510"

def oaklandGroups : List Text :=
  [text "1", text "US", text "CA", text "Oakland", text "94601", text "37.8", text "-122.2", text "807",
    text "510"]

theorem oakland_response_decodes : ∃ response,
    responseText (locationsLine (.start newServer []) oaklandLine).server (some 0) = some response ∧
      DecodesTo utf8 response (capturedMembers oaklandGroups) := by
  have hplain : CapturesPlain utf8 oaklandGroups := by
    have hbytes : ∀ m ∈ capturedMembers oaklandGroups, ∀ b ∈ m.2, b.toNat < 128 ∧ PlainByte b := by
      simp only [← plainAscii_iff]
      decide +kernel
    intro m hm
    refine ⟨?_, fun b hb => (hbytes m hm b hb).2⟩
    rw [utf8.decode_ascii fun b hb => (hbytes m hm b hb).1]
    rfl
  have hmatch : regexMatchLine locationsPattern oaklandLine = some oaklandGroups := by decide +kernel
  obtain ⟨response, hr, hiff⟩ := response_decodes_iff utf8 (.start newServer []) hmatch
  exact ⟨response, hr, hiff.mpr hplain⟩

def quotedGroups : List Text := [text "1", text "US", [], text "a\"b", [], [], [], [], []]

/-- A quote in the name of a city ends its string early. -/
theorem quoted_city_not_decoded :
    regexMatchLine locationsPattern (text "1,\"US\",\"\",\"a\"b\",\"\",,,,") = some quotedGroups ∧
      ¬ DecodesTo utf8 (locationResponse (newLocation quotedGroups)) (capturedMembers quotedGroups) ∧
      ¬ DecodesTo latin1 (locationResponse (newLocation quotedGroups)) (capturedMembers quotedGroups) := by
  have hnot : ∀ charset,
      ¬ DecodesTo charset (locationResponse (newLocation quotedGroups)) (capturedMembers quotedGroups) := by
    intro charset h
    rw [locationResponse_eq, locationMembers_newLocation,
      decodesTo_objectText_iff charset (by simp [capturedMembers]), capturedMembers_plain_iff] at h
    have hb := (h (text "city", text "a\"b") (by simp [capturedMembers, sub, quotedGroups])).2 34 (by decide)
    exact absurd hb (by decide)
  exact ⟨by decide +kernel, hnot utf8, hnot latin1⟩

end GeoIp
