import Altumo.GeoIp.Loader

/-!
# What the two patterns accept

A line is accepted exactly when it is the text of a record. A blocks line has a
single decomposition. A locations line can have several, because the lazy
wildcards may take separators; it has one when no field holds a quote and the
coordinates hold no comma.
-/

namespace GeoIp

open CString Numeral InputStream Backtracking

/-- The text of a locations record. -/
def formatLocation (id : Text) (l : Location) : Text :=
  id ++ text ",\"" ++ l.country ++ text "\",\"" ++ l.region ++ text "\",\"" ++ l.city ++ text "\",\"" ++
    l.postalCode ++ text "\"," ++ l.latitude ++ text "," ++ l.longitude ++ text "," ++ l.metroCode ++
    text "," ++ l.areaCode

/-- The text of a blocks record. -/
def formatBlock (first last id : Text) : Text :=
  text "\"" ++ first ++ text "\",\"" ++ last ++ text "\",\"" ++ id ++ text "\""

/-- The nine captures of a locations record. -/
def locationGroups (id : Text) (l : Location) : List Text :=
  [id, l.country, l.region, l.city, l.postalCode, l.latitude, l.longitude, l.metroCode, l.areaCode]

def Digits (s : Text) : Prop := ∀ b ∈ s, isDigit b

instance (s : Text) : Decidable (Digits s) := decidable_of_iff (s.all isDigit = true) List.all_eq_true

theorem derives_literalBytes {bs : Text} {ps : List (Pattern CharClass)} {s : Text} {cs : List Text} :
    Derives CharClass.admits (.ofList (bs.map (fun b => .one (.byte b)) ++ ps)) s cs ↔
      ∃ u, s = bs ++ u ∧ Derives CharClass.admits (.ofList ps) u cs := by
  induction bs generalizing s cs with
  | nil => simp
  | cons b bs ih =>
    simp only [List.map_cons, List.cons_append, Pattern.ofList, derives_seq_iff, derives_one_iff, ih,
      CharClass.admits, beq_iff_eq]
    constructor
    · rintro ⟨t, u, ds, es, rfl, rfl, ⟨⟨a, rfl, rfl⟩, rfl⟩, v, rfl, h⟩
      exact ⟨v, rfl, h⟩
    · rintro ⟨u, rfl, h⟩
      exact ⟨[b], bs ++ u, [], cs, rfl, rfl, ⟨⟨b, rfl, rfl⟩, rfl⟩, u, rfl, h⟩

/-- A literal part of a pattern stands for its text. -/
theorem derives_literal {l : String} {ps : List (Pattern CharClass)} {s : Text} {cs : List Text} :
    Derives CharClass.admits (.ofList (literal l ++ ps)) s cs ↔
      ∃ u, s = text l ++ u ∧ Derives CharClass.admits (.ofList ps) u cs :=
  derives_literalBytes

/-- A group without inner groups captures what its pattern takes. -/
theorem derives_capture {p : Pattern CharClass} {ps : List (Pattern CharClass)} {admitted : Text → Prop}
    (hp : ∀ g ds, Derives CharClass.admits p g ds ↔ admitted g ∧ ds = []) {s : Text} {cs : List Text} :
    Derives CharClass.admits (.ofList (.group p :: ps)) s cs ↔
      ∃ g u es, s = g ++ u ∧ cs = g :: es ∧ admitted g ∧ Derives CharClass.admits (.ofList ps) u es := by
  simp only [Pattern.ofList, derives_seq_iff, derives_group_iff, hp]
  constructor
  · rintro ⟨g, u, ds, es, rfl, rfl, ⟨_, rfl, hg, rfl⟩, h⟩
    exact ⟨g, u, es, rfl, rfl, hg, h⟩
  · rintro ⟨g, u, es, rfl, rfl, hg, h⟩
    exact ⟨g, u, [g], es, rfl, rfl, ⟨[], rfl, hg, rfl⟩, h⟩

theorem derives_digits {ps : List (Pattern CharClass)} {s : Text} {cs : List Text} :
    Derives CharClass.admits (.ofList (digits :: ps)) s cs ↔
      ∃ g u es, s = g ++ u ∧ cs = g :: es ∧ (g ≠ [] ∧ Digits g) ∧
        Derives CharClass.admits (.ofList ps) u es :=
  derives_capture fun g ds => by rw [derives_plus_iff, and_assoc]; rfl

theorem derives_optionalDigits {ps : List (Pattern CharClass)} {s : Text} {cs : List Text} :
    Derives CharClass.admits (.ofList (optionalDigits :: ps)) s cs ↔
      ∃ g u es, s = g ++ u ∧ cs = g :: es ∧ Digits g ∧ Derives CharClass.admits (.ofList ps) u es :=
  derives_capture fun _ _ => derives_greedy_iff

theorem derives_wildcard {ps : List (Pattern CharClass)} {s : Text} {cs : List Text} :
    Derives CharClass.admits (.ofList (wildcard :: ps)) s cs ↔
      ∃ g u es, s = g ++ u ∧ cs = g :: es ∧ True ∧ Derives CharClass.admits (.ofList ps) u es :=
  derives_capture fun g ds => by simp [CharClass.admits]

theorem derives_two {ps : List (Pattern CharClass)} {s : Text} {cs : List Text} :
    Derives CharClass.admits (.ofList (.group (.seq (.one .any) (.one .any)) :: ps)) s cs ↔
      ∃ g u es, s = g ++ u ∧ cs = g :: es ∧ g.length = 2 ∧ Derives CharClass.admits (.ofList ps) u es := by
  refine derives_capture fun g ds => ?_
  simp only [derives_seq_iff, derives_one_iff, CharClass.admits, true_and]
  constructor
  · rintro ⟨t, u, _, _, rfl, rfl, ⟨⟨a, rfl⟩, rfl⟩, ⟨b, rfl⟩, rfl⟩
    exact ⟨rfl, rfl⟩
  · rintro ⟨hg, rfl⟩
    obtain ⟨a, b, rfl⟩ := List.length_eq_two.mp hg
    exact ⟨[a], [b], [], [], rfl, rfl, ⟨⟨a, rfl⟩, rfl⟩, ⟨b, rfl⟩, rfl⟩

theorem derives_end {s : Text} {cs : List Text} :
    Derives CharClass.admits (.ofList []) s cs ↔ s = [] ∧ cs = [] := derives_empty_iff

/-- The decompositions of a blocks line are the records that it is the text of. -/
theorem derives_blocksPattern_iff {s : Text} {cs : List Text} :
    Derives CharClass.admits blocksPattern s cs ↔
      ∃ first last id, (first ≠ [] ∧ Digits first) ∧ (last ≠ [] ∧ Digits last) ∧ (id ≠ [] ∧ Digits id) ∧
        s = formatBlock first last id ∧ cs = [first, last, id] := by
  simp only [blocksPattern, List.append_assoc, List.cons_append, List.nil_append]
  rw [← List.append_nil (literal "\"")]
  simp only [List.append_assoc, List.nil_append, derives_literal, derives_digits]
  constructor
  · rintro ⟨_, rfl, a, _, _, rfl, rfl, ha, _, rfl, b, _, _, rfl, rfl, hb, _, rfl, c, _, _, rfl, rfl, hc,
      _, rfl, h⟩
    obtain ⟨rfl, rfl⟩ := derives_end.mp h
    exact ⟨a, b, c, ha, hb, hc, by simp [formatBlock], rfl⟩
  · rintro ⟨a, b, c, ha, hb, hc, rfl, rfl⟩
    exact ⟨_, by simp only [formatBlock, List.append_assoc], a, _, _, rfl, rfl, ha, _, rfl, b, _, _, rfl, rfl,
      hb, _, rfl, c, _, _, rfl, rfl, hc, _, (List.append_nil _).symm, .empty⟩

/-- The decompositions of a locations line are the records that it is the text of. -/
theorem derives_locationsPattern_iff {s : Text} {cs : List Text} :
    Derives CharClass.admits locationsPattern s cs ↔
      ∃ id l, (id ≠ [] ∧ Digits id) ∧ l.country.length = 2 ∧ Digits l.metroCode ∧ Digits l.areaCode ∧
        s = formatLocation id l ∧ cs = locationGroups id l := by
  simp only [locationsPattern, List.append_assoc, List.cons_append, List.nil_append, derives_literal,
    derives_digits, derives_two, derives_wildcard, derives_optionalDigits, true_and]
  constructor
  · rintro ⟨id, _, _, rfl, rfl, hid, _, rfl, country, _, _, rfl, rfl, hc, _, rfl, region, _, _, rfl, rfl,
      _, rfl, city, _, _, rfl, rfl, _, rfl, postal, _, _, rfl, rfl, _, rfl, lat, _, _, rfl, rfl,
      _, rfl, lon, _, _, rfl, rfl, _, rfl, metro, _, _, rfl, rfl, hm, _, rfl, area, _, _, rfl, rfl, ha, h⟩
    obtain ⟨rfl, rfl⟩ := derives_end.mp h
    exact ⟨id, ⟨country, region, city, postal, lat, lon, metro, area⟩, hid, hc, hm, ha,
      by simp [formatLocation], rfl⟩
  · rintro ⟨id, l, hid, hc, hm, ha, rfl, rfl⟩
    exact ⟨id, _, _, by simp only [formatLocation, List.append_assoc], rfl, hid, _, rfl, l.country, _, _, rfl,
      rfl, hc, _, rfl, l.region, _, _, rfl, rfl, _, rfl, l.city, _, _, rfl, rfl, _, rfl, l.postalCode, _, _,
      rfl, rfl, _, rfl, l.latitude, _, _, rfl, rfl, _, rfl, l.longitude, _, _, rfl, rfl, _, rfl,
      l.metroCode, _, _, rfl, rfl, hm, _, rfl, l.areaCode, [], _, (List.append_nil _).symm, rfl, ha, .empty⟩

theorem Digits.notMem {s : Text} (h : Digits s) {b : Byte} (hb : isDigit b = false) : b ∉ s := by
  intro hm
  have := h b hm
  rw [hb] at this
  cases this

theorem formatBlock_eq (first last id : Text) : formatBlock first last id =
    34 :: (first ++ 34 :: 44 :: 34 :: (last ++ 34 :: 44 :: 34 :: (id ++ [34]))) := by
  simp only [formatBlock, show text "\"" = [34] from rfl, show text "\",\"" = [34, 44, 34] from rfl,
    List.append_assoc, List.cons_append, List.nil_append]

theorem formatLocation_eq (id : Text) (l : Location) : formatLocation id l =
    id ++ 44 :: 34 :: (l.country ++ 34 :: 44 :: 34 :: (l.region ++ 34 :: 44 :: 34 :: (l.city ++
      34 :: 44 :: 34 :: (l.postalCode ++ 34 :: 44 :: (l.latitude ++ 44 :: (l.longitude ++
        44 :: (l.metroCode ++ 44 :: l.areaCode))))))) := by
  simp only [formatLocation, show text ",\"" = [44, 34] from rfl, show text "\",\"" = [34, 44, 34] from rfl,
    show text "\"," = [34, 44] from rfl, show text "," = [44] from rfl,
    List.append_assoc, List.cons_append, List.nil_append]

/-- The digits of a blocks record can be read off its text. -/
theorem formatBlock_injective {a b c a' b' c' : Text} (ha : Digits a) (hb : Digits b) (hc : Digits c)
    (ha' : Digits a') (hb' : Digits b') (hc' : Digits c')
    (h : formatBlock a b c = formatBlock a' b' c') : a = a' ∧ b = b' ∧ c = c' := by
  have hq : isDigit 34 = false := by decide
  simp only [formatBlock_eq, List.cons.injEq, true_and] at h
  obtain ⟨hfirst, h⟩ := split_at_first (ha.notMem hq) (ha'.notMem hq) h
  simp only [List.cons.injEq, true_and] at h
  obtain ⟨hlast, h⟩ := split_at_first (hb.notMem hq) (hb'.notMem hq) h
  simp only [List.cons.injEq, true_and] at h
  obtain ⟨hid, -⟩ := split_at_first (hc.notMem hq) (hc'.notMem hq) h
  exact ⟨hfirst, hlast, hid⟩

/-- A blocks line is accepted exactly as the record that it is the text of. -/
theorem regexMatchLine_blocks_iff {line : Text} {result : List Text} :
    regexMatchLine blocksPattern line = some result ↔
      ∃ first last id, (first ≠ [] ∧ Digits first) ∧ (last ≠ [] ∧ Digits last) ∧ (id ≠ [] ∧ Digits id) ∧
        cStr line = formatBlock first last id ∧ result = [first, last, id] := by
  constructor
  · intro h
    exact derives_blocksPattern_iff.mp (regexMatch_sound h)
  · rintro ⟨a, b, c, ha, hb, hc, hs, rfl⟩
    refine regexMatch_of_unique (derives_blocksPattern_iff.mpr ⟨a, b, c, ha, hb, hc, hs, rfl⟩) ?_
    intro ds hd
    obtain ⟨a', b', c', ha', hb', hc', hs', rfl⟩ := derives_blocksPattern_iff.mp hd
    obtain ⟨rfl, rfl, rfl⟩ :=
      formatBlock_injective ha.2 hb.2 hc.2 ha'.2 hb'.2 hc'.2 (hs.symm.trans hs')
    rfl

/-- An accepted locations line is the text of a record with the captures. -/
theorem regexMatchLine_locations_some {line : Text} {result : List Text}
    (h : regexMatchLine locationsPattern line = some result) :
    ∃ id l, (id ≠ [] ∧ Digits id) ∧ l.country.length = 2 ∧ Digits l.metroCode ∧ Digits l.areaCode ∧
      cStr line = formatLocation id l ∧ result = locationGroups id l :=
  derives_locationsPattern_iff.mp (regexMatch_sound h)

@[simp] theorem newLocation_locationGroups (id : Text) (l : Location) :
    newLocation (locationGroups id l) = l := rfl

@[simp] theorem sub_locationGroups (id : Text) (l : Location) : sub (locationGroups id l) 1 = id := rfl

/-- The eight texts of a Location. -/
def Location.fields (l : Location) : List Text :=
  [l.country, l.region, l.city, l.postalCode, l.latitude, l.longitude, l.metroCode, l.areaCode]

/-- A text without quotes in its fields has no other decomposition with quotes in
a field either: the eight quotes of the format use them all up. -/
theorem quotes_used_up {id id' : Text} {l l' : Location} (h : formatLocation id l = formatLocation id' l')
    (hid : 34 ∉ id) (hl : ∀ f ∈ l.fields, (34 : Byte) ∉ f) : ∀ f ∈ l'.fields, (34 : Byte) ∉ f := by
  have hc := congrArg (List.count (34 : Byte)) h
  simp only [Location.fields, List.mem_cons, List.not_mem_nil, or_false, forall_eq_or_imp, forall_eq] at hl ⊢
  simp only [formatLocation_eq, List.count_append, List.count_cons, List.count_eq_zero.mpr hid,
    List.count_eq_zero.mpr hl.1, List.count_eq_zero.mpr hl.2.1, List.count_eq_zero.mpr hl.2.2.1,
    List.count_eq_zero.mpr hl.2.2.2.1, List.count_eq_zero.mpr hl.2.2.2.2.1,
    List.count_eq_zero.mpr hl.2.2.2.2.2.1, List.count_eq_zero.mpr hl.2.2.2.2.2.2.1,
    List.count_eq_zero.mpr hl.2.2.2.2.2.2.2] at hc
  have hne : ((44 : Byte) == 34) = false := by decide
  simp only [hne, beq_self_eq_true, Bool.false_eq_true, ↓reduceIte] at hc
  simp only [← List.count_eq_zero]
  omega

/-- The three commas of the coordinates and codes are used up in the same way. -/
theorem commas_used_up {a b c d a' b' c' d' : Text}
    (h : a ++ 44 :: (b ++ 44 :: (c ++ 44 :: d)) = a' ++ 44 :: (b' ++ 44 :: (c' ++ 44 :: d')))
    (ha : (44 : Byte) ∉ a) (hb : (44 : Byte) ∉ b) (hc : (44 : Byte) ∉ c) (hd : (44 : Byte) ∉ d) :
    (44 : Byte) ∉ a' ∧ (44 : Byte) ∉ b' ∧ (44 : Byte) ∉ c' := by
  have hn := congrArg (List.count (44 : Byte)) h
  simp only [List.count_append, List.count_cons, beq_self_eq_true, ↓reduceIte, List.count_eq_zero.mpr ha,
    List.count_eq_zero.mpr hb, List.count_eq_zero.mpr hc, List.count_eq_zero.mpr hd] at hn
  simp only [← List.count_eq_zero]
  omega

/-- A record as MaxMind writes it. -/
structure CsvRecord where
  id : Text
  location : Location
  id_digits : id ≠ [] ∧ Digits id
  country_length : location.country.length = 2
  metroCode_digits : Digits location.metroCode
  areaCode_digits : Digits location.areaCode
  fields_clean : ∀ f ∈ location.fields, (34 : Byte) ∉ f ∧ (0 : Byte) ∉ f ∧ newline ∉ f
  latitude_no_comma : (44 : Byte) ∉ location.latitude
  longitude_no_comma : (44 : Byte) ∉ location.longitude

def CsvRecord.line (r : CsvRecord) : Text := formatLocation r.id r.location

def CsvRecord.groups (r : CsvRecord) : List Text := locationGroups r.id r.location

theorem CsvRecord.ext {r r' : CsvRecord} (hid : r.id = r'.id) (hl : r.location = r'.location) : r = r' := by
  cases r; cases r'
  simp only at hid hl
  subst hid hl
  rfl

theorem CsvRecord.zero_notMem (r : CsvRecord) : (0 : Byte) ∉ r.line := by
  have hid : (0 : Byte) ∉ r.id := r.id_digits.2.notMem (by decide)
  have hf : ∀ f ∈ r.location.fields, (0 : Byte) ∉ f := fun f hf => (r.fields_clean f hf).2.1
  simp only [Location.fields, List.mem_cons, List.not_mem_nil, or_false, forall_eq_or_imp, forall_eq] at hf
  simp [CsvRecord.line, formatLocation_eq, hid, hf]

theorem CsvRecord.newline_notMem (r : CsvRecord) : newline ∉ r.line := by
  have hid : newline ∉ r.id := r.id_digits.2.notMem (by decide)
  have hf : ∀ f ∈ r.location.fields, newline ∉ f := fun f hf => (r.fields_clean f hf).2.2
  have hsep : newline ≠ 34 ∧ newline ≠ 44 := by decide
  simp only [Location.fields, List.mem_cons, List.not_mem_nil, or_false, forall_eq_or_imp, forall_eq] at hf
  simp [CsvRecord.line, formatLocation_eq, hid, hf, hsep]

/-- The text of such a record decomposes in no other way. -/
theorem CsvRecord.unique (r : CsvRecord) {id : Text} {l : Location} (hid : Digits id)
    (hcountry : l.country.length = 2) (h : r.line = formatLocation id l) : r.id = id ∧ r.location = l := by
  have hq : ∀ f ∈ r.location.fields, (34 : Byte) ∉ f := fun f hf => (r.fields_clean f hf).1
  have hq' := quotes_used_up h (r.id_digits.2.notMem (by decide)) hq
  simp only [Location.fields, List.mem_cons, List.not_mem_nil, or_false, forall_eq_or_imp, forall_eq] at hq hq'
  obtain ⟨-, hregion, hcity, hpostal, -⟩ := hq
  obtain ⟨-, hregion', hcity', hpostal', -⟩ := hq'
  simp only [CsvRecord.line, formatLocation_eq] at h
  obtain ⟨hideq, h⟩ := split_at_first (r.id_digits.2.notMem (by decide)) (hid.notMem (by decide)) h
  simp only [List.cons.injEq, true_and] at h
  obtain ⟨hc, h⟩ := List.append_inj h (by rw [r.country_length, hcountry])
  simp only [List.cons.injEq, true_and] at h
  obtain ⟨hr, h⟩ := split_at_first hregion hregion' h
  simp only [List.cons.injEq, true_and] at h
  obtain ⟨hci, h⟩ := split_at_first hcity hcity' h
  simp only [List.cons.injEq, true_and] at h
  obtain ⟨hp, h⟩ := split_at_first hpostal hpostal' h
  simp only [List.cons.injEq, true_and] at h
  have hmetro := r.metroCode_digits.notMem (b := 44) (by decide)
  obtain ⟨hlat', hlon', hmetro'⟩ := commas_used_up h r.latitude_no_comma r.longitude_no_comma hmetro
    (r.areaCode_digits.notMem (by decide))
  obtain ⟨hlat, h⟩ := split_at_first r.latitude_no_comma hlat' h
  obtain ⟨hlon, h⟩ := split_at_first r.longitude_no_comma hlon' h
  obtain ⟨hme, har⟩ := split_at_first hmetro hmetro' h
  refine ⟨hideq, ?_⟩
  cases hl : r.location
  cases l
  simp only [hl] at hc hr hci hp hlat hlon hme har
  simp only [hc, hr, hci, hp, hlat, hlon, hme, har]

/-- The text of a record is accepted with exactly its fields as captures. -/
theorem CsvRecord.derives_iff (r : CsvRecord) (cs : List Text) :
    Derives CharClass.admits locationsPattern (cStr r.line) cs ↔ cs = r.groups := by
  rw [cStr_eq_self r.zero_notMem, derives_locationsPattern_iff]
  constructor
  · rintro ⟨id, l, hid, hc, -, -, hs, rfl⟩
    obtain ⟨hid', hl⟩ := r.unique hid.2 hc hs
    simp only [CsvRecord.groups, hid', hl]
  · rintro rfl
    exact ⟨r.id, r.location, r.id_digits, r.country_length, r.metroCode_digits, r.areaCode_digits, rfl, rfl⟩

theorem CsvRecord.regexMatchLine_eq (r : CsvRecord) :
    regexMatchLine locationsPattern r.line = some r.groups :=
  regexMatch_of_unique ((r.derives_iff _).mpr rfl) fun cs h => (r.derives_iff cs).mp h

/-- An accepted locations line creates the Location of its captures, whatever
happens to the id afterwards. -/
theorem locationsLine_heap {st : LoadState} {line : Text} {result : List Text}
    (h : regexMatchLine locationsPattern line = some result) :
    (locationsLine st line).server.heap = st.server.heap ++ [newLocation result] := by
  simp only [locationsLine, locationsLineWith, h]
  split <;> rfl

/-- Parsing undoes the formatting of a MaxMind record. -/
theorem csv_round_trip (r : CsvRecord) :
    regexMatchLine locationsPattern r.line = some r.groups ∧
      (∀ cs, Derives CharClass.admits locationsPattern (cStr r.line) cs ↔ cs = r.groups) ∧
      (∀ st, (locationsLine st r.line).server.heap = st.server.heap ++ [r.location]) ∧
      ∀ r' : CsvRecord, r'.line = r.line → r' = r := by
  refine ⟨r.regexMatchLine_eq, r.derives_iff, ?_, ?_⟩
  · intro st
    rw [locationsLine_heap r.regexMatchLine_eq, CsvRecord.groups, newLocation_locationGroups]
  · intro r' h
    obtain ⟨hid, hl⟩ := r'.unique r.id_digits.2 r.country_length h
    exact CsvRecord.ext hid hl

end GeoIp
