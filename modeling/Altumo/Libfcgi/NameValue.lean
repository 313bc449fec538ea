import Altumo.Libfcgi.Source

/-!
# Name-value pairs

The content of parameter records and of the values that are asked for. A pair is
written with a length of the name and one of the value in front of it, each of one
byte or of four, which makes the formats 11, 14, 41 and 44. The pairs are a prefix
code, and `ReadParams` decodes it while it reads.
-/

namespace Libfcgi

open CString PrefixCode Refill

/-- How much fits into a length of one byte, or of four. -/
def lengthBound (wide : Bool) : Nat := if wide then 2 ^ 31 else 128

structure Length where
  val : Nat
  wide : Bool
  fits : val < lengthBound wide
  deriving DecidableEq

def Length.bytes (l : Length) : Text :=
  if l.wide then [uchar (l.val / 2 ^ 24 + 128), uchar (l.val / 2 ^ 16 % 256), uchar (l.val / 2 ^ 8 % 256), uchar (l.val % 256)]
  else [uchar l.val]

theorem toNat_and_low (b : Byte) : (b &&& 0x7f).toNat = b.toNat % 128 := by
  rw [UInt8.toNat_and]
  exact Nat.and_two_pow_sub_one_eq_mod b.toNat 7

/-- The high bit of the first byte tells the two forms apart. -/
theorem and_high_ne_zero_iff (b : Byte) : b &&& 0x80 ≠ 0 ↔ 128 ≤ b.toNat := by
  have hall : ∀ n < 256, (n &&& 128 ≠ 0 ↔ 128 ≤ n) := by decide +kernel
  rw [ne_eq, ← UInt8.toNat_inj, UInt8.toNat_and]
  exact hall b.toNat b.toNat_lt

theorem wide_fits (b b0 b1 b2 : Byte) :
    ((b &&& 0x7f).toNat <<< 24) + (b0.toNat <<< 16) + (b1.toNat <<< 8) + b2.toNat < lengthBound true := by
  have h := b.toNat_lt
  have h0 := b0.toNat_lt
  have h1 := b1.toNat_lt
  have h2 := b2.toNat_lt
  simp only [toNat_and_low, Nat.shiftLeft_eq, lengthBound, if_true]
  omega

theorem narrow_fits {b : Byte} (h : ¬ b &&& 0x80 ≠ 0) : b.toNat < lengthBound false := by
  rw [and_high_ne_zero_iff] at h
  simpa [lengthBound] using h

/-- The three bytes behind the first one of a long length. -/
def parseWide (b : Byte) : Text → Option (Length × Text)
  | b0 :: b1 :: b2 :: rest =>
    some (⟨((b &&& 0x7f).toNat <<< 24) + (b0.toNat <<< 16) + (b1.toNat <<< 8) + b2.toNat, true, wide_fits _ _ _ _⟩, rest)
  | _ => none

def parseLength : Text → Option (Length × Text)
  | [] => none
  | b :: rest => if h : b &&& 0x80 ≠ 0 then parseWide b rest else some (⟨b.toNat, false, narrow_fits h⟩, rest)

@[simp] theorem parseLength_nil : parseLength [] = none := rfl

theorem Length.bytes_ne_nil (l : Length) : l.bytes ≠ [] := by
  unfold Length.bytes
  split <;> simp

theorem parseLength_bytes (l : Length) (rest : Text) : parseLength (l.bytes ++ rest) = some (l, rest) := by
  obtain ⟨n, wide, hn⟩ := l
  cases wide with
  | true =>
    have hlt : n < 2 ^ 31 := hn
    have hb : (uchar (n / 2 ^ 24 + 128)).toNat = n / 2 ^ 24 + 128 := toNat_uchar (by omega)
    have hhigh : uchar (n / 2 ^ 24 + 128) &&& 0x80 ≠ 0 := by
      rw [and_high_ne_zero_iff, hb]
      omega
    have hval : ((uchar (n / 2 ^ 24 + 128) &&& 0x7f).toNat <<< 24) + ((uchar (n / 2 ^ 16 % 256)).toNat <<< 16) +
        ((uchar (n / 2 ^ 8 % 256)).toNat <<< 8) + (uchar (n % 256)).toNat = n := by
      simp only [toNat_and_low, hb, toNat_uchar (Nat.mod_lt _ (show 0 < 256 by decide)), Nat.shiftLeft_eq]
      omega
    simp only [Length.bytes, if_true, List.cons_append, List.nil_append, parseLength, dif_pos hhigh, parseWide, hval]
  | false =>
    have hlt : n < 128 := hn
    have hb : (uchar n).toNat = n := toNat_uchar (by omega)
    have hlow : ¬ uchar n &&& 0x80 ≠ 0 := by
      rw [and_high_ne_zero_iff, hb]
      omega
    simp only [Length.bytes, Bool.false_eq_true, if_false, List.cons_append, List.nil_append, parseLength, dif_neg hlow, hb]

theorem uchar_eq {n : Nat} {b : Byte} (h : n = b.toNat) : uchar n = b := by
  rw [h]
  exact UInt8.ofNat_toNat

theorem parseWide_exact {b : Byte} {t rest : Text} {l : Length} (hb : 128 ≤ b.toNat)
    (h : parseWide b t = some (l, rest)) : b :: t = l.bytes ++ rest := by
  unfold parseWide at h
  split at h
  · rename_i b0 b1 b2 t
    obtain ⟨rfl, rfl⟩ := Prod.mk.inj (Option.some.inj h)
    have hlt := b.toNat_lt
    have hlt0 := b0.toNat_lt
    have hlt1 := b1.toNat_lt
    have hlt2 := b2.toNat_lt
    simp only [Length.bytes, if_true, List.cons_append, List.nil_append, toNat_and_low, Nat.shiftLeft_eq]
    rw [uchar_eq (b := b) (by omega), uchar_eq (b := b0) (by omega), uchar_eq (b := b1) (by omega),
      uchar_eq (b := b2) (by omega)]
  · cases h

theorem parseLength_exact {t rest : Text} {l : Length} (h : parseLength t = some (l, rest)) : t = l.bytes ++ rest := by
  cases t with
  | nil => cases h
  | cons b t =>
    by_cases hb : b &&& 0x80 ≠ 0
    · rw [parseLength, dif_pos hb] at h
      exact parseWide_exact ((and_high_ne_zero_iff b).mp hb) h
    · rw [parseLength, dif_neg hb] at h
      obtain ⟨rfl, rfl⟩ := Prod.mk.inj (Option.some.inj h)
      simp [Length.bytes, uchar]

/-- A pair and the format in which it is written. -/
@[ext] structure NameValue where
  name : Text
  value : Text
  nameWide : Bool
  valueWide : Bool
  name_fits : name.length < lengthBound nameWide
  value_fits : value.length < lengthBound valueWide

namespace NameValue

def nameLength (nv : NameValue) : Length := ⟨nv.name.length, nv.nameWide, nv.name_fits⟩
def valueLength (nv : NameValue) : Length := ⟨nv.value.length, nv.valueWide, nv.value_fits⟩

/-- `FCGI_NameValuePair11` and the other three formats. -/
def bytes (nv : NameValue) : Text := nv.nameLength.bytes ++ (nv.valueLength.bytes ++ (nv.name ++ nv.value))

/-- The environment entry. -/
def string (nv : NameValue) : Text := nv.name ++ 61 :: nv.value

end NameValue

/-- The name and the value behind two lengths. -/
def parseBody (n v : Length) (t : Text) : Option (NameValue × Text) :=
  if h : n.val + v.val ≤ t.length then
    some
      ({ name := t.take n.val, value := (t.drop n.val).take v.val, nameWide := n.wide, valueWide := v.wide
         name_fits := by rw [List.length_take, Nat.min_eq_left (by omega)]; exact n.fits
         value_fits := by rw [List.length_take, List.length_drop, Nat.min_eq_left (by omega)]; exact v.fits },
       t.drop (n.val + v.val))
  else none

def parsePair (t : Text) : Option (NameValue × Text) := do
  let (n, t) ← parseLength t
  let (v, t) ← parseLength t
  parseBody n v t

theorem parsePair_bytes (nv : NameValue) (rest : Text) : parsePair (nv.bytes ++ rest) = some (nv, rest) := by
  have hbody : parseBody nv.nameLength nv.valueLength (nv.name ++ (nv.value ++ rest)) = some (nv, rest) := by
    rw [parseBody, dif_pos (by simp [NameValue.nameLength, NameValue.valueLength])]
    simp only [Option.some.injEq, Prod.mk.injEq]
    constructor
    · ext1 <;> simp [NameValue.nameLength, NameValue.valueLength]
    · simp [NameValue.nameLength, NameValue.valueLength, List.drop_append]
  simp [parsePair, NameValue.bytes, parseLength_bytes, hbody]

theorem parsePair_exact {t rest : Text} {nv : NameValue} (h : parsePair t = some (nv, rest)) :
    t = nv.bytes ++ rest := by
  simp only [parsePair, Option.bind_eq_bind, Option.bind_eq_some_iff, Prod.exists] at h
  obtain ⟨n, t₁, hn, v, t₂, hv, hb⟩ := h
  unfold parseBody at hb
  split at hb
  · rename_i hle
    obtain ⟨rfl, rfl⟩ := Prod.mk.inj (Option.some.inj hb)
    have hname : (t₂.take n.val).length = n.val := by rw [List.length_take]; omega
    have hvalue : ((t₂.drop n.val).take v.val).length = v.val := by rw [List.length_take, List.length_drop]; omega
    rw [parseLength_exact hn, parseLength_exact hv]
    simp only [NameValue.bytes, NameValue.nameLength, NameValue.valueLength, hname, hvalue, List.append_assoc,
      List.append_cancel_left_eq]
    rw [← List.drop_drop, List.take_append_drop, List.take_append_drop]
  · cases hb

/-- Pairs as a prefix code. -/
def pairCode : Code NameValue Byte where
  encode := NameValue.bytes
  decode := parsePair
  encode_ne_nil nv h := nv.nameLength.bytes_ne_nil (List.append_eq_nil_iff.mp h).1
  decode_encode := parsePair_bytes

theorem pairCode_exact : pairCode.Exact := fun _ _ _ h => parsePair_exact h

/-- The pair in front asks for an allocation whose size is not an `int`. -/
def oversized (t : Text) : Bool :=
  match parseLength t with
  | none => false
  | some (n, t) =>
    match parseLength t with
    | none => false
    | some (v, _) => decide (intMax < n.val + v.val + 2)

/-- The strings of the content of parameter records, and whether it consists of pairs.
`none` is an allocation that overflows. -/
def parseParams (t : Text) : Option (Bool × List Text) :=
  let (nvs, tail) := pairCode.decodeAll (t.length + 1) t
  if nvs.any (fun nv => oversized nv.bytes) || oversized tail then none
  else some (tail.isEmpty, nvs.map NameValue.string)

theorem oversized_append (nv : NameValue) (rest : Text) : oversized (nv.bytes ++ rest) = oversized nv.bytes := by
  have h : nv.bytes = nv.nameLength.bytes ++ (nv.valueLength.bytes ++ (nv.name ++ nv.value)) := rfl
  simp only [oversized, h, List.append_assoc, parseLength_bytes]

theorem oversized_bytes (nv : NameValue) :
    oversized nv.bytes = decide (intMax < nv.name.length + nv.value.length + 2) := by
  have h : nv.bytes = nv.nameLength.bytes ++ (nv.valueLength.bytes ++ (nv.name ++ nv.value)) := rfl
  simp only [oversized, h, parseLength_bytes]
  rfl

/-- A pair that fits into a record can be stored. -/
theorem oversized_of_length {nv : NameValue} (h : nv.bytes.length ≤ intMax) : oversized nv.bytes = false := by
  have hname := List.length_pos_of_ne_nil nv.nameLength.bytes_ne_nil
  have hvalue := List.length_pos_of_ne_nil nv.valueLength.bytes_ne_nil
  rw [oversized_bytes]
  simp only [NameValue.bytes, List.length_append] at h
  exact decide_eq_false (by omega)

@[simp] theorem parsePair_nil : parsePair [] = none := rfl

/-- A content that is these pairs and then something that is none, and that can be read. -/
structure Splits (t : Text) (nvs : List NameValue) (tail : Text) : Prop where
  eq : t = nvs.flatMap NameValue.bytes ++ tail
  stuck : parsePair tail = none
  sizes : ∀ nv ∈ nvs, oversized nv.bytes = false
  tail_size : oversized tail = false

theorem parseParams_eq_some_iff {t : Text} {ok : Bool} {strings : List Text} :
    parseParams t = some (ok, strings) ↔
      ∃ nvs tail, Splits t nvs tail ∧ ok = tail.isEmpty ∧ strings = nvs.map NameValue.string := by
  have hsplit : ∀ nvs tail, pairCode.decodeAll (t.length + 1) t = (nvs, tail) ↔
      t = nvs.flatMap NameValue.bytes ++ tail ∧ parsePair tail = none :=
    fun nvs tail => pairCode_exact.decodeAll_eq_iff (Nat.lt_succ_self t.length)
  constructor
  · intro h
    unfold parseParams at h
    generalize hd : pairCode.decodeAll (t.length + 1) t = r at h
    obtain ⟨nvs, tail⟩ := r
    obtain ⟨ht, htail⟩ := (hsplit nvs tail).mp hd
    by_cases hsize : (nvs.any fun nv => oversized nv.bytes) || oversized tail
    · simp [hsize] at h
    · rw [Bool.not_eq_true, Bool.or_eq_false_iff, List.any_eq_false] at hsize
      obtain ⟨hnvs, hsize⟩ := hsize
      have hany : (nvs.any fun nv => oversized nv.bytes) = false := List.any_eq_false.mpr hnvs
      simp only [hany, hsize, Bool.or_false, Bool.false_eq_true, if_false, Option.some.injEq, Prod.mk.injEq] at h
      exact ⟨nvs, tail, ⟨ht, htail, fun nv hnv => Bool.eq_false_iff.mpr (hnvs nv hnv), hsize⟩, h.1.symm, h.2.symm⟩
  · rintro ⟨nvs, tail, hs, rfl, rfl⟩
    have hany : (nvs.any fun nv => oversized nv.bytes) = false :=
      List.any_eq_false.mpr fun nv hnv => Bool.eq_false_iff.mp (hs.sizes nv hnv)
    rw [parseParams, (hsplit nvs tail).mpr ⟨hs.eq, hs.stuck⟩]
    simp [hany, hs.tail_size]

theorem NameValue.bytes_ne_nil (nv : NameValue) : nv.bytes ≠ [] := pairCode.encode_ne_nil nv

theorem Splits.oversized {t tail : Text} {nvs : List NameValue} (h : Splits t nvs tail) : oversized t = false := by
  cases nvs with
  | nil =>
    have ht := h.eq
    rw [List.flatMap_nil, List.nil_append] at ht
    rw [ht]
    exact h.tail_size
  | cons nv nvs =>
    have ht := h.eq
    rw [List.flatMap_cons, List.append_assoc] at ht
    rw [ht, oversized_append]
    exact h.sizes nv List.mem_cons_self

theorem oversized_mono {t : Text} (h : oversized t = true) (more : Text) : oversized (t ++ more) = true := by
  unfold oversized at h ⊢
  cases hn : parseLength t with
  | none => simp [hn] at h
  | some p =>
    obtain ⟨n, t₁⟩ := p
    rw [parseLength_exact hn, List.append_assoc, parseLength_bytes]
    cases hv : parseLength t₁ with
    | none => simp [hn, hv] at h
    | some q =>
      obtain ⟨v, t₂⟩ := q
      simp only [hn, hv] at h
      simp only [parseLength_exact hv, List.append_assoc, parseLength_bytes]
      exact h

/-- Pairs are read back. -/
theorem parseParams_pairs {nvs : List NameValue} (hsizes : ∀ nv ∈ nvs, Libfcgi.oversized nv.bytes = false) :
    parseParams (nvs.flatMap NameValue.bytes) = some (true, nvs.map NameValue.string) :=
  parseParams_eq_some_iff.mpr ⟨nvs, [], ⟨(List.append_nil _).symm, rfl, hsizes, rfl⟩, rfl, rfl⟩

/-- The pairs that are whole are read from the beginning of a content, and it is seen
whether there is more of it. -/
theorem parseParams_cut {t : Text} {nvs : List NameValue} (hsizes : ∀ nv ∈ nvs, Libfcgi.oversized nv.bytes = false)
    (h : t <+: nvs.flatMap NameValue.bytes) :
    ∃ m tail, t = (nvs.take m).flatMap NameValue.bytes ++ tail ∧
      parseParams t = some (tail.isEmpty, (nvs.take m).map NameValue.string) := by
  obtain ⟨m, tail, ht, htail⟩ := pairCode.exists_cut nvs h
  refine ⟨m, tail, ht, parseParams_eq_some_iff.mpr ⟨nvs.take m, tail, ⟨ht, ?_, ?_, ?_⟩, rfl, rfl⟩⟩
  · rcases htail with rfl | ⟨nv, -, hcut, hne⟩
    · exact parsePair_nil
    · exact pairCode_exact.decode_cut hcut hne
  · exact fun nv hnv => hsizes nv (List.mem_of_mem_take hnv)
  · rcases htail with rfl | ⟨nv, hnv, ⟨more, hmore⟩, -⟩
    · rfl
    · by_contra hover
      have hall := oversized_mono (Bool.not_eq_false _ ▸ hover) more
      rw [hmore] at hall
      exact absurd (hsizes nv hnv) (by rw [show Libfcgi.oversized nv.bytes = true from hall]; exact Bool.noConfusion)

theorem cStr_of_notMem {name rest : Text} (h : (0 : Byte) ∉ name) : cStr (name ++ 61 :: rest) = name ++ 61 :: cStr rest := by
  induction name with
  | nil => rfl
  | cons b name ih =>
    simp only [List.mem_cons, not_or] at h
    have hb : (b != 0) = true := bne_iff_ne.mpr (Ne.symm h.1)
    simp only [cStr, List.cons_append, List.takeWhile_cons, hb, if_true]
    exact congrArg (b :: ·) (ih h.2)

/-- A name without a NUL and without the byte that ends names. -/
def Named (name : Text) : Prop := (0 : Byte) ∉ name ∧ (61 : Byte) ∉ name

/-- `FCGX_GetParam` finds a string by its whole name. -/
theorem getParam_cons {name n : Text} (hname : Named name) (hn : Named n) (v : Text) (envp : List Text) :
    getParam name ((n ++ 61 :: v) :: envp) = if n = name then some (cStr v) else getParam name envp := by
  rw [getParam, cStr_of_notMem hn.1]
  by_cases heq : n = name
  · subst heq
    have hval : (n ++ 61 :: cStr v).drop (n.length + 1) = cStr v := by
      rw [← List.drop_drop, List.drop_left]
      rfl
    simp [hval]
  · rw [if_neg heq, if_neg]
    rintro ⟨htake, hget⟩
    have hlen := congrArg List.length htake
    simp only [List.length_take, List.length_append, List.length_cons] at hlen
    rcases Nat.lt_trichotomy name.length n.length with hlt | heq' | hgt
    · -- the name would end inside the name of the string
      rw [List.getElem?_append_left hlt] at hget
      exact hn.2 (List.mem_of_getElem? hget)
    · rw [heq', List.take_left] at htake
      exact heq htake
    · -- the name would go on behind the end of that name
      have hmem : (name.take (n.length + 1))[n.length]? = some 61 := by
        rw [← htake, List.take_take, Nat.min_eq_left hgt, List.getElem?_take_of_lt (Nat.lt_succ_self _),
          List.getElem?_append_right (Nat.le_refl _), Nat.sub_self]
        rfl
      exact hname.2 (List.mem_of_mem_take (List.mem_of_getElem? hmem))

/-- The value of the first pair with that name. -/
theorem getParam_pairs {name : Text} (hname : Named name) {nvs : List NameValue} (h : ∀ nv ∈ nvs, Named nv.name) :
    getParam name (nvs.map NameValue.string) = (nvs.find? fun nv => nv.name = name).map fun nv => cStr nv.value := by
  induction nvs with
  | nil => rfl
  | cons nv nvs ih =>
    rw [List.map_cons, NameValue.string, getParam_cons hname (h nv List.mem_cons_self), List.find?_cons,
      ih fun nv' hnv => h nv' (List.mem_cons_of_mem _ hnv)]
    by_cases heq : nv.name = name <;> simp [heq]

section Reading

variable {fill : Fill} {s e : Input} {t : Text}

theorem readLength_yields (hs : s.Sound) (h : Yields (source fill) s t e) (b : Byte) :
    match parseLength (b :: t) with
    | some (l, rest) => ∃ s', readLength fill b s = some (some l.val, s') ∧ Yields (source fill) s' rest e ∧ s'.Sound
    | none => readLength fill b s = some (none, e.setError paramsError) := by
  by_cases hb : b &&& 0x80 ≠ 0
  · obtain ⟨s', hrun, hy, hs', hend⟩ := getStr_yields hs h 3
    rw [parseLength, dif_pos hb]
    match t, hrun, hy, hend with
    | b0 :: b1 :: b2 :: t, hrun, hy, _ => exact ⟨s', by simp only [readLength, if_pos hb, hrun]; rfl, hy, hs'⟩
    | [], hrun, _, hend => simp only [readLength, if_pos hb, hrun, ← hend (by decide)]; rfl
    | [_], hrun, _, hend => simp only [readLength, if_pos hb, hrun, ← hend (show 1 < 3 by decide)]; rfl
    | [_, _], hrun, _, hend => simp only [readLength, if_pos hb, hrun, ← hend (show 2 < 3 by decide)]; rfl
  · rw [parseLength, dif_neg hb]
    exact ⟨s, by rw [readLength, if_neg hb], h, hs⟩

theorem readExactly_yields (hs : s.Sound) (h : Yields (source fill) s t e) {n : Nat}
    (hn : n ≤ t.length) :
    ∃ s', readExactly fill n s = some (some (t.take n), s') ∧ Yields (source fill) s' (t.drop n) e ∧ s'.Sound := by
  obtain ⟨s', hrun, hy, hs', -⟩ := getStr_yields hs h n
  exact ⟨s', by simp [readExactly, hrun, hn], hy, hs'⟩

theorem readExactly_short (hs : s.Sound) (h : Yields (source fill) s t e) {n : Nat}
    (hn : t.length < n) : readExactly fill n s = some (none, e.setError paramsError) := by
  obtain ⟨s', hrun, -, -, hend⟩ := getStr_yields hs h n
  have hne : (t.take n).length ≠ n := by rw [List.length_take]; omega
  simp only [readExactly, hrun, hend hn, Option.bind_eq_bind, Option.bind_some, if_pos hne]

theorem readNameValue_yields (hs : s.Sound) (h : Yields (source fill) s t e) (n v : Length)
    (hsize : n.val + v.val + 2 ≤ intMax) :
    match parseBody n v t with
    | some (nv, rest) =>
      ∃ s', readNameValue fill n.val v.val s = some (.found nv.string, s') ∧ Yields (source fill) s' rest e ∧ s'.Sound
    | none => readNameValue fill n.val v.val s = some (.failed, e.setError paramsError) := by
  have hfits : ¬ intMax < n.val + v.val + 2 := Nat.not_lt.mpr hsize
  unfold parseBody
  by_cases hn : n.val ≤ t.length
  · obtain ⟨s₁, hrun₁, hy₁, hs₁⟩ := readExactly_yields hs h hn
    by_cases hv : n.val + v.val ≤ t.length
    · obtain ⟨s₂, hrun₂, hy₂, hs₂⟩ := readExactly_yields hs₁ hy₁
        (show v.val ≤ (t.drop n.val).length by rw [List.length_drop]; omega)
      rw [dif_pos hv]
      refine ⟨s₂, by simp [readNameValue, hfits, hrun₁, hrun₂, NameValue.string], ?_, hs₂⟩
      rw [← List.drop_drop]
      exact hy₂
    · have hrun₂ := readExactly_short hs₁ hy₁ (show (t.drop n.val).length < v.val by rw [List.length_drop]; omega)
      rw [dif_neg hv]
      simp [readNameValue, hfits, hrun₁, hrun₂]
  · have hrun := readExactly_short hs h (Nat.not_le.mp hn)
    rw [dif_neg (by omega)]
    simp [readNameValue, hfits, hrun]

/-- A pass of `ReadParams` decodes the next pair. -/
theorem readParam_yields (hs : s.Sound) (h : Yields (source fill) s t e) (hne : t ≠ [])
    (hsize : oversized t = false) :
    match parsePair t with
    | some (nv, rest) =>
      ∃ s', readParam fill s = some (.found nv.string, s') ∧ Yields (source fill) s' rest e ∧ s'.Sound
    | none => readParam fill s = some (.failed, e.setError paramsError) := by
  obtain ⟨rfl, -, -⟩ | ⟨b, t, s₁, rfl, hget₁, hy₁, hs₁⟩ := getChar_yields hs h
  · exact absurd rfl hne
  · have hlen := readLength_yields hs₁ hy₁ b
    unfold oversized at hsize
    cases hp : parseLength (b :: t) with
    | none =>
      rw [hp] at hlen
      have hpair : parsePair (b :: t) = none := by simp [parsePair, hp]
      rw [hpair]
      simp [readParam, hget₁, hlen]
    | some p =>
      obtain ⟨n, t₂⟩ := p
      rw [hp] at hlen hsize
      obtain ⟨s₂, hrun₂, hy₂, hs₂⟩ := hlen
      obtain ⟨rfl, hget₃, -⟩ | ⟨b', t₃, s₃, rfl, hget₃, hy₃, hs₃⟩ := getChar_yields hs₂ hy₂
      · have hpair : parsePair (b :: t) = none := by simp [parsePair, hp]
        rw [hpair]
        simp [readParam, hget₁, hrun₂, hget₃]
      · have hlen' := readLength_yields hs₃ hy₃ b'
        dsimp only at hsize
        cases hp' : parseLength (b' :: t₃) with
        | none =>
          rw [hp'] at hlen'
          have hpair : parsePair (b :: t) = none := by simp [parsePair, hp, hp']
          rw [hpair]
          simp [readParam, hget₁, hrun₂, hget₃, hlen']
        | some p' =>
          obtain ⟨v, t₄⟩ := p'
          rw [hp'] at hlen' hsize
          obtain ⟨s₄, hrun₄, hy₄, hs₄⟩ := hlen'
          have hfits : n.val + v.val + 2 ≤ intMax := Nat.not_lt.mp (of_decide_eq_false hsize)
          have hbody := readNameValue_yields hs₄ hy₄ n v hfits
          have hpair : parsePair (b :: t) = parseBody n v t₄ := by simp [parsePair, hp, hp']
          have hread : readParam fill s = readNameValue fill n.val v.val s₄ := by
            simp [readParam, hget₁, hrun₂, hget₃, hrun₄]
          rw [hpair, hread]
          exact hbody

/-- `ReadParams` decodes what the source yields: it finds the pairs, and it fails if
something else is left. -/
theorem readParamsLoop_yields (hs : s.Sound) (h : Yields (source fill) s t e)
    {nvs : List NameValue} {tail : Text} (ht : Splits t nvs tail) {fuel : Nat} (hf : nvs.length < fuel) (p : Params) :
    ∃ p', readParamsLoop fill fuel p s =
        some (tail.isEmpty, p', if tail.isEmpty then e else e.setError paramsError) ∧
      p'.vec = p.vec ++ nvs.map NameValue.string := by
  induction nvs generalizing s t fuel p with
  | nil =>
    obtain ⟨fuel, rfl⟩ : ∃ k, fuel = k + 1 := ⟨fuel - 1, by simp only [List.length_nil] at hf; omega⟩
    have heq := ht.eq
    rw [List.flatMap_nil, List.nil_append] at heq
    subst heq
    cases t with
    | nil =>
      obtain ⟨-, hget, -⟩ | ⟨b, c, s', hcons, -⟩ := getChar_yields hs h
      · exact ⟨p, by simp [readParamsLoop, readParam, hget], by simp⟩
      · cases hcons
    | cons b t =>
      have hrun := readParam_yields hs h (by simp) ht.tail_size
      rw [ht.stuck] at hrun
      exact ⟨p, by simp [readParamsLoop, hrun], by simp⟩
  | cons nv nvs ih =>
    obtain ⟨fuel, rfl⟩ : ∃ k, fuel = k + 1 := ⟨fuel - 1, by simp only [List.length_cons] at hf; omega⟩
    have heq := ht.eq
    rw [List.flatMap_cons, List.append_assoc] at heq
    have hne : t ≠ [] := by
      rw [heq]
      simp [nv.bytes_ne_nil]
    have hrun := readParam_yields hs h hne ht.oversized
    rw [heq, parsePair_bytes] at hrun
    obtain ⟨s', hrun, hy, hs'⟩ := hrun
    have hrest : Splits (nvs.flatMap NameValue.bytes ++ tail) nvs tail :=
      ⟨rfl, ht.stuck, fun nv' hnv' => ht.sizes nv' (List.mem_cons_of_mem _ hnv'), ht.tail_size⟩
    obtain ⟨p', hloop, hvec⟩ := ih hs' hy hrest (by simpa using hf) (putParam p nv.string)
    exact ⟨p', by simp [readParamsLoop, hrun, hloop], by simp [hvec, putParam]⟩

theorem readParams_yields (hs : s.Sound) (h : Yields (source fill) s t e)
    (hlen : t.length ≤ s.ahead.length) {ok : Bool} {strings : List Text} (ht : parseParams t = some (ok, strings))
    (p : Params) :
    ∃ p', readParams fill p s = some (ok, p', if ok then e else e.setError paramsError) ∧ p'.vec = p.vec ++ strings := by
  obtain ⟨nvs, tail, hsplit, rfl, rfl⟩ := parseParams_eq_some_iff.mp ht
  have hcount : nvs.length ≤ t.length := by
    have hle : nvs.length ≤ (nvs.flatMap NameValue.bytes).length := pairCode.length_le_flatMap nvs
    have heq := congrArg List.length hsplit.eq
    rw [List.length_append] at heq
    omega
  exact readParamsLoop_yields hs h hsplit (by omega) p

end Reading

end Libfcgi
