import Mathlib.Data.List.TakeWhile

/-!
# Bytes, C strings and fixed buffers

A `char` is a byte and a `std::string` a list of bytes. The C functions that
receive `c_str()` see only the bytes before the first NUL. A fixed array is a
list that carries its length; a write past its end has no defined result and is
`none`.
-/

namespace CString

abbrev Byte := UInt8
abbrev Text := List Byte

/-- The bytes of an ASCII literal. -/
def text (s : String) : Text := s.toList.map fun c => c.toNat.toUInt8

/-- The part of a string that a C function sees through `c_str()`. -/
def cStr (s : Text) : Text := s.takeWhile (· != 0)

/-- `INT_MAX`. -/
def intMax : Nat := 2147483647

/-- A length that is stored in an `int`. -/
def intOf (n : Nat) : Int := (BitVec.ofNat 32 n).toInt

theorem intOf_of_le {n : Nat} (h : n ≤ intMax) : intOf n = n := by
  have hn : n < 2 ^ 31 := Nat.lt_of_le_of_lt h (by decide)
  rw [intOf, BitVec.toInt_eq_toNat_of_lt, BitVec.toNat_ofNat, Nat.mod_eq_of_lt (by omega)]
  rw [BitVec.toNat_ofNat, Nat.mod_eq_of_lt (by omega)]
  omega

/-- The number of bytes that a length leaves to a function that takes an `int`. -/
theorem intOf_toNat {n : Nat} (h : n ≤ intMax) : (intOf n).toNat = n := by
  rw [intOf_of_le h, Int.toNat_natCast]

/-- `char data[n]`. -/
structure Buffer (n : Nat) where
  bytes : Text
  length_eq : bytes.length = n
  deriving DecidableEq

theorem Buffer.ext {n : Nat} {b c : Buffer n} (h : b.bytes = c.bytes) : b = c := by
  cases b; cases c; cases h; rfl

/-- An array of zeros. -/
def Buffer.zeroed (n : Nat) : Buffer n := ⟨List.replicate n 0, List.length_replicate⟩

/-- The transfer of a chunk to the front of a buffer; what does not fit is not transferred. -/
def Buffer.fill {n : Nat} (b : Buffer n) (chunk : Text) : Buffer n where
  bytes := (chunk ++ b.bytes.drop chunk.length).take n
  length_eq := by
    have := b.length_eq
    simp only [List.length_take, List.length_append, List.length_drop]
    omega

/-- `memset(data, value, count)`. -/
def memset {n : Nat} (b : Buffer n) (value : Byte) (count : Nat) : Option (Buffer n) :=
  if h : count ≤ n then
    some ⟨List.replicate count value ++ b.bytes.drop count, by
      have := b.length_eq
      simp only [List.length_append, List.length_replicate, List.length_drop]
      omega⟩
  else none

/-- What `strncpy` writes: the C string cut at `count` bytes, then zeros up to `count`. -/
def strncpyBytes (src : Text) (count : Nat) : Text :=
  (cStr src).take count ++ List.replicate (count - (cStr src).length) 0

@[simp] theorem strncpyBytes_length (src : Text) (count : Nat) :
    (strncpyBytes src count).length = count := by
  simp only [strncpyBytes, List.length_append, List.length_take, List.length_replicate]
  omega

/-- `strncpy(data, src, count)` writes exactly the indices below `count`. -/
def strncpy {n : Nat} (b : Buffer n) (src : Text) (count : Nat) : Option (Buffer n) :=
  if h : count ≤ n then
    some ⟨strncpyBytes src count ++ b.bytes.drop count, by
      have := b.length_eq
      simp only [List.length_append, strncpyBytes_length, List.length_drop]
      omega⟩
  else none

/-- `string(const char *)` on an array: the bytes before the first NUL. Without
a NUL in the array the read runs past its end. -/
def Buffer.toCString {n : Nat} (b : Buffer n) : Option Text :=
  if 0 ∈ b.bytes then some (cStr b.bytes) else none

theorem ne_zero_of_notMem {s : Text} (h : (0 : Byte) ∉ s) : ∀ b ∈ s, (b != 0) = true := by
  intro b hb
  have : b ≠ 0 := by intro he; subst he; exact h hb
  simpa using this

theorem cStr_eq_self {s : Text} (h : (0 : Byte) ∉ s) : cStr s = s := by
  rw [cStr, List.takeWhile_eq_self_iff]
  exact ne_zero_of_notMem h

/-- The C string of a text that begins without NUL. -/
theorem cStr_append {s : Text} (h : (0 : Byte) ∉ s) (t : Text) : cStr (s ++ t) = s ++ cStr t :=
  List.takeWhile_append_of_pos (ne_zero_of_notMem h)

theorem zero_notMem_cStr (s : Text) : (0 : Byte) ∉ cStr s := by
  intro h
  have := List.mem_takeWhile_imp h
  simp at this

/-- Bytes behind a terminating NUL are invisible. -/
theorem cStr_append_zero {s : Text} (h : (0 : Byte) ∉ s) (t : Text) : cStr (s ++ 0 :: t) = s := by
  rw [cStr_append h]
  simp [cStr]

/-- A chunk that fits covers the front of the buffer, and the rest stays. -/
theorem fill_bytes {n : Nat} (b : Buffer n) {chunk : Text} (h : chunk.length ≤ n) :
    (b.fill chunk).bytes = chunk ++ b.bytes.drop chunk.length := by
  have hlen := b.length_eq
  refine List.take_of_length_le ?_
  simp only [List.length_append, List.length_drop]
  omega

@[simp] theorem fill_bytes_take {n : Nat} (b : Buffer n) {chunk : Text} (h : chunk.length ≤ n) :
    (b.fill chunk).bytes.take chunk.length = chunk := by
  rw [fill_bytes b h]
  exact List.take_left' rfl

theorem fill_getElem? {n : Nat} (b : Buffer n) {chunk : Text} (h : chunk.length ≤ n) (i : Nat) :
    (b.fill chunk).bytes[i]? = if i < chunk.length then chunk[i]? else b.bytes[i]? := by
  rw [fill_bytes b h, List.getElem?_append, List.getElem?_drop]
  split
  · rfl
  · congr 1
    omega

/-- As a C string the buffer is the chunk just received exactly when the chunk has no NUL
and a NUL lies right behind it. -/
theorem fill_toCString_iff {n : Nat} (b : Buffer n) {chunk : Text} (h : chunk.length ≤ n) :
    (b.fill chunk).toCString = some chunk ↔ (0 : Byte) ∉ chunk ∧ b.bytes[chunk.length]? = some 0 := by
  have hbehind : b.bytes[chunk.length]? = (b.bytes.drop chunk.length)[0]? := by
    rw [List.getElem?_drop, Nat.add_zero]
  rw [Buffer.toCString, fill_bytes b h, hbehind]
  constructor
  · intro hs
    split at hs
    · rename_i hzero
      have hc := Option.some.inj hs
      have hnone : (0 : Byte) ∉ chunk := by
        rw [← hc]
        exact zero_notMem_cStr _
      refine ⟨hnone, ?_⟩
      cases hd : b.bytes.drop chunk.length with
      | nil =>
        rw [hd, List.append_nil] at hzero
        exact absurd hzero hnone
      | cons d ds =>
        rw [hd, cStr_append hnone] at hc
        have hstop := List.append_cancel_left (hc.trans (List.append_nil chunk).symm)
        by_contra hne
        have hd0 : d ≠ 0 := by simpa using hne
        simp [cStr, hd0] at hstop
    · cases hs
  · rintro ⟨hnone, hzero⟩
    obtain ⟨hlt, hget⟩ := List.getElem?_eq_some_iff.mp hzero
    cases hd : b.bytes.drop chunk.length with
    | nil => simp [hd] at hlt
    | cons d ds =>
      have hd0 : d = 0 := by simpa [hd] using hget
      rw [hd0, if_pos (by simp), cStr_append_zero hnone]

theorem memset_all {n : Nat} (b : Buffer n) (value : Byte) :
    memset b value n = some ⟨List.replicate n value, by simp⟩ := by
  have hd : b.bytes.drop n = [] := List.drop_eq_nil_of_le (by rw [b.length_eq])
  simp only [memset, Nat.le_refl, ↓reduceDIte, hd, List.append_nil]

theorem strncpy_eq_some {n : Nat} (b : Buffer n) (src : Text) {count : Nat} (h : count ≤ n) :
    ∃ f, strncpy b src count = some f ∧ f.bytes = strncpyBytes src count ++ b.bytes.drop count := by
  simp only [strncpy, h, ↓reduceDIte]
  exact ⟨_, rfl, rfl⟩

theorem strncpy_eq_none {n : Nat} (b : Buffer n) (src : Text) {count : Nat} (h : n < count) :
    strncpy b src count = none := by
  simp only [strncpy, Nat.not_le_of_lt h, ↓reduceDIte]

/-- Copying a NUL-free text of its own length leaves the text followed by the old tail. -/
theorem strncpyBytes_self {src : Text} (h : (0 : Byte) ∉ src) :
    strncpyBytes src src.length = src := by
  simp [strncpyBytes, cStr_eq_self h]

/-- Two texts cut at their first separator agree on both sides of it. -/
theorem split_at_first {a : Byte} {x y s t : Text} (hx : a ∉ x) (hy : a ∉ y)
    (h : x ++ a :: s = y ++ a :: t) : x = y ∧ s = t := by
  induction x generalizing y with
  | nil =>
    cases y with
    | nil => simpa using h
    | cons b y =>
      simp only [List.nil_append, List.cons_append, List.cons.injEq] at h
      exact absurd (by simp [h.1]) hy
  | cons c x ih =>
    cases y with
    | nil =>
      simp only [List.nil_append, List.cons_append, List.cons.injEq] at h
      exact absurd (by simp [h.1]) hx
    | cons b y =>
      simp only [List.cons_append, List.cons.injEq] at h
      obtain ⟨rfl, h⟩ := h
      simp only [List.mem_cons, not_or] at hx hy
      obtain ⟨rfl, rfl⟩ := ih hx.2 hy.2 h
      exact ⟨rfl, rfl⟩

end CString
