import Altumo.Library.CString

/-!
# Character sets over ASCII

Bytes are read as characters through a character set. What is asked of it is that
the ASCII characters are their own bytes and that no other character uses such a
byte, so that a text may be cut at any ASCII byte. Latin-1 and UTF-8 are two of them.
-/

namespace Encoding

open CString

/-- The bytes of a sequence of characters. -/
def encodeAll (encode : Char → Option Text) : List Char → Option Text
  | [] => some []
  | c :: cs => do
    let s ← encode c
    let t ← encodeAll encode cs
    some (s ++ t)

structure Charset where
  encode : Char → Option Text
  decode : Text → Option (List Char)
  decode_eq_some_iff : ∀ s cs, decode s = some cs ↔ encodeAll encode cs = some s
  encode_ascii : ∀ c, c.toNat < 128 → encode c = some [c.toNat.toUInt8]
  encode_high : ∀ c s, 128 ≤ c.toNat → encode c = some s → s ≠ [] ∧ ∀ b ∈ s, 128 ≤ b.toNat

/-- The character with the number of a byte. -/
def charOf (b : Byte) : Char := Char.ofNat b.toNat

@[simp] theorem toNat_charOf (b : Byte) : (charOf b).toNat = b.toNat := by
  have hv : b.toNat.isValidChar := Or.inl (Nat.lt_trans b.toNat_lt (by decide))
  rw [charOf, Char.ofNat, dif_pos hv]
  rfl

theorem charOf_toUInt8 {c : Char} (hc : c.toNat < 256) : charOf c.toNat.toUInt8 = c := by
  have h : c.toNat.toUInt8.toNat = c.toNat := by
    rw [Nat.toUInt8, UInt8.toNat_ofNat']
    omega
  rw [charOf, h, Char.ofNat_toNat]

namespace Charset

variable (cs : Charset)

theorem encodeAll_append (xs ys : List Char) {s t : Text} (hs : encodeAll cs.encode xs = some s)
    (ht : encodeAll cs.encode ys = some t) : encodeAll cs.encode (xs ++ ys) = some (s ++ t) := by
  induction xs generalizing s with
  | nil =>
    cases hs
    exact ht
  | cons c xs ih =>
    simp only [encodeAll, Option.bind_eq_bind, Option.bind_eq_some_iff, Option.some.injEq] at hs
    obtain ⟨u, hu, v, hv, rfl⟩ := hs
    simp [encodeAll, hu, ih hv]

theorem encode_charOf {b : Byte} (hb : b.toNat < 128) : cs.encode (charOf b) = some [b] := by
  rw [cs.encode_ascii _ (by rw [toNat_charOf]; exact hb), toNat_charOf]
  simp

/-- A sequence whose bytes are cut at an ASCII byte is cut at its character. -/
theorem encodeAll_split {zs : List Char} {s t : Text} {b : Byte} (hb : b.toNat < 128)
    (h : encodeAll cs.encode zs = some (s ++ b :: t)) : ∃ xs ys, zs = xs ++ charOf b :: ys ∧
      encodeAll cs.encode xs = some s ∧ encodeAll cs.encode ys = some t := by
  induction zs generalizing s with
  | nil => simp [encodeAll] at h
  | cons c zs ih =>
    simp only [encodeAll, Option.bind_eq_bind, Option.bind_eq_some_iff, Option.some.injEq] at h
    obtain ⟨u, hu, v, hv, h⟩ := h
    by_cases hc : c.toNat < 128
    · rw [cs.encode_ascii c hc] at hu
      cases hu
      cases s with
      | nil =>
        simp only [List.cons_append, List.nil_append, List.cons.injEq] at h
        obtain ⟨rfl, rfl⟩ := h
        exact ⟨[], zs, by rw [charOf_toUInt8 (by omega)]; rfl, rfl, hv⟩
      | cons d s =>
        simp only [List.cons_append, List.nil_append, List.cons.injEq] at h
        obtain ⟨rfl, rfl⟩ := h
        obtain ⟨xs, ys, rfl, hx, hy⟩ := ih hv
        exact ⟨c :: xs, ys, rfl, by simp [encodeAll, cs.encode_ascii c hc, hx], hy⟩
    · obtain ⟨-, hhigh⟩ := cs.encode_high c u (by omega) hu
      -- No byte of the character is the one at the cut, so they all lie before it.
      have hbefore : ∃ s', s = u ++ s' ∧ v = s' ++ b :: t := by
        rcases List.append_eq_append_iff.mp h with ⟨s', hs, hv'⟩ | ⟨u', hs, hv'⟩
        · exact ⟨s', hs, hv'⟩
        · cases u' with
          | nil => exact ⟨[], by simpa using hs.symm, by simpa using hv'.symm⟩
          | cons d u' =>
            simp only [List.cons_append, List.cons.injEq] at hv'
            have := hhigh d (by simp [hs])
            rw [← hv'.1] at this
            omega
      obtain ⟨s', rfl, rfl⟩ := hbefore
      obtain ⟨xs, ys, rfl, hx, hy⟩ := ih hv
      exact ⟨c :: xs, ys, rfl, by simp [encodeAll, hu, hx], hy⟩

theorem decode_append_cons {b : Byte} (hb : b.toNat < 128) (s t : Text) :
    cs.decode (s ++ b :: t) =
      (cs.decode s).bind fun xs => (cs.decode t).map fun ys => xs ++ charOf b :: ys := by
  ext zs
  simp only [Option.bind_eq_some_iff, Option.map_eq_some_iff, cs.decode_eq_some_iff]
  constructor
  · intro h
    obtain ⟨xs, ys, rfl, hx, hy⟩ := cs.encodeAll_split hb h
    exact ⟨xs, hx, ys, hy, rfl⟩
  · rintro ⟨xs, hx, ys, hy, rfl⟩
    have hcons : encodeAll cs.encode (charOf b :: ys) = some (b :: t) := by
      simp [encodeAll, cs.encode_charOf hb, hy]
    exact cs.encodeAll_append xs _ hx hcons

@[simp] theorem decode_nil : cs.decode [] = some [] := (cs.decode_eq_some_iff [] []).mpr rfl

theorem decode_cons {b : Byte} (hb : b.toNat < 128) (t : Text) :
    cs.decode (b :: t) = (cs.decode t).map (charOf b :: ·) := by
  have h := cs.decode_append_cons hb [] t
  rw [decode_nil, List.nil_append, Option.bind_some] at h
  exact h

/-- An ASCII text in front is read on its own. -/
theorem decode_ascii_append {s : Text} (hs : ∀ b ∈ s, b.toNat < 128) (t : Text) :
    cs.decode (s ++ t) = (cs.decode t).map (s.map charOf ++ ·) := by
  induction s with
  | nil => simp
  | cons b s ih =>
    rw [List.cons_append, cs.decode_cons (hs b (List.mem_cons_self ..)),
      ih fun b hb => hs b (List.mem_cons_of_mem _ hb), Option.map_map]
    rfl

theorem decode_ascii {s : Text} (hs : ∀ b ∈ s, b.toNat < 128) : cs.decode s = some (s.map charOf) := by
  have h := cs.decode_ascii_append hs []
  rw [List.append_nil, decode_nil, Option.map_some, List.append_nil] at h
  exact h

/-- The ASCII characters of a text are its ASCII bytes. -/
theorem mem_decode_iff {s : Text} {xs : List Char} (h : cs.decode s = some xs) {b : Byte}
    (hb : b.toNat < 128) : charOf b ∈ xs ↔ b ∈ s := by
  rw [cs.decode_eq_some_iff] at h
  induction xs generalizing s with
  | nil =>
    cases h
    simp
  | cons c xs ih =>
    simp only [encodeAll, Option.bind_eq_bind, Option.bind_eq_some_iff, Option.some.injEq] at h
    obtain ⟨u, hu, v, hv, rfl⟩ := h
    rw [List.mem_cons, List.mem_append, ih hv]
    refine or_congr ?_ Iff.rfl
    by_cases hc : c.toNat < 128
    · rw [cs.encode_ascii c hc] at hu
      cases hu
      rw [List.mem_singleton]
      constructor
      · rintro rfl
        simp
      · rintro rfl
        exact charOf_toUInt8 (by omega)
    · obtain ⟨-, hhigh⟩ := cs.encode_high c u (by omega) hu
      constructor
      · rintro rfl
        rw [toNat_charOf] at hc
        exact absurd hb hc
      · intro hm
        have := hhigh b hm
        omega

end Charset

theorem encodeAll_latin1 (s : Text) (xs : List Char) :
    encodeAll (fun c => if c.toNat < 256 then some [c.toNat.toUInt8] else none) xs = some s ↔
      xs = s.map charOf := by
  induction xs generalizing s with
  | nil => simp [encodeAll, eq_comm]
  | cons c xs ih =>
    simp only [encodeAll, Option.bind_eq_bind, Option.bind_eq_some_iff, Option.some.injEq, ih]
    constructor
    · rintro ⟨u, hu, t, rfl, rfl⟩
      split at hu
      · rename_i hc
        cases hu
        simp [charOf_toUInt8 hc]
      · cases hu
    · intro h
      cases s with
      | nil => cases h
      | cons b t =>
        rw [List.map_cons, List.cons.injEq] at h
        obtain ⟨rfl, rfl⟩ := h
        exact ⟨[b], by simp [b.toNat_lt], t, rfl, rfl⟩

/-- Every byte is the character of its number. -/
def latin1 : Charset where
  encode c := if c.toNat < 256 then some [c.toNat.toUInt8] else none
  decode s := some (s.map charOf)
  decode_eq_some_iff := by
    intro s xs
    rw [encodeAll_latin1, Option.some.injEq, eq_comm]
  encode_ascii := by
    intro c hc
    rw [if_pos (by omega)]
  encode_high := by
    intro c s hc h
    split at h
    · cases h
      refine ⟨by simp, ?_⟩
      intro b hb
      rw [List.mem_singleton.mp hb, Nat.toUInt8, UInt8.toNat_ofNat']
      omega
    · cases h

theorem encodeAll_utf8 (xs : List Char) :
    encodeAll (fun c => some (String.utf8EncodeChar c)) xs = some (xs.flatMap String.utf8EncodeChar) := by
  induction xs with
  | nil => rfl
  | cons c xs ih => simp [encodeAll, ih]

def utf8 : Charset where
  encode c := some (String.utf8EncodeChar c)
  decode s := s.toByteArray.utf8Decode?.map Array.toList
  decode_eq_some_iff := by
    intro s xs
    rw [encodeAll_utf8, Option.map_eq_some_iff]
    constructor
    · rintro ⟨a, ha, rfl⟩
      have hsome : s.toByteArray.utf8Decode?.isSome := by rw [ha]; rfl
      have hb : (s.toByteArray.utf8Decode?.get hsome).toList.utf8Encode = s.toByteArray :=
        ByteArray.utf8Encode_get_utf8Decode?
      simp only [ha, Option.get_some] at hb
      have hl := congrArg (fun b => b.data.toList) hb
      simpa only [List.utf8Encode, List.toList_data_toByteArray, Option.some.injEq] using hl
    · intro h
      cases h
      exact ⟨xs.toArray, List.utf8Decode?_utf8Encode, rfl⟩
  encode_ascii := by
    intro c hc
    have hle : c.val.toNat ≤ 127 := Nat.le_of_lt_succ hc
    simp only [String.utf8EncodeChar, hle, ↓reduceIte]
    rfl
  encode_high := by
    intro c s hc h
    have hle : ¬ c.val.toNat ≤ 127 := Nat.not_le_of_lt hc
    cases h
    simp only [String.utf8EncodeChar, hle, ↓reduceIte]
    split
    · simp; omega
    · split
      · simp; omega
      · simp; omega

end Encoding
