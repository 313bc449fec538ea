import Altumo.Library.Numeral

/-!
# `inet_pton` for dotted quads

The scan is the C library's: one octet under construction, no superfluous leading
zero, no octet above 255, four octets. The address in host order is the
big-endian value of the octets.
-/

namespace InetAddress

open CString Numeral

/-- The finished octets, the octet under construction, whether it has a digit
yet, and the number of octets begun. -/
structure Scan where
  finished : List Nat
  current : Nat
  sawDigit : Bool
  octets : Nat
  deriving DecidableEq

def start : Scan := ⟨[], 0, false, 0⟩

def scanByte (st : Scan) (ch : Byte) : Option Scan :=
  if isDigit ch then
    let new := 10 * st.current + digitValue ch
    if st.sawDigit ∧ st.current = 0 then none
    else if 255 < new then none
    else if st.sawDigit then some { st with current := new }
    else if 4 < st.octets + 1 then none
    else some { st with current := new, sawDigit := true, octets := st.octets + 1 }
  else if ch = 46 ∧ st.sawDigit then
    if st.octets = 4 then none
    else some { st with finished := st.finished ++ [st.current], current := 0, sawDigit := false }
  else none

/-- `inet_pton( AF_INET, src, dst )`: the four octets in network order, or the
result zero. -/
def inetPton (src : Text) : Option (List Nat) :=
  match src.foldlM scanByte start with
  | none => none
  | some st => if st.octets < 4 then none else some (st.finished ++ [st.current])

/-- `ntohl` of an address in network order: the big-endian value of the octets. -/
def ntohl (octets : List Nat) : Nat := octets.foldl (fun v o => 256 * v + o) 0

/-- The four octets of an address in host order. -/
def octetsOf (ip : Nat) : List Nat :=
  [ip / 2 ^ 24 % 256, ip / 2 ^ 16 % 256, ip / 2 ^ 8 % 256, ip % 256]

/-- The dotted-quad text of an address. -/
def dottedQuad (ip : Nat) : Text :=
  [(46 : Byte)].intercalate ((octetsOf ip).map decimal)

theorem ntohl_octetsOf {ip : Nat} (h : ip < 2 ^ 32) : ntohl (octetsOf ip) = ip := by
  simp only [ntohl, octetsOf, List.foldl_cons, List.foldl_nil]
  omega

/-- The digits of a number up to 255 build that octet. -/
theorem scan_decimal {n : Nat} (h : n ≤ 255) {finished : List Nat} {octets : Nat} (ho : octets < 4) :
    (decimal n).foldlM scanByte ⟨finished, 0, false, octets⟩ =
      some ⟨finished, n, true, octets + 1⟩ := by
  induction n using Nat.strong_induction_on with
  | _ n ih =>
    by_cases hn : n < 10
    · have hb := digit_byte hn
      rw [decimal_of_lt hn]
      simp only [List.foldlM_cons, List.foldlM_nil, scanByte, hb.1, ↓reduceIte, hb.2]
      simp only [Bool.false_eq_true, false_and, ↓reduceIte, Nat.mul_zero, Nat.zero_add,
        show ¬ 255 < n by omega, show ¬ 4 < octets + 1 by omega]
      rfl
    · have hb := digit_byte (Nat.mod_lt n (show 0 < 10 by omega))
      rw [decimal_of_ge (by omega), List.foldlM_append, ih (n / 10) (by omega) (by omega)]
      have hv : 10 * (n / 10) + n % 10 = n := by omega
      have hz : n / 10 ≠ 0 := by omega
      simp only [Option.bind_eq_bind, Option.bind_some, List.foldlM_cons, List.foldlM_nil, scanByte,
        hb.1, ↓reduceIte, hb.2, hv, hz, and_false, show ¬ 255 < n by omega]
      rfl

/-- A dot closes the octet and opens the next one. -/
theorem scan_dot {finished : List Nat} {n octets : Nat} (ho : octets < 4) :
    scanByte ⟨finished, n, true, octets⟩ 46 = some ⟨finished ++ [n], 0, false, octets⟩ := by
  have hd : isDigit 46 = false := by decide
  simp only [scanByte, hd, Bool.false_eq_true, ↓reduceIte, and_self, show octets ≠ 4 by omega]

/-- An octet with its dot, in front of a further text. -/
theorem scan_octet {n : Nat} (h : n ≤ 255) {finished : List Nat} {octets : Nat} (ho : octets < 3) (rest : Text) :
    (decimal n ++ 46 :: rest).foldlM scanByte ⟨finished, 0, false, octets⟩ =
      rest.foldlM scanByte ⟨finished ++ [n], 0, false, octets + 1⟩ := by
  rw [List.foldlM_append, scan_decimal h (by omega)]
  simp only [Option.bind_eq_bind, Option.bind_some, List.foldlM_cons]
  rw [scan_dot (by omega)]
  rfl

/-- The text of an address is read back as its octets. -/
theorem inetPton_dottedQuad (ip : Nat) : inetPton (dottedQuad ip) = some (octetsOf ip) := by
  have hle : ∀ m, m % 256 ≤ 255 := fun m => by have := Nat.mod_lt m (show 0 < 256 by omega); omega
  have htext : dottedQuad ip = decimal (ip / 2 ^ 24 % 256) ++ 46 :: (decimal (ip / 2 ^ 16 % 256) ++
      46 :: (decimal (ip / 2 ^ 8 % 256) ++ 46 :: decimal (ip % 256))) := by
    simp [dottedQuad, octetsOf, List.intercalate]
  rw [inetPton, htext, start, scan_octet (hle _) (by omega), scan_octet (hle _) (by omega),
    scan_octet (hle _) (by omega), scan_decimal (hle _) (by omega)]
  rfl

/-- The text of an address holds digits and dots only. -/
theorem zero_notMem_dottedQuad (ip : Nat) : (0 : Byte) ∉ dottedQuad ip := by
  have hd : ∀ n, (0 : Byte) ∉ decimal n := by
    intro n h
    have := decimal_digits n 0 h
    revert this
    decide
  simp [dottedQuad, octetsOf, List.intercalate, hd]

/-- What every state of the scan satisfies: octets in range, and one of them
begun for each digit run. -/
structure Scan.Valid (st : Scan) : Prop where
  finished_le : ∀ o ∈ st.finished, o ≤ 255
  current_le : st.current ≤ 255
  octets_eq : st.octets = st.finished.length + if st.sawDigit then 1 else 0
  length_lt : st.finished.length < 4

theorem start_valid : start.Valid := by
  constructor <;> simp [start]

theorem scanByte_valid {st st' : Scan} {ch : Byte} (hv : st.Valid) (h : scanByte st ch = some st') :
    st'.Valid := by
  obtain ⟨hf, hc, ho, hl⟩ := hv
  simp only [scanByte] at h
  split at h
  · split at h
    · cases h
    · split at h
      · cases h
      · rename_i hnew
        split at h
        · rename_i hs
          cases h
          exact ⟨hf, by simp only; omega, ho, hl⟩
        · rename_i hs
          split at h
          · cases h
          · cases h
            simp only [hs, Bool.false_eq_true, ↓reduceIte] at ho
            exact ⟨hf, by simp only; omega, by simp only [↓reduceIte]; omega, hl⟩
  · split at h
    · rename_i hdot
      split at h
      · cases h
      · rename_i hfour
        cases h
        simp only [hdot.2, ↓reduceIte] at ho
        refine ⟨?_, by simp, by simpa using ho, by simp; omega⟩
        intro o hm
        rcases List.mem_append.mp hm with hm | hm
        · exact hf o hm
        · rw [List.mem_singleton] at hm; subst hm; exact hc
    · cases h

theorem scan_valid {src : Text} {st st' : Scan} (hv : st.Valid)
    (h : src.foldlM scanByte st = some st') : st'.Valid := by
  induction src generalizing st with
  | nil => cases h; exact hv
  | cons ch src ih =>
    rw [List.foldlM_cons, Option.bind_eq_bind, Option.bind_eq_some_iff] at h
    obtain ⟨mid, hmid, h⟩ := h
    exact ih (scanByte_valid hv hmid) h

/-- An accepted text denotes four octets of at most 255. -/
theorem inetPton_spec {src : Text} {octets : List Nat} (h : inetPton src = some octets) :
    octets.length = 4 ∧ ∀ o ∈ octets, o ≤ 255 := by
  rw [inetPton] at h
  cases hs : src.foldlM scanByte start with
  | none => rw [hs] at h; cases h
  | some st =>
    rw [hs] at h
    obtain ⟨hf, hc, ho, hl⟩ := scan_valid start_valid hs
    simp only at h
    split at h
    · cases h
    · cases h
      constructor
      · simp only [List.length_append, List.length_singleton]
        split at ho <;> omega
      · intro o hm
        rcases List.mem_append.mp hm with hm | hm
        · exact hf o hm
        · rw [List.mem_singleton] at hm; subst hm; exact hc

/-- Four octets make a 32-bit number, and different octets different numbers. -/
theorem ntohl_lt {octets : List Nat} (hl : octets.length = 4) (hle : ∀ o ∈ octets, o ≤ 255) :
    ntohl octets < 2 ^ 32 := by
  match octets, hl with
  | [a, b, c, d], _ =>
    simp only [List.mem_cons, List.not_mem_nil, or_false, forall_eq_or_imp, forall_eq] at hle
    simp only [ntohl, List.foldl_cons, List.foldl_nil]
    omega

end InetAddress
