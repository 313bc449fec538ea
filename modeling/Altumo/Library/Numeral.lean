import Mathlib.Algebra.GroupWithZero.Nat
import Mathlib.Data.List.Basic
import Mathlib.Data.List.Induction
import Altumo.Library.CString

/-!
# Numerals as the C library reads and writes them

`strtoul` is taken with base argument zero, where the text chooses the base: a
leading `0x` means sixteen, another leading `0` means eight. On digit strings it
is compared with the decimal positional value.
-/

namespace Numeral

open CString

/-- `ULONG_MAX` of a 64-bit unsigned long. -/
def ulongMax : Nat := 2 ^ 64 - 1

def isDigit (b : Byte) : Bool := decide (48 ≤ b.toNat ∧ b.toNat ≤ 57)

/-- `isspace` of the C locale. -/
def isSpace (b : Byte) : Bool := decide (b.toNat = 32 ∨ (9 ≤ b.toNat ∧ b.toNat ≤ 13))

/-- The value of a digit or a letter in a base up to 36, and 36 for other bytes. -/
def digitValue (b : Byte) : Nat :=
  if 48 ≤ b.toNat ∧ b.toNat ≤ 57 then b.toNat - 48
  else if 97 ≤ b.toNat ∧ b.toNat ≤ 122 then b.toNat - 87
  else if 65 ≤ b.toNat ∧ b.toNat ≤ 90 then b.toNat - 55
  else 36

def ofDigits (base : Nat) (s : Text) : Nat := s.foldl (fun v b => base * v + digitValue b) 0

/-- The positional value of a digit string in base ten. -/
def decimalValue (s : Text) : Nat := ofDigits 10 s

/-- The value read in base eight: it stops at the first digit that is not octal. -/
def octalValue (s : Text) : Nat := ofDigits 8 (s.takeWhile (digitValue · < 8))

/-- The base-zero rule. The prefix `0x` counts only in front of a hexadecimal digit. -/
def detectBase (s : Text) : Nat × Text :=
  if s.head? = some 48 then
    if (s[1]? = some 120 ∨ s[1]? = some 88) ∧ (s[2]?.map digitValue).getD 36 < 16 then (16, s.drop 2)
    else (8, s)
  else (10, s)

/-- `strtoul(s, NULL, 0)`: blanks, a sign, the base rule, the longest run of
digits, saturation at `ULONG_MAX`; a minus sign negates modulo `2 ^ 64`. -/
def strtoul (s : Text) : Nat :=
  let s := s.dropWhile isSpace
  let unsigned := if s.head? = some 43 ∨ s.head? = some 45 then s.tail else s
  let (base, digits) := detectBase unsigned
  let value := ofDigits base (digits.takeWhile (digitValue · < base))
  if ulongMax < value then ulongMax
  else if s.head? = some 45 then (2 ^ 64 - value) % 2 ^ 64
  else value

/-- `LONG_MAX` of a 64-bit long. -/
def longMax : Nat := 2 ^ 63 - 1

/-- `strtol(s, &end, 10)` and the text at `end`, which is all of it when there are no digits. -/
def strtol (s : Text) : Int × Text :=
  let sign := (s.dropWhile isSpace).head?
  let unsigned := if sign = some 43 ∨ sign = some 45 then (s.dropWhile isSpace).tail else s.dropWhile isSpace
  let value := decimalValue (unsigned.takeWhile isDigit)
  if unsigned.takeWhile isDigit = [] then (0, s)
  else
    (if sign = some 45 then -(min value (longMax + 1) : Nat) else (min value longMax : Nat),
      unsigned.dropWhile isDigit)

/-- The decimal text of a number. -/
def decimal (n : Nat) : Text := (Nat.toDigits 10 n).map fun c => c.toNat.toUInt8

@[simp] theorem ofDigits_nil (base : Nat) : ofDigits base [] = 0 := rfl

theorem ofDigits_append (base : Nat) (s : Text) (b : Byte) :
    ofDigits base (s ++ [b]) = base * ofDigits base s + digitValue b := by
  simp [ofDigits, List.foldl_append]

theorem digitValue_lt {b : Byte} (h : isDigit b) : digitValue b < 10 := by
  simp only [isDigit, decide_eq_true_eq] at h
  simp only [digitValue, h, and_self, ↓reduceIte]
  omega

theorem isDigit_iff (b : Byte) : isDigit b = true ↔ 48 ≤ b.toNat ∧ b.toNat ≤ 57 := by
  simp [isDigit]

/-- A digit is neither a blank nor a sign nor the letter of the prefix `0x`. -/
theorem digit_facts {b : Byte} (h : isDigit b) :
    isSpace b = false ∧ b ≠ 43 ∧ b ≠ 45 ∧ b ≠ 120 ∧ b ≠ 88 := by
  rw [isDigit_iff] at h
  refine ⟨?_, ?_, ?_, ?_, ?_⟩
  · simp only [isSpace, decide_eq_false_iff_not]; omega
  all_goals intro he; subst he; revert h; decide

theorem detectBase_digits {s : Text} (h : ∀ b ∈ s, isDigit b) :
    detectBase s = if s.head? = some 48 then (8, s) else (10, s) := by
  have hx : ¬ (s[1]? = some 120 ∨ s[1]? = some 88) := by
    rintro (he | he)
    · exact (digit_facts (h _ (List.mem_of_getElem? he))).2.2.2.1 rfl
    · exact (digit_facts (h _ (List.mem_of_getElem? he))).2.2.2.2 rfl
  simp only [detectBase, hx, false_and, ↓reduceIte]

theorem takeWhile_digits {s : Text} (h : ∀ b ∈ s, isDigit b) :
    s.takeWhile (digitValue · < 10) = s := by
  rw [List.takeWhile_eq_self_iff]
  intro b hb
  simpa using digitValue_lt (h b hb)

/-- On a digit string only the first digit decides between octal and decimal. -/
theorem strtoul_digits {s : Text} (h : ∀ b ∈ s, isDigit b) :
    strtoul s = min ulongMax (if s.head? = some 48 then octalValue s else decimalValue s) := by
  have hhead : ∀ b, s.head? = some b → isDigit b := fun b hb => h b (List.mem_of_mem_head? hb)
  have hspace : s.dropWhile isSpace = s := by
    cases s with
    | nil => rfl
    | cons b s => simp [(digit_facts (hhead b rfl)).1]
  have hplus : s.head? ≠ some 43 := fun he => (digit_facts (hhead _ he)).2.1 rfl
  have hminus : s.head? ≠ some 45 := fun he => (digit_facts (hhead _ he)).2.2.1 rfl
  simp only [strtoul, hspace, hplus, hminus, or_self, ↓reduceIte, detectBase_digits h]
  have hmin : ∀ v, (if ulongMax < v then ulongMax else v) = min ulongMax v := by
    intro v
    split <;> omega
  by_cases hz : s.head? = some 48
  · simp only [hz, ↓reduceIte, hmin, octalValue]
  · simp only [hz, ↓reduceIte, hmin, decimalValue, takeWhile_digits h]

/-- Stopping at the first non-octal digit and then appending one more digit. -/
theorem octalValue_append (s : Text) (b : Byte) :
    octalValue (s ++ [b]) =
      if s.all (digitValue · < 8) ∧ digitValue b < 8 then 8 * octalValue s + digitValue b
      else octalValue s := by
  simp only [octalValue]
  by_cases hs : s.all (digitValue · < 8)
  · have hall : ∀ a ∈ s, decide (digitValue a < 8) = true := by simpa using hs
    rw [List.takeWhile_append_of_pos hall, List.takeWhile_eq_self_iff.mpr hall]
    by_cases hb : digitValue b < 8
    · simp [hs, hb, ofDigits_append]
    · simp [hb]
  · have hcut : (s ++ [b]).takeWhile (digitValue · < 8) = s.takeWhile (digitValue · < 8) := by
      rw [List.takeWhile_append, if_neg]
      intro hl
      apply hs
      have he := (List.takeWhile_prefix (l := s) (digitValue · < 8)).eq_of_length hl
      simpa using List.takeWhile_eq_self_iff.mp he
    simp [hs, hcut]

/-- A digit string with a digit that is not octal is worth at least eight. -/
theorem decimalValue_ge_eight {s : Text} (h : ¬ s.all (digitValue · < 8)) : 8 ≤ decimalValue s := by
  induction s using List.reverseRecOn with
  | nil => simp at h
  | append_singleton s b ih =>
    rw [decimalValue, ofDigits_append]
    by_cases hs : s.all (digitValue · < 8)
    · have hb : 8 ≤ digitValue b := by
        by_contra hlt
        exact h (by simpa [List.all_append, hs] using hlt)
      omega
    · have := ih hs
      simp only [decimalValue] at this
      omega

/-- Reading octal never exceeds the decimal value, and agrees with it exactly on
the values with a single significant octal digit. -/
theorem octal_decimal (s : Text) :
    octalValue s ≤ decimalValue s ∧ (octalValue s = decimalValue s ↔ decimalValue s < 8) := by
  induction s using List.reverseRecOn with
  | nil => simp [octalValue, decimalValue]
  | append_singleton s b ih =>
    obtain ⟨hle, -⟩ := ih
    rw [octalValue_append]
    have hd : decimalValue (s ++ [b]) = 10 * decimalValue s + digitValue b := ofDigits_append 10 s b
    rw [hd]
    by_cases hs : s.all (digitValue · < 8)
    · by_cases hb : digitValue b < 8
      · simp only [hs, hb, and_self, ↓reduceIte]
        omega
      · simp only [hs, hb, and_false, ↓reduceIte]
        omega
    · have := decimalValue_ge_eight hs
      simp only [hs, false_and, Bool.false_eq_true, ↓reduceIte]
      omega

/-- The digit strings that `strtoul` reads as a decimal numeral below `ULONG_MAX`
or reports as out of range when the decimal value is. -/
def ReadsAsDecimal (s : Text) : Prop :=
  s.head? ≠ some 48 ∨ decimalValue s < 8 ∨ ulongMax ≤ octalValue s

instance (s : Text) : Decidable (ReadsAsDecimal s) :=
  inferInstanceAs (Decidable (s.head? ≠ some 48 ∨ decimalValue s < 8 ∨ ulongMax ≤ octalValue s))

theorem strtoul_eq_decimal_iff {s : Text} (h : ∀ b ∈ s, isDigit b) :
    strtoul s = min ulongMax (decimalValue s) ↔ ReadsAsDecimal s := by
  rw [strtoul_digits h, ReadsAsDecimal]
  obtain ⟨hle, heq⟩ := octal_decimal s
  by_cases hz : s.head? = some 48
  · simp only [hz, ↓reduceIte, ne_eq, not_true_eq_false, false_or, ← heq]
    omega
  · simp [hz]

/-- A decimal numeral without superfluous leading zeros. -/
def Plain (s : Text) : Prop := s.head? ≠ some 48 ∨ s = [48]

instance (s : Text) : Decidable (Plain s) := inferInstanceAs (Decidable (s.head? ≠ some 48 ∨ s = [48]))

theorem Plain.readsAsDecimal {s : Text} (h : Plain s) : ReadsAsDecimal s := by
  rcases h with h | h
  · exact .inl h
  · subst h; exact .inr (.inl (by decide))

theorem strtoul_plain {s : Text} (h : ∀ b ∈ s, isDigit b) (hp : Plain s) :
    strtoul s = min ulongMax (decimalValue s) :=
  (strtoul_eq_decimal_iff h).mpr hp.readsAsDecimal

theorem decimal_of_lt {n : Nat} (h : n < 10) : decimal n = [(48 + n).toUInt8] := by
  rw [decimal, Nat.toDigits_of_lt_base h]
  revert n
  decide

/-- The last digit comes off the end. -/
theorem decimal_of_ge {n : Nat} (h : 10 ≤ n) :
    decimal n = decimal (n / 10) ++ [(48 + n % 10).toUInt8] := by
  have hd : decimal (n % 10) = [(48 + n % 10).toUInt8] := decimal_of_lt (Nat.mod_lt _ (by omega))
  rw [decimal, Nat.toDigits_of_base_le (by omega) h, List.map_append, ← hd, decimal, decimal]
  rw [Nat.toDigits_of_lt_base (Nat.mod_lt n (by omega))]

theorem digit_byte {d : Nat} (h : d < 10) :
    isDigit (48 + d).toUInt8 ∧ digitValue (48 + d).toUInt8 = d := by
  revert d
  decide

theorem decimal_spec (n : Nat) :
    (∀ b ∈ decimal n, isDigit b) ∧ decimalValue (decimal n) = n := by
  induction n using Nat.strong_induction_on with
  | _ n ih =>
    by_cases h : n < 10
    · rw [decimal_of_lt h]
      have hb := digit_byte h
      constructor
      · intro b hb'; rw [List.mem_singleton] at hb'; subst hb'; exact hb.1
      · simpa only [decimalValue, ofDigits, List.foldl_cons, List.foldl_nil, Nat.mul_zero, Nat.zero_add]
          using hb.2
    · rw [decimal_of_ge (by omega)]
      obtain ⟨hdig, hval⟩ := ih (n / 10) (by omega)
      have hb := digit_byte (Nat.mod_lt n (show 0 < 10 by omega))
      constructor
      · intro b hb'
        rcases List.mem_append.mp hb' with hb' | hb'
        · exact hdig b hb'
        · rw [List.mem_singleton] at hb'; subst hb'; exact hb.1
      · rw [decimalValue, ofDigits_append]
        simp only [decimalValue] at hval
        omega

theorem decimal_length_le (n : Nat) : (decimal n).length ≤ max n 1 := by
  induction n using Nat.strong_induction_on with
  | _ n ih =>
    by_cases h : n < 10
    · rw [decimal_of_lt h, List.length_singleton]
      exact Nat.le_max_right n 1
    · have hle := ih (n / 10) (by omega)
      rw [decimal_of_ge (by omega), List.length_append, List.length_singleton]
      omega

theorem decimal_digits (n : Nat) : ∀ b ∈ decimal n, isDigit b := (decimal_spec n).1

end Numeral
