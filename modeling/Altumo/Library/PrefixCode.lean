import Mathlib.Data.List.Basic

/-!
# Prefix codes

An encoding whose decoder finds the end of a code word by itself. Concatenations
of code words are then decoded word by word, and two different sequences never
have the same encoding.
-/

namespace PrefixCode

structure Code (α β : Type) where
  encode : α → List β
  decode : List β → Option (α × List β)
  encode_ne_nil : ∀ a, encode a ≠ []
  decode_encode : ∀ a rest, decode (encode a ++ rest) = some (a, rest)

namespace Code

variable {α β : Type} (C : Code α β)

/-- The words in front of a text, until the decoder finds none, and what is left. -/
def decodeAll : (fuel : Nat) → List β → List α × List β
  | 0, t => ([], t)
  | fuel + 1, t =>
    match C.decode t with
    | none => ([], t)
    | some (a, rest) => (a :: (decodeAll fuel rest).1, (decodeAll fuel rest).2)

theorem length_le_flatMap (as : List α) : as.length ≤ (as.flatMap C.encode).length := by
  induction as with
  | nil => simp
  | cons a as ih =>
    have hpos := List.length_pos_of_ne_nil (C.encode_ne_nil a)
    simp only [List.length_cons, List.flatMap_cons, List.length_append]
    omega

/-- A sequence of words in front of a text without one is read back whole. -/
theorem decodeAll_encode (as : List α) {tail : List β} (htail : C.decode tail = none) {fuel : Nat}
    (hf : as.length < fuel) : C.decodeAll fuel (as.flatMap C.encode ++ tail) = (as, tail) := by
  induction as generalizing fuel with
  | nil =>
    obtain ⟨fuel, rfl⟩ : ∃ k, fuel = k + 1 := ⟨fuel - 1, by simp at hf; omega⟩
    simp [decodeAll, htail]
  | cons a as ih =>
    obtain ⟨fuel, rfl⟩ : ∃ k, fuel = k + 1 := ⟨fuel - 1, by simp at hf; omega⟩
    have hf' : as.length < fuel := by simpa using hf
    rw [List.flatMap_cons, List.append_assoc, decodeAll, C.decode_encode]
    simp only [ih hf']

/-- The decoder accepts nothing but code words. -/
def Exact : Prop := ∀ t a rest, C.decode t = some (a, rest) → t = C.encode a ++ rest

variable {C}

/-- What is decoded is what was encoded, and the rest has no word in front. -/
theorem Exact.decodeAll_eq (hC : C.Exact) {fuel : Nat} {t tail : List β} {as : List α}
    (h : C.decodeAll fuel t = (as, tail)) (hf : t.length < fuel) :
    t = as.flatMap C.encode ++ tail ∧ C.decode tail = none := by
  induction fuel generalizing t as with
  | zero => omega
  | succ fuel ih =>
    rw [decodeAll] at h
    cases hd : C.decode t with
    | none =>
      rw [hd] at h
      obtain ⟨rfl, rfl⟩ := Prod.mk.inj h
      exact ⟨rfl, hd⟩
    | some p =>
      obtain ⟨a, rest⟩ := p
      rw [hd] at h
      obtain ⟨rfl, hrest⟩ := Prod.mk.inj h
      have ht := hC t a rest hd
      have hpos := List.length_pos_of_ne_nil (C.encode_ne_nil a)
      have hlen : rest.length < fuel := by
        rw [ht, List.length_append] at hf
        omega
      obtain ⟨hr, htail⟩ := ih (show C.decodeAll fuel rest = (_, tail) from Prod.ext rfl hrest) hlen
      refine ⟨?_, htail⟩
      rw [List.flatMap_cons, List.append_assoc, ← hr]
      exact ht

/-- A text splits in one way only. -/
theorem Exact.decodeAll_eq_iff (hC : C.Exact) {fuel : Nat} {t tail : List β} {as : List α} (hf : t.length < fuel) :
    C.decodeAll fuel t = (as, tail) ↔ t = as.flatMap C.encode ++ tail ∧ C.decode tail = none := by
  constructor
  · exact fun h => hC.decodeAll_eq h hf
  · rintro ⟨rfl, htail⟩
    have hlen := C.length_le_flatMap as
    rw [List.length_append] at hf
    exact C.decodeAll_encode as htail (by omega)

/-- No proper beginning of a word has a word in front. -/
theorem Exact.decode_cut (hC : C.Exact) {a : α} {t : List β} (h : t <+: C.encode a) (hne : t ≠ C.encode a) :
    C.decode t = none := by
  cases hd : C.decode t with
  | none => rfl
  | some p =>
    obtain ⟨b, rest⟩ := p
    obtain ⟨more, hmore⟩ := h
    have hb := C.decode_encode b (rest ++ more)
    rw [← List.append_assoc, ← hC t b rest hd, hmore, ← List.append_nil (C.encode a), C.decode_encode] at hb
    have hnil : more = [] := (List.append_eq_nil_iff.mp (Prod.mk.inj (Option.some.inj hb)).2.symm).2
    rw [hnil, List.append_nil] at hmore
    exact absurd hmore hne

/-- The beginning of a sequence of words is whole words and then the beginning of one. -/
theorem exists_cut (as : List α) {t : List β} (h : t <+: as.flatMap C.encode) :
    ∃ m tail, t = (as.take m).flatMap C.encode ++ tail ∧
      (tail = [] ∨ ∃ a ∈ as, tail <+: C.encode a ∧ tail ≠ C.encode a) := by
  induction as generalizing t with
  | nil => exact ⟨0, [], List.prefix_nil.mp h, .inl rfl⟩
  | cons a as ih =>
    by_cases ha : C.encode a <+: t
    · obtain ⟨t', rfl⟩ := ha
      rw [List.flatMap_cons, List.prefix_append_right_inj] at h
      obtain ⟨m, tail, rfl, htail⟩ := ih h
      refine ⟨m + 1, tail, by simp, htail.imp_right ?_⟩
      rintro ⟨b, hb, hcut⟩
      exact ⟨b, List.mem_cons_of_mem _ hb, hcut⟩
    · have hcut : t <+: C.encode a :=
        (List.prefix_or_prefix_of_prefix h (List.prefix_append _ _)).resolve_right ha
      exact ⟨0, t, rfl, .inr ⟨a, List.mem_cons_self, hcut, fun heq => ha (heq ▸ List.prefix_rfl)⟩⟩

end Code

end PrefixCode
