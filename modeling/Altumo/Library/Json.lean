import Mathlib.Algebra.GroupWithZero.Nat
import Mathlib.Data.List.Basic

/-!
# JSON texts

A parser of the JSON grammar over characters. Strings are sequences of code points,
so that an escape may name half of a surrogate pair. The parser is given two levels for
every character of the text, which is always enough. An object whose members are strings
takes at least the characters of its names and values and of the marks between them,
and exactly so many only when no string is written with an escape.
-/

namespace Json

inductive Value where
  | null : Value
  | bool : Bool → Value
  | number : List Char → Value
  | string : List Nat → Value
  | array : List Value → Value
  | object : List (List Nat × Value) → Value

abbrev Member := List Nat × Value

def codePoints (cs : List Char) : List Nat := cs.map Char.toNat

def isWs (c : Char) : Bool := c = ' ' || c = '\t' || c = '\n' || c = '\r'

/-- The rest of the text after white space and one given mark. -/
def token (c : Char) (cs : List Char) : Option (List Char) :=
  match cs.dropWhile isWs with
  | d :: rest => if d = c then some rest else none
  | [] => none

def simpleEscape (e : Char) : Option Nat :=
  if e = '"' ∨ e = '\\' ∨ e = '/' then some e.toNat
  else if e = 'b' then some 8
  else if e = 'f' then some 12
  else if e = 'n' then some 10
  else if e = 'r' then some 13
  else if e = 't' then some 9
  else none

def hexDigit (c : Char) : Option Nat :=
  if '0' ≤ c ∧ c ≤ '9' then some (c.toNat - 48)
  else if 'a' ≤ c ∧ c ≤ 'f' then some (c.toNat - 87)
  else if 'A' ≤ c ∧ c ≤ 'F' then some (c.toNat - 55)
  else none

def hexUnit (a b c d : Char) : Option Nat := do
  let a ← hexDigit a
  let b ← hexDigit b
  let c ← hexDigit c
  let d ← hexDigit d
  some (((16 * a + b) * 16 + c) * 16 + d)

/-- The units of a string behind its opening quote, and the text behind its closing one. -/
def scan : List Char → Option (List Nat × List Char)
  | [] => none
  | c :: rest =>
    if c = '"' then some ([], rest)
    else if c = '\\' then
      match rest with
      | 'u' :: a :: b :: c :: d :: rest => do
        let unit ← hexUnit a b c d
        let (units, rest) ← scan rest
        some (unit :: units, rest)
      | e :: rest => do
        let unit ← simpleEscape e
        let (units, rest) ← scan rest
        some (unit :: units, rest)
      | [] => none
    else if c.toNat < 32 then none
    else do
      let (units, rest) ← scan rest
      some (c.toNat :: units, rest)

def isHighSurrogate (u : Nat) : Bool := decide (0xD800 ≤ u ∧ u < 0xDC00)

def isLowSurrogate (u : Nat) : Bool := decide (0xDC00 ≤ u ∧ u < 0xE000)

/-- Two escaped halves of a surrogate pair are one code point. -/
def joinSurrogates : List Nat → List Nat
  | u :: v :: rest =>
    if isHighSurrogate u && isLowSurrogate v then
      (0x10000 + (u - 0xD800) * 0x400 + (v - 0xDC00)) :: joinSurrogates rest
    else u :: joinSurrogates (v :: rest)
  | units => units

def scanString (cs : List Char) : Option (List Nat × List Char) :=
  (scan cs).map fun (units, rest) => (joinSurrogates units, rest)

def isDigit (c : Char) : Bool := decide ('0' ≤ c ∧ c ≤ '9')

/-- One digit or more. -/
def digits (cs : List Char) : Option (List Char × List Char) :=
  if cs.takeWhile isDigit = [] then none else some (cs.takeWhile isDigit, cs.dropWhile isDigit)

def integer : List Char → Option (List Char × List Char)
  | '0' :: rest => some (['0'], rest)
  | cs => digits cs

def fraction : List Char → Option (List Char × List Char)
  | '.' :: rest => (digits rest).map fun (ds, rest) => ('.' :: ds, rest)
  | cs => some ([], cs)

def exponentSign : List Char → List Char × List Char
  | '+' :: rest => (['+'], rest)
  | '-' :: rest => (['-'], rest)
  | cs => ([], cs)

def exponent : List Char → Option (List Char × List Char)
  | c :: rest =>
    if c = 'e' ∨ c = 'E' then
      (digits (exponentSign rest).2).map fun (ds, rest') => (c :: (exponentSign rest).1 ++ ds, rest')
    else some ([], c :: rest)
  | [] => some ([], [])

def unsignedNumber (cs : List Char) : Option (List Char × List Char) := do
  let (i, cs) ← integer cs
  let (f, cs) ← fraction cs
  let (e, cs) ← exponent cs
  some (i ++ f ++ e, cs)

def number : List Char → Option (List Char × List Char)
  | '-' :: rest => (unsignedNumber rest).map fun (n, rest) => ('-' :: n, rest)
  | cs => unsignedNumber cs

/-- A number or one of the three names. -/
def scalar (cs : List Char) : Option (Value × List Char) :=
  match cs.dropWhile isWs with
  | 'n' :: 'u' :: 'l' :: 'l' :: rest => some (.null, rest)
  | 't' :: 'r' :: 'u' :: 'e' :: rest => some (.bool true, rest)
  | 'f' :: 'a' :: 'l' :: 's' :: 'e' :: rest => some (.bool false, rest)
  | cs => (number cs).map fun (n, rest) => (.number n, rest)

mutual

/-- A value in front of the text, within `fuel` levels. -/
def parseValue : (fuel : Nat) → List Char → Option (Value × List Char)
  | 0, _ => none
  | fuel + 1, cs =>
    match token '"' cs with
    | some rest => (scanString rest).map fun (s, rest) => (.string s, rest)
    | none =>
      match token '{' cs with
      | some rest =>
        match token '}' rest with
        | some rest => some (.object [], rest)
        | none => (parseMembers fuel rest).map fun (ms, rest) => (.object ms, rest)
      | none =>
        match token '[' cs with
        | some rest =>
          match token ']' rest with
          | some rest => some (.array [], rest)
          | none => (parseItems fuel rest).map fun (vs, rest) => (.array vs, rest)
        | none => scalar cs

def parseMembers : (fuel : Nat) → List Char → Option (List Member × List Char)
  | 0, _ => none
  | fuel + 1, cs => do
    let cs ← token '"' cs
    let (name, cs) ← scanString cs
    let cs ← token ':' cs
    let (value, cs) ← parseValue fuel cs
    match token ',' cs with
    | some cs => do
      let (ms, cs) ← parseMembers fuel cs
      some ((name, value) :: ms, cs)
    | none => do
      let cs ← token '}' cs
      some ([(name, value)], cs)

def parseItems : (fuel : Nat) → List Char → Option (List Value × List Char)
  | 0, _ => none
  | fuel + 1, cs => do
    let (value, cs) ← parseValue fuel cs
    match token ',' cs with
    | some cs => do
      let (vs, cs) ← parseItems fuel cs
      some (value :: vs, cs)
    | none => do
      let cs ← token ']' cs
      some ([value], cs)

end

/-- A text that is one value. -/
def parse (cs : List Char) : Option Value :=
  match parseValue (2 * cs.length) cs with
  | some (v, rest) => if rest.dropWhile isWs = [] then some v else none
  | none => none

theorem dropWhile_length_le (p : Char → Bool) (cs : List Char) : (cs.dropWhile p).length ≤ cs.length :=
  (List.dropWhile_sublist p).length_le

theorem token_length {c : Char} {cs rest : List Char} (h : token c cs = some rest) :
    rest.length < cs.length := by
  have hle := dropWhile_length_le isWs cs
  rw [token] at h
  split at h
  · rename_i d tail hd
    split at h
    · cases h
      rw [hd, List.length_cons] at hle
      exact hle
    · cases h
  · cases h

theorem token_self {c : Char} (hc : isWs c = false) (rest : List Char) : token c (c :: rest) = some rest := by
  simp [token, hc]

theorem token_other {c d : Char} (hd : isWs d = false) (h : d ≠ c) (rest : List Char) :
    token c (d :: rest) = none := by
  simp [token, hd, h]

/-- A code point that a string may hold without an escape. -/
def Plain (u : Nat) : Prop := 32 ≤ u ∧ u ≠ 34 ∧ u ≠ 92

/-- Every unit takes a character, and takes only one when it is written without an escape. -/
theorem scan_size {cs rest : List Char} {units : List Nat} (h : scan cs = some (units, rest)) :
    units.length + 1 + rest.length ≤ cs.length ∧
      (units.length + 1 + rest.length = cs.length → ∀ u ∈ units, Plain u) := by
  fun_induction scan cs generalizing units with
  | case1 => cases h
  | case2 rest' =>
    cases h
    simp only [List.length_nil, List.length_cons, List.not_mem_nil, false_implies, implies_true, and_true]
    omega
  | case3 a b c d rest' _ ih =>
    simp only [Option.bind_eq_bind, Option.bind_eq_some_iff, Option.some.injEq, Prod.mk.injEq, Prod.exists] at h
    obtain ⟨unit, -, units', rest'', hs, rfl, rfl⟩ := h
    have := (ih hs).1
    simp only [List.length_cons]
    omega
  | case4 e rest' _ _ ih =>
    simp only [Option.bind_eq_bind, Option.bind_eq_some_iff, Option.some.injEq, Prod.mk.injEq, Prod.exists] at h
    obtain ⟨unit, -, units', rest'', hs, rfl, rfl⟩ := h
    have := (ih hs).1
    simp only [List.length_cons]
    omega
  | case5 => cases h
  | case6 => cases h
  | case7 c rest' hquote hslash hcontrol ih =>
    simp only [Option.bind_eq_bind, Option.bind_eq_some_iff, Option.some.injEq, Prod.mk.injEq, Prod.exists] at h
    obtain ⟨units', rest'', hs, rfl, rfl⟩ := h
    obtain ⟨hle, hplain⟩ := ih hs
    simp only [List.length_cons, List.forall_mem_cons]
    refine ⟨by omega, ?_⟩
    intro he
    refine ⟨⟨by omega, ?_, ?_⟩, hplain (by omega)⟩
    · exact fun heq => hquote (Char.toNat_inj.mp heq)
    · exact fun heq => hslash (Char.toNat_inj.mp heq)

theorem joinSurrogates_size (units : List Nat) : (joinSurrogates units).length ≤ units.length ∧
    ((joinSurrogates units).length = units.length → joinSurrogates units = units) := by
  fun_induction joinSurrogates units with
  | case1 u v rest _ ih =>
    simp only [List.length_cons]
    omega
  | case2 u v rest _ ih =>
    simp only [List.length_cons] at ih ⊢
    refine ⟨by omega, ?_⟩
    intro he
    rw [ih.2 (by omega)]
  | case3 => exact ⟨Nat.le_refl _, fun _ => rfl⟩

theorem scanString_size {cs rest : List Char} {s : List Nat} (h : scanString cs = some (s, rest)) :
    s.length + 1 + rest.length ≤ cs.length ∧
      (s.length + 1 + rest.length = cs.length → ∀ u ∈ s, Plain u) := by
  simp only [scanString, Option.map_eq_some_iff, Prod.mk.injEq, Prod.exists] at h
  obtain ⟨units, rest', hs, rfl, rfl⟩ := h
  obtain ⟨hle, hplain⟩ := scan_size hs
  obtain ⟨hjle, hjoin⟩ := joinSurrogates_size units
  refine ⟨by omega, ?_⟩
  intro he
  rw [hjoin (by omega)]
  exact hplain (by omega)

theorem digits_length {cs ds rest : List Char} (h : digits cs = some (ds, rest)) :
    rest.length < cs.length := by
  rw [digits] at h
  split at h
  · cases h
  · rename_i hne
    cases h
    have hsplit := congrArg List.length (List.takeWhile_append_dropWhile (p := isDigit) (l := cs))
    rw [List.length_append] at hsplit
    have := List.length_pos_iff.mpr hne
    omega

theorem integer_length {cs i rest : List Char} (h : integer cs = some (i, rest)) : rest.length < cs.length := by
  rw [integer.eq_def] at h
  split at h
  · cases h
    simp
  · exact digits_length h

theorem fraction_length {cs f rest : List Char} (h : fraction cs = some (f, rest)) : rest.length ≤ cs.length := by
  rw [fraction.eq_def] at h
  split at h
  · simp only [Option.map_eq_some_iff, Prod.mk.injEq, Prod.exists] at h
    obtain ⟨ds, r, hd, -, rfl⟩ := h
    have := digits_length hd
    simp only [List.length_cons]
    omega
  · cases h
    exact Nat.le_refl _

theorem exponentSign_length (cs : List Char) : (exponentSign cs).2.length ≤ cs.length := by
  rw [exponentSign.eq_def]
  split <;> simp

theorem exponent_length {cs e rest : List Char} (h : exponent cs = some (e, rest)) : rest.length ≤ cs.length := by
  rw [exponent.eq_def] at h
  split at h
  · rename_i c tail
    split at h
    · simp only [Option.map_eq_some_iff, Prod.mk.injEq, Prod.exists] at h
      obtain ⟨ds, r, hd, -, rfl⟩ := h
      have := digits_length hd
      have := exponentSign_length tail
      simp only [List.length_cons]
      omega
    · cases h
      exact Nat.le_refl _
  · cases h
    exact Nat.le_refl _

theorem unsignedNumber_length {cs n rest : List Char} (h : unsignedNumber cs = some (n, rest)) :
    rest.length < cs.length := by
  simp only [unsignedNumber, Option.bind_eq_bind, Option.bind_eq_some_iff, Option.some.injEq, Prod.mk.injEq,
    Prod.exists] at h
  obtain ⟨i, r₁, hi, f, r₂, hf, e, r₃, he, -, rfl⟩ := h
  have := integer_length hi
  have := fraction_length hf
  have := exponent_length he
  omega

theorem number_length {cs n rest : List Char} (h : number cs = some (n, rest)) : rest.length < cs.length := by
  rw [number.eq_def] at h
  split at h
  · simp only [Option.map_eq_some_iff, Prod.mk.injEq, Prod.exists] at h
    obtain ⟨ds, r, hd, -, rfl⟩ := h
    have := unsignedNumber_length hd
    simp only [List.length_cons]
    omega
  · exact unsignedNumber_length h

theorem scalar_length {cs rest : List Char} {v : Value} (h : scalar cs = some (v, rest)) :
    rest.length < cs.length := by
  have hle := dropWhile_length_le isWs cs
  rw [scalar.eq_def] at h
  split at h
  · rename_i he
    cases h
    rw [he] at hle
    simp only [List.length_cons] at hle
    omega
  · rename_i he
    cases h
    rw [he] at hle
    simp only [List.length_cons] at hle
    omega
  · rename_i he
    cases h
    rw [he] at hle
    simp only [List.length_cons] at hle
    omega
  · simp only [Option.map_eq_some_iff, Prod.mk.injEq, Prod.exists] at h
    obtain ⟨n, r, hn, -, rfl⟩ := h
    have := number_length hn
    omega

/-- What a parser finds within some levels takes characters, and is found whenever
there are two levels for each character of the text and `extra` more. -/
def Settled {α : Type} (p : Nat → List Char → Option (α × List Char)) (extra fuel : Nat) : Prop :=
  ∀ cs a rest, p fuel cs = some (a, rest) →
    rest.length < cs.length ∧ ∀ g, 2 * cs.length + extra ≤ g → p g cs = some (a, rest)

theorem parseValue_settled {fuel : Nat} (hmembers : Settled parseMembers 1 fuel)
    (hitems : Settled parseItems 1 fuel) : Settled parseValue 0 (fuel + 1) := by
  intro cs v rest h
  -- A text that is found in is not empty, so the levels reach the first step.
  have hstep : ∀ {P : Nat → Prop} {n : Nat}, n < cs.length → (∀ g, 2 * n + 1 ≤ g → P (g + 1)) →
      ∀ g, 2 * cs.length + 0 ≤ g → P g := by
    intro P n hn hP g hg
    obtain ⟨g, rfl⟩ := Nat.exists_eq_succ_of_ne_zero (show g ≠ 0 by omega)
    exact hP g (by omega)
  rw [parseValue] at h
  cases hquote : token '"' cs with
  | some cs₁ =>
    simp only [hquote] at h
    have h₁ := token_length hquote
    simp only [Option.map_eq_some_iff, Prod.mk.injEq, Prod.exists] at h
    obtain ⟨s, cs₂, hs, rfl, rfl⟩ := h
    have := (scanString_size hs).1
    refine ⟨by omega, hstep h₁ fun g _ => ?_⟩
    rw [parseValue]
    simp only [hquote, hs, Option.map_some]
  | none =>
    cases hbrace : token '{' cs with
    | some cs₁ =>
      have h₁ := token_length hbrace
      cases hclose : token '}' cs₁ with
      | some cs₂ =>
        simp only [hquote, hbrace, hclose] at h
        cases h
        have := token_length hclose
        refine ⟨by omega, hstep h₁ fun g _ => ?_⟩
        rw [parseValue]
        simp only [hquote, hbrace, hclose]
      | none =>
        simp only [hquote, hbrace, hclose] at h
        simp only [Option.map_eq_some_iff, Prod.mk.injEq, Prod.exists] at h
        obtain ⟨ms, cs₂, hm, rfl, rfl⟩ := h
        obtain ⟨hlt, hall⟩ := hmembers _ _ _ hm
        refine ⟨by omega, hstep h₁ fun g hg => ?_⟩
        rw [parseValue]
        simp only [hquote, hbrace, hclose, hall g hg, Option.map_some]
    | none =>
      cases hbracket : token '[' cs with
      | some cs₁ =>
        have h₁ := token_length hbracket
        cases hclose : token ']' cs₁ with
        | some cs₂ =>
          simp only [hquote, hbrace, hbracket, hclose] at h
          cases h
          have := token_length hclose
          refine ⟨by omega, hstep h₁ fun g _ => ?_⟩
          rw [parseValue]
          simp only [hquote, hbrace, hbracket, hclose]
        | none =>
          simp only [hquote, hbrace, hbracket, hclose] at h
          simp only [Option.map_eq_some_iff, Prod.mk.injEq, Prod.exists] at h
          obtain ⟨vs, cs₂, hv, rfl, rfl⟩ := h
          obtain ⟨hlt, hall⟩ := hitems _ _ _ hv
          refine ⟨by omega, hstep h₁ fun g hg => ?_⟩
          rw [parseValue]
          simp only [hquote, hbrace, hbracket, hclose, hall g hg, Option.map_some]
      | none =>
        simp only [hquote, hbrace, hbracket] at h
        refine ⟨scalar_length h, hstep (scalar_length h) fun g _ => ?_⟩
        rw [parseValue]
        simp only [hquote, hbrace, hbracket, h]

theorem parseMembers_settled {fuel : Nat} (hvalue : Settled parseValue 0 fuel)
    (hmembers : Settled parseMembers 1 fuel) : Settled parseMembers 1 (fuel + 1) := by
  intro cs ms rest h
  rw [parseMembers] at h
  simp only [Option.bind_eq_bind, Option.bind_eq_some_iff, Prod.exists] at h
  obtain ⟨cs₁, hquote, name, cs₂, hname, cs₃, hcolon, value, cs₄, hval, h⟩ := h
  have h₁ := token_length hquote
  have h₂ := (scanString_size hname).1
  have h₃ := token_length hcolon
  obtain ⟨h₄, hvalue⟩ := hvalue _ _ _ hval
  cases hcomma : token ',' cs₄ with
  | some cs₅ =>
    simp only [hcomma, Option.bind_eq_some_iff, Prod.exists, Option.some.injEq, Prod.mk.injEq] at h
    obtain ⟨ms', cs₆, hm, rfl, rfl⟩ := h
    have h₅ := token_length hcomma
    obtain ⟨h₆, hmembers⟩ := hmembers _ _ _ hm
    refine ⟨by omega, fun g hg => ?_⟩
    obtain ⟨g, rfl⟩ := Nat.exists_eq_succ_of_ne_zero (show g ≠ 0 by omega)
    rw [parseMembers]
    simp only [Option.bind_eq_bind, hquote, Option.bind_some, hname, hcolon, hvalue g (by omega), hcomma,
      hmembers g (by omega)]
  | none =>
    simp only [hcomma, Option.bind_eq_some_iff, Option.some.injEq, Prod.mk.injEq] at h
    obtain ⟨cs₅, hclose, rfl, rfl⟩ := h
    have h₅ := token_length hclose
    refine ⟨by omega, fun g hg => ?_⟩
    obtain ⟨g, rfl⟩ := Nat.exists_eq_succ_of_ne_zero (show g ≠ 0 by omega)
    rw [parseMembers]
    simp only [Option.bind_eq_bind, hquote, Option.bind_some, hname, hcolon, hvalue g (by omega), hcomma, hclose]

theorem parseItems_settled {fuel : Nat} (hvalue : Settled parseValue 0 fuel)
    (hitems : Settled parseItems 1 fuel) : Settled parseItems 1 (fuel + 1) := by
  intro cs vs rest h
  rw [parseItems] at h
  simp only [Option.bind_eq_bind, Option.bind_eq_some_iff, Prod.exists] at h
  obtain ⟨value, cs₁, hval, h⟩ := h
  obtain ⟨h₁, hvalue⟩ := hvalue _ _ _ hval
  cases hcomma : token ',' cs₁ with
  | some cs₂ =>
    simp only [hcomma, Option.bind_eq_some_iff, Prod.exists, Option.some.injEq, Prod.mk.injEq] at h
    obtain ⟨vs', cs₃, hm, rfl, rfl⟩ := h
    have h₂ := token_length hcomma
    obtain ⟨h₃, hitems⟩ := hitems _ _ _ hm
    refine ⟨by omega, fun g hg => ?_⟩
    obtain ⟨g, rfl⟩ := Nat.exists_eq_succ_of_ne_zero (show g ≠ 0 by omega)
    rw [parseItems]
    simp only [Option.bind_eq_bind, hvalue g (by omega), Option.bind_some, hcomma, hitems g (by omega)]
  | none =>
    simp only [hcomma, Option.bind_eq_some_iff, Option.some.injEq, Prod.mk.injEq] at h
    obtain ⟨cs₂, hclose, rfl, rfl⟩ := h
    have h₂ := token_length hclose
    refine ⟨by omega, fun g hg => ?_⟩
    obtain ⟨g, rfl⟩ := Nat.exists_eq_succ_of_ne_zero (show g ≠ 0 by omega)
    rw [parseItems]
    simp only [Option.bind_eq_bind, hvalue g (by omega), Option.bind_some, hcomma, hclose]

theorem all_settled (fuel : Nat) :
    Settled parseValue 0 fuel ∧ Settled parseMembers 1 fuel ∧ Settled parseItems 1 fuel := by
  induction fuel with
  | zero =>
    refine ⟨?_, ?_, ?_⟩
    · intro cs v rest h
      rw [parseValue] at h
      cases h
    · intro cs v rest h
      rw [parseMembers] at h
      cases h
    · intro cs v rest h
      rw [parseItems] at h
      cases h
  | succ fuel ih =>
    obtain ⟨hvalue, hmembers, hitems⟩ := ih
    exact ⟨parseValue_settled hmembers hitems, parseMembers_settled hvalue hmembers,
      parseItems_settled hvalue hitems⟩

/-- The levels that `parse` allows are enough. -/
theorem parse_complete {fuel : Nat} {cs rest : List Char} {v : Value}
    (h : parseValue fuel cs = some (v, rest)) (hrest : rest.dropWhile isWs = []) : parse cs = some v := by
  simp only [parse, ((all_settled fuel).1 cs v rest h).2 (2 * cs.length) (Nat.le_refl _), hrest, ↓reduceIte]

theorem scalar_cases {cs rest : List Char} {v : Value} (h : scalar cs = some (v, rest)) :
    (∀ s, v ≠ .string s) ∧ ∀ ms, v ≠ .object ms := by
  rw [scalar.eq_def] at h
  split at h
  · cases h
    simp
  · cases h
    simp
  · cases h
    simp
  · simp only [Option.map_eq_some_iff, Prod.mk.injEq, Prod.exists] at h
    obtain ⟨n, r, -, rfl, -⟩ := h
    simp

theorem parseValue_string {fuel : Nat} {cs rest : List Char} {s : List Nat}
    (h : parseValue fuel cs = some (.string s, rest)) :
    ∃ cs', token '"' cs = some cs' ∧ scanString cs' = some (s, rest) := by
  cases fuel with
  | zero =>
    rw [parseValue] at h
    cases h
  | succ fuel =>
    rw [parseValue] at h
    split at h
    · rename_i cs' hquote
      simp only [Option.map_eq_some_iff, Prod.mk.injEq, Prod.exists, Value.string.injEq] at h
      obtain ⟨s', cs₂, hs, rfl, rfl⟩ := h
      exact ⟨cs', hquote, hs⟩
    · split at h
      · split at h
        · cases h
        · simp at h
      · split at h
        · split at h
          · cases h
          · simp at h
        · exact absurd rfl ((scalar_cases h).1 s)

theorem parseValue_object {fuel : Nat} {cs rest : List Char} {ms : List Member}
    (h : parseValue fuel cs = some (.object ms, rest)) :
    ∃ cs', token '{' cs = some cs' ∧ (ms = [] ∨ ∃ fuel', parseMembers fuel' cs' = some (ms, rest)) := by
  cases fuel with
  | zero =>
    rw [parseValue] at h
    cases h
  | succ fuel =>
    rw [parseValue] at h
    split at h
    · simp at h
    · split at h
      · rename_i cs' hbrace
        split at h
        · cases h
          exact ⟨cs', hbrace, .inl rfl⟩
        · simp only [Option.map_eq_some_iff, Prod.mk.injEq, Prod.exists, Value.object.injEq] at h
          obtain ⟨ms', cs₂, hm, rfl, rfl⟩ := h
          exact ⟨cs', hbrace, .inr ⟨fuel, hm⟩⟩
      · split at h
        · split at h
          · cases h
          · simp at h
        · exact absurd rfl ((scalar_cases h).2 ms)

/-- The characters that a member with a string value takes at least, with the mark behind it. -/
def Member.size (m : Member) : Nat :=
  match m.2 with
  | .string s => m.1.length + s.length + 6
  | _ => m.1.length + 6

/-- A member whose name and value are strings that need no escape. -/
def Member.Plain (m : Member) : Prop :=
  ∃ s, m.2 = .string s ∧ (∀ u ∈ m.1, Json.Plain u) ∧ ∀ u ∈ s, Json.Plain u

def sizes (ms : List Member) : Nat := (ms.map Member.size).sum

theorem parseMembers_size {fuel : Nat} {cs rest : List Char} {ms : List Member}
    (h : parseMembers fuel cs = some (ms, rest)) (hs : ∀ m ∈ ms, ∃ s, m.2 = .string s) :
    sizes ms + rest.length ≤ cs.length ∧ (sizes ms + rest.length = cs.length → ∀ m ∈ ms, m.Plain) := by
  induction fuel generalizing cs ms with
  | zero =>
    rw [parseMembers] at h
    cases h
  | succ fuel ih =>
    rw [parseMembers] at h
    simp only [Option.bind_eq_bind, Option.bind_eq_some_iff, Prod.exists] at h
    obtain ⟨cs₁, hquote, name, cs₂, hname, cs₃, hcolon, value, cs₄, hval, h⟩ := h
    have hone := token_length hquote
    have hcol := token_length hcolon
    obtain ⟨hnle, hnplain⟩ := scanString_size hname
    have hfirst : ∀ s, value = .string s → ∃ cs₅, token '"' cs₃ = some cs₅ ∧ scanString cs₅ = some (s, cs₄) := by
      rintro s rfl
      exact parseValue_string hval
    cases hcomma : token ',' cs₄ with
    | some cs₅ =>
      simp only [hcomma, Option.bind_eq_some_iff, Prod.exists, Option.some.injEq, Prod.mk.injEq] at h
      obtain ⟨ms', cs₆, hm, rfl, rfl⟩ := h
      rw [List.forall_mem_cons] at hs
      obtain ⟨⟨s, hv⟩, hs⟩ := hs
      obtain ⟨cs₇, hopen, hscan⟩ := hfirst s hv
      obtain ⟨hvle, hvplain⟩ := scanString_size hscan
      have hq := token_length hopen
      have hc := token_length hcomma
      obtain ⟨hle, hplain⟩ := ih hm hs
      simp only at hv
      simp only [sizes, List.map_cons, List.sum_cons, Member.size, hv] at hle hplain ⊢
      refine ⟨by omega, ?_⟩
      intro he m hmem
      rcases List.mem_cons.mp hmem with rfl | hmem
      · exact ⟨s, rfl, hnplain (by omega), hvplain (by omega)⟩
      · exact hplain (by omega) m hmem
    | none =>
      simp only [hcomma, Option.bind_eq_some_iff, Option.some.injEq, Prod.mk.injEq] at h
      obtain ⟨cs₅, hclose, rfl, rfl⟩ := h
      obtain ⟨s, hv⟩ := hs _ (List.mem_singleton_self _)
      obtain ⟨cs₇, hopen, hscan⟩ := hfirst s hv
      obtain ⟨hvle, hvplain⟩ := scanString_size hscan
      have hq := token_length hopen
      have hc := token_length hclose
      simp only at hv
      simp only [sizes, List.map_cons, List.map_nil, List.sum_cons, List.sum_nil, Member.size, hv]
      refine ⟨by omega, ?_⟩
      intro he m hmem
      rw [List.mem_singleton] at hmem
      subst hmem
      exact ⟨s, rfl, hnplain (by omega), hvplain (by omega)⟩

/-- An object of strings that takes no more than the characters of its members is
written without escapes. -/
theorem parse_object_plain {cs : List Char} {ms : List Member} (h : parse cs = some (.object ms))
    (hs : ∀ m ∈ ms, ∃ s, m.2 = .string s) (hle : cs.length ≤ 1 + sizes ms) : ∀ m ∈ ms, m.Plain := by
  rw [parse] at h
  split at h
  · rename_i v rest hv
    split at h
    · cases h
      obtain ⟨cs', hbrace, rfl | ⟨fuel, hm⟩⟩ := parseValue_object hv
      · simp
      · have := token_length hbrace
        obtain ⟨hsize, hplain⟩ := parseMembers_size hm hs
        exact hplain (by omega)
    · cases h
  · cases h

theorem scan_quote (rest : List Char) : scan ('"' :: rest) = some ([], rest) := by
  rw [scan.eq_def]
  simp

theorem scan_cons_plain {c : Char} (h : Plain c.toNat) (rest : List Char) :
    scan (c :: rest) = (scan rest).map fun (units, rest) => (c.toNat :: units, rest) := by
  obtain ⟨hcontrol, hquote, hslash⟩ := h
  have hq : c ≠ '"' := by
    rintro rfl
    exact hquote rfl
  have hs : c ≠ '\\' := by
    rintro rfl
    exact hslash rfl
  rw [scan.eq_def]
  simp only [hq, hs, Nat.not_lt.mpr hcontrol, ↓reduceIte]
  cases scan rest <;> rfl

theorem scan_plain {v : List Char} (h : ∀ c ∈ v, Plain c.toNat) (rest : List Char) :
    scan (v ++ '"' :: rest) = some (codePoints v, rest) := by
  induction v with
  | nil => exact scan_quote rest
  | cons c v ih =>
    rw [List.forall_mem_cons] at h
    rw [List.cons_append, scan_cons_plain h.1, ih h.2]
    rfl

theorem not_isHighSurrogate (c : Char) : isHighSurrogate c.toNat = false := by
  have hv := c.valid
  simp only [UInt32.isValidChar, Nat.isValidChar] at hv
  simp only [isHighSurrogate, Char.toNat, decide_eq_false_iff_not]
  omega

/-- Characters are no halves of surrogate pairs. -/
theorem joinSurrogates_codePoints (v : List Char) : joinSurrogates (codePoints v) = codePoints v := by
  induction v with
  | nil => rfl
  | cons c v ih =>
    cases v with
    | nil => rfl
    | cons d v =>
      simp only [codePoints, List.map_cons] at ih ⊢
      rw [joinSurrogates, not_isHighSurrogate, Bool.false_and, if_neg Bool.false_ne_true, ih]

theorem scanString_plain {v : List Char} (h : ∀ c ∈ v, Plain c.toNat) (rest : List Char) :
    scanString (v ++ '"' :: rest) = some (codePoints v, rest) := by
  simp only [scanString, scan_plain h, Option.map_some, joinSurrogates_codePoints]

/-- A member written without white space and without escapes, in front of a text. -/
def memberChars (m : List Char × List Char) (rest : List Char) : List Char :=
  '"' :: (m.1 ++ '"' :: ':' :: '"' :: (m.2 ++ '"' :: rest))

/-- The further members of an object, and its end. -/
def objectRest : List (List Char × List Char) → List Char
  | [] => ['}']
  | m :: ms => ',' :: memberChars m (objectRest ms)

def objectText : List (List Char × List Char) → List Char
  | [] => ['{', '}']
  | m :: ms => '{' :: memberChars m (objectRest ms)

def memberOf (m : List Char × List Char) : Member := (codePoints m.1, .string (codePoints m.2))

theorem objectText_length {ms : List (List Char × List Char)} (h : ms ≠ []) :
    (objectText ms).length = 1 + sizes (ms.map memberOf) := by
  have hmember : ∀ m rest, (memberChars m rest).length = m.1.length + m.2.length + 5 + rest.length := by
    intro m rest
    simp only [memberChars, List.length_cons, List.length_append]
    omega
  have hrest : ∀ ms, (objectRest ms).length = 1 + sizes (ms.map memberOf) := by
    intro ms
    induction ms with
    | nil => rfl
    | cons m ms ih =>
      simp only [objectRest, List.length_cons, hmember, ih, sizes, List.map_cons, List.sum_cons, memberOf,
        Member.size, codePoints, List.length_map]
      omega
  cases ms with
  | nil => exact absurd rfl h
  | cons m ms =>
    simp only [objectText, List.length_cons, hmember, hrest, sizes, List.map_cons, List.sum_cons, memberOf,
      Member.size, codePoints, List.length_map]
    omega

theorem parseMembers_objectRest {m : List Char × List Char} {ms : List (List Char × List Char)}
    (h : ∀ n ∈ m :: ms, (∀ c ∈ n.1, Plain c.toNat) ∧ ∀ c ∈ n.2, Plain c.toNat) :
    parseMembers (ms.length + 2) (memberChars m (objectRest ms)) = some ((m :: ms).map memberOf, []) := by
  have hquote : isWs '"' = false := by decide
  have hvalue : ∀ {v : List Char}, (∀ c ∈ v, Plain c.toNat) → ∀ fuel rest,
      parseValue (fuel + 1) ('"' :: (v ++ '"' :: rest)) = some (.string (codePoints v), rest) := by
    intro v hv fuel rest
    rw [parseValue]
    simp only [token_self hquote, scanString_plain hv, Option.map_some]
  induction ms generalizing m with
  | nil =>
    obtain ⟨hname, hval⟩ := h m (List.mem_cons_self ..)
    rw [List.length_nil, memberChars, parseMembers]
    simp only [Option.bind_eq_bind, token_self hquote, Option.bind_some, scanString_plain hname,
      token_self (show isWs ':' = false by decide), hvalue hval, objectRest,
      token_other (show isWs '}' = false by decide) (show '}' ≠ ',' by decide),
      token_self (show isWs '}' = false by decide)]
    rfl
  | cons n ms ih =>
    rw [List.forall_mem_cons] at h
    obtain ⟨⟨hname, hval⟩, hms⟩ := h
    rw [List.length_cons, memberChars, parseMembers]
    simp only [Option.bind_eq_bind, token_self hquote, Option.bind_some, scanString_plain hname,
      token_self (show isWs ':' = false by decide), hvalue hval, objectRest,
      token_self (show isWs ',' = false by decide), ih hms]
    rfl

/-- An object of strings that need no escape is read as it was written. -/
theorem parse_objectText {ms : List (List Char × List Char)}
    (h : ∀ n ∈ ms, (∀ c ∈ n.1, Plain c.toNat) ∧ ∀ c ∈ n.2, Plain c.toNat) :
    parse (objectText ms) = some (.object (ms.map memberOf)) := by
  cases ms with
  | nil => rfl
  | cons m ms =>
    have hbrace : isWs '{' = false := by decide
    have hv : parseValue (ms.length + 3) (objectText (m :: ms)) = some (.object ((m :: ms).map memberOf), []) := by
      rw [objectText, parseValue, token_other hbrace (by decide), token_self hbrace]
      simp only [memberChars, token_other (show isWs '"' = false by decide) (show '"' ≠ '}' by decide)]
      have hm := parseMembers_objectRest h
      rw [memberChars] at hm
      rw [hm, Option.map_some]
    exact parse_complete hv rfl

end Json
