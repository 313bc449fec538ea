import Mathlib.Data.List.Basic
import Altumo.Library.CString

/-!
# File streams and the getline loop

A stream carries the bytes it can still deliver, what follows them, and the three
state bits. A failed open sets failbit alone, the end of the file sets eofbit, a
read error sets badbit. The loop tests eofbit only, so it is run with a number
of passes that it may use up without ending.
-/

namespace InputStream

open CString

/-- What is behind a path: nothing that opens, or bytes that are followed by the
end of the file or, when `fault` is set, by a read error. -/
inductive FileState where
  | missing : FileState
  | readable : (content : Text) → (fault : Bool) → FileState
  deriving DecidableEq

structure IFStream where
  rest : Text
  fault : Bool
  eofbit : Bool
  failbit : Bool
  badbit : Bool
  deriving DecidableEq

/-- `ifstream file( path )`. -/
def ifstream : FileState → IFStream
  | .missing => ⟨[], false, false, true, false⟩
  | .readable content fault => ⟨content, fault, false, false, false⟩

def IFStream.good (f : IFStream) : Bool := !f.eofbit && !f.failbit && !f.badbit

def newline : Byte := 10

/-- `getline( file, line )`. A good stream first erases the string; a stream that
is not good extracts nothing and leaves the string as it is. -/
def getline (f : IFStream) (line : Text) : IFStream × Text :=
  if f.good then
    match f.rest.dropWhile (· != newline) with
    | _ :: rest => ({ f with rest := rest }, f.rest.takeWhile (· != newline))
    | [] =>
      if f.fault then ({ f with rest := [], badbit := true, failbit := f.rest.isEmpty }, f.rest)
      else ({ f with rest := [], eofbit := true, failbit := f.rest.isEmpty }, f.rest)
  else ({ f with failbit := true }, line)

/-- `while( !file.eof() ){ getline( file, line ); body }`, given up after `fuel` tests. -/
def whileNotEof {σ : Type} (body : σ → Text → σ) : (fuel : Nat) → IFStream → Text → σ → Option σ
  | 0, _, _, _ => none
  | fuel + 1, f, line, st =>
    if f.eofbit then some st
    else whileNotEof body fuel (getline f line).1 (getline f line).2 (body st (getline f line).2)

/-- The strings that the first `n` passes hand to the body. -/
def handed : (n : Nat) → IFStream → Text → List Text
  | 0, _, _ => []
  | n + 1, f, line =>
    if f.eofbit then [] else (getline f line).2 :: handed n (getline f line).1 (getline f line).2

/-- The lines of a text. What follows the last newline is the last line, also when
it is empty. -/
def lines (content : Text) : List Text := content.splitOn newline

/-- The bytes that a file can deliver. -/
def FileState.content : FileState → Text
  | .missing => []
  | .readable content _ => content

/-- The lines that a file can deliver: none when it does not open. -/
def FileState.lines : FileState → List Text
  | .missing => []
  | .readable content _ => InputStream.lines content

theorem takeWhile_no_newline {l : Text} (h : newline ∉ l) :
    ∀ b ∈ l, (b != newline) = true := by
  intro b hb
  have : b ≠ newline := by intro he; subst he; exact h hb
  simpa using this

theorem lines_newline {l : Text} (h : newline ∉ l) (rest : Text) :
    lines (l ++ newline :: rest) = l :: lines rest :=
  List.splitOn_append_cons_self_of_not_mem h rest

theorem lines_last {l : Text} (h : newline ∉ l) : lines l = [l] :=
  List.splitOn_eq_singleton h

/-- Every text is a line without newline, or such a line, a newline and a shorter text. -/
theorem lines_induction {motive : Text → Prop} (last : ∀ l, newline ∉ l → motive l)
    (step : ∀ l rest, newline ∉ l → motive rest → motive (l ++ newline :: rest))
    (content : Text) : motive content := by
  induction hn : content.length using Nat.strong_induction_on generalizing content with
  | _ n ih =>
    by_cases h : newline ∈ content
    · obtain ⟨l, rest, rfl, hl⟩ := List.eq_append_cons_of_mem h
      refine step l rest hl (ih rest.length ?_ rest rfl)
      simp only [List.length_append, List.length_cons] at hn
      omega
    · exact last content h

theorem getline_newline {l rest line : Text} {fault : Bool} (h : newline ∉ l) :
    getline ⟨l ++ newline :: rest, fault, false, false, false⟩ line =
      (⟨rest, fault, false, false, false⟩, l) := by
  have hall := takeWhile_no_newline h
  simp only [getline, IFStream.good, Bool.not_false, Bool.and_self, ↓reduceIte]
  rw [List.dropWhile_append_of_pos hall, List.takeWhile_append_of_pos hall]
  simp

theorem getline_last {l line : Text} {fault : Bool} (h : newline ∉ l) :
    getline ⟨l, fault, false, false, false⟩ line =
      (⟨[], fault, !fault, l.isEmpty, fault⟩, l) := by
  have hnil : l.dropWhile (· != newline) = [] :=
    List.dropWhile_eq_nil_iff.mpr (takeWhile_no_newline h)
  simp only [getline, IFStream.good, Bool.not_false, Bool.and_self, ↓reduceIte, hnil]
  cases fault <;> simp

/-- A stream that stopped without reaching the end of the file. -/
def Stuck (f : IFStream) : Prop := f.eofbit = false ∧ f.good = false

theorem getline_stuck {f : IFStream} (h : Stuck f) (line : Text) :
    getline f line = ({ f with failbit := true }, line) := by
  simp [getline, h.2]

theorem stuck_failbit {f : IFStream} (h : Stuck f) : Stuck { f with failbit := true } := by
  refine ⟨h.1, ?_⟩
  simp [IFStream.good]

/-- Such a stream keeps the loop going for ever, with the string it has. -/
theorem whileNotEof_stuck {σ : Type} (body : σ → Text → σ) (fuel : Nat) {f : IFStream}
    (h : Stuck f) (line : Text) (st : σ) : whileNotEof body fuel f line st = none := by
  induction fuel generalizing f st with
  | zero => rfl
  | succ fuel ih =>
    rw [whileNotEof, if_neg (by simp [h.1]), getline_stuck h]
    exact ih (stuck_failbit h) _

theorem handed_stuck (n : Nat) {f : IFStream} (h : Stuck f) (line : Text) :
    handed n f line = List.replicate n line := by
  induction n generalizing f with
  | zero => rfl
  | succ n ih =>
    rw [handed, if_neg (by simp [h.1]), getline_stuck h, ih (stuck_failbit h), List.replicate_succ]

/-- A loop that ends has applied the body to what it was handed, in order. -/
theorem whileNotEof_eq_handed {σ : Type} {body : σ → Text → σ} {fuel : Nat} {f : IFStream}
    {line : Text} {st st' : σ} (h : whileNotEof body fuel f line st = some st') :
    st' = (handed fuel f line).foldl body st := by
  induction fuel generalizing f line st with
  | zero => cases h
  | succ fuel ih =>
    simp only [whileNotEof] at h
    simp only [handed]
    split at h
    · rename_i he
      simp only [he, ↓reduceIte, List.foldl_nil]
      exact (Option.some.inj h).symm
    · rename_i he
      simp only [he, Bool.false_eq_true, ↓reduceIte, List.foldl_cons]
      exact ih h

theorem whileNotEof_eof {σ : Type} (body : σ → Text → σ) (fuel : Nat) {f : IFStream}
    (h : f.eofbit = true) (line : Text) (st : σ) :
    whileNotEof body (fuel + 1) f line st = some st := by
  simp [whileNotEof, h]

/-- On a file that opens and reads to its end the loop ends after its last line. -/
theorem whileNotEof_ends {σ : Type} (body : σ → Text → σ) (content line : Text) (st : σ)
    {fuel : Nat} (hf : (lines content).length < fuel) :
    ∃ st', whileNotEof body fuel (ifstream (.readable content false)) line st = some st' := by
  induction content using lines_induction generalizing fuel line st with
  | last l hl =>
    rw [lines_last hl] at hf
    obtain ⟨fuel, rfl⟩ : ∃ k, fuel = k + 2 := ⟨fuel - 2, by simp at hf; omega⟩
    refine ⟨body st l, ?_⟩
    simp only [ifstream]
    rw [whileNotEof]
    simp only [Bool.false_eq_true, ↓reduceIte, getline_last hl]
    exact whileNotEof_eof body fuel rfl _ _
  | step l rest hl ih =>
    rw [lines_newline hl] at hf
    obtain ⟨fuel, rfl⟩ : ∃ k, fuel = k + 1 := ⟨fuel - 1, by simp at hf; omega⟩
    simp only [ifstream]
    rw [whileNotEof]
    simp only [Bool.false_eq_true, ↓reduceIte, getline_newline hl]
    exact ih l (body st l) (by simpa using hf)

/-- The passes over a file that reads to its end are its lines, each once and in order. -/
theorem handed_readable (content line : Text) (n : Nat) :
    handed n (ifstream (.readable content false)) line = (lines content).take n := by
  induction content using lines_induction generalizing n line with
  | last l hl =>
    rw [lines_last hl]
    match n with
    | 0 => rfl
    | 1 => simp [handed, ifstream, getline_last hl]
    | n + 2 => simp [handed, ifstream, getline_last hl]
  | step l rest hl ih =>
    rw [lines_newline hl]
    cases n with
    | zero => rfl
    | succ n =>
      rw [handed]
      simp only [ifstream, Bool.false_eq_true, ↓reduceIte, getline_newline hl, List.take_succ_cons]
      rw [← ih l n]
      rfl

/-- The loop over a file that reads to its end applies the body to each line once and in order. -/
theorem whileNotEof_readable {σ : Type} (body : σ → Text → σ) (content line : Text) (st : σ)
    {fuel : Nat} (hf : (lines content).length < fuel) :
    whileNotEof body fuel (ifstream (.readable content false)) line st =
      some ((lines content).foldl body st) := by
  obtain ⟨st', h⟩ := whileNotEof_ends body content line st hf
  rw [h, whileNotEof_eq_handed h, handed_readable, List.take_of_length_le (Nat.le_of_lt hf)]

/-- After a read error the loop never ends. -/
theorem whileNotEof_fault {σ : Type} (body : σ → Text → σ) (content line : Text) (st : σ)
    (fuel : Nat) : whileNotEof body fuel (ifstream (.readable content true)) line st = none := by
  induction content using lines_induction generalizing fuel line st with
  | last l hl =>
    cases fuel with
    | zero => rfl
    | succ fuel =>
      simp only [ifstream, whileNotEof, Bool.false_eq_true, ↓reduceIte, getline_last hl]
      exact whileNotEof_stuck body fuel ⟨rfl, by simp [IFStream.good]⟩ _ _
  | step l rest hl ih =>
    cases fuel with
    | zero => rfl
    | succ fuel =>
      simp only [ifstream, whileNotEof, Bool.false_eq_true, ↓reduceIte, getline_newline hl]
      exact ih l (body st l) fuel

/-- After a read error every further pass hands over the last line again. -/
theorem handed_fault (content line : Text) (n : Nat) :
    handed n (ifstream (.readable content true)) line =
      (lines content).take n ++
        List.replicate (n - (lines content).length) ((lines content).getLastD []) := by
  induction content using lines_induction generalizing n line with
  | last l hl =>
    rw [lines_last hl]
    cases n with
    | zero => rfl
    | succ n =>
      rw [handed]
      simp only [ifstream, Bool.false_eq_true, ↓reduceIte, getline_last hl]
      rw [handed_stuck n ⟨rfl, by simp [IFStream.good]⟩]
      simp
  | step l rest hl ih =>
    rw [lines_newline hl]
    cases n with
    | zero => simp [handed]
    | succ n =>
      rw [handed]
      simp only [ifstream, Bool.false_eq_true, ↓reduceIte, getline_newline hl]
      have hlast : (l :: lines rest).getLastD [] = (lines rest).getLastD [] := by
        cases hr : lines rest with
        | nil => exact absurd hr (List.splitOn_ne_nil newline rest)
        | cons a as => rfl
      rw [hlast, List.take_succ_cons, List.cons_append, List.length_cons, Nat.add_sub_add_right,
        ← ih l n]
      rfl

/-- A path that does not open keeps the loop going for ever. -/
theorem whileNotEof_missing {σ : Type} (body : σ → Text → σ) (line : Text) (st : σ) (fuel : Nat) :
    whileNotEof body fuel (ifstream .missing) line st = none :=
  whileNotEof_stuck body fuel ⟨rfl, rfl⟩ line st

/-- Files that open and are read to their end. -/
def FileState.ReadsToEnd : FileState → Prop
  | .missing => False
  | .readable _ fault => fault = false

instance : (file : FileState) → Decidable file.ReadsToEnd
  | .missing => inferInstanceAs (Decidable False)
  | .readable _ fault => inferInstanceAs (Decidable (fault = false))

/-- The passes over such a file are its lines. -/
theorem handed_of_readsToEnd {file : FileState} (h : file.ReadsToEnd) (n : Nat) (line : Text) :
    handed n (ifstream file) line = file.lines.take n := by
  cases file with
  | missing => cases h
  | readable content fault =>
    simp only [FileState.ReadsToEnd] at h
    subst h
    exact handed_readable content line n

/-- On every other file the passes do not end: behind the lines the last string comes again. -/
theorem handed_endless {file : FileState} (h : ¬ file.ReadsToEnd) (n : Nat) :
    handed n (ifstream file) [] =
      file.lines.take n ++ List.replicate (n - file.lines.length) (file.lines.getLastD []) := by
  cases file with
  | missing => simpa [FileState.lines] using handed_stuck n (f := ifstream .missing) ⟨rfl, rfl⟩ []
  | readable content fault =>
    have hfault : fault = true := by simpa [FileState.ReadsToEnd] using h
    rw [hfault]
    exact handed_fault content [] n

theorem handed_length {file : FileState} (h : ¬ file.ReadsToEnd) (n : Nat) :
    (handed n (ifstream file) []).length = n := by
  rw [handed_endless h, List.length_append, List.length_take, List.length_replicate]
  omega

theorem whileNotEof_returns {σ : Type} (body : σ → Text → σ) {file : FileState} (h : file.ReadsToEnd)
    (line : Text) (st : σ) {fuel : Nat} (hf : file.lines.length < fuel) :
    whileNotEof body fuel (ifstream file) line st = some (file.lines.foldl body st) := by
  cases file with
  | missing => cases h
  | readable content fault =>
    simp only [FileState.ReadsToEnd] at h
    subst h
    exact whileNotEof_readable body content line st hf

theorem whileNotEof_iff {σ : Type} (body : σ → Text → σ) (file : FileState) (line : Text) (st : σ) :
    (∃ fuel st', whileNotEof body fuel (ifstream file) line st = some st') ↔ file.ReadsToEnd := by
  cases file with
  | missing => simp [whileNotEof_missing, FileState.ReadsToEnd]
  | readable content fault =>
    cases fault with
    | true => simp [whileNotEof_fault, FileState.ReadsToEnd]
    | false =>
      simp only [FileState.ReadsToEnd, iff_true]
      exact ⟨_, _, whileNotEof_readable body content line st (Nat.lt_succ_self _)⟩

/-- A loop that ends also ends, with the same result, when it is allowed more passes. -/
theorem whileNotEof_mono {σ : Type} {body : σ → Text → σ} {fuel more : Nat} {f : IFStream}
    {line : Text} {st st' : σ} (h : whileNotEof body fuel f line st = some st')
    (hle : fuel ≤ more) : whileNotEof body more f line st = some st' := by
  induction fuel generalizing more f line st with
  | zero => cases h
  | succ fuel ih =>
    obtain ⟨more, rfl⟩ : ∃ k, more = k + 1 := ⟨more - 1, by omega⟩
    rw [whileNotEof] at h ⊢
    split at h
    · rename_i he
      rw [if_pos he]
      exact h
    · rename_i he
      rw [if_neg he]
      exact ih h (by omega)

/-- Whatever the number of passes allowed, a loop that ends has processed the lines of the file. -/
theorem whileNotEof_result {σ : Type} {body : σ → Text → σ} {fuel : Nat} {file : FileState}
    {line : Text} {st st' : σ} (h : whileNotEof body fuel (ifstream file) line st = some st') :
    file.ReadsToEnd ∧ st' = file.lines.foldl body st := by
  have hr := (whileNotEof_iff body file line st).mp ⟨fuel, st', h⟩
  have hm := whileNotEof_mono h (Nat.le_add_right fuel (file.lines.length + 1))
  rw [whileNotEof_returns body hr line st (by omega)] at hm
  exact ⟨hr, (Option.some.inj hm).symm⟩

end InputStream
