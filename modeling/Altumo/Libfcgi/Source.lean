import Altumo.Library.Refill
import Altumo.Libfcgi.Reader

/-!
# Reading a stream

A reader as a source that is read through a buffer. The functions that read bytes,
strings and lines return the next part of what the source yields, and leave a source
that yields the rest.
-/

namespace Libfcgi

open CString Descriptor Refill

/-- `stop` is not behind the end of the buffer. -/
def Input.Sound (s : Input) : Prop := s.stream.avail ≤ s.stream.unread.length

theorem Input.Sound.advance {s : Input} (h : s.Sound) (n : Nat) : (s.advance n).Sound := by
  have : s.stream.avail ≤ s.stream.unread.length := h
  simp only [Input.Sound, Input.advance, List.length_drop]
  omega

/-- A reader whose buffer is filled by `fill`. -/
def source (fill : Fill) : Source Input Byte where
  wellFormed := Input.Sound
  closed s := s.stream.isClosed
  ready s := s.stream.unread.take s.stream.avail
  consume n s := s.advance n
  fill := fill
  ready_consume n s := by simp [Input.advance, List.drop_take]
  wellFormed_consume n s h := h.advance n
  closed_consume n s := rfl
  consume_zero s := by simp [Input.advance]
  consume_consume m n s := by simp [Input.advance, Nat.sub_sub]

section Reading

variable {fill : Fill} {s e : Input} {c : Text}

theorem Input.Sound.ready_length (h : s.Sound) : ((source fill).ready s).length = s.stream.avail := by
  have : s.stream.avail ≤ s.stream.unread.length := h
  simp only [source, List.length_take]
  omega

theorem Input.Sound.ready_eq_nil_iff (h : s.Sound) : (source fill).ready s = [] ↔ s.stream.avail = 0 := by
  rw [← List.length_eq_zero_iff, h.ready_length]

/-- The next byte of a source, or its end. -/
theorem getChar_yields (hs : s.Sound) (h : Yields (source fill) s c e) :
    (c = [] ∧ getChar fill s = some (none, e) ∧ e.Sound) ∨
      ∃ b c' s', c = b :: c' ∧ getChar fill s = some (some b, s') ∧ Yields (source fill) s' c' e ∧ s'.Sound := by
  -- a byte that is ready
  have htake : ∀ t : Input, t.Sound → t.stream.isClosed = false → t.stream.avail ≠ 0 → Yields (source fill) t c e →
      ∃ b c' s', c = b :: c' ∧ takeChar t = some (some b, s') ∧ Yields (source fill) s' c' e ∧ s'.Sound := by
    intro t ht ho hne hy
    have hle : t.stream.avail ≤ t.stream.unread.length := ht
    have hlen : ((source fill).ready t).length = t.stream.avail := ht.ready_length
    obtain ⟨heq, hy'⟩ := hy.consume ho (n := 1) (by omega)
    cases hu : t.stream.unread with
    | nil =>
      rw [hu] at hle
      exact absurd (Nat.le_zero.mp hle) hne
    | cons b rest =>
      have hready : ((source fill).ready t).take 1 = [b] := by
        obtain ⟨k, hk⟩ : ∃ k, t.stream.avail = k + 1 := ⟨t.stream.avail - 1, by omega⟩
        simp [source, hu, hk]
      rw [hready] at heq
      cases c with
      | nil => cases heq
      | cons b' c' =>
        rw [List.take_succ_cons, List.take_zero, List.cons.injEq] at heq
        refine ⟨b', c', t.advance 1, rfl, ?_, hy', ht.advance 1⟩
        rw [takeChar, hu, heq.1]
  cases hc : s.stream.isClosed with
  | true =>
    obtain ⟨rfl, rfl⟩ := h.eq_nil_of_closed hc
    exact .inl ⟨rfl, by simp [getChar, hc], hs⟩
  | false =>
    by_cases ha : s.stream.avail = 0
    · obtain ⟨s', hf, hs', hp, hy⟩ := h.exists_fill hc (hs.ready_eq_nil_iff.mpr ha)
      have hf' : fill s = some s' := hf
      cases hc' : s'.stream.isClosed with
      | true =>
        obtain ⟨rfl, rfl⟩ := hy.eq_nil_of_closed hc'
        exact .inl ⟨rfl, by simp [getChar, hc, ha, hf', hc'], hs'⟩
      | false =>
        have hne : s'.stream.avail ≠ 0 := fun hz => hp hc' (Input.Sound.ready_eq_nil_iff hs' |>.mpr hz)
        obtain ⟨b, c', s'', hcons, hget, hy'', hs''⟩ := htake s' hs' hc' hne hy
        exact .inr ⟨b, c', s'', hcons, by simp [getChar, hc, ha, hf', hc', hne, hget], hy'', hs''⟩
    · obtain ⟨b, c', s'', hcons, hget, hy'', hs''⟩ := htake s hs hc ha h
      exact .inr ⟨b, c', s'', hcons, by simp [getChar, hc, ha, hget], hy'', hs''⟩

/-- What is ready in front of the next refill. -/
theorem advance_yields (hs : s.Sound) (ho : s.stream.isClosed = false) (h : Yields (source fill) s c e) {n : Nat}
    (hn : n ≤ s.stream.avail) :
    c.take n = s.stream.unread.take n ∧ Yields (source fill) (s.advance n) (c.drop n) e := by
  have hlen : ((source fill).ready s).length = s.stream.avail := hs.ready_length
  obtain ⟨heq, hy⟩ := h.consume ho (show n ≤ ((source fill).ready s).length by omega)
  refine ⟨?_, hy⟩
  rw [heq]
  show (s.stream.unread.take s.stream.avail).take n = _
  rw [List.take_take, Nat.min_eq_left hn]

/-- A refill of an open stream that has nothing ready. -/
theorem refill_yields (hs : s.Sound) (ho : s.stream.isClosed = false) (ha : s.stream.avail = 0)
    (h : Yields (source fill) s c e) :
    ∃ s', fill s = some s' ∧ s'.Sound ∧ (s'.stream.isClosed = false → s'.stream.avail ≠ 0) ∧
      Yields (source fill) s' c e := by
  obtain ⟨s', hf, hs', hp, hy⟩ := h.exists_fill ho (hs.ready_eq_nil_iff.mpr ha)
  exact ⟨s', hf, hs', fun hc hz => hp hc (Input.Sound.ready_eq_nil_iff hs' |>.mpr hz), hy⟩

theorem getStrLoop_yields {fuel n : Nat} (hs : s.Sound) (ho : s.stream.isClosed = false)
    (hn : 0 < n) (hfuel : n + (if s.stream.avail = 0 then 1 else 0) ≤ fuel) (h : Yields (source fill) s c e) :
    ∃ s', getStrLoop fill fuel n s = some (c.take n, s') ∧ Yields (source fill) s' (c.drop n) e ∧ s'.Sound ∧
      (c.length < n → s' = e) := by
  induction fuel generalizing n s c with
  | zero => omega
  | succ fuel ih =>
    have hle : min n s.stream.avail ≤ s.stream.avail := Nat.min_le_right _ _
    obtain ⟨htake, hy⟩ := advance_yields hs ho h hle
    by_cases hlast : s.stream.avail ≠ 0 ∧ min n s.stream.avail = n
    · have hrun : getStrLoop fill (fuel + 1) n s = some (s.stream.unread.take n, s.advance n) := by
        rw [getStrLoop, if_pos hlast, hlast.2]
      rw [hlast.2] at htake hy
      refine ⟨s.advance n, by rw [hrun, htake], hy, hs.advance _, ?_⟩
      have hlen := congrArg List.length htake
      have hle' : s.stream.avail ≤ s.stream.unread.length := hs
      simp only [List.length_take] at hlen
      omega
    · -- everything that is ready has been taken
      have hall : min n s.stream.avail = s.stream.avail := by omega
      have hlt : s.stream.avail < n := by omega
      rw [hall] at htake hy
      have ho' : (s.advance s.stream.avail).stream.isClosed = false := ho
      have ha' : (s.advance s.stream.avail).stream.avail = 0 := Nat.sub_self _
      obtain ⟨s', hf, hs', hne, hy'⟩ := refill_yields (hs.advance _) ho' ha' hy
      cases hc : s'.stream.isClosed with
      | true =>
        obtain ⟨hnil, rfl⟩ := hy'.eq_nil_of_closed hc
        have hc_le : c.length ≤ s.stream.avail := List.drop_eq_nil_iff.mp hnil
        refine ⟨e, ?_, ?_, hs', fun _ => rfl⟩
        · rw [List.take_of_length_le hc_le] at htake
          rw [List.take_of_length_le (Nat.le_trans hc_le (Nat.le_of_lt hlt)), htake]
          simp [getStrLoop, hall, Nat.ne_of_lt hlt, ho, hf, hc]
        · rw [List.drop_eq_nil_of_le (Nat.le_trans hc_le (Nat.le_of_lt hlt))]
          exact .closed hc
      | false =>
        have hfuel' : n - s.stream.avail + (if s'.stream.avail = 0 then 1 else 0) ≤ fuel := by
          rw [if_neg (hne hc)]
          split at hfuel <;> omega
        obtain ⟨s'', hrest, hy'', hs'', hend⟩ := ih hs' hc (Nat.sub_pos_of_lt hlt) hfuel' hy'
        refine ⟨s'', ?_, ?_, hs'', ?_⟩
        · have hsplit : c.take n = s.stream.unread.take s.stream.avail ++ (c.drop s.stream.avail).take (n - s.stream.avail) := by
            rw [← htake, ← List.take_add, Nat.add_sub_cancel' (Nat.le_of_lt hlt)]
          rw [hsplit]
          simp [getStrLoop, hall, Nat.ne_of_lt hlt, ho, hf, hc, hrest]
        · rw [List.drop_drop, Nat.add_sub_cancel' (Nat.le_of_lt hlt)] at hy''
          exact hy''
        · intro hshort
          exact hend (by rw [List.length_drop]; omega)

/-- `FCGX_GetStr` returns the next bytes of a source, fewer of them only at its end. -/
theorem getStr_yields (hs : s.Sound) (h : Yields (source fill) s c e) (n : Nat) :
    ∃ s', getStr fill n s = some (c.take n, s') ∧ Yields (source fill) s' (c.drop n) e ∧ s'.Sound ∧
      (c.length < n → s' = e) := by
  cases hc : s.stream.isClosed with
  | true =>
    obtain ⟨rfl, rfl⟩ := h.eq_nil_of_closed hc
    exact ⟨e, by simp [getStr, hc], by simpa using Yields.closed hc, hs, fun _ => rfl⟩
  | false =>
    by_cases hz : n = 0
    · subst hz
      exact ⟨s, by simp [getStr], h, hs, fun hlt => absurd hlt (Nat.not_lt_zero _)⟩
    · by_cases hle : n ≤ s.stream.avail
      · obtain ⟨htake, hy⟩ := advance_yields hs hc h hle
        refine ⟨s.advance n, by simp [getStr, hc, hz, hle, htake], hy, hs.advance n, ?_⟩
        have hlen := congrArg List.length htake
        have hle' : s.stream.avail ≤ s.stream.unread.length := hs
        simp only [List.length_take] at hlen
        omega
      · have hfuel : n + (if s.stream.avail = 0 then 1 else 0) ≤ n + 2 := by split <;> omega
        obtain ⟨s', hrun, hy, hs', hend⟩ := getStrLoop_yields hs hc (Nat.pos_of_ne_zero hz) hfuel h
        exact ⟨s', by simp [getStr, hc, hz, hle, hrun], hy, hs', hend⟩

/-- The bytes up to a newline, but not more than `n`. -/
def lineOf : (n : Nat) → Text → Text
  | 0, _ => []
  | _ + 1, [] => []
  | n + 1, c :: cs => if c = 10 then [c] else c :: lineOf n cs

theorem getLineLoop_yields (hs : s.Sound) (h : Yields (source fill) s c e) (n : Nat) :
    ∃ s', getLineLoop fill n s = some (lineOf n c, s') ∧ Yields (source fill) s' (c.drop (lineOf n c).length) e ∧
      s'.Sound := by
  induction n generalizing s c with
  | zero => exact ⟨s, rfl, h, hs⟩
  | succ n ih =>
    obtain ⟨rfl, hget, he⟩ | ⟨b, c', s', rfl, hget, hy, hs'⟩ := getChar_yields hs h
    · exact ⟨e, by simp [getLineLoop, hget, lineOf], .closed h.closed_end, he⟩
    · by_cases hb : b = 10
      · exact ⟨s', by simp [getLineLoop, hget, hb, lineOf], by simpa [lineOf, hb] using hy, hs'⟩
      · obtain ⟨s'', hrest, hy', hs''⟩ := ih hs' hy
        exact ⟨s'', by simp [getLineLoop, hget, hb, hrest, lineOf], by simpa [lineOf, hb] using hy', hs''⟩

/-- `FCGX_GetLine` returns the next line of a source, or the next piece of a long one. -/
theorem getLine_yields (hs : s.Sound) (h : Yields (source fill) s c e) {n : Nat} (hn : 1 < n) :
    ∃ s', getLine fill n s = some (if c = [] then none else some (lineOf (n - 1) c), s') ∧
      Yields (source fill) s' (c.drop (lineOf (n - 1) c).length) e ∧ s'.Sound := by
  obtain ⟨s', hrun, hy, hs'⟩ := getLineLoop_yields hs h (n - 1)
  refine ⟨s', ?_, hy, hs'⟩
  have hnil : lineOf (n - 1) c = [] ↔ c = [] := by
    obtain ⟨k, rfl⟩ : ∃ k, n = k + 2 := ⟨n - 2, by omega⟩
    cases c with
    | nil => simp [lineOf]
    | cons b c => simp only [Nat.add_one_sub_one, lineOf]; split <;> simp
  by_cases hc : c = []
  · simp [getLine, hrun, hnil.mpr hc, if_pos hc, Nat.sub_pos_of_lt hn]
  · simp [getLine, hrun, mt hnil.mp hc, hc]

/-- The calls by which an application reads a stream. -/
inductive ReadCall where
  | getChar
  | getStr : (n : Nat) → ReadCall
  | getLine : (n : Nat) → ReadCall

/-- A call, and the bytes that it returns. -/
def ReadCall.run (fill : Fill) (s : Input) : ReadCall → Option (Text × Input)
  | .getChar => do
    let (c, s) ← Libfcgi.getChar fill s
    some (c.toList, s)
  | .getStr n => Libfcgi.getStr fill n s
  | .getLine n => do
    let (line, s) ← Libfcgi.getLine fill n s
    some (line.getD [], s)

def readCalls (fill : Fill) : List ReadCall → Input → Option (Text × Input)
  | [], s => some ([], s)
  | call :: calls, s => do
    let (str, s) ← call.run fill s
    let (strs, s) ← readCalls fill calls s
    some (str ++ strs, s)

theorem lineOf_append (n : Nat) (c : Text) : lineOf n c ++ c.drop (lineOf n c).length = c := by
  induction n generalizing c with
  | zero => rfl
  | succ n ih =>
    cases c with
    | nil => rfl
    | cons b c =>
      by_cases hb : b = 10
      · simp [lineOf, hb]
      · simp [lineOf, hb, ih]

/-- Every call returns the next part of what the source yields. -/
theorem ReadCall.run_yields (hs : s.Sound) (h : Yields (source fill) s c e) (call : ReadCall) :
    ∃ str c' s', call.run fill s = some (str, s') ∧ c = str ++ c' ∧ Yields (source fill) s' c' e ∧ s'.Sound := by
  cases call with
  | getChar =>
    obtain ⟨rfl, hget, he⟩ | ⟨b, c', s', rfl, hget, hy, hs'⟩ := getChar_yields hs h
    · exact ⟨[], [], e, by simp [ReadCall.run, hget], rfl, .closed h.closed_end, he⟩
    · exact ⟨[b], c', s', by simp [ReadCall.run, hget], rfl, hy, hs'⟩
  | getStr n =>
    obtain ⟨s', hrun, hy, hs', -⟩ := getStr_yields hs h n
    exact ⟨c.take n, c.drop n, s', hrun, (List.take_append_drop n c).symm, hy, hs'⟩
  | getLine n =>
    by_cases hn : 1 < n
    · obtain ⟨s', hrun, hy, hs'⟩ := getLine_yields hs h hn
      refine ⟨lineOf (n - 1) c, _, s', ?_, (lineOf_append _ _).symm, hy, hs'⟩
      by_cases hc : c = []
      · obtain ⟨k, rfl⟩ : ∃ k, n = k + 2 := ⟨n - 2, by omega⟩
        simp [ReadCall.run, hrun, hc, lineOf]
      · simp [ReadCall.run, hrun, hc]
    · have hzero : n - 1 = 0 := by omega
      exact ⟨[], c, s, by simp [ReadCall.run, Libfcgi.getLine, hzero, getLineLoop], rfl, h, hs⟩

/-- Whatever calls are made, what they return is put together the beginning of what the
source yields, and all of it once the stream is closed. -/
theorem readCalls_yields (hs : s.Sound) (h : Yields (source fill) s c e) (calls : List ReadCall) :
    ∃ str c' s', readCalls fill calls s = some (str, s') ∧ c = str ++ c' ∧ Yields (source fill) s' c' e ∧ s'.Sound := by
  induction calls generalizing s c with
  | nil => exact ⟨[], c, s, rfl, rfl, h, hs⟩
  | cons call calls ih =>
    obtain ⟨str, c₁, s₁, hrun, rfl, hy, hs₁⟩ := call.run_yields hs h
    obtain ⟨strs, c₂, s₂, hruns, rfl, hy₂, hs₂⟩ := ih hs₁ hy
    exact ⟨str ++ strs, c₂, s₂, by simp [readCalls, hrun, hruns], by rw [List.append_assoc], hy₂, hs₂⟩

end Reading

end Libfcgi
