import Mathlib.Data.List.Basic
import Altumo.Library.Transition
import Altumo.Libfcgi.Writer

/-!
# What the writers send

The calls on the two writers of a request in any order, and the messages that then
are on the connection. Each call appends records to what has been sent; the bytes
of a writer are those of its data records and what its buffer holds.
-/

namespace Libfcgi

open CString Descriptor Transition

section Writing

variable {w : Writer} {req : Request}

@[simp] theorem append_used (w : Writer) (str : Text) : (w.append str).used = w.used + str.length := by
  simp [Writer.append, Writer.used, Nat.add_assoc]

@[simp] theorem append_stop (w : Writer) (str : Text) : (w.append str).stop = w.stop := rfl

@[simp] theorem append_isClosed (w : Writer) (str : Text) : (w.append str).isClosed = w.isClosed := rfl

@[simp] theorem append_room (w : Writer) (str : Text) : (w.append str).room = w.room - str.length := by
  simp only [Writer.room, append_used, append_stop]
  omega

theorem append_append (w : Writer) (s t : Text) : (w.append s).append t = w.append (s ++ t) := by
  simp [Writer.append]

@[simp] theorem append_nil (w : Writer) : w.append [] = w := by simp [Writer.append]

/-- The pointers of a writer are in order. -/
structure Writer.Sound (w : Writer) : Prop where
  used_le : w.used ≤ w.stop
  stop_le : w.stop ≤ w.bufflen.len
  reserved_le : w.reserved ≤ headerLen
  stop_eq : w.wasFCloseCalled = false → w.stop = w.bufflen.len
  closed : w.wasFCloseCalled = true → w.isClosed = true

theorem Writer.Sound.notCalled (h : w.Sound) (ho : w.isClosed = false) : w.wasFCloseCalled = false := by
  cases hf : w.wasFCloseCalled with
  | false => rfl
  | true =>
    have := h.closed hf
    rw [ho] at this
    cases this

theorem newWriter_sound (bufflen : BuffLen) (type : Byte) : (newWriter bufflen type).Sound := by
  have := bufflen.len_ge
  refine ⟨?_, Nat.le_refl _, Nat.le_refl _, fun _ => rfl, fun hf => by cases hf⟩
  simp only [newWriter, Writer.used, headerLen, List.length_nil]
  omega

theorem Writer.Sound.append (h : w.Sound) {str : Text} (hs : str.length ≤ w.room) : (w.append str).Sound := by
  refine ⟨?_, h.stop_le, h.reserved_le, h.stop_eq, h.closed⟩
  have hle := h.used_le
  simp only [Writer.room] at hs
  rw [append_used, append_stop]
  omega

/-- The padding of a record never leaves the buffer. -/
theorem align_le {cLen : Nat} (b : BuffLen) (h : headerLen + cLen ≤ b.len) : headerLen + alignInt8 cLen ≤ b.len := by
  have hle := b.len_le
  have hmod := b.len_mod
  unfold maxLength at hle
  rw [alignInt8_eq (by omega)]
  unfold headerLen at h ⊢
  omega

/-- Encapsulation changes the buffer and nothing else. -/
theorem encapsulate_frame (w : Writer) (requestId : RequestId) :
    ∃ r c, w.encapsulate requestId = { w with reserved := r, content := c } := by
  simp only [Writer.encapsulate]
  split
  · exact ⟨w.reserved, w.content, rfl⟩
  · split
    · exact ⟨_, _, rfl⟩
    · exact ⟨_, _, rfl⟩

theorem encapsulate_sound (h : w.Sound) (hf : w.wasFCloseCalled = false) (requestId : RequestId) :
    (w.encapsulate requestId).Sound := by
  have hused := h.used_le
  have hstop := h.stop_eq hf
  simp only [Writer.encapsulate]
  split
  · exact h
  · split
    · rename_i hpos
      refine ⟨?_, h.stop_le, Nat.zero_le _, h.stop_eq, h.closed⟩
      have hal := align_le w.bufflen (show headerLen + (w.used - headerLen) ≤ _ by omega)
      have hge : w.used - headerLen ≤ alignInt8 (w.used - headerLen) := by
        rw [alignInt8_eq (by have := w.bufflen.len_le; unfold maxLength at this; omega)]
        omega
      have hres := h.reserved_le
      simp only [Writer.used, List.length_append, header_bytes_length, List.length_drop, List.length_replicate] at *
      omega
    · exact ⟨Nat.zero_le _, h.stop_le, Nat.zero_le _, h.stop_eq, h.closed⟩

/-- What the write of a buffer can do. -/
inductive Transmitted (w : Writer) (req : Request) : Writer × Request → Prop where
  | idle : w.used = 0 → Transmitted w req (w.reserve, req)
  | wrote {o : Outbox} : w.used ≠ 0 → writeItAll req.ipc.outbox w.content = (none, o) →
    Transmitted w req ({ w with isAnythingWritten := true }.empty.reserve, req.setOutbox o)
  | failed {errno : Errno} {o : Outbox} : w.used ≠ 0 → writeItAll req.ipc.outbox w.content = (some errno, o) →
    Transmitted w req ({ w with isAnythingWritten := true }.setError errno, req.setOutbox o)

theorem transmitted (w : Writer) (req : Request) : Transmitted w req (transmit w req) := by
  unfold transmit
  split
  · rename_i hne
    dsimp only
    split
    · rename_i hw
      exact .failed hne hw
    · rename_i hw
      exact .wrote hne hw
  · rename_i hz
    exact .idle (by simpa using hz)

/-- An empty buffer holds the place of one header at most. -/
theorem reserve_used_le {v : Writer} (h : v.used = 0) : v.reserve.used ≤ headerLen := by
  simp only [Writer.used] at h ⊢
  simp only [Writer.reserve]
  cases v.rawWrite <;> simp <;> omega

/-- After its buffer has been written a writer has room, or an error has closed it. -/
theorem transmit_sound (h : w.Sound) (hf : w.wasFCloseCalled = false) (req : Request) :
    (transmit w req).1.Sound ∧ (transmit w req).1.wasFCloseCalled = false ∧
      ((transmit w req).1.isClosed = false → (transmit w req).1.room ≠ 0) := by
  have hlen := w.bufflen.len_ge
  have hstop := h.stop_eq hf
  have hfree : ∀ v : Writer, v.bufflen = w.bufflen → v.stop = w.stop → v.used ≤ headerLen → v.wasFCloseCalled = false →
      v.Sound ∧ v.wasFCloseCalled = false ∧ (v.isClosed = false → v.room ≠ 0) := by
    intro v hvb hvs hused hvf
    have hres : v.reserved ≤ v.used := Nat.le_add_right _ _
    unfold headerLen at hused
    refine ⟨⟨by omega, by rw [hvb]; omega, by unfold headerLen; omega, fun _ => by rw [hvb, hvs, hstop],
      fun hc => absurd hc (by simp [hvf])⟩, hvf, fun _ => ?_⟩
    simp only [Writer.room]
    omega
  have ht := transmitted w req
  generalize transmit w req = result at ht ⊢
  cases ht with
  | idle hz => exact hfree _ rfl rfl (reserve_used_le hz) hf
  | wrote hne hw => exact hfree _ rfl rfl (reserve_used_le rfl) hf
  | failed hne hw => exact ⟨⟨h.used_le, h.stop_le, h.reserved_le, h.stop_eq, fun _ => rfl⟩, hf, fun hc => by cases hc⟩

theorem emptyBuffProc_sound (h : w.Sound) (ho : w.isClosed = false) (req : Request) :
    (emptyBuffProc w req).1.Sound ∧ (emptyBuffProc w req).1.wasFCloseCalled = false ∧
      ((emptyBuffProc w req).1.isClosed = false → (emptyBuffProc w req).1.room ≠ 0) := by
  have hf := h.notCalled ho
  obtain ⟨r, c, he⟩ := encapsulate_frame w req.requestId
  exact transmit_sound (encapsulate_sound h hf req.requestId) (by rw [he]; exact hf) req

/-- The bytes put one at a time, and whether every call accepted its byte. -/
def putChars : Text → Writer → Request → Bool × Writer × Request
  | [], w, req => (true, w, req)
  | c :: cs, w, req =>
    let (result, w, req) := putChar c w req
    let (all, w, req) := putChars cs w req
    (result.isSome && all, w, req)

theorem putChars_room {str : Text} (h : str.length ≤ w.room) : putChars str w req = (true, w.append str, req) := by
  induction str generalizing w with
  | nil => simp [putChars]
  | cons c cs ih =>
    have hroom : w.room ≠ 0 := by simp only [List.length_cons] at h; omega
    have hle : cs.length ≤ (w.append [c]).room := by
      simp only [List.length_cons] at h
      rw [append_room, List.length_singleton]
      omega
    simp only [putChars, putChar, hroom, ne_eq, not_false_eq_true, ↓reduceIte, ih hle]
    simp [append_append]

theorem putChars_append (s t : Text) (w : Writer) (req : Request) :
    putChars (s ++ t) w req =
      ((putChars s w req).1 && (putChars t (putChars s w req).2.1 (putChars s w req).2.2).1,
        (putChars t (putChars s w req).2.1 (putChars s w req).2.2).2) := by
  induction s generalizing w req with
  | nil => simp [putChars]
  | cons c cs ih =>
    rw [List.cons_append, putChars, putChars]
    simp [ih, Bool.and_assoc]

/-- A closed writer without room accepts nothing. -/
theorem putChars_closed (hc : w.isClosed = true) (hr : w.room = 0) (str : Text) :
    putChars str w req = (str.isEmpty, w, req) := by
  induction str with
  | nil => rfl
  | cons c cs ih => simp [putChars, putChar, hc, hr, ih]

/-- Without room, putting a byte is writing the buffer and then putting the byte. -/
theorem putChar_full (h : w.Sound) (ho : w.isClosed = false) (hr : w.room = 0) (c : Byte) (req : Request) :
    putChar c w req = putChar c (emptyBuffProc w req).1 (emptyBuffProc w req).2 := by
  have hroom := (emptyBuffProc_sound h ho req).2.2
  simp only [putChar, hr, ne_eq, not_true_eq_false, ↓reduceIte, ho, Bool.false_eq_true]
  by_cases hr' : (emptyBuffProc w req).1.room = 0
  · have hc' : (emptyBuffProc w req).1.isClosed = true := by
      cases hcl : (emptyBuffProc w req).1.isClosed with
      | true => rfl
      | false => exact absurd hr' (hroom hcl)
    simp [hr', hc']
  · simp [hr']

theorem putChars_full (h : w.Sound) (ho : w.isClosed = false) (hr : w.room = 0) {str : Text} (hne : str ≠ []) :
    putChars str w req = putChars str (emptyBuffProc w req).1 (emptyBuffProc w req).2 := by
  cases str with
  | nil => exact absurd rfl hne
  | cons c cs => rw [putChars, putChars, putChar_full h ho hr]

/-- What fits is moved at once. -/
theorem putChars_split (str : Text) (w : Writer) (req : Request) :
    putChars str w req =
      putChars (str.drop (min str.length w.room)) (w.append (str.take (min str.length w.room))) req := by
  conv_lhs => rw [← List.take_append_drop (min str.length w.room) str]
  rw [putChars_append, putChars_room (by rw [List.length_take]; omega)]
  simp

theorem putChar_sound (h : w.Sound) (c : Byte) (req : Request) :
    (putChar c w req).2.1.Sound ∧ (putChar c w req).2.1.wasFCloseCalled = w.wasFCloseCalled := by
  have happ : ∀ v : Writer, v.Sound → v.room ≠ 0 → (v.append [c]).Sound := by
    intro v hv hroom
    exact hv.append (by simp only [List.length_singleton]; omega)
  by_cases hroom : w.room = 0
  · cases hc : w.isClosed with
    | true => simpa [putChar, hroom, hc] using h
    | false =>
      obtain ⟨hs, hf, -⟩ := emptyBuffProc_sound h hc req
      have hf' := h.notCalled hc
      by_cases hroom' : (emptyBuffProc w req).1.room = 0
      · simpa [putChar, hroom, hc, hroom', hf, hf'] using hs
      · simpa [putChar, hroom, hc, hroom', hf, hf', Writer.append] using happ _ hs hroom'
  · simpa [putChar, hroom, Writer.append] using happ w h hroom

theorem putChars_sound (h : w.Sound) (str : Text) (req : Request) :
    (putChars str w req).2.1.Sound ∧ (putChars str w req).2.1.wasFCloseCalled = w.wasFCloseCalled := by
  induction str generalizing w req with
  | nil => exact ⟨h, rfl⟩
  | cons c cs ih =>
    obtain ⟨hs, hf⟩ := putChar_sound h c req
    obtain ⟨hs', hf'⟩ := ih hs (putChar c w req).2.2
    exact ⟨hs', hf'.trans hf⟩

theorem putStrLoop_eq_putChars (fuel : Nat) {str : Text} (hne : str ≠ []) (h : w.Sound)
    (hf : (if w.room = 0 ∧ w.isClosed = false then str.length + 1 else str.length) ≤ fuel) :
    putStrLoop fuel str w req = some (putChars str w req) := by
  induction fuel generalizing str w req with
  | zero =>
    have := List.length_pos_of_ne_nil hne
    split at hf <;> omega
  | succ fuel ih =>
    rw [putStrLoop, putChars_split str w req]
    dsimp only
    by_cases hdone : w.room ≠ 0 ∧ min str.length w.room = str.length
    · rw [if_pos hdone, hdone.2, List.drop_length, putChars]
    · rw [if_neg hdone]
      have hlt : min str.length w.room < str.length := by
        have := List.length_pos_of_ne_nil hne
        by_cases hr : w.room = 0
        · omega
        · have := hdone ∘ And.intro hr
          omega
      have hfull : (w.append (str.take (min str.length w.room))).room = 0 := by
        rw [append_room, List.length_take]
        omega
      have hrest : str.drop (min str.length w.room) ≠ [] := by
        intro hnil
        have := List.drop_eq_nil_iff.mp hnil
        omega
      cases hc : w.isClosed with
      | true =>
        rw [putChars_closed (by simpa using hc) hfull]
        simp [hrest]
      | false =>
        have hs := h.append (show (str.take (min str.length w.room)).length ≤ _ by rw [List.length_take]; omega)
        obtain ⟨hs', -, hroom'⟩ := emptyBuffProc_sound hs (by simpa using hc) req
        rw [if_neg (by simp), putChars_full hs (by simpa using hc) hfull hrest]
        refine ih hrest hs' ?_
        rw [if_neg fun hand => hroom' hand.2 hand.1, List.length_drop]
        by_cases hr : w.room = 0
        · rw [if_pos ⟨hr, hc⟩] at hf
          omega
        · rw [if_neg fun hand => hr hand.1] at hf
          omega

/-- `FCGX_PutStr` leaves what putting its bytes one at a time leaves, and reports
whether each of them would have been accepted. -/
theorem putStr_eq_putChars (h : w.Sound) (str : Text) (req : Request) :
    putStr str w req =
      some (if (putChars str w req).1 then some str.length else none, (putChars str w req).2) := by
  unfold putStr
  split
  · rename_i hle
    rw [putChars_room hle]
    rfl
  · rename_i hgt
    have hne : str ≠ [] := by intro hnil; simp [hnil] at hgt
    rw [putStrLoop_eq_putChars _ hne h (by split <;> omega)]
    rfl

end Writing

end Libfcgi
