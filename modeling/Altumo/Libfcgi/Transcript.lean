import Altumo.Library.Transition
import Altumo.Libfcgi.Output

/-!
# The messages of a request

What the web server is told while a request is answered, above the level of bytes:
pieces of the two output streams, the end of each of them, and the end of the
request. The calls on the two writers, in any order, send such messages.
-/

namespace Libfcgi

open CString Descriptor Transition

inductive Sink where
  | out | err
  deriving DecidableEq, Repr

def Sink.type : Sink → Byte
  | .out => stdout
  | .err => stderr

/-- The content of a data record. An empty one would end the stream. -/
abbrev Chunk := { c : Text // c ≠ [] ∧ c.length ≤ maxLength }

inductive Message where
  | data : Sink → Chunk → Message
  | eof : Sink → Message
  | ended : (appStatus : Int32) → Message
  deriving DecidableEq

/-- The padding that makes a record a multiple of eight bytes long. -/
def paddingOf (c : Text) : Text := List.replicate (alignInt8 c.length - c.length) 0

theorem paddingOf_length {c : Text} (h : c.length ≤ maxLength) :
    (paddingOf c).length < 8 ∧ (c.length + (paddingOf c).length) % 8 = 0 := by
  unfold maxLength at h
  rw [paddingOf, List.length_replicate, alignInt8_eq (by omega)]
  omega

def Message.record (requestId : RequestId) : Message → Record
  | .data s c =>
    { version := version1, type := s.type, requestId := requestId, content := c.val, padding := paddingOf c.val,
      reserved := 0, content_le := c.property.2
      padding_le := Nat.le_of_lt (Nat.lt_trans (paddingOf_length c.property.2).1 (by decide)) }
  | .eof s =>
    { version := version1, type := s.type, requestId := requestId, content := [], padding := [], reserved := 0
      content_le := by decide, padding_le := by decide }
  | .ended appStatus =>
    { version := version1, type := endRequest, requestId := requestId
      content := (makeEndRequestBody appStatus requestComplete).bytes, padding := [], reserved := 0
      content_le := by simp [EndRequestBody.bytes, maxLength], padding_le := by decide }

/-- The messages as bytes. -/
def wire (requestId : RequestId) (ms : List Message) : Text := ms.flatMap fun m => (m.record requestId).bytes

@[simp] theorem wire_nil (requestId : RequestId) : wire requestId [] = [] := rfl

@[simp] theorem wire_append (requestId : RequestId) (ms ns : List Message) :
    wire requestId (ms ++ ns) = wire requestId ms ++ wire requestId ns := List.flatMap_append

/-- The bytes that a message adds to a stream. -/
def Message.content (s : Sink) : Message → Text
  | .data s' c => if s' = s then c.val else []
  | _ => []

/-- The bytes of a stream, put together again. -/
def contentOf (s : Sink) (ms : List Message) : Text := ms.flatMap (Message.content s)

@[simp] theorem contentOf_nil (s : Sink) : contentOf s [] = [] := rfl

@[simp] theorem contentOf_append (s : Sink) (ms ns : List Message) :
    contentOf s (ms ++ ns) = contentOf s ms ++ contentOf s ns := List.flatMap_append

/-- What may come after what: nothing after the end of the request, and no more of a
stream after its end. -/
def Precedes : Message → Message → Prop
  | .ended _, _ => False
  | .eof s, .data s' _ => s ≠ s'
  | .eof s, .eof s' => s ≠ s'
  | _, _ => True

/-- The end of the request is the last message. -/
theorem ended_last {ms : List Message} (h : ms.Pairwise Precedes) {appStatus : Int32} (hm : .ended appStatus ∈ ms) :
    ∃ ns, ms = ns ++ [.ended appStatus] ∧ ∀ a, .ended a ∉ ns := by
  obtain ⟨ns, rest, rfl⟩ := List.append_of_mem hm
  obtain ⟨hns, hrest, hcross⟩ := List.pairwise_append.mp h
  cases rest with
  | nil =>
    refine ⟨ns, rfl, ?_⟩
    intro a ha
    exact hcross _ ha (.ended appStatus) (by simp)
  | cons m rest => exact absurd (List.rel_of_pairwise_cons hrest (List.mem_cons_self)) (by simp [Precedes])

/-- The writing side of a request, with what its calls have accepted. -/
structure Output where
  out : Writer
  err : Writer
  req : Request
  written : Sink → Text

def Output.writer (o : Output) : Sink → Writer
  | .out => o.out
  | .err => o.err

def Output.update (o : Output) (w : Writer) (req : Request) (accepted : Text) (s : Sink) : Output :=
  { out := if s = .out then w else o.out
    err := if s = .err then w else o.err
    req := req
    written := fun s' => if s' = s then o.written s' ++ accepted else o.written s' }

@[simp] theorem update_writer_self (o : Output) (w : Writer) (req : Request) (accepted : Text) (s : Sink) :
    (o.update w req accepted s).writer s = w := by
  cases s <;> simp [Output.update, Output.writer]

theorem update_writer_ne (o : Output) (w : Writer) (req : Request) (accepted : Text) {s s' : Sink} (h : s' ≠ s) :
    (o.update w req accepted s).writer s' = o.writer s' := by
  cases s <;> cases s' <;> simp_all [Output.update, Output.writer]

/-- The calls that an application makes while it answers a request. -/
inductive Call where
  | putChar : Sink → Byte → Call
  | putStr : Sink → Text → Call
  | putS : Sink → Text → Call
  | fflush : Sink → Call
  | fclose : Sink → Call
  | setExitStatus : Int32 → Call

/-- A call, and the bytes that it reports as accepted. -/
def Output.call (o : Output) : Call → Option Output
  | .putChar s c =>
    let (result, w, req) := Libfcgi.putChar c (o.writer s) o.req
    some (o.update w req (if result.isSome then [c] else []) s)
  | .putStr s str => do
    let (result, w, req) ← Libfcgi.putStr str (o.writer s) o.req
    some (o.update w req (if result.isSome then str else []) s)
  | .putS s str => do
    let (result, w, req) ← Libfcgi.putS str (o.writer s) o.req
    some (o.update w req (if result.isSome then passed str else []) s)
  | .fflush s =>
    let (_, w, req) := Libfcgi.fflush (o.writer s) o.req
    some (o.update w req [] s)
  | .fclose s => do
    let (_, w, req) ← Libfcgi.fclose (o.writer s) o.req
    some (o.update w req [] s)
  | .setExitStatus status => some { o with req := Libfcgi.setExitStatus status o.req }

/-- The length of a string that is put fits in an `int`. -/
def Call.Fits : Call → Prop
  | .putS _ str => (cStr str).length ≤ intMax
  | _ => True

instance : DecidablePred Call.Fits
  | .putS _ str => inferInstanceAs (Decidable ((cStr str).length ≤ intMax))
  | .putChar _ _ | .putStr _ _ | .fflush _ | .fclose _ | .setExitStatus _ => inferInstanceAs (Decidable True)

/-- The two closes of `FCGX_Finish_r`, and whether both return 0. -/
def Output.finish (o : Output) : Option (Bool × Output) := do
  let (errOk, err, req) ← Libfcgi.fclose o.err o.req
  let o := o.update err req [] .err
  let (outOk, out, req) ← Libfcgi.fclose o.out o.req
  some (errOk && outOk, o.update out req [] .out)

/-- The writing side of a request that has just been accepted. -/
def startOutput (start : Request) (outLen errLen : BuffLen) : Output :=
  ⟨newWriter outLen stdout, newWriter errLen stderr, { start with nWriters := 2 }, fun _ => []⟩

/-- Such a request, and every order of calls that fit. -/
def outputSystem (start : Request) : System Output Call where
  initial o := ∃ outLen errLen, o = startOutput start outLen errLen
  enabled _ c := c.Fits
  next := Output.call

/-- A responder request whose connection makes these writes. -/
def requestOver (results : List WriteResult) : Request :=
  ⟨⟨1, by decide⟩, responder, true, false, 0, 0, ⟨⟨[], [], none⟩, ⟨[], results⟩⟩, Buffer.zeroed 64⟩

/-- The streams of such a request as `FCGX_Accept_r` creates them. -/
def outputOver (results : List WriteResult) : Output :=
  startOutput (requestOver results) (newBuffLen 8192 false) (newBuffLen 512 false)

theorem outputOver_reachable (results : List WriteResult) :
    (outputSystem (requestOver results)).Reachable (outputOver results) := .initial ⟨_, _, rfl⟩

/-- Without a failure everything is written, however the writes cut it. -/
theorem writeLoop_reliable {results : List WriteResult} (h : ∀ r ∈ results, ∃ count, r = .wrote count) (buf sent : Text) :
    ∃ rest, writeLoop results buf sent = (none, ⟨sent ++ buf, rest⟩) ∧ ∀ r ∈ rest, ∃ count, r = .wrote count := by
  induction results generalizing buf sent with
  | nil => cases buf <;> simp [writeLoop]
  | cons r results ih =>
    cases buf with
    | nil => exact ⟨r :: results, by simp [writeLoop], h⟩
    | cons b buf =>
      obtain ⟨count, rfl⟩ := h r List.mem_cons_self
      obtain ⟨rest, he, hr⟩ := ih (fun r' hr' => h r' (List.mem_cons_of_mem _ hr')) ((b :: buf).drop count)
        (sent ++ (b :: buf).take count)
      refine ⟨rest, ?_, hr⟩
      simp only [writeLoop, he, List.append_assoc, List.take_append_drop]

theorem writeItAll_reliable {o : Outbox} (h : o.Reliable) (buf : Text) :
    ∃ o', writeItAll o buf = (none, o') ∧ o'.sent = o.sent ++ buf ∧ o'.Reliable := by
  obtain ⟨rest, he, hr⟩ := writeLoop_reliable h buf o.sent
  exact ⟨_, he, rfl, hr⟩

/-- A writer that has not been closed and has met no error. -/
structure Writer.Open (w : Writer) (s : Sink) : Prop where
  type : w.type = s.type
  isClosed : w.isClosed = false
  wasFCloseCalled : w.wasFCloseCalled = false
  errno : w.errno = 0
  rawWrite : w.rawWrite = false
  reserved : w.reserved = headerLen
  stop : w.stop = w.bufflen.len
  fits : headerLen + w.content.length ≤ w.bufflen.len

theorem Writer.Open.sound {w : Writer} {s : Sink} (h : w.Open s) : w.Sound := by
  have hstop := h.stop
  have hfits := h.fits
  refine ⟨?_, Nat.le_of_eq hstop, Nat.le_of_eq h.reserved, fun _ => hstop, fun hf => absurd hf (by simp [h.wasFCloseCalled])⟩
  rw [Writer.used, h.reserved, hstop]
  exact hfits

/-- A step of an open writer: what it sends, and where the bytes that it was given are. -/
structure Emits (s : Sink) (w : Writer) (req : Request) (str : Text) (ms : List Message) (w' : Writer) (req' : Request) :
    Prop where
  isOpen : w'.Open s
  frame : req' = req.setOutbox req'.ipc.outbox
  reliable : req'.ipc.outbox.Reliable
  sent : req'.ipc.outbox.sent = req.ipc.outbox.sent ++ wire req.requestId ms
  content : contentOf s ms ++ w'.content = w.content ++ str
  only : ∀ m ∈ ms, ∃ c, m = .data s c
  isAnythingWritten : w'.isAnythingWritten = (w.isAnythingWritten || !ms.isEmpty)

theorem Emits.appStatus {s : Sink} {w w' : Writer} {req req' : Request} {str : Text} {ms : List Message}
    (h : Emits s w req str ms w' req') : req'.appStatus = req.appStatus := by
  rw [h.frame]
  rfl

theorem Emits.trans {s : Sink} {w w' w'' : Writer} {req req' req'' : Request} {str str' : Text} {ms ms' : List Message}
    (h : Emits s w req str ms w' req') (h' : Emits s w' req' str' ms' w'' req'') :
    Emits s w req (str ++ str') (ms ++ ms') w'' req'' := by
  have hid : req'.requestId = req.requestId := by rw [h.frame]; rfl
  refine ⟨h'.isOpen, ?_, h'.reliable, ?_, ?_, ?_, ?_⟩
  · rw [h'.frame, h.frame]
    rfl
  · rw [h'.sent, h.sent, hid, wire_append, List.append_assoc]
  · rw [contentOf_append, List.append_assoc, h'.content, ← List.append_assoc, h.content, List.append_assoc]
  · intro m hm
    rcases List.mem_append.mp hm with hm | hm
    · exact h.only m hm
    · exact h'.only m hm
  · rw [h'.isAnythingWritten, h.isAnythingWritten]
    cases ms <;> simp

section Step

variable {s : Sink} {w : Writer} {req : Request}

theorem emits_nil (h : w.Open s) (hr : req.ipc.outbox.Reliable) : Emits s w req [] [] w req :=
  ⟨h, rfl, hr, by simp, by simp, by simp, by simp⟩

theorem emits_append (h : w.Open s) (hr : req.ipc.outbox.Reliable) {str : Text} (hs : str.length ≤ w.room) :
    Emits s w req str [] (w.append str) req := by
  have hres := h.reserved
  have hstop := h.stop
  have hfits := h.fits
  refine ⟨⟨h.type, h.isClosed, h.wasFCloseCalled, h.errno, h.rawWrite, hres, hstop, ?_⟩, rfl, hr, by simp,
    by simp [Writer.append], by simp, by simp [Writer.append]⟩
  simp only [Writer.room, Writer.used] at hs
  simp only [Writer.append, List.length_append]
  omega

/-- The content of an open writer as a message, if there is any. -/
theorem encapsulate_open (h : w.Open s) (hne : w.content ≠ []) (requestId : RequestId) :
    ∃ c : Chunk, c.val = w.content ∧
      w.encapsulate requestId = { w with reserved := 0, content := ((Message.data s c).record requestId).bytes } := by
  have hle := w.bufflen.len_le
  have hfits := h.fits
  have hused : w.used - headerLen = w.content.length := by rw [Writer.used, h.reserved]; omega
  have hpos := List.length_pos_of_ne_nil hne
  refine ⟨⟨w.content, hne, by unfold headerLen at hfits; omega⟩, rfl, ?_⟩
  simp [Writer.encapsulate, h.rawWrite, hused, hpos, h.reserved, h.type, Record.bytes, Record.header, Message.record,
    paddingOf, makeHeader]

theorem encapsulate_idle (h : w.Open s) (hnil : w.content = []) (requestId : RequestId) :
    w.encapsulate requestId = w.empty := by
  simp [Writer.encapsulate, Writer.empty, h.rawWrite, Writer.used, h.reserved, hnil]

theorem empty_reserve_open (h : w.Open s) : w.empty.reserve.Open s := by
  have hlen := w.bufflen.len_ge
  refine ⟨h.type, h.isClosed, h.wasFCloseCalled, h.errno, h.rawWrite, ?_, h.stop, ?_⟩
  · simp [Writer.reserve, Writer.empty, h.rawWrite]
  · simp only [Writer.reserve, Writer.empty, List.length_nil, headerLen]
    omega

/-- Emptying the buffer of an open writer sends its content as one message. -/
theorem emptyBuffProc_emits (h : w.Open s) (hr : req.ipc.outbox.Reliable) :
    ∃ ms, Emits s w req [] ms (emptyBuffProc w req).1 (emptyBuffProc w req).2 ∧
      (emptyBuffProc w req).1.content = [] := by
  by_cases hne : w.content = []
  · have hrun : emptyBuffProc w req = (w.empty.reserve, req) := by
      simp [emptyBuffProc, transmit, encapsulate_idle h hne, Writer.used, Writer.empty]
    rw [hrun]
    exact ⟨[], ⟨empty_reserve_open h, rfl, hr, by simp, by simp [Writer.reserve, Writer.empty, hne], by simp,
      by simp [Writer.reserve, Writer.empty]⟩, rfl⟩
  · obtain ⟨c, hc, hencap⟩ := encapsulate_open h hne req.requestId
    obtain ⟨o, hw, hsent, hrel⟩ := writeItAll_reliable hr ((Message.data s c).record req.requestId).bytes
    have hpos := List.length_pos_of_ne_nil ((Message.data s c).record req.requestId).bytes_ne_nil
    have hrun : emptyBuffProc w req = ({ w with isAnythingWritten := true }.empty.reserve, req.setOutbox o) := by
      simp only [emptyBuffProc, transmit, hencap, Writer.used, hw]
      rw [if_pos (by omega)]
      rfl
    have hopen : ({ w with isAnythingWritten := true } : Writer).Open s :=
      ⟨h.type, h.isClosed, h.wasFCloseCalled, h.errno, h.rawWrite, h.reserved, h.stop, h.fits⟩
    rw [hrun]
    refine ⟨[.data s c], ⟨empty_reserve_open hopen, rfl, hrel, ?_, ?_, ?_, ?_⟩, rfl⟩
    · rw [show (req.setOutbox o).ipc.outbox = o from rfl, hsent]
      simp [wire]
    · simp [contentOf, Message.content, Writer.reserve, Writer.empty, hc]
    · intro m hm
      exact ⟨c, by simpa using hm⟩
    · simp [Writer.reserve, Writer.empty]

theorem putChar_emits (h : w.Open s) (hr : req.ipc.outbox.Reliable) (c : Byte) :
    ∃ ms, (putChar c w req).1 = some c ∧ Emits s w req [c] ms (putChar c w req).2.1 (putChar c w req).2.2 := by
  by_cases hroom : w.room = 0
  · obtain ⟨ms, he, hnil⟩ := emptyBuffProc_emits h hr
    have hroom' := (emptyBuffProc_sound h.sound h.isClosed req).2.2 he.isOpen.isClosed
    have happ := emits_append he.isOpen he.reliable (show [c].length ≤ _ by simp only [List.length_singleton]; omega)
    refine ⟨ms, ?_, ?_⟩
    · simp [putChar, hroom, h.isClosed, hroom']
    · have htrans := he.trans happ
      simpa [putChar, hroom, h.isClosed, hroom'] using htrans
  · have happ := emits_append h hr (show [c].length ≤ _ by simp only [List.length_singleton]; omega)
    exact ⟨[], by simp [putChar, hroom], by simpa [putChar, hroom] using happ⟩

theorem putChars_emits (h : w.Open s) (hr : req.ipc.outbox.Reliable) (str : Text) :
    ∃ ms, (putChars str w req).1 = true ∧ Emits s w req str ms (putChars str w req).2.1 (putChars str w req).2.2 := by
  induction str generalizing w req with
  | nil => exact ⟨[], rfl, emits_nil h hr⟩
  | cons c cs ih =>
    obtain ⟨ms, hc, he⟩ := putChar_emits h hr c
    obtain ⟨ms', hall, he'⟩ := ih he.isOpen he.reliable
    refine ⟨ms ++ ms', ?_, he.trans he'⟩
    simp [putChars, hc, hall]

/-- Everything that is put on an open writer is accepted, and none of it is lost. -/
theorem putStr_emits (h : w.Open s) (hr : req.ipc.outbox.Reliable) (str : Text) :
    ∃ w' req' ms, putStr str w req = some (some str.length, w', req') ∧ Emits s w req str ms w' req' := by
  obtain ⟨ms, hall, he⟩ := putChars_emits h hr str
  refine ⟨_, _, ms, ?_, he⟩
  rw [putStr_eq_putChars h.sound, hall]
  rfl

/-- A writer that is writing its last records, which are not encapsulated. -/
structure Writer.Raw (w : Writer) (s : Sink) : Prop where
  type : w.type = s.type
  isClosed : w.isClosed = false
  wasFCloseCalled : w.wasFCloseCalled = false
  errno : w.errno = 0
  rawWrite : w.rawWrite = true
  reserved : w.reserved = 0
  stop : w.stop = w.bufflen.len
  fits : w.content.length ≤ w.bufflen.len

theorem Writer.Raw.sound (h : w.Raw s) : w.Sound := by
  have hstop := h.stop
  have hfits := h.fits
  have hres := h.reserved
  refine ⟨?_, Nat.le_of_eq hstop, by omega, fun _ => hstop, fun hf => absurd hf (by simp [h.wasFCloseCalled])⟩
  rw [Writer.used]
  omega

/-- A step of such a writer. What has been sent and what is in the buffer are one text. -/
structure Passes (s : Sink) (w : Writer) (req : Request) (str : Text) (w' : Writer) (req' : Request) : Prop where
  isRaw : w'.Raw s
  frame : req' = req.setOutbox req'.ipc.outbox
  reliable : req'.ipc.outbox.Reliable
  sent : req'.ipc.outbox.sent ++ w'.content = req.ipc.outbox.sent ++ w.content ++ str

theorem Passes.trans {w' w'' : Writer} {req' req'' : Request} {str str' : Text} (h : Passes s w req str w' req')
    (h' : Passes s w' req' str' w'' req'') : Passes s w req (str ++ str') w'' req'' := by
  refine ⟨h'.isRaw, ?_, h'.reliable, ?_⟩
  · rw [h'.frame, h.frame]
    rfl
  · rw [h'.sent, h.sent, List.append_assoc _ str]

theorem passes_append (h : w.Raw s) (hr : req.ipc.outbox.Reliable) {str : Text} (hs : str.length ≤ w.room) :
    Passes s w req str (w.append str) req := by
  have hres := h.reserved
  have hstop := h.stop
  have hfits := h.fits
  refine ⟨⟨h.type, h.isClosed, h.wasFCloseCalled, h.errno, h.rawWrite, hres, hstop, ?_⟩, rfl, hr,
    by simp [Writer.append]⟩
  simp only [Writer.room, Writer.used] at hs
  simp only [Writer.append, List.length_append]
  omega

theorem reserve_raw (hraw : w.rawWrite = true) : w.reserve = w := by
  cases w
  simp only at hraw
  simp [Writer.reserve, hraw]

theorem transmit_raw (h : w.Raw s) (hr : req.ipc.outbox.Reliable) :
    Passes s w req [] (transmit w req).1 (transmit w req).2 ∧ (transmit w req).1.content = [] := by
  have hraw := h.rawWrite
  have hres := h.reserved
  by_cases hnil : w.content = []
  · have hrun : transmit w req = (w, req) := by
      simp [transmit, Writer.used, hres, hnil, reserve_raw hraw]
    rw [hrun]
    exact ⟨⟨h, rfl, hr, by simp⟩, hnil⟩
  · obtain ⟨o, hw, hsent, hrel⟩ := writeItAll_reliable hr w.content
    have hpos := List.length_pos_of_ne_nil hnil
    have hrun : transmit w req = ({ w with isAnythingWritten := true }.empty.reserve, req.setOutbox o) := by
      simp only [transmit, Writer.used, hw]
      rw [if_pos (by omega)]
    rw [hrun]
    refine ⟨⟨⟨h.type, h.isClosed, h.wasFCloseCalled, h.errno, hraw, ?_, h.stop, Nat.zero_le _⟩, rfl, hrel, ?_⟩, rfl⟩
    · simp [Writer.reserve, Writer.empty, hraw]
    · simp [Writer.reserve, Writer.empty, Request.setOutbox, hsent]

theorem putChar_passes (h : w.Raw s) (hr : req.ipc.outbox.Reliable) (c : Byte) :
    Passes s w req [c] (putChar c w req).2.1 (putChar c w req).2.2 := by
  by_cases hroom : w.room = 0
  · have hencap : w.encapsulate req.requestId = w := by simp [Writer.encapsulate, h.rawWrite]
    have he : Passes s w req [] (emptyBuffProc w req).1 (emptyBuffProc w req).2 := by
      rw [emptyBuffProc, hencap]
      exact (transmit_raw h hr).1
    have hroom' := (emptyBuffProc_sound h.sound h.isClosed req).2.2 he.isRaw.isClosed
    have happ := passes_append he.isRaw he.reliable (show [c].length ≤ _ by simp only [List.length_singleton]; omega)
    simpa [putChar, hroom, h.isClosed, hroom'] using he.trans happ
  · have happ := passes_append h hr (show [c].length ≤ _ by simp only [List.length_singleton]; omega)
    simpa [putChar, hroom] using happ

theorem putStr_passes (h : w.Raw s) (hr : req.ipc.outbox.Reliable) (str : Text) :
    ∃ r w' req', putStr str w req = some (r, w', req') ∧ Passes s w req str w' req' := by
  rw [putStr_eq_putChars h.sound]
  refine ⟨_, _, _, rfl, ?_⟩
  induction str generalizing w req with
  | nil => exact ⟨h, rfl, hr, by simp [putChars]⟩
  | cons c cs ih =>
    have he := putChar_passes h hr c
    exact he.trans (ih he.isRaw he.reliable)

/-- A writer that has been closed without an error. -/
structure Writer.Shut (w : Writer) : Prop where
  isClosed : w.isClosed = true
  wasFCloseCalled : w.wasFCloseCalled = true
  errno : w.errno = 0
  content : w.content = []
  reserved : w.reserved = 0
  stop : w.stop = 0

theorem Writer.Shut.sound (h : w.Shut) : w.Sound := by
  have hstop := h.stop
  have hres := h.reserved
  refine ⟨?_, by omega, by omega, fun hf => absurd hf (by simp [h.wasFCloseCalled]), fun _ => h.isClosed⟩
  rw [Writer.used, hres, h.content, hstop]
  exact Nat.le_refl 0

theorem wire_eof (requestId : RequestId) (s : Sink) :
    wire requestId [.eof s] = (makeHeader s.type requestId 0 0).bytes := by
  simp [wire, Record.bytes, Record.header, Message.record, makeHeader]

theorem wire_ended (requestId : RequestId) (appStatus : Int32) :
    wire requestId [.ended appStatus] = endRequestBytes requestId appStatus requestComplete := by
  simp [wire, Record.bytes, Record.header, Message.record, makeHeader, endRequestBytes]

theorem sink_type_eq_stderr (s : Sink) : (s.type == stderr) = decide (s = .err) := by
  cases s <;> decide

def eofMessages (s : Sink) (w : Writer) : List Message :=
  if s = .err ∧ w.content = [] ∧ w.isAnythingWritten = false then [] else [.eof s]

def endMessages (req : Request) : List Message := if req.nWriters = 1 then [.ended req.appStatus] else []

theorem writeEof_passes (h : w.Raw s) (hr : req.ipc.outbox.Reliable) :
    ∃ w' req', writeEof w req = some (w', req') ∧ Passes s w req (wire req.requestId (eofMessages s w)) w' req' := by
  have hcond : (w.type == stderr && w.used == 0 && !w.isAnythingWritten) = true ↔
      s = .err ∧ w.content = [] ∧ w.isAnythingWritten = false := by
    rw [h.type, sink_type_eq_stderr, Writer.used, h.reserved]
    simp [and_assoc]
  by_cases hc : s = .err ∧ w.content = [] ∧ w.isAnythingWritten = false
  · refine ⟨w, req, ?_, ?_⟩
    · simp [writeEof, hcond.mpr hc]
    · rw [eofMessages, if_pos hc]
      exact ⟨h, rfl, hr, by simp⟩
  · obtain ⟨r, w', req', hput, he⟩ := putStr_passes h hr (makeHeader w.type req.requestId 0 0).bytes
    refine ⟨w', req', ?_, ?_⟩
    · simp [writeEof, mt hcond.mp hc, hput]
    · rw [eofMessages, if_neg hc, wire_eof, ← h.type]
      exact he

theorem writeEndRequest_passes (h : w.Raw s) (hr : req.ipc.outbox.Reliable) :
    ∃ w' req', writeEndRequest w req = some (w', req') ∧ Passes s w req (wire req.requestId (endMessages req)) w' req' := by
  by_cases hn : req.nWriters = 1
  · obtain ⟨r, w', req', hput, he⟩ := putStr_passes h hr (endRequestBytes req.requestId req.appStatus requestComplete)
    refine ⟨w', req', ?_, ?_⟩
    · simp [writeEndRequest, hn, hput]
    · rw [endMessages, if_pos hn, wire_ended]
      exact he
  · refine ⟨w, req, ?_, ?_⟩
    · simp [writeEndRequest, hn]
    · rw [endMessages, if_neg hn]
      exact ⟨h, rfl, hr, by simp⟩

/-- What the last part of closing a writer sends. -/
theorem writeCloseRecords_passes (h : w.raw.Raw s) (hr : req.ipc.outbox.Reliable) :
    ∃ w' req', writeCloseRecords w req = some (w', req'.dropWriter) ∧
      Passes s w.raw req (wire req.requestId (eofMessages s w ++ endMessages req)) w' req' := by
  obtain ⟨w₁, req₁, hrun₁, he₁⟩ := writeEof_passes h hr
  obtain ⟨w₂, req₂, hrun₂, he₂⟩ := writeEndRequest_passes he₁.isRaw he₁.reliable
  have hend : endMessages req₁ = endMessages req := by rw [he₁.frame]; rfl
  have hid : req₁.requestId = req.requestId := by rw [he₁.frame]; rfl
  refine ⟨w₂, req₂, by simp [writeCloseRecords, hrun₁, hrun₂], ?_⟩
  have htrans := he₁.trans he₂
  rw [hend, hid, ← wire_append] at htrans
  exact htrans

/-- The last data of a writer, encapsulated for the close. -/
theorem encapsulate_closing (h : w.Open s) (requestId : RequestId) :
    ∃ ms, (w.encapsulate requestId).raw.Raw s ∧ (w.encapsulate requestId).content = wire requestId ms ∧
      contentOf s ms = w.content ∧ (∀ m ∈ ms, ∃ c, m = .data s c) ∧
      eofMessages s (w.encapsulate requestId) = eofMessages s w := by
  have hsound := encapsulate_sound h.sound h.wasFCloseCalled requestId
  have hle := hsound.used_le
  by_cases hne : w.content = []
  · rw [encapsulate_idle h hne]
    refine ⟨[], ⟨h.type, h.isClosed, h.wasFCloseCalled, h.errno, rfl, rfl, h.stop, Nat.zero_le _⟩, rfl, hne.symm, by simp, ?_⟩
    simp [eofMessages, Writer.empty, hne]
  · obtain ⟨c, hc, hencap⟩ := encapsulate_open h hne requestId
    rw [hencap] at hle ⊢
    simp only [Writer.used, h.stop, Nat.zero_add] at hle
    refine ⟨[.data s c], ⟨h.type, h.isClosed, h.wasFCloseCalled, h.errno, rfl, rfl, h.stop, hle⟩, by simp [wire], ?_, ?_, ?_⟩
    · simp [contentOf, Message.content, hc]
    · intro m hm
      exact ⟨c, by simpa using hm⟩
    · simp [eofMessages, hne, Record.bytes_ne_nil]

/-- Closing an open writer sends its last data, the end of its stream and, for the
last writer, the end of the request. -/
theorem fclose_open (h : w.Open s) (hr : req.ipc.outbox.Reliable) :
    ∃ w' o ms, fclose w req = some (true, w', (req.setOutbox o).dropWriter) ∧ w'.Shut ∧
      o.Reliable ∧ o.sent = req.ipc.outbox.sent ++ wire req.requestId (ms ++ (eofMessages s w ++ endMessages req)) ∧
      contentOf s ms = w.content ∧ ∀ m ∈ ms, ∃ c, m = .data s c := by
  obtain ⟨ms, hraw, hcontent, hms, honly, heof⟩ := encapsulate_closing h req.requestId
  obtain ⟨w₁, req₁, hrun, he⟩ := writeCloseRecords_passes hraw hr
  obtain ⟨ht, hnil⟩ := transmit_raw (show w₁.Raw s from he.isRaw) (show req₁.dropWriter.ipc.outbox.Reliable from he.reliable)
  generalize hT : transmit w₁ req₁.dropWriter = result at ht hnil
  obtain ⟨w₂, req₂⟩ := result
  dsimp only at ht hnil
  have hframe : req₂ = (req.setOutbox req₂.ipc.outbox).dropWriter := by
    rw [ht.frame, he.frame]
    rfl
  have hres := ht.isRaw.reserved
  have herrno := ht.isRaw.errno
  refine ⟨w₂.shutDown, req₂.ipc.outbox, ms, ?_,
    ⟨rfl, rfl, herrno, hnil, hres, ?_⟩, ht.reliable, ?_, hms, honly⟩
  · rw [← hframe]
    simp [fclose, h.wasFCloseCalled, emptyBuffProcClose, hrun, hT, herrno]
  · simp [Writer.shutDown, Writer.used, hres, hnil]
  · have hsent := ht.sent
    rw [hnil, List.append_nil, List.append_nil, show req₁.dropWriter.ipc = req₁.ipc from rfl, he.sent] at hsent
    rw [hsent, show (w.encapsulate req.requestId).raw.content = (w.encapsulate req.requestId).content from rfl, hcontent,
      heof, wire_append _ ms, List.append_assoc]

end Step

end Libfcgi
