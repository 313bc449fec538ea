import Altumo.Library.Descriptor
import Altumo.Libfcgi.Record

/-!
# Output streams

A writer collects what is put on it behind the place of a header. When the buffer
is full it is sent as one record. The two writers of a request share the
connection and the count of the writers that are open.
-/

namespace Libfcgi

open CString Descriptor

/-- `FCGX_Request`, without its streams. The array is what the `response` of the next
`ProcessManagementRecord` is found to hold. -/
structure Request where
  requestId : RequestId
  role : Nat
  isBeginProcessed : Bool
  keepConnection : Bool
  appStatus : Int32
  nWriters : Int
  ipc : Connection
  stack : Buffer 64

/-- `data->bufflen`. -/
structure BuffLen where
  len : Nat
  len_ge : 24 ≤ len
  len_le : len ≤ maxLength + 1
  len_mod : len % 8 = 0

/-- The buffer of `NewStream`: it loses eight bytes when `Malloc` returns an address
that is not a multiple of eight. -/
def newBuffLen (bufflen : Nat) (misaligned : Bool) : BuffLen :=
  have h : alignInt8 (min (max bufflen 32) (maxLength + 1)) = (min (max bufflen 32) (maxLength + 1) + 7) / 8 * 8 :=
    alignInt8_eq (by unfold maxLength; omega)
  have hlow : (if misaligned then 8 else 0) ≤ 8 := by split <;> decide
  have hmod : (if misaligned then 8 else 0) % 8 = 0 := by split <;> decide
  { len := alignInt8 (min (max bufflen 32) (maxLength + 1)) - if misaligned then 8 else 0
    len_ge := by rw [h]; unfold maxLength; omega
    len_le := by rw [h]; unfold maxLength; omega
    len_mod := by rw [h]; omega }

/-- `FCGX_Stream` and `FCGX_Stream_Data` of a writer. The buffer holds `reserved` bytes
that are left for a header, and behind them what has been put. -/
structure Writer where
  bufflen : BuffLen
  reserved : Nat
  content : Text
  stop : Nat
  type : Byte
  isClosed : Bool
  wasFCloseCalled : Bool
  errno : Int
  isAnythingWritten : Bool
  rawWrite : Bool

/-- `NewWriter`. -/
def newWriter (bufflen : BuffLen) (type : Byte) : Writer :=
  ⟨bufflen, headerLen, [], bufflen.len, type, false, false, 0, false, false⟩

/-- `wrNext - data->buff`. -/
def Writer.used (w : Writer) : Nat := w.reserved + w.content.length

/-- `stop - wrNext`. -/
def Writer.room (w : Writer) : Nat := w.stop - w.used

/-- `memcpy(wrNext, str, n)` and `wrNext += n`. -/
def Writer.append (w : Writer) (str : Text) : Writer := { w with content := w.content ++ str }

/-- `SetError`. -/
def Writer.setError (w : Writer) (errno : Int) : Writer :=
  { w with errno := if w.errno = 0 then errno else w.errno, isClosed := true }

def writeLoop : List WriteResult → Text → Text → Option Errno × Outbox
  | results, [], sent => (none, ⟨sent, results⟩)
  | [], buf, sent => (none, ⟨sent ++ buf, []⟩)
  | .wrote count :: results, buf, sent => writeLoop results (buf.drop count) (sent ++ buf.take count)
  | .failed errno :: results, _, sent => (some errno, ⟨sent, results⟩)

/-- `write_it_all`: it writes until nothing is left or a write fails. -/
def writeItAll (o : Outbox) (buf : Text) : Option Errno × Outbox := writeLoop o.results buf o.sent

/-- The part of `EmptyBuffProc` before the write: stream data gets its header and its
padding, without data the place of the header is reclaimed. -/
def Writer.encapsulate (w : Writer) (requestId : RequestId) : Writer :=
  if w.rawWrite then w
  else
    let cLen := w.used - headerLen
    if 0 < cLen then
      let eLen := alignInt8 cLen
      { w with
        reserved := 0
        content := (makeHeader w.type requestId cLen (eLen - cLen)).bytes ++
          (w.content.drop (headerLen - w.reserved) ++ List.replicate (eLen - cLen) 0) }
    else { w with reserved := 0, content := [] }

/-- Outside of raw writes the place of the next header is left free. -/
def Writer.reserve (w : Writer) : Writer :=
  { w with reserved := if w.rawWrite then w.reserved else w.reserved + headerLen }

def Request.setOutbox (req : Request) (o : Outbox) : Request := { req with ipc := { req.ipc with outbox := o } }

def Writer.empty (w : Writer) : Writer := { w with reserved := 0, content := [] }

/-- The write of `EmptyBuffProc`, and what it leaves in the buffer. -/
def transmit (w : Writer) (req : Request) : Writer × Request :=
  if w.used ≠ 0 then
    let w := { w with isAnythingWritten := true }
    match writeItAll req.ipc.outbox w.content with
    | (some errno, outbox) => (w.setError errno, req.setOutbox outbox)
    | (none, outbox) => (w.empty.reserve, req.setOutbox outbox)
  else (w.reserve, req)

/-- `EmptyBuffProc(stream, FALSE)`. -/
def emptyBuffProc (w : Writer) (req : Request) : Writer × Request := transmit (w.encapsulate req.requestId) req

/-- `FCGX_PutChar`, where `none` is `EOF`. -/
def putChar (c : Byte) (w : Writer) (req : Request) : Option Byte × Writer × Request :=
  if w.room ≠ 0 then (some c, w.append [c], req)
  else if w.isClosed then (none, w, req)
  else
    let (w, req) := emptyBuffProc w req
    if w.room ≠ 0 then (some c, w.append [c], req) else (none, w, req)

/-- The general case of `FCGX_PutStr`. The result says whether everything was moved. -/
def putStrLoop : (fuel : Nat) → Text → Writer → Request → Option (Bool × Writer × Request)
  | 0, _, _, _ => none
  | fuel + 1, str, w, req =>
    let m := min str.length w.room
    let w' := w.append (str.take m)
    if w.room ≠ 0 ∧ m = str.length then some (true, w', req)
    else if w.isClosed then some (false, w', req)
    else
      let (w'', req) := emptyBuffProc w' req
      putStrLoop fuel (str.drop m) w'' req

/-- `FCGX_PutStr`: the number of bytes, or `none` for `EOF`. -/
def putStr (str : Text) (w : Writer) (req : Request) : Option (Option Nat × Writer × Request) :=
  if str.length ≤ w.room then some (some str.length, w.append str, req)
  else do
    let (moved, w, req) ← putStrLoop (str.length + 1) str w req
    some (if moved then some str.length else none, w, req)

/-- What `FCGX_PutS` has moved: `strlen` gives the number of bytes, as an `int`. -/
def passed (str : Text) : Text := (cStr str).take (intOf (cStr str).length).toNat

/-- `FCGX_PutS`. On a negative number of bytes the `memcpy` of `FCGX_PutStr` has no defined effect. -/
def putS (str : Text) (w : Writer) (req : Request) : Option (Option Nat × Writer × Request) :=
  if intOf (cStr str).length < 0 then none else putStr (passed str) w req

theorem passed_of_le {str : Text} (h : (cStr str).length ≤ intMax) : passed str = cStr str := by
  rw [passed, intOf_toNat h, List.take_length]

theorem putS_of_le {str : Text} (h : (cStr str).length ≤ intMax) (w : Writer) (req : Request) :
    putS str w req = putStr (cStr str) w req := by
  have hn : ¬ intOf (cStr str).length < 0 := by
    rw [intOf_of_le h]
    omega
  rw [putS, if_neg hn, passed_of_le h]

/-- The end of request record of a request. -/
def endRequestBytes (requestId : RequestId) (appStatus : Int32) (protocolStatus : Byte) : Text :=
  let body := (makeEndRequestBody appStatus protocolStatus).bytes
  (makeHeader endRequest requestId body.length 0).bytes ++ body

/-- The end of the stream. The error stream has none when nothing was written to it. -/
def writeEof (w : Writer) (req : Request) : Option (Writer × Request) :=
  if !(w.type == stderr && w.used == 0 && !w.isAnythingWritten) then do
    let (_, w, req) ← putStr (makeHeader w.type req.requestId 0 0).bytes w req
    some (w, req)
  else some (w, req)

/-- The end of the request, which the last writer sends. -/
def writeEndRequest (w : Writer) (req : Request) : Option (Writer × Request) :=
  if req.nWriters = 1 then do
    let (_, w, req) ← putStr (endRequestBytes req.requestId req.appStatus requestComplete) w req
    some (w, req)
  else some (w, req)

/-- `rawWrite = TRUE`, so that the final records are not encapsulated. -/
def Writer.raw (w : Writer) : Writer := { w with rawWrite := true }

/-- `nWriters--`. -/
def Request.dropWriter (req : Request) : Request := { req with nWriters := req.nWriters - 1 }

/-- `WriteCloseRecords`. -/
def writeCloseRecords (w : Writer) (req : Request) : Option (Writer × Request) := do
  let (w, req) ← writeEof w.raw req
  let (w, req) ← writeEndRequest w req
  some (w, req.dropWriter)

/-- `EmptyBuffProc(stream, TRUE)`. -/
def emptyBuffProcClose (w : Writer) (req : Request) : Option (Writer × Request) := do
  let (w, req) ← writeCloseRecords (w.encapsulate req.requestId) req
  some (transmit w req)

/-- `FCGX_FFlush`: whether it returns 0. -/
def fflush (w : Writer) (req : Request) : Bool × Writer × Request :=
  if w.isClosed then (true, w, req)
  else
    let (w, req) := emptyBuffProc w req
    (!w.isClosed, w, req)

/-- `stop = wrNext` leaves a closed writer no room. -/
def Writer.shutDown (w : Writer) : Writer := { w with wasFCloseCalled := true, isClosed := true, stop := w.used }

/-- `FCGX_FClose`: whether it returns 0. -/
def fclose (w : Writer) (req : Request) : Option (Bool × Writer × Request) :=
  if !w.wasFCloseCalled then do
    let (w, req) ← emptyBuffProcClose w req
    some (w.errno == 0, w.shutDown, req)
  else some (w.errno == 0, w, req)

/-- `FCGX_SetExitStatus`. -/
def setExitStatus (status : Int32) (req : Request) : Request := { req with appStatus := status }

end Libfcgi
