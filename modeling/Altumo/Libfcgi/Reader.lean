import Altumo.Libfcgi.Writer

/-!
# Input streams

A reader gives its client the content of the records of one type. What else is on
the connection is answered or skipped inside `FillBuffProc`, which also reads the
bodies of such records through the stream that it is filling. `none` stands for what
has no defined result, or for a failed assertion.
-/

namespace Libfcgi

open CString Descriptor

def unsupportedVersion : Int := -2
def protocolError : Int := -3
def paramsError : Int := -4
def callSeqError : Int := -5

/-- `FCGX_Stream` and `FCGX_Stream_Data` of a reader. The buffer holds `unread` from
`rdNext` on; the first `avail` bytes of it are in front of `stop`. -/
structure Reader where
  unread : Text
  avail : Nat
  bufflen : BuffLen
  type : Byte
  eorStop : Bool
  skip : Bool
  contentLen : Nat
  paddingLen : Nat
  isClosed : Bool
  errno : Int

/-- A reader and its request. -/
structure Input where
  stream : Reader
  req : Request

/-- `NewReader`. -/
def newReader (bufflen : BuffLen) (type : Byte) : Reader := ⟨[], 0, bufflen, type, false, false, 0, 0, false, 0⟩

/-- `SetReaderType`. -/
def Reader.setType (r : Reader) (type : Byte) : Reader :=
  { r with type := type, eorStop := false, skip := false, contentLen := 0, paddingLen := 0, avail := 0, isClosed := false }

/-- `SetError`. -/
def Input.setError (s : Input) (errno : Int) : Input :=
  { s with stream := { s.stream with errno := if s.stream.errno = 0 then errno else s.stream.errno, isClosed := true } }

/-- `rdNext += n`, in front of `stop`. -/
def Input.advance (s : Input) (n : Nat) : Input :=
  { s with stream := { s.stream with unread := s.stream.unread.drop n, avail := s.stream.avail - n } }

/-- The bytes that are to be read, in the buffer and behind it. -/
def Input.ahead (s : Input) : Text := s.stream.unread ++ s.req.ipc.inbox.bytes

def Request.setInbox (req : Request) (i : Inbox) : Request := { req with ipc := { req.ipc with inbox := i } }

/-- What a read that returns nothing is reported as. -/
def Inbox.error (i : Inbox) : Int :=
  match i.fault with
  | none => protocolError
  | some errno => errno

/-- The read of an empty buffer, and whether the buffer then holds anything. -/
def Input.refill (s : Input) : Bool × Input :=
  if s.stream.unread.isEmpty then
    let (piece, inbox) := s.req.ipc.inbox.read s.stream.bufflen.len
    let s := { s with req := s.req.setInbox inbox }
    if piece.isEmpty then (false, s.setError (Inbox.error inbox))
    else (true, { s with stream := { s.stream with unread := piece } })
  else (true, s)

/-- The content that is in the buffer is given to the client. -/
def Reader.deliver (r : Reader) : Reader :=
  let count := min r.contentLen r.unread.length
  { r with contentLen := r.contentLen - count, avail := count }

/-- The content that is in the buffer is passed over. -/
def Reader.skipContent (r : Reader) : Reader :=
  let count := min r.contentLen r.unread.length
  { r with
    unread := r.unread.drop count
    contentLen := r.contentLen - count
    skip := if 0 < r.contentLen then decide (0 < r.contentLen - count) else r.skip }

def Reader.skipPadding (r : Reader) : Reader :=
  let count := min r.paddingLen r.unread.length
  { r with unread := r.unread.drop count, paddingLen := r.paddingLen - count }

/-- What the `Process` functions return. -/
inductive Status where
  | streamRecord | skip | beginRecord | mgmtRecord
  | error : Int → Status

/-- One pass of `FillBuffProc` returns, or goes on with the bytes of the header so far. -/
inductive Filled where
  | returned : Input → Filled
  | again : (header : Text) → Input → Filled

/-- What follows on a header that has been interpreted. -/
def afterHeader (status : Status) (s : Input) : Filled :=
  let s := { s with stream := { s.stream with eorStop := false, isClosed := false } }
  match status with
  | .streamRecord =>
    if s.stream.contentLen = 0 then .returned { s with stream := { s.stream with avail := 0, isClosed := true } }
    else .again [] s
  | .skip => .again [] { s with stream := { s.stream with skip := true } }
  | .beginRecord => .returned s
  | .mgmtRecord => .again [] s
  | .error code => .returned (s.setError code)

abbrev ProcessHeader := Header → Input → Option (Status × Input)

/-- The bytes of the buffer go to the header until it is whole. -/
def fillHeader (processHeader : ProcessHeader) (header : Text) (s : Input) : Option Filled :=
  let count := min (headerLen - header.length) s.stream.unread.length
  let header := header ++ s.stream.unread.take count
  let s := { s with stream := { s.stream with unread := s.stream.unread.drop count } }
  if header.length < headerLen then some (.again header s)
  else do
    let h ← headerOf header
    let (status, s) ← processHeader h { s with stream := { s.stream with eorStop := true, avail := 0 } }
    some (afterHeader status s)

/-- The end of a record ends the stream of a recursive call. -/
def fillEor (processHeader : ProcessHeader) (header : Text) (s : Input) : Option Filled :=
  if s.stream.eorStop then some (.returned { s with stream := { s.stream with avail := 0, isClosed := true } })
  else fillHeader processHeader header s

def fillPadding (processHeader : ProcessHeader) (header : Text) (s : Input) : Option Filled :=
  let s := { s with stream := s.stream.skipPadding }
  if 0 < s.stream.paddingLen then some (.again header s) else fillEor processHeader header s

def fillContent (processHeader : ProcessHeader) (header : Text) (s : Input) : Option Filled :=
  if 0 < s.stream.contentLen && !s.stream.skip then some (.returned { s with stream := s.stream.deliver })
  else
    let s := { s with stream := s.stream.skipContent }
    if 0 < s.stream.contentLen then some (.again header s) else fillPadding processHeader header s

/-- A pass of the loop of `FillBuffProc`. -/
def fillPass (processHeader : ProcessHeader) (header : Text) (s : Input) : Option Filled :=
  match s.refill with
  | (false, s) => some (.returned s)
  | (true, s) => fillContent processHeader header s

def fillLoop (processHeader : ProcessHeader) : (fuel : Nat) → Text → Input → Option Input
  | 0, _, _ => none
  | fuel + 1, header, s => do
    match ← fillPass processHeader header s with
    | .returned s => some s
    | .again header s => fillLoop processHeader fuel header s

/-- `FillBuffProc`. Every pass takes at least one of the bytes that are ahead. -/
def fillWith (processHeader : ProcessHeader) (s : Input) : Option Input :=
  fillLoop processHeader (s.ahead.length + 1) [] s

/-- `FillBuffProc` as `ProcessHeader` calls it: `eorStop` ends it in front of the next header. -/
def fillToEor (s : Input) : Option Input := fillWith (fun _ _ => none) s

abbrev Fill := Input → Option Input

def takeChar (s : Input) : Option (Option Byte × Input) :=
  match s.stream.unread with
  | [] => none
  | c :: _ => some (some c, s.advance 1)

/-- `FCGX_GetChar`, where the byte `none` is `EOF`. -/
def getChar (fill : Fill) (s : Input) : Option (Option Byte × Input) :=
  if s.stream.isClosed then some (none, s)
  else if s.stream.avail ≠ 0 then takeChar s
  else do
    let s ← fill s
    if s.stream.isClosed then some (none, s)
    else if s.stream.avail ≠ 0 then takeChar s
    else none

/-- The general case of `FCGX_GetStr`. -/
def getStrLoop (fill : Fill) : (fuel : Nat) → (n : Nat) → Input → Option (Text × Input)
  | 0, _, _ => none
  | fuel + 1, n, s => do
    let m := min n s.stream.avail
    let str := s.stream.unread.take m
    let s' := s.advance m
    if s.stream.avail ≠ 0 ∧ m = n then some (str, s')
    else if s.stream.isClosed then some (str, s')
    else
      let s'' ← fill s'
      if s''.stream.isClosed then some (str, s'')
      else
        let (rest, s'') ← getStrLoop fill fuel (n - m) s''
        some (str ++ rest, s'')

/-- `FCGX_GetStr`: the bytes that it stores. -/
def getStr (fill : Fill) (n : Nat) (s : Input) : Option (Text × Input) :=
  if s.stream.isClosed || n == 0 then some ([], s)
  else if n ≤ s.stream.avail then some (s.stream.unread.take n, s.advance n)
  else getStrLoop fill (n + 2) n s

/-- At most `n` bytes, up to a newline or the end of the stream. -/
def getLineLoop (fill : Fill) : (n : Nat) → Input → Option (Text × Input)
  | 0, s => some ([], s)
  | n + 1, s => do
    let (c, s) ← getChar fill s
    match c with
    | none => some ([], s)
    | some c =>
      if c = 10 then some ([c], s)
      else
        let (cs, s) ← getLineLoop fill n s
        some (c :: cs, s)

/-- `FCGX_GetLine` with an array of `n` bytes: the string, or `none` for `NULL`. -/
def getLine (fill : Fill) (n : Nat) (s : Input) : Option (Option Text × Input) := do
  let (line, s) ← getLineLoop fill (n - 1) s
  some (if line.isEmpty && 0 < n - 1 then none else some line, s)

/-- `Params`: the strings, and how many pointers the vector can hold. The last of them is `NULL`. -/
structure Params where
  vec : List Text
  length : Nat
  fits : vec.length < length

/-- `NewParams`. -/
def newParams (length : Nat) (h : 0 < length) : Params := ⟨[], length, h⟩

/-- `PutParam`: a full vector is doubled. -/
def putParam (p : Params) (nameValue : Text) : Params where
  vec := p.vec ++ [nameValue]
  length := if p.length ≤ p.vec.length + 1 then p.length * 2 else p.length
  fits := by
    have := p.fits
    rw [List.length_append, List.length_singleton]
    split <;> omega

/-- A length that starts with this byte: the byte itself, or 31 bits in four bytes.
`none` is an error. -/
def readLength (fill : Fill) (first : Byte) (s : Input) : Option (Option Nat × Input) :=
  if first &&& 0x80 ≠ 0 then do
    let (lenBuff, s) ← getStr fill 3 s
    match lenBuff with
    | [b0, b1, b2] =>
      some (some (((first &&& 0x7f).toNat <<< 24) + (b0.toNat <<< 16) + (b1.toNat <<< 8) + b2.toNat), s)
    | _ => some (none, s.setError paramsError)
  else some (some first.toNat, s)

/-- A string of exactly `n` bytes. `none` is an error. -/
def readExactly (fill : Fill) (n : Nat) (s : Input) : Option (Option Text × Input) := do
  let (str, s) ← getStr fill n s
  if str.length ≠ n then some (none, s.setError paramsError)
  else some (some str, s)

/-- What a pass of `ReadParams` finds. -/
inductive Param where
  | eof | failed
  | found : (nameValue : Text) → Param

/-- The name and the value, of which the lengths are known. The size of the allocation
is an `int`. -/
def readNameValue (fill : Fill) (nameLen valueLen : Nat) (s : Input) : Option (Param × Input) :=
  if intMax < nameLen + valueLen + 2 then none
  else do
    let (name, s) ← readExactly fill nameLen s
    match name with
    | none => some (.failed, s)
    | some name =>
      let (value, s) ← readExactly fill valueLen s
      match value with
      | none => some (.failed, s)
      | some value => some (.found (name ++ 61 :: value), s)

/-- A pass of the loop of `ReadParams`. -/
def readParam (fill : Fill) (s : Input) : Option (Param × Input) := do
  let (c, s) ← getChar fill s
  match c with
  | none => some (.eof, s)
  | some c =>
    let (nameLen, s) ← readLength fill c s
    match nameLen with
    | none => some (.failed, s)
    | some nameLen =>
      let (c, s) ← getChar fill s
      match c with
      | none => some (.failed, s.setError paramsError)
      | some c =>
        let (valueLen, s) ← readLength fill c s
        match valueLen with
        | none => some (.failed, s)
        | some valueLen => readNameValue fill nameLen valueLen s

def readParamsLoop (fill : Fill) : (fuel : Nat) → Params → Input → Option (Bool × Params × Input)
  | 0, _, _ => none
  | fuel + 1, p, s => do
    let (param, s) ← readParam fill s
    match param with
    | .eof => some (true, p, s)
    | .failed => some (false, p, s)
    | .found nameValue => readParamsLoop fill fuel (putParam p nameValue) s

/-- `ReadParams`: whether it returns 0, and the parameters. -/
def readParams (fill : Fill) (p : Params) (s : Input) : Option (Bool × Params × Input) :=
  readParamsLoop fill (s.ahead.length + 1) p s

/-- `FCGX_GetParam`: the value of the first string that starts with the name and a `=`. -/
def getParam (name : Text) (envp : List Text) : Option Text :=
  match envp with
  | [] => none
  | p :: envp =>
    if (cStr p).take name.length = name ∧ (cStr p)[name.length]? = some 61 then some ((cStr p).drop (name.length + 1))
    else getParam name envp

/-- What the library answers for a variable of `FCGI_GET_VALUES`. -/
def valueOf (name : Text) : Option Byte :=
  if name = text "FCGI_MAX_CONNS" then some 49
  else if name = text "FCGI_MAX_REQS" then some 49
  else if name = text "FCGI_MPXS_CONNS" then some 48
  else none

/-- The loop of `ProcessManagementRecord` over the names: the array `response` from its
second word on, and how much of it is used. `sprintf` also writes a NUL. A name
without `=` in front of its first NUL makes `strchr` return `NULL`. -/
def answerValues : List Text → Text → Option Text
  | [], answer => some answer
  | p :: ps, answer =>
    if 61 ∈ cStr p then
      let name := (cStr p).takeWhile (· != 61)
      match valueOf name with
      | none => answerValues ps answer
      | some value =>
        let answer := answer ++ uchar name.length :: 1 :: (name ++ [value])
        if headerLen + answer.length + 1 ≤ 64 then answerValues ps answer else none
    else none

/-- The response to `FCGI_GET_VALUES`. Its padding is what the array holds behind the
answer: the NUL of `sprintf` if there is one, and what was there before. -/
def valuesResponse (stack : Buffer 64) (answer : Text) : Text :=
  let paddedLen := alignInt8 answer.length
  let written := answer ++ if answer.isEmpty then [] else [0]
  (makeHeader getValuesResult nullRequestId answer.length (paddedLen - answer.length)).bytes ++
    (written ++ stack.bytes.drop (headerLen + written.length)).take paddedLen

def unknownTypeResponse (type : Byte) : Text :=
  (makeHeader unknownType nullRequestId (makeUnknownTypeBody type).length 0).bytes ++ makeUnknownTypeBody type

/-- A response is written, or the error is kept in the stream. -/
def writeResponse (response : Text) (status : Status) (s : Input) : Status × Input :=
  match writeItAll s.req.ipc.outbox response with
  | (none, outbox) => (status, { s with req := s.req.setOutbox outbox })
  | (some errno, outbox) => (.error (-1), { s with req := s.req.setOutbox outbox }.setError errno)

/-- `ProcessManagementRecord`. -/
def processManagementRecord (type : Byte) (s : Input) : Option (Status × Input) :=
  if type = getValues then do
    let (_, p, s) ← readParams fillToEor (newParams 3 (by decide)) s
    if s.stream.errno ≠ 0 ∨ s.stream.contentLen ≠ 0 then some (.error protocolError, s)
    else
      let answer ← answerValues p.vec []
      some (writeResponse (valuesResponse s.req.stack answer) .mgmtRecord s)
  else some (writeResponse (unknownTypeResponse type) .mgmtRecord s)

/-- The body of a begin request: the role, the flags and five reserved bytes. -/
def beginBodyLen : Nat := 8

/-- The request that a begin request record starts. -/
def Request.start (req : Request) (body : Text) : Request :=
  { req with
    keepConnection := (body.getD 2 0) &&& keepConn != 0
    role := ((body.getD 0 0).toNat <<< 8) + (body.getD 1 0).toNat
    isBeginProcessed := true }

/-- The body of a begin request is read through the stream. -/
def readBeginBody (s : Input) : Option (Status × Input) := do
  let (body, s) ← getStr fillToEor beginBodyLen s
  if body.length ≠ beginBodyLen then some (.error protocolError, s)
  else some (.beginRecord, { s with req := s.req.start body })

/-- `ProcessBeginRecord`. -/
def processBeginRecord (requestId : RequestId) (s : Input) : Option (Status × Input) :=
  if requestId = nullRequestId ∨ s.stream.contentLen ≠ beginBodyLen then some (.error protocolError, s)
  else if s.req.isBeginProcessed then
    some (writeResponse (endRequestBytes requestId 0 cantMpxConn) .skip s)
  else readBeginBody { s with req := { s.req with requestId := requestId } }

/-- The lengths of a header are those of the current record. -/
def Input.enter (s : Input) (h : Header) : Input :=
  { s with stream := { s.stream with contentLen := h.contentLength, paddingLen := h.paddingLength.toNat } }

/-- `ProcessHeader`. -/
def processHeader (h : Header) (s : Input) : Option (Status × Input) :=
  if h.version ≠ version1 then some (.error unsupportedVersion, s)
  else
    let s := s.enter h
    if h.type = beginRequest then processBeginRecord h.requestId s
    else if h.requestId = nullRequestId then processManagementRecord h.type s
    else if h.requestId ≠ s.req.requestId then some (.skip, s)
    else if h.type ≠ s.stream.type then some (.error protocolError, s)
    else some (.streamRecord, s)

/-- `FillBuffProc`. -/
def fillBuffProc (s : Input) : Option Input := fillWith processHeader s

/-- `FCGX_StartFilterData`: whether it returns 0. -/
def startFilterData (s : Input) : Bool × Input :=
  if s.req.role ≠ filter ∨ s.stream.isClosed = false ∨ s.stream.type ≠ stdin then (false, s.setError callSeqError)
  else (true, { s with stream := s.stream.setType data })

end Libfcgi
