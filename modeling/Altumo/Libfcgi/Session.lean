import Altumo.Libfcgi.Reader

/-!
# Requests, one after the other

`FCGX_Accept_r` and `FCGX_Finish_r`, which open and close the streams of a request. A
connection on which no request begins is closed, and the next one is waited for.
-/

namespace Libfcgi

open CString Descriptor

/-- `in`, `out`, `err` and `envp` of a request that has been accepted. -/
structure Streams where
  input : Reader
  out : Writer
  err : Writer
  envp : List Text

/-- A `FCGX_Request` and its listening socket. `req.ipc` is the connection while there is
one. Of the connections that have been closed it is known what was sent on them. The
calls of `OS_Accept` return those that are waiting, and then an error. -/
structure Session where
  req : Request
  connected : Bool
  streams : Option Streams
  waiting : List Connection
  acceptError : Errno
  closed : List Outbox
  /-- Whether `Malloc` returns misaligned addresses for the next buffers. -/
  misaligned : List Bool

/-- `FCGX_InitRequest`. -/
def initRequest (waiting : List Connection) (acceptError : Errno) (misaligned : List Bool) (stack : Buffer 64) : Session where
  req := ⟨nullRequestId, 0, false, false, 0, 0, ⟨⟨[], [], none⟩, ⟨[], []⟩⟩, stack⟩
  connected := false
  streams := none
  waiting := waiting
  acceptError := acceptError
  closed := []
  misaligned := misaligned

/-- The buffer of the next stream. -/
def Session.newBuffer (s : Session) (bufflen : Nat) : BuffLen × Session :=
  (newBuffLen bufflen (s.misaligned.headD false), { s with misaligned := s.misaligned.tail })

/-- `FCGX_Free`. -/
def Session.free (s : Session) (close : Bool) : Session :=
  { s with
    streams := none
    connected := s.connected && !close
    closed := if close && s.connected then s.closed ++ [s.req.ipc.outbox] else s.closed }

/-- `FCGX_Finish_r`. -/
def Session.finish (s : Session) : Option Session :=
  match s.streams with
  | none => some (s.free (!s.req.keepConnection))
  | some t => do
    let (errOk, _, req) ← fclose t.err s.req
    let (outOk, _, req) ← fclose t.out req
    some ({ s with req := req }.free (!s.req.keepConnection || !errOk || !outOk || t.input.errno != 0))

/-- The parameter that says the role, which an unknown role has not. -/
def roleStr (role : Nat) : Option Text :=
  if role = responder then some (text "FCGI_ROLE=RESPONDER")
  else if role = authorizer then some (text "FCGI_ROLE=AUTHORIZER")
  else if role = filter then some (text "FCGI_ROLE=FILTER")
  else none

/-- The environment of a request that has begun, or `none` for `TryAgain`. -/
def readEnvironment (s : Input) : Option (Option (List Text) × Input) :=
  match roleStr s.req.role with
  | none => some (none, s)
  | some role => do
    let (ok, p, s) ← readParams fillBuffProc (putParam (newParams 30 (by decide)) role)
      { s with stream := s.stream.setType params }
    some (if ok then some p.vec else none, s)

/-- A new reader on an open connection, up to the end of the environment. -/
def openRequest (bufflen : BuffLen) (req : Request) : Option (Option (List Text) × Input) := do
  let s ← fillBuffProc ⟨newReader bufflen 0, { req with isBeginProcessed := false }⟩
  if s.req.isBeginProcessed then readEnvironment s else some (none, s)

/-- The rest of the data structures of a request. -/
def Session.build (s : Session) (input : Reader) (envp : List Text) : Session :=
  let (outLen, s) := s.newBuffer 8192
  let (errLen, s) := s.newBuffer 512
  { s with
    req := { s.req with nWriters := 2 }
    streams := some ⟨input.setType stdin, newWriter outLen stdout, newWriter errLen stderr, envp⟩ }

/-- The loop of `FCGX_Accept_r` over a connection that is open: whether it leaves the loop. -/
def Session.acceptPass (s : Session) : Option (Bool × Session) := do
  let (bufflen, s) := s.newBuffer 8192
  let (envp, input) ← openRequest bufflen s.req
  let s := { s with req := input.req }
  match envp with
  | none => some (false, s.free true)
  | some envp => some (true, s.build input.stream envp)

def Session.connect (s : Session) (ipc : Connection) (waiting : List Connection) : Session :=
  { s with req := { s.req with ipc := ipc }, connected := true, waiting := waiting }

/-- The loop of `FCGX_Accept_r` where no connection is open, and what it returns. -/
def acceptLoop : List Connection → Session → Option (Int × Session)
  | [], s => some (-s.acceptError.val, { s with waiting := [] })
  | ipc :: waiting, s => do
    let (accepted, s) ← (s.connect ipc waiting).acceptPass
    if accepted then some (0, s) else acceptLoop waiting s

/-- `FCGX_Accept_r`. A connection that has been kept is the first. -/
def Session.accept (s : Session) : Option (Int × Session) := do
  let s ← s.finish
  if s.connected then
    let (accepted, s) ← s.acceptPass
    if accepted then some (0, s) else acceptLoop s.waiting s
  else acceptLoop s.waiting s

end Libfcgi
