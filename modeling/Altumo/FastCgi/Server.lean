import Mathlib.Logic.Function.Basic
import Altumo.Library.CString
import Altumo.Library.Transition

/-!
# The echo server

A `Server` accepts connections and a `Session` echoes what it reads and logs it. The
handlers run one at a time, each when the operation it was given to completes. A
Session is named by the number of its creation, so that a pointer to a deleted
Session names none. The history records what an observer sees and is read by no
handler.
-/

namespace FastCgi

open CString Transition

def maxLength : Nat := 1024

abbrev SessionId := Nat

structure Session where
  data_ : Buffer maxLength

/-- An asynchronous operation that has been started and has not completed. A write
is of the first `length` bytes of the array, of which `sent` have gone out. -/
inductive Operation where
  | accept : Operation
  | read : Operation
  | write : (length sent : Nat) → Operation
  deriving DecidableEq, Repr

/-- A line that `handle_read` prints: two numbers, and the array as a C string. -/
structure TraceLine where
  bytesTransferred : Nat
  bufferSize : Nat
  data : Option Text

structure History where
  /-- The chunks that reads have delivered, in the order of the completions. -/
  reads : List (SessionId × Text)
  /-- The bytes that have gone to the peer of each Session. -/
  sent : SessionId → Text
  /-- The bytes that had gone to the peer when the last write reported success. -/
  echoed : SessionId → Text
  failedWrites : List SessionId
  deleted : List SessionId

structure World where
  sessions : SessionId → Option Session
  nextSession : SessionId
  pending : List (SessionId × Operation)
  log : Text
  cout : List TraceLine
  history : History

/-- An operation is started. -/
def World.start (w : World) (id : SessionId) (op : Operation) : World :=
  { w with pending := w.pending ++ [(id, op)] }

/-- An operation is no longer outstanding. -/
def World.finish (w : World) (id : SessionId) (op : Operation) : World :=
  { w with pending := w.pending.erase (id, op) }

def World.delete (w : World) (id : SessionId) : World :=
  { w with
    sessions := Function.update w.sessions id none
    history := { w.history with deleted := w.history.deleted ++ [id] } }

/-- `new Session( io_service_ )`, where `data` is what its array holds. -/
def World.create (w : World) (data : Buffer maxLength) : World :=
  { w with
    sessions := Function.update w.sessions w.nextSession (some ⟨data⟩)
    nextSession := w.nextSession + 1 }

/-- `delete this`, or the `delete` of a Session. -/
def deleteSession (id : SessionId) (w : World) : Option World := do
  let _ ← w.sessions id
  some (w.delete id)

/-- `socket_.async_read_some` of a Session. -/
def asyncReadSome (id : SessionId) (w : World) : Option World := do
  let _ ← w.sessions id
  some (w.start id .read)

/-- `Session::start`. -/
def Session.start (id : SessionId) (w : World) : Option World := asyncReadSome id w

/-- The trace line and the log entry of a read. -/
def World.print (w : World) (session : Session) (bytesTransferred : Nat) : World :=
  { w with
    cout := w.cout ++ [⟨bytesTransferred, maxLength, session.data_.toCString⟩]
    log := w.log ++ session.data_.bytes.take bytesTransferred }

/-- `Session::handle_read`. -/
def Session.handleRead (id : SessionId) (error : Bool) (bytesTransferred : Nat) (w : World) : Option World :=
  if !error then do
    let session ← w.sessions id
    some ((w.print session bytesTransferred).start id (.write bytesTransferred 0))
  else deleteSession id w

/-- `Session::handle_write`. -/
def Session.handleWrite (id : SessionId) (error : Bool) (w : World) : Option World :=
  if !error then asyncReadSome id w else deleteSession id w

/-- `Server::start_accept`. -/
def Server.startAccept (data : Buffer maxLength) (w : World) : World :=
  (w.create data).start w.nextSession .accept

/-- `Server::handle_accept`. -/
def Server.handleAccept (id : SessionId) (error : Bool) (data : Buffer maxLength) (w : World) : Option World := do
  let w ← if !error then Session.start id w else deleteSession id w
  some (Server.startAccept data w)

/-- What the event loop is told about an outstanding operation. A write may report
progress any number of times before it completes. -/
inductive Completion where
  | accepted : SessionId → (error : Bool) → (data : Buffer maxLength) → Completion
  | received : SessionId → (chunk : Text) → Completion
  | readFailed : SessionId → Completion
  | progressed : SessionId → (length sent count : Nat) → Completion
  | written : SessionId → (length : Nat) → Completion
  | writeFailed : SessionId → (length sent : Nat) → Completion

/-- A read delivers 1 to `max_length` bytes. A write reports success only when all
its bytes have gone out. -/
def enabled (w : World) : Completion → Prop
  | .accepted id _ _ => (id, .accept) ∈ w.pending
  | .received id chunk => (id, .read) ∈ w.pending ∧ 0 < chunk.length ∧ chunk.length ≤ maxLength
  | .readFailed id => (id, .read) ∈ w.pending
  | .progressed id length sent count => (id, .write length sent) ∈ w.pending ∧ 0 < count ∧ sent + count ≤ length
  | .written id length => (id, .write length length) ∈ w.pending
  | .writeFailed id length sent => (id, .write length sent) ∈ w.pending

/-- The bytes arrive in the array of the Session. -/
def World.deposit (w : World) (id : SessionId) (session : Session) (chunk : Text) : World :=
  { w with
    sessions := Function.update w.sessions id (some ⟨session.data_.fill chunk⟩)
    history := { w.history with reads := w.history.reads ++ [(id, chunk)] } }

/-- The next bytes of the array of the Session go to its peer. -/
def World.transmit (w : World) (id : SessionId) (session : Session) (sent count : Nat) : World :=
  { w with history := { w.history with
      sent := Function.update w.history.sent id
        (w.history.sent id ++ (session.data_.bytes.drop sent).take count) } }

def World.noteEchoed (w : World) (id : SessionId) : World :=
  { w with history := { w.history with
      echoed := Function.update w.history.echoed id (w.history.sent id) } }

def World.noteFailed (w : World) (id : SessionId) : World :=
  { w with history := { w.history with failedWrites := w.history.failedWrites ++ [id] } }

/-- A completion and the handler that it runs. `none` is a use of a deleted Session. -/
def complete (w : World) : Completion → Option World
  | .accepted id error data => Server.handleAccept id error data (w.finish id .accept)
  | .received id chunk => do
    let session ← w.sessions id
    Session.handleRead id false chunk.length ((w.finish id .read).deposit id session chunk)
  | .readFailed id => Session.handleRead id true 0 (w.finish id .read)
  | .progressed id length sent count => do
    let session ← w.sessions id
    some (((w.finish id (.write length sent)).transmit id session sent count).start id
      (.write length (sent + count)))
  | .written id length => Session.handleWrite id false ((w.finish id (.write length length)).noteEchoed id)
  | .writeFailed id length sent =>
    Session.handleWrite id true ((w.finish id (.write length sent)).noteFailed id)

/-- The completion is an error that is delivered to the Session. -/
def Completion.ErrorTo (id : SessionId) : Completion → Prop
  | .accepted id' error _ => id' = id ∧ error = true
  | .readFailed id' => id' = id
  | .writeFailed id' _ _ => id' = id
  | _ => False

/-- Before any Session: the log file has been written to by earlier runs. -/
def emptyWorld (log : Text) : World :=
  ⟨fun _ => none, 0, [], log, [], ⟨[], fun _ => [], fun _ => [], [], []⟩⟩

/-- `Server( io_service, port )`, then the event loop. -/
def echoServer (log : Text) : System World Completion where
  initial w := ∃ data, w = Server.startAccept data (emptyWorld log)
  enabled := enabled
  next := complete

def World.Live (w : World) (id : SessionId) : Prop := ∃ session, w.sessions id = some session

section
variable {w : World} {id : SessionId}

theorem complete_accepted (h : w.Live id) (data : Buffer maxLength) :
    complete w (.accepted id false data) =
      some (Server.startAccept data ((w.finish id .accept).start id .read)) := by
  obtain ⟨session, hs⟩ := h
  simp [complete, Server.handleAccept, Session.start, asyncReadSome, World.finish, hs]

theorem complete_acceptFailed (h : w.Live id) (data : Buffer maxLength) :
    complete w (.accepted id true data) =
      some (Server.startAccept data ((w.finish id .accept).delete id)) := by
  obtain ⟨session, hs⟩ := h
  simp [complete, Server.handleAccept, deleteSession, World.finish, hs]

theorem complete_received {session : Session} (hs : w.sessions id = some session) (chunk : Text) :
    complete w (.received id chunk) =
      some ((((w.finish id .read).deposit id session chunk).print ⟨session.data_.fill chunk⟩ chunk.length).start
        id (.write chunk.length 0)) := by
  simp [complete, Session.handleRead, World.deposit, hs]

theorem complete_readFailed (h : w.Live id) :
    complete w (.readFailed id) = some ((w.finish id .read).delete id) := by
  obtain ⟨session, hs⟩ := h
  simp [complete, Session.handleRead, deleteSession, World.finish, hs]

theorem complete_progressed {session : Session} (hs : w.sessions id = some session) (length sent count : Nat) :
    complete w (.progressed id length sent count) =
      some (((w.finish id (.write length sent)).transmit id session sent count).start id
        (.write length (sent + count))) := by
  simp [complete, hs]

theorem complete_written (h : w.Live id) (length : Nat) :
    complete w (.written id length) =
      some (((w.finish id (.write length length)).noteEchoed id).start id .read) := by
  obtain ⟨session, hs⟩ := h
  simp [complete, Session.handleWrite, asyncReadSome, World.finish, World.noteEchoed, hs]

theorem complete_writeFailed (h : w.Live id) (length sent : Nat) :
    complete w (.writeFailed id length sent) =
      some (((w.finish id (.write length sent)).noteFailed id).delete id) := by
  obtain ⟨session, hs⟩ := h
  simp [complete, Session.handleWrite, deleteSession, World.finish, World.noteFailed, hs]

/-- What each completion does while the Session that it reaches is live. -/
inductive Step (w : World) : Completion → World → Prop where
  | accepted {id : SessionId} (data : Buffer maxLength) : (id, .accept) ∈ w.pending → w.Live id →
    Step w (.accepted id false data) (Server.startAccept data ((w.finish id .accept).start id .read))
  | acceptFailed {id : SessionId} (data : Buffer maxLength) : (id, .accept) ∈ w.pending → w.Live id →
    Step w (.accepted id true data) (Server.startAccept data ((w.finish id .accept).delete id))
  | received {id : SessionId} {session : Session} {chunk : Text} : (id, .read) ∈ w.pending →
    w.sessions id = some session → chunk.length ≤ maxLength →
    Step w (.received id chunk) ((((w.finish id .read).deposit id session chunk).print
      ⟨session.data_.fill chunk⟩ chunk.length).start id (.write chunk.length 0))
  | readFailed {id : SessionId} : (id, .read) ∈ w.pending → w.Live id →
    Step w (.readFailed id) ((w.finish id .read).delete id)
  | progressed {id : SessionId} {session : Session} {length sent count : Nat} :
    (id, .write length sent) ∈ w.pending → w.sessions id = some session → sent + count ≤ length →
    Step w (.progressed id length sent count)
      (((w.finish id (.write length sent)).transmit id session sent count).start id (.write length (sent + count)))
  | written {id : SessionId} {length : Nat} : (id, .write length length) ∈ w.pending → w.Live id →
    Step w (.written id length) (((w.finish id (.write length length)).noteEchoed id).start id .read)
  | writeFailed {id : SessionId} {length sent : Nat} : (id, .write length sent) ∈ w.pending → w.Live id →
    Step w (.writeFailed id length sent) (((w.finish id (.write length sent)).noteFailed id).delete id)

/-- When only live Sessions have operations, every completion takes its step. -/
theorem exists_step (hlive : ∀ id op, (id, op) ∈ w.pending → w.Live id) {c : Completion} (he : enabled w c) :
    ∃ w', complete w c = some w' ∧ Step w c w' := by
  cases c with
  | accepted id error data =>
    have hl := hlive id _ he
    cases error with
    | false => exact ⟨_, complete_accepted hl data, .accepted data he hl⟩
    | true => exact ⟨_, complete_acceptFailed hl data, .acceptFailed data he hl⟩
  | received id chunk =>
    obtain ⟨hm, -, hle⟩ := he
    obtain ⟨session, hs⟩ := hlive id _ hm
    exact ⟨_, complete_received hs chunk, .received hm hs hle⟩
  | readFailed id =>
    have hl := hlive id _ he
    exact ⟨_, complete_readFailed hl, .readFailed he hl⟩
  | progressed id length sent count =>
    obtain ⟨hm, -, hle⟩ := he
    obtain ⟨session, hs⟩ := hlive id _ hm
    exact ⟨_, complete_progressed hs length sent count, .progressed hm hs hle⟩
  | written id length =>
    have hl := hlive id _ he
    exact ⟨_, complete_written hl length, .written he hl⟩
  | writeFailed id length sent =>
    have hl := hlive id _ he
    exact ⟨_, complete_writeFailed hl length sent, .writeFailed he hl⟩

end

end FastCgi
