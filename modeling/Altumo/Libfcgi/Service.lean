import Altumo.Libfcgi.Serving
import Altumo.Libfcgi.Duplex

/-!
# A whole session

Requests are accepted, worked on and finished, over and over, on connections that come
and go. Every request that has been accepted is answered with one end of a request, on
the connection on which it came, and every connection is closed once or still open.
-/

namespace Libfcgi

open CString Descriptor Transition

/-- A session, how many requests it has accepted, the status that was set last, and what
the writers of the request that is worked on have accepted. -/
structure Service where
  session : Session
  served : Nat
  status : Int32
  written : Sink → Text

/-- What an application does, where it has streams only while it works on a request. -/
inductive Action where
  | accept
  | finish
  | work : WorkCall → Action

def Service.worked (v : Service) (t : Streams) : Work := ⟨t.input, ⟨t.out, t.err, v.session.req, v.written⟩⟩

def Service.act (v : Service) : Action → Option Service
  | .accept => do
    let (rc, s) ← v.session.accept
    some { v with session := s, served := if rc = 0 then v.served + 1 else v.served, written := fun _ => [] }
  | .finish => do
    let s ← v.session.finish
    some { v with session := s }
  | .work c => do
    let t ← v.session.streams
    let w ← (v.worked t).call c
    some
      { session := { v.session with
          req := w.output.req
          streams := some ⟨w.input, w.output.out, w.output.err, t.envp⟩ }
        served := v.served
        status := c.status v.status
        written := w.output.written }

/-- Any order of actions from a new session, where what is put fits. -/
def serviceSystem (waiting : List Connection) : System Service Action where
  initial v := ∃ acceptError misaligned stack,
    v = ⟨initRequest waiting acceptError misaligned stack, 0, 0, fun _ => []⟩
  enabled v a := ∀ c, a = .work c → v.session.streams ≠ none ∧ c.Fits
  next := Service.act

/-- What has been sent on every connection so far. -/
def Session.ledger (s : Session) : List Outbox := s.closed ++ if s.connected then [s.req.ipc.outbox] else []

def WholeRecords (o : Outbox) : Prop := ∃ rs : List Record, o.sent = rs.flatMap Record.bytes

/-- How many requests have been ended on a connection. -/
def completions (o : Outbox) : Nat := ((parseRecords o.sent).1.filter Record.completes).length

/-- Whether the request that is worked on is still to be ended. -/
def Service.pending (v : Service) : Nat :=
  match v.session.streams with
  | none => 0
  | some t => if t.out.isClosed && t.err.isClosed then 0 else 1

/-- A connection on which nothing has been sent and no write fails. -/
def Fresh (ipc : Connection) : Prop := ipc.outbox.sent = [] ∧ ipc.outbox.Reliable

section Counting

variable {o : Outbox} {rs : List Record} {req req' : Request}

theorem completions_eq (h : o.sent = rs.flatMap Record.bytes) : completions o = (rs.filter Record.completes).length := by
  rw [completions, h, parseRecords_whole]

theorem Answers.whole (h : Answers req req') (ho : req.ipc.outbox.Reliable) (hw : WholeRecords req.ipc.outbox) :
    req'.ipc.outbox.Reliable ∧ WholeRecords req'.ipc.outbox ∧ completions req'.ipc.outbox = completions req.ipc.outbox := by
  obtain ⟨ho', rs', hsent, hrs'⟩ := h.sent ho
  obtain ⟨rs, hrs⟩ := hw
  have hall : req'.ipc.outbox.sent = (rs ++ rs').flatMap Record.bytes := by
    rw [hsent, hrs, List.flatMap_append]
  have hnone : rs'.filter Record.completes = [] := by
    refine List.filter_eq_nil_iff.mpr ?_
    intro r hr hc
    have hout := hrs' r hr
    simp [Record.ofOutput, hc] at hout
  refine ⟨ho', ⟨_, hall⟩, ?_⟩
  rw [completions_eq hall, completions_eq hrs, List.filter_append, hnone, List.append_nil]

theorem filter_completes (rs : List Record) : rs.filter Record.completes = (rs.filter Record.ofOutput).filter Record.completes := by
  rw [List.filter_filter]
  refine List.filter_congr ?_
  intro r hr
  cases hc : r.completes <;> simp [Record.ofOutput, hc]

variable {start : Request} {out : Output} {ms : List Message}

/-- The records of a request end it once all writers are closed, and not before. -/
theorem Shares.completes (h : Shares start out ms rs) :
    (rs.filter Record.completes).length + (if out.out.isClosed && out.err.isClosed then 0 else 1) = 1 := by
  have hmessages : rs.filter Record.completes = (ms.map (Message.record start.requestId)).filter Record.completes := by
    rw [filter_completes, h.records]
  have hclosed : (∃ a, .ended a ∈ ms) ↔ (out.out.isClosed && out.err.isClosed) = true := by
    rw [h.accounts.ended, Bool.and_eq_true]
    exact ⟨fun hall => ⟨hall .out, hall .err⟩, fun hboth s => by cases s; exacts [hboth.1, hboth.2]⟩
  have hnone : ∀ ns : List Message, (∀ a, .ended a ∉ ns) →
      (ns.map (Message.record start.requestId)).filter Record.completes = [] := by
    intro ns hns
    refine List.filter_eq_nil_iff.mpr ?_
    intro r hr
    obtain ⟨m, hm, rfl⟩ := List.mem_map.mp hr
    cases m with
    | data s c => cases s <;> simp [Record.completes, Message.record, Sink.type, stdout, stderr, endRequest]
    | eof s => cases s <;> simp [Record.completes, Message.record, Sink.type, stdout, stderr, endRequest]
    | ended a => exact absurd hm (hns a)
  rw [hmessages]
  by_cases hended : ∃ a, .ended a ∈ ms
  · obtain ⟨a, ha⟩ := hended
    obtain ⟨ns, hns, hns'⟩ := ended_last h.accounts.ordered ha
    rw [if_pos (hclosed.mp ⟨a, ha⟩), hns, List.map_append, List.filter_append, hnone ns hns']
    rfl
  · rw [if_neg (fun hc => hended (hclosed.mpr hc)), hnone ms fun a ha => hended ⟨a, ha⟩]
    rfl

/-- Whatever has been sent for a request, its end is sent or still to come. -/
theorem Shares.whole (h : Shares start out ms rs) (hw : WholeRecords start.ipc.outbox) :
    WholeRecords out.req.ipc.outbox ∧
      completions out.req.ipc.outbox + (if out.out.isClosed && out.err.isClosed then 0 else 1) =
        completions start.ipc.outbox + 1 := by
  obtain ⟨rs₀, hrs₀⟩ := hw
  have hall : out.req.ipc.outbox.sent = (rs₀ ++ rs).flatMap Record.bytes := by
    have hsent : out.req.ipc.outbox.sent = _ := h.sent
    rw [hsent, hrs₀, List.flatMap_append]
  refine ⟨⟨_, hall⟩, ?_⟩
  rw [completions_eq hall, completions_eq hrs₀, List.filter_append, List.length_append, Nat.add_assoc, h.completes]

end Counting

/-- Between two requests: whole records on every connection, and no write that fails. -/
structure Session.Rests (s : Session) : Prop where
  whole : ∀ o ∈ s.ledger, WholeRecords o
  reliable : s.connected = true → s.req.ipc.outbox.Reliable
  waiting : ∀ ipc ∈ s.waiting, Fresh ipc

def Session.completions (s : Session) : Nat := (s.ledger.map Libfcgi.completions).sum

/-- How many connections there are, in whatever state. -/
def Session.connections (s : Session) : Nat := s.ledger.length + s.waiting.length

/-- No request is ended, and no connection lost. -/
structure Keeps (s s' : Session) : Prop where
  rests : s.Rests → s'.Rests ∧ s'.completions = s.completions
  connections : s'.connections = s.connections
  appStatus : s'.req.appStatus = s.req.appStatus

/-- A request that has just been accepted. -/
structure Session.Ready (s : Session) : Prop where
  connected : s.connected = true
  begun : s.req.isBeginProcessed = true
  nWriters : s.req.nWriters = 2
  streams : ∃ input outLen errLen envp, s.streams = some ⟨input, newWriter outLen stdout, newWriter errLen stderr, envp⟩

section Accepting

variable {s s' s'' : Session} {input : Input} {found : Option (List Text)}

theorem Keeps.refl (s : Session) : Keeps s s := ⟨fun h => ⟨h, rfl⟩, rfl, rfl⟩

theorem Keeps.trans (h : Keeps s s') (h' : Keeps s' s'') : Keeps s s'' where
  rests hs := by
    obtain ⟨hs', heq⟩ := h.rests hs
    obtain ⟨hs'', heq'⟩ := h'.rests hs'
    exact ⟨hs'', heq'.trans heq⟩
  connections := h'.connections.trans h.connections
  appStatus := h'.appStatus.trans h.appStatus

theorem free_ledger (s : Session) (close : Bool) : (s.free close).ledger = s.ledger := by
  cases close <;> cases hc : s.connected <;> simp [Session.free, Session.ledger, hc]

theorem free_keeps (s : Session) (close : Bool) : Keeps s (s.free close) := by
  refine ⟨?_, ?_, rfl⟩
  · intro hs
    refine ⟨⟨?_, ?_, hs.waiting⟩, ?_⟩
    · rw [free_ledger]
      exact hs.whole
    · intro hc
      exact hs.reliable (Bool.and_eq_true _ _ ▸ hc).1
    · rw [Session.completions, free_ledger]
      rfl
  · rw [Session.connections, free_ledger]
    rfl

theorem connect_keeps {ipc : Connection} {waiting : List Connection} (hc : s.connected = false)
    (hw : s.waiting = ipc :: waiting) : Keeps s (s.connect ipc waiting) := by
  have hledger : (s.connect ipc waiting).ledger = s.ledger ++ [ipc.outbox] := by
    simp [Session.ledger, Session.connect, hc]
  refine ⟨?_, ?_, rfl⟩
  · intro hs
    have hfresh := hs.waiting ipc (by rw [hw]; exact List.mem_cons_self)
    have hempty : ipc.outbox.sent = [].flatMap Record.bytes := hfresh.1
    refine ⟨⟨?_, fun _ => hfresh.2, ?_⟩, ?_⟩
    · intro o ho
      rw [hledger] at ho
      rcases List.mem_append.mp ho with ho | ho
      · exact hs.whole o ho
      · rw [List.mem_singleton.mp ho]
        exact ⟨[], hempty⟩
    · intro c hmem
      exact hs.waiting c (by rw [hw]; exact List.mem_cons_of_mem _ hmem)
    · rw [Session.completions, hledger, List.map_append, List.sum_append]
      simp [completions_eq hempty, Session.completions]
  · rw [Session.connections, hledger, Session.connections, hw]
    simp [Session.connect, Nat.add_assoc, Nat.add_comm]

theorem opened_keeps (hc : s.connected = true) (ha : Answers { s.req with isBeginProcessed := false } input.req) :
    Keeps s (s.opened input) := by
  have hledger : s.ledger = s.closed ++ [s.req.ipc.outbox] := by simp [Session.ledger, hc]
  have hopened : (s.opened input).ledger = s.closed ++ [input.req.ipc.outbox] := by
    have hc' : (s.opened input).connected = true := hc
    simp only [Session.ledger, hc', if_true]
    rfl
  refine ⟨?_, ?_, ha.appStatus⟩
  · intro hs
    have hlast : WholeRecords s.req.ipc.outbox := hs.whole _ (by rw [hledger]; simp)
    obtain ⟨hreliable, hwhole, hcount⟩ := ha.whole (hs.reliable hc) hlast
    refine ⟨⟨?_, fun _ => hreliable, hs.waiting⟩, ?_⟩
    · intro o ho
      rw [hopened] at ho
      rcases List.mem_append.mp ho with ho | ho
      · exact hs.whole o (by rw [hledger]; exact List.mem_append_left _ ho)
      · rw [List.mem_singleton.mp ho]
        exact hwhole
    · rw [Session.completions, hopened, Session.completions, hledger]
      simp only [List.map_append, List.map_cons, List.map_nil, List.sum_append, List.sum_cons, hcount]
  · rw [Session.connections, hopened, Session.connections, hledger]
    simp only [List.length_append, List.length_singleton]
    rfl

theorem readEnvironment_answers {s : Input} (h : readEnvironment s = some (found, input)) :
    Answers s.req input.req := by
  unfold readEnvironment at h
  split at h
  · obtain ⟨-, rfl⟩ := Prod.mk.inj (Option.some.inj h)
    exact .refl _
  · obtain ⟨⟨ok, p, t⟩, hread, h⟩ := Option.bind_eq_some_iff.mp h
    obtain ⟨-, rfl⟩ := Prod.mk.inj (Option.some.inj h)
    have hstep := readParamsLoop_answers fillBuffProc_answers hread
    exact hstep

/-- An environment is found only where a request has begun. -/
theorem openRequest_answers {b : BuffLen} {req : Request} (h : openRequest b req = some (found, input)) :
    Answers { req with isBeginProcessed := false } input.req ∧
      (found ≠ none → input.req.isBeginProcessed = true) := by
  obtain ⟨t, ht, h⟩ := Option.bind_eq_some_iff.mp h
  have hfill := fillBuffProc_answers _ _ ht
  split at h
  · rename_i hbegun
    have henv := readEnvironment_answers h
    exact ⟨hfill.trans henv, fun _ => (henv.begun hbegun).1⟩
  · obtain ⟨rfl, rfl⟩ := Prod.mk.inj (Option.some.inj h)
    exact ⟨hfill, fun hne => absurd rfl hne⟩

/-- A pass of the loop of `FCGX_Accept_r`. -/
theorem acceptPass_keeps {accepted : Bool} (hc : s.connected = true) (h : s.acceptPass = some (accepted, s')) :
    Keeps s s' ∧ (accepted = true → s'.Ready) ∧ (accepted = false → s'.Idle) := by
  obtain ⟨⟨found, input⟩, hopen, -⟩ := Option.bind_eq_some_iff.mp h
  rw [acceptPass_eq hopen] at h
  obtain ⟨ha, hbegun⟩ := openRequest_answers hopen
  have hkeeps := opened_keeps hc ha
  cases found with
  | none =>
    obtain ⟨rfl, rfl⟩ := Prod.mk.inj (Option.some.inj h)
    refine ⟨hkeeps.trans (free_keeps _ true), fun hb => absurd hb Bool.false_ne_true, fun _ => ⟨?_, rfl⟩⟩
    simp [Session.free]
  | some envp =>
    obtain ⟨rfl, rfl⟩ := Prod.mk.inj (Option.some.inj h)
    have hbuild : Keeps (s.opened input) ((s.opened input).build input.stream envp) :=
      ⟨fun hs => ⟨⟨hs.whole, hs.reliable, hs.waiting⟩, rfl⟩, rfl, rfl⟩
    exact ⟨hkeeps.trans hbuild, fun _ => ⟨hc, hbegun (Option.some_ne_none _), rfl, _, _, _, _, rfl⟩,
      fun hb => absurd hb.symm Bool.false_ne_true⟩

theorem acceptLoop_keeps {conns : List Connection} {rc : Int} (hidle : s.Idle) (hw : s.waiting = conns)
    (h : acceptLoop conns s = some (rc, s')) : Keeps s s' ∧ (rc = 0 → s'.Ready) ∧ (rc ≠ 0 → s'.Idle) := by
  induction conns generalizing s with
  | nil =>
    obtain ⟨rfl, rfl⟩ := Prod.mk.inj (Option.some.inj h)
    have hsame : { s with waiting := [] } = s := by rw [← hw]
    have hpos := s.acceptError.property
    rw [hsame]
    exact ⟨.refl s, fun h0 => by omega, fun _ => hidle⟩
  | cons ipc waiting ih =>
    obtain ⟨⟨accepted, t⟩, hpass, h⟩ := Option.bind_eq_some_iff.mp h
    obtain ⟨hkeeps, hready, hidle'⟩ := acceptPass_keeps (s := s.connect ipc waiting) rfl hpass
    have hall := (connect_keeps hidle.connected hw).trans hkeeps
    cases accepted with
    | true =>
      obtain ⟨rfl, rfl⟩ := Prod.mk.inj (Option.some.inj h)
      exact ⟨hall, fun _ => hready rfl, fun hne => absurd rfl hne⟩
    | false =>
      have hw' : t.waiting = waiting := acceptPass_waiting hpass
      obtain ⟨hkeeps', hend⟩ := ih (hidle' rfl) hw' h
      exact ⟨hall.trans hkeeps', hend⟩

/-- What `FCGX_Accept_r` does once the last request is finished. -/
theorem accept_keeps {s₁ : Session} {rc : Int} (hf : s.finish = some s₁) (h : s.accept = some (rc, s')) :
    Keeps s₁ s' ∧ (rc = 0 → s'.Ready) ∧ (rc ≠ 0 → s'.streams = none) := by
  rw [Session.accept, hf] at h
  simp only [Option.bind_eq_bind, Option.bind_some] at h
  split at h
  · rename_i hc
    obtain ⟨⟨accepted, t⟩, hpass, h⟩ := Option.bind_eq_some_iff.mp h
    obtain ⟨hkeeps, hready, hidle⟩ := acceptPass_keeps hc hpass
    cases accepted with
    | true =>
      obtain ⟨rfl, rfl⟩ := Prod.mk.inj (Option.some.inj h)
      exact ⟨hkeeps, fun _ => hready rfl, fun hne => absurd rfl hne⟩
    | false =>
      obtain ⟨hkeeps', hready', hidle'⟩ := acceptLoop_keeps (hidle rfl) rfl h
      exact ⟨hkeeps.trans hkeeps', hready', fun hne => (hidle' hne).streams⟩
  · rename_i hc
    obtain ⟨hkeeps, hready, hidle⟩ := acceptLoop_keeps ⟨Bool.not_eq_true _ ▸ hc, finish_streams hf⟩ rfl h
    exact ⟨hkeeps, hready, fun hne => (hidle hne).streams⟩

end Accepting

/-- What holds in every state of a session on so many connections. -/
structure Service.Sound (total : Nat) (v : Service) : Prop where
  rests : v.session.Rests
  connections : v.session.connections = total
  status : v.session.req.appStatus = v.status
  answered : v.session.completions + v.pending = v.served
  working : ∀ t, v.session.streams = some t → v.session.connected = true ∧
    ∃ start ms rs, Shares start (v.worked t).output ms rs ∧ WholeRecords start.ipc.outbox

section Working

variable {v : Service} {total : Nat} {s : Session} {t : Streams}

/-- The connection of a session where more has been sent. -/
theorem connected_completions (req : Request) (hc : s.connected = true) :
    ({ s with req := req } : Session).completions = (s.closed.map completions).sum + completions req.ipc.outbox := by
  simp [Session.completions, Session.ledger, hc]

theorem connected_rests {req : Request} (hs : s.Rests) (hc : s.connected = true) (ho : req.ipc.outbox.Reliable)
    (hw : WholeRecords req.ipc.outbox) : ({ s with req := req } : Session).Rests := by
  refine ⟨?_, fun _ => ho, hs.waiting⟩
  intro o hmem
  have hledger : ({ s with req := req } : Session).ledger = s.closed ++ [req.ipc.outbox] := by simp [Session.ledger, hc]
  rw [hledger] at hmem
  rcases List.mem_append.mp hmem with hmem | hmem
  · exact hs.whole o (List.mem_append_left _ hmem)
  · rw [List.mem_singleton.mp hmem]
    exact hw

theorem connected_connections (req : Request) :
    ({ s with req := req } : Session).connections = s.connections := by
  simp only [Session.connections, Session.ledger, List.length_append]
  split <;> rfl

/-- `FCGX_Finish_r` makes the two closes, and then frees. -/
theorem finish_eq (hs : s.streams = some t) (written : Sink → Text) :
    s.finish = (Output.finish ⟨t.out, t.err, s.req, written⟩).map fun r =>
      { s with req := r.2.req }.free (!s.req.keepConnection || !r.1 || t.input.errno != 0) := by
  rw [Session.finish, hs]
  simp only [Output.finish]
  cases fclose t.err s.req with
  | none => rfl
  | some e =>
    obtain ⟨errOk, err, req⟩ := e
    simp only [Option.bind_eq_bind, Option.bind_some]
    show _ = ((fclose t.out req).bind fun r => _).map _
    cases fclose t.out req with
    | none => rfl
    | some r =>
      obtain ⟨outOk, out, req'⟩ := r
      simp only [Option.bind_some, Option.map_some, Bool.not_and, Bool.or_assoc]
      rfl

/-- The end of the request that is worked on, if there is one. -/
theorem Service.Sound.finish (h : v.Sound total) {s₁ : Session} (hf : v.session.finish = some s₁) :
    s₁.Rests ∧ s₁.connections = total ∧ s₁.req.appStatus = v.status ∧ s₁.completions = v.served ∧ s₁.streams = none := by
  have hnone := finish_streams hf
  cases hst : v.session.streams with
  | none =>
    rw [Session.finish, hst] at hf
    obtain rfl := Option.some.inj hf
    have hkeeps := free_keeps v.session (!v.session.req.keepConnection)
    obtain ⟨hrests, hcount⟩ := hkeeps.rests h.rests
    have hpending : v.pending = 0 := by simp [Service.pending, hst]
    have hanswered := h.answered
    exact ⟨hrests, hkeeps.connections.trans h.connections, h.status, by omega, hnone⟩
  | some t =>
    obtain ⟨hc, start, ms, rs, hshares, hwhole⟩ := h.working t hst
    obtain ⟨o', ms', a, hrun, hshares', hended, -, happ, -⟩ := hshares.finish
    rw [finish_eq hst v.written, show Output.mk t.out t.err v.session.req v.written = (v.worked t).output from rfl, hrun] at hf
    obtain rfl := Option.some.inj hf
    obtain ⟨-, hcount⟩ := hshares.whole hwhole
    obtain ⟨hwhole', hcount'⟩ := hshares'.whole hwhole
    have hall := hshares'.accounts.ended.mp ⟨a, hended⟩
    have hclosed : (o'.out.isClosed && o'.err.isClosed) = true := Bool.and_eq_true _ _ ▸ ⟨hall .out, hall .err⟩
    rw [if_pos hclosed] at hcount'
    have hreliable : o'.req.ipc.outbox.Reliable := hshares'.accounts.reliable
    have hkeeps := free_keeps { v.session with req := o'.req }
      (!v.session.req.keepConnection || !true || t.input.errno != 0)
    obtain ⟨hrests, hcompletions⟩ := hkeeps.rests (connected_rests h.rests hc hreliable hwhole')
    refine ⟨hrests, ?_, happ.trans h.status, ?_, hnone⟩
    · rw [hkeeps.connections, connected_connections]
      exact h.connections
    · have hanswered := h.answered
      have hbefore := connected_completions v.session.req hc
      have hsame : ({ v.session with req := v.session.req } : Session) = v.session := rfl
      rw [hsame] at hbefore
      have hpending : v.pending = if t.out.isClosed && t.err.isClosed then 0 else 1 := by simp [Service.pending, hst]
      have hwork : (v.worked t).output.req.ipc.outbox = v.session.req.ipc.outbox := rfl
      have hout : (v.worked t).output.out.isClosed = t.out.isClosed := rfl
      have herr : (v.worked t).output.err.isClosed = t.err.isClosed := rfl
      rw [hwork, hout, herr, ← hpending] at hcount
      rw [hcompletions, connected_completions _ hc]
      omega

theorem Service.Sound.accept (h : v.Sound total) {v' : Service} (ha : v.act .accept = some v') : v'.Sound total := by
  obtain ⟨⟨rc, s⟩, hrun, ha⟩ := Option.bind_eq_some_iff.mp ha
  obtain rfl := Option.some.inj ha
  have hfinish : ∃ s₁, v.session.finish = some s₁ := by
    obtain ⟨s₁, hf, -⟩ := Option.bind_eq_some_iff.mp hrun
    exact ⟨s₁, hf⟩
  obtain ⟨s₁, hf⟩ := hfinish
  obtain ⟨hrests, hconns, hstatus, hcount, -⟩ := h.finish hf
  obtain ⟨hkeeps, hready, hidle⟩ := accept_keeps hf hrun
  obtain ⟨hrests', hcount'⟩ := hkeeps.rests hrests
  by_cases hrc : rc = 0
  · have hr := hready hrc
    obtain ⟨input, outLen, errLen, envp, hstreams⟩ := hr.streams
    refine ⟨hrests', hkeeps.connections.trans hconns, hkeeps.appStatus.trans hstatus, ?_, ?_⟩
    · have hpending : Service.pending ⟨s, v.served + 1, v.status, fun _ => []⟩ = 1 := by
        simp [Service.pending, hstreams, newWriter]
      simp only [if_pos hrc, hpending]
      omega
    · intro t ht
      obtain rfl := Option.some.inj (hstreams.symm.trans ht)
      have hreq : { s.req with nWriters := 2 } = s.req := by rw [← hr.nWriters]
      have hinit := Shares.initial (hrests'.reliable hr.connected) hr.begun outLen errLen
      rw [startOutput, hreq] at hinit
      have hmem : s.req.ipc.outbox ∈ s.ledger := by simp [Session.ledger, hr.connected]
      exact ⟨hr.connected, s.req, [], [], hinit, hrests'.whole _ hmem⟩
  · have hstreams := hidle hrc
    refine ⟨hrests', hkeeps.connections.trans hconns, hkeeps.appStatus.trans hstatus, ?_, ?_⟩
    · have hpending : Service.pending ⟨s, v.served, v.status, fun _ => []⟩ = 0 := by simp [Service.pending, hstreams]
      simp only [if_neg hrc, hpending]
      omega
    · intro t ht
      rw [hstreams] at ht
      cases ht

theorem Service.Sound.work (h : v.Sound total) {c : WorkCall} (hfits : c.Fits) {v' : Service}
    (ha : v.act (.work c) = some v') : v'.Sound total := by
  obtain ⟨t, ht, ha⟩ := Option.bind_eq_some_iff.mp ha
  obtain ⟨w, hrun, ha⟩ := Option.bind_eq_some_iff.mp ha
  obtain rfl := Option.some.inj ha
  obtain ⟨hc, start, ms, rs, hshares, hwhole⟩ := h.working t ht
  obtain ⟨ms', rs', hshares', hstatus⟩ := hshares.work hfits hrun
  obtain ⟨-, hcount⟩ := hshares.whole hwhole
  obtain ⟨hwhole', hcount'⟩ := hshares'.whole hwhole
  have hreliable : w.output.req.ipc.outbox.Reliable := hshares'.accounts.reliable
  have hrests := connected_rests h.rests hc hreliable hwhole'
  refine ⟨⟨hrests.whole, hrests.reliable, hrests.waiting⟩, ?_, ?_, ?_, ?_⟩
  · have hconns := connected_connections (s := v.session) w.output.req
    exact hconns.trans h.connections
  · rw [show v.status = v.session.req.appStatus from h.status.symm]
    exact hstatus
  · have hanswered := h.answered
    have hbefore := connected_completions v.session.req hc
    have hafter := connected_completions w.output.req hc
    have hpending : v.pending = if t.out.isClosed && t.err.isClosed then 0 else 1 := by simp [Service.pending, ht]
    have hwork : (v.worked t).output.req.ipc.outbox = v.session.req.ipc.outbox := rfl
    have hout : (v.worked t).output.out.isClosed = t.out.isClosed := rfl
    have herr : (v.worked t).output.err.isClosed = t.err.isClosed := rfl
    rw [hwork, hout, herr, ← hpending] at hcount
    have hsame : ({ v.session with req := v.session.req } : Session) = v.session := rfl
    rw [hsame] at hbefore
    have htotal : (v.session.closed.map completions).sum + completions w.output.req.ipc.outbox +
        (if w.output.out.isClosed && w.output.err.isClosed then 0 else 1) = v.served := by omega
    exact (congrArg (· + _) hafter).trans htotal
  · intro t' ht'
    obtain rfl := Option.some.inj ht'
    exact ⟨hc, start, ms', rs', hshares', hwhole⟩

theorem Service.Sound.act (h : v.Sound total) {a : Action} (hfits : ∀ c, a = .work c → c.Fits) {v' : Service}
    (ha : v.act a = some v') : v'.Sound total := by
  cases a with
  | accept => exact h.accept ha
  | finish =>
    obtain ⟨s₁, hf, ha⟩ := Option.bind_eq_some_iff.mp ha
    obtain rfl := Option.some.inj ha
    obtain ⟨hrests, hconns, hstatus, hcount, hstreams⟩ := h.finish hf
    refine ⟨hrests, hconns, hstatus, ?_, ?_⟩
    · have hpending : Service.pending { v with session := s₁ } = 0 := by simp [Service.pending, hstreams]
      rw [hpending]
      exact hcount
    · intro t ht
      rw [hstreams] at ht
      cases ht
  | work c => exact h.work (hfits c rfl) ha

theorem sound_invariant {waiting : List Connection} (hw : ∀ ipc ∈ waiting, Fresh ipc) :
    (serviceSystem waiting).Invariant (Service.Sound waiting.length) where
  initial := by
    rintro v ⟨acceptError, misaligned, stack, rfl⟩
    refine ⟨⟨?_, fun hc => absurd hc Bool.false_ne_true, hw⟩, ?_, rfl, rfl, ?_⟩
    · intro o ho
      cases ho
    · simp [Session.connections, Session.ledger, initRequest]
    · intro t ht
      cases ht
  step := by
    rintro v a v' - h henabled hn
    exact h.act (fun c hc => (henabled c hc).2) hn

end Working

/-- An end that is among the messages, but not among the first of them, is the last. -/
theorem ended_suffix {ms ms' : List Message} (h : (ms ++ ms').Pairwise Precedes) {a : Int32} (hm : .ended a ∈ ms') :
    ∃ ns, ms' = ns ++ [.ended a] := by
  obtain ⟨ns, hns, -⟩ := ended_last (List.pairwise_append.mp h).2.1 hm
  exact ⟨ns, hns⟩

/-- In every order of accepting, reading, writing and finishing: what is sent on every
connection is whole records; of the requests that have been accepted, each is ended
exactly once, but for the one that is worked on while a writer of it is open; and every
connection that the listening socket gave is closed once, or is the one that is open. -/
theorem requests_answered_once {waiting : List Connection} (hw : ∀ ipc ∈ waiting, Fresh ipc) {v : Service}
    (h : (serviceSystem waiting).Reachable v) :
    (∀ o ∈ v.session.ledger, ∃ rs, parseRecords o.sent = (rs, [])) ∧
      (v.session.ledger.map completions).sum + v.pending = v.served ∧
      v.session.ledger.length + v.session.waiting.length = waiting.length ∧
      (v.session.streams ≠ none → v.session.connected = true) := by
  have hs := (sound_invariant hw).of_reachable h
  refine ⟨?_, hs.answered, hs.connections, ?_⟩
  · intro o ho
    obtain ⟨rs, hrs⟩ := hs.rests.whole o ho
    exact ⟨rs, by rw [hrs, parseRecords_whole]⟩
  · intro hne
    obtain ⟨t, ht⟩ := Option.ne_none_iff_exists'.mp hne
    exact (hs.working t ht).1

theorem connectionWith_fresh (t : Text) : ∀ ipc ∈ [connectionWith t], Fresh ipc := by
  intro ipc hipc
  rw [List.mem_singleton.mp hipc]
  refine ⟨rfl, ?_⟩
  intro r hr
  cases hr

/-- The first connection may bring a request, which is then worked on. -/
theorem opened_reachable {ipc : Connection} {q last : Record} {rs : List Record} {nvs : List NameValue} {role more : Text}
    (h : Opens ipc.inbox.bytes q rs last nvs more) (ho : ipc.outbox.Reliable) (hrole : roleStr q.role = some role) :
    ∃ v t, (serviceSystem [ipc]).Reachable v ∧ v.session.streams = some t ∧ v.served = 1 ∧ v.pending = 1 := by
  have hstart : (serviceSystem [ipc]).Reachable ⟨helloSession [ipc], 0, 0, fun _ => []⟩ := .initial ⟨_, _, _, rfl⟩
  obtain ⟨o, -, -, hopening⟩ := openingOf_opens { (helloSession [ipc]).req with ipc := ipc } h ho hrole
  obtain ⟨rc, s', hrun, -, -, hrc, hacc⟩ := acceptLoop_matches
    (s := { (helloSession [ipc]).free true with connected := false }) ⟨rfl, rfl⟩ (acceptance_request [] hopening)
  obtain rfl : rc = 0 := hrc
  obtain ⟨input, outLen, errLen, hstreams, -⟩ := hacc.streams
  have haccept := accept_eq (show (helloSession [ipc]).finish = some ((helloSession [ipc]).free true) from rfl)
  have hcand : ((helloSession [ipc]).free true).candidates = [ipc] := rfl
  rw [hcand, hrun] at haccept
  have hact : Service.act ⟨helloSession [ipc], 0, 0, fun _ => []⟩ .accept = some ⟨s', 1, 0, fun _ => []⟩ := by
    simp only [Service.act, haccept, Option.bind_eq_bind, Option.bind_some, if_true, Nat.zero_add]
  have hreach : (serviceSystem [ipc]).Reachable ⟨s', 1, 0, fun _ => []⟩ :=
    hstart.step (e := .accept) (fun c hc => by cases hc) hact
  exact ⟨_, _, hreach, hstreams, rfl, by simp [Service.pending, hstreams, newWriter]⟩

theorem connectionWith_opened :
    ∃ v t, (serviceSystem [connectionWith helloText]).Reachable v ∧ v.session.streams = some t ∧ v.served = 1 ∧
      v.pending = 1 :=
  opened_reachable helloText_opens (connectionWith_fresh helloText _ List.mem_cons_self).2
    (show roleStr helloBegin.role = some (text "FCGI_ROLE=RESPONDER") from rfl)

theorem requests_answered_once_hello :
    ∃ v, (serviceSystem [connectionWith helloText]).Reachable v ∧ v.served = 1 ∧
      (v.session.ledger.map completions).sum + 1 = 1 ∧ v.session.connected = true := by
  obtain ⟨v, t, hreach, hstreams, hserved, hpending⟩ := connectionWith_opened
  obtain ⟨-, hcount, -, hconn⟩ := requests_answered_once (connectionWith_fresh helloText) hreach
  rw [hpending, hserved] at hcount
  exact ⟨v, hreach, hserved, hcount, hconn (by rw [hstreams]; exact Option.some_ne_none _)⟩

/-- When a request is finished of which a writer is open, the last record on its connection
is the end of the request. The status that its bytes give is the one that was set last in
the session, which may have been for an earlier request. The connection is kept if and
only if the web server asked for that and the input has no error. -/
theorem finish_ends_request {waiting : List Connection} (hw : ∀ ipc ∈ waiting, Fresh ipc) {v : Service}
    (h : (serviceSystem waiting).Reachable v) {t : Streams} (ht : v.session.streams = some t) (hp : v.pending = 1) :
    ∃ s₁ o sent body, v.session.finish = some s₁ ∧ s₁.ledger = v.session.closed ++ [o] ∧
      o.sent = sent ++ (Message.record v.session.req.requestId (.ended v.status)).bytes ∧
      (Message.record v.session.req.requestId (.ended v.status)).content = EndRequestBody.bytes body ∧
      body.appStatus = v.status ∧ s₁.connected = (v.session.req.keepConnection && t.input.errno == 0) := by
  have hs := (sound_invariant hw).of_reachable h
  obtain ⟨hc, start, ms, rs, hshares, -⟩ := hs.working t ht
  obtain ⟨o', ms', a, hrun, hshares', hended, -, -, hstatus⟩ := hshares.finish
  have hopen : ¬ ∃ b, .ended b ∈ ms := by
    rw [hshares.accounts.ended]
    intro hall
    have hclosed : t.out.isClosed = true ∧ t.err.isClosed = true := ⟨hall .out, hall .err⟩
    simp [Service.pending, ht, hclosed] at hp
  have hmem : .ended a ∈ ms' := (List.mem_append.mp hended).resolve_left fun hm => hopen ⟨a, hm⟩
  obtain ⟨ns, rfl⟩ := ended_suffix hshares'.accounts.ordered hmem
  have ha : a = v.status := (hstatus hmem).trans hs.status
  have hid : v.session.req.requestId = start.requestId := hshares.accounts.requestId
  refine ⟨{ v.session with req := o'.req }.free (!v.session.req.keepConnection || !true || t.input.errno != 0),
    o'.req.ipc.outbox, start.ipc.outbox.sent ++ (rs ++ ns.map (Message.record start.requestId)).flatMap Record.bytes,
    makeEndRequestBody v.status requestComplete, ?_, ?_, ?_, rfl, makeEndRequestBody_appStatus _ _, ?_⟩
  · rw [finish_eq ht v.written]
    exact congrArg (Option.map _) hrun
  · rw [free_ledger]
    simp [Session.ledger, hc]
  · have hsent : o'.req.ipc.outbox.sent = _ := hshares'.sent
    rw [hsent, hid, ← ha]
    simp [List.flatMap_append]
  · simp only [Session.free, hc, Bool.not_true, Bool.or_false, Bool.true_and, Bool.not_or, Bool.not_not]
    cases v.session.req.keepConnection <;> cases hz : t.input.errno == 0 <;> simp_all

theorem finish_ends_request_hello :
    ∃ v s₁ o sent, (serviceSystem [connectionWith helloText]).Reachable v ∧ v.session.finish = some s₁ ∧
      s₁.ledger = v.session.closed ++ [o] ∧
      o.sent = sent ++ (Message.record v.session.req.requestId (.ended v.status)).bytes := by
  obtain ⟨v, t, hreach, hstreams, -, hpending⟩ := connectionWith_opened
  obtain ⟨s₁, o, sent, -, hrun, hledger, hsent, -⟩ :=
    finish_ends_request (connectionWith_fresh helloText) hreach hstreams hpending
  exact ⟨v, s₁, o, sent, hreach, hrun, hledger, hsent⟩

end Libfcgi
