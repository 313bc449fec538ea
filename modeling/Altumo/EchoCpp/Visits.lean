import Mathlib.Data.List.Forall2
import Altumo.Libfcgi.Service
import Altumo.EchoCpp.Application

/-!
# Every request is answered with its page

A web server opens connections, and sends one request on each of those that bring any.
However the connections are cut into reads and writes, the application answers all
requests, and comes to the end of its loop when no connection is left.
-/

namespace EchoCpp

open CString Descriptor Libfcgi

/-- A connection on which a web server sends one request, and not more behind it than padding. -/
structure Visit (ipc : Connection) where
  q : Record
  rs : List Record
  last : Record
  nvs : List NameValue
  ins : List Record
  inEnd : Record
  role : Text
  fresh : Fresh ipc
  opens : Opens ipc.inbox.bytes q rs last nvs (ins.flatMap Record.bytes ++ (inEnd.bytes ++ []))
  roleStr_eq : roleStr q.role = some role
  passing : ∀ r ∈ ins, Passing stdin q.requestId r
  ends : inEnd.EndsStream stdin q.requestId
  padding : inEnd.padding.length < headerLen

/-- A connection that brings no request, or one. -/
inductive Caller where
  | hopeless : (ipc : Connection) → Hopeless ipc → Caller
  | visit : (ipc : Connection) → Visit ipc → Caller

namespace Visit

variable {ipc : Connection} (v : Visit ipc)

def envp : List Text := v.role :: v.nvs.map NameValue.string

/-- What the application reads as input: all that `FillBuffProc` delivers of the records, the
content of management records of unknown type included. -/
def input : Text := givenOf v.q.requestId false v.ins

/-- What the library answers to the records that are not of the request. -/
def replies : Text := (v.rs ++ v.ins).flatMap Record.response

/-- The request as it is accepted. -/
def context (req : Request) (o : Outbox) : Context := ((v.q.begun { req with ipc := ipc }).reads params).sends o

/-- What has been sent on a connection is the answer of the application: the output
with the page and the error output, ended with the end of the request, and the replies
of the library in between. -/
def Answered (p : Process) (o : Outbox) : Prop :=
  ∃ (ms : List Message) (records : List Record), parseRecords o.sent = (records, []) ∧
    records.filter Record.ofOutput = (ms ++ [Message.ended 0]).map (Message.record v.q.requestId) ∧
    (ms ++ [Message.ended 0]).Pairwise Precedes ∧
    contentOf .out ms = (page p v.q.requestId v.envp (taken v.envp v.input)).flatten ∧
    contentOf .err ms = complained v.envp ∧ repliesOf records = v.replies

end Visit

namespace Caller

def connection : Caller → Connection
  | hopeless ipc _ => ipc
  | visit ipc _ => ipc

/-- How often the loops go around for it at most. -/
def rounds : Caller → Nat
  | hopeless _ _ => 0
  | visit _ v => v.input.length / 1024 + 2

/-- Nothing is said of a connection without a request. -/
def Answered (p : Process) : Caller → Outbox → Prop
  | hopeless _ _, _ => True
  | visit _ v, o => v.Answered p o

end Caller

/-- At the top of the loop of `main`: what is sent and closed when the request before is
finished, which connections wait, and what a connection that is kept still brings. -/
structure Between (s s₁ : Session) (done : List Outbox) (waiting : List Connection) : Prop where
  finish : s.finish = some s₁
  ledger : s₁.ledger = done
  waiting : s₁.waiting = waiting
  appStatus : s₁.req.appStatus = 0
  inbox : s₁.connected = true → s₁.req.ipc.inbox.bytes.length < headerLen

section Answering

/-- The replies are whole records, and not of the output. -/
theorem responses_records (rs : List Record) :
    ∃ rs' : List Record, rs.flatMap Record.response = rs'.flatMap Record.bytes ∧ rs'.filter Record.ofOutput = [] := by
  induction rs with
  | nil => exact ⟨[], rfl, rfl⟩
  | cons r rs ih =>
    obtain ⟨rs', heq, hnone⟩ := ih
    have hresponse : r.response = [] ∨ Response r.response := by
      unfold Record.response
      split
      · exact .inr (cantMpxConn_response _)
      · split
        · exact .inr (unknownTypeResponse_response _)
        · exact .inl rfl
    rw [List.flatMap_cons]
    rcases hresponse with hnil | ⟨r', hr', hout⟩
    · rw [hnil, List.nil_append]
      exact ⟨rs', heq, hnone⟩
    · refine ⟨r' :: rs', by rw [List.flatMap_cons, heq, hr'], ?_⟩
      rw [List.filter_cons, hout]
      exact hnone

/-- The environment of a request has no string that is too long. -/
theorem string_le {nv : NameValue} (h : oversized nv.bytes = false) : nv.string.length ≤ intMax := by
  have hn : parseLength nv.bytes = some (nv.nameLength, nv.valueLength.bytes ++ (nv.name ++ nv.value)) :=
    parseLength_bytes _ _
  have hv : parseLength (nv.valueLength.bytes ++ (nv.name ++ nv.value)) = some (nv.valueLength, nv.name ++ nv.value) :=
    parseLength_bytes _ _
  simp only [oversized, hn, hv, decide_eq_false_iff_not] at h
  have hlen : nv.string.length = nv.name.length + nv.value.length + 1 := by
    simp [NameValue.string, Nat.add_assoc]
  have hname : nv.nameLength.val = nv.name.length := rfl
  have hvalue : nv.valueLength.val = nv.value.length := rfl
  omega

theorem roleStr_le {n : Nat} {role : Text} (h : roleStr n = some role) : role.length ≤ intMax := by
  unfold roleStr at h
  split at h
  · obtain rfl := Option.some.inj h
    decide
  · split at h
    · obtain rfl := Option.some.inj h
      decide
    · split at h
      · obtain rfl := Option.some.inj h
        decide
      · cases h

theorem envp_le {ipc : Connection} (v : Visit ipc) : ∀ p ∈ v.envp, p.length ≤ intMax := by
  intro p hp
  rcases List.mem_cons.mp hp with rfl | hp
  · exact roleStr_le v.roleStr_eq
  · obtain ⟨nv, hnv, rfl⟩ := List.mem_map.mp hp
    exact string_le (v.opens.sizes nv hnv)

/-- The closes of the end of a request read nothing. -/
theorem finish_inbox {o o' : Output} {ok : Bool} (h : o.finish = some (ok, o')) :
    o'.req.ipc.inbox = o.req.ipc.inbox := by
  have hover := finish_over o.fresh o.req
  rw [fresh_over, h] at hover
  obtain ⟨⟨ok₀, o₀⟩, -, heq⟩ := Option.map_eq_some_iff.mp hover.symm
  obtain ⟨-, rfl⟩ := Prod.mk.inj heq
  rfl

variable {ipc : Connection} {start : Request} {errno : Int} {behind due : Text} {w : Work}

/-- The end of a request of which the input has been read: all that has been put on its
streams is sent, behind what was there before. -/
theorem talk_finish {texts : Sink → Text} (h : Talk start errno behind due w [] texts) (hc : w.input.isClosed = true)
    {before : List Record} (hbefore : start.ipc.outbox.sent = before.flatMap Record.bytes)
    (hnone : before.filter Record.ofOutput = []) :
    ∃ (o : Output) (ms : List Message) (records : List Record), w.output.finish = some (true, o) ∧
      parseRecords o.req.ipc.outbox.sent = (records, []) ∧
      records.filter Record.ofOutput =
        (ms ++ [Message.ended start.appStatus]).map (Message.record start.requestId) ∧
      (ms ++ [Message.ended start.appStatus]).Pairwise Precedes ∧ (∀ s, contentOf s ms = texts s) ∧
      repliesOf records = repliesOf before ++ due ∧ o.req.appStatus = start.appStatus ∧
      o.req.ipc.inbox.bytes.length ≤ behind.length := by
  obtain ⟨ms, rs, hd⟩ := h.dialogue
  obtain ⟨-, -, hahead, hreplies⟩ := hd.closed hc
  obtain ⟨o, ms', a, hrun, hshares, hended, hwriters, happ, hstatus⟩ := hd.shares.finish
  have hopen : Message.ended a ∉ ms := hd.shares.accounts.ended_notMem (s := .out) (h.isOpen .out) a
  have hmem : Message.ended a ∈ ms' := (List.mem_append.mp hended).resolve_left hopen
  have ha : a = start.appStatus := (hstatus hmem).trans h.appStatus
  obtain ⟨ns, hns, -⟩ := ended_last hshares.accounts.ordered hended
  rw [ha] at hns
  have hcontent : ∀ s, contentOf s (ms ++ ms') = texts s := by
    intro s
    have hc := hshares.content s
    rw [(hwriters s).1, List.append_nil] at hc
    exact hc.trans ((hwriters s).2.trans (congrFun h.written s))
  refine ⟨o, ns, before ++ (rs ++ ms'.map (Message.record start.requestId)), hrun, ?_, ?_, ?_, ?_, ?_,
    happ.trans h.appStatus, ?_⟩
  · have hsent : o.req.ipc.outbox.sent = _ := hshares.sent
    have hparse := parseRecords_whole (before ++ (rs ++ ms'.map (Message.record start.requestId)))
    rw [List.flatMap_append, ← hbefore] at hparse
    rw [hsent]
    exact hparse
  · rw [List.filter_append, hnone, List.nil_append, hshares.records, hns]
  · rw [← hns]
    exact hshares.accounts.ordered
  · intro s
    have hc := hcontent s
    rw [hns, contentOf_append] at hc
    simpa [contentOf, Message.content] using hc
  · rw [repliesOf_append, repliesOf_append, repliesOf_messages, List.append_nil, hreplies]
  · rw [finish_inbox hrun, ← hahead, Input.ahead, List.length_append]
    exact Nat.le_add_left _ _

/-- The request that is accepted is answered, and then the connection is closed or kept
with nothing on it. -/
theorem visit_answered (p : Process) (v : Visit ipc) {s : Session} {req : Request} {o : Outbox}
    (hacc : s.Accepted v.envp (v.context req o) (v.ins.flatMap Record.bytes ++ (v.inEnd.bytes ++ [])))
    (ho : o.Reliable) (hsent : o.sent = v.rs.flatMap Record.response) (happ : s.req.appStatus = 0) {fuel : Nat}
    (hfuel : v.input.length / 1024 + 2 ≤ fuel) :
    ∃ t s' s₁ o', s.streams = some t ∧ answer p fuel s t = some s' ∧ Between s' s₁ (s.closed ++ [o']) s.waiting ∧
      v.Answered p o' := by
  obtain ⟨input, outLen, errLen, hstreams, hst⟩ := hacc.streams
  have hreq := congrArg Context.req hst.context
  have hid : s.req.requestId = v.q.requestId := congrArg Request.requestId hreq
  have hbegun : s.req.isBeginProcessed = true := congrArg Request.isBeginProcessed hreq
  have hnWriters : s.req.nWriters = 2 := congrArg Request.nWriters hreq
  have houtbox : s.req.ipc.outbox = o := congrArg (fun r => r.ipc.outbox) hreq
  have hstart : startOutput s.req outLen errLen = ⟨newWriter outLen stdout, newWriter errLen stderr, s.req, fun _ => []⟩ := by
    rw [startOutput, ← hnWriters]
  have hinit := Shares.initial (houtbox ▸ ho) hbegun outLen errLen
  obtain ⟨e, hy, -, herrno, hahead, hsentE⟩ := hst.stream_yields rfl (fun _ => ho) v.passing v.ends
  have hdialogue : Dialogue s.req 0 (v.inEnd.padding ++ []) (v.ins.flatMap Record.response)
      ⟨input, startOutput s.req outLen errLen⟩ v.input [] [] := by
    refine ⟨hinit, sound_of_avail hst.avail, e, _, ?_, herrno, hahead, ?_, rfl⟩
    · rw [hstart]
      exact hy
    · rw [hsentE, hstart]
      exact congrArg (·.sent ++ _) houtbox.symm
  have htalk : Talk s.req 0 (v.inEnd.padding ++ []) (v.ins.flatMap Record.response)
      ⟨input, startOutput s.req outLen errLen⟩ v.input fun _ => [] := by
    refine ⟨⟨[], [], hdialogue⟩, ?_, rfl, rfl⟩
    intro s'
    cases s' <;> rfl
  rw [hstart] at htalk
  have hstreaming : Streaming s.req 0 (v.inEnd.padding ++ []) (v.ins.flatMap Record.response)
      (iostreams ⟨input, ⟨newWriter outLen stdout, newWriter errLen stderr, s.req, fun _ => []⟩⟩) v.input fun _ => [] :=
    ⟨htalk, rfl, rfl, fun hcin => absurd hcin.symm Bool.false_ne_true⟩
  obtain ⟨io, hanswer, htalk', hclosed⟩ :=
    answer_streaming p (t := ⟨input, newWriter outLen stdout, newWriter errLen stderr, v.envp⟩) (envp_le v) hstreaming hfuel
  obtain ⟨before, hbefore, hnone⟩ := responses_records v.rs
  have hsentBefore : s.req.ipc.outbox.sent = before.flatMap Record.bytes := by rw [houtbox, hsent, hbefore]
  obtain ⟨o', ms, records, hfinish, hparse, hrecords, hordered, hcontent, hreplies, happ', hinbox⟩ :=
    talk_finish htalk' hclosed hsentBefore hnone
  rw [happ, hid] at hrecords
  rw [happ] at hordered
  have hrun := finish_eq (s := { s with
    req := io.work.output.req
    streams := some ⟨io.work.input, io.work.output.out, io.work.output.err, v.envp⟩ }) rfl io.work.output.written
  rw [show Output.mk io.work.output.out io.work.output.err io.work.output.req io.work.output.written = io.work.output from rfl,
    hfinish, Option.map_some] at hrun
  refine ⟨_, _, _, o'.req.ipc.outbox, hstreams, hanswer, ⟨hrun, ?_, rfl, happ'.trans happ, fun _ => ?_⟩, ms, records, hparse,
    hrecords, hordered, ?_, hcontent .err, ?_⟩
  · rw [free_ledger]
    simp [Session.ledger, hacc.connected]
  · refine Nat.lt_of_le_of_lt hinbox ?_
    rw [List.append_nil]
    exact v.padding
  · rw [hcontent, hid]
    rfl
  · rw [hreplies, repliesOf_answers hnone, ← hbefore, ← List.flatMap_append]
    rfl

/-- A connection that was kept is closed when nothing more comes on it. -/
theorem acceptance_kept {s₁ : Session} (h : s₁.connected = true → s₁.req.ipc.inbox.bytes.length < headerLen) :
    ∃ req, ∀ a, acceptance req s₁.waiting = some a →
      ∃ refused, acceptance s₁.req s₁.candidates = some { a with refused := refused } ∧
        s₁.closed ++ refused = s₁.ledger ++ a.refused := by
  cases hc : s₁.connected with
  | false =>
    refine ⟨s₁.req, fun a ha => ⟨a.refused, ?_, ?_⟩⟩
    · simpa [Session.candidates, hc] using ha
    · simp [Session.ledger, hc]
  | true =>
    have hopening : openingOf s₁.req = some (.refused s₁.req.unopened.lost.req) := by
      rw [openingOf, nextEvent_short (h hc)]
      rfl
    refine ⟨s₁.req.unopened.lost.req, fun a ha => ⟨s₁.req.ipc.outbox :: a.refused, ?_, ?_⟩⟩
    · simp only [Session.candidates, hc, if_true, List.singleton_append, acceptance, hopening, ha, Option.bind_eq_bind,
        Option.bind_some]
      rfl
    · simp [Session.ledger, hc]

/-- Up to the first caller with a request, or all of them. -/
theorem callers_split (cs : List Caller) :
    ∃ bad : List Caller, (∀ c ∈ bad, ∃ ipc h, c = .hopeless ipc h) ∧
      (cs = bad ∨ ∃ ipc v rest, cs = bad ++ .visit ipc v :: rest) := by
  induction cs with
  | nil => exact ⟨[], List.forall_mem_nil _, .inl rfl⟩
  | cons c cs ih =>
    cases c with
    | visit ipc v => exact ⟨[], List.forall_mem_nil _, .inr ⟨ipc, v, cs, rfl⟩⟩
    | hopeless ipc h =>
      obtain ⟨bad, hbad, hcs⟩ := ih
      refine ⟨.hopeless ipc h :: bad, List.forall_mem_cons.mpr ⟨⟨ipc, h, rfl⟩, hbad⟩, ?_⟩
      rcases hcs with rfl | ⟨ipc', v, rest, rfl⟩
      · exact .inl rfl
      · exact .inr ⟨ipc', v, rest, rfl⟩

theorem hopeless_answered (p : Process) {bad : List Caller} (hbad : ∀ c ∈ bad, ∃ ipc h, c = .hopeless ipc h)
    {os : List Outbox} (hlen : os.length = bad.length) : List.Forall₂ (Caller.Answered p) bad os := by
  induction bad generalizing os with
  | nil =>
    obtain rfl := List.length_eq_zero_iff.mp hlen
    exact .nil
  | cons c bad ih =>
    obtain ⟨⟨ipc, h, rfl⟩, hbad'⟩ := List.forall_mem_cons.mp hbad
    cases os with
    | nil => cases hlen
    | cons o os => exact .cons trivial (ih hbad' (Nat.succ.inj hlen))

/-- The loop either ends, with all that are left answered, or accepts the request of the
first caller that brings one. -/
theorem accept_callers (p : Process) {s s₁ : Session} {done : List Outbox} {cs : List Caller}
    (h : Between s s₁ done (cs.map Caller.connection)) :
    (∃ rc s' os, s.accept = some (rc, s') ∧ rc ≠ 0 ∧ s'.Idle ∧ s'.closed = done ++ os ∧
        List.Forall₂ (Caller.Answered p) cs os) ∨
      ∃ bad ipc v rest s' req o os, cs = bad ++ Caller.visit ipc v :: rest ∧ s.accept = some (0, s') ∧
        s'.Accepted v.envp (v.context req o) (v.ins.flatMap Record.bytes ++ (v.inEnd.bytes ++ [])) ∧ o.Reliable ∧
        o.sent = v.rs.flatMap Record.response ∧ s'.req.appStatus = 0 ∧ s'.waiting = rest.map Caller.connection ∧
        s'.closed = done ++ os ∧ List.Forall₂ (Caller.Answered p) bad os := by
  obtain ⟨bad, hbad, hcs⟩ := callers_split cs
  have hhopeless : ∀ ipc ∈ bad.map Caller.connection, Hopeless ipc := by
    intro ipc hipc
    obtain ⟨c, hc, rfl⟩ := List.mem_map.mp hipc
    obtain ⟨ipc, hopeless, rfl⟩ := hbad c hc
    exact hopeless
  obtain ⟨req₀, hkept⟩ := acceptance_kept h.inbox
  obtain ⟨req₁, os, hlen, hrest⟩ := acceptance_hopeless hhopeless req₀
  rw [List.length_map] at hlen
  have hall := hopeless_answered p hbad hlen
  rw [h.waiting, h.ledger] at hkept
  rcases hcs with rfl | ⟨ipc, v, rest, rfl⟩
  · have hnone := hrest [] ⟨[], none, []⟩ rfl
    rw [List.append_nil] at hnone
    obtain ⟨refused, hacc, hledger⟩ := hkept _ hnone
    obtain ⟨rc, s', hrun, hclosed, -, hrc, hidle⟩ := acceptLoop_matches (finish_idle h.finish) hacc
    rw [← accept_eq h.finish] at hrun
    refine .inl ⟨rc, s', os, hrun, ?_, hidle, ?_, hall⟩
    · have hpos := s₁.acceptError.property
      have hrc : rc = -s₁.acceptError.val := hrc
      omega
    · rw [hclosed, hledger, List.append_nil]
  · obtain ⟨o, ho, hsent, hopening⟩ := openingOf_opens { req₁ with ipc := ipc } v.opens v.fresh.2 v.roleStr_eq
    have hsome := hrest _ _ (acceptance_request (rest.map Caller.connection) hopening)
    rw [List.map_append] at hkept
    obtain ⟨refused, hacc, hledger⟩ := hkept _ hsome
    obtain ⟨rc, s', hrun, hclosed, hwaiting, hrc, haccepted⟩ := acceptLoop_matches (finish_idle h.finish) hacc
    rw [← accept_eq h.finish] at hrun
    obtain rfl : rc = 0 := hrc
    obtain ⟨hkeeps, -⟩ := accept_keeps h.finish hrun
    refine .inr ⟨bad, ipc, v, rest, s', req₁, o, os, rfl, hrun, haccepted, ho, ?_, hkeeps.appStatus.trans h.appStatus, hwaiting,
      ?_, hall⟩
    · rw [hsent, v.fresh.1, List.nil_append]
    · rw [hclosed, hledger, List.append_nil]

/-- However many callers are left, the loop answers them all and ends. -/
theorem main_answers (p : Process) {fuel : Nat} {cs : List Caller} (hfuel : (cs.map Caller.rounds).sum < fuel)
    {s s₁ : Session} {done : List Outbox} (h : Between s s₁ done (cs.map Caller.connection)) :
    ∃ s' os, main p fuel s = some s' ∧ s'.Idle ∧ s'.closed = done ++ os ∧ List.Forall₂ (Caller.Answered p) cs os := by
  induction fuel generalizing cs s s₁ done with
  | zero => omega
  | succ fuel ih =>
    rw [main]
    rcases accept_callers p h with ⟨rc, s', os, hrun, hrc, hidle, hclosed, hall⟩ |
      ⟨bad, ipc, v, rest, s', req, o, os, rfl, hrun, hacc, ho, hsent, happ, hwaiting, hclosed, hall⟩
    · refine ⟨s', os, ?_, hidle, hclosed, hall⟩
      simp only [hrun, Option.bind_eq_bind, Option.bind_some, if_neg hrc]
    · have hrounds : v.input.length / 1024 + 2 + (rest.map Caller.rounds).sum ≤ fuel := by
        rw [List.map_append, List.sum_append, List.map_cons, List.sum_cons, Caller.rounds] at hfuel
        omega
      obtain ⟨t, s'', s₁', o', hstreams, hanswer, hbetween, ho'⟩ :=
        visit_answered p v hacc ho hsent happ (show v.input.length / 1024 + 2 ≤ fuel by omega)
      rw [hwaiting, hclosed] at hbetween
      obtain ⟨s₂, os', hmain, hidle, hclosed', hall'⟩ := ih (by omega) hbetween
      refine ⟨s₂, os ++ o' :: os', ?_, hidle, ?_, List.rel_append hall (.cons ho' hall')⟩
      · simp only [hrun, hstreams, hanswer, hmain, Option.bind_eq_bind, Option.bind_some, if_true]
      · rw [hclosed']
        simp

/-- Whoever calls, with a request or without: all connections are closed in their order
until none is left, and on each that brought a request the answer to it has been sent. -/
theorem echo_answers (p : Process) (callers : List Caller) (acceptError : Errno) (misaligned : List Bool)
    (stack : Buffer 64) {fuel : Nat} (hfuel : (callers.map Caller.rounds).sum < fuel) :
    ∃ s, main p fuel (initRequest (callers.map Caller.connection) acceptError misaligned stack) = some s ∧ s.Idle ∧
      List.Forall₂ (Caller.Answered p) callers s.closed := by
  have hbetween : Between (initRequest (callers.map Caller.connection) acceptError misaligned stack) _ []
      (callers.map Caller.connection) := ⟨rfl, rfl, rfl, rfl, fun hc => absurd hc Bool.false_ne_true⟩
  obtain ⟨s, os, hrun, hidle, hclosed, hall⟩ := main_answers p hfuel hbetween
  rw [List.nil_append] at hclosed
  exact ⟨s, hrun, hidle, hclosed ▸ hall⟩

/-- A request that is in the middle of other requests. -/
def helloVisit : Visit (connectionWith helloText) where
  q := helloBegin
  rs := [helloParams]
  last := helloEnd
  nvs := helloPairs
  ins := sharedRecords
  inEnd := sharedEnd
  role := text "FCGI_ROLE=RESPONDER"
  fresh := connectionWith_fresh helloText _ List.mem_cons_self
  opens := helloText_opens
  roleStr_eq := rfl
  passing := sharedRecords_passing
  ends := sharedEnd_ends
  padding := by decide

/-- A connection that is cut, and then a request of which the content is echoed. -/
theorem echo_answers_hello :
    ∃ s o o', main ⟨7, [], by decide, List.forall_mem_nil _⟩ 3
        (initRequest [connectionWith [1, 2, 3], connectionWith helloText] ⟨4, by decide⟩ [true] (Buffer.zeroed 64)) = some s ∧
      s.closed = [o, o'] ∧ taken helloVisit.envp helloVisit.input = text "name=value" ∧
      helloVisit.Answered ⟨7, [], by decide, List.forall_mem_nil _⟩ o' := by
  have hrounds : ([.hopeless (connectionWith [1, 2, 3]) (hopeless_short (by decide)),
      .visit (connectionWith helloText) helloVisit].map Caller.rounds).sum < 3 := by decide
  obtain ⟨s, hrun, -, hall⟩ :=
    echo_answers ⟨7, [], by decide, List.forall_mem_nil _⟩ _ ⟨4, by decide⟩ [true] (Buffer.zeroed 64) hrounds
  obtain ⟨o, os, -, hrest, hclosed⟩ := List.forall₂_cons_left_iff.mp hall
  obtain ⟨o', os', hanswered, hnil, rfl⟩ := List.forall₂_cons_left_iff.mp hrest
  obtain rfl := List.forall₂_nil_left_iff.mp hnil
  exact ⟨s, o, o', hrun, hclosed, by decide, hanswered⟩

end Answering

end EchoCpp
