import Altumo.Libfcgi.Session
import Altumo.Libfcgi.Reading

/-!
# What a connection opens with

The bytes of a connection say whether it brings a request, and which one. So does
`FCGX_Accept_r`, for buffers of any size and any cut of the connection into reads: it
closes the connections that bring none, in order, and accepts the first request.
-/

namespace Libfcgi

open CString Descriptor Refill

inductive Opening where
  | request : (envp : List Text) → Context → (rest : Text) → Opening
  | refused : Request → Opening

def Context.reads (ctx : Context) (type : Byte) : Context := { ctx with type := type }

def environmentOf (ctx : Context) (rest : Text) : Option Opening :=
  match roleStr ctx.req.role with
  | none => some (.refused ctx.req)
  | some role => do
    let d ← deliver false (ctx.reads params) rest
    let (ok, strings) ← parseParams d.content
    some (if ok then .request (role :: strings) d.ctx d.rest else .refused d.ctx.req)

/-- A stream of no type, before a request has begun. -/
def Request.unopened (req : Request) : Context :=
  ⟨0, 0, { req with isBeginProcessed := false }.setInbox ⟨[], [], req.ipc.inbox.fault⟩⟩

def openingOf (req : Request) : Option Opening := do
  match ← nextEvent false req.unopened req.ipc.inbox.bytes with
  | .content _ _ ctx _ => some (.refused ctx.req)
  | .ended ctx _ => some (.refused ctx.req)
  | .begun ctx rest => environmentOf ctx rest

def Opening.Matches : Opening → Option (List Text) × Input → Prop
  | .request envp ctx rest, r => r.1 = some envp ∧ Ended r.2 ctx rest
  | .refused req, r => r.1 = none ∧ r.2.context.req = req

/-- The context that a step leads to, and whether it has begun a request. -/
def Step.outcome : Step → Bool × Context
  | .next _ _ ctx => (false, ctx)
  | .content _ _ ctx => (false, ctx)
  | .ended _ ctx => (false, ctx)
  | .begun _ ctx => (true, ctx)

def Event.outcome : Event → Bool × Context
  | .content _ _ ctx _ => (false, ctx)
  | .ended ctx _ => (false, ctx)
  | .begun ctx _ => (true, ctx)

section Opening

variable {skip : Bool} {ctx : Context} {text rest : Text}

theorem bodyStep_outcome (skip : Bool) (n p : Nat) (ctx : Context) : (bodyStep skip n p ctx).outcome = (false, ctx) := by
  unfold bodyStep
  split
  · rfl
  · split <;> rfl

theorem answer_isBeginProcessed (ctx : Context) (response : Text) :
    (ctx.answer response).2.req.isBeginProcessed = ctx.req.isBeginProcessed := by
  unfold Context.answer
  split <;> rfl

theorem valuesStep_outcome (hctx : ctx.req.isBeginProcessed = false) {h : Header} {step : Step}
    (hstep : valuesStep skip ctx h rest = some step) : step.outcome.2.req.isBeginProcessed = step.outcome.1 := by
  simp only [valuesStep, Option.bind_eq_bind, Option.bind_eq_some_iff] at hstep
  obtain ⟨⟨ok, strings⟩, -, hstep⟩ := hstep
  split at hstep
  · split at hstep
    · obtain rfl := Option.some.inj hstep
      exact hctx
    · split at hstep
      · obtain rfl := Option.some.inj hstep
        exact hctx
      · obtain ⟨answer, -, hstep⟩ := Option.bind_eq_some_iff.mp hstep
        have hreq := answer_isBeginProcessed ctx (valuesResponse ctx.req.stack answer)
        split at hstep
        · rename_i ctx' heq
          rw [heq] at hreq
          obtain rfl := Option.some.inj hstep
          exact hreq.trans hctx
        · rename_i ctx' heq
          rw [heq] at hreq
          obtain rfl := Option.some.inj hstep
          exact hreq.trans hctx
  · obtain rfl := Option.some.inj hstep
    exact hctx

theorem beginBodyStep_outcome (ctx : Context) (hctx : ctx.req.isBeginProcessed = false) (skip : Bool) (n : Nat) (rest : Text) :
    (beginBodyStep skip n ctx rest).outcome.2.req.isBeginProcessed = (beginBodyStep skip n ctx rest).outcome.1 := by
  unfold beginBodyStep
  split
  · split <;> exact hctx
  · split
    · rfl
    · exact hctx

/-- A step begins a request if and only if that is what it notes in the request. -/
theorem interpret_outcome (hctx : ctx.req.isBeginProcessed = false) {h : Header} {step : Step}
    (hstep : interpret skip ctx h rest = some step) : step.outcome.2.req.isBeginProcessed = step.outcome.1 := by
  unfold interpret at hstep
  split at hstep
  · obtain rfl := Option.some.inj hstep
    exact hctx
  · split at hstep
    · obtain rfl := Option.some.inj hstep
      unfold beginStep
      split
      · exact hctx
      · rw [if_neg (by rw [hctx]; exact Bool.false_ne_true)]
        exact beginBodyStep_outcome (ctx.begin h.requestId) hctx _ _ _
    · split at hstep
      · split at hstep
        · exact valuesStep_outcome hctx hstep
        · obtain rfl := Option.some.inj hstep
          have hreq := answer_isBeginProcessed ctx (unknownTypeResponse h.type)
          unfold unknownStep
          split
          · rename_i ctx' heq
            rw [heq] at hreq
            rw [bodyStep_outcome]
            exact hreq.trans hctx
          · rename_i ctx' heq
            rw [heq] at hreq
            exact hreq.trans hctx
      · split at hstep
        · obtain rfl := Option.some.inj hstep
          rw [bodyStep_outcome]
          exact hctx
        · split at hstep
          · obtain rfl := Option.some.inj hstep
            exact hctx
          · split at hstep
            · obtain rfl := Option.some.inj hstep
              exact hctx
            · obtain rfl := Option.some.inj hstep
              rw [bodyStep_outcome]
              exact hctx

theorem nextEvent_outcome (hctx : ctx.req.isBeginProcessed = false) {event : Event}
    (hevent : nextEvent skip ctx text = some event) : event.outcome.2.req.isBeginProcessed = event.outcome.1 := by
  induction hk : text.length using Nat.strongRecOn generalizing skip ctx text with
  | ind k ih =>
    subst hk
    by_cases hle : headerLen ≤ text.length
    · rw [nextEvent, if_pos hle] at hevent
      simp only [Option.bind_eq_bind, Option.bind_eq_some_iff] at hevent
      obtain ⟨header, -, step, hstep, hevent⟩ := hevent
      have hout := interpret_outcome hctx hstep
      cases step with
      | next count skip' ctx' =>
        refine ih _ ?_ hout hevent rfl
        simp only [List.length_drop]
        unfold headerLen at *
        omega
      | content n p ctx' =>
        by_cases hnil : text.drop headerLen = []
        · simp only [if_pos hnil, Option.some.injEq] at hevent
          rw [← hevent]
          exact hout
        · simp only [if_neg hnil, Option.some.injEq] at hevent
          rw [← hevent]
          exact hout
      | ended count ctx' =>
        obtain rfl := Option.some.inj hevent
        exact hout
      | begun count ctx' =>
        obtain rfl := Option.some.inj hevent
        exact hout
    · rw [nextEvent, if_neg hle] at hevent
      obtain rfl := Option.some.inj hevent
      exact hctx

/-- No content is made up. -/
theorem deliver_content_length {d : Delivery} (hd : deliver skip ctx text = some d) : d.content.length ≤ text.length := by
  induction hk : text.length using Nat.strongRecOn generalizing skip ctx text d with
  | ind k ih =>
    subst hk
    rw [deliver] at hd
    split at hd
    · cases hd
    · rename_i n p ctx' rest hevent
      have hlt := nextEvent_content_length hevent
      simp only [Option.bind_eq_bind, Option.bind_eq_some_iff, Option.some.injEq] at hd
      obtain ⟨d', hd', rfl⟩ := hd
      have hshorter : (rest.drop (n + p)).length < text.length := by
        rw [List.length_drop]
        omega
      have hle := ih _ hshorter hd' rfl
      simp only [Delivery.prepend, List.length_append, List.length_take, List.length_drop] at hle ⊢
      omega
    · obtain rfl := Option.some.inj hd
      exact Nat.zero_le _
    · cases hd

theorem readEnvironment_matches {s : Input} {p : Nat} {opening : Opening} (hs : Stands false s false 0 p ctx rest)
    (h : environmentOf ctx rest = some opening) : ∃ r, readEnvironment s = some r ∧ opening.Matches r := by
  have hrole : s.req.role = ctx.req.role := congrArg (fun c => c.req.role) hs.context
  unfold environmentOf at h
  rw [readEnvironment, hrole]
  cases hstr : roleStr ctx.req.role with
  | none =>
    rw [hstr] at h
    obtain rfl := Option.some.inj h
    exact ⟨_, rfl, rfl, congrArg Context.req hs.context⟩
  | some role =>
    rw [hstr] at h
    simp only [Option.bind_eq_bind, Option.bind_eq_some_iff, Option.some.injEq] at h
    obtain ⟨d, hd, ⟨ok, strings⟩, hparse, rfl⟩ := h
    have hst := setType_stands s.stream s.req params
    have hctx : (⟨params, s.stream.errno, s.req.setInbox ⟨[], [], s.req.ipc.inbox.fault⟩⟩ : Context) = ctx.reads params := by
      rw [← hs.context]
      rfl
    have hahead : s.stream.unread ++ s.req.ipc.inbox.bytes = rest := hs.ahead
    rw [hctx, hahead] at hst
    obtain ⟨e, hy, he⟩ := deliver_yields hst (.inl rfl) hd
    have hlen : d.content.length ≤ (⟨s.stream.setType params, s.req⟩ : Input).ahead.length := by
      rw [hst.ahead]
      exact deliver_content_length hd
    obtain ⟨p', hrun, hvec⟩ := readParams_yields (sound_setType s.stream s.req params) hy hlen hparse
      (putParam (newParams 30 (by decide)) role)
    cases ok with
    | true =>
      refine ⟨(some (role :: strings), e), ?_, rfl, he⟩
      simp only [hrun, if_true, Option.bind_eq_bind, Option.bind_some, hvec]
      rfl
    | false =>
      have hreq : (e.setError paramsError).context.req = d.ctx.req := by
        rw [← he.context]
        rfl
      refine ⟨(none, e.setError paramsError), ?_, rfl, hreq⟩
      simp only [hrun, Bool.false_eq_true, if_false, Option.bind_eq_bind, Option.bind_some]

/-- A new reader finds what the bytes say. -/
theorem openRequest_matches {req : Request} {opening : Opening} (h : openingOf req = some opening) (b : BuffLen) :
    ∃ r, openRequest b req = some r ∧ opening.Matches r := by
  simp only [openingOf, Option.bind_eq_bind, Option.bind_eq_some_iff] at h
  obtain ⟨event, hevent, h⟩ := h
  have hst : Stands false ⟨newReader b 0, { req with isBeginProcessed := false }⟩ false 0 0 req.unopened
      req.ipc.inbox.bytes := ⟨rfl, rfl, rfl, rfl, rfl, rfl, rfl, rfl⟩
  obtain ⟨s, hfill, hm⟩ := fillBuffProc_event hst (.inl rfl) hevent
  have hout := nextEvent_outcome (show req.unopened.req.isBeginProcessed = false from rfl) hevent
  have hflag : ∀ ctx, s.context = ctx → s.req.isBeginProcessed = ctx.req.isBeginProcessed :=
    fun ctx hctx => congrArg (fun c => c.req.isBeginProcessed) hctx
  simp only [openRequest, hfill, Option.bind_eq_bind, Option.bind_some]
  cases event with
  | content n p ctx rest =>
    obtain rfl := Option.some.inj h
    have hm : Given s n p ctx rest := hm
    rw [hflag ctx hm.context, show ctx.req.isBeginProcessed = false from hout]
    exact ⟨_, rfl, rfl, congrArg Context.req hm.context⟩
  | ended ctx rest =>
    obtain rfl := Option.some.inj h
    have hm : Ended s ctx rest := hm
    rw [hflag ctx hm.context, show ctx.req.isBeginProcessed = false from hout]
    exact ⟨_, rfl, rfl, congrArg Context.req hm.context⟩
  | begun ctx rest =>
    obtain ⟨p, hm⟩ := hm
    rw [hflag ctx hm.context, show ctx.req.isBeginProcessed = true from hout]
    exact readEnvironment_matches hm h

end Opening

/-- What the loop of `FCGX_Accept_r` comes to on these connections: what was sent on those
that it closes, the request if there is one, and the connections that it leaves. -/
structure Acceptance where
  refused : List Outbox
  request : Option (List Text × Context × Text)
  waiting : List Connection

def acceptance (req : Request) : List Connection → Option Acceptance
  | [] => some ⟨[], none, []⟩
  | ipc :: waiting => do
    match ← openingOf { req with ipc := ipc } with
    | .request envp ctx rest => some ⟨[], some (envp, ctx, rest), waiting⟩
    | .refused req => do
      let a ← acceptance req waiting
      some { a with refused := req.ipc.outbox :: a.refused }

/-- A request that has been accepted: its streams are those of `FCGX_Accept_r`, and the
input stands in front of the rest of the connection. -/
structure Session.Accepted (s : Session) (envp : List Text) (ctx : Context) (rest : Text) : Prop where
  connected : s.connected = true
  streams : ∃ input outLen errLen, s.streams = some ⟨input, newWriter outLen stdout, newWriter errLen stderr, envp⟩ ∧
    Stands false ⟨input, s.req⟩ false 0 0 ⟨stdin, ctx.errno, { ctx.req with nWriters := 2 }⟩ rest

structure Session.Idle (s : Session) : Prop where
  connected : s.connected = false
  streams : s.streams = none

/-- The connections that are served: one that was kept, and those that wait. -/
def Session.candidates (s : Session) : List Connection := (if s.connected then [s.req.ipc] else []) ++ s.waiting

section Accepting

variable {s : Session} {envp : List Text} {ctx : Context} {rest : Text} {req : Request}

/-- The session in a pass of the loop, with the connection as the reader leaves it. -/
def Session.opened (s : Session) (input : Input) : Session := { (s.newBuffer 8192).2 with req := input.req }

def Session.passed (s : Session) (input : Input) : Option (List Text) → Bool × Session
  | none => (false, (s.opened input).free true)
  | some envp => (true, (s.opened input).build input.stream envp)

theorem acceptPass_eq {found : Option (List Text)} {input : Input}
    (h : openRequest (s.newBuffer 8192).1 s.req = some (found, input)) : s.acceptPass = some (s.passed input found) := by
  have hpass : s.acceptPass = (openRequest (s.newBuffer 8192).1 s.req).bind fun r =>
      match r.1 with
      | none => some (false, (s.opened r.2).free true)
      | some envp => some (true, (s.opened r.2).build r.2.stream envp) := rfl
  rw [hpass, h]
  cases found <;> rfl

theorem acceptPass_request (hc : s.connected = true) (h : openingOf s.req = some (.request envp ctx rest)) :
    ∃ s', s.acceptPass = some (true, s') ∧ s'.Accepted envp ctx rest ∧ s'.closed = s.closed ∧
      s'.waiting = s.waiting := by
  obtain ⟨⟨found, input⟩, hrun, hm⟩ := openRequest_matches h (s.newBuffer 8192).1
  obtain ⟨rfl, he⟩ : found = some envp ∧ Ended input ctx rest := hm
  refine ⟨_, acceptPass_eq hrun, ⟨hc, input.stream.setType stdin, _, _, rfl, ?_⟩, rfl, rfl⟩
  have hst := setType_stands input.stream { input.req with nWriters := 2 } stdin
  have hahead : input.stream.unread ++ input.req.ipc.inbox.bytes = rest := he.ahead
  rw [hahead] at hst
  obtain rfl := he.context
  exact hst

/-- The connection is closed, and what is left is ready for the next one. -/
theorem acceptPass_refused (hc : s.connected = true) (h : openingOf s.req = some (.refused req)) :
    ∃ s', s.acceptPass = some (false, s') ∧ s'.Idle ∧ s'.closed = s.closed ++ [req.ipc.outbox] ∧
      s'.waiting = s.waiting ∧ s'.acceptError = s.acceptError ∧
      ∀ ipc, { s'.req with ipc := ipc } = { req with ipc := ipc } := by
  obtain ⟨⟨found, input⟩, hrun, hm⟩ := openRequest_matches h (s.newBuffer 8192).1
  obtain ⟨rfl, rfl⟩ : found = none ∧ input.context.req = req := hm
  have hopen : (s.opened input).connected = true := hc
  refine ⟨_, acceptPass_eq hrun, ⟨?_, rfl⟩, ?_, rfl, rfl, fun ipc => rfl⟩
  · simp [Session.free]
  · simp only [Session.free, hopen, Bool.and_true, if_true]
    rfl

/-- What the loop comes to from a session that has no connection. -/
theorem acceptLoop_matches {conns : List Connection} {a : Acceptance} (hidle : s.Idle)
    (h : acceptance s.req conns = some a) :
    ∃ rc s', acceptLoop conns s = some (rc, s') ∧ s'.closed = s.closed ++ a.refused ∧ s'.waiting = a.waiting ∧
      match a.request with
      | some (envp, ctx, rest) => rc = 0 ∧ s'.Accepted envp ctx rest
      | none => rc = -s.acceptError.val ∧ s'.Idle := by
  induction conns generalizing s a with
  | nil =>
    obtain rfl := Option.some.inj h
    exact ⟨_, _, rfl, by simp, rfl, rfl, hidle.connected, hidle.streams⟩
  | cons ipc waiting ih =>
    simp only [acceptance, Option.bind_eq_bind, Option.bind_eq_some_iff] at h
    obtain ⟨opening, hopening, h⟩ := h
    cases opening with
    | request envp ctx rest =>
      obtain rfl := Option.some.inj h
      obtain ⟨s', hpass, hacc, hclosed, hwaiting⟩ := acceptPass_request (s := s.connect ipc waiting) rfl hopening
      refine ⟨0, s', by simp [acceptLoop, hpass], by simpa using (show s'.closed = s.closed from hclosed), hwaiting, rfl, hacc⟩
    | refused req =>
      simp only [Option.bind_eq_some_iff, Option.some.injEq] at h
      obtain ⟨a', ha', rfl⟩ := h
      obtain ⟨s', hpass, hidle', hclosed, -, herror, hreq⟩ := acceptPass_refused (s := s.connect ipc waiting) rfl hopening
      have hsame : acceptance s'.req waiting = some a' := by
        rw [← ha']
        cases waiting with
        | nil => rfl
        | cons ipc' waiting => simp only [acceptance, hreq]
      obtain ⟨rc, s'', hloop, hclosed', hwaiting', hend⟩ := ih hidle' hsame
      refine ⟨rc, s'', by simp [acceptLoop, hpass, hloop], ?_, hwaiting', ?_⟩
      · have hclosed : s'.closed = s.closed ++ [req.ipc.outbox] := hclosed
        rw [hclosed', hclosed, List.append_assoc]
        rfl
      · have herror : s'.acceptError = s.acceptError := herror
        rw [← herror]
        exact hend

theorem finish_streams {s₁ : Session} (h : s.finish = some s₁) : s₁.streams = none := by
  unfold Session.finish at h
  split at h
  · obtain rfl := Option.some.inj h
    rfl
  · simp only [Option.bind_eq_bind, Option.bind_eq_some_iff, Option.some.injEq] at h
    obtain ⟨err, -, out, -, rfl⟩ := h
    rfl

theorem acceptPass_waiting {accepted : Bool} {s' : Session} (h : s.acceptPass = some (accepted, s')) :
    s'.waiting = s.waiting := by
  simp only [Session.acceptPass, Option.bind_eq_bind, Option.bind_eq_some_iff] at h
  obtain ⟨⟨found, input⟩, -, h⟩ := h
  cases found <;> (obtain ⟨rfl, rfl⟩ := Prod.mk.inj (Option.some.inj h); rfl)

/-- A connection that was kept is served as if it had just been accepted. -/
theorem accept_eq {s₁ : Session} (h : s.finish = some s₁) :
    s.accept = acceptLoop s₁.candidates { s₁ with connected := false } := by
  rw [Session.accept, h]
  simp only [Option.bind_eq_bind, Option.bind_some]
  by_cases hc : s₁.connected = true
  · have hsame : { s₁ with connected := false }.connect s₁.req.ipc s₁.waiting = s₁ := by
      obtain ⟨req, connected, streams, waiting, acceptError, closed, misaligned⟩ := s₁
      obtain rfl : connected = true := hc
      rfl
    simp only [Session.candidates, hc, if_true, List.cons_append, List.nil_append, acceptLoop, hsame, Option.bind_eq_bind]
    refine Option.bind_congr ?_
    rintro ⟨accepted, s'⟩ hpass
    simp only [acceptPass_waiting hpass]
  · have hfalse : s₁.connected = false := Bool.not_eq_true _ ▸ hc
    have hsame : { s₁ with connected := false } = s₁ := by rw [← hfalse]
    simp only [Session.candidates, hfalse, Bool.false_eq_true, if_false, List.nil_append, hsame]

theorem finish_idle {s₁ : Session} (h : s.finish = some s₁) : ({ s₁ with connected := false } : Session).Idle := by
  have hstreams : s₁.streams = none := finish_streams h
  exact ⟨rfl, hstreams⟩

/-- `FCGX_Accept_r` comes to what the bytes of the connections say: what it closes, what it
answers on these connections, which request it accepts, with which environment and where
the input then stands, or the error of `OS_Accept`. Neither the reads nor the buffers matter. -/
theorem accept_refines {s₁ : Session} {a : Acceptance} (hf : s.finish = some s₁)
    (h : acceptance s₁.req s₁.candidates = some a) :
    ∃ rc s', s.accept = some (rc, s') ∧ s'.closed = s₁.closed ++ a.refused ∧ s'.waiting = a.waiting ∧
      match a.request with
      | some (envp, ctx, rest) => rc = 0 ∧ s'.Accepted envp ctx rest
      | none => rc = -s₁.acceptError.val ∧ s'.Idle := by
  rw [accept_eq hf]
  exact acceptLoop_matches (finish_idle hf) h

/-- A responder request without parameters. -/
def plainText : Text := [1, 1, 0, 1, 0, 8, 0, 0, 0, 1, 0, 0, 0, 0, 0, 0, 1, 4, 0, 1, 0, 0, 0, 0]

def connectionOf (t : Text) : Connection := ⟨⟨t, [0, 5], none⟩, ⟨[], []⟩⟩

def plainSession : Session :=
  initRequest [connectionOf [1, 2, 3], connectionOf plainText, connectionOf []] ⟨24, by decide⟩ [] (Buffer.zeroed 64)

/-- A connection that brings no whole header is closed, the request of the next one is accepted,
and the last one waits. -/
theorem accept_refines_plain :
    ∃ s' ctx rest, plainSession.accept = some (0, s') ∧ s'.closed.length = 1 ∧ s'.waiting.length = 1 ∧
      s'.Accepted [text "FCGI_ROLE=RESPONDER"] ctx rest := by
  have hacc : (acceptance (plainSession.free true).req (plainSession.free true).candidates).map (fun a =>
      (a.refused.length, a.waiting.length, a.request.map Prod.fst)) =
      some (1, 1, some [text "FCGI_ROLE=RESPONDER"]) := by decide +kernel
  obtain ⟨a, ha, heq⟩ := Option.map_eq_some_iff.mp hacc
  simp only [Prod.mk.injEq] at heq
  obtain ⟨hrefused, hwaits, hrequest⟩ := heq
  obtain ⟨⟨envp, ctx, rest⟩, hreq, rfl⟩ := Option.map_eq_some_iff.mp hrequest
  obtain ⟨rc, s', hrun, hclosed, hwaiting, hend⟩ := accept_refines (show plainSession.finish = some _ from rfl) ha
  rw [hreq] at hend
  obtain ⟨rfl, haccepted⟩ := hend
  refine ⟨s', ctx, rest, hrun, ?_, ?_, haccepted⟩
  · rw [hclosed, List.length_append, hrefused]
    rfl
  · rw [hwaiting, hwaits]

end Accepting

end Libfcgi
