import Altumo.Libfcgi.Accept

/-!
# Requests that are served

A request as a web server sends it: the record that begins it, its parameters and its
input, with what is meant for others in between. Such a request is accepted with these
parameters, and its input can be read. A request that is cut may be accepted as well.
-/

namespace Libfcgi

open CString Descriptor PrefixCode Refill

/-- The record that begins a request. What follows it is taken for a header, so it must
not be padded. -/
structure Record.Begins (q : Record) : Prop where
  version : q.version = version1
  type : q.type = beginRequest
  requestId : q.requestId ≠ nullRequestId
  content : q.content.length = beginBodyLen
  padding : q.padding = []

/-- A request that has begun with this record. -/
def Record.begun (q : Record) (req : Request) : Context := (req.unopened.begin q.requestId).start q.content

def Record.role (q : Record) : Nat := ((q.content.getD 0 0).toNat <<< 8) + (q.content.getD 1 0).toNat

def Record.keeps (q : Record) : Bool := (q.content.getD 2 0) &&& keepConn != 0

/-- A text that is a request up to the end of its parameters, and then more. -/
structure Opens (t : Text) (q : Record) (rs : List Record) (last : Record) (nvs : List NameValue) (more : Text) : Prop where
  text : t = q.bytes ++ (rs.flatMap Record.bytes ++ (last.bytes ++ more))
  begins : q.Begins
  passing : ∀ r ∈ rs, Passing params q.requestId r
  ends : last.EndsStream params q.requestId
  padding : last.padding = []
  given : givenOf q.requestId false rs = nvs.flatMap NameValue.bytes
  sizes : ∀ nv ∈ nvs, oversized nv.bytes = false

section Serving

variable {ctx : Context} {req : Request} {q last : Record} {rs : List Record} {nvs : List NameValue} {role more : Text}

theorem nextEvent_begins (hq : q.Begins) (hctx : ctx.req.isBeginProcessed = false) (rest : Text) :
    nextEvent false ctx (q.bytes ++ rest) = some (.begun ((ctx.begin q.requestId).start q.content) rest) := by
  have hbegin : (ctx.begin q.requestId).req.isBeginProcessed = false := hctx
  have hstep : interpret false ctx q.header (q.content ++ rest) =
      some (.begun beginBodyLen ((ctx.begin q.requestId).start q.content)) := by
    have htake : (q.content ++ rest).take beginBodyLen = q.content := List.take_left' hq.content
    simp [interpret, beginStep, beginBodyStep, hq.version, hq.type, hq.requestId, hq.content, hctx, htake]
  have hbytes : q.bytes ++ rest = q.header.bytes ++ (q.content ++ rest) := by
    simp [Record.bytes, hq.padding]
  rw [hbytes, nextEvent_header, hstep, Option.bind_some, stepEvent, List.drop_left' hq.content]

theorem openingOf_begins (hq : q.Begins) {rest : Text} (htext : req.ipc.inbox.bytes = q.bytes ++ rest) :
    openingOf req = environmentOf (q.begun req) rest := by
  rw [openingOf, htext, nextEvent_begins hq rfl]
  rfl

/-- A request is accepted with its parameters. -/
theorem openingOf_opens (req : Request) (h : Opens req.ipc.inbox.bytes q rs last nvs more) (ho : req.ipc.outbox.Reliable)
    (hrole : roleStr q.role = some role) :
    ∃ o, o.Reliable ∧ o.sent = req.ipc.outbox.sent ++ rs.flatMap Record.response ∧
      openingOf req = some (.request (role :: nvs.map NameValue.string) (((q.begun req).reads params).sends o) more) := by
  obtain ⟨o, ho', hsent, hd⟩ := deliver_stream ((q.begun req).reads params) rfl (fun _ => ho) h.passing h.ends false more
  refine ⟨o, ho' ho, hsent, ?_⟩
  have hparse : parseParams (givenOf q.requestId false rs) = some (true, nvs.map NameValue.string) := by
    rw [h.given]
    exact parseParams_pairs h.sizes
  rw [openingOf_begins h.begins h.text, environmentOf, show (q.begun req).req.role = q.role from rfl, hrole]
  simp only [hd, Option.bind_eq_bind, Option.bind_some, h.padding, List.nil_append]
  have hid : ((q.begun req).reads params).req.requestId = q.requestId := rfl
  rw [hid, hparse]
  rfl

/-- The parameter that the library adds. -/
theorem roleStr_named {n : Nat} (h : roleStr n = some role) :
    Named (text "FCGI_ROLE") ∧ ∃ v, role = text "FCGI_ROLE" ++ 61 :: v := by
  refine ⟨by unfold Named; decide, ?_⟩
  unfold roleStr at h
  split at h
  · exact ⟨text "RESPONDER", (Option.some.inj h).symm⟩
  · split at h
    · exact ⟨text "AUTHORIZER", (Option.some.inj h).symm⟩
    · split at h
      · exact ⟨text "FILTER", (Option.some.inj h).symm⟩
      · cases h

/-- A connection that opens no request, whatever came before it. -/
def Hopeless (ipc : Connection) : Prop := ∀ req : Request, ∃ req', openingOf { req with ipc := ipc } = some (.refused req')

/-- Such connections are closed, and the next one is tried. -/
theorem acceptance_hopeless {bad : List Connection} (hbad : ∀ ipc ∈ bad, Hopeless ipc) (req : Request) :
    ∃ req' refused, refused.length = bad.length ∧ ∀ conns a, acceptance req' conns = some a →
      acceptance req (bad ++ conns) = some { a with refused := refused ++ a.refused } := by
  induction bad generalizing req with
  | nil => exact ⟨req, [], rfl, fun conns a h => h⟩
  | cons ipc bad ih =>
    obtain ⟨req₁, hopening⟩ := hbad ipc List.mem_cons_self req
    obtain ⟨req', refused, hlen, hrest⟩ := ih (fun c hc => hbad c (List.mem_cons_of_mem _ hc)) req₁
    refine ⟨req', req₁.ipc.outbox :: refused, by simp [hlen], ?_⟩
    intro conns a ha
    simp [acceptance, hopening, hrest conns a ha]

theorem acceptance_request {envp : List Text} {ipc : Connection} {rest : Text} (waiting : List Connection)
    (h : openingOf { req with ipc := ipc } = some (.request envp ctx rest)) :
    acceptance req (ipc :: waiting) = some ⟨[], some (envp, ctx, rest), waiting⟩ := by
  simp [acceptance, h]

variable {s s₁ : Session} {bad waiting : List Connection} {ipc : Connection} {ins : List Record} {inEnd : Record}

/-- The first connection that brings a request is accepted. The environment of the
application is the role and then the parameters of the request, where each name leads to
the value of its first pair, and whatever calls read the input return its content. -/
theorem request_served (hf : s.finish = some s₁) (hcand : s₁.candidates = bad ++ ipc :: waiting)
    (hbad : ∀ c ∈ bad, Hopeless c) (ho : ipc.outbox.Reliable)
    (h : Opens ipc.inbox.bytes q rs last nvs (ins.flatMap Record.bytes ++ (inEnd.bytes ++ more)))
    (hrole : roleStr q.role = some role) (hins : ∀ r ∈ ins, Passing stdin q.requestId r)
    (hend : inEnd.EndsStream stdin q.requestId) (calls : List ReadCall) :
    ∃ s' t str e, s.accept = some (0, s') ∧ s'.streams = some t ∧ s'.waiting = waiting ∧
      s'.closed.length = s₁.closed.length + bad.length ∧ s'.req.requestId = q.requestId ∧
      s'.req.keepConnection = q.keeps ∧ t.envp = role :: nvs.map NameValue.string ∧
      ((∀ nv ∈ nvs, Named nv.name) → ∀ name, Named name → name ≠ text "FCGI_ROLE" →
        getParam name t.envp = (nvs.find? fun nv => nv.name = name).map fun nv => cStr nv.value) ∧
      readCalls fillBuffProc calls ⟨t.input, s'.req⟩ = some (str, e) ∧ str <+: givenOf q.requestId false ins ∧
      (e.stream.isClosed = true → str = givenOf q.requestId false ins ∧ e.stream.errno = 0 ∧
        e.ahead = inEnd.padding ++ more ∧
        e.req.ipc.outbox.sent = ipc.outbox.sent ++ (rs ++ ins).flatMap Record.response) := by
  obtain ⟨req', refused, hlen, hrest⟩ := acceptance_hopeless hbad s₁.req
  obtain ⟨o, ho', hsent, hopening⟩ := openingOf_opens { req' with ipc := ipc } h ho hrole
  have hall := hrest _ _ (acceptance_request waiting hopening)
  rw [← hcand] at hall
  obtain ⟨rc, s', hrun, hclosed, hwaiting, hrc, hacc⟩ := acceptLoop_matches (finish_idle hf) hall
  rw [← accept_eq hf] at hrun
  obtain rfl : rc = 0 := hrc
  obtain ⟨input, outLen, errLen, hstreams, hst⟩ := hacc.streams
  have hyields := hst.stream_yields rfl (fun _ => ho') hins hend
  obtain ⟨e, hy, hclosedE, herrno, hahead, hsentE⟩ := hyields
  have hsound : Input.Sound ⟨input, s'.req⟩ := sound_of_avail hst.avail
  obtain ⟨str, c, e', hcalls, hc, hy', -⟩ := readCalls_yields hsound hy calls
  have hreq := congrArg Context.req hst.context
  refine ⟨s', _, str, e', hrun, hstreams, hwaiting, ?_, congrArg Request.requestId hreq,
    congrArg Request.keepConnection hreq, rfl, ?_, hcalls, ⟨c, hc.symm⟩, ?_⟩
  · rw [hclosed, List.length_append, List.append_nil, hlen]
  · intro hnvs name hname hne
    obtain ⟨hrolename, v, rfl⟩ := roleStr_named hrole
    simp only
    rw [getParam_cons hname hrolename, if_neg (Ne.symm hne), getParam_pairs hname hnvs]
  · intro hclosed'
    obtain ⟨rfl, rfl⟩ := hy'.eq_nil_of_closed hclosed'
    rw [List.append_nil] at hc
    refine ⟨hc.symm, herrno, hahead, ?_⟩
    rw [hsentE, List.flatMap_append, ← List.append_assoc]
    exact congrArg (· ++ _) hsent

theorem hopeless_short {ipc : Connection} (h : ipc.inbox.bytes.length < headerLen) : Hopeless ipc := by
  intro req
  have hevent : nextEvent false { req with ipc := ipc }.unopened ipc.inbox.bytes = some _ := nextEvent_short h
  exact ⟨_, by rw [openingOf, hevent]; rfl⟩

/-- A request of a web server that keeps the connection, in front of the records of its input. -/
def helloBegin : Record :=
  ⟨version1, beginRequest, thisRequest, [0, 1, 1, 0, 0, 0, 0, 0], [], 0, by decide, no_padding_le⟩

def helloPairs : List NameValue :=
  [⟨text "REQUEST_METHOD", text "POST", false, false, by decide, by decide⟩,
    ⟨text "CONTENT_LENGTH", text "10", false, false, by decide, by decide⟩]

def helloParams : Record :=
  ⟨version1, params, thisRequest, helloPairs.flatMap NameValue.bytes, [], 0, by decide, no_padding_le⟩

def helloEnd : Record := ⟨version1, params, thisRequest, [], [], 0, no_content_le, no_padding_le⟩

def helloText : Text :=
  helloBegin.bytes ++ ([helloParams].flatMap Record.bytes ++ (helloEnd.bytes ++
    (sharedRecords.flatMap Record.bytes ++ (sharedEnd.bytes ++ []))))

/-- A connection that brings this and cuts it into reads. -/
def connectionWith (t : Text) : Connection := ⟨⟨t, [4, 0, 29], none⟩, ⟨[], []⟩⟩

theorem helloText_opens :
    Opens helloText helloBegin [helloParams] helloEnd helloPairs (sharedRecords.flatMap Record.bytes ++ (sharedEnd.bytes ++ [])) where
  text := rfl
  begins := ⟨rfl, rfl, by decide, rfl, rfl⟩
  passing := by
    intro r hr
    rw [List.mem_singleton.mp hr]
    exact .own rfl rfl (by decide) rfl (by decide) (by decide)
  ends := ⟨rfl, rfl, by decide, rfl, by decide, rfl⟩
  padding := rfl
  given := by decide
  sizes := by decide

def helloSession (conns : List Connection) : Session := initRequest conns ⟨4, by decide⟩ [true] (Buffer.zeroed 64)

theorem request_served_hello :
    ∃ s' t str e, (helloSession [connectionWith [1, 2, 3], connectionWith helloText]).accept = some (0, s') ∧
      s'.streams = some t ∧ s'.closed.length = 1 ∧ t.envp.length = 3 ∧
      getParam (text "CONTENT_LENGTH") t.envp = some (text "10") ∧
      readCalls fillBuffProc [.getStr 100] ⟨t.input, s'.req⟩ = some (str, e) ∧ str <+: text "name=value" := by
  have hbad : ∀ c ∈ [connectionWith [1, 2, 3]], Hopeless c := by
    intro c hc
    rw [List.mem_singleton.mp hc]
    exact hopeless_short (by decide)
  have ho : (connectionWith helloText).outbox.Reliable := by
    intro r hr
    cases hr
  have hf : (helloSession [connectionWith [1, 2, 3], connectionWith helloText]).finish =
      some ((helloSession [connectionWith [1, 2, 3], connectionWith helloText]).free true) := rfl
  have hcand : ((helloSession [connectionWith [1, 2, 3], connectionWith helloText]).free true).candidates =
      [connectionWith [1, 2, 3]] ++ connectionWith helloText :: [] := rfl
  obtain ⟨s', t, str, e, hrun, hstreams, -, hclosed, -, -, henvp, hparam, hcalls, hstr, -⟩ :=
    request_served hf hcand hbad ho helloText_opens rfl sharedRecords_passing sharedEnd_ends [.getStr 100]
  refine ⟨s', t, str, e, hrun, hstreams, hclosed, by rw [henvp]; rfl, ?_, hcalls, hstr⟩
  exact hparam (by unfold Named; decide) _ (by unfold Named; decide) (by decide)

/-- A request whose connection is lost in its parameters is judged by what has arrived of them. -/
theorem openingOf_cut (req : Request) {t : Text} (h : Opens t q rs last nvs more) (ho : req.ipc.outbox.Reliable)
    (hrole : roleStr q.role = some role) {k : Nat} (hk : q.bytes.length ≤ k)
    (hk' : k < q.bytes.length + (rs.flatMap Record.bytes).length + headerLen) (htext : req.ipc.inbox.bytes = t.take k)
    {ok : Bool} {strings : List Text}
    (hparse : parseParams (arrivedOf q.requestId false rs (k - q.bytes.length)) = some (ok, strings)) :
    ∃ ctx : Context, ctx.errno ≠ 0 ∧
      openingOf req = some (if ok then .request (role :: strings) ctx [] else .refused ctx.req) := by
  have hcut : t.take k = q.bytes ++ (rs.flatMap Record.bytes ++ (last.bytes ++ more)).take (k - q.bytes.length) := by
    rw [h.text, List.take_append, List.take_of_length_le hk]
  obtain ⟨d, hd, hcontent, herrno, hrest⟩ := deliver_lost ((q.begun req).reads params) rfl ho h.passing false
    (last.bytes ++ more) (k := k - q.bytes.length) (by omega)
  refine ⟨d.ctx, herrno, ?_⟩
  have hid : ((q.begun req).reads params).req.requestId = q.requestId := rfl
  rw [hid] at hcontent
  rw [openingOf_begins h.begins (htext.trans hcut), environmentOf, show (q.begun req).req.role = q.role from rfl, hrole]
  simp only [hd, Option.bind_eq_bind, Option.bind_some, hcontent, hparse, hrest]

/-- A request whose connection is lost in front of the end of its parameters is accepted
all the same if what has arrived of them is whole pairs, with these pairs and with an
error in its input. If a pair is cut then the connection is closed. -/
theorem cut_request_accepted (hf : s.finish = some s₁) (hcand : s₁.candidates = [ipc]) (ho : ipc.outbox.Reliable)
    {t : Text} (h : Opens t q rs last nvs more) (hrole : roleStr q.role = some role) {k : Nat} (hk : q.bytes.length ≤ k)
    (hk' : k < q.bytes.length + (rs.flatMap Record.bytes).length + headerLen) (htext : ipc.inbox.bytes = t.take k) :
    ∃ rc s', s.accept = some (rc, s') ∧
      (∀ m, arrivedOf q.requestId false rs (k - q.bytes.length) = (nvs.take m).flatMap NameValue.bytes →
        rc = 0 ∧ ∃ t, s'.streams = some t ∧ t.envp = role :: (nvs.take m).map NameValue.string ∧ t.input.errno ≠ 0) ∧
      ((∀ m, arrivedOf q.requestId false rs (k - q.bytes.length) ≠ (nvs.take m).flatMap NameValue.bytes) →
        rc = -s₁.acceptError.val ∧ s'.Idle ∧ s'.closed.length = s₁.closed.length + 1) := by
  have hsizes : ∀ m, ∀ nv ∈ nvs.take m, oversized nv.bytes = false :=
    fun m nv hnv => h.sizes nv (List.mem_of_mem_take hnv)
  have hprefix : arrivedOf q.requestId false rs (k - q.bytes.length) <+: nvs.flatMap NameValue.bytes := by
    rw [← h.given]
    exact arrivedOf_prefix _ _ _ _
  by_cases hwhole : ∃ m, arrivedOf q.requestId false rs (k - q.bytes.length) = (nvs.take m).flatMap NameValue.bytes
  · obtain ⟨m, hm⟩ := hwhole
    have hparse := parseParams_pairs (hsizes m)
    rw [← hm] at hparse
    obtain ⟨ctx, herrno, hopening⟩ := openingOf_cut { s₁.req with ipc := ipc } h ho hrole hk hk' htext hparse
    have hacc := acceptance_request [] hopening
    rw [← hcand] at hacc
    obtain ⟨rc, s', hrun, -, -, hrc, hs'⟩ := acceptLoop_matches (finish_idle hf) hacc
    rw [← accept_eq hf] at hrun
    obtain ⟨input, outLen, errLen, hstreams, hst⟩ := hs'.streams
    have hinput : input.errno = ctx.errno := congrArg Context.errno hst.context
    refine ⟨rc, s', hrun, ?_, fun hnone => absurd hm (hnone m)⟩
    intro m' hm'
    have hparse' := parseParams_pairs (hsizes m')
    rw [← hm', hparse] at hparse'
    refine ⟨hrc, _, hstreams, ?_, ?_⟩
    · rw [← (Prod.mk.inj (Option.some.inj hparse')).2]
    · rw [hinput]
      exact herrno
  · obtain ⟨m, tail, heq, hparse⟩ := parseParams_cut h.sizes hprefix
    have htail : tail.isEmpty = false := by
      cases tail with
      | nil => exact absurd ⟨m, heq.trans (List.append_nil _)⟩ hwhole
      | cons b tail => rfl
    rw [htail] at hparse
    obtain ⟨ctx, -, hopening⟩ := openingOf_cut { s₁.req with ipc := ipc } h ho hrole hk hk' htext hparse
    have hacc : acceptance s₁.req s₁.candidates = some ⟨[ctx.req.ipc.outbox], none, []⟩ := by
      rw [hcand]
      simp [acceptance, hopening]
    obtain ⟨rc, s', hrun, hclosed, -, hrc, hidle⟩ := acceptLoop_matches (finish_idle hf) hacc
    rw [← accept_eq hf] at hrun
    refine ⟨rc, s', hrun, fun m' hm' => absurd ⟨m', hm'⟩ hwhole, fun _ => ⟨hrc, hidle, ?_⟩⟩
    rw [hclosed, List.length_append]
    rfl

/-- The second pair has arrived in part, or not at all. -/
theorem cut_request_accepted_hello :
    (∃ s' t, (helloSession [connectionWith (helloText.take 44)]).accept = some (0, s') ∧ s'.streams = some t ∧
      t.envp = [text "FCGI_ROLE=RESPONDER", text "REQUEST_METHOD=POST"] ∧ t.input.errno ≠ 0) ∧
      ∃ s', (helloSession [connectionWith (helloText.take 50)]).accept = some (-4, s') ∧ s'.Idle := by
  have ho : ∀ t, (connectionWith t).outbox.Reliable := by
    intro t r hr
    cases hr
  obtain ⟨rc, s', hrun, hwhole, -⟩ := cut_request_accepted (s := helloSession [connectionWith (helloText.take 44)]) rfl rfl
    (ho _) helloText_opens rfl (k := 44) (by decide) (by decide) rfl
  obtain ⟨rfl, t, hstreams, henvp, herrno⟩ := hwhole 1 (by decide)
  obtain ⟨rc, s'', hrun', -, hcut⟩ := cut_request_accepted (s := helloSession [connectionWith (helloText.take 50)]) rfl rfl
    (ho _) helloText_opens rfl (k := 50) (by decide) (by decide) rfl
  obtain ⟨rfl, hidle, -⟩ := hcut (by
    rintro (- | - | m)
    · decide
    · decide
    · rw [List.take_of_length_le (show helloPairs.length ≤ m + 1 + 1 from Nat.le_add_left 2 m)]
      decide)
  exact ⟨⟨s', t, hrun, hstreams, henvp, herrno⟩, s'', hrun', hidle⟩

end Serving

end Libfcgi
