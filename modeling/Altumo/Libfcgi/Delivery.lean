import Altumo.Libfcgi.Filling

/-!
# The protocol of an input stream

What the bytes of a connection mean to a reader, said record by record and without a
buffer: which content its client gets, what is answered, and where and why it ends.
`FillBuffProc` behaves so, whatever the size of its buffer and the reads.
-/

namespace Libfcgi

open CString Descriptor Refill

/-- A reader and its request, apart from the bytes and how far a record has been read. -/
structure Context where
  type : Byte
  errno : Int
  req : Request

def Input.context (s : Input) : Context where
  type := s.stream.type
  errno := s.stream.errno
  req := s.req.setInbox ⟨[], [], s.req.ipc.inbox.fault⟩

namespace Context

/-- The first error is kept. -/
def fail (ctx : Context) (errno : Int) : Context := { ctx with errno := if ctx.errno = 0 then errno else ctx.errno }

/-- The connection has ended. -/
def lost (ctx : Context) : Context := ctx.fail (Inbox.error ctx.req.ipc.inbox)

/-- A response is written, which may fail. -/
def answer (ctx : Context) (response : Text) : Bool × Context :=
  match writeItAll ctx.req.ipc.outbox response with
  | (none, outbox) => (true, { ctx with req := ctx.req.setOutbox outbox })
  | (some errno, outbox) => (false, { ctx with req := ctx.req.setOutbox outbox }.fail errno)

/-- The request id of a begin request is kept even if the record is bad. -/
def begin (ctx : Context) (requestId : RequestId) : Context := { ctx with req := { ctx.req with requestId := requestId } }

def start (ctx : Context) (body : Text) : Context := { ctx with req := ctx.req.start body }

end Context

/-- What a header and the bytes behind it lead to. The counts are of these bytes. -/
inductive Step where
  | next : (count : Nat) → (skip : Bool) → Context → Step
  | content : (contentLen paddingLen : Nat) → Context → Step
  | ended : (count : Nat) → Context → Step
  | begun : (count : Nat) → Context → Step

/-- The rest of a record: nothing, content that is passed over, or content for the client.
Only content that is passed over takes the mark to pass over away. -/
def bodyStep (skip : Bool) (contentLen paddingLen : Nat) (ctx : Context) : Step :=
  if contentLen = 0 then .next paddingLen skip ctx
  else if skip then .next (contentLen + paddingLen) false ctx
  else .content contentLen paddingLen ctx

/-- The body of a begin request is not found if it is passed over. -/
def beginBodyStep (skip : Bool) (paddingLen : Nat) (ctx : Context) (rest : Text) : Step :=
  if skip then
    if beginBodyLen + paddingLen ≤ rest.length then .ended (beginBodyLen + paddingLen) (ctx.fail protocolError)
    else .ended rest.length ctx.lost
  else if beginBodyLen ≤ rest.length then .begun beginBodyLen (ctx.start (rest.take beginBodyLen))
  else .ended rest.length ctx.lost

def beginStep (skip : Bool) (ctx : Context) (h : Header) (rest : Text) : Step :=
  if h.requestId = nullRequestId ∨ h.contentLength ≠ beginBodyLen then .ended 0 (ctx.fail protocolError)
  else if ctx.req.isBeginProcessed then
    match ctx.answer (endRequestBytes h.requestId 0 cantMpxConn) with
    | (true, ctx) => .next (h.contentLength + h.paddingLength.toNat) false ctx
    | (false, ctx) => .ended 0 ctx
  else beginBodyStep skip h.paddingLength.toNat (ctx.begin h.requestId) rest

/-- How much of a body a recursive call gets. -/
def givenLen (skip : Bool) (contentLen : Nat) : Nat := if skip then 0 else contentLen

def valuesStep (skip : Bool) (ctx : Context) (h : Header) (rest : Text) : Option Step := do
  let (ok, strings) ← parseParams (rest.take (givenLen skip h.contentLength))
  if givenLen skip h.contentLength < rest.length ∧ h.contentLength + h.paddingLength.toNat ≤ rest.length then
    if !ok then some (.ended (h.contentLength + h.paddingLength.toNat) (ctx.fail paramsError))
    else if ctx.errno ≠ 0 then some (.ended (h.contentLength + h.paddingLength.toNat) ctx)
    else
      let answer ← answerValues strings []
      match ctx.answer (valuesResponse ctx.req.stack answer) with
      | (true, ctx) => some (.next (h.contentLength + h.paddingLength.toNat) (skip && h.contentLength == 0) ctx)
      | (false, ctx) => some (.ended (h.contentLength + h.paddingLength.toNat) ctx)
  else some (.ended rest.length ctx.lost)

def unknownStep (skip : Bool) (ctx : Context) (h : Header) : Step :=
  match ctx.answer (unknownTypeResponse h.type) with
  | (true, ctx) => bodyStep skip h.contentLength h.paddingLength.toNat ctx
  | (false, ctx) => .ended 0 ctx

/-- What a record means. -/
def interpret (skip : Bool) (ctx : Context) (h : Header) (rest : Text) : Option Step :=
  if h.version ≠ version1 then some (.ended 0 (ctx.fail unsupportedVersion))
  else if h.type = beginRequest then some (beginStep skip ctx h rest)
  else if h.requestId = nullRequestId then
    if h.type = getValues then valuesStep skip ctx h rest else some (unknownStep skip ctx h)
  else if h.requestId ≠ ctx.req.requestId then some (bodyStep true h.contentLength h.paddingLength.toNat ctx)
  else if h.type ≠ ctx.type then some (.ended 0 (ctx.fail protocolError))
  else if h.contentLength = 0 then some (.ended 0 ctx)
  else some (bodyStep skip h.contentLength h.paddingLength.toNat ctx)

/-- What a refill comes to. -/
inductive Event where
  | content : (contentLen paddingLen : Nat) → Context → (rest : Text) → Event
  | ended : Context → (rest : Text) → Event
  | begun : Context → (rest : Text) → Event

/-- The records up to one that the client hears of. -/
def nextEvent (skip : Bool) (ctx : Context) (text : Text) : Option Event :=
  if headerLen ≤ text.length then do
    let h ← headerOf (text.take headerLen)
    match ← interpret skip ctx h (text.drop headerLen) with
    | .next count skip ctx => nextEvent skip ctx ((text.drop headerLen).drop count)
    | .content contentLen paddingLen ctx =>
      if text.drop headerLen = [] then some (.ended ctx.lost [])
      else some (.content contentLen paddingLen ctx (text.drop headerLen))
    | .ended count ctx => some (.ended ctx ((text.drop headerLen).drop count))
    | .begun count ctx => some (.begun ctx ((text.drop headerLen).drop count))
  else some (.ended ctx.lost [])
termination_by text.length
decreasing_by
  have hle : headerLen ≤ text.length := by assumption
  unfold headerLen at hle ⊢
  simp only [List.length_drop]
  omega

/-- A stream that is at this point: so much of a record is left, and then the text goes on. -/
structure Stands (eor : Bool) (s : Input) (skip : Bool) (n p : Nat) (ctx : Context) (text : Text) : Prop where
  context : s.context = ctx
  ahead : s.ahead = text
  skip : s.stream.skip = skip
  contentLen : s.stream.contentLen = n
  paddingLen : s.stream.paddingLen = p
  avail : s.stream.avail = 0
  isClosed : s.stream.isClosed = false
  eorStop : s.stream.eorStop = eor

/-- A stream that is closed. -/
structure Ended (s : Input) (ctx : Context) (text : Text) : Prop where
  context : s.context = ctx
  ahead : s.ahead = text
  avail : s.stream.avail = 0
  isClosed : s.stream.isClosed = true

def Step.Matches (rest : Text) : Step → Filled → Prop
  | .next count skip ctx, .again header s =>
    header = [] ∧ ∃ b n p j, Stands false s b n p ctx (rest.drop j) ∧ (n = 0 ∨ b = true) ∧ j + (n + p) = count ∧
      (b && n == 0) = skip
  | .content n p ctx, .again header s => header = [] ∧ 0 < n ∧ Stands false s false n p ctx rest
  | .ended count ctx, .returned s => Ended s ctx (rest.drop count)
  | .begun count ctx, .returned s => ∃ p, Stands false s false 0 p ctx (rest.drop count)
  | _, _ => False

section Interpreting

variable {eor skip : Bool} {s : Input} {n p : Nat} {ctx ctx' : Context} {rest : Text}

theorem Stands.eq_at (h : Stands eor s skip n p ctx rest) : s = s.at n p skip s.stream.unread s.req.ipc.inbox := by
  obtain ⟨-, -, rfl, rfl, rfl, -, -, -⟩ := h
  rfl

theorem Stands.holds (h : Stands eor s skip n p ctx rest) :
    Holds s.stream.unread s.req.ipc.inbox rest ctx.req.ipc.inbox.fault := by
  obtain ⟨rfl, rfl, -, -, -, -, -, -⟩ := h
  exact ⟨rfl, rfl⟩

theorem context_at {b : Bool} {u : Text} {i : Inbox} (h : i.fault = s.req.ipc.inbox.fault) :
    (s.at n p b u i).context = s.context := by
  simp [Input.context, Input.at, Request.setInbox, h]

/-- A stream that stands there and has then moved on. -/
theorem Stands.moved (h : Stands eor s skip n p ctx rest) {b : Bool} {n' p' : Nat} {u : Text} {i : Inbox} {text : Text}
    (hu : Holds u i text ctx.req.ipc.inbox.fault) : Stands eor (s.at n' p' b u i) b n' p' ctx text := by
  have hfault : i.fault = s.req.ipc.inbox.fault := by rw [hu.fault, ← h.context]; rfl
  exact ⟨(context_at hfault).trans h.context, hu.ahead, rfl, rfl, rfl, h.avail, h.isClosed, h.eorStop⟩

theorem Stands.lost (h : Stands eor s skip n p ctx rest) {b : Bool} {n' p' : Nat} {i : Inbox}
    (hi : Holds [] i [] ctx.req.ipc.inbox.fault) :
    Ended ((s.at n' p' b [] i).setError (Inbox.error i)) ctx.lost [] := by
  have ht : Stands eor (s.at n' p' b [] i) b n' p' ctx [] := h.moved hi
  have herror : Inbox.error i = Inbox.error ctx.req.ipc.inbox := by simp only [Inbox.error, hi.fault]
  refine ⟨?_, ht.ahead, h.avail, rfl⟩
  rw [herror, ← ht.context]
  rfl

theorem Inbox.error_ne_zero (i : Inbox) : Inbox.error i ≠ 0 := by
  unfold Inbox.error
  split
  · decide
  · rename_i errno _
    exact fun h => absurd errno.property (by rw [h]; decide)

theorem Context.fail_errno_ne_zero {errno : Int} (h : errno ≠ 0) : (ctx.fail errno).errno ≠ 0 := by
  unfold Context.fail
  split <;> assumption

theorem Context.fail_eq_self {errno : Int} (h : ctx.errno ≠ 0) : ctx.fail errno = ctx := by
  simp [Context.fail, h]

/-- The error that a function of `ProcessHeader` returns. -/
theorem error_matches (code : Int) {count : Nat} (hc : s.context = ctx) (ha : s.ahead = rest.drop count)
    (hz : s.stream.avail = 0) : (Step.ended count (ctx.fail code)).Matches rest (afterHeader (.error code) s) := by
  refine ⟨?_, ha, hz, rfl⟩
  rw [← hc]
  rfl

/-- An error that comes after another one. -/
theorem error_matches_again (code : Int) {count : Nat} (hc : s.context = ctx) (ha : s.ahead = rest.drop count)
    (hz : s.stream.avail = 0) (hne : ctx.errno ≠ 0) :
    (Step.ended count ctx).Matches rest (afterHeader (.error code) s) := by
  have h := error_matches code hc ha hz
  rwa [Context.fail_eq_self hne] at h

theorem Context.lost_errno_ne_zero : ctx.lost.errno ≠ 0 := Context.fail_errno_ne_zero (Inbox.error_ne_zero _)

theorem body_matches (h : Stands false s skip n p ctx rest) : (bodyStep skip n p ctx).Matches rest (.again [] s) := by
  unfold bodyStep
  by_cases hn : n = 0
  · rw [if_pos hn]
    refine ⟨rfl, skip, n, p, 0, h, .inl hn, by omega, ?_⟩
    simp [hn]
  · rw [if_neg hn]
    cases skip with
    | true => exact ⟨rfl, true, n, p, 0, h, .inr rfl, by omega, by simp [hn]⟩
    | false => exact ⟨rfl, Nat.pos_of_ne_zero hn, h⟩

theorem writeResponse_ok {response : Text} (status : Status) (h : s.context.answer response = (true, ctx')) :
    ∃ o, writeResponse response status s = (status, { s with req := s.req.setOutbox o }) ∧
      { s with req := s.req.setOutbox o : Input }.context = ctx' := by
  have houtbox : s.context.req.ipc.outbox = s.req.ipc.outbox := rfl
  rw [Context.answer, houtbox] at h
  rw [writeResponse]
  generalize writeItAll s.req.ipc.outbox response = r at h
  obtain ⟨errno, o⟩ := r
  cases errno with
  | none => exact ⟨o, rfl, (Prod.mk.inj h).2⟩
  | some errno => cases (Prod.mk.inj h).1

theorem writeResponse_failed {response : Text} (status : Status) (h : s.context.answer response = (false, ctx')) :
    ∃ t, writeResponse response status s = (.error (-1), t) ∧ t.context = ctx' ∧ t.ahead = s.ahead ∧
      t.stream.avail = s.stream.avail ∧ ctx'.errno ≠ 0 := by
  have houtbox : s.context.req.ipc.outbox = s.req.ipc.outbox := rfl
  rw [Context.answer, houtbox] at h
  rw [writeResponse]
  generalize writeItAll s.req.ipc.outbox response = r at h
  obtain ⟨errno, o⟩ := r
  cases errno with
  | none => cases (Prod.mk.inj h).1
  | some errno =>
    have hctx := (Prod.mk.inj h).2
    refine ⟨_, rfl, hctx, rfl, rfl, ?_⟩
    rw [← hctx]
    exact Context.fail_errno_ne_zero fun h0 => absurd errno.property (by rw [h0]; decide)

theorem fillToEor_eq : fillToEor = fillWith fun _ _ => none := rfl

/-- A body of which a recursive call gets less than it asks for. -/
theorem readBeginBody_short {c : Text} {e : Input} (hs : Stands true s skip n p ctx rest)
    (hy : Yields (source fillToEor) s c e) (hc : c.length < beginBodyLen) :
    readBeginBody s = some (.error protocolError, e) := by
  obtain ⟨s', hrun, -, -, hend⟩ := getStr_yields (sound_of_avail hs.avail) hy beginBodyLen
  have hne : (c.take beginBodyLen).length ≠ beginBodyLen := by rw [List.length_take]; omega
  rw [readBeginBody, hrun, hend hc]
  exact if_pos hne

theorem beginBody_matches (hs : Stands true s skip beginBodyLen p ctx rest) :
    ∃ status t, readBeginBody s = some (status, t) ∧
      (beginBodyStep skip p ctx rest).Matches rest (afterHeader status t) := by
  have hlost : ∀ c e, Yields (source fillToEor) s c e → c.length < beginBodyLen → Ended e ctx.lost [] →
      ∃ status t, readBeginBody s = some (status, t) ∧
        (Step.ended rest.length ctx.lost).Matches rest (afterHeader status t) := by
    intro c e hy hc he
    refine ⟨_, _, readBeginBody_short hs hy hc, error_matches_again _ he.context ?_ he.avail Context.lost_errno_ne_zero⟩
    rw [he.ahead, List.drop_length]
  have heq := hs.eq_at
  unfold beginBodyStep
  cases skip with
  | true =>
    rw [if_pos rfl]
    by_cases hle : beginBodyLen + p ≤ rest.length
    · rw [if_pos hle]
      obtain ⟨u, i, hy, hu⟩ := eor_yields (P := fun _ _ => none) hs.isClosed hs.avail hs.eorStop hs.holds
        (show (if true then 0 else beginBodyLen) < rest.length by rw [if_pos rfl]; unfold beginBodyLen at hle; omega) hle
      rw [← heq] at hy
      have he : Stands true (s.at 0 0 (true && beginBodyLen == 0) u i) _ 0 0 ctx _ := hs.moved hu
      exact ⟨_, _, readBeginBody_short hs hy (by simp [beginBodyLen]), error_matches _ he.context he.ahead rfl⟩
    · rw [if_neg hle]
      obtain ⟨n', p', b, i, hy, hi⟩ := eor_lost (P := fun _ _ => none) hs.isClosed hs.avail hs.holds
        (show ¬ ((if true then 0 else beginBodyLen) < rest.length ∧ beginBodyLen + p ≤ rest.length) from
          fun hand => hle hand.2)
      rw [← heq] at hy
      exact hlost _ _ hy (by simp [beginBodyLen]) (hs.lost hi)
  | false =>
    rw [if_neg Bool.false_ne_true]
    by_cases hle : beginBodyLen ≤ rest.length
    · rw [if_pos hle]
      obtain ⟨u, i, hrun, hu⟩ := getStr_content (P := fun _ _ => none) (p := p) hs.isClosed hs.avail hs.holds (by decide) hle
      rw [← heq] at hrun
      have hlen : ¬ (rest.take beginBodyLen).length ≠ beginBodyLen := by rw [List.length_take]; omega
      have he : Stands true (s.at 0 p false u i) false 0 p ctx _ := hs.moved hu
      refine ⟨.beginRecord, { s.at 0 p false u i with req := (s.at 0 p false u i).req.start (rest.take beginBodyLen) }, ?_, p, ?_⟩
      · rw [readBeginBody, fillToEor_eq, hrun]
        exact if_neg hlen
      · refine ⟨?_, he.ahead, rfl, rfl, rfl, he.avail, rfl, rfl⟩
        rw [← he.context]
        rfl
    · rw [if_neg hle]
      obtain ⟨n', i, hy, hi⟩ := content_lost (P := fun _ _ => none) (p := p) hs.isClosed hs.avail hs.holds (Nat.not_le.mp hle)
      rw [← heq] at hy
      exact hlost _ _ hy (Nat.not_le.mp hle) (hs.lost hi)

theorem begin_matches {h : Header} (hs : Stands true s skip h.contentLength h.paddingLength.toNat ctx rest) :
    ∃ status t, processBeginRecord h.requestId s = some (status, t) ∧
      (beginStep skip ctx h rest).Matches rest (afterHeader status t) := by
  have hbegun : s.req.isBeginProcessed = ctx.req.isBeginProcessed := by rw [← hs.context]; rfl
  rw [processBeginRecord, hs.contentLen, hbegun, beginStep]
  by_cases hbad : h.requestId = nullRequestId ∨ h.contentLength ≠ beginBodyLen
  · rw [if_pos hbad, if_pos hbad]
    exact ⟨_, _, rfl, error_matches protocolError hs.context hs.ahead hs.avail⟩
  · rw [if_neg hbad, if_neg hbad]
    have hlen : h.contentLength = beginBodyLen := not_not.mp fun hne => hbad (.inr hne)
    by_cases hdone : ctx.req.isBeginProcessed = true
    · -- another request on the connection
      rw [if_pos hdone, if_pos hdone]
      rcases hans : ctx.answer (endRequestBytes h.requestId 0 cantMpxConn) with ⟨ok, ctx'⟩
      rw [← hs.context] at hans
      cases ok with
      | true =>
        obtain ⟨o, hrun, hctx⟩ := writeResponse_ok .skip hans
        refine ⟨_, _, congrArg some hrun, rfl, true, h.contentLength, h.paddingLength.toNat, 0, ?_, .inr rfl, by omega, ?_⟩
        · exact ⟨hctx, hs.ahead, rfl, hs.contentLen, hs.paddingLen, hs.avail, rfl, rfl⟩
        · rw [hlen]
          rfl
      | false =>
        obtain ⟨t, hrun, hctx, hahead, havail, hne⟩ := writeResponse_failed .skip hans
        exact ⟨_, _, congrArg some hrun, error_matches_again _ hctx (hahead.trans hs.ahead) (havail.trans hs.avail) hne⟩
    · rw [if_neg hdone, if_neg hdone]
      have hs' : Stands true { s with req := { s.req with requestId := h.requestId } } skip h.contentLength
          h.paddingLength.toNat (ctx.begin h.requestId) rest :=
        ⟨by rw [← hs.context]; rfl, hs.ahead, hs.skip, hs.contentLen, hs.paddingLen, hs.avail, hs.isClosed, hs.eorStop⟩
      rw [hlen] at hs'
      exact beginBody_matches hs'

theorem setError_context (errno : Int) (hc : s.context = ctx) : (s.setError errno).context = ctx.fail errno := by
  rw [← hc]
  rfl

/-- Variables are asked for, but the question is not read to its end. -/
theorem values_failed {c : Text} {e : Input} {ok : Bool} {strings : List Text} {count : Nat}
    (hs : Stands true s skip n p ctx rest) (hy : Yields (source fillToEor) s c e) (hlen : c.length ≤ rest.length)
    (hp : parseParams c = some (ok, strings)) (he : (if ok then e else e.setError paramsError).context = ctx')
    (ha : e.ahead = rest.drop count) (hz : e.stream.avail = 0) (hne : ctx'.errno ≠ 0) :
    ∃ status t, processManagementRecord getValues s = some (status, t) ∧
      (Step.ended count ctx').Matches rest (afterHeader status t) := by
  have hahead : c.length ≤ s.ahead.length := by rw [hs.ahead]; exact hlen
  obtain ⟨p', hrun, -⟩ := readParams_yields (sound_of_avail hs.avail) hy hahead hp (newParams 3 (by decide))
  generalize ht : (if ok then e else e.setError paramsError) = t at he hrun
  have hta : t.ahead = rest.drop count := by
    rw [← ht, ← ha]
    split <;> rfl
  have htz : t.stream.avail = 0 := by
    rw [← ht, ← hz]
    split <;> rfl
  have herrno : t.stream.errno ≠ 0 := by
    have hctx : t.stream.errno = ctx'.errno := by rw [← he]; rfl
    rw [hctx]
    exact hne
  refine ⟨_, t, ?_, error_matches_again protocolError he hta htz hne⟩
  simp [processManagementRecord, hrun, herrno]

/-- Variables are asked for, and the question is read to its end. -/
theorem values_read {strings : List Text} (hs : Stands true s skip n p ctx rest)
    (hp : parseParams (rest.take (givenLen skip n)) = some (true, strings))
    (hle : givenLen skip n < rest.length ∧ n + p ≤ rest.length) (herrno : ctx.errno = 0) :
    ∃ e, Stands true e (skip && n == 0) 0 0 ctx (rest.drop (n + p)) ∧
      processManagementRecord getValues s = (answerValues strings []).map fun answer =>
        writeResponse (valuesResponse ctx.req.stack answer) .mgmtRecord e.ended := by
  have hlen : (rest.take (givenLen skip n)).length ≤ s.ahead.length := by
    rw [hs.ahead, List.length_take]
    exact Nat.min_le_right _ _
  obtain ⟨u, i, hy, hu⟩ := eor_yields (P := fun _ _ => none) hs.isClosed hs.avail hs.eorStop hs.holds hle.1 hle.2
  rw [← hs.eq_at] at hy
  have he : Stands true (s.at 0 0 (skip && n == 0) u i) (skip && n == 0) 0 0 ctx (rest.drop (n + p)) := hs.moved hu
  refine ⟨_, he, ?_⟩
  generalize s.at 0 0 (skip && n == 0) u i = e at he hy
  obtain ⟨p', hread, hvec⟩ := readParams_yields (sound_of_avail hs.avail) hy hlen hp (newParams 3 (by decide))
  rw [← fillToEor_eq] at hread
  have hvec' : p'.vec = strings := hvec
  have herrno' : e.ended.stream.errno = 0 := by
    have h0 : e.ended.stream.errno = ctx.errno := by rw [← he.context]; rfl
    rw [h0, herrno]
  have hcontent : e.ended.stream.contentLen = 0 := he.contentLen
  have hstack : e.ended.req.stack = ctx.req.stack := by rw [← he.context]; rfl
  simp only [processManagementRecord, if_true, hread, Option.bind_eq_bind, Option.bind_some, herrno', hcontent, hstack,
    hvec', ne_eq, not_true_eq_false, or_self, if_false]
  cases answerValues strings [] <;> rfl

/-- The variables are answered, and the stream goes on behind the question. -/
theorem values_answered {e : Input} {count : Nat} {b : Bool} (answer : Text)
    (he : Stands true e b 0 0 ctx (rest.drop count)) :
    let response := writeResponse (valuesResponse ctx.req.stack answer) .mgmtRecord e.ended
    (match ctx.answer (valuesResponse ctx.req.stack answer) with
      | (true, ctx') => Step.next count b ctx'
      | (false, ctx') => .ended count ctx').Matches rest (afterHeader response.1 response.2) := by
  have hctx : e.ended.context = ctx := he.context
  rcases hans : ctx.answer (valuesResponse ctx.req.stack answer) with ⟨written, ctx'⟩
  rw [← hctx] at hans
  cases written with
  | true =>
    obtain ⟨o, hwrite, hctx'⟩ := writeResponse_ok .mgmtRecord hans
    rw [hctx] at hwrite
    simp only [hwrite]
    refine ⟨rfl, b, 0, 0, count, ?_, .inl rfl, rfl, by simp⟩
    exact ⟨hctx', he.ahead, he.skip, he.contentLen, he.paddingLen, rfl, rfl, rfl⟩
  | false =>
    obtain ⟨t, hwrite, hctx', hahead, havail, hne⟩ := writeResponse_failed .mgmtRecord hans
    rw [hctx] at hwrite
    simp only [hwrite]
    exact error_matches_again _ hctx' (hahead.trans he.ahead) havail hne

theorem values_matches {h : Header} {step : Step}
    (hs : Stands true s skip h.contentLength h.paddingLength.toNat ctx rest) (hstep : valuesStep skip ctx h rest = some step) :
    ∃ status t, processManagementRecord getValues s = some (status, t) ∧ step.Matches rest (afterHeader status t) := by
  simp only [valuesStep, Option.bind_eq_bind, Option.bind_eq_some_iff, Prod.exists] at hstep
  obtain ⟨ok, strings, hp, hstep⟩ := hstep
  have hlen : (rest.take (givenLen skip h.contentLength)).length ≤ rest.length := by rw [List.length_take]; omega
  by_cases hle : givenLen skip h.contentLength < rest.length ∧ h.contentLength + h.paddingLength.toNat ≤ rest.length
  · rw [if_pos hle] at hstep
    obtain ⟨u, i, hy, hu⟩ := eor_yields (P := fun _ _ => none) hs.isClosed hs.avail hs.eorStop hs.holds hle.1 hle.2
    rw [← hs.eq_at] at hy
    have he : Stands true (s.at 0 0 (skip && h.contentLength == 0) u i) _ 0 0 ctx _ := hs.moved hu
    cases ok with
    | false =>
      obtain rfl : Step.ended _ _ = step := Option.some.inj hstep
      refine values_failed hs hy hlen hp (setError_context paramsError he.context) he.ahead rfl ?_
      exact Context.fail_errno_ne_zero (by decide)
    | true =>
      simp only [Bool.not_true, Bool.false_eq_true, if_false] at hstep
      by_cases herrno : ctx.errno ≠ 0
      · rw [if_pos herrno] at hstep
        obtain rfl : Step.ended _ _ = step := Option.some.inj hstep
        exact values_failed hs hy hlen hp he.context he.ahead rfl herrno
      · rw [if_neg herrno] at hstep
        simp only [Option.bind_eq_some_iff] at hstep
        obtain ⟨answer, hanswer, hstep⟩ := hstep
        obtain ⟨e, he, hread⟩ := values_read hs hp hle (not_not.mp herrno)
        have hmatch := values_answered answer he
        rw [hanswer] at hread
        refine ⟨_, _, hread, ?_⟩
        rcases hans : ctx.answer (valuesResponse ctx.req.stack answer) with ⟨written, ctx'⟩
        rw [hans] at hstep hmatch
        cases written with
        | true =>
          obtain rfl : Step.next _ _ _ = step := Option.some.inj hstep
          exact hmatch
        | false =>
          obtain rfl : Step.ended _ _ = step := Option.some.inj hstep
          exact hmatch
  · rw [if_neg hle] at hstep
    obtain rfl : Step.ended _ _ = step := Option.some.inj hstep
    obtain ⟨n', p', b, i, hy, hi⟩ := eor_lost (P := fun _ _ => none) hs.isClosed hs.avail hs.holds hle
    rw [← hs.eq_at] at hy
    have he : Ended ((s.at n' p' b [] i).setError (Inbox.error i)) ctx.lost [] := hs.lost hi
    refine values_failed hs hy hlen hp ?_ (by rw [he.ahead, List.drop_length]) he.avail Context.lost_errno_ne_zero
    cases ok with
    | true => exact he.context
    | false => exact (setError_context paramsError he.context).trans (Context.fail_eq_self Context.lost_errno_ne_zero)

theorem unknown_matches {h : Header} (hs : Stands true s skip h.contentLength h.paddingLength.toNat ctx rest)
    (hne : h.type ≠ getValues) :
    ∃ status t, processManagementRecord h.type s = some (status, t) ∧
      (unknownStep skip ctx h).Matches rest (afterHeader status t) := by
  rw [processManagementRecord, if_neg hne, unknownStep]
  rcases hans : ctx.answer (unknownTypeResponse h.type) with ⟨written, ctx'⟩
  rw [← hs.context] at hans
  cases written with
  | true =>
    obtain ⟨o, hwrite, hctx⟩ := writeResponse_ok .mgmtRecord hans
    refine ⟨_, _, congrArg some hwrite, body_matches ?_⟩
    exact ⟨hctx, hs.ahead, hs.skip, hs.contentLen, hs.paddingLen, hs.avail, rfl, rfl⟩
  | false =>
    obtain ⟨t, hwrite, hctx, hahead, havail, hne⟩ := writeResponse_failed .mgmtRecord hans
    exact ⟨_, t, congrArg some hwrite, error_matches_again _ hctx (hahead.trans hs.ahead) (havail.trans hs.avail) hne⟩

/-- `ProcessHeader` does what the record means. -/
theorem processHeader_matches {h : Header} {step : Step} (hs : Stands true s skip 0 0 ctx rest)
    (hstep : interpret skip ctx h rest = some step) :
    ∃ status t, processHeader h s = some (status, t) ∧ step.Matches rest (afterHeader status t) := by
  rw [interpret] at hstep
  rw [processHeader]
  by_cases hversion : h.version ≠ version1
  · rw [if_pos hversion] at hstep ⊢
    obtain rfl := Option.some.inj hstep
    exact ⟨_, _, rfl, error_matches unsupportedVersion hs.context hs.ahead hs.avail⟩
  · rw [if_neg hversion] at hstep ⊢
    have hs' : Stands true (s.enter h) skip h.contentLength h.paddingLength.toNat ctx rest :=
      ⟨hs.context, hs.ahead, hs.skip, rfl, rfl, hs.avail, hs.isClosed, hs.eorStop⟩
    have hid : (s.enter h).req.requestId = ctx.req.requestId := by rw [← hs.context]; rfl
    have htype : (s.enter h).stream.type = ctx.type := by rw [← hs.context]; rfl
    simp only [hid, htype]
    by_cases hbegin : h.type = beginRequest
    · rw [if_pos hbegin] at hstep ⊢
      obtain rfl := Option.some.inj hstep
      exact begin_matches hs'
    · rw [if_neg hbegin] at hstep ⊢
      by_cases hnull : h.requestId = nullRequestId
      · rw [if_pos hnull] at hstep ⊢
        by_cases hvalues : h.type = getValues
        · rw [if_pos hvalues] at hstep
          rw [hvalues]
          exact values_matches hs' hstep
        · rw [if_neg hvalues] at hstep
          obtain rfl := Option.some.inj hstep
          exact unknown_matches hs' hvalues
      · rw [if_neg hnull] at hstep ⊢
        by_cases hforeign : h.requestId ≠ ctx.req.requestId
        · rw [if_pos hforeign] at hstep ⊢
          obtain rfl := Option.some.inj hstep
          refine ⟨_, _, rfl, body_matches ?_⟩
          exact ⟨hs.context, hs.ahead, rfl, rfl, rfl, hs.avail, rfl, rfl⟩
        · rw [if_neg hforeign] at hstep ⊢
          by_cases hother : h.type ≠ ctx.type
          · rw [if_pos hother] at hstep ⊢
            obtain rfl := Option.some.inj hstep
            exact ⟨_, _, rfl, error_matches protocolError hs.context hs.ahead hs.avail⟩
          · rw [if_neg hother] at hstep ⊢
            refine ⟨.streamRecord, _, rfl, ?_⟩
            have hlen : (s.enter h).stream.contentLen = h.contentLength := rfl
            rw [afterHeader]
            simp only [hlen]
            by_cases hzero : h.contentLength = 0
            · rw [if_pos hzero] at hstep ⊢
              obtain rfl := Option.some.inj hstep
              exact ⟨hs.context, hs.ahead, rfl, rfl⟩
            · rw [if_neg hzero] at hstep ⊢
              obtain rfl := Option.some.inj hstep
              refine body_matches ?_
              exact ⟨hs.context, hs.ahead, hs.skip, rfl, rfl, hs.avail, rfl, rfl⟩

theorem interpretWith_matches {h : Header} {header : Text} {step : Step} (hs : Stands true s skip 0 0 ctx rest)
    (hheader : headerOf header = some h) (hstep : interpret skip ctx h rest = some step) :
    ∃ f, interpretWith processHeader header s = some f ∧ step.Matches rest f := by
  obtain ⟨status, t, hrun, hm⟩ := processHeader_matches hs hstep
  exact ⟨_, by simp [interpretWith, hheader, hrun], hm⟩

end Interpreting

end Libfcgi
