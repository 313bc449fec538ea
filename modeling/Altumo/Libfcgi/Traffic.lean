import Altumo.Libfcgi.Content
import Altumo.Libfcgi.Transcript

/-!
# Records between others

A connection carries records of the request that is read, records of other requests,
begins of requests that are refused, and records of management. Which of their
contents the client gets, what is answered, and what a lost connection looks like.
-/

namespace Libfcgi

open CString Descriptor Refill

section Records

variable {skip : Bool} {ctx : Context} {r : Record} {rest more : Text}

/-- What a header and the bytes behind it come to. -/
def stepEvent (rest : Text) : Step → Option Event
  | .next count skip ctx => nextEvent skip ctx (rest.drop count)
  | .content n p ctx => if rest = [] then some (.ended ctx.lost []) else some (.content n p ctx rest)
  | .ended count ctx => some (.ended ctx (rest.drop count))
  | .begun count ctx => some (.begun ctx (rest.drop count))

theorem nextEvent_header (skip : Bool) (ctx : Context) (h : Header) (rest : Text) :
    nextEvent skip ctx (h.bytes ++ rest) = (interpret skip ctx h rest).bind (stepEvent rest) := by
  have htake : (h.bytes ++ rest).take headerLen = h.bytes := List.take_left' (header_bytes_length h)
  have hdrop : (h.bytes ++ rest).drop headerLen = rest := List.drop_left' (header_bytes_length h)
  have hle : headerLen ≤ (h.bytes ++ rest).length := by
    rw [List.length_append, header_bytes_length]
    omega
  rw [nextEvent, if_pos hle, htake, headerOf_bytes, hdrop]
  simp only [Option.bind_eq_bind, Option.bind_some]
  cases interpret skip ctx h rest with
  | none => rfl
  | some step => cases step <;> rfl

theorem deliver_eq {skip' : Bool} {ctx' : Context} {text text' : Text}
    (h : nextEvent skip ctx text = nextEvent skip' ctx' text') : deliver skip ctx text = deliver skip' ctx' text' := by
  cases hn : nextEvent skip ctx text with
  | none =>
    rw [deliver, deliver]
    split <;> split <;> simp_all
  | some event =>
    cases event with
    | content n p ctx'' rest => rw [deliver_content hn, deliver_content (h.symm.trans hn)]
    | ended ctx'' rest => rw [deliver_ended hn, deliver_ended (h.symm.trans hn)]
    | begun ctx'' rest =>
      rw [deliver, deliver]
      split <;> split <;> simp_all

/-- Nothing more comes. -/
theorem deliver_short {text : Text} (h : text.length < headerLen) : deliver skip ctx text = some ⟨[], ctx.lost, []⟩ :=
  deliver_ended (nextEvent_short h)

/-- What is delivered of a record whose body is all that it means. -/
theorem deliver_body {h : Header} {skip' : Bool} {n p : Nat} {ctx' : Context}
    (hstep : interpret skip ctx h rest = some (bodyStep skip' n p ctx')) :
    deliver skip ctx (h.bytes ++ rest) =
      (deliver (n == 0 && skip') ctx' (rest.drop (n + p))).map
        (Delivery.prepend (if skip' then [] else rest.take n)) := by
  have hnext := nextEvent_header skip ctx h rest
  rw [hstep, Option.bind_some] at hnext
  unfold bodyStep at hnext
  by_cases hn : n = 0
  · subst hn
    rw [if_pos rfl] at hnext
    rw [deliver_eq hnext]
    simp
  · rw [if_neg hn] at hnext
    rw [beq_false_of_ne hn, Bool.false_and]
    cases skip' with
    | true =>
      rw [if_pos rfl] at hnext
      rw [deliver_eq hnext]
      simp
    | false =>
      rw [if_neg Bool.false_ne_true, stepEvent] at hnext
      by_cases hnil : rest = []
      · rw [if_pos hnil] at hnext
        rw [deliver_ended hnext, hnil, List.drop_nil, deliver_short (by decide)]
        simp
      · rw [if_neg hnil] at hnext
        rw [deliver_content hnext]
        simp

/-- A context after something has been sent. -/
def Context.sends (ctx : Context) (o : Outbox) : Context := { ctx with req := ctx.req.setOutbox o }

theorem answer_reliable (h : ctx.req.ipc.outbox.Reliable) (response : Text) :
    ∃ o, ctx.answer response = (true, ctx.sends o) ∧ o.Reliable ∧ o.sent = ctx.req.ipc.outbox.sent ++ response := by
  obtain ⟨o, hwrite, hsent, ho⟩ := writeItAll_reliable h response
  exact ⟨o, by rw [Context.answer, hwrite]; rfl, ho, hsent⟩

/-- The records that a stream goes on after: of its own, of other requests, begins of
requests that are refused, and management of a type that is not known. -/
inductive Passing (type : Byte) (requestId : RequestId) (r : Record) : Prop where
  | own : r.version = version1 → r.type = type → type ≠ beginRequest → r.requestId = requestId →
    requestId ≠ nullRequestId → r.content ≠ [] → Passing type requestId r
  | foreign : r.version = version1 → r.type ≠ beginRequest → r.requestId ≠ requestId →
    r.requestId ≠ nullRequestId → Passing type requestId r
  | refused : r.version = version1 → r.type = beginRequest → r.requestId ≠ nullRequestId →
    r.content.length = beginBodyLen → Passing type requestId r
  | unknown : r.version = version1 → r.type ≠ beginRequest → r.type ≠ getValues → r.requestId = nullRequestId →
    Passing type requestId r

/-- Whether the content is not for the client. -/
def Record.passedOver (r : Record) (requestId : RequestId) : Bool :=
  r.type == beginRequest || (r.requestId != requestId && r.requestId != nullRequestId)

/-- What the client gets of a record, behind one that may have left a mark to pass over content.
The content of a management record of unknown type is not read where it is answered, so the
client gets it as if it were of its own stream. -/
def Record.given (r : Record) (requestId : RequestId) (skip : Bool) : Text :=
  if skip || r.passedOver requestId then [] else r.content

/-- Whether such a mark is left by the record. -/
def Record.markAfter (r : Record) (requestId : RequestId) (skip : Bool) : Bool :=
  r.content.isEmpty && (skip || r.passedOver requestId)

def Record.response (r : Record) : Text :=
  if r.type = beginRequest then endRequestBytes r.requestId 0 cantMpxConn
  else if r.requestId = nullRequestId then unknownTypeResponse r.type
  else []

theorem response_ne_nil (hr : r.type = beginRequest ∨ r.requestId = nullRequestId) : r.response ≠ [] := by
  unfold Record.response
  split
  · simp [endRequestBytes, Header.bytes]
  · rename_i hb
    rw [if_pos (hr.resolve_left hb)]
    simp [unknownTypeResponse, Header.bytes]

/-- Such a record is its body and an answer, which is due if it is not empty. -/
theorem interpret_passing (hbegun : ctx.req.isBeginProcessed = true)
    (ho : r.response ≠ [] → ctx.req.ipc.outbox.Reliable) (hr : Passing ctx.type ctx.req.requestId r) (skip : Bool) :
    ∃ o, (ctx.req.ipc.outbox.Reliable → o.Reliable) ∧ o.sent = ctx.req.ipc.outbox.sent ++ r.response ∧ ∀ rest,
      interpret skip ctx r.header rest =
        some (bodyStep (skip || r.passedOver ctx.req.requestId) r.content.length r.padding.length (ctx.sends o)) := by
  have hself : ctx.sends ctx.req.ipc.outbox = ctx := rfl
  cases hr with
  | own hv ht hb hid hnull hne =>
    have hb' : r.type ≠ beginRequest := ht ▸ hb
    have hnull' : r.requestId ≠ nullRequestId := hid ▸ hnull
    refine ⟨ctx.req.ipc.outbox, id, by simp [Record.response, hb', hnull'], ?_⟩
    intro rest
    have hpassed : r.passedOver ctx.req.requestId = false := by simp [Record.passedOver, beq_false_of_ne hb', hid]
    rw [hpassed, Bool.or_false, hself]
    simp [interpret, hv, hnull, hid, ht, hne, hb]
  | foreign hv hb hid hnull =>
    refine ⟨ctx.req.ipc.outbox, id, by simp [Record.response, hb, hnull], ?_⟩
    intro rest
    have hpassed : r.passedOver ctx.req.requestId = true := by
      simp [Record.passedOver, bne, beq_false_of_ne hid, beq_false_of_ne hnull]
    rw [hpassed, Bool.or_true, hself]
    simp [interpret, hv, hb, hnull, hid]
  | refused hv hb hnull hlen =>
    obtain ⟨o, hans, ho', hsent⟩ := answer_reliable (ho (response_ne_nil (.inl hb)))
      (endRequestBytes r.requestId 0 cantMpxConn)
    refine ⟨o, fun _ => ho', by rw [hsent, Record.response, if_pos hb], ?_⟩
    intro rest
    simp [interpret, hv, hb, beginStep, hnull, hlen, hbegun, hans, Record.passedOver, bodyStep, beginBodyLen]
  | unknown hv hb ht hnull =>
    obtain ⟨o, hans, ho', hsent⟩ := answer_reliable (ho (response_ne_nil (.inr hnull))) (unknownTypeResponse r.type)
    refine ⟨o, fun _ => ho', by rw [hsent, Record.response, if_neg hb, if_pos hnull], ?_⟩
    intro rest
    have hpassed : r.passedOver ctx.req.requestId = false := by simp [Record.passedOver, beq_false_of_ne hb, hnull]
    rw [hpassed, Bool.or_false]
    simp [interpret, hv, hb, hnull, ht, unknownStep, hans]

theorem length_beq_zero (c : Text) : (c.length == 0) = c.isEmpty := by cases c <;> rfl

theorem deliver_passing (hbegun : ctx.req.isBeginProcessed = true)
    (ho : r.response ≠ [] → ctx.req.ipc.outbox.Reliable) (hr : Passing ctx.type ctx.req.requestId r) (skip : Bool)
    (more : Text) :
    ∃ o, (ctx.req.ipc.outbox.Reliable → o.Reliable) ∧ o.sent = ctx.req.ipc.outbox.sent ++ r.response ∧
      deliver skip ctx (r.bytes ++ more) =
        (deliver (r.markAfter ctx.req.requestId skip) (ctx.sends o) more).map
          (Delivery.prepend (r.given ctx.req.requestId skip)) := by
  obtain ⟨o, ho', hsent, hstep⟩ := interpret_passing hbegun ho hr skip
  refine ⟨o, ho', hsent, ?_⟩
  have hbytes : r.bytes ++ more = r.header.bytes ++ (r.content ++ (r.padding ++ more)) := by
    simp only [Record.bytes, List.append_assoc]
  rw [hbytes, deliver_body (hstep _), length_beq_zero, ← List.drop_drop, List.drop_left, List.drop_left, List.take_left]
  rfl

/-- The connection is lost in such a record. -/
theorem deliver_cut (hbegun : ctx.req.isBeginProcessed = true) (ho : ctx.req.ipc.outbox.Reliable)
    (hr : Passing ctx.type ctx.req.requestId r) (skip : Bool) {k : Nat} (hk : k < r.bytes.length) :
    ∃ d, deliver skip ctx (r.bytes.take k) = some d ∧
      d.content = (r.given ctx.req.requestId skip).take (k - headerLen) ∧ d.ctx.errno ≠ 0 ∧ d.rest = [] := by
  by_cases hshort : k < headerLen
  · have hzero : k - headerLen = 0 := by omega
    refine ⟨_, deliver_short (by rw [List.length_take]; omega), ?_, Context.lost_errno_ne_zero, rfl⟩
    rw [hzero, List.take_zero]
  · obtain ⟨o, -, -, hstep⟩ := interpret_passing hbegun (fun _ => ho) hr skip
    have hle : headerLen ≤ k := Nat.not_lt.mp hshort
    have hcut : r.bytes.take k = r.header.bytes ++ (r.content ++ r.padding).take (k - headerLen) := by
      rw [Record.bytes, List.take_append, header_bytes_length, List.take_of_length_le (by rw [header_bytes_length]; exact hle)]
    have hlen : ((r.content ++ r.padding).take (k - headerLen)).length ≤ r.content.length + r.padding.length := by
      rw [List.length_take, List.length_append]
      omega
    rw [hcut, deliver_body (hstep _), List.drop_eq_nil_of_le hlen, deliver_short (by decide)]
    refine ⟨_, rfl, ?_, Context.lost_errno_ne_zero, rfl⟩
    simp only [Delivery.prepend, List.append_nil, Record.given]
    split
    · exact List.take_nil.symm
    · rw [List.take_take, List.take_append_of_le_length (Nat.min_le_left _ _), Nat.min_comm, ← List.take_take, List.take_length]

/-- What the client gets of such records, one behind the other: the content of its own records,
and the content of the unknown management records between them. -/
def givenOf (requestId : RequestId) : (skip : Bool) → List Record → Text
  | _, [] => []
  | skip, r :: rs => r.given requestId skip ++ givenOf requestId (r.markAfter requestId skip) rs

def markOf (requestId : RequestId) : (skip : Bool) → List Record → Bool
  | skip, [] => skip
  | skip, r :: rs => markOf requestId (r.markAfter requestId skip) rs

/-- What of that, unknown management content included, is delivered of the first `k` bytes of
the records. -/
def arrivedOf (requestId : RequestId) : (skip : Bool) → List Record → (k : Nat) → Text
  | _, [], _ => []
  | skip, r :: rs, k =>
    if k < r.bytes.length then (r.given requestId skip).take (k - headerLen)
    else r.given requestId skip ++ arrivedOf requestId (r.markAfter requestId skip) rs (k - r.bytes.length)

theorem arrivedOf_prefix (requestId : RequestId) (skip : Bool) (rs : List Record) (k : Nat) :
    arrivedOf requestId skip rs k <+: givenOf requestId skip rs := by
  induction rs generalizing skip k with
  | nil => exact List.nil_prefix
  | cons r rs ih =>
    unfold arrivedOf givenOf
    split
    · exact (List.take_prefix _ _).trans (List.prefix_append _ _)
    · exact (List.prefix_append_right_inj _).mpr (ih _ _)

theorem deliver_traffic (ctx : Context) (hbegun : ctx.req.isBeginProcessed = true) {rs : List Record}
    (ho : rs.flatMap Record.response ≠ [] → ctx.req.ipc.outbox.Reliable)
    (hrs : ∀ r ∈ rs, Passing ctx.type ctx.req.requestId r) (skip : Bool) (more : Text) :
    ∃ o, (ctx.req.ipc.outbox.Reliable → o.Reliable) ∧ o.sent = ctx.req.ipc.outbox.sent ++ rs.flatMap Record.response ∧
      deliver skip ctx (rs.flatMap Record.bytes ++ more) =
        (deliver (markOf ctx.req.requestId skip rs) (ctx.sends o) more).map
          (Delivery.prepend (givenOf ctx.req.requestId skip rs)) := by
  induction rs generalizing skip ctx with
  | nil =>
    have hself : ctx.sends ctx.req.ipc.outbox = ctx := rfl
    exact ⟨ctx.req.ipc.outbox, id, by simp, by simp [givenOf, markOf, hself]⟩
  | cons r rs ih =>
    rw [List.flatMap_cons] at ho
    obtain ⟨o, ho', hsent, hrun⟩ := deliver_passing hbegun (fun hne => ho (List.append_ne_nil_of_left_ne_nil hne _))
      (hrs r List.mem_cons_self) skip (rs.flatMap Record.bytes ++ more)
    obtain ⟨o₂, ho₂, hsent₂, hruns⟩ := ih (ctx.sends o) hbegun
      (fun hne => ho' (ho (List.append_ne_nil_of_right_ne_nil _ hne)))
      (fun r' hr' => hrs r' (List.mem_cons_of_mem _ hr')) (r.markAfter ctx.req.requestId skip)
    refine ⟨o₂, fun hreliable => ho₂ (ho' hreliable), ?_, ?_⟩
    · have hsent' : (ctx.sends o).req.ipc.outbox.sent = o.sent := rfl
      rw [hsent₂, hsent', hsent, List.flatMap_cons, List.append_assoc]
    · rw [List.flatMap_cons, List.append_assoc, hrun, hruns, Option.map_map, Delivery.prepend_comp]
      rfl

/-- The record that ends the stream. The padding of it is left behind. -/
structure Record.EndsStream (r : Record) (t : Byte) (id : RequestId) : Prop where
  version : r.version = version1
  type : r.type = t
  stream : t ≠ beginRequest
  requestId : r.requestId = id
  started : id ≠ nullRequestId
  content : r.content = []

theorem deliver_end (ctx : Context) (hr : r.EndsStream ctx.type ctx.req.requestId) (skip : Bool) (more : Text) :
    deliver skip ctx (r.bytes ++ more) = some ⟨[], ctx, r.padding ++ more⟩ := by
  have hstep : interpret skip ctx r.header (r.padding ++ more) = some (.ended 0 ctx) := by
    simp [interpret, hr.version, hr.type, hr.stream, hr.requestId, hr.started, hr.content]
  have hbytes : r.bytes ++ more = r.header.bytes ++ (r.padding ++ more) := by
    simp [Record.bytes, hr.content]
  refine deliver_ended ?_
  rw [hbytes, nextEvent_header, hstep]
  rfl

/-- A stream that is received whole. -/
theorem deliver_stream (ctx : Context) (hbegun : ctx.req.isBeginProcessed = true) {rs : List Record}
    (ho : rs.flatMap Record.response ≠ [] → ctx.req.ipc.outbox.Reliable)
    (hrs : ∀ r ∈ rs, Passing ctx.type ctx.req.requestId r) (hr : r.EndsStream ctx.type ctx.req.requestId) (skip : Bool)
    (more : Text) :
    ∃ o, (ctx.req.ipc.outbox.Reliable → o.Reliable) ∧ o.sent = ctx.req.ipc.outbox.sent ++ rs.flatMap Record.response ∧
      deliver skip ctx (rs.flatMap Record.bytes ++ (r.bytes ++ more)) =
        some ⟨givenOf ctx.req.requestId skip rs, ctx.sends o, r.padding ++ more⟩ := by
  obtain ⟨o, ho', hsent, hrun⟩ := deliver_traffic ctx hbegun ho hrs skip (r.bytes ++ more)
  refine ⟨o, ho', hsent, ?_⟩
  rw [hrun, deliver_end (ctx.sends o) hr]
  simp [Delivery.prepend]

/-- A connection that is lost before the end of a stream is not mistaken for it. -/
theorem deliver_lost (ctx : Context) (hbegun : ctx.req.isBeginProcessed = true) (ho : ctx.req.ipc.outbox.Reliable) {rs : List Record}
    (hrs : ∀ r ∈ rs, Passing ctx.type ctx.req.requestId r) (skip : Bool) (more : Text) {k : Nat}
    (hk : k < (rs.flatMap Record.bytes).length + headerLen) :
    ∃ d, deliver skip ctx ((rs.flatMap Record.bytes ++ more).take k) = some d ∧
      d.content = arrivedOf ctx.req.requestId skip rs k ∧ d.ctx.errno ≠ 0 ∧ d.rest = [] := by
  induction rs generalizing skip ctx k with
  | nil =>
    refine ⟨_, deliver_short ?_, rfl, Context.lost_errno_ne_zero, rfl⟩
    rw [List.length_take]
    simp only [List.flatMap_nil, List.length_nil] at hk
    omega
  | cons r rs ih =>
    rw [List.flatMap_cons, List.append_assoc, arrivedOf]
    by_cases hcut : k < r.bytes.length
    · obtain ⟨d, hrun, hc, herrno, hrest⟩ := deliver_cut hbegun ho (hrs r List.mem_cons_self) skip hcut
      refine ⟨d, ?_, by rw [if_pos hcut, hc], herrno, hrest⟩
      rw [List.take_append_of_le_length (Nat.le_of_lt hcut)]
      exact hrun
    · have hge : r.bytes.length ≤ k := Nat.not_lt.mp hcut
      obtain ⟨o, ho', -, hrun⟩ := deliver_passing hbegun (fun _ => ho) (hrs r List.mem_cons_self) skip
        ((rs.flatMap Record.bytes ++ more).take (k - r.bytes.length))
      obtain ⟨d, hruns, hc, herrno, hrest⟩ := ih (ctx.sends o) hbegun (ho' ho)
        (fun r' hr' => hrs r' (List.mem_cons_of_mem _ hr')) (r.markAfter ctx.req.requestId skip)
        (k := k - r.bytes.length) (by rw [List.flatMap_cons, List.length_append] at hk; omega)
      refine ⟨d.prepend (r.given ctx.req.requestId skip), ?_, ?_, herrno, hrest⟩
      · rw [List.take_append, List.take_of_length_le hge, hrun, hruns]
        rfl
      · rw [if_neg hcut, Delivery.prepend, hc]
        rfl

end Records

end Libfcgi
