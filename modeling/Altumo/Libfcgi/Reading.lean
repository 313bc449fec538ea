import Mathlib.Data.List.Chain
import Altumo.Libfcgi.Traffic

/-!
# Reading a request

What an application reads from an input stream: of any size of the buffer, of any cut
of the connection into reads, and of any mixture of the calls that read.
-/

namespace Libfcgi

open CString Descriptor Refill

section Reading

variable {r : Reader} {req : Request} {type : Byte} {rs : List Record} {last : Record} {more : Text}

/-- Where `SetReaderType` leaves a stream. -/
theorem setType_stands (r : Reader) (req : Request) (type : Byte) :
    Stands false ⟨r.setType type, req⟩ false 0 0 ⟨type, r.errno, req.setInbox ⟨[], [], req.ipc.inbox.fault⟩⟩
      (r.unread ++ req.ipc.inbox.bytes) := ⟨rfl, rfl, rfl, rfl, rfl, rfl, rfl, rfl⟩

def thisRequest : RequestId := (requestOver []).requestId

theorem no_content_le : ([] : Text).length ≤ maxLength := Nat.zero_le _

theorem no_padding_le : ([] : Text).length ≤ 0xff := Nat.zero_le _

/-- Two requests share a connection, and a third is refused. -/
def sharedRecords : List Record :=
  [⟨version1, stdin, thisRequest, text "name=", [], 0, by decide, no_padding_le⟩,
    ⟨version1, stdin, ⟨2, by decide⟩, text "other", [0, 0, 0], 0, by decide, by decide⟩,
    ⟨version1, beginRequest, ⟨3, by decide⟩, [0, 1, 0, 0, 0, 0, 0, 0], [], 0, by decide, no_padding_le⟩,
    ⟨version1, stdin, thisRequest, text "value", [0], 0, by decide, by decide⟩]

def sharedEnd : Record := ⟨version1, stdin, thisRequest, [], [], 0, no_content_le, no_padding_le⟩

/-- A request that has begun, and what its connection still brings. -/
def requestWith (t : Text) : Request := (requestOver []).setInbox ⟨t, [2, 0, 30], none⟩

theorem requestWith_reliable (t : Text) : (requestWith t).ipc.outbox.Reliable := by
  intro r hr
  cases hr

theorem sharedRecords_passing : ∀ q ∈ sharedRecords, Passing stdin thisRequest q := by
  simp only [sharedRecords, List.forall_mem_cons, List.not_mem_nil, false_implies, implies_true, and_true]
  refine ⟨.own rfl rfl ?_ rfl ?_ ?_, .foreign rfl ?_ ?_ ?_, .refused rfl rfl ?_ rfl, .own rfl rfl ?_ rfl ?_ ?_⟩ <;>
    decide

theorem sharedEnd_ends : sharedEnd.EndsStream stdin thisRequest := ⟨rfl, rfl, by decide, rfl, by decide, rfl⟩

/-- What a stream yields that has been received whole. -/
theorem Stands.stream_yields {s : Input} {ctx : Context} (hbegun : ctx.req.isBeginProcessed = true)
    (ho : rs.flatMap Record.response ≠ [] → ctx.req.ipc.outbox.Reliable)
    (hrs : ∀ q ∈ rs, Passing ctx.type ctx.req.requestId q)
    (hlast : last.EndsStream ctx.type ctx.req.requestId)
    (hs : Stands false s false 0 0 ctx (rs.flatMap Record.bytes ++ (last.bytes ++ more))) :
    ∃ e, Yields (source fillBuffProc) s (givenOf ctx.req.requestId false rs) e ∧
      e.stream.isClosed = true ∧ e.stream.errno = ctx.errno ∧ e.ahead = last.padding ++ more ∧
      e.req.ipc.outbox.sent = ctx.req.ipc.outbox.sent ++ rs.flatMap Record.response := by
  obtain ⟨o, -, hsent, hd⟩ := deliver_stream ctx hbegun ho hrs hlast false more
  obtain ⟨e, hy, he⟩ := deliver_yields hs (.inl rfl) hd
  have herrno : e.context.errno = (ctx.sends o).errno := congrArg Context.errno he.context
  have houtbox : e.context.req.ipc.outbox = (ctx.sends o).req.ipc.outbox := congrArg (fun ctx => ctx.req.ipc.outbox) he.context
  have hsent' : e.req.ipc.outbox.sent = o.sent := congrArg Outbox.sent houtbox
  exact ⟨e, hy, he.isClosed, herrno, he.ahead, hsent'.trans hsent⟩

theorem stream_yields (hbegun : req.isBeginProcessed = true)
    (ho : rs.flatMap Record.response ≠ [] → req.ipc.outbox.Reliable)
    (hrs : ∀ q ∈ rs, Passing type req.requestId q) (hlast : last.EndsStream type req.requestId)
    (htext : r.unread ++ req.ipc.inbox.bytes = rs.flatMap Record.bytes ++ (last.bytes ++ more)) :
    ∃ e, Yields (source fillBuffProc) ⟨r.setType type, req⟩ (givenOf req.requestId false rs) e ∧
      e.stream.isClosed = true ∧ e.stream.errno = r.errno ∧ e.ahead = last.padding ++ more ∧
      e.req.ipc.outbox.sent = req.ipc.outbox.sent ++ rs.flatMap Record.response := by
  have hs := setType_stands r req type
  rw [htext] at hs
  exact hs.stream_yields hbegun ho hrs hlast

theorem sound_setType (r : Reader) (req : Request) (type : Byte) : Input.Sound ⟨r.setType type, req⟩ := sound_of_avail rfl

/-- Whatever calls are made, what they return is in order what the records give to the
client. The stream ends exactly with the record that ends it, without an error, and
with the refused begins and the unknown management answered in order. -/
theorem reading_demultiplexes (hbegun : req.isBeginProcessed = true) (ho : req.ipc.outbox.Reliable)
    (hrs : ∀ q ∈ rs, Passing type req.requestId q) (hlast : last.EndsStream type req.requestId)
    (htext : r.unread ++ req.ipc.inbox.bytes = rs.flatMap Record.bytes ++ (last.bytes ++ more)) (calls : List ReadCall) :
    ∃ str s', readCalls fillBuffProc calls ⟨r.setType type, req⟩ = some (str, s') ∧
      str <+: givenOf req.requestId false rs ∧
      (s'.stream.isClosed = true → str = givenOf req.requestId false rs ∧ s'.stream.errno = r.errno ∧
        s'.ahead = last.padding ++ more ∧
        s'.req.ipc.outbox.sent = req.ipc.outbox.sent ++ rs.flatMap Record.response) := by
  obtain ⟨e, hy, -, herrno, hahead, hsent⟩ := stream_yields hbegun (fun _ => ho) hrs hlast htext
  obtain ⟨str, c, s', hrun, hc, hy', -⟩ := readCalls_yields (sound_setType r req type) hy calls
  refine ⟨str, s', hrun, ⟨c, hc.symm⟩, ?_⟩
  intro hclosed
  obtain ⟨rfl, rfl⟩ := hy'.eq_nil_of_closed hclosed
  rw [List.append_nil] at hc
  exact ⟨hc.symm, herrno, hahead, hsent⟩

theorem reading_demultiplexes_shared :
    ∃ str s', readCalls fillBuffProc [.getLine 4, .getChar, .getStr 100]
        ⟨(newReader (newBuffLen 8192 false) params).setType stdin,
          requestWith (sharedRecords.flatMap Record.bytes ++ (sharedEnd.bytes ++ []))⟩ = some (str, s') ∧
      str <+: text "name=value" ∧
      (s'.stream.isClosed = true → str = text "name=value" ∧ s'.stream.errno = 0 ∧ s'.ahead = [] ∧
        s'.req.ipc.outbox.sent = endRequestBytes ⟨3, by decide⟩ 0 cantMpxConn) :=
  reading_demultiplexes rfl (requestWith_reliable _) sharedRecords_passing sharedEnd_ends rfl _

/-- A connection that ends anywhere in front of the record that ends the stream: every
call still returns, what they return is right, and the end is reported as an error. -/
theorem lost_connection_reported (hbegun : req.isBeginProcessed = true) (ho : req.ipc.outbox.Reliable)
    (hrs : ∀ q ∈ rs, Passing type req.requestId q) {k : Nat} (hk : k < (rs.flatMap Record.bytes).length + headerLen)
    (htext : r.unread ++ req.ipc.inbox.bytes = (rs.flatMap Record.bytes ++ more).take k) (calls : List ReadCall) :
    ∃ str s', readCalls fillBuffProc calls ⟨r.setType type, req⟩ = some (str, s') ∧
      str <+: givenOf req.requestId false rs ∧ (s'.stream.isClosed = true → s'.stream.errno ≠ 0) := by
  have hs := setType_stands r req type
  rw [htext] at hs
  obtain ⟨d, hd, hcontent, herrno, -⟩ := deliver_lost ⟨type, r.errno, req.setInbox ⟨[], [], req.ipc.inbox.fault⟩⟩
    hbegun ho hrs false more hk
  obtain ⟨e, hy, he⟩ := deliver_yields hs (.inl rfl) hd
  obtain ⟨str, c, s', hrun, hc, hy', -⟩ := readCalls_yields (sound_setType r req type) hy calls
  have hprefix : d.content <+: givenOf req.requestId false rs := by
    rw [hcontent]
    exact arrivedOf_prefix _ _ _ _
  refine ⟨str, s', hrun, List.IsPrefix.trans ⟨c, hc.symm⟩ hprefix, ?_⟩
  intro hclosed
  obtain ⟨-, rfl⟩ := hy'.eq_nil_of_closed hclosed
  have hctx : e.stream.errno = d.ctx.errno := congrArg Context.errno he.context
  rw [hctx]
  exact herrno

theorem lost_connection_reported_shared :
    ∃ str s', readCalls fillBuffProc [.getStr 100]
        ⟨(newReader (newBuffLen 8192 false) params).setType stdin,
          requestWith ((sharedRecords.flatMap Record.bytes ++ sharedEnd.bytes).take 65)⟩ = some (str, s') ∧
      str <+: text "name=value" ∧ (s'.stream.isClosed = true → s'.stream.errno ≠ 0) :=
  lost_connection_reported rfl (requestWith_reliable _) sharedRecords_passing (by decide) rfl _

/-- The content of the records of a request. -/
def ownOf (requestId : RequestId) (rs : List Record) : Text :=
  (rs.filter fun q => q.requestId = requestId).flatMap Record.content

/-- A stream among those of other requests: no begins, and no management. -/
structure Interleaved (type : Byte) (requestId : RequestId) (q : Record) : Prop where
  passing : Passing type requestId q
  stream : q.type ≠ beginRequest
  request : q.requestId ≠ nullRequestId

theorem Interleaved.own {requestId : RequestId} {q : Record} (h : Interleaved type requestId q)
    (hq : q.requestId = requestId) : q.content ≠ [] ∧ q.passedOver requestId = false := by
  have hpassed : q.passedOver requestId = false := by simp [Record.passedOver, beq_false_of_ne h.stream, hq]
  cases h.passing with
  | own _ _ _ _ _ hne => exact ⟨hne, hpassed⟩
  | foreign _ _ hid _ => exact absurd hq hid
  | refused _ hb _ _ => exact absurd hb h.stream
  | unknown _ _ _ hnull => exact absurd hnull h.request

theorem Interleaved.foreign {requestId : RequestId} {q : Record} (h : Interleaved type requestId q)
    (hq : q.requestId ≠ requestId) : q.passedOver requestId = true := by
  simp [Record.passedOver, bne, beq_false_of_ne hq, beq_false_of_ne h.request]

/-- Such records are not answered. -/
theorem Interleaved.response {requestId : RequestId} {q : Record} (h : Interleaved type requestId q) : q.response = [] := by
  rw [Record.response, if_neg h.stream, if_neg h.request]

theorem ownOf_cons (requestId : RequestId) (q : Record) (rs : List Record) :
    ownOf requestId (q :: rs) = (if q.requestId = requestId then q.content else []) ++ ownOf requestId rs := by
  by_cases hq : q.requestId = requestId <;> simp [ownOf, hq]

/-- The client never gets more than the content of its own records. -/
theorem givenOf_length_le {requestId : RequestId} (hrs : ∀ q ∈ rs, Interleaved type requestId q) (skip : Bool) :
    (givenOf requestId skip rs).length ≤ (ownOf requestId rs).length := by
  induction rs generalizing skip with
  | nil => exact Nat.le_refl 0
  | cons q rs ih =>
    have hq := hrs q List.mem_cons_self
    have hrest := ih (fun q' hq' => hrs q' (List.mem_cons_of_mem _ hq')) (q.markAfter requestId skip)
    rw [givenOf, ownOf_cons, List.length_append, List.length_append]
    by_cases hid : q.requestId = requestId
    · have hle : (q.given requestId skip).length ≤ q.content.length := by
        unfold Record.given
        split
        · exact Nat.zero_le _
        · exact Nat.le_refl _
      rw [if_pos hid]
      omega
    · have hnil : q.given requestId skip = [] := by simp [Record.given, hq.foreign hid]
      rw [if_neg hid, hnil]
      omega

/-- An empty record of another request takes the content of the next record away. -/
theorem givenOf_eq_ownOf_iff {requestId : RequestId} (hrs : ∀ q ∈ rs, Interleaved type requestId q) (skip : Bool) :
    givenOf requestId skip rs = ownOf requestId rs ↔
      (skip = true → ∀ q ∈ rs.head?, q.requestId ≠ requestId) ∧
        rs.IsChain fun p q => p.content = [] → q.requestId ≠ requestId := by
  induction rs generalizing skip with
  | nil => simp [givenOf, ownOf]
  | cons q rs ih =>
    have hq := hrs q List.mem_cons_self
    have hrs' : ∀ q' ∈ rs, Interleaved type requestId q' := fun q' hq' => hrs q' (List.mem_cons_of_mem _ hq')
    rw [givenOf, ownOf_cons, List.isChain_cons]
    by_cases hid : q.requestId = requestId
    · obtain ⟨hne, hpassed⟩ := hq.own hid
      have hempty : q.content.isEmpty = false := by simpa using hne
      have hmark : q.markAfter requestId skip = false := by simp [Record.markAfter, hempty]
      rw [if_pos hid, hmark]
      cases skip with
      | true =>
        have hnil : q.given requestId true = [] := by simp [Record.given]
        have hle := givenOf_length_le hrs' false
        have hpos := List.length_pos_of_ne_nil hne
        rw [hnil, List.nil_append]
        refine iff_of_false ?_ ?_
        · intro heq
          have hlen := congrArg List.length heq
          rw [List.length_append] at hlen
          omega
        · rintro ⟨hhead, -⟩
          exact hhead rfl q rfl hid
      | false =>
        have hgiven : q.given requestId false = q.content := by simp [Record.given, hpassed]
        rw [hgiven, List.append_cancel_left_eq, ih hrs' false]
        simp [hne]
    · have hgiven : q.given requestId skip = [] := by simp [Record.given, hq.foreign hid]
      have hmark : q.markAfter requestId skip = q.content.isEmpty := by simp [Record.markAfter, hq.foreign hid]
      rw [if_neg hid, hgiven, hmark, List.nil_append, List.nil_append, ih hrs']
      have hhead : (skip = true → ∀ p ∈ (q :: rs).head?, p.requestId ≠ requestId) := by
        intro _ p hp
        obtain rfl : q = p := Option.some.inj hp
        exact hid
      constructor
      · rintro ⟨hmarked, hchain⟩
        refine ⟨hhead, ?_, hchain⟩
        intro p hp hc
        exact hmarked (by rw [hc]; rfl) p hp
      · rintro ⟨-, hnext, hchain⟩
        refine ⟨?_, hchain⟩
        intro hc p hp
        exact hnext p hp (List.isEmpty_iff.mp hc)

/-- The other stream ends inside this one. -/
def interleavedRecords : List Record :=
  [⟨version1, stdin, thisRequest, text "name=", [], 0, by decide, no_padding_le⟩,
    ⟨version1, stdin, ⟨2, by decide⟩, [], [], 0, no_content_le, no_padding_le⟩,
    ⟨version1, stdin, thisRequest, text "value", [], 0, by decide, no_padding_le⟩]

theorem interleavedRecords_interleaved : ∀ q ∈ interleavedRecords, Interleaved stdin thisRequest q := by
  simp only [interleavedRecords, List.forall_mem_cons, List.not_mem_nil, false_implies, implies_true, and_true]
  refine ⟨⟨.own rfl rfl ?_ rfl ?_ ?_, ?_, ?_⟩, ⟨.foreign rfl ?_ ?_ ?_, ?_, ?_⟩, ⟨.own rfl rfl ?_ rfl ?_ ?_, ?_, ?_⟩⟩ <;>
    decide

/-- The content that the application reads is that of the records of its request if and
only if no such record comes directly behind an empty record of another request, which
is how other requests' streams end on a connection that is shared. -/
theorem content_whole_iff (hbegun : req.isBeginProcessed = true)
    (hrs : ∀ q ∈ rs, Interleaved type req.requestId q) (hlast : last.EndsStream type req.requestId)
    (htext : r.unread ++ req.ipc.inbox.bytes = rs.flatMap Record.bytes ++ (last.bytes ++ more)) {n : Nat}
    (hn : (ownOf req.requestId rs).length ≤ n) :
    (∃ s', getStr fillBuffProc n ⟨r.setType type, req⟩ = some (ownOf req.requestId rs, s')) ↔
      rs.IsChain fun p q => p.content = [] → q.requestId ≠ req.requestId := by
  have hnone : rs.flatMap Record.response = [] := List.flatMap_eq_nil_iff.mpr fun q hq => (hrs q hq).response
  obtain ⟨e, hy, -⟩ := stream_yields hbegun (fun hne => absurd hnone hne) (fun q hq => (hrs q hq).passing) hlast htext
  obtain ⟨s', hrun, -⟩ := getStr_yields (sound_setType r req type) hy n
  have hle := givenOf_length_le hrs false
  rw [List.take_of_length_le (by omega)] at hrun
  have hiff := givenOf_eq_ownOf_iff hrs false
  simp only [Bool.false_eq_true, false_implies, true_and] at hiff
  rw [← hiff, hrun]
  constructor
  · rintro ⟨s'', heq⟩
    exact (Prod.mk.inj (Option.some.inj heq)).1
  · intro heq
    exact ⟨s', by rw [heq]⟩

/-- A buffer of the length of the content. -/
theorem content_whole_iff_shared :
    (∃ s', getStr fillBuffProc 10
        ⟨(newReader (newBuffLen 8192 false) params).setType stdin,
          requestWith (interleavedRecords.flatMap Record.bytes ++ (sharedEnd.bytes ++ []))⟩ =
        some (ownOf thisRequest interleavedRecords, s')) ↔
      interleavedRecords.IsChain fun p q => p.content = [] → q.requestId ≠ thisRequest := by
  have hbegun : (requestWith (interleavedRecords.flatMap Record.bytes ++ (sharedEnd.bytes ++ []))).isBeginProcessed = true :=
    rfl
  exact content_whole_iff (n := 10) hbegun interleavedRecords_interleaved sharedEnd_ends rfl (by decide)

end Reading

end Libfcgi
