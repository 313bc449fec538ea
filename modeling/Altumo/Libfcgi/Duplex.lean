import Altumo.Libfcgi.OutputRuns
import Altumo.Libfcgi.Answers

/-!
# Reading and writing at the same time

An application reads its input and writes its output in any order, and reading may
answer in between on the same connection. The writers never look at what has been
sent, so the records of the output stay whole and in order.
-/

namespace Libfcgi

open CString Descriptor Transition

/-- What the writers use of a request, on the connection of another one on which something
has been sent before. -/
def Request.over (req base : Request) : Request :=
  { base with
    requestId := req.requestId
    appStatus := req.appStatus
    nWriters := req.nWriters
    ipc := ⟨base.ipc.inbox, ⟨base.ipc.outbox.sent ++ req.ipc.outbox.sent, req.ipc.outbox.results⟩⟩ }

def Output.over (o : Output) (base : Request) : Output := { o with req := o.req.over base }

section Framing

theorem writeLoop_over (results : List WriteResult) (buf sent t : Text) :
    writeLoop results buf (t ++ sent) =
      ((writeLoop results buf sent).1, ⟨t ++ (writeLoop results buf sent).2.sent, (writeLoop results buf sent).2.results⟩) := by
  induction results generalizing buf sent with
  | nil => cases buf <;> simp [writeLoop]
  | cons r results ih =>
    cases buf with
    | nil => simp [writeLoop]
    | cons b buf =>
      cases r with
      | wrote count => simp only [writeLoop, List.append_assoc, ih]
      | failed errno => simp [writeLoop]

theorem transmit_over (w : Writer) (req base : Request) :
    transmit w (req.over base) = ((transmit w req).1, (transmit w req).2.over base) := by
  have hloop : ∀ buf, writeItAll (req.over base).ipc.outbox buf =
      ((writeItAll req.ipc.outbox buf).1, ⟨base.ipc.outbox.sent ++ (writeItAll req.ipc.outbox buf).2.sent,
        (writeItAll req.ipc.outbox buf).2.results⟩) := fun buf => writeLoop_over _ _ _ _
  unfold transmit
  by_cases hused : w.used ≠ 0
  · simp only [if_pos hused, hloop]
    cases writeItAll req.ipc.outbox w.content with
    | mk errno o => cases errno <;> rfl
  · simp only [if_neg hused]

theorem emptyBuffProc_over (w : Writer) (req base : Request) :
    emptyBuffProc w (req.over base) = ((emptyBuffProc w req).1, (emptyBuffProc w req).2.over base) :=
  transmit_over (w.encapsulate req.requestId) req base

theorem putChar_over (c : Byte) (w : Writer) (req base : Request) :
    putChar c w (req.over base) = ((putChar c w req).1, (putChar c w req).2.1, (putChar c w req).2.2.over base) := by
  simp only [putChar, emptyBuffProc_over]
  split
  · rfl
  · split
    · rfl
    · split <;> rfl

theorem putStrLoop_over (fuel : Nat) (str : Text) (w : Writer) (req base : Request) :
    putStrLoop fuel str w (req.over base) = (putStrLoop fuel str w req).map fun r => (r.1, r.2.1, r.2.2.over base) := by
  induction fuel generalizing str w req with
  | zero => rfl
  | succ fuel ih =>
    simp only [putStrLoop, emptyBuffProc_over]
    split
    · rfl
    · split
      · rfl
      · exact ih _ _ _

theorem putStr_over (str : Text) (w : Writer) (req base : Request) :
    putStr str w (req.over base) = (putStr str w req).map fun r => (r.1, r.2.1, r.2.2.over base) := by
  simp only [putStr, putStrLoop_over]
  split
  · rfl
  · cases putStrLoop (str.length + 1) str w req <;> rfl

theorem writeEof_over (w : Writer) (req base : Request) :
    writeEof w (req.over base) = (writeEof w req).map fun r => (r.1, r.2.over base) := by
  have hid : (req.over base).requestId = req.requestId := rfl
  simp only [writeEof, putStr_over, hid]
  split
  · cases putStr (makeHeader w.type req.requestId 0 0).bytes w req <;> rfl
  · rfl

theorem writeEndRequest_over (w : Writer) (req base : Request) :
    writeEndRequest w (req.over base) = (writeEndRequest w req).map fun r => (r.1, r.2.over base) := by
  have hid : (req.over base).requestId = req.requestId := rfl
  have hstatus : (req.over base).appStatus = req.appStatus := rfl
  have hwriters : (req.over base).nWriters = req.nWriters := rfl
  simp only [writeEndRequest, putStr_over, hid, hstatus, hwriters]
  split
  · cases putStr (endRequestBytes req.requestId req.appStatus requestComplete) w req <;> rfl
  · rfl

theorem writeCloseRecords_over (w : Writer) (req base : Request) :
    writeCloseRecords w (req.over base) = (writeCloseRecords w req).map fun r => (r.1, r.2.over base) := by
  simp only [writeCloseRecords, writeEof_over]
  cases writeEof w.raw req with
  | none => rfl
  | some p =>
    simp only [Option.map_some, Option.bind_eq_bind, Option.bind_some, writeEndRequest_over]
    cases writeEndRequest p.1 p.2 <;> rfl

theorem emptyBuffProcClose_over (w : Writer) (req base : Request) :
    emptyBuffProcClose w (req.over base) = (emptyBuffProcClose w req).map fun r => (r.1, r.2.over base) := by
  have hid : (req.over base).requestId = req.requestId := rfl
  simp only [emptyBuffProcClose, hid, writeCloseRecords_over]
  cases writeCloseRecords (w.encapsulate req.requestId) req with
  | none => rfl
  | some p => simp only [Option.map_some, Option.bind_eq_bind, Option.bind_some, transmit_over]

theorem fflush_over (w : Writer) (req base : Request) :
    fflush w (req.over base) = ((fflush w req).1, (fflush w req).2.1, (fflush w req).2.2.over base) := by
  simp only [fflush, emptyBuffProc_over]
  split <;> rfl

theorem fclose_over (w : Writer) (req base : Request) :
    fclose w (req.over base) = (fclose w req).map fun r => (r.1, r.2.1, r.2.2.over base) := by
  simp only [fclose, emptyBuffProcClose_over]
  split
  · cases emptyBuffProcClose w req <;> rfl
  · rfl

/-- A call does the same whatever has been sent before. -/
theorem call_over (o : Output) (c : Call) (base : Request) : (o.over base).call c = (o.call c).map (Output.over · base) := by
  have hwriter : ∀ s, (o.over base).writer s = o.writer s := fun s => by cases s <;> rfl
  have hreq : (o.over base).req = o.req.over base := rfl
  cases c with
  | putChar s c =>
    simp only [Output.call, hwriter, hreq, putChar_over]
    rfl
  | putStr s str =>
    simp only [Output.call, hwriter, hreq, putStr_over]
    cases putStr str (o.writer s) o.req <;> rfl
  | putS s str =>
    simp only [Output.call, hwriter, hreq, putS, putStr_over]
    split
    · rfl
    · cases putStr (passed str) (o.writer s) o.req <;> rfl
  | fflush s =>
    simp only [Output.call, hwriter, hreq, fflush_over]
    rfl
  | fclose s =>
    simp only [Output.call, hwriter, hreq, fclose_over]
    cases fclose (o.writer s) o.req <;> rfl
  | setExitStatus status => rfl

theorem finish_over (o : Output) (base : Request) :
    (o.over base).finish = o.finish.map fun r => (r.1, r.2.over base) := by
  have herr : (o.over base).err = o.err := rfl
  have hreq : (o.over base).req = o.req.over base := rfl
  simp only [Output.finish, herr, hreq, fclose_over]
  cases fclose o.err o.req with
  | none => rfl
  | some r =>
    obtain ⟨errOk, err, req⟩ := r
    simp only [Option.map_some, Option.bind_eq_bind, Option.bind_some]
    have hout : ((o.over base).update err (req.over base) [] .err).out = (o.update err req [] .err).out := rfl
    have hreq' : ((o.over base).update err (req.over base) [] .err).req = (o.update err req [] .err).req.over base := rfl
    rw [hout, hreq', fclose_over]
    cases fclose (o.update err req [] .err).out (o.update err req [] .err).req <;> rfl

end Framing

/-- A request that is being worked on. -/
structure Work where
  input : Reader
  output : Output

inductive WorkCall where
  | read : ReadCall → WorkCall
  | write : Call → WorkCall
  | startFilterData

def Work.call (w : Work) : WorkCall → Option Work
  | .read c => do
    let (_, i) ← c.run fillBuffProc ⟨w.input, w.output.req⟩
    some ⟨i.stream, { w.output with req := i.req }⟩
  | .write c => do
    let o ← w.output.call c
    some { w with output := o }
  | .startFilterData =>
    let (_, i) := startFilterData ⟨w.input, w.output.req⟩
    some { w with input := i.stream }

def WorkCall.Fits : WorkCall → Prop
  | .write c => c.Fits
  | _ => True

instance : DecidablePred WorkCall.Fits
  | .write c => inferInstanceAs (Decidable c.Fits)
  | .read _ | .startFilterData => inferInstanceAs (Decidable True)

/-- Such work on a request with any input, in any order. -/
def workSystem (start : Request) : System Work WorkCall where
  initial w := ∃ outLen errLen, w.output = startOutput start outLen errLen
  enabled _ c := c.Fits
  next := Work.call

/-- The output as if nothing had been sent. -/
def Output.fresh (o : Output) : Output := { o with req := o.req.setOutbox ⟨[], o.req.ipc.outbox.results⟩ }

def Output.sent (o : Output) : Text := o.req.ipc.outbox.sent

theorem fresh_over (o : Output) : o.fresh.over o.req = o := by
  simp [Output.fresh, Output.over, Request.over, Request.setOutbox]

/-- What has been sent for a request: the records are those of its messages, in order,
and those that reading has answered in between. -/
structure Shares (start : Request) (o : Output) (ms : List Message) (rs : List Record) : Prop where
  accounts : Accounts (start.setOutbox ⟨[], []⟩) (o.fresh.over (start.setOutbox ⟨wire start.requestId ms, []⟩)) ms
  begun : o.req.isBeginProcessed = true
  sent : o.sent = start.ipc.outbox.sent ++ rs.flatMap Record.bytes
  records : rs.filter Record.ofOutput = ms.map (Message.record start.requestId)

section Sharing

variable {start : Request} {o : Output} {ms : List Message} {rs : List Record}

theorem Shares.content (h : Shares start o ms rs) (s : Sink) : contentOf s ms ++ (o.writer s).content = o.written s := by
  have hcontent := h.accounts.content s
  cases s <;> exact hcontent

theorem record_ofOutput (m : Message) (requestId : RequestId) : (m.record requestId).ofOutput = true := by
  cases m with
  | data s c => cases s <;> rfl
  | eof s => cases s <;> rfl
  | ended a => rfl

theorem filter_records (ms : List Message) (requestId : RequestId) :
    (ms.map (Message.record requestId)).filter Record.ofOutput = ms.map (Message.record requestId) := by
  refine List.filter_eq_self.mpr ?_
  intro r hr
  obtain ⟨m, -, rfl⟩ := List.mem_map.mp hr
  exact record_ofOutput m requestId

/-- What a function of the writers leaves, given what it leaves without the answers. -/
theorem Shares.writes (h : Shares start o ms rs) {o₀ : Output} {ms' : List Message}
    (ha : Accounts (start.setOutbox ⟨[], []⟩) (o₀.over (start.setOutbox ⟨wire start.requestId ms, []⟩)) (ms ++ ms')) :
    Shares start (o₀.over o.req) (ms ++ ms') (rs ++ ms'.map (Message.record start.requestId)) := by
  have hnew : o₀.sent = wire start.requestId ms' := by
    have hsent : wire start.requestId ms ++ o₀.sent = [] ++ wire start.requestId (ms ++ ms') := ha.sent
    rw [wire_append, List.nil_append] at hsent
    exact List.append_cancel_left hsent
  refine ⟨?_, h.begun, ?_, ?_⟩
  · have heq : (o₀.over o.req).fresh.over (start.setOutbox ⟨wire start.requestId (ms ++ ms'), []⟩) =
        o₀.over (start.setOutbox ⟨wire start.requestId ms, []⟩) := by
      rw [wire_append, ← hnew]
      simp [Output.fresh, Output.over, Request.over, Request.setOutbox, Output.sent]
    rw [heq]
    exact ha
  · have hsent : (o₀.over o.req).sent = o.sent ++ o₀.sent := rfl
    rw [hsent, hnew, h.sent, List.append_assoc, List.flatMap_append, List.flatMap_map]
    rfl
  · rw [List.filter_append, h.records, filter_records, List.map_append]

theorem Shares.call (h : Shares start o ms rs) {c : Call} (hfits : c.Fits) :
    ∃ o' ms', o.call c = some o' ∧ Shares start o' (ms ++ ms') (rs ++ ms'.map (Message.record start.requestId)) ∧
      o'.req.appStatus = c.status o.req.appStatus := by
  obtain ⟨o', ms', hcall, ha, hstatus⟩ := h.accounts.call hfits
  rw [call_over] at hcall
  obtain ⟨o₀, hcall₀, rfl⟩ := Option.map_eq_some_iff.mp hcall
  have hrun := call_over o.fresh c o.req
  rw [fresh_over, hcall₀] at hrun
  exact ⟨o₀.over o.req, ms', hrun, h.writes ha, hstatus⟩

theorem Shares.read (h : Shares start o ms rs) {req : Request} (ha : Answers o.req req) :
    ∃ rs', Shares start { o with req := req } ms (rs ++ rs') := by
  obtain ⟨hbegun, hid⟩ := ha.begun h.begun
  obtain ⟨hreliable, rs', hsent, hrs'⟩ := ha.sent h.accounts.reliable
  have hold := h.accounts
  refine ⟨rs', ⟨hreliable, hid.trans hold.requestId, by simp [Output.fresh, Output.over, Request.over, Request.setOutbox],
    hold.content, hold.ordered, hold.phase, ha.nWriters.trans hold.count, hold.ended⟩, hbegun, ?_, ?_⟩
  · have hreq : ({ o with req := req } : Output).sent = req.ipc.outbox.sent := rfl
    have hsent' : o.req.ipc.outbox.sent = _ := h.sent
    rw [hreq, hsent, hsent', List.append_assoc, List.flatMap_append]
  · have hnone : rs'.filter Record.ofOutput = [] := by
      refine List.filter_eq_nil_iff.mpr ?_
      intro r hr
      rw [hrs' r hr]
      exact Bool.false_ne_true
    rw [List.filter_append, hnone, List.append_nil, h.records]

theorem Shares.initial (hr : start.ipc.outbox.Reliable) (hbegun : start.isBeginProcessed = true) (outLen errLen : BuffLen) :
    Shares start (startOutput start outLen errLen) [] [] := by
  have hr' : (start.setOutbox ⟨[], start.ipc.outbox.results⟩).ipc.outbox.Reliable := hr
  have ha := startOutput_accounts hr' outLen errLen
  exact ⟨⟨ha.reliable, ha.requestId, ha.sent, ha.content, ha.ordered, ha.phase, ha.count, ha.ended⟩, hbegun,
    (List.append_nil _).symm, rfl⟩

/-- The exit status after a call. -/
def WorkCall.status (status : Int32) : WorkCall → Int32
  | .write c => c.status status
  | _ => status

theorem Shares.work {w w' : Work} {c : WorkCall} (h : Shares start w.output ms rs) (hfits : c.Fits)
    (hc : w.call c = some w') :
    ∃ ms' rs', Shares start w'.output ms' rs' ∧ w'.output.req.appStatus = c.status w.output.req.appStatus := by
  cases c with
  | read c =>
    obtain ⟨⟨str, i⟩, hrun, hc⟩ := Option.bind_eq_some_iff.mp hc
    obtain rfl := Option.some.inj hc
    have ha := readCall_answers fillBuffProc_answers hrun
    obtain ⟨rs', h'⟩ := h.read ha
    exact ⟨ms, rs ++ rs', h', ha.appStatus⟩
  | write c =>
    obtain ⟨o, hrun, hc⟩ := Option.bind_eq_some_iff.mp hc
    obtain rfl := Option.some.inj hc
    obtain ⟨o', ms', hcall, h'⟩ := h.call hfits
    obtain rfl := Option.some.inj (hrun.symm.trans hcall)
    exact ⟨_, _, h'⟩
  | startFilterData =>
    obtain rfl := Option.some.inj hc
    exact ⟨ms, rs, h, rfl⟩

theorem shares_invariant (hr : start.ipc.outbox.Reliable) (hbegun : start.isBeginProcessed = true) :
    (workSystem start).Invariant fun w => ∃ ms rs, Shares start w.output ms rs where
  initial := by
    rintro w ⟨outLen, errLen, heq⟩
    rw [heq]
    exact ⟨[], [], .initial hr hbegun outLen errLen⟩
  step := by
    rintro w c w' - ⟨ms, rs, h⟩ hfits hn
    obtain ⟨ms', rs', h', -⟩ := h.work hfits hn
    exact ⟨ms', rs', h'⟩

/-- The two closes of the end of a request, also when reading has answered before. -/
theorem Shares.finish (h : Shares start o ms rs) :
    ∃ o' ms' a, o.finish = some (true, o') ∧ Shares start o' (ms ++ ms') (rs ++ ms'.map (Message.record start.requestId)) ∧
      Message.ended a ∈ ms ++ ms' ∧ (∀ s, (o'.writer s).content = [] ∧ o'.written s = o.written s) ∧
      o'.req.appStatus = o.req.appStatus ∧ (.ended a ∈ ms' → a = o.req.appStatus) := by
  obtain ⟨o', ms', a, hrun, ha, hended, hwriters, happ, hstatus⟩ := h.accounts.finish
  rw [finish_over] at hrun
  obtain ⟨⟨ok, o₀⟩, hrun₀, heq⟩ := Option.map_eq_some_iff.mp hrun
  obtain ⟨rfl, rfl⟩ := Prod.mk.inj heq
  have hreal := finish_over o.fresh o.req
  rw [fresh_over, hrun₀] at hreal
  refine ⟨o₀.over o.req, ms', a, hreal, h.writes ha, hended, ?_, happ, hstatus⟩
  intro s
  have hs := hwriters s
  cases s <;> exact hs

end Sharing

/-- Input is read and output is written in any order, and writes may be short: every call
that writes and fits is defined, and what is sent is whole records. Those of the output are the
messages of the request, in a legal order and with every accepted byte that is not in a
buffer; the others are answers of the reader. When the request is then finished, all of
the output is sent and ended, and its last record is the end of the request. -/
theorem duplex_integrity {start : Request} (hr : start.ipc.outbox.Reliable) (hbegun : start.isBeginProcessed = true)
    {w : Work} (h : (workSystem start).Reachable w) :
    (∀ c : Call, c.Fits → ∃ w', w.call (.write c) = some w') ∧
      (∃ (ms : List Message) (rs : List Record), w.output.sent = start.ipc.outbox.sent ++ rs.flatMap Record.bytes ∧
        parseRecords (rs.flatMap Record.bytes) = (rs, []) ∧
        rs.filter Record.ofOutput = ms.map (Message.record start.requestId) ∧ ms.Pairwise Precedes ∧
        ∀ s, contentOf s ms ++ (w.output.writer s).content = w.output.written s) ∧
      ∃ (o : Output) (ms : List Message) (rs : List Record) (a : Int32), w.output.finish = some (true, o) ∧
        o.sent = start.ipc.outbox.sent ++ rs.flatMap Record.bytes ∧
        rs.filter Record.ofOutput = (ms ++ [Message.ended a]).map (Message.record start.requestId) ∧
        (ms ++ [Message.ended a]).Pairwise Precedes ∧ (∀ s, contentOf s ms = w.output.written s) ∧
        ((∃ s, (w.output.writer s).isClosed = false) → a = w.output.req.appStatus) := by
  obtain ⟨ms, rs, hs⟩ := (shares_invariant hr hbegun).of_reachable h
  have hwriter : ∀ s, (w.output.fresh.over (start.setOutbox ⟨wire start.requestId ms, []⟩)).writer s = w.output.writer s :=
    fun s => by cases s <;> rfl
  refine ⟨?_, ⟨ms, rs, hs.sent, parseRecords_whole rs, hs.records, hs.accounts.ordered, hs.content⟩, ?_⟩
  · intro c hfits
    obtain ⟨o', ms', hcall, -⟩ := hs.call hfits
    exact ⟨_, by rw [Work.call, hcall]; rfl⟩
  · obtain ⟨o, ms', a, hrun, hs', hended, hwriters, -, hstatus⟩ := hs.finish
    obtain ⟨ns, hns, hnone⟩ := ended_last hs'.accounts.ordered hended
    have hcontent : ∀ s, contentOf s (ms ++ ms') = w.output.written s := by
      intro s
      have hc := hs'.content s
      rw [(hwriters s).1, List.append_nil] at hc
      exact hc.trans (hwriters s).2
    refine ⟨o, ns, _, a, hrun, hs'.sent, ?_, ?_, ?_, ?_⟩
    · rw [← hns]
      exact hs'.records
    · rw [← hns]
      exact hs'.accounts.ordered
    · intro s
      have hc := hcontent s
      rw [hns, contentOf_append] at hc
      simpa [contentOf, Message.content] using hc
    · rintro ⟨s, ho⟩
      rcases List.mem_append.mp hended with hm | hm
      · exact absurd hm (hs.accounts.ended_notMem (s := s) (by rw [hwriter]; exact ho) a)
      · exact hstatus hm

def sharedCalls : List WorkCall := [.write (.putStr .out (text "ok")), .read (.getStr 100), .write (.fflush .out)]

/-- Reading refuses the begin of another request while there is output in the buffer, which
is sent afterwards. -/
theorem duplex_integrity_read :
    ∃ (w : Work) (ms : List Message) (rs : List Record),
      sharedCalls.foldlM Work.call ⟨(newReader (newBuffLen 8192 false) params).setType stdin,
        startOutput (requestWith (sharedRecords.flatMap Record.bytes ++ (sharedEnd.bytes ++ [])))
          (newBuffLen 8192 false) (newBuffLen 512 false)⟩ = some w ∧
      w.output.sent = endRequestBytes ⟨3, by decide⟩ 0 cantMpxConn ++ [1, 6, 0, 1, 0, 2, 6, 0, 111, 107, 0, 0, 0, 0, 0, 0] ∧
      w.output.sent = [] ++ rs.flatMap Record.bytes ∧
      rs.filter Record.ofOutput = ms.map (Message.record thisRequest) ∧ contentOf .out ms = text "ok" := by
  have hrun : (sharedCalls.foldlM Work.call ⟨(newReader (newBuffLen 8192 false) params).setType stdin,
      startOutput (requestWith (sharedRecords.flatMap Record.bytes ++ (sharedEnd.bytes ++ [])))
        (newBuffLen 8192 false) (newBuffLen 512 false)⟩).map (fun w =>
      (w.output.sent, (w.output.writer .out).content, w.output.written .out)) =
      some (endRequestBytes ⟨3, by decide⟩ 0 cantMpxConn ++ [1, 6, 0, 1, 0, 2, 6, 0, 111, 107, 0, 0, 0, 0, 0, 0], [],
        text "ok") := by decide +kernel
  obtain ⟨w, hw, heq⟩ := Option.map_eq_some_iff.mp hrun
  simp only [Prod.mk.injEq] at heq
  obtain ⟨hsent, hempty, hout⟩ := heq
  have hfits : ∀ c ∈ sharedCalls, c.Fits := by decide
  have hreach := System.Reachable.foldlM (S := workSystem _) (.initial ⟨_, _, rfl⟩) (fun c hc _ => hfits c hc) hw
  obtain ⟨-, ⟨ms, rs, hrs, -, hrecords, -, hcontent⟩, -⟩ := duplex_integrity (requestWith_reliable _) rfl hreach
  have hok := hcontent .out
  rw [hempty, List.append_nil, hout] at hok
  exact ⟨w, ms, rs, hw, hsent, hrs, hrecords, hok⟩

end Libfcgi
