import Altumo.Libfcgi.Values

/-!
# What reading does to a request

Reading may answer on the connection, but only with whole records, and never with the
end of a request that is being served. Nothing that writing looks at is changed.
-/

namespace Libfcgi

open CString Descriptor

/-- The end of a request that has been served. -/
def Record.completes (r : Record) : Bool := r.type == endRequest && r.content.getD 4 0 == requestComplete

/-- A record of the output of a request that is served. -/
def Record.ofOutput (r : Record) : Bool := r.type == stdout || r.type == stderr || r.completes

/-- A request before and after reading. -/
structure Answers (req req' : Request) : Prop where
  appStatus : req'.appStatus = req.appStatus
  nWriters : req'.nWriters = req.nWriters
  begun : req.isBeginProcessed = true → req'.isBeginProcessed = true ∧ req'.requestId = req.requestId
  sent : req.ipc.outbox.Reliable → req'.ipc.outbox.Reliable ∧ ∃ rs : List Record,
    req'.ipc.outbox.sent = req.ipc.outbox.sent ++ rs.flatMap Record.bytes ∧ ∀ r ∈ rs, r.ofOutput = false

theorem Answers.refl (req : Request) : Answers req req :=
  ⟨rfl, rfl, fun h => ⟨h, rfl⟩, fun h => ⟨h, [], (List.append_nil _).symm, fun r hr => by cases hr⟩⟩

theorem Answers.trans {req req' req'' : Request} (h : Answers req req') (h' : Answers req' req'') : Answers req req'' where
  appStatus := h'.appStatus.trans h.appStatus
  nWriters := h'.nWriters.trans h.nWriters
  begun hb := by
    obtain ⟨hb', hid⟩ := h.begun hb
    obtain ⟨hb'', hid'⟩ := h'.begun hb'
    exact ⟨hb'', hid'.trans hid⟩
  sent ho := by
    obtain ⟨ho', rs, hsent, hrs⟩ := h.sent ho
    obtain ⟨ho'', rs', hsent', hrs'⟩ := h'.sent ho'
    refine ⟨ho'', rs ++ rs', ?_, fun r hr => (List.mem_append.mp hr).elim (hrs r) (hrs' r)⟩
    rw [hsent', hsent, List.append_assoc, List.flatMap_append]

/-- An input buffer may be filled, and the bytes of the connection taken. -/
theorem Answers.setInbox (req : Request) (i : Inbox) : Answers req (req.setInbox i) :=
  ⟨rfl, rfl, fun h => ⟨h, rfl⟩, fun h => ⟨h, [], (List.append_nil _).symm, fun r hr => by cases hr⟩⟩

/-- A response that is one record, and not of the output of a request. -/
def Response (t : Text) : Prop := ∃ r : Record, r.bytes = t ∧ r.ofOutput = false

theorem valuesResponse_response (stack : Buffer 64) {ps : List Text} {answer : Text}
    (h : answerValues ps [] = some answer) : Response (valuesResponse stack answer) := by
  obtain ⟨-, rfl, hfits⟩ := (answerValues_eq_some_iff ps [] answer).mp h
  obtain ⟨q, hbytes, -, htype, -⟩ := valuesResponse_record stack _ (hfits.imp_left fun hnil => by rw [hnil]; rfl)
  exact ⟨q, hbytes.symm, by rw [Record.ofOutput, Record.completes, htype]; rfl⟩

theorem unknownTypeResponse_response (type : Byte) : Response (unknownTypeResponse type) :=
  ⟨⟨version1, unknownType, nullRequestId, makeUnknownTypeBody type, [], 0, show 8 ≤ maxLength by decide, Nat.zero_le _⟩, by
    simp [Record.bytes, unknownTypeResponse]; rfl, rfl⟩

theorem cantMpxConn_response (requestId : RequestId) : Response (endRequestBytes requestId 0 cantMpxConn) :=
  ⟨⟨version1, endRequest, requestId, (makeEndRequestBody 0 cantMpxConn).bytes, [], 0, by decide, Nat.zero_le _⟩, by
    simp [Record.bytes, endRequestBytes]; rfl, rfl⟩

theorem writeResponse_answers {t : Text} (h : Response t) (status : Status) (s : Input) :
    Answers s.req (writeResponse t status s).2.req := by
  obtain ⟨r, rfl, hr⟩ := h
  have houtbox : (writeResponse r.bytes status s).2.req = s.req.setOutbox (writeItAll s.req.ipc.outbox r.bytes).2 := by
    unfold writeResponse
    cases writeItAll s.req.ipc.outbox r.bytes with
    | mk errno o => cases errno <;> rfl
  rw [houtbox]
  refine ⟨rfl, rfl, fun hb => ⟨hb, rfl⟩, ?_⟩
  intro ho
  obtain ⟨o, hrun, hsent, ho'⟩ := writeItAll_reliable ho r.bytes
  rw [hrun]
  refine ⟨ho', [r], ?_, ?_⟩
  · rw [List.flatMap_singleton]
    exact hsent
  · intro r' hr'
    rw [List.mem_singleton.mp hr']
    exact hr

/-- A function that reads so. -/
def Fill.Answers (fill : Fill) : Prop := ∀ s s', fill s = some s' → Libfcgi.Answers s.req s'.req

section Reading

variable {fill : Fill} {s s' : Input} {n fuel : Nat}

theorem takeChar_answers {c : Option Byte} (h : takeChar s = some (c, s')) : Answers s.req s'.req := by
  unfold takeChar at h
  split at h
  · cases h
  · obtain ⟨-, rfl⟩ := Prod.mk.inj (Option.some.inj h)
    exact .refl _

theorem getChar_answers (hfill : fill.Answers) {c : Option Byte} (h : getChar fill s = some (c, s')) :
    Answers s.req s'.req := by
  unfold getChar at h
  split at h
  · obtain ⟨-, rfl⟩ := Prod.mk.inj (Option.some.inj h)
    exact .refl _
  · split at h
    · exact takeChar_answers h
    · obtain ⟨t, ht, h⟩ := Option.bind_eq_some_iff.mp h
      refine (hfill s t ht).trans ?_
      split at h
      · obtain ⟨-, rfl⟩ := Prod.mk.inj (Option.some.inj h)
        exact .refl _
      · split at h
        · exact takeChar_answers h
        · cases h

theorem getStrLoop_answers (hfill : fill.Answers) {str : Text} (h : getStrLoop fill fuel n s = some (str, s')) :
    Answers s.req s'.req := by
  induction fuel generalizing n s str with
  | zero => cases h
  | succ fuel ih =>
    rw [getStrLoop] at h
    split at h
    · obtain ⟨-, rfl⟩ := Prod.mk.inj (Option.some.inj h)
      exact .refl _
    · split at h
      · obtain ⟨-, rfl⟩ := Prod.mk.inj (Option.some.inj h)
        exact .refl _
      · obtain ⟨t, ht, h⟩ := Option.bind_eq_some_iff.mp h
        have hstep : Answers s.req t.req := hfill (s.advance (min n s.stream.avail)) t ht
        split at h
        · obtain ⟨-, rfl⟩ := Prod.mk.inj (Option.some.inj h)
          exact hstep
        · obtain ⟨⟨rest, u⟩, hrest, h⟩ := Option.bind_eq_some_iff.mp h
          obtain ⟨-, rfl⟩ := Prod.mk.inj (Option.some.inj h)
          exact hstep.trans (ih hrest)

theorem getStr_answers (hfill : fill.Answers) {str : Text} (h : getStr fill n s = some (str, s')) :
    Answers s.req s'.req := by
  unfold getStr at h
  split at h
  · obtain ⟨-, rfl⟩ := Prod.mk.inj (Option.some.inj h)
    exact .refl _
  · split at h
    · obtain ⟨-, rfl⟩ := Prod.mk.inj (Option.some.inj h)
      exact .refl _
    · exact getStrLoop_answers hfill h

theorem getLineLoop_answers (hfill : fill.Answers) {line : Text} (h : getLineLoop fill n s = some (line, s')) :
    Answers s.req s'.req := by
  induction n generalizing s line with
  | zero =>
    obtain ⟨-, rfl⟩ := Prod.mk.inj (Option.some.inj h)
    exact .refl _
  | succ n ih =>
    rw [getLineLoop] at h
    obtain ⟨⟨c, t⟩, hc, h⟩ := Option.bind_eq_some_iff.mp h
    have hstep := getChar_answers hfill hc
    cases c with
    | none =>
      obtain ⟨-, rfl⟩ := Prod.mk.inj (Option.some.inj h)
      exact hstep
    | some c =>
      simp only at h
      split at h
      · obtain ⟨-, rfl⟩ := Prod.mk.inj (Option.some.inj h)
        exact hstep
      · obtain ⟨⟨cs, u⟩, hcs, h⟩ := Option.bind_eq_some_iff.mp h
        obtain ⟨-, rfl⟩ := Prod.mk.inj (Option.some.inj h)
        exact hstep.trans (ih hcs)

theorem readCall_answers (hfill : fill.Answers) {call : ReadCall} {str : Text} (h : call.run fill s = some (str, s')) :
    Answers s.req s'.req := by
  cases call with
  | getChar =>
    obtain ⟨⟨c, t⟩, hc, h⟩ := Option.bind_eq_some_iff.mp h
    obtain ⟨-, rfl⟩ := Prod.mk.inj (Option.some.inj h)
    exact getChar_answers hfill hc
  | getStr n => exact getStr_answers hfill h
  | getLine n =>
    obtain ⟨⟨line, t⟩, hline, h⟩ := Option.bind_eq_some_iff.mp h
    obtain ⟨-, rfl⟩ := Prod.mk.inj (Option.some.inj h)
    obtain ⟨⟨line', u⟩, hloop, hline⟩ := Option.bind_eq_some_iff.mp hline
    obtain ⟨-, rfl⟩ := Prod.mk.inj (Option.some.inj hline)
    exact getLineLoop_answers hfill hloop

theorem readLength_answers (hfill : fill.Answers) {b : Byte} {l : Option Nat} (h : readLength fill b s = some (l, s')) :
    Answers s.req s'.req := by
  unfold readLength at h
  split at h
  · obtain ⟨⟨str, t⟩, hstr, h⟩ := Option.bind_eq_some_iff.mp h
    have hstep := getStr_answers hfill hstr
    simp only at h
    split at h <;> (obtain ⟨-, rfl⟩ := Prod.mk.inj (Option.some.inj h); exact hstep)
  · obtain ⟨-, rfl⟩ := Prod.mk.inj (Option.some.inj h)
    exact .refl _

theorem readExactly_answers (hfill : fill.Answers) {str : Option Text} (h : readExactly fill n s = some (str, s')) :
    Answers s.req s'.req := by
  obtain ⟨⟨str, t⟩, hstr, h⟩ := Option.bind_eq_some_iff.mp h
  have hstep := getStr_answers hfill hstr
  simp only at h
  split at h <;> (obtain ⟨-, rfl⟩ := Prod.mk.inj (Option.some.inj h); exact hstep)

theorem readNameValue_answers (hfill : fill.Answers) {nameLen valueLen : Nat} {param : Param}
    (h : readNameValue fill nameLen valueLen s = some (param, s')) : Answers s.req s'.req := by
  unfold readNameValue at h
  split at h
  · cases h
  · obtain ⟨⟨name, t⟩, hname, h⟩ := Option.bind_eq_some_iff.mp h
    have hstep := readExactly_answers hfill hname
    cases name with
    | none =>
      obtain ⟨-, rfl⟩ := Prod.mk.inj (Option.some.inj h)
      exact hstep
    | some name =>
      obtain ⟨⟨value, u⟩, hvalue, h⟩ := Option.bind_eq_some_iff.mp h
      have hstep' := readExactly_answers hfill hvalue
      cases value <;> (obtain ⟨-, rfl⟩ := Prod.mk.inj (Option.some.inj h); exact hstep.trans hstep')

theorem readParam_answers (hfill : fill.Answers) {param : Param} (h : readParam fill s = some (param, s')) :
    Answers s.req s'.req := by
  obtain ⟨⟨c, t⟩, hc, h⟩ := Option.bind_eq_some_iff.mp h
  have hstep := getChar_answers hfill hc
  cases c with
  | none =>
    obtain ⟨-, rfl⟩ := Prod.mk.inj (Option.some.inj h)
    exact hstep
  | some c =>
    obtain ⟨⟨nameLen, u⟩, hlen, h⟩ := Option.bind_eq_some_iff.mp h
    have hstep₂ := hstep.trans (readLength_answers hfill hlen)
    cases nameLen with
    | none =>
      obtain ⟨-, rfl⟩ := Prod.mk.inj (Option.some.inj h)
      exact hstep₂
    | some nameLen =>
      obtain ⟨⟨c, v⟩, hc, h⟩ := Option.bind_eq_some_iff.mp h
      have hstep₃ := hstep₂.trans (getChar_answers hfill hc)
      cases c with
      | none =>
        obtain ⟨-, rfl⟩ := Prod.mk.inj (Option.some.inj h)
        exact hstep₃
      | some c =>
        obtain ⟨⟨valueLen, w⟩, hlen, h⟩ := Option.bind_eq_some_iff.mp h
        have hstep₄ := hstep₃.trans (readLength_answers hfill hlen)
        cases valueLen with
        | none =>
          obtain ⟨-, rfl⟩ := Prod.mk.inj (Option.some.inj h)
          exact hstep₄
        | some valueLen => exact hstep₄.trans (readNameValue_answers hfill h)

theorem readParamsLoop_answers (hfill : fill.Answers) {ok : Bool} {p p' : Params}
    (h : readParamsLoop fill fuel p s = some (ok, p', s')) : Answers s.req s'.req := by
  induction fuel generalizing p s with
  | zero => cases h
  | succ fuel ih =>
    rw [readParamsLoop] at h
    obtain ⟨⟨param, t⟩, hparam, h⟩ := Option.bind_eq_some_iff.mp h
    have hstep := readParam_answers hfill hparam
    cases param with
    | found nameValue => exact hstep.trans (ih h)
    | _ =>
      obtain ⟨-, hrest⟩ := Prod.mk.inj (Option.some.inj h)
      obtain ⟨-, rfl⟩ := Prod.mk.inj hrest
      exact hstep

theorem refill_answers (s : Input) : Answers s.req s.refill.2.req := by
  simp only [Input.refill]
  split
  · split <;> exact .setInbox _ _
  · exact .refl _

/-- What a header leads to. -/
def ProcessHeader.Answers (processHeader : ProcessHeader) : Prop :=
  ∀ h s status s', processHeader h s = some (status, s') → Libfcgi.Answers s.req s'.req

/-- The stream after a pass, whether it returns or not. -/
def Filled.input : Filled → Input
  | .returned s => s
  | .again _ s => s

theorem afterHeader_req (status : Status) (s : Input) : (afterHeader status s).input.req = s.req := by
  unfold afterHeader
  cases status with
  | streamRecord =>
    simp only
    split <;> rfl
  | _ => rfl

variable {P : ProcessHeader} {header : Text} {filled : Filled}

theorem fillHeader_answers (hP : P.Answers) (h : fillHeader P header s = some filled) : Answers s.req filled.input.req := by
  simp only [fillHeader] at h
  split at h
  · obtain rfl := Option.some.inj h
    exact .refl _
  · obtain ⟨hdr, -, h⟩ := Option.bind_eq_some_iff.mp h
    obtain ⟨⟨status, t⟩, ht, h⟩ := Option.bind_eq_some_iff.mp h
    obtain rfl := Option.some.inj h
    rw [afterHeader_req]
    have hstep := hP hdr _ status t ht
    exact hstep

theorem fillEor_answers (hP : P.Answers) (h : fillEor P header s = some filled) : Answers s.req filled.input.req := by
  unfold fillEor at h
  split at h
  · obtain rfl := Option.some.inj h
    exact .refl _
  · exact fillHeader_answers hP h

theorem fillPadding_answers (hP : P.Answers) (h : fillPadding P header s = some filled) :
    Answers s.req filled.input.req := by
  simp only [fillPadding] at h
  split at h
  · obtain rfl := Option.some.inj h
    exact .refl _
  · exact fillEor_answers (s := { s with stream := s.stream.skipPadding }) hP h

theorem fillContent_answers (hP : P.Answers) (h : fillContent P header s = some filled) :
    Answers s.req filled.input.req := by
  simp only [fillContent] at h
  split at h
  · obtain rfl := Option.some.inj h
    exact .refl _
  · split at h
    · obtain rfl := Option.some.inj h
      exact .refl _
    · exact fillPadding_answers (s := { s with stream := s.stream.skipContent }) hP h

theorem fillLoop_answers (hP : P.Answers) (h : fillLoop P fuel header s = some s') : Answers s.req s'.req := by
  induction fuel generalizing header s with
  | zero => cases h
  | succ fuel ih =>
    rw [fillLoop] at h
    obtain ⟨filled, hpass, h⟩ := Option.bind_eq_some_iff.mp h
    have hstep : Answers s.req filled.input.req := by
      have hrefill := refill_answers s
      unfold fillPass at hpass
      split at hpass
      · rename_i t heq
        obtain rfl := Option.some.inj hpass
        rw [heq] at hrefill
        exact hrefill
      · rename_i t heq
        rw [heq] at hrefill
        exact hrefill.trans (fillContent_answers hP hpass)
    cases filled with
    | returned t =>
      obtain rfl := Option.some.inj h
      exact hstep
    | again header t => exact hstep.trans (ih h)

theorem fillWith_answers (hP : P.Answers) : Fill.Answers (fillWith P) := fun _ _ h => fillLoop_answers hP h

theorem fillToEor_answers : Fill.Answers fillToEor := fillWith_answers fun _ _ _ _ h => by cases h

theorem processManagementRecord_answers {type : Byte} {status : Status}
    (h : processManagementRecord type s = some (status, s')) : Answers s.req s'.req := by
  unfold processManagementRecord at h
  split at h
  · obtain ⟨⟨ok, p, t⟩, hread, h⟩ := Option.bind_eq_some_iff.mp h
    have hstep := readParamsLoop_answers fillToEor_answers hread
    simp only at h
    split at h
    · obtain ⟨-, rfl⟩ := Prod.mk.inj (Option.some.inj h)
      exact hstep
    · obtain ⟨answer, hanswer, h⟩ := Option.bind_eq_some_iff.mp h
      have hresponse := writeResponse_answers (valuesResponse_response t.req.stack hanswer) .mgmtRecord t
      rw [Option.some.inj h] at hresponse
      exact hstep.trans hresponse
  · have hresponse := writeResponse_answers (unknownTypeResponse_response type) .mgmtRecord s
    rw [Option.some.inj h] at hresponse
    exact hresponse

/-- A request that has not begun yet may begin. -/
theorem readBeginBody_answers {status : Status} (hs : s.req.isBeginProcessed = false)
    (h : readBeginBody s = some (status, s')) : Answers s.req s'.req := by
  obtain ⟨⟨body, t⟩, hbody, h⟩ := Option.bind_eq_some_iff.mp h
  have hstep := getStr_answers fillToEor_answers hbody
  simp only at h
  split at h
  · obtain ⟨-, rfl⟩ := Prod.mk.inj (Option.some.inj h)
    exact hstep
  · obtain ⟨-, rfl⟩ := Prod.mk.inj (Option.some.inj h)
    exact ⟨hstep.appStatus, hstep.nWriters, fun hb => absurd hb (by rw [hs]; exact Bool.false_ne_true), hstep.sent⟩

theorem processBeginRecord_answers {requestId : RequestId} {status : Status}
    (h : processBeginRecord requestId s = some (status, s')) : Answers s.req s'.req := by
  unfold processBeginRecord at h
  split at h
  · obtain ⟨-, rfl⟩ := Prod.mk.inj (Option.some.inj h)
    exact .refl _
  · split at h
    · have hresponse := writeResponse_answers (cantMpxConn_response requestId) .skip s
      rw [Option.some.inj h] at hresponse
      exact hresponse
    · rename_i hbegun
      have hs : s.req.isBeginProcessed = false := Bool.not_eq_true _ ▸ hbegun
      have hstep := readBeginBody_answers (s := { s with req := { s.req with requestId := requestId } }) hs h
      exact ⟨hstep.appStatus, hstep.nWriters, fun hb => absurd hb hbegun, hstep.sent⟩

theorem processHeader_answers : ProcessHeader.Answers processHeader := by
  intro hdr s status s' h
  simp only [processHeader] at h
  split at h
  · obtain ⟨-, rfl⟩ := Prod.mk.inj (Option.some.inj h)
    exact .refl _
  · split at h
    · exact processBeginRecord_answers (s := s.enter hdr) h
    · split at h
      · exact processManagementRecord_answers (s := s.enter hdr) h
      · split at h
        · obtain ⟨-, rfl⟩ := Prod.mk.inj (Option.some.inj h)
          exact .refl _
        · split at h <;> (obtain ⟨-, rfl⟩ := Prod.mk.inj (Option.some.inj h); exact .refl _)

theorem fillBuffProc_answers : Fill.Answers fillBuffProc := fillWith_answers processHeader_answers

end Reading

end Libfcgi
