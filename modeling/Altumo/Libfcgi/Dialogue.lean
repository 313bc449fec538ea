import Altumo.Library.Lockstep
import Altumo.Libfcgi.Duplex

/-!
# What is read while output is written

A reader does not see what the writers of its request do: from states that differ in
what has been sent, every function that reads returns the same and sends the same
answers. So whatever is written in between, an application reads the same input.
-/

namespace Libfcgi

open CString Descriptor Refill Lockstep Transition

/-- A reader, with what the writers leave of its request. -/
def Input.beside (s : Input) (req : Request) : Input :=
  { s with
    req := { s.req with
      appStatus := req.appStatus
      nWriters := req.nWriters
      ipc := ⟨s.req.ipc.inbox, req.ipc.outbox⟩ } }

/-- Two states that look the same to a reader, and from which it has sent the same answers. -/
structure Beside (a b : Text) (s t : Input) : Prop where
  same : ∃ req : Request, req.ipc.outbox.Reliable ∧ t = s.beside req
  reliable : s.req.ipc.outbox.Reliable
  answers : ∃ d, s.req.ipc.outbox.sent = a ++ d ∧ t.req.ipc.outbox.sent = b ++ d

/-- A function that fills the buffers of two such states. -/
def FillsBeside (fill : Fill) : Prop := ∀ a b s t, Beside a b s t → Option.Rel (Beside a b) (fill s) (fill t)

section Readers

variable {a b : Text} {s t : Input} {fill : Fill}

theorem Beside.stream (h : Beside a b s t) : t.stream = s.stream := by
  obtain ⟨⟨req, -, rfl⟩, -, -⟩ := h
  rfl

theorem Beside.inbox (h : Beside a b s t) : t.req.ipc.inbox = s.req.ipc.inbox := by
  obtain ⟨⟨req, -, rfl⟩, -, -⟩ := h
  rfl

/-- From here on both have sent nothing. -/
theorem beside_of_eq {req : Request} (hs : s.req.ipc.outbox.Reliable) (hreq : req.ipc.outbox.Reliable)
    (ht : t = s.beside req) : Beside s.req.ipc.outbox.sent t.req.ipc.outbox.sent s t :=
  ⟨⟨req, hreq, ht⟩, hs, [], (List.append_nil _).symm, (List.append_nil _).symm⟩

/-- Both streams are changed in the same way. -/
theorem Beside.map (h : Beside a b s t) (f : Reader → Reader) :
    Beside a b { s with stream := f s.stream } { t with stream := f t.stream } := by
  obtain ⟨⟨req, hreq, rfl⟩, hs, hd⟩ := h
  exact ⟨⟨req, hreq, rfl⟩, hs, hd⟩

theorem Beside.advance (h : Beside a b s t) (n : Nat) : Beside a b (s.advance n) (t.advance n) :=
  h.map fun r => { r with unread := r.unread.drop n, avail := r.avail - n }

theorem Beside.setError (h : Beside a b s t) (errno : Int) : Beside a b (s.setError errno) (t.setError errno) :=
  h.map fun r => { r with errno := if r.errno = 0 then errno else r.errno, isClosed := true }

theorem Beside.setInbox (h : Beside a b s t) (i : Inbox) :
    Beside a b { s with req := s.req.setInbox i } { t with req := t.req.setInbox i } := by
  obtain ⟨⟨req, hreq, rfl⟩, hs, hd⟩ := h
  exact ⟨⟨req, hreq, rfl⟩, hs, hd⟩

theorem Beside.ahead (h : Beside a b s t) : t.ahead = s.ahead := by
  rw [Input.ahead, h.stream, h.inbox]
  rfl

theorem takeChar_beside (h : Beside a b s t) : Option.Rel (Agree (Beside a b)) (takeChar s) (takeChar t) := by
  unfold takeChar
  rw [h.stream]
  cases s.stream.unread with
  | nil => exact .none
  | cons c u => exact agree_some _ (h.advance 1)

theorem getChar_beside (hfill : FillsBeside fill) (h : Beside a b s t) :
    Option.Rel (Agree (Beside a b)) (getChar fill s) (getChar fill t) := by
  unfold getChar
  rw [h.stream]
  refine rel_ite (fun _ => agree_some _ h) fun _ => rel_ite (fun _ => takeChar_beside h) fun _ => ?_
  refine rel_bind (hfill a b s t h) ?_
  intro s' t' h'
  rw [h'.stream]
  exact rel_ite (fun _ => agree_some _ h') fun _ => rel_ite (fun _ => takeChar_beside h') fun _ => .none

theorem getStrLoop_beside (hfill : FillsBeside fill) (h : Beside a b s t) (fuel n : Nat) :
    Option.Rel (Agree (Beside a b)) (getStrLoop fill fuel n s) (getStrLoop fill fuel n t) := by
  induction fuel generalizing n s t with
  | zero => exact .none
  | succ fuel ih =>
    simp only [getStrLoop, h.stream]
    refine rel_ite (fun _ => agree_some _ (h.advance _)) fun _ => rel_ite (fun _ => agree_some _ (h.advance _)) fun _ => ?_
    refine rel_bind (hfill a b _ _ (h.advance _)) ?_
    intro s' t' h'
    simp only [h'.stream]
    refine rel_ite (fun _ => agree_some _ h') fun _ => ?_
    refine agree_bind (ih h' _) ?_
    intro rest s'' t'' h''
    exact agree_some _ h''

theorem getStr_beside (hfill : FillsBeside fill) (h : Beside a b s t) (n : Nat) :
    Option.Rel (Agree (Beside a b)) (getStr fill n s) (getStr fill n t) := by
  simp only [getStr, h.stream]
  refine rel_ite (fun _ => agree_some _ h) fun _ => rel_ite (fun _ => agree_some _ (h.advance n)) fun _ => ?_
  exact getStrLoop_beside hfill h (n + 2) n

theorem getLineLoop_beside (hfill : FillsBeside fill) (h : Beside a b s t) (n : Nat) :
    Option.Rel (Agree (Beside a b)) (getLineLoop fill n s) (getLineLoop fill n t) := by
  induction n generalizing s t with
  | zero => exact agree_some _ h
  | succ n ih =>
    refine agree_bind (getChar_beside hfill h) ?_
    intro c s' t' h'
    cases c with
    | none => exact agree_some _ h'
    | some c =>
      refine rel_ite (fun _ => agree_some _ h') fun _ => ?_
      refine agree_bind (ih h') ?_
      intro rest s'' t'' h''
      exact agree_some _ h''

theorem getLine_beside (hfill : FillsBeside fill) (h : Beside a b s t) (n : Nat) :
    Option.Rel (Agree (Beside a b)) (getLine fill n s) (getLine fill n t) := by
  refine agree_bind (getLineLoop_beside hfill h (n - 1)) ?_
  intro line s' t' h'
  exact agree_some _ h'

theorem readCall_beside (hfill : FillsBeside fill) (h : Beside a b s t) (call : ReadCall) :
    Option.Rel (Agree (Beside a b)) (call.run fill s) (call.run fill t) := by
  cases call with
  | getChar =>
    refine agree_bind (getChar_beside hfill h) ?_
    intro c s' t' h'
    exact agree_some _ h'
  | getStr n => exact getStr_beside hfill h n
  | getLine n =>
    refine agree_bind (getLine_beside hfill h n) ?_
    intro line s' t' h'
    exact agree_some _ h'

theorem readLength_beside (hfill : FillsBeside fill) (h : Beside a b s t) (first : Byte) :
    Option.Rel (Agree (Beside a b)) (readLength fill first s) (readLength fill first t) := by
  unfold readLength
  refine rel_ite (fun _ => ?_) fun _ => agree_some _ h
  refine agree_bind (getStr_beside hfill h 3) ?_
  intro lenBuff s' t' h'
  match lenBuff with
  | [b0, b1, b2] => exact agree_some _ h'
  | [] | [_] | [_, _] | _ :: _ :: _ :: _ :: _ => exact agree_some _ (h'.setError _)

theorem readExactly_beside (hfill : FillsBeside fill) (h : Beside a b s t) (n : Nat) :
    Option.Rel (Agree (Beside a b)) (readExactly fill n s) (readExactly fill n t) := by
  unfold readExactly
  refine agree_bind (getStr_beside hfill h n) ?_
  intro str s' t' h'
  exact rel_ite (fun _ => agree_some _ (h'.setError _)) fun _ => agree_some _ h'

theorem readNameValue_beside (hfill : FillsBeside fill) (h : Beside a b s t) (nameLen valueLen : Nat) :
    Option.Rel (Agree (Beside a b)) (readNameValue fill nameLen valueLen s) (readNameValue fill nameLen valueLen t) := by
  unfold readNameValue
  refine rel_ite (fun _ => .none) fun _ => ?_
  refine agree_bind (readExactly_beside hfill h nameLen) ?_
  intro name s' t' h'
  cases name with
  | none => exact agree_some _ h'
  | some name =>
    refine agree_bind (readExactly_beside hfill h' valueLen) ?_
    intro value s'' t'' h''
    cases value with
    | none => exact agree_some _ h''
    | some value => exact agree_some _ h''

theorem readParam_beside (hfill : FillsBeside fill) (h : Beside a b s t) :
    Option.Rel (Agree (Beside a b)) (readParam fill s) (readParam fill t) := by
  unfold readParam
  refine agree_bind (getChar_beside hfill h) ?_
  intro c s₁ t₁ h₁
  cases c with
  | none => exact agree_some _ h₁
  | some c =>
    refine agree_bind (readLength_beside hfill h₁ c) ?_
    intro nameLen s₂ t₂ h₂
    cases nameLen with
    | none => exact agree_some _ h₂
    | some nameLen =>
      refine agree_bind (getChar_beside hfill h₂) ?_
      intro c s₃ t₃ h₃
      cases c with
      | none => exact agree_some _ (h₃.setError _)
      | some c =>
        refine agree_bind (readLength_beside hfill h₃ c) ?_
        intro valueLen s₄ t₄ h₄
        cases valueLen with
        | none => exact agree_some _ h₄
        | some valueLen => exact readNameValue_beside hfill h₄ nameLen valueLen

theorem readParamsLoop_beside (hfill : FillsBeside fill) (h : Beside a b s t) (fuel : Nat) (p : Params) :
    Option.Rel (Agree fun p q => p.1 = q.1 ∧ Beside a b p.2 q.2) (readParamsLoop fill fuel p s) (readParamsLoop fill fuel p t) := by
  induction fuel generalizing p s t with
  | zero => exact .none
  | succ fuel ih =>
    refine agree_bind (readParam_beside hfill h) ?_
    intro param s' t' h'
    cases param with
    | eof => exact agree_some true ⟨rfl, h'⟩
    | failed => exact agree_some false ⟨rfl, h'⟩
    | found nameValue => exact ih h' _

theorem readParams_beside (hfill : FillsBeside fill) (h : Beside a b s t) (p : Params) :
    Option.Rel (Agree fun p q => p.1 = q.1 ∧ Beside a b p.2 q.2) (readParams fill p s) (readParams fill p t) := by
  rw [readParams, readParams, h.ahead]
  exact readParamsLoop_beside hfill h _ p

/-- A read of the connection does not look at what has been sent. -/
theorem refill_beside (h : Beside a b s t) : s.refill.1 = t.refill.1 ∧ Beside a b s.refill.2 t.refill.2 := by
  simp only [Input.refill, h.stream, h.inbox]
  by_cases hempty : s.stream.unread.isEmpty = true
  · simp only [if_pos hempty]
    have hin := h.setInbox (s.req.ipc.inbox.read s.stream.bufflen.len).2
    rw [h.stream] at hin
    by_cases hpiece : (s.req.ipc.inbox.read s.stream.bufflen.len).1.isEmpty = true
    · simp only [if_pos hpiece]
      exact ⟨trivial, hin.setError _⟩
    · simp only [if_neg hpiece]
      exact ⟨trivial, hin.map fun r => { r with unread := (s.req.ipc.inbox.read s.stream.bufflen.len).1 }⟩
  · simp only [if_neg hempty]
    exact ⟨trivial, h⟩

/-- Both passes return, or both go on with the same header. -/
inductive FilledBeside (a b : Text) : Filled → Filled → Prop where
  | returned {s t : Input} : Beside a b s t → FilledBeside a b (.returned s) (.returned t)
  | again {s t : Input} (header : Text) : Beside a b s t → FilledBeside a b (.again header s) (.again header t)

theorem afterHeader_beside (h : Beside a b s t) (status : Status) :
    FilledBeside a b (afterHeader status s) (afterHeader status t) := by
  have hopen := h.map fun r => { r with eorStop := false, isClosed := false }
  cases status with
  | streamRecord =>
    rw [h.stream] at hopen
    simp only [afterHeader, h.stream]
    by_cases hz : s.stream.contentLen = 0
    · rw [if_pos hz, if_pos hz]
      exact .returned (hopen.map fun r => { r with avail := 0, isClosed := true })
    · rw [if_neg hz, if_neg hz]
      exact .again _ hopen
  | skip => exact .again _ (hopen.map fun r => { r with skip := true })
  | beginRecord => exact .returned hopen
  | mgmtRecord => exact .again _ hopen
  | error code => exact .returned (hopen.setError code)

/-- The same header leads to the same status. -/
def ProcessesBeside (P : ProcessHeader) : Prop :=
  ∀ a b h s t, Beside a b s t → Option.Rel (Agree (Beside a b)) (P h s) (P h t)

variable {P : ProcessHeader}

theorem fillHeader_beside (hP : ProcessesBeside P) (h : Beside a b s t) (header : Text) :
    Option.Rel (FilledBeside a b) (fillHeader P header s) (fillHeader P header t) := by
  simp only [fillHeader, h.stream]
  have hrest := h.map fun r => { r with unread := r.unread.drop (min (headerLen - header.length) r.unread.length) }
  simp only [h.stream] at hrest
  refine rel_ite (fun _ => .some (.again _ hrest)) fun _ => ?_
  refine rel_bind (S := fun h h' => h = h') ?_ ?_
  · cases headerOf (header ++ s.stream.unread.take (min (headerLen - header.length) s.stream.unread.length)) with
    | none => exact .none
    | some hdr => exact .some rfl
  · rintro hdr _ rfl
    refine agree_bind (hP a b hdr _ _ (hrest.map fun r => { r with eorStop := true, avail := 0 })) ?_
    intro status s' t' h'
    exact .some (afterHeader_beside h' status)

theorem fillEor_beside (hP : ProcessesBeside P) (h : Beside a b s t) (header : Text) :
    Option.Rel (FilledBeside a b) (fillEor P header s) (fillEor P header t) := by
  unfold fillEor
  rw [h.stream]
  have hend := h.map fun r => { r with avail := 0, isClosed := true }
  rw [h.stream] at hend
  exact rel_ite (fun _ => .some (.returned hend)) fun _ => fillHeader_beside hP h header

theorem fillPadding_beside (hP : ProcessesBeside P) (h : Beside a b s t) (header : Text) :
    Option.Rel (FilledBeside a b) (fillPadding P header s) (fillPadding P header t) := by
  have hskip := h.map Reader.skipPadding
  rw [h.stream] at hskip
  simp only [fillPadding, h.stream]
  exact rel_ite (fun _ => .some (.again _ hskip)) fun _ => fillEor_beside hP hskip header

theorem fillContent_beside (hP : ProcessesBeside P) (h : Beside a b s t) (header : Text) :
    Option.Rel (FilledBeside a b) (fillContent P header s) (fillContent P header t) := by
  have hskip := h.map Reader.skipContent
  have hdeliver := h.map Reader.deliver
  rw [h.stream] at hskip hdeliver
  simp only [fillContent, h.stream]
  refine rel_ite (fun _ => .some (.returned hdeliver)) fun _ => ?_
  exact rel_ite (fun _ => .some (.again _ hskip)) fun _ => fillPadding_beside hP hskip header

theorem fillPass_beside (hP : ProcessesBeside P) (h : Beside a b s t) (header : Text) :
    Option.Rel (FilledBeside a b) (fillPass P header s) (fillPass P header t) := by
  obtain ⟨hmore, hrefill⟩ := refill_beside h
  unfold fillPass
  cases hs : s.refill with
  | mk more s' =>
    cases ht : t.refill with
    | mk more' t' =>
      rw [hs, ht] at hmore hrefill
      obtain rfl : more = more' := hmore
      cases more with
      | true => exact fillContent_beside hP hrefill header
      | false => exact .some (.returned hrefill)

theorem fillLoop_beside (hP : ProcessesBeside P) (h : Beside a b s t) (fuel : Nat) (header : Text) :
    Option.Rel (Beside a b) (fillLoop P fuel header s) (fillLoop P fuel header t) := by
  induction fuel generalizing header s t with
  | zero => exact .none
  | succ fuel ih =>
    refine rel_bind (fillPass_beside hP h header) ?_
    rintro _ _ (h' | ⟨header', h'⟩)
    · exact .some h'
    · exact ih h' header'

theorem fillWith_beside (hP : ProcessesBeside P) : FillsBeside (fillWith P) := by
  intro a b s t h
  rw [fillWith, fillWith, h.ahead]
  exact fillLoop_beside hP h _ []

theorem fillToEor_beside : FillsBeside fillToEor := fillWith_beside fun _ _ _ _ _ _ => .none

/-- An answer is sent by both. -/
theorem writeResponse_beside (h : Beside a b s t) (response : Text) (status : Status) :
    Agree (Beside a b) (writeResponse response status s) (writeResponse response status t) := by
  obtain ⟨⟨req, hreq, rfl⟩, hs, d, ha, hb⟩ := h
  have hout : (s.beside req).req.ipc.outbox = req.ipc.outbox := rfl
  rw [hout] at hb
  obtain ⟨o, hrun, hsent, ho⟩ := writeItAll_reliable hs response
  obtain ⟨o', hrun', hsent', ho'⟩ := writeItAll_reliable hreq response
  simp only [writeResponse, hrun, hout, hrun']
  refine ⟨rfl, ⟨req.setOutbox o', ho', rfl⟩, ho, d ++ response, ?_, ?_⟩
  · show o.sent = _
    rw [hsent, ha, List.append_assoc]
  · show o'.sent = _
    rw [hsent', hb, List.append_assoc]

theorem processManagementRecord_beside (h : Beside a b s t) (type : Byte) :
    Option.Rel (Agree (Beside a b)) (processManagementRecord type s) (processManagementRecord type t) := by
  unfold processManagementRecord
  refine rel_ite (fun _ => ?_) fun _ => .some (writeResponse_beside h _ _)
  refine agree_bind (readParams_beside fillToEor_beside h _) ?_
  rintro ok ⟨p, s'⟩ ⟨p', t'⟩ ⟨hp, h'⟩
  obtain rfl : p = p' := hp
  have hstack : t'.req.stack = s'.req.stack := by
    obtain ⟨⟨req, -, rfl⟩, -, -⟩ := h'
    rfl
  show Option.Rel _ (if s'.stream.errno ≠ 0 ∨ s'.stream.contentLen ≠ 0 then _ else _)
    (if t'.stream.errno ≠ 0 ∨ t'.stream.contentLen ≠ 0 then _ else _)
  rw [h'.stream, hstack]
  refine rel_ite (fun _ => agree_some _ h') fun _ => ?_
  cases answerValues p.vec [] with
  | none => exact .none
  | some answer => exact .some (writeResponse_beside h' _ _)

theorem readBeginBody_beside (h : Beside a b s t) :
    Option.Rel (Agree (Beside a b)) (readBeginBody s) (readBeginBody t) := by
  unfold readBeginBody
  refine agree_bind (getStr_beside fillToEor_beside h _) ?_
  intro body s' t' h'
  refine rel_ite (fun _ => agree_some _ h') fun _ => agree_some _ ?_
  obtain ⟨⟨req, hreq, rfl⟩, hs, hd⟩ := h'
  exact ⟨⟨req, hreq, rfl⟩, hs, hd⟩

theorem processBeginRecord_beside (h : Beside a b s t) (requestId : RequestId) :
    Option.Rel (Agree (Beside a b)) (processBeginRecord requestId s) (processBeginRecord requestId t) := by
  have hbegun : t.req.isBeginProcessed = s.req.isBeginProcessed := by
    obtain ⟨⟨req, -, rfl⟩, -, -⟩ := h
    rfl
  unfold processBeginRecord
  rw [h.stream, hbegun]
  refine rel_ite (fun _ => agree_some _ h) fun _ => rel_ite (fun _ => .some (writeResponse_beside h _ _)) fun _ => ?_
  refine readBeginBody_beside ?_
  obtain ⟨⟨req, hreq, rfl⟩, hs, hd⟩ := h
  exact ⟨⟨req, hreq, rfl⟩, hs, hd⟩

theorem processHeader_beside : ProcessesBeside processHeader := by
  intro a b hdr s t h
  have hid : t.req.requestId = s.req.requestId := by
    obtain ⟨⟨req, -, rfl⟩, -, -⟩ := h
    rfl
  have henter : Beside a b (s.enter hdr) (t.enter hdr) :=
    h.map fun r => { r with contentLen := hdr.contentLength, paddingLen := hdr.paddingLength.toNat }
  have hid' : (t.enter hdr).req.requestId = (s.enter hdr).req.requestId := hid
  unfold processHeader
  refine rel_ite (fun _ => agree_some _ h) fun _ => ?_
  simp only [hid', henter.stream]
  refine rel_ite (fun _ => processBeginRecord_beside henter _) fun _ => ?_
  refine rel_ite (fun _ => processManagementRecord_beside henter _) fun _ => ?_
  refine rel_ite (fun _ => agree_some _ henter) fun _ => ?_
  exact rel_ite (fun _ => agree_some _ henter) fun _ => agree_some _ henter

theorem fillBuffProc_beside : FillsBeside fillBuffProc := fillWith_beside processHeader_beside

/-- What a reader yields does not depend on what has been sent. -/
theorem source_beside (a b : Text) : Keeps (source fillBuffProc) (Beside a b) where
  wellFormed h hs := by
    show Input.Sound _
    rw [Input.Sound, h.stream]
    exact hs
  closed h := congrArg Reader.isClosed h.stream
  ready h := congrArg (fun r => r.unread.take r.avail) h.stream
  consume h n := h.advance n
  fill h := fillBuffProc_beside a b _ _ h

end Readers

/-- A call that reads, and the bytes that it returns. -/
def Work.read (w : Work) (c : ReadCall) : Option (Text × Work) := do
  let (str, i) ← c.run fillBuffProc ⟨w.input, w.output.req⟩
  some (str, ⟨i.stream, { w.output with req := i.req }⟩)

/-- Calls that read and calls that write in any order, and the bytes that are read. -/
def Work.converse : List (ReadCall ⊕ Call) → Work → Option (Text × Work)
  | [], w => some ([], w)
  | .inl c :: calls, w => do
    let (str, w) ← w.read c
    let (strs, w) ← Work.converse calls w
    some (str ++ strs, w)
  | .inr c :: calls, w => do
    let w ← w.call (.write c)
    Work.converse calls w

/-- The calls of these that read. -/
def readsOf (calls : List (ReadCall ⊕ Call)) : List ReadCall := calls.filterMap Sum.getLeft?

/-- The records that are not of the output. -/
def repliesOf (rs : List Record) : Text := (rs.filter fun r => !r.ofOutput).flatMap Record.bytes

/-- The work on a request that still yields these bytes: how the input will end, and the
answers that have been sent and those that are due. -/
structure Dialogue (start : Request) (errno : Int) (behind due : Text) (w : Work) (c : Text) (ms : List Message)
    (rs : List Record) : Prop where
  shares : Shares start w.output ms rs
  sound : Input.Sound ⟨w.input, w.output.req⟩
  reading : ∃ e d, Yields (source fillBuffProc) ⟨w.input, w.output.req⟩ c e ∧ e.stream.errno = errno ∧
    e.ahead = behind ∧ e.req.ipc.outbox.sent = w.output.sent ++ d ∧ repliesOf rs ++ d = due

section Conversing

variable {start : Request} {errno : Int} {behind due c : Text} {w : Work} {ms : List Message} {rs : List Record}

theorem repliesOf_append (rs rs' : List Record) : repliesOf (rs ++ rs') = repliesOf rs ++ repliesOf rs' := by
  rw [repliesOf, List.filter_append, List.flatMap_append]
  rfl

theorem repliesOf_messages (ms : List Message) (requestId : RequestId) :
    repliesOf (ms.map (Message.record requestId)) = [] := by
  have hnone : ((ms.map (Message.record requestId)).filter fun r => !r.ofOutput) = [] := by
    refine List.filter_eq_nil_iff.mpr ?_
    intro r hr
    obtain ⟨m, -, rfl⟩ := List.mem_map.mp hr
    simp [record_ofOutput]
  rw [repliesOf, hnone]
  rfl

theorem repliesOf_answers (h : rs.filter Record.ofOutput = []) : repliesOf rs = rs.flatMap Record.bytes := by
  have hall : (rs.filter fun r => !r.ofOutput) = rs := by
    refine List.filter_eq_self.mpr ?_
    intro r hr
    have hr' := List.filter_eq_nil_iff.mp h r hr
    simpa using hr'
  rw [repliesOf, hall]

/-- What has been sent is the beginning of what will have been sent. -/
theorem yields_answers {s e : Input} (h : Yields (source fillBuffProc) s c e) : Answers s.req e.req := by
  induction h with
  | closed _ => exact .refl _
  | ready _ _ _ ih => exact ih
  | fill _ _ hf _ _ _ ih => exact (fillBuffProc_answers _ _ hf).trans ih

/-- A write changes nothing that the reader looks at. -/
theorem call_beside {o o' : Output} {call : Call} (h : o.call call = some o') (hid : o'.req.requestId = o.req.requestId)
    (input : Reader) : (⟨input, o'.req⟩ : Input) = Input.beside ⟨input, o.req⟩ o'.req := by
  have hover := call_over o.fresh call o.req
  rw [fresh_over, h] at hover
  obtain ⟨o₀, -, rfl⟩ := Option.map_eq_some_iff.mp hover.symm
  simp only [Input.beside, ← hid]
  rfl

/-- After a write, whoever reads beside it goes on beside it. -/
theorem Beside.written {a b : Text} {o o' : Output} {call : Call} {input : Reader} {s : Input}
    (h : Beside a b ⟨input, o.req⟩ s) (hcall : o.call call = some o') (hid : o'.req.requestId = o.req.requestId)
    (ho : o'.req.ipc.outbox.Reliable) : Beside o'.sent s.req.ipc.outbox.sent ⟨input, o'.req⟩ s := by
  obtain ⟨⟨req, hreq, rfl⟩, -, -⟩ := h
  refine beside_of_eq (s := ⟨input, o'.req⟩) ho hreq ?_
  rw [call_beside hcall hid input]
  rfl

theorem Dialogue.write (h : Dialogue start errno behind due w c ms rs) {call : Call} (hfits : call.Fits) :
    ∃ w' ms', w.call (.write call) = some w' ∧
      Dialogue start errno behind due w' c (ms ++ ms') (rs ++ ms'.map (Message.record start.requestId)) := by
  obtain ⟨o', ms', hcall, hshares, -⟩ := h.shares.call hfits
  obtain ⟨e, d, hy, herrno, hahead, hsent, hdue⟩ := h.reading
  have hid : o'.req.requestId = w.output.req.requestId :=
    hshares.accounts.requestId.trans h.shares.accounts.requestId.symm
  have ho' : o'.req.ipc.outbox.Reliable := hshares.accounts.reliable
  have hbeside : Beside w.output.sent o'.sent ⟨w.input, w.output.req⟩ ⟨w.input, o'.req⟩ :=
    beside_of_eq (s := ⟨w.input, w.output.req⟩) (t := ⟨w.input, o'.req⟩) h.shares.accounts.reliable ho'
      (call_beside hcall hid w.input)
  obtain ⟨e', hy', he⟩ := (source_beside _ _).yields hy hbeside
  obtain ⟨d', hd, hd'⟩ := he.answers
  obtain rfl : d = d' := List.append_cancel_left (hsent.symm.trans hd)
  refine ⟨⟨w.input, o'⟩, ms', by rw [Work.call, hcall]; rfl, hshares, h.sound, e', d, hy', ?_, ?_, hd', ?_⟩
  · rw [he.stream]
    exact herrno
  · rw [he.ahead]
    exact hahead
  · rw [repliesOf_append, repliesOf_messages, List.append_nil]
    exact hdue

/-- A call that returns the next part of what the input yields. -/
theorem Dialogue.after (h : Dialogue start errno behind due w c ms rs) {call : ReadCall} {str c' : Text} {s' : Input}
    (hrun : call.run fillBuffProc ⟨w.input, w.output.req⟩ = some (str, s')) (hs' : s'.Sound)
    (hyields : ∀ e, Yields (source fillBuffProc) ⟨w.input, w.output.req⟩ c e → Yields (source fillBuffProc) s' c' e) :
    ∃ rs', Dialogue start errno behind due ⟨s'.stream, { w.output with req := s'.req }⟩ c' ms (rs ++ rs') := by
  obtain ⟨e, d, hy, herrno, hahead, hsent, hdue⟩ := h.reading
  have hy' := hyields e hy
  obtain ⟨rs', hshares⟩ := h.shares.read (readCall_answers fillBuffProc_answers hrun)
  have hnone : rs'.filter Record.ofOutput = [] := by
    have hrecords := hshares.records
    rw [List.filter_append, h.shares.records] at hrecords
    exact List.append_right_eq_self.mp hrecords
  have hmore : s'.req.ipc.outbox.sent = w.output.sent ++ rs'.flatMap Record.bytes := by
    have hsent' : s'.req.ipc.outbox.sent = _ := hshares.sent
    rw [hsent', h.shares.sent, List.flatMap_append, List.append_assoc]
  obtain ⟨-, ds, hds, -⟩ := (yields_answers hy').sent hshares.accounts.reliable
  have hd : d = rs'.flatMap Record.bytes ++ ds.flatMap Record.bytes := by
    rw [hds, hmore, List.append_assoc] at hsent
    exact (List.append_cancel_left hsent).symm
  refine ⟨rs', hshares, hs', e, ds.flatMap Record.bytes, hy', herrno, hahead, hds, ?_⟩
  rw [repliesOf_append, repliesOf_answers hnone, List.append_assoc, ← hd]
  exact hdue

theorem Dialogue.read (h : Dialogue start errno behind due w c ms rs) (call : ReadCall) :
    ∃ str c' w' rs', w.read call = some (str, w') ∧ c = str ++ c' ∧
      Dialogue start errno behind due w' c' ms (rs ++ rs') := by
  obtain ⟨e, d, hy, -⟩ := h.reading
  obtain ⟨str, c', s', hrun, hc, -, hs'⟩ := call.run_yields h.sound hy
  have hyields : ∀ e, Yields (source fillBuffProc) ⟨w.input, w.output.req⟩ c e → Yields (source fillBuffProc) s' c' e := by
    intro e' he'
    obtain ⟨str', c'', s'', hrun', hc', hy', -⟩ := call.run_yields h.sound he'
    obtain ⟨rfl, rfl⟩ := Prod.mk.inj (Option.some.inj (hrun.symm.trans hrun'))
    obtain rfl : c' = c'' := List.append_cancel_left (hc.symm.trans hc')
    exact hy'
  obtain ⟨rs', hd⟩ := h.after hrun hs' hyields
  exact ⟨str, c', _, rs', by rw [Work.read, hrun]; rfl, hc, hd⟩

/-- Any calls in a row. -/
theorem Dialogue.converse (h : Dialogue start errno behind due w c ms rs) {calls : List (ReadCall ⊕ Call)}
    (hfits : ∀ call, .inr call ∈ calls → call.Fits) :
    ∃ str c' w' ms' rs', Work.converse calls w = some (str, w') ∧ c = str ++ c' ∧
      Dialogue start errno behind due w' c' ms' rs' := by
  induction calls generalizing w c ms rs with
  | nil => exact ⟨[], c, w, ms, rs, rfl, rfl, h⟩
  | cons call calls ih =>
    have hrest : ∀ call, .inr call ∈ calls → call.Fits := fun call hm => hfits call (List.mem_cons_of_mem _ hm)
    cases call with
    | inl call =>
      obtain ⟨str, c₁, w₁, rs₁, hread, rfl, h₁⟩ := h.read call
      obtain ⟨strs, c₂, w₂, ms₂, rs₂, hrun, rfl, h₂⟩ := ih h₁ hrest
      exact ⟨str ++ strs, c₂, w₂, ms₂, rs₂, by simp [Work.converse, hread, hrun], by rw [List.append_assoc], h₂⟩
    | inr call =>
      obtain ⟨w₁, ms₁, hwrite, h₁⟩ := h.write (hfits call List.mem_cons_self)
      obtain ⟨str, c₂, w₂, ms₂, rs₂, hrun, hc, h₂⟩ := ih h₁ hrest
      exact ⟨str, c₂, w₂, ms₂, rs₂, by simp [Work.converse, hwrite, hrun], hc, h₂⟩

/-- The calls that read return the same, and leave the same stream, where nothing is written. -/
theorem Dialogue.reads (h : Dialogue start errno behind due w c ms rs) {calls : List (ReadCall ⊕ Call)}
    (hfits : ∀ call, .inr call ∈ calls → call.Fits) {str : Text} {w' : Work}
    (hrun : Work.converse calls w = some (str, w')) {a b : Text} {s : Input}
    (hbeside : Beside a b ⟨w.input, w.output.req⟩ s) :
    ∃ s', readCalls fillBuffProc (readsOf calls) s = some (str, s') ∧ s'.stream = w'.input := by
  induction calls generalizing w c ms rs str a b s with
  | nil =>
    obtain ⟨rfl, rfl⟩ := Prod.mk.inj (Option.some.inj hrun)
    exact ⟨s, rfl, hbeside.stream⟩
  | cons call calls ih =>
    have hrest : ∀ call, .inr call ∈ calls → call.Fits := fun call hm => hfits call (List.mem_cons_of_mem _ hm)
    cases call with
    | inl call =>
      obtain ⟨str₁, c₁, w₁, rs₁, hread, -, h₁⟩ := h.read call
      rw [Work.converse, hread] at hrun
      change (Work.converse calls w₁).bind _ = _ at hrun
      obtain ⟨⟨strs, w₂⟩, hrun₂, heq⟩ := Option.bind_eq_some_iff.mp hrun
      obtain ⟨rfl, rfl⟩ := Prod.mk.inj (Option.some.inj heq)
      obtain ⟨⟨str₂, i⟩, hi, heq⟩ := Option.bind_eq_some_iff.mp hread
      obtain ⟨rfl, rfl⟩ := Prod.mk.inj (Option.some.inj heq)
      obtain ⟨⟨str₃, s₁⟩, hs₁, hsame, hbeside₁⟩ := exists_of_rel (readCall_beside fillBuffProc_beside hbeside call) hi
      obtain rfl : str₂ = str₃ := hsame
      obtain ⟨s', hs', hstream⟩ := ih h₁ hrest hrun₂ hbeside₁
      refine ⟨s', ?_, hstream⟩
      simp only [readsOf] at hs'
      simp [readsOf, readCalls, hs₁, hs']
    | inr call =>
      obtain ⟨w₁, ms₁, hwrite, h₁⟩ := h.write (hfits call List.mem_cons_self)
      rw [Work.converse, hwrite] at hrun
      obtain ⟨o', hcall, heq⟩ := Option.bind_eq_some_iff.mp hwrite
      obtain rfl := Option.some.inj heq
      have hid : o'.req.requestId = w.output.req.requestId :=
        h₁.shares.accounts.requestId.trans h.shares.accounts.requestId.symm
      exact ih h₁ hrest hrun (hbeside.written hcall hid h₁.shares.accounts.reliable)

/-- The input has been read to its end. -/
theorem Dialogue.closed (h : Dialogue start errno behind due w c ms rs) (hc : w.input.isClosed = true) :
    c = [] ∧ w.input.errno = errno ∧ Input.ahead ⟨w.input, w.output.req⟩ = behind ∧ repliesOf rs = due := by
  obtain ⟨e, d, hy, herrno, hahead, hsent, hdue⟩ := h.reading
  obtain ⟨rfl, rfl⟩ := hy.eq_nil_of_closed hc
  have hd : d = [] := List.append_right_eq_self.mp hsent.symm
  rw [hd, List.append_nil] at hdue
  exact ⟨rfl, herrno, hahead, hdue⟩

end Conversing

section Requests

variable {r : Reader} {req : Request} {type : Byte} {rs : List Record} {last : Record} {more : Text}

theorem dialogue_start (hbegun : req.isBeginProcessed = true) (ho : req.ipc.outbox.Reliable)
    (hrs : ∀ q ∈ rs, Passing type req.requestId q) (hlast : last.EndsStream type req.requestId)
    (htext : r.unread ++ req.ipc.inbox.bytes = rs.flatMap Record.bytes ++ (last.bytes ++ more)) (outLen errLen : BuffLen) :
    Dialogue req r.errno (last.padding ++ more) (rs.flatMap Record.response) ⟨r.setType type, startOutput req outLen errLen⟩
      (givenOf req.requestId false rs) [] [] := by
  have hbegun' : (startOutput req outLen errLen).req.isBeginProcessed = true := hbegun
  obtain ⟨e, hy, -, herrno, hahead, hsent⟩ := stream_yields hbegun' (fun _ => ho) hrs hlast htext
  exact ⟨.initial ho hbegun outLen errLen, sound_setType _ _ _, e, _, hy, herrno, hahead, hsent, rfl⟩

/-- What has been set up to write is nothing to the reader. -/
theorem startOutput_beside (ho : req.ipc.outbox.Reliable) (outLen errLen : BuffLen) :
    Beside req.ipc.outbox.sent req.ipc.outbox.sent ⟨r, (startOutput req outLen errLen).req⟩ ⟨r, req⟩ :=
  beside_of_eq (s := ⟨r, (startOutput req outLen errLen).req⟩) (t := ⟨r, req⟩) ho ho rfl

/-- Calls that read and calls that write and fit all return, in any order. What is read is what
is read without the writes, to the same state of the stream, and what is written is sent as without the reads: the
answers of the reader stand between the records of the output, in their order, and all
of them once the input is closed. -/
theorem reading_undisturbed (hbegun : req.isBeginProcessed = true) (ho : req.ipc.outbox.Reliable)
    (hrs : ∀ q ∈ rs, Passing type req.requestId q) (hlast : last.EndsStream type req.requestId)
    (htext : r.unread ++ req.ipc.inbox.bytes = rs.flatMap Record.bytes ++ (last.bytes ++ more))
    (calls : List (ReadCall ⊕ Call)) (hfits : ∀ call, .inr call ∈ calls → call.Fits) (outLen errLen : BuffLen) :
    ∃ (str : Text) (w : Work) (ms : List Message) (sent : List Record),
      Work.converse calls ⟨r.setType type, startOutput req outLen errLen⟩ = some (str, w) ∧
      (∃ s, readCalls fillBuffProc (readsOf calls) ⟨r.setType type, req⟩ = some (str, s) ∧ s.stream = w.input) ∧
      str <+: givenOf req.requestId false rs ∧
      w.output.sent = req.ipc.outbox.sent ++ sent.flatMap Record.bytes ∧
      sent.filter Record.ofOutput = ms.map (Message.record req.requestId) ∧
      (∀ s, contentOf s ms ++ (w.output.writer s).content = w.output.written s) ∧
      repliesOf sent <+: rs.flatMap Record.response ∧
      (w.input.isClosed = true → str = givenOf req.requestId false rs ∧ w.input.errno = r.errno ∧
        Input.ahead ⟨w.input, w.output.req⟩ = last.padding ++ more ∧ repliesOf sent = rs.flatMap Record.response) := by
  have hstart := dialogue_start hbegun ho hrs hlast htext outLen errLen
  obtain ⟨str, c, w, ms, sent, hrun, hc, h⟩ := hstart.converse hfits
  have hreads := hstart.reads hfits hrun (startOutput_beside ho outLen errLen)
  refine ⟨str, w, ms, sent, hrun, hreads, ⟨c, hc.symm⟩, h.shares.sent, h.shares.records, h.shares.content, ?_, ?_⟩
  · obtain ⟨e, d, -, -, -, -, hdue⟩ := h.reading
    exact ⟨d, hdue⟩
  · intro hclosed
    obtain ⟨rfl, herrno, hahead, hdue⟩ := h.closed hclosed
    rw [List.append_nil] at hc
    exact ⟨hc.symm, herrno, hahead, hdue⟩

/-- A line is read, some output is written, and the rest is read. -/
theorem reading_undisturbed_shared :
    ∃ (str : Text) (w : Work) (ms : List Message) (sent : List Record),
      Work.converse [.inl (.getLine 4), .inr (.putStr .out (text "ok")), .inl (.getStr 100)]
        ⟨(newReader (newBuffLen 8192 false) params).setType stdin,
          startOutput (requestWith (sharedRecords.flatMap Record.bytes ++ (sharedEnd.bytes ++ [])))
            (newBuffLen 8192 false) (newBuffLen 512 false)⟩ = some (str, w) ∧
      (∃ s, readCalls fillBuffProc [.getLine 4, .getStr 100]
        ⟨(newReader (newBuffLen 8192 false) params).setType stdin,
          requestWith (sharedRecords.flatMap Record.bytes ++ (sharedEnd.bytes ++ []))⟩ = some (str, s) ∧
        s.stream = w.input) ∧
      str <+: text "name=value" ∧ w.output.sent = [] ++ sent.flatMap Record.bytes ∧
      sent.filter Record.ofOutput = ms.map (Message.record thisRequest) ∧
      (w.input.isClosed = true → repliesOf sent = endRequestBytes ⟨3, by decide⟩ 0 cantMpxConn) := by
  obtain ⟨str, w, ms, sent, hrun, hreads, hstr, hsent, hrecords, -, -, hend⟩ := reading_undisturbed
    (r := newReader (newBuffLen 8192 false) params) rfl
    (requestWith_reliable (sharedRecords.flatMap Record.bytes ++ (sharedEnd.bytes ++ []))) sharedRecords_passing
    sharedEnd_ends rfl [.inl (.getLine 4), .inr (.putStr .out (text "ok")), .inl (.getStr 100)]
    (fun call hm => by simp at hm; subst hm; trivial) (newBuffLen 8192 false) (newBuffLen 512 false)
  exact ⟨str, w, ms, sent, hrun, hreads, hstr, hsent, hrecords, fun hc => (hend hc).2.2.2⟩

end Requests

end Libfcgi
