import Altumo.FastCgi.Lifecycle

/-!
# Echo and log

What has gone to the peer of a Session is what the Session has read, except for the
rest of the chunk whose write is outstanding or has failed. While that write is
outstanding the array keeps the chunk. The log is the chunks of all Sessions in the
order in which they were read.
-/

namespace FastCgi

open CString Transition

/-- The chunks that a Session has read. -/
def History.chunksOf (h : History) (id : SessionId) : List Text := (h.reads.filter fun r => r.1 = id).map Prod.snd

/-- Everything that was read has gone out. -/
structure Idle (h : History) (id : SessionId) : Prop where
  sent : h.sent id = (h.chunksOf id).flatten
  echoed : h.echoed id = h.sent id

/-- All chunks before the last one have been echoed, and `sent` bytes of the last one have gone out. -/
structure Writing (h : History) (id : SessionId) (before : List Text) (chunk : Text) (sent : Nat) : Prop where
  chunks : h.chunksOf id = before ++ [chunk]
  sent_le : sent ≤ chunk.length
  sent : h.sent id = before.flatten ++ chunk.take sent
  echoed : h.echoed id = before.flatten

/-- The history of a Session fits its outstanding operation. -/
structure SessionEcho (w : World) (id : SessionId) : Prop where
  waiting : (id, .accept) ∈ w.pending ∨ (id, .read) ∈ w.pending → Idle w.history id
  writing : ∀ length sent, (id, .write length sent) ∈ w.pending → ∃ session before chunk,
    w.sessions id = some session ∧ Writing w.history id before chunk sent ∧ chunk.length = length ∧
      session.data_.bytes.take length = chunk
  stopped : ¬ w.Live id → Idle w.history id ∨
    id ∈ w.history.failedWrites ∧ ∃ before chunk sent, Writing w.history id before chunk sent

structure Echo (log : Text) (w : World) : Prop where
  sessions : ∀ id, SessionEcho w id
  failed_deleted : ∀ id ∈ w.history.failedWrites, id ∈ w.history.deleted
  log : w.log = log ++ (w.history.reads.map Prod.snd).flatten

/-- Nothing about a Session has changed. -/
structure SameAt (w w' : World) (id : SessionId) : Prop where
  pending : ∀ op, (id, op) ∈ w'.pending ↔ (id, op) ∈ w.pending
  sessions : w'.sessions id = w.sessions id
  chunks : w'.history.chunksOf id = w.history.chunksOf id
  sent : w'.history.sent id = w.history.sent id
  echoed : w'.history.echoed id = w.history.echoed id
  failed : id ∈ w.history.failedWrites → id ∈ w'.history.failedWrites

section
variable {w w' : World} {id : SessionId}

theorem Idle.congr {h h' : History} (hi : Idle h id) (hc : h'.chunksOf id = h.chunksOf id)
    (hs : h'.sent id = h.sent id) (he : h'.echoed id = h.echoed id) : Idle h' id :=
  ⟨by rw [hs, hc, hi.sent], by rw [he, hs, hi.echoed]⟩

theorem Writing.congr {h h' : History} {before : List Text} {chunk : Text} {sent : Nat}
    (hw : Writing h id before chunk sent) (hc : h'.chunksOf id = h.chunksOf id)
    (hs : h'.sent id = h.sent id) (he : h'.echoed id = h.echoed id) : Writing h' id before chunk sent :=
  ⟨by rw [hc, hw.chunks], hw.sent_le, by rw [hs, hw.sent], by rw [he, hw.echoed]⟩

theorem SessionEcho.frame (h : SessionEcho w id) (hs : SameAt w w' id) : SessionEcho w' id := by
  refine ⟨?_, ?_, ?_⟩
  · intro hop
    rw [hs.pending, hs.pending] at hop
    exact (h.waiting hop).congr hs.chunks hs.sent hs.echoed
  · intro length sent hop
    rw [hs.pending] at hop
    obtain ⟨session, before, chunk, hsession, hw, hlen, hdata⟩ := h.writing length sent hop
    exact ⟨session, before, chunk, by rw [hs.sessions, hsession], hw.congr hs.chunks hs.sent hs.echoed, hlen, hdata⟩
  · intro hl
    rw [World.Live, hs.sessions] at hl
    rcases h.stopped hl with hi | ⟨hf, before, chunk, sent, hw⟩
    · exact .inl (hi.congr hs.chunks hs.sent hs.echoed)
    · exact .inr ⟨hs.failed hf, before, chunk, sent, hw.congr hs.chunks hs.sent hs.echoed⟩

theorem chunksOf_append (h : History) (id' : SessionId) (chunk : Text) :
    History.chunksOf { h with reads := h.reads ++ [(id', chunk)] } id =
      h.chunksOf id ++ if id' = id then [chunk] else [] := by
  simp only [History.chunksOf, List.filter_append, List.map_append]
  by_cases he : id' = id
  · simp [he]
  · simp [he]

theorem SameAt.trans {v : World} (h : SameAt w v id) (h' : SameAt v w' id) : SameAt w w' id where
  pending op := (h'.pending op).trans (h.pending op)
  sessions := h'.sessions.trans h.sessions
  chunks := h'.chunks.trans h.chunks
  sent := h'.sent.trans h.sent
  echoed := h'.echoed.trans h.echoed
  failed hf := h'.failed (h.failed hf)

variable {other : SessionId}

theorem sameAt_finish (hne : id ≠ other) (op : Operation) : SameAt w (w.finish other op) id :=
  ⟨fun _ => OneEach.mem_erase_of_ne hne, rfl, rfl, rfl, rfl, fun hf => hf⟩

theorem sameAt_start (hne : id ≠ other) (op : Operation) : SameAt w (w.start other op) id := by
  refine ⟨fun op' => ?_, rfl, rfl, rfl, rfl, fun hf => hf⟩
  simp [World.start, hne]

theorem sameAt_delete (hne : id ≠ other) : SameAt w (w.delete other) id :=
  ⟨fun _ => Iff.rfl, Function.update_of_ne hne _ _, rfl, rfl, rfl, fun hf => hf⟩

theorem sameAt_create (hne : id ≠ w.nextSession) (data : Buffer maxLength) : SameAt w (w.create data) id :=
  ⟨fun _ => Iff.rfl, Function.update_of_ne hne _ _, rfl, rfl, rfl, fun hf => hf⟩

theorem sameAt_print (session : Session) (n : Nat) : SameAt w (w.print session n) id :=
  ⟨fun _ => Iff.rfl, rfl, rfl, rfl, rfl, fun hf => hf⟩

theorem sameAt_deposit (hne : id ≠ other) (session : Session) (chunk : Text) :
    SameAt w (w.deposit other session chunk) id := by
  refine ⟨fun _ => Iff.rfl, Function.update_of_ne hne _ _, ?_, rfl, rfl, fun hf => hf⟩
  simp [World.deposit, chunksOf_append, Ne.symm hne]

theorem sameAt_transmit (hne : id ≠ other) (session : Session) (sent count : Nat) :
    SameAt w (w.transmit other session sent count) id :=
  ⟨fun _ => Iff.rfl, rfl, rfl, Function.update_of_ne hne _ _, rfl, fun hf => hf⟩

theorem sameAt_noteEchoed (hne : id ≠ other) : SameAt w (w.noteEchoed other) id :=
  ⟨fun _ => Iff.rfl, rfl, rfl, rfl, Function.update_of_ne hne _ _, fun hf => hf⟩

theorem sameAt_noteFailed : SameAt w (w.noteFailed other) id :=
  ⟨fun _ => Iff.rfl, rfl, rfl, rfl, rfl, fun hf => List.mem_append_left _ hf⟩

/-- A Session that awaits an accept or a read. -/
theorem SessionEcho.of_idle (ho : OneEach w.pending w.Live) {op : Operation} (hm : (id, op) ∈ w.pending)
    (hop : op = .accept ∨ op = .read) (hi : Idle w.history id) : SessionEcho w id := by
  refine ⟨fun _ => hi, ?_, fun hn => absurd (ho.live_of_mem hm) hn⟩
  intro length sent hw
  have he := ho.unique hm hw
  rcases hop with rfl | rfl <;> cases he

theorem SessionEcho.of_writing (ho : OneEach w.pending w.Live) {length sent : Nat}
    (hm : (id, .write length sent) ∈ w.pending) {session : Session} {before : List Text} {chunk : Text}
    (hs : w.sessions id = some session) (hw : Writing w.history id before chunk sent)
    (hlen : chunk.length = length) (hdata : session.data_.bytes.take length = chunk) : SessionEcho w id := by
  refine ⟨?_, ?_, fun hn => absurd ⟨session, hs⟩ hn⟩
  · rintro (ha | hr)
    · cases ho.unique hm ha
    · cases ho.unique hm hr
  · intro length' sent' hm'
    cases ho.unique hm hm'
    exact ⟨session, before, chunk, hs, hw, hlen, hdata⟩

/-- A Session that has been deleted. -/
theorem SessionEcho.of_stopped (ho : OneEach w.pending w.Live) (hn : ¬ w.Live id)
    (hi : Idle w.history id ∨
      id ∈ w.history.failedWrites ∧ ∃ before chunk sent, Writing w.history id before chunk sent) :
    SessionEcho w id := by
  have hno : ∀ op, (id, op) ∉ w.pending := fun op hm => hn (ho.live_of_mem hm)
  refine ⟨?_, fun length sent hm => absurd hm (hno _), fun _ => hi⟩
  rintro (ha | hr)
  · exact absurd ha (hno _)
  · exact absurd hr (hno _)

theorem not_live_delete : ¬ (w.delete id).Live id := fun h => ((live_delete id).mp h).2 rfl

theorem mem_start (op : Operation) : (id, op) ∈ (w.start id op).pending :=
  List.mem_append_right _ (List.mem_singleton_self _)

/-- Nothing has happened to the Session that is created next. -/
theorem Echo.idle_next {log : Text} (h : Echo log w) (hl : Lifecycle w) : Idle w.history w.nextSession := by
  rcases (h.sessions w.nextSession).stopped hl.accounted.next_not_live with hi | ⟨hf, -⟩
  · exact hi
  · have hlt := (hl.accounted.created w.nextSession).mpr (.inr (h.failed_deleted _ hf))
    exact absurd hlt (Nat.lt_irrefl _)

/-- Bytes that go out from an array that holds the chunk continue the chunk. -/
theorem take_transmit {data chunk : Text} {length sent count : Nat} (hdata : data.take length = chunk)
    (hle : sent + count ≤ length) : chunk.take sent ++ (data.drop sent).take count = chunk.take (sent + count) := by
  rw [List.take_add, ← hdata, List.drop_take, List.take_take, List.take_take, Nat.min_eq_left (by omega),
    Nat.min_eq_left (by omega)]

/-- A new Session is created for the next accept after the others are in order. -/
theorem echo_startAccept {data : Buffer maxLength} (hl : Lifecycle (Server.startAccept data w))
    (hidle : Idle w.history w.nextSession) (h : ∀ id, id ≠ w.nextSession → SessionEcho w id) (id : SessionId) :
    SessionEcho (Server.startAccept data w) id := by
  by_cases hid : id = w.nextSession
  · subst hid
    exact SessionEcho.of_idle hl.operations (mem_start _) (.inl rfl) hidle
  · exact (h id hid).frame ((sameAt_create hid data).trans (sameAt_start hid .accept))

theorem Echo.accepted {log : Text} (h : Echo log w) (hl : Lifecycle w) (hm : (id, .accept) ∈ w.pending)
    (data : Buffer maxLength) (hl' : Lifecycle (Server.startAccept data ((w.finish id .accept).start id .read))) :
    Echo log (Server.startAccept data ((w.finish id .accept).start id .read)) := by
  have hidle := (h.sessions id).waiting (.inl hm)
  refine ⟨echo_startAccept hl' (h.idle_next hl) fun id' _ => ?_, h.failed_deleted, h.log⟩
  by_cases hid : id' = id
  · subst hid
    obtain ⟨hlive, ho⟩ := hl.finish hm
    exact SessionEcho.of_idle (OneEach.restart ho hlive (fun _ => Iff.rfl) .read) (mem_start _) (.inr rfl) hidle
  · exact (h.sessions id').frame ((sameAt_finish hid .accept).trans (sameAt_start hid .read))

theorem Echo.acceptFailed {log : Text} (h : Echo log w) (hl : Lifecycle w) (hm : (id, .accept) ∈ w.pending)
    (data : Buffer maxLength) (hl' : Lifecycle (Server.startAccept data ((w.finish id .accept).delete id))) :
    Echo log (Server.startAccept data ((w.finish id .accept).delete id)) := by
  have hidle := (h.sessions id).waiting (.inl hm)
  refine ⟨echo_startAccept hl' ((h.idle_next hl).congr rfl rfl rfl) fun id' _ => ?_, ?_, h.log⟩
  · by_cases hid : id' = id
    · subst hid
      obtain ⟨-, ho⟩ := hl.finish hm
      exact SessionEcho.of_stopped (ho.congr fun _ => live_delete _) not_live_delete (.inl (hidle.congr rfl rfl rfl))
    · exact (h.sessions id').frame ((sameAt_finish hid .accept).trans (sameAt_delete hid))
  · exact fun id' hf => List.mem_append_left _ (h.failed_deleted id' hf)

/-- After an event at one Session only that Session has to be looked at. -/
theorem Echo.of_session {log : Text} (h : Echo log w) (self : SessionId) (hself : SessionEcho w' self)
    (hother : ∀ id, id ≠ self → SameAt w w' id)
    (hfailed : ∀ id ∈ w'.history.failedWrites, id ∈ w'.history.deleted)
    (hlog : w'.log = log ++ (w'.history.reads.map Prod.snd).flatten) : Echo log w' := by
  refine ⟨fun id => ?_, hfailed, hlog⟩
  by_cases he : id = self
  · rw [he]
    exact hself
  · exact (h.sessions id).frame (hother id he)

/-- A chunk is read, logged, and begins to be written. -/
theorem Echo.received {log : Text} (h : Echo log w) (hm : (id, .read) ∈ w.pending) {session : Session}
    {chunk : Text} (hle : chunk.length ≤ maxLength)
    (hl' : Lifecycle ((((w.finish id .read).deposit id session chunk).print ⟨session.data_.fill chunk⟩
      chunk.length).start id (.write chunk.length 0))) :
    Echo log ((((w.finish id .read).deposit id session chunk).print ⟨session.data_.fill chunk⟩
      chunk.length).start id (.write chunk.length 0)) := by
  have hidle := (h.sessions id).waiting (.inr hm)
  have hw : Writing (((w.finish id .read).deposit id session chunk).history) id
      (w.history.chunksOf id) chunk 0 :=
    ⟨by simp [World.deposit, World.finish, chunksOf_append], Nat.zero_le _,
      by rw [List.take_zero, List.append_nil]; exact hidle.sent, hidle.echoed.trans hidle.sent⟩
  refine h.of_session id ?_ (fun id' hid => ?_) h.failed_deleted ?_
  · exact SessionEcho.of_writing hl'.operations (mem_start _) (Function.update_self ..) hw rfl
      (fill_bytes_take _ hle)
  · exact (((sameAt_finish hid .read).trans (sameAt_deposit hid session chunk)).trans
      (sameAt_print _ _)).trans (sameAt_start hid _)
  · show w.log ++ (session.data_.fill chunk).bytes.take chunk.length = _
    rw [fill_bytes_take _ hle, h.log]
    simp [World.start, World.print, World.deposit, World.finish]

theorem Echo.readFailed {log : Text} (h : Echo log w) (hm : (id, .read) ∈ w.pending)
    (hl' : Lifecycle ((w.finish id .read).delete id)) : Echo log ((w.finish id .read).delete id) := by
  have hidle := (h.sessions id).waiting (.inr hm)
  refine h.of_session id ?_ (fun id' hid => (sameAt_finish hid .read).trans (sameAt_delete hid))
    (fun id' hf => List.mem_append_left _ (h.failed_deleted id' hf)) h.log
  exact SessionEcho.of_stopped hl'.operations not_live_delete (.inl (hidle.congr rfl rfl rfl))

/-- Some more bytes of the array go out. -/
theorem Echo.progressed {log : Text} (h : Echo log w) {length sent count : Nat}
    (hm : (id, .write length sent) ∈ w.pending) (hle : sent + count ≤ length) {session : Session}
    (hs : w.sessions id = some session)
    (hl' : Lifecycle (((w.finish id (.write length sent)).transmit id session sent count).start id
      (.write length (sent + count)))) :
    Echo log (((w.finish id (.write length sent)).transmit id session sent count).start id
      (.write length (sent + count))) := by
  obtain ⟨session', before, chunk, hs', hw, hlen, hdata⟩ := (h.sessions id).writing length sent hm
  rw [hs] at hs'
  cases hs'
  refine h.of_session id ?_ (fun id' hid => ?_) h.failed_deleted h.log
  · refine SessionEcho.of_writing hl'.operations (mem_start _) hs ⟨hw.chunks, by omega, ?_, hw.echoed⟩ hlen hdata
    rw [← take_transmit hdata hle, ← List.append_assoc, ← hw.sent]
    exact Function.update_self ..
  · exact ((sameAt_finish hid _).trans (sameAt_transmit hid session sent count)).trans (sameAt_start hid _)

/-- All bytes of the chunk have gone out. -/
theorem Writing.finish {h : History} {before : List Text} {chunk : Text} {sent : Nat}
    (hw : Writing h id before chunk sent) (he : sent = chunk.length) :
    h.sent id = (h.chunksOf id).flatten := by
  rw [hw.sent, hw.chunks, he, List.take_length]
  simp

theorem Echo.written {log : Text} (h : Echo log w) {length : Nat} (hm : (id, .write length length) ∈ w.pending)
    (hl' : Lifecycle (((w.finish id (.write length length)).noteEchoed id).start id .read)) :
    Echo log (((w.finish id (.write length length)).noteEchoed id).start id .read) := by
  obtain ⟨session, before, chunk, hs, hw, hlen, hdata⟩ := (h.sessions id).writing length length hm
  refine h.of_session id ?_ (fun id' hid => ?_) h.failed_deleted h.log
  · exact SessionEcho.of_idle hl'.operations (mem_start _) (.inr rfl)
      ⟨hw.finish hlen.symm, Function.update_self ..⟩
  · exact ((sameAt_finish hid _).trans (sameAt_noteEchoed hid)).trans (sameAt_start hid _)

theorem Echo.writeFailed {log : Text} (h : Echo log w) {length sent : Nat}
    (hm : (id, .write length sent) ∈ w.pending)
    (hl' : Lifecycle (((w.finish id (.write length sent)).noteFailed id).delete id)) :
    Echo log (((w.finish id (.write length sent)).noteFailed id).delete id) := by
  obtain ⟨session, before, chunk, hs, hw, hlen, hdata⟩ := (h.sessions id).writing length sent hm
  refine h.of_session id ?_ (fun id' hid => ?_) (fun id' hf => ?_) h.log
  · have hfailed : id ∈ w.history.failedWrites ++ [id] := List.mem_append_right _ (List.mem_singleton_self _)
    refine SessionEcho.of_stopped hl'.operations not_live_delete (.inr ⟨hfailed, before, chunk, sent, ?_⟩)
    exact ⟨hw.chunks, hw.sent_le, hw.sent, hw.echoed⟩
  · exact ((sameAt_finish hid _).trans sameAt_noteFailed).trans (sameAt_delete hid)
  · rcases List.mem_append.mp hf with hf | hf
    · exact List.mem_append_left _ (h.failed_deleted id' hf)
    · exact List.mem_append_right _ hf

theorem Echo.complete {log : Text} (h : Echo log w) (hl : Lifecycle w) {c : Completion} (he : enabled w c)
    (hn : FastCgi.complete w c = some w') : Echo log w' := by
  have hl' := hl.complete he hn
  cases hl.step he hn with
  | accepted data hm hlive => exact h.accepted hl hm data hl'
  | acceptFailed data hm hlive => exact h.acceptFailed hl hm data hl'
  | received hm hs hle => exact h.received hm hle hl'
  | readFailed hm hlive => exact h.readFailed hm hl'
  | progressed hm hs hle => exact h.progressed hm hle hs hl'
  | written hm hlive => exact h.written hm hl'
  | writeFailed hm hlive => exact h.writeFailed hm hl'

/-- A Session that is deleted is gone, and no other one is touched. -/
theorem sessions_delete (id other : SessionId) :
    (w.delete other).sessions id = w.sessions id ∨ (w.delete other).sessions id = none := by
  by_cases ho : id = other
  · subst ho
    exact .inr (Function.update_self ..)
  · exact .inl (Function.update_of_ne ho _ _)

/-- The array of a Session changes only when the Session reads. -/
theorem Lifecycle.unread (hl : Lifecycle w) {c : Completion} (he : enabled w c)
    (hn : FastCgi.complete w c = some w') (hid : id < w.nextSession) (hc : ∀ chunk, c ≠ .received id chunk) :
    w'.sessions id = w.sessions id ∨ w'.sessions id = none := by
  have hcreate : ∀ (v : World) (data : Buffer maxLength), v.nextSession = w.nextSession →
      (Server.startAccept data v).sessions id = v.sessions id :=
    fun v data hv => Function.update_of_ne (hv ▸ Nat.ne_of_lt hid) _ _
  cases hl.step he hn with
  | accepted data hm hlive => exact .inl (hcreate _ data rfl)
  | @acceptFailed other data hm hlive =>
    rw [hcreate ((w.finish other .accept).delete other) data rfl]
    exact sessions_delete id other
  | @received other session chunk hm hs hle =>
    have ho : id ≠ other := fun he => hc chunk (he ▸ rfl)
    exact .inl (Function.update_of_ne ho _ _)
  | readFailed hm hlive => exact sessions_delete id _
  | progressed hm hs hle => exact .inl rfl
  | written hm hlive => exact .inl rfl
  | writeFailed hm hlive => exact sessions_delete id _

/-- The array of a Session stays as it is until its write has completed. -/
theorem Lifecycle.undisturbed (hl : Lifecycle w) {c : Completion} (he : enabled w c)
    (hn : FastCgi.complete w c = some w') {length sent : Nat} (hm : (id, .write length sent) ∈ w.pending) :
    w'.sessions id = w.sessions id ∨ ¬ w'.Live id := by
  have hid : id < w.nextSession := (hl.accounted.created id).mpr (.inl (hl.operations.live_of_mem hm))
  have hc : ∀ chunk, c ≠ .received id chunk := by
    rintro chunk rfl
    cases hl.operations.unique hm he.1
  refine (hl.unread he hn hid hc).imp_right fun hnone => ?_
  rw [World.Live, hnone]
  simp

end

theorem echo_invariant (log : Text) : (echoServer log).InvariantUnder Lifecycle (Echo log) := by
  refine ⟨?_, fun _ _ _ hl h he hn => h.complete hl he hn⟩
  rintro _ ⟨data, rfl⟩
  have hl := (lifecycle_invariant log).initial _ ⟨data, rfl⟩
  refine ⟨echo_startAccept hl ⟨rfl, rfl⟩ fun id _ => ?_, fun _ h => (by cases h), ?_⟩
  · refine ⟨?_, fun _ _ h => (by cases h), fun _ => .inl ⟨rfl, rfl⟩⟩
    rintro (h | h) <;> cases h
  · exact (List.append_nil log).symm

/-- All chunks have been echoed, or all but the last one and then `unfinished` holds. -/
def EchoedBut (unfinished : Prop) (h : History) (id : SessionId) : Prop :=
  ∃ before last, h.chunksOf id = before ++ last ∧ last.length ≤ 1 ∧ h.echoed id = before.flatten ∧
    (∃ n, h.sent id = before.flatten ++ last.flatten.take n) ∧ (last ≠ [] → unfinished)

theorem Idle.echoedBut {h : History} {id : SessionId} (hi : Idle h id) (unfinished : Prop) :
    EchoedBut unfinished h id :=
  ⟨h.chunksOf id, [], (List.append_nil _).symm, Nat.zero_le _, hi.echoed.trans hi.sent,
    ⟨0, by rw [List.take_zero, List.append_nil, hi.sent]⟩, fun hne => absurd rfl hne⟩

theorem Writing.echoedBut {h : History} {id : SessionId} {before : List Text} {chunk : Text} {sent : Nat}
    (hw : Writing h id before chunk sent) {unfinished : Prop} (hu : unfinished) : EchoedBut unfinished h id :=
  ⟨before, [chunk], hw.chunks, Nat.le_refl _, hw.echoed, ⟨sent, by rw [hw.sent, List.flatten_singleton]⟩,
    fun _ => hu⟩

theorem SessionEcho.echoedBut {w : World} {id : SessionId} (h : SessionEcho w id) (ho : OneEach w.pending w.Live) :
    EchoedBut ((∃ length sent, (id, .write length sent) ∈ w.pending) ∨ id ∈ w.history.failedWrites)
      w.history id := by
  by_cases hlive : w.Live id
  · obtain ⟨op, hm⟩ := (ho.live_iff id).mp hlive
    cases op with
    | accept => exact (h.waiting (.inl hm)).echoedBut _
    | read => exact (h.waiting (.inr hm)).echoedBut _
    | write length sent =>
      obtain ⟨session, before, chunk, -, hw, -, -⟩ := h.writing length sent hm
      exact hw.echoedBut (.inl ⟨length, sent, hm⟩)
  · rcases h.stopped hlive with hi | ⟨hf, before, chunk, sent, hw⟩
    · exact hi.echoedBut _
    · exact hw.echoedBut (.inr hf)

/-- What has been echoed and logged. -/
structure EchoIntegrity (log : Text) (w : World) : Prop where
  echoed : ∀ id, EchoedBut
    ((∃ length sent, (id, .write length sent) ∈ w.pending) ∨ id ∈ w.history.failedWrites) w.history id
  array : ∀ id length sent, (id, .write length sent) ∈ w.pending → (id, .read) ∉ w.pending ∧
    ∃ session chunk, w.sessions id = some session ∧ (w.history.chunksOf id).getLast? = some chunk ∧
      chunk.length = length ∧ session.data_.bytes.take length = chunk
  undisturbed : ∀ c w', enabled w c → complete w c = some w' → ∀ id length sent,
    (id, .write length sent) ∈ w.pending → w'.sessions id = w.sessions id ∨ ¬ w'.Live id
  log : w.log = log ++ (w.history.reads.map Prod.snd).flatten

/-- In every reachable state the echoes and the log are what was read. -/
theorem echo_integrity (log : Text) (w : World) (hw : (echoServer log).Reachable w) : EchoIntegrity log w := by
  have hl : ∀ {w}, (echoServer log).Reachable w → Lifecycle w := (lifecycle_invariant log).of_reachable
  have h := (echo_invariant log).of_reachable (fun _ => hl) hw
  refine ⟨fun id => (h.sessions id).echoedBut (hl hw).operations, ?_, ?_, h.log⟩
  · intro id length sent hm
    obtain ⟨session, before, chunk, hs, hwr, hlen, hdata⟩ := (h.sessions id).writing length sent hm
    refine ⟨?_, session, chunk, hs, ?_, hlen, hdata⟩
    · intro hr
      cases (hl hw).operations.unique hm hr
    · rw [hwr.chunks, List.getLast?_concat]
  · intro c w' he hn id length sent hm
    exact (hl hw).undisturbed he hn hm

theorem echo_integrity_after_read : ∃ w, EchoIntegrity [] w ∧ w.history.chunksOf 0 = [text "hi"] := by
  obtain ⟨w, hw, -, -, hreads⟩ := reachable_after_read
  refine ⟨w, echo_integrity [] w hw, ?_⟩
  rw [History.chunksOf, hreads]
  rfl

end FastCgi
