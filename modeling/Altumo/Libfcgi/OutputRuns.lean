import Altumo.Libfcgi.Transcript

/-!
# Runs of the writing side

In every state that the calls on the two writers reach, the bytes that were sent are
messages in a legal order, and every accepted byte is in one of them or in the
buffer of its writer.
-/

namespace Libfcgi

open CString Descriptor Transition

/-- How far a writer is: it is open and has sent no end, or it is closed and has sent
its end, if there was one to send. -/
inductive Phase (s : Sink) (w : Writer) (ms : List Message) : Prop where
  | opened : w.Open s → .eof s ∉ ms → (w.isAnythingWritten = true ↔ ∃ c, .data s c ∈ ms) → Phase s w ms
  | shut : w.Shut → (.eof s ∈ ms ∨ s = .err ∧ ∀ c, .data s c ∉ ms) → Phase s w ms

/-- The number of the writers that are open. -/
def Output.openWriters (o : Output) : Int := (if o.out.isClosed then 0 else 1) + if o.err.isClosed then 0 else 1

/-- The messages account for what has been sent. -/
structure Accounts (start : Request) (o : Output) (ms : List Message) : Prop where
  reliable : o.req.ipc.outbox.Reliable
  requestId : o.req.requestId = start.requestId
  sent : o.req.ipc.outbox.sent = start.ipc.outbox.sent ++ wire start.requestId ms
  content : ∀ s, contentOf s ms ++ (o.writer s).content = o.written s
  ordered : ms.Pairwise Precedes
  phase : ∀ s, Phase s (o.writer s) ms
  count : o.req.nWriters = o.openWriters
  ended : (∃ a, .ended a ∈ ms) ↔ ∀ s, (o.writer s).isClosed = true

section Step

variable {start : Request} {o : Output} {w : Writer} {ms : List Message} {s : Sink}

@[simp] theorem update_written (o : Output) (w : Writer) (req : Request) (accepted : Text) (s s' : Sink) :
    (o.update w req accepted s).written s' = if s' = s then o.written s' ++ accepted else o.written s' := rfl

theorem Accounts.ended_notMem (h : Accounts start o ms) (ho : (o.writer s).isClosed = false) (a : Int32) :
    .ended a ∉ ms := by
  intro hm
  have hall := h.ended.mp ⟨a, hm⟩ s
  rw [ho] at hall
  cases hall

theorem Accounts.eof_notMem (h : Accounts start o ms) (ho : (o.writer s).isClosed = false) : .eof s ∉ ms := by
  cases h.phase s with
  | opened _ hn _ => exact hn
  | shut hs _ =>
    have := hs.isClosed
    rw [ho] at this
    cases this

theorem Accounts.open_of_isClosed (h : Accounts start o ms) (ho : (o.writer s).isClosed = false) : (o.writer s).Open s := by
  cases h.phase s with
  | opened hw _ _ => exact hw
  | shut hs _ =>
    have := hs.isClosed
    rw [ho] at this
    cases this

/-- The message is of this stream or of the whole request. -/
def Message.Of (s : Sink) : Message → Prop
  | .data s' _ => s' = s
  | .eof s' => s' = s
  | .ended _ => True

/-- What an open writer sends may follow all that has been sent. -/
theorem Accounts.precedes (h : Accounts start o ms) (ho : (o.writer s).isClosed = false) {m m' : Message} (hm : m ∈ ms)
    (hof : m'.Of s) : Precedes m m' := by
  cases m with
  | ended a => exact absurd hm (h.ended_notMem ho a)
  | data => trivial
  | eof s' =>
    have hne : s' ≠ s := fun he => h.eof_notMem ho (he ▸ hm)
    cases m' with
    | data s'' c => exact fun he => hne (he.trans hof)
    | eof s'' => exact fun he => hne (he.trans hof)
    | ended a => trivial

theorem openWriters_update (o : Output) (w : Writer) (req : Request) (accepted : Text) (s : Sink) :
    (o.update w req accepted s).openWriters + (if (o.writer s).isClosed then 0 else 1) =
      o.openWriters + if w.isClosed then 0 else 1 := by
  cases s <;> simp only [Output.openWriters, Output.update, Output.writer, ↓reduceIte, reduceCtorEq] <;> ac_rfl

theorem contentOf_other {s' : Sink} (hs : s' ≠ s) (hdata : ∀ m ∈ ms, ∃ c, m = .data s c) : contentOf s' ms = [] := by
  apply List.flatMap_eq_nil_iff.mpr
  intro m hm
  obtain ⟨c, rfl⟩ := hdata m hm
  simp [Message.content, Ne.symm hs]

/-- The messages of one stream do not matter to the other. -/
theorem Phase.other {s' : Sink} {w : Writer} (h : Phase s' w ms) {ms' : List Message} (hs : s' ≠ s)
    (hof : ∀ m ∈ ms', m.Of s) : Phase s' w (ms ++ ms') := by
  have hdata : ∀ c, .data s' c ∉ ms' := fun c hm => hs (hof _ hm)
  have heof : .eof s' ∉ ms' := fun hm => hs (hof _ hm)
  cases h with
  | opened hopen hn hw => exact .opened hopen (by simp [hn, heof]) (by simp [hw, hdata])
  | shut hshut hend =>
    refine .shut hshut ?_
    rcases hend with hm | ⟨rfl, hnone⟩
    · exact .inl (List.mem_append_left _ hm)
    · exact .inr ⟨rfl, by simp [hnone, hdata]⟩

/-- A writer that sends data keeps the account. -/
theorem Accounts.emits (h : Accounts start o ms) (ho : (o.writer s).isClosed = false) {str : Text} {ms' : List Message}
    {w' : Writer} {req' : Request} (he : Emits s (o.writer s) o.req str ms' w' req') :
    Accounts start (o.update w' req' str s) (ms ++ ms') := by
  have hdata : ∀ m ∈ ms', ∃ c, m = .data s c := he.only
  refine ⟨he.reliable, ?_, ?_, ?_, ?_, ?_, ?_, ?_⟩
  · rw [← h.requestId, show (o.update w' req' str s).req = req' from rfl, he.frame]
    rfl
  · rw [show (o.update w' req' str s).req = req' from rfl, he.sent, h.sent, h.requestId, wire_append, List.append_assoc]
  · intro s'
    by_cases hs : s' = s
    · subst hs
      rw [update_writer_self, contentOf_append, List.append_assoc, he.content, ← List.append_assoc, h.content]
      simp
    · rw [update_writer_ne _ _ _ _ hs, contentOf_append, contentOf_other hs hdata, List.append_nil, h.content]
      simp [hs]
  · refine List.pairwise_append.mpr ⟨h.ordered, ?_, ?_⟩
    · refine List.pairwise_of_forall_mem_list ?_
      intro a ha b hb
      obtain ⟨c, rfl⟩ := hdata a ha
      obtain ⟨c', rfl⟩ := hdata b hb
      trivial
    · intro a ha b hb
      obtain ⟨c, rfl⟩ := hdata b hb
      exact h.precedes ho ha rfl
  · intro s'
    by_cases hs : s' = s
    · subst hs
      rw [update_writer_self]
      have hphase := h.phase s'
      cases hphase with
      | shut hs _ =>
        rw [hs.isClosed] at ho
        cases ho
      | opened _ hn hw =>
        refine .opened he.isOpen ?_ ?_
        · intro hm
          rcases List.mem_append.mp hm with hm | hm
          · exact hn hm
          · obtain ⟨c, hc⟩ := hdata _ hm
            cases hc
        · rw [he.isAnythingWritten, Bool.or_eq_true, hw]
          cases ms' with
          | nil => simp
          | cons m ms' =>
            obtain ⟨c, rfl⟩ := hdata m List.mem_cons_self
            simp only [List.isEmpty_cons, Bool.not_false, or_true, true_iff]
            exact ⟨c, by simp⟩
    · rw [update_writer_ne _ _ _ _ hs]
      refine (h.phase s').other hs ?_
      intro m hm
      obtain ⟨c, rfl⟩ := hdata m hm
      rfl
  · have hcount := openWriters_update o w' req' str s
    rw [ho, he.isOpen.isClosed] at hcount
    have hn : req'.nWriters = o.req.nWriters := by rw [he.frame]; rfl
    rw [show (o.update w' req' str s).req = req' from rfl, hn, h.count]
    omega
  · have hnone : ¬ ∃ a, .ended a ∈ ms ++ ms' := by
      rintro ⟨a, hm⟩
      rcases List.mem_append.mp hm with hm | hm
      · exact h.ended_notMem ho a hm
      · obtain ⟨c, hc⟩ := hdata _ hm
        cases hc
    refine iff_of_false hnone ?_
    intro hall
    have := hall s
    rw [update_writer_self, he.isOpen.isClosed] at this
    cases this

theorem contentOf_closing (s' : Sink) (w : Writer) (req : Request) :
    contentOf s' (eofMessages s w ++ endMessages req) = [] := by
  rw [contentOf_append, eofMessages, endMessages]
  split <;> split <;> simp [contentOf, Message.content]

/-- Data messages are never empty. -/
theorem eq_nil_of_contentOf (hdata : ∀ m ∈ ms, ∃ c, m = .data s c) (hnil : contentOf s ms = []) : ms = [] := by
  cases ms with
  | nil => rfl
  | cons m ms =>
    obtain ⟨c, rfl⟩ := hdata m List.mem_cons_self
    have := (List.flatMap_eq_nil_iff.mp hnil) _ List.mem_cons_self
    simp only [Message.content, ↓reduceIte] at this
    exact absurd this c.property.1

theorem mem_closing {m : Message} {w : Writer} {req : Request} (hm : m ∈ eofMessages s w ++ endMessages req) :
    m = .eof s ∨ m = .ended req.appStatus ∧ req.nWriters = 1 := by
  rcases List.mem_append.mp hm with hm | hm
  · rw [eofMessages] at hm
    split at hm
    · cases hm
    · exact .inl (by simpa using hm)
  · rw [endMessages] at hm
    split at hm
    · exact .inr ⟨by simpa using hm, by assumption⟩
    · cases hm

theorem closing_pairwise (s : Sink) (w : Writer) (req : Request) :
    (eofMessages s w ++ endMessages req).Pairwise Precedes := by
  rw [eofMessages, endMessages]
  split <;> split <;> simp [Precedes]

/-- The writer that is closed is the last one. -/
theorem Accounts.nWriters_eq_one_iff (h : Accounts start o ms) (ho : (o.writer s).isClosed = false) :
    o.req.nWriters = 1 ↔ ∀ s', s' ≠ s → (o.writer s').isClosed = true := by
  have hcount := h.count
  unfold Output.openWriters at hcount
  cases s with
  | out =>
    rw [show o.out.isClosed = false from ho] at hcount
    constructor
    · intro hn s' hs
      cases s' with
      | out => exact absurd rfl hs
      | err =>
        cases hc : o.err.isClosed with
        | true => exact hc
        | false => rw [hc, hn] at hcount; simp at hcount
    · intro hall
      rw [hcount, show o.err.isClosed = true from hall .err (by decide)]
      rfl
  | err =>
    rw [show o.err.isClosed = false from ho] at hcount
    constructor
    · intro hn s' hs
      cases s' with
      | err => exact absurd rfl hs
      | out =>
        cases hc : o.out.isClosed with
        | true => exact hc
        | false => rw [hc, hn] at hcount; simp at hcount
    · intro hall
      rw [hcount, show o.out.isClosed = true from hall .out (by decide)]
      rfl

/-- A writer that sent nothing and has nothing: only the error stream ends without a word. -/
theorem Phase.silent {w : Writer} (h : Phase s w ms) (ho : w.isClosed = false) {data : List Message}
    (hdata : ∀ m ∈ data, ∃ c, m = .data s c) (hcontent : contentOf s data = w.content) (req : Request) :
    .eof s ∈ ms ++ (data ++ (eofMessages s w ++ endMessages req)) ∨
      s = .err ∧ ∀ c, .data s c ∉ ms ++ (data ++ (eofMessages s w ++ endMessages req)) := by
  cases h with
  | shut hs _ =>
    rw [hs.isClosed] at ho
    cases ho
  | opened _ _ hw =>
    by_cases hq : s = .err ∧ w.content = [] ∧ w.isAnythingWritten = false
    · right
      refine ⟨hq.1, ?_⟩
      have hnil := eq_nil_of_contentOf hdata (hcontent.trans hq.2.1)
      intro c hm
      rw [hnil, List.nil_append] at hm
      rcases List.mem_append.mp hm with hm | hm
      · have := hw.mpr ⟨c, hm⟩
        rw [hq.2.2] at this
        cases this
      · rcases mem_closing hm with he | ⟨he, _⟩ <;> cases he
    · left
      rw [eofMessages, if_neg hq]
      simp

/-- Closing a writer keeps the account. -/
theorem Accounts.fclose (h : Accounts start o ms) (ho : (o.writer s).isClosed = false) :
    ∃ w' req' ms', Libfcgi.fclose (o.writer s) o.req = some (true, w', req') ∧
      Accounts start (o.update w' req' [] s) (ms ++ ms') ∧ w'.isClosed = true ∧
      req'.appStatus = o.req.appStatus ∧ ∀ a, .ended a ∈ ms' → a = o.req.appStatus := by
  have hopen := h.open_of_isClosed ho
  obtain ⟨w', ob, data, hrun, hshut, hrel, hsent, hcontent, hdata⟩ := fclose_open hopen h.reliable
  have hstatus : ∀ a, .ended a ∈ data ++ (eofMessages s (o.writer s) ++ endMessages o.req) → a = o.req.appStatus := by
    intro a hm
    rcases List.mem_append.mp hm with hm | hm
    · obtain ⟨c, hc⟩ := hdata _ hm
      cases hc
    · rcases mem_closing hm with hc | ⟨hc, _⟩
      · cases hc
      · exact Message.ended.inj hc
  refine ⟨w', _, data ++ (eofMessages s (o.writer s) ++ endMessages o.req), hrun, ?_, hshut.isClosed, rfl, hstatus⟩
  have hof : ∀ m ∈ data ++ (eofMessages s (o.writer s) ++ endMessages o.req), m.Of s := by
    intro m hm
    rcases List.mem_append.mp hm with hm | hm
    · obtain ⟨c, rfl⟩ := hdata m hm
      rfl
    · rcases mem_closing hm with rfl | ⟨rfl, _⟩
      · rfl
      · trivial
  refine ⟨hrel, h.requestId, ?_, ?_, ?_, ?_, ?_, ?_⟩
  · rw [show (o.update w' ((o.req.setOutbox ob).dropWriter) [] s).req.ipc.outbox = ob from rfl, hsent, h.sent, h.requestId,
      wire_append _ ms, List.append_assoc]
  · intro s'
    rw [contentOf_append, contentOf_append, contentOf_closing, List.append_nil]
    by_cases hs : s' = s
    · subst hs
      rw [update_writer_self, hcontent, hshut.content, List.append_nil, h.content]
      simp
    · rw [update_writer_ne _ _ _ _ hs, contentOf_other hs hdata, List.append_nil, h.content]
      simp [hs]
  · refine List.pairwise_append.mpr ⟨h.ordered, List.pairwise_append.mpr ⟨?_, closing_pairwise _ _ _, ?_⟩, ?_⟩
    · refine List.pairwise_of_forall_mem_list ?_
      intro a ha b hb
      obtain ⟨c, rfl⟩ := hdata a ha
      obtain ⟨c', rfl⟩ := hdata b hb
      trivial
    · intro a ha b hb
      obtain ⟨c, rfl⟩ := hdata a ha
      cases b <;> trivial
    · intro a ha b hb
      exact h.precedes ho ha (hof b hb)
  · intro s'
    by_cases hs : s' = s
    · subst hs
      rw [update_writer_self]
      exact .shut hshut ((h.phase s').silent ho hdata hcontent o.req)
    · rw [update_writer_ne _ _ _ _ hs]
      exact (h.phase s').other hs hof
  · have hcount := openWriters_update o w' ((o.req.setOutbox ob).dropWriter) [] s
    rw [ho, hshut.isClosed] at hcount
    have hn := h.count
    rw [show (o.update w' ((o.req.setOutbox ob).dropWriter) [] s).req.nWriters = o.req.nWriters - 1 from rfl]
    simp only [Bool.false_eq_true, ↓reduceIte] at hcount
    omega
  · constructor
    · rintro ⟨a, hm⟩ s'
      by_cases hs : s' = s
      · subst hs
        rw [update_writer_self]
        exact hshut.isClosed
      · rw [update_writer_ne _ _ _ _ hs]
        rcases List.mem_append.mp hm with hm | hm
        · exact absurd hm (h.ended_notMem ho a)
        · rcases List.mem_append.mp hm with hm | hm
          · obtain ⟨c, hc⟩ := hdata _ hm
            cases hc
          · rcases mem_closing hm with hc | ⟨_, hone⟩
            · cases hc
            · exact (h.nWriters_eq_one_iff ho).mp hone s' hs
    · intro hall
      have hone : o.req.nWriters = 1 := by
        refine (h.nWriters_eq_one_iff ho).mpr ?_
        intro s' hs
        have := hall s'
        rwa [update_writer_ne _ _ _ _ hs] at this
      exact ⟨o.req.appStatus, by simp [endMessages, hone]⟩

theorem update_self (o : Output) (s : Sink) : o.update (o.writer s) o.req [] s = o := by
  cases s <;> simp [Output.update, Output.writer]

theorem Writer.Shut.room (h : w.Shut) : w.room = 0 := by
  simp [Writer.room, h.stop]

/-- Nothing but the result of a call shows on a closed writer. -/
theorem Accounts.putStr (h : Accounts start o ms) (s : Sink) (str : Text) :
    ∃ r w' req' ms', Libfcgi.putStr str (o.writer s) o.req = some (r, w', req') ∧
      Accounts start (o.update w' req' (if r.isSome then str else []) s) (ms ++ ms') ∧
      req'.appStatus = o.req.appStatus := by
  cases h.phase s with
  | opened hopen _ _ =>
    obtain ⟨w', req', ms', hrun, he⟩ := putStr_emits hopen h.reliable str
    exact ⟨_, w', req', ms', hrun, by simpa using h.emits hopen.isClosed he, he.appStatus⟩
  | shut hshut _ =>
    have hrun := putStr_eq_putChars hshut.sound str o.req
    rw [putChars_closed hshut.isClosed hshut.room] at hrun
    cases str with
    | nil => exact ⟨some 0, o.writer s, o.req, [], by simpa using hrun, by simpa [update_self] using h, rfl⟩
    | cons c cs => exact ⟨none, o.writer s, o.req, [], by simpa using hrun, by simpa [update_self] using h, rfl⟩

/-- The exit status after a call. -/
def Call.status (status : Int32) : Call → Int32
  | .setExitStatus new => new
  | _ => status

/-- Every call that fits has a result, and keeps the account. -/
theorem Accounts.call (h : Accounts start o ms) {c : Call} (hfits : c.Fits) :
    ∃ o' ms', o.call c = some o' ∧ Accounts start o' (ms ++ ms') ∧ o'.req.appStatus = c.status o.req.appStatus := by
  cases c with
  | putChar s c =>
    cases h.phase s with
    | opened hopen _ _ =>
      obtain ⟨ms', hsome, he⟩ := putChar_emits hopen h.reliable c
      exact ⟨_, ms', by simp [Output.call, hsome], h.emits hopen.isClosed he, he.appStatus⟩
    | shut hshut _ =>
      have hrun : Libfcgi.putChar c (o.writer s) o.req = (none, o.writer s, o.req) := by
        simp [Libfcgi.putChar, hshut.room, hshut.isClosed]
      refine ⟨o, [], ?_, by simpa using h, rfl⟩
      simp [Output.call, hrun, update_self]
  | putStr s str =>
    obtain ⟨r, w', req', ms', hrun, ha, hstatus⟩ := h.putStr s str
    exact ⟨_, ms', by simp [Output.call, hrun], ha, hstatus⟩
  | putS s str =>
    obtain ⟨r, w', req', ms', hrun, ha, hstatus⟩ := h.putStr s (cStr str)
    exact ⟨_, ms', by simp [Output.call, putS_of_le hfits, passed_of_le hfits, hrun], ha, hstatus⟩
  | fflush s =>
    cases h.phase s with
    | opened hopen _ _ =>
      obtain ⟨ms', he, _⟩ := emptyBuffProc_emits hopen h.reliable
      exact ⟨_, ms', by simp [Output.call, Libfcgi.fflush, hopen.isClosed], h.emits hopen.isClosed he, he.appStatus⟩
    | shut hshut _ =>
      refine ⟨o, [], ?_, by simpa using h, rfl⟩
      simp [Output.call, Libfcgi.fflush, hshut.isClosed, update_self]
  | fclose s =>
    cases h.phase s with
    | opened hopen _ _ =>
      obtain ⟨w', req', ms', hrun, ha, -, hstatus, -⟩ := h.fclose hopen.isClosed
      exact ⟨_, ms', by simp [Output.call, hrun], ha, hstatus⟩
    | shut hshut _ =>
      refine ⟨o, [], ?_, by simpa using h, rfl⟩
      simp [Output.call, Libfcgi.fclose, hshut.wasFCloseCalled, update_self]
  | setExitStatus status =>
    refine ⟨_, [], rfl, ?_, rfl⟩
    rw [List.append_nil]
    exact ⟨h.reliable, h.requestId, h.sent, h.content, h.ordered, h.phase, h.count, h.ended⟩

theorem newWriter_open (b : BuffLen) (s : Sink) : (newWriter b s.type).Open s := by
  have := b.len_ge
  refine ⟨rfl, rfl, rfl, rfl, rfl, rfl, rfl, ?_⟩
  simp only [newWriter, headerLen, List.length_nil]
  omega

theorem startOutput_writer (start : Request) (outLen errLen : BuffLen) (s : Sink) :
    ∃ b, (startOutput start outLen errLen).writer s = newWriter b s.type := by
  cases s
  · exact ⟨outLen, rfl⟩
  · exact ⟨errLen, rfl⟩

theorem startOutput_accounts (hr : start.ipc.outbox.Reliable) (outLen errLen : BuffLen) :
    Accounts start (startOutput start outLen errLen) [] := by
  refine ⟨hr, rfl, (List.append_nil _).symm, ?_, .nil, ?_, rfl, ?_⟩
  · intro s
    obtain ⟨b, hb⟩ := startOutput_writer start outLen errLen s
    rw [hb]
    rfl
  · intro s
    obtain ⟨b, hb⟩ := startOutput_writer start outLen errLen s
    rw [hb]
    exact .opened (newWriter_open b s) (by simp) (by simp [newWriter])
  · refine iff_of_false (by simp) ?_
    intro hall
    have := hall .out
    cases this

theorem accounts_invariant (hr : start.ipc.outbox.Reliable) :
    (outputSystem start).Invariant fun o => ∃ ms, Accounts start o ms where
  initial := by
    rintro o ⟨outLen, errLen, rfl⟩
    exact ⟨[], startOutput_accounts hr outLen errLen⟩
  step := by
    rintro o c o' - ⟨ms, h⟩ hfits hn
    obtain ⟨o'', ms', hcall, ha, -⟩ := h.call hfits
    have heq : o'' = o' := Option.some.inj (hcall.symm.trans hn)
    exact ⟨ms ++ ms', heq ▸ ha⟩

/-- Closing a writer, whether it is open or not. -/
theorem Accounts.close (h : Accounts start o ms) (s : Sink) :
    ∃ w' req' ms', Libfcgi.fclose (o.writer s) o.req = some (true, w', req') ∧
      Accounts start (o.update w' req' [] s) (ms ++ ms') ∧ w'.isClosed = true ∧
      req'.appStatus = o.req.appStatus ∧ ∀ a, .ended a ∈ ms' → a = o.req.appStatus := by
  cases h.phase s with
  | opened hopen _ _ => exact h.fclose hopen.isClosed
  | shut hshut _ =>
    refine ⟨o.writer s, o.req, [], ?_, ?_, hshut.isClosed, rfl, by simp⟩
    · simp [Libfcgi.fclose, hshut.wasFCloseCalled, hshut.errno]
    · simpa [update_self] using h

/-- The end of a request: everything is sent, and the end of the request last. -/
theorem Accounts.finish (h : Accounts start o ms) :
    ∃ o' ms' a, o.finish = some (true, o') ∧ Accounts start o' (ms ++ ms') ∧ Message.ended a ∈ ms ++ ms' ∧
      (∀ s, (o'.writer s).content = [] ∧ o'.written s = o.written s) ∧ o'.req.appStatus = o.req.appStatus ∧
      (.ended a ∈ ms' → a = o.req.appStatus) := by
  obtain ⟨err, req₁, ms₁, hrun₁, h₁, hclosed₁, happ₁, hst₁⟩ := h.close .err
  obtain ⟨out, req₂, ms₂, hrun₂, h₂, hclosed₂, happ₂, hst₂⟩ := h₁.close .out
  have hall : ∀ s, (((o.update err req₁ [] .err).update out req₂ [] .out).writer s).isClosed = true := by
    intro s
    cases s
    · exact hclosed₂
    · exact hclosed₁
  rw [List.append_assoc] at h₂
  obtain ⟨a, ha⟩ := h₂.ended.mpr hall
  refine ⟨_, ms₁ ++ ms₂, a, ?_, h₂, ha, ?_, happ₂.trans happ₁, ?_⟩
  · have herr : Libfcgi.fclose o.err o.req = some (true, err, req₁) := hrun₁
    have hout : Libfcgi.fclose (o.update err req₁ [] .err).out (o.update err req₁ [] .err).req = some (true, out, req₂) :=
      hrun₂
    simp [Output.finish, herr, hout]
  · intro s
    refine ⟨?_, ?_⟩
    · cases h₂.phase s with
      | opened hopen _ _ =>
        have := hall s
        rw [hopen.isClosed] at this
        cases this
      | shut hshut _ => exact hshut.content
    · simp
  · intro hm
    rcases List.mem_append.mp hm with hm | hm
    · exact hst₁ a hm
    · exact (hst₂ a hm).trans happ₁

end Step

theorem record_bytes_length_mod (m : Message) (requestId : RequestId) : (m.record requestId).bytes.length % 8 = 0 := by
  have hlen : (m.record requestId).bytes.length =
      headerLen + ((m.record requestId).content.length + (m.record requestId).padding.length) := by
    rw [Record.bytes, List.length_append, List.length_append, header_bytes_length]
  rw [hlen]
  cases m with
  | data s c =>
    have := (paddingOf_length c.property.2).2
    simp only [Message.record, headerLen] at this ⊢
    omega
  | eof s => simp [Message.record, headerLen]
  | ended a => simp [Message.record, headerLen, EndRequestBody.bytes]

theorem wire_length_mod (requestId : RequestId) (ms : List Message) : (wire requestId ms).length % 8 = 0 := by
  induction ms with
  | nil => rfl
  | cons m ms ih =>
    have hm := record_bytes_length_mod m requestId
    have hcons : wire requestId (m :: ms) = (m.record requestId).bytes ++ wire requestId ms := rfl
    rw [hcons, List.length_append, Nat.add_mod, hm, ih]

/-- The web server reads the messages back from the bytes. -/
theorem parseRecords_wire (requestId : RequestId) (ms : List Message) :
    parseRecords (wire requestId ms) = (ms.map (Message.record requestId), []) := by
  have h := parseRecords_whole (ms.map (Message.record requestId))
  rw [List.flatMap_map] at h
  exact h

/-- Over every run of calls on the two writers, with writes that may be short but do
not fail: every call returns, what has been sent is a sequence of whole records in a
legal order, and each accepted byte is in the records of its stream or in the buffer
of its writer, in order. An open writer accepts everything. -/
theorem output_integrity {start : Request} (hr : start.ipc.outbox.Reliable) {o : Output}
    (h : (outputSystem start).Reachable o) :
    (outputSystem start).Safe o ∧
      (∃ ms, o.req.ipc.outbox.sent = start.ipc.outbox.sent ++ wire start.requestId ms ∧
        parseRecords (wire start.requestId ms) = (ms.map (Message.record start.requestId), []) ∧
        ms.Pairwise Precedes ∧ ∀ s, contentOf s ms ++ (o.writer s).content = o.written s) ∧
      ∀ s, (o.writer s).isClosed = false → ∀ str,
        ∃ w req, putStr str (o.writer s) o.req = some (some str.length, w, req) := by
  obtain ⟨ms, ha⟩ := (accounts_invariant hr).of_reachable h
  refine ⟨?_, ⟨ms, ha.sent, parseRecords_wire _ _, ha.ordered, ha.content⟩, ?_⟩
  · intro c hfits
    obtain ⟨o', _, hcall, _⟩ := ha.call hfits
    exact ⟨o', hcall⟩
  · intro s ho str
    obtain ⟨w, req, _, hrun, _⟩ := putStr_emits (ha.open_of_isClosed ho) ha.reliable str
    exact ⟨w, req, hrun⟩

theorem requestOver_reliable : (requestOver [.wrote 3]).ipc.outbox.Reliable := by
  intro r hr
  exact ⟨3, List.mem_singleton.mp hr⟩

/-- Calls that fit lead to reachable states. -/
theorem outputOver_calls {results : List WriteResult} {calls : List Call} (hfits : ∀ c ∈ calls, c.Fits) {o : Output}
    (h : calls.foldlM Output.call (outputOver results) = some o) : (outputSystem (requestOver results)).Reachable o :=
  (outputOver_reachable results).foldlM (fun c hc _ => hfits c hc) h

def flushedCalls : List Call := [.putStr .out (text "ok"), .fflush .out, .putS .err (text "!")]

/-- The output is sent by writes that are cut, and the error stream is in its buffer. -/
theorem output_integrity_flushed :
    ∃ o ms, flushedCalls.foldlM Output.call (outputOver [.wrote 3]) = some o ∧
      o.req.ipc.outbox.sent = [1, 6, 0, 1, 0, 2, 6, 0, 111, 107, 0, 0, 0, 0, 0, 0] ∧
      o.req.ipc.outbox.sent = [] ++ wire 1 ms ∧ contentOf .out ms = text "ok" ∧
      contentOf .err ms ++ (o.writer .err).content = text "!" := by
  have hrun : (flushedCalls.foldlM Output.call (outputOver [.wrote 3])).map (fun o =>
      (o.req.ipc.outbox.sent, (o.writer .out).content, o.written .out, o.written .err)) =
      some ([1, 6, 0, 1, 0, 2, 6, 0, 111, 107, 0, 0, 0, 0, 0, 0], [], text "ok", text "!") := by decide +kernel
  obtain ⟨o, ho, heq⟩ := Option.map_eq_some_iff.mp hrun
  simp only [Prod.mk.injEq] at heq
  obtain ⟨hsent, hempty, hout, herr⟩ := heq
  have hfits : ∀ c ∈ flushedCalls, c.Fits := by decide
  obtain ⟨-, ⟨ms, hms, -, -, hcontent⟩, -⟩ := output_integrity requestOver_reliable (outputOver_calls hfits ho)
  have hok := hcontent .out
  rw [hempty, List.append_nil, hout] at hok
  exact ⟨o, ms, ho, hsent, hms, hok, (hcontent .err).trans herr⟩

/-- The end of a request, after any calls, some of which may have closed a writer:
every accepted byte is sent, the output stream is ended, and the last record and no
other is the end of the request, with the status that was set last. -/
theorem finish_sends_all {start : Request} (hr : start.ipc.outbox.Reliable) {o : Output}
    (h : (outputSystem start).Reachable o) :
    ∃ o' ms a, o.finish = some (true, o') ∧
      o'.req.ipc.outbox.sent = start.ipc.outbox.sent ++ wire start.requestId (ms ++ [.ended a]) ∧
      (wire start.requestId (ms ++ [.ended a])).length % 8 = 0 ∧
      (∀ s, contentOf s ms = o.written s) ∧ (ms ++ [Message.ended a]).Pairwise Precedes ∧ (∀ b, Message.ended b ∉ ms) ∧
      Message.eof .out ∈ ms ∧ ((∃ s, (o.writer s).isClosed = false) → a = o.req.appStatus) := by
  obtain ⟨ms, ha⟩ := (accounts_invariant hr).of_reachable h
  obtain ⟨o', ms', a, hrun, hacc, hended, hwriters, -, hstatus⟩ := ha.finish
  obtain ⟨ns, hns, hnone⟩ := ended_last hacc.ordered hended
  refine ⟨o', ns, a, hrun, ?_, wire_length_mod _ _, ?_, ?_, hnone, ?_, ?_⟩
  · rw [← hns]
    exact hacc.sent
  · intro s
    have hcontent := hacc.content s
    rw [hns, (hwriters s).1, (hwriters s).2, List.append_nil, contentOf_append] at hcontent
    simpa [contentOf, Message.content] using hcontent
  · rw [← hns]
    exact hacc.ordered
  · cases hacc.phase .out with
    | opened hopen _ _ =>
      have := hacc.ended.mp ⟨a, hended⟩ .out
      rw [hopen.isClosed] at this
      cases this
    | shut _ heof =>
      rcases heof with hm | ⟨hc, _⟩
      · rw [hns] at hm
        simpa using hm
      · cases hc
  · rintro ⟨s, ho⟩
    rcases List.mem_append.mp hended with hm | hm
    · exact absurd hm (ha.ended_notMem ho a)
    · exact hstatus hm

def statusCalls : List Call := [.putStr .out (text "ok"), .fclose .err, .setExitStatus 7]

/-- Output is in the buffer, the error stream is closed, and a status is set. -/
theorem finish_sends_all_status :
    ∃ o o' ms a, statusCalls.foldlM Output.call (outputOver [.wrote 3]) = some o ∧ o.finish = some (true, o') ∧
      o'.req.ipc.outbox.sent = [] ++ wire 1 (ms ++ [.ended a]) ∧ contentOf .out ms = text "ok" ∧ a = 7 := by
  have hrun : (statusCalls.foldlM Output.call (outputOver [.wrote 3])).map (fun o =>
      (o.req.appStatus, (o.writer .out).isClosed, o.written .out)) = some (7, false, text "ok") := by decide +kernel
  obtain ⟨o, ho, heq⟩ := Option.map_eq_some_iff.mp hrun
  simp only [Prod.mk.injEq] at heq
  obtain ⟨hstatus, hopen, hout⟩ := heq
  have hfits : ∀ c ∈ statusCalls, c.Fits := by decide
  obtain ⟨o', ms, a, hfinish, hsent, -, hcontent, -, -, -, ha⟩ :=
    finish_sends_all requestOver_reliable (outputOver_calls hfits ho)
  exact ⟨o, o', ms, a, ho, hfinish, hsent, (hcontent .out).trans hout, (ha ⟨.out, hopen⟩).trans hstatus⟩

end Libfcgi
