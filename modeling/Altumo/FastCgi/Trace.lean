import Altumo.FastCgi.Echo

/-!
# What the console shows of a read

`handle_read` prints the array as a C string and logs the bytes that were transferred. The
log entry is the chunk. The console shows the array up to its first NUL, so it shows what
earlier reads or the uninitialised array have left behind the chunk.
-/

namespace FastCgi

open CString Transition

/-- The chunk that a completion delivers to a Session. -/
def Completion.chunkTo (id : SessionId) : Completion → Option Text
  | .received id' chunk => if id' = id then some chunk else none
  | _ => none

/-- The chunks that a Session reads in a run. -/
def readsOf (id : SessionId) (events : List Completion) : List Text := events.filterMap (Completion.chunkTo id)

/-- What one read of a Session adds to the console and to the log. -/
structure ReadOutput where
  chunk : Text
  printed : List TraceLine
  logged : Text

def lookAtRead (id : SessionId) (w : World) (c : Completion) (w' : World) : List ReadOutput :=
  match c.chunkTo id with
  | none => []
  | some chunk => [⟨chunk, w'.cout.drop w.cout.length, w'.log.drop w.log.length⟩]

/-- What the reads of a Session add in a run. -/
def readOutputs (log : Text) (id : SessionId) (w : World) (events : List Completion) : List ReadOutput :=
  (echoServer log).observe (lookAtRead id) w events

/-- For every read the console shows its chunk and nothing else, and that is what is logged. -/
structure ShowsReads (outputs : List ReadOutput) : Prop where
  shows : ∀ o ∈ outputs, o.printed = [⟨o.chunk.length, maxLength, some o.chunk⟩]
  agrees : ∀ o ∈ outputs, o.printed.map TraceLine.data = [some o.logged]

/-- No chunk has a NUL, the array has a NUL behind every chunk, and no chunk is shorter than
one before it. -/
structure CleanReads (data : Buffer maxLength) (chunks : List Text) : Prop where
  no_zero : ∀ chunk ∈ chunks, (0 : Byte) ∉ chunk
  terminated : ∀ chunk ∈ chunks, data.bytes[chunk.length]? = some 0
  not_shorter : chunks.Pairwise fun earlier later => earlier.length ≤ later.length

/-- Two reads that are shown have the same trace when they have the same bytes. -/
theorem ShowsReads.same_trace {outputs outputs' : List ReadOutput} (h : ShowsReads outputs)
    (h' : ShowsReads outputs') {o o' : ReadOutput} (ho : o ∈ outputs) (ho' : o' ∈ outputs')
    (hc : o.chunk = o'.chunk) : o.printed = o'.printed ∧ o.logged = o'.logged := by
  have hprinted : o.printed = o'.printed := by rw [h.shows o ho, h'.shows o' ho', hc]
  have hlogged := (h.agrees o ho).symm.trans (hprinted ▸ h'.agrees o' ho')
  refine ⟨hprinted, ?_⟩
  simpa using hlogged

/-- Every chunk is the array as a C string when it has arrived. -/
def ShownOn : Buffer maxLength → List Text → Prop
  | _, [] => True
  | data, chunk :: chunks => (data.fill chunk).toCString = some chunk ∧ ShownOn (data.fill chunk) chunks

theorem shownOn_iff {data : Buffer maxLength} {chunks : List Text}
    (hlen : ∀ chunk ∈ chunks, chunk.length ≤ maxLength) :
    ShownOn data chunks ↔ CleanReads data chunks := by
  induction chunks generalizing data with
  | nil => exact ⟨fun _ => ⟨by simp, by simp, List.Pairwise.nil⟩, fun _ => trivial⟩
  | cons chunk chunks ih =>
    rw [List.forall_mem_cons] at hlen
    rw [ShownOn, ih hlen.2, fill_toCString_iff data hlen.1]
    constructor
    · rintro ⟨⟨hzero, hend⟩, h⟩
      -- A later chunk that is shorter would be followed by a byte of this one.
      have hlater : ∀ later ∈ chunks, chunk.length ≤ later.length ∧ data.bytes[later.length]? = some 0 := by
        intro later hl
        have ht := h.terminated later hl
        rw [fill_getElem? data hlen.1] at ht
        split at ht
        · exact absurd (List.mem_of_getElem? ht) hzero
        · exact ⟨by omega, ht⟩
      refine ⟨?_, ?_, ?_⟩
      · rw [List.forall_mem_cons]
        exact ⟨hzero, h.no_zero⟩
      · rw [List.forall_mem_cons]
        exact ⟨hend, fun later hl => (hlater later hl).2⟩
      · exact List.pairwise_cons.mpr ⟨fun later hl => (hlater later hl).1, h.not_shorter⟩
    · rintro ⟨hzero, hend, hpair⟩
      rw [List.forall_mem_cons] at hzero hend
      rw [List.pairwise_cons] at hpair
      refine ⟨⟨hzero.1, hend.1⟩, hzero.2, ?_, hpair.2⟩
      intro later hl
      rw [fill_getElem? data hlen.1, if_neg (Nat.not_lt.mpr (hpair.1 later hl))]
      exact hend.2 later hl

section
variable {log : Text} {w w' : World} {id : SessionId}

/-- What one read adds: the array as a C string to the console, the chunk to the log. -/
theorem lookAtRead_received {session : Session} (hs : w.sessions id = some session) {chunk : Text}
    (hlen : chunk.length ≤ maxLength) (hn : complete w (.received id chunk) = some w') :
    lookAtRead id w (.received id chunk) w' =
        [⟨chunk, [⟨chunk.length, maxLength, (session.data_.fill chunk).toCString⟩], chunk⟩] ∧
      w'.sessions id = some ⟨session.data_.fill chunk⟩ := by
  rw [complete_received hs] at hn
  cases hn
  have htake : (session.data_.fill chunk).bytes.take chunk.length = chunk := fill_bytes_take _ hlen
  constructor
  · simp [lookAtRead, Completion.chunkTo, World.start, World.print, World.deposit, World.finish, htake]
  · simp [World.start, World.print, World.deposit]

theorem chunkTo_eq_some_iff {c : Completion} {chunk : Text} :
    c.chunkTo id = some chunk ↔ c = .received id chunk := by
  cases c with
  | received other chunk' =>
    simp only [Completion.chunkTo, Completion.received.injEq]
    by_cases h : other = id <;> simp [h]
  | _ => simp [Completion.chunkTo]

theorem showsReads_nil : ShowsReads [] := ⟨by simp, by simp⟩

theorem showsReads_cons {chunk : Text} {data : Option Text} {outputs : List ReadOutput} :
    ShowsReads (⟨chunk, [⟨chunk.length, maxLength, data⟩], chunk⟩ :: outputs) ↔
      data = some chunk ∧ ShowsReads outputs := by
  constructor
  · intro h
    have hfirst := h.shows _ (List.mem_cons_self ..)
    simp only [List.cons.injEq, TraceLine.mk.injEq, true_and, and_true] at hfirst
    exact ⟨hfirst, fun o ho => h.shows o (List.mem_cons_of_mem _ ho),
      fun o ho => h.agrees o (List.mem_cons_of_mem _ ho)⟩
  · rintro ⟨rfl, h⟩
    refine ⟨?_, ?_⟩
    · rw [List.forall_mem_cons]
      exact ⟨rfl, h.shows⟩
    · rw [List.forall_mem_cons]
      exact ⟨rfl, h.agrees⟩

/-- The reads of a Session are shown when each chunk is the array as a C string. What other
Sessions do in between does not matter. -/
theorem showsReads_run {events : List Completion} (hrun : (echoServer log).Run w events w')
    (hw : (echoServer log).Reachable w) (hid : id < w.nextSession) {data : Buffer maxLength}
    (hdata : ∀ session, w.sessions id = some session → session.data_ = data) :
    ShowsReads (readOutputs log id w events) ↔ ShownOn data (readsOf id events) := by
  induction hrun generalizing data with
  | nil w => exact ⟨fun _ => trivial, fun _ => showsReads_nil⟩
  | @cons w mid w' c events he hn hrun ih =>
    have hl := (lifecycle_invariant log).of_reachable hw
    have hid' : id < mid.nextSession := Nat.lt_of_lt_of_le hid (hl.nextSession_le he hn)
    rw [readOutputs, System.observe_cons _ hn, readsOf, List.filterMap_cons]
    cases hc : c.chunkTo id with
    | none =>
      have hkept : ∀ session, mid.sessions id = some session → session.data_ = data := by
        intro session hs
        have hother : ∀ chunk, c ≠ .received id chunk := by
          intro chunk heq
          rw [chunkTo_eq_some_iff.mpr heq] at hc
          cases hc
        rcases hl.unread he hn hid hother with h | h
        · exact hdata session (h ▸ hs)
        · rw [h] at hs
          cases hs
      simp only [lookAtRead, hc, List.nil_append]
      exact ih (.step hw he hn) hid' hkept
    | some chunk =>
      obtain rfl := chunkTo_eq_some_iff.mp hc
      obtain ⟨session, hs⟩ := hl.operations.live_of_mem he.1
      obtain ⟨hlook, hfill⟩ := lookAtRead_received hs he.2.2 hn
      rw [hdata session hs] at hlook hfill
      have hkept : ∀ session, mid.sessions id = some session → session.data_ = data.fill chunk := by
        intro session' hs'
        rw [hfill] at hs'
        cases hs'
        rfl
      rw [hlook, List.singleton_append, showsReads_cons, ShownOn]
      exact and_congr_right fun _ => ih (.step hw he hn) hid' hkept

theorem readsOf_length {events : List Completion} (hrun : (echoServer log).Run w events w') :
    ∀ chunk ∈ readsOf id events, chunk.length ≤ maxLength := by
  induction hrun with
  | nil w => simp [readsOf]
  | @cons w mid w' c events he hn hrun ih =>
    intro chunk hchunk
    rw [readsOf, List.filterMap_cons] at hchunk
    cases hc : c.chunkTo id with
    | none =>
      rw [hc] at hchunk
      exact ih chunk hchunk
    | some first =>
      obtain rfl := chunkTo_eq_some_iff.mp hc
      rw [hc] at hchunk
      rcases List.mem_cons.mp hchunk with rfl | hchunk
      · exact he.2.2
      · exact ih chunk hchunk

end

/-- The server before its first connection. -/
def firstWorld : World := Server.startAccept (Buffer.zeroed maxLength) (emptyWorld [])

theorem firstWorld_session : firstWorld.sessions 0 = some ⟨Buffer.zeroed maxLength⟩ := rfl

/-- The first Session is connected, reads and echoes a chunk, and reads another one. -/
def twoReads (first second : Text) : List Completion :=
  [.accepted 0 false (Buffer.zeroed maxLength), .received 0 first,
    .progressed 0 first.length 0 first.length, .written 0 first.length, .received 0 second]

theorem run_twoReads {first second : Text} (hf : 0 < first.length ∧ first.length ≤ maxLength)
    (hs : 0 < second.length ∧ second.length ≤ maxLength) :
    ∃ w', (echoServer []).Run firstWorld (twoReads first second) w' := by
  refine ⟨_, .cons ?_ (complete_accepted ⟨_, rfl⟩ _) (.cons ?_ (complete_received rfl first) (.cons ?_
    (complete_progressed rfl _ _ _) (.cons ?_ (complete_written ⟨_, rfl⟩ _) (.cons ?_
    (complete_received rfl second) (.nil _)))))⟩
  · exact List.mem_singleton_self _
  · exact ⟨by decide, hf⟩
  · simp [enabled, echoServer, World.start, World.finish, World.deposit, World.print, hf.1]
  · simp [enabled, echoServer, World.start, World.finish, World.deposit, World.print, World.transmit]
  · simp [enabled, echoServer, World.start, World.finish, World.noteEchoed, hs]

/-- In every run the console shows what a Session has just read, and agrees with the log,
exactly when no chunk has a NUL, the array of the Session has a NUL behind each of them, and
no chunk is shorter than one before it. -/
theorem trace_shows_reads_iff {log : Text} {w w' : World} {id : SessionId} {events : List Completion}
    (hw : (echoServer log).Reachable w) {session : Session} (hs : w.sessions id = some session)
    (hrun : (echoServer log).Run w events w') :
    ShowsReads (readOutputs log id w events) ↔ CleanReads session.data_ (readsOf id events) := by
  have hl := (lifecycle_invariant log).of_reachable hw
  have hid : id < w.nextSession := (hl.accounted.created id).mpr (.inl ⟨session, hs⟩)
  have hdata : ∀ session', w.sessions id = some session' → session'.data_ = session.data_ := by
    intro session' hs'
    rw [hs] at hs'
    cases hs'
    rfl
  rw [showsReads_run hrun hw hid hdata, shownOn_iff (readsOf_length hrun)]

/-- A longer chunk behind a shorter one is shown. -/
theorem longer_read_shown : ShowsReads (readOutputs [] 0 firstWorld (twoReads (text "hi") (text "hello"))) := by
  obtain ⟨w', hrun⟩ := @run_twoReads (text "hi") (text "hello") (by decide) (by decide)
  refine (trace_shows_reads_iff (.initial ⟨_, rfl⟩) firstWorld_session hrun).mpr ⟨?_, ?_, ?_⟩
  · decide
  · have hzero : ∀ n, n < maxLength → (Buffer.zeroed maxLength).bytes[n]? = some 0 := by
      intro n hn
      simp [Buffer.zeroed, hn]
    intro chunk hchunk
    have hreads : readsOf 0 (twoReads (text "hi") (text "hello")) = [text "hi", text "hello"] := rfl
    rw [hreads, List.mem_cons, List.mem_singleton] at hchunk
    rcases hchunk with rfl | rfl
    · exact hzero _ (by decide)
    · exact hzero _ (by decide)
  · decide

/-- A shorter chunk behind a longer one is shown with the end of the longer one. -/
theorem shorter_read_shows_more : ∃ w', (echoServer []).Reachable firstWorld ∧
    (echoServer []).Run firstWorld (twoReads (text "hello") (text "hi")) w' ∧
      (((Buffer.zeroed maxLength).fill (text "hello")).fill (text "hi")).toCString = some (text "hillo") ∧
        ¬ ShowsReads (readOutputs [] 0 firstWorld (twoReads (text "hello") (text "hi"))) := by
  obtain ⟨w', hrun⟩ := @run_twoReads (text "hello") (text "hi") (by decide) (by decide)
  have hw : (echoServer []).Reachable firstWorld := .initial ⟨_, rfl⟩
  refine ⟨w', hw, hrun, by decide +kernel, ?_⟩
  have hdata : ∀ session, firstWorld.sessions 0 = some session → session.data_ = Buffer.zeroed maxLength := by
    intro session hs
    rw [firstWorld_session] at hs
    cases hs
    rfl
  rw [showsReads_run hrun hw (by decide) hdata, shownOn_iff (readsOf_length hrun)]
  intro h
  exact absurd h.not_shorter (by decide)

end FastCgi
