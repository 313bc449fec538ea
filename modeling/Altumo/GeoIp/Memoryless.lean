import Altumo.GeoIp.Framing
import Altumo.GeoIp.Ownership

/-!
# Sessions remember nothing

A session that reads chunks and then the end of the stream writes one frame for each
chunk. The array of a pass may hold anything, also what an earlier pass left: no byte of
it is in the frame, which is the response to the chunk and zeros.
-/

namespace GeoIp

open CString InputStream

/-- The state of a session: the server that it shares, the frames that it has written, and
how it ended; it is `waiting` as long as the loop goes on. -/
structure SessionState where
  server : GeoIpServer
  frames : List (Buffer maxLength)
  ending : Ending

/-- One pass of the loop of `handleSession`. -/
def sessionPass (st : SessionState) (pass : Pass) : SessionState :=
  match st.ending with
  | .waiting =>
    match pass.read with
    | .eof => { st with ending := .closed }
    | .failed => { st with ending := .exception }
    | .received chunk =>
      match respond st.server (pass.data.fill chunk) chunk.length with
      | none => { st with ending := .undefined }
      | some data =>
        if pass.written then { st with frames := st.frames ++ [data] } else { st with ending := .exception }
  | _ => st

theorem foldl_sessionPass_ended {st : SessionState} (h : st.ending ≠ .waiting) (passes : List Pass) :
    passes.foldl sessionPass st = st := by
  induction passes with
  | nil => rfl
  | cons pass passes ih =>
    have hstep : sessionPass st pass = st := by
      rw [sessionPass]
      split
      · contradiction
      · rfl
    rw [List.foldl_cons, hstep, ih]

/-- The passes over the state are the run of the session, and the server stays as it is. -/
theorem foldl_sessionPass (server : GeoIpServer) (frames : List (Buffer maxLength)) (passes : List Pass) :
    passes.foldl sessionPass ⟨server, frames, .waiting⟩ =
      ⟨server, frames ++ (handleSession server passes).frames, (handleSession server passes).ending⟩ := by
  induction passes generalizing frames with
  | nil => simp [handleSession]
  | cons pass passes ih =>
    rw [List.foldl_cons, sessionPass, handleSession]
    cases pass.read with
    | eof => simp [foldl_sessionPass_ended]
    | failed => simp [foldl_sessionPass_ended]
    | received chunk =>
      cases hr : respond server (pass.data.fill chunk) chunk.length with
      | none => simp [hr, foldl_sessionPass_ended]
      | some data =>
        cases hw : pass.written with
        | false => simp [hr, foldl_sessionPass_ended]
        | true => simp [hr, ih]

/-- The reads of a session return the chunks and then the end of the stream, so that no
write before has failed. -/
structure Serves (chunks : List Text) (passes : List Pass) : Prop where
  reads : passes.map Pass.read = chunks.map ReadSome.received ++ [.eof]
  written : ∀ pass ∈ passes, pass.written = true

/-- What one call of `read_some` can return. -/
def ChunkLengths (chunks : List Text) : Prop := ∀ chunk ∈ chunks, 0 < chunk.length ∧ chunk.length ≤ maxLength

/-- The response text of every stored Location fits the frame. -/
def ResponsesFit (server : GeoIpServer) : Prop :=
  ∀ k p l, server.locationsTable.find? k = some p → server.heap[p]? = some l →
    (locationResponse l).length ≤ maxLength

/-- The frame is the response to the chunk and zeros. -/
def AnswersChunk (server : GeoIpServer) (chunk : Text) (f : Buffer maxLength) : Prop :=
  ∃ response, responseText server (getLocationByIpText server chunk) = some response ∧
    response.length ≤ maxLength ∧ f.bytes = response ++ List.replicate (maxLength - response.length) 0

theorem getLocationByIpText_stored {server : GeoIpServer} {s : Text} {p : LocationPtr}
    (h : getLocationByIpText server s = some p) : ∃ k, server.addressTable.find? k = some p := by
  rw [getLocationByIpText] at h
  split at h
  · obtain ⟨k, -, hk, -⟩ := ((getLocationByIp_eq_some_iff _ _ _).mp h).1
    exact ⟨k, hk⟩
  · cases h

/-- A response that fits has no NUL, so the frame of a chunk is the response and zeros. -/
theorem answerFrame_answers {locations blocks : List Text} (hfit : ResponsesFit (loadedServer locations blocks))
    (chunk : Text) : ∃ f, answerFrame (loadedServer locations blocks) chunk = some f ∧
      AnswersChunk (loadedServer locations blocks) chunk f := by
  have hresponse : ∃ response, responseText (loadedServer locations blocks)
      (getLocationByIpText (loadedServer locations blocks) chunk) = some response ∧
      response.length ≤ maxLength ∧ (0 : Byte) ∉ response := by
    cases hp : getLocationByIpText (loadedServer locations blocks) chunk with
    | none => exact ⟨_, rfl, by decide, by decide⟩
    | some p =>
      obtain ⟨k, hk⟩ := getLocationByIpText_stored hp
      obtain ⟨j, r, hj, hr, hl⟩ := loadedServer_stored locations blocks (.inr hk)
      refine ⟨locationResponse r.location, ?_, hfit j p _ hj hl, ?_⟩
      · rw [responseText, hl, Option.map_some]
      · exact zero_notMem_locationResponse (zero_notMem_fields hr)
  obtain ⟨response, hr, hlen, hz⟩ := hresponse
  obtain ⟨f, hf, hb⟩ := frame_eq_some hlen (Buffer.zeroed maxLength)
  refine ⟨f, ?_, response, hr, hlen, ?_⟩
  · rw [answerFrame, hr]
    exact hf
  · rw [hb, strncpyBytes_self hz]

/-- A session that serves chunks ends with the stream, and its frames are those of the
chunks. -/
theorem handleSession_serves {server : GeoIpServer} {chunks : List Text} {passes : List Pass}
    (hlen : ChunkLengths chunks) (hanswer : ∀ chunk ∈ chunks, ∃ f, answerFrame server chunk = some f)
    (h : Serves chunks passes) : (handleSession server passes).ending = .closed ∧
      (handleSession server passes).frames.map some = chunks.map (answerFrame server) := by
  induction chunks generalizing passes with
  | nil =>
    have hreads := h.reads
    cases passes with
    | nil => simp at hreads
    | cons pass passes =>
      simp only [List.map_cons, List.map_nil, List.nil_append, List.cons.injEq] at hreads
      simp [handleSession, hreads.1]
  | cons chunk chunks ih =>
    obtain ⟨hreads, hwritten⟩ := h
    rw [ChunkLengths, List.forall_mem_cons] at hlen
    rw [List.forall_mem_cons] at hanswer
    cases passes with
    | nil => simp at hreads
    | cons pass passes =>
      simp only [List.map_cons, List.cons_append, List.cons.injEq] at hreads
      obtain ⟨hread, hreads⟩ := hreads
      rw [List.forall_mem_cons] at hwritten
      obtain ⟨hend, hframes⟩ := ih hlen.2 hanswer.2 ⟨hreads, hwritten.2⟩
      obtain ⟨f, hf⟩ := hanswer.1
      have hrespond := respond_fill server pass.data hlen.1.2
      rw [hf] at hrespond
      simp [handleSession, hread, hrespond, hwritten.1, hend, hframes, hf]

/-- What a session is for the chunks that it serves: it writes the answer to each chunk, in
order, and ends with the stream; the server stays as it is, and two sessions write the same
frame for the same chunk, whatever came before. -/
structure Memoryless (server : GeoIpServer) (chunks : List Text) (passes : List Pass) : Prop where
  run : passes.foldl sessionPass ⟨server, [], .waiting⟩ =
    ⟨server, (handleSession server passes).frames, .closed⟩
  one_each : (handleSession server passes).frames.length = chunks.length
  answers : ∀ (k : Nat) f chunk, (handleSession server passes).frames[k]? = some f → chunks[k]? = some chunk →
    AnswersChunk server chunk f
  history_free : ∀ chunks' passes', ChunkLengths chunks' → Serves chunks' passes' →
    ∀ k k' : Nat, chunks[k]? = chunks'[k']? →
      (handleSession server passes).frames[k]? = (handleSession server passes').frames[k']?

theorem session_memoryless {locations blocks : FileState} {server : GeoIpServer}
    (hload : Loads locations blocks server) (hfit : ResponsesFit server) {chunks : List Text} {passes : List Pass}
    (hlen : ChunkLengths chunks) (h : Serves chunks passes) : Memoryless server chunks passes := by
  obtain ⟨-, -, rfl⟩ := (loads_iff _ _ _).mp hload
  have hserves : ∀ {chunks passes}, ChunkLengths chunks → Serves chunks passes →
      (handleSession (loadedServer locations.lines blocks.lines) passes).ending = .closed ∧
        (handleSession (loadedServer locations.lines blocks.lines) passes).frames.map some =
          chunks.map (answerFrame (loadedServer locations.lines blocks.lines)) := by
    intro chunks passes hlen h
    refine handleSession_serves hlen (fun chunk _ => ?_) h
    obtain ⟨f, hf, -⟩ := answerFrame_answers hfit chunk
    exact ⟨f, hf⟩
  obtain ⟨hend, hframes⟩ := hserves hlen h
  refine ⟨?_, ?_, ?_, ?_⟩
  · rw [foldl_sessionPass, hend, List.nil_append]
  · simpa using congrArg List.length hframes
  · intro k f chunk hf hchunk
    have hk := congrArg (fun l => l[k]?) hframes
    simp only [List.getElem?_map, hf, hchunk, Option.map_some, Option.some.injEq] at hk
    obtain ⟨g, hg, hanswers⟩ := answerFrame_answers hfit chunk
    rw [← hk] at hg
    cases hg
    exact hanswers
  · intro chunks' passes' hlen' h' k k' hk
    have hsome := congrArg (fun l => l[k]?) hframes
    have hsome' := congrArg (fun l => l[k']?) (hserves hlen' h').2
    simp only [List.getElem?_map] at hsome hsome'
    rw [hk, ← hsome'] at hsome
    exact Option.map_injective (fun _ _ he => Option.some.inj he) hsome

/-- Two passes that read a chunk each, and one that reads the end of the stream. -/
def probePasses (first second : Text) : List Pass :=
  [⟨Buffer.zeroed maxLength, .received first, true⟩, ⟨Buffer.zeroed maxLength, .received second, true⟩,
    ⟨Buffer.zeroed maxLength, .eof, true⟩]

theorem probe_session_memoryless : Memoryless (probeServer 16909060) [text "1.2.3.4", text "localhost"]
    (probePasses (text "1.2.3.4") (text "localhost")) := by
  have hfit : ResponsesFit (probeServer 16909060) := by
    intro k p l _ hl
    rw [probe_heap] at hl
    rw [List.mem_singleton.mp (List.mem_of_getElem? hl), locationResponse_length]
    decide
  have hlen : ChunkLengths [text "1.2.3.4", text "localhost"] := by
    intro chunk hchunk
    simp only [List.mem_cons, List.not_mem_nil, or_false] at hchunk
    rcases hchunk with rfl | rfl
    · decide
    · decide
  have hserves : Serves [text "1.2.3.4", text "localhost"] (probePasses (text "1.2.3.4") (text "localhost")) := by
    refine ⟨rfl, ?_⟩
    simp [probePasses]
  exact session_memoryless (probe_loads 16909060) hfit hlen hserves

end GeoIp
