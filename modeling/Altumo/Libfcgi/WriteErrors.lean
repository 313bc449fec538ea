import Altumo.Libfcgi.OutputRuns

/-!
# Failed writes

Here a write may fail at any time. The calls still return, the pointers of the
writers stay in order, and the end of the request reports a failure exactly when
one of the writes failed.
-/

namespace Libfcgi

open CString Descriptor Transition

/-- A step of a writer: the results of `write` that it used up, and whether the error
of the writer says that one of them was a failure. -/
def Tracks (w : Writer) (req : Request) (w' : Writer) (req' : Request) : Prop :=
  ∃ used, req.ipc.outbox.results = used ++ req'.ipc.outbox.results ∧
    (w'.errno ≠ 0 ↔ w.errno ≠ 0 ∨ ∃ e, .failed e ∈ used)

section Step

variable {w w' w'' : Writer} {req req' req'' : Request}

theorem Tracks.of_eq (hw : w'.errno = w.errno) (hr : req'.ipc.outbox.results = req.ipc.outbox.results) :
    Tracks w req w' req' := ⟨[], by simp [hr], by simp [hw]⟩

theorem Tracks.trans (h : Tracks w req w' req') (h' : Tracks w' req' w'' req'') : Tracks w req w'' req'' := by
  obtain ⟨used, hr, he⟩ := h
  obtain ⟨used', hr', he'⟩ := h'
  refine ⟨used ++ used', by rw [hr, hr', List.append_assoc], ?_⟩
  rw [he', he]
  simp only [List.mem_append, exists_or, or_assoc]

theorem writeLoop_used (results : List WriteResult) (buf sent : Text) :
    ∃ used, results = used ++ (writeLoop results buf sent).2.results ∧
      ((writeLoop results buf sent).1 ≠ none ↔ ∃ e, .failed e ∈ used) := by
  induction results generalizing buf sent with
  | nil => cases buf <;> exact ⟨[], by simp [writeLoop], by simp [writeLoop]⟩
  | cons r results ih =>
    cases buf with
    | nil => exact ⟨[], by simp [writeLoop], by simp [writeLoop]⟩
    | cons b buf =>
      cases r with
      | wrote count =>
        obtain ⟨used, hr, he⟩ := ih ((b :: buf).drop count) (sent ++ (b :: buf).take count)
        refine ⟨.wrote count :: used, ?_, ?_⟩
        · simpa [writeLoop] using hr
        · simpa [writeLoop] using he
      | failed errno => exact ⟨[.failed errno], by simp [writeLoop], by simp [writeLoop]⟩

theorem transmit_tracks (w : Writer) (req : Request) : Tracks w req (transmit w req).1 (transmit w req).2 := by
  have hused := writeLoop_used req.ipc.outbox.results w.content req.ipc.outbox.sent
  have ht := transmitted w req
  generalize transmit w req = result at ht ⊢
  cases ht with
  | idle hz => exact .of_eq rfl rfl
  | wrote hne hw =>
    obtain ⟨used, hr, he⟩ := hused
    rw [← writeItAll, hw] at hr he
    refine ⟨used, hr, ?_⟩
    have hnone : ¬ ∃ e, WriteResult.failed e ∈ used := fun hf => he.mpr hf rfl
    simp only [hnone, or_false]
    rfl
  | failed hne hw =>
    rename_i errno o
    obtain ⟨used, hr, he⟩ := hused
    rw [← writeItAll, hw] at hr he
    refine ⟨used, hr, ?_⟩
    have hsome := he.mp (by simp)
    have hpos := errno.property
    have herr : ({ w with isAnythingWritten := true }.setError errno).errno ≠ 0 := by
      simp only [Writer.setError]
      split
      · omega
      · assumption
    exact iff_of_true herr (.inr hsome)

theorem emptyBuffProc_tracks (w : Writer) (req : Request) :
    Tracks w req (emptyBuffProc w req).1 (emptyBuffProc w req).2 := by
  obtain ⟨r, c, he⟩ := encapsulate_frame w req.requestId
  have hstart : Tracks w req (w.encapsulate req.requestId) req := .of_eq (by rw [he]) rfl
  exact hstart.trans (transmit_tracks _ req)

theorem putChar_tracks (c : Byte) (w : Writer) (req : Request) :
    Tracks w req (putChar c w req).2.1 (putChar c w req).2.2 := by
  simp only [putChar]
  split
  · exact .of_eq rfl rfl
  · split
    · exact .of_eq rfl rfl
    · have he := emptyBuffProc_tracks w req
      split
      · exact he.trans (.of_eq rfl rfl)
      · exact he

theorem putChars_tracks (str : Text) (w : Writer) (req : Request) :
    Tracks w req (putChars str w req).2.1 (putChars str w req).2.2 := by
  induction str generalizing w req with
  | nil => exact .of_eq rfl rfl
  | cons c cs ih => exact (putChar_tracks c w req).trans (ih _ _)

/-- A call on a sound writer returns and leaves a sound writer. -/
structure Works (w : Writer) (req : Request) (w' : Writer) (req' : Request) : Prop where
  sound : w'.Sound
  notCalled : w'.wasFCloseCalled = w.wasFCloseCalled
  tracks : Tracks w req w' req'

theorem Works.trans (h : Works w req w' req') (h' : Works w' req' w'' req'') : Works w req w'' req'' :=
  ⟨h'.sound, h'.notCalled.trans h.notCalled, h.tracks.trans h'.tracks⟩

theorem putStr_works (h : w.Sound) (str : Text) (req : Request) :
    ∃ r w' req', putStr str w req = some (r, w', req') ∧ Works w req w' req' := by
  refine ⟨_, _, _, putStr_eq_putChars h str req, ?_⟩
  obtain ⟨hs, hf⟩ := putChars_sound h str req
  exact ⟨hs, hf, putChars_tracks str w req⟩

theorem writeEof_works (h : w.Sound) (req : Request) :
    ∃ w' req', writeEof w req = some (w', req') ∧ Works w req w' req' := by
  unfold writeEof
  split
  · obtain ⟨r, w', req', hrun, hw⟩ := putStr_works h (makeHeader w.type req.requestId 0 0).bytes req
    exact ⟨w', req', by simp [hrun], hw⟩
  · exact ⟨w, req, rfl, h, rfl, .of_eq rfl rfl⟩

theorem writeEndRequest_works (h : w.Sound) (req : Request) :
    ∃ w' req', writeEndRequest w req = some (w', req') ∧ Works w req w' req' := by
  unfold writeEndRequest
  split
  · obtain ⟨r, w', req', hrun, hw⟩ := putStr_works h (endRequestBytes req.requestId req.appStatus requestComplete) req
    exact ⟨w', req', by simp [hrun], hw⟩
  · exact ⟨w, req, rfl, h, rfl, .of_eq rfl rfl⟩

theorem emptyBuffProcClose_works (h : w.Sound) (hf : w.wasFCloseCalled = false) (req : Request) :
    ∃ w' req', emptyBuffProcClose w req = some (w', req') ∧ Works w req w' req' := by
  have hs := encapsulate_sound h hf req.requestId
  obtain ⟨r, c, he⟩ := encapsulate_frame w req.requestId
  have hraw : (w.encapsulate req.requestId).raw.Sound := ⟨hs.used_le, hs.stop_le, hs.reserved_le, hs.stop_eq, hs.closed⟩
  have hstart : Works w req (w.encapsulate req.requestId).raw req :=
    ⟨hraw, by rw [he]; rfl, .of_eq (by rw [he]; rfl) rfl⟩
  obtain ⟨w₁, req₁, hrun₁, h₁⟩ := writeEof_works hraw req
  obtain ⟨w₂, req₂, hrun₂, h₂⟩ := writeEndRequest_works h₁.sound req₁
  have hf₂ : w₂.wasFCloseCalled = false := by
    rw [h₂.notCalled, h₁.notCalled, hstart.notCalled]
    exact hf
  have h₃ : Works w₂ req₂ w₂ req₂.dropWriter := ⟨h₂.sound, rfl, .of_eq rfl rfl⟩
  obtain ⟨hs₄, hf₄, -⟩ := transmit_sound h₂.sound hf₂ req₂.dropWriter
  have h₄ : Works w₂ req₂.dropWriter (transmit w₂ req₂.dropWriter).1 (transmit w₂ req₂.dropWriter).2 :=
    ⟨hs₄, hf₄.trans hf₂.symm, transmit_tracks _ _⟩
  refine ⟨_, _, ?_, (((hstart.trans h₁).trans h₂).trans h₃).trans h₄⟩
  simp [emptyBuffProcClose, writeCloseRecords, hrun₁, hrun₂]

/-- `FCGX_FClose` reports the error that its writer has met, if any. -/
theorem fclose_works (h : w.Sound) (req : Request) :
    ∃ w' req', fclose w req = some (w'.errno == 0, w', req') ∧ w'.Sound ∧ Tracks w req w' req' := by
  cases hf : w.wasFCloseCalled with
  | true => exact ⟨w, req, by simp [fclose, hf], h, .of_eq rfl rfl⟩
  | false =>
    obtain ⟨w₁, req₁, hrun, hw⟩ := emptyBuffProcClose_works h hf req
    have hle := hw.sound.used_le
    have hstop := hw.sound.stop_le
    refine ⟨w₁.shutDown, req₁, ?_, ⟨Nat.le_refl _, Nat.le_trans hle hstop, hw.sound.reserved_le, ?_, fun _ => rfl⟩, hw.tracks⟩
    · simp [fclose, hf, hrun, Writer.shutDown]
    · exact fun hc => absurd hc (by simp [Writer.shutDown])

/-- The state of the writing side, failures included. -/
structure Traced (start : Request) (o : Output) : Prop where
  sound : ∀ s, (o.writer s).Sound
  tracks : ∃ used, start.ipc.outbox.results = used ++ o.req.ipc.outbox.results ∧
    ((∃ s, (o.writer s).errno ≠ 0) ↔ ∃ e, .failed e ∈ used)

theorem Traced.update {start : Request} {o : Output} (h : Traced start o) {s : Sink} {w' : Writer} {req' : Request}
    (hs : w'.Sound) (ht : Tracks (o.writer s) o.req w' req') (accepted : Text) :
    Traced start (o.update w' req' accepted s) := by
  obtain ⟨used, hr, he⟩ := h.tracks
  obtain ⟨used', hr', he'⟩ := ht
  refine ⟨?_, used ++ used', ?_, ?_⟩
  · intro s'
    by_cases hss : s' = s
    · subst hss
      rw [update_writer_self]
      exact hs
    · rw [update_writer_ne _ _ _ _ hss]
      exact h.sound s'
  · rw [hr, hr', List.append_assoc]
    rfl
  · simp only [List.mem_append, exists_or]
    rw [← he]
    constructor
    · rintro ⟨s', hne⟩
      by_cases hss : s' = s
      · subst hss
        rw [update_writer_self] at hne
        rcases he'.mp hne with hold | hnew
        · exact .inl ⟨s', hold⟩
        · exact .inr hnew
      · rw [update_writer_ne _ _ _ _ hss] at hne
        exact .inl ⟨s', hne⟩
    · rintro (⟨s', hne⟩ | hnew)
      · by_cases hss : s' = s
        · subst hss
          exact ⟨s', by rw [update_writer_self]; exact he'.mpr (.inl hne)⟩
        · exact ⟨s', by rw [update_writer_ne _ _ _ _ hss]; exact hne⟩
      · exact ⟨s, by rw [update_writer_self]; exact he'.mpr (.inr hnew)⟩

theorem Traced.call {start : Request} {o : Output} (h : Traced start o) {c : Call} (hfits : c.Fits) :
    ∃ o', o.call c = some o' ∧ Traced start o' := by
  cases c with
  | putChar s c =>
    exact ⟨_, rfl, h.update (putChar_sound (h.sound s) c o.req).1 (putChar_tracks c _ _) _⟩
  | putStr s str =>
    obtain ⟨r, w', req', hrun, hw⟩ := putStr_works (h.sound s) str o.req
    exact ⟨_, by simp [Output.call, hrun], h.update hw.sound hw.tracks (if r.isSome then str else [])⟩
  | putS s str =>
    obtain ⟨r, w', req', hrun, hw⟩ := putStr_works (h.sound s) (cStr str) o.req
    exact ⟨_, by simp [Output.call, putS_of_le hfits, hrun],
      h.update hw.sound hw.tracks (if r.isSome then passed str else [])⟩
  | fflush s =>
    cases hc : (o.writer s).isClosed with
    | true => exact ⟨_, by simp [Output.call, Libfcgi.fflush, hc], h.update (h.sound s) (.of_eq rfl rfl) []⟩
    | false =>
      refine ⟨_, by simp [Output.call, Libfcgi.fflush, hc], h.update (s := s) (emptyBuffProc_sound (h.sound s) hc o.req).1
        (emptyBuffProc_tracks _ _) []⟩
  | fclose s =>
    obtain ⟨w', req', hrun, hs, ht⟩ := fclose_works (h.sound s) o.req
    exact ⟨_, by simp [Output.call, hrun], h.update hs ht []⟩
  | setExitStatus status => exact ⟨_, rfl, h.sound, h.tracks⟩

theorem startOutput_traced (start : Request) (outLen errLen : BuffLen) :
    Traced start (startOutput start outLen errLen) := by
  refine ⟨?_, [], rfl, ?_⟩
  · intro s
    obtain ⟨b, hb⟩ := startOutput_writer start outLen errLen s
    rw [hb]
    exact newWriter_sound b s.type
  · refine iff_of_false ?_ (by simp)
    rintro ⟨s, hne⟩
    obtain ⟨b, hb⟩ := startOutput_writer start outLen errLen s
    rw [hb] at hne
    exact hne rfl

theorem traced_invariant (start : Request) : (outputSystem start).Invariant (Traced start) where
  initial := by
    rintro o ⟨outLen, errLen, rfl⟩
    exact startOutput_traced start outLen errLen
  step := by
    rintro o c o' - h hfits hn
    obtain ⟨o'', hcall, ht⟩ := h.call hfits
    have heq : o'' = o' := Option.some.inj (hcall.symm.trans hn)
    exact heq ▸ ht

theorem Traced.finish {start : Request} {o : Output} (h : Traced start o) :
    ∃ ok o', o.finish = some (ok, o') ∧ Traced start o' ∧ (ok = true ↔ ∀ s, (o'.writer s).errno = 0) := by
  obtain ⟨err, req₁, hrun₁, hs₁, ht₁⟩ := fclose_works (h.sound .err) o.req
  have h₁ := h.update hs₁ ht₁ []
  obtain ⟨out, req₂, hrun₂, hs₂, ht₂⟩ := fclose_works (h₁.sound .out) (o.update err req₁ [] .err).req
  have h₂ := h₁.update hs₂ ht₂ []
  have herr : Libfcgi.fclose o.err o.req = some (err.errno == 0, err, req₁) := hrun₁
  have hout : Libfcgi.fclose (o.update err req₁ [] .err).out (o.update err req₁ [] .err).req =
      some (out.errno == 0, out, req₂) := hrun₂
  refine ⟨err.errno == 0 && out.errno == 0, _, ?_, h₂, ?_⟩
  · simp [Output.finish, herr, hout]
  · rw [Bool.and_eq_true, beq_iff_eq, beq_iff_eq]
    constructor
    · rintro ⟨herr0, hout0⟩ s
      cases s
      · exact hout0
      · exact herr0
    · intro hall
      exact ⟨hall .err, hall .out⟩

end Step

/-- Whatever fails while a request is answered, the calls return, and the end of the
request reports a failure exactly when one of the writes that were made has failed. -/
theorem finish_reports_failures {start : Request} {o : Output} (h : (outputSystem start).Reachable o) :
    (outputSystem start).Safe o ∧ ∃ ok o' used, o.finish = some (ok, o') ∧
      start.ipc.outbox.results = used ++ o'.req.ipc.outbox.results ∧ (ok = true ↔ ∀ e, .failed e ∉ used) := by
  have ht := (traced_invariant start).of_reachable h
  obtain ⟨ok, o', hrun, ht', hok⟩ := ht.finish
  obtain ⟨used, hused, he⟩ := ht'.tracks
  refine ⟨?_, ok, o', used, hrun, hused, ?_⟩
  · intro c hfits
    obtain ⟨o'', hcall, _⟩ := ht.call hfits
    exact ⟨o'', hcall⟩
  · rw [hok]
    constructor
    · intro hall e hm
      obtain ⟨s, hne⟩ := he.mpr ⟨e, hm⟩
      exact hne (hall s)
    · intro hnone s
      by_contra hne
      obtain ⟨e, hm⟩ := he.mp ⟨s, hne⟩
      exact hnone e hm

/-- The connection is gone when the request ends. -/
theorem finish_reports_failures_gone :
    ∃ ok o used, (outputOver [.failed ⟨32, by decide⟩]).finish = some (ok, o) ∧
      [.failed ⟨32, by decide⟩] = used ++ o.req.ipc.outbox.results ∧ (ok = true ↔ ∀ e, .failed e ∉ used) := by
  obtain ⟨-, ok, o, used, hrun, hused, hok⟩ := finish_reports_failures (outputOver_reachable [.failed ⟨32, by decide⟩])
  exact ⟨ok, o, used, hrun, hused, hok⟩

/-- `FCGX_PutStr` agrees with `FCGX_PutChar` on every byte, in every state that calls
and failures can lead to: it leaves the same writer and the same connection, and it
reports an error exactly when one of the bytes would have been refused. -/
theorem putStr_agrees {start : Request} {o : Output} (h : (outputSystem start).Reachable o) (s : Sink) (str : Text) :
    putStr str (o.writer s) o.req =
      some (if (putChars str (o.writer s) o.req).1 then some str.length else none,
        (putChars str (o.writer s) o.req).2) :=
  putStr_eq_putChars (((traced_invariant start).of_reachable h).sound s) str o.req

theorem putStr_agrees_fresh :
    putStr (List.replicate 600 0) (newWriter (newBuffLen 512 false) stderr) (outputOver [.failed ⟨32, by decide⟩]).req =
      some (if (putChars (List.replicate 600 0) (newWriter (newBuffLen 512 false) stderr)
          (outputOver [.failed ⟨32, by decide⟩]).req).1 then some (List.replicate 600 (0 : Byte)).length else none,
        (putChars (List.replicate 600 0) (newWriter (newBuffLen 512 false) stderr)
          (outputOver [.failed ⟨32, by decide⟩]).req).2) :=
  putStr_agrees (outputOver_reachable [.failed ⟨32, by decide⟩]) .err (List.replicate 600 0)

end Libfcgi
