import Altumo.FastCgi.Server

/-!
# The life of a Session

Between two completions every live Session has exactly one outstanding operation, and
exactly one of these operations is an accept. So no completion reaches a deleted
Session, and every Session can still be deleted.
-/

namespace FastCgi

open CString Transition

/-- How many accepts are outstanding. -/
def World.accepts (w : World) : Nat := w.pending.countP fun p => p.2 = .accept

/-- Every Session that was created is either live or deleted, and deleted only once. -/
structure Accounted (w : World) : Prop where
  created : ∀ id, id < w.nextSession ↔ w.Live id ∨ id ∈ w.history.deleted
  deleted_nodup : w.history.deleted.Nodup
  deleted_not_live : ∀ id ∈ w.history.deleted, ¬ w.Live id

structure Lifecycle (w : World) : Prop where
  accounted : Accounted w
  operations : OneEach w.pending w.Live
  one_accept : w.accepts = 1

section
variable {w w' : World} {id : SessionId}

theorem live_update_some {sessions : SessionId → Option Session} {session : Session}
    (h : w'.sessions = Function.update sessions id (some session)) (id' : SessionId) :
    w'.Live id' ↔ (∃ s, sessions id' = some s) ∨ id' = id := by
  rw [World.Live, h]
  by_cases he : id' = id
  · subst he
    simp
  · simp [he]

theorem live_delete (id' : SessionId) : (w.delete id).Live id' ↔ w.Live id' ∧ id' ≠ id := by
  simp only [World.Live, World.delete]
  by_cases he : id' = id
  · subst he
    simp
  · simp [he]

theorem live_create (data : Buffer maxLength) (id' : SessionId) :
    (w.create data).Live id' ↔ w.Live id' ∨ id' = w.nextSession :=
  live_update_some rfl id'

theorem live_deposit {session : Session} (h : w.Live id) (chunk : Text) (id' : SessionId) :
    (w.deposit id session chunk).Live id' ↔ w.Live id' := by
  rw [live_update_some rfl]
  constructor
  · rintro (h' | rfl)
    · exact h'
    · exact h
  · exact .inl

theorem Accounted.frame (h : Accounted w) (hlive : ∀ id, w'.Live id ↔ w.Live id)
    (hnext : w'.nextSession = w.nextSession) (hdeleted : w'.history.deleted = w.history.deleted) :
    Accounted w' := by
  refine ⟨?_, by rw [hdeleted]; exact h.deleted_nodup, ?_⟩
  · intro id
    rw [hnext, hlive, hdeleted]
    exact h.created id
  · intro id hid
    rw [hlive]
    rw [hdeleted] at hid
    exact h.deleted_not_live id hid

theorem Accounted.delete (h : Accounted w) (hl : w.Live id) : Accounted (w.delete id) := by
  have hnew : id ∉ w.history.deleted := fun hd => h.deleted_not_live id hd hl
  have hdeleted : (w.delete id).history.deleted = w.history.deleted ++ [id] := rfl
  refine ⟨?_, ?_, ?_⟩
  · intro id'
    rw [live_delete, hdeleted, List.mem_append, List.mem_singleton]
    have hc : id' < (w.delete id).nextSession ↔ w.Live id' ∨ id' ∈ w.history.deleted := h.created id'
    by_cases he : id' = id
    · subst he
      simpa [hl] using hc
    · simpa [he] using hc
  · rw [hdeleted, List.nodup_append]
    refine ⟨h.deleted_nodup, List.nodup_singleton _, ?_⟩
    intro a ha b hb he
    rw [List.mem_singleton] at hb
    rw [he, hb] at ha
    exact hnew ha
  · intro id' hd
    rw [live_delete]
    rw [hdeleted, List.mem_append, List.mem_singleton] at hd
    rcases hd with hd | rfl
    · exact fun hl' => h.deleted_not_live id' hd hl'.1
    · exact fun hl' => hl'.2 rfl

theorem Accounted.create (h : Accounted w) (data : Buffer maxLength) : Accounted (w.create data) := by
  refine ⟨?_, h.deleted_nodup, ?_⟩
  · intro id'
    rw [live_create, or_right_comm]
    have hc : w.Live id' ∨ id' ∈ (w.create data).history.deleted ↔ id' < w.nextSession := (h.created id').symm
    rw [hc]
    exact Nat.lt_succ_iff_lt_or_eq
  · intro id' hd
    rw [live_create]
    rintro (hl | rfl)
    · exact h.deleted_not_live id' hd hl
    · exact absurd ((h.created w.nextSession).mpr (.inr hd)) (Nat.lt_irrefl _)

/-- The Session that is created next is not live yet. -/
theorem Accounted.next_not_live (h : Accounted w) : ¬ w.Live w.nextSession := by
  intro hl
  exact absurd ((h.created w.nextSession).mpr (.inl hl)) (Nat.lt_irrefl _)

@[simp] theorem accepts_start (id : SessionId) (op : Operation) :
    (w.start id op).accepts = w.accepts + if op = .accept then 1 else 0 := by
  simp [World.accepts, World.start, List.countP_append, List.countP_singleton]

theorem accepts_finish {op : Operation} (h : (id, op) ∈ w.pending) :
    (w.finish id op).accepts + (if op = .accept then 1 else 0) = w.accepts := by
  have hc := (List.perm_cons_erase h).countP_eq fun p => decide (p.2 = Operation.accept)
  rw [List.countP_cons] at hc
  simp only [World.accepts, World.finish, hc, decide_eq_true_eq]

/-- While a handler of a Session runs, the Session has no outstanding operation. -/
theorem Lifecycle.finish (h : Lifecycle w) {op : Operation} (hm : (id, op) ∈ w.pending) :
    w.Live id ∧ OneEach (w.finish id op).pending fun id' => w.Live id' ∧ id' ≠ id :=
  ⟨h.operations.live_of_mem hm, h.operations.finish hm⟩

/-- A handler that ends in a new operation of its Session. -/
theorem OneEach.restart {pending : List (SessionId × Operation)} {live live' : SessionId → Prop}
    (h : OneEach pending fun id' => live id' ∧ id' ≠ id) (hl : live id)
    (hlive : ∀ id', live' id' ↔ live id') (op : Operation) : OneEach (pending ++ [(id, op)]) live' := by
  refine (h.start (fun hn => hn.2 rfl) op).congr fun id' => ?_
  rw [hlive]
  by_cases he : id' = id
  · subst he
    simp [hl]
  · simp [he]

/-- The next Session awaits the next accept. -/
theorem Lifecycle.startAccept (ha : Accounted w) (ho : OneEach w.pending w.Live) (hz : w.accepts = 0)
    (data : Buffer maxLength) : Lifecycle (Server.startAccept data w) := by
  refine ⟨(ha.create data).frame (fun _ => Iff.rfl) rfl rfl, ?_, ?_⟩
  · exact (ho.start ha.next_not_live .accept).congr fun id' => live_create data id'
  · have hc : (w.create data).accepts = 0 := hz
    rw [Server.startAccept, accepts_start, hc]
    rfl

/-- A handler of a read or a write that ends in another one. -/
theorem Lifecycle.continue (h : Lifecycle w) {op op' : Operation} (hm : (id, op) ∈ w.pending)
    (hop : op ≠ .accept) (hop' : op' ≠ .accept) {v : World} (hp : v.pending = (w.finish id op).pending)
    (hlive : ∀ id', v.Live id' ↔ w.Live id') (hnext : v.nextSession = w.nextSession)
    (hdeleted : v.history.deleted = w.history.deleted) : Lifecycle (v.start id op') := by
  obtain ⟨hl, ho⟩ := h.finish hm
  refine ⟨h.accounted.frame hlive hnext hdeleted, ?_, ?_⟩
  · rw [World.start, hp]
    exact OneEach.restart ho hl hlive op'
  · have hv : v.accepts = (w.finish id op).accepts := by rw [World.accepts, hp, World.accepts]
    have hf := accepts_finish hm
    rw [if_neg hop, h.one_accept] at hf
    rw [accepts_start, if_neg hop', hv]
    exact hf

/-- A handler of a read or a write that deletes its Session. -/
theorem Lifecycle.stop (h : Lifecycle w) {op : Operation} (hm : (id, op) ∈ w.pending) (hop : op ≠ .accept)
    {v : World} (hp : v.pending = (w.finish id op).pending) (hs : v.sessions = w.sessions)
    (hnext : v.nextSession = w.nextSession) (hdeleted : v.history.deleted = w.history.deleted) :
    Lifecycle (v.delete id) := by
  obtain ⟨hl, ho⟩ := h.finish hm
  have hlive : ∀ id', v.Live id' ↔ w.Live id' := fun id' => by rw [World.Live, hs, World.Live]
  refine ⟨(h.accounted.frame hlive hnext hdeleted).delete ((hlive id).mpr hl), ?_, ?_⟩
  · refine OneEach.congr (show OneEach v.pending _ from hp ▸ ho) fun id' => ?_
    rw [live_delete, hlive]
  · have hf := accepts_finish hm
    rw [if_neg hop, h.one_accept] at hf
    rw [World.accepts, World.delete, hp]
    exact hf

theorem Lifecycle.exists_step (h : Lifecycle w) {c : Completion} (he : enabled w c) :
    ∃ w', FastCgi.complete w c = some w' ∧ Step w c w' :=
  FastCgi.exists_step (fun _ _ hm => h.operations.live_of_mem hm) he

theorem Lifecycle.step (h : Lifecycle w) {c : Completion} (he : enabled w c)
    (hn : FastCgi.complete w c = some w') : Step w c w' := by
  obtain ⟨v, hv, hstep⟩ := h.exists_step he
  rw [hn] at hv
  cases hv
  exact hstep

/-- An accept is answered, whatever happened to its Session. -/
theorem Lifecycle.no_accept (h : Lifecycle w) (hm : (id, .accept) ∈ w.pending) :
    (w.finish id .accept).accepts = 0 := by
  have hf := accepts_finish hm
  rw [if_pos rfl, h.one_accept] at hf
  exact Nat.succ.inj hf

theorem Lifecycle.complete (h : Lifecycle w) {c : Completion} (he : enabled w c)
    (hn : complete w c = some w') : Lifecycle w' := by
  cases h.step he hn with
  | @accepted id data hm hl =>
    have ha : Accounted (w.finish id .accept) := h.accounted.frame (fun _ => Iff.rfl) rfl rfl
    refine Lifecycle.startAccept (w := (w.finish id .accept).start id .read)
      (ha.frame (fun _ => Iff.rfl) rfl rfl) ?_ ?_ data
    · exact OneEach.restart (h.finish hm).2 hl (fun _ => Iff.rfl) .read
    · rw [accepts_start, h.no_accept hm]
      rfl
  | @acceptFailed id data hm hl =>
    have ha : Accounted (w.finish id .accept) := h.accounted.frame (fun _ => Iff.rfl) rfl rfl
    exact Lifecycle.startAccept (ha.delete hl) ((h.finish hm).2.congr fun id' => live_delete id')
      (h.no_accept hm) data
  | @received id session chunk hm hs hle =>
    exact h.continue hm (by decide) (by simp) rfl (live_deposit ⟨session, hs⟩ chunk) rfl rfl
  | readFailed hm hl => exact h.stop hm (by decide) rfl rfl rfl rfl
  | progressed hm hs hle => exact h.continue hm (by simp) (by simp) rfl (fun _ => Iff.rfl) rfl rfl
  | written hm hl => exact h.continue hm (by simp) (by decide) rfl (fun _ => Iff.rfl) rfl rfl
  | writeFailed hm hl => exact h.stop hm (by simp) rfl rfl rfl rfl

/-- No number of a Session is used twice. -/
theorem Lifecycle.nextSession_le (h : Lifecycle w) {c : Completion} (he : enabled w c)
    (hn : FastCgi.complete w c = some w') : w.nextSession ≤ w'.nextSession := by
  cases h.step he hn with
  | accepted data hm hl => exact Nat.le_succ _
  | acceptFailed data hm hl => exact Nat.le_succ _
  | _ => exact Nat.le_refl _

end

theorem emptyWorld_accounted (log : Text) : Accounted (emptyWorld log) :=
  ⟨fun id => by simp [emptyWorld, World.Live], List.nodup_nil, fun _ h => by cases h⟩

theorem lifecycle_invariant (log : Text) : (echoServer log).Invariant Lifecycle := by
  refine ⟨?_, fun _ _ _ _ h he hn => h.complete he hn⟩
  rintro _ ⟨data, rfl⟩
  refine Lifecycle.startAccept (emptyWorld_accounted log) ⟨List.nodup_nil, ?_⟩ rfl data
  simp [emptyWorld, World.Live]

section
variable {w : World} {id : SessionId}

/-- A completion of an outstanding operation uses no deleted Session, and deletes a
Session only when it is an error that is delivered to it. -/
theorem Lifecycle.complete_some (h : Lifecycle w) {c : Completion} (he : enabled w c) :
    ∃ w', FastCgi.complete w c = some w' ∧
      ∀ id, id ∈ w'.history.deleted ↔ id ∈ w.history.deleted ∨ c.ErrorTo id := by
  have hdelete : ∀ {id id' : SessionId},
      id' ∈ w.history.deleted ++ [id] ↔ id' ∈ w.history.deleted ∨ id = id' := by
    intro id id'
    rw [List.mem_append, List.mem_singleton, @eq_comm _ id']
  obtain ⟨w', hn, hstep⟩ := h.exists_step he
  refine ⟨w', hn, fun id' => ?_⟩
  cases hstep with
  | accepted data hm hl => simp [Server.startAccept, World.start, World.create, World.finish, Completion.ErrorTo]
  | @acceptFailed id data hm hl =>
    show id' ∈ w.history.deleted ++ [id] ↔ _
    simp [hdelete, Completion.ErrorTo]
  | received hm hs hle => simp [World.start, World.print, World.deposit, World.finish, Completion.ErrorTo]
  | readFailed hm hl => exact hdelete
  | progressed hm hs hle => simp [World.start, World.transmit, World.finish, Completion.ErrorTo]
  | written hm hl => simp [World.start, World.noteEchoed, World.finish, Completion.ErrorTo]
  | writeFailed hm hl => exact hdelete

/-- Whatever a live Session waits for can fail, and then it is deleted. -/
theorem Lifecycle.deletable (h : Lifecycle w) (hl : w.Live id) :
    ∃ c w', enabled w c ∧ c.ErrorTo id ∧ FastCgi.complete w c = some w' ∧ ¬ w'.Live id := by
  have hgone : ¬ (w.delete id).Live id := fun hd => ((live_delete id).mp hd).2 rfl
  obtain ⟨op, hm⟩ := (h.operations.live_iff id).mp hl
  cases op with
  | accept =>
    refine ⟨.accepted id true (Buffer.zeroed maxLength), _, hm, ⟨rfl, rfl⟩, complete_acceptFailed hl _, ?_⟩
    intro hlive
    rcases (live_create _ id).mp hlive with hd | he
    · exact hgone hd
    · have hlt := (h.accounted.created id).mpr (.inl hl)
      exact absurd he (Nat.ne_of_lt hlt)
  | read => exact ⟨.readFailed id, _, hm, rfl, complete_readFailed hl, hgone⟩
  | write length sent => exact ⟨.writeFailed id length sent, _, hm, rfl, complete_writeFailed hl _ _, hgone⟩

/-- An owner with one operation is on the list once. -/
theorem OneEach.length_filter {pending : List (SessionId × Operation)} {live : SessionId → Prop}
    (h : OneEach pending live) (hl : live id) : (pending.filter fun p => p.1 = id).length = 1 := by
  obtain ⟨op, hm⟩ := (h.live_iff id).mp hl
  have hc := List.count_eq_one_of_mem h.nodup (List.mem_map.mpr ⟨_, hm, rfl⟩ : id ∈ pending.map Prod.fst)
  rw [List.count, List.countP_map, List.countP_eq_length_filter] at hc
  rw [← hc]
  congr 1

theorem Lifecycle.one_session_awaits (h : Lifecycle w) : ∃! id, (id, Operation.accept) ∈ w.pending := by
  have hc := h.one_accept
  rw [World.accepts, List.countP_eq_length_filter, List.length_eq_one_iff] at hc
  obtain ⟨⟨id, op⟩, hp⟩ := hc
  have hmem : ∀ p, p ∈ w.pending ∧ p.2 = .accept ↔ p = (id, op) := by
    intro p
    have hf : p ∈ w.pending.filter (fun p => p.2 = .accept) ↔ p ∈ [(id, op)] := by rw [hp]
    rwa [List.mem_filter, decide_eq_true_eq, List.mem_singleton] at hf
  obtain ⟨hm, hop⟩ := (hmem (id, op)).mpr rfl
  simp only at hop
  subst hop
  refine ⟨id, hm, fun id' hm' => ?_⟩
  exact (Prod.mk.inj ((hmem (id', .accept)).mp ⟨hm', rfl⟩)).1

end

/-- What holds between two completions. -/
structure LifecycleSafe (log : Text) (w : World) : Prop where
  one_accept : (w.pending.filter fun p => p.2 = .accept).length = 1
  one_session_awaits : ∃! id, (id, Operation.accept) ∈ w.pending
  one_operation : ∀ id, w.Live id → (w.pending.filter fun p => p.1 = id).length = 1
  pending_live : ∀ id op, (id, op) ∈ w.pending → w.Live id ∧ id ∉ w.history.deleted
  accounted : ∀ id, id < w.nextSession ↔ w.Live id ∨ id ∈ w.history.deleted
  deleted_once : w.history.deleted.Nodup ∧ ∀ id ∈ w.history.deleted, ¬ w.Live id
  deleted_by_error : ∀ c w', enabled w c → complete w c = some w' → ∀ id,
    id ∈ w'.history.deleted ↔ id ∈ w.history.deleted ∨ c.ErrorTo id
  defined : (echoServer log).Safe w
  deletable : ∀ id, w.Live id → ∃ c w', enabled w c ∧ c.ErrorTo id ∧ complete w c = some w' ∧ ¬ w'.Live id

/-- In every reachable state the Sessions and their operations are in order. -/
theorem session_lifecycle (log : Text) (w : World) (hw : (echoServer log).Reachable w) : LifecycleSafe log w := by
  have h := (lifecycle_invariant log).of_reachable hw
  refine ⟨?_, h.one_session_awaits, fun id hl => OneEach.length_filter h.operations hl, ?_, h.accounted.created,
    ⟨h.accounted.deleted_nodup, h.accounted.deleted_not_live⟩, ?_, ?_, fun id hl => h.deletable hl⟩
  · rw [← List.countP_eq_length_filter]
    exact h.one_accept
  · intro id op hm
    have hl := h.operations.live_of_mem hm
    exact ⟨hl, fun hd => h.accounted.deleted_not_live id hd hl⟩
  · intro c w' he hc
    obtain ⟨w'', hc', hd⟩ := h.complete_some he
    rw [hc] at hc'
    cases hc'
    exact hd
  · intro c he
    obtain ⟨w', hc, -⟩ := h.complete_some he
    exact ⟨w', hc⟩

theorem reachable_complete {log : Text} {w w' : World} {c : Completion} (h : (echoServer log).Reachable w)
    (hn : complete w c = some w') (he : enabled w c) : (echoServer log).Reachable w' := .step h he hn

/-- The server when it has accepted a connection and read two bytes from it. -/
theorem reachable_after_read : ∃ w, (echoServer []).Reachable w ∧ (0, .write 2 0) ∈ w.pending ∧
    (1, .accept) ∈ w.pending ∧ w.history.reads = [(0, text "hi")] := by
  have h₀ : (echoServer []).Reachable (Server.startAccept (Buffer.zeroed maxLength) (emptyWorld [])) :=
    .initial ⟨_, rfl⟩
  have hlive : (Server.startAccept (Buffer.zeroed maxLength) (emptyWorld [])).Live 0 := ⟨_, rfl⟩
  have h₁ := reachable_complete h₀ (complete_accepted hlive (Buffer.zeroed maxLength)) (List.mem_singleton_self _)
  have hs : (Server.startAccept (Buffer.zeroed maxLength) (((Server.startAccept (Buffer.zeroed maxLength)
      (emptyWorld [])).finish 0 .accept).start 0 .read)).sessions 0 = some ⟨Buffer.zeroed maxLength⟩ := rfl
  have h₂ := reachable_complete h₁ (complete_received hs (text "hi")) ⟨by decide, by decide, by decide⟩
  exact ⟨_, h₂, by decide, by decide, rfl⟩

theorem session_lifecycle_after_read : ∃ w, LifecycleSafe [] w ∧ (0, .write 2 0) ∈ w.pending := by
  obtain ⟨w, hw, hm, -⟩ := reachable_after_read
  exact ⟨w, session_lifecycle [] w hw, hm⟩

end FastCgi
