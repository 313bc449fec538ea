import Mathlib.Data.List.Basic
import Altumo.Library.Descriptor

/-!
# The listening socket

`OS_Accept` waits until a client comes that may be served, and closes the others. It gives
up when the process is to shut down, but not if it has just closed a client.
-/

namespace Libfcgi

open CString Descriptor

/-- `in_addr_t`. -/
abbrev InAddr := BitVec 32

def comma : Byte := 44

/-- The loop of `ClientAddrOK` over the list. -/
def clientAddrLoop (inetAddr : Text → InAddr) (addr : InAddr) (cur : Text) : Bool :=
  if inetAddr (cur.takeWhile (· != comma)) = addr then true
  else match _h : cur.dropWhile (· != comma) with
    | [] => false
    | _ :: next => clientAddrLoop inetAddr addr next
termination_by cur.length
decreasing_by
  have hle := (List.dropWhile_suffix (l := cur) (· != comma)).length_le
  rw [_h, List.length_cons] at hle
  omega

/-- `ClientAddrOK`. What `inet_addr` reads in a text is not of this program. -/
def clientAddrOK (inetAddr : Text → InAddr) (addr : InAddr) : Option Text → Bool
  | none => true
  | some clientList => (cStr clientList).isEmpty || clientAddrLoop inetAddr addr (cStr clientList)

/-- `is_reasonable_accept_errno`, with the numbers of Linux. -/
def isReasonableAcceptErrno (e : Errno) : Bool := e.val ∈ [71, 103, 104, 110, 113, 101]

def eintr : Int := 4

/-- `sa`, and for a client on a Unix socket whether `is_af_unix_keeper`. -/
inductive Peer where
  | inet : InAddr → Peer
  | unix : (readable : Bool) → Peer
  | other : Peer

structure Client where
  fd : Nat
  peer : Peer

/-- Only addresses of `AF_INET` are looked up. -/
def Client.approved (ok : InAddr → Bool) (c : Client) : Bool :=
  match c.peer with
  | .inet addr => ok addr
  | .unix readable => readable
  | .other => true

/-- One time around: `shutdownPending` before `accept`, what `accept` returns, and
`shutdownPending` behind it. -/
structure Turn where
  pending : Bool
  result : Except Errno Client
  signaled : Bool

inductive Outcome where
  | accepted : (fd : Nat) → Outcome
  | failed
  | waiting
  deriving DecidableEq

/-- The conditions behind a call of `accept` that fails. -/
def retries (failOnIntr signaled : Bool) (e : Errno) : Bool :=
  !signaled && ((e.val == eintr && !failOnIntr) || isReasonableAcceptErrno e)

/-- `OS_Accept`: which descriptors it closes and how it returns, if it does in these turns.
When `accept` is not called, `socket` and `sa` are still those of the turn before. -/
def osAccept (failOnIntr : Bool) (ok : InAddr → Bool) : Option Client → List Turn → List Nat × Outcome
  | _, [] => ([], .waiting)
  | socket, t :: ts =>
    match if t.pending then Except.ok socket else t.result.map some with
    | .error e => if retries failOnIntr t.signaled e then osAccept failOnIntr ok none ts else ([], .failed)
    | .ok none => ([], .failed)
    | .ok (some c) =>
      -- Without locking nothing else is done between two turns. A descriptor that has been
      -- closed is no keeper, so that who was refused is refused again.
      if c.approved ok then ([], .accepted c.fd)
      else
        let (closed, outcome) := osAccept failOnIntr ok (some c) ts
        (c.fd :: closed, outcome)

/-- A turn that leads to another: no client, or one that is refused. -/
def Turn.passes (failOnIntr : Bool) (ok : InAddr → Bool) (t : Turn) : Bool :=
  !t.pending && match t.result with
    | .error e => retries failOnIntr t.signaled e
    | .ok c => !c.approved ok

/-- Who has come. -/
def Turn.client (t : Turn) : Option Client := t.result.toOption

/-- What `socket` is behind these turns. -/
def lastClient : Option Client → List Turn → Option Client
  | socket, [] => socket
  | _, t :: ts => lastClient t.client ts

section Listening

variable {inetAddr : Text → InAddr} {addr : InAddr} {failOnIntr : Bool} {ok : InAddr → Bool} {socket : Option Client}
  {t : Turn} {pre ts : List Turn}

theorem clientAddrLoop_iff (cur : Text) :
    clientAddrLoop inetAddr addr cur = true ↔ ∃ item ∈ cur.splitOn comma, inetAddr item = addr := by
  induction hk : cur.length using Nat.strong_induction_on generalizing cur with
  | _ k ih =>
    subst hk
    have hfree : comma ∉ cur.takeWhile (· != comma) := by
      intro hmem
      have hp := List.mem_takeWhile_imp hmem
      simp at hp
    have hsplit := List.takeWhile_append_dropWhile (p := (· != comma)) (l := cur)
    rw [clientAddrLoop]
    cases hrest : cur.dropWhile (· != comma) with
    | nil =>
      rw [hrest, List.append_nil] at hsplit
      rw [hsplit] at hfree
      simp [hsplit, List.splitOn_eq_singleton hfree]
    | cons x next =>
      have hx : x = comma := by
        have hhead := List.head?_dropWhile_not (· != comma) cur
        rw [hrest] at hhead
        simpa using hhead
      subst hx
      have hle := (List.dropWhile_suffix (l := cur) (· != comma)).length_le
      rw [hrest, List.length_cons] at hle
      rw [hrest] at hsplit
      have hitems : cur.splitOn comma = cur.takeWhile (· != comma) :: next.splitOn comma := by
        rw [← List.splitOn_append_cons_self_of_not_mem hfree next, hsplit]
      have hnext := ih next.length (by omega) next rfl
      rw [hitems]
      simp only [List.mem_cons, exists_eq_or_imp]
      by_cases hfound : inetAddr (cur.takeWhile (· != comma)) = addr
      · simp [hfound]
      · simp only [hfound, false_or]
        exact hnext

/-- Turns that pass close the clients that have come, and nothing else. -/
theorem osAccept_append (hpre : ∀ t ∈ pre, t.passes failOnIntr ok = true) (socket : Option Client) (ts : List Turn) :
    osAccept failOnIntr ok socket (pre ++ ts) =
      ((pre.filterMap Turn.client).map Client.fd ++ (osAccept failOnIntr ok (lastClient socket pre) ts).1,
        (osAccept failOnIntr ok (lastClient socket pre) ts).2) := by
  induction pre generalizing socket with
  | nil => rfl
  | cons t pre ih =>
    obtain ⟨ht, hpre'⟩ := List.forall_mem_cons.mp hpre
    obtain ⟨hpending, hresult⟩ := Bool.and_eq_true_iff.mp ht
    have hpending' : t.pending = false := by simpa using hpending
    obtain ⟨pending, result, signaled⟩ := t
    simp only at hpending'
    subst hpending'
    cases result with
    | error e =>
      have hretries : retries failOnIntr signaled e = true := hresult
      rw [List.cons_append, osAccept]
      simp only [Bool.false_eq_true, if_false, Except.map, hretries, if_true]
      rw [ih hpre' none]
      rfl
    | ok c =>
      have hrefused : c.approved ok = false := by simpa using hresult
      rw [List.cons_append, osAccept]
      simp only [Bool.false_eq_true, if_false, Except.map, hrefused]
      rw [ih hpre' (some c)]
      rfl

/-- A turn that does not pass is the last. -/
theorem osAccept_stop (hpending : t.pending = false) (ht : t.passes failOnIntr ok = false) (socket : Option Client)
    (ts : List Turn) :
    osAccept failOnIntr ok socket (t :: ts) = ([], t.client.elim .failed fun c => .accepted c.fd) ∧
      ∀ c, t.client = some c → c.approved ok = true := by
  obtain ⟨pending, result, signaled⟩ := t
  simp only at hpending
  subst hpending
  cases result with
  | error e =>
    have hretries : retries failOnIntr signaled e = false := ht
    refine ⟨?_, fun c hc => by cases hc⟩
    simp only [osAccept, Bool.false_eq_true, if_false, Except.map, hretries]
    rfl
  | ok c =>
    have happroved : c.approved ok = true := by simpa [Turn.passes] using ht
    refine ⟨?_, fun c' hc' => ?_⟩
    · simp only [osAccept, Bool.false_eq_true, if_false, Except.map, happroved, if_true]
      rfl
    · obtain rfl := Option.some.inj hc'
      exact happroved

/-- A client that was refused is closed again and again. -/
theorem osAccept_shutdown (hts : ∀ t ∈ ts, t.pending = true) {c : Client} (hc : c.approved ok = false) :
    osAccept failOnIntr ok (some c) ts = (List.replicate ts.length c.fd, .waiting) := by
  induction ts with
  | nil => rfl
  | cons t ts ih =>
    obtain ⟨ht, hts'⟩ := List.forall_mem_cons.mp hts
    simp only [osAccept, ht, if_true, hc, Bool.false_eq_true, if_false, ih hts']
    rfl

theorem lastClient_refused (hpre : ∀ t ∈ pre, t.passes failOnIntr ok = true) {c : Client}
    (hsocket : ∀ c', socket = some c' → c'.approved ok = false) (hlast : lastClient socket pre = some c) :
    c.approved ok = false := by
  induction pre generalizing socket with
  | nil => exact hsocket c hlast
  | cons t pre ih =>
    obtain ⟨ht, hpre'⟩ := List.forall_mem_cons.mp hpre
    refine ih hpre' ?_ hlast
    intro c' hc'
    obtain ⟨pending, result, signaled⟩ := t
    cases result with
    | error e => cases hc'
    | ok c =>
      obtain rfl := Option.some.inj hc'
      have hboth := (Bool.and_eq_true_iff.mp ht).2
      simpa using hboth

/-- Up to the first turn that does not pass, if there is one. -/
theorem passes_split (failOnIntr : Bool) (ok : InAddr → Bool) (pre : List Turn) :
    (∀ t ∈ pre, t.passes failOnIntr ok = true) ∨
      ∃ passed t rest, pre = passed ++ t :: rest ∧ (∀ u ∈ passed, u.passes failOnIntr ok = true) ∧
        t.passes failOnIntr ok = false := by
  induction pre with
  | nil => exact .inl (List.forall_mem_nil _)
  | cons t pre ih =>
    cases ht : t.passes failOnIntr ok with
    | false => exact .inr ⟨[], t, pre, rfl, List.forall_mem_nil _, ht⟩
    | true =>
      rcases ih with hall | ⟨passed, u, rest, rfl, hpassed, hu⟩
      · exact .inl (List.forall_mem_cons.mpr ⟨ht, hall⟩)
      · exact .inr ⟨t :: passed, u, rest, rfl, List.forall_mem_cons.mpr ⟨ht, hpassed⟩, hu⟩

/-- The address is in the list, or there is no list. -/
def Listed (inetAddr : Text → InAddr) (addr : InAddr) (webServerAddrs : Option Text) : Prop :=
  ∀ clientList, webServerAddrs = some clientList → cStr clientList ≠ [] →
    ∃ item ∈ (cStr clientList).splitOn comma, inetAddr item = addr

theorem clientAddrOK_iff (webServerAddrs : Option Text) :
    clientAddrOK inetAddr addr webServerAddrs = true ↔ Listed inetAddr addr webServerAddrs := by
  cases webServerAddrs with
  | none => exact ⟨fun _ => nofun, fun _ => rfl⟩
  | some clientList =>
    simp only [clientAddrOK, Bool.or_eq_true, List.isEmpty_iff, clientAddrLoop_iff, Listed, Option.some.injEq]
    constructor
    · rintro (hnil | hitem) l rfl hne
      · exact absurd hnil hne
      · exact hitem
    · intro h
      by_cases hne : cStr clientList = []
      · exact .inl hne
      · exact .inr (h clientList rfl hne)

/-- `OS_Accept`, where the process is to shut down at some time. A client that is served
has an address of the list, if it has one of `AF_INET`, and those that came before it
have been closed, each once. If all that came before the shutdown were refused, then
`OS_Accept` returns only if the last call of `accept` failed. Otherwise it closes the
same descriptor as often as it goes around, and never returns. -/
theorem accept_until_shutdown (inetAddr : Text → InAddr) (failOnIntr : Bool) (webServerAddrs : Option Text)
    {pre post : List Turn} (hpre : ∀ t ∈ pre, t.pending = false) (hpost : ∀ t ∈ post, t.pending = true) (hne : post ≠ []) :
    (∀ closed fd, osAccept failOnIntr (clientAddrOK inetAddr · webServerAddrs) none (pre ++ post) = (closed, .accepted fd) →
        ∃ passed t rest c, pre = passed ++ t :: rest ∧ t.client = some c ∧ c.fd = fd ∧
          closed = (passed.filterMap Turn.client).map Client.fd ∧
          ∀ addr, c.peer = .inet addr → Listed inetAddr addr webServerAddrs) ∧
      ((osAccept failOnIntr (clientAddrOK inetAddr · webServerAddrs) none (pre ++ post)).2 = .waiting ↔
        (∀ t ∈ pre, t.passes failOnIntr (clientAddrOK inetAddr · webServerAddrs) = true) ∧ lastClient none pre ≠ none) ∧
      ∀ c, (∀ t ∈ pre, t.passes failOnIntr (clientAddrOK inetAddr · webServerAddrs) = true) → lastClient none pre = some c →
        osAccept failOnIntr (clientAddrOK inetAddr · webServerAddrs) none (pre ++ post) =
          ((pre.filterMap Turn.client).map Client.fd ++ List.replicate post.length c.fd, .waiting) := by
  have hloop : ∀ c, (∀ t ∈ pre, t.passes failOnIntr (clientAddrOK inetAddr · webServerAddrs) = true) →
      lastClient none pre = some c →
      osAccept failOnIntr (clientAddrOK inetAddr · webServerAddrs) none (pre ++ post) =
        ((pre.filterMap Turn.client).map Client.fd ++ List.replicate post.length c.fd, .waiting) := by
    intro c hall hlast
    have hc := lastClient_refused hall (fun c' hc' => by cases hc') hlast
    rw [osAccept_append hall, hlast, osAccept_shutdown hpost hc]
  rcases passes_split failOnIntr (clientAddrOK inetAddr · webServerAddrs) pre with hall | ⟨passed, t, rest, rfl, hpassed, ht⟩
  · cases hlast : lastClient none pre with
    | some c =>
      rw [hloop c hall hlast]
      refine ⟨fun closed fd heq => ?_, ⟨fun _ => ⟨hall, Option.some_ne_none c⟩, fun _ => rfl⟩, ?_⟩
      · cases (Prod.mk.inj heq).2
      · intro c' _ hsome
        obtain rfl := Option.some.inj hsome
        rfl
    | none =>
      obtain ⟨u, post', rfl⟩ := List.exists_cons_of_ne_nil hne
      have hu := hpost u List.mem_cons_self
      have hrun := osAccept_append hall none (u :: post')
      rw [hlast] at hrun
      simp only [osAccept, hu, if_true] at hrun
      rw [hrun]
      refine ⟨fun closed fd heq => ?_, ⟨nofun, fun hboth => absurd rfl hboth.2⟩, fun _ _ => nofun⟩
      cases (Prod.mk.inj heq).2
  · have hmem : t ∈ passed ++ t :: rest := List.mem_append_right _ List.mem_cons_self
    have hnot : ¬ ∀ u ∈ passed ++ t :: rest, u.passes failOnIntr (clientAddrOK inetAddr · webServerAddrs) = true := by
      intro hall
      rw [hall t hmem] at ht
      cases ht
    obtain ⟨hstop, happroved⟩ := osAccept_stop (hpre t hmem) ht (lastClient none passed) (rest ++ post)
    have hrun := osAccept_append hpassed none (t :: (rest ++ post))
    rw [hstop, List.append_nil] at hrun
    rw [List.append_assoc, List.cons_append, hrun]
    refine ⟨fun closed fd heq => ?_, ⟨fun heq => ?_, fun hboth => absurd hboth.1 hnot⟩, fun _ hall => absurd hall hnot⟩
    · cases hclient : t.client with
      | none =>
        rw [hclient] at heq
        cases (Prod.mk.inj heq).2
      | some c =>
        rw [hclient] at heq
        obtain ⟨rfl, hfd⟩ := Prod.mk.inj heq
        refine ⟨passed, t, rest, c, rfl, hclient, Outcome.accepted.inj hfd, rfl, ?_⟩
        intro addr hpeer
        have hok := happroved c hclient
        rw [Client.approved, hpeer] at hok
        exact (clientAddrOK_iff webServerAddrs).mp hok
    · cases hclient : t.client with
      | none =>
        rw [hclient] at heq
        cases heq
      | some c =>
        rw [hclient] at heq
        cases heq

/-- `inet_addr` of the local address, where other texts have none. -/
def inetLocal (t : Text) : InAddr := if t = text "127.0.0.1" then 0x0100007f else 0xffffffff

/-- A stranger comes, and then the signal. -/
theorem accept_until_shutdown_refused :
    osAccept true (clientAddrOK inetLocal · (some (text "127.0.0.1"))) none
        ([⟨false, .ok ⟨5, .inet 0x0200000a⟩, false⟩] ++
          [⟨true, .error ⟨4, by decide⟩, true⟩, ⟨true, .error ⟨4, by decide⟩, true⟩]) =
      ([5, 5, 5], .waiting) := by
  have hrefused : clientAddrOK inetLocal 0x0200000a (some (text "127.0.0.1")) = false := by
    rw [Bool.eq_false_iff, Ne, clientAddrOK_iff]
    intro hlisted
    obtain ⟨item, hitem, heq⟩ := hlisted (text "127.0.0.1") rfl (by decide)
    have hitems : (cStr (text "127.0.0.1")).splitOn comma = [text "127.0.0.1"] := by decide
    rw [hitems, List.mem_singleton] at hitem
    subst hitem
    exact absurd heq (by decide)
  have hpre : ∀ t ∈ [Turn.mk false (.ok ⟨5, .inet 0x0200000a⟩) false], t.pending = false := by decide
  have hpost : ∀ t ∈ [Turn.mk true (.error ⟨4, by decide⟩) true, ⟨true, .error ⟨4, by decide⟩, true⟩], t.pending = true := by
    decide
  obtain ⟨-, -, hloop⟩ :=
    accept_until_shutdown inetLocal true (some (text "127.0.0.1")) hpre hpost (List.cons_ne_nil _ _)
  refine hloop ⟨5, .inet 0x0200000a⟩ ?_ rfl
  intro t ht
  rw [List.mem_singleton.mp ht]
  show (!clientAddrOK inetLocal 0x0200000a (some (text "127.0.0.1"))) = true
  rw [hrefused]
  rfl

end Listening

end Libfcgi
