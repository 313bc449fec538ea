import Altumo.Libfcgi.Delivery

/-!
# What the client of an input stream gets

One refill goes on to the next record that concerns the client. Refill after refill
the client gets the content that the records of the connection say, and nothing else,
and the stream ends where and as they say.
-/

namespace Libfcgi

open CString Descriptor Refill

/-- A stream that has content for its client in the buffer. -/
structure Given (s : Input) (n p : Nat) (ctx : Context) (text : Text) : Prop where
  pos : 0 < n
  context : s.context = ctx
  ahead : s.ahead = text
  skip : s.stream.skip = false
  contentLen : s.stream.contentLen = n - s.stream.avail
  paddingLen : s.stream.paddingLen = p
  unread : s.stream.unread ≠ []
  avail : s.stream.avail = min n s.stream.unread.length
  isClosed : s.stream.isClosed = false
  eorStop : s.stream.eorStop = false

def Event.Matches : Event → Input → Prop
  | .content n p ctx rest, s => Given s n p ctx rest
  | .ended ctx rest, s => Ended s ctx rest
  | .begun ctx rest, s => ∃ p, Stands false s false 0 p ctx rest

section Refilling

variable {s : Input} {skip : Bool} {n p : Nat} {ctx : Context} {text : Text}

theorem nextEvent_short (h : text.length < headerLen) : nextEvent skip ctx text = some (.ended ctx.lost []) := by
  rw [nextEvent, if_neg (Nat.not_le.mpr h)]

/-- Content that a header announces is given, unless nothing more comes. -/
theorem content_matches {fuel : Nat} (hs : Stands false s false n p ctx text) (hn : 0 < n) (hfuel : text.length < fuel) :
    ∃ s', fillLoop processHeader fuel [] s = some s' ∧
      (if text = [] then Event.ended ctx.lost [] else .content n p ctx text).Matches s' := by
  obtain ⟨fuel, rfl⟩ : ∃ k, fuel = k + 1 := ⟨fuel - 1, by omega⟩
  have heq := hs.eq_at
  have hholds := hs.holds
  by_cases hnil : text = []
  · rw [if_pos hnil]
    obtain ⟨hu, hi⟩ := List.append_eq_nil_iff.mp (hholds.ahead.trans hnil)
    obtain ⟨i', hrun, hi'⟩ := fillLoop_content_lost (P := processHeader) s n p false [] fuel hu hi
    rw [← heq] at hrun
    exact ⟨_, hrun, hs.lost ⟨hi'.ahead, hi'.fault.trans hholds.fault⟩⟩
  · rw [if_neg hnil]
    obtain ⟨u, i, hne, hu, hrun⟩ := fillLoop_content (P := processHeader) (s := s) (p := p) [] fuel hn hholds hnil
    rw [← heq] at hrun
    have hm : Stands false (s.at (n - min n u.length) p false u i) false (n - min n u.length) p ctx text := hs.moved hu
    exact ⟨_, hrun, hn, hm.context, hm.ahead, rfl, rfl, rfl, hne, rfl, hm.isClosed, hm.eorStop⟩

/-- The loop of `FillBuffProc` comes to the next event. -/
theorem fillLoop_event {fuel : Nat} {event : Event} (hs : Stands false s skip n p ctx text) (hskip : n = 0 ∨ skip = true)
    (hfuel : text.length < fuel) (hevent : nextEvent (skip && n == 0) ctx (text.drop (n + p)) = some event) :
    ∃ s', fillLoop processHeader fuel [] s = some s' ∧ event.Matches s' := by
  induction hk : text.length using Nat.strongRecOn generalizing s skip n p ctx text fuel with
  | ind k ih =>
    subst hk
    have heq := hs.eq_at
    have hholds := hs.holds
    have hok : Pending.Ok ⟨n, p, skip, []⟩ := ⟨hskip, Nat.zero_lt_succ 7⟩
    by_cases hshort : text.length < n + p + headerLen
    · obtain ⟨n', p', b, i, hrun, hi⟩ := fillLoop_lost (P := processHeader) hs.eorStop hok hholds hshort hfuel
      rw [← heq] at hrun
      rw [nextEvent_short (by rw [List.length_drop]; unfold headerLen at *; omega)] at hevent
      obtain rfl := Option.some.inj hevent
      exact ⟨_, hrun, hs.lost hi⟩
    · have hle : n + p + headerLen ≤ text.length := Nat.not_lt.mp hshort
      obtain ⟨fuel', u, i, hrun, hu, hfuel'⟩ := fillLoop_interprets (P := processHeader) hs.eorStop hok hholds hle hfuel
      have hneed : Pending.need ⟨n, p, skip, []⟩ = n + p + headerLen := rfl
      have hwhole : Pending.whole ⟨n, p, skip, []⟩ text = (text.drop (n + p)).take headerLen := rfl
      rw [← heq, hwhole] at hrun
      rw [hneed, ← List.drop_drop] at hu hfuel'
      have hsi : Stands true s.interpreting skip n p ctx text :=
        ⟨hs.context, hs.ahead, hs.skip, hs.contentLen, hs.paddingLen, rfl, hs.isClosed, rfl⟩
      have hsi' : Stands true (s.interpreting.at 0 0 (skip && n == 0) u i) (skip && n == 0) 0 0 ctx
          ((text.drop (n + p)).drop headerLen) := hsi.moved hu
      have hlen : headerLen ≤ (text.drop (n + p)).length := by
        rw [List.length_drop]
        omega
      rw [nextEvent, if_pos hlen] at hevent
      simp only [Option.bind_eq_bind, Option.bind_eq_some_iff] at hevent
      obtain ⟨h, hheader, step, hstep, hevent⟩ := hevent
      obtain ⟨f, hf, hm⟩ := interpretWith_matches hsi' hheader hstep
      have hrun' : fillLoop processHeader fuel [] s = fillOn processHeader fuel' f := by
        rw [hrun]
        exact congrArg (fun r => r.bind (fillOn processHeader fuel')) hf
      have hrest : ((text.drop (n + p)).drop headerLen).length < text.length := by
        simp only [List.length_drop] at hlen ⊢
        unfold headerLen at *
        omega
      rw [hrun']
      cases step with
      | next count skip' ctx' =>
        cases f with
        | returned t => exact hm.elim
        | again header t =>
          obtain ⟨rfl, b, n', p', j, ht, hskip', rfl, rfl⟩ := hm
          have hdrop : ((text.drop (n + p)).drop headerLen).drop (j + (n' + p')) =
              (((text.drop (n + p)).drop headerLen).drop j).drop (n' + p') := List.drop_drop.symm
          simp only [hdrop] at hevent
          have hj : (((text.drop (n + p)).drop headerLen).drop j).length ≤ ((text.drop (n + p)).drop headerLen).length := by
            rw [List.length_drop]
            omega
          exact ih _ (Nat.lt_of_le_of_lt hj hrest) ht hskip' (Nat.lt_of_le_of_lt hj hfuel') hevent rfl
      | content n' p' ctx' =>
        cases f with
        | returned t => exact hm.elim
        | again header t =>
          obtain ⟨rfl, hn', ht⟩ := hm
          obtain ⟨s', hs', hmatch⟩ := content_matches ht hn' hfuel'
          refine ⟨s', hs', ?_⟩
          by_cases hnil : (text.drop (n + p)).drop headerLen = []
          · simp only [if_pos hnil, Option.some.injEq] at hevent hmatch
            rw [← hevent]
            exact hmatch
          · simp only [if_neg hnil, Option.some.injEq] at hevent hmatch
            rw [← hevent]
            exact hmatch
      | ended count ctx' =>
        obtain rfl := Option.some.inj hevent
        cases f with
        | returned t => exact ⟨t, rfl, hm⟩
        | again header t => exact hm.elim
      | begun count ctx' =>
        obtain rfl := Option.some.inj hevent
        cases f with
        | returned t => exact ⟨t, rfl, hm⟩
        | again header t => exact hm.elim

/-- `FillBuffProc` comes to the next event. -/
theorem fillBuffProc_event {event : Event} (hs : Stands false s skip n p ctx text) (hskip : n = 0 ∨ skip = true)
    (hevent : nextEvent (skip && n == 0) ctx (text.drop (n + p)) = some event) :
    ∃ s', fillBuffProc s = some s' ∧ event.Matches s' := by
  rw [fillBuffProc, fillWith, hs.ahead]
  exact fillLoop_event hs hskip (Nat.lt_succ_self _) hevent

/-- Content in the buffer is taken, and the stream stands behind it. -/
theorem Given.advance (hg : Given s n p ctx text) :
    ((source fillBuffProc).ready s).length = s.stream.avail ∧
      Stands false ((source fillBuffProc).consume ((source fillBuffProc).ready s).length s) false (n - s.stream.avail) p
        ctx (text.drop s.stream.avail) := by
  have hle : s.stream.avail ≤ s.stream.unread.length := by
    rw [hg.avail]
    exact Nat.min_le_right _ _
  have hlen : ((source fillBuffProc).ready s).length = s.stream.avail := Input.Sound.ready_length hle
  refine ⟨hlen, ?_⟩
  rw [hlen]
  refine ⟨hg.context, ?_, hg.skip, hg.contentLen, hg.paddingLen, Nat.sub_self _, hg.isClosed, hg.eorStop⟩
  rw [← hg.ahead]
  show s.stream.unread.drop s.stream.avail ++ s.req.ipc.inbox.bytes = _
  rw [Input.ahead, List.drop_append_of_le_length hle]

theorem Given.ready_ne_nil (hg : Given s n p ctx text) : (source fillBuffProc).ready s ≠ [] := by
  have hpos := List.length_pos_of_ne_nil hg.unread
  have hn := hg.pos
  have ha := hg.avail
  refine List.ne_nil_of_length_pos ?_
  rw [hg.advance.1]
  omega

theorem Given.ready_eq (hg : Given s n p ctx text) : (source fillBuffProc).ready s = text.take s.stream.avail := by
  have hle : s.stream.avail ≤ s.stream.unread.length := by
    rw [hg.avail]
    exact Nat.min_le_right _ _
  show s.stream.unread.take s.stream.avail = _
  rw [← hg.ahead, Input.ahead, List.take_append_of_le_length hle]

/-- The whole content, and then what the stream yields behind it. -/
theorem Given.yields (hg : Given s n p ctx text) (hle : n ≤ text.length) {c : Text} {Q : Input → Prop}
    (hrest : ∀ t, Stands false t false 0 p ctx (text.drop n) → ∃ e, Yields (source fillBuffProc) t c e ∧ Q e) :
    ∃ e, Yields (source fillBuffProc) s (text.take n ++ c) e ∧ Q e := by
  obtain ⟨-, ht⟩ := hg.advance
  have heq := ht.eq_at
  have hm : s.stream.avail ≤ n := by
    rw [hg.avail]
    exact Nat.min_le_left _ _
  obtain ⟨e, hy, he⟩ := content_yields (P := processHeader) (n := n - s.stream.avail) (c := c) (Q := Q) ht.isClosed ht.avail
    ht.holds (by rw [List.length_drop]; omega) (by
      intro u i hu
      rw [List.drop_drop, show s.stream.avail + (n - s.stream.avail) = n by omega] at hu
      exact hrest _ (ht.moved hu))
  rw [← heq] at hy
  refine ⟨e, ?_, he⟩
  have hsplit : text.take n ++ c =
      (source fillBuffProc).ready s ++ ((text.drop s.stream.avail).take (n - s.stream.avail) ++ c) := by
    rw [hg.ready_eq, ← List.append_assoc, ← List.take_add, show s.stream.avail + (n - s.stream.avail) = n by omega]
  rw [hsplit]
  exact .ready hg.isClosed hg.ready_ne_nil hy

/-- The beginning of a content that does not come whole. -/
theorem Given.lost (hg : Given s n p ctx text) (hlt : text.length < n) :
    ∃ e, Yields (source fillBuffProc) s text e ∧ Ended e ctx.lost [] := by
  obtain ⟨hlen, ht⟩ := hg.advance
  have heq := ht.eq_at
  have hready := congrArg List.length hg.ready_eq
  rw [hlen, List.length_take] at hready
  have hle : s.stream.avail ≤ text.length := by omega
  obtain ⟨n', i, hy, hi⟩ := content_lost (P := processHeader) (n := n - s.stream.avail) (p := p) ht.isClosed ht.avail
    ht.holds (by rw [List.length_drop]; omega)
  rw [← heq] at hy
  have hall : Yields (source fillBuffProc) s ((source fillBuffProc).ready s ++ text.drop s.stream.avail) _ :=
    .ready hg.isClosed hg.ready_ne_nil hy
  have hsplit : (source fillBuffProc).ready s ++ text.drop s.stream.avail = text := by
    rw [hg.ready_eq, List.take_append_drop]
  rw [hsplit] at hall
  exact ⟨_, hall, ht.lost hi⟩

end Refilling

theorem nextEvent_content_length {skip : Bool} {ctx ctx' : Context} {text rest : Text} {n p : Nat}
    (h : nextEvent skip ctx text = some (.content n p ctx' rest)) : rest.length < text.length := by
  induction hk : text.length using Nat.strongRecOn generalizing skip ctx text with
  | ind k ih =>
    subst hk
    by_cases hle : headerLen ≤ text.length
    · rw [nextEvent, if_pos hle] at h
      simp only [Option.bind_eq_bind, Option.bind_eq_some_iff] at h
      obtain ⟨header, -, step, -, h⟩ := h
      have hlt : (text.drop headerLen).length < text.length := by
        rw [List.length_drop]
        unfold headerLen at *
        omega
      cases step with
      | next count skip' ctx'' =>
        have hcount : ((text.drop headerLen).drop count).length ≤ (text.drop headerLen).length := by
          rw [List.length_drop]
          omega
        have hrest := ih _ (Nat.lt_of_le_of_lt hcount hlt) h rfl
        omega
      | content n' p' ctx'' =>
        by_cases hnil : text.drop headerLen = []
        · simp [hnil] at h
        · simp only [if_neg hnil, Option.some.injEq, Event.content.injEq] at h
          rw [← h.2.2.2]
          exact hlt
      | ended count ctx'' => cases h
      | begun count ctx'' => cases h
    · rw [nextEvent, if_neg hle] at h
      cases h

/-- What a client gets in all, and how it ends. -/
structure Delivery where
  content : Text
  ctx : Context
  rest : Text

/-- The same with more content in front. -/
def Delivery.prepend (c : Text) (d : Delivery) : Delivery := { d with content := c ++ d.content }

@[simp] theorem Delivery.prepend_nil : Delivery.prepend [] = id := rfl

theorem Delivery.prepend_comp (b c : Text) : Delivery.prepend b ∘ Delivery.prepend c = Delivery.prepend (b ++ c) := by
  funext d
  simp [Delivery.prepend]

/-- The events of a stream until it is closed. A stream whose request has begun meets no
other begin of a request. -/
def deliver (skip : Bool) (ctx : Context) (text : Text) : Option Delivery :=
  match _h : nextEvent skip ctx text with
  | none => none
  | some (.content n p ctx rest) => do
    let d ← deliver false ctx (rest.drop (n + p))
    some (d.prepend (rest.take n))
  | some (.ended ctx rest) => some ⟨[], ctx, rest⟩
  | some (.begun _ _) => none
termination_by text.length
decreasing_by
  have hlt := nextEvent_content_length _h
  simp only [List.length_drop]
  omega

theorem deliver_ended {skip : Bool} {ctx ctx' : Context} {text rest : Text}
    (h : nextEvent skip ctx text = some (.ended ctx' rest)) : deliver skip ctx text = some ⟨[], ctx', rest⟩ := by
  rw [deliver]
  split <;> simp_all

theorem deliver_content {skip : Bool} {ctx ctx' : Context} {text rest : Text} {n p : Nat}
    (h : nextEvent skip ctx text = some (.content n p ctx' rest)) :
    deliver skip ctx text =
      (deliver false ctx' (rest.drop (n + p))).map (Delivery.prepend (rest.take n)) := by
  rw [deliver]
  split
  · simp_all
  · rename_i h'
    rw [h] at h'
    cases h'
    cases deliver false ctx' (rest.drop (n + p)) <;> rfl
  · simp_all
  · simp_all

/-- Refilled until it is closed, a stream yields what the records say. -/
theorem deliver_yields {s : Input} {skip : Bool} {n p : Nat} {ctx : Context} {text : Text} {d : Delivery}
    (hs : Stands false s skip n p ctx text) (hskip : n = 0 ∨ skip = true)
    (hd : deliver (skip && n == 0) ctx (text.drop (n + p)) = some d) :
    ∃ e, Yields (source fillBuffProc) s d.content e ∧ Ended e d.ctx d.rest := by
  induction hk : text.length using Nat.strongRecOn generalizing s skip n p ctx text d with
  | ind k ih =>
    subst hk
    have hready : (source fillBuffProc).ready s = [] := by
      show s.stream.unread.take s.stream.avail = []
      rw [hs.avail, List.take_zero]
    rw [deliver] at hd
    split at hd
    · cases hd
    · rename_i n' p' ctx' rest hevent
      have hlt := nextEvent_content_length hevent
      simp only [Option.bind_eq_bind, Option.bind_eq_some_iff, Option.some.injEq] at hd
      obtain ⟨d', hd', rfl⟩ := hd
      obtain ⟨s', hfill, hg⟩ := fillBuffProc_event hs hskip hevent
      have hg : Given s' n' p' ctx' rest := hg
      have hsound : s'.Sound := by
        rw [Input.Sound, hg.avail]
        exact Nat.min_le_right _ _
      have hshorter : rest.length < text.length := by
        rw [List.length_drop] at hlt
        omega
      by_cases hle : n' ≤ rest.length
      · obtain ⟨e, hy, he⟩ := hg.yields hle (c := d'.content) (Q := fun e => Ended e d'.ctx d'.rest) (by
          intro t ht
          refine ih (rest.drop n').length (by rw [List.length_drop]; omega) ht (.inl rfl) ?_ rfl
          rw [List.drop_drop, Nat.zero_add]
          exact hd')
        exact ⟨e, .fill hs.isClosed hready hfill hsound (fun _ => hg.ready_ne_nil) hy, he⟩
      · -- the connection ends in the content
        have hnil : rest.drop (n' + p') = [] := List.drop_eq_nil_of_le (by omega)
        rw [hnil, deliver_ended (nextEvent_short (by decide))] at hd'
        obtain rfl := Option.some.inj hd'
        obtain ⟨e, hy, he⟩ := hg.lost (Nat.not_le.mp hle)
        refine ⟨e, ?_, he⟩
        simp only [Delivery.prepend, List.take_of_length_le (Nat.le_of_lt (Nat.not_le.mp hle)), List.append_nil]
        exact .fill hs.isClosed hready hfill hsound (fun _ => hg.ready_ne_nil) hy
    · rename_i ctx' rest hevent
      obtain rfl := Option.some.inj hd
      obtain ⟨s', hfill, he⟩ := fillBuffProc_event hs hskip hevent
      have he : Ended s' ctx' rest := he
      refine ⟨s', .fill hs.isClosed hready hfill (sound_of_avail he.avail) (fun hc => ?_) (.closed he.isClosed), he⟩
      rw [show (source fillBuffProc).closed s' = true from he.isClosed] at hc
      cases hc
    · cases hd

end Libfcgi
