import Altumo.Libfcgi.NameValue

/-!
# Filling a buffer

What the loop of `FillBuffProc` does does not depend on how the reads cut the bytes.
It passes over what is left of a record and collects the next header, or gives
content to the client, or finds that the connection has ended.
-/

namespace Libfcgi

open CString Descriptor Refill

/-- The same stream, with these bytes in its buffer and that much of a record to come. -/
def Input.at (s : Input) (contentLen paddingLen : Nat) (skip : Bool) (u : Text) (i : Inbox) : Input :=
  { stream := { s.stream with unread := u, contentLen := contentLen, paddingLen := paddingLen, skip := skip }
    req := s.req.setInbox i }

/-- Bytes that are moved from the connection to the buffer stay in their order. -/
structure Holds (u : Text) (i : Inbox) (text : Text) (fault : Option Errno) : Prop where
  ahead : u ++ i.bytes = text
  fault : i.fault = fault

theorem sound_of_avail {s : Input} (h : s.stream.avail = 0) : s.Sound := by
  rw [Input.Sound, h]
  exact Nat.zero_le _

section Passes

variable {P : ProcessHeader} {s : Input} {n p : Nat} {skip : Bool} {u : Text} {i : Inbox}

/-- A read, if the buffer is empty. -/
theorem refill_at (s : Input) (n p : Nat) (skip : Bool) {text : Text} {fault : Option Errno} (h : Holds u i text fault)
    (hne : text ≠ []) :
    ∃ u' i', (s.at n p skip u i).refill = (true, s.at n p skip u' i') ∧ u' ≠ [] ∧ Holds u' i' text fault := by
  cases u with
  | nil =>
    have hpos : 0 < s.stream.bufflen.len := Nat.lt_of_lt_of_le (by decide) s.stream.bufflen.len_ge
    have hbytes : i.bytes ≠ [] := by
      rw [← h.ahead] at hne
      exact hne
    have hpiece : (i.read s.stream.bufflen.len).1 ≠ [] := fun hnil => hbytes ((i.read_eq_nil_iff hpos).mp hnil)
    refine ⟨(i.read s.stream.bufflen.len).1, (i.read s.stream.bufflen.len).2, ?_, hpiece, ?_, ?_⟩
    · have hempty : (i.read s.stream.bufflen.len).1.isEmpty = false := by simpa using hpiece
      simp only [Input.refill, Input.at, List.isEmpty_nil, if_true, Request.setInbox, hempty]
      rfl
    · rw [i.read_append]
      exact h.ahead
    · exact h.fault
  | cons b u => exact ⟨b :: u, i, rfl, by simp, h⟩

/-- A read that returns nothing ends the stream. -/
theorem refill_lost (s : Input) (n p : Nat) (skip : Bool) (hu : u = []) (hi : i.bytes = []) :
    ∃ i', (s.at n p skip u i).refill = (false, (s.at n p skip [] i').setError (Inbox.error i')) ∧ Holds [] i' [] i.fault := by
  subst hu
  have hpos : 0 < s.stream.bufflen.len := Nat.lt_of_lt_of_le (by decide) s.stream.bufflen.len_ge
  have hnil : (i.read s.stream.bufflen.len).1 = [] := (i.read_eq_nil_iff hpos).mpr hi
  refine ⟨(i.read s.stream.bufflen.len).2, ?_, ?_, rfl⟩
  · simp only [Input.refill, Input.at, List.isEmpty_nil, if_true, Request.setInbox, hnil]
  · have happ := i.read_append s.stream.bufflen.len
    rw [hnil, hi] at happ
    exact happ

/-- Whether content is still to be passed over when so much of it has come. -/
def skipAfter (n came : Nat) (skip : Bool) : Bool := if 0 < n then decide (came < n) else skip

theorem skipAfter_whole {came : Nat} (h : n ≤ came) : skipAfter n came skip = (skip && n == 0) := by
  unfold skipAfter
  by_cases h0 : n = 0
  · simp [h0]
  · simp [h0, Nat.pos_of_ne_zero h0, Nat.not_lt.mpr h]

theorem skipAfter_short (n came : Nat) (skip : Bool) : n - came = 0 ∨ skipAfter n came skip = true := by
  by_cases h : n ≤ came
  · exact .inl (Nat.sub_eq_zero_of_le h)
  · rw [skipAfter, if_pos (by omega)]
    exact .inr (decide_eq_true (Nat.not_le.mp h))

theorem skipAfter_and (n came : Nat) (skip : Bool) :
    (skipAfter n came skip && n - came == 0) = (skip && n == 0) := by
  by_cases hn : n ≤ came
  · rw [skipAfter_whole hn, Nat.sub_eq_zero_of_le hn, beq_self_eq_true, Bool.and_true]
  · have hne : n - came ≠ 0 := by omega
    have hn0 : n ≠ 0 := by omega
    rw [beq_false_of_ne hne, beq_false_of_ne hn0, Bool.and_false, Bool.and_false]

theorem drop_min_length (n : Nat) (u : Text) : u.drop (min n u.length) = u.drop n := by
  rcases Nat.le_total n u.length with h | h
  · rw [Nat.min_eq_left h]
  · rw [Nat.min_eq_right h, List.drop_length, List.drop_eq_nil_of_le h]

theorem skipContent_at :
    { s.at n p skip u i with stream := (s.at n p skip u i).stream.skipContent } =
      s.at (n - u.length) p (skipAfter n u.length skip) (u.drop n) i := by
  have hmin : n - min n u.length = n - u.length := by omega
  simp only [Input.at, Reader.skipContent, drop_min_length, hmin, skipAfter, Nat.sub_pos_iff_lt]

theorem skipPadding_at :
    { s.at n p skip u i with stream := (s.at n p skip u i).stream.skipPadding } =
      s.at n (p - u.length) skip (u.drop p) i := by
  have hmin : p - min p u.length = p - u.length := by omega
  simp only [Input.at, Reader.skipPadding, drop_min_length, hmin]

/-- Without content for the client, a pass goes on to the padding. -/
theorem fillContent_at (header : Text) (hskip : n = 0 ∨ skip = true) :
    fillContent P header (s.at n p skip u i) =
      if 0 < n - u.length then some (.again header (s.at (n - u.length) p (skipAfter n u.length skip) (u.drop n) i))
      else fillPadding P header (s.at 0 p (skipAfter n u.length skip) (u.drop n) i) := by
  have hno : (decide (0 < (s.at n p skip u i).stream.contentLen) && !(s.at n p skip u i).stream.skip) = false := by
    rcases hskip with rfl | rfl <;> simp [Input.at]
  rw [fillContent, hno, skipContent_at]
  simp only [Bool.false_eq_true, if_false]
  have hlen : (s.at (n - u.length) p (skipAfter n u.length skip) (u.drop n) i).stream.contentLen = n - u.length := rfl
  rw [hlen]
  split
  · rfl
  · rename_i hle
    rw [show n - u.length = 0 by omega]

theorem fillPadding_at (header : Text) :
    fillPadding P header (s.at n p skip u i) =
      if 0 < p - u.length then some (.again header (s.at n (p - u.length) skip (u.drop p) i))
      else fillEor P header (s.at n 0 skip (u.drop p) i) := by
  rw [fillPadding, skipPadding_at]
  have hlen : (s.at n (p - u.length) skip (u.drop p) i).stream.paddingLen = p - u.length := rfl
  simp only [hlen]
  split
  · rfl
  · rename_i hle
    rw [show p - u.length = 0 by omega]

/-- The rest of a record is longer than what is in the buffer. -/
theorem fillContent_short (header : Text) (hskip : n = 0 ∨ skip = true) (hlt : u.length < n + p) :
    fillContent P header (s.at n p skip u i) =
      some (.again header (s.at (n - u.length) (p - (u.length - n)) (skipAfter n u.length skip) [] i)) := by
  rw [fillContent_at header hskip]
  by_cases hn : 0 < n - u.length
  · rw [if_pos hn, List.drop_eq_nil_of_le (by omega), show p - (u.length - n) = p by omega]
  · rw [if_neg hn, fillPadding_at, List.length_drop, if_pos (by omega), List.drop_drop, List.drop_eq_nil_of_le (by omega),
      show n - u.length = 0 by omega]

/-- The rest of a record is in the buffer. -/
theorem fillContent_whole (header : Text) (hskip : n = 0 ∨ skip = true) (hle : n + p ≤ u.length) :
    fillContent P header (s.at n p skip u i) =
      fillEor P header (s.at 0 0 (skipAfter n u.length skip) (u.drop (n + p)) i) := by
  rw [fillContent_at header hskip, if_neg (by omega), fillPadding_at, List.length_drop, if_neg (by omega), List.drop_drop]

/-- The state in which a header is interpreted. -/
def Input.interpreting (s : Input) : Input := { s with stream := { s.stream with eorStop := true, avail := 0 } }

/-- The end of a pass with a whole header. -/
def interpretWith (P : ProcessHeader) (header : Text) (s : Input) : Option Filled := do
  let h ← headerOf header
  let (status, s) ← P h s
  some (afterHeader status s)

theorem fillEor_short {header : Text} (heor : s.stream.eorStop = false) (hlt : header.length + u.length < headerLen) :
    fillEor P header (s.at n p skip u i) = some (.again (header ++ u) (s.at n p skip [] i)) := by
  have hmin : min (headerLen - header.length) u.length = u.length := by omega
  have heor' : (s.at n p skip u i).stream.eorStop = false := heor
  have hu : (s.at n p skip u i).stream.unread = u := rfl
  rw [fillEor, heor', fillHeader]
  simp only [Bool.false_eq_true, if_false, hu, hmin, List.take_length, List.drop_length, List.length_append, if_pos hlt]
  rfl

theorem fillEor_whole {header : Text} (heor : s.stream.eorStop = false) (hheader : header.length ≤ headerLen)
    (hle : headerLen ≤ header.length + u.length) :
    fillEor P header (s.at n p skip u i) =
      interpretWith P (header ++ u.take (headerLen - header.length))
        (s.interpreting.at n p skip (u.drop (headerLen - header.length)) i) := by
  have hmin : min (headerLen - header.length) u.length = headerLen - header.length := by omega
  have heor' : (s.at n p skip u i).stream.eorStop = false := heor
  have hu : (s.at n p skip u i).stream.unread = u := rfl
  have hlen : ¬ header.length + (u.take (headerLen - header.length)).length < headerLen := by
    rw [List.length_take]
    omega
  rw [fillEor, heor', fillHeader]
  simp only [Bool.false_eq_true, if_false, hu, hmin, List.length_append, if_neg hlen]
  rfl

/-- The loop from the end of a pass on. -/
def fillOn (P : ProcessHeader) (fuel : Nat) : Filled → Option Input
  | .returned s => some s
  | .again header s => fillLoop P fuel header s

theorem fillLoop_succ (fuel : Nat) (header : Text) (s : Input) :
    fillLoop P (fuel + 1) header s = (fillPass P header s).bind (fillOn P fuel) := by
  rw [fillLoop]
  cases fillPass P header s with
  | none => rfl
  | some f => cases f <;> rfl

/-- What is left of a record and of the next header, in front of a text. -/
structure Pending where
  contentLen : Nat
  paddingLen : Nat
  skip : Bool
  header : Text

namespace Pending

variable (a : Pending)

/-- How many bytes it takes until the header is whole. -/
def need : Nat := a.contentLen + a.paddingLen + (headerLen - a.header.length)

/-- The header as the text completes it. -/
def whole (text : Text) : Text := a.header ++ (text.drop (a.contentLen + a.paddingLen)).take (headerLen - a.header.length)

/-- Whether content is passed over behind the header. -/
def skipThen : Bool := a.skip && a.contentLen == 0

/-- No content is for the client. -/
structure Ok : Prop where
  skip : a.contentLen = 0 ∨ a.skip = true
  header : a.header.length < headerLen

/-- What is pending after so many bytes of the text, before the header is whole. -/
def after (text : Text) (k : Nat) : Pending where
  contentLen := a.contentLen - k
  paddingLen := a.paddingLen - (k - a.contentLen)
  skip := skipAfter a.contentLen k a.skip
  header := a.header ++ (text.take k).drop (a.contentLen + a.paddingLen)

variable {a} {text : Text} {k : Nat}

theorem header_after (hk : k ≤ text.length) :
    (a.after text k).header.length = a.header.length + (k - (a.contentLen + a.paddingLen)) := by
  simp only [after, List.length_append, List.length_drop, List.length_take, Nat.min_eq_left hk]

theorem Ok.after (h : a.Ok) (hk : k ≤ text.length) (hlt : k < a.need) : (a.after text k).Ok := by
  refine ⟨skipAfter_short a.contentLen k a.skip, ?_⟩
  have hlen := h.header
  rw [header_after hk]
  unfold need at hlt
  omega

theorem need_after (text : Text) (h : a.Ok) (hk : k ≤ text.length) (hlt : k < a.need) : (a.after text k).need + k = a.need := by
  have hlen := h.header
  have hheader : (a.after text k).header.length = a.header.length + (k - (a.contentLen + a.paddingLen)) := header_after hk
  have hcontent : (a.after text k).contentLen = a.contentLen - k := rfl
  have hpadding : (a.after text k).paddingLen = a.paddingLen - (k - a.contentLen) := rfl
  unfold need at hlt ⊢
  rw [hheader, hcontent, hpadding]
  omega

theorem skipThen_after : (a.after text k).skipThen = a.skipThen := skipAfter_and _ _ _

theorem whole_after (hk : k ≤ text.length) (hlt : k < a.need) :
    (a.after text k).whole (text.drop k) = a.whole text := by
  have hheader : (a.after text k).header.length = a.header.length + (k - (a.contentLen + a.paddingLen)) := header_after hk
  have hsum : (a.after text k).contentLen + (a.after text k).paddingLen = a.contentLen + a.paddingLen - k := by
    simp only [after]
    omega
  have hleft : (text.take k).drop (a.contentLen + a.paddingLen) =
      (text.drop (a.contentLen + a.paddingLen)).take (k - (a.contentLen + a.paddingLen)) := by rw [List.drop_take]
  have hright : (text.drop k).drop (a.contentLen + a.paddingLen - k) =
      (text.drop (a.contentLen + a.paddingLen)).drop (k - (a.contentLen + a.paddingLen)) := by
    rw [List.drop_drop, List.drop_drop]
    congr 1
    omega
  unfold whole
  rw [hheader, hsum, hright]
  show (a.header ++ (text.take k).drop (a.contentLen + a.paddingLen)) ++ _ = _
  rw [hleft, List.append_assoc, ← List.take_add]
  congr 2
  unfold need at hlt
  omega

end Pending

/-- The buffer ends before the header does. -/
theorem fillContent_pending {a : Pending} (ha : a.Ok) (heor : s.stream.eorStop = false) {text : Text}
    {fault : Option Errno} (h : Holds u i text fault) (hlt : u.length < a.need) :
    fillContent P a.header (s.at a.contentLen a.paddingLen a.skip u i) =
      some (.again (a.after text u.length).header
        (s.at (a.after text u.length).contentLen (a.after text u.length).paddingLen (a.after text u.length).skip [] i)) := by
  have htake : text.take u.length = u := by rw [← h.ahead, List.take_left']; rfl
  by_cases hbody : u.length < a.contentLen + a.paddingLen
  · have hheader : (a.after text u.length).header = a.header := by
      simp only [Pending.after, htake, List.drop_eq_nil_of_le (Nat.le_of_lt hbody), List.append_nil]
    rw [fillContent_short a.header ha.skip hbody, hheader]
    rfl
  · have hheader : (a.after text u.length).header = a.header ++ u.drop (a.contentLen + a.paddingLen) := by
      simp only [Pending.after, htake]
    have hcontent : a.contentLen - u.length = 0 := by omega
    have hpadding : a.paddingLen - (u.length - a.contentLen) = 0 := by omega
    have hlen : a.header.length + (u.drop (a.contentLen + a.paddingLen)).length < headerLen := by
      rw [List.length_drop]
      unfold Pending.need at hlt
      omega
    rw [fillContent_whole a.header ha.skip (Nat.not_lt.mp hbody), fillEor_short heor hlen, hheader]
    simp only [Pending.after, hcontent, hpadding]

/-- The buffer holds the whole header. -/
theorem fillContent_interprets {a : Pending} (ha : a.Ok) (heor : s.stream.eorStop = false) {text : Text}
    {fault : Option Errno} (h : Holds u i text fault) (hle : a.need ≤ u.length) :
    fillContent P a.header (s.at a.contentLen a.paddingLen a.skip u i) =
      interpretWith P (a.whole text) (s.interpreting.at 0 0 a.skipThen (u.drop a.need) i) := by
  have hheader := ha.header
  have hbody : a.contentLen + a.paddingLen ≤ u.length := by
    unfold Pending.need at hle
    omega
  have hlen : headerLen ≤ a.header.length + (u.drop (a.contentLen + a.paddingLen)).length := by
    rw [List.length_drop]
    unfold Pending.need at hle
    omega
  have hskip : skipAfter a.contentLen u.length a.skip = a.skipThen := skipAfter_whole (by omega)
  have hwhole : a.header ++ (u.drop (a.contentLen + a.paddingLen)).take (headerLen - a.header.length) = a.whole text := by
    unfold Pending.whole
    rw [← h.ahead, List.drop_append_of_le_length hbody, List.take_append_of_le_length]
    rw [List.length_drop]
    unfold Pending.need at hle
    omega
  rw [fillContent_whole a.header ha.skip hbody, fillEor_whole heor (Nat.le_of_lt hheader) hlen, hwhole, hskip, List.drop_drop]
  rfl

/-- The connection ends before the header does. -/
theorem fillLoop_lost (heor : s.stream.eorStop = false) {a : Pending} (ha : a.Ok) {text : Text} {fault : Option Errno}
    {fuel : Nat} (h : Holds u i text fault) (hlt : text.length < a.need) (hfuel : text.length < fuel) :
    ∃ n' p' skip' i', fillLoop P fuel a.header (s.at a.contentLen a.paddingLen a.skip u i) =
      some ((s.at n' p' skip' [] i').setError (Inbox.error i')) ∧ Holds [] i' [] fault := by
  induction fuel generalizing a u i text with
  | zero => omega
  | succ fuel ih =>
    rw [fillLoop_succ, fillPass]
    by_cases hnil : text = []
    · obtain ⟨hu, hi⟩ := List.append_eq_nil_iff.mp (h.ahead.trans hnil)
      obtain ⟨i', hrefill, hi'⟩ := refill_lost s a.contentLen a.paddingLen a.skip hu hi
      exact ⟨a.contentLen, a.paddingLen, a.skip, i', by rw [hrefill]; rfl, hi'.ahead, hi'.fault.trans h.fault⟩
    · obtain ⟨u₁, i₁, hrefill, hne, h₁⟩ := refill_at s a.contentLen a.paddingLen a.skip h hnil
      have hpos : 0 < u₁.length := List.length_pos_of_ne_nil hne
      have hlen := congrArg List.length h₁.ahead
      rw [List.length_append] at hlen
      have hk : u₁.length ≤ text.length := by omega
      have hshort : u₁.length < a.need := by omega
      have hneed := Pending.need_after text ha hk hshort
      have hrest : Holds [] i₁ (text.drop u₁.length) fault := ⟨by rw [← h₁.ahead, List.drop_left]; rfl, h₁.fault⟩
      obtain ⟨n', p', skip', i', hrun, hi'⟩ := ih (ha.after hk hshort) hrest (by rw [List.length_drop]; omega)
        (by rw [List.length_drop]; omega)
      refine ⟨n', p', skip', i', ?_, hi'⟩
      rw [hrefill]
      simp only
      rw [fillContent_pending ha heor h₁ hshort]
      exact hrun

/-- However the bytes come, the loop passes over the rest of a record and interprets the
next eight bytes. -/
theorem fillLoop_interprets (heor : s.stream.eorStop = false) {a : Pending} (ha : a.Ok) {text : Text}
    {fault : Option Errno} {fuel : Nat} (h : Holds u i text fault) (hle : a.need ≤ text.length)
    (hfuel : text.length < fuel) :
    ∃ fuel' u' i', fillLoop P fuel a.header (s.at a.contentLen a.paddingLen a.skip u i) =
        (interpretWith P (a.whole text) (s.interpreting.at 0 0 a.skipThen u' i')).bind (fillOn P fuel') ∧
      Holds u' i' (text.drop a.need) fault ∧ (text.drop a.need).length < fuel' := by
  induction fuel generalizing a u i text with
  | zero => omega
  | succ fuel ih =>
    have hheader := ha.header
    have hneed_pos : 0 < a.need := by unfold Pending.need; omega
    have hnil : text ≠ [] := List.ne_nil_of_length_pos (by omega)
    rw [fillLoop_succ, fillPass]
    obtain ⟨u₁, i₁, hrefill, hne, h₁⟩ := refill_at s a.contentLen a.paddingLen a.skip h hnil
    have hpos : 0 < u₁.length := List.length_pos_of_ne_nil hne
    have hlen := congrArg List.length h₁.ahead
    rw [List.length_append] at hlen
    have hk : u₁.length ≤ text.length := by omega
    rw [hrefill]
    simp only
    by_cases hshort : u₁.length < a.need
    · have hneed := Pending.need_after text ha hk hshort
      have hrest : Holds [] i₁ (text.drop u₁.length) fault := ⟨by rw [← h₁.ahead, List.drop_left]; rfl, h₁.fault⟩
      obtain ⟨fuel', u', i', hrun, hi', hf⟩ := ih (ha.after hk hshort) hrest (by rw [List.length_drop]; omega)
        (by rw [List.length_drop]; omega)
      have hdrop : (text.drop u₁.length).drop (a.after text u₁.length).need = text.drop a.need := by
        rw [List.drop_drop]
        congr 1
        omega
      rw [hdrop] at hi' hf
      rw [Pending.whole_after hk hshort, Pending.skipThen_after] at hrun
      refine ⟨fuel', u', i', ?_, hi', hf⟩
      rw [fillContent_pending ha heor h₁ hshort]
      exact hrun
    · have hge : a.need ≤ u₁.length := Nat.not_lt.mp hshort
      refine ⟨fuel, u₁.drop a.need, i₁, by rw [fillContent_interprets ha heor h₁ hge], ⟨?_, h₁.fault⟩, ?_⟩
      · rw [← h₁.ahead, List.drop_append_of_le_length hge]
      · rw [List.length_drop]
        omega

/-- The stream is at its end. -/
def Input.ended (s : Input) : Input := { s with stream := { s.stream with avail := 0, isClosed := true } }

theorem fillEor_ends {header : Text} (heor : s.stream.eorStop = true) :
    fillEor P header (s.at n p skip u i) = some (.returned (s.at n p skip u i).ended) := by
  have heor' : (s.at n p skip u i).stream.eorStop = true := heor
  rw [fillEor, if_pos heor']
  rfl

/-- In a recursive call the loop passes over the rest of the record, and ends. -/
theorem fillLoop_eor (header : Text) (heor : s.stream.eorStop = true) {text : Text} {fault : Option Errno} {fuel : Nat}
    (hskip : n = 0 ∨ skip = true) (h : Holds u i text fault) (hnil : text ≠ []) (hle : n + p ≤ text.length)
    (hfuel : text.length < fuel) :
    ∃ u' i', fillLoop P fuel header (s.at n p skip u i) = some (s.at 0 0 (skip && n == 0) u' i').ended ∧
      Holds u' i' (text.drop (n + p)) fault := by
  induction fuel generalizing n p skip u i text with
  | zero => omega
  | succ fuel ih =>
    rw [fillLoop_succ, fillPass]
    obtain ⟨u₁, i₁, hrefill, hne, h₁⟩ := refill_at s n p skip h hnil
    have hpos : 0 < u₁.length := List.length_pos_of_ne_nil hne
    have hlen := congrArg List.length h₁.ahead
    rw [List.length_append] at hlen
    rw [hrefill]
    simp only
    by_cases hshort : u₁.length < n + p
    · have hrest : Holds [] i₁ (text.drop u₁.length) fault := ⟨by rw [← h₁.ahead, List.drop_left]; rfl, h₁.fault⟩
      obtain ⟨u', i', hrun, hi'⟩ := ih (p := p - (u₁.length - n)) (skipAfter_short n u₁.length skip) hrest
        (List.ne_nil_of_length_pos (by rw [List.length_drop]; omega)) (by rw [List.length_drop]; omega)
        (by rw [List.length_drop]; omega)
      rw [skipAfter_and] at hrun
      rw [List.drop_drop, show u₁.length + (n - u₁.length + (p - (u₁.length - n))) = n + p by omega] at hi'
      refine ⟨u', i', ?_, hi'⟩
      rw [fillContent_short header hskip hshort]
      exact hrun
    · have hge : n + p ≤ u₁.length := Nat.not_lt.mp hshort
      refine ⟨u₁.drop (n + p), i₁, ?_, ?_, h₁.fault⟩
      · rw [fillContent_whole header hskip hge, fillEor_ends heor, skipAfter_whole (by omega)]
        rfl
      · rw [← h₁.ahead, List.drop_append_of_le_length hge]

theorem fillLoop_eor_lost (header : Text) {text : Text} {fault : Option Errno} {fuel : Nat}
    (hskip : n = 0 ∨ skip = true) (h : Holds u i text fault) (hshort : text = [] ∨ text.length < n + p)
    (hfuel : text.length < fuel) :
    ∃ n' p' skip' i', fillLoop P fuel header (s.at n p skip u i) =
      some ((s.at n' p' skip' [] i').setError (Inbox.error i')) ∧ Holds [] i' [] fault := by
  induction fuel generalizing n p skip u i text with
  | zero => omega
  | succ fuel ih =>
    rw [fillLoop_succ, fillPass]
    by_cases hnil : text = []
    · obtain ⟨hu, hi⟩ := List.append_eq_nil_iff.mp (h.ahead.trans hnil)
      obtain ⟨i', hrefill, hi'⟩ := refill_lost s n p skip hu hi
      exact ⟨n, p, skip, i', by rw [hrefill]; rfl, hi'.ahead, hi'.fault.trans h.fault⟩
    · obtain ⟨u₁, i₁, hrefill, hne, h₁⟩ := refill_at s n p skip h hnil
      have hpos : 0 < u₁.length := List.length_pos_of_ne_nil hne
      have hlen := congrArg List.length h₁.ahead
      rw [List.length_append] at hlen
      have hlt : text.length < n + p := hshort.resolve_left hnil
      have hrest : Holds [] i₁ (text.drop u₁.length) fault := ⟨by rw [← h₁.ahead, List.drop_left]; rfl, h₁.fault⟩
      obtain ⟨n', p', skip', i', hrun, hi'⟩ := ih (p := p - (u₁.length - n)) (skipAfter_short n u₁.length skip) hrest
        (by rw [List.length_drop]; omega) (by rw [List.length_drop]; omega)
      refine ⟨n', p', skip', i', ?_, hi'⟩
      rw [hrefill]
      simp only
      rw [fillContent_short header hskip (by omega)]
      exact hrun

theorem Holds.length_eq {text : Text} {fault : Option Errno} (h : Holds u i text fault) :
    (s.at n p skip u i).ahead.length = text.length := congrArg List.length h.ahead

theorem fillWith_at {text : Text} {fault : Option Errno} (h : Holds u i text fault) :
    fillWith P (s.at n p skip u i) = fillLoop P (text.length + 1) [] (s.at n p skip u i) := by
  rw [fillWith, h.length_eq]

/-- A stream that has given so much of its buffer to the client. -/
def Input.giving (s : Input) (m : Nat) : Input := { s with stream := { s.stream with avail := m } }

theorem giving_advance (s : Input) {m k : Nat} :
    ((s.at n p skip u i).giving m).advance k = (s.at n p skip (u.drop k) i).giving (m - k) := rfl

theorem giving_zero (ha : s.stream.avail = 0) : (s.at n p skip u i).giving 0 = s.at n p skip u i := by
  simp only [Input.giving, Input.at, ← ha]

/-- Content that has come is given to the client. -/
theorem fillLoop_content (header : Text) (fuel : Nat) {text : Text} {fault : Option Errno} (hn : 0 < n)
    (h : Holds u i text fault) (hnil : text ≠ []) :
    ∃ u' i', u' ≠ [] ∧ Holds u' i' text fault ∧ fillLoop P (fuel + 1) header (s.at n p false u i) =
      some ((s.at (n - min n u'.length) p false u' i').giving (min n u'.length)) := by
  obtain ⟨u', i', hrefill, hne, h'⟩ := refill_at s n p false h hnil
  refine ⟨u', i', hne, h', ?_⟩
  have hdeliver : fillContent P header (s.at n p false u' i') =
      some (.returned ((s.at (n - min n u'.length) p false u' i').giving (min n u'.length))) := by
    have hif : (decide (0 < (s.at n p false u' i').stream.contentLen) && !(s.at n p false u' i').stream.skip) = true := by
      simp [Input.at, hn]
    rw [fillContent, if_pos hif]
    rfl
  rw [fillLoop_succ, fillPass, hrefill]
  simp only [hdeliver, Option.bind_some, fillOn]

/-- The stream ends although content is to come. -/
theorem fillLoop_content_lost (s : Input) (n p : Nat) (skip : Bool) (header : Text) (fuel : Nat) (hu : u = []) (hi : i.bytes = []) :
    ∃ i', fillLoop P (fuel + 1) header (s.at n p skip u i) =
      some ((s.at n p skip [] i').setError (Inbox.error i')) ∧ Holds [] i' [] i.fault := by
  obtain ⟨i', hrefill, hi'⟩ := refill_lost s n p skip hu hi
  exact ⟨i', by rw [fillLoop_succ, fillPass, hrefill]; rfl, hi'⟩

section Content

variable {text c : Text} {fault : Option Errno}

theorem ready_nil (ha : s.stream.avail = 0) : (source (fillWith P)).ready (s.at n p skip u i) = [] := by
  simp [source, Input.at, ha]

/-- One refill in front of content. -/
theorem content_step (hopen : s.stream.isClosed = false) (ha : s.stream.avail = 0) {e : Input} {u' : Text} {i' : Inbox}
    (hn : 0 < n) (hne : u' ≠ [])
    (hrun : fillWith P (s.at n p false u i) =
      some ((s.at (n - min n u'.length) p false u' i').giving (min n u'.length)))
    (h : Yields (source (fillWith P)) (s.at (n - min n u'.length) p false (u'.drop (min n u'.length)) i') c e) :
    Yields (source (fillWith P)) (s.at n p false u i) (u'.take (min n u'.length) ++ c) e := by
  have hpos : 0 < u'.length := List.length_pos_of_ne_nil hne
  have hready : u'.take (min n u'.length) ≠ [] :=
    List.ne_nil_of_length_pos (by rw [List.length_take]; omega)
  have hlen : (u'.take (min n u'.length)).length = min n u'.length := by rw [List.length_take]; omega
  refine .fill hopen (ready_nil ha) hrun (Nat.min_le_right _ _) (fun _ => hready) (.ready hopen hready ?_)
  have hconsume : (source (fillWith P)).consume (u'.take (min n u'.length)).length
      ((s.at (n - min n u'.length) p false u' i').giving (min n u'.length)) =
      s.at (n - min n u'.length) p false (u'.drop (min n u'.length)) i' := by
    rw [hlen]
    show ((s.at (n - min n u'.length) p false u' i').giving (min n u'.length)).advance (min n u'.length) = _
    rw [giving_advance, Nat.sub_self, giving_zero ha]
  exact hconsume ▸ h

/-- The content of a record, and then what the stream yields behind it. -/
theorem content_yields (hopen : s.stream.isClosed = false) (ha : s.stream.avail = 0) (h : Holds u i text fault)
    (hle : n ≤ text.length) {Q : Input → Prop}
    (hrest : ∀ u' i', Holds u' i' (text.drop n) fault →
      ∃ e, Yields (source (fillWith P)) (s.at 0 p false u' i') c e ∧ Q e) :
    ∃ e, Yields (source (fillWith P)) (s.at n p false u i) (text.take n ++ c) e ∧ Q e := by
  induction n using Nat.strongRecOn generalizing u i text with
  | ind n ih =>
    by_cases hn : n = 0
    · subst hn
      exact hrest u i h
    · have hnil : text ≠ [] := List.ne_nil_of_length_pos (by omega)
      obtain ⟨u', i', hne, h', hrun⟩ := fillLoop_content (P := P) (s := s) (p := p) [] text.length (Nat.pos_of_ne_zero hn) h hnil
      rw [← fillWith_at h] at hrun
      have hpos : 0 < u'.length := List.length_pos_of_ne_nil hne
      have htext := h'.ahead
      generalize hm : min n u'.length = m at hrun
      have hdrop : text.drop m = u'.drop m ++ i'.bytes := by
        rw [← htext, List.drop_append_of_le_length (by omega)]
      have htake : text.take m = u'.take m := by rw [← htext, List.take_append_of_le_length (by omega)]
      obtain ⟨e, hy, he⟩ := ih (n - m) (by omega)
        (show Holds (u'.drop m) i' (text.drop m) fault from ⟨hdrop.symm, h'.fault⟩)
        (by rw [List.length_drop]; omega) (by rw [List.drop_drop, show m + (n - m) = n by omega]; exact hrest)
      refine ⟨e, ?_, he⟩
      have hsplit : text.take n ++ c = u'.take m ++ ((text.drop m).take (n - m) ++ c) := by
        rw [← htake, ← List.append_assoc, ← List.take_add, show m + (n - m) = n by omega]
      rw [hsplit, ← hm]
      rw [← hm] at hrun hy
      exact content_step hopen ha (Nat.pos_of_ne_zero hn) hne hrun hy

/-- Of content that does not come whole the client gets what there is. -/
theorem content_lost (hopen : s.stream.isClosed = false) (ha : s.stream.avail = 0) (h : Holds u i text fault)
    (hlt : text.length < n) :
    ∃ n' i', Yields (source (fillWith P)) (s.at n p false u i) text
      ((s.at n' p false [] i').setError (Inbox.error i')) ∧ Holds [] i' [] fault := by
  induction n using Nat.strongRecOn generalizing u i text with
  | ind n ih =>
    by_cases hnil : text = []
    · obtain ⟨hu, hi⟩ := List.append_eq_nil_iff.mp (h.ahead.trans hnil)
      obtain ⟨i', hrun, hi'⟩ := fillLoop_content_lost (P := P) s n p false [] text.length hu hi
      rw [← fillWith_at h] at hrun
      refine ⟨n, i', ?_, hi'.ahead, hi'.fault.trans h.fault⟩
      rw [hnil]
      exact .fill hopen (ready_nil ha) hrun (sound_of_avail ha) (fun hc => by cases hc) (.closed rfl)
    · have hn : 0 < n := by omega
      obtain ⟨u', i', hne, h', hrun⟩ := fillLoop_content (P := P) (s := s) (p := p) [] text.length hn h hnil
      rw [← fillWith_at h] at hrun
      have hpos : 0 < u'.length := List.length_pos_of_ne_nil hne
      have htext := h'.ahead
      have hlen := congrArg List.length htext
      rw [List.length_append] at hlen
      have hm : min n u'.length = u'.length := by omega
      have hdrop : text.drop u'.length = [] ++ i'.bytes := by rw [← htext, List.drop_left]; rfl
      obtain ⟨n', i'', hy, hi''⟩ := ih (n - u'.length) (by omega)
        (show Holds [] i' (text.drop u'.length) fault from ⟨hdrop.symm, h'.fault⟩) (by rw [List.length_drop]; omega)
      refine ⟨n', i'', ?_, hi''⟩
      have hsplit : text = u'.take (min n u'.length) ++ text.drop u'.length := by
        rw [hm, List.take_length, hdrop, List.nil_append, htext]
      have hy' : Yields (source (fillWith P)) (s.at (n - min n u'.length) p false (u'.drop (min n u'.length)) i')
          (text.drop u'.length) ((s.at n' p false [] i'').setError (Inbox.error i'')) := by
        rw [hm, List.drop_length]
        exact hy
      rw [hsplit]
      exact content_step hopen ha hn hne hrun hy'

/-- What the client of a recursive call gets, and whether the record ends as it should. -/
theorem eor_yields (hopen : s.stream.isClosed = false) (ha : s.stream.avail = 0) (heor : s.stream.eorStop = true)
    (h : Holds u i text fault) (hgiven : (if skip then 0 else n) < text.length) (hle : n + p ≤ text.length) :
    ∃ u' i', Yields (source (fillWith P)) (s.at n p skip u i) (text.take (if skip then 0 else n))
        (s.at 0 0 (skip && n == 0) u' i').ended ∧ Holds u' i' (text.drop (n + p)) fault := by
  -- the last refill finds the end of the record
  have hlast : ∀ (n : Nat) (u : Text) (i : Inbox) (text : Text), n = 0 ∨ skip = true → Holds u i text fault → text ≠ [] →
      n + p ≤ text.length → ∃ u' i', Yields (source (fillWith P)) (s.at n p skip u i) []
        (s.at 0 0 (skip && n == 0) u' i').ended ∧ Holds u' i' (text.drop (n + p)) fault := by
    intro n u i text hskip h hnil hle
    obtain ⟨u', i', hrun, h'⟩ := fillLoop_eor (P := P) [] heor hskip h hnil hle (Nat.lt_succ_self _)
    rw [← fillWith_at h] at hrun
    exact ⟨u', i', .fill hopen (ready_nil ha) hrun (sound_of_avail rfl) (fun hc => by cases hc) (.closed rfl), h'⟩
  cases skip with
  | true => exact hlast n u i text (.inr rfl) h (List.ne_nil_of_length_pos hgiven) hle
  | false =>
    simp only [Bool.false_eq_true, if_false] at hgiven ⊢
    have hrest : ∀ u' i', Holds u' i' (text.drop n) fault →
        ∃ e, Yields (source (fillWith P)) (s.at 0 p false u' i') [] e ∧
          ∃ u'' i'', e = (s.at 0 0 false u'' i'').ended ∧ Holds u'' i'' (text.drop (n + p)) fault := by
      intro u' i' h'
      obtain ⟨u'', i'', hy, h''⟩ := hlast 0 u' i' (text.drop n) (.inl rfl) h'
        (List.ne_nil_of_length_pos (by rw [List.length_drop]; omega)) (by rw [List.length_drop]; omega)
      rw [List.drop_drop, Nat.zero_add] at h''
      exact ⟨_, hy, u'', i'', rfl, h''⟩
    obtain ⟨e, hy, u', i', rfl, h'⟩ := content_yields hopen ha h (by omega) hrest
    rw [List.append_nil] at hy
    exact ⟨u', i', hy, h'⟩

theorem eor_lost (hopen : s.stream.isClosed = false) (ha : s.stream.avail = 0) (h : Holds u i text fault)
    (hshort : ¬ ((if skip then 0 else n) < text.length ∧ n + p ≤ text.length)) :
    ∃ n' p' skip' i', Yields (source (fillWith P)) (s.at n p skip u i) (text.take (if skip then 0 else n))
      ((s.at n' p' skip' [] i').setError (Inbox.error i')) ∧ Holds [] i' [] fault := by
  have hlast : ∀ (n : Nat) (u : Text) (i : Inbox) (text : Text), n = 0 ∨ skip = true → Holds u i text fault →
      text = [] ∨ text.length < n + p → ∃ n' p' skip' i', Yields (source (fillWith P)) (s.at n p skip u i) []
        ((s.at n' p' skip' [] i').setError (Inbox.error i')) ∧ Holds [] i' [] fault := by
    intro n u i text hskip h hshort
    obtain ⟨n', p', skip', i', hrun, h'⟩ :=
      fillLoop_eor_lost (P := P) (s := s) [] hskip h hshort (Nat.lt_succ_self _)
    rw [← fillWith_at h] at hrun
    exact ⟨n', p', skip', i', .fill hopen (ready_nil ha) hrun (sound_of_avail ha) (fun hc => by cases hc) (.closed rfl), h'⟩
  cases skip with
  | true =>
    refine hlast n u i text (.inr rfl) h ?_
    simp only [if_true] at hshort
    by_cases hnil : text = []
    · exact .inl hnil
    · have hpos := List.length_pos_of_ne_nil hnil
      exact .inr (by omega)
  | false =>
    simp only [Bool.false_eq_true, if_false] at hshort ⊢
    by_cases hlt : text.length < n
    · obtain ⟨n', i', hy, h'⟩ := content_lost (P := P) (p := p) hopen ha h hlt
      rw [List.take_of_length_le (Nat.le_of_lt hlt)]
      exact ⟨n', p, false, i', hy, h'⟩
    · have hrest : ∀ u' i', Holds u' i' (text.drop n) fault →
          ∃ e, Yields (source (fillWith P)) (s.at 0 p false u' i') [] e ∧
            ∃ n' p' skip' i'', e = (s.at n' p' skip' [] i'').setError (Inbox.error i'') ∧ Holds [] i'' [] fault := by
        intro u' i' h'
        have hend : text.drop n = [] ∨ (text.drop n).length < 0 + p := by
          by_cases hnil : text.drop n = []
          · exact .inl hnil
          · have hpos := List.length_pos_of_ne_nil hnil
            rw [List.length_drop] at hpos ⊢
            exact .inr (by omega)
        obtain ⟨n', p', skip', i'', hy, h''⟩ := hlast 0 u' i' (text.drop n) (.inl rfl) h' hend
        exact ⟨_, hy, n', p', skip', i'', rfl, h''⟩
      obtain ⟨e, hy, n', p', skip', i', rfl, h'⟩ := content_yields hopen ha h (Nat.not_lt.mp hlt) hrest
      rw [List.append_nil] at hy
      exact ⟨n', p', skip', i', hy, h'⟩

theorem getStrLoop_content (hopen : s.stream.isClosed = false) (ha : s.stream.avail = 0) {fuel m : Nat}
    (h : Holds u i text fault) (hm : m ≤ u.length) (hpos : 0 < n + m) (hle : n + m ≤ text.length)
    (hfuel : n + m + (if m = 0 then 1 else 0) ≤ fuel) :
    ∃ u' i', getStrLoop (fillWith P) fuel (n + m) ((s.at n p false u i).giving m) =
      some (text.take (n + m), s.at 0 p false u' i') ∧ Holds u' i' (text.drop (n + m)) fault := by
  induction fuel generalizing n m u i text with
  | zero => omega
  | succ fuel ih =>
    have hmin : min (n + m) m = m := by omega
    have htext := h.ahead
    have htake : text.take m = u.take m := by rw [← htext, List.take_append_of_le_length hm]
    have hdrop : text.drop m = u.drop m ++ i.bytes := by rw [← htext, List.drop_append_of_le_length hm]
    have havail : ((s.at n p false u i).giving m).stream.avail = m := rfl
    have hunread : ((s.at n p false u i).giving m).stream.unread = u := rfl
    have hclosed : ((s.at n p false u i).giving m).stream.isClosed = false := hopen
    rw [getStrLoop]
    simp only [havail, hunread, hclosed, hmin, giving_advance, Nat.sub_self, giving_zero ha, Bool.false_eq_true, if_false]
    by_cases hn : n = 0
    · -- this is the last part
      have hm0 : m ≠ 0 := by omega
      subst hn
      refine ⟨u.drop m, i, ?_, ⟨by rw [Nat.zero_add, hdrop], h.fault⟩⟩
      rw [if_pos ⟨hm0, (Nat.zero_add m).symm⟩, Nat.zero_add, htake]
    · have hrest : Holds (u.drop m) i (text.drop m) fault := ⟨hdrop.symm, h.fault⟩
      have hnil : text.drop m ≠ [] := List.ne_nil_of_length_pos (by rw [List.length_drop]; omega)
      obtain ⟨u₁, i₁, hne, h₁, hrun⟩ :=
        fillLoop_content (P := P) (s := s) (p := p) [] (text.drop m).length (Nat.pos_of_ne_zero hn) hrest hnil
      rw [← fillWith_at hrest] at hrun
      have hpos₁ : 0 < u₁.length := List.length_pos_of_ne_nil hne
      have hopen₁ : ((s.at (n - min n u₁.length) p false u₁ i₁).giving (min n u₁.length)).stream.isClosed = false := hopen
      have hsum : n - min n u₁.length + min n u₁.length = n := by omega
      obtain ⟨u', i', hloop, h'⟩ := ih (n := n - min n u₁.length) (m := min n u₁.length) h₁ (Nat.min_le_right _ _)
        (by omega) (by rw [hsum, List.length_drop]; omega)
        (by rw [hsum, if_neg (by omega)]; split at hfuel <;> omega)
      rw [hsum] at hloop h'
      refine ⟨u', i', ?_, ?_⟩
      · have hand : ¬ (m ≠ 0 ∧ m = n + m) := by omega
        rw [if_neg hand, hrun]
        simp only [Option.bind_eq_bind, Option.bind_some, hopen₁, Bool.false_eq_true, if_false, Nat.add_sub_cancel, hloop]
        rw [← htake, ← List.take_add, Nat.add_comm m n]
      · rw [List.drop_drop, Nat.add_comm] at h'
        exact h'

/-- A string that is all content leaves the stream behind that content. -/
theorem getStr_content (hopen : s.stream.isClosed = false) (ha : s.stream.avail = 0) (h : Holds u i text fault)
    (hn : 0 < n) (hle : n ≤ text.length) :
    ∃ u' i', getStr (fillWith P) n (s.at n p false u i) = some (text.take n, s.at 0 p false u' i') ∧
      Holds u' i' (text.drop n) fault := by
  have havail : (s.at n p false u i).stream.avail = 0 := ha
  have hclosed : (s.at n p false u i).stream.isClosed = false := hopen
  obtain ⟨u', i', hrun, h'⟩ := getStrLoop_content (P := P) (s := s) (n := n) (p := p) (m := 0) hopen ha h (Nat.zero_le _) hn hle
    (show n + 0 + (if (0 : Nat) = 0 then 1 else 0) ≤ n + 2 by simp)
  rw [giving_zero ha] at hrun
  refine ⟨u', i', ?_, h'⟩
  rw [getStr, hclosed, havail]
  simpa [Nat.pos_iff_ne_zero.mp hn, Nat.not_le.mpr hn] using hrun

end Content

end Passes

end Libfcgi
