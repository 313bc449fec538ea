import Mathlib.Data.List.Flatten
import Mathlib.Data.List.Perm.Subperm
import Altumo.Libfcgi.Reading

/-!
# The variables of the library

A web server may ask for three variables. The answer is built in an array of 64 bytes,
which holds each of them once.
-/

namespace Libfcgi

open CString Descriptor PrefixCode Refill

/-- The variable that a string of parameters asks for. -/
def queried (p : Text) : Text := (cStr p).takeWhile (· != 61)

theorem valueOf_length {name : Text} {v : Byte} (h : valueOf name = some v) : name.length < lengthBound false := by
  unfold valueOf at h
  split at h
  · rename_i hn
    rw [hn]
    decide
  · split at h
    · rename_i hn
      rw [hn]
      decide
    · split at h
      · rename_i hn
        rw [hn]
        decide
      · cases h

/-- The pair that answers for a variable. -/
def answerPair (name : Text) : Option NameValue :=
  match h : valueOf name with
  | none => none
  | some v => some ⟨name, [v], false, false, valueOf_length h, show 1 < 128 by decide⟩

theorem answerPair_eq_none {name : Text} (h : valueOf name = none) : answerPair name = none := by
  unfold answerPair
  split <;> simp_all

theorem answerPair_eq_some {name : Text} {v : Byte} (h : valueOf name = some v) :
    ∃ nv, answerPair name = some nv ∧ nv.bytes = uchar name.length :: 1 :: (name ++ [v]) := by
  unfold answerPair
  split
  · simp_all
  · rename_i v' h'
    obtain rfl : v' = v := Option.some.inj (h'.symm.trans h)
    exact ⟨_, rfl, rfl⟩

/-- What these strings of parameters are answered with. -/
def answersOf (ps : List Text) : List NameValue := (ps.map queried).filterMap answerPair

/-- Such an answer can be built: every name ends, and the array holds it. -/
structure Answerable (ps : List Text) : Prop where
  named : ∀ p ∈ ps, 61 ∈ cStr p
  fits : answersOf ps = [] ∨ headerLen + ((answersOf ps).flatMap NameValue.bytes).length + 1 ≤ 64

theorem answerValues_eq_some_iff (ps : List Text) (answer result : Text) :
    answerValues ps answer = some result ↔
      (∀ p ∈ ps, 61 ∈ cStr p) ∧ result = answer ++ (answersOf ps).flatMap NameValue.bytes ∧
        (answersOf ps = [] ∨ headerLen + result.length + 1 ≤ 64) := by
  induction ps generalizing answer with
  | nil =>
    simp only [answerValues, answersOf]
    simp [eq_comm]
  | cons p ps ih =>
    rw [answerValues]
    by_cases hp : 61 ∈ cStr p
    · rw [if_pos hp]
      simp only [List.forall_mem_cons, hp, true_and]
      cases hv : valueOf ((cStr p).takeWhile (· != 61)) with
      | none =>
        have hcons : answersOf (p :: ps) = answersOf ps := by
          simp [answersOf, queried, answerPair_eq_none hv]
        simp only [hcons]
        exact ih answer
      | some v =>
        obtain ⟨nv, hnv, hbytes⟩ := answerPair_eq_some hv
        have hcons : answersOf (p :: ps) = nv :: answersOf ps := by
          simp [answersOf, queried, hnv]
        have hentry : (answer ++ nv.bytes).length ≤ (answer ++ (nv.bytes ++ (answersOf ps).flatMap NameValue.bytes)).length := by
          simp only [List.length_append]
          omega
        have hrest := ih (answer ++ nv.bytes)
        rw [hbytes] at hrest hentry
        simp only [hcons, List.flatMap_cons, hbytes, reduceCtorEq, false_or]
        by_cases hfits : headerLen + (answer ++ uchar ((cStr p).takeWhile (· != 61)).length :: 1 ::
            ((cStr p).takeWhile (· != 61) ++ [v])).length + 1 ≤ 64
        · rw [if_pos hfits, hrest, List.append_assoc]
          constructor
          · rintro ⟨hnamed, rfl, hor⟩
            refine ⟨hnamed, rfl, ?_⟩
            rcases hor with hnil | hle
            · simpa [hnil] using hfits
            · exact hle
          · rintro ⟨hnamed, rfl, hle⟩
            exact ⟨hnamed, rfl, .inr hle⟩
        · rw [if_neg hfits]
          constructor
          · intro h
            cases h
          · rintro ⟨-, rfl, hle⟩
            omega
    · rw [if_neg hp]
      simp [hp]

theorem answerValues_eq_none_iff (ps : List Text) : answerValues ps [] = none ↔ ¬ Answerable ps := by
  constructor
  · intro h ha
    have hsome := (answerValues_eq_some_iff ps [] _).mpr ⟨ha.named, rfl, ha.fits⟩
    rw [h] at hsome
    cases hsome
  · intro hn
    cases h : answerValues ps [] with
    | none => rfl
    | some result =>
      obtain ⟨hnamed, rfl, hfits⟩ := (answerValues_eq_some_iff ps [] result).mp h
      exact absurd ⟨hnamed, hfits⟩ hn

/-- The variables that there are. -/
def knownNames : List Text := [text "FCGI_MAX_CONNS", text "FCGI_MAX_REQS", text "FCGI_MPXS_CONNS"]

theorem mem_knownNames {name : Text} {v : Byte} (h : valueOf name = some v) : name ∈ knownNames := by
  unfold valueOf at h
  split at h
  · simp [knownNames, *]
  · split at h
    · simp [knownNames, *]
    · split at h
      · simp [knownNames, *]
      · cases h

theorem answerPair_name {name : Text} {nv : NameValue} (h : answerPair name = some nv) : nv.name = name := by
  unfold answerPair at h
  split at h
  · cases h
  · rw [← Option.some.inj h]

theorem answerPair_mem {name : Text} {nv : NameValue} (h : answerPair name = some nv) : name ∈ knownNames := by
  cases hv : valueOf name with
  | none =>
    rw [answerPair_eq_none hv] at h
    cases h
  | some v => exact mem_knownNames hv

/-- Each variable is asked for at most once: the array is large enough. -/
theorem fits_of_nodup {ps : List Text} (h : (ps.map queried).Nodup) :
    headerLen + ((answersOf ps).flatMap NameValue.bytes).length + 1 ≤ 64 := by
  have hinj : ∀ a a' nv, nv ∈ answerPair a → nv ∈ answerPair a' → a = a' := by
    intro a a' nv ha ha'
    rw [← answerPair_name ha, ← answerPair_name ha']
  have hnodup : (answersOf ps).Nodup := h.filterMap hinj
  have hsub : answersOf ps ⊆ knownNames.filterMap answerPair := by
    intro nv hnv
    obtain ⟨name, -, hname⟩ := List.mem_filterMap.mp hnv
    exact List.mem_filterMap.mpr ⟨name, answerPair_mem hname, hname⟩
  obtain ⟨l, hperm, hsublist⟩ := hnodup.subperm hsub
  have hlen : ((answersOf ps).flatMap NameValue.bytes).length = (l.flatMap NameValue.bytes).length :=
    (hperm.symm.flatMap_right _).length_eq
  have hle := (hsublist.flatMap NameValue.bytes).length_le
  have htotal : ((knownNames.filterMap answerPair).flatMap NameValue.bytes).length = 51 := by decide +kernel
  unfold headerLen
  omega

/-- The answer is a record, which holds the pairs and is padded. -/
theorem valuesResponse_record (stack : Buffer 64) (answer : Text) (h : answer = [] ∨ headerLen + answer.length + 1 ≤ 64) :
    ∃ q : Record, valuesResponse stack answer = q.bytes ∧ q.version = version1 ∧ q.type = getValuesResult ∧
      q.requestId = nullRequestId ∧ q.content = answer := by
  have hlen : answer.length ≤ 55 := by
    unfold headerLen at h
    rcases h with rfl | h
    · exact Nat.zero_le _
    · omega
  have halign : alignInt8 answer.length = (answer.length + 7) / 8 * 8 := alignInt8_eq (by omega)
  have hstack := stack.length_eq
  -- the NUL of `sprintf` is part of the padding
  let nul : Text := if answer.isEmpty then [] else [0]
  have hnul : nul.length ≤ 1 := by
    show (if answer.isEmpty then ([] : Text) else [0]).length ≤ 1
    split <;> decide
  let padding := (nul ++ stack.bytes.drop (headerLen + (answer ++ nul).length)).take (alignInt8 answer.length - answer.length)
  have hpadding : padding.length = alignInt8 answer.length - answer.length := by
    simp only [padding, List.length_take, List.length_append, List.length_drop, hstack, headerLen]
    omega
  refine ⟨⟨version1, getValuesResult, nullRequestId, answer, padding, 0, ?_, ?_⟩, ?_, rfl, rfl, rfl, rfl⟩
  · unfold maxLength
    omega
  · omega
  · have hbody : ((answer ++ nul) ++ stack.bytes.drop (headerLen + (answer ++ nul).length)).take (alignInt8 answer.length) =
        answer ++ padding := by
      rw [List.append_assoc, List.take_append, List.take_of_length_le (by omega)]
    simp only [Record.bytes, Record.header, hpadding]
    rw [← hbody]
    rfl

/-- A refill of a stream in front of a whole record. -/
theorem fillBuffProc_header {s : Input} {ctx : Context} {q : Record} {more : Text}
    (hs : Stands false s false 0 0 ctx (q.bytes ++ more)) :
    ∃ fuel t, Stands true t false 0 0 ctx (q.content ++ (q.padding ++ more)) ∧
      fillBuffProc s = ((processHeader q.header t).map fun p => afterHeader p.1 p.2).bind (fillOn processHeader fuel) := by
  have hok : Pending.Ok ⟨0, 0, false, []⟩ := ⟨.inl rfl, Nat.zero_lt_succ 7⟩
  have hbytes : q.bytes ++ more = q.header.bytes ++ (q.content ++ (q.padding ++ more)) := by
    simp only [Record.bytes, List.append_assoc]
  have htake : (q.bytes ++ more).take headerLen = q.header.bytes := by
    rw [hbytes]
    exact List.take_left' (header_bytes_length _)
  have hdrop : (q.bytes ++ more).drop headerLen = q.content ++ (q.padding ++ more) := by
    rw [hbytes]
    exact List.drop_left' (header_bytes_length _)
  have hle : headerLen ≤ (q.bytes ++ more).length := by
    rw [hbytes, List.length_append, header_bytes_length]
    omega
  have hneed : Pending.need ⟨0, 0, false, []⟩ = headerLen := rfl
  obtain ⟨fuel, u, i, hrun, hu, -⟩ := fillLoop_interprets (P := processHeader) hs.eorStop hok hs.holds
    (show Pending.need ⟨0, 0, false, []⟩ ≤ _ from hle) (Nat.lt_succ_self _)
  rw [hneed, hdrop] at hu
  have hsi : Stands true s.interpreting false 0 0 ctx (q.bytes ++ more) :=
    ⟨hs.context, hs.ahead, hs.skip, hs.contentLen, hs.paddingLen, rfl, hs.isClosed, rfl⟩
  refine ⟨fuel, s.interpreting.at 0 0 false u i, hsi.moved hu, ?_⟩
  have hwhole : Pending.whole ⟨0, 0, false, []⟩ (q.bytes ++ more) = q.header.bytes := htake
  have hfill : fillBuffProc s = fillLoop processHeader ((q.bytes ++ more).length + 1) [] s := by
    rw [fillBuffProc, fillWith, hs.ahead]
  rw [hwhole, ← hs.eq_at] at hrun
  rw [hfill, hrun, interpretWith, headerOf_bytes]
  simp only [Option.bind_eq_bind, Option.bind_some]
  show ((processHeader q.header (s.interpreting.at 0 0 false u i)).bind _).bind _ = _
  cases processHeader q.header (s.interpreting.at 0 0 false u i) <;> rfl

/-- A record that asks for variables. -/
structure Asks (q : Record) (nvs : List NameValue) : Prop where
  version : q.version = version1
  type : q.type = getValues
  requestId : q.requestId = nullRequestId
  content : q.content = nvs.flatMap NameValue.bytes

theorem Asks.parse {q : Record} {nvs : List NameValue} (h : Asks q nvs) :
    parseParams q.content = some (true, nvs.map NameValue.string) := by
  refine parseParams_eq_some_iff.mpr ⟨nvs, [], ⟨?_, rfl, ?_, rfl⟩, rfl, rfl⟩
  · rw [List.append_nil]
    exact h.content
  · intro nv hnv
    -- a record is too short for a pair of that size
    have hle := q.content_le
    have hsub : nv.bytes.length ≤ q.content.length := by
      rw [h.content, List.flatMap_def]
      exact (List.sublist_flatten_of_mem (List.mem_map_of_mem hnv)).length_le
    have hmax : maxLength ≤ intMax := by decide
    exact oversized_of_length (Nat.le_trans hsub (Nat.le_trans hle hmax))

section Answering

variable {r : Reader} {req : Request} {type : Byte} {q last : Record} {nvs : List NameValue} {more : Text}

theorem asked_read (type : Byte) (hq : Asks q nvs) (herrno : r.errno = 0) (hmore : more ≠ [])
    (htext : r.unread ++ req.ipc.inbox.bytes = q.bytes ++ more) :
    ∃ fuel e, Stands true e false 0 0 ⟨type, r.errno, req.setInbox ⟨[], [], req.ipc.inbox.fault⟩⟩ more ∧
      fillBuffProc ⟨r.setType type, req⟩ = ((answerValues (nvs.map NameValue.string) []).map fun answer =>
        let response := writeResponse (valuesResponse req.stack answer) .mgmtRecord e.ended
        afterHeader response.1 response.2).bind (fillOn processHeader fuel) := by
  have hs := setType_stands r req type
  rw [htext] at hs
  obtain ⟨fuel, t, ht, hfill⟩ := fillBuffProc_header hs
  have hne : q.type ≠ beginRequest := by
    rw [hq.type]
    decide
  have hent : Stands true (t.enter q.header) false q.content.length q.padding.length
      ⟨type, r.errno, req.setInbox ⟨[], [], req.ipc.inbox.fault⟩⟩ (q.content ++ (q.padding ++ more)) :=
    ⟨ht.context, ht.ahead, ht.skip, q.header_contentLength, q.header_paddingLength, ht.avail, ht.isClosed, ht.eorStop⟩
  have hheader : processHeader q.header t = processManagementRecord getValues (t.enter q.header) := by
    simp [processHeader, hq.version, hq.type, hq.requestId, hq.type ▸ hne]
  have hparse : parseParams ((q.content ++ (q.padding ++ more)).take (givenLen false q.content.length)) =
      some (true, nvs.map NameValue.string) := by
    simp only [givenLen, Bool.false_eq_true, if_false, List.take_left]
    exact hq.parse
  have hpos := List.length_pos_of_ne_nil hmore
  obtain ⟨e, he, hread⟩ := values_read hent hparse
    (by simp only [givenLen, Bool.false_eq_true, if_false, List.length_append]; omega) herrno
  rw [← List.drop_drop, List.drop_left, List.drop_left] at he
  refine ⟨fuel, e, he, ?_⟩
  rw [hfill, hheader, hread, Option.map_map]
  rfl

theorem asked_interpret (ctx : Context) (hq : Asks q nvs) (herrno : ctx.errno = 0) (ho : ctx.req.ipc.outbox.Reliable)
    (hmore : more ≠ []) (ha : Answerable (nvs.map NameValue.string)) :
    ∃ o, o.sent = ctx.req.ipc.outbox.sent ++
        valuesResponse ctx.req.stack ((answersOf (nvs.map NameValue.string)).flatMap NameValue.bytes) ∧
      interpret false ctx q.header (q.content ++ (q.padding ++ more)) =
        some (.next (q.content.length + q.padding.length) false (ctx.sends o)) := by
  have hanswer := (answerValues_eq_some_iff (nvs.map NameValue.string) [] _).mpr ⟨ha.named, rfl, ha.fits⟩
  obtain ⟨o, hans, -, hsent⟩ := answer_reliable ho
    (valuesResponse ctx.req.stack ((answersOf (nvs.map NameValue.string)).flatMap NameValue.bytes))
  refine ⟨o, hsent, ?_⟩
  have hpos := List.length_pos_of_ne_nil hmore
  have hne : getValues ≠ beginRequest := by decide
  have hle : q.content.length < (q.content ++ (q.padding ++ more)).length ∧
      q.content.length + q.padding.length ≤ (q.content ++ (q.padding ++ more)).length := by
    simp only [List.length_append]
    omega
  have hstep : interpret false ctx q.header (q.content ++ (q.padding ++ more)) =
      valuesStep false ctx q.header (q.content ++ (q.padding ++ more)) := by
    simp [interpret, hq.version, hq.type, hq.requestId, hne]
  rw [hstep, valuesStep]
  simp only [givenLen, Bool.false_eq_true, if_false, Record.header_contentLength, Record.header_paddingLength,
    List.take_left, hq.parse, Option.bind_eq_bind, Option.bind_some, if_pos hle, Bool.not_true, herrno, ne_eq,
    not_true_eq_false, hanswer, List.nil_append, hans, Bool.false_and]

theorem getChar_none {fill : Fill} {s : Input} (hopen : s.stream.isClosed = false) (ha : s.stream.avail = 0)
    (h : fill s = none) : getChar fill s = none := by
  simp only [getChar, hopen, ha, h, Bool.false_eq_true, if_false, ne_eq, not_true_eq_false, Option.bind_eq_bind,
    Option.bind_none]

theorem queried_string {nv : NameValue} (h0 : (0 : Byte) ∉ nv.name) (h61 : (61 : Byte) ∉ nv.name) :
    queried nv.string = nv.name := by
  rw [queried, NameValue.string, cStr_of_notMem h0, List.takeWhile_append_of_pos]
  · simp
  · intro b hb
    exact bne_iff_ne.mpr fun he => h61 (he ▸ hb)

/-- A question for variables is answered if and only if each of its names ends and the
answer fits into its array, which it does when no name is asked for twice. Otherwise
the array overflows, or a pointer is not checked. -/
theorem get_values_answered_iff (ho : req.ipc.outbox.Reliable) (herrno : r.errno = 0) (hq : Asks q nvs)
    (hlast : last.EndsStream type req.requestId)
    (htext : r.unread ++ req.ipc.inbox.bytes = q.bytes ++ (last.bytes ++ more)) :
    ((∃ result, getChar fillBuffProc ⟨r.setType type, req⟩ = some result) ↔ Answerable (nvs.map NameValue.string)) ∧
      (∀ c s', getChar fillBuffProc ⟨r.setType type, req⟩ = some (c, s') →
        ∃ answer : Record, c = none ∧ s'.stream.errno = 0 ∧ s'.ahead = last.padding ++ more ∧
          s'.req.ipc.outbox.sent = req.ipc.outbox.sent ++ answer.bytes ∧ answer.type = getValuesResult ∧
          answer.requestId = nullRequestId ∧
          answer.content = (answersOf (nvs.map NameValue.string)).flatMap NameValue.bytes) ∧
      ((∀ nv ∈ nvs, (0 : Byte) ∉ nv.name ∧ (61 : Byte) ∉ nv.name) → (nvs.map NameValue.name).Nodup →
        Answerable (nvs.map NameValue.string)) := by
  have hmore : last.bytes ++ more ≠ [] := by simp [Record.bytes_ne_nil]
  have hnone : ¬ Answerable (nvs.map NameValue.string) → getChar fillBuffProc ⟨r.setType type, req⟩ = none := by
    intro hn
    obtain ⟨fuel, e, -, hfill⟩ := asked_read type hq herrno hmore htext
    rw [(answerValues_eq_none_iff _).mpr hn] at hfill
    exact getChar_none rfl rfl hfill
  have hsome : Answerable (nvs.map NameValue.string) → ∃ s' answer,
      getChar fillBuffProc ⟨r.setType type, req⟩ = some (none, s') ∧ s'.stream.errno = 0 ∧
        s'.ahead = last.padding ++ more ∧
        s'.req.ipc.outbox.sent = req.ipc.outbox.sent ++ Record.bytes answer ∧ answer.type = getValuesResult ∧
        answer.requestId = nullRequestId ∧
        answer.content = (answersOf (nvs.map NameValue.string)).flatMap NameValue.bytes := by
    intro ha
    have hs := setType_stands r req type
    rw [htext] at hs
    obtain ⟨o, hsent, hstep⟩ := asked_interpret ⟨type, r.errno, req.setInbox ⟨[], [], req.ipc.inbox.fault⟩⟩
      hq herrno ho hmore ha
    have hbytes : q.bytes ++ (last.bytes ++ more) = q.header.bytes ++ (q.content ++ (q.padding ++ (last.bytes ++ more))) := by
      simp only [Record.bytes, List.append_assoc]
    have hnext := nextEvent_header false ⟨type, r.errno, req.setInbox ⟨[], [], req.ipc.inbox.fault⟩⟩ q.header
      (q.content ++ (q.padding ++ (last.bytes ++ more)))
    rw [hstep, Option.bind_some, stepEvent, ← List.drop_drop, List.drop_left, List.drop_left, ← hbytes] at hnext
    have hd := (deliver_eq hnext).trans (deliver_end _ hlast false more)
    obtain ⟨e, hy, he⟩ := deliver_yields hs (.inl rfl) hd
    obtain ⟨answer, hresponse, -, htype, hid, hcontent⟩ := valuesResponse_record req.stack
      ((answersOf (nvs.map NameValue.string)).flatMap NameValue.bytes) (by
        rcases ha.fits with hnil | hle
        · exact .inl (by rw [hnil]; rfl)
        · exact .inr hle)
    obtain ⟨-, hget, -⟩ | ⟨b, c, s', hcons, -⟩ := getChar_yields (sound_setType r req type) hy
    · have herrno' : e.stream.errno = r.errno := congrArg Context.errno he.context
      have houtbox : e.req.ipc.outbox = o := congrArg (fun ctx => ctx.req.ipc.outbox) he.context
      refine ⟨e, answer, hget, herrno'.trans herrno, he.ahead, ?_, htype, hid, hcontent⟩
      rw [houtbox, hsent, ← hresponse]
      rfl
    · cases hcons
  refine ⟨⟨?_, ?_⟩, ?_, ?_⟩
  · rintro ⟨result, hresult⟩
    by_contra hn
    rw [hnone hn] at hresult
    cases hresult
  · intro ha
    obtain ⟨s', -, hget, -⟩ := hsome ha
    exact ⟨_, hget⟩
  · intro c s' hget
    by_cases ha : Answerable (nvs.map NameValue.string)
    · obtain ⟨e, answer, hget', hfacts⟩ := hsome ha
      obtain ⟨rfl, rfl⟩ := Prod.mk.inj (Option.some.inj (hget'.symm.trans hget))
      exact ⟨answer, rfl, hfacts⟩
    · rw [hnone ha] at hget
      cases hget
  · intro hnames hnodup
    have hqueried : (nvs.map NameValue.string).map queried = nvs.map NameValue.name := by
      rw [List.map_map]
      refine List.map_congr_left ?_
      intro nv hnv
      exact queried_string (hnames nv hnv).1 (hnames nv hnv).2
    refine ⟨?_, .inr (fits_of_nodup (by rw [hqueried]; exact hnodup))⟩
    intro p hp
    obtain ⟨nv, hnv, rfl⟩ := List.mem_map.mp hp
    rw [NameValue.string, cStr_of_notMem (hnames nv hnv).1]
    simp

/-- A question for a variable that is known and for one that is not. -/
def askedPairs : List NameValue :=
  [⟨text "FCGI_MAX_CONNS", [], false, false, by decide, by decide⟩, ⟨text "OTHER", [], false, false, by decide, by decide⟩]

def askedRecord : Record :=
  ⟨version1, getValues, nullRequestId, askedPairs.flatMap NameValue.bytes, [0, 0], 0, by decide, by decide⟩

theorem get_values_answered_iff_asked :
    ((∃ result, getChar fillBuffProc ⟨(newReader (newBuffLen 512 true) params).setType stdin,
        requestWith (askedRecord.bytes ++ (sharedEnd.bytes ++ []))⟩ = some result) ↔
      Answerable (askedPairs.map NameValue.string)) ∧
      (∀ c s', getChar fillBuffProc ⟨(newReader (newBuffLen 512 true) params).setType stdin,
        requestWith (askedRecord.bytes ++ (sharedEnd.bytes ++ []))⟩ = some (c, s') →
        ∃ answer : Record, c = none ∧ s'.stream.errno = 0 ∧ s'.ahead = [] ∧
          s'.req.ipc.outbox.sent = answer.bytes ∧ answer.type = getValuesResult ∧ answer.requestId = nullRequestId ∧
          answer.content = 14 :: 1 :: text "FCGI_MAX_CONNS1") ∧
      ((∀ nv ∈ askedPairs, (0 : Byte) ∉ nv.name ∧ (61 : Byte) ∉ nv.name) → (askedPairs.map NameValue.name).Nodup →
        Answerable (askedPairs.map NameValue.string)) :=
  get_values_answered_iff (requestWith_reliable _) rfl ⟨rfl, rfl, rfl, rfl⟩ sharedEnd_ends rfl

end Answering

end Libfcgi
