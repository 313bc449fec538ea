import Mathlib.Data.List.Nodup
import Altumo.GeoIp.Records

/-!
# The counters of the loaders

Both loops count each pass as imported, as skipped, or as both, and offer at most one
entry to a table. The counts are those of the lines and of the entries exactly when the
file is read to its end and every accepted line brings an entry under a key of its own.
-/

namespace GeoIp

open CString Numeral InputStream

/-- What the loops of the two loaders have in common: a line that is accepted raises the
imported count, and a line that offers no entry raises the skipped count. -/
structure LineLoop where
  body : LoadState → Text → LoadState
  kind : String
  table : GeoIpServer → LocationMap
  accepts : Text → Bool
  offer : GeoIpServer → Text → Option (Nat × LocationPtr)
  imported : ∀ st line, (body st line).numberOfImportedRecords =
    st.numberOfImportedRecords + if accepts line then 1 else 0
  skipped : ∀ st line, (body st line).numberOfSkippedRecords =
    st.numberOfSkippedRecords + if (offer st.server line).isSome then 0 else 1
  stored : ∀ st line, table (body st line).server = (table st.server).insertAll (offer st.server line).toList
  accepts_of_offer : ∀ server line, (offer server line).isSome → accepts line
  key_stable : ∀ st line line', (offer (body st line).server line').map Prod.fst =
    (offer st.server line').map Prod.fst

theorem locationEntry_key (r : LocationRecord) (p q : LocationPtr) :
    (locationEntry (r, p)).map Prod.fst = (locationEntry (r, q)).map Prod.fst := by
  simp only [locationEntry, locationEntryWith]
  split <;> rfl

theorem locationsLine_imported (st : LoadState) (line : Text) :
    (locationsLine st line).numberOfImportedRecords =
      st.numberOfImportedRecords + if (locationRecord? line).isSome then 1 else 0 := by
  simp only [locationsLine, locationsLineWith, locationRecord?, Option.isSome_map]
  cases regexMatchLine locationsPattern line with
  | none => rfl
  | some result =>
    simp only [Option.isSome_some, ↓reduceIte]
    split <;> rfl

theorem locationsLine_skipped (st : LoadState) (line : Text) :
    (locationsLine st line).numberOfSkippedRecords = st.numberOfSkippedRecords +
      if ((locationRecord? line).bind fun r => locationEntry (r, st.server.heap.length)).isSome then 0 else 1 := by
  simp only [locationsLine, locationsLineWith, locationRecord?, locationEntry, locationEntryWith]
  cases regexMatchLine locationsPattern line with
  | none => rfl
  | some result =>
    simp only [Option.map_some, Option.bind_some]
    split <;> rfl

theorem blocksLine_imported (st : LoadState) (line : Text) :
    (blocksLine st line).numberOfImportedRecords =
      st.numberOfImportedRecords + if (blockRecord? line).isSome then 1 else 0 := by
  simp only [blocksLine, blocksLineWith, blockRecord?, Option.isSome_map]
  cases regexMatchLine blocksPattern line with
  | none => rfl
  | some result =>
    simp only [Option.isSome_some, ↓reduceIte]
    split
    · rfl
    · split
      · rfl
      · split <;> rfl

theorem blocksLine_skipped (st : LoadState) (line : Text) :
    (blocksLine st line).numberOfSkippedRecords = st.numberOfSkippedRecords +
      if ((blockRecord? line).bind (blockEntry st.server.locationsTable)).isSome then 0 else 1 := by
  cases hm : regexMatchLine blocksPattern line with
  | none =>
    simp only [blocksLine, blocksLineWith, blockRecord?, hm]
    rfl
  | some result =>
    simp only [blocksLine, blocksLineWith, blockRecord?, hm, Option.map_some, Option.bind_some, blockEntry,
      blockEntryWith]
    split
    · rfl
    · cases st.server.locationsTable.find? (strtoul (sub result 3)) with
      | none => rfl
      | some location =>
        simp only
        split <;> rfl

/-- The loop of `loadLocationsFile`. -/
def locationsLoop : LineLoop where
  body := locationsLine
  kind := " locations"
  table := GeoIpServer.locationsTable
  accepts line := (locationRecord? line).isSome
  offer server line := (locationRecord? line).bind fun r => locationEntry (r, server.heap.length)
  imported := locationsLine_imported
  skipped := locationsLine_skipped
  stored st line := by
    cases h : locationRecord? line with
    | none => simp [locationsLine_refused h]
    | some r => simp only [locationsLine_accepted h, Option.bind_some]
  accepts_of_offer server line h := by
    cases hr : locationRecord? line with
    | none => simp [hr] at h
    | some r => rfl
  key_stable st line line' := by
    cases locationRecord? line' with
    | none => rfl
    | some r => exact locationEntry_key r _ _

/-- The loop of `loadBlocksFile`. -/
def blocksLoop : LineLoop where
  body := blocksLine
  kind := " block"
  table := GeoIpServer.addressTable
  accepts line := (blockRecord? line).isSome
  offer server line := (blockRecord? line).bind (blockEntry server.locationsTable)
  imported := blocksLine_imported
  skipped := blocksLine_skipped
  stored st line := by rw [blocksLine_server]
  accepts_of_offer server line h := by
    cases hb : blockRecord? line with
    | none => simp [hb] at h
    | some b => rfl
  key_stable st line line' := by rw [blocksLine_server]

/-- What one line should do: it is counted once, as imported exactly when the table has one
more entry, and the table stays as it is when the line is counted as skipped. -/
structure CountsLine (table : GeoIpServer → LocationMap) (before after : LoadState) : Prop where
  once : after.numberOfImportedRecords + after.numberOfSkippedRecords =
    before.numberOfImportedRecords + before.numberOfSkippedRecords + 1
  imported : before.numberOfImportedRecords < after.numberOfImportedRecords ↔
    (table after.server).size = (table before.server).size + 1
  skipped : before.numberOfSkippedRecords < after.numberOfSkippedRecords →
    table after.server = table before.server

namespace LineLoop

variable (L : LineLoop)

/-- The state of the loop after some passes. -/
def passes (server : GeoIpServer) (cout : Text) (file : FileState) (n : Nat) : LoadState :=
  (handed n (ifstream file) []).foldl L.body (.start server cout)

/-- The counters account for the lines: after every pass their sum is the number of lines of
the file that were reached, each pass is counted for what it did, no counter leaves the
range of `int`, and the imported count that is printed is the number of entries that were
added. -/
structure Accounts (server : GeoIpServer) (cout : Text) (file : FileState) : Prop where
  total : ∀ n, (L.passes server cout file n).numberOfImportedRecords +
    (L.passes server cout file n).numberOfSkippedRecords = (file.lines.take n).length
  line : ∀ n line, handed (n + 1) (ifstream file) [] = handed n (ifstream file) [] ++ [line] →
    CountsLine L.table (L.passes server cout file n) (L.passes server cout file (n + 1))
  ints : ∀ n, (L.passes server cout file n).numberOfImportedRecords ≤ intMax ∧
    (L.passes server cout file n).numberOfSkippedRecords ≤ intMax
  printed : ∀ fuel st, whileNotEof L.body fuel (ifstream file) [] (.start server cout) = some st →
    (st.report L.kind).cout = st.cout ++
      endl ++ decimal ((L.table st.server).size - (L.table server).size) ++ text L.kind ++
        text " records imported." ++
      endl ++ decimal st.numberOfSkippedRecords ++ text L.kind ++ text " records skipped." ++ endl

/-- The key under which a line offers an entry. -/
def key (server : GeoIpServer) (line : Text) : Option Nat := (L.offer server line).map Prod.fst

/-- Every accepted line offers an entry, no two lines under one key, and none under a key
that is there from the beginning. -/
structure Clean (server : GeoIpServer) (lines : List Text) : Prop where
  offered : ∀ line ∈ lines, L.accepts line → L.key server line ≠ none
  distinct : (lines.filterMap (L.key server)).Nodup
  fresh : ∀ k ∈ lines.filterMap (L.key server), (L.table server).find? k = none

theorem key_foldl (st : LoadState) (done : List Text) (line : Text) :
    L.key (done.foldl L.body st).server line = L.key st.server line := by
  induction done generalizing st with
  | nil => rfl
  | cons l done ih =>
    rw [List.foldl_cons, ih]
    exact L.key_stable st l line

/-- After some lines a key is free when it was free before and no line has brought it. -/
theorem find?_foldl (st : LoadState) (done : List Text) (k : Nat) :
    (L.table (done.foldl L.body st).server).find? k = none ↔
      (L.table st.server).find? k = none ∧ k ∉ done.filterMap (L.key st.server) := by
  induction done using List.reverseRecOn with
  | nil => simp
  | append_singleton done line ih =>
    have hkey := L.key_foldl st done line
    rw [List.foldl_append, List.foldl_cons, List.foldl_nil, L.stored, OrderedMap.find?_insertAll,
      Option.or_eq_none_iff, ih, List.filterMap_append, List.mem_append, not_or, and_assoc]
    refine and_congr_right fun _ => and_congr_right fun _ => ?_
    simp only [key] at hkey
    cases ho : L.offer (done.foldl L.body st).server line with
    | none =>
      rw [ho, Option.map_none] at hkey
      simp [key, ← hkey]
    | some e =>
      rw [ho, Option.map_some] at hkey
      simp [key, ← hkey, eq_comm]

/-- A line is counted for what it does exactly when it is refused or brings a new key. -/
theorem countsLine_iff (st : LoadState) (line : Text) :
    CountsLine L.table st (L.body st line) ↔ (L.accepts line →
      ∃ k, L.key st.server line = some k ∧ (L.table st.server).find? k = none) := by
  have himported := L.imported st line
  have hskipped := L.skipped st line
  have hstored := L.stored st line
  have haccepts := L.accepts_of_offer st.server line
  cases ho : L.offer st.server line with
  | none =>
    rw [ho] at hskipped hstored
    simp only [Option.isSome_none, Bool.false_eq_true, ↓reduceIte] at hskipped
    rw [Option.toList_none, OrderedMap.insertAll_nil] at hstored
    simp only [key, ho, Option.map_none, reduceCtorEq, false_and, exists_false, imp_false]
    constructor
    · intro h ha
      rw [ha, if_pos rfl] at himported
      have := h.once
      omega
    · intro ha
      rw [if_neg ha, Nat.add_zero] at himported
      refine ⟨by omega, ?_, fun _ => hstored⟩
      rw [himported, hstored]
      omega
  | some e =>
    rw [ho] at hskipped hstored haccepts
    simp only [Option.isSome_some, ↓reduceIte, Nat.add_zero] at hskipped
    rw [haccepts rfl, if_pos rfl] at himported
    rw [Option.toList_some, OrderedMap.insertAll_cons, OrderedMap.insertAll_nil] at hstored
    simp only [key, ho, Option.map_some, Option.some.injEq, exists_eq_left', haccepts rfl, true_implies]
    constructor
    · intro h
      have hsize := h.imported.mp (by omega)
      by_contra hne
      rw [hstored, OrderedMap.insert_of_stored _ hne] at hsize
      omega
    · intro hnew
      refine ⟨by omega, ?_, fun hlt => by omega⟩
      rw [hstored, OrderedMap.size_insert _ hnew, himported]
      omega

theorem accepts_of_key {server : GeoIpServer} {line : Text} {k : Nat} (h : L.key server line = some k) :
    L.accepts line := by
  obtain ⟨e, he, -⟩ := Option.map_eq_some_iff.mp h
  exact L.accepts_of_offer server line (by rw [he]; rfl)

/-- One more line. -/
theorem clean_append_singleton (server : GeoIpServer) (done : List Text) (line : Text) :
    L.Clean server (done ++ [line]) ↔ L.Clean server done ∧ (L.accepts line → ∃ k,
      L.key server line = some k ∧ (L.table server).find? k = none ∧ k ∉ done.filterMap (L.key server)) := by
  have hkeys : (done ++ [line]).filterMap (L.key server) =
      done.filterMap (L.key server) ++ (L.key server line).toList := by
    rw [List.filterMap_append]
    cases hk : L.key server line <;> simp [hk]
  constructor
  · intro h
    have hd := h.distinct
    have hf := h.fresh
    rw [hkeys] at hd hf
    rw [List.nodup_append] at hd
    rw [List.forall_mem_append] at hf
    refine ⟨⟨fun l hl => h.offered l (List.mem_append_left _ hl), hd.1, hf.1⟩, fun ha => ?_⟩
    obtain ⟨k, hk⟩ := Option.ne_none_iff_exists'.mp (h.offered line (by simp) ha)
    have hmem : k ∈ (L.key server line).toList := by simp [hk]
    exact ⟨k, hk, hf.2 k hmem, fun hin => hd.2.2 k hin k hmem rfl⟩
  · rintro ⟨h, hline⟩
    have hlast : ∀ k ∈ (L.key server line).toList,
        (L.table server).find? k = none ∧ k ∉ done.filterMap (L.key server) := by
      intro k hk
      rw [Option.mem_toList] at hk
      obtain ⟨k', hk', hnew, hout⟩ := hline (L.accepts_of_key hk)
      rw [hk] at hk'
      cases hk'
      exact ⟨hnew, hout⟩
    refine ⟨?_, ?_, ?_⟩
    · rw [List.forall_mem_append, List.forall_mem_singleton]
      refine ⟨h.offered, fun ha => ?_⟩
      obtain ⟨k, hk, -⟩ := hline ha
      simp [hk]
    · rw [hkeys, List.nodup_append]
      refine ⟨h.distinct, ?_, ?_⟩
      · cases L.key server line <;> simp
      · intro a ha b hb he
        exact (hlast b hb).2 (he ▸ ha)
    · rw [hkeys, List.forall_mem_append]
      exact ⟨h.fresh, fun k hk => (hlast k hk).1⟩

/-- Every prefix ends in a line that is counted for what it does exactly on clean lines. -/
theorem countsLines_iff (st : LoadState) (lines : List Text) :
    (∀ done line, done ++ [line] <+: lines →
      CountsLine L.table (done.foldl L.body st) ((done ++ [line]).foldl L.body st)) ↔
      L.Clean st.server lines := by
  induction lines using List.reverseRecOn with
  | nil =>
    refine ⟨fun _ => ⟨by simp, by simp, by simp⟩, fun _ done line h => ?_⟩
    simp at h
  | append_singleton lines last ih =>
    rw [clean_append_singleton, ← ih]
    have hlast : CountsLine L.table (lines.foldl L.body st) ((lines ++ [last]).foldl L.body st) ↔
        (L.accepts last → ∃ k, L.key st.server last = some k ∧ (L.table st.server).find? k = none ∧
          k ∉ lines.filterMap (L.key st.server)) := by
      rw [List.foldl_append, List.foldl_cons, List.foldl_nil, countsLine_iff, key_foldl]
      simp only [find?_foldl]
    rw [← hlast]
    constructor
    · intro h
      exact ⟨fun done line hp => h done line (hp.trans (List.prefix_append _ _)), h lines last List.prefix_rfl⟩
    · rintro ⟨h, hl⟩ done line hp
      rcases List.prefix_concat_iff.mp hp with he | hp
      · obtain ⟨hdone, hline⟩ := List.append_inj' he rfl
        rw [hdone, hline]
        exact hl
      · exact h done line hp

/-- What the counters are after lines that are counted for what they do. -/
theorem counts_foldl {st : LoadState} {lines : List Text} (h : ∀ done line, done ++ [line] <+: lines →
      CountsLine L.table (done.foldl L.body st) ((done ++ [line]).foldl L.body st)) :
    (lines.foldl L.body st).numberOfImportedRecords + (lines.foldl L.body st).numberOfSkippedRecords =
        st.numberOfImportedRecords + st.numberOfSkippedRecords + lines.length ∧
      (lines.foldl L.body st).numberOfImportedRecords + (L.table st.server).size =
        st.numberOfImportedRecords + (L.table (lines.foldl L.body st).server).size := by
  induction lines using List.reverseRecOn with
  | nil => exact ⟨rfl, rfl⟩
  | append_singleton lines last ih =>
    obtain ⟨htotal, hsize⟩ := ih fun done line hp => h done line (hp.trans (List.prefix_append _ _))
    have hl := h lines last List.prefix_rfl
    have honce := hl.once
    have himported := hl.imported
    have hstep : ((lines ++ [last]).foldl L.body st).numberOfImportedRecords =
        (lines.foldl L.body st).numberOfImportedRecords + if L.accepts last then 1 else 0 := by
      rw [List.foldl_append]
      exact L.imported _ _
    rw [List.length_append, List.length_singleton]
    refine ⟨by omega, ?_⟩
    by_cases ha : L.accepts last
    · rw [if_pos ha] at hstep
      have := himported.mp (by omega)
      omega
    · rw [if_neg ha, Nat.add_zero] at hstep
      have := hl.skipped (by omega)
      rw [this]
      omega

theorem imported_foldl (st : LoadState) (lines : List Text) :
    (lines.foldl L.body st).numberOfImportedRecords = st.numberOfImportedRecords + lines.countP L.accepts := by
  induction lines generalizing st with
  | nil => rfl
  | cons line lines ih =>
    rw [List.foldl_cons, ih, L.imported, List.countP_cons]
    omega

/-- Every pass raises a counter. -/
theorem counts_ge (st : LoadState) (lines : List Text) :
    lines.length ≤ (lines.foldl L.body st).numberOfImportedRecords +
      (lines.foldl L.body st).numberOfSkippedRecords := by
  induction lines using List.reverseRecOn with
  | nil => exact Nat.zero_le _
  | append_singleton lines last ih =>
    have himported := L.imported (lines.foldl L.body st) last
    have hskipped := L.skipped (lines.foldl L.body st) last
    rw [List.foldl_append, List.foldl_cons, List.foldl_nil, List.length_append, List.length_singleton]
    by_cases ho : (L.offer (lines.foldl L.body st).server last).isSome
    · rw [if_pos (L.accepts_of_offer _ _ ho)] at himported
      omega
    · rw [if_neg ho] at hskipped
      omega

/-- The accepted lines, and the other lines, are no more than an `int` can count. -/
def Counted (lines : List Text) : Prop :=
  lines.countP L.accepts ≤ intMax ∧ lines.length - lines.countP L.accepts ≤ intMax

theorem passes_of_readsToEnd {file : FileState} (h : file.ReadsToEnd) (server : GeoIpServer) (cout : Text) (n : Nat) :
    L.passes server cout file n = (file.lines.take n).foldl L.body (.start server cout) := by
  rw [passes, handed_of_readsToEnd h]

/-- On a file that never ends a pass is counted that is no line of the file. -/
theorem readsToEnd_of_total {server : GeoIpServer} {cout : Text} {file : FileState}
    (h : ∀ n, (L.passes server cout file n).numberOfImportedRecords +
      (L.passes server cout file n).numberOfSkippedRecords = (file.lines.take n).length) : file.ReadsToEnd := by
  by_contra hend
  have hge := L.counts_ge (.start server cout) (handed (file.lines.length + 1) (ifstream file) [])
  have htotal := h (file.lines.length + 1)
  rw [handed_length hend] at hge
  rw [passes, List.length_take] at htotal
  omega

/-- The passes over a file that is read to its end are counted for what they do exactly when its
lines are. -/
theorem countsPasses_iff {file : FileState} (h : file.ReadsToEnd) (server : GeoIpServer) (cout : Text) :
    (∀ n line, handed (n + 1) (ifstream file) [] = handed n (ifstream file) [] ++ [line] →
      CountsLine L.table (L.passes server cout file n) (L.passes server cout file (n + 1))) ↔
      L.Clean server file.lines := by
  refine Iff.trans ?_ (L.countsLines_iff (.start server cout) file.lines)
  simp only [handed_of_readsToEnd h, L.passes_of_readsToEnd h]
  constructor
  · intro hcounts done line hp
    have hdone := List.prefix_iff_eq_take.mp ((List.prefix_append done [line]).trans hp)
    have hline := List.prefix_iff_eq_take.mp hp
    rw [List.length_append, List.length_singleton] at hline
    have := hcounts done.length line (by rw [← hdone, ← hline])
    rwa [← hdone, ← hline] at this
  · intro hcounts n line he
    rw [he]
    exact hcounts _ line (he ▸ List.take_prefix _ _)

/-- The counters account for the lines exactly when the file is read to its end, its lines are
clean and an `int` can count them. -/
theorem accounts_iff (server : GeoIpServer) (cout : Text) (file : FileState) :
    L.Accounts server cout file ↔ file.ReadsToEnd ∧ L.Clean server file.lines ∧ L.Counted file.lines := by
  have himported : ∀ lines : List Text, (lines.foldl L.body (.start server cout)).numberOfImportedRecords =
      lines.countP L.accepts := by
    intro lines
    rw [L.imported_foldl]
    exact Nat.zero_add _
  constructor
  · intro h
    have hend := L.readsToEnd_of_total h.total
    refine ⟨hend, (L.countsPasses_iff hend server cout).mp h.line, ?_⟩
    have htotal := h.total file.lines.length
    have hints := h.ints file.lines.length
    rw [L.passes_of_readsToEnd hend, List.take_length] at htotal hints
    rw [himported] at htotal hints
    exact ⟨hints.1, by omega⟩
  · rintro ⟨hend, hclean, hcounted⟩
    have hlines := (L.countsLines_iff (.start server cout) file.lines).mpr hclean
    have htotal : ∀ n, (L.passes server cout file n).numberOfImportedRecords +
        (L.passes server cout file n).numberOfSkippedRecords = (file.lines.take n).length := by
      intro n
      rw [L.passes_of_readsToEnd hend, (L.counts_foldl fun done line hp =>
        hlines done line (hp.trans (List.take_prefix _ _))).1]
      exact Nat.zero_add _
    refine ⟨htotal, (L.countsPasses_iff hend server cout).mpr hclean, ?_, ?_⟩
    · intro n
      have hn := htotal n
      have haccepted := (List.take_sublist n file.lines).countP_le (p := L.accepts)
      have hothers := (List.take_sublist n file.lines).countP_le (p := fun line => ¬ L.accepts line)
      have hsplit := List.length_eq_countP_add_countP L.accepts (l := file.lines)
      have hsplit' := List.length_eq_countP_add_countP L.accepts (l := file.lines.take n)
      obtain ⟨ha, ho⟩ := hcounted
      rw [L.passes_of_readsToEnd hend] at hn ⊢
      rw [himported] at hn ⊢
      omega
    · intro fuel st hst
      obtain ⟨-, rfl⟩ := whileNotEof_result hst
      have hcount : (L.table (file.lines.foldl L.body (.start server cout)).server).size - (L.table server).size =
          (file.lines.foldl L.body (.start server cout)).numberOfImportedRecords := by
        have hsize := (L.counts_foldl hlines).2
        simp only [LoadState.start, Nat.zero_add] at hsize ⊢
        omega
      rw [hcount]
      rfl

/-- Lines are clean on an empty table exactly when the records read from them all pass the
checks and have different numbers. -/
theorem clean_iff_records {Record : Type} {server : GeoIpServer} {read : Text → Option Record}
    {passes : Record → Prop} [DecidablePred passes] {number : Record → Nat}
    (haccepts : ∀ line, L.accepts line = (read line).isSome)
    (hkey : ∀ line, L.key server line = (read line).bind fun r => if passes r then some (number r) else none)
    (hempty : ∀ k, (L.table server).find? k = none) (lines : List Text) :
    L.Clean server lines ↔ (∀ r ∈ lines.filterMap read, passes r) ∧
      ((lines.filterMap read).map number).Nodup := by
  have hkeys : (∀ r ∈ lines.filterMap read, passes r) →
      lines.filterMap (L.key server) = (lines.filterMap read).map number := by
    intro h
    rw [funext hkey, ← List.filterMap_filterMap, ← List.filterMap_eq_map']
    refine List.filterMap_congr fun r hr => ?_
    rw [if_pos (h r hr)]
  constructor
  · intro h
    have hpasses : ∀ r ∈ lines.filterMap read, passes r := by
      intro r hr
      obtain ⟨line, hl, hread⟩ := List.mem_filterMap.mp hr
      by_contra hn
      exact h.offered line hl (by rw [haccepts, hread]; rfl) (by rw [hkey, hread, Option.bind_some, if_neg hn])
    exact ⟨hpasses, hkeys hpasses ▸ h.distinct⟩
  · rintro ⟨hpasses, hnodup⟩
    refine ⟨?_, (hkeys hpasses).symm ▸ hnodup, fun k _ => hempty k⟩
    intro line hl ha
    rw [haccepts, Option.isSome_iff_exists] at ha
    obtain ⟨r, hread⟩ := ha
    rw [hkey, hread, Option.bind_some, if_pos (hpasses r (List.mem_filterMap.mpr ⟨line, hl, hread⟩))]
    simp

end LineLoop

/-- The server between the two loops. -/
def afterLocations (locations : List Text) : GeoIpServer :=
  (locations.foldl locationsLine (.start newServer [])).server

/-- The counters of both loops account for the lines of the two files. The blocks file is
read when `loadLocationsFile` has returned. -/
structure CountersAccount (locations blocks : FileState) : Prop where
  locationsFile : ∀ cout, locationsLoop.Accounts newServer cout locations
  blocksFile : ∀ fuel cout st, loadLocationsFile fuel locations newServer cout = some st →
    blocksLoop.Accounts st.server st.cout blocks

/-- No id is out of range, and no two records have one id. -/
structure CleanLocations (records : List LocationRecord) : Prop where
  in_range : ∀ r ∈ records, strtoul r.id ≠ ulongMax
  distinct : (records.map fun r => strtoul r.id).Nodup

/-- Every block belongs to a location, no start is out of range, and no two blocks have one
start. -/
structure CleanBlocks (locations : List LocationRecord) (blocks : List BlockRecord) : Prop where
  known : ∀ b ∈ blocks, strtoul b.id ≠ ulongMax ∧ ∃ r ∈ locations, strtoul r.id = strtoul b.id
  in_range : ∀ b ∈ blocks, strtoul b.first ≠ ulongMax
  distinct : (blocks.map fun b => strtoul b.first).Nodup

theorem afterLocations_addressTable (locations : List Text) :
    (afterLocations locations).addressTable = .empty := by
  simp only [afterLocations, locationsLines, LoadState.start, newServer]

theorem afterLocations_locationsTable (locations : List Text) : (afterLocations locations).locationsTable =
    OrderedMap.empty.insertAll (locationEntries 0 (locationRecords locations)) := by
  simp only [afterLocations, locationsLines, LoadState.start, newServer, List.length_nil]

/-- A location is in the table when some record has its id, and the id is in range. -/
theorem afterLocations_find? (locations : List Text) (k : Nat) :
    (afterLocations locations).locationsTable.find? k ≠ none ↔
      k ≠ ulongMax ∧ ∃ r ∈ locationRecords locations, strtoul r.id = k := by
  rw [afterLocations_locationsTable]
  constructor
  · intro h
    obtain ⟨p, hp⟩ := Option.ne_none_iff_exists'.mp h
    obtain ⟨r, hr, hid, hrange⟩ := find?_locationEntries hp
    exact ⟨hrange, r, List.mem_of_getElem? hr, hid⟩
  · rintro ⟨hrange, r, hr, hid⟩
    obtain ⟨p, hp⟩ := List.getElem?_of_mem hr
    have he : (k, p) ∈ locationEntries 0 (locationRecords locations) :=
      mem_locationEntries_iff.mpr ⟨r, hp, hid, hrange⟩
    rw [OrderedMap.find?_insertAll, OrderedMap.find?_empty, Option.none_or, ne_eq, Option.map_eq_none_iff,
      List.find?_eq_none]
    exact fun hall => hall _ he (by simp)

theorem locationsLoop_clean_iff (lines : List Text) :
    locationsLoop.Clean newServer lines ↔ CleanLocations (locationRecords lines) := by
  have hkey : ∀ line, locationsLoop.key newServer line = (locationRecord? line).bind fun r =>
      if strtoul r.id ≠ ulongMax then some (strtoul r.id) else none := by
    intro line
    cases h : locationRecord? line with
    | none => simp [LineLoop.key, locationsLoop, h]
    | some r => by_cases hr : strtoul r.id = ulongMax <;> simp [LineLoop.key, locationsLoop, h,
        locationEntry, locationEntryWith, hr]
  rw [locationsLoop.clean_iff_records (fun line => rfl) hkey (fun k => rfl)]
  exact ⟨fun h => ⟨h.1, h.2⟩, fun h => ⟨h.in_range, h.distinct⟩⟩

theorem blocksLoop_clean_iff (locations blocks : List Text) :
    blocksLoop.Clean (afterLocations locations) blocks ↔
      CleanBlocks (locationRecords locations) (blockRecords blocks) := by
  have hkey : ∀ line, blocksLoop.key (afterLocations locations) line = (blockRecord? line).bind fun b =>
      if strtoul b.id ≠ ulongMax ∧ (afterLocations locations).locationsTable.find? (strtoul b.id) ≠ none ∧
        strtoul b.first ≠ ulongMax then some (strtoul b.first) else none := by
    intro line
    cases h : blockRecord? line with
    | none => simp [LineLoop.key, blocksLoop, h]
    | some b =>
      simp only [LineLoop.key, blocksLoop, h, Option.bind_some, blockEntry, blockEntryWith]
      by_cases hid : strtoul b.id = ulongMax
      · simp [hid]
      · cases hf : (afterLocations locations).locationsTable.find? (strtoul b.id) with
        | none => simp [hid]
        | some p => by_cases hs : strtoul b.first = ulongMax <;> simp [hid, hs]
  have hempty : ∀ k, (blocksLoop.table (afterLocations locations)).find? k = none := by
    intro k
    simp only [blocksLoop, afterLocations_addressTable, OrderedMap.find?_empty]
  rw [blocksLoop.clean_iff_records (fun line => rfl) hkey hempty]
  simp only [afterLocations_find?]
  constructor
  · rintro ⟨h, hd⟩
    exact ⟨fun b hb => ⟨(h b hb).1, (h b hb).2.1.2⟩, fun b hb => (h b hb).2.2, hd⟩
  · intro h
    refine ⟨fun b hb => ?_, h.distinct⟩
    obtain ⟨hid, hknown⟩ := h.known b hb
    exact ⟨hid, ⟨hid, hknown⟩, h.in_range b hb⟩

/-- The records of a file, and its other lines, are no more than an `int` can count. -/
def Counted {Record : Type} (lines : List Text) (records : List Record) : Prop :=
  records.length ≤ intMax ∧ lines.length - records.length ≤ intMax

theorem locationsLoop_counted_iff (lines : List Text) :
    locationsLoop.Counted lines ↔ Counted lines (locationRecords lines) := by
  rw [LineLoop.Counted, Counted, locationRecords, List.length_filterMap_eq_countP]
  rfl

theorem blocksLoop_counted_iff (lines : List Text) :
    blocksLoop.Counted lines ↔ Counted lines (blockRecords lines) := by
  rw [LineLoop.Counted, Counted, blockRecords, List.length_filterMap_eq_countP]
  rfl

/-- The server that `loadLocationsFile` leaves is that of the lines. -/
theorem loadLocationsFile_server {fuel : Nat} {file : FileState} {cout : Text} {st : LoadState}
    (h : loadLocationsFile fuel file newServer cout = some st) : st.server = afterLocations file.lines := by
  rw [loadLocationsFile, Option.map_eq_some_iff] at h
  obtain ⟨lst, hl, rfl⟩ := h
  rw [(whileNotEof_result hl).2]
  simp only [LoadState.report, afterLocations, locationsLines, LoadState.start]

/-- On a file that is read to its end `loadLocationsFile` returns. -/
theorem loadLocationsFile_returns {file : FileState} (h : file.ReadsToEnd) (cout : Text) :
    ∃ fuel st, loadLocationsFile fuel file newServer cout = some st := by
  refine ⟨file.lines.length + 1, ?_⟩
  rw [loadLocationsFile, whileNotEof_returns _ h _ _ (Nat.lt_succ_self _), Option.map_some]
  exact ⟨_, rfl⟩

/-- The counters account for the lines of both files exactly when both are read to their end
and every record is stored: no number is out of range, no key comes twice, every block has
a location, and an `int` can count the records and the other lines. -/
theorem counters_account_iff (locations blocks : FileState) :
    CountersAccount locations blocks ↔ locations.ReadsToEnd ∧ blocks.ReadsToEnd ∧
      CleanLocations (locationRecords locations.lines) ∧
      CleanBlocks (locationRecords locations.lines) (blockRecords blocks.lines) ∧
      Counted locations.lines (locationRecords locations.lines) ∧ Counted blocks.lines (blockRecords blocks.lines) := by
  rw [← locationsLoop_clean_iff, ← blocksLoop_clean_iff, ← locationsLoop_counted_iff, ← blocksLoop_counted_iff]
  constructor
  · intro h
    obtain ⟨hend, hclean, hcounted⟩ := (locationsLoop.accounts_iff newServer [] locations).mp (h.locationsFile [])
    obtain ⟨fuel, st, hst⟩ := loadLocationsFile_returns hend []
    obtain ⟨hend', hclean', hcounted'⟩ := (blocksLoop.accounts_iff _ _ blocks).mp (h.blocksFile fuel [] st hst)
    rw [loadLocationsFile_server hst] at hclean'
    exact ⟨hend, hend', hclean, hclean', hcounted, hcounted'⟩
  · rintro ⟨hend, hend', hclean, hclean', hcounted, hcounted'⟩
    refine ⟨fun cout => (locationsLoop.accounts_iff _ cout _).mpr ⟨hend, hclean, hcounted⟩, ?_⟩
    intro fuel cout st hst
    refine (blocksLoop.accounts_iff _ _ _).mpr ⟨hend', ?_, hcounted'⟩
    rw [loadLocationsFile_server hst]
    exact hclean'

/-- The text of a block from 1 to 2 of location 3. -/
def probeBlock : Text := formatBlock (text "1") (text "2") (text "3")

/-- A block without a location is counted as imported and as skipped. -/
theorem unknown_block_counted_twice : ¬ CountersAccount (.readable [] false) (.readable probeBlock false) := by
  intro h
  have hr : blockRecord? probeBlock = some ⟨text "1", text "2", text "3"⟩ :=
    blockRecord?_formatBlock (by decide) (by decide) (by decide)
  have hlines : (FileState.readable probeBlock false).lines = [probeBlock] := lines_last (by decide)
  have hnone : locationRecords [[]] = [] := by decide
  have hunknown : (afterLocations [[]]).locationsTable.find? (strtoul (text "3")) = none := by
    by_contra hne
    obtain ⟨-, r, hin, -⟩ := (afterLocations_find? _ _).mp hne
    rw [hnone] at hin
    cases hin
  obtain ⟨fuel, st, hst⟩ := loadLocationsFile_returns (show (FileState.readable [] false).ReadsToEnd from rfl) []
  have hserver : st.server = afterLocations [[]] := loadLocationsFile_server hst
  have htotal := (h.blocksFile fuel [] st hst).total 1
  rw [blocksLoop.passes_of_readsToEnd (show (FileState.readable probeBlock false).ReadsToEnd from rfl), hlines,
    hserver] at htotal
  have himported := blocksLine_imported (.start (afterLocations [[]]) st.cout) probeBlock
  have hskipped := blocksLine_skipped (.start (afterLocations [[]]) st.cout) probeBlock
  rw [hr, Option.isSome_some, if_pos rfl] at himported
  have hentry : blockEntry (afterLocations [[]]).locationsTable ⟨text "1", text "2", text "3"⟩ = none := by
    rw [blockEntry, blockEntryWith, if_neg (by decide), hunknown]
  rw [hr, Option.bind_some, LoadState.start, hentry] at hskipped
  change (blocksLine (.start (afterLocations [[]]) st.cout) probeBlock).numberOfImportedRecords +
    (blocksLine (.start (afterLocations [[]]) st.cout) probeBlock).numberOfSkippedRecords = 1 at htotal
  simp only [LoadState.start, Option.isSome_none, Bool.false_eq_true, ↓reduceIte] at himported htotal hskipped
  omega

end GeoIp
