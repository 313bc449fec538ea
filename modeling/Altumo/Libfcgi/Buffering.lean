import Altumo.Libfcgi.Streambuf

/-!
# Streams with buffers

An application may give a buffer of its own to every `fcgi_streambuf`. What is put on
the streams is then sent in the same order as without, and the input is read as without.
-/

namespace Libfcgi

open CString Descriptor Refill

/-- What a stream does with its buffer. -/
inductive Insertion where
  | sputc : Byte → Insertion
  | xsputn : Text → Insertion
  | sync

def Insertion.text : Insertion → Text
  | sputc c => [c]
  | xsputn str => str
  | sync => []

/-- Two streams with a buffer each. -/
structure Ostreams where
  work : Work
  buf : Sink → Streambuf

def Ostreams.insert (os : Ostreams) (s : Sink) (i : Insertion) : Option (Bool × Ostreams) := do
  let (ok, b, w) ← match i with
    | .sputc c => (os.buf s).sputc s c os.work
    | .xsputn str => (os.buf s).xsputn s str os.work
    | .sync => (os.buf s).sync s os.work
  some (ok, ⟨w, Function.update os.buf s b⟩)

/-- Whether all has been taken. -/
def Ostreams.inserts : List (Sink × Insertion) → Ostreams → Option (Bool × Ostreams)
  | [], os => some (true, os)
  | (s, i) :: l, os => do
    let (ok, os) ← os.insert s i
    let (rest, os) ← Ostreams.inserts l os
    some (ok && rest, os)

/-- What is put on one of them. -/
def putOn (s : Sink) (l : List (Sink × Insertion)) : Text := l.flatMap fun p => if p.1 = s then p.2.text else []

/-- What has been put on the streams: some of it is in the buffers. -/
structure Buffering (start : Request) (errno : Int) (behind due : Text) (os : Ostreams) (c : Text) (texts : Sink → Text) :
    Prop where
  talk : ∃ told, Talk start errno behind due os.work c told ∧ ∀ s, told s ++ (os.buf s).area = texts s

section Buffering

variable {start : Request} {errno : Int} {behind due c : Text} {w : Work} {told : Sink → Text} {b : Streambuf}

theorem Streambuf.overflow_eof (b : Streambuf) (h : Talk start errno behind due w c told) (s : Sink) :
    ∃ b' w', b.overflow s none w = some (true, b', w') ∧ b'.area = [] ∧
      Talk start errno behind due w' c (said told s b.area) := by
  by_cases harea : b.area = []
  · refine ⟨b, w, by simp [Streambuf.overflow, harea], harea, ?_⟩
    rw [harea, said_nil]
    exact h
  · obtain ⟨w', hrun, htalk⟩ := h.putStr s b.area
    exact ⟨b.clear, w', by simp [Streambuf.overflow, harea, hrun], rfl, htalk⟩

theorem Streambuf.overflow_char (b : Streambuf) (h : Talk start errno behind due w c told) (s : Sink) (ch : Byte) :
    ∃ b' w', b.overflow s (some ch) w = some (true, b', w') ∧ b'.area = [] ∧
      Talk start errno behind due w' c (said told s (b.area ++ [ch])) := by
  by_cases harea : b.area = []
  · obtain ⟨w', hrun, htalk⟩ := h.putChar s ch
    rw [harea, List.nil_append]
    exact ⟨b, w', by simp [Streambuf.overflow, harea, hrun], harea, htalk⟩
  · obtain ⟨w₁, hrun₁, h₁⟩ := h.putStr s b.area
    obtain ⟨w', hrun, htalk⟩ := h₁.putChar s ch
    rw [said_said] at htalk
    exact ⟨b.clear, w', by simp [Streambuf.overflow, harea, hrun₁, hrun], rfl, htalk⟩

theorem Streambuf.sputc_takes (b : Streambuf) (h : Talk start errno behind due w c told) (s : Sink) (ch : Byte) :
    ∃ b' w' told', b.sputc s ch w = some (true, b', w') ∧ Talk start errno behind due w' c told' ∧
      said told' s b'.area = said told s (b.area ++ [ch]) := by
  by_cases hroom : b.area.length < b.bufsize
  · exact ⟨_, w, told, by rw [Streambuf.sputc, dif_pos hroom], h, rfl⟩
  · obtain ⟨b', w', hrun, harea, htalk⟩ := b.overflow_char h s ch
    exact ⟨b', w', _, by rw [Streambuf.sputc, dif_neg hroom, hrun], htalk, by rw [harea, said_nil]⟩

theorem Streambuf.sputcs_takes (b : Streambuf) (h : Talk start errno behind due w c told) (s : Sink) (str : Text) :
    ∃ b' w' told', b.sputcs s str w = some (true, b', w') ∧ Talk start errno behind due w' c told' ∧
      said told' s b'.area = said told s (b.area ++ str) := by
  induction str generalizing b w told with
  | nil => exact ⟨b, w, told, rfl, h, by rw [List.append_nil]⟩
  | cons ch str ih =>
    obtain ⟨b₁, w₁, told₁, hrun₁, h₁, hsaid₁⟩ := b.sputc_takes h s ch
    obtain ⟨b₂, w₂, told₂, hrun₂, h₂, hsaid₂⟩ := ih b₁ h₁
    refine ⟨b₂, w₂, told₂, by simp [Streambuf.sputcs, hrun₁, hrun₂], h₂, ?_⟩
    calc said told₂ s b₂.area = said told₁ s (b₁.area ++ str) := hsaid₂
      _ = said (said told s (b.area ++ [ch])) s str := by rw [← said_said, hsaid₁]
      _ = said told s (b.area ++ ch :: str) := by rw [said_said, List.append_assoc, List.singleton_append]

theorem Streambuf.xsputn_takes (b : Streambuf) (h : Talk start errno behind due w c told) (s : Sink) {str : Text}
    (hstr : str.length ≤ intMax) :
    ∃ b' w' told', b.xsputn s str w = some (true, b', w') ∧ Talk start errno behind due w' c told' ∧
      said told' s b'.area = said told s (b.area ++ str) := by
  rw [Streambuf.xsputn, if_neg (Nat.not_lt.mpr hstr)]
  by_cases hsize : b.bufsize = 0
  · have harea : b.area = [] := List.eq_nil_of_length_eq_zero (Nat.le_zero.mp (hsize ▸ b.area_le))
    obtain ⟨w', hrun, htalk⟩ := h.putStr s str
    exact ⟨b, w', _, by simp [hsize, hrun], htalk, by rw [harea, said_nil, List.nil_append]⟩
  · rw [if_pos hsize]
    exact b.sputcs_takes h s str

theorem Streambuf.sync_takes (b : Streambuf) (h : Talk start errno behind due w c told) (s : Sink) :
    ∃ b' w', b.sync s w = some (true, b', w') ∧ b'.area = [] ∧
      Talk start errno behind due w' c (said told s b.area) ∧ (w'.output.writer s).content = [] := by
  obtain ⟨b', w₁, hrun₁, harea, h₁⟩ := b.overflow_eof h s
  obtain ⟨w', hrun, htalk, hempty⟩ := h₁.fflush s
  exact ⟨b', w', by simp [Streambuf.sync, hrun₁, hrun], harea, htalk, hempty⟩

variable {os : Ostreams} {texts : Sink → Text}

/-- The other buffer is not touched. -/
theorem Buffering.update (h : ∀ s, told s ++ (os.buf s).area = texts s) {s : Sink} {text : Text} {told' : Sink → Text}
    (htalk : Talk start errno behind due w c told') (hsaid : said told' s b.area = said told s ((os.buf s).area ++ text)) :
    Buffering start errno behind due ⟨w, Function.update os.buf s b⟩ c (said texts s text) := by
  refine ⟨told', htalk, ?_⟩
  intro s'
  have hs := congrFun hsaid s'
  by_cases hne : s' = s
  · subst hne
    simp only [said, if_true] at hs
    simp only [Function.update_self, said, if_true, hs, ← h s', List.append_assoc]
  · simp only [said, if_neg hne] at hs
    simp only [Function.update_of_ne hne, said, if_neg hne, hs, h s']

theorem Buffering.insert (h : Buffering start errno behind due os c texts) (s : Sink) {i : Insertion}
    (hi : i.text.length ≤ intMax) :
    ∃ os', os.insert s i = some (true, os') ∧ Buffering start errno behind due os' c (said texts s i.text) := by
  obtain ⟨told, htalk, htold⟩ := h
  cases i with
  | sputc ch =>
    obtain ⟨b, w, told', hrun, htalk', hsaid⟩ := (os.buf s).sputc_takes htalk s ch
    exact ⟨_, by simp [Ostreams.insert, hrun], Buffering.update htold htalk' hsaid⟩
  | xsputn str =>
    obtain ⟨b, w, told', hrun, htalk', hsaid⟩ := (os.buf s).xsputn_takes htalk s (show str.length ≤ intMax from hi)
    exact ⟨_, by simp [Ostreams.insert, hrun], Buffering.update htold htalk' hsaid⟩
  | sync =>
    obtain ⟨b, w, hrun, harea, htalk', -⟩ := (os.buf s).sync_takes htalk s
    refine ⟨⟨w, Function.update os.buf s b⟩, by simp [Ostreams.insert, hrun], Buffering.update htold htalk' ?_⟩
    rw [harea, said_nil, Insertion.text, List.append_nil]

theorem Buffering.inserts (h : Buffering start errno behind due os c texts) {l : List (Sink × Insertion)}
    (hl : ∀ p ∈ l, p.2.text.length ≤ intMax) :
    ∃ os', Ostreams.inserts l os = some (true, os') ∧ Buffering start errno behind due os' c fun s => texts s ++ putOn s l := by
  induction l generalizing os texts with
  | nil => exact ⟨os, rfl, by simpa [putOn] using h⟩
  | cons p l ih =>
    obtain ⟨s, i⟩ := p
    obtain ⟨hi, hl'⟩ := List.forall_mem_cons.mp hl
    obtain ⟨os₁, hrun₁, h₁⟩ := h.insert s hi
    obtain ⟨os₂, hrun₂, h₂⟩ := ih h₁ hl'
    have htexts : (fun s' => said texts s i.text s' ++ putOn s' l) = fun s' => texts s' ++ putOn s' ((s, i) :: l) := by
      funext s'
      by_cases hs : s' = s
      · subst hs
        simp [said, putOn]
      · simp [said, putOn, hs, Ne.symm hs]
    rw [htexts] at h₂
    exact ⟨os₂, by simp [Ostreams.inserts, hrun₁, hrun₂], h₂⟩

variable {r : Reader} {req : Request} {type : Byte} {rs : List Record} {last : Record} {more : Text}

theorem talk_start (hbegun : req.isBeginProcessed = true) (ho : req.ipc.outbox.Reliable)
    (hrs : ∀ q ∈ rs, Passing type req.requestId q) (hlast : last.EndsStream type req.requestId)
    (htext : r.unread ++ req.ipc.inbox.bytes = rs.flatMap Record.bytes ++ (last.bytes ++ more)) (outLen errLen : BuffLen) :
    Talk req r.errno (last.padding ++ more) (rs.flatMap Record.response) ⟨r.setType type, startOutput req outLen errLen⟩
      (givenOf req.requestId false rs) fun _ => [] := by
  refine ⟨⟨[], [], dialogue_start hbegun ho hrs hlast htext outLen errLen⟩, ?_, rfl, rfl⟩
  intro s
  cases s <;> rfl

/-- Two streams may have any buffers that an `int` can count: all that is put on them is
taken, and is in order what the writer has and what the buffer has. A `sync` sends
everything that was put on its stream, and the input can be read as before. -/
theorem buffered_output (hbegun : req.isBeginProcessed = true) (ho : req.ipc.outbox.Reliable)
    (hrs : ∀ q ∈ rs, Passing type req.requestId q) (hlast : last.EndsStream type req.requestId)
    (htext : r.unread ++ req.ipc.inbox.bytes = rs.flatMap Record.bytes ++ (last.bytes ++ more)) {buf : Sink → Streambuf}
    (hbuf : ∀ s, (buf s).area = []) {l : List (Sink × Insertion)} (hl : ∀ p ∈ l, p.2.text.length ≤ intMax)
    (outLen errLen : BuffLen) :
    ∃ os, Ostreams.inserts l ⟨⟨r.setType type, startOutput req outLen errLen⟩, buf⟩ = some (true, os) ∧
      (∀ s, os.work.output.written s ++ (os.buf s).area = putOn s l) ∧
      (∀ n, ∃ w, os.work.read (.getStr n) = some ((givenOf req.requestId false rs).take n, w)) ∧
      ∀ s, ∃ (os' : Ostreams) (ms : List Message) (sent : List Record), os.insert s .sync = some (true, os') ∧
        os'.work.output.sent = req.ipc.outbox.sent ++ sent.flatMap Record.bytes ∧
        sent.filter Record.ofOutput = ms.map (Message.record req.requestId) ∧ contentOf s ms = putOn s l := by
  have hstart : Buffering req r.errno (last.padding ++ more) (rs.flatMap Record.response)
      ⟨⟨r.setType type, startOutput req outLen errLen⟩, buf⟩ (givenOf req.requestId false rs) fun _ => [] :=
    ⟨_, talk_start hbegun ho hrs hlast htext outLen errLen, hbuf⟩
  obtain ⟨os, hrun, told, htalk', htold⟩ := hstart.inserts hl
  simp only [List.nil_append] at htold
  refine ⟨os, hrun, ?_, ?_, ?_⟩
  · intro s
    rw [htalk'.written]
    exact htold s
  · intro n
    obtain ⟨w, hread, -⟩ := htalk'.getStr n
    exact ⟨w, hread⟩
  · intro s
    obtain ⟨b, w, hsync, harea, htalk'', hempty⟩ := (os.buf s).sync_takes htalk' s
    obtain ⟨ms, sent, hd⟩ := htalk''.dialogue
    refine ⟨⟨w, Function.update os.buf s b⟩, ms, sent, by simp [Ostreams.insert, hsync], hd.shares.sent, hd.shares.records, ?_⟩
    have hcontent := hd.shares.content s
    rw [hempty, List.append_nil, htalk''.written] at hcontent
    rw [hcontent, ← htold s]
    simp [said]

/-- A buffer of four characters, and none. -/
theorem buffered_output_shared :
    ∃ os, Ostreams.inserts [(.out, .xsputn (text "header")), (.err, .sputc 33), (.out, .sputc 10)]
        ⟨⟨(newReader (newBuffLen 8192 false) params).setType stdin,
          startOutput (requestWith (sharedRecords.flatMap Record.bytes ++ (sharedEnd.bytes ++ [])))
            (newBuffLen 8192 false) (newBuffLen 512 false)⟩,
          fun s => if s = .out then ⟨4, [], by decide, Nat.zero_le _⟩ else unbuffered⟩ = some (true, os) ∧
      os.work.output.written .out ++ (os.buf .out).area = text "header\n" ∧
      ∃ os' ms, os.insert .out .sync = some (true, os') ∧ contentOf .out ms = text "header\n" := by
  have hbuf : ∀ s : Sink, (if s = .out then (⟨4, [], by decide, Nat.zero_le _⟩ : Streambuf) else unbuffered).area = [] :=
    fun s => by cases s <;> rfl
  obtain ⟨os, hrun, hput, -, hsync⟩ := buffered_output (r := newReader (newBuffLen 8192 false) params) rfl
    (requestWith_reliable (sharedRecords.flatMap Record.bytes ++ (sharedEnd.bytes ++ []))) sharedRecords_passing
    sharedEnd_ends rfl hbuf (l := [(.out, .xsputn (text "header")), (.err, .sputc 33), (.out, .sputc 10)]) (by decide)
    (newBuffLen 8192 false) (newBuffLen 512 false)
  obtain ⟨os', ms, sent, hrun', -, -, hcontent⟩ := hsync .out
  exact ⟨os, hrun, hput .out, os', ms, hrun', hcontent⟩

end Buffering

/-- The get area of a `fcgi_streambuf` that has a buffer: `gptr()` and `egptr()` from `eback()` on,
which is where the buffer begins. -/
structure Getbuf where
  buf : Text
  gptr : Nat
  egptr : Nat

/-- `reset()`. -/
def Getbuf.reset (buf : Text) : Getbuf := ⟨buf, 0, 0⟩

/-- `*gptr()`, if it is in the buffer. -/
def Getbuf.current (g : Getbuf) : Option Byte := g.buf[g.gptr]?

/-- `gbump(1)`. -/
def Getbuf.bump (g : Getbuf) : Getbuf := { g with gptr := g.gptr + 1 }

/-- `setg` after `FCGX_GetStr` has filled the buffer. -/
def Getbuf.refill (g : Getbuf) (str : Text) : Getbuf := ⟨str ++ g.buf.drop str.length, 0, str.length⟩

/-- `underflow()`, where the character `none` is `EOF`. The size of the buffer becomes the `int` of
`FCGX_GetStr`, which reads nothing when that is negative. -/
def Getbuf.underflow (g : Getbuf) (w : Work) : Option (Option Byte × Getbuf × Work) :=
  if g.gptr = g.egptr then do
    let (str, w) ← w.read (.getStr (intOf g.buf.length).toNat)
    if str = [] then some (none, g, w)
    else
      let c ← (g.refill str).current
      some (some c, g.refill str, w)
  else do
    let c ← g.current
    some (some c, g, w)

/-- `uflow()`. -/
def Getbuf.uflow (g : Getbuf) (w : Work) : Option (Option Byte × Getbuf × Work) := do
  let (rv, g, w) ← g.underflow w
  some (rv, g.bump, w)

/-- `std::streambuf::sgetc`. -/
def Getbuf.sgetc (g : Getbuf) (w : Work) : Option (Option Byte × Getbuf × Work) :=
  if g.gptr < g.egptr then do
    let c ← g.current
    some (some c, g, w)
  else g.underflow w

/-- `std::streambuf::sbumpc`. -/
def Getbuf.sbumpc (g : Getbuf) (w : Work) : Option (Option Byte × Getbuf × Work) :=
  if g.gptr < g.egptr then do
    let c ← g.current
    some (some c, g.bump, w)
  else g.uflow w

/-- `std::streambuf::xsgetn`: one character after the other, until there is none. -/
def Getbuf.sbumpn : (n : Nat) → Getbuf → Work → Option (Text × Getbuf × Work)
  | 0, g, w => some ([], g, w)
  | n + 1, g, w => do
    let (rv, g, w) ← g.sbumpc w
    match rv with
    | none => some ([], g, w)
    | some c =>
      let (str, g, w) ← g.sbumpn n w
      some (c :: str, g, w)

/-- `xsgetn(s, n)` with a buffer. -/
def Getbuf.xsgetn (g : Getbuf) (n : Nat) (w : Work) : Option (Text × Getbuf × Work) :=
  if intMax < n then some ([], g, w) else g.sbumpn n w

/-- What an input stream asks of its buffer. -/
inductive Extraction where
  | sgetc
  | sbumpc
  | xsgetn : Nat → Extraction

/-- Whether as much was there, what was there, and what is left. -/
def Extraction.on (c : Text) : Extraction → Bool × Text × Text
  | sgetc => (c != [], c.take 1, c)
  | sbumpc => (c != [], c.take 1, c.drop 1)
  | xsgetn n => (n ≤ c.length, c.take n, c.drop n)

def Extraction.run (g : Getbuf) (w : Work) : Extraction → Option (Bool × Text × Getbuf × Work)
  | sgetc => do
    let (rv, g, w) ← g.sgetc w
    some (rv.isSome, rv.toList, g, w)
  | sbumpc => do
    let (rv, g, w) ← g.sbumpc w
    some (rv.isSome, rv.toList, g, w)
  | xsgetn n => do
    let (str, g, w) ← g.xsgetn n w
    some (str.length == n, str, g, w)

/-- Up to the first one that finds the end, as of a text. -/
def extractsOn : List Extraction → Text → Bool × List Text
  | [], _ => (true, [])
  | x :: l, c =>
    let (good, str, rest) := x.on c
    if good then ((extractsOn l rest).1, str :: (extractsOn l rest).2) else (false, [str])

/-- As of a buffer. Once the end is found, an `istream` is not `good()`. -/
def extracts : List Extraction → Getbuf → Work → Option (Bool × List Text × Getbuf × Work)
  | [], g, w => some (true, [], g, w)
  | x :: l, g, w => do
    let (good, str, g, w) ← x.run g w
    if good then
      let (all, strs, g, w) ← extracts l g w
      some (all, str :: strs, g, w)
    else some (false, [str], g, w)

/-- What is still to be extracted: the rest of the buffer, and what the request still yields. -/
structure Extracting (start : Request) (errno : Int) (behind due : Text) (g : Getbuf) (w : Work) (c : Text)
    (texts : Sink → Text) : Prop where
  gptr_le : g.gptr ≤ g.egptr
  egptr_le : g.egptr ≤ g.buf.length
  size : 0 < g.buf.length
  size_le : g.buf.length ≤ intMax
  talk : ∃ ahead, Talk start errno behind due w ahead texts ∧ (g.buf.take g.egptr).drop g.gptr ++ ahead = c

/-- The end of the request has been found. The get area may have been left by one character. -/
structure Getbuf.Over (g : Getbuf) (w : Work) : Prop where
  isClosed : w.input.isClosed = true
  egptr_le : g.egptr ≤ g.gptr
  gptr_le : g.gptr ≤ g.egptr + 1

section Extracting

variable {start : Request} {errno : Int} {behind due c : Text} {w : Work} {texts : Sink → Text} {g : Getbuf}

/-- A character that is in the get area. -/
theorem Extracting.current (h : Extracting start errno behind due g w c texts) (hlt : g.gptr < g.egptr) :
    ∃ b rest, c = b :: rest ∧ g.current = some b ∧ Extracting start errno behind due g.bump w rest texts := by
  obtain ⟨ahead, htalk, hc⟩ := h.talk
  have hbuf : g.gptr < g.buf.length := Nat.lt_of_lt_of_le hlt h.egptr_le
  have htake : g.gptr < (g.buf.take g.egptr).length := by
    rw [List.length_take, Nat.min_eq_left h.egptr_le]
    exact hlt
  have hdrop := List.drop_eq_getElem_cons htake
  rw [hdrop, List.getElem_take, List.cons_append] at hc
  exact ⟨g.buf[g.gptr], _, hc.symm, List.getElem?_eq_getElem hbuf, hlt, h.egptr_le, h.size, h.size_le, ahead, htalk, rfl⟩

theorem Extracting.underflow (h : Extracting start errno behind due g w c texts) (heq : g.gptr = g.egptr) :
    ∃ g' w', g.underflow w = some (c.head?, g', w') ∧ Extracting start errno behind due g' w' c texts ∧
      (c ≠ [] → g'.gptr < g'.egptr) ∧ (c = [] → w'.input.isClosed = true ∧ g'.gptr = g'.egptr) := by
  obtain ⟨ahead, htalk, hc⟩ := h.talk
  have hnil : (g.buf.take g.egptr).drop g.gptr = [] := by
    rw [heq]
    exact List.drop_eq_nil_of_le (List.length_take_le _ _)
  rw [hnil, List.nil_append] at hc
  subst hc
  obtain ⟨w', hread, htalk', hend⟩ := htalk.getStr g.buf.length
  have hsize := intOf_toNat h.size_le
  cases ahead with
  | nil =>
    refine ⟨g, w', by simp [Getbuf.underflow, heq, hsize, hread], ⟨h.gptr_le, h.egptr_le, h.size, h.size_le, [], ?_, ?_⟩,
      fun hne => absurd rfl hne, fun _ => ⟨hend h.size, heq⟩⟩
    · simpa using htalk'
    · rw [hnil, List.nil_append]
  | cons b rest =>
    have hpos : 0 < ((b :: rest).take g.buf.length).length := by
      rw [List.length_take]
      exact Nat.lt_min.mpr ⟨h.size, Nat.succ_pos _⟩
    have hsome : (b :: rest).take g.buf.length ≠ [] := List.ne_nil_of_length_pos hpos
    have hcurrent : (g.refill ((b :: rest).take g.buf.length)).current = some b := by
      rw [Getbuf.current, Getbuf.refill, List.getElem?_append_left hpos, List.getElem?_take_of_lt h.size]
      rfl
    refine ⟨g.refill ((b :: rest).take g.buf.length), w', ?_, ⟨Nat.zero_le _, ?_, ?_, ?_, _, htalk', ?_⟩, fun _ => hpos,
      fun hnone => absurd hnone (List.cons_ne_nil _ _)⟩
    · simp only [Getbuf.underflow, if_pos heq, hsize, hread, Option.bind_eq_bind, Option.bind_some, if_neg hsome, hcurrent,
        List.head?_cons]
    · rw [Getbuf.refill, List.length_append]
      exact Nat.le_add_right _ _
    · rw [Getbuf.refill, List.length_append]
      omega
    · have hle := h.size_le
      rw [Getbuf.refill, List.length_append, List.length_take, List.length_drop]
      omega
    · rw [Getbuf.refill, List.take_left, List.drop_zero, List.take_append_drop]

theorem Extracting.sgetc (h : Extracting start errno behind due g w c texts) :
    ∃ g' w', g.sgetc w = some (c.head?, g', w') ∧ (c ≠ [] → Extracting start errno behind due g' w' c texts) ∧
      (c = [] → g'.Over w') := by
  by_cases hlt : g.gptr < g.egptr
  · obtain ⟨b, rest, rfl, hcurrent, -⟩ := h.current hlt
    exact ⟨g, w, by simp [Getbuf.sgetc, hlt, hcurrent], fun _ => h, fun hnil => absurd hnil (List.cons_ne_nil _ _)⟩
  · obtain ⟨g', w', hrun, h', -, hend⟩ := h.underflow (Nat.le_antisymm h.gptr_le (Nat.not_lt.mp hlt))
    refine ⟨g', w', by rw [Getbuf.sgetc, if_neg hlt, hrun], fun _ => h', fun hnil => ?_⟩
    obtain ⟨hclosed, heq⟩ := hend hnil
    exact ⟨hclosed, Nat.le_of_eq heq.symm, Nat.le_succ_of_le (Nat.le_of_eq heq)⟩

/-- At the end of the request `uflow` leaves the get area. -/
theorem Extracting.sbumpc (h : Extracting start errno behind due g w c texts) :
    ∃ g' w', g.sbumpc w = some (c.head?, g', w') ∧ (c ≠ [] → Extracting start errno behind due g' w' (c.drop 1) texts) ∧
      (c = [] → g'.Over w') := by
  by_cases hlt : g.gptr < g.egptr
  · obtain ⟨b, rest, rfl, hcurrent, h'⟩ := h.current hlt
    exact ⟨g.bump, w, by simp [Getbuf.sbumpc, hlt, hcurrent], fun _ => h', fun hnil => absurd hnil (List.cons_ne_nil _ _)⟩
  · obtain ⟨g', w', hrun, h', hmore, hend⟩ := h.underflow (Nat.le_antisymm h.gptr_le (Nat.not_lt.mp hlt))
    refine ⟨g'.bump, w', by simp [Getbuf.sbumpc, hlt, Getbuf.uflow, hrun], ?_, fun hnil => ?_⟩
    · intro hne
      obtain ⟨b, rest, rfl, -, h''⟩ := h'.current (hmore hne)
      exact h''
    · obtain ⟨hclosed, heq⟩ := hend hnil
      exact ⟨hclosed, Nat.le_succ_of_le (Nat.le_of_eq heq.symm), Nat.succ_le_succ (Nat.le_of_eq heq)⟩

theorem Extracting.sbumpn (h : Extracting start errno behind due g w c texts) (n : Nat) :
    ∃ g' w', g.sbumpn n w = some (c.take n, g', w') ∧
      (n ≤ c.length → Extracting start errno behind due g' w' (c.drop n) texts) ∧ (c.length < n → g'.Over w') := by
  induction n generalizing g w c with
  | zero => exact ⟨g, w, rfl, fun _ => h, fun hlt => absurd hlt (Nat.not_lt_zero _)⟩
  | succ n ih =>
    obtain ⟨g₁, w₁, hrun₁, hmore, hend⟩ := h.sbumpc
    cases c with
    | nil =>
      exact ⟨g₁, w₁, by simp [Getbuf.sbumpn, hrun₁], fun hle => absurd hle (Nat.not_succ_le_zero n), fun _ => hend rfl⟩
    | cons b c =>
      obtain ⟨g₂, w₂, hrun₂, hmore₂, hend₂⟩ := ih (hmore (List.cons_ne_nil _ _))
      refine ⟨g₂, w₂, ?_, fun hle => hmore₂ (Nat.le_of_succ_le_succ hle), fun hlt => hend₂ (Nat.lt_of_succ_lt_succ hlt)⟩
      simp only [Getbuf.sbumpn, hrun₁, List.head?_cons, Option.bind_eq_bind, Option.bind_some]
      simp only [List.drop_succ_cons, List.drop_zero] at hrun₂
      rw [hrun₂]
      rfl

def Extraction.count : Extraction → Nat
  | xsgetn n => n
  | _ => 0

theorem Extracting.run (h : Extracting start errno behind due g w c texts) {x : Extraction} (hx : x.count ≤ intMax) :
    ∃ g' w', x.run g w = some ((x.on c).1, (x.on c).2.1, g', w') ∧
      ((x.on c).1 = true → Extracting start errno behind due g' w' (x.on c).2.2 texts) ∧
      ((x.on c).1 = false → g'.Over w') := by
  cases x with
  | sgetc =>
    obtain ⟨g', w', hrun, hmore, hend⟩ := h.sgetc
    refine ⟨g', w', ?_, fun hgood => hmore (by simpa [Extraction.on] using hgood),
      fun hnone => hend (by simpa [Extraction.on] using hnone)⟩
    cases c <;> simp [Extraction.run, Extraction.on, hrun]
  | sbumpc =>
    obtain ⟨g', w', hrun, hmore, hend⟩ := h.sbumpc
    refine ⟨g', w', ?_, fun hgood => hmore (by simpa [Extraction.on] using hgood),
      fun hnone => hend (by simpa [Extraction.on] using hnone)⟩
    cases c <;> simp [Extraction.run, Extraction.on, hrun]
  | xsgetn n =>
    obtain ⟨g', w', hrun, hmore, hend⟩ := h.sbumpn n
    refine ⟨g', w', ?_, fun hgood => hmore (by simpa [Extraction.on] using hgood),
      fun hnone => hend (by simpa [Extraction.on] using hnone)⟩
    have hle : ¬ intMax < n := Nat.not_lt.mpr hx
    have hall : ((c.take n).length == n) = decide (n ≤ c.length) := by
      rw [Bool.eq_iff_iff, beq_iff_eq, decide_eq_true_iff, List.length_take]
      omega
    simp only [Extraction.run, Extraction.on, Getbuf.xsgetn, if_neg hle, hrun, Option.bind_eq_bind, Option.bind_some, hall]

theorem Extracting.extracts (h : Extracting start errno behind due g w c texts) {l : List Extraction}
    (hl : ∀ x ∈ l, x.count ≤ intMax) :
    ∃ g' w', extracts l g w = some ((extractsOn l c).1, (extractsOn l c).2, g', w') ∧
      ((extractsOn l c).1 = true → g'.gptr ≤ g'.egptr) ∧ ((extractsOn l c).1 = false → g'.Over w') := by
  induction l generalizing g w c with
  | nil => exact ⟨g, w, rfl, fun _ => h.gptr_le, fun hfalse => absurd hfalse.symm Bool.false_ne_true⟩
  | cons x l ih =>
    obtain ⟨hx, hl'⟩ := List.forall_mem_cons.mp hl
    obtain ⟨g₁, w₁, hrun₁, hmore, hend⟩ := h.run hx
    cases hgood : (x.on c).1 with
    | false =>
      rw [hgood] at hrun₁
      exact ⟨g₁, w₁, by simp [Libfcgi.extracts, extractsOn, hrun₁, hgood], by simp [extractsOn, hgood], fun _ => hend hgood⟩
    | true =>
      obtain ⟨g₂, w₂, hrun₂, hmore₂, hend₂⟩ := ih (hmore hgood) hl'
      rw [hgood] at hrun₁
      refine ⟨g₂, w₂, by simp [Libfcgi.extracts, extractsOn, hrun₁, hgood, hrun₂], ?_, ?_⟩
      · simpa [extractsOn, hgood] using hmore₂
      · simpa [extractsOn, hgood] using hend₂

variable {r : Reader} {req : Request} {type : Byte} {rs : List Record} {last : Record} {more : Text}

/-- Whatever is asked of a stream with a buffer that an `int` can count, it answers as the
text would that the records of the request give, up to the first time that it comes to
the end. Then the request has been read to its end, and no character is left in the get
area. -/
theorem buffered_input (hbegun : req.isBeginProcessed = true) (ho : req.ipc.outbox.Reliable)
    (hrs : ∀ q ∈ rs, Passing type req.requestId q) (hlast : last.EndsStream type req.requestId)
    (htext : r.unread ++ req.ipc.inbox.bytes = rs.flatMap Record.bytes ++ (last.bytes ++ more)) {buf : Text} (hbuf : buf ≠ [])
    (hsize : buf.length ≤ intMax) {l : List Extraction} (hl : ∀ x ∈ l, x.count ≤ intMax) (outLen errLen : BuffLen) :
    ∃ g w, extracts l (.reset buf) ⟨r.setType type, startOutput req outLen errLen⟩ =
        some ((extractsOn l (givenOf req.requestId false rs)).1, (extractsOn l (givenOf req.requestId false rs)).2, g, w) ∧
      ((extractsOn l (givenOf req.requestId false rs)).1 = true → g.gptr ≤ g.egptr) ∧
      ((extractsOn l (givenOf req.requestId false rs)).1 = false → g.Over w) := by
  have hstart : Extracting req r.errno (last.padding ++ more) (rs.flatMap Record.response) (.reset buf)
      ⟨r.setType type, startOutput req outLen errLen⟩ (givenOf req.requestId false rs) fun _ => [] :=
    ⟨Nat.le_refl _, Nat.zero_le _, List.length_pos_of_ne_nil hbuf, hsize, _, talk_start hbegun ho hrs hlast htext outLen errLen, rfl⟩
  exact hstart.extracts hl

/-- A buffer of four characters is filled three times, and then the end is found. -/
theorem buffered_input_shared :
    ∃ g w, extracts [.sgetc, .sbumpc, .xsgetn 9, .sbumpc] (.reset [0, 0, 0, 0])
        ⟨(newReader (newBuffLen 8192 false) params).setType stdin,
          startOutput (requestWith (sharedRecords.flatMap Record.bytes ++ (sharedEnd.bytes ++ [])))
            (newBuffLen 8192 false) (newBuffLen 512 false)⟩ =
        some (false, [text "n", text "n", text "ame=value", []], g, w) ∧ g.Over w := by
  obtain ⟨g, w, hrun, -, hover⟩ := buffered_input (r := newReader (newBuffLen 8192 false) params) rfl
    (requestWith_reliable (sharedRecords.flatMap Record.bytes ++ (sharedEnd.bytes ++ []))) sharedRecords_passing
    sharedEnd_ends rfl (List.cons_ne_nil 0 [0, 0, 0]) (by decide) (l := [.sgetc, .sbumpc, .xsgetn 9, .sbumpc]) (by decide)
    (newBuffLen 8192 false) (newBuffLen 512 false)
  have hgiven : extractsOn [.sgetc, .sbumpc, .xsgetn 9, .sbumpc] (givenOf thisRequest false sharedRecords) =
      (false, [text "n", text "n", text "ame=value", []]) := by decide
  have hid : (requestWith (sharedRecords.flatMap Record.bytes ++ (sharedEnd.bytes ++ []))).requestId = thisRequest := rfl
  rw [hid, hgiven] at hrun hover
  exact ⟨g, w, hrun, hover rfl⟩

end Extracting

end Libfcgi
