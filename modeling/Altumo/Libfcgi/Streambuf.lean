import Altumo.Libfcgi.Dialogue

/-!
# The standard streams of an application

`fcgi_streambuf` puts the streams of a request behind `cin`, `cout` and `cerr`. A stream
that is not `good()` any more does nothing. As long as no write fails, the three carry
the content of the request and what is put on them.
-/

namespace Libfcgi

open CString Descriptor Refill

/-- `FCGX_PutStr` on a request that is worked on: whether it moves everything. -/
def Work.putStr (w : Work) (s : Sink) (str : Text) : Option (Bool × Work) := do
  let (moved, writer, req) ← Libfcgi.putStr str (w.output.writer s) w.output.req
  some (moved == some str.length, { w with output := w.output.update writer req (if moved.isSome then str else []) s })

/-- `FCGX_PutChar`: whether it returns the character. -/
def Work.putChar (w : Work) (s : Sink) (c : Byte) : Bool × Work :=
  let (put, writer, req) := Libfcgi.putChar c (w.output.writer s) w.output.req
  (put == some c, { w with output := w.output.update writer req (if put.isSome then [c] else []) s })

/-- `FCGX_FFlush`: whether it returns 0. -/
def Work.fflush (w : Work) (s : Sink) : Bool × Work :=
  let (ok, writer, req) := Libfcgi.fflush (w.output.writer s) w.output.req
  (ok, { w with output := w.output.update writer req [] s })

/-- The put area of a `fcgi_streambuf`, `pbase()` to `pptr()`. -/
structure Streambuf where
  bufsize : Nat
  area : Text
  bufsize_le : bufsize ≤ intMax
  area_le : area.length ≤ bufsize

/-- `fcgi_streambuf(FCGX_Stream *)` has no buffer. -/
def unbuffered : Streambuf := ⟨0, [], Nat.zero_le _, Nat.le_refl _⟩

/-- `pbump(-plen)`. -/
def Streambuf.clear (b : Streambuf) : Streambuf := ⟨b.bufsize, [], b.bufsize_le, Nat.zero_le _⟩

/-- `overflow(c)`, where the character `none` is `EOF`: whether it does not return `EOF`. -/
def Streambuf.overflow (b : Streambuf) (s : Sink) (c : Option Byte) (w : Work) : Option (Bool × Streambuf × Work) := do
  let (flushed, b, w) ← if b.area ≠ [] then do
      let (ok, w) ← w.putStr s b.area
      some (ok, if ok then b.clear else b, w)
    else some (true, b, w)
  match flushed, c with
  | false, _ => some (false, b, w)
  | true, none => some (true, b, w)
  | true, some c =>
    let (ok, w) := w.putChar s c
    some (ok, b, w)

/-- `std::streambuf::sputc`. -/
def Streambuf.sputc (b : Streambuf) (s : Sink) (c : Byte) (w : Work) : Option (Bool × Streambuf × Work) :=
  if h : b.area.length < b.bufsize then
    some (true, ⟨b.bufsize, b.area ++ [c], b.bufsize_le, by rw [List.length_append]; exact h⟩, w)
  else b.overflow s (some c) w

/-- `std::streambuf::xsputn`: one character after the other, until one is not taken. -/
def Streambuf.sputcs (b : Streambuf) (s : Sink) : Text → Work → Option (Bool × Streambuf × Work)
  | [], w => some (true, b, w)
  | c :: cs, w => do
    let (ok, b, w) ← b.sputc s c w
    if ok then b.sputcs s cs w else some (false, b, w)

/-- `xsputn(str, n)`: whether it returns `n`. -/
def Streambuf.xsputn (b : Streambuf) (s : Sink) (str : Text) (w : Work) : Option (Bool × Streambuf × Work) :=
  if intMax < str.length then some (false, b, w)
  else if b.bufsize ≠ 0 then b.sputcs s str w
  else do
    let (ok, w) ← w.putStr s str
    some (ok, b, w)

/-- `sync()`: whether it returns 0. -/
def Streambuf.sync (b : Streambuf) (s : Sink) (w : Work) : Option (Bool × Streambuf × Work) := do
  let (ok, b, w) ← b.overflow s none w
  if ok then
    let (ok, w) := w.fflush s
    some (ok, b, w)
  else some (false, b, w)

/-- `xsgetn` without a buffer. -/
def Work.xsgetn (w : Work) (n : Nat) : Option (Text × Work) := if intMax < n then some ([], w) else w.read (.getStr n)

/-- `cin`, `cout` and `cerr` without buffers: whether each of them is `good()`. -/
structure Iostreams where
  work : Work
  cin : Bool
  cout : Bool
  cerr : Bool

/-- `cin.rdbuf`, `cout.rdbuf` and `cerr.rdbuf` clear the streams. -/
def iostreams (w : Work) : Iostreams := ⟨w, true, true, true⟩

/-- `cout.flush()`. -/
def Iostreams.flush (io : Iostreams) : Option Iostreams :=
  if io.cout then do
    let (ok, _, w) ← unbuffered.sync .out io.work
    some { io with work := w, cout := ok }
  else some io

/-- `cout << str`, and `cout.write`. -/
def Iostreams.put (io : Iostreams) (str : Text) : Option Iostreams :=
  if io.cout then do
    let (ok, _, w) ← unbuffered.xsputn .out str io.work
    some { io with work := w, cout := ok }
  else some io

/-- `cerr << str`: `cout` is tied to it, and it is flushed each time. -/
def Iostreams.complain (io : Iostreams) (str : Text) : Option Iostreams :=
  if io.cerr then do
    let io ← io.flush
    let (put, _, w) ← unbuffered.xsputn .err str io.work
    let (flushed, _, w) ← unbuffered.sync .err w
    some { io with work := w, cerr := put && flushed }
  else some io

def Iostreams.puts : List Text → Iostreams → Option Iostreams
  | [], io => some io
  | str :: strs, io => do
    let io ← io.put str
    io.puts strs

def Iostreams.complains : List Text → Iostreams → Option Iostreams
  | [], io => some io
  | str :: strs, io => do
    let io ← io.complain str
    io.complains strs

/-- `cin.read`, to which `cout` is tied. What is read is `gcount()` long. -/
def Iostreams.read (io : Iostreams) (n : Nat) : Option (Text × Iostreams) :=
  if io.cin then do
    let io ← io.flush
    let (str, w) ← io.work.xsgetn n
    some (str, { io with work := w, cin := str.length == n })
  else some ([], io)

/-- `std::streambuf::snextc`. Without a buffer `sgetc` takes its character, as `sbumpc` does. -/
def Work.snextc (w : Work) : Option (Text × Work) := do
  let (c, w) ← w.read .getChar
  if c = [] then some ([], w) else w.read .getChar

/-- The loop of `ignore`, which counts a character that it has and goes on to the next: how many
it has counted, and whether it did not find the end. -/
def Work.ignoreLoop : (n : Nat) → Text → Work → Option (Nat × Bool × Work)
  | 0, c, w => some (0, c != [], w)
  | n + 1, c, w =>
    if c = [] then some (0, false, w)
    else do
      let (c, w) ← w.snextc
      let (k, good, w) ← w.ignoreLoop n c
      some (k + 1, good, w)

/-- `cin.ignore(n)` and `gcount()`, for more than one character, as libstdc++ has it: the loop begins
with `sgetc`. -/
def Iostreams.ignore (io : Iostreams) (n : Nat) : Option (Nat × Iostreams) :=
  if io.cin then do
    let io ← io.flush
    let (c, w) ← io.work.read .getChar
    let (k, good, w) ← w.ignoreLoop n c
    some (k, { io with work := w, cin := good })
  else some (0, io)

/-- What has been put on a stream, and then more. -/
def said (texts : Sink → Text) (s : Sink) (str : Text) : Sink → Text :=
  fun s' => if s' = s then texts s' ++ str else texts s'

@[simp] theorem said_nil (texts : Sink → Text) (s : Sink) : said texts s [] = texts := by
  funext s'
  simp [said]

theorem said_said (texts : Sink → Text) (s : Sink) (str str' : Text) :
    said (said texts s str) s str' = said texts s (str ++ str') := by
  funext s'
  by_cases h : s' = s <;> simp [said, h]

/-- A request that still yields these bytes, with both writers open. -/
structure Talk (start : Request) (errno : Int) (behind due : Text) (w : Work) (c : Text) (texts : Sink → Text) : Prop where
  dialogue : ∃ ms rs, Dialogue start errno behind due w c ms rs
  isOpen : ∀ s, (w.output.writer s).isClosed = false
  written : w.output.written = texts
  appStatus : w.output.req.appStatus = start.appStatus

section Talking

variable {start : Request} {errno : Int} {behind due c : Text} {w : Work} {texts : Sink → Text}

theorem Talk.reliable (h : Talk start errno behind due w c texts) : w.output.req.ipc.outbox.Reliable := by
  obtain ⟨ms, rs, hd⟩ := h.dialogue
  exact hd.shares.accounts.reliable

theorem Talk.writer (h : Talk start errno behind due w c texts) (s : Sink) : (w.output.writer s).Open s := by
  obtain ⟨ms, rs, hd⟩ := h.dialogue
  have hw : (w.output.fresh.over (start.setOutbox ⟨wire start.requestId ms, []⟩)).writer s = w.output.writer s := by
    cases s <;> rfl
  have hopen := hd.shares.accounts.open_of_isClosed (s := s) (by rw [hw]; exact h.isOpen s)
  rwa [hw] at hopen

/-- A call that leaves its writer open. -/
theorem Talk.write (h : Talk start errno behind due w c texts) {call : Call} {s : Sink} {writer : Writer}
    {req : Request} {str : Text} {ms' : List Message}
    (hcall : w.output.call call = some (w.output.update writer req str s))
    (he : Emits s (w.output.writer s) w.output.req str ms' writer req) (hfits : call.Fits) :
    Talk start errno behind due { w with output := w.output.update writer req str s } c (said texts s str) := by
  obtain ⟨ms, rs, hd⟩ := h.dialogue
  obtain ⟨w', ms₁, hrun, hd'⟩ := hd.write hfits
  rw [Work.call, hcall] at hrun
  obtain rfl := Option.some.inj hrun
  refine ⟨⟨_, _, hd'⟩, ?_, ?_, he.appStatus.trans h.appStatus⟩
  · intro s'
    by_cases hs : s' = s
    · subst hs
      rw [update_writer_self]
      exact he.isOpen.isClosed
    · rw [update_writer_ne _ _ _ _ hs]
      exact h.isOpen s'
  · funext s'
    show (if s' = s then w.output.written s' ++ str else w.output.written s') = _
    rw [h.written]
    rfl

theorem Talk.putStr (h : Talk start errno behind due w c texts) (s : Sink) (str : Text) :
    ∃ w', w.putStr s str = some (true, w') ∧ Talk start errno behind due w' c (said texts s str) := by
  obtain ⟨writer, req, ms', hrun, he⟩ := putStr_emits (h.writer s) h.reliable str
  have hcall : w.output.call (.putStr s str) = some (w.output.update writer req str s) := by simp [Output.call, hrun]
  exact ⟨_, by simp [Work.putStr, hrun], h.write hcall he trivial⟩

theorem Talk.putChar (h : Talk start errno behind due w c texts) (s : Sink) (b : Byte) :
    ∃ w', w.putChar s b = (true, w') ∧ Talk start errno behind due w' c (said texts s [b]) := by
  obtain ⟨ms', hsome, he⟩ := putChar_emits (h.writer s) h.reliable b
  have hcall : w.output.call (.putChar s b) = some (w.output.update (Libfcgi.putChar b (w.output.writer s) w.output.req).2.1
      (Libfcgi.putChar b (w.output.writer s) w.output.req).2.2 [b] s) := by simp [Output.call, hsome]
  exact ⟨_, by simp [Work.putChar, hsome], h.write hcall he trivial⟩

theorem Talk.fflush (h : Talk start errno behind due w c texts) (s : Sink) :
    ∃ w', w.fflush s = (true, w') ∧ Talk start errno behind due w' c texts ∧ (w'.output.writer s).content = [] := by
  obtain ⟨ms', he, hempty⟩ := emptyBuffProc_emits (h.writer s) h.reliable
  have hrun : Libfcgi.fflush (w.output.writer s) w.output.req =
      (true, emptyBuffProc (w.output.writer s) w.output.req) := by
    simp [Libfcgi.fflush, h.isOpen s, he.isOpen.isClosed]
  have hcall : w.output.call (.fflush s) = some (w.output.update (emptyBuffProc (w.output.writer s) w.output.req).1
      (emptyBuffProc (w.output.writer s) w.output.req).2 [] s) := by simp [Output.call, hrun]
  have htalk := h.write hcall he trivial
  rw [said_nil] at htalk
  refine ⟨_, by simp [Work.fflush, hrun], htalk, ?_⟩
  rw [update_writer_self]
  exact hempty

/-- `FCGX_GetStr` leaves the input closed if it returns less than was asked for. -/
theorem Talk.getStr (h : Talk start errno behind due w c texts) (n : Nat) :
    ∃ w', w.read (.getStr n) = some (c.take n, w') ∧ Talk start errno behind due w' (c.drop n) texts ∧
      (c.length < n → w'.input.isClosed = true) := by
  obtain ⟨ms, rs, hd⟩ := h.dialogue
  obtain ⟨e, d, hy, -⟩ := hd.reading
  obtain ⟨s', hrun, hy', hs', hend⟩ := getStr_yields hd.sound hy n
  have hcall : (ReadCall.getStr n).run fillBuffProc ⟨w.input, w.output.req⟩ = some (c.take n, s') := hrun
  have hyields : ∀ e, Yields (source fillBuffProc) ⟨w.input, w.output.req⟩ c e →
      Yields (source fillBuffProc) s' (c.drop n) e := by
    intro e' he'
    obtain ⟨s'', hrun', hy'', -⟩ := getStr_yields hd.sound he' n
    obtain ⟨-, rfl⟩ := Prod.mk.inj (Option.some.inj (hrun.symm.trans hrun'))
    exact hy''
  obtain ⟨rs', hd'⟩ := hd.after hcall hs' hyields
  refine ⟨_, by rw [Work.read, hcall]; rfl, ⟨⟨ms, _, hd'⟩, h.isOpen, h.written, ?_⟩, ?_⟩
  · have hanswers := readCall_answers fillBuffProc_answers hcall
    exact hanswers.appStatus.trans h.appStatus
  · intro hlt
    have hclosed := hy.closed_end
    rw [← hend hlt] at hclosed
    exact hclosed

/-- `FCGX_GetChar` leaves the input closed at its end. -/
theorem Talk.getChar (h : Talk start errno behind due w c texts) :
    ∃ w', w.read .getChar = some (c.take 1, w') ∧ Talk start errno behind due w' (c.drop 1) texts ∧
      (c = [] → w'.input.isClosed = true) := by
  obtain ⟨ms, rs, hd⟩ := h.dialogue
  obtain ⟨e, d, hy, -⟩ := hd.reading
  have hnext : ∃ s', ReadCall.getChar.run fillBuffProc ⟨w.input, w.output.req⟩ = some (c.take 1, s') ∧ s'.Sound ∧
      Yields (source fillBuffProc) s' (c.drop 1) e ∧ (c = [] → s' = e) := by
    obtain ⟨rfl, hget, he⟩ | ⟨b, c', s', rfl, hget, hy', hs'⟩ := getChar_yields hd.sound hy
    · exact ⟨e, by simp [ReadCall.run, hget], he, .closed hy.closed_end, fun _ => rfl⟩
    · exact ⟨s', by simp [ReadCall.run, hget], hs', hy', fun hnil => by cases hnil⟩
  obtain ⟨s', hcall, hs', hy', hend⟩ := hnext
  have hyields : ∀ e, Yields (source fillBuffProc) ⟨w.input, w.output.req⟩ c e →
      Yields (source fillBuffProc) s' (c.drop 1) e := by
    intro e' he'
    obtain ⟨str, c'', s'', hrun', hc', hy'', -⟩ := ReadCall.getChar.run_yields hd.sound he'
    obtain ⟨hstr, rfl⟩ := Prod.mk.inj (Option.some.inj (hcall.symm.trans hrun'))
    have hrest : c'' = c.drop 1 := by
      rw [← hstr] at hc'
      exact (List.append_cancel_left ((List.take_append_drop 1 c).trans hc')).symm
    rw [← hrest]
    exact hy''
  obtain ⟨rs', hd'⟩ := hd.after hcall hs' hyields
  refine ⟨_, by rw [Work.read, hcall]; rfl, ⟨⟨ms, _, hd'⟩, h.isOpen, h.written, ?_⟩, ?_⟩
  · have hanswers := readCall_answers fillBuffProc_answers hcall
    exact hanswers.appStatus.trans h.appStatus
  · intro hnil
    have hclosed := hy.closed_end
    rw [← hend hnil] at hclosed
    exact hclosed

/-- The input has no more bytes once it is closed. -/
theorem Talk.eq_nil (h : Talk start errno behind due w c texts) (hc : w.input.isClosed = true) : c = [] := by
  obtain ⟨ms, rs, hd⟩ := h.dialogue
  exact (hd.closed hc).1

theorem Talk.snextc (h : Talk start errno behind due w c texts) :
    ∃ w', w.snextc = some ((c.drop 1).take 1, w') ∧ Talk start errno behind due w' (c.drop 2) texts ∧
      (c.length < 2 → w'.input.isClosed = true) := by
  obtain ⟨w₁, hread₁, h₁, hend₁⟩ := h.getChar
  cases c with
  | nil => exact ⟨w₁, by simp [Work.snextc, hread₁], by simpa using h₁, fun _ => hend₁ rfl⟩
  | cons b c =>
    obtain ⟨w₂, hread₂, h₂, hend₂⟩ := h₁.getChar
    refine ⟨w₂, by simpa [Work.snextc, hread₁] using hread₂, by simpa using h₂, ?_⟩
    intro hlt
    rw [List.length_cons] at hlt
    refine hend₂ (List.drop_eq_nil_of_le ?_)
    rw [List.length_cons]
    omega

/-- Each pass of the loop takes two characters. -/
theorem Talk.ignoreLoop (h : Talk start errno behind due w c texts) (n : Nat) {str : Text} (hstr : str.length ≤ 1)
    (hnil : str = [] → c = [] ∧ w.input.isClosed = true) :
    ∃ w', w.ignoreLoop n str =
        some (min n ((str.length + c.length + 1) / 2), decide (2 * n + 1 ≤ str.length + c.length), w') ∧
      Talk start errno behind due w' (c.drop (2 * n)) texts ∧
      (str.length + c.length < 2 * n + 1 → w'.input.isClosed = true) := by
  induction n generalizing w c str with
  | zero =>
    cases str with
    | nil =>
      obtain ⟨rfl, hclosed⟩ := hnil rfl
      exact ⟨w, rfl, h, fun _ => hclosed⟩
    | cons b str =>
      have hpos : 0 < (b :: str).length := List.length_pos_of_ne_nil (List.cons_ne_nil _ _)
      have hgood : decide (2 * 0 + 1 ≤ (b :: str).length + c.length) = true := decide_eq_true (by omega)
      refine ⟨w, ?_, h, fun hlt => by omega⟩
      rw [hgood, Nat.zero_min]
      rfl
  | succ n ih =>
    cases str with
    | nil =>
      obtain ⟨rfl, hclosed⟩ := hnil rfl
      exact ⟨w, by simp [Work.ignoreLoop], by simpa using h, fun _ => hclosed⟩
    | cons b str =>
      have hone : (b :: str).length = 1 := Nat.le_antisymm hstr (Nat.succ_pos _)
      obtain ⟨w₁, hnext, h₁, hend₁⟩ := h.snextc
      obtain ⟨w₂, hloop, h₂, hend₂⟩ := ih h₁ (List.length_take_le 1 (c.drop 1)) fun hnone => by
        have hshort : c.length < 2 := by
          have hlen := congrArg List.length hnone
          rw [List.length_take, List.length_drop, List.length_nil] at hlen
          omega
        exact ⟨List.drop_eq_nil_of_le (Nat.le_of_lt hshort), hend₁ hshort⟩
      have hleft : ((c.drop 1).take 1).length + (c.drop 2).length = (b :: str).length + c.length - 2 := by
        rw [hone, List.length_take, List.length_drop, List.length_drop]
        omega
      rw [hleft] at hloop hend₂
      refine ⟨w₂, ?_, ?_, fun hlt => hend₂ (by omega)⟩
      · have hcount : min n (((b :: str).length + c.length - 2 + 1) / 2) + 1 =
            min (n + 1) (((b :: str).length + c.length + 1) / 2) := by omega
        have hgood : decide (2 * n + 1 ≤ (b :: str).length + c.length - 2) =
            decide (2 * (n + 1) + 1 ≤ (b :: str).length + c.length) := decide_eq_decide.mpr (by omega)
        rw [Work.ignoreLoop, if_neg (List.cons_ne_nil _ _), ← hcount, ← hgood]
        simp only [hnext, hloop, Option.bind_eq_bind, Option.bind_some]
      · rw [List.drop_drop] at h₂
        rw [show 2 * (n + 1) = 2 + 2 * n by omega]
        exact h₂

end Talking

/-- Streams that are `good()` over such a request. The input is closed once it is not. -/
structure Streaming (start : Request) (errno : Int) (behind due : Text) (io : Iostreams) (c : Text) (texts : Sink → Text) :
    Prop where
  talk : Talk start errno behind due io.work c texts
  cout : io.cout = true
  cerr : io.cerr = true
  cin : io.cin = false → io.work.input.isClosed = true

section Streaming

variable {start : Request} {errno : Int} {behind due c : Text} {io : Iostreams} {texts : Sink → Text}

theorem sync_unbuffered (s : Sink) (w : Work) :
    unbuffered.sync s w = some ((w.fflush s).1, unbuffered, (w.fflush s).2) := rfl

theorem fflush_input {w w' : Work} {s : Sink} {ok : Bool} (h : w.fflush s = (ok, w')) : w'.input = w.input :=
  (congrArg (fun r => r.2.input) h).symm

theorem Streaming.flush (h : Streaming start errno behind due io c texts) :
    ∃ io', io.flush = some io' ∧ Streaming start errno behind due io' c texts ∧ io'.cin = io.cin ∧
      io'.work.input = io.work.input := by
  obtain ⟨w', hrun, htalk, -⟩ := h.talk.fflush .out
  have hinput := fflush_input hrun
  refine ⟨{ io with work := w', cout := true }, ?_, ⟨htalk, rfl, h.cerr, ?_⟩, rfl, hinput⟩
  · rw [Iostreams.flush, if_pos h.cout, sync_unbuffered, hrun]
    rfl
  · intro hcin
    show w'.input.isClosed = true
    rw [hinput]
    exact h.cin hcin

theorem putStr_input {w w' : Work} {s : Sink} {str : Text} {ok : Bool} (h : w.putStr s str = some (ok, w')) :
    w'.input = w.input := by
  obtain ⟨⟨moved, writer, req⟩, -, h⟩ := Option.bind_eq_some_iff.mp h
  obtain ⟨-, rfl⟩ := Prod.mk.inj (Option.some.inj h)
  rfl

theorem xsputn_unbuffered (s : Sink) {str : Text} (hstr : str.length ≤ intMax) (w : Work) :
    unbuffered.xsputn s str w = (w.putStr s str).map fun r => (r.1, unbuffered, r.2) := by
  rw [Streambuf.xsputn, if_neg (Nat.not_lt.mpr hstr), if_neg (fun hne => hne rfl)]
  cases w.putStr s str <;> rfl

theorem Streaming.put (h : Streaming start errno behind due io c texts) {str : Text} (hstr : str.length ≤ intMax) :
    ∃ io', io.put str = some io' ∧ Streaming start errno behind due io' c (said texts .out str) ∧
      io'.work.input = io.work.input := by
  obtain ⟨w', hrun, htalk⟩ := h.talk.putStr .out str
  have hinput := putStr_input hrun
  refine ⟨{ io with work := w', cout := true }, ?_, ⟨htalk, rfl, h.cerr, ?_⟩, hinput⟩
  · rw [Iostreams.put, if_pos h.cout, xsputn_unbuffered _ hstr, hrun]
    rfl
  · intro hcin
    show w'.input.isClosed = true
    rw [hinput]
    exact h.cin hcin

theorem Streaming.puts (h : Streaming start errno behind due io c texts) {strs : List Text}
    (hstrs : ∀ str ∈ strs, str.length ≤ intMax) :
    ∃ io', io.puts strs = some io' ∧ Streaming start errno behind due io' c (said texts .out strs.flatten) ∧
      io'.work.input = io.work.input := by
  induction strs generalizing io texts with
  | nil => exact ⟨io, rfl, by simpa using h, rfl⟩
  | cons str strs ih =>
    obtain ⟨io₁, hput, h₁, hinput⟩ := h.put (hstrs str List.mem_cons_self)
    obtain ⟨io₂, hputs, h₂, hinput₂⟩ := ih h₁ fun str' hstr' => hstrs str' (List.mem_cons_of_mem _ hstr')
    rw [said_said] at h₂
    exact ⟨io₂, by simp [Iostreams.puts, hput, hputs], h₂, hinput₂.trans hinput⟩

theorem Streaming.complain (h : Streaming start errno behind due io c texts) {str : Text} (hstr : str.length ≤ intMax) :
    ∃ io', io.complain str = some io' ∧ Streaming start errno behind due io' c (said texts .err str) ∧
      io'.cin = io.cin := by
  obtain ⟨io₁, hflush, h₁, hcin, -⟩ := h.flush
  obtain ⟨w₂, hrun, h₂⟩ := h₁.talk.putStr .err str
  obtain ⟨w₃, hsync, h₃, -⟩ := h₂.fflush .err
  have hinput := (fflush_input hsync).trans (putStr_input hrun)
  refine ⟨{ io₁ with work := w₃, cerr := true }, ?_, ⟨h₃, h₁.cout, rfl, ?_⟩, hcin⟩
  · rw [Iostreams.complain, if_pos h.cerr]
    simp only [hflush, Option.bind_eq_bind, Option.bind_some, xsputn_unbuffered _ hstr, hrun, Option.map_some,
      sync_unbuffered, hsync, Bool.and_self]
  · intro hfalse
    show w₃.input.isClosed = true
    rw [hinput]
    exact h₁.cin hfalse

theorem Streaming.complains (h : Streaming start errno behind due io c texts) {strs : List Text}
    (hstrs : ∀ str ∈ strs, str.length ≤ intMax) :
    ∃ io', io.complains strs = some io' ∧ Streaming start errno behind due io' c (said texts .err strs.flatten) ∧
      io'.cin = io.cin := by
  induction strs generalizing io texts with
  | nil => exact ⟨io, rfl, by simpa using h, rfl⟩
  | cons str strs ih =>
    obtain ⟨io₁, hput, h₁, hcin⟩ := h.complain (hstrs str List.mem_cons_self)
    obtain ⟨io₂, hputs, h₂, hcin₂⟩ := ih h₁ fun str' hstr' => hstrs str' (List.mem_cons_of_mem _ hstr')
    rw [said_said] at h₂
    exact ⟨io₂, by simp [Iostreams.complains, hput, hputs], h₂, hcin₂.trans hcin⟩

/-- `cin.read` returns the next bytes of the request. -/
theorem Streaming.read (h : Streaming start errno behind due io c texts) {n : Nat} (hn : n ≤ intMax) (hcin : io.cin = true) :
    ∃ io', io.read n = some (c.take n, io') ∧ Streaming start errno behind due io' (c.drop n) texts := by
  obtain ⟨io₁, hflush, h₁, -, -⟩ := h.flush
  obtain ⟨w', hrun, htalk, hend⟩ := h₁.talk.getStr n
  refine ⟨{ io₁ with work := w', cin := (c.take n).length == n }, ?_, htalk, h₁.cout, h₁.cerr, ?_⟩
  · rw [Iostreams.read, if_pos hcin]
    simp only [hflush, Option.bind_eq_bind, Option.bind_some, Work.xsgetn, if_neg (Nat.not_lt.mpr hn), hrun]
  · intro hshort
    have hne : (c.take n).length ≠ n := by simpa using hshort
    rw [List.length_take] at hne
    exact hend (by omega)

/-- `cin.ignore` counts one of two characters that it takes. -/
theorem Streaming.ignore (h : Streaming start errno behind due io c texts) (n : Nat) (hcin : io.cin = true) :
    ∃ io', io.ignore n = some (min n ((c.length + 1) / 2), io') ∧
      Streaming start errno behind due io' (c.drop (2 * n + 1)) texts ∧ io'.cin = decide (2 * n + 1 ≤ c.length) := by
  obtain ⟨io₁, hflush, h₁, -, -⟩ := h.flush
  obtain ⟨w₁, hread, htalk₁, hend₁⟩ := h₁.talk.getChar
  obtain ⟨w', hloop, htalk, hend⟩ := htalk₁.ignoreLoop n (List.length_take_le 1 c) fun hnone => by
    have hnil : c = [] := (List.take_eq_nil_iff.mp hnone).resolve_left Nat.one_ne_zero
    exact ⟨by rw [hnil, List.drop_nil], hend₁ hnil⟩
  rw [← List.length_append, List.take_append_drop] at hloop hend
  rw [List.drop_drop, Nat.add_comm] at htalk
  refine ⟨{ io₁ with work := w', cin := decide (2 * n + 1 ≤ c.length) }, ?_, ⟨htalk, h₁.cout, h₁.cerr, ?_⟩, rfl⟩
  · rw [Iostreams.ignore, if_pos hcin]
    simp only [hflush, hread, hloop, Option.bind_eq_bind, Option.bind_some]
  · intro hshort
    exact hend (Nat.not_le.mp (of_decide_eq_false hshort))

end Streaming

end Libfcgi
