import Altumo.Library.Numeral
import Altumo.Libfcgi.Streambuf
import Altumo.Libfcgi.Serving

/-!
# The example application

It answers every request with a page of the environment of the request, its own
environment and the input of the request.
-/

namespace EchoCpp

open CString Descriptor Numeral Libfcgi

/-- `STDIN_MAX`: not more than this is read. -/
def stdinMax : Nat := 1000000

/-- What the process has of its own. -/
structure Process where
  pid : Nat
  environ : List Text
  pid_le : pid ≤ intMax
  environ_le : ∀ p ∈ environ, p.length ≤ intMax

/-- `penv`. -/
def penv (envp : List Text) : List Text :=
  text "<PRE>\n" :: envp.flatMap (fun p => [cStr p, text "\n"]) ++ [text "</PRE>\n"]

/-- `clen` as it is read from `CONTENT_LENGTH`, and whether all of the text is read. A
negative length becomes an `unsigned long`. -/
def contentLength (clenstr : Text) : Bool × Nat :=
  let (value, rest) := strtol clenstr
  (rest.isEmpty, min (if rest.isEmpty then (value % (ulongMax + 1 : Nat)).toNat else stdinMax) stdinMax)

def complaint (clenstr : Text) : List Text := [text "can't parse \"CONTENT_LENGTH=", clenstr, text "\"\n"]

/-- The rest of the input is passed over, in pieces. -/
def chew : (fuel : Nat) → Iostreams → Option Iostreams
  | 0, _ => none
  | fuel + 1, io => do
    let (gcount, io) ← io.ignore 1024
    if gcount = 1024 then chew fuel io else some io

/-- `gstdin`: the content, of which the length is returned. -/
def gstdin (fuel : Nat) (envp : List Text) (io : Iostreams) : Option (Text × Iostreams) :=
  match getParam (text "CONTENT_LENGTH") envp with
  | none => do
    let io ← chew fuel io
    some ([], io)
  | some clenstr => do
    let (parsed, clen) := contentLength clenstr
    let io ← (if parsed then some io else io.complains (complaint clenstr))
    let (content, io) ← io.read clen
    let io ← chew fuel io
    some (content, io)

/-- The page, in the pieces in which it is put on `cout`. -/
def page (p : Process) (requestId : RequestId) (envp : List Text) (content : Text) : List Text :=
  [text "Content-type: text/html\r\n\r\n<TITLE>echo-cpp</TITLE>\n<H1>echo-cpp</H1>\n<H4>PID: ", decimal p.pid,
    text "</H4>\n<H4>Request Number: ", decimal requestId.val, text "</H4>\n"] ++
  text "<H4>Request Environment</H4>\n" :: penv envp ++
  text "<H4>Process/Initial Environment</H4>\n" :: penv p.environ ++
  [text "<H4>Standard Input - ", decimal content.length] ++
  (if content.length = stdinMax then [text " (STDIN_MAX)"] else []) ++
  text " bytes</H4>\n" :: if content.length ≠ 0 then [content] else []

/-- The loop of `main` behind `FCGX_Accept_r`. -/
def answer (p : Process) (fuel : Nat) (s : Session) (t : Streams) : Option Session := do
  let (content, io) ← gstdin fuel t.envp (iostreams ⟨t.input, ⟨t.out, t.err, s.req, fun _ => []⟩⟩)
  let io ← io.puts (page p s.req.requestId t.envp content)
  some { s with
    req := io.work.output.req
    streams := some ⟨io.work.input, io.work.output.out, io.work.output.err, t.envp⟩ }

/-- The loop of `main`, which ends when no request is accepted. -/
def main (p : Process) : (fuel : Nat) → Session → Option Session
  | 0, _ => none
  | fuel + 1, s => do
    let (rc, s) ← s.accept
    if rc = 0 then
      let t ← s.streams
      let s ← answer p fuel s t
      main p fuel s
    else some s

/-- What is read of the input of a request. -/
def taken (envp : List Text) (input : Text) : Text :=
  match getParam (text "CONTENT_LENGTH") envp with
  | none => []
  | some clenstr => input.take (contentLength clenstr).2

/-- What is put on `cerr` for a request. -/
def complained (envp : List Text) : Text :=
  match getParam (text "CONTENT_LENGTH") envp with
  | none => []
  | some clenstr => if (contentLength clenstr).1 then [] else (complaint clenstr).flatten

section Reading

variable {start : Request} {errno : Int} {behind due c : Text} {io : Iostreams} {texts : Sink → Text}

/-- However much input there is, it is passed over up to its end. -/
theorem chew_streaming (h : Streaming start errno behind due io c texts) {fuel : Nat} (hfuel : c.length / 1024 + 2 ≤ fuel) :
    ∃ io', chew fuel io = some io' ∧ Streaming start errno behind due io' [] texts ∧ io'.work.input.isClosed = true := by
  induction fuel generalizing io c with
  | zero => omega
  | succ fuel ih =>
    rw [chew]
    cases hcin : io.cin with
    | false =>
      have hclosed := h.cin hcin
      obtain rfl := h.talk.eq_nil hclosed
      refine ⟨io, ?_, h, hclosed⟩
      simp [Iostreams.ignore, hcin]
    | true =>
      obtain ⟨io₁, hrun, h₁, hcin₁⟩ := h.ignore 1024 hcin
      rw [hrun]
      simp only [Option.bind_eq_bind, Option.bind_some]
      by_cases hlen : 1024 ≤ (c.length + 1) / 2
      · rw [if_pos (Nat.min_eq_left hlen)]
        refine ih h₁ ?_
        rw [List.length_drop]
        omega
      · have hshort : decide (2 * 1024 + 1 ≤ c.length) = false := decide_eq_false (by omega)
        have hclosed := h₁.cin (hcin₁.trans hshort)
        have hnil := h₁.talk.eq_nil hclosed
        rw [if_neg (by omega)]
        exact ⟨io₁, rfl, hnil ▸ h₁, hclosed⟩

theorem contentLength_le (clenstr : Text) : (contentLength clenstr).2 ≤ intMax :=
  Nat.le_trans (Nat.min_le_right _ _) (by decide)

theorem complaint_le {clenstr : Text} (h : clenstr.length ≤ intMax) : ∀ str ∈ complaint clenstr, str.length ≤ intMax := by
  simp only [complaint, List.forall_mem_cons, List.not_mem_nil, false_implies, implies_true, and_true]
  exact ⟨by decide, h, by decide⟩

/-- A value that is found is a part of one of the strings. -/
theorem getParam_length {name v : Text} {envp : List Text} (h : getParam name envp = some v) :
    ∃ p ∈ envp, v.length ≤ p.length := by
  induction envp with
  | nil => cases h
  | cons p envp ih =>
    rw [getParam] at h
    split at h
    · obtain rfl := Option.some.inj h
      refine ⟨p, List.mem_cons_self, ?_⟩
      have hle := (List.takeWhile_prefix (l := p) (· != 0)).length_le
      rw [List.length_drop, cStr]
      omega
    · obtain ⟨p', hp', hle⟩ := ih h
      exact ⟨p', List.mem_cons_of_mem _ hp', hle⟩

/-- `gstdin` returns the beginning of the input, and leaves the input at its end. -/
theorem gstdin_streaming {envp : List Text} (henvp : ∀ p ∈ envp, p.length ≤ intMax)
    (h : Streaming start errno behind due io c texts) (hcin : io.cin = true) {fuel : Nat}
    (hfuel : c.length / 1024 + 2 ≤ fuel) :
    ∃ io', gstdin fuel envp io = some (taken envp c, io') ∧
      Streaming start errno behind due io' [] (said texts .err (complained envp)) ∧ io'.work.input.isClosed = true := by
  unfold gstdin taken complained
  cases hparam : getParam (text "CONTENT_LENGTH") envp with
  | none =>
    obtain ⟨io₁, hchew, h₁, hclosed⟩ := chew_streaming h hfuel
    refine ⟨io₁, by simp [hchew], by simpa using h₁, hclosed⟩
  | some clenstr =>
    obtain ⟨p, hp, hle⟩ := getParam_length hparam
    have hsay : ∃ io₁, (if (contentLength clenstr).1 then some io else io.complains (complaint clenstr)) = some io₁ ∧
        Streaming start errno behind due io₁ c
          (said texts .err (if (contentLength clenstr).1 then [] else (complaint clenstr).flatten)) ∧ io₁.cin = true := by
      cases (contentLength clenstr).1 with
      | true => exact ⟨io, rfl, by simpa using h, hcin⟩
      | false =>
        obtain ⟨io₁, hrun, h₁, hcin₁⟩ := h.complains (complaint_le (Nat.le_trans hle (henvp p hp)))
        exact ⟨io₁, hrun, h₁, hcin₁.trans hcin⟩
    obtain ⟨io₁, hrun₁, h₁, hcin₁⟩ := hsay
    obtain ⟨io₂, hrun₂, h₂⟩ := h₁.read (contentLength_le clenstr) hcin₁
    have hrest : (c.drop (contentLength clenstr).2).length / 1024 + 2 ≤ fuel := by
      rw [List.length_drop]
      omega
    obtain ⟨io₃, hrun₃, h₃, hclosed⟩ := chew_streaming h₂ hrest
    refine ⟨io₃, ?_, h₃, hclosed⟩
    simp only [hrun₁, hrun₂, hrun₃, Option.bind_eq_bind, Option.bind_some]

theorem penv_le {envp : List Text} (h : ∀ p ∈ envp, p.length ≤ intMax) : ∀ str ∈ penv envp, str.length ≤ intMax := by
  intro str hstr
  simp only [penv, List.cons_append, List.mem_cons, List.mem_append, List.mem_flatMap, List.not_mem_nil, or_false] at hstr
  obtain rfl | ⟨p, hp, rfl | rfl⟩ | rfl := hstr
  · decide
  · exact Nat.le_trans (List.takeWhile_prefix _).length_le (h p hp)
  · decide
  · decide

theorem decimal_le {n : Nat} (h : n ≤ intMax) : (decimal n).length ≤ intMax :=
  Nat.le_trans (decimal_length_le n) (Nat.max_le.mpr ⟨h, by decide⟩)

/-- No piece of the page is too long for `xsputn`. -/
theorem page_le (p : Process) (requestId : RequestId) {envp : List Text} (henvp : ∀ p ∈ envp, p.length ≤ intMax)
    {content : Text} (hcontent : content.length ≤ intMax) :
    ∀ str ∈ page p requestId envp content, str.length ≤ intMax := by
  have hid : requestId.val ≤ intMax := Nat.le_trans (Nat.le_of_lt requestId.isLt) (by decide)
  intro str hstr
  simp only [page, List.cons_append, List.nil_append, List.append_assoc, List.mem_cons, List.mem_append] at hstr
  rcases hstr with rfl | rfl | rfl | rfl | rfl | rfl | hstr | rfl | hstr | rfl | rfl | hstr | rfl | hstr
  · decide
  · exact decimal_le p.pid_le
  · decide
  · exact decimal_le hid
  · decide
  · decide
  · exact penv_le henvp str hstr
  · decide
  · exact penv_le p.environ_le str hstr
  · decide
  · exact decimal_le hcontent
  · split at hstr
    · rw [List.mem_singleton.mp hstr]
      decide
    · cases hstr
  · decide
  · split at hstr
    · rw [List.mem_singleton.mp hstr]
      exact hcontent
    · cases hstr

theorem taken_length_le (envp : List Text) (input : Text) : (taken envp input).length ≤ intMax := by
  unfold taken
  split
  · exact Nat.zero_le _
  · rw [List.length_take]
    exact Nat.le_trans (Nat.min_le_left _ _) (contentLength_le _)

/-- What has been put on the two streams of a request when it is answered. -/
def pageTexts (p : Process) (requestId : RequestId) (envp : List Text) (input : Text) : Sink → Text
  | .out => (page p requestId envp (taken envp input)).flatten
  | .err => complained envp

/-- The body of the loop puts the page on the output, and leaves the input at its end. -/
theorem answer_streaming (p : Process) {s : Session} {t : Streams} (henvp : ∀ p ∈ t.envp, p.length ≤ intMax)
    (h : Streaming start errno behind due (iostreams ⟨t.input, ⟨t.out, t.err, s.req, fun _ => []⟩⟩) c fun _ => [])
    {fuel : Nat} (hfuel : c.length / 1024 + 2 ≤ fuel) :
    ∃ io : Iostreams, answer p fuel s t = some { s with
        req := io.work.output.req
        streams := some ⟨io.work.input, io.work.output.out, io.work.output.err, t.envp⟩ } ∧
      Talk start errno behind due io.work [] (pageTexts p s.req.requestId t.envp c) ∧ io.work.input.isClosed = true := by
  obtain ⟨io₁, hrun₁, h₁, hclosed⟩ := gstdin_streaming henvp h rfl hfuel
  obtain ⟨io₂, hrun₂, h₂, hinput⟩ := h₁.puts (page_le p s.req.requestId henvp (taken_length_le t.envp c))
  have htexts : said (said (fun _ => []) .err (complained t.envp)) .out
      (page p s.req.requestId t.envp (taken t.envp c)).flatten = pageTexts p s.req.requestId t.envp c := by
    funext s'
    cases s' <;> simp [said, pageTexts]
  have htalk := h₂.talk
  rw [htexts] at htalk
  refine ⟨io₂, by simp [answer, hrun₁, hrun₂], htalk, ?_⟩
  rw [hinput]
  exact hclosed

end Reading

end EchoCpp
