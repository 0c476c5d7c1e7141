import PkuyoProxy.Analysis.Forwarding
import PkuyoProxy.Analysis.ParserExceptions

/-!
# The parser between two calls

When `parse_http_context` returns, the parser waits for bytes: for the end of a header block, for
those a body or a chunk still lacks, or for a size line of which nothing has come.  What it then
remembers, and what it has passed on, is the same for every way the stream was cut
(`suspended_of_feeds`).
-/

set_option autoImplicit false

namespace PkuyoProxy.Analysis

open PkuyoProxy.Lib PkuyoProxy.Model PkuyoProxy.Interface

variable {maxSize : ℕ} {isRequest : Bool} {connHandler : ConnHandler}

/-- The header is that of a message, as it is forwarded, that announces a body of `n` bytes. -/
def HeaderAnnounces (ip : Bytes) (isRequest : Bool) (header : Bytes) (n : ℕ) : Prop :=
  ∃ head, Delimited head ∧ header = rewritten ip isRequest head ∧
    announced ip isRequest head = (false, n)

/-- The header is that of a message, as it is forwarded, that announces chunks. -/
def HeaderChunked (ip : Bytes) (isRequest : Bool) (header : Bytes) : Prop :=
  ∃ head, Delimited head ∧ header = rewritten ip isRequest head ∧
    (announced ip isRequest head).1 = true

/-- What holds of the parser of a connection whenever a call has returned. -/
structure Suspended (isRequest : Bool) (connHandler : ConnHandler) (r : ParseRun) : Prop where
  buffer : r.handler.rawBuffer ≠ [] →
    r.handler.state = .readHeaders ∧ ¬ crlf ++ crlf <:+: r.handler.rawBuffer
  body : r.handler.state = .readBody → 0 < r.handler.tmpContext.data ∧
    HeaderAnnounces connHandler.ip isRequest r.handler.tmpContext.header
      (r.handler.tmpContext.content.length + r.handler.tmpContext.data)
  chunkData : r.handler.state = .readChunkData → 0 < r.handler.tmpContext.data
  passed : ∀ c ∈ r.passed, c.isCompleted = true ∧ c.state = .sendHeader ∧
    (HeaderAnnounces connHandler.ip isRequest c.header c.content.length ∨
      HeaderChunked connHandler.ip isRequest c.header)

/-- What a header announces can be read off it, since an address has no line end. -/
theorem announced_unique (hip : ∀ b ∈ connHandler.ip, isTextByte b = true) {head head' : Bytes}
    (h : Delimited head) (h' : Delimited head')
    (heq : rewritten connHandler.ip isRequest head = rewritten connHandler.ip isRequest head') :
    announced connHandler.ip isRequest head = announced connHandler.ip isRequest head' := by
  obtain ⟨sent, -, hsent, hann⟩ := exists_forwarded_head hip h
  obtain ⟨sent', -, hsent', hann'⟩ := exists_forwarded_head hip h'
  have hsame : sent = sent' := List.append_cancel_right (hsent.symm.trans (heq.trans hsent'))
  rw [← hann connHandler.ip isRequest, ← hann' connHandler.ip isRequest, hsame]

/-- A header announces one length, and not chunks as well. -/
theorem HeaderAnnounces.unique (hip : ∀ b ∈ connHandler.ip, isTextByte b = true) {header : Bytes}
    {n : ℕ} (h : HeaderAnnounces connHandler.ip isRequest header n) :
    (∀ m, HeaderAnnounces connHandler.ip isRequest header m → m = n) ∧
      ¬ HeaderChunked connHandler.ip isRequest header := by
  obtain ⟨head, hdelim, hheader, hann⟩ := h
  refine ⟨?_, ?_⟩
  · rintro m ⟨head', hdelim', hheader', hann'⟩
    have hsame := announced_unique hip hdelim hdelim' (hheader.symm.trans hheader')
    rw [hann, hann'] at hsame
    exact (congrArg Prod.snd hsame).symm
  · rintro ⟨head', hdelim', hheader', hchunk⟩
    have hsame := announced_unique hip hdelim hdelim' (hheader.symm.trans hheader')
    rw [← hsame, hann] at hchunk
    cases hchunk

/-! ## Bodies and chunks under way -/

/-- A round leaves the parser ready. -/
theorem parserRound_ready {r : ParseRun} (hr : Ready r.handler) :
    FlowIn (fun s => Ready s.handler) (fun _ _ => True) (parserRound maxSize r) := by
  have hready (f : Flow Exn ParseRun) (hf : Keeps maxSize r f) :
      FlowIn (fun s => Ready s.handler) (fun _ _ => True) f := by
    cases f with
    | next r' => exact hf.1
    | leave r' => exact hf.1
    | raise e r' => trivial
  unfold parserRound
  cases hs : r.handler.state with
  | readHeaders => exact hready _ (readHeaders_keeps maxSize hs)
  | readBody => exact hready _ (readBody_keeps maxSize hs hr)
  | readChunkSize => exact hready _ (readChunkSize_keeps maxSize hs)
  | readChunkData => exact hready _ (readChunkData_keeps maxSize hs hr)

/-- In every reachable state, a body or chunk under way lacks at least one byte. -/
theorem reaches_ready {r : ParseRun} (hr : Reaches maxSize isRequest connHandler r) :
    Ready r.handler := by
  induction hr with
  | opened => simp [Ready, ParseRun.opened]
  | append _ piece ih => exact ih
  | next _ hround ih | leave _ hround ih =>
    have hin := @parserRound_ready maxSize _ ih
    rw [hround] at hin
    exact hin

/-! ## Where a call stops -/

/-- Only a part of a header block is left in the buffer. -/
def Stopped (r : ParseRun) : Prop :=
  r.handler.rawBuffer ≠ [] →
    r.handler.state = .readHeaders ∧ ¬ crlf ++ crlf <:+: r.handler.rawBuffer

/-- A parser that leaves its loop has a part of a header block left, or nothing. -/
theorem parseBody_stopped {r r' : ParseRun} (h : parseBody maxSize r = some (.leave r')) :
    Stopped r' := by
  obtain ⟨rfl, hs, hnone⟩ := parseBody_leave_headers h
  exact fun _ => ⟨hs, (find_eq_none_iff _ _).mp hnone⟩

/-- A call that returns has a part of a header block left, or nothing. -/
theorem parse_stopped {r r' : ParseRun}
    (h : Evaluates rawNonempty (parseBody maxSize) r (.done r')) : Stopped r' := by
  refine Evaluates.invariant (fun _ => True) (fun x => x.returned = true → Stopped x.state)
    ?_ ?_ ?_ ?_ trivial h rfl
  · intro s _ hg _ hraw
    simp [rawNonempty] at hg
    exact absurd hg hraw
  · exact fun _ _ _ _ _ => trivial
  · exact fun s s' _ _ hb _ => parseBody_stopped hb
  · exact fun s e s' _ _ _ hret => absurd hret (by simp [Exit.returned])

/-- A parser that has been fed pieces has a part of a header block left, or nothing. -/
theorem feeds_stopped {pieces : List Bytes} {r r' : ParseRun} (hr : Stopped r)
    (h : Feeds maxSize pieces r (.done r')) : Stopped r' := by
  induction pieces generalizing r with
  | nil =>
    cases feeds_nil_iff.mp h
    exact hr
  | cons piece pieces ih =>
    obtain ⟨r₁, hcall, hrest⟩ := feeds_cons_done h
    exact ih (parse_stopped hcall) hrest

/-! ## Every run -/

/-- A genuine message has the length it announces, or came in chunks. -/
theorem Genuine.delivers {ip : Bytes} {c : HttpContext} (h : Genuine maxSize ip isRequest c) :
    c.isCompleted = true ∧ c.state = .sendHeader ∧
      (HeaderAnnounces ip isRequest c.header c.content.length ∨
        HeaderChunked ip isRequest c.header) := by
  obtain ⟨hcompleted, hstate, head, hdelim, hheader, hsized⟩ := h
  refine ⟨hcompleted, hstate, ?_⟩
  cases hchunk : (announced ip isRequest head).1 with
  | false => exact .inl ⟨head, hdelim, hheader, Prod.ext hchunk (hsized hchunk).1⟩
  | true => exact .inr ⟨head, hdelim, hheader, hchunk⟩

/-- **Whenever a call of the parser has returned**, in whatever pieces the bytes came, only a part
of a header block is left in its buffer, a body or chunk under way lacks at least one byte, and
what was passed on is complete and has the length it announced. -/
theorem suspended_of_feeds {pieces : List Bytes} {r : ParseRun}
    (h : Feeds maxSize pieces (.opened isRequest connHandler) (.done r)) :
    Suspended isRequest connHandler r := by
  have hreach : Reaches maxSize isRequest connHandler r := feeds_reaches .opened h
  have hinv := reaches_inv hreach
  have hready := reaches_ready hreach
  refine ⟨feeds_stopped (fun hraw => absurd rfl hraw) h, ?_, ?_, ?_⟩
  · intro hs
    have hunder := hinv.underWay
    simp only [UnderWay, hs] at hunder
    obtain ⟨head, hdelim, hheader, hann, -, -⟩ := hunder
    rw [hinv.conn, hinv.side] at hheader hann
    exact ⟨hready (.inl hs), head, hdelim, hheader, hann⟩
  · intro hs
    exact hready (.inr hs)
  · exact fun c hc => (hinv.passed c hc).delivers

/-- A run that is left in the body of a second message is suspended there. -/
theorem suspended_of_feeds_body :
    ∃ r, r.handler.state = .readBody ∧ Suspended true {} r := by
  have hrun : (feed (2 ^ 62) 8
      [ascii "P / H\r\n", ascii "\r\nP / H\r\nContent-Length: 3\r\n\r\na"]
      (.opened true {})).map (fun x => (x.returned, x.state.handler.state)) =
      some (true, .readBody) := by decide
  obtain ⟨x, hx, hstate⟩ := Option.map_eq_some_iff.mp hrun
  cases x with
  | raised e r => cases hstate
  | done r => exact ⟨r, congrArg Prod.snd hstate, suspended_of_feeds ⟨8, hx⟩⟩

end PkuyoProxy.Analysis
