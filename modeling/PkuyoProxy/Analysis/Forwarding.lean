import PkuyoProxy.Analysis.HeaderRewriting
import PkuyoProxy.Analysis.OutputStream
import PkuyoProxy.Analysis.ParserStates
import PkuyoProxy.Interface.HttpMessage

/-!
# Reading what is forwarded

Rewriting a block keeps what it announces, so a receiver that frames as the parser does
reads a message of announced length back as it was.  Of a chunked message the content is
forwarded decoded, behind a block that still announces chunks: whatever the receiver makes
of it, the first message it reads is shorter (`run_bounded`), so it never reads the message back
(`receivedAlone_iff`).
-/

set_option autoImplicit false

namespace PkuyoProxy.Analysis

open PkuyoProxy.Lib PkuyoProxy.Model PkuyoProxy.Interface

variable {maxSize : ℕ} {ip : Bytes} {isRequest : Bool}

/-! ## Sending a message whole -/

/-- The kernel accepts whatever it is offered. -/
def acceptAll : WriteAnswer := fun b => { byteCount := b.length }

/-- The bytes `handle_write_event` puts on the wire of a connection for one context when
every write is accepted whole. -/
def forwardedBytes (peer : NormalConnHandler) (c : HttpContext) : Bytes :=
  (handleWriteEvent .finished [acceptAll, acceptAll]
    { handler := { peer with queue := [c.moved] } }).2.wire

/-- A write that is accepted whole takes its context off the queue, and the loop goes on. -/
theorem writeLoop_whole {s : SendRun} {front : HttpContext} {rest : List HttpContext}
    (hqueue : s.handler.queue = front :: rest) (hfront : Sendable front)
    (answers : List WriteAnswer) :
    writeLoop (acceptAll :: answers) s =
      writeLoop answers (SendRun.wrote s (loadBuffer front)
        { byteCount := (loadBuffer front).header.length }
        (if front.state = .sendContent ∨ front.content = [] then rest
          else { loadBuffer front with state := .sendContent } :: rest)) := by
  have hheader := loadBuffer_header_ne hfront
  have hminus : ((loadBuffer front).header.length : ℤ) ≠ -1 := by omega
  have hcontent : (loadBuffer front).content = front.content := by
    unfold loadBuffer
    split <;> rfl
  have hafter : afterWrite (loadBuffer front) rest (loadBuffer front).header.length =
      if front.state = .sendContent ∨ front.content = [] then rest
        else { loadBuffer front with state := .sendContent } :: rest := by
    simp [afterWrite, loadBuffer_state, hcontent]
  conv_lhs => unfold writeLoop
  simp [hqueue, hfront.completed, acceptAll, hminus, hheader, hafter, SendRun.wrote]

/-- Behind the handshake a context is sent as its header and its content. -/
theorem forwardedBytes_eq {peer : NormalConnHandler} (hdone : peer.connHandler.handshakeDone = true)
    {c : HttpContext} (hc : Fresh c) : forwardedBytes peer c = c.header ++ c.content := by
  have hfresh : Sendable c.moved :=
    ⟨hc.completed, fun _ => hc.header, by simp [HttpContext.moved, hc.state]⟩
  have hload : loadBuffer c.moved = c.moved := by simp [loadBuffer, HttpContext.moved, hc.state]
  have hhandshake : NormalConnHandler.ensureHandshake { peer with queue := [c.moved] } .finished =
      (none, { peer with queue := [c.moved] }) := by
    simp [NormalConnHandler.ensureHandshake, hdone]
  have hempty (answers : List WriteAnswer) (s : SendRun) (h : s.handler.queue = []) :
      (writeLoop answers s).2 = s := by
    unfold writeLoop
    simp [h]
  unfold forwardedBytes handleWriteEvent
  rw [hhandshake]
  dsimp only
  rw [SendRun.wire, writeLoop_whole rfl hfresh, hload]
  by_cases hnil : c.content = []
  · have hlast : c.moved.state = .sendContent ∨ c.moved.content = [] := .inr hnil
    rw [if_pos hlast, hempty _ _ rfl]
    simp [SendRun.wrote, WriteRecord.accepted, HttpContext.moved, hnil]
  · have hmore : ¬ (c.moved.state = .sendContent ∨ c.moved.content = []) := by
      simp [HttpContext.moved, hc.state, hnil]
    have hsecond : Sendable { c.moved with state := .sendContent } :=
      ⟨hc.completed, by simp, fun _ => hnil⟩
    rw [if_neg hmore, writeLoop_whole rfl hsecond, if_pos (.inl rfl), hempty _ _ rfl]
    simp [SendRun.wrote, WriteRecord.accepted, HttpContext.moved, loadBuffer]

/-! ## Reading it back -/

/-- A receiver that frames messages as this parser does, on a new connection, reads from the
bytes exactly one message, with this body, and has nothing left over. -/
def ReceivedAlone (maxSize : ℕ) (isRequest : Bool) (connHandler : ConnHandler)
    (bytes body : Bytes) : Prop :=
  ∃ fuel r, parseHttpContext maxSize fuel ((ParseRun.opened isRequest connHandler).append bytes) =
      some (.done r) ∧
    r.passed.map (fun c => (c.content, c.isCompleted)) = [(body, true)] ∧
    r.handler.state = .readHeaders ∧ r.handler.rawBuffer = []

/-- A new parser with bytes in its buffer reads as the framer does behind them. -/
theorem reading_received (maxSize : ℕ) (isRequest : Bool) (connHandler : ConnHandler)
    (bytes : Bytes) :
    reading maxSize ((ParseRun.opened isRequest connHandler).append bytes) =
      (let o := (Framer.machine maxSize connHandler.ip isRequest).run Framer.fresh bytes
      (settle o.1, o.2)) := by
  simp [reading, ParseRun.opened, ParseRun.append, reader, phaseOf, Framer.fresh]

/-- A block of a genuine message, as lines: the forwarded block announces what the block
that was read announced. -/
theorem exists_forwarded_head (hip : ∀ b ∈ ip, isTextByte b = true) {head : Bytes}
    (h : Delimited head) :
    ∃ head', Delimited head' ∧ rewritten ip isRequest head = head' ++ (crlf ++ crlf) ∧
      ∀ ip' isRequest', announced ip' isRequest' head' = announced ip isRequest head := by
  obtain ⟨ls, hls, hhead⟩ := exists_headerLines h
  have hlf : ip.head? ≠ some 10 := by
    intro hhead
    exact absurd (hip 10 (List.mem_of_mem_head? hhead)) (by decide)
  have hconveys := @rewriteLines_conveys isRequest _ _ hls (not_crlf_of_text hip) hlf
  obtain ⟨head', hhead'⟩ := exists_head hconveys.lines
  refine ⟨head', delimited_of_lines hconveys.lines hhead', ?_, fun ip' isRequest' => ?_⟩
  · rw [rewritten_eq hls hhead, ← hhead', List.append_assoc]
  · rw [announced_eq hconveys.lines hhead', announced_eq hls hhead, hconveys.framing]

/-- The content read so far in a chunked body is no longer than what has been read. -/
def Bounded (n : ℕ) (f : Framer) : Prop :=
  match f.phase with
  | .chunkSize | .chunkData | .chunkEnd => f.tmp.content.length + f.pending.length ≤ n
  | .failed _ => True
  | .headers | .body => False

/-- A size line emits its message or goes to a chunk, with the content bounded as before. -/
theorem openChunk_bounded {n : ℕ} {tmp : HttpContext} (h : tmp.content.length ≤ n) (line : Bytes) :
    (Framer.openChunk tmp line).2 = [] ∧ Bounded (n + 1) (Framer.openChunk tmp line).1 ∨
      ∃ c, (Framer.openChunk tmp line).2 = [c] ∧ c.content.length ≤ n := by
  unfold Framer.openChunk
  split
  · exact .inl ⟨rfl, trivial⟩
  · split
    · exact .inr ⟨_, rfl, h⟩
    · exact .inl ⟨rfl, by simp only [Bounded, List.length_nil]; omega⟩

/-- Every byte adds at most one to the content, and the byte that ends the message none. -/
theorem step_bounded {n : ℕ} {f : Framer} (h : Bounded n f) (x : UInt8) :
    (Framer.step maxSize ip isRequest f x).2 = [] ∧
        Bounded (n + 1) (Framer.step maxSize ip isRequest f x).1 ∨
      ∃ c, (Framer.step maxSize ip isRequest f x).2 = [c] ∧ c.content.length ≤ n := by
  obtain ⟨phase, tmp, pending⟩ := f
  cases phase with
  | headers => exact h.elim
  | body => exact h.elim
  | chunkSize =>
    have hlen : tmp.content.length + pending.length ≤ n := h
    simp only [Framer.step]
    split
    · left
      exact ⟨rfl, by simp only [Bounded, List.length_append, List.length_singleton]; omega⟩
    · exact openChunk_bounded (by omega) _
  | chunkData =>
    have hlen : tmp.content.length + pending.length ≤ n := h
    left
    simp only [Framer.step]
    split
    · exact ⟨rfl, by simp [Bounded, Framer.withContent]; omega⟩
    · exact ⟨rfl, by simp [Bounded, Framer.withContent]; omega⟩
  | chunkEnd =>
    have hlen : tmp.content.length + pending.length ≤ n := h
    left
    simp only [Framer.step]
    split
    · exact ⟨rfl, by simp only [Bounded, List.length_singleton]; omega⟩
    · refine ⟨rfl, ?_⟩
      simp only [Bounded]
      split <;> simp <;> omega
  | failed e => exact .inl ⟨rfl, trivial⟩

/-- The first message read from a chunked body is shorter than the body's text. -/
theorem run_bounded {n : ℕ} {f : Framer} (h : Bounded n f) (xs : Bytes) {c : HttpContext}
    (hc : ((Framer.machine maxSize ip isRequest).run f xs).2.head? = some c) :
    c.content.length < n + xs.length := by
  induction xs generalizing n f with
  | nil => cases hc
  | cons x xs ih =>
    rw [Mealy.run_cons] at hc
    rcases @step_bounded maxSize ip isRequest _ _ h x with
      ⟨hout, hnext⟩ | ⟨c', hout, hlen⟩
    · have := ih hnext (by simpa [Framer.machine, hout] using hc)
      simp only [List.length_cons]
      omega
    · obtain rfl : c' = c := by simpa [Framer.machine, hout] using hc
      simp only [List.length_cons]
      omega

/-- Behind a block that announces chunks, no body is read that is as long as its text. -/
theorem not_received_chunked {connHandler : ConnHandler} {head content : Bytes}
    (h : Delimited head) (hann : (announced connHandler.ip isRequest head).1 = true) :
    ¬ ReceivedAlone maxSize isRequest connHandler (head ++ (crlf ++ crlf) ++ content) content := by
  rintro ⟨fuel, r, hparse, hpassed, -, -⟩
  have hready : Ready ((ParseRun.opened isRequest connHandler).append
      (head ++ (crlf ++ crlf) ++ content)).handler := (tracks_opened isRequest connHandler).ready _
  obtain ⟨rfl, -⟩ := parse_done hready ⟨fuel, hparse⟩
  obtain ⟨opened, -, hcontent, hopen⟩ := @openMessage_chunked maxSize _ _ _ hann
  rw [reading_received, Framer.fresh, run_block h, hopen] at hpassed
  simp only [Framer.continueWith, List.nil_append] at hpassed
  have hstart : Bounded 0 ⟨.chunkSize, opened, []⟩ := by simp [Bounded, hcontent]
  obtain ⟨c, hout, hc⟩ := List.map_eq_singleton_iff.mp hpassed
  have hlen := run_bounded hstart content (by rw [hout]; rfl)
  injection hc with hbody _
  rw [hbody] at hlen
  omega

/-- A block that announces its content is received alone with it. -/
theorem received_sized {connHandler : ConnHandler} {head content : Bytes} (h : Delimited head)
    (hann : announced connHandler.ip isRequest head = (false, content.length))
    (hmax : content.length ≤ maxSize) (hn : content.length ≠ npos) :
    ReceivedAlone maxSize isRequest connHandler (head ++ (crlf ++ crlf) ++ content) content := by
  obtain ⟨c, hc, hrun⟩ := run_sized h hann hn hmax {}
  have hmeets := parse_meets maxSize ((tracks_opened isRequest connHandler).ready
    (head ++ (crlf ++ crlf) ++ content))
  unfold Meets at hmeets
  rw [reading_received, Framer.fresh, hrun] at hmeets
  obtain ⟨fuel, hparse⟩ := hmeets
  obtain ⟨-, hcontent, hcomplete⟩ : c.header = _ ∧ c.content = content ∧ c.isCompleted = true := by
    simpa [delivered] using hc
  exact ⟨fuel, _, hparse, by simp [hcontent, hcomplete], rfl, rfl⟩

/-- The forwarded header announces chunks. -/
def announcesChunks (c : HttpContext) : Bool :=
  (processHttpHeaders { header := c.header } [] false).2.1

/-- The forwarded header, blank line included, announces what its lines announce. -/
theorem announcesChunks_eq {c : HttpContext} {head : Bytes} (h : Delimited head)
    (hheader : c.header = head ++ (crlf ++ crlf)) :
    announcesChunks c = (announced [] false head).1 := by
  obtain ⟨ls, hls, hhead⟩ := exists_headerLines h
  have hneutral : Neutral [] := fun acc => rfl
  have hall : ∀ l ∈ ls ++ [[]], ¬ crlf <:+: l := by
    intro l hl
    rcases List.mem_append.mp hl with hl | hl
    · exact hls.line l hl
    · rw [List.mem_singleton.mp hl]
      decide
  have hblock : c.header = joinLines crlf (ls ++ [[]]) := by
    rw [hheader, ← List.append_assoc, hhead, joinLines_append]
    simp
  have hsplit : splitHeaders c.header = ls ++ [[]] := by
    rw [hblock]
    exact splitLines_joinLines (by decide) hall
  obtain ⟨l, ls', rfl⟩ := List.exists_cons_of_ne_nil hls.ne
  have hframing : framing (l :: ls' ++ [[]]) = framing (l :: ls') := by
    simp [framing, hneutral _]
  have hscan := congrArg Prod.fst (scan_framing false (l :: ls' ++ [[]]))
  rw [announced_eq hls hhead, ← hframing, ← hscan]
  unfold announcesChunks processHttpHeaders
  dsimp only
  rw [hsplit]

/-- **Forwarding preserves a message exactly when it is not chunked.** -/
theorem receivedAlone_iff (maxSize : ℕ) (isRequest : Bool) (connHandler : ConnHandler)
    (hip : ∀ b ∈ connHandler.ip, isTextByte b = true) (r : ParseRun)
    (hr : Reaches maxSize isRequest connHandler r) (c : HttpContext) (hc : c ∈ r.passed)
    (peer : NormalConnHandler) (hpeer : peer.connHandler.handshakeDone = true)
    (isRequest' : Bool) (connHandler' : ConnHandler) :
    ReceivedAlone maxSize isRequest' connHandler' (forwardedBytes peer c) c.content ↔
      announcesChunks c = false := by
  obtain ⟨hcomplete, hstate, head, hdelim, hheader, hsized⟩ := (reaches_inv hr).passed c hc
  obtain ⟨head', hdelim', hwritten, hann⟩ :=
    @exists_forwarded_head _ isRequest hip _ hdelim
  have hfresh : Fresh c := ⟨hcomplete, hstate, by rw [hheader, hwritten]; simp [crlf]⟩
  have hchunks := announcesChunks_eq hdelim' (hheader.trans hwritten)
  rw [hann] at hchunks
  rw [forwardedBytes_eq hpeer hfresh, hheader, hwritten, hchunks]
  cases hcase : (announced connHandler.ip isRequest head).1 with
  | true =>
    simp only [Bool.true_eq_false, iff_false]
    exact not_received_chunked hdelim' (by rw [hann, hcase])
  | false =>
    obtain ⟨hlen, hmax, hn⟩ := hsized hcase
    simp only [iff_true]
    exact received_sized hdelim' (by rw [hann, ← hcase, ← hlen]) hmax hn

/-- A request from `10.0.0.1` as the parser passes it on, with one field of its own. -/
def passedRequest (field content : Bytes) : HttpContext :=
  { isCompleted := true
    request := { urlPath := ascii "/", method := ascii "P" }
    header := ascii "P / H\r\n" ++ field ++
      ascii "\r\nX-Forwarded-For: 10.0.0.1\r\nX-Real-IP: 10.0.0.1\r\n\r\n"
    content }

/-- The client's connection. -/
def clientConn : ConnHandler := { ip := ascii "10.0.0.1" }

/-- What a run passes on is passed on in a reachable state. -/
theorem exists_reaches_of_feed {isRequest : Bool} {connHandler : ConnHandler} {pieces : List Bytes}
    {passed : List HttpContext} (h : (feed (2 ^ 62) 8 pieces (.opened isRequest connHandler)).map
      (fun x => (outcome x).1) = some passed) :
    ∃ r, Reaches (2 ^ 62) isRequest connHandler r ∧ r.passed = passed := by
  obtain ⟨x, hx, hout⟩ := Option.map_eq_some_iff.mp h
  obtain ⟨r, hr, hpassed⟩ := feeds_passed ⟨8, hx⟩
  exact ⟨r, hr, hpassed.trans hout⟩

/-- The equivalence for a request of announced length, which a run of the parser passes on. -/
theorem receivedAlone_iff_sized :
    ∃ r, Reaches (2 ^ 62) true clientConn r ∧
      passedRequest (ascii "Content-Length: 2") (ascii "hi") ∈ r.passed ∧
      (ReceivedAlone (2 ^ 62) true {}
          (forwardedBytes backendEnd (passedRequest (ascii "Content-Length: 2") (ascii "hi")))
          (ascii "hi") ↔
        announcesChunks (passedRequest (ascii "Content-Length: 2") (ascii "hi")) = false) := by
  have hrun : (feed (2 ^ 62) 8 [ascii "P / H\r\nContent-Length: 2\r\n\r\nhi"]
      (.opened true clientConn)).map (fun x => (outcome x).1) =
      some [passedRequest (ascii "Content-Length: 2") (ascii "hi")] := by decide
  obtain ⟨r, hr, hpassed⟩ := exists_reaches_of_feed hrun
  have hmem : passedRequest (ascii "Content-Length: 2") (ascii "hi") ∈ r.passed := by
    rw [hpassed]
    exact List.mem_singleton_self _
  exact ⟨r, hr, hmem, receivedAlone_iff (2 ^ 62) true clientConn (by decide) r hr _ hmem
    backendEnd rfl true {}⟩

/-- A request whose body `hi` and a line end came in one chunk: the receiver of what is
forwarded takes the body for a size line and raises. -/
theorem not_receivedAlone_chunked :
    ¬ ∀ (maxSize : ℕ) (isRequest : Bool) (connHandler : ConnHandler) (r : ParseRun)
        (c : HttpContext) (peer : NormalConnHandler) (isRequest' : Bool)
        (connHandler' : ConnHandler), (∀ b ∈ connHandler.ip, isTextByte b = true) →
      Reaches maxSize isRequest connHandler r → c ∈ r.passed →
      peer.connHandler.handshakeDone = true →
      ReceivedAlone maxSize isRequest' connHandler' (forwardedBytes peer c) c.content := by
  intro hall
  have hrun : (feed (2 ^ 62) 8
      [ascii "P / H\r\nTransfer-Encoding: chunked\r\n\r\n4\r\nhi\r\n\r\n0\r\n\r\n"]
      (.opened true clientConn)).map (fun x => (outcome x).1) =
      some [passedRequest (ascii "Transfer-Encoding: chunked") (ascii "hi\r\n")] := by decide
  obtain ⟨r, hr, hpassed⟩ := exists_reaches_of_feed hrun
  have hmem : passedRequest (ascii "Transfer-Encoding: chunked") (ascii "hi\r\n") ∈ r.passed := by
    rw [hpassed]
    exact List.mem_singleton_self _
  obtain ⟨fuel, r', hparse, -⟩ := hall (2 ^ 62) true clientConn r _ backendEnd true {} (by decide)
    hr hmem rfl
  have hraise : (parseHttpContext (2 ^ 62) 8 ((ParseRun.opened true {}).append
      (forwardedBytes backendEnd (passedRequest (ascii "Transfer-Encoding: chunked")
        (ascii "hi\r\n"))))).map Exit.returned = some false := by decide
  obtain ⟨y, hy, hfalse⟩ := Option.map_eq_some_iff.mp hraise
  obtain rfl := Evaluates.unique ⟨8, hy⟩ ⟨fuel, hparse⟩
  cases hfalse

end PkuyoProxy.Analysis
