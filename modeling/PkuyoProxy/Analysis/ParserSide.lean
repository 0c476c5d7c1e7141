import PkuyoProxy.Analysis.PairEvents

/-!
# What the parser sees of its handler

The parser works on `state`, `tmp_context` and `raw_buffer`, and knows which side it is on and the
peer's address.  Two handlers that agree on these make the same of what they read, whatever their
queues are (`SameParser`, `parse_alike`).  So a handler that has read some pieces, each in an event
that did not close it, has passed on what the parser of a new connection does when it is fed these
pieces (`HasRead.event`).
-/

set_option autoImplicit false

namespace PkuyoProxy.Analysis

open PkuyoProxy.Lib PkuyoProxy.Model PkuyoProxy.Interface
open PkuyoProxy.Model.NormalConnHandler

variable {maxSize fuel : ℕ} {base : List HttpContext} {r r' : ParseRun}

/-- The handlers agree on what the parser works with. -/
structure SameParser (h h' : NormalConnHandler) : Prop where
  state : h'.state = h.state
  tmp : h'.tmpContext = h.tmpContext
  raw : h'.rawBuffer = h.rawBuffer
  side : h'.isRequest = h.isRequest
  ip : h'.connHandler.ip = h.connHandler.ip

/-- A handler agrees with itself. -/
theorem SameParser.refl (h : NormalConnHandler) : SameParser h h := ⟨rfl, rfl, rfl, rfl, rfl⟩

/-- Agreement is passed on. -/
theorem SameParser.trans {h h' h'' : NormalConnHandler} (h₁ : SameParser h h')
    (h₂ : SameParser h' h'') : SameParser h h'' :=
  ⟨h₂.state.trans h₁.state, h₂.tmp.trans h₁.tmp, h₂.raw.trans h₁.raw, h₂.side.trans h₁.side,
    h₂.ip.trans h₁.ip⟩

/-- The parsers are the same, and the second has passed on `base` before. -/
structure Agreeing (base : List HttpContext) (r r' : ParseRun) : Prop where
  parser : SameParser r.handler r'.handler
  passed : r'.passed = base ++ r.passed

/-! ## Rounds -/

/-- Parsers that agree differ in the sending side and the connection only. -/
theorem Agreeing.eq (h : Agreeing base r r') : ∃ queue isSending conn,
    conn.ip = r.handler.connHandler.ip ∧
      r' = ⟨{ r.handler with queue, isSending, connHandler := conn }, base ++ r.passed⟩ := by
  obtain ⟨⟨hstate, htmp, hraw, hside, hip⟩, hpassed⟩ := h
  obtain ⟨⟨queue, tmp, raw, state, isSending, side, conn⟩, p⟩ := r'
  dsimp only at hstate htmp hraw hside hip hpassed
  subst hstate htmp hraw hside hpassed
  exact ⟨queue, isSending, conn, hip, rfl⟩

/-- Parsers that agree do so with more bytes behind their buffers. -/
theorem Agreeing.append (h : Agreeing base r r') (piece : Bytes) :
    Agreeing base (r.append piece) (r'.append piece) := by
  obtain ⟨queue, isSending, conn, hip, rfl⟩ := h.eq
  exact ⟨⟨rfl, rfl, rfl, rfl, hip⟩, rfl⟩

/-- Parsers that agree do so behind a message. -/
theorem Agreeing.complete (h : Agreeing base r r') : Agreeing base r.complete r'.complete := by
  obtain ⟨queue, isSending, conn, hip, rfl⟩ := h.eq
  exact ⟨⟨rfl, rfl, rfl, rfl, hip⟩, List.append_assoc base r.passed _⟩

/-- Of two agreeing parsers both have bytes left, or neither has. -/
theorem rawNonempty_alike (h : Agreeing base r r') : rawNonempty r = rawNonempty r' := by
  unfold rawNonempty
  rw [h.parser.raw]

/-- Reading a header block keeps parsers agreeing. -/
theorem readHeaders_alike (h : Agreeing base r r') :
    Flow.Rel (Agreeing base) (readHeaders maxSize r) (readHeaders maxSize r') := by
  obtain ⟨queue, isSending, conn, hip, rfl⟩ := h.eq
  have halike (state : ConnState) (tmpContext : HttpContext) (rawBuffer : Bytes) :
      Agreeing base ⟨{ r.handler with state, tmpContext, rawBuffer }, r.passed⟩
        ⟨{ r.handler with state, tmpContext, rawBuffer, queue, isSending, connHandler := conn },
          base ++ r.passed⟩ := ⟨⟨rfl, rfl, rfl, rfl, hip⟩, rfl⟩
  unfold readHeaders
  dsimp only
  rw [hip]
  cases find (crlf ++ crlf) r.handler.rawBuffer with
  | none => exact .leave h
  | some e =>
    dsimp only
    generalize processHttpHeaders _ r.handler.connHandler.ip r.handler.isRequest = parsed
    obtain ⟨tmp, isChunk, len⟩ := parsed
    dsimp only
    split
    · exact .next (halike _ _ _)
    · split
      · exact .next (halike _ _ _)
      · split
        · obtain ⟨hparser, hpassed⟩ := (halike .readBody
            (extractHead r.handler.isRequest { tmp with data := len }) r.handler.rawBuffer).complete
          exact .next ⟨⟨hparser.state, hparser.tmp, rfl, hparser.side, hparser.ip⟩, hpassed⟩
        · split
          · exact .raise (halike _ _ _)
          · exact .next (halike _ _ _)

/-- Reading a body keeps parsers agreeing. -/
theorem readBody_alike (h : Agreeing base r r') :
    Flow.Rel (Agreeing base) (readBody r) (readBody r') := by
  obtain ⟨queue, isSending, conn, hip, rfl⟩ := h.eq
  have halike (tmpContext : HttpContext) (rawBuffer : Bytes) :
      Agreeing base ⟨{ r.handler with tmpContext, rawBuffer }, r.passed⟩
        ⟨{ r.handler with tmpContext, rawBuffer, queue, isSending, connHandler := conn },
          base ++ r.passed⟩ := ⟨⟨rfl, rfl, rfl, rfl, hip⟩, rfl⟩
  unfold readBody takeContent
  dsimp only
  split
  · exact .next (halike _ _).complete
  · exact .next (halike _ _)

/-- Reading the size of a chunk keeps parsers agreeing. -/
theorem readChunkSize_alike (h : Agreeing base r r') :
    Flow.Rel (Agreeing base) (readChunkSize r) (readChunkSize r') := by
  obtain ⟨queue, isSending, conn, hip, rfl⟩ := h.eq
  unfold readChunkSize
  dsimp only
  split
  · exact .leave h
  · split
    · exact .raise h
    · have herased (n : ℕ) : Agreeing base ⟨r.handler.eraseRaw n, r.passed⟩
          ⟨{ r.handler with queue, isSending, connHandler := conn }.eraseRaw n,
            base ++ r.passed⟩ := ⟨⟨rfl, rfl, rfl, rfl, hip⟩, rfl⟩
      split
      · exact .leave (herased _).complete
      · exact .next ⟨⟨rfl, rfl, rfl, rfl, hip⟩, rfl⟩

/-- Reading the data of a chunk keeps parsers agreeing. -/
theorem readChunkData_alike (h : Agreeing base r r') :
    Flow.Rel (Agreeing base) (readChunkData r) (readChunkData r') := by
  obtain ⟨queue, isSending, conn, hip, rfl⟩ := h.eq
  unfold readChunkData takeContent eraseRaw
  dsimp only
  split
  · split
    · exact .next ⟨⟨rfl, rfl, rfl, rfl, hip⟩, rfl⟩
    · exact .next ⟨⟨rfl, rfl, rfl, rfl, hip⟩, rfl⟩
  · exact .next ⟨⟨rfl, rfl, rfl, rfl, hip⟩, rfl⟩

/-- A round of the loop over chunks keeps parsers agreeing. -/
theorem chunkBody_alike (h : Agreeing base r r') :
    Option.Rel (Flow.Rel (Agreeing base)) (chunkBody r) (chunkBody r') := by
  unfold chunkBody
  rw [h.parser.state]
  cases r.handler.state with
  | readHeaders | readBody => exact .some (.next h)
  | readChunkSize => exact .some (readChunkSize_alike h)
  | readChunkData => exact .some (readChunkData_alike h)

/-- The loop over chunks keeps parsers agreeing. -/
theorem parseChunkedContent_alike (h : Agreeing base r r') :
    Option.Rel (Exit.Rel (Agreeing base)) (parseChunkedContent r) (parseChunkedContent r') := by
  have hfuel : chunkFuel r' = chunkFuel r := by
    unfold chunkFuel
    rw [h.parser.raw]
  unfold parseChunkedContent
  rw [hfuel]
  exact whileLoop_lockstep _ (fun _ _ hs => rawNonempty_alike hs) (fun _ _ hs => chunkBody_alike hs)
    h _

/-- A round of the parser keeps parsers agreeing. -/
theorem parseBody_alike (h : Agreeing base r r') :
    Option.Rel (Flow.Rel (Agreeing base)) (parseBody maxSize r) (parseBody maxSize r') := by
  have hinner := parseChunkedContent_alike h
  unfold parseBody
  rw [h.parser.state]
  cases r.handler.state with
  | readHeaders => exact .some (readHeaders_alike h)
  | readBody => exact .some (readBody_alike h)
  | readChunkSize | readChunkData =>
    dsimp only
    generalize parseChunkedContent r = x at hinner ⊢
    generalize parseChunkedContent r' = x' at hinner ⊢
    cases hinner with
    | none => exact .none
    | some hexit =>
      cases hexit with
      | done hdone => exact .some (.next hdone)
      | raised hraised => exact .some (.raise hraised)

/-- **Parsers that are the same make the same of what they read**, whatever the queues of their
handlers hold. -/
theorem parse_alike (h : Agreeing base r r') :
    Option.Rel (Exit.Rel (Agreeing base)) (parseHttpContext maxSize fuel r)
      (parseHttpContext maxSize fuel r') :=
  whileLoop_lockstep _ (fun _ _ hs => rawNonempty_alike hs) (fun _ _ hs => parseBody_alike hs) h
    fuel

/-- Of parsers that agree, a call that returns for one returns for the other. -/
theorem parse_done_alike (h : Agreeing base r r') {s : ParseRun}
    (hs : parseHttpContext maxSize fuel r = some (.done s)) :
    ∃ s', parseHttpContext maxSize fuel r' = some (.done s') ∧ Agreeing base s s' := by
  have hrel := @parse_alike maxSize fuel _ _ _ h
  rw [hs] at hrel
  generalize parseHttpContext maxSize fuel r' = x at hrel ⊢
  cases hrel with
  | some hexit =>
    cases hexit with
    | done hdone => exact ⟨_, rfl, hdone⟩

/-! ## What a connection has read -/

/-- The last piece is fed behind the others. -/
theorem feeds_concat {pieces : List Bytes} {piece : Bytes} {s : ParseRun} {x : Exit Exn ParseRun}
    (h : Feeds maxSize pieces r (.done s))
    (hlast : Evaluates rawNonempty (parseBody maxSize) (s.append piece) x) :
    Feeds maxSize (pieces ++ [piece]) r x := by
  induction pieces generalizing r with
  | nil =>
    cases feeds_nil_iff.mp h
    cases x with
    | done s' => exact feeds_cons_iff.mpr (.inr ⟨s', hlast, feeds_nil_iff.mpr rfl⟩)
    | raised e s' => exact feeds_cons_iff.mpr (.inl ⟨e, s', hlast, rfl⟩)
  | cons first pieces ih =>
    obtain ⟨r₁, hfirst, hrest⟩ := feeds_cons_done h
    exact feeds_cons_iff.mpr (.inr ⟨r₁, hfirst, ih hrest⟩)

/-- The parser of a new connection from an address. -/
abbrev newParser (isRequest : Bool) (ip : Bytes) : ParseRun := .opened isRequest { ip }

/-- The handler has read the pieces and passed the messages on: the parser of a new connection
that is fed the pieces comes to where the handler stands, and passes on the same. -/
def HasRead (maxSize : ℕ) (h : NormalConnHandler) (pieces : List Bytes)
    (ms : List HttpContext) : Prop :=
  ∃ r, Feeds maxSize pieces (newParser h.isRequest h.connHandler.ip) (.done r) ∧
    SameParser r.handler h ∧ r.passed = ms

/-- A new parser has read nothing. -/
theorem hasRead_opened (isRequest : Bool) (connHandler : ConnHandler) :
    HasRead maxSize { isRequest, connHandler } [] [] :=
  ⟨_, feeds_nil_iff.mpr rfl, ⟨rfl, rfl, rfl, rfl, rfl⟩, rfl⟩

/-- What was read depends on the parser only. -/
theorem HasRead.congr {h h' : NormalConnHandler} {pieces : List Bytes} {ms : List HttpContext}
    (hread : HasRead maxSize h pieces ms) (hsame : SameParser h h') :
    HasRead maxSize h' pieces ms := by
  obtain ⟨r, hfeeds, hparser, hpassed⟩ := hread
  refine ⟨r, ?_, hparser.trans hsame, hpassed⟩
  rw [hsame.side, hsame.ip]
  exact hfeeds

/-- The piece that a read event gives to the parser, if it calls it. -/
def pieceRead (h : NormalConnHandler) (ev : ReadEvent) : List Bytes :=
  if ready h.connHandler.handshakeDone ev && !reports h.connHandler.handshakeDone ev then
    [received h.connHandler.handshakeDone ev]
  else []

/-- **A read event that does not close the connection** feeds its piece to the parser. -/
theorem HasRead.event {h : NormalConnHandler} {pieces : List Bytes} {ms : List HttpContext}
    (hread : HasRead maxSize h pieces ms) {ev : ReadEvent} {r : ParseRun}
    (hev : handleReadEvent maxSize fuel ev { handler := h } = some (false, .done r)) :
    HasRead maxSize r.handler (pieces ++ pieceRead h ev) (ms ++ r.passed) := by
  obtain ⟨r₁, hfeeds, hparser, hpassed⟩ := hread
  obtain ⟨conn, hip, -, heq⟩ := @handleReadEvent_eq maxSize ev { handler := h }
  rw [heq] at hev
  dsimp only at hev hip
  unfold pieceRead
  split at hev
  · cases hev
  · rename_i hreports
    split at hev
    · rename_i hready
      obtain ⟨exit, hparse, hexit⟩ := Option.map_eq_some_iff.mp hev
      cases hexit
      have hready : ready h.connHandler.handshakeDone ev = true := hready
      have hreports : reports h.connHandler.handshakeDone ev = false := by simpa using hreports
      rw [hready, hreports]
      -- the parser of the new connection stands where the handler does, and goes on like it
      have halike : Agreeing r₁.passed { handler := { h with connHandler := conn } } r₁ :=
        ⟨⟨hparser.state.symm, hparser.tmp.symm, hparser.raw.symm, hparser.side.symm,
          (hip.trans hparser.ip).symm⟩, by simp⟩
      obtain ⟨r₂, hparse₂, hsame⟩ := parse_done_alike (halike.append _) hparse
      have hsending := parse_apart hparse
      have hside : r.handler.isRequest = h.isRequest := hsending.isRequest
      have hconn : r.handler.connHandler = conn := hsending.conn
      refine ⟨r₂, feeds_concat ?_ ⟨fuel, hparse₂⟩, ?_, ?_⟩
      · rw [hside, hconn, hip]
        exact hfeeds
      · exact ⟨hsame.parser.state.symm, hsame.parser.tmp.symm, hsame.parser.raw.symm,
          hsame.parser.side.symm, hsame.parser.ip.symm⟩
      · rw [hsame.passed, hpassed]
    · rename_i hready
      cases hev
      have hready : ready h.connHandler.handshakeDone ev = false := by simpa using hready
      have hnone : received h.connHandler.handshakeDone ev = [] := by simp [received, hready]
      rw [hready, hnone]
      have hsame : HasRead maxSize h (pieces ++ []) (ms ++ []) := by
        rw [List.append_nil, List.append_nil]
        exact ⟨r₁, hfeeds, hparser, hpassed⟩
      exact hsame.congr ⟨rfl, rfl, by simp [ParseRun.append], rfl, hip⟩

end PkuyoProxy.Analysis
