import PkuyoProxy.Interface.Framer
import PkuyoProxy.Model.Parser

/-!
# The parser's loops read what the byte-by-byte reader reads

Running `Framer.machine` over the bytes in `rawBuffer` gives the final parser state and
the messages of a call of `parse_http_context` (`reading`).  Every round of the two loops
keeps that result (`readHeaders_keeps` to `readChunkData_keeps`), so the call ends in it:
`parse_meets` says that the call raises when the reader fails, never returns when a
chunk-size line is left unfinished, and otherwise returns with the reader's state and
messages.  A call that runs out of bytes behind a chunk's data goes on to expect a size
line at once, which is why `settle` forgets `chunkEnd`.
-/

set_option autoImplicit false

namespace PkuyoProxy.Analysis

open PkuyoProxy.Lib PkuyoProxy.Model PkuyoProxy.Interface
open PkuyoProxy.Model.NormalConnHandler

/-! ## The result of reading the buffer -/

/-- The phase of the reader in a state of the parser. -/
def phaseOf : ConnState → Phase
  | .readHeaders => .headers
  | .readBody => .body
  | .readChunkSize => .chunkSize
  | .readChunkData => .chunkData

/-- The state of the parser in a phase of the reader. -/
def stateOf : Phase → ConnState
  | .headers => .readHeaders
  | .body => .readBody
  | .chunkSize => .readChunkSize
  | .chunkData => .readChunkData
  | .chunkEnd => .readChunkSize
  | .failed _ => .readHeaders

/-- The parser does not remember that it has just read the data of a chunk. -/
def settle (f : Framer) : Framer :=
  if f.phase = .chunkEnd then { f with phase := .chunkSize } else f

/-- The parser state of a handler, without the bytes in its buffer. -/
def reader (h : NormalConnHandler) : Framer := ⟨phaseOf h.state, h.tmpContext, []⟩

/-- What the handler's buffer makes of its parser state and of the messages passed. -/
def reading (maxSize : ℕ) (r : ParseRun) : Framer × List HttpContext :=
  let o := (Framer.machine maxSize r.handler.connHandler.ip r.handler.isRequest).run
    (reader r.handler) r.handler.rawBuffer
  (settle o.1, r.passed ++ o.2)

/-- The handler with the parser state and buffer of a reader. -/
def restore (h : NormalConnHandler) (f : Framer) : NormalConnHandler :=
  { h with state := stateOf f.phase, tmpContext := f.tmp, rawBuffer := f.pending }

/-- What parsing leaves alone: everything but the parser state and the buffer. -/
def frame (h : NormalConnHandler) : NormalConnHandler := restore h Framer.fresh

/-- A body or chunk under way lacks at least one byte. -/
def Ready (h : NormalConnHandler) : Prop :=
  h.state = .readBody ∨ h.state = .readChunkData → 0 < h.tmpContext.data

/-- No state of the parser is a failure of the reader. -/
@[simp] theorem phaseOf_ne_failed (s : ConnState) (e : Exn) : phaseOf s ≠ .failed e := by
  cases s <;> simp [phaseOf]

/-- No state of the parser is the end of a chunk. -/
@[simp] theorem phaseOf_ne_chunkEnd (s : ConnState) : phaseOf s ≠ .chunkEnd := by
  cases s <;> simp [phaseOf]

/-- The state is the one of its phase. -/
@[simp] theorem stateOf_phaseOf (s : ConnState) : stateOf (phaseOf s) = s := by
  cases s <;> rfl

/-- Restoring depends on what parsing leaves alone only. -/
theorem restore_congr {h h' : NormalConnHandler} (hf : frame h' = frame h) (f : Framer) :
    restore h' f = restore h f := by
  have := congrArg (restore · f) hf
  simpa [frame, restore] using this

/-- An empty buffer reads as nothing. -/
theorem reading_nil {maxSize : ℕ} {r : ParseRun} (h : r.handler.rawBuffer = []) :
    reading maxSize r = (reader r.handler, r.passed) := by
  simp [reading, h, settle, reader]

/-! ## Every round keeps the result -/

/-- What a round may do: go on or leave with the same result, or raise when the reader
fails. -/
def Keeps (maxSize : ℕ) (r : ParseRun) : Flow Exn ParseRun → Prop
  | .next r' | .leave r' =>
    Ready r'.handler ∧ frame r'.handler = frame r.handler ∧ reading maxSize r' = reading maxSize r
  | .raise e r' => (reading maxSize r).1.phase = .failed e ∧ r'.passed = (reading maxSize r).2

/-- A block is followed by a line end where the blank line behind it begins. -/
theorem take_add_two_of_find {raw : Bytes} {e : ℕ} (h : find (crlf ++ crlf) raw = some e) :
    raw.take (e + 2) = raw.take e ++ crlf := by
  have hsplit := take_append_drop_of_find h
  have hlen := find_add_length_le h
  have h4 : (crlf ++ crlf).length = 4 := rfl
  conv_lhs => rw [← hsplit]
  rw [show raw.take e ++ (crlf ++ crlf) ++ raw.drop (e + (crlf ++ crlf).length) =
    (raw.take e ++ crlf) ++ (crlf ++ raw.drop (e + (crlf ++ crlf).length)) by simp]
  exact List.take_left' (by simp [crlf]; omega)

/-- **What a round in `READ_HEADERS` does**, by the block in front of the buffer and by what
`process_http_headers` makes of it. -/
inductive HeaderRound (maxSize : ℕ) (r : ParseRun) : Flow Exn ParseRun → Prop
  | incomplete (hf : find (crlf ++ crlf) r.handler.rawBuffer = none) :
      HeaderRound maxSize r (.leave r)
  | chunked {e len : ℕ} {tmp : HttpContext}
      (hf : find (crlf ++ crlf) r.handler.rawBuffer = some e)
      (hp : processHttpHeaders { header := r.handler.rawBuffer.take e ++ crlf }
        r.handler.connHandler.ip r.handler.isRequest = (tmp, true, len)) :
      HeaderRound maxSize r (.next { r with handler := { r.handler with
        state := .readChunkSize, tmpContext := tmp }.logAccess.eraseRaw (e + 4) })
  | skipped {e : ℕ} {tmp : HttpContext}
      (hf : find (crlf ++ crlf) r.handler.rawBuffer = some e)
      (hp : processHttpHeaders { header := r.handler.rawBuffer.take e ++ crlf }
        r.handler.connHandler.ip r.handler.isRequest = (tmp, false, npos)) :
      HeaderRound maxSize r (.next { r with handler := { r.handler with
        tmpContext := { tmp with data := npos } }.eraseRaw (e + 4) })
  | bodiless {e : ℕ} {tmp : HttpContext}
      (hf : find (crlf ++ crlf) r.handler.rawBuffer = some e)
      (hp : processHttpHeaders { header := r.handler.rawBuffer.take e ++ crlf }
        r.handler.connHandler.ip r.handler.isRequest = (tmp, false, 0)) {r' : ParseRun}
      (hr' : r' = ParseRun.complete { r with handler := { r.handler with
        state := .readBody, tmpContext := { tmp with data := 0 } }.logAccess }) :
      HeaderRound maxSize r (.next { r' with handler := r'.handler.eraseRaw (e + 4) })
  | tooLong {e len : ℕ} {tmp : HttpContext}
      (hf : find (crlf ++ crlf) r.handler.rawBuffer = some e)
      (hp : processHttpHeaders { header := r.handler.rawBuffer.take e ++ crlf }
        r.handler.connHandler.ip r.handler.isRequest = (tmp, false, len))
      (hnpos : len ≠ npos) (hzero : len ≠ 0) (hmax : maxSize < len) :
      HeaderRound maxSize r (.raise (reserveExn len) { r with handler := { r.handler with
        state := .readBody, tmpContext := { tmp with data := len } }.logAccess })
  | sized {e len : ℕ} {tmp : HttpContext}
      (hf : find (crlf ++ crlf) r.handler.rawBuffer = some e)
      (hp : processHttpHeaders { header := r.handler.rawBuffer.take e ++ crlf }
        r.handler.connHandler.ip r.handler.isRequest = (tmp, false, len))
      (hnpos : len ≠ npos) (hzero : len ≠ 0) (hmax : ¬ maxSize < len) :
      HeaderRound maxSize r (.next { r with handler := { r.handler with
        state := .readBody, tmpContext := { tmp with data := len } }.logAccess.eraseRaw (e + 4) })

/-- Reading a header block does what `HeaderRound` says. -/
theorem readHeaders_round (maxSize : ℕ) (r : ParseRun) :
    HeaderRound maxSize r (readHeaders maxSize r) := by
  unfold readHeaders
  cases hf : find (crlf ++ crlf) r.handler.rawBuffer with
  | none => exact .incomplete hf
  | some e =>
    simp only [take_add_two_of_find hf, HttpContext.reset_eq]
    obtain ⟨⟨tmp, isChunk, len⟩, hp⟩ : ∃ parsed,
      processHttpHeaders { header := r.handler.rawBuffer.take e ++ crlf }
        r.handler.connHandler.ip r.handler.isRequest = parsed := ⟨_, rfl⟩
    rw [hp]
    dsimp only
    cases isChunk with
    | true => exact .chunked hf hp
    | false =>
      rw [if_neg Bool.false_ne_true]
      by_cases hnpos : len = npos
      · subst hnpos
        exact .skipped hf hp
      · rw [if_neg hnpos]
        by_cases hzero : len = 0
        · subst hzero
          exact .bodiless hf hp rfl
        · rw [if_neg hzero]
          by_cases hmax : maxSize < len
          · rw [if_pos hmax]
            exact .tooLong hf hp hnpos hzero hmax
          · rw [if_neg hmax]
            exact .sized hf hp hnpos hzero hmax

/-- **What a round in `READ_BODY` does**: it takes the rest of the body, or all that has arrived. -/
inductive BodyRound (r : ParseRun) : Flow Exn ParseRun → Prop
  | ended (hle : r.handler.tmpContext.data ≤ r.handler.rawBuffer.length) {r' : ParseRun}
      (hr' : r' = ParseRun.complete
        { r with handler := r.handler.takeContent r.handler.tmpContext.data }) :
      BodyRound r (.next r')
  | underWay (hlt : r.handler.rawBuffer.length < r.handler.tmpContext.data) :
      BodyRound r (.next { r with handler := r.handler.takeContent r.handler.rawBuffer.length })

/-- Reading a body does what `BodyRound` says. -/
theorem readBody_round (r : ParseRun) : BodyRound r (readBody r) := by
  unfold readBody
  rcases Nat.lt_or_ge r.handler.rawBuffer.length r.handler.tmpContext.data with hlt | hge
  · have hmin : min r.handler.tmpContext.data r.handler.rawBuffer.length =
        r.handler.rawBuffer.length := by omega
    have hne : r.handler.tmpContext.data - r.handler.rawBuffer.length ≠ 0 := by omega
    simp only [hmin, takeContent, if_neg hne]
    exact .underWay hlt
  · have hmin : min r.handler.tmpContext.data r.handler.rawBuffer.length =
        r.handler.tmpContext.data := by omega
    simp only [hmin, takeContent, Nat.sub_self, if_true]
    exact .ended hge (by simp only [takeContent, Nat.sub_self])

/-- **What a round in `READ_CHUNK_SIZE` does**, by the line in front of the buffer and the number
in it. -/
inductive SizeRound (r : ParseRun) : Flow Exn ParseRun → Prop
  | incomplete (hf : find crlf r.handler.rawBuffer = none) : SizeRound r (.leave r)
  | malformed {e : ℕ} {x : Exn} (hf : find crlf r.handler.rawBuffer = some e)
      (hsize : stoul 16 (r.handler.rawBuffer.take e) = .error x) : SizeRound r (.raise x r)
  | last {e : ℕ} (hf : find crlf r.handler.rawBuffer = some e)
      (hsize : stoul 16 (r.handler.rawBuffer.take e) = .ok 0) {r' : ParseRun}
      (hr' : r' = ParseRun.complete { r with handler := r.handler.eraseRaw (e + 2) }) :
      SizeRound r (.leave r')
  | chunk {e size : ℕ} (hf : find crlf r.handler.rawBuffer = some e)
      (hsize : stoul 16 (r.handler.rawBuffer.take e) = .ok size) (hne : size ≠ 0) :
      SizeRound r (.next { r with handler := { r.handler.eraseRaw (e + 2) with
        state := .readChunkData, tmpContext := { r.handler.tmpContext with data := size } } })

/-- Reading the size of a chunk does what `SizeRound` says. -/
theorem readChunkSize_round (r : ParseRun) : SizeRound r (readChunkSize r) := by
  unfold readChunkSize
  cases hf : find crlf r.handler.rawBuffer with
  | none => exact .incomplete hf
  | some e =>
    dsimp only
    cases hsize : stoul 16 (r.handler.rawBuffer.take e) with
    | error x => exact .malformed hf hsize
    | ok size =>
      dsimp only
      by_cases hzero : size = 0
      · subst hzero
        exact .last hf hsize rfl
      · rw [if_neg hzero]
        exact .chunk hf hsize hzero

/-- **What a round in `READ_CHUNK_DATA` does**: it takes the rest of the chunk, and the line end
behind it if that has arrived, or all that has arrived. -/
inductive DataRound (r : ParseRun) : Flow Exn ParseRun → Prop
  | terminated (hle : r.handler.tmpContext.data ≤ r.handler.rawBuffer.length)
      (hend : crlf <+: r.handler.rawBuffer.drop r.handler.tmpContext.data) :
      DataRound r (.next { r with handler :=
        { (r.handler.takeContent r.handler.tmpContext.data).eraseRaw 2 with
          state := .readChunkSize } })
  | unterminated (hle : r.handler.tmpContext.data ≤ r.handler.rawBuffer.length)
      (hend : ¬ crlf <+: r.handler.rawBuffer.drop r.handler.tmpContext.data) :
      DataRound r (.next { r with handler :=
        { r.handler.takeContent r.handler.tmpContext.data with state := .readChunkSize } })
  | underWay (hlt : r.handler.rawBuffer.length < r.handler.tmpContext.data) :
      DataRound r (.next { r with handler := r.handler.takeContent r.handler.rawBuffer.length })

/-- Reading the data of a chunk does what `DataRound` says. -/
theorem readChunkData_round (r : ParseRun) : DataRound r (readChunkData r) := by
  unfold readChunkData
  rcases Nat.lt_or_ge r.handler.rawBuffer.length r.handler.tmpContext.data with hlt | hge
  · have hmin : min r.handler.tmpContext.data r.handler.rawBuffer.length =
        r.handler.rawBuffer.length := by omega
    have hne : r.handler.tmpContext.data - r.handler.rawBuffer.length ≠ 0 := by omega
    simp only [hmin, takeContent, if_neg hne]
    exact .underWay hlt
  · have hmin : min r.handler.tmpContext.data r.handler.rawBuffer.length =
        r.handler.tmpContext.data := by omega
    have hdata : (r.handler.takeContent r.handler.tmpContext.data).tmpContext.data = 0 :=
      Nat.sub_self _
    simp only [hmin, if_pos hdata]
    by_cases hend : crlf <+: (r.handler.takeContent r.handler.tmpContext.data).rawBuffer
    · simp only [if_pos hend]
      exact .terminated hge hend
    · simp only [if_neg hend]
      exact .unterminated hge hend

/-- The reader behind a header block. -/
theorem reading_headers {maxSize e : ℕ} {r : ParseRun} (hs : r.handler.state = .readHeaders)
    (hf : find (crlf ++ crlf) r.handler.rawBuffer = some e) :
    reading maxSize r =
      (let o := Framer.continueWith maxSize r.handler.connHandler.ip r.handler.isRequest
        (Framer.openMessage maxSize r.handler.connHandler.ip r.handler.isRequest
          (r.handler.rawBuffer.take e)) (r.handler.rawBuffer.drop (e + 4))
      (settle o.1, r.passed ++ o.2)) := by
  rw [reading, reader, hs, phaseOf, Framer.run_headers_some hf]

/-- Reading a header block keeps to the result of the reader. -/
theorem readHeaders_keeps (maxSize : ℕ) {r : ParseRun} (hs : r.handler.state = .readHeaders) :
    Keeps maxSize r (readHeaders maxSize r) := by
  have hround := readHeaders_round maxSize r
  generalize readHeaders maxSize r = f at hround ⊢
  cases hround with
  | incomplete => exact ⟨by simp [Ready, hs], rfl, rfl⟩
  | chunked hf hp =>
    have hrun := @reading_headers maxSize _ r hs hf
    rw [Framer.openMessage, hp] at hrun
    exact ⟨by simp [Ready, eraseRaw, logAccess], rfl, by rw [hrun]; rfl⟩
  | skipped hf hp =>
    have hrun := @reading_headers maxSize _ r hs hf
    rw [Framer.openMessage, hp] at hrun
    refine ⟨by simp [Ready, eraseRaw, hs], rfl, ?_⟩
    rw [hrun]
    simp [reading, reader, eraseRaw, hs, phaseOf, Framer.continueWith]
  | bodiless hf hp hr' =>
    have hrun := @reading_headers maxSize _ r hs hf
    rw [Framer.openMessage, hp] at hrun
    have hnpos : 0 ≠ npos := by decide
    simp only [Bool.false_eq_true, if_false, if_neg hnpos, if_true] at hrun
    subst hr'
    refine ⟨by simp [Ready, eraseRaw, ParseRun.complete], rfl, ?_⟩
    rw [hrun]
    simp [reading, reader, eraseRaw, ParseRun.complete, phaseOf, Framer.continueWith,
      Framer.emit, logAccess]
  | tooLong hf hp hnpos hzero hmax =>
    have hrun := @reading_headers maxSize _ r hs hf
    rw [Framer.openMessage, hp] at hrun
    simp only [Bool.false_eq_true, if_false, if_neg hnpos, if_neg hzero, if_pos hmax,
      Framer.continueWith, Framer.run_failed] at hrun
    exact ⟨by rw [hrun]; simp [settle], by rw [hrun]; simp⟩
  | sized hf hp hnpos hzero hmax =>
    have hrun := @reading_headers maxSize _ r hs hf
    rw [Framer.openMessage, hp] at hrun
    simp only [Bool.false_eq_true, if_false, if_neg hnpos, if_neg hzero, if_neg hmax] at hrun
    refine ⟨?_, rfl, ?_⟩
    · intro _
      simp only [eraseRaw, logAccess, extractHead_data]
      omega
    · rw [hrun]
      rfl

/-- Reading a body keeps to the result of the reader. -/
theorem readBody_keeps (maxSize : ℕ) {r : ParseRun} (hs : r.handler.state = .readBody)
    (hr : Ready r.handler) : Keeps maxSize r (readBody r) := by
  have hpos := hr (.inl hs)
  have hround := readBody_round r
  generalize readBody r = f at hround ⊢
  cases hround with
  | ended hle hr' =>
    subst hr'
    refine ⟨by simp [Ready, ParseRun.complete], rfl, ?_⟩
    simp [takeContent, reading, reader, hs, phaseOf, Framer.run_body_le hpos hle,
      Framer.withContent, ParseRun.complete, Framer.continueWith, Framer.emit]
  | underWay hlt =>
    refine ⟨?_, rfl, ?_⟩
    · intro _
      simp only [takeContent]
      omega
    · simp [takeContent, reading, reader, hs, phaseOf, Framer.run_body_lt hlt, Framer.withContent]

/-- The reader behind a size line. -/
theorem reading_sizeLine_some {maxSize e : ℕ} {r : ParseRun}
    (hs : r.handler.state = .readChunkSize) (hf : find crlf r.handler.rawBuffer = some e) :
    reading maxSize r =
      (let o := Framer.continueWith maxSize r.handler.connHandler.ip r.handler.isRequest
        (Framer.openChunk r.handler.tmpContext (r.handler.rawBuffer.take e))
        (r.handler.rawBuffer.drop (e + 2))
      (settle o.1, r.passed ++ o.2)) := by
  rw [reading, reader, hs, phaseOf, Framer.run_chunkSize_some hf]

/-- Reading the size of a chunk keeps to the result of the reader. -/
theorem readChunkSize_keeps (maxSize : ℕ) {r : ParseRun} (hs : r.handler.state = .readChunkSize) :
    Keeps maxSize r (readChunkSize r) := by
  have hround := readChunkSize_round r
  generalize readChunkSize r = f at hround ⊢
  cases hround with
  | incomplete => exact ⟨by simp [Ready, hs], rfl, rfl⟩
  | malformed hf hsize =>
    have hrun := @reading_sizeLine_some maxSize _ r hs hf
    simp only [Framer.openChunk, hsize, Framer.continueWith, Framer.run_failed] at hrun
    exact ⟨by rw [hrun]; simp [settle], by rw [hrun]; simp⟩
  | last hf hsize hr' =>
    have hrun := @reading_sizeLine_some maxSize _ r hs hf
    simp only [Framer.openChunk, hsize, if_true] at hrun
    subst hr'
    refine ⟨by simp [Ready, ParseRun.complete], rfl, ?_⟩
    rw [hrun]
    simp [reading, reader, eraseRaw, ParseRun.complete, phaseOf, Framer.continueWith, Framer.emit]
  | chunk hf hsize hne =>
    have hrun := @reading_sizeLine_some maxSize _ r hs hf
    simp only [Framer.openChunk, hsize, if_neg hne] at hrun
    refine ⟨?_, rfl, ?_⟩
    · intro _
      simp only
      omega
    · rw [hrun]
      simp [reading, reader, eraseRaw, phaseOf, Framer.continueWith]

/-- Behind a chunk, expecting its terminator and expecting a size line come to the same
unless the terminator is there. -/
theorem settle_run_chunkEnd (maxSize : ℕ) (ip : Bytes) (isRequest : Bool) (tmp : HttpContext)
    {xs : Bytes} (h : ¬ crlf <+: xs) :
    settle ((Framer.machine maxSize ip isRequest).run ⟨.chunkEnd, tmp, []⟩ xs).1 =
        settle ((Framer.machine maxSize ip isRequest).run ⟨.chunkSize, tmp, []⟩ xs).1 ∧
      ((Framer.machine maxSize ip isRequest).run ⟨.chunkEnd, tmp, []⟩ xs).2 =
        ((Framer.machine maxSize ip isRequest).run ⟨.chunkSize, tmp, []⟩ xs).2 := by
  rw [Framer.run_chunkEnd_other h]
  by_cases hlen : xs.length < 2
  · have hnone : find crlf xs = none := by
      cases hf : find crlf xs with
      | none => rfl
      | some e =>
        have := find_add_length_le hf
        simp only [crlf, List.length_cons, List.length_nil] at this
        omega
    rw [if_pos hlen, Framer.run_chunkSize_none hnone]
    exact ⟨rfl, rfl⟩
  · rw [if_neg hlen]
    exact ⟨rfl, rfl⟩

/-- Reading the data of a chunk keeps to the result of the reader. -/
theorem readChunkData_keeps (maxSize : ℕ) {r : ParseRun} (hs : r.handler.state = .readChunkData)
    (hr : Ready r.handler) : Keeps maxSize r (readChunkData r) := by
  have hpos := hr (.inr hs)
  have hround := readChunkData_round r
  generalize readChunkData r = f at hround ⊢
  cases hround with
  | terminated hle hend =>
    refine ⟨by simp [Ready], rfl, ?_⟩
    obtain ⟨rest, hrest⟩ := hend
    have hdrop : (crlf ++ rest).drop 2 = rest := rfl
    simp [takeContent, reading, reader, hs, phaseOf, Framer.run_chunkData_le hpos hle, ← hrest,
      Framer.run_chunkEnd_crlf, eraseRaw, hdrop, Framer.withContent]
  | unterminated hle hend =>
    refine ⟨by simp [Ready], rfl, ?_⟩
    obtain ⟨hstate, hout⟩ := settle_run_chunkEnd maxSize r.handler.connHandler.ip
      r.handler.isRequest (Framer.withContent r.handler.tmpContext 0
        (r.handler.tmpContext.content ++ r.handler.rawBuffer.take r.handler.tmpContext.data)) hend
    simp only [takeContent, Nat.sub_self, reading, reader, hs, phaseOf,
      Framer.run_chunkData_le hpos hle, hstate, hout]
    rfl
  | underWay hlt =>
    refine ⟨?_, rfl, ?_⟩
    · intro _
      simp only [takeContent]
      omega
    · simp [takeContent, reading, reader, hs, phaseOf, Framer.run_chunkData_lt hlt,
        Framer.withContent]

/-! ## The inner loop -/

/-- How `parse_chunked_content` leaves: at the end of the buffer, behind a message, or in
front of an incomplete size line. -/
def ChunkExit (r : ParseRun) (n : ℕ) : Prop :=
  r.handler.rawBuffer = [] ∨
    (r.handler.state = .readHeaders ∧ r.handler.rawBuffer.length < n) ∨
    (r.handler.state = .readChunkSize ∧ find crlf r.handler.rawBuffer = none)

/-- The state of the inner loop. -/
structure InChunk (maxSize : ℕ) (r s : ParseRun) : Prop where
  state : s.handler.state = .readChunkSize ∨ s.handler.state = .readChunkData
  ready : Ready s.handler
  frame : frame s.handler = frame r.handler
  reading : reading maxSize s = reading maxSize r
  length : s.handler.rawBuffer.length ≤ r.handler.rawBuffer.length

/-- Behind a line there are at least two bytes fewer. -/
theorem drop_behind_line {raw : Bytes} {e : ℕ} (hf : find crlf raw = some e) :
    (raw.drop (e + 2)).length + 2 ≤ raw.length := by
  have hlen := find_add_length_le hf
  simp only [crlf, List.length_cons, List.length_nil] at hlen
  rw [List.length_drop]
  omega

/-- Behind a size line the parser reads data, of a shorter buffer. -/
theorem readChunkSize_next {r r' : ParseRun} (h : readChunkSize r = .next r') :
    r'.handler.state = .readChunkData ∧
      r'.handler.rawBuffer.length + 2 ≤ r.handler.rawBuffer.length := by
  have hround := readChunkSize_round r
  rw [h] at hround
  cases hround with
  | chunk hf => exact ⟨rfl, drop_behind_line hf⟩

/-- The loop is left for lack of a line end, or behind the last chunk. -/
theorem readChunkSize_leave {r r' : ParseRun} (h : readChunkSize r = .leave r') :
    r' = r ∧ find crlf r.handler.rawBuffer = none ∨
      r'.handler.state = .readHeaders ∧
        r'.handler.rawBuffer.length + 2 ≤ r.handler.rawBuffer.length := by
  have hround := readChunkSize_round r
  rw [h] at hround
  cases hround with
  | incomplete hf => exact .inl ⟨rfl, hf⟩
  | last hf _ hr' =>
    rw [hr']
    exact .inr ⟨rfl, drop_behind_line hf⟩

/-- Reading data goes on, with a shorter buffer. -/
theorem readChunkData_next {r : ParseRun} (hpos : 0 < r.handler.tmpContext.data)
    (hraw : r.handler.rawBuffer ≠ []) :
    ∃ r', readChunkData r = .next r' ∧
      (r'.handler.state = .readChunkSize ∨ r'.handler.state = r.handler.state) ∧
      r'.handler.rawBuffer.length < r.handler.rawBuffer.length := by
  have hlen := List.length_pos_iff.mpr hraw
  have hround := readChunkData_round r
  generalize readChunkData r = f at hround ⊢
  cases hround with
  | terminated hle hend =>
    refine ⟨_, rfl, .inl rfl, ?_⟩
    simp only [takeContent, eraseRaw, List.length_drop]
    omega
  | unterminated hle hend =>
    refine ⟨_, rfl, .inl rfl, ?_⟩
    simp only [takeContent, List.length_drop]
    omega
  | underWay hlt =>
    refine ⟨_, rfl, .inr rfl, ?_⟩
    simp only [takeContent, List.length_drop]
    omega

/-- The measure of the inner loop. -/
def chunkMeasure (r : ParseRun) : ℕ :=
  2 * r.handler.rawBuffer.length + if r.handler.state = .readChunkData then 1 else 0

/-- **What a round of the inner loop does**: it keeps to the reader, and goes on with less or
leaves. -/
theorem chunkBody_spec (maxSize : ℕ) {r s : ParseRun} (hI : InChunk maxSize r s)
    (hg : rawNonempty s = true) :
    ∃ f, chunkBody s = some f ∧ Keeps maxSize s f ∧
      (∀ s', f = .next s' → InChunk maxSize r s' ∧ chunkMeasure s' < chunkMeasure s) ∧
      (∀ s', f = .leave s' → ChunkExit s' r.handler.rawBuffer.length) := by
  have hraw : s.handler.rawBuffer ≠ [] := by simpa [rawNonempty] using hg
  rcases hI.state with hs | hs
  · have hk := readChunkSize_keeps maxSize hs
    refine ⟨readChunkSize s, by simp [chunkBody, hs], hk, ?_, ?_⟩
    · intro s' hf
      obtain ⟨hs', hlt⟩ := readChunkSize_next hf
      rw [hf] at hk
      obtain ⟨hready, hframe, hread⟩ := hk
      refine ⟨⟨.inr hs', hready, hframe.trans hI.frame, hread.trans hI.reading, ?_⟩, ?_⟩
      · exact le_trans (by omega) hI.length
      · simp only [chunkMeasure, hs, hs', reduceCtorEq, if_true, if_false]
        omega
    · intro s' hf
      have hle := hI.length
      rcases readChunkSize_leave hf with ⟨rfl, hnone⟩ | ⟨hs', hlt⟩
      · exact .inr (.inr ⟨hs, hnone⟩)
      · exact .inr (.inl ⟨hs', by omega⟩)
  · have hk := readChunkData_keeps maxSize hs hI.ready
    obtain ⟨s₁, hf, hs', hlt⟩ := readChunkData_next (hI.ready (.inr hs)) hraw
    rw [hf] at hk
    refine ⟨.next s₁, by simp [chunkBody, hs, hf], hk, ?_, by simp⟩
    rintro s' ⟨⟩
    obtain ⟨hready, hframe, hread⟩ := hk
    refine ⟨⟨hs'.imp_right (·.trans hs), hready, hframe.trans hI.frame,
      hread.trans hI.reading, by have := hI.length; omega⟩, ?_⟩
    simp only [chunkMeasure, hs, if_true]
    split <;> omega

/-- What a call of `parse_chunked_content` may end with. -/
def ChunkResult (maxSize : ℕ) (r : ParseRun) : Exit Exn ParseRun → Prop
  | .done s => Keeps maxSize r (.next s) ∧ ChunkExit s r.handler.rawBuffer.length
  | .raised e s => Keeps maxSize r (.raise e s)

/-- `parse_chunked_content` always returns or raises, keeps the result, and stops where
`ChunkExit` says. -/
theorem parseChunkedContent_spec (maxSize : ℕ) {r : ParseRun}
    (hs : r.handler.state = .readChunkSize ∨ r.handler.state = .readChunkData)
    (hr : Ready r.handler) :
    ∃ x, parseChunkedContent r = some x ∧ ChunkResult maxSize r x := by
  have hI : InChunk maxSize r r := ⟨hs, hr, rfl, rfl, le_rfl⟩
  have hfuel : chunkMeasure r < chunkFuel r := by
    unfold chunkMeasure chunkFuel
    split <;> omega
  obtain ⟨x, hx⟩ := whileLoop_isSome (InChunk maxSize r) chunkMeasure
    (fun s hI hg => by
      obtain ⟨f, hf, -, hnext, -⟩ := chunkBody_spec maxSize hI hg
      exact ⟨f, hf, hnext⟩) hI hfuel
  refine ⟨x, hx, Evaluates.invariant (InChunk maxSize r) (ChunkResult maxSize r)
    ?_ ?_ ?_ ?_ hI ⟨_, hx⟩⟩
  · intro s hI hg
    exact ⟨⟨hI.ready, hI.frame, hI.reading⟩, .inl (by simpa [rawNonempty] using hg)⟩
  · intro s s' hI hg hb
    obtain ⟨f, hf, -, hnext, -⟩ := chunkBody_spec maxSize hI hg
    exact (hnext s' (Option.some.inj (hf.symm.trans hb))).1
  · intro s s' hI hg hb
    obtain ⟨f, hf, hk, -, hleave⟩ := chunkBody_spec maxSize hI hg
    obtain rfl : f = .leave s' := Option.some.inj (hf.symm.trans hb)
    obtain ⟨hready, hframe, hread⟩ := hk
    exact ⟨⟨hready, hframe.trans hI.frame, hread.trans hI.reading⟩, hleave s' rfl⟩
  · intro s e s' hI hg hb
    obtain ⟨f, hf, hk, -, -⟩ := chunkBody_spec maxSize hI hg
    obtain rfl : f = .raise e s' := Option.some.inj (hf.symm.trans hb)
    rw [ChunkResult, Keeps, ← hI.reading]
    exact hk

/-! ## The outer loop -/

/-- How a call of `parse_http_context` has to end, given what the reader makes of its
buffer. -/
def Meets (maxSize : ℕ) (r : ParseRun) : Prop :=
  let o := reading maxSize r
  match o.1.phase with
  | .failed e =>
    ∃ r', Evaluates rawNonempty (parseBody maxSize) r (.raised e r') ∧ r'.passed = o.2
  | .chunkSize =>
    if o.1.pending = [] then
      Evaluates rawNonempty (parseBody maxSize) r (.done ⟨restore r.handler o.1, o.2⟩)
    else Diverges rawNonempty (parseBody maxSize) r
  | _ => Evaluates rawNonempty (parseBody maxSize) r (.done ⟨restore r.handler o.1, o.2⟩)

/-- A call that goes on ends as it has to, if what it goes on with does. -/
theorem meets_next {maxSize : ℕ} {r r' : ParseRun} (hg : rawNonempty r = true)
    (hb : parseBody maxSize r = some (.next r')) (hk : Keeps maxSize r (.next r'))
    (h : Meets maxSize r') : Meets maxSize r := by
  obtain ⟨-, hframe, hread⟩ := hk
  unfold Meets at h ⊢
  simp only [hread, restore_congr hframe] at h
  simp only [evaluates_next hg hb, diverges_next hg hb]
  exact h

/-- A call that raises ends as it has to. -/
theorem meets_raise {maxSize : ℕ} {r r' : ParseRun} {e : Exn} (hg : rawNonempty r = true)
    (hb : parseBody maxSize r = some (.raise e r')) (hk : Keeps maxSize r (.raise e r')) :
    Meets maxSize r := by
  obtain ⟨hphase, hpassed⟩ := hk
  unfold Meets
  simp only [hphase]
  exact ⟨r', evaluates_raise hg hb, hpassed⟩

/-- A call with an empty buffer ends as it has to. -/
theorem meets_nil {maxSize : ℕ} {r : ParseRun} (h : r.handler.rawBuffer = []) :
    Meets maxSize r := by
  have hdone : Evaluates rawNonempty (parseBody maxSize) r (.done r) :=
    evaluates_exit (by simp [rawNonempty, h])
  have hrest : (⟨restore r.handler (reader r.handler), r.passed⟩ : ParseRun) = r := by
    cases r with | mk handler passed =>
    simp [restore, reader, ← h]
  unfold Meets
  simp only [reading_nil h, hrest]
  simp only [reader]
  cases r.handler.state <;> simpa [phaseOf] using hdone

/-- Behind a block there are fewer bytes. -/
theorem drop_behind_block {raw : Bytes} {e : ℕ} (hf : find (crlf ++ crlf) raw = some e) :
    (raw.drop (e + 4)).length < raw.length := by
  have hlen := find_add_length_le hf
  have h4 : (crlf ++ crlf).length = 4 := rfl
  rw [List.length_drop]
  omega

/-- Behind a header block the parser goes on with a shorter buffer. -/
theorem readHeaders_next {maxSize : ℕ} {r r' : ParseRun} (h : readHeaders maxSize r = .next r') :
    r'.handler.rawBuffer.length < r.handler.rawBuffer.length := by
  have hround := readHeaders_round maxSize r
  rw [h] at hround
  cases hround with
  | chunked hf | skipped hf | sized hf => exact drop_behind_block hf
  | bodiless hf _ hr' =>
    rw [hr']
    exact drop_behind_block hf

/-- A header block that has not ended leaves the loop and changes nothing. -/
theorem readHeaders_leave {maxSize : ℕ} {r r' : ParseRun} (h : readHeaders maxSize r = .leave r') :
    r' = r ∧ find (crlf ++ crlf) r.handler.rawBuffer = none := by
  have hround := readHeaders_round maxSize r
  rw [h] at hround
  cases hround with
  | incomplete hf => exact ⟨rfl, hf⟩

/-- Reading a body goes on, with a shorter buffer. -/
theorem readBody_next {r : ParseRun} (hpos : 0 < r.handler.tmpContext.data)
    (hraw : r.handler.rawBuffer ≠ []) :
    ∃ r', readBody r = .next r' ∧
      r'.handler.rawBuffer.length < r.handler.rawBuffer.length := by
  have hlen := List.length_pos_iff.mpr hraw
  have hround := readBody_round r
  generalize readBody r = f at hround ⊢
  cases hround with
  | ended hle hr' =>
    refine ⟨_, rfl, ?_⟩
    rw [hr']
    simp only [ParseRun.complete, takeContent, List.length_drop]
    omega
  | underWay hlt =>
    refine ⟨_, rfl, ?_⟩
    simp only [takeContent, List.length_drop]
    omega

/-- In front of an incomplete size line the two loops call each other for ever; an empty
buffer ends the call. -/
theorem meets_partial_size {maxSize : ℕ} {r : ParseRun} (hs : r.handler.state = .readChunkSize)
    (hf : find crlf r.handler.rawBuffer = none) : Meets maxSize r := by
  by_cases hraw : r.handler.rawBuffer = []
  · exact meets_nil hraw
  have hg : rawNonempty r = true := by simpa [rawNonempty] using hraw
  have hinner : parseChunkedContent r = some (.done r) := by
    simp [parseChunkedContent, chunkFuel, whileLoop, hg, chunkBody, hs, readChunkSize, hf]
  have hdiv : Diverges rawNonempty (parseBody maxSize) r :=
    diverges_of_stuck hg (by simp [parseBody, hs, hinner])
  have hread : reading maxSize r =
      (⟨.chunkSize, r.handler.tmpContext, r.handler.rawBuffer⟩, r.passed) := by
    simp [reading, reader, hs, phaseOf, Framer.run_chunkSize_none hf, settle]
  unfold Meets
  simpa [hread, hraw] using hdiv

/-- A call in front of a header block that has not ended ends as it has to. -/
theorem meets_partial_headers {maxSize : ℕ} {r : ParseRun} (hs : r.handler.state = .readHeaders)
    (hg : rawNonempty r = true) (hf : find (crlf ++ crlf) r.handler.rawBuffer = none) :
    Meets maxSize r := by
  have hdone : Evaluates rawNonempty (parseBody maxSize) r (.done r) :=
    evaluates_leave hg (by simp [parseBody, hs, readHeaders, hf])
  have hread : reading maxSize r =
      (⟨.headers, r.handler.tmpContext, r.handler.rawBuffer⟩, r.passed) := by
    simp [reading, reader, hs, phaseOf, Framer.run_headers_none hf, settle]
  have hrest : (⟨restore r.handler ⟨.headers, r.handler.tmpContext, r.handler.rawBuffer⟩,
      r.passed⟩ : ParseRun) = r := by
    cases r with | mk handler passed =>
    simp only at hs
    simp [restore, stateOf, ← hs]
  unfold Meets
  simpa [hread, hrest] using hdone

/-- **The parser reads what the reader reads.** -/
theorem parse_meets (maxSize : ℕ) {r : ParseRun} (hr : Ready r.handler) : Meets maxSize r := by
  induction hn : r.handler.rawBuffer.length using Nat.strong_induction_on generalizing r with
  | _ n ih =>
    subst hn
    by_cases hraw : r.handler.rawBuffer = []
    · exact meets_nil hraw
    have hg : rawNonempty r = true := by simpa [rawNonempty] using hraw
    -- the two chunk states share the inner loop
    have hchunk (hs : r.handler.state = .readChunkSize ∨ r.handler.state = .readChunkData) :
        Meets maxSize r := by
      obtain ⟨x, hx, hres⟩ := parseChunkedContent_spec maxSize hs hr
      cases x with
      | raised e s =>
        exact meets_raise hg (by rcases hs with hs | hs <;> simp [parseBody, hs, hx]) hres
      | done s =>
        obtain ⟨hk, hexit⟩ := hres
        apply meets_next hg (by rcases hs with hs | hs <;> simp [parseBody, hs, hx]) hk
        rcases hexit with h | ⟨-, hlt⟩ | ⟨hs', hf⟩
        · exact meets_nil h
        · exact ih _ hlt hk.1 rfl
        · exact meets_partial_size hs' hf
    cases hs : r.handler.state with
    | readHeaders =>
      have hk := readHeaders_keeps maxSize hs
      cases hf : readHeaders maxSize r with
      | next r' =>
        rw [hf] at hk
        exact meets_next hg (by simp [parseBody, hs, hf]) hk (ih _ (readHeaders_next hf) hk.1 rfl)
      | leave r' => exact meets_partial_headers hs hg (readHeaders_leave hf).2
      | raise e r' =>
        rw [hf] at hk
        exact meets_raise hg (by simp [parseBody, hs, hf]) hk
    | readBody =>
      have hk := readBody_keeps maxSize hs hr
      obtain ⟨r', hf, hlt⟩ := readBody_next (hr (.inl hs)) hraw
      rw [hf] at hk
      exact meets_next hg (by simp [parseBody, hs, hf]) hk (ih _ hlt hk.1 rfl)
    | readChunkSize => exact hchunk (.inl hs)
    | readChunkData => exact hchunk (.inr hs)

/-- A call that returns leaves the handler where the reader stands, which has not failed. -/
theorem parse_done {maxSize : ℕ} {r r' : ParseRun} (hr : Ready r.handler)
    (h : Evaluates rawNonempty (parseBody maxSize) r (.done r')) :
    r' = ⟨restore r.handler (reading maxSize r).1, (reading maxSize r).2⟩ ∧
      ∀ e, (reading maxSize r).1.phase ≠ .failed e := by
  have hm := parse_meets maxSize hr
  unfold Meets at hm
  dsimp only at hm
  split at hm
  · obtain ⟨s, hs, -⟩ := hm
    cases h.unique hs
  · rename_i hphase
    split at hm
    · cases h.unique hm
      exact ⟨rfl, by simp [hphase]⟩
    · exact absurd hm h.not_diverges
  · rename_i hfailed _
    cases h.unique hm
    exact ⟨rfl, hfailed⟩

end PkuyoProxy.Analysis
