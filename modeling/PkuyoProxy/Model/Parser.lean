import PkuyoProxy.Lib.WhileLoop
import PkuyoProxy.Model.NormalConnHandler

/-!
# The incremental parser (proxy_handler.cpp:308-448)

`parseHttpContext` consumes `rawBuffer` and passes completed contexts to
`rev_handler->recv_content`.  The receiving handler never touches the parser of the
sender, so the contexts are collected in `passed`, in order.  `maxSize` is the largest length
that `reserve` gets, which depends on the memory there is: for a larger one it throws
(`reserveExn`).  The two `while` loops are `Lib.whileLoop`; only the outer one needs fuel from
its caller, the inner one consumes a byte or leaves within `chunkFuel` rounds.

The line that `log_access` prints is not checked here against the buffer it is printed to: a run is
the one of the code up to the first line that is too long for it.  `parseHttpContextLogged`
(`AccessLog`) is the parser that ends there.
-/

set_option autoImplicit false

namespace PkuyoProxy.Model

open PkuyoProxy.Lib

/-- The parsing handler and the contexts it has passed to `rev_handler` so far. -/
structure ParseRun where
  handler : NormalConnHandler
  passed : List HttpContext := []
  deriving DecidableEq, Repr

/-- The parser of a new connection (proxy_handler.cpp:229-231). -/
def ParseRun.opened (isRequest : Bool) (connHandler : ConnHandler) : ParseRun :=
  { handler := { isRequest, connHandler } }

namespace NormalConnHandler

/-- proxy_handler.cpp:308-328: what it leaves in the context.  What it prints is `accessLine`, and
what comes of a line that is too long `parseBodyLogged`. -/
def logAccess (h : NormalConnHandler) : NormalConnHandler :=
  { h with tmpContext := extractHead h.isRequest h.tmpContext }

/-- `raw_buffer.erase(0, n)` -/
def eraseRaw (h : NormalConnHandler) (n : ℕ) : NormalConnHandler :=
  { h with rawBuffer := h.rawBuffer.drop n }

/-- `tmp_context.content.append(raw_buffer, n)` and `raw_buffer.erase(0, n)` with the
counter of the union decreased by `n`. -/
def takeContent (h : NormalConnHandler) (n : ℕ) : NormalConnHandler :=
  { h with
    rawBuffer := h.rawBuffer.drop n
    tmpContext := { h.tmpContext with
      content := h.tmpContext.content ++ h.rawBuffer.take n
      data := h.tmpContext.data - n } }

end NormalConnHandler

open NormalConnHandler

/-- `state = READ_HEADERS; tmp_context.complete(); rev_handler->recv_content(..)`.  What is
left of `tmp_context` is not read again: the next header block resets it. -/
def ParseRun.complete (r : ParseRun) : ParseRun :=
  { handler := { r.handler with state := .readHeaders, tmpContext := r.handler.tmpContext.complete }
    passed := r.passed ++ [r.handler.tmpContext.complete] }

/-- One round of `parse_http_context` in `READ_HEADERS` (proxy_handler.cpp:350-390). -/
def readHeaders (maxSize : ℕ) (r : ParseRun) : Flow Exn ParseRun :=
  match find (crlf ++ crlf) r.handler.rawBuffer with
  | none => .leave r
  | some headerEnd =>
    let tmp := { r.handler.tmpContext.reset with
      header := r.handler.rawBuffer.take (headerEnd + 2) }
    let (tmp, isChunk, contentLength) :=
      processHttpHeaders tmp r.handler.connHandler.ip r.handler.isRequest
    if isChunk then
      let h := { r.handler with state := .readChunkSize, tmpContext := tmp }.logAccess
      .next { r with handler := h.eraseRaw (headerEnd + 4) }
    else
      let tmp := { tmp with data := contentLength }
      if tmp.data = npos then
        .next { r with handler := { r.handler with tmpContext := tmp }.eraseRaw (headerEnd + 4) }
      else
        let h := { r.handler with state := .readBody, tmpContext := tmp }.logAccess
        if contentLength = 0 then
          let r := ParseRun.complete { r with handler := h }
          .next { r with handler := r.handler.eraseRaw (headerEnd + 4) }
        else if maxSize < contentLength then
          .raise (reserveExn contentLength) { r with handler := h }
        else
          .next { r with handler := h.eraseRaw (headerEnd + 4) }

/-- One round of `parse_http_context` in `READ_BODY` (proxy_handler.cpp:391-403). -/
def readBody (r : ParseRun) : Flow Exn ParseRun :=
  let bytesToRead := min r.handler.tmpContext.data r.handler.rawBuffer.length
  let r := { r with handler := r.handler.takeContent bytesToRead }
  if r.handler.tmpContext.data = 0 then .next r.complete else .next r

/-- One round of `parse_chunked_content` in `READ_CHUNK_SIZE`
(proxy_handler.cpp:412-431). -/
def readChunkSize (r : ParseRun) : Flow Exn ParseRun :=
  match find crlf r.handler.rawBuffer with
  | none => .leave r
  | some chunkSizeEnd =>
    match stoul 16 (r.handler.rawBuffer.take chunkSizeEnd) with
    | .error e => .raise e r
    | .ok chunkSize =>
      let r := { r with handler := r.handler.eraseRaw (chunkSizeEnd + 2) }
      if chunkSize = 0 then .leave r.complete
      else
        .next { r with handler := { r.handler with
          state := .readChunkData, tmpContext := { r.handler.tmpContext with data := chunkSize } } }

/-- One round of `parse_chunked_content` in `READ_CHUNK_DATA`
(proxy_handler.cpp:432-446). -/
def readChunkData (r : ParseRun) : Flow Exn ParseRun :=
  let bytesToRead := min r.handler.tmpContext.data r.handler.rawBuffer.length
  let h := r.handler.takeContent bytesToRead
  if h.tmpContext.data = 0 then
    let h := if crlf <+: h.rawBuffer then h.eraseRaw 2 else h
    .next { r with handler := { h with state := .readChunkSize } }
  else .next { r with handler := h }

/-- The body of the loop of `parse_chunked_content`; it does nothing in the states that
are not its own. -/
def chunkBody (r : ParseRun) : Option (Flow Exn ParseRun) :=
  some <| match r.handler.state with
    | .readChunkSize => readChunkSize r
    | .readChunkData => readChunkData r
    | _ => .next r

/-- `!raw_buffer.empty()`, the guard of both loops. -/
def rawNonempty (r : ParseRun) : Bool := !r.handler.rawBuffer.isEmpty

/-- Rounds the inner loop can make: each consumes a byte, or changes from chunk data to
chunk size. -/
def chunkFuel (r : ParseRun) : ℕ := 2 * r.handler.rawBuffer.length + 2

/-- proxy_handler.cpp:410-448 -/
def parseChunkedContent (r : ParseRun) : Option (Exit Exn ParseRun) :=
  whileLoop rawNonempty chunkBody (chunkFuel r) r

/-- The body of the loop of `parse_http_context`. -/
def parseBody (maxSize : ℕ) (r : ParseRun) : Option (Flow Exn ParseRun) :=
  match r.handler.state with
  | .readHeaders => some (readHeaders maxSize r)
  | .readBody => some (readBody r)
  | .readChunkSize | .readChunkData =>
    match parseChunkedContent r with
    | none => none
    | some (.done r') => some (.next r')
    | some (.raised e r') => some (.raise e r')

/-- proxy_handler.cpp:347-408 -/
def parseHttpContext (maxSize fuel : ℕ) (r : ParseRun) : Option (Exit Exn ParseRun) :=
  whileLoop rawNonempty (parseBody maxSize) fuel r

/-- `raw_buffer.append(piece)` -/
def ParseRun.append (r : ParseRun) (piece : Bytes) : ParseRun :=
  { r with handler := { r.handler with rawBuffer := r.handler.rawBuffer ++ piece } }

/-- The parser is called after each piece is appended to `raw_buffer`; a raise ends the process and
with it the run. -/
def feedBy {ε : Type} (parse : ParseRun → Option (Exit ε ParseRun)) :
    List Bytes → ParseRun → Option (Exit ε ParseRun)
  | [], r => some (.done r)
  | piece :: pieces, r =>
    match parse (r.append piece) with
    | none => none
    | some (.raised e r') => some (.raised e r')
    | some (.done r') => feedBy parse pieces r'

/-- `parse_http_context` run after each piece. -/
def feed (maxSize fuel : ℕ) (pieces : List Bytes) (r : ParseRun) : Option (Exit Exn ParseRun) :=
  feedBy (parseHttpContext maxSize fuel) pieces r

end PkuyoProxy.Model
