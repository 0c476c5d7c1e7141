import PkuyoProxy.Model.NormalConnHandler

/-!
# The send queue (proxy_handler.cpp:247-305, 452-470)

`handle_write_event` writes the contexts of the queue until the kernel would block.  The
progress of the front context is spread over its `state`, its `header`, which doubles as the
send buffer, and its `content`.  What the kernel answers to each `write` is an input; every
write is recorded with the part of the message it was made for, so that the bytes on the
wire are a function of the record.
-/

set_option autoImplicit false

namespace PkuyoProxy.Model

/-- What `conn_handler->write` reports for the bytes it is offered. -/
abbrev WriteAnswer := Bytes → EventState

/-- One call of `conn_handler->write`. -/
structure WriteRecord where
  part : SendState
  offered : Bytes
  answer : EventState
  deriving DecidableEq, Repr

/-- The bytes the kernel took. -/
def WriteRecord.accepted (w : WriteRecord) : Bytes := w.offered.take w.answer.byteCount.toNat

/-- The handler and the writes it has made so far. -/
structure SendRun where
  handler : NormalConnHandler
  writes : List WriteRecord := []
  deriving DecidableEq, Repr

/-- The bytes on the wire. -/
def SendRun.wire (s : SendRun) : Bytes := s.writes.flatMap WriteRecord.accepted

/-- Conversion of `ssize_t` to `size_t`. -/
def sizeT (n : ℤ) : ℕ := (n % 2 ^ 64).toNat

/-! ## Writing -/

/-- `buffer` refers to the header; in `SEND_CONTENT` the content is assigned to it
(proxy_handler.cpp:261-264). -/
def loadBuffer (c : HttpContext) : HttpContext :=
  if c.state = .sendContent then { c with header := c.content } else c

/-- The queue behind a write of which `byteSend` bytes were accepted, `c` being the front
context with its buffer loaded (proxy_handler.cpp:280-290).  The assignment behind `pop` writes to
an element that has been destroyed, which the language leaves undefined; here it changes nothing. -/
def afterWrite (c : HttpContext) (rest : List HttpContext) (byteSend : ℤ) : List HttpContext :=
  if byteSend ≠ c.header.length then { c with header := c.header.drop (sizeT byteSend) } :: rest
  else if c.state = .sendContent ∨ c.content = [] then rest
  else { c with state := .sendContent } :: rest

/-- The flags the loop of `handle_write_event` is left with. -/
structure SendFlags where
  result : Bool
  needListen : Bool
  deriving DecidableEq, Repr

/-- The loop of `handle_write_event` (proxy_handler.cpp:255-291), with the answers to its
writes; a kernel that has no answer left would block. -/
def writeLoop : List WriteAnswer → SendRun → SendFlags × SendRun
  | answers, s =>
    match s.handler.queue with
    | [] => (⟨false, false⟩, s)
    | front :: rest =>
      if front.isCompleted then
        let c := loadBuffer front
        let loaded := { s with handler := { s.handler with queue := c :: rest } }
        match answers with
        | [] => (⟨false, true⟩, loaded)
        | answer :: answers =>
          let e := answer c.header
          let record (queue : List HttpContext) : SendRun :=
            { handler := { s.handler with queue }
              writes := s.writes ++ [⟨c.state, c.header, e⟩] }
          if e.byteCount = -1 then (⟨e.isError, !e.isError⟩, record (c :: rest))
          else if e.byteCount = 0 then (⟨true, false⟩, record (c :: rest))
          else writeLoop answers (record (afterWrite c rest e.byteCount))
      else (⟨false, false⟩, s)

/-- proxy_handler.cpp:292-303 -/
def updateListening (flags : SendFlags) (h : NormalConnHandler) : NormalConnHandler :=
  if flags.result then h
  else if flags.needListen && !h.isSending then
    { h with
      connHandler := h.connHandler.modifyEvent { epollIn := true, epollOut := true }
      isSending := true }
  else if !flags.needListen && h.isSending then
    { h with
      connHandler := h.connHandler.modifyEvent { epollIn := true }
      isSending := false }
  else h

/-- proxy_handler.cpp:247-305; the value says that the connection is to be closed -/
def handleWriteEvent (answer : Handshake) (answers : List WriteAnswer) (s : SendRun) :
    Bool × SendRun :=
  match s.handler.ensureHandshake answer with
  | (some result, h) => (result, { s with handler := h })
  | (none, h) =>
    let (flags, s) := writeLoop answers { s with handler := h }
    (flags.result, { s with handler := updateListening flags s.handler })

/-! ## Receiving from the other side -/

/-- The response sent back in place of a request without method and path
(proxy_handler.cpp:454-457). -/
def badRequest : HttpContext :=
  let response : HttpContext := { content := backendErrorResponse 400 }
  { response with header := genHttpHeader response.content 400 }.complete

/-- What replaces a response without a status code (proxy_handler.cpp:461-463). -/
def substitute (content : HttpContext) : HttpContext :=
  let content := { content with content := backendErrorResponse 500 }
  (getResponseHead { content with header := genHttpHeader content.content 500 }).2

/-- The context that `recv_content` queues, or the response it sends back instead
(proxy_handler.cpp:452-464). -/
def takeOn (isRequest : Bool) (content : HttpContext) : HttpContext ⊕ HttpContext :=
  if !isRequest && !content.request.isValid then .inr badRequest
  else if isRequest && !content.response.isValid then .inl (substitute content)
  else .inl content

/-- proxy_handler.cpp:452-470, with what goes back to `rev_handler`. -/
def recvContent (answer : Handshake) (answers : List WriteAnswer) (content : HttpContext)
    (s : SendRun) : SendRun × Option HttpContext :=
  match takeOn s.handler.isRequest content with
  | .inr response => (s, some response)
  | .inl content =>
    let s := { s with handler := { s.handler with queue := s.handler.queue ++ [content.moved] } }
    if s.handler.isSending then (s, none) else ((handleWriteEvent answer answers s).2, none)

/-! ## Runs -/

/-- What can happen to the sending side: a context is handed over, or the descriptor has
become writable. -/
inductive SendInput
  | recv (content : HttpContext) (answer : Handshake) (answers : List WriteAnswer)
  | writable (answer : Handshake) (answers : List WriteAnswer)

/-- One call on the handler. -/
def sendStep (s : SendRun) : SendInput → SendRun
  | .recv content answer answers => (recvContent answer answers content s).1
  | .writable answer answers => (handleWriteEvent answer answers s).2

/-- The sending side, and whether the worker was asked to disconnect it. -/
structure Reporting where
  run : SendRun
  reported : Bool := false
  deriving DecidableEq, Repr

/-- What a write event returns comes to the worker (worker.cpp:176-179); `recv_content` drops
what its call returns (proxy_handler.cpp:468-469). -/
def reportStep (s : Reporting) : SendInput → Reporting
  | .recv content answer answers => { s with run := (recvContent answer answers content s.run).1 }
  | .writable answer answers =>
    let (result, run) := handleWriteEvent answer answers s.run
    { run, reported := s.reported || result }

/-- The state after a sequence of such events. -/
def sendRun (s : SendRun) (inputs : List SendInput) : SendRun := inputs.foldl sendStep s

end PkuyoProxy.Model
