import PkuyoProxy.Model.ReadEvent
import PkuyoProxy.Model.Sender
import PkuyoProxy.Model.StaticFile

/-!
# The two handlers of a pair (proxy_handler.h:21-54)

`init_link` makes each handler of a `ProxyHandler` the `rev_handler` of the other, so what
one parses is handed to `recv_content` of the other.  A handler never touches the parser of
the other side; the contexts of a read event are therefore handed over behind it, in order.
The client's handler is always a `NormalConnHandler`, the backend's is one of three kinds.
-/

set_option autoImplicit false

namespace PkuyoProxy.Model

open PkuyoProxy.Lib

/-! ## One connection -/

/-- What the kernel answers to one call of `handle_write_event`. -/
structure WriteEvent where
  handshake : Handshake := .finished
  writes : List WriteAnswer := []

/-- A handler with its writes, the contexts that were pushed on its queue, and whether its
descriptor was reported writable since the last attempt to write. -/
structure Conn extends SendRun where
  pushed : List HttpContext := []
  notified : Bool := false
  deriving DecidableEq, Repr

/-- The connection of a new handler (proxy_handler.cpp:229-231). -/
def Conn.opened (isRequest : Bool) (connHandler : ConnHandler) : Conn :=
  { handler := { isRequest, connHandler } }

/-- `handle_write_event` comes to `conn_handler->write`. -/
def attemptsWrite (answer : Handshake) (h : NormalConnHandler) : Bool :=
  (h.ensureHandshake answer).1.isNone && (h.queue.head?.map (·.isCompleted)).getD false

namespace Conn

/-- `handle_write_event`; an attempt to write uses up the notification. -/
def handleWriteEvent (io : WriteEvent) (c : Conn) : Bool × Conn :=
  let (result, run) := Model.handleWriteEvent io.handshake io.writes c.toSendRun
  (result, { c with
    toSendRun := run, notified := c.notified && !attemptsWrite io.handshake c.handler })

/-- `queue.push(std::move(content))` -/
def push (content : HttpContext) (c : Conn) : Conn :=
  { c with
    handler := { c.handler with queue := c.handler.queue ++ [content.moved] }
    pushed := c.pushed ++ [content.moved] }

/-- `recv_content`, with what goes back to `rev_handler`. -/
def recvContent (io : WriteEvent) (content : HttpContext) (c : Conn) : Conn × Option HttpContext :=
  match takeOn c.handler.isRequest content with
  | .inr response => (c, some response)
  | .inl content =>
    let c := c.push content
    if c.handler.isSending then (c, none) else ((c.handleWriteEvent io).2, none)

/-- `recv_content` of a connection is that of its sending side. -/
theorem recvContent_sendRun (io : WriteEvent) (content : HttpContext) (c : Conn) :
    ((c.recvContent io content).1.toSendRun, (c.recvContent io content).2) =
      Model.recvContent io.handshake io.writes content c.toSendRun := by
  unfold recvContent Model.recvContent
  cases takeOn c.handler.isRequest content with
  | inr response => rfl
  | inl content =>
    dsimp only [push]
    split <;> rfl

end Conn

/-! ## The pair -/

/-- The handler on the backend's side. -/
inductive BackendEnd
  | normal (conn : Conn)
  | failed
  | staticFile (rootDir : Bytes)
  deriving DecidableEq, Repr

/-- proxy_handler.h:46-54 -/
structure ProxyPair where
  client : Conn
  backend : BackendEnd
  deriving DecidableEq, Repr

/-- What the kernel and the files answer while one context is handed over. -/
structure HandOver where
  backend : WriteEvent := {}
  client : WriteEvent := {}
  fs : FileSystem := ⟨fun _ => none, fun _ => false, fun _ => none⟩

/-- `FailedBackendHandler` answers as `send_error` does (proxy_handler.cpp:217-225). -/
def badGateway : HttpContext := staticError 502

namespace ProxyPair

/-- `client->recv_content`; a handler of a client sends nothing back. -/
def recvResponse (io : HandOver) (content : HttpContext) (p : ProxyPair) : ProxyPair :=
  { p with client := (p.client.recvContent io.client content).1 }

/-- `backend->recv_content` of the three kinds of handlers. -/
def recvRequest (io : HandOver) (content : HttpContext) (p : ProxyPair) : Except Exn ProxyPair :=
  match p.backend with
  | .normal conn =>
    let (conn, sentBack) := conn.recvContent io.backend content
    let p := { p with backend := .normal conn }
    match sentBack with
    | none => .ok p
    | some response => .ok (p.recvResponse io response)
  | .failed => .ok (p.recvResponse io badGateway)
  | .staticFile rootDir =>
    match staticRecvContent io.fs rootDir content with
    | .ok answer => .ok (p.recvResponse io answer.response)
    | .error e => .error e

/-- `client->handle_write_event` -/
def clientWriteEvent (io : WriteEvent) (p : ProxyPair) : Bool × ProxyPair :=
  let (result, client) := p.client.handleWriteEvent io
  (result, { p with client })

/-- `backend->handle_write_event`; only a connected backend has one of its own. -/
def backendWriteEvent (io : WriteEvent) (p : ProxyPair) : Bool × ProxyPair :=
  match p.backend with
  | .normal conn =>
    let (result, conn) := conn.handleWriteEvent io
    (result, { p with backend := .normal conn })
  | .failed | .staticFile _ => (false, p)

/-- The contexts of a read event of the client, one after the other. -/
def recvRequests : List HandOver → List HttpContext → ProxyPair → Except Exn ProxyPair
  | _, [], p => .ok p
  | ios, content :: contents, p => do
    recvRequests ios.tail contents (← p.recvRequest (ios.headD {}) content)

/-- The contexts of a read event of the backend. -/
def recvResponses : List HandOver → List HttpContext → ProxyPair → ProxyPair
  | _, [], p => p
  | ios, content :: contents, p =>
    recvResponses ios.tail contents (p.recvResponse (ios.headD {}) content)

end ProxyPair

end PkuyoProxy.Model
