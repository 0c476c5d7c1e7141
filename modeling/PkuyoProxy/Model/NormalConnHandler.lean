import PkuyoProxy.Model.Headers

/-!
# The two ends of a connection (conn_handler.h, proxy_handler.h)

`ConnHandler` is the socket side: descriptor, peer address, handshake flag and the
interest set last installed with `epoll_ctl`.  `NormalConnHandler` adds the incremental
parser (`rawBuffer`, `state`, `tmpContext`) and the send queue.  The results of system
calls are inputs of the functions that make them.
-/

set_option autoImplicit false

namespace PkuyoProxy.Model

/-- The interest set of a registered descriptor. -/
structure EpollEvents where
  epollIn : Bool := true
  epollOut : Bool := false
  deriving DecidableEq, Repr

/-- What `read` and `write` report (conn_handler.h:12-15). -/
structure EventState where
  isError : Bool := false
  byteCount : ℤ := 0
  deriving DecidableEq, Repr

/-- The outcomes of `SSL_accept` that `handshake` tells apart; a plain connection always
finishes. -/
inductive Handshake
  | finished
  | wantRead
  | wantWrite
  | fatal
  deriving DecidableEq, Repr

/-- The socket side of a handler. -/
structure ConnHandler where
  connFd : ℤ := -1
  ip : Bytes := []
  port : ℕ := 0
  handshakeDone : Bool := false
  events : EpollEvents := {}
  deriving DecidableEq, Repr

namespace ConnHandler

/-- conn_handler.cpp:43-47 -/
def modifyEvent (c : ConnHandler) (newEvents : EpollEvents) : ConnHandler :=
  { c with events := newEvents }

/-- conn_handler.cpp:63-83; `true` reports failure -/
def handshake (c : ConnHandler) : Handshake → Bool × ConnHandler
  | .finished => (false, { c.modifyEvent { epollIn := true } with handshakeDone := true })
  | .wantRead => (false, c.modifyEvent { epollIn := true })
  | .wantWrite => (false, c.modifyEvent { epollIn := false, epollOut := true })
  | .fatal => (true, c)

end ConnHandler

/-- proxy_handler.h:62-79 -/
structure NormalConnHandler where
  queue : List HttpContext := []
  tmpContext : HttpContext := {}
  rawBuffer : Bytes := []
  state : ConnState := .readHeaders
  isSending : Bool := false
  isRequest : Bool
  connHandler : ConnHandler
  deriving DecidableEq, Repr

/-- The check in front of `handle_read_event` and `handle_write_event`
(proxy_handler.cpp:234-238): whether the call goes on, or the value it returns. -/
def NormalConnHandler.ensureHandshake (h : NormalConnHandler) (answer : Handshake) :
    Option Bool × NormalConnHandler :=
  if h.connHandler.handshakeDone then (none, h)
  else
    let (error, conn) := h.connHandler.handshake answer
    let h := { h with connHandler := conn }
    if error then (some true, h)
    else if conn.handshakeDone then (none, h)
    else (some false, h)

end PkuyoProxy.Model
