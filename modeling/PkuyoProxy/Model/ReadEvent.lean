import PkuyoProxy.Model.AccessLog

/-!
# Read events (proxy_handler.cpp:233-245, 330-345)

`handle_read_event` reads until the kernel would block, then runs the parser.  What the
kernel answers to each `read` is an input.
-/

set_option autoImplicit false

namespace PkuyoProxy.Model

open PkuyoProxy.Lib

/-- What `conn_handler->read` reports: a count of bytes, zero at the end of the stream, or
`-1`. -/
inductive ReadAnswer
  | bytes (data : Bytes)
  | failed (isError : Bool)
  deriving DecidableEq, Repr

/-- proxy_handler.cpp:330-345; the value says that the connection is to be closed.  A kernel
that has no answer left would block. -/
def readRawBuff : List ReadAnswer → NormalConnHandler → Bool × NormalConnHandler
  | [], h => (false, h)
  | .failed isError :: _, h => (isError, h)
  | .bytes data :: answers, h =>
    if data = [] then (true, h)
    else readRawBuff answers { h with rawBuffer := h.rawBuffer ++ data }

/-- A read event: the outcome of a handshake that is still to be made, and the answers of the
kernel. -/
structure ReadEvent where
  handshake : Handshake := .finished
  reads : List ReadAnswer
  deriving DecidableEq, Repr

/-- proxy_handler.cpp:233-245: whether the connection is to be closed, and how the parser's
call ended. -/
def handleReadEventBy {ε : Type} (parse : ParseRun → Option (Exit ε ParseRun)) (ev : ReadEvent)
    (r : ParseRun) : Option (Bool × Exit ε ParseRun) :=
  match r.handler.ensureHandshake ev.handshake with
  | (some result, h) => some (result, .done { r with handler := h })
  | (none, h) =>
    match readRawBuff ev.reads h with
    | (true, h) => some (true, .done { r with handler := h })
    | (false, h) =>
      (parse { r with handler := h }).map fun exit => (false, exit)

/-- A read event of `parse_http_context`. -/
def handleReadEvent (maxSize fuel : ℕ) (ev : ReadEvent) (r : ParseRun) :
    Option (Bool × Exit Exn ParseRun) :=
  handleReadEventBy (parseHttpContext maxSize fuel) ev r

end PkuyoProxy.Model
