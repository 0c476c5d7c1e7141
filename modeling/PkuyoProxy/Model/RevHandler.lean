import PkuyoProxy.Model.Parser
import PkuyoProxy.Model.StaticFile

/-!
# What a receiver does to the parser (proxy_handler.h:27-54)

`parse_http_context` calls `rev_handler->recv_content` from inside its loops, so an
exception of the receiver is one of the parser.  The other handlers only queue what they
are given or answer it; the static file handler decodes the path of the request with
`std::stoi`.
-/

set_option autoImplicit false

namespace PkuyoProxy.Model

open PkuyoProxy.Lib

/-- What `rev_handler` points to. -/
inductive RevHandler
  | normalConn
  | failedBackend
  | staticFile (fs : FileSystem) (rootDir : Bytes)

/-- The exception that leaves `recv_content`. -/
def RevHandler.raises : RevHandler → HttpContext → Option Exn
  | .normalConn, _ | .failedBackend, _ => none
  | .staticFile fs rootDir, context =>
    match staticRecvContent fs rootDir context with
    | .ok _ => none
    | .error e => some e

/-- `parseBody`, with the exceptions of the receiver of the contexts it passes on. -/
def parseBodyTo (rev : RevHandler) (maxSize : ℕ) (r : ParseRun) : Option (Flow Exn ParseRun) :=
  match parseBody maxSize r with
  | none => none
  | some f =>
    match (f.state.passed.drop r.passed.length).findSome? rev.raises with
    | none => some f
    | some e => some (.raise e f.state)

/-- `parse_http_context` with the receiver `rev`. -/
def parseHttpContextTo (rev : RevHandler) (maxSize fuel : ℕ) (r : ParseRun) :
    Option (Exit Exn ParseRun) :=
  whileLoop rawNonempty (parseBodyTo rev maxSize) fuel r

/-- `feed` with the receiver `rev`. -/
def feedTo (rev : RevHandler) (maxSize fuel : ℕ) (pieces : List Bytes) (r : ParseRun) :
    Option (Exit Exn ParseRun) :=
  feedBy (parseHttpContextTo rev maxSize fuel) pieces r

end PkuyoProxy.Model
