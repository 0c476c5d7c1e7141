import PkuyoProxy.Model.Text

/-!
# `HttpContext` and the connection state (def.h)

One message on its way through the proxy.  While it is received, `data` is the union of
`content_remaining` and `chunk_size`; while it is sent, `state` says whether `header` or
`content` is next.  `request` and `response` hold what `log_access` extracted from the
start line.
-/

set_option autoImplicit false

namespace PkuyoProxy.Model

/-- def.h:109-112 -/
inductive SendState
  | sendHeader
  | sendContent
  deriving DecidableEq, Repr

/-- def.h:123-129 -/
structure Request where
  urlPath : Bytes := []
  method : Bytes := []
  deriving DecidableEq, Repr

/-- def.h:126-128 -/
def Request.isValid (r : Request) : Bool := !r.urlPath.isEmpty && !r.method.isEmpty

/-- def.h:130-135 -/
structure Response where
  statusCode : ℤ := -1
  deriving DecidableEq, Repr

/-- def.h:132-134 -/
def Response.isValid (r : Response) : Bool := r.statusCode ≠ -1

/-- def.h:107-166 -/
structure HttpContext where
  state : SendState := .sendHeader
  data : ℕ := 0
  isCompleted : Bool := false
  request : Request := {}
  response : Response := {}
  header : Bytes := []
  content : Bytes := []
  deriving DecidableEq, Repr

namespace HttpContext

/-- def.h:151-154 -/
def complete (c : HttpContext) : HttpContext :=
  { c with isCompleted := true, state := .sendHeader }

/-- def.h:156-165 -/
def reset (c : HttpContext) : HttpContext :=
  { c with
    data := 0, isCompleted := false, state := .sendHeader, header := [], content := []
    request := { urlPath := [], method := [] }, response := { statusCode := -1 } }

/-- `reset` forgets the message that was there before. -/
theorem reset_eq (c : HttpContext) : c.reset = {} := rfl

/-- The move constructor takes over every member but the union, which starts at zero. -/
def moved (c : HttpContext) : HttpContext := { c with data := 0 }

/-- A completed context has the header it had. -/
@[simp] theorem complete_header (c : HttpContext) : c.complete.header = c.header := rfl

/-- A completed context has the content it had. -/
@[simp] theorem complete_content (c : HttpContext) : c.complete.content = c.content := rfl

/-- A completed context says so. -/
@[simp] theorem complete_isCompleted (c : HttpContext) : c.complete.isCompleted = true := rfl

end HttpContext

/-- def.h:168-173 -/
inductive ConnState
  | readHeaders
  | readBody
  | readChunkSize
  | readChunkData
  deriving DecidableEq, Repr

end PkuyoProxy.Model
