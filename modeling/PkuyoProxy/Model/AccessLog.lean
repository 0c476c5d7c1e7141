import PkuyoProxy.Lib.CutOff
import PkuyoProxy.Model.Config
import PkuyoProxy.Model.Parser

/-!
# Access log lines (process.h:9-23, proxy_handler.cpp:308-328)

`log_access` prints the start line of a request with `sprintf` into a buffer of fixed size.
`logAccess` of the parser is what it does to the context; `accessLine` is the text it prints.  A
line that is too long is written over what stands behind the buffer, and nothing is said of what
the worker does then: `parseHttpContextLogged` is the parser that ends there.
-/

set_option autoImplicit false

namespace PkuyoProxy.Model

open PkuyoProxy.Lib

/-- The size of `Process::format_buffer` (process.h:14). -/
def formatBufferSize : ℕ := 512

/-- `%.*s`: a null byte ends the text, and so does the precision unless it is negative. -/
def formatPrecision (precision : ℤ) (text : Bytes) : Bytes :=
  let text := text.takeWhile (· ≠ 0)
  if precision < 0 then text else text.take precision.toNat

namespace NormalConnHandler

/-- The text `log_access` prints into the buffer (proxy_handler.cpp:308-328).  The method begins
where the header begins, the target one byte behind the method. -/
def accessLine (h : NormalConnHandler) : Option Bytes :=
  if h.isRequest then
    match getRequestHead h.tmpContext with
    | (true, _) => some (ascii "get_request_head failed")
    | (false, tmp) =>
      some (ascii "reqeust: " ++
        formatPrecision (toInt tmp.request.method.length) tmp.header ++ ascii " " ++
        formatPrecision (toInt tmp.request.urlPath.length)
          (tmp.header.drop (tmp.request.method.length + 1)) ++ ascii ", From " ++
        h.connHandler.ip ++ ascii ":" ++ decimal h.connHandler.port)
  else
    match getResponseHead h.tmpContext with
    | (true, _) => some (ascii "get_response_head failed")
    | (false, _) => none

end NormalConnHandler

/-- The handler as it is when a round of `parse_http_context` in `READ_HEADERS` calls
`log_access` (proxy_handler.cpp:350-375). -/
def reporting (r : ParseRun) : Option NormalConnHandler :=
  match find (crlf ++ crlf) r.handler.rawBuffer with
  | none => none
  | some headerEnd =>
    let tmp := { r.handler.tmpContext.reset with
      header := r.handler.rawBuffer.take (headerEnd + 2) }
    let (tmp, isChunk, contentLength) :=
      processHttpHeaders tmp r.handler.connHandler.ip r.handler.isRequest
    if isChunk then some { r.handler with state := .readChunkSize, tmpContext := tmp }
    else
      let tmp := { tmp with data := contentLength }
      if tmp.data = npos then none
      else some { r.handler with state := .readBody, tmpContext := tmp }

/-- The line a round of the parser prints. -/
def ParseRun.accessLine (r : ParseRun) : Option Bytes :=
  match r.handler.state with
  | .readHeaders => (reporting r).bind NormalConnHandler.accessLine
  | _ => none

/-- What a round prints fits the buffer, with the null byte behind it. -/
def LineFits (r : ParseRun) : Prop :=
  ∀ text, r.accessLine = some text → text.length + 1 ≤ formatBufferSize

instance : DecidablePred LineFits := fun r =>
  inferInstanceAs (Decidable (∀ text ∈ r.accessLine, text.length + 1 ≤ formatBufferSize))

/-- An exception leaves the parser, or `sprintf` writes behind the buffer. -/
inductive ParserFault
  | exception (e : Exn)
  | overrun
  deriving DecidableEq, Repr

/-- `parseBody`, up to a line that does not fit. -/
def parseBodyLogged (maxSize : ℕ) (r : ParseRun) : Option (Flow ParserFault ParseRun) :=
  cutOff LineFits .overrun .exception (parseBody maxSize) r

/-- proxy_handler.cpp:347-408, with the lines it prints -/
def parseHttpContextLogged (maxSize fuel : ℕ) (r : ParseRun) :
    Option (Exit ParserFault ParseRun) :=
  whileLoop rawNonempty (parseBodyLogged maxSize) fuel r

/-- `feed`, up to a line that does not fit. -/
def feedLogged (maxSize fuel : ℕ) (pieces : List Bytes) (r : ParseRun) :
    Option (Exit ParserFault ParseRun) :=
  feedBy (parseHttpContextLogged maxSize fuel) pieces r

/-- What a round in `READ_HEADERS` has read off the start line is what `log_access` left there. -/
theorem readHeaders_reporting (maxSize : ℕ) (r : ParseRun) {h : NormalConnHandler}
    (hr : reporting r = some h) :
    ∃ r' : ParseRun, r'.handler.tmpContext.request = h.logAccess.tmpContext.request ∧
      r'.handler.tmpContext.response = h.logAccess.tmpContext.response ∧
      (readHeaders maxSize r = .next r' ∨ ∃ e, readHeaders maxSize r = .raise e r') := by
  unfold reporting at hr
  unfold readHeaders
  cases hfind : find (crlf ++ crlf) r.handler.rawBuffer with
  | none => simp [hfind] at hr
  | some headerEnd =>
    simp only [hfind] at hr ⊢
    split at hr
    · rename_i hchunk
      obtain rfl := Option.some.inj hr
      rw [if_pos hchunk]
      exact ⟨_, rfl, rfl, .inl rfl⟩
    · rename_i hchunk
      rw [if_neg hchunk]
      split at hr
      · cases hr
      · rename_i hnpos
        obtain rfl := Option.some.inj hr
        rw [if_neg hnpos]
        split
        · exact ⟨_, rfl, rfl, .inl rfl⟩
        · split
          · exact ⟨_, rfl, rfl, .inr ⟨_, rfl⟩⟩
          · exact ⟨_, rfl, rfl, .inl rfl⟩

end PkuyoProxy.Model
