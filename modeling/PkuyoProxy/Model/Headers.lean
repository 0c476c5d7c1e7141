import PkuyoProxy.Model.HttpContext

/-!
# Header blocks and start lines (proxy_handler.cpp:21-214)

`process_http_headers` reads a header block line by line, reports how the body is framed
and writes the block back, on the request side with the client address added.
-/

set_option autoImplicit false

namespace PkuyoProxy.Model

open PkuyoProxy.Lib

/-! ## Locally generated responses -/

/-- proxy_handler.cpp:21-31 -/
def getStatusMsg (errorCode : ℕ) : Bytes :=
  match errorCode with
  | 500 => ascii "Internal Server Error"
  | 502 => ascii "Bad Gateway"
  | 400 => ascii "Bad Request"
  | 405 => ascii "Method Not Allowed"
  | 404 => ascii "Not Found"
  | 200 => ascii "OK"
  | _ => ascii "Unknown Status"

/-- The decimal text of a number, as an output stream writes it. -/
def decimal (n : ℕ) : Bytes := ascii (toString n)

/-- What `backend_error_response` streams.  Its stream is constructed on a text without
the `ate` flag, so the insertions overwrite that text from its beginning. -/
def overwrite (initial inserted : Bytes) : Bytes := inserted ++ initial.drop inserted.length

/-- proxy_handler.cpp:34-38 -/
def backendErrorResponse (errorCode : ℕ) : Bytes :=
  overwrite (ascii "<html><head><title>")
    (decimal errorCode ++ ascii " " ++ getStatusMsg errorCode ++
      ascii "</title></head><body><center>pkuyo-proxy</center></body></html>")

/-- proxy_handler.cpp:41-52 -/
def genHttpHeader (content : Bytes) (errorCode : ℕ) : Bytes :=
  ascii "HTTP/1.1 " ++ decimal errorCode ++ ascii " " ++ getStatusMsg errorCode ++ crlf ++
  ascii "Content-Type: text/html\r\n" ++
  ascii "Content-Length: " ++ decimal (content.takeWhile (· ≠ 0)).length ++ crlf ++
  ascii "Connection: close\r\n" ++
  crlf

/-! ## Header lines -/

/-- The loop of `contains_chunked` from position `start` on, `rest` being the value from
there; at most `fuel` rounds. -/
def containsChunkedFrom : ℕ → Bytes → Bool
  | 0, _ => false
  | fuel + 1, rest =>
    match find [44] rest with
    | none => toLower (trim rest) = ascii "chunked"
    | some comma =>
      if toLower (trim (rest.take comma)) = ascii "chunked" then true
      else containsChunkedFrom fuel (rest.drop (comma + 1))

/-- proxy_handler.cpp:81-94; every round but the last consumes a comma -/
def containsChunked (value : Bytes) : Bool := containsChunkedFrom (value.length + 1) value

/-- proxy_handler.cpp:96-109 -/
def splitHeaders (headers : Bytes) : List Bytes := splitLines crlf headers

/-- The lower-cased name and the value of a header line; `none` without a colon
(proxy_handler.cpp:124-131). -/
def fieldOf (line : Bytes) : Option (Bytes × Bytes) :=
  (find [58] line).map fun colon =>
    (toLower (trim (line.take colon)), trim (line.drop (colon + 1)))

/-- What the first pass of `process_http_headers` collects. -/
structure HeaderScan where
  chunked : Bool := false
  contentLength : ℕ := 0
  xffIdx : Option ℕ := none
  xffValue : Bytes := []
  xriIdx : Option ℕ := none
  deriving DecidableEq, Repr

/-- One round of the first pass, on the line with index `entry.2`
(proxy_handler.cpp:123-145). -/
def scanLine (isRequest : Bool) (acc : HeaderScan) (entry : Bytes × ℕ) : HeaderScan :=
  match fieldOf entry.1 with
  | none => acc
  | some (lfn, fv) =>
    if lfn = ascii "transfer-encoding" then
      if containsChunked fv then { acc with chunked := true } else acc
    else if lfn = ascii "content-length" then
      -- a value `stoul` rejects is swallowed by the `catch`
      match stoul 10 fv with
      | .ok n => { acc with contentLength := n }
      | .error _ => acc
    else if isRequest ∧ lfn = ascii "x-forwarded-for" then
      if acc.xffIdx = none then { acc with xffIdx := some entry.2, xffValue := fv } else acc
    else if isRequest ∧ lfn = ascii "x-real-ip" then
      if acc.xriIdx = none then { acc with xriIdx := some entry.2 } else acc
    else acc

/-- The first pass: every line but the first (proxy_handler.cpp:122-146). -/
def scanHeaders (isRequest : Bool) (lines : List Bytes) : HeaderScan :=
  (lines.zipIdx.drop 1).foldl (scanLine isRequest) {}

/-- The text up to and including the first colon. -/
def uptoColon (line : Bytes) : Bytes :=
  match find [58] line with
  | none => []
  | some colon => line.take (colon + 1)

/-- proxy_handler.cpp:150-154 -/
def setForwardedFor (scan : HeaderScan) (addr : Bytes) (lines : List Bytes) : List Bytes :=
  match scan.xffIdx with
  | some i =>
    lines.set i (uptoColon (lines.getD i []) ++ ascii " " ++ scan.xffValue ++ ascii ", " ++ addr)
  | none => lines ++ [ascii "X-Forwarded-For: " ++ addr]

/-- proxy_handler.cpp:157-161 -/
def setRealIp (scan : HeaderScan) (addr : Bytes) (lines : List Bytes) : List Bytes :=
  match scan.xriIdx with
  | some i => lines.set i (ascii "X-Real-IP: " ++ addr)
  | none => lines ++ [ascii "X-Real-IP: " ++ addr]

/-- The lines `process_http_headers` writes back (proxy_handler.cpp:148-162). -/
def rewriteLines (isRequest : Bool) (addr : Bytes) (lines : List Bytes) : List Bytes :=
  let scan := scanHeaders isRequest lines
  if isRequest then setRealIp scan addr (setForwardedFor scan addr lines) else lines

/-- proxy_handler.cpp:111-171: the context with its header rewritten, whether the body is
chunked, and the announced length. -/
def processHttpHeaders (context : HttpContext) (addr : Bytes) (isRequest : Bool) :
    HttpContext × Bool × ℕ :=
  let lines := splitHeaders context.header
  let scan := scanHeaders isRequest lines
  ({ context with header := joinLines crlf (rewriteLines isRequest addr lines) ++ crlf },
    scan.chunked, scan.contentLength)

/-! ## Start lines -/

/-- `find(' ', pos)` -/
def findSpace (s : Bytes) (pos : ℕ) : Option ℕ := (find [32] (s.drop pos)).map (· + pos)

/-- proxy_handler.cpp:175-188; `true` reports failure -/
def getRequestHead (context : HttpContext) : Bool × HttpContext :=
  let headers := context.header
  match findSpace headers 0 with
  | none => (true, context)
  | some pos =>
    let context := { context with request.method := headers.take pos }
    match findSpace headers (pos + 1) with
    | none => (true, context)
    | some pos2 =>
      (false, { context with request.urlPath := (headers.drop (pos + 1)).take (pos2 - pos - 1) })

/-- proxy_handler.cpp:190-214; `true` reports failure -/
def getResponseHead (context : HttpContext) : Bool × HttpContext :=
  let header := context.header
  match findSpace header 0 with
  | none => (true, context)
  | some firstSpace =>
    let secondSpace := (findSpace header (firstSpace + 1)).getD header.length
    match stoi 10 ((header.drop (firstSpace + 1)).take (secondSpace - (firstSpace + 1))) with
    | .ok code => (false, { context with response.statusCode := code })
    | .error _ => (true, context)

/-- What `log_access` does to the context it reports on; it ignores a failed
extraction. -/
def extractHead (isRequest : Bool) (context : HttpContext) : HttpContext :=
  if isRequest then (getRequestHead context).2 else (getResponseHead context).2

/-- Extracting the start line of a request changes neither the header nor the body. -/
theorem getRequestHead_frame (c : HttpContext) :
    (getRequestHead c).2.header = c.header ∧ (getRequestHead c).2.content = c.content ∧
      (getRequestHead c).2.data = c.data := by
  unfold getRequestHead
  dsimp only
  split
  · simp
  · split <;> simp

/-- Extracting the start line of a response changes neither the header nor the body. -/
theorem getResponseHead_frame (c : HttpContext) :
    (getResponseHead c).2.header = c.header ∧ (getResponseHead c).2.content = c.content ∧
      (getResponseHead c).2.data = c.data := by
  unfold getResponseHead
  dsimp only
  split
  · simp
  · split <;> simp

/-- The header stays when the start line is extracted. -/
@[simp] theorem extractHead_header (isRequest : Bool) (c : HttpContext) :
    (extractHead isRequest c).header = c.header := by
  unfold extractHead
  split
  · exact (getRequestHead_frame c).1
  · exact (getResponseHead_frame c).1

/-- The content stays when the start line is extracted. -/
@[simp] theorem extractHead_content (isRequest : Bool) (c : HttpContext) :
    (extractHead isRequest c).content = c.content := by
  unfold extractHead
  split
  · exact (getRequestHead_frame c).2.1
  · exact (getResponseHead_frame c).2.1

/-- The length that is waited for stays when the start line is extracted. -/
@[simp] theorem extractHead_data (isRequest : Bool) (c : HttpContext) :
    (extractHead isRequest c).data = c.data := by
  unfold extractHead
  split
  · exact (getRequestHead_frame c).2.2
  · exact (getResponseHead_frame c).2.2

end PkuyoProxy.Model
