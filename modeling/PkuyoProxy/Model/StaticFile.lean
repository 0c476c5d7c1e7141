import PkuyoProxy.Lib.Paths
import PkuyoProxy.Model.Headers

/-!
# Static files (proxy_handler.cpp:473-566)

`StaticFileHandler` decodes the path of a request, puts it behind its root directory, lets
`realpath` resolve the result and compares the text of what it resolved to with the text of
the root directory.  The file system is a parameter: `realpath`, `stat` and the contents of
the files.
-/

set_option autoImplicit false

namespace PkuyoProxy.Model

open PkuyoProxy.Lib

/-! ## Canonical paths and the file system -/

/-- What can stand between two slashes of a canonical path. -/
def IsComponent (name : Bytes) : Prop :=
  name ≠ [] ∧ 47 ∉ name ∧ 0 ∉ name ∧ name ≠ ascii "." ∧ name ≠ ascii ".."

instance (name : Bytes) : Decidable (IsComponent name) :=
  inferInstanceAs (Decidable (_ ∧ _ ∧ _ ∧ _ ∧ _))

/-- An absolute path without links, empty components, `.` and `..`. -/
structure CanonicalPath where
  components : List Bytes
  valid : ∀ name ∈ components, IsComponent name

namespace CanonicalPath

/-- Its text: a separator in front of each component, or the root. -/
def text (p : CanonicalPath) : Bytes :=
  if p.components = [] then [47] else pathText 47 p.components

/-- No component of a canonical path contains the separator. -/
theorem not_mem_component (p : CanonicalPath) : ∀ name ∈ p.components, 47 ∉ name :=
  fun name hname => (p.valid name hname).2.1

end CanonicalPath

/-- The files as the system calls see them. -/
structure FileSystem where
  /-- `realpath`; `none` is a null result. -/
  realpath : Bytes → Option CanonicalPath
  /-- `stat` succeeds and reports a regular file. -/
  isRegular : Bytes → Bool
  /-- The bytes of a file; `none` when it cannot be opened. -/
  read : Bytes → Option Bytes

/-! ## Decoding and resolving -/

/-- `static_cast<char>` of an `int`. -/
def toChar (n : ℤ) : UInt8 := UInt8.ofNat (n % 256).toNat

/-- A byte outside an escape (proxy_handler.cpp:505-508). -/
def plusToSpace (c : UInt8) : UInt8 := if c = 43 then 32 else c

/-- proxy_handler.cpp:498-512; an escape needs two bytes behind the `%`, which `stoi` may
reject -/
def urlDecode : Bytes → Except Exn Bytes
  | c :: c₁ :: c₂ :: str =>
    if c = 37 then do
      let hex ← stoi 16 [c₁, c₂]
      return toChar hex :: (← urlDecode str)
    else do
      return plusToSpace c :: (← urlDecode (c₁ :: c₂ :: str))
  | str => .ok (str.map plusToSpace)

/-- The bytes a C function sees of a `std::string`. -/
def cStr (s : Bytes) : Bytes := s.takeWhile (· ≠ 0)

/-- proxy_handler.cpp:488-497: the result and what is left in `full_path`. -/
def resolveFullPath (fs : FileSystem) (rootDir urlPath : Bytes) : Except Exn (Bool × Bytes) := do
  let decodedPath ← urlDecode urlPath
  let combinedPath := rootDir ++ ascii "/" ++ decodedPath
  match fs.realpath (cStr combinedPath) with
  | none => return (false, [])
  | some resolved => return (find rootDir resolved.text = some 0, resolved.text)

/-! ## Serving -/

/-- `file_path.find_last_of('.')` and the text behind it (proxy_handler.cpp:474-477). -/
def extension (filePath : Bytes) : Option Bytes :=
  if 46 ∈ filePath then some (filePath.reverse.takeWhile (· ≠ 46)).reverse else none

/-- proxy_handler.cpp:473-486 -/
def getMimeType (filePath : Bytes) : Bytes :=
  match extension filePath with
  | none => ascii "application/octet-stream"
  | some ext =>
    if ext = ascii "html" ∨ ext = ascii "htm" then ascii "text/html"
    else if ext = ascii "css" then ascii "text/css"
    else if ext = ascii "js" then ascii "application/javascript"
    else if ext = ascii "png" then ascii "image/png"
    else if ext = ascii "jpg" ∨ ext = ascii "jpeg" then ascii "image/jpeg"
    else if ext = ascii "gif" then ascii "image/gif"
    else if ext = ascii "json" then ascii "application/json"
    else ascii "text/plain"

/-- proxy_handler.cpp:556-566 -/
def staticError (code : ℕ) : HttpContext :=
  let response : HttpContext := { content := backendErrorResponse code }
  (getResponseHead
    { response with header := genHttpHeader response.content code }.complete).2

/-- The response that carries the bytes of a file (proxy_handler.cpp:544-551). -/
def fileResponse (fullPath content : Bytes) : HttpContext :=
  let header :=
    ascii "HTTP/1.1 200 OK\r\n" ++
    ascii "Content-Type: " ++ getMimeType fullPath ++ crlf ++
    ascii "Content-Length: " ++ decimal content.length ++ crlf ++
    ascii "Connection: close\r\n\r\n"
  (getResponseHead { header, content : HttpContext }.complete).2

/-- What goes back to the client, and the file whose bytes it carries. -/
structure StaticAnswer where
  response : HttpContext
  served : Option Bytes := none
  deriving DecidableEq, Repr

/-- The answer to a request whose path was resolved (proxy_handler.cpp:528-553). -/
def serveFile (fs : FileSystem) (fullPath : Bytes) : StaticAnswer :=
  if !fs.isRegular fullPath then { response := staticError 404 }
  else
    match fs.read fullPath with
    | none => { response := staticError 500 }
    | some content => { response := fileResponse fullPath content, served := some fullPath }

/-- proxy_handler.cpp:514-554 -/
def staticRecvContent (fs : FileSystem) (rootDir : Bytes) (context : HttpContext) :
    Except Exn StaticAnswer :=
  if context.request.method ≠ ascii "GET" then .ok { response := staticError 405 }
  else do
    let (resolved, fullPath) ← resolveFullPath fs rootDir context.request.urlPath
    return if resolved then serveFile fs fullPath else { response := staticError 404 }

end PkuyoProxy.Model
