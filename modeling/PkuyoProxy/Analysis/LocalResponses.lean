import PkuyoProxy.Analysis.HeaderRewriting
import PkuyoProxy.Analysis.StartLines
import PkuyoProxy.Interface.Decimal
import PkuyoProxy.Interface.HttpMessage
import PkuyoProxy.Model.StaticFile

/-!
# Responses the proxy makes itself

The pages for errors and the responses that carry files have the same header: a status line and
three fields, one of which is the length of the content (`localHeader`).  It is a message of the
grammar whatever code, type and length stand in it, so that it announces that length
(`localHeader_block`), and its status code is read back (`getResponseHead_local`).
-/

set_option autoImplicit false

namespace PkuyoProxy.Analysis

open PkuyoProxy.Lib PkuyoProxy.Model PkuyoProxy.Interface

/-- The header of such a response. -/
def localHeader (code : ℕ) (mime content : Bytes) : Bytes :=
  ascii "HTTP/1.1 " ++ decimal code ++ ascii " " ++ getStatusMsg code ++ crlf ++
    ascii "Content-Type: " ++ mime ++ crlf ++
    ascii "Content-Length: " ++ decimal content.length ++ crlf ++
    ascii "Connection: close\r\n\r\n"

/-- The header of a page is that of a response made here. -/
theorem genHttpHeader_eq {content : Bytes} (h : 0 ∉ content) (code : ℕ) :
    genHttpHeader content code = localHeader code (ascii "text/html") content := by
  have hstrlen : content.takeWhile (· ≠ 0) = content := by
    rw [List.takeWhile_eq_self_iff]
    intro c hc
    have hne : c ≠ 0 := by
      rintro rfl
      exact h hc
    simpa using hne
  unfold genHttpHeader
  rw [hstrlen]
  simp [localHeader, ascii, crlf]

/-! ## Its status code -/

/-- A status code that was printed is read back. -/
theorem getResponseHead_local {c : HttpContext} {code : ℕ} (hcode : code < 2 ^ 31)
    (mime content : Bytes) (h : c.header = localHeader code mime content) :
    getResponseHead c = (false, { c with response.statusCode := code }) := by
  have hcut : c.header = ascii "HTTP/1.1" ++ 32 :: (decimal code ++ 32 :: (getStatusMsg code ++
      crlf ++ ascii "Content-Type: " ++ mime ++ crlf ++ ascii "Content-Length: " ++
      decimal content.length ++ crlf ++ ascii "Connection: close\r\n\r\n")) := by
    rw [h]
    simp [localHeader, ascii]
  have hspace : 32 ∉ decimal code := notMem_digits (isDigit_decimal code) (by decide)
  rw [getResponseHead_cut (by decide) hcut, takeWhile_cut hspace, stoi_decimal hcode]

/-! ## Its lines -/

/-- The types are made of text bytes. -/
theorem getMimeType_bytes (fullPath : Bytes) :
    ∀ c ∈ getMimeType fullPath, isTextByte c = true := by
  unfold getMimeType
  split
  · decide
  · repeat' split
    all_goals decide

/-- The messages of the codes are made of text bytes. -/
theorem getStatusMsg_bytes (code : ℕ) : ∀ c ∈ getStatusMsg code, isTextByte c = true := by
  unfold getStatusMsg
  split <;> decide

/-- The decimal text of a number is made of text bytes, without blanks and colons. -/
theorem decimal_bytes (n : ℕ) :
    ∀ c ∈ decimal n, isTextByte c = true ∧ isBlank c = false ∧ c ≠ 58 := by
  intro c hc
  have hdigit := isDigit_decimal n c hc
  have hspace := (isDigit_ne hdigit).1
  have hcr : c ≠ 13 := by
    rintro rfl
    exact absurd hspace (by decide)
  have hlf : c ≠ 10 := by
    rintro rfl
    exact absurd hspace (by decide)
  have hcolon : c ≠ 58 := by
    rintro rfl
    exact absurd hdigit (by decide)
  refine ⟨by simp [isTextByte, hcr, hlf], ?_, hcolon⟩
  simp only [isSpace, isBlank] at hspace ⊢
  grind

/-- The blank in front of a number is trimmed. -/
theorem trim_blank_decimal (n : ℕ) : trim (32 :: decimal n) = decimal n := by
  have hdrop : trim (32 :: decimal n) = trim (decimal n) := by simp [trim, isBlank]
  rw [hdrop, trim_eq_self fun c hc => (decimal_bytes n c hc).2.1]

/-- The field of the type. -/
def contentType (mime : Bytes) (h : ∀ c ∈ mime, isTextByte c = true) : Field where
  name := ascii "Content-Type"
  value := 32 :: mime
  name_ne := by decide
  name_bytes := by decide
  value_bytes := by
    intro c hc
    rcases List.mem_cons.mp hc with rfl | hc
    · decide
    · exact h c hc

/-- The name of the field is not empty. -/
theorem contentLength_ne : ascii "Content-Length" ≠ [] := by decide

/-- The name of the field is made of name bytes. -/
theorem contentLength_bytes : ∀ c ∈ ascii "Content-Length", isNameByte c = true := by decide

/-- The field of the length. -/
def contentLength (n : ℕ) : Field where
  name := ascii "Content-Length"
  value := 32 :: decimal n
  name_ne := contentLength_ne
  name_bytes := contentLength_bytes
  value_bytes := by
    intro c hc
    rcases List.mem_cons.mp hc with rfl | hc
    · decide
    · exact (decimal_bytes n c hc).1

/-- The field that closes the connection. -/
def connectionClose : Field where
  name := ascii "Connection"
  value := ascii " close"
  name_ne := by decide
  name_bytes := by decide
  value_bytes := by decide

/-- The field denotes its number. -/
theorem contentLength_denotes (n : ℕ) : (contentLength n).Denotes n := by
  have htrim : trim (contentLength n).value = decimal n := trim_blank_decimal n
  refine ⟨?_, ?_, ?_⟩
  · rw [htrim]
    exact decimal_ne_nil n
  · rw [htrim]
    exact isDigit_decimal n
  · rw [htrim]
    exact digitsValue_decimal n

/-- The status line. -/
def localStart (code : ℕ) : StartLine where
  first := ascii "HTTP/1.1"
  second := decimal code
  third := getStatusMsg code
  first_ne := by decide
  first_bytes := by decide
  second_ne := decimal_ne_nil code
  second_bytes := fun c hc => ⟨(decimal_bytes code c hc).1, (decimal_bytes code c hc).2.1⟩
  second_head := by
    intro hhead
    exact (decimal_bytes code 58 (List.mem_of_mem_head? hhead)).2.2 rfl
  third_bytes := getStatusMsg_bytes code

/-- The response as a message of the grammar. -/
def localMessage (code : ℕ) (mime content : Bytes) (h : ∀ c ∈ mime, isTextByte c = true) :
    HttpMessage where
  start := localStart code
  fields := [contentType mime h, contentLength content.length, connectionClose]
  body := .sized content
  framed := by
    have htype : (contentType mime h).key = ascii "content-type" :=
      show toLower (ascii "Content-Type") = ascii "content-type" by decide
    have hlength : (contentLength content.length).key = ascii "content-length" :=
      show toLower (ascii "Content-Length") = ascii "content-length" by decide
    have hclose : connectionClose.key = ascii "connection" := by decide
    refine ⟨?_, ?_, fun _ => ⟨_, by simp, hlength⟩⟩
    · intro f hf hkey
      simp only [List.mem_cons, List.not_mem_nil, or_false] at hf
      rcases hf with rfl | rfl | rfl
      · exact absurd (htype.symm.trans hkey) (by decide)
      · exact absurd (hlength.symm.trans hkey) (by decide)
      · exact absurd (hclose.symm.trans hkey) (by decide)
    · intro f hf hkey
      simp only [List.mem_cons, List.not_mem_nil, or_false] at hf
      rcases hf with rfl | rfl | rfl
      · exact absurd (htype.symm.trans hkey) (by decide)
      · exact contentLength_denotes content.length
      · exact absurd (hclose.symm.trans hkey) (by decide)

/-- The header of a response made here is that of a message. -/
theorem localHeader_eq (code : ℕ) {mime : Bytes} (content : Bytes)
    (h : ∀ c ∈ mime, isTextByte c = true) :
    localHeader code mime content =
      joinLines crlf (localMessage code mime content h).lines ++ crlf := by
  simp [localHeader, HttpMessage.lines, localMessage, localStart, StartLine.line, Field.line,
    contentType, contentLength, connectionClose, ascii, crlf]

/-- **The header is one block, which announces the length of the content** and which a parser of
responses forwards as it is. -/
theorem localHeader_block (code : ℕ) {mime content : Bytes}
    (hmime : ∀ c ∈ mime, isTextByte c = true) (hlen : content.length < 2 ^ 64) :
    ∃ head, Delimited head ∧ head ++ (crlf ++ crlf) = localHeader code mime content ∧
      (∀ ip isRequest, announced ip isRequest head = (false, content.length)) ∧
      ∀ ip, rewritten ip false head = localHeader code mime content := by
  have hlines := (localMessage code mime content hmime).headerLines
  obtain ⟨head, hhead⟩ := exists_head hlines
  have hframing : framing (localMessage code mime content hmime).lines = (false, content.length) :=
    (localMessage code mime content hmime).framing_lines hlen
  refine ⟨head, delimited_of_lines hlines hhead, ?_, fun ip isRequest => ?_, fun ip => ?_⟩
  · rw [localHeader_eq code content hmime, ← hhead, List.append_assoc]
  · rw [announced_eq hlines hhead, hframing]
  · rw [rewritten_eq hlines hhead, localHeader_eq code content hmime]
    rfl

end PkuyoProxy.Analysis
