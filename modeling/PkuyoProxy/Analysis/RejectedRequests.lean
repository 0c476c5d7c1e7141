import PkuyoProxy.Analysis.LocalResponses
import PkuyoProxy.Analysis.ResponseOrder

/-!
# Answers to rejected requests

The page for a rejected request is built without `get_response_head`, which every other page of
the proxy goes through.  Its status code is still the invalid one when it comes to the client's
handler, which puts the page for an internal error in its place.
-/

set_option autoImplicit false

namespace PkuyoProxy.Analysis

open PkuyoProxy.Lib PkuyoProxy.Model PkuyoProxy.Interface

/-- The header begins with the status line of the code and announces a body of length `n`. -/
def StatesPage (code n : ℕ) (header : Bytes) : Prop :=
  ascii "HTTP/1.1 " ++ decimal code ++ ascii " " ++ getStatusMsg code ++ crlf <+: header ∧
    ∃ head, Delimited head ∧ header = head ++ (crlf ++ crlf) ∧
      announced [] false head = (false, n)

/-- Nothing was given to the backend, and the client's queue was given one response: a page with
this status code. -/
structure AnsweredWith (code : ℕ) (p p' : ProxyPair) (response : HttpContext) : Prop where
  backend : p'.backend = p.backend
  pushed : p'.client.pushed = p.client.pushed ++ [response]
  status : response.response.statusCode = code
  page : StatesPage code response.content.length response.header

/-- The pages have no NUL in them. -/
theorem zero_notMem_page (code : ℕ) : (0 : UInt8) ∉ backendErrorResponse code := by
  have hdecimal : 0 ∉ decimal code := notMem_digits (isDigit_decimal code) (by decide)
  have hmsg : (0 : UInt8) ∉ getStatusMsg code := by
    unfold getStatusMsg
    split <;> decide
  have hopening : (0 : UInt8) ∉ ascii "<html><head><title>" := by decide
  have hclosing : (0 : UInt8) ∉
      ascii "</title></head><body><center>pkuyo-proxy</center></body></html>" := by decide
  have hspace : (0 : UInt8) ∉ ascii " " := by decide
  unfold backendErrorResponse overwrite
  simp only [List.mem_append, not_or]
  exact ⟨⟨⟨⟨hdecimal, hspace⟩, hmsg⟩, hclosing⟩, fun hmem => hopening (List.mem_of_mem_drop hmem)⟩

/-- The header of the page for the code 500 states it. -/
theorem statesPage_500 :
    StatesPage 500 (backendErrorResponse 500).length
      (genHttpHeader (backendErrorResponse 500) 500) := by
  have hlen : (backendErrorResponse 500).length < 2 ^ 64 := by decide +kernel
  have hmime : ∀ c ∈ ascii "text/html", isTextByte c = true := by decide
  obtain ⟨head, hdelim, hheader, hann, -⟩ := localHeader_block 500 hmime hlen
  rw [genHttpHeader_eq (zero_notMem_page 500)]
  refine ⟨?_, head, hdelim, hheader.symm, hann [] false⟩
  unfold localHeader
  simp only [List.append_assoc, List.prefix_append_right_inj, List.prefix_append]

/-- What the client's handler makes of the page. -/
theorem substitute_badRequest :
    substitute badRequest =
      { badRequest with
        content := backendErrorResponse 500
        header := genHttpHeader (backendErrorResponse 500) 500
        response := { statusCode := 500 } } := by
  have hheader : genHttpHeader (backendErrorResponse 500) 500 =
      localHeader 500 (ascii "text/html") (backendErrorResponse 500) :=
    genHttpHeader_eq (zero_notMem_page 500) 500
  exact congrArg Prod.snd (@getResponseHead_local
    { badRequest with
      content := backendErrorResponse 500
      header := genHttpHeader (backendErrorResponse 500) 500 } 500 (by decide) _ _ hheader)

/-- **A rejected request is never answered 400**: whatever its header and its body, it is answered
with the page for an internal error. -/
theorem rejected_answered_500 {p : ProxyPair} (hp : Linked p) (io : HandOver)
    (content : HttpContext) (hinvalid : content.request.isValid = false) :
    (∃ p' response, p.recvRequest io content = .ok p' ∧ AnsweredWith 500 p p' response) ∧
      ∀ p', p.recvRequest io content = .ok p' → ∀ response, ¬ AnsweredWith 400 p p' response := by
  have hrejected := hp.recvRequest_rejected io hinvalid
  have htake : takeOn p.client.handler.isRequest badRequest = .inl (substitute badRequest) := by
    rw [hp.client]
    rfl
  have hpushed : (p.recvResponse io badRequest).client.pushed =
      p.client.pushed ++ [(substitute badRequest).moved] := (recvContent_takenOn htake io.client).1
  constructor
  · refine ⟨_, _, hrejected, rfl, hpushed, ?_, ?_⟩
    · rw [substitute_badRequest]
      rfl
    · rw [substitute_badRequest]
      exact statesPage_500
  · intro p' hp' response hanswered
    cases hrejected.symm.trans hp'
    have hsame := List.append_cancel_left (hpushed.symm.trans hanswered.pushed)
    have hstatus := hanswered.status
    rw [← List.singleton_inj.mp hsame, substitute_badRequest] at hstatus
    cases hstatus

/-- A new pair with a connected backend. -/
def openedPair : ProxyPair := ⟨.opened true {}, .normal (.opened false {})⟩

/-- The request ` / H`, which has no method. -/
def blankMethod : HttpContext :=
  { isCompleted := true, header := ascii " / H\r\n\r\n", request := { urlPath := ascii "/" } }

/-- A request without a method is answered with the code 500, and never with 400. -/
theorem rejected_answered_500_blank :
    (∃ p' response, openedPair.recvRequest {} blankMethod = .ok p' ∧
        AnsweredWith 500 openedPair p' response) ∧
      ∀ p', openedPair.recvRequest {} blankMethod = .ok p' → ∀ response,
        ¬ AnsweredWith 400 openedPair p' response :=
  rejected_answered_500 ⟨rfl, _, rfl, rfl⟩ {} blankMethod rfl

/-- The rejected request is not always answered with the code 400. -/
theorem not_answered_400 :
    ¬ ∀ (p : ProxyPair) (io : HandOver) (content : HttpContext), Linked p →
      content.request.isValid = false →
      ∃ p' response, p.recvRequest io content = .ok p' ∧ AnsweredWith 400 p p' response := by
  intro hall
  obtain ⟨p', response, hp', hanswered⟩ := hall openedPair {} blankMethod ⟨rfl, _, rfl, rfl⟩ rfl
  have hcodes : (openedPair.recvRequest {} blankMethod).map
      (fun p => p.client.pushed.map (·.response.statusCode)) = .ok [500] := by decide
  rw [hp'] at hcodes
  have hpushed : p'.client.pushed = [response] := hanswered.pushed
  have hstatus := hanswered.status
  have hcode : p'.client.pushed.map (·.response.statusCode) = [500] := Except.ok.inj hcodes
  rw [hpushed, List.map_singleton, hstatus] at hcode
  revert hcode
  decide

end PkuyoProxy.Analysis
