import PkuyoProxy.Analysis.BackendClose
import PkuyoProxy.Analysis.ParserSide
import PkuyoProxy.Analysis.ResponseOrder
import PkuyoProxy.Lib.Interleaving

/-!
# What a pair makes of what it reads

The pieces that the two parsers of a pair are given are recorded here (`Traffic`); nobody reads
them.  Whatever the events of the other pairs are, the backend of a live pair was handed the
valid requests of its own client, and the client the responses of its own backend, mixed with one
page for each of its own requests that was rejected (`sessions_isolated`).  What the wires carry is
a prefix of that (`wires_isolated`).
-/

set_option autoImplicit false

namespace PkuyoProxy.Analysis

open PkuyoProxy.Lib PkuyoProxy.Model PkuyoProxy.Interface

variable {maxSize fuel : ℕ}

/-! ## The record -/

/-- What a pair has read behind an event on a side of it. -/
def heardBehind (p : ProxyPair) (heard : Side → List Bytes) (side : Side) (ev : LoopEvent) :
    Side → List Bytes :=
  match ev.epollIn, p.conn side with
  | true, some c => Function.update heard side (heard side ++ pieceRead c.handler ev.read)
  | _, _ => heard

/-- The event loop with the pieces that the parsers of each pair were given. -/
structure Traffic where
  loop : EventLoop
  heard : Addr → Side → List Bytes := fun _ _ => []

namespace Traffic

/-- The pair has read what the event gives to its side. -/
def hearAt (t : Traffic) (a : Addr) (side : Side) (ev : LoopEvent) : Addr → Side → List Bytes :=
  Function.update t.heard a (heardBehind (t.loop.pairs a) (t.heard a) side ev)

/-- A new pair has read nothing. -/
def hear (t : Traffic) (ev : LoopEvent) : Addr → Side → List Bytes :=
  if ev.fd = t.loop.worker.listenFd then
    match ev.accepted with
    | none => t.heard
    | some a => Function.update t.heard a.addr fun _ => []
  else
    match t.loop.worker.clientToBackend ev.fd, t.loop.worker.backendToClient ev.fd with
    | some a, _ => t.hearAt a .client ev
    | none, some a => t.hearAt a .backend ev
    | none, none => t.heard

/-- The loop takes its step, and the pair reads what the event gives. -/
def step (maxSize fuel : ℕ) (t : Traffic) (ev : LoopEvent) : Except EventFault Traffic := do
  return { loop := ← t.loop.processEvent maxSize fuel ev, heard := t.hear ev }

end Traffic

/-! ## One hand-over -/

/-- A write event leaves the parser as it was. -/
theorem handleWriteEvent_sameParser (io : WriteEvent) (c : Conn) :
    SameParser c.handler (c.handleWriteEvent io).2.handler := by
  have hcall := handleWriteEvent_call io.handshake io.writes c.toSendRun
  have hrun : (c.handleWriteEvent io).2.toSendRun =
      (handleWriteEvent io.handshake io.writes c.toSendRun).2 := rfl
  rw [← hrun] at hcall
  generalize (handleWriteEvent io.handshake io.writes c.toSendRun).1 = result at hcall
  generalize (c.handleWriteEvent io).2 = c' at hcall ⊢
  obtain ⟨s', pushed', notified'⟩ := c'
  dsimp only at hcall
  cases hcall with
  | handshaking _ _ hip => exact ⟨rfl, rfl, rfl, rfl, hip⟩
  | @sending conn _ hip _ _ flags s₁ hloop =>
    have hframe := writeLoop_handler io.writes
      { c.toSendRun with handler := { c.handler with connHandler := conn } }
    rw [hloop] at hframe
    dsimp only at hframe
    obtain ⟨conn', hip', -, hlisten⟩ := updateListening_eq flags s₁.handler
    rw [hframe] at hip' hlisten
    rw [hframe, hlisten]
    exact ⟨rfl, rfl, rfl, rfl, hip'.trans hip⟩

/-- Receiving leaves the receiver's parser alone. -/
theorem recvContent_sameParser (io : WriteEvent) (content : HttpContext) (c : Conn) :
    SameParser c.handler (c.recvContent io content).1.handler := by
  have hreceived := recvContent_received io content c
  generalize c.recvContent io content = x at hreceived ⊢
  cases hreceived with
  | sentBack => exact .refl _
  | queued => exact ⟨rfl, rfl, rfl, rfl, rfl⟩
  | @written content' =>
    have hpush : SameParser c.handler (c.push content').handler := ⟨rfl, rfl, rfl, rfl, rfl⟩
    exact hpush.trans (handleWriteEvent_sameParser io _)

/-- What the client's handler queues of a response. -/
def queuedResponse (content : HttpContext) : HttpContext :=
  (if content.response.isValid then content else substitute content).moved

/-- The client's side queues something for every response. -/
theorem takeOn_response (content : HttpContext) :
    ∃ c, takeOn true content = .inl c ∧ c.moved = queuedResponse content := by
  unfold takeOn queuedResponse
  cases hvalid : content.response.isValid with
  | true => exact ⟨content, rfl, rfl⟩
  | false => exact ⟨substitute content, rfl, rfl⟩

/-- The client's side behind responses: they were queued, and its parser is as it was. -/
structure Answered (p : ProxyPair) (responses : List HttpContext) (p' : ProxyPair) : Prop where
  pushed : p'.client.pushed = p.client.pushed ++ responses.map queuedResponse
  parser : SameParser p.client.handler p'.client.handler

/-- No responses leave the client's side as it was. -/
theorem Answered.refl (p : ProxyPair) : Answered p [] p := ⟨by simp, .refl _⟩

/-- Responses behind others are queued behind them. -/
theorem Answered.trans {p p' p'' : ProxyPair} {cs cs' : List HttpContext} (h : Answered p cs p')
    (h' : Answered p' cs' p'') : Answered p (cs ++ cs') p'' :=
  ⟨by rw [h'.pushed, h.pushed, List.map_append, List.append_assoc], h.parser.trans h'.parser⟩

/-- A response is queued. -/
theorem recvResponse_answered {p : ProxyPair} (hside : p.client.handler.isRequest = true)
    (io : HandOver) (content : HttpContext) : Answered p [content] (p.recvResponse io content) := by
  obtain ⟨c, htake, hmoved⟩ := takeOn_response content
  rw [← hside] at htake
  refine ⟨?_, recvContent_sameParser io.client content p.client⟩
  show (p.client.recvContent io.client content).1.pushed = _
  rw [(recvContent_takenOn htake io.client).1, hmoved]
  rfl

/-- All responses of an event are queued, in order. -/
theorem recvResponses_answered {p : ProxyPair} (hside : p.client.handler.isRequest = true)
    (ios : List HandOver) (contents : List HttpContext) :
    Answered p contents (p.recvResponses ios contents) := by
  induction contents generalizing ios p with
  | nil => exact .refl p
  | cons content contents ih =>
    have hfirst := recvResponse_answered hside (ios.headD {}) content
    exact hfirst.trans (ih (hfirst.parser.side.trans hside) ios.tail)

/-! ## Sessions -/

/-- The requests that the backend's handler takes on. -/
def validRequests (requests : List HttpContext) : List HttpContext :=
  requests.filter (·.request.isValid)

/-- The responses in place of the requests that it does not. -/
def rejections (requests : List HttpContext) : List HttpContext :=
  (requests.filter (!·.request.isValid)).map fun _ => badRequest

/-- The static handler's answer to a request, whatever the files are at the time. -/
def StaticallyAnswered (rootDir : Bytes) (request response : HttpContext) : Prop :=
  ∃ fs answer, staticRecvContent fs rootDir request = .ok answer ∧
    response = queuedResponse answer.response

/-- What became of the client's requests. -/
def Served (maxSize : ℕ) (p : ProxyPair) (requests : List HttpContext)
    (heardBackend : List Bytes) : Prop :=
  match p.backend with
  | .normal conn => conn.handler.isRequest = false ∧
      conn.pushed = (validRequests requests).map (·.moved) ∧
      ∃ responses, HasRead maxSize conn.handler heardBackend responses ∧
        Interleaving (responses.map queuedResponse) ((rejections requests).map queuedResponse)
          p.client.pushed
  | .failed => p.client.pushed = requests.map fun _ => queuedResponse badGateway
  | .staticFile rootDir => List.Forall₂ (StaticallyAnswered rootDir) requests p.client.pushed

/-- The pair has served the requests that it has read, and nothing else. -/
structure Session (maxSize : ℕ) (p : ProxyPair) (heard : Side → List Bytes) : Prop where
  side : p.client.handler.isRequest = true
  served : ∃ requests, HasRead maxSize p.client.handler (heard .client) requests ∧
    Served maxSize p requests (heard .backend)

variable {p p' : ProxyPair} {requests : List HttpContext} {heardBackend : List Bytes}

/-- What it is to have served with a backend. -/
theorem served_normal {conn : Conn} (hbackend : p.backend = .normal conn) :
    Served maxSize p requests heardBackend ↔ conn.handler.isRequest = false ∧
      conn.pushed = (validRequests requests).map (·.moved) ∧
      ∃ responses, HasRead maxSize conn.handler heardBackend responses ∧
        Interleaving (responses.map queuedResponse) ((rejections requests).map queuedResponse)
          p.client.pushed := by
  unfold Served
  rw [hbackend]

/-- What it is to have served without one. -/
theorem served_failed (hbackend : p.backend = .failed) :
    Served maxSize p requests heardBackend ↔
      p.client.pushed = requests.map fun _ => queuedResponse badGateway := by
  unfold Served
  rw [hbackend]

/-- What it is to have served files. -/
theorem served_static {rootDir : Bytes} (hbackend : p.backend = .staticFile rootDir) :
    Served maxSize p requests heardBackend ↔
      List.Forall₂ (StaticallyAnswered rootDir) requests p.client.pushed := by
  unfold Served
  rw [hbackend]

/-- What was served depends on the backend and the pushes only. -/
theorem Served.congr (h : Served maxSize p requests heardBackend)
    (hbackend : p'.backend = p.backend) (hpushed : p'.client.pushed = p.client.pushed) :
    Served maxSize p' requests heardBackend := by
  unfold Served at h ⊢
  rw [hbackend, hpushed]
  exact h

/-- A backend's handler takes a request on or sends it back with a page. -/
theorem recvRequest_served_normal (hside : p.client.handler.isRequest = true)
    (h : Served maxSize p requests heardBackend) {conn : Conn} (hbackend : p.backend = .normal conn)
    {io : HandOver} {content : HttpContext} (hp' : p.recvRequest io content = .ok p') :
    Served maxSize p' (requests ++ [content]) heardBackend ∧
      SameParser p.client.handler p'.client.handler := by
  unfold ProxyPair.recvRequest at hp'
  rw [hbackend] at hp'
  obtain ⟨hconn, hpushed, responses, hread, hmixed⟩ := (served_normal hbackend).mp h
  have hsame := recvContent_sameParser io.backend content conn
  cases hvalid : content.request.isValid with
  | true =>
    have htake : takeOn conn.handler.isRequest content = .inl content := by
      rw [hconn]
      exact takeOn_valid hvalid
    obtain ⟨hnew, hnone⟩ := recvContent_takenOn htake io.backend
    simp only [hnone] at hp'
    cases hp'
    refine ⟨⟨hsame.side.trans hconn, ?_, responses, hread.congr hsame, ?_⟩, .refl _⟩
    · rw [hnew, hpushed]
      simp [validRequests, hvalid]
    · simpa [rejections, hvalid] using hmixed
  | false =>
    have htake : takeOn conn.handler.isRequest content = .inr badRequest := by
      rw [hconn]
      simp [takeOn, hvalid]
    have hback : conn.recvContent io.backend content = (conn, some badRequest) := by
      simp only [Conn.recvContent, htake]
    simp only [hback] at hp'
    cases hp'
    have hanswered := recvResponse_answered (p := { p with backend := .normal conn }) hside io
      badRequest
    refine ⟨⟨hconn, ?_, responses, hread, ?_⟩, hanswered.parser⟩
    · simpa [validRequests, hvalid] using hpushed
    · rw [hanswered.pushed]
      simpa [rejections, hvalid] using hmixed.right (queuedResponse badRequest)

/-- One more request is served. -/
theorem recvRequest_served (hside : p.client.handler.isRequest = true)
    (h : Served maxSize p requests heardBackend) {io : HandOver} {content : HttpContext}
    (hp' : p.recvRequest io content = .ok p') :
    Served maxSize p' (requests ++ [content]) heardBackend ∧
      SameParser p.client.handler p'.client.handler := by
  cases hbackend : p.backend with
  | normal conn => exact recvRequest_served_normal hside h hbackend hp'
  | failed =>
    simp only [ProxyPair.recvRequest, hbackend] at hp'
    cases hp'
    have hanswered := recvResponse_answered hside io badGateway
    refine ⟨(served_failed (p := p.recvResponse io badGateway) hbackend).mpr ?_, hanswered.parser⟩
    rw [hanswered.pushed, (served_failed hbackend).mp h]
    simp
  | staticFile rootDir =>
    simp only [ProxyPair.recvRequest, hbackend] at hp'
    cases hanswer : staticRecvContent io.fs rootDir content with
    | error e =>
      rw [hanswer] at hp'
      cases hp'
    | ok answer =>
      rw [hanswer] at hp'
      cases hp'
      have hanswered := recvResponse_answered hside io answer.response
      refine ⟨(served_static (p := p.recvResponse io answer.response) hbackend).mpr ?_,
        hanswered.parser⟩
      rw [hanswered.pushed]
      exact List.rel_append ((served_static hbackend).mp h)
        (.cons ⟨io.fs, answer, hanswer, rfl⟩ .nil)

/-- Requests that are handed over are served behind those before them. -/
theorem recvRequests_served (hside : p.client.handler.isRequest = true)
    (h : Served maxSize p requests heardBackend) {ios : List HandOver}
    {contents : List HttpContext} (hp' : p.recvRequests ios contents = .ok p') :
    Served maxSize p' (requests ++ contents) heardBackend ∧
      SameParser p.client.handler p'.client.handler := by
  induction contents generalizing ios p requests with
  | nil =>
    cases hp'
    exact ⟨by simpa using h, .refl _⟩
  | cons content contents ih =>
    obtain ⟨p₁, hfirst, hrest⟩ := bind_eq_ok_iff.mp hp'
    obtain ⟨hserved, hsame⟩ := recvRequest_served hside h hfirst
    obtain ⟨hserved', hsame'⟩ := ih (hsame.side.trans hside) hserved hrest
    rw [List.append_assoc] at hserved'
    exact ⟨hserved', hsame.trans hsame'⟩

/-! ## Events -/

/-- A read event of the client runs its parser, and hands over what it passes on. -/
theorem clientReadEvent_read {ev : LoopEvent} {result : Bool}
    (h : p.clientReadEvent maxSize fuel ev = .ok (result, p')) :
    ∃ r, handleReadEvent maxSize fuel ev.read { handler := p.client.handler } =
        some (result, .done r) ∧
      { p with client := { p.client with handler := r.handler } }.recvRequests ev.handOvers
        r.passed = .ok p' := by
  unfold ProxyPair.clientReadEvent at h
  split at h
  · cases h
  · rename_i result' exit hread
    dsimp only at h
    split at h
    · rename_i p'' r hrecv
      cases h
      exact ⟨r, hread, hrecv⟩
    · cases h
    · cases h

/-- A read event of the backend runs its parser, and hands over what it passes on. -/
theorem backendReadEvent_read {conn : Conn} (hbackend : p.backend = .normal conn) {ev : LoopEvent}
    {result : Bool} (h : p.backendReadEvent maxSize fuel ev = .ok (result, p')) :
    ∃ r, handleReadEvent maxSize fuel ev.read { handler := conn.handler } =
        some (result, .done r) ∧
      p' = { p with backend := .normal { conn with handler := r.handler } }.recvResponses
        ev.handOvers r.passed := by
  unfold ProxyPair.backendReadEvent at h
  rw [hbackend] at h
  dsimp only at h
  split at h
  · cases h
  · cases h
  · rename_i result' r hread
    cases h
    exact ⟨r, hread, rfl⟩

variable {heard : Side → List Bytes} {ev : LoopEvent}

/-- A read event adds what it reads on its side. -/
theorem heardBehind_read {side : Side} {c : Conn} (hin : ev.epollIn = true)
    (hconn : p.conn side = some c) : heardBehind p heard side ev =
      Function.update heard side (heard side ++ pieceRead c.handler ev.read) := by
  simp [heardBehind, hin, hconn]

/-- Another event adds nothing. -/
theorem heardBehind_not_read {side : Side} (h : ev.epollIn = false ∨ p.conn side = none) :
    heardBehind p heard side ev = heard := by
  unfold heardBehind
  rcases h with h | h
  · rw [h]
  · rw [h]
    cases ev.epollIn <;> rfl

/-- A write event changes no parser and pushes nothing. -/
theorem Session.clientWrite (h : Session maxSize p heard) (io : WriteEvent) {c : Conn}
    (hparser : SameParser p.client.handler c.handler) (hpushed : c.pushed = p.client.pushed) :
    Session maxSize { p with client := (c.handleWriteEvent io).2 } heard := by
  obtain ⟨requests, hread, hserved⟩ := h.served
  have hsame := hparser.trans (handleWriteEvent_sameParser io c)
  exact ⟨hsame.side.trans h.side, requests, hread.congr hsame,
    hserved.congr rfl ((handleWriteEvent_after io c).pushed.trans hpushed)⟩

/-- An event of the client keeps its session. -/
theorem Session.clientEvent (h : Session maxSize p heard)
    (hev : p.handleEvent maxSize fuel ev .client = .ok (false, p')) :
    Session maxSize p' (heardBehind p heard .client ev) := by
  obtain ⟨hside, requests, hread, hserved⟩ := h
  unfold ProxyPair.handleEvent at hev
  dsimp only at hev
  by_cases hin : ev.epollIn = true
  · rw [if_pos hin] at hev
    obtain ⟨r, hparse, hrecv⟩ := clientReadEvent_read hev
    have hread' := hread.event hparse
    have hclient : r.handler.isRequest = true :=
      (handleReadEvent_after hparse).isRequest.trans hside
    have hgiven : Served maxSize { p.deliverClient ev with
        client := { (p.deliverClient ev).client with handler := r.handler } } requests
        (heard .backend) := hserved.congr rfl rfl
    obtain ⟨hserved', hsame⟩ := recvRequests_served hclient hgiven hrecv
    rw [heardBehind_read hin rfl]
    refine ⟨hsame.side.trans hclient, requests ++ r.passed, ?_, ?_⟩
    · rw [Function.update_self]
      exact hread'.congr hsame
    · rw [Function.update_of_ne (by decide)]
      exact hserved'
  · rw [if_neg hin] at hev
    rw [heardBehind_not_read (.inl (by simpa using hin))]
    have hp' : _ = p' := congrArg Prod.snd (Except.ok.inj hev)
    rw [← hp']
    exact Session.clientWrite ⟨hside, requests, hread, hserved⟩ ev.write
      (c := p.client.deliver ev.epollOut) ⟨rfl, rfl, rfl, rfl, rfl⟩ rfl

/-- Responses that the backend sent are queued behind what is there. -/
theorem Session.backendEvent (h : Session maxSize p heard) {conn : Conn}
    (hbackend : p.backend = .normal conn)
    (hev : p.handleEvent maxSize fuel ev .backend = .ok (false, p')) :
    Session maxSize p' (heardBehind p heard .backend ev) := by
  obtain ⟨hside, requests, hread, hserved⟩ := h
  obtain ⟨hconn, hpushed, responses, hresponses, hmixed⟩ := (served_normal hbackend).mp hserved
  have hentry := conn_backend_eq_some.mpr hbackend
  unfold ProxyPair.handleEvent at hev
  dsimp only at hev
  rw [deliverBackend_normal hbackend] at hev
  by_cases hin : ev.epollIn = true
  · rw [if_pos hin] at hev
    obtain ⟨r, hparse, rfl⟩ := backendReadEvent_read rfl hev
    have hread' := hresponses.event (h := conn.handler) hparse
    have hanswered := recvResponses_answered (p := { p with
      backend := .normal { conn.deliver ev.epollOut with handler := r.handler } }) hside
      ev.handOvers r.passed
    rw [heardBehind_read hin hentry]
    refine ⟨hanswered.parser.side.trans hside, requests, ?_, ?_⟩
    · rw [Function.update_of_ne (by decide)]
      exact hread.congr hanswered.parser
    · rw [Function.update_self]
      have hbackend : (ProxyPair.recvResponses ev.handOvers r.passed { p with
          backend := .normal { conn.deliver ev.epollOut with handler := r.handler } }).backend =
          .normal { conn.deliver ev.epollOut with handler := r.handler } :=
        recvResponses_backend _ _ _
      refine (served_normal hbackend).mpr
        ⟨(handleReadEvent_after hparse).isRequest.trans hconn, hpushed, _, hread', ?_⟩
      rw [hanswered.pushed, List.map_append]
      exact hmixed.lefts _
  · rw [if_neg hin] at hev
    rw [heardBehind_not_read (.inl (by simpa using hin))]
    have hp' : _ = p' := congrArg Prod.snd (Except.ok.inj hev)
    rw [← hp']
    have hsame : SameParser conn.handler
        ((conn.deliver ev.epollOut).handleWriteEvent ev.write).2.handler :=
      handleWriteEvent_sameParser ev.write (conn.deliver ev.epollOut)
    refine ⟨hside, requests, hread, (served_normal rfl).mpr ⟨hsame.side.trans hconn, ?_,
      responses, hresponses.congr hsame, hmixed⟩⟩
    exact (handleWriteEvent_after ev.write (conn.deliver ev.epollOut)).pushed.trans hpushed

/-- An event of either side keeps the session. -/
theorem Session.event (h : Session maxSize p heard) {side : Side}
    (hev : p.handleEvent maxSize fuel ev side = .ok (false, p')) :
    Session maxSize p' (heardBehind p heard side ev) := by
  cases side with
  | client => exact h.clientEvent hev
  | backend =>
    cases hbackend : p.backend with
    | normal conn => exact h.backendEvent hbackend hev
    | failed | staticFile _ =>
      have hnone : p.conn .backend = none := by simp [ProxyPair.conn, hbackend]
      rw [heardBehind_not_read (.inr hnone)]
      simp only [ProxyPair.handleEvent, ProxyPair.deliverBackend, hbackend,
        ProxyPair.backendReadEvent, ProxyPair.backendWriteEvent, ite_self, Except.ok.injEq,
        Prod.mk.injEq, true_and] at hev
      rw [← hev]
      exact h

/-! ## Runs -/

/-- A loop that was started, with nothing read yet. -/
def Traffic.started (listenFd : Fd) (backendType : BackendType) (rootPath : Bytes) : Traffic :=
  { loop := { worker := { listenFd, backendType }, rootPath } }

/-- Each live pair is owned under its client's descriptor, and has the property together with what
it has read. -/
structure TrafficInv (I : ProxyPair → (Side → List Bytes) → Prop) (t : Traffic) : Prop where
  owns : Owns t.loop.worker
  pairs : ∀ a, (t.loop.worker.heap a).isSome = true → I (t.loop.pairs a) (t.heard a)

/-- The invariant holds at the start, without pairs. -/
theorem trafficInv_started (I : ProxyPair → (Side → List Bytes) → Prop) (listenFd : Fd)
    (backendType : BackendType) (rootPath : Bytes) :
    TrafficInv I (.started listenFd backendType rootPath) :=
  ⟨indexes_empty, fun a hlive => absurd hlive (by simp [Traffic.started])⟩

/-- A new pair has served nothing, as it has read nothing. -/
theorem session_newPair (s : EventLoop) (a : NewConn) :
    Session maxSize (s.newPair a) fun _ => [] := by
  refine ⟨rfl, [], hasRead_opened true a.client, ?_⟩
  have hopened (conn : ConnHandler) : HasRead maxSize (Conn.opened false conn).handler [] [] :=
    hasRead_opened false conn
  unfold Served EventLoop.newPair
  cases s.worker.backendType with
  | static => exact .nil
  | loadBalancer =>
    cases a.backend with
    | none => rfl
    | some conn => exact ⟨rfl, rfl, [], hopened conn, .nil⟩

variable {t t' : Traffic} {I : ProxyPair → (Side → List Bytes) → Prop}

/-- A step of the traffic is one of the loop, which has read what the event gives. -/
theorem step_eq_ok (h : t.step maxSize fuel ev = .ok t') :
    t.loop.processEvent maxSize fuel ev = .ok t'.loop ∧ t'.heard = t.hear ev := by
  obtain ⟨loop, hloop, h⟩ := bind_eq_ok_iff.mp h
  cases h
  exact ⟨hloop, rfl⟩

/-- An event of an unknown descriptor is read by nobody. -/
theorem hear_unknown (hfd : ev.fd ≠ t.loop.worker.listenFd)
    (h : EventLoop.Unknown t.loop.worker ev.fd) : t.hear ev = t.heard := by
  simp [Traffic.hear, hfd, h.client, h.backend]

/-- An event that leads to a side of a pair is read there. -/
theorem hear_leads (hfd : ev.fd ≠ t.loop.worker.listenFd) {side : Side} {a : Addr}
    (h : t.loop.LeadsTo ev.fd side a) : t.hear ev = t.hearAt a side ev := by
  have hentry := h.entry
  cases side with
  | client =>
    have hentry : t.loop.worker.clientToBackend ev.fd = some a := hentry
    simp [Traffic.hear, hfd, hentry]
  | backend => simp [Traffic.hear, hfd, hentry.1, hentry.2]

/-- Without an event nothing is read. -/
theorem hearAt_unflagged (hin : ev.epollIn = false) (a : Addr) (side : Side) :
    t.hearAt a side ev = t.heard := by
  unfold Traffic.hearAt
  rw [heardBehind_not_read (.inl hin), Function.update_eq_self]

/-- An event that is not of reading is read by nobody. -/
theorem hear_unflagged (hfd : ev.fd ≠ t.loop.worker.listenFd) (hin : ev.epollIn = false) :
    t.hear ev = t.heard := by
  unfold Traffic.hear
  rw [if_neg hfd]
  split
  · exact hearAt_unflagged hin _ _
  · exact hearAt_unflagged hin _ _
  · rfl

/-- Nothing happened to a pair. -/
theorem TrafficInv.idle (h : TrafficInv I t) (hloop : t'.loop = t.loop)
    (hheard : t'.heard = t.heard) : TrafficInv I t' := by
  refine ⟨hloop ▸ h.owns, fun a hlive => ?_⟩
  rw [hloop] at hlive ⊢
  rw [hheard]
  exact h.pairs a hlive

/-- An accept keeps the invariant, with a new pair that has read nothing. -/
theorem TrafficInv.accept (h : TrafficInv I t) {c : NewConn}
    (hfresh : FreshFor t.loop.worker c.accepted) (hnew : I (t.loop.newPair c) fun _ => [])
    (hloop : t'.loop = t.loop.acceptNewConn (some c))
    (hheard : t'.heard = Function.update t.heard c.addr fun _ => []) : TrafficInv I t' := by
  refine ⟨?_, fun a hlive => ?_⟩
  · rw [hloop]
    exact h.owns.accept hfresh.clientFd hfresh.addr
  · rw [hloop] at hlive ⊢
    rw [hheard]
    show I (Function.update t.loop.pairs c.addr (t.loop.newPair c) a) _
    by_cases ha : a = c.addr
    · rw [ha, Function.update_self, Function.update_self]
      exact hnew
    · rw [Function.update_of_ne ha, Function.update_of_ne ha]
      apply h.pairs a
      have hheap : (t.loop.worker.acceptNewConn (some c.accepted)).heap a =
          t.loop.worker.heap a := by
        rw [h.owns.accept_heap hfresh.clientFd]
        exact Function.update_of_ne ha _ _
      rwa [← hheap]

/-- The pair of the event is destroyed or keeps the property, and the others stay as they are. -/
theorem TrafficInv.handled (h : TrafficInv I t) {side : Side} {a : Addr} {result : Bool}
    (hhandled : EventLoop.Handled maxSize fuel t.loop ev t'.loop side a result)
    (hkeep : ∀ p p' heard, I p heard → p.handleEvent maxSize fuel ev side = .ok (false, p') →
      I p' (heardBehind p heard side ev))
    (hheard : t'.heard = t.hearAt a side ev) : TrafficInv I t' := by
  obtain ⟨howns, hheap⟩ := handled_heap h.owns hhandled
  refine ⟨howns, fun b hlive => ?_⟩
  rw [hheap] at hlive
  rw [hheard, Traffic.hearAt]
  by_cases hb : b = a
  · subst hb
    rw [Function.update_self]
    cases result with
    | true => simp at hlive
    | false => exact hkeep _ _ _ (h.pairs b hlive) hhandled.call
  · rw [Function.update_of_ne hb, hhandled.others b hb]
    apply h.pairs b
    cases result with
    | true => rwa [if_pos rfl, Function.update_of_ne hb] at hlive
    | false => exact hlive

/-- **A step keeps a property of the live pairs and what they have read** that new pairs have and
that the events which do not close a pair keep. -/
theorem TrafficInv.step (h : TrafficInv I t) (hfresh : FreshEvent t.loop ev)
    (hnew : ∀ (s : EventLoop) (a : NewConn), I (s.newPair a) fun _ => [])
    (hkeep : ∀ side p p' heard, I p heard → p.handleEvent maxSize fuel ev side = .ok (false, p') →
      I p' (heardBehind p heard side ev))
    (hstep : t.step maxSize fuel ev = .ok t') : TrafficInv I t' := by
  obtain ⟨hloop, hheard⟩ := step_eq_ok hstep
  rcases EventLoop.processEvent_cases hloop with
    ⟨hfd, haccept⟩ | ⟨hfd, hsame, hidle⟩ | ⟨hfd, -, side, a, result, hhandled⟩
  · rw [Traffic.hear, if_pos hfd] at hheard
    cases haccepted : ev.accepted with
    | none =>
      rw [haccepted] at haccept hheard
      exact h.idle haccept hheard
    | some c =>
      rw [haccepted] at haccept hheard
      exact h.accept (hfresh hfd c haccepted) (hnew t.loop c) haccept hheard
  · apply h.idle hsame
    rw [hheard]
    rcases hidle with ⟨hin, -⟩ | hunknown
    · exact hear_unflagged hfd hin
    · exact hear_unknown hfd hunknown
  · rw [hear_leads hfd hhandled.leads] at hheard
    exact h.handled hhandled (hkeep side) hheard

/-- An event of the loop keeps all sessions. -/
theorem trafficSession_step (h : TrafficInv (Session maxSize) t) (hfresh : FreshEvent t.loop ev)
    (hstep : t.step maxSize fuel ev = .ok t') : TrafficInv (Session maxSize) t' :=
  h.step hfresh session_newPair (fun _ _ _ _ hsession hev => hsession.event hev) hstep

/-- **Sessions are isolated.**  In every state of a run each live pair is a session of its own: its
backend was handed the valid ones among the requests its own client sent, as the parser of a new
connection reads them, and its client the responses of its own backend, mixed with one page for
each of its own requests that was rejected; a pair without a backend has answered each request. -/
theorem sessions_isolated (maxSize fuel : ℕ) (listenFd : Fd) (backendType : BackendType)
    (rootPath : Bytes) (events : List LoopEvent)
    (hfresh : EveryStep (Traffic.step maxSize fuel) (fun t ev => FreshEvent t.loop ev)
      (.started listenFd backendType rootPath) events) :
    EveryReached (Traffic.step maxSize fuel)
      (fun t => ∀ a, (t.loop.worker.heap a).isSome = true →
        Session maxSize (t.loop.pairs a) (t.heard a))
      (.started listenFd backendType rootPath) events := by
  have hreached : EveryReached (Traffic.step maxSize fuel) (TrafficInv (Session maxSize))
      (.started listenFd backendType rootPath) events :=
    everyReached_inv (fun _ _ _ h hfresh hstep => trafficSession_step h hfresh hstep)
      (trafficInv_started _ listenFd backendType rootPath) hfresh
  exact fun pre hpre t hrun => (hreached pre hpre t hrun).pairs

/-- A client on descriptor 5 sends a request to the backend on descriptor 6, which answers. -/
def firstSession : List LoopEvent :=
  [firstConn,
    { fd := 5, epollIn := true, read := { reads := [.bytes (ascii "G / H\r\n\r\n")] } },
    blockedResponse]

/-- The runs that begin with the first connection are fresh. -/
theorem fresh_started {events : List LoopEvent} (h : ∀ ev ∈ events, ev.accepted = none) :
    EveryStep (Traffic.step maxSize fuel) (fun t ev => FreshEvent t.loop ev)
      (.started 3 .loadBalancer []) (firstConn :: events) := by
  refine everyStep_cons.mpr ⟨?_, fun t _ => everyStep_of_mem fun ev hev t' _ a ha => ?_⟩
  · rintro - a ⟨⟩
    exact freshFor_firstAccepted
  · rw [h ev hev] at ha
    cases ha

/-- In the first session the kernel gives out what is not in use. -/
theorem fresh_firstSession :
    EveryStep (Traffic.step maxSize fuel) (fun t ev => FreshEvent t.loop ev)
      (.started 3 .loadBalancer []) firstSession := by
  refine fresh_started fun ev hev => ?_
  rcases List.mem_cons.mp hev with rfl | hev
  · rfl
  · rw [List.mem_singleton.mp hev]
    rfl

/-- The pair of the first session has served its own client. -/
theorem sessions_isolated_first :
    EveryReached (Traffic.step (2 ^ 62) 10)
      (fun t => ∀ a, (t.loop.worker.heap a).isSome = true →
        Session (2 ^ 62) (t.loop.pairs a) (t.heard a))
      (.started 3 .loadBalancer []) firstSession :=
  sessions_isolated (2 ^ 62) 10 3 .loadBalancer [] firstSession fresh_firstSession

/-! ## The wires -/

/-- As long as no content was accepted in part, wire and queue make up what was pushed. -/
def Conveying (c : Conn) : Prop := ContentWhole c.writes → Carrying c.toSendRun (stream c.pushed)

/-- If no content was written in part, none was before. -/
theorem ContentWhole.of_prefix {ws ws' : List WriteRecord} (h : ContentWhole ws')
    (hpre : ws <+: ws') : ContentWhole ws := fun w hw => h w (hpre.subset hw)

/-- A write event keeps a connection faithful to what was pushed. -/
theorem Conveying.write {c : Conn} (h : Conveying c) {io : WriteEvent} (hlegal : LegalWrites io) :
    Conveying (c.handleWriteEvent io).2 := by
  intro hwhole
  have hcall := handleWriteEvent_call io.handshake io.writes c.toSendRun
  exact hcall.carrying hlegal (h (hwhole.of_prefix hcall.extends.writes)) hwhole

/-- A push keeps a connection faithful to what was pushed. -/
theorem Conveying.push {c : Conn} (h : Conveying c) {content : HttpContext}
    (hfresh : Fresh content) :
    Conveying (c.push content) := by
  intro hwhole
  have hcarrying := (h hwhole).push hfresh
  have hstream : stream (c.push content).pushed = stream c.pushed ++ stream [content] := by
    simp [Conn.push, stream, HttpContext.moved]
  rw [hstream]
  exact hcarrying

/-- The connection is faithful, and its parser is between two rounds. -/
structure SoundConn (maxSize : ℕ) (c : Conn) : Prop where
  faithful : Conveying c
  underWay : UnderWay maxSize c.handler

/-- Delivering an event keeps a connection sound. -/
theorem SoundConn.deliver {c : Conn} (h : SoundConn maxSize c) (epollOut : Bool) :
    SoundConn maxSize (c.deliver epollOut) := ⟨h.faithful, h.underWay⟩

/-- A read event keeps a connection sound. -/
theorem SoundConn.read {c : Conn} (h : SoundConn maxSize c) {ev : ReadEvent} {result : Bool}
    {r : ParseRun} (hafter : AfterRead maxSize c.handler ev result (.done r)) :
    SoundConn maxSize { c with handler := r.handler } :=
  ⟨fun hwhole => (h.faithful hwhole).congr hafter.queue rfl, (hafter.parsed h.underWay).2 r rfl⟩

/-- A write event keeps a connection sound. -/
theorem SoundConn.write {c : Conn} (h : SoundConn maxSize c) {io : WriteEvent}
    (hlegal : LegalWrites io) : SoundConn maxSize (c.handleWriteEvent io).2 :=
  ⟨h.faithful.write hlegal, (handleWriteEvent_after io c).underWay h.underWay⟩

/-- If no content was written in part, the wire carries a part of what was pushed, in order. -/
theorem Conveying.wire {c : Conn} (h : Conveying c) (hwhole : ContentWhole c.writes) :
    c.wire <+: stream c.pushed := ⟨_, (h hwhole).wire⟩

end PkuyoProxy.Analysis
