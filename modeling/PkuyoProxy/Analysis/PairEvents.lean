import PkuyoProxy.Analysis.ConnectionMaps
import PkuyoProxy.Analysis.EndOfStream
import PkuyoProxy.Analysis.OutputStream
import PkuyoProxy.Analysis.ParserStates
import PkuyoProxy.Model.EventLoop

/-!
# What an event does to the handlers of a pair

A read event works on the parser of a handler and leaves its sending side alone
(`handleReadEvent_after`); a write event works on the sending side and leaves the parser alone
(`handleWriteEvent_after`).  What one handler reads is handed over to the other, so a property of
single connections that every hand-over keeps is kept by a whole read event
(`recvRequests_keep`, `recvResponses_keep`).  A pair whose event returns `true` is destroyed, so
a property of pairs that the other events keep holds of all live pairs (`LiveInv.step`).
-/

set_option autoImplicit false

namespace PkuyoProxy.Analysis

open PkuyoProxy.Lib PkuyoProxy.Model PkuyoProxy.Interface
open PkuyoProxy.Model.NormalConnHandler

variable {maxSize fuel : ℕ}

/-! ## Reading -/

/-- The sending side of a handler is as it was. -/
structure SameSending (h h' : NormalConnHandler) : Prop where
  queue : h'.queue = h.queue
  isSending : h'.isSending = h.isSending
  isRequest : h'.isRequest = h.isRequest
  conn : h'.connHandler = h.connHandler

/-- A handler has its own sending side. -/
theorem SameSending.refl (h : NormalConnHandler) : SameSending h h := ⟨rfl, rfl, rfl, rfl⟩

/-- A sending side that stays twice stays. -/
theorem SameSending.trans {h h' h'' : NormalConnHandler} (h₁ : SameSending h h')
    (h₂ : SameSending h' h'') : SameSending h h'' :=
  ⟨h₂.queue.trans h₁.queue, h₂.isSending.trans h₁.isSending, h₂.isRequest.trans h₁.isRequest,
    h₂.conn.trans h₁.conn⟩

/-- The round has left the sending side alone, however it ended. -/
def Apart (h : NormalConnHandler) : Flow Exn ParseRun → Prop :=
  FlowIn (fun r => SameSending h r.handler) fun _ r => SameSending h r.handler

/-- Reading a header block leaves the sending side alone. -/
theorem readHeaders_apart (maxSize : ℕ) (r : ParseRun) :
    Apart r.handler (readHeaders maxSize r) := by
  have hround := readHeaders_round maxSize r
  generalize readHeaders maxSize r = f at hround ⊢
  cases hround with
  | incomplete => exact .refl _
  | chunked | skipped | tooLong | sized => exact ⟨rfl, rfl, rfl, rfl⟩
  | bodiless _ _ hr' =>
    rw [hr']
    exact ⟨rfl, rfl, rfl, rfl⟩

/-- Reading a body leaves the sending side alone. -/
theorem readBody_apart (r : ParseRun) : Apart r.handler (readBody r) := by
  have hround := readBody_round r
  generalize readBody r = f at hround ⊢
  cases hround with
  | ended _ hr' =>
    rw [hr']
    exact ⟨rfl, rfl, rfl, rfl⟩
  | underWay => exact ⟨rfl, rfl, rfl, rfl⟩

/-- Reading the size of a chunk leaves the sending side alone. -/
theorem readChunkSize_apart (r : ParseRun) : Apart r.handler (readChunkSize r) := by
  have hround := readChunkSize_round r
  generalize readChunkSize r = f at hround ⊢
  cases hround with
  | incomplete | malformed => exact .refl _
  | last _ _ hr' =>
    rw [hr']
    exact ⟨rfl, rfl, rfl, rfl⟩
  | chunk => exact ⟨rfl, rfl, rfl, rfl⟩

/-- Reading the data of a chunk leaves the sending side alone. -/
theorem readChunkData_apart (r : ParseRun) : Apart r.handler (readChunkData r) := by
  have hround := readChunkData_round r
  generalize readChunkData r = f at hround ⊢
  cases hround with
  | terminated | unterminated | underWay => exact ⟨rfl, rfl, rfl, rfl⟩

/-- Every round of the parser leaves the sending side alone. -/
theorem parserRound_apart (maxSize : ℕ) (r : ParseRun) :
    Apart r.handler (parserRound maxSize r) := by
  unfold parserRound
  cases r.handler.state with
  | readHeaders => exact readHeaders_apart maxSize r
  | readBody => exact readBody_apart r
  | readChunkSize => exact readChunkSize_apart r
  | readChunkData => exact readChunkData_apart r

/-- A call of the parser leaves the sending side alone. -/
theorem parse_apart {r : ParseRun} {x : Exit Exn ParseRun}
    (hx : parseHttpContext maxSize fuel r = some x) : SameSending r.handler x.state.handler := by
  have hround (s : ParseRun) (hs : SameSending r.handler s.handler) :
      FlowIn (fun r' => SameSending r.handler r'.handler)
        (fun _ r' => SameSending r.handler r'.handler) (parserRound maxSize s) := by
    have hapart := parserRound_apart maxSize s
    cases hf : parserRound maxSize s with
    | next s' | leave s' | raise e s' =>
      rw [hf] at hapart
      exact hs.trans hapart
  have h := parse_in hround (SameSending.refl r.handler) ⟨fuel, hx⟩
  cases x with
  | done r' => exact h
  | raised e r' => exact h

/-- A message that is passed on is ready to be sent. -/
theorem Genuine.fresh {ip : Bytes} {isRequest : Bool} {c : HttpContext}
    (h : Genuine maxSize ip isRequest c) : Fresh c := by
  obtain ⟨hcompleted, hstate, head, -, hheader, -⟩ := h
  refine ⟨hcompleted, hstate, ?_⟩
  rw [hheader]
  simp [rewritten, processHttpHeaders, crlf]

/-- What a read event leaves: it returns what its reads report, its sending side is as it was up
to the handshake, and what it passed on is ready to be sent. -/
structure AfterRead (maxSize : ℕ) (h : NormalConnHandler) (ev : ReadEvent) (result : Bool)
    (exit : Exit Exn ParseRun) : Prop where
  reported : result = reports h.connHandler.handshakeDone ev
  closing : result = true → exit.state.passed = []
  queue : exit.state.handler.queue = h.queue
  isSending : exit.state.handler.isSending = h.isSending
  isRequest : exit.state.handler.isRequest = h.isRequest
  handshake : exit.state.handler.connHandler.handshakeDone = ready h.connHandler.handshakeDone ev
  parsed : UnderWay maxSize h → (∀ c ∈ exit.state.passed, Fresh c) ∧
    ∀ r, exit = .done r → UnderWay maxSize r.handler

/-- The parser's part of a handler does not see the rest of it. -/
theorem UnderWay.congr {h h' : NormalConnHandler} (hh : UnderWay maxSize h)
    (hstate : h'.state = h.state) (htmp : h'.tmpContext = h.tmpContext)
    (hside : h'.isRequest = h.isRequest) (hip : h'.connHandler.ip = h.connHandler.ip) :
    UnderWay maxSize h' := by
  unfold UnderWay at hh ⊢
  rw [hstate, htmp, hside, hip]
  exact hh

/-- A call of the parser passes genuine messages on, and goes on with the one under way. -/
theorem parse_underWay {r : ParseRun} (hunder : UnderWay maxSize r.handler) (hnone : r.passed = [])
    {x : Exit Exn ParseRun} (hx : parseHttpContext maxSize fuel r = some x) :
    (∀ c ∈ x.state.passed, Fresh c) ∧ ∀ r', x = .done r' → UnderWay maxSize r'.handler := by
  have hinv : ParserInv maxSize r.handler.isRequest r.handler.connHandler r :=
    ⟨rfl, rfl, hunder, by simp [hnone]⟩
  have h := parse_in (fun s hs => parserRound_inv hs) hinv ⟨fuel, hx⟩
  cases x with
  | done r' =>
    refine ⟨fun c hc => (h.passed c hc).fresh, ?_⟩
    rintro r'' ⟨⟩
    exact h.underWay
  | raised e r' => exact ⟨fun c hc => (h c hc).fresh, by simp⟩

/-- A read event does what `AfterRead` says. -/
theorem handleReadEvent_after {h : NormalConnHandler} {ev : ReadEvent} {result : Bool}
    {exit : Exit Exn ParseRun}
    (hev : handleReadEvent maxSize fuel ev { handler := h } = some (result, exit)) :
    AfterRead maxSize h ev result exit := by
  obtain ⟨conn, hip, hdone, heq⟩ := @handleReadEvent_eq maxSize ev { handler := h }
  rw [heq] at hev
  dsimp only at hev hip hdone
  -- the parser's state in front of its call, or at the end of an event that makes none
  have hunder (hu : UnderWay maxSize h) : UnderWay maxSize
      ({ handler := { h with connHandler := conn } : ParseRun }.append
        (received h.connHandler.handshakeDone ev)).handler := hu.congr rfl rfl rfl hip
  split at hev
  · rename_i hreports
    cases hev
    refine ⟨hreports.symm, fun _ => rfl, rfl, rfl, rfl, hdone, fun hu => ⟨by simp [Exit.state,
      ParseRun.append], ?_⟩⟩
    rintro r ⟨⟩
    exact hunder hu
  · rename_i hreports
    split at hev
    · obtain ⟨exit', hparse, heq'⟩ := Option.map_eq_some_iff.mp hev
      cases heq'
      have hsame := parse_apart hparse
      refine ⟨by simpa using hreports, by simp, hsame.queue, hsame.isSending, hsame.isRequest,
        ?_, fun hu => parse_underWay (hunder hu) rfl hparse⟩
      rw [hsame.conn]
      exact hdone
    · cases hev
      refine ⟨by simpa using hreports, by simp, rfl, rfl, rfl, hdone,
        fun hu => ⟨by simp [Exit.state, ParseRun.append], ?_⟩⟩
      rintro r ⟨⟩
      exact hunder hu

/-- A read event of the client that returns: its parser has run, and what was passed on is handed
over. -/
theorem clientReadEvent_ok {p p' : ProxyPair} {ev : LoopEvent} {result : Bool}
    (h : p.clientReadEvent maxSize fuel ev = .ok (result, p')) :
    ∃ r, AfterRead maxSize p.client.handler ev.read result (.done r) ∧
      { p with client := { p.client with handler := r.handler } }.recvRequests ev.handOvers
        r.passed = .ok p' := by
  unfold ProxyPair.clientReadEvent at h
  split at h
  · cases h
  · rename_i result' exit hread
    have hafter := handleReadEvent_after hread
    dsimp only at h
    split at h
    · rename_i p'' r hrecv
      cases h
      exact ⟨r, hafter, hrecv⟩
    · cases h
    · cases h

/-- A read event of the backend that returns: its parser has run, and the client is handed what it
passed on. -/
theorem backendReadEvent_ok {p p' : ProxyPair} {conn : Conn} (hbackend : p.backend = .normal conn)
    {ev : LoopEvent} {result : Bool} (h : p.backendReadEvent maxSize fuel ev = .ok (result, p')) :
    ∃ r, AfterRead maxSize conn.handler ev.read result (.done r) ∧
      p' = { p with backend := .normal { conn with handler := r.handler } }.recvResponses
        ev.handOvers r.passed := by
  unfold ProxyPair.backendReadEvent at h
  rw [hbackend] at h
  dsimp only at h
  split at h
  · cases h
  · cases h
  · rename_i result' r hread
    cases h
    exact ⟨r, handleReadEvent_after hread, rfl⟩

/-- Delivering an event to a connected backend changes this connection only. -/
theorem deliverBackend_normal {p : ProxyPair} {conn : Conn} (h : p.backend = .normal conn)
    (ev : LoopEvent) :
    p.deliverBackend ev = { p with backend := .normal (conn.deliver ev.epollOut) } := by
  simp [ProxyPair.deliverBackend, h]

/-- What an event does to the side of a pair: the parser of a connection runs and what it passed
on is handed over, or the queue of a connection is sent. -/
inductive PairCall (maxSize : ℕ) (ev : LoopEvent) (p : ProxyPair) :
    Side → Bool → ProxyPair → Prop
  | clientRead {result : Bool} {r : ParseRun} {p' : ProxyPair} (hin : ev.epollIn = true)
      (hafter : AfterRead maxSize p.client.handler ev.read result (.done r))
      (hrecv : { p with client := { p.client.deliver ev.epollOut with
        handler := r.handler } }.recvRequests ev.handOvers r.passed = .ok p') :
      PairCall maxSize ev p .client result p'
  | clientWrite {result : Bool} (hin : ¬ ev.epollIn = true) :
      PairCall maxSize ev p .client result
        { p with client := ((p.client.deliver ev.epollOut).handleWriteEvent ev.write).2 }
  | backendRead {conn : Conn} {result : Bool} {r : ParseRun} (hin : ev.epollIn = true)
      (hconn : p.conn .backend = some conn)
      (hafter : AfterRead maxSize conn.handler ev.read result (.done r)) :
      PairCall maxSize ev p .backend result
        ({ p with backend := .normal { conn.deliver ev.epollOut with
          handler := r.handler } }.recvResponses ev.handOvers r.passed)
  | backendWrite {conn : Conn} {result : Bool} (hin : ¬ ev.epollIn = true)
      (hconn : p.conn .backend = some conn) :
      PairCall maxSize ev p .backend result
        { p with backend := .normal ((conn.deliver ev.epollOut).handleWriteEvent ev.write).2 }
  | unconnected (hconn : p.conn .backend = none) : PairCall maxSize ev p .backend false p

/-- A pair has a connection of the backend's side exactly if it is connected to one. -/
theorem conn_backend_eq_some {p : ProxyPair} {conn : Conn} :
    p.conn .backend = some conn ↔ p.backend = .normal conn := by
  unfold ProxyPair.conn
  cases p.backend <;> simp

/-- **What an event does to a pair**, on either side. -/
theorem handleEvent_call {p p' : ProxyPair} {ev : LoopEvent} {side : Side} {result : Bool}
    (h : p.handleEvent maxSize fuel ev side = .ok (result, p')) :
    PairCall maxSize ev p side result p' := by
  unfold ProxyPair.handleEvent at h
  cases side with
  | client =>
    dsimp only at h
    by_cases hin : ev.epollIn = true
    · rw [if_pos hin] at h
      obtain ⟨r, hafter, hrecv⟩ := clientReadEvent_ok h
      exact .clientRead hin hafter hrecv
    · rw [if_neg hin] at h
      have hp' : _ = p' := congrArg Prod.snd (Except.ok.inj h)
      rw [← hp']
      exact .clientWrite hin
  | backend =>
    dsimp only at h
    cases hbackend : p.backend with
    | normal conn =>
      have hconn := conn_backend_eq_some.mpr hbackend
      rw [deliverBackend_normal hbackend] at h
      by_cases hin : ev.epollIn = true
      · rw [if_pos hin] at h
        obtain ⟨r, hafter, rfl⟩ := backendReadEvent_ok rfl h
        exact .backendRead hin hconn hafter
      · rw [if_neg hin] at h
        have hp' : _ = p' := congrArg Prod.snd (Except.ok.inj h)
        rw [← hp']
        exact .backendWrite hin hconn
    | failed | staticFile _ =>
      simp only [ProxyPair.deliverBackend, hbackend, ProxyPair.backendReadEvent,
        ProxyPair.backendWriteEvent, ite_self, Except.ok.injEq, Prod.mk.injEq] at h
      obtain ⟨rfl, rfl⟩ := h
      exact .unconnected (by simp [ProxyPair.conn, hbackend])

/-! ## Writing -/

/-- The front context of the queue can be sent. -/
def FrontReady (h : NormalConnHandler) : Prop :=
  ∃ front rest, h.queue = front :: rest ∧ front.isCompleted = true

/-- Whether the front can be sent depends on the queue only. -/
theorem FrontReady.congr {h h' : NormalConnHandler} (hf : FrontReady h)
    (hqueue : h'.queue = h.queue) : FrontReady h' := by
  unfold FrontReady at hf ⊢
  rwa [hqueue]

/-- Loading the buffer does not complete a context. -/
theorem loadBuffer_isCompleted (c : HttpContext) : (loadBuffer c).isCompleted = c.isCompleted := by
  unfold loadBuffer
  split <;> rfl

/-- The loop ends in front of a context that it could not send, or asks for nothing. -/
theorem writeLoop_frontReady (answers : List WriteAnswer) (s : SendRun)
    (h : (writeLoop answers s).1.result = true ∨ (writeLoop answers s).1.needListen = true) :
    FrontReady (writeLoop answers s).2.handler := by
  fun_induction writeLoop answers s with
  | case1 => simp at h
  | case2 s front rest _ hcompleted =>
    exact ⟨_, rest, rfl, (loadBuffer_isCompleted front).trans hcompleted⟩
  | case3 s front rest _ hcompleted =>
    exact ⟨_, rest, rfl, (loadBuffer_isCompleted front).trans hcompleted⟩
  | case4 s front rest _ hcompleted =>
    exact ⟨_, rest, rfl, (loadBuffer_isCompleted front).trans hcompleted⟩
  | case5 _ _ _ _ _ _ _ _ _ _ _ _ ih => exact ih h
  | case6 => simp at h

/-- The front can be sent exactly if there is one and it is complete. -/
theorem frontReady_iff (h : NormalConnHandler) :
    FrontReady h ↔ (h.queue.head?.map (·.isCompleted)).getD false = true := by
  unfold FrontReady
  cases h.queue <;> simp

/-- Without a context to send the loop does nothing. -/
theorem writeLoop_idle {s : SendRun} (h : ¬ FrontReady s.handler) (answers : List WriteAnswer) :
    writeLoop answers s = (⟨false, false⟩, s) := by
  unfold writeLoop
  split
  · rfl
  · rename_i front rest hqueue
    rw [if_neg fun hcompleted => h ⟨front, rest, hqueue, hcompleted⟩]

/-- The handshake is not done, and nothing was sent. -/
structure Waiting (c c' : Conn) : Prop where
  handshake : c.handler.connHandler.handshakeDone = false
  handshake' : c'.handler.connHandler.handshakeDone = false
  queue : c'.handler.queue = c.handler.queue
  isSending : c'.handler.isSending = c.handler.isSending
  writes : c'.writes = c.writes

/-- The loop of `handle_write_event` has run, and the interest in writing was set by the way it
ended. -/
structure Sent (io : WriteEvent) (c c' : Conn) : Prop where
  handshake' : c'.handler.connHandler.handshakeDone = true
  loop : ∃ s, s.handler.queue = c.handler.queue ∧ s.writes = c.writes ∧
    c'.handler.queue = (writeLoop io.writes s).2.handler.queue ∧
    c'.writes = (writeLoop io.writes s).2.writes ∧
    c'.handler.isSending = if (writeLoop io.writes s).1.result then c.handler.isSending
      else (writeLoop io.writes s).1.needListen
  attempted : attemptsWrite io.handshake c.handler = true ↔ FrontReady c.handler

/-- What a write event leaves; the parser's part of the handler is as it was. -/
structure AfterWrite (io : WriteEvent) (c c' : Conn) : Prop where
  ip : c'.handler.connHandler.ip = c.handler.connHandler.ip
  state : c'.handler.state = c.handler.state
  tmp : c'.handler.tmpContext = c.handler.tmpContext
  isRequest : c'.handler.isRequest = c.handler.isRequest
  pushed : c'.pushed = c.pushed
  notified : c'.notified = (c.notified && !attemptsWrite io.handshake c.handler)
  sending : Waiting c c' ∨ Sent io c c'

/-- A write is attempted exactly if the handshake is done and the front can be sent. -/
theorem attemptsWrite_eq {answer : Handshake} {h : NormalConnHandler} :
    attemptsWrite answer h = true ↔ (h.ensureHandshake answer).1 = none ∧ FrontReady h := by
  rw [attemptsWrite, Bool.and_eq_true, Option.isNone_iff_eq_none, ← frontReady_iff]

/-- A write event does what `AfterWrite` says. -/
theorem handleWriteEvent_after (io : WriteEvent) (c : Conn) :
    AfterWrite io c (c.handleWriteEvent io).2 := by
  have hcall := handleWriteEvent_call io.handshake io.writes c.toSendRun
  have hrun : (c.handleWriteEvent io).2.toSendRun =
      (handleWriteEvent io.handshake io.writes c.toSendRun).2 := rfl
  have hpushed : (c.handleWriteEvent io).2.pushed = c.pushed := rfl
  have hnotified : (c.handleWriteEvent io).2.notified =
      (c.notified && !attemptsWrite io.handshake c.handler) := rfl
  rw [← hrun] at hcall
  generalize (handleWriteEvent io.handshake io.writes c.toSendRun).1 = result at hcall
  generalize (c.handleWriteEvent io).2 = c' at hcall hpushed hnotified ⊢
  obtain ⟨s', pushed', notified'⟩ := c'
  dsimp only at hcall
  cases hcall with
  | handshaking hbefore hdone hip =>
    exact ⟨hip, rfl, rfl, rfl, hpushed, hnotified, .inl ⟨hbefore, hdone, rfl, rfl, rfl⟩⟩
  | @sending conn hdone hip hready hconn flags s₁ hloop =>
    have hframe := writeLoop_handler io.writes
      { c.toSendRun with handler := { c.handler with connHandler := conn } }
    rw [hloop] at hframe
    dsimp only at hframe
    obtain ⟨conn', hip', hdone', hlisten⟩ := updateListening_eq flags s₁.handler
    rw [hframe] at hip' hdone' hlisten
    have hattempt : attemptsWrite io.handshake c.handler = true ↔ FrontReady c.handler := by
      rw [attemptsWrite_eq, hready]
      simp
    have hsent : Sent io c
        ⟨{ s₁ with handler := updateListening flags s₁.handler }, pushed', notified'⟩ := by
      refine ⟨?_, ⟨{ c.toSendRun with handler := { c.handler with connHandler := conn } }, rfl, rfl,
        ?_⟩, hattempt⟩
      · rw [hframe, hlisten]
        exact hdone'.trans hdone
      · rw [hloop, hframe, hlisten]
        exact ⟨rfl, rfl, rfl⟩
    refine ⟨?_, ?_, ?_, ?_, hpushed, hnotified, .inr hsent⟩
    · rw [hframe, hlisten]
      exact hip'.trans hip
    · rw [hframe, hlisten]
    · rw [hframe, hlisten]
    · rw [hframe, hlisten]

/-! ## Handing over -/

/-- The responses that the proxy makes up itself. -/
inductive OwnResponse : HttpContext → Prop
  | badRequest : OwnResponse badRequest
  | badGateway : OwnResponse badGateway
  | static {fs : FileSystem} {rootDir : Bytes} {content : HttpContext} {answer : StaticAnswer}
      (h : staticRecvContent fs rootDir content = .ok answer) : OwnResponse answer.response

/-- `P` holds of the client's connection, `B` of the backend's if there is one. -/
structure Sides (P B : Conn → Prop) (p : ProxyPair) : Prop where
  client : P p.client
  backend : ∀ conn, p.backend = .normal conn → B conn

/-- What the kernel answers while a context is handed over meets `K`. -/
structure Within (K : WriteEvent → Prop) (io : HandOver) : Prop where
  client : K io.client
  backend : K io.backend

/-- `recv_content` keeps `P` for contexts with `C` and answers with `K`. -/
def KeptByRecv (P : Conn → Prop) (C : HttpContext → Prop) (K : WriteEvent → Prop) : Prop :=
  ∀ io content c, K io → C content → P c → P (c.recvContent io content).1

section HandingOver

variable {P B : Conn → Prop} {C D : HttpContext → Prop} {K : WriteEvent → Prop} {p p' : ProxyPair}
  {io : HandOver} {ios : List HandOver} {content : HttpContext} {contents : List HttpContext}

/-- **What `recv_content` of a connection does**: it sends a response back, or queues what it was
given, and tries to write unless the connection waits. -/
inductive Received (io : WriteEvent) (content : HttpContext) (c : Conn) :
    Conn × Option HttpContext → Prop
  | sentBack {response : HttpContext} (hc : takeOn c.handler.isRequest content = .inr response) :
      Received io content c (c, some response)
  | queued {content' : HttpContext} (hc : takeOn c.handler.isRequest content = .inl content')
      (hs : c.handler.isSending = true) : Received io content c (c.push content', none)
  | written {content' : HttpContext} (hc : takeOn c.handler.isRequest content = .inl content')
      (hs : c.handler.isSending = false) :
      Received io content c (((c.push content').handleWriteEvent io).2, none)

/-- `recv_content` does what `Received` says. -/
theorem recvContent_received (io : WriteEvent) (content : HttpContext) (c : Conn) :
    Received io content c (c.recvContent io content) := by
  unfold Conn.recvContent
  cases hc : takeOn c.handler.isRequest content with
  | inr response => exact .sentBack hc
  | inl content' =>
    have hsame : (c.push content').handler.isSending = c.handler.isSending := rfl
    dsimp only
    cases hs : c.handler.isSending with
    | true =>
      rw [hsame, hs, if_pos rfl]
      exact .queued hc hs
    | false =>
      rw [hsame, hs, if_neg Bool.false_ne_true]
      exact .written hc hs

/-- What is sent back is the response to a bad request. -/
theorem takeOn_sentBack {isRequest : Bool} {content response : HttpContext}
    (h : takeOn isRequest content = .inr response) : response = badRequest := by
  unfold takeOn at h
  split at h
  · cases h
    rfl
  · split at h <;> cases h

/-- What `recv_content` sends back is the response to a bad request. -/
theorem recvContent_sentBack {c : Conn} {io : WriteEvent} {response : HttpContext}
    (h : (c.recvContent io content).2 = some response) : response = badRequest := by
  have hreceived := recvContent_received io content c
  generalize c.recvContent io content = x at hreceived h
  cases hreceived with
  | sentBack hc =>
    cases h
    exact takeOn_sentBack hc
  | queued | written => cases h

/-- Handing a response to the client keeps what both sides have to meet. -/
theorem recvResponse_keeps (hP : KeptByRecv P C K) (hio : Within K io) (hc : C content)
    (h : Sides P B p) : Sides P B (p.recvResponse io content) :=
  ⟨hP _ _ _ hio.client hc h.client, h.backend⟩

/-- Handing a request on keeps what both sides have to meet. -/
theorem recvRequest_keeps (hP : KeptByRecv P C K) (hB : KeptByRecv B D K)
    (hown : ∀ content, OwnResponse content → C content) (hio : Within K io) (hc : D content)
    (h : Sides P B p) (hp : p.recvRequest io content = .ok p') : Sides P B p' := by
  unfold ProxyPair.recvRequest at hp
  cases hbackend : p.backend with
  | normal conn =>
    rw [hbackend] at hp
    have hnext :
        Sides P B { p with backend := .normal (conn.recvContent io.backend content).1 } := by
      refine ⟨h.client, ?_⟩
      rintro conn' ⟨⟩
      exact hB _ _ _ hio.backend hc (h.backend conn hbackend)
    dsimp only at hp
    cases hback : (conn.recvContent io.backend content).2 with
    | none =>
      rw [hback] at hp
      cases hp
      exact hnext
    | some response =>
      rw [hback] at hp
      cases hp
      rw [recvContent_sentBack hback]
      exact recvResponse_keeps hP hio (hown _ .badRequest) hnext
  | failed =>
    rw [hbackend] at hp
    cases hp
    exact recvResponse_keeps hP hio (hown _ .badGateway) h
  | staticFile rootDir =>
    rw [hbackend] at hp
    dsimp only at hp
    cases hanswer : staticRecvContent io.fs rootDir content with
    | ok answer =>
      rw [hanswer] at hp
      cases hp
      exact recvResponse_keeps hP hio (hown _ (.static hanswer)) h
    | error e =>
      rw [hanswer] at hp
      cases hp

/-- What all hand-overs of an event meet the first one meets, or the silent one where there is
none. -/
theorem within_head (hsilent : K {}) (hios : ∀ io ∈ ios, Within K io) :
    Within K (ios.headD {}) := by
  cases ios with
  | nil => exact ⟨hsilent, hsilent⟩
  | cons io ios => exact hios io (by simp)

/-- **What every hand-over keeps, a read event of the client keeps.** -/
theorem recvRequests_keep (hP : KeptByRecv P C K) (hB : KeptByRecv B D K)
    (hown : ∀ content, OwnResponse content → C content) (hsilent : K {})
    (hios : ∀ io ∈ ios, Within K io) (hcs : ∀ c ∈ contents, D c) (h : Sides P B p)
    (hp : p.recvRequests ios contents = .ok p') : Sides P B p' := by
  induction contents generalizing ios p with
  | nil =>
    cases hp
    exact h
  | cons content contents ih =>
    obtain ⟨p₁, hfirst, hrest⟩ := bind_eq_ok_iff.mp hp
    have hnext := recvRequest_keeps hP hB hown (within_head hsilent hios) (hcs content (by simp)) h
      hfirst
    exact ih (fun io hio => hios io (List.mem_of_mem_tail hio))
      (fun c hc => hcs c (List.mem_cons_of_mem _ hc)) hnext hrest

/-- **What every hand-over keeps, a read event of the backend keeps.** -/
theorem recvResponses_keep (hP : KeptByRecv P C K) (hsilent : K {})
    (hios : ∀ io ∈ ios, Within K io) (hcs : ∀ c ∈ contents, C c) (h : Sides P B p) :
    Sides P B (p.recvResponses ios contents) := by
  induction contents generalizing ios p with
  | nil => exact h
  | cons content contents ih =>
    have hnext := recvResponse_keeps hP (within_head hsilent hios) (hcs content (by simp)) h
    exact ih (fun io hio => hios io (List.mem_of_mem_tail hio))
      (fun c hc => hcs c (List.mem_cons_of_mem _ hc)) hnext

/-- Handing responses to the client leaves the backend alone. -/
theorem recvResponses_backend (ios : List HandOver) (contents : List HttpContext) (p : ProxyPair) :
    (p.recvResponses ios contents).backend = p.backend := by
  induction contents generalizing ios p with
  | nil => rfl
  | cons content contents ih => exact ih ios.tail _

end HandingOver

/-! ## The live pairs -/

/-- Each live pair is owned under its client's descriptor and has the property. -/
structure LiveInv (I : ProxyPair → Prop) (s : EventLoop) : Prop where
  owns : Owns s.worker
  pairs : ∀ a, (s.worker.heap a).isSome = true → I (s.pairs a)

/-- The kernel and the allocator give out what is not in use. -/
def FreshEvent (s : EventLoop) (ev : LoopEvent) : Prop :=
  ev.fd = s.worker.listenFd → ∀ a, ev.accepted = some a → FreshFor s.worker a.accepted

/-- A new loop has no pairs. -/
theorem liveInv_new (I : ProxyPair → Prop) (listenFd : Fd) (backendType : BackendType)
    (rootPath : Bytes) : LiveInv I { worker := { listenFd, backendType }, rootPath } :=
  ⟨indexes_empty, fun a h => absurd h (by simp)⟩

/-- An entry of either side leads to its pair. -/
theorem entry_or_eq {w : Worker} {fd : Fd} {a : Addr} {side : Side}
    (h : EventLoop.Entry w fd a side) :
    (w.clientToBackend fd).or (w.backendToClient fd) = some a := by
  cases side with
  | client =>
    have hclient : w.clientToBackend fd = some a := h
    simp [hclient]
  | backend => simp [h.1, h.2]

/-- What the maps do in the round of a pair: it is destroyed, or nothing changes. -/
theorem handled_heap {s s' : EventLoop} {ev : LoopEvent} {side : Side} {a : Addr} {result : Bool}
    (howns : Owns s.worker) (h : EventLoop.Handled maxSize fuel s ev s' side a result) :
    Owns s'.worker ∧ s'.worker.heap =
      if result = true then Function.update s.worker.heap a none else s.worker.heap := by
  have hworker := h.worker
  cases result with
  | false =>
    have hsame : s.worker = s'.worker := Except.ok.inj hworker
    rw [← hsame]
    exact ⟨howns, rfl⟩
  | true =>
    obtain ⟨howns', hdestroyed⟩ := howns.disconnect hworker
    exact ⟨howns', hdestroyed a (entry_or_eq h.leads.entry)⟩

/-- Only an event that returns `true` destroys a pair, and only the one it was handled by. -/
theorem handled_destroys {s s' : EventLoop} {ev : LoopEvent} {side : Side} {a b : Addr}
    {result : Bool} (howns : Owns s.worker)
    (h : EventLoop.Handled maxSize fuel s ev s' side a result)
    (howned : (s.worker.heap b).isSome = true) (hdestroyed : s'.worker.heap b = none) :
    result = true ∧ b = a := by
  rw [(handled_heap howns h).2] at hdestroyed
  have hnone (hsame : s.worker.heap b = none) : False := by
    rw [hsame] at howned
    cases howned
  cases result with
  | false => exact (hnone hdestroyed).elim
  | true =>
    refine ⟨rfl, ?_⟩
    by_contra hb
    rw [if_pos rfl, Function.update_of_ne hb] at hdestroyed
    exact hnone hdestroyed

variable {I : ProxyPair → Prop} {s s' : EventLoop} {ev : LoopEvent}

/-- An accept keeps the property of all live pairs, if a new pair has it. -/
theorem LiveInv.accept (h : LiveInv I s) {accepted : Option NewConn}
    (hfresh : ∀ a, accepted = some a → FreshFor s.worker a.accepted)
    (hnew : ∀ a, I (s.newPair a)) : LiveInv I (s.acceptNewConn accepted) := by
  cases accepted with
  | none => exact h
  | some c =>
    have hc := hfresh c rfl
    refine ⟨h.owns.accept hc.clientFd hc.addr, fun a hlive => ?_⟩
    show I (Function.update s.pairs c.addr (s.newPair c) a)
    by_cases ha : a = c.addr
    · rw [ha, Function.update_self]
      exact hnew c
    · rw [Function.update_of_ne ha]
      apply h.pairs a
      have hheap : (s.worker.acceptNewConn (some c.accepted)).heap a = s.worker.heap a := by
        rw [h.owns.accept_heap hc.clientFd]
        exact Function.update_of_ne ha _ _
      rwa [← hheap]

/-- **A step keeps a property of the live pairs** that new pairs have and that the events which
do not close a pair keep. -/
theorem LiveInv.step (h : LiveInv I s) (hfresh : FreshEvent s ev) (hnew : ∀ a, I (s.newPair a))
    (hkeep : ∀ side a p, ev.fd ≠ s.worker.listenFd → s.LeadsTo ev.fd side a → I (s.pairs a) →
      (s.pairs a).handleEvent maxSize fuel ev side = .ok (false, p) → I p)
    (hs' : s.processEvent maxSize fuel ev = .ok s') : LiveInv I s' := by
  rcases EventLoop.processEvent_cases hs' with
    ⟨hfd, rfl⟩ | ⟨-, rfl, -⟩ | ⟨hfd, -, side, a, result, hhandled⟩
  · exact h.accept (hfresh hfd) hnew
  · exact h
  · obtain ⟨howns, hheap⟩ := handled_heap h.owns hhandled
    refine ⟨howns, fun b hlive => ?_⟩
    rw [hheap] at hlive
    by_cases hb : b = a
    · subst hb
      cases result with
      | true => simp at hlive
      | false => exact hkeep side b _ hfd hhandled.leads (h.pairs b hlive) hhandled.call
    · rw [hhandled.others b hb]
      apply h.pairs b
      cases result with
      | true => rwa [if_pos rfl, Function.update_of_ne hb] at hlive
      | false => exact hlive

/-! ## A connection to begin with -/

/-- A loop that listens on descriptor 3. -/
def smallLoop : EventLoop := { worker := { listenFd := 3, backendType := .loadBalancer } }

/-- A client on descriptor 5 with a backend on descriptor 6. -/
def firstConn : LoopEvent :=
  { fd := 3, epollIn := true
    accepted := some { client := { connFd := 5 }, addr := 0, backend := some { connFd := 6 } } }

/-- A response of the backend that the client's socket does not take yet. -/
def blockedResponse : LoopEvent :=
  { fd := 6, epollIn := true, read := { reads := [.bytes (ascii "H 200\r\n\r\n")] } }

/-- The runs of the small loop that begin with its first connection are fresh. -/
theorem fresh_smallLoop {events : List LoopEvent} (h : ∀ ev ∈ events, ev.accepted = none) :
    EveryStep (EventLoop.processEvent maxSize fuel) FreshEvent smallLoop (firstConn :: events) := by
  refine everyStep_cons.mpr ⟨?_, fun s _ => ?_⟩
  · rintro - a ⟨⟩
    exact freshFor_firstAccepted
  · intro pre ev hpre s' _ _ a ha
    rw [h ev (hpre.subset (by simp))] at ha
    cases ha

end PkuyoProxy.Analysis
