import PkuyoProxy.Analysis.SessionTraffic

/-!
# Nothing before the handshake

The two handlers of a connection whose handshake is not done go on with it and return
(proxy_handler.cpp:234-238 and 248-252), but the other side of its pair may hand messages over at
any time.  Whatever comes in between, such a connection has sent nothing and its parser was given
nothing; and while it is the client's, its backend was handed nothing and was sent nothing, and a
pair without a backend has answered nothing (`silent_before_handshake`).
-/

set_option autoImplicit false

namespace PkuyoProxy.Analysis

open PkuyoProxy.Lib PkuyoProxy.Model PkuyoProxy.Interface

variable {maxSize fuel : ℕ}

/-! ## One connection -/

/-- Before its handshake a connection has sent nothing and its parser was given nothing, and one
that was handed nothing has sent nothing. -/
structure Gated (heard : List Bytes) (c : Conn) : Prop where
  early : c.handler.connHandler.handshakeDone = false → c.writes = [] ∧ heard = []
  unpushed : c.pushed = [] → c.handler.queue = [] ∧ c.writes = []

variable {heard : List Bytes} {c : Conn}

/-- A connection that was just opened is gated. -/
theorem gated_opened (isRequest : Bool) (connHandler : ConnHandler) :
    Gated [] (.opened isRequest connHandler) :=
  ⟨fun _ => ⟨rfl, rfl⟩, fun _ => ⟨rfl, rfl⟩⟩

/-- Delivering an event keeps a connection gated. -/
theorem Gated.deliver (h : Gated heard c) (epollOut : Bool) : Gated heard (c.deliver epollOut) :=
  ⟨h.early, h.unpushed⟩

/-- Pushing a context keeps a connection gated. -/
theorem Gated.push (h : Gated heard c) (content : HttpContext) : Gated heard (c.push content) :=
  ⟨h.early, fun hp => absurd hp (by simp [Conn.push])⟩

/-- An empty queue has no front to send. -/
theorem not_frontReady_nil {h : NormalConnHandler} (hqueue : h.queue = []) : ¬ FrontReady h := by
  rintro ⟨front, rest, heq, -⟩
  rw [hqueue] at heq
  cases heq

/-- Writing goes on with the handshake, or starts when it is done. -/
theorem Gated.write (h : Gated heard c) (io : WriteEvent) :
    Gated heard (c.handleWriteEvent io).2 := by
  have hafter := handleWriteEvent_after io c
  generalize (c.handleWriteEvent io).2 = c' at hafter ⊢
  rcases hafter.sending with hwaiting | hsent
  · refine ⟨fun _ => ?_, fun hp => ?_⟩
    · rw [hwaiting.writes]
      exact h.early hwaiting.handshake
    · rw [hafter.pushed] at hp
      rw [hwaiting.queue, hwaiting.writes]
      exact h.unpushed hp
  · obtain ⟨s, hqueue, hwrites, hqueue', hwrites', -⟩ := hsent.loop
    refine ⟨fun hdone => ?_, fun hp => ?_⟩
    · rw [hsent.handshake'] at hdone
      cases hdone
    · rw [hafter.pushed] at hp
      obtain ⟨hnone, hnever⟩ := h.unpushed hp
      rw [writeLoop_idle (not_frontReady_nil (hqueue.trans hnone))] at hqueue' hwrites'
      exact ⟨hqueue'.trans (hqueue.trans hnone), hwrites'.trans (hwrites.trans hnever)⟩

/-- `recv_content` keeps a connection gated. -/
theorem gated_kept (heard : List Bytes) :
    KeptByRecv (Gated heard) (fun _ => True) (fun _ => True) := by
  intro io content c _ _ h
  have hreceived := recvContent_received io content c
  generalize c.recvContent io content = x at hreceived ⊢
  cases hreceived with
  | sentBack => exact h
  | queued => exact h.push _
  | written => exact (h.push _).write io

/-- The parser is given a piece only by an event behind which the handshake is done. -/
theorem Gated.read (h : Gated heard c) {ev : ReadEvent} {result : Bool} {r : ParseRun}
    (hafter : AfterRead maxSize c.handler ev result (.done r)) :
    Gated (heard ++ pieceRead c.handler ev) { c with handler := r.handler } := by
  refine ⟨fun hdone => ?_, fun hp => ?_⟩
  · have hready : ready c.handler.connHandler.handshakeDone ev = false :=
      hafter.handshake.symm.trans hdone
    obtain ⟨hnever, hnone⟩ := h.early (Bool.or_eq_false_iff.mp hready).1
    have hpiece : pieceRead c.handler ev = [] := by simp [pieceRead, hready]
    rw [hnone, hpiece]
    exact ⟨hnever, rfl⟩
  · obtain ⟨hnone, hnever⟩ := h.unpushed hp
    exact ⟨hafter.queue.trans hnone, hnever⟩

/-! ## Pairs -/

/-- Both connections of a pair are gated, each by what its own parser was given. -/
def GatedPair (heard : Side → List Bytes) : ProxyPair → Prop :=
  Sides (Gated (heard .client)) (Gated (heard .backend))

/-- A new pair is gated. -/
theorem gatedPair_newPair (s : EventLoop) (a : NewConn) :
    GatedPair (fun _ => []) (s.newPair a) := by
  refine ⟨gated_opened true a.client, fun conn hconn => ?_⟩
  unfold EventLoop.newPair at hconn
  dsimp only at hconn
  split at hconn
  · cases hconn
    exact gated_opened false _
  · cases hconn
  · cases hconn

/-- An event keeps a pair gated, by what its parsers have been given behind it. -/
theorem handleEvent_gated {p p' : ProxyPair} {heard : Side → List Bytes} (h : GatedPair heard p)
    {ev : LoopEvent} {side : Side} {result : Bool}
    (hcall : p.handleEvent maxSize fuel ev side = .ok (result, p')) :
    GatedPair (heardBehind p heard side ev) p' := by
  have hall (io : HandOver) (_ : io ∈ ev.handOvers) : Within (fun _ => True) io :=
    ⟨trivial, trivial⟩
  cases handleEvent_call hcall with
  | @clientRead _ r _ hin hafter hrecv =>
    rw [heardBehind_read hin rfl]
    have hread : GatedPair (Function.update heard .client
        (heard .client ++ pieceRead p.client.handler ev.read)) { p with
        client := { p.client.deliver ev.epollOut with handler := r.handler } } := by
      refine ⟨?_, ?_⟩
      · rw [Function.update_self]
        exact (h.client.deliver ev.epollOut).read hafter
      · rw [Function.update_of_ne (by decide)]
        exact h.backend
    exact recvRequests_keep (gated_kept _) (gated_kept _) (fun _ _ => trivial) trivial hall
      (fun _ _ => trivial) hread hrecv
  | clientWrite hin =>
    rw [heardBehind_not_read (.inl (by simpa using hin))]
    exact ⟨(h.client.deliver ev.epollOut).write ev.write, h.backend⟩
  | backendRead hin hconn hafter =>
    rw [heardBehind_read hin hconn]
    refine recvResponses_keep (gated_kept _) trivial hall (fun _ _ => trivial) ⟨?_, ?_⟩
    · rw [Function.update_of_ne (by decide)]
      exact h.client
    · rintro conn' ⟨⟩
      rw [Function.update_self]
      exact ((h.backend _ (conn_backend_eq_some.mp hconn)).deliver ev.epollOut).read hafter
  | backendWrite hin hconn =>
    rw [heardBehind_not_read (.inl (by simpa using hin))]
    refine ⟨h.client, ?_⟩
    rintro conn' ⟨⟩
    exact ((h.backend _ (conn_backend_eq_some.mp hconn)).deliver ev.epollOut).write ev.write
  | unconnected hconn =>
    rw [heardBehind_not_read (.inr hconn)]
    exact h

/-! ## Runs -/

/-- Nothing has come through the pair to where it would have been forwarded or answered. -/
def Unserved (p : ProxyPair) : Prop :=
  match p.backend with
  | .normal conn => conn.pushed = [] ∧ conn.writes = []
  | .failed | .staticFile _ => p.client.pushed = []

/-- What a handshake that is not done keeps a pair from. -/
structure SilentBefore (p : ProxyPair) (heard : Side → List Bytes) : Prop where
  quiet : ∀ side c, p.conn side = some c → c.handler.connHandler.handshakeDone = false →
    c.writes = [] ∧ heard side = []
  unserved : p.client.handler.connHandler.handshakeDone = false → Unserved p

/-- A parser that was given nothing has read nothing. -/
theorem HasRead.of_nothing {h : NormalConnHandler} {ms : List HttpContext}
    (hread : HasRead maxSize h [] ms) : ms = [] := by
  obtain ⟨r, hfeeds, -, hpassed⟩ := hread
  cases feeds_nil_iff.mp hfeeds
  exact hpassed.symm

/-- A gated session is silent before its handshakes. -/
theorem SilentBefore.of_gated {p : ProxyPair} {heard : Side → List Bytes}
    (hsession : Session maxSize p heard) (hgated : GatedPair heard p) : SilentBefore p heard := by
  refine ⟨fun side c hconn hdone => ?_, fun hdone => ?_⟩
  · cases side with
    | client =>
      cases hconn
      exact hgated.client.early hdone
    | backend => exact (hgated.backend c (conn_backend_eq_some.mp hconn)).early hdone
  · obtain ⟨requests, hread, hserved⟩ := hsession.served
    rw [(hgated.client.early hdone).2] at hread
    rw [hread.of_nothing] at hserved
    unfold Unserved
    cases hbackend : p.backend with
    | normal conn =>
      obtain ⟨-, hpushed, -⟩ := (served_normal hbackend).mp hserved
      exact ⟨hpushed, ((hgated.backend conn hbackend).unpushed hpushed).2⟩
    | failed => exact (served_failed hbackend).mp hserved
    | staticFile rootDir => exact List.forall₂_nil_left_iff.mp ((served_static hbackend).mp hserved)

/-- A session of gated connections. -/
structure GatedSession (maxSize : ℕ) (p : ProxyPair) (heard : Side → List Bytes) : Prop where
  session : Session maxSize p heard
  gated : GatedPair heard p

/-- An event of the loop keeps all sessions gated. -/
theorem gatedSession_step {t t' : Traffic} {ev : LoopEvent}
    (h : TrafficInv (GatedSession maxSize) t) (hfresh : FreshEvent t.loop ev)
    (hstep : t.step maxSize fuel ev = .ok t') : TrafficInv (GatedSession maxSize) t' :=
  h.step hfresh (fun s a => ⟨session_newPair s a, gatedPair_newPair s a⟩)
    (fun _ _ _ _ hp hev => ⟨hp.session.event hev, handleEvent_gated hp.gated hev⟩) hstep

/-- **Nothing passes before the handshake.**  In every state of a run, a connection of a live pair
whose handshake is not done has sent no byte and its parser was given none; if it is the client's,
no request was forwarded or answered. -/
theorem silent_before_handshake (maxSize fuel : ℕ) (listenFd : Fd) (backendType : BackendType)
    (rootPath : Bytes) (events : List LoopEvent)
    (hfresh : EveryStep (Traffic.step maxSize fuel) (fun t ev => FreshEvent t.loop ev)
      (.started listenFd backendType rootPath) events) :
    EveryReached (Traffic.step maxSize fuel)
      (fun t => ∀ a, (t.loop.worker.heap a).isSome = true →
        SilentBefore (t.loop.pairs a) (t.heard a))
      (.started listenFd backendType rootPath) events := by
  have hreached : EveryReached (Traffic.step maxSize fuel) (TrafficInv (GatedSession maxSize))
      (.started listenFd backendType rootPath) events :=
    everyReached_inv (fun _ _ _ h hfresh hstep => gatedSession_step h hfresh hstep)
      (trafficInv_started _ listenFd backendType rootPath) hfresh
  intro pre hpre t hrun a hlive
  obtain ⟨hsession, hgated⟩ := (hreached pre hpre t hrun).pairs a hlive
  exact .of_gated hsession hgated

/-- The backend speaks while the client's handshake is under way. -/
def slowHandshake : List LoopEvent :=
  [firstConn, { fd := 5, epollIn := true, read := { handshake := .wantRead, reads := [] } },
    { blockedResponse with handOvers := [{ client := { handshake := .wantRead } }] }]

/-- A backend that speaks first is not heard while the client's handshake is under way. -/
theorem silent_before_handshake_slow :
    EveryReached (Traffic.step (2 ^ 62) 10)
      (fun t => ∀ a, (t.loop.worker.heap a).isSome = true →
        SilentBefore (t.loop.pairs a) (t.heard a))
      (.started 3 .loadBalancer []) slowHandshake := by
  refine silent_before_handshake (2 ^ 62) 10 3 .loadBalancer [] slowHandshake (fresh_started ?_)
  intro ev hev
  rcases List.mem_cons.mp hev with rfl | hev
  · rfl
  · rw [List.mem_singleton.mp hev]
    rfl

end PkuyoProxy.Analysis
