import PkuyoProxy.Model.ProxyPair
import PkuyoProxy.Model.Worker

/-!
# The event loop with its handlers (worker.cpp:76-211)

The worker's maps together with the pairs they lead to: what the handlers of a pair return is
computed here from the answers of the kernel, not chosen.  A round of `process_events` moves
the maps as the worker does when it is given that return value (`processEvent_worker`).
-/

set_option autoImplicit false

namespace PkuyoProxy.Model

open PkuyoProxy.Lib

/-- How an event can end the process: a destroyed pair is used, an exception leaves a handler,
or the parser takes more rounds than it is given. -/
inductive EventFault
  | destroyed
  | raised (e : Exn)
  | outOfFuel
  deriving DecidableEq, Repr

/-- What `accept` and `connect` give for a new connection, and the address of its pair. -/
structure NewConn where
  client : ConnHandler
  addr : Addr
  backend : Option ConnHandler
  deriving DecidableEq, Repr

/-- What the maps see of it. -/
def NewConn.accepted (a : NewConn) : Accepted :=
  ⟨a.client.connFd, a.addr, a.backend.map (·.connFd)⟩

/-- An event of a batch, with what the kernel answers while it is processed. -/
structure LoopEvent where
  fd : Fd
  epollIn : Bool := false
  epollOut : Bool := false
  read : ReadEvent := { reads := [] }
  write : WriteEvent := {}
  handOvers : List HandOver := []
  accepted : Option NewConn := none

/-! ## The handlers of a pair -/

/-- The descriptor was reported, writable or not. -/
def Conn.deliver (epollOut : Bool) (c : Conn) : Conn :=
  { c with notified := c.notified || epollOut }

namespace ProxyPair

/-- A read event of the client; what was passed on in front of an exception is handed over. -/
def clientReadEvent (maxSize fuel : ℕ) (ev : LoopEvent) (p : ProxyPair) :
    Except EventFault (Bool × ProxyPair) :=
  match handleReadEvent maxSize fuel ev.read { handler := p.client.handler } with
  | none => .error .outOfFuel
  | some (result, exit) =>
    let p := { p with client := { p.client with handler := exit.state.handler } }
    match p.recvRequests ev.handOvers exit.state.passed, exit with
    | .ok p, .done _ => .ok (result, p)
    | .ok _, .raised e _ | .error e, _ => .error (.raised e)

/-- A read event of the backend; only a connected backend has one of its own. -/
def backendReadEvent (maxSize fuel : ℕ) (ev : LoopEvent) (p : ProxyPair) :
    Except EventFault (Bool × ProxyPair) :=
  match p.backend with
  | .failed | .staticFile _ => .ok (false, p)
  | .normal conn =>
    match handleReadEvent maxSize fuel ev.read { handler := conn.handler } with
    | none => .error .outOfFuel
    | some (_, .raised e _) => .error (.raised e)
    | some (result, .done r) =>
      let p := { p with backend := .normal { conn with handler := r.handler } }
      .ok (result, p.recvResponses ev.handOvers r.passed)

/-- The event has reached the client's handler. -/
def deliverClient (ev : LoopEvent) (p : ProxyPair) : ProxyPair :=
  { p with client := p.client.deliver ev.epollOut }

/-- The event has reached the backend's handler. -/
def deliverBackend (ev : LoopEvent) (p : ProxyPair) : ProxyPair :=
  match p.backend with
  | .normal conn => { p with backend := .normal (conn.deliver ev.epollOut) }
  | .failed | .staticFile _ => p

end ProxyPair

/-! ## The loop -/

/-- The maps of the worker, with the pairs that they lead to. -/
structure EventLoop where
  worker : Worker
  rootPath : Bytes := []
  pairs : Addr → ProxyPair := fun _ => ⟨.opened true {}, .failed⟩

namespace EventLoop

/-- The pair of a new connection (worker.cpp:135-160). -/
def newPair (s : EventLoop) (a : NewConn) : ProxyPair where
  client := .opened true a.client
  backend :=
    match s.worker.backendType, a.backend with
    | .loadBalancer, some conn => .normal (.opened false conn)
    | .loadBalancer, none => .failed
    | .static, _ => .staticFile s.rootPath

/-- worker.cpp:119-163 -/
def acceptNewConn (s : EventLoop) : Option NewConn → EventLoop
  | none => s
  | some a =>
    { s with
      worker := s.worker.acceptNewConn (some a.accepted)
      pairs := Function.update s.pairs a.addr (s.newPair a) }

/-- worker.cpp:76-86 -/
def disconnect (s : EventLoop) (fd : Fd) : Except EventFault EventLoop :=
  match s.worker.disconnect fd with
  | .ok worker => .ok { s with worker }
  | .error .destroyed => .error .destroyed

/-- A call of a member of the pair at an address. -/
def onPair (s : EventLoop) (a : Addr) (call : ProxyPair → Except EventFault (Bool × ProxyPair)) :
    Except EventFault (Bool × EventLoop) :=
  if (s.worker.heap a).isSome then do
    let (result, p) ← call (s.pairs a)
    return (result, { s with pairs := Function.update s.pairs a p })
  else .error .destroyed

/-- The member of the pair that the maps lead to, if they lead to one. -/
def dispatch (s : EventLoop) (fd : Fd)
    (onClient onBackend : ProxyPair → Except EventFault (Bool × ProxyPair)) :
    Except EventFault (Bool × EventLoop) :=
  match s.worker.clientToBackend fd, s.worker.backendToClient fd with
  | some a, _ => s.onPair a onClient
  | none, some a => s.onPair a onBackend
  | none, none => .ok (true, s)

/-- worker.cpp:184-197 -/
def processReadEvent (maxSize fuel : ℕ) (s : EventLoop) (ev : LoopEvent) :
    Except EventFault (Bool × EventLoop) :=
  s.dispatch ev.fd (fun p => (p.deliverClient ev).clientReadEvent maxSize fuel ev)
    fun p => (p.deliverBackend ev).backendReadEvent maxSize fuel ev

/-- worker.cpp:199-211 -/
def processWriteEvent (s : EventLoop) (ev : LoopEvent) : Except EventFault (Bool × EventLoop) :=
  s.dispatch ev.fd (fun p => .ok ((p.deliverClient ev).clientWriteEvent ev.write))
    fun p => .ok ((p.deliverBackend ev).backendWriteEvent ev.write)

/-- `if (process_..._event(ev)) disconnect(ev.data.fd)` -/
def closeIf (fd : Fd) : Bool × EventLoop → Except EventFault EventLoop
  | (true, s) => s.disconnect fd
  | (false, s) => .ok s

/-- One round of the loop of `process_events` (worker.cpp:168-180). -/
def processEvent (maxSize fuel : ℕ) (s : EventLoop) (ev : LoopEvent) :
    Except EventFault EventLoop :=
  if ev.fd = s.worker.listenFd then .ok (s.acceptNewConn ev.accepted)
  else if ev.epollIn then do closeIf ev.fd (← s.processReadEvent maxSize fuel ev)
  else if ev.epollOut then do closeIf ev.fd (← s.processWriteEvent ev)
  else .ok s

/-- worker.cpp:165-181 -/
def processEvents (maxSize fuel : ℕ) (s : EventLoop) (events : List LoopEvent) :
    Except EventFault EventLoop := runSteps (processEvent maxSize fuel) s events

/-! ## What a round does -/

end EventLoop

/-- The two sides of a pair. -/
inductive Side
  | client
  | backend
  deriving DecidableEq, Repr

/-- The connection on a side of a pair. -/
def ProxyPair.conn (p : ProxyPair) : Side → Option Conn
  | .client => some p.client
  | .backend =>
    match p.backend with
    | .normal conn => some conn
    | .failed | .staticFile _ => none

/-- What an event does to the side of a pair it is dispatched to. -/
def ProxyPair.handleEvent (maxSize fuel : ℕ) (ev : LoopEvent) (p : ProxyPair) :
    Side → Except EventFault (Bool × ProxyPair)
  | .client =>
    if ev.epollIn then (p.deliverClient ev).clientReadEvent maxSize fuel ev
    else .ok ((p.deliverClient ev).clientWriteEvent ev.write)
  | .backend =>
    if ev.epollIn then (p.deliverBackend ev).backendReadEvent maxSize fuel ev
    else .ok ((p.deliverBackend ev).backendWriteEvent ev.write)

namespace EventLoop

/-- The entry of the maps for a descriptor: a client's, or a backend's if there is none. -/
def Entry (w : Worker) (fd : Fd) (a : Addr) : Side → Prop
  | .client => w.clientToBackend fd = some a
  | .backend => w.clientToBackend fd = none ∧ w.backendToClient fd = some a

/-- The maps lead from the descriptor to this side of a live pair. -/
structure LeadsTo (s : EventLoop) (fd : Fd) (side : Side) (a : Addr) : Prop where
  live : (s.worker.heap a).isSome = true
  entry : Entry s.worker fd a side

/-- A descriptor leads to at most one side of one pair. -/
theorem LeadsTo.unique {s : EventLoop} {fd : Fd} {side side' : Side} {a a' : Addr}
    (h : s.LeadsTo fd side a) (h' : s.LeadsTo fd side' a') : side = side' ∧ a = a' := by
  have he := h.entry
  have he' := h'.entry
  cases side with
  | client =>
    cases side' with
    | client => exact ⟨rfl, Option.some.inj (he.symm.trans he')⟩
    | backend => exact absurd (he.symm.trans he'.1) (by simp)
  | backend =>
    cases side' with
    | client => exact absurd (he'.symm.trans he.1) (by simp)
    | backend => exact ⟨rfl, Option.some.inj (he.2.symm.trans he'.2)⟩

/-- Neither map has an entry for the descriptor. -/
structure Unknown (w : Worker) (fd : Fd) : Prop where
  client : w.clientToBackend fd = none
  backend : w.backendToClient fd = none

/-- Disconnecting an unknown descriptor changes nothing. -/
theorem Unknown.disconnect {w : Worker} {fd : Fd} (h : Unknown w fd) : w.disconnect fd = .ok w :=
  Worker.disconnect_unknown h.client h.backend

/-- A descriptor that leads to a pair is known. -/
theorem LeadsTo.not_unknown {s : EventLoop} {fd : Fd} {side : Side} {a : Addr}
    (h : s.LeadsTo fd side a) : ¬ Unknown s.worker fd := by
  intro hnone
  have hentry := h.entry
  cases side with
  | client => exact absurd (hnone.client.symm.trans hentry) (by simp)
  | backend => exact absurd (hnone.backend.symm.trans hentry.2) (by simp)

/-- A call on a pair that returns was made on a live pair, and replaces this pair only. -/
theorem onPair_eq_ok {s s' : EventLoop} {a : Addr} {result : Bool}
    {call : ProxyPair → Except EventFault (Bool × ProxyPair)}
    (h : s.onPair a call = .ok (result, s')) :
    (s.worker.heap a).isSome = true ∧ ∃ p, call (s.pairs a) = .ok (result, p) ∧
      s' = { s with pairs := Function.update s.pairs a p } := by
  unfold onPair at h
  split at h
  · rename_i hlive
    obtain ⟨⟨result', p⟩, hcall, heq⟩ := bind_eq_ok_iff.mp h
    cases heq
    exact ⟨hlive, p, hcall, rfl⟩
  · cases h

/-- A dispatch finds no pair and changes nothing, or makes the call of the side it finds. -/
theorem dispatch_cases {s s₁ : EventLoop} {fd : Fd} {result : Bool}
    {call : Side → ProxyPair → Except EventFault (Bool × ProxyPair)}
    (h : s.dispatch fd (call .client) (call .backend) = .ok (result, s₁)) :
    (Unknown s.worker fd ∧ result = true ∧ s₁ = s) ∨
      ∃ side a p, s.LeadsTo fd side a ∧ call side (s.pairs a) = .ok (result, p) ∧
        s₁ = { s with pairs := Function.update s.pairs a p } := by
  unfold dispatch at h
  cases hclient : s.worker.clientToBackend fd with
  | some a =>
    rw [hclient] at h
    obtain ⟨hlive, p, hp, hs₁⟩ := onPair_eq_ok h
    exact .inr ⟨.client, a, p, ⟨hlive, hclient⟩, hp, hs₁⟩
  | none =>
    cases hbackend : s.worker.backendToClient fd with
    | some a =>
      rw [hclient, hbackend] at h
      obtain ⟨hlive, p, hp, hs₁⟩ := onPair_eq_ok h
      exact .inr ⟨.backend, a, p, ⟨hlive, hclient, hbackend⟩, hp, hs₁⟩
    | none =>
      rw [hclient, hbackend] at h
      cases h
      exact .inl ⟨⟨hclient, hbackend⟩, rfl, rfl⟩

/-- What follows a dispatch disconnects the descriptor if the answer says so, and changes no pair.
-/
theorem closeIf_eq_ok {s s' : EventLoop} {fd : Fd} {result : Bool}
    (h : closeIf fd (result, s) = .ok s') :
    (if result = true then s.worker.disconnect fd else .ok s.worker) = .ok s'.worker ∧
      s' = { s with worker := s'.worker } := by
  cases result with
  | false =>
    cases h
    exact ⟨rfl, rfl⟩
  | true =>
    simp only [closeIf, disconnect] at h
    cases hw : s.worker.disconnect fd with
    | ok worker =>
      rw [hw] at h
      cases h
      exact ⟨rfl, rfl⟩
    | error e =>
      cases e
      rw [hw] at h
      cases h

/-- The round of a descriptor that leads to a pair: its handler is called, and a return value
of `true` disconnects the descriptor. -/
structure Handled (maxSize fuel : ℕ) (s : EventLoop) (ev : LoopEvent) (s' : EventLoop)
    (side : Side) (a : Addr) (result : Bool) : Prop where
  leads : s.LeadsTo ev.fd side a
  call : (s.pairs a).handleEvent maxSize fuel ev side = .ok (result, s'.pairs a)
  others : ∀ b, b ≠ a → s'.pairs b = s.pairs b
  worker : (if result = true then s.worker.disconnect ev.fd else .ok s.worker) = .ok s'.worker

/-- A read event calls the read handler of the side that its descriptor leads to. -/
theorem processReadEvent_eq {maxSize fuel : ℕ} {s : EventLoop} {ev : LoopEvent}
    (hin : ev.epollIn = true) :
    s.processReadEvent maxSize fuel ev =
      s.dispatch ev.fd (fun p => p.handleEvent maxSize fuel ev .client)
        fun p => p.handleEvent maxSize fuel ev .backend := by
  simp [processReadEvent, ProxyPair.handleEvent, hin]

/-- An event that is not of reading calls the write handler of that side. -/
theorem processWriteEvent_eq {maxSize fuel : ℕ} {s : EventLoop} {ev : LoopEvent}
    (hin : ¬ ev.epollIn = true) :
    s.processWriteEvent ev =
      s.dispatch ev.fd (fun p => p.handleEvent maxSize fuel ev .client)
        fun p => p.handleEvent maxSize fuel ev .backend := by
  simp [processWriteEvent, ProxyPair.handleEvent, hin]

/-- A dispatched event is one of an unknown descriptor, or is handled by a side of a pair. -/
theorem handled_or_idle {maxSize fuel : ℕ} {s s' : EventLoop} {ev : LoopEvent}
    (h : s.dispatch ev.fd (fun p => p.handleEvent maxSize fuel ev .client)
      (fun p => p.handleEvent maxSize fuel ev .backend) >>= closeIf ev.fd = .ok s') :
    (s' = s ∧ Unknown s.worker ev.fd) ∨
      ∃ side a result, Handled maxSize fuel s ev s' side a result := by
  obtain ⟨⟨result, s₁⟩, hcall, hclose⟩ := bind_eq_ok_iff.mp h
  obtain ⟨hworker, hs'⟩ := closeIf_eq_ok hclose
  rcases @dispatch_cases _ _ _ _ (fun side p => p.handleEvent maxSize fuel ev side) hcall with
    ⟨hunknown, rfl, rfl⟩ | ⟨side, a, p, hleads, hp, rfl⟩
  · refine .inl ⟨?_, hunknown⟩
    rw [if_pos rfl, hunknown.disconnect] at hworker
    rw [hs', ← Except.ok.inj hworker]
  · refine .inr ⟨side, a, result, hleads, ?_, ?_, hworker⟩
    · rw [hs']
      simpa using hp
    · intro b hb
      rw [hs']
      simp [hb]

/-- **What a round does**: it accepts, it does nothing, or the handler that the descriptor leads
to is called. -/
theorem processEvent_cases {maxSize fuel : ℕ} {s s' : EventLoop} {ev : LoopEvent}
    (h : s.processEvent maxSize fuel ev = .ok s') :
    (ev.fd = s.worker.listenFd ∧ s' = s.acceptNewConn ev.accepted) ∨
      (ev.fd ≠ s.worker.listenFd ∧ s' = s ∧
        ((ev.epollIn = false ∧ ev.epollOut = false) ∨ Unknown s.worker ev.fd)) ∨
      (ev.fd ≠ s.worker.listenFd ∧ (ev.epollIn = true ∨ ev.epollOut = true) ∧
        ∃ side a result, Handled maxSize fuel s ev s' side a result) := by
  unfold processEvent at h
  by_cases hfd : ev.fd = s.worker.listenFd
  · rw [if_pos hfd] at h
    cases h
    exact .inl ⟨hfd, rfl⟩
  · rw [if_neg hfd] at h
    refine .inr ?_
    by_cases hin : ev.epollIn = true
    · rw [if_pos hin] at h
      rw [processReadEvent_eq hin] at h
      rcases handled_or_idle h with ⟨rfl, hnone⟩ | hhandled
      · exact .inl ⟨hfd, rfl, .inr hnone⟩
      · exact .inr ⟨hfd, .inl hin, hhandled⟩
    · rw [if_neg hin] at h
      by_cases hout : ev.epollOut = true
      · rw [if_pos hout] at h
        rw [processWriteEvent_eq hin] at h
        rcases handled_or_idle h with ⟨rfl, hnone⟩ | hhandled
        · exact .inl ⟨hfd, rfl, .inr hnone⟩
        · exact .inr ⟨hfd, .inr hout, hhandled⟩
      · rw [if_neg hout] at h
        cases h
        exact .inl ⟨hfd, rfl, .inl ⟨by simpa using hin, by simpa using hout⟩⟩

/-! ## The maps move as the worker moves them -/

/-- The event as the maps see it, the handler it is dispatched to having returned `result`. -/
def mapEvent (ev : LoopEvent) (result : Bool) : Worker.Event :=
  ⟨ev.fd, ev.epollIn, ev.epollOut, result, ev.accepted.map NewConn.accepted⟩

/-- An accept changes the worker as in the model of the worker alone. -/
theorem acceptNewConn_worker (s : EventLoop) (accepted : Option NewConn) :
    (s.acceptNewConn accepted).worker =
      s.worker.acceptNewConn (accepted.map NewConn.accepted) := by
  cases accepted <;> rfl

/-- A live entry makes the worker dispatch the event, whatever the handler returns. -/
theorem LeadsTo.dispatch {s : EventLoop} {fd : Fd} {side : Side} {a : Addr}
    (h : s.LeadsTo fd side a) (result : Bool) : s.worker.dispatch fd result = .ok result := by
  have hentry := h.entry
  unfold Worker.dispatch
  cases side with
  | client =>
    have hclient : s.worker.clientToBackend fd = some a := hentry
    simp [hclient, h.live]
  | backend => simp [hentry.1, hentry.2, h.live]

/-- **The maps move as the worker moves them**, given what the handlers return. -/
theorem processEvent_worker {maxSize fuel : ℕ} {s s' : EventLoop} {ev : LoopEvent}
    (h : s.processEvent maxSize fuel ev = .ok s') :
    ∃ result, s.worker.processEvent (mapEvent ev result) = .ok s'.worker := by
  rcases processEvent_cases h with
    ⟨hfd, rfl⟩ | ⟨hfd, rfl, hnone⟩ | ⟨hfd, hflag, side, a, result, hhandled⟩
  · refine ⟨true, ?_⟩
    rw [acceptNewConn_worker, Worker.processEvent]
    exact if_pos hfd
  · refine ⟨true, ?_⟩
    by_cases hflag : ev.epollIn = true ∨ ev.epollOut = true
    · have hunknown := hnone.resolve_left fun h => by simp [h.1, h.2] at hflag
      rw [Worker.processEvent_flagged hfd hflag]
      show s'.worker.dispatch ev.fd true >>= _ = _
      simp only [Worker.dispatch, hunknown.client, hunknown.backend, Option.or_none]
      exact hunknown.disconnect
    · exact Worker.processEvent_unflagged hfd hflag
  · refine ⟨result, ?_⟩
    rw [Worker.processEvent_flagged hfd hflag]
    show s.worker.dispatch ev.fd result >>= _ = _
    rw [hhandled.leads.dispatch result]
    exact hhandled.worker

end EventLoop

end PkuyoProxy.Model
