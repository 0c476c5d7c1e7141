import Mathlib.Logic.Function.Basic
import PkuyoProxy.Lib.FallibleRun
import PkuyoProxy.Model.Config

/-!
# The worker's connection maps (worker.cpp:76-211)

`client_to_backend` owns the `ProxyHandler` of each client descriptor, `backend_to_client`
borrows it for the backend's descriptor.  The owned objects live in `heap`, under addresses
the allocator chooses; a `ProxyHandler` that is destroyed leaves the heap, and with it its
descriptors are closed.  What `accept`, `connect` and the handlers of a pair answer are
inputs; a step that would touch a destroyed `ProxyHandler` is a `WorkerFault`.
-/

set_option autoImplicit false

namespace PkuyoProxy.Model

/-- A descriptor. -/
abbrev Fd := ℤ

/-- The address of an object. -/
abbrev Addr := ℕ

/-- The handler on the backend's side of a pair. -/
inductive BackendHandler
  | normal (connFd : Fd)
  | failed
  | staticFile
  deriving DecidableEq, Repr

/-- `id()` of the backend's handler. -/
def BackendHandler.id : BackendHandler → Fd
  | .normal connFd => connFd
  | .failed | .staticFile => -1

/-- A pair of handlers; the client's is a `NormalConnHandler`. -/
structure ProxyHandler where
  client : Fd
  backend : BackendHandler
  deriving DecidableEq, Repr

/-- The two maps of a worker, and the pairs that are alive. -/
structure Worker where
  listenFd : Fd
  backendType : BackendType
  clientToBackend : Fd → Option Addr := fun _ => none
  backendToClient : Fd → Option Addr := fun _ => none
  heap : Addr → Option ProxyHandler := fun _ => none

/-- Use of a `ProxyHandler` after its destruction. -/
inductive WorkerFault
  | destroyed
  deriving DecidableEq, Repr

/-- What `accept` and `connect` gave for a new connection: the client's descriptor, the
address of the new `ProxyHandler`, and the backend's descriptor when a backend was found and
could be connected. -/
structure Accepted where
  clientFd : Fd
  addr : Addr
  backendFd : Option Fd
  deriving DecidableEq, Repr

namespace Worker

/-- `client_to_backend.erase(fd)` -/
def eraseClient (w : Worker) (fd : Fd) : Worker :=
  match w.clientToBackend fd with
  | none => w
  | some p =>
    { w with
      clientToBackend := Function.update w.clientToBackend fd none
      heap := Function.update w.heap p none }

/-- The backend handler of a new pair (worker.cpp:139-161). -/
def newBackend (w : Worker) (a : Accepted) : BackendHandler :=
  match w.backendType, a.backendFd with
  | .loadBalancer, some fd => .normal fd
  | .loadBalancer, none => .failed
  | .static, _ => .staticFile

/-- worker.cpp:119-163; an `accept` that fails changes no map.  The assignment to
`client_to_backend[client_fd]` destroys what the entry owned before. -/
def acceptNewConn (w : Worker) : Option Accepted → Worker
  | none => w
  | some a =>
    let backend := w.newBackend a
    let w := w.eraseClient a.clientFd
    { w with
      clientToBackend := Function.update w.clientToBackend a.clientFd (some a.addr)
      backendToClient :=
        match backend with
        | .normal fd => Function.update w.backendToClient fd (some a.addr)
        | _ => w.backendToClient
      heap := Function.update w.heap a.addr (some ⟨a.clientFd, backend⟩) }

/-- worker.cpp:76-86 -/
def disconnect (w : Worker) (fd : Fd) : Except WorkerFault Worker :=
  if (w.clientToBackend fd).isSome then .ok (w.eraseClient fd)
  else
    match w.backendToClient fd with
    | none => .ok w
    | some p =>
      match w.heap p with
      | none => .error .destroyed
      | some h =>
        .ok (eraseClient
          { w with backendToClient := Function.update w.backendToClient fd none } h.client)

/-- Erasing a client does not change the listening socket. -/
theorem eraseClient_listenFd (w : Worker) (fd : Fd) : (w.eraseClient fd).listenFd = w.listenFd := by
  unfold eraseClient
  split <;> rfl

/-- A disconnect does not change the listening socket. -/
theorem disconnect_listenFd {w w' : Worker} {fd : Fd} (h : w.disconnect fd = .ok w') :
    w'.listenFd = w.listenFd := by
  unfold disconnect at h
  split at h
  · cases h
    exact eraseClient_listenFd w fd
  · split at h
    · cases h
      rfl
    · split at h
      · cases h
      · cases h
        exact eraseClient_listenFd _ _

/-- A descriptor without an entry changes nothing. -/
theorem disconnect_unknown {w : Worker} {fd : Fd} (hclient : w.clientToBackend fd = none)
    (hbackend : w.backendToClient fd = none) : w.disconnect fd = .ok w := by
  simp [disconnect, hclient, hbackend]

/-- An event of a batch, with what the handler it is dispatched to returns and what `accept`
gives if it is one of the listening socket. -/
structure Event where
  fd : Fd
  epollIn : Bool
  epollOut : Bool
  result : Bool
  accepted : Option Accepted
  deriving DecidableEq, Repr

/-- The call of a member of `client_to_backend[fd]->client` or
`backend_to_client[fd]->backend` that returns `result`. -/
def dispatch (w : Worker) (fd : Fd) (result : Bool) : Except WorkerFault Bool :=
  match (w.clientToBackend fd).or (w.backendToClient fd) with
  | none => .ok true
  | some p => if (w.heap p).isSome then .ok result else .error .destroyed

/-- worker.cpp:184-197 -/
def processReadEvent (w : Worker) (ev : Event) : Except WorkerFault Bool :=
  w.dispatch ev.fd ev.result

/-- worker.cpp:199-211 -/
def processWriteEvent (w : Worker) (ev : Event) : Except WorkerFault Bool :=
  w.dispatch ev.fd ev.result

/-- One round of the loop of `process_events` (worker.cpp:168-180). -/
def processEvent (w : Worker) (ev : Event) : Except WorkerFault Worker :=
  if ev.fd = w.listenFd then .ok (w.acceptNewConn ev.accepted)
  else if ev.epollIn then do
    if ← w.processReadEvent ev then w.disconnect ev.fd else .ok w
  else if ev.epollOut then do
    if ← w.processWriteEvent ev then w.disconnect ev.fd else .ok w
  else .ok w

/-- An event of reading or writing is dispatched, and its descriptor is disconnected if the answer
says so. -/
theorem processEvent_flagged {w : Worker} {ev : Event} (hfd : ev.fd ≠ w.listenFd)
    (hflag : ev.epollIn = true ∨ ev.epollOut = true) :
    w.processEvent ev = w.dispatch ev.fd ev.result >>= fun result =>
      if result = true then w.disconnect ev.fd else .ok w := by
  unfold processEvent
  rw [if_neg hfd]
  by_cases hin : ev.epollIn = true
  · rw [if_pos hin]
    rfl
  · rw [if_neg hin, if_pos (hflag.resolve_left hin)]
    rfl

/-- An event with neither flag changes nothing. -/
theorem processEvent_unflagged {w : Worker} {ev : Event} (hfd : ev.fd ≠ w.listenFd)
    (hflag : ¬ (ev.epollIn = true ∨ ev.epollOut = true)) : w.processEvent ev = .ok w := by
  obtain ⟨hin, hout⟩ := not_or.mp hflag
  unfold processEvent
  rw [if_neg hfd, if_neg hin, if_neg hout]

/-- worker.cpp:165-181 -/
def processEvents (w : Worker) (events : List Event) : Except WorkerFault Worker :=
  events.foldlM processEvent w

end Worker

/-! ## Runs -/

/-- What can happen to a worker: a connection is accepted, a descriptor is disconnected, or an
event of a batch is processed. -/
inductive WorkerInput
  | accept (accepted : Option Accepted)
  | disconnect (fd : Fd)
  | event (ev : Worker.Event)

/-- One input of the worker. -/
def workerStep (w : Worker) : WorkerInput → Except WorkerFault Worker
  | .accept accepted => .ok (w.acceptNewConn accepted)
  | .disconnect fd => w.disconnect fd
  | .event ev => w.processEvent ev

/-- A batch is a run of its events. -/
theorem processEvents_eq (w : Worker) (events : List Worker.Event) :
    w.processEvents events = Lib.runSteps workerStep w (events.map .event) := by
  unfold Worker.processEvents Lib.runSteps
  rw [List.foldlM_map]
  rfl

end PkuyoProxy.Model
