import PkuyoProxy.Model.Worker

/-!
# The loop of a worker (worker.cpp:215-226)

The loop reads `needExit` between two batches of events; the signal handler sets it at any
point, also between two events of a batch.  The numbers of the connections and those that were
there when the flag was set are recorded to speak of runs; nobody reads them.
-/

set_option autoImplicit false

namespace PkuyoProxy.Model

/-- `MAX_EVENTS` -/
def maxEvents : ℕ := 30

/-- A worker in its loop, with what is left of the batch.  The clients' descriptors have the
number of their connection, in the order in which they were accepted. -/
structure WorkerLoop where
  worker : Worker
  needExit : Bool := false
  batch : List Worker.Event := []
  number : Fd → ℕ := fun _ => 0
  accepted : ℕ := 0
  atExit : Fd → Option ℕ := fun _ => none

/-- `notWaiting` says that the loop has ended or is elsewhere. -/
inductive LoopFault
  | notWaiting
  | worker (e : WorkerFault)
  deriving DecidableEq, Repr

namespace WorkerLoop

/-- A worker that was started. -/
def started (listenFd : Fd) (backendType : BackendType) : WorkerLoop :=
  { worker := { listenFd, backendType } }

/-- The connections behind the clients' descriptors. -/
def clients (s : WorkerLoop) (fd : Fd) : Option ℕ :=
  (s.worker.clientToBackend fd).map fun _ => s.number fd

/-- init_listener.cpp:89-91 -/
def reloadSignalHandler (s : WorkerLoop) : WorkerLoop :=
  if s.needExit then s else { s with needExit := true, atExit := s.clients }

/-- `!needExit || !client_to_backend.empty()`, where `client` is a descriptor with an entry. -/
def goesOn (s : WorkerLoop) (client : Fd) : Bool :=
  !s.needExit || (s.worker.clientToBackend client).isSome

/-- worker.cpp:222 and 167: a batch is waited for. -/
def wait (s : WorkerLoop) (client : Fd) (events : List Worker.Event) :
    Except LoopFault WorkerLoop :=
  if s.batch = [] ∧ s.goesOn client = true ∧ events.length ≤ maxEvents then
    .ok { s with batch := events }
  else .error .notWaiting

/-- A connection that is accepted gets the next number. -/
def count (s : WorkerLoop) (ev : Worker.Event) : WorkerLoop :=
  match ev.accepted with
  | some a =>
    if ev.fd = s.worker.listenFd then
      { s with
        number := Function.update s.number a.clientFd s.accepted
        accepted := s.accepted + 1 }
    else s
  | none => s

/-- worker.cpp:168-180, one round. -/
def processEvent (s : WorkerLoop) : Except LoopFault WorkerLoop :=
  match s.batch with
  | [] => .error .notWaiting
  | ev :: events => do
    let worker ← (s.worker.processEvent ev).mapError .worker
    return { s.count ev with worker, batch := events }

end WorkerLoop

/-- What can happen: a SIGHUP arrives, the loop waits, or an event is processed. -/
inductive WorkerLoopInput
  | hangUp
  | wait (client : Fd) (events : List Worker.Event)
  | event

/-- One input of the worker. -/
def workerLoopStep (s : WorkerLoop) : WorkerLoopInput → Except LoopFault WorkerLoop
  | .hangUp => .ok s.reloadSignalHandler
  | .wait client events => s.wait client events
  | .event => s.processEvent

end PkuyoProxy.Model
