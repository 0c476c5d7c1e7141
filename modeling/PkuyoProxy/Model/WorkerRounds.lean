import PkuyoProxy.Model.Descriptors

/-!
# Where a worker is in its loop (worker.cpp:165-181, 215-226)

`worker_loop` tests `needExit` and `client_to_backend`, waits for events without a limit of time,
and processes them.  The handler of a SIGHUP runs between any two of these steps.  It ends a wait
that has begun, but one that is about to begin knows nothing of it.
-/

set_option autoImplicit false

namespace PkuyoProxy.Model

/-- In front of the test of the loop, in front of `epoll_wait`, in it, in front of the next event of
a batch, or behind the loop. -/
inductive WorkerPoint
  | test
  | beforeWait
  | waiting
  | serving
  | returned
  deriving DecidableEq, Repr

/-- The process and where in its loop it is. -/
structure WorkerRounds where
  process : WorkerProcess
  point : WorkerPoint := .test

/-- The worker is elsewhere, or its process fails. -/
inductive RoundFault
  | noStep
  | process (e : DescriptorFault)
  deriving DecidableEq, Repr

namespace WorkerRounds

/-- worker.cpp:221, where `client` is a descriptor with an entry if there is one. -/
def test (s : WorkerRounds) (client : Fd) : WorkerRounds :=
  let clients := (s.process.worker.clientToBackend client).isSome
  { s with point := if !s.process.needExit || clients then .beforeWait else .returned }

/-- worker.cpp:167: `epoll_wait` gives the events of a batch. -/
def ready (s : WorkerRounds) (events : List ProcessEvent) : Except RoundFault WorkerRounds :=
  if events ≠ [] ∧ events.length ≤ maxEvents then
    .ok { process := { s.process with batch := events }, point := .serving }
  else .error .noStep

/-- worker.cpp:168-180, one round. -/
def processEvent (s : WorkerRounds) : Except RoundFault WorkerRounds := do
  let process ← s.process.processEvent.mapError .process
  return { process, point := if process.batch = [] then .test else .serving }

/-- init_listener.cpp:89-91; an `epoll_wait` that it interrupts gives no events. -/
def reloadSignalHandler (s : WorkerRounds) : WorkerRounds where
  process := { s.process with needExit := true }
  point := if s.point = .waiting then .test else s.point

end WorkerRounds

/-- What can happen: the worker takes its next step, or a SIGHUP is handled. -/
inductive RoundInput
  | test (client : Fd)
  | wait
  | ready (events : List ProcessEvent)
  | event
  | hangUp

/-- One step of the worker. -/
def roundStep (s : WorkerRounds) : RoundInput → Except RoundFault WorkerRounds
  | .test client => if s.point = .test then .ok (s.test client) else .error .noStep
  | .wait => if s.point = .beforeWait then .ok { s with point := .waiting } else .error .noStep
  | .ready events => if s.point = .waiting then s.ready events else .error .noStep
  | .event => if s.point = .serving then s.processEvent else .error .noStep
  | .hangUp => .ok s.reloadSignalHandler

end PkuyoProxy.Model
