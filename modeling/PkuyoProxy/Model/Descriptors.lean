import PkuyoProxy.Model.NormalConnHandler
import PkuyoProxy.Model.WorkerLoop

/-!
# The descriptors of a worker (listen_handler.cpp, conn_handler.cpp:17-61, worker.cpp:76-226)

The worker's maps together with the descriptors its process has open and those its epoll instance
watches.  The handler of a connection closes its descriptor in its destructor, so destroying a pair
closes one or two.  What the system calls and the handlers of a pair answer are inputs.  Of an
interest set matters only whether it is empty: that of a paused listening socket is.
-/

set_option autoImplicit false

namespace PkuyoProxy.Model

/-- The events that a descriptor is registered for. -/
inductive Interest
  | events
  | nothing
  deriving DecidableEq, Repr

/-- What the kernel keeps for a process: the descriptors that are open, none of them negative, and
those of them that the epoll instance watches. -/
structure Descriptors where
  isOpen : Fd → Bool
  epoll : Fd → Option Interest
  nonneg : ∀ fd, isOpen fd = true → 0 ≤ fd
  closed : ∀ fd, isOpen fd = false → epoll fd = none

/-- How a worker can end: a destroyed pair is used, a number that could be a descriptor is closed
but is not open (it may be another's by then), or `set_nonblocking` or `add_epoll_fd` throws.
`notWaiting` says that the loop is elsewhere. -/
inductive DescriptorFault
  | destroyed
  | badDescriptor
  | runtimeError
  | notWaiting
  deriving DecidableEq, Repr

namespace Descriptors

/-- The kernel gives out a descriptor, which is not negative. -/
def give (d : Descriptors) (fd : Fd) : Descriptors where
  isOpen := Function.update d.isOpen fd (decide (0 ≤ fd))
  epoll := d.epoll
  nonneg := by
    intro fd' h
    by_cases hfd : fd' = fd
    · rw [hfd, Function.update_self] at h
      exact hfd ▸ of_decide_eq_true h
    · rw [Function.update_of_ne hfd] at h
      exact d.nonneg fd' h
  closed := by
    intro fd' h
    apply d.closed
    by_cases hfd : fd' = fd
    · rw [hfd, Function.update_self] at h
      rw [hfd]
      by_contra hopen
      exact of_decide_eq_false h (d.nonneg fd (by simpa using hopen))
    · rwa [Function.update_of_ne hfd] at h

/-- `epoll_ctl` on a descriptor that is open. -/
def watch (d : Descriptors) (fd : Fd) (interest : Interest) (h : d.isOpen fd = true) :
    Descriptors where
  isOpen := d.isOpen
  epoll := Function.update d.epoll fd (some interest)
  nonneg := d.nonneg
  closed := by
    intro fd' h'
    have hfd : fd' ≠ fd := by
      rintro rfl
      cases h.symm.trans h'
    rw [Function.update_of_ne hfd]
    exact d.closed fd' h'

/-- helper.h:12-30, which throws unless `fcntl` and `epoll_ctl` succeed. -/
def addEpollFd (d : Descriptors) (fd : Fd) (added : Bool) : Except DescriptorFault Descriptors :=
  if h : d.isOpen fd = true ∧ added = true then .ok (d.watch fd .events h.1)
  else .error .runtimeError

/-- worker.cpp:124-127: `EPOLL_CTL_MOD` without events, whose failure is not looked at. -/
def pause (d : Descriptors) (fd : Fd) : Descriptors :=
  if h : d.isOpen fd = true then d.watch fd .nothing h else d

/-- `close(fd)`; a closed descriptor leaves the epoll set.  A negative number is never a
descriptor: the call answers `EBADF` and nothing happens. -/
def close (d : Descriptors) (fd : Fd) : Except DescriptorFault Descriptors :=
  if d.isOpen fd then
    .ok {
      isOpen := Function.update d.isOpen fd false
      epoll := Function.update d.epoll fd none
      nonneg := by
        intro fd' h
        by_cases hfd : fd' = fd
        · rw [hfd, Function.update_self] at h
          cases h
        · rw [Function.update_of_ne hfd] at h
          exact d.nonneg fd' h
      closed := by
        intro fd' h
        by_cases hfd : fd' = fd
        · rw [hfd, Function.update_self]
        · rw [Function.update_of_ne hfd] at h ⊢
          exact d.closed fd' h }
  else if fd < 0 then .ok d
  else .error .badDescriptor

/-- `~ProxyHandler`: both handlers close their descriptor, the backend's first
(conn_handler.cpp:17-22, 49-61).  The handlers of the two other kinds have none. -/
def destroy (d : Descriptors) (h : ProxyHandler) : Except DescriptorFault Descriptors := do
  let d ← match h.backend with
    | .normal fd => d.close fd
    | .failed | .staticFile => .ok d
  d.close h.client

end Descriptors

/-! ## The listening handler -/

/-- What `accept` gives, whether its descriptor can be added, how the TLS handshake begins, and
whether `errno` is `EMFILE` or `ENFILE` when the worker looks at it. -/
structure AcceptAnswer where
  fd : Option Fd
  added : Bool := true
  handshake : Handshake := .finished
  noDescriptors : Bool := false
  deriving DecidableEq, Repr

/-- listen_handler.cpp:59-70, 174-190; a fatal handshake destroys the new handler. -/
def Descriptors.accept (isSsl : Bool) (io : AcceptAnswer) (d : Descriptors) :
    Except DescriptorFault (Option Fd × Descriptors) :=
  match io.fd with
  | none => .ok (none, d)
  | some fd => do
    let d ← (d.give fd).addEpollFd fd io.added
    if isSsl ∧ io.handshake = .fatal then return (none, ← d.close fd)
    else return (some fd, d)

/-- What `socket` and `connect` answer. -/
inductive ConnectAnswer
  | noSocket
  | refused (fd : Fd)
  | connected (fd : Fd) (added : Bool)
  deriving DecidableEq, Repr

/-- The descriptor that `socket` gave. -/
def ConnectAnswer.fd : ConnectAnswer → Option Fd
  | .noSocket => none
  | .refused fd | .connected fd _ => some fd

/-- listen_handler.cpp:72-93; without a socket -1 is closed, then connected to no effect, and
closed once more. -/
def Descriptors.connect (d : Descriptors) :
    ConnectAnswer → Except DescriptorFault (Option Fd × Descriptors)
  | .noSocket => do
    let d ← d.close (-1)
    return (none, ← d.close (-1))
  | .refused fd => do return (none, ← (d.give fd).close fd)
  | .connected fd added => do return (some fd, ← (d.give fd).addEpollFd fd added)

/-- Whether OpenSSL can be set up, what `socket` gives, whether the socket can be bound and
listened on, and what `epoll_create1` gives. -/
structure StartupAnswer where
  openssl : Bool := true
  listenFd : Option Fd
  listening : Bool := true
  epollFd : Option Fd
  added : Bool := true
  deriving DecidableEq, Repr

/-- listen_handler.cpp:14-53, 130-171: whether it failed, and the two descriptors of the
handler. -/
def Descriptors.startup (isSsl : Bool) (io : StartupAnswer) (d : Descriptors) :
    Except DescriptorFault (Bool × Fd × Fd × Descriptors) :=
  if isSsl ∧ ¬ io.openssl then .ok (true, -1, -1, d)
  else
    match io.listenFd with
    | none => .ok (true, -1, -1, d)
    | some listenFd =>
      let d := d.give listenFd
      if ¬ io.listening then .ok (true, listenFd, -1, d)
      else
        match io.epollFd with
        | none => .ok (true, listenFd, -1, d)
        | some epollFd => do
          let d ← (d.give epollFd).addEpollFd listenFd io.added
          return (false, listenFd, epollFd, d)

/-- `~IListenHandler` (listen_handler.h:28-37), which a member `-1` makes skip its `close`. -/
def Descriptors.closeListener (d : Descriptors) (listenFd epollFd : Fd) :
    Except DescriptorFault Descriptors := do
  let d ← if 0 ≤ listenFd then d.close listenFd else .ok d
  if 0 ≤ epollFd then d.close epollFd else .ok d

/-! ## The worker -/

/-- What `accept_new_conn` meets: `accept`, the allocator, whether `get_next_backend` finds a
backend, and `connect`. -/
structure Arrival where
  client : AcceptAnswer
  addr : Addr
  chosen : Bool := true
  backend : ConnectAnswer := .noSocket
  deriving DecidableEq, Repr

/-- An event of a batch, with what the handler it is dispatched to returns and what a connection
meets if it is one of the listening socket. -/
structure ProcessEvent where
  fd : Fd
  epollIn : Bool
  epollOut : Bool
  result : Bool
  arrival : Arrival
  deriving DecidableEq, Repr

/-- The event as the maps see it. -/
def ProcessEvent.event (ev : ProcessEvent) : Worker.Event :=
  ⟨ev.fd, ev.epollIn, ev.epollOut, ev.result, none⟩

/-- The worker with its descriptors, the flag of its handler and the events of its batch that are
left. -/
structure WorkerProcess where
  worker : Worker
  isSsl : Bool
  epollFd : Fd
  descriptors : Descriptors
  needExit : Bool := false
  batch : List ProcessEvent := []

namespace WorkerProcess

/-- What the maps do, in terms of the process. -/
def lift {α : Type} (x : Except WorkerFault α) : Except DescriptorFault α :=
  x.mapError fun | .destroyed => .destroyed

/-- `client_to_backend.erase(fd)` -/
def eraseClient (s : WorkerProcess) (fd : Fd) : Except DescriptorFault WorkerProcess :=
  match (s.worker.clientToBackend fd).bind s.worker.heap with
  | none => .ok { s with worker := s.worker.eraseClient fd }
  | some h => do
    let descriptors ← s.descriptors.destroy h
    return { s with worker := s.worker.eraseClient fd, descriptors }

/-- worker.cpp:76-86 -/
def disconnect (s : WorkerProcess) (fd : Fd) : Except DescriptorFault WorkerProcess :=
  if (s.worker.clientToBackend fd).isSome then s.eraseClient fd
  else
    match s.worker.backendToClient fd with
    | none => .ok s
    | some p =>
      match s.worker.heap p with
      | none => .error .destroyed
      | some h =>
        { s with worker := { s.worker with
            backendToClient := Function.update s.worker.backendToClient fd none } }.eraseClient
          h.client

/-- worker.cpp:100-116, without the counters. -/
def newBackendFd (a : Arrival) (d : Descriptors) :
    Except DescriptorFault (Option Fd × Descriptors) :=
  if a.chosen then d.connect a.backend else .ok (none, d)

/-- worker.cpp:119-163; without a descriptor for the client the listening socket is paused if that
is what `errno` says. -/
def acceptNewConn (s : WorkerProcess) (a : Arrival) : Except DescriptorFault WorkerProcess := do
  let (client, d) ← s.descriptors.accept s.isSsl a.client
  match client with
  | none =>
    if a.client.noDescriptors then return { s with descriptors := d.pause s.worker.listenFd }
    else return { s with descriptors := d }
  | some fd =>
    let s ← eraseClient { s with descriptors := d } fd
    match s.worker.backendType with
    | .loadBalancer =>
      let (backend, d) ← newBackendFd a s.descriptors
      return { s with
        descriptors := d, worker := s.worker.acceptNewConn (some ⟨fd, a.addr, backend⟩) }
    | .static =>
      return { s with worker := s.worker.acceptNewConn (some ⟨fd, a.addr, none⟩) }

/-- worker.cpp:168-180, one round. -/
def processEvent (s : WorkerProcess) : Except DescriptorFault WorkerProcess :=
  match s.batch with
  | [] => .error .notWaiting
  | ev :: events => do
    let s := { s with batch := events }
    if ev.fd = s.worker.listenFd then s.acceptNewConn ev.arrival
    else if ev.epollIn then do
      if ← lift (s.worker.processReadEvent ev.event) then s.disconnect ev.fd else return s
    else if ev.epollOut then do
      if ← lift (s.worker.processWriteEvent ev.event) then s.disconnect ev.fd else return s
    else return s

/-- worker.cpp:222 and 167, where `client` is a descriptor with an entry if there is one. -/
def wait (s : WorkerProcess) (client : Fd) (events : List ProcessEvent) :
    Except DescriptorFault WorkerProcess :=
  if s.batch = [] ∧ (!s.needExit || (s.worker.clientToBackend client).isSome) ∧
      events.length ≤ maxEvents then
    .ok { s with batch := events }
  else .error .notWaiting

/-- What `Worker::startup` leaves to the loop, or to the destructor of a worker whose startup has
failed (worker.cpp:88-98, 215-220). -/
def start (backendType : BackendType) (isSsl : Bool) (io : StartupAnswer) (d : Descriptors) :
    Except DescriptorFault (Descriptors ⊕ WorkerProcess) := do
  let (failed, listenFd, epollFd, d) ← d.startup isSsl io
  if failed then return .inl (← d.closeListener listenFd epollFd)
  else
    return .inr
      { worker := { listenFd, backendType }, isSsl, epollFd, descriptors := d }

/-- The destructor of a worker whose loop has ended: its maps are empty then. -/
def finish (s : WorkerProcess) : Except DescriptorFault Descriptors :=
  s.descriptors.closeListener s.worker.listenFd s.epollFd

end WorkerProcess

/-- What can happen to a worker: a SIGHUP arrives, the loop waits, or an event is processed. -/
inductive ProcessInput
  | hangUp
  | wait (client : Fd) (events : List ProcessEvent)
  | event

/-- One input of the process. -/
def processStep (s : WorkerProcess) : ProcessInput → Except DescriptorFault WorkerProcess
  | .hangUp => .ok { s with needExit := true }
  | .wait client events => s.wait client events
  | .event => s.processEvent

end PkuyoProxy.Model
