import PkuyoProxy.Model.Balancer
import PkuyoProxy.Model.Worker

/-!
# A worker and its balancer (worker.cpp:100-163)

The backend's connection of a new client is the one the balancer chooses, if it can be
connected; `new_backend_fd` counts it in the statistic of that backend.  Which backend a
pair is connected to is recorded beside the maps.  The region is shared by all workers of the
listener: another one that accepts a client chooses and counts in it as well.  A call of
`get_next_backend` is one step here (`InterleavedCalls` takes it apart), and of the other workers
only what they do to the region is looked at.
-/

set_option autoImplicit false

namespace PkuyoProxy.Model

/-- What `accept`, the allocator and `connect` give for a new client; `connect` is asked only if
there is a backend. -/
structure Dial where
  clientFd : Fd
  addr : Addr
  connected : Option Fd
  deriving DecidableEq, Repr

/-- `connections.fetch_add(1)`, which wraps. -/
def BackendStat.addConnection (s : BackendStat) : BackendStat :=
  { s with connections := toInt (s.connections + 1) }

/-- `failed_connections.fetch_add(1)` -/
def BackendStat.addFailed (s : BackendStat) : BackendStat :=
  { s with failedConnections := toInt (s.failedConnections + 1) }

/-- worker.cpp:100-116: the descriptor of the connection and the backend it goes to. -/
def newBackendFd (config : LoadBalancerConfig) (connected : Option Fd) (lb : ShmLoadBalancer) :
    Except BalancerFault (Option (Fd × BackServer) × ShmLoadBalancer) := do
  let (backend, lb) ← getNextBackend config lb
  match backend with
  | none => return (none, lb)
  | some backend =>
    let lb :=
      match connected with
      | none => { lb with stats := lb.stats.modify backend.stat .addFailed }
      | some _ => lb
    return (connected.map (·, backend),
      { lb with stats := lb.stats.modify backend.stat .addConnection })

/-- A worker with the region it shares and the backends its pairs are connected to: the one whose
address was dialled, and the one whose statistic was raised. -/
structure BalancedWorker where
  worker : Worker
  config : LoadBalancerConfig
  lb : ShmLoadBalancer
  target : Addr → Option BackServer := fun _ => none

/-- A worker of a listener, at its start. -/
def BalancedWorker.started (listenFd : Fd) (config : ListenerConfig) : BalancedWorker where
  worker := { listenFd, backendType := config.backendType }
  config := config.loadBalancer
  lb := initMmap config

/-- The balancer fails, or the maps of the worker do. -/
inductive BalancedFault
  | balancer (e : BalancerFault)
  | worker (e : WorkerFault)
  deriving DecidableEq, Repr

namespace BalancedWorker

/-- The maps behind a new client, and its backend. -/
def enter (s : BalancedWorker) (d : Dial) (backend : Option (Fd × BackServer)) : BalancedWorker :=
  { s with
    worker := s.worker.acceptNewConn (some ⟨d.clientFd, d.addr, backend.map Prod.fst⟩)
    target := Function.update s.target d.addr (backend.map Prod.snd) }

/-- worker.cpp:119-163 -/
def acceptNewConn (s : BalancedWorker) : Option Dial → Except BalancerFault BalancedWorker
  | none => .ok s
  | some d =>
    match s.worker.backendType with
    | .static => .ok (s.enter d none)
    | .loadBalancer => do
      let (backend, lb) ← newBackendFd s.config d.connected s.lb
      return { s with lb }.enter d backend

/-- Another worker of the listener accepts a client; `connected` is what `connect` gives it. -/
def neighbourAccepts (s : BalancedWorker) (connected : Option Fd) :
    Except BalancerFault BalancedWorker :=
  match s.worker.backendType with
  | .static => .ok s
  | .loadBalancer => do
    let (_, lb) ← newBackendFd s.config connected s.lb
    return { s with lb }

end BalancedWorker

/-- What can happen to a worker: a client is accepted, by it or by another worker of the listener,
a descriptor is disconnected, or the master checks the backends. -/
inductive BalancedInput
  | accept (dial : Option Dial)
  | neighbour (connected : Option Fd)
  | disconnect (fd : Fd)
  | checkHealth (healthy : ℕ → Bool)

/-- One input of the worker. -/
def balancedStep (s : BalancedWorker) : BalancedInput → Except BalancedFault BalancedWorker
  | .accept dial => (s.acceptNewConn dial).mapError .balancer
  | .neighbour connected => (s.neighbourAccepts connected).mapError .balancer
  | .disconnect fd => do
    let worker ← (s.worker.disconnect fd).mapError .worker
    return { s with worker }
  | .checkHealth healthy => do
    let lb ← (checkHealth s.config healthy s.lb).mapError .balancer
    return { s with lb }

end PkuyoProxy.Model
