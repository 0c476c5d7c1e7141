import PkuyoProxy.Model.Config

/-!
# The load balancer (worker.cpp:19-74, def.h:93-102, init_listener.cpp:26-51, master.cpp:47-56)

The workers of a listener and its master share the statistics of the backends and the
position of the round robin.  Pointers to a configuration and to a statistic are indices; an
access outside of either array and a division by zero are a `BalancerFault`.
-/

set_option autoImplicit false

namespace PkuyoProxy.Model

/-- def.h:93-98 -/
structure BackendStat where
  connections : ℤ := 0
  failedConnections : ℤ := 0
  currentWeight : ℤ := 0
  isHealthy : Bool := true
  deriving DecidableEq, Repr

/-- def.h:99-102 -/
structure ShmLoadBalancer where
  currentIndex : ℕ := 0
  stats : List BackendStat
  deriving DecidableEq, Repr

/-- The backend `&config.backends[config]` with the statistic `&lb->stats[stat]`. -/
structure BackServer where
  config : ℕ
  stat : ℕ
  deriving DecidableEq, Repr

/-- A division by zero, or an access outside of an array. -/
inductive BalancerFault
  | divByZero
  | outOfRange
  deriving DecidableEq, Repr

/-- `xs[i]` -/
def elementAt {α : Type} (xs : List α) (i : ℕ) : Except BalancerFault α :=
  match xs[i]? with
  | some x => .ok x
  | none => .error .outOfRange

/-- `current_weight += weight`, which wraps. -/
def BackendStat.addWeight (s : BackendStat) (weight : ℤ) : BackendStat :=
  { s with currentWeight := toInt (s.currentWeight + weight) }

/-- `stats[i].current_weight += weight` -/
def ShmLoadBalancer.addWeight (lb : ShmLoadBalancer) (i : ℕ) (weight : ℤ) : ShmLoadBalancer :=
  { lb with stats := lb.stats.modify i (·.addWeight weight) }

/-! ## Choosing a backend -/

/-- worker.cpp:25-32; an empty result is `BackServer{nullptr,nullptr}` -/
def roundRobin (config : LoadBalancerConfig) (lb : ShmLoadBalancer) :
    Except BalancerFault (Option BackServer × ShmLoadBalancer) := do
  let i := lb.currentIndex
  let _ ← elementAt config.backends i
  let stat ← elementAt lb.stats i
  if config.backendCount = 0 then .error .divByZero
  else
    let lb := { lb with currentIndex := (i + 1) % config.backendCount }
    return (if stat.isHealthy then some ⟨i, i⟩ else none, lb)

/-- One round of the loop over the other backends (worker.cpp:39-47): `best` is the pair
`backend`, `state`. -/
def weightedRound (config : LoadBalancerConfig) (acc : BackServer × ShmLoadBalancer) (i : ℕ) :
    Except BalancerFault (BackServer × ShmLoadBalancer) := do
  let (best, lb) := acc
  let stat ← elementAt lb.stats i
  if !stat.isHealthy then return (best, lb)
  else
    let backend ← elementAt config.backends i
    let lb := lb.addWeight i backend.weight
    let stat ← elementAt lb.stats i
    let state ← elementAt lb.stats best.stat
    return (if stat.currentWeight < state.currentWeight then ⟨i, i⟩ else best, lb)

/-- worker.cpp:34-56 -/
def weightedRoundRobin (config : LoadBalancerConfig) (lb : ShmLoadBalancer) :
    Except BalancerFault (Option BackServer × ShmLoadBalancer) := do
  let backend ← elementAt config.backends 0
  let _ ← elementAt lb.stats 0
  let (best, lb) ← (List.range' 1 (config.backendCount - 1)).foldlM (weightedRound config)
    (⟨0, 0⟩, lb.addWeight 0 backend.weight)
  let backend ← elementAt config.backends best.config
  let state ← elementAt lb.stats best.stat
  if state.isHealthy then return (some best, lb.addWeight best.stat (-config.totalWeight))
  else return (none, lb.addWeight best.stat (-backend.weight))

/-- One round of the loop over the other backends (worker.cpp:61-69). -/
def leastRound (config : LoadBalancerConfig) (lb : ShmLoadBalancer) (best : BackServer) (i : ℕ) :
    Except BalancerFault BackServer := do
  let stat ← elementAt lb.stats i
  if !stat.isHealthy then return best
  else
    let state ← elementAt lb.stats best.stat
    if stat.connections < state.connections then do
      let _ ← elementAt config.backends i
      return ⟨i, i⟩
    else return best

/-- worker.cpp:57-71 -/
def leastConnections (config : LoadBalancerConfig) (lb : ShmLoadBalancer) :
    Except BalancerFault (Option BackServer × ShmLoadBalancer) := do
  let _ ← elementAt config.backends 0
  let _ ← elementAt lb.stats 0
  let best ← (List.range' 1 (config.backendCount - 1)).foldlM (leastRound config lb) ⟨0, 0⟩
  let state ← elementAt lb.stats best.stat
  return (if state.isHealthy then some best else none, lb)

/-- worker.cpp:24-74 -/
def getNextBackend (config : LoadBalancerConfig) (lb : ShmLoadBalancer) :
    Except BalancerFault (Option BackServer × ShmLoadBalancer) :=
  match config.algorithm with
  | .roundRobin => roundRobin config lb
  | .weightedRoundRobin => weightedRoundRobin config lb
  | .leastConnections => leastConnections config lb
  | .unset => .ok (none, lb)

/-- Calls one after the other, with what they return. -/
def nextBackends (config : LoadBalancerConfig) (lb : ShmLoadBalancer) :
    ℕ → Except BalancerFault (List (Option BackServer) × ShmLoadBalancer)
  | 0 => .ok ([], lb)
  | k + 1 => do
    let (answers, lb) ← nextBackends config lb k
    let (answer, lb) ← getNextBackend config lb
    return (answers ++ [answer], lb)

/-! ## The shared region and the health check -/

/-- init_listener.cpp:26-51: the region of a listener, with one statistic per process.  The
number of processes is not negative. -/
def initMmap (config : ListenerConfig) : ShmLoadBalancer :=
  { stats := List.replicate config.processCount.toNat {} }

/-- One round of `check_health` (master.cpp:49-55); `healthy` is what `is_server_healthy`
reports. -/
def checkHealthAt (healthy : ℕ → Bool) (lb : ShmLoadBalancer) (i : ℕ) :
    Except BalancerFault ShmLoadBalancer := do
  let _ ← elementAt lb.stats i
  return { lb with stats := lb.stats.modify i fun s => { s with isHealthy := healthy i } }

/-- master.cpp:47-56 -/
def checkHealth (config : LoadBalancerConfig) (healthy : ℕ → Bool) (lb : ShmLoadBalancer) :
    Except BalancerFault ShmLoadBalancer :=
  (List.range config.backends.length).foldlM (checkHealthAt healthy) lb

/-! ## Runs -/

/-- What can happen to a shared region: a worker looks for a backend, the master checks all of
them, or the health flags are found changed. -/
inductive BalancerCall
  | getNextBackend
  | checkHealth (healthy : ℕ → Bool)
  | flags (healthy : ℕ → Bool)

/-- One call on the region. -/
def balancerStep (config : LoadBalancerConfig) (lb : ShmLoadBalancer) :
    BalancerCall → Except BalancerFault ShmLoadBalancer
  | .getNextBackend => (getNextBackend config lb).map Prod.snd
  | .checkHealth healthy => checkHealth config healthy lb
  | .flags healthy =>
    .ok { lb with stats := lb.stats.mapIdx fun i s => { s with isHealthy := healthy i } }

end PkuyoProxy.Model
