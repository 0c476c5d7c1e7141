import PkuyoProxy.Model.BalancedWorker

/-!
# The shared region of a server name (init_listener.cpp:26-91, master.cpp:47-69)

A listener that is started maps the region of its server name and initialises it; the workers
it forks and their master share the mapping, at the address it has in the starting process.
The region stays when its users end, and the next listener of the name finds it.  Its pointer
`stats` is an address of the process that stored it.  A process that ends, drained or killed,
is an input of its own, so a run may go on where an access of one process fails.
-/

set_option autoImplicit false

namespace PkuyoProxy.Model

/-- `sizeof(ShmLoadBalancer)`: an `int` and a pointer. -/
def lbSize : ℕ := 16

/-- `sizeof(BackendStat)`: three `int`s and a `bool`. -/
def statSize : ℕ := 16

/-- `alignof(BackendStat)` -/
def backendAlign : ℕ := 4

/-- What is left out in front of the statistics. -/
def padding : ℕ := (backendAlign - lbSize % backendAlign) % backendAlign

/-- Where the statistics begin in a mapping. -/
def statsOffset : ℕ := lbSize + padding

/-- What is in a region, and the generation whose process wrote it last. -/
structure SharedRegion where
  lb : ShmLoadBalancer
  stats : ℕ
  writer : ℕ
  deriving DecidableEq, Repr

/-- A listener that was started: where its processes have the region, how many of its workers
are still to be forked and how many live, and whether its first process lives. -/
structure Generation where
  config : ListenerConfig
  rawMem : ℕ
  unforked : ℕ
  workers : ℕ := 0
  master : Bool := true
  deriving DecidableEq, Repr

namespace Generation

/-- Where the statistics of a generation are. -/
def statsMem (g : Generation) : ℕ := g.rawMem + statsOffset

/-- The length of the mapping of a generation. -/
def memLength (g : Generation) : ℕ :=
  lbSize + padding + statSize * g.config.processCount.toNat

end Generation

/-- The regions that are there, by their names, and the generations of the listeners. -/
structure Daemon where
  regions : Bytes → Option SharedRegion := fun _ => none
  generations : List Generation := []

/-- `noProcess` says that nothing is there to take the step; an access through a pointer that
is not into the mapping of the process is `outsideMapping`. -/
inductive RegionFault
  | noProcess
  | outsideMapping
  | balancer (e : BalancerFault)
  deriving DecidableEq, Repr

namespace Daemon

/-- The generation at an index. -/
def generation (d : Daemon) (i : ℕ) : Except RegionFault Generation :=
  match d.generations[i]? with
  | some g => .ok g
  | none => .error .noProcess

/-- The generation at an index is this one. -/
def setGeneration (d : Daemon) (i : ℕ) (g : Generation) : Daemon :=
  { d with generations := d.generations.set i g }

/-- The region of a name is this one. -/
def setRegion (d : Daemon) (name : Bytes) (r : SharedRegion) : Daemon :=
  { d with regions := Function.update d.regions name (some r) }

/-- The region of a name is the one that was set. -/
@[simp] theorem setRegion_self (d : Daemon) (name : Bytes) (r : SharedRegion) :
    (d.setRegion name r).regions name = some r := Function.update_self _ _ _

/-- The regions of other names stay. -/
theorem setRegion_ne (d : Daemon) {name name' : Bytes} (h : name' ≠ name) (r : SharedRegion) :
    (d.setRegion name r).regions name' = d.regions name' := Function.update_of_ne h _ _

/-- init_listener.cpp:26-62: `shm_open` without `O_EXCL` opens the region there is. -/
def startListener (d : Daemon) (config : ListenerConfig) (rawMem : ℕ) : Daemon :=
  { d.setRegion config.serverName
      ⟨initMmap config, rawMem + statsOffset, d.generations.length⟩ with
    generations := d.generations ++ [⟨config, rawMem, config.processCount.toNat, 0, true⟩] }

/-- init_listener.cpp:64-72 -/
def forkWorker (d : Daemon) (i : ℕ) : Except RegionFault Daemon := do
  let g ← d.generation i
  if g.unforked = 0 then .error .noProcess
  else return d.setGeneration i { g with unforked := g.unforked - 1, workers := g.workers + 1 }

/-- A process of a generation works on the balancer through `lb->stats`. -/
def useRegion (d : Daemon) (i : ℕ) (g : Generation)
    (f : ShmLoadBalancer → Except BalancerFault ShmLoadBalancer) : Except RegionFault Daemon :=
  match d.regions g.config.serverName with
  | none => .error .noProcess
  | some r =>
    if r.stats = g.statsMem then do
      let lb ← (f r.lb).mapError .balancer
      return d.setRegion g.config.serverName ⟨lb, r.stats, i⟩
    else .error .outsideMapping

/-- A worker accepts a client; only a known algorithm looks at the statistics. -/
def acceptClient (d : Daemon) (i : ℕ) (connected : Option Fd) : Except RegionFault Daemon := do
  let g ← d.generation i
  if g.workers = 0 then .error .noProcess
  else if g.config.backendType = .static ∨ g.config.loadBalancer.algorithm = .unset then return d
  else d.useRegion i g fun lb => do
    let (_, lb) ← newBackendFd g.config.loadBalancer connected lb
    return lb

/-- A round of `master_loop`, behind the loop that forks the workers. -/
def masterRound (d : Daemon) (i : ℕ) (healthy : ℕ → Bool) : Except RegionFault Daemon := do
  let g ← d.generation i
  if g.unforked ≠ 0 ∨ g.master = false then .error .noProcess
  else if g.config.checkHealthTime = -1 ∨ g.config.loadBalancer.backends = [] then return d
  else d.useRegion i g (checkHealth g.config.loadBalancer healthy)

/-- A worker of a generation ends. -/
def exitWorker (d : Daemon) (i : ℕ) : Except RegionFault Daemon := do
  let g ← d.generation i
  if g.workers = 0 then .error .noProcess
  else return d.setGeneration i { g with workers := g.workers - 1 }

/-- The first process of a generation ends, and forks nothing more. -/
def exitMaster (d : Daemon) (i : ℕ) : Except RegionFault Daemon := do
  let g ← d.generation i
  return d.setGeneration i { g with unforked := 0, master := false }

end Daemon

/-- What can happen, in any order; a process is named by its generation. -/
inductive DaemonInput
  | start (config : ListenerConfig) (rawMem : ℕ)
  | fork (i : ℕ)
  | accept (i : ℕ) (connected : Option Fd)
  | masterRound (i : ℕ) (healthy : ℕ → Bool)
  | exitWorker (i : ℕ)
  | exitMaster (i : ℕ)

/-- One input of the daemon. -/
def daemonStep (d : Daemon) : DaemonInput → Except RegionFault Daemon
  | .start config rawMem => .ok (d.startListener config rawMem)
  | .fork i => d.forkWorker i
  | .accept i connected => d.acceptClient i connected
  | .masterRound i healthy => d.masterRound i healthy
  | .exitWorker i => d.exitWorker i
  | .exitMaster i => d.exitMaster i

/-- The generation whose process takes the step. -/
def DaemonInput.actor (d : Daemon) : DaemonInput → ℕ
  | .start _ _ => d.generations.length
  | .fork i | .accept i _ | .masterRound i _ | .exitWorker i | .exitMaster i => i

end PkuyoProxy.Model
