import PkuyoProxy.Model.BalancedWorker

/-!
# The loop of a master (master.cpp:47-69, init_listener.cpp:54-91)

`master_loop` tests `needExit`, sleeps, checks the backends one after the other and pauses.  The
handler of a signal runs between any two of these steps, and ends `sleep` and `pause`.  The workers
of the listener go on using the region that they share with the master, each on its own: between
two steps of the master they may have stored anything in it but the flags, which nobody else
writes.  A SIGTERM has the default action and is left out.  Nobody reads `rounds`; it is there to
speak of runs.
-/

set_option autoImplicit false

namespace PkuyoProxy.Model

/-- Where the master is: in front of `while (!needExit)`, in `sleep`, in front of the check of a
backend, in front of `pause`, or in it, or behind the loop. -/
inductive MasterPoint
  | test
  | asleep
  | checking (i : ℕ)
  | beforePause
  | paused
  | returned
  deriving DecidableEq, Repr

/-- `rounds` counts the calls of `check_health` that have returned. -/
structure MasterLoop where
  config : ListenerConfig
  lb : ShmLoadBalancer
  point : MasterPoint := .test
  needExit : Bool := false
  rounds : ℕ := 0

/-- The master is blocked, or has left the loop. -/
inductive MasterFault
  | noStep
  | balancer (e : BalancerFault)
  deriving DecidableEq, Repr

namespace MasterLoop

/-- init_listener.cpp:58-76 -/
def started (config : ListenerConfig) : MasterLoop where
  config := config
  lb := initMmap config

/-- master.cpp:59-60 -/
def test (s : MasterLoop) : MasterLoop :=
  { s with
    point := if s.needExit then .returned
      else if s.config.checkHealthTime = -1 then .beforePause else .asleep }

/-- master.cpp:49-55: the next round of the loop; `healthy` is what `is_server_healthy` reports. -/
def check (s : MasterLoop) (i : ℕ) (healthy : Bool) : Except BalancerFault MasterLoop :=
  if i < s.config.loadBalancer.backends.length then do
    let lb ← checkHealthAt (fun _ => healthy) s.lb i
    return { s with lb, point := .checking (i + 1) }
  else .ok { s with point := .beforePause, rounds := s.rounds + 1 }

/-- master.cpp:58-66 -/
def step (s : MasterLoop) (healthy : Bool) : Except MasterFault MasterLoop :=
  match s.point with
  | .test => .ok s.test
  | .asleep => .ok { s with point := .checking 0 }
  | .checking i => (s.check i healthy).mapError .balancer
  | .beforePause => .ok { s with point := .paused }
  | .paused | .returned => .error .noStep

/-- A handler returns; this ends `sleep` and `pause`. -/
def wake (s : MasterLoop) : MasterLoop :=
  { s with
    point := match s.point with
      | .asleep => .checking 0
      | .paused => .test
      | .test | .checking _ | .beforePause | .returned => s.point }

/-- init_listener.cpp:89-91 -/
def reloadSignalHandler (s : MasterLoop) : MasterLoop := wake { s with needExit := true }

/-- The workers have stored `written` in the region; no worker stores a flag. -/
def workersStore (s : MasterLoop) (written : ShmLoadBalancer) : MasterLoop :=
  { s with
    lb := { written with
      stats := s.lb.stats.mapIdx fun i stat =>
        { written.stats.getD i stat with isHealthy := stat.isHealthy } } }

end MasterLoop

/-- What can happen: the master takes its next step, the workers store in the region, or a SIGHUP
or a SIGCHLD is handled. -/
inductive MasterInput
  | step (healthy : Bool)
  | workers (written : ShmLoadBalancer)
  | hangUp
  | child
  deriving DecidableEq, Repr

/-- One input of the listener. -/
def masterStep (s : MasterLoop) : MasterInput → Except MasterFault MasterLoop
  | .step healthy => s.step healthy
  | .workers written => .ok (s.workersStore written)
  | .hangUp => .ok s.reloadSignalHandler
  | .child => .ok s.wake

end PkuyoProxy.Model
