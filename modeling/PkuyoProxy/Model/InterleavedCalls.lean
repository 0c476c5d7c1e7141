import Mathlib.Logic.Function.Basic
import PkuyoProxy.Lib.FallibleRun
import PkuyoProxy.Model.Balancer

/-!
# Round robin between workers (worker.cpp:25-32)

A call of `get_next_backend` loads the shared `current_index` three times and stores it once,
and reads whether the backend is healthy; each of these is one atomic access.  Any number of
workers take their accesses in any order, and the master may change the health flags between
two of them.  Nobody reads the list of what the calls returned; it is there to speak of it.
-/

set_option autoImplicit false

namespace PkuyoProxy.Model

/-- What a call in progress has, behind its first load, its second, its third and its store. -/
inductive RoundRobinCall
  | config (index : ℕ)
  | backend (backend : BackServer)
  | advance (backend : BackServer) (index : ℕ)
  | stored (backend : BackServer)
  deriving DecidableEq, Repr

/-- The shared region, the calls the workers are in, and what was returned so far. -/
structure InterleavedCalls where
  lb : ShmLoadBalancer
  calls : ℕ → Option RoundRobinCall := fun _ => none
  returned : List (Option BackServer) := []

namespace InterleavedCalls

/-- The call of the worker is this one, or over. -/
def setCall (s : InterleavedCalls) (worker : ℕ) (call : Option RoundRobinCall) :
    InterleavedCalls :=
  { s with calls := Function.update s.calls worker call }

/-- A call of one worker does not change the region. -/
@[simp] theorem setCall_lb (s : InterleavedCalls) (worker : ℕ) (call : Option RoundRobinCall) :
    (s.setCall worker call).lb = s.lb := rfl

/-- A call of one worker does not change what was returned before. -/
@[simp] theorem setCall_returned (s : InterleavedCalls) (worker : ℕ)
    (call : Option RoundRobinCall) : (s.setCall worker call).returned = s.returned := rfl

/-- The call of a worker is the one that was set. -/
@[simp] theorem setCall_self (s : InterleavedCalls) (worker : ℕ) (call : Option RoundRobinCall) :
    (s.setCall worker call).calls worker = call := Function.update_self _ _ _

/-- The calls of the other workers stay. -/
theorem setCall_ne (s : InterleavedCalls) {worker worker' : ℕ} (h : worker' ≠ worker)
    (call : Option RoundRobinCall) :
    (s.setCall worker call).calls worker' = s.calls worker' := Function.update_of_ne h _ _

/-- The next access of a worker: `&config.backends[lb->current_index]`,
`&lb->stats[lb->current_index]`, `lb->current_index + 1`, the assignment, and
`backend.stat->is_healthy`. -/
def access (config : LoadBalancerConfig) (s : InterleavedCalls) (worker : ℕ) :
    Except BalancerFault InterleavedCalls := do
  match s.calls worker with
  | none =>
    let _ ← elementAt config.backends s.lb.currentIndex
    return s.setCall worker (some (.config s.lb.currentIndex))
  | some (.config i) =>
    let _ ← elementAt s.lb.stats s.lb.currentIndex
    return s.setCall worker (some (.backend ⟨i, s.lb.currentIndex⟩))
  | some (.backend b) => return s.setCall worker (some (.advance b s.lb.currentIndex))
  | some (.advance b i) =>
    if config.backendCount = 0 then .error .divByZero
    else
      let lb := { s.lb with currentIndex := (i + 1) % config.backendCount }
      return { s with lb }.setCall worker (some (.stored b))
  | some (.stored b) =>
    let stat ← elementAt s.lb.stats b.stat
    let answer := if stat.isHealthy then some b else none
    return { s with returned := s.returned ++ [answer] }.setCall worker none

end InterleavedCalls

/-- A worker makes its next access, or the master sets the flags. -/
inductive AccessInput
  | access (worker : ℕ)
  | flags (healthy : ℕ → Bool)

/-- One input of the region. -/
def accessStep (config : LoadBalancerConfig) (s : InterleavedCalls) :
    AccessInput → Except BalancerFault InterleavedCalls
  | .access worker => s.access config worker
  | .flags healthy => do
    let lb ← balancerStep config s.lb (.flags healthy)
    return { s with lb }

end PkuyoProxy.Model
