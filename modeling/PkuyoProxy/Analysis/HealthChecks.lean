import PkuyoProxy.Analysis.BackendChoice
import PkuyoProxy.Analysis.BalancerSafety
import PkuyoProxy.Model.MasterLoop

/-!
# When a master checks its backends

`check_health_time` is not a period: behind a check the master pauses, and only a signal makes it
check again (`rounds_le_signals`).  Until one comes a backend that was found failed gets no client
from a call that runs on its own (`unhealthy_until_signal`), and behind one every flag is found anew
(`signal_renews_flags`).  A SIGHUP itself ends the loop only if it comes in `pause`, or in front of
the test of the flag that it sets (`hangUp_returns_iff`).
-/

set_option autoImplicit false

namespace PkuyoProxy.Analysis

open PkuyoProxy.Lib PkuyoProxy.Model

variable {config : LoadBalancerConfig} {lb lb' : ShmLoadBalancer} {answer : Option BackServer}

/-! ## What the workers leave of the flags -/

/-- Which of the backends were found alive. -/
def flags (lb : ShmLoadBalancer) : List Bool := lb.stats.map BackendStat.isHealthy

/-- Changing a statistic but for its flag keeps the flags. -/
theorem flags_modify (lb : ShmLoadBalancer) (k : ℕ) {f : BackendStat → BackendStat}
    (hf : ∀ s, (f s).isHealthy = s.isHealthy) :
    flags { lb with stats := lb.stats.modify k f } = flags lb := by
  refine List.ext_getElem? fun i => ?_
  simp only [flags, List.getElem?_map, List.getElem?_modify]
  cases lb.stats[i]? with
  | none => rfl
  | some s =>
    by_cases hk : k = i
    · simp [hk, hf]
    · simp [hk]

/-- Adding a weight keeps the flags. -/
theorem flags_addWeight (lb : ShmLoadBalancer) (k : ℕ) (w : ℤ) :
    flags (lb.addWeight k w) = flags lb := flags_modify lb k fun _ => rfl

/-- A flag is that of the statistic at its index. -/
theorem flags_elementAt {i : ℕ} {s : BackendStat} (h : elementAt lb.stats i = .ok s) :
    (flags lb)[i]? = some s.isHealthy := by
  rw [flags, List.getElem?_map, elementAt_eq_ok_iff.mp h]
  rfl

/-- The flags are as they were, and a backend is chosen only if it was found alive. -/
structure ChoosesAlive (lb : ShmLoadBalancer) (answer : Option BackServer) (lb' : ShmLoadBalancer) :
    Prop where
  flags : flags lb' = flags lb
  alive : ∀ b, answer = some b → (Analysis.flags lb)[b.stat]? = some true

/-- Round robin keeps the flags, and chooses a backend only if it was found alive. -/
theorem roundRobin_alive (h : roundRobin config lb = .ok (answer, lb')) :
    ChoosesAlive lb answer lb' := by
  obtain ⟨b, -, h⟩ := bind_eq_ok_iff.mp h
  obtain ⟨s, hs, h⟩ := bind_eq_ok_iff.mp h
  split at h
  · cases h
  · cases h
    refine ⟨rfl, fun b hb => ?_⟩
    split at hb
    · rename_i hhealthy
      cases hb
      exact (flags_elementAt hs).trans (congrArg some hhealthy)
    · cases hb

/-- A round of the weighted loop keeps the flags. -/
theorem weightedRound_flags {acc acc' : BackServer × ShmLoadBalancer} {i : ℕ}
    (h : weightedRound config acc i = .ok acc') : flags acc'.2 = flags acc.2 := by
  obtain ⟨s, -, h⟩ := bind_eq_ok_iff.mp h
  split at h
  · cases h
    rfl
  · obtain ⟨b, -, h⟩ := bind_eq_ok_iff.mp h
    obtain ⟨s', -, h⟩ := bind_eq_ok_iff.mp h
    obtain ⟨t, -, h⟩ := bind_eq_ok_iff.mp h
    cases h
    exact flags_addWeight _ _ _

/-- Weighted round robin keeps the flags, and chooses a backend only if it was found alive. -/
theorem weightedRoundRobin_alive (h : weightedRoundRobin config lb = .ok (answer, lb')) :
    ChoosesAlive lb answer lb' := by
  obtain ⟨b, -, h⟩ := bind_eq_ok_iff.mp h
  obtain ⟨s, -, h⟩ := bind_eq_ok_iff.mp h
  obtain ⟨⟨best, lb₁⟩, hloop, h⟩ := bind_eq_ok_iff.mp h
  obtain ⟨c, -, h⟩ := bind_eq_ok_iff.mp h
  obtain ⟨t, ht, h⟩ := bind_eq_ok_iff.mp h
  have hflags : flags lb₁ = flags lb := by
    refine @runSteps_keeps _ _ _ (weightedRound config) (fun acc => flags acc.2 = flags lb) _ ?_
      _ _ (flags_addWeight lb 0 b.weight) hloop
    exact fun acc i _ acc' hacc hround => (weightedRound_flags hround).trans hacc
  split at h
  · rename_i hhealthy
    cases h
    refine ⟨(flags_addWeight lb₁ _ _).trans hflags, ?_⟩
    rintro _ ⟨⟩
    rw [← hflags]
    exact (flags_elementAt ht).trans (congrArg some hhealthy)
  · cases h
    exact ⟨(flags_addWeight lb₁ _ _).trans hflags, by simp⟩

/-- Least connections keeps the flags, and chooses a backend only if it was found alive. -/
theorem leastConnections_alive (h : leastConnections config lb = .ok (answer, lb')) :
    ChoosesAlive lb answer lb' := by
  obtain ⟨b, -, h⟩ := bind_eq_ok_iff.mp h
  obtain ⟨s, -, h⟩ := bind_eq_ok_iff.mp h
  obtain ⟨best, -, h⟩ := bind_eq_ok_iff.mp h
  obtain ⟨t, ht, h⟩ := bind_eq_ok_iff.mp h
  cases h
  refine ⟨rfl, fun b' hb' => ?_⟩
  split at hb'
  · rename_i hhealthy
    cases hb'
    exact (flags_elementAt ht).trans (congrArg some hhealthy)
  · cases hb'

/-- Every algorithm keeps the flags, and chooses a backend only if it was found alive. -/
theorem getNextBackend_alive (h : getNextBackend config lb = .ok (answer, lb')) :
    ChoosesAlive lb answer lb' := by
  unfold getNextBackend at h
  split at h
  · exact roundRobin_alive h
  · exact weightedRoundRobin_alive h
  · exact leastConnections_alive h
  · cases h
    exact ⟨rfl, by simp⟩

/-- A new client keeps the flags, and is given a backend only if it was found alive. -/
theorem newBackendFd_alive {connected : Option Fd} {backend : Option (Fd × BackServer)}
    (h : newBackendFd config connected lb = .ok (backend, lb')) :
    ChoosesAlive lb (backend.map Prod.snd) lb' := by
  obtain ⟨⟨answer, lb₁⟩, hchoice, h⟩ := bind_eq_ok_iff.mp h
  have halive := getNextBackend_alive hchoice
  cases answer with
  | none =>
    cases h
    exact halive
  | some b =>
    have hcounted (lb : ShmLoadBalancer) :
        flags { lb with stats := lb.stats.modify b.stat .addConnection } = flags lb :=
      flags_modify lb b.stat fun _ => rfl
    cases connected with
    | none =>
      cases h
      have hfailed := flags_modify lb₁ b.stat (f := BackendStat.addFailed) fun _ => rfl
      exact ⟨(hcounted _).trans (hfailed.trans halive.flags), by simp⟩
    | some fd =>
      cases h
      refine ⟨(hcounted lb₁).trans halive.flags, ?_⟩
      rintro _ ⟨⟩
      exact halive.alive b rfl

variable {s s' : MasterLoop} {healthy : ℕ → Bool}

/-- Whatever the workers store, the flags are as they were. -/
theorem flags_workersStore (s : MasterLoop) (written : ShmLoadBalancer) :
    flags (s.workersStore written).lb = flags s.lb := by
  refine List.ext_getElem? fun i => ?_
  simp only [flags, MasterLoop.workersStore, List.getElem?_map, List.getElem?_mapIdx]
  cases s.lb.stats[i]? <;> rfl

/-- A region with the same flags is one that the workers can leave. -/
theorem workersStore_of_flags (h : flags lb = flags s.lb) : s.workersStore lb = { s with lb } := by
  have hget (i : ℕ) : (lb.stats[i]?).map BackendStat.isHealthy =
      (s.lb.stats[i]?).map BackendStat.isHealthy := by
    simpa only [flags, List.getElem?_map] using congrArg (fun xs => xs[i]?) h
  have hstats : (s.workersStore lb).lb.stats = lb.stats := by
    refine List.ext_getElem? fun i => ?_
    simp only [MasterLoop.workersStore, List.getElem?_mapIdx, List.getD_eq_getElem?_getD]
    cases hold : s.lb.stats[i]? with
    | none =>
      have hnone := hget i
      rw [hold, Option.map_none, Option.map_eq_none_iff] at hnone
      rw [hnone, Option.map_none]
    | some old =>
      obtain ⟨new, hnew, hflag⟩ := Option.map_eq_some_iff.mp ((hget i).trans (by rw [hold]; rfl))
      rw [hnew, Option.map_some, Option.getD_some, ← hflag]
  show { s with lb := { lb with stats := (s.workersStore lb).lb.stats } } = _
  rw [hstats]

/-- A worker that accepts a client is one of the workers that store in the region. -/
theorem newBackendFd_workers {connected : Option Fd} {backend : Option (Fd × BackServer)}
    (h : newBackendFd config connected s.lb = .ok (backend, lb)) :
    masterStep s (.workers lb) = .ok { s with lb } :=
  congrArg Except.ok (workersStore_of_flags (newBackendFd_alive h).flags)

/-- The address that is dialled and the statistic that is raised are those of one backend. -/
theorem newBackendFd_paired {connected : Option Fd} {fd : Fd} {b : BackServer}
    (h : newBackendFd config connected lb = .ok (some (fd, b), lb')) : b.config = b.stat := by
  obtain ⟨⟨answer, lb₁⟩, hchoice, h⟩ := bind_eq_ok_iff.mp h
  cases answer with
  | none => cases h
  | some c =>
    cases connected with
    | none => cases h
    | some fd' =>
      cases h
      exact getNextBackend_paired hchoice

/-! ## One step -/


/-- The number of backends the master checks. -/
def backendsOf (s : MasterLoop) : ℕ := s.config.loadBalancer.backends.length

/-- A handler of the master runs. -/
def IsSignal : MasterInput → Bool
  | .hangUp | .child => true
  | .step _ | .workers _ => false

/-- The master takes a step of its own. -/
def IsStep : MasterInput → Bool
  | .step _ => true
  | .workers _ | .hangUp | .child => false

/-- What a step of the listener does. -/
inductive MasterMove (s : MasterLoop) : MasterInput → MasterLoop → Prop
  | test (alive : Bool) (h : s.point = .test) : MasterMove s (.step alive) s.test
  | slept (alive : Bool) (h : s.point = .asleep) :
      MasterMove s (.step alive) { s with point := .checking 0 }
  | checked (alive : Bool) (i : ℕ) (lb : ShmLoadBalancer) (h : s.point = .checking i)
      (hi : i < backendsOf s) (hcheck : checkHealthAt (fun _ => alive) s.lb i = .ok lb) :
      MasterMove s (.step alive) { s with lb, point := .checking (i + 1) }
  | complete (alive : Bool) (i : ℕ) (h : s.point = .checking i) (hi : ¬ i < backendsOf s) :
      MasterMove s (.step alive) { s with point := .beforePause, rounds := s.rounds + 1 }
  | pause (alive : Bool) (h : s.point = .beforePause) :
      MasterMove s (.step alive) { s with point := .paused }
  | workers (written lb : ShmLoadBalancer) (hflags : flags lb = flags s.lb) :
      MasterMove s (.workers written) { s with lb }
  | hangUp : MasterMove s .hangUp s.reloadSignalHandler
  | child : MasterMove s .child s.wake

/-- A check of the master is one of the moves. -/
theorem check_move {alive : Bool} {i : ℕ} (hpoint : s.point = .checking i)
    (h : s.check i alive = .ok s') : MasterMove s (.step alive) s' := by
  unfold MasterLoop.check at h
  split at h
  · rename_i hi
    obtain ⟨lb, hlb, h⟩ := bind_eq_ok_iff.mp h
    cases h
    exact .checked alive i lb hpoint hi hlb
  · rename_i hi
    cases h
    exact .complete alive i hpoint hi

/-- Every step of the listener is one of the moves. -/
theorem masterStep_move {input : MasterInput} (h : masterStep s input = .ok s') :
    MasterMove s input s' := by
  cases input with
  | step alive =>
    simp only [masterStep, MasterLoop.step] at h
    split at h
    · rename_i hpoint
      cases h
      exact .test alive hpoint
    · rename_i hpoint
      cases h
      exact .slept alive hpoint
    · rename_i i hpoint
      exact check_move hpoint (mapError_eq_ok_iff.mp h)
    · rename_i hpoint
      cases h
      exact .pause alive hpoint
    · cases h
    · cases h
  | workers written =>
    cases h
    exact .workers written _ (flags_workersStore s written)
  | hangUp =>
    cases h
    exact .hangUp
  | child =>
    cases h
    exact .child

/-- A property of the states that a run of quiet steps goes through. -/
theorem masterRun_keeps {P : MasterLoop → Prop} {rest : List MasterInput}
    (hsilent : ∀ input ∈ rest, IsSignal input = false)
    (hkeep : ∀ s s' input, P s → IsSignal input = false → MasterMove s input s' → P s') (hs : P s) :
    EveryReached masterStep P s rest :=
  everyReached_inv (fun s input s' h hquiet hstep => hkeep s s' input h hquiet
    (masterStep_move hstep)) hs (everyStep_of_mem fun input hinput _ => hsilent input hinput)

/-! ## One check for each signal -/

/-- How often `check_health` can still return before the next signal. -/
def due : MasterPoint → ℕ
  | .test | .asleep | .checking _ => 1
  | .beforePause | .paused | .returned => 0

/-- From the test of the flag at most one check is due. -/
theorem due_test : due s.test.point ≤ 1 := by
  cases s.test.point <;> simp [due]

/-- A signal makes at most one more check due. -/
theorem due_wake : due s.wake.point ≤ due s.point + 1 := by
  unfold MasterLoop.wake
  cases s.point <;> simp [due]

/-- A step makes no more checks than were due and signals came. -/
theorem masterMove_rounds {input : MasterInput} (h : MasterMove s input s') :
    s'.rounds + due s'.point ≤ s.rounds + due s.point + [input].countP IsSignal := by
  cases h with
  | test alive hpoint =>
    rw [hpoint]
    exact Nat.add_le_add_left due_test s.rounds
  | slept alive hpoint | checked alive i lb hpoint hi hcheck | complete alive i hpoint hi
  | pause alive hpoint =>
    rw [hpoint]
    simp [due, IsSignal]
  | workers written lb hflags => simp [IsSignal]
  | hangUp | child => exact Nat.add_le_add_left due_wake s.rounds

/-- **The backends are checked at most once for each signal**, and once more, whatever
`check_health_time` is and however the workers go on. -/
theorem rounds_le_signals {inputs : List MasterInput} (hstart : s.point = .test)
    (hrun : runSteps masterStep s inputs = .ok s') :
    s'.rounds ≤ s.rounds + inputs.countP IsSignal + 1 := by
  suffices h : ∀ (inputs : List MasterInput) (s : MasterLoop),
      runSteps masterStep s inputs = .ok s' →
        s'.rounds + due s'.point ≤ s.rounds + due s.point + inputs.countP IsSignal by
    have hend := h inputs s hrun
    rw [hstart, show due .test = 1 from rfl] at hend
    omega
  intro inputs
  induction inputs with
  | nil =>
    rintro s ⟨⟩
    simp
  | cons input inputs ih =>
    intro s hrun
    obtain ⟨s₁, hfirst, hrest⟩ := bind_eq_ok_iff.mp hrun
    have hone := masterMove_rounds (masterStep_move hfirst)
    have hmore := ih s₁ hrest
    rw [List.countP_cons]
    simp only [List.countP_singleton] at hone
    omega

/-- Two backends, that are to be checked every ten seconds. -/
def checkedListener : ListenerConfig :=
  { twoBackendsConfig .leastConnections 2 with checkHealthTime := 10 }

/-- The first check finds the second backend failed, and then a worker ends. -/
def twoChecks : List MasterInput :=
  [.step true, .step true, .step true, .step false, .step true, .step true, .child, .step true]

/-- The second check is due, and not begun. -/
theorem rounds_le_signals_twice :
    ∃ s, runSteps masterStep (.started checkedListener) twoChecks = .ok s ∧
      s.rounds ≤ 0 + twoChecks.countP IsSignal + 1 := by
  obtain ⟨s, hrun⟩ : ∃ s, runSteps masterStep (.started checkedListener) twoChecks = .ok s :=
    ⟨_, rfl⟩
  exact ⟨s, hrun, rounds_le_signals rfl hrun⟩

/-! ## Until the next signal -/

/-- The master is behind its check of the backends. -/
def Waits : MasterPoint → Prop
  | .beforePause | .paused | .returned => True
  | .test | .asleep | .checking _ => False

/-- The flags are these, and a call that no other worker's interrupts gives a new client no backend
that they call failed: neither its address nor its statistic. -/
structure ServesOnly (alive : List Bool) (s : MasterLoop) : Prop where
  flags : flags s.lb = alive
  chosen : ∀ connected fd b lb, newBackendFd s.config.loadBalancer connected s.lb =
    .ok (some (fd, b), lb) → b.config = b.stat ∧ alive[b.config]? = some true

/-- A listener serves by its own flags. -/
theorem servesOnly_flags (s : MasterLoop) : ServesOnly (flags s.lb) s := by
  refine ⟨rfl, fun _ fd b _ hnew => ?_⟩
  have hpaired := newBackendFd_paired hnew
  exact ⟨hpaired, hpaired ▸ (newBackendFd_alive hnew).alive b rfl⟩

/-- A master that is behind its check stays there without a signal, and the flags stay. -/
theorem masterMove_waits {input : MasterInput} (hwaits : Waits s.point)
    (hquiet : IsSignal input = false) (h : MasterMove s input s') :
    Waits s'.point ∧ flags s'.lb = flags s.lb := by
  cases h with
  | test alive hpoint | slept alive hpoint | checked alive i lb hpoint hi hcheck
  | complete alive i hpoint hi =>
    rw [hpoint] at hwaits
    exact hwaits.elim
  | pause alive hpoint => exact ⟨trivial, rfl⟩
  | workers written lb hflags => exact ⟨hwaits, hflags⟩
  | hangUp | child => cases hquiet

/-- **A backend that was found failed gets no client before the next signal**, by whatever
algorithm and whatever the workers store, from a call that no other one interrupts. -/
theorem unhealthy_until_signal {rest : List MasterInput} (hwaits : Waits s.point)
    (hsilent : ∀ input ∈ rest, IsSignal input = false) :
    EveryReached masterStep (ServesOnly (flags s.lb)) s rest := by
  have hreached : EveryReached masterStep
      (fun s' => Waits s'.point ∧ flags s'.lb = flags s.lb) s rest := by
    refine masterRun_keeps hsilent ?_ ⟨hwaits, rfl⟩
    rintro s₁ s₂ input ⟨hwaits₁, hflags₁⟩ hquiet hmove
    obtain ⟨hwaits₂, hflags₂⟩ := masterMove_waits hwaits₁ hquiet hmove
    exact ⟨hwaits₂, hflags₂.trans hflags₁⟩
  intro pre hpre s' hrun
  rw [← (hreached pre hpre s' hrun).2]
  exact servesOnly_flags s'

/-- A listener whose second backend was found failed, and whose master is in `pause`. -/
def secondFailed : MasterLoop :=
  { MasterLoop.started checkedListener with
    lb := { stats := [{ connections := 1 }, { isHealthy := false }] }
    point := .paused }

/-- A worker counts a client, and another one stores its index. -/
theorem unhealthy_until_signal_two :
    EveryReached masterStep (ServesOnly [true, false]) secondFailed
      [.workers { stats := [{ connections := 2 }, {}] },
        .workers { currentIndex := 1, stats := [{ connections := 2 }, {}] }] :=
  unhealthy_until_signal trivial (by decide)

/-! ## The exit of the master -/

/-- The master has tested the flag, and does not test it again before the next signal. -/
def PastTest : MasterPoint → Prop
  | .checking _ | .beforePause | .paused => True
  | .test | .asleep | .returned => False

/-- A master that has tested the flag stays so without a signal. -/
theorem masterMove_pastTest {input : MasterInput} (hpast : PastTest s.point)
    (hquiet : IsSignal input = false) (h : MasterMove s input s') : PastTest s'.point := by
  cases h with
  | test alive hpoint | slept alive hpoint =>
    rw [hpoint] at hpast
    exact hpast.elim
  | checked alive i lb hpoint hi hcheck | complete alive i hpoint hi | pause alive hpoint => trivial
  | workers written lb hflags => exact hpast
  | hangUp | child => cases hquiet

/-- The master leaves the loop without another signal. -/
def Returns (s : MasterLoop) : Prop :=
  ∃ rest s', (∀ input ∈ rest, IsSignal input = false) ∧
    runSteps masterStep s rest = .ok s' ∧ s'.point = .returned

/-- **A SIGHUP makes the master return** exactly if it comes in `pause` or in front of the test of
the flag.  One that comes in `sleep` or during the checks waits for another signal. -/
theorem hangUp_returns_iff (hlive : s.point ≠ .returned) :
    Returns s.reloadSignalHandler ↔ s.point = .test ∨ s.point = .paused := by
  constructor
  · rintro ⟨rest, s', hsilent, hrun, hreturned⟩
    by_contra hnot
    have hpast : PastTest s.reloadSignalHandler.point := by
      unfold MasterLoop.reloadSignalHandler MasterLoop.wake
      cases hpoint : s.point with
      | test => exact absurd (.inl hpoint) hnot
      | paused => exact absurd (.inr hpoint) hnot
      | returned => exact absurd hpoint hlive
      | asleep | checking i | beforePause => trivial
    have hend : PastTest s'.point := masterRun_keeps (P := fun s => PastTest s.point) hsilent
      (fun _ _ _ => masterMove_pastTest) hpast rest List.prefix_rfl s' hrun
    rw [hreturned] at hend
    exact hend
  · intro hpoint
    have htest : s.reloadSignalHandler.point = .test := by
      unfold MasterLoop.reloadSignalHandler MasterLoop.wake
      rcases hpoint with hpoint | hpoint <;> simp [hpoint]
    have hstep : masterStep s.reloadSignalHandler (.step true) =
        .ok s.reloadSignalHandler.test := by
      simp only [masterStep, MasterLoop.step, htest]
    refine ⟨[.step true], _, by simp [IsSignal], runSteps_cons hstep [], ?_⟩
    rfl

/-- The equivalence for a SIGHUP in `sleep`. -/
theorem hangUp_returns_iff_asleep :
    Returns { secondFailed with point := .asleep }.reloadSignalHandler ↔
      MasterPoint.asleep = .test ∨ MasterPoint.asleep = .paused :=
  hangUp_returns_iff (s := { secondFailed with point := .asleep }) (by decide)

/-! ## Behind a signal -/

/-- The backends are found as `healthy` says. -/
def Answers (healthy : ℕ → Bool) (s : MasterLoop) : MasterInput → Prop
  | .step alive => ∀ i, s.point = .checking i → alive = healthy i
  | .workers _ | .hangUp | .child => True

/-- How many of `n` backends were checked since the flag was tested. -/
def checkedAt (n : ℕ) : MasterPoint → ℕ
  | .checking i => i
  | .beforePause | .paused => n
  | .test | .asleep | .returned => 0

/-- The steps of a master of `n` backends that are left in front of the end of `pause`. -/
def stepsLeft (n : ℕ) : MasterPoint → ℕ
  | .test => n + 4
  | .asleep => n + 3
  | .checking i => n - i + 2
  | .beforePause => 1
  | .paused | .returned => 0

/-- The master is on its way from a signal to `pause`. -/
structure Renewing (healthy : ℕ → Bool) (config : ListenerConfig) (s : MasterLoop) : Prop where
  config_eq : s.config = config
  stays : s.needExit = false
  live : s.point ≠ .returned
  found : ∀ i < checkedAt (backendsOf s) s.point, (flags s.lb)[i]? = some (healthy i)

/-- Checking a backend sets its flag and no other one. -/
theorem checkHealthAt_flags {alive : Bool} {i : ℕ}
    (h : checkHealthAt (fun _ => alive) lb i = .ok lb') (j : ℕ) :
    (flags lb')[j]? = if i = j then some alive else (flags lb)[j]? := by
  obtain ⟨x, hx, h⟩ := bind_eq_ok_iff.mp h
  cases h
  have hget := elementAt_eq_ok_iff.mp hx
  simp only [flags, List.getElem?_map, List.getElem?_modify]
  by_cases hij : i = j
  · subst hij
    simp [hget]
  · simp [hij]

/-- A step without a signal keeps the master on its way, and one of its own brings it one further.
-/
theorem masterMove_renewing {listener : ListenerConfig} {input : MasterInput}
    (h : Renewing healthy listener s) (htime : listener.checkHealthTime ≠ -1)
    (hquiet : IsSignal input = false) (hanswers : Answers healthy s input)
    (hmove : MasterMove s input s') :
    Renewing healthy listener s' ∧
      stepsLeft (backendsOf s) s.point =
        stepsLeft (backendsOf s') s'.point + [input].countP IsStep := by
  obtain ⟨hconfig, hstays, hlive, hfound⟩ := h
  subst hconfig
  cases hmove with
  | test alive hpoint =>
    have htest : s.test = { s with point := .asleep } := by
      simp [MasterLoop.test, hstays, htime]
    rw [htest, hpoint]
    exact ⟨⟨rfl, hstays, by simp, by simp [checkedAt]⟩, rfl⟩
  | slept alive hpoint =>
    rw [hpoint]
    exact ⟨⟨rfl, hstays, by simp, by simp [checkedAt]⟩, rfl⟩
  | checked alive i lb hpoint hi hcheck =>
    rw [hpoint] at hfound ⊢
    refine ⟨⟨rfl, hstays, by simp, fun j hj => ?_⟩, ?_⟩
    · simp only [checkedAt] at hj
      rw [checkHealthAt_flags hcheck]
      split
      · rename_i hij
        rw [← hij, hanswers i hpoint]
      · exact hfound j (by simp only [checkedAt]; omega)
    · simp only [stepsLeft, List.countP_singleton, IsStep, if_true]
      have hn : backendsOf { s with lb, point := .checking (i + 1) } = backendsOf s := rfl
      omega
  | complete alive i hpoint hi =>
    rw [hpoint] at hfound ⊢
    refine ⟨⟨rfl, hstays, by simp, fun j hj => hfound j ?_⟩, ?_⟩
    · have hj : j < backendsOf s := hj
      simp only [checkedAt]
      omega
    · simp only [stepsLeft, List.countP_singleton, IsStep, if_true]
      omega
  | pause alive hpoint =>
    rw [hpoint] at hfound ⊢
    exact ⟨⟨rfl, hstays, by simp, hfound⟩, rfl⟩
  | workers written lb hflags =>
    exact ⟨⟨rfl, hstays, hlive, fun j hj => by rw [hflags]; exact hfound j hj⟩, rfl⟩
  | hangUp | child => cases hquiet

/-- A run without a signal brings the master as many steps further as it takes of its own. -/
theorem renewing_run {listener : ListenerConfig} {rest : List MasterInput}
    (htime : listener.checkHealthTime ≠ -1) (hsilent : ∀ input ∈ rest, IsSignal input = false)
    (h : Renewing healthy listener s) (hanswers : EveryStep masterStep (Answers healthy) s rest)
    (hrun : runSteps masterStep s rest = .ok s') :
    Renewing healthy listener s' ∧
      stepsLeft (backendsOf s) s.point =
        stepsLeft (backendsOf s') s'.point + rest.countP IsStep := by
  induction rest generalizing s with
  | nil =>
    cases hrun
    exact ⟨h, rfl⟩
  | cons input rest ih =>
    obtain ⟨s₁, hfirst, hrest⟩ := bind_eq_ok_iff.mp hrun
    obtain ⟨hanswer, hanswers⟩ := everyStep_cons.mp hanswers
    obtain ⟨hquiet, hsilent⟩ := List.forall_mem_cons.mp hsilent
    obtain ⟨h₁, hleft₁⟩ := masterMove_renewing h htime hquiet hanswer (masterStep_move hfirst)
    obtain ⟨h', hleft⟩ := ih hsilent h₁ (hanswers s₁ hfirst) hrest
    refine ⟨h', ?_⟩
    rw [List.countP_cons]
    simp only [List.countP_singleton] at hleft₁
    omega

/-- No step is left exactly if the master is in `pause`. -/
theorem stepsLeft_eq_zero_iff {n : ℕ} {point : MasterPoint} (hlive : point ≠ .returned) :
    stepsLeft n point = 0 ↔ point = .paused := by
  cases point with
  | returned => exact absurd rfl hlive
  | test | asleep | checking i | beforePause | paused => simp [stepsLeft]

/-- **A signal has the flags found anew**: when it ends `pause`, no reload was asked for, the time
between two checks is not -1 and no other signal comes, the master is in `pause` again as soon as
it has taken four steps more than there are backends, and every flag then says what was found of
its backend, whatever the workers stored in between. -/
theorem signal_renews_flags {rest : List MasterInput} (hpaused : s.point = .paused)
    (hstays : s.needExit = false) (htime : s.config.checkHealthTime ≠ -1)
    (hsilent : ∀ input ∈ rest, IsSignal input = false)
    (hanswers : EveryStep masterStep (Answers healthy) s.wake rest)
    (hrun : runSteps masterStep s.wake rest = .ok s') :
    (s'.point = .paused ↔ rest.countP IsStep = backendsOf s + 4) ∧
      (s'.point = .paused → ∀ i < backendsOf s, (flags s'.lb)[i]? = some (healthy i)) := by
  have htest : s.wake.point = .test := by simp [MasterLoop.wake, hpaused]
  have hstart : Renewing healthy s.config s.wake :=
    ⟨rfl, hstays, by simp [htest], by simp [checkedAt, htest]⟩
  obtain ⟨⟨hconfig, -, hlive, hfound⟩, hleft⟩ := renewing_run htime hsilent hstart hanswers hrun
  have hn : backendsOf s' = backendsOf s := by rw [backendsOf, hconfig, backendsOf]
  rw [htest, hn] at hleft
  refine ⟨?_, fun hpoint i hi => hfound i ?_⟩
  · rw [← stepsLeft_eq_zero_iff (n := backendsOf s) hlive]
    have hfour : stepsLeft (backendsOf s.wake) .test = backendsOf s + 4 := rfl
    omega
  · rw [hpoint, hn]
    exact hi

/-- A client is counted while the backends are checked again, and found alive. -/
def checkAgain : List MasterInput :=
  [.step true, .step true, .step true, .workers { stats := [{ connections := 2 }, {}] },
    .step true, .step true, .step true]

/-- The backend that was found failed is checked again, and found alive. -/
theorem signal_renews_flags_again :
    ∃ s', runSteps masterStep secondFailed.wake checkAgain = .ok s' ∧
      (s'.point = .paused ↔ checkAgain.countP IsStep = backendsOf secondFailed + 4) ∧
      (s'.point = .paused → ∀ i < backendsOf secondFailed, (flags s'.lb)[i]? = some true) := by
  have hanswers : EveryStep masterStep (Answers fun _ => true) secondFailed.wake checkAgain := by
    apply everyStep_of_mem
    simp [checkAgain, Answers]
  obtain ⟨s', hrun⟩ : ∃ s', runSteps masterStep secondFailed.wake checkAgain = .ok s' := ⟨_, rfl⟩
  exact ⟨s', hrun, signal_renews_flags rfl rfl (by decide) (by decide) hanswers hrun⟩

/-- The checks of a master on its own do what `checkHealth` does in one step. -/
theorem checks_eq_checkHealth (hpoint : s.point = .checking 0) (healthy : ℕ → Bool) :
    runSteps masterStep s ((List.range (backendsOf s)).map fun i => .step (healthy i)) =
      ((checkHealth s.config.loadBalancer healthy s.lb).mapError MasterFault.balancer).map
        fun lb => { s with lb, point := .checking (backendsOf s) } := by
  suffices h : ∀ n ≤ backendsOf s,
      runSteps masterStep s ((List.range n).map fun i => .step (healthy i)) =
        (((List.range n).foldlM (checkHealthAt healthy) s.lb).mapError MasterFault.balancer).map
          fun lb => { s with lb, point := .checking n } from h _ le_rfl
  intro n hn
  induction n with
  | zero =>
    simp only [List.range_zero, List.map_nil, List.foldlM_nil]
    rw [← hpoint]
    rfl
  | succ n ih =>
    have hchecks := ih (by omega)
    rw [List.range_succ, List.map_append, List.foldlM_append, runSteps, List.foldlM_append]
    rw [runSteps] at hchecks
    rw [hchecks]
    cases (List.range n).foldlM (checkHealthAt healthy) s.lb with
    | error e => rfl
    | ok lb =>
      have hlt : n < s.config.loadBalancer.backends.length := hn
      cases helement : elementAt lb.stats n with
      | error e =>
        simp [masterStep, MasterLoop.step, MasterLoop.check, checkHealthAt, hlt, helement, bind,
          Except.bind, Except.map, Except.mapError]
      | ok x =>
        simp [masterStep, MasterLoop.step, MasterLoop.check, checkHealthAt, hlt, helement, bind,
          Except.bind, Except.map, Except.mapError, pure, Except.pure]

end PkuyoProxy.Analysis
