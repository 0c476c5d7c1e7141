import PkuyoProxy.Analysis.ConnectionCounts
import PkuyoProxy.Analysis.LeastConnections
import PkuyoProxy.Lib.Turns

/-!
# Least connections takes turns

The counter of a backend is raised for every client that is sent to it, by any worker of the
listener, and never lowered.  So while the health checks find every backend alive, the workers of a
listener that are to choose the one with the fewest connections send their clients to those they
scan in turn, whatever connections were refused or have ended in between, as long as their calls
do not overlap (`leastConnections_takes_turns`).  A listener that `load_config` has read
scans its first backend alone, by any algorithm, so that all of its clients are sent there
(`loaded_first_only`).
-/

set_option autoImplicit false

namespace PkuyoProxy.Analysis

open PkuyoProxy.Lib PkuyoProxy.Model PkuyoProxy.Interface

variable {config : LoadBalancerConfig} {lb lb' : ShmLoadBalancer} {n k : ℕ}

/-! ## One choice -/

/-- The first `n` backends are healthy, and `k` clients were sent to them in turn. -/
structure Turning (config : LoadBalancerConfig) (n k : ℕ) (lb : ShmLoadBalancer) : Prop where
  scans : ScansFirst config lb n
  healthy : ∀ i < n, (stat lb i).isHealthy = true
  counts : ∀ i < n, (stat lb i).connections = turns n k i
  others : ∀ i, n ≤ i → (stat lb i).connections = 0

/-- The next backend is one of the first ones. -/
theorem Turning.next_lt (h : Turning config n k lb) : k % n < n := Nat.mod_lt _ h.scans.nonempty

/-- The scan ends with the backend whose turn it is. -/
theorem Turning.candidate (h : Turning config n k lb) :
    candidate lb (fun i => (stat lb i).connections) n = k % n := by
  have hnext := h.next_lt
  have hcandidate := candidate_lt lb (fun i => (stat lb i).connections) h.scans.nonempty
  have hleast := candidate_le_key (fun i => (stat lb i).connections) hnext
    (.inr (h.healthy _ hnext))
  apply Nat.le_antisymm
  · refine candidate_le_of_key_le _ hnext (h.healthy _ hnext) ?_
    rw [h.counts _ hnext, h.counts _ hcandidate]
    exact_mod_cast turns_next_le n k _
  · by_contra hlt
    have hmore := turns_next_lt (not_le.mp hlt)
    rw [h.counts _ hcandidate, h.counts _ hnext] at hleast
    have hless := Int.ofNat_le.mp hleast
    omega

/-- The least connections are those of the backend whose turn it is. -/
theorem Turning.getNextBackend (h : Turning config n k lb)
    (halg : config.algorithm = .leastConnections) :
    getNextBackend config lb = .ok (some ⟨k % n, k % n⟩, lb) := by
  rw [Model.getNextBackend, halg]
  refine (leastConnections_scan h.scans).trans ?_
  dsimp only
  rw [h.candidate, if_pos (h.healthy _ h.next_lt)]

/-- Changing a statistic is seen at its index only. -/
theorem stat_modify (lb : ShmLoadBalancer) (j : ℕ) (f : BackendStat → BackendStat) {i : ℕ}
    (hi : i < lb.stats.length) :
    stat { lb with stats := lb.stats.modify j f } i =
      if j = i then f (stat lb i) else stat lb i := by
  simp only [stat, List.getD_eq_getElem?_getD, List.getElem?_modify, List.getElem?_eq_getElem hi,
    Option.getD_some]
  split <;> rfl

/-- Changing one statistic leaves the other ones as they were. -/
theorem stat_modify_ne (lb : ShmLoadBalancer) {j i : ℕ} (f : BackendStat → BackendStat)
    (hij : j ≠ i) : stat { lb with stats := lb.stats.modify j f } i = stat lb i := by
  simp [stat, List.getD_eq_getElem?_getD, hij]

/-- Changing a statistic does not change what is scanned. -/
theorem ScansFirst.modify (h : ScansFirst config lb n) (j : ℕ) (f : BackendStat → BackendStat) :
    ScansFirst config { lb with stats := lb.stats.modify j f } n :=
  ⟨by simpa using h.stats, h.backends, h.count, h.nonempty⟩

/-- A change that counts nothing and keeps a healthy backend of the scan healthy. -/
theorem Turning.modify (h : Turning config n k lb) (j : ℕ) {f : BackendStat → BackendStat}
    (hcount : ∀ s, (f s).connections = s.connections)
    (hhealthy : j < n → ∀ s : BackendStat, s.isHealthy = true → (f s).isHealthy = true) :
    Turning config n k { lb with stats := lb.stats.modify j f } := by
  have hsame := sameCounts_modify lb j hcount
  refine ⟨h.scans.modify j f, fun i hi => ?_, fun i hi => ?_, fun i hi => ?_⟩
  · rw [stat_modify _ _ _ (hi.trans_le h.scans.stats)]
    split
    · rename_i hj
      exact hhealthy (hj ▸ hi) _ (h.healthy i hi)
    · exact h.healthy i hi
  · rw [hsame.connections, h.counts i hi]
  · rw [hsame.connections, h.others i hi]

/-- A client is counted, and the next one is sent to the next backend. -/
theorem Turning.addConnection (h : Turning config n k lb) (hk : k + 1 < 2 ^ 31) :
    Turning config n (k + 1) { lb with stats := lb.stats.modify (k % n) .addConnection } := by
  refine ⟨h.scans.modify _ _, fun i hi => ?_, fun i hi => ?_, fun i hi => ?_⟩
  · rw [stat_modify _ _ _ (hi.trans_le h.scans.stats)]
    split
    · exact h.healthy i hi
    · exact h.healthy i hi
  · rw [stat_modify _ _ _ (hi.trans_le h.scans.stats), turns_succ hi]
    have hcount := h.counts i hi
    have hle := @turns_le _ k i h.scans.nonempty
    by_cases hturn : k % n = i
    · have hint : IsInt ((turns n k i : ℤ) + 1) := by
        unfold IsInt
        omega
      rw [if_pos hturn, if_pos hturn.symm, BackendStat.addConnection, hcount,
        toInt_eq_self_iff.mpr hint]
      rfl
    · rw [if_neg hturn, if_neg (Ne.symm hturn), hcount]
      rfl
  · have hne : k % n ≠ i := (h.next_lt.trans_le hi).ne
    rw [stat_modify_ne lb _ hne, h.others i hi]

/-- **A new client is sent to the backend whose turn it is**, and counted, connected or not. -/
theorem Turning.newBackendFd (h : Turning config n k lb)
    (halg : config.algorithm = .leastConnections) (hk : k + 1 < 2 ^ 31) (connected : Option Fd) :
    ∃ lb', newBackendFd config connected lb = .ok (connected.map (·, ⟨k % n, k % n⟩), lb') ∧
      Turning config n (k + 1) lb' := by
  unfold Model.newBackendFd
  rw [h.getNextBackend halg]
  cases connected with
  | none =>
    have hfailed := h.modify (k % n) addFailed_connections fun _ _ hs => hs
    exact ⟨_, rfl, hfailed.addConnection hk⟩
  | some fd => exact ⟨_, rfl, h.addConnection hk⟩

/-- A health check that finds the backends alive changes no turn. -/
theorem Turning.checkHealth (h : Turning config n k lb) {healthy : ℕ → Bool}
    (hhealthy : ∀ i < n, healthy i = true)
    (hcheck : checkHealth config healthy lb = .ok lb') : Turning config n k lb' := by
  refine @runSteps_keeps _ _ _ (checkHealthAt healthy) (Turning config n k) _ ?_ _ _ h hcheck
  intro lb₁ i hi lb₂ hturning hround
  obtain ⟨-, -, hround⟩ := bind_eq_ok_iff.mp hround
  cases hround
  exact hturning.modify i (fun _ => rfl) fun hlt _ _ => hhealthy i hlt

/-! ## Runs of a listener -/

/-- The clients that were accepted, by this worker or another one of the listener. -/
def clientsAccepted (inputs : List BalancedInput) : ℕ :=
  inputs.countP fun
    | .accept (some _) | .neighbour _ => true
    | _ => false

/-- The health checks find the first `n` backends alive. -/
def FoundAlive (n : ℕ) : BalancedInput → Prop
  | .checkHealth healthy => ∀ i < n, healthy i = true
  | .accept _ | .neighbour _ | .disconnect _ => True

/-- The workers send their clients to the first `n` backends of this configuration, and have sent
`k`. -/
structure Dispatching (config : LoadBalancerConfig) (n k : ℕ) (s : BalancedWorker) : Prop where
  backendType : s.worker.backendType = .loadBalancer
  config_eq : s.config = config
  turning : Turning config n k s.lb

/-- Erasing a client does not change the type of the worker. -/
theorem eraseClient_backendType (w : Worker) (fd : Fd) :
    (w.eraseClient fd).backendType = w.backendType := by
  unfold Worker.eraseClient
  split <;> rfl

/-- A disconnect does not change the type of the worker. -/
theorem disconnect_backendType {w w' : Worker} {fd : Fd} (h : w.disconnect fd = .ok w') :
    w'.backendType = w.backendType := by
  unfold Worker.disconnect at h
  split at h
  · cases h
    exact eraseClient_backendType w fd
  · split at h
    · cases h
      rfl
    · split at h
      · cases h
      · cases h
        exact eraseClient_backendType _ _

variable {s s' : BalancedWorker}

/-- An accept sends its client to the backend whose turn it is. -/
theorem Dispatching.accept (h : Dispatching config n k s)
    (halg : config.algorithm = .leastConnections) (hk : k + 1 < 2 ^ 31) (d : Dial)
    (hstep : balancedStep s (.accept (some d)) = .ok s') :
    Dispatching config n (k + 1) s' := by
  obtain ⟨lb', hbackend, hturning⟩ := h.turning.newBackendFd halg hk d.connected
  simp only [balancedStep, BalancedWorker.acceptNewConn, h.backendType, h.config_eq, hbackend]
    at hstep
  cases hstep
  exact ⟨(eraseClient_backendType _ _).trans h.backendType, rfl, hturning⟩

/-- An accept of another worker sends its client to the backend whose turn it is. -/
theorem Dispatching.neighbour (h : Dispatching config n k s)
    (halg : config.algorithm = .leastConnections) (hk : k + 1 < 2 ^ 31) (connected : Option Fd)
    (hstep : balancedStep s (.neighbour connected) = .ok s') :
    Dispatching config n (k + 1) s' := by
  obtain ⟨lb', hbackend, hturning⟩ := h.turning.newBackendFd halg hk connected
  simp only [balancedStep, BalancedWorker.neighbourAccepts, h.backendType, h.config_eq, hbackend]
    at hstep
  cases hstep
  exact ⟨h.backendType, rfl, hturning⟩

/-- A disconnect changes no turn. -/
theorem Dispatching.disconnect (h : Dispatching config n k s) {fd : Fd}
    (hstep : balancedStep s (.disconnect fd) = .ok s') : Dispatching config n k s' := by
  obtain ⟨w, hw, hstep⟩ := bind_eq_ok_iff.mp hstep
  cases hstep
  have hdisconnect := mapError_eq_ok_iff.mp hw
  exact ⟨(disconnect_backendType hdisconnect).trans h.backendType, h.config_eq, h.turning⟩

/-- A health check that finds the backends alive changes no turn. -/
theorem Dispatching.checkHealth (h : Dispatching config n k s) {healthy : ℕ → Bool}
    (hhealthy : FoundAlive n (.checkHealth healthy))
    (hstep : balancedStep s (.checkHealth healthy) = .ok s') : Dispatching config n k s' := by
  obtain ⟨lb', hlb, hstep⟩ := bind_eq_ok_iff.mp hstep
  cases hstep
  have hcheck := mapError_eq_ok_iff.mp hlb
  rw [h.config_eq] at hcheck
  exact ⟨h.backendType, h.config_eq, h.turning.checkHealth hhealthy hcheck⟩

/-- A run has sent as many clients in turn as it accepted. -/
theorem Dispatching.run {inputs : List BalancedInput} (h : Dispatching config n 0 s)
    (halg : config.algorithm = .leastConnections) (halive : ∀ i ∈ inputs, FoundAlive n i)
    (hfew : clientsAccepted inputs < 2 ^ 31) (hrun : runSteps balancedStep s inputs = .ok s') :
    Dispatching config n (clientsAccepted inputs) s' := by
  induction inputs using List.reverseRecOn generalizing s' with
  | nil =>
    cases hrun
    exact h
  | append_singleton inputs input ih =>
    obtain ⟨s₁, hrun, hstep⟩ := runSteps_concat_eq_ok hrun
    have halive' (i : BalancedInput) (hi : i ∈ inputs) := halive i (List.mem_append_left _ hi)
    have hcount : clientsAccepted (inputs ++ [input]) =
        clientsAccepted inputs + clientsAccepted [input] := List.countP_append
    rw [hcount] at hfew ⊢
    have hdispatching := ih halive' (by omega) hrun
    cases input with
    | accept dial =>
      cases dial with
      | none =>
        cases hstep
        exact hdispatching
      | some d => exact hdispatching.accept halg hfew d hstep
    | neighbour connected => exact hdispatching.neighbour halg hfew connected hstep
    | disconnect fd => exact hdispatching.disconnect hstep
    | checkHealth healthy =>
      exact hdispatching.checkHealth (halive _ (by simp)) hstep

/-- A new region has the default statistics. -/
theorem stat_initMmap (config : ListenerConfig) (i : ℕ) : stat (initMmap config) i = {} := by
  simp only [stat, initMmap, List.getD_eq_getElem?_getD, List.getElem?_replicate]
  split <;> rfl

/-- In a new region no client has been sent. -/
theorem turning_initMmap {config : ListenerConfig}
    (hscans : ScansFirst config.loadBalancer (initMmap config) n) :
    Turning config.loadBalancer n 0 (initMmap config) := by
  refine ⟨hscans, fun i _ => by rw [stat_initMmap], fun i _ => ?_,
    fun i _ => by rw [stat_initMmap]⟩
  rw [stat_initMmap, turns_zero]
  rfl

/-- `k` clients were sent to the first `n` backends in turn and none to the others, and the next
one goes to the backend whose turn it is. -/
structure TakesTurns (n k : ℕ) (s : BalancedWorker) : Prop where
  counts : ∀ i < n, (stat s.lb i).connections = turns n k i
  others : ∀ i, n ≤ i → (stat s.lb i).connections = 0
  next : ∀ connected, ∃ lb', newBackendFd s.config connected s.lb =
    .ok (connected.map (·, ⟨k % n, k % n⟩), lb')

/-- **Least connections takes turns**: while the health checks find the backends alive that are
scanned, the workers of a listener, whose calls do not overlap, send the clients they accept to
them one after the other. -/
theorem leastConnections_takes_turns (listenFd : Fd) (config : ListenerConfig)
    (htype : config.backendType = .loadBalancer)
    (halg : config.loadBalancer.algorithm = .leastConnections) (n : ℕ)
    (hscans : ScansFirst config.loadBalancer (initMmap config) n) (inputs : List BalancedInput)
    (halive : ∀ i ∈ inputs, FoundAlive n i) (hfew : clientsAccepted inputs + 1 < 2 ^ 31)
    (s : BalancedWorker) (hrun : runSteps balancedStep (.started listenFd config) inputs = .ok s) :
    TakesTurns n (clientsAccepted inputs) s := by
  have hstarted : Dispatching config.loadBalancer n 0 (.started listenFd config) :=
    ⟨htype, rfl, turning_initMmap hscans⟩
  have h := hstarted.run halg halive (by omega) hrun
  refine ⟨h.turning.counts, h.turning.others, fun connected => ?_⟩
  obtain ⟨lb', hbackend, -⟩ := h.turning.newBackendFd halg hfew connected
  exact ⟨lb', h.config_eq ▸ hbackend⟩

/-- Two backends that are both scanned. -/
def scannedBackends : ListenerConfig :=
  { twoBackendsConfig .leastConnections 2 with loadBalancer := twoBackends .leastConnections }

/-- A client that leaves, one of another worker, and one whose backend refuses the connection. -/
def refusedSession : List BalancedInput :=
  [firstDial, .disconnect 5, .neighbour (some 6), .accept (some ⟨5, 0, none⟩),
    .checkHealth fun _ => true]

/-- The health checks of this session find the backends alive. -/
theorem alive_refusedSession : ∀ i ∈ refusedSession, FoundAlive n i := by
  intro i hi
  simp only [refusedSession, firstDial, List.mem_cons, List.not_mem_nil, or_false] at hi
  rcases hi with rfl | rfl | rfl | rfl | rfl
  · trivial
  · trivial
  · trivial
  · trivial
  · exact fun _ _ => rfl

/-- The fourth client is sent to the second backend. -/
theorem leastConnections_takes_turns_refused :
    ∃ s, runSteps balancedStep (.started 3 scannedBackends) refusedSession = .ok s ∧
      TakesTurns 2 3 s :=
  ⟨_, rfl, leastConnections_takes_turns 3 scannedBackends rfl rfl 2
    ⟨le_rfl, le_rfl, rfl, by decide⟩ refusedSession alive_refusedSession (by decide) _ rfl⟩

/-! ## Listeners that were loaded -/

/-- Without a count of backends only the first one is returned. -/
theorem getNextBackend_zero (hcount : config.backendCount = 0) {b : BackServer}
    (h : getNextBackend config lb = .ok (some b, lb')) : b = ⟨0, 0⟩ := by
  unfold Model.getNextBackend at h
  split at h
  · exact absurd h (roundRobin_fails hcount lb _)
  · obtain ⟨b₀, -, h⟩ := bind_eq_ok_iff.mp h
    obtain ⟨s₀, -, h⟩ := bind_eq_ok_iff.mp h
    obtain ⟨⟨best, lb₁⟩, hloop, h⟩ := bind_eq_ok_iff.mp h
    rw [hcount] at hloop
    cases hloop
    obtain ⟨c, -, h⟩ := bind_eq_ok_iff.mp h
    obtain ⟨t, -, h⟩ := bind_eq_ok_iff.mp h
    dsimp only at h
    split at h
    · cases h
      rfl
    · cases h
  · obtain ⟨b₀, -, h⟩ := bind_eq_ok_iff.mp h
    obtain ⟨s₀, -, h⟩ := bind_eq_ok_iff.mp h
    obtain ⟨best, hloop, h⟩ := bind_eq_ok_iff.mp h
    rw [hcount] at hloop
    cases hloop
    obtain ⟨t, -, h⟩ := bind_eq_ok_iff.mp h
    split at h
    · cases h
      rfl
    · cases h
  · cases h

/-- No client was sent to another backend than the first. -/
structure FirstOnly (s : BalancedWorker) : Prop where
  count : s.config.backendCount = 0
  targets : ∀ a b, s.target a = some b → b = ⟨0, 0⟩
  counters : ∀ i, 0 < i → (stat s.lb i).connections = 0

/-- A client without a backend, or with the first one, keeps all clients at the first backend. -/
theorem FirstOnly.enter (h : FirstOnly s) (d : Dial) {backend : Option (Fd × BackServer)}
    (hbackend : ∀ x, backend = some x → x.2 = ⟨0, 0⟩) : FirstOnly (s.enter d backend) := by
  refine ⟨h.count, fun a b htarget => ?_, h.counters⟩
  have htarget : Function.update s.target d.addr (backend.map Prod.snd) a = some b := htarget
  by_cases ha : a = d.addr
  · rw [ha, Function.update_self] at htarget
    obtain ⟨x, hx, rfl⟩ := Option.map_eq_some_iff.mp htarget
    exact hbackend x hx
  · rw [Function.update_of_ne ha] at htarget
    exact h.targets a b htarget

/-- A choice counts nothing for another backend than the first. -/
theorem FirstOnly.newBackendFd (h : FirstOnly s) {connected : Option Fd}
    {backend : Option (Fd × BackServer)}
    (hbackend : newBackendFd s.config connected s.lb = .ok (backend, lb')) :
    FirstOnly { s with lb := lb' } ∧ ∀ x, backend = some x → x.2 = ⟨0, 0⟩ := by
  rcases newBackendFd_cases hbackend with
    ⟨lb₁, -, rfl, hsame⟩ | ⟨b, lb₁, hchoice, rfl, -, -, hcounts⟩
  · refine ⟨⟨h.count, h.targets, fun i hi => ?_⟩, by simp⟩
    exact (hsame.connections i).trans (h.counters i hi)
  · obtain rfl := getNextBackend_zero h.count hchoice
    refine ⟨⟨h.count, h.targets, fun i hi => ?_⟩, fun x hx => ?_⟩
    · refine (hcounts i).trans ?_
      rw [if_neg (Nat.ne_of_lt hi)]
      exact h.counters i hi
    · obtain ⟨fd, -, rfl⟩ := Option.map_eq_some_iff.mp hx
      rfl

/-- An accept of a loaded listener connects its client to the first backend or to none. -/
theorem FirstOnly.accept (h : FirstOnly s) (d : Dial)
    (hstep : balancedStep s (.accept (some d)) = .ok s') : FirstOnly s' := by
  have hstep : s.acceptNewConn (some d) = .ok s' := mapError_eq_ok_iff.mp hstep
  unfold BalancedWorker.acceptNewConn at hstep
  dsimp only at hstep
  split at hstep
  · cases hstep
    exact h.enter d (by simp)
  · obtain ⟨⟨backend, lb'⟩, hbackend, hstep⟩ := bind_eq_ok_iff.mp hstep
    cases hstep
    obtain ⟨hfirst, hzero⟩ := h.newBackendFd hbackend
    exact hfirst.enter d hzero

/-- Every step keeps all clients at the first backend. -/
theorem firstOnly_step {input : BalancedInput} (h : FirstOnly s)
    (hstep : balancedStep s input = .ok s') : FirstOnly s' := by
  cases input with
  | accept dial =>
    cases dial with
    | none =>
      cases hstep
      exact h
    | some d => exact h.accept d hstep
  | neighbour connected =>
    rcases neighbourAccepts_cases (mapError_eq_ok_iff.mp hstep) with
      ⟨-, rfl⟩ | ⟨-, backend, lb', hbackend, rfl⟩
    · exact h
    · exact (h.newBackendFd hbackend).1
  | disconnect fd =>
    obtain ⟨w, -, hstep⟩ := bind_eq_ok_iff.mp hstep
    cases hstep
    exact ⟨h.count, h.targets, h.counters⟩
  | checkHealth healthy =>
    obtain ⟨lb', hlb, hstep⟩ := bind_eq_ok_iff.mp hstep
    cases hstep
    have hsame := checkHealth_sameCounts (mapError_eq_ok_iff.mp hlb)
    refine ⟨h.count, h.targets, fun i hi => ?_⟩
    rw [hsame.connections]
    exact h.counters i hi

/-- **A loaded listener uses its first backend only**: in every state of a run of a worker, whatever
the algorithm is and however many backends were loaded, no pair is connected to another one, and no
client was counted for one. -/
theorem loaded_first_only {uninit : ℕ → LoadBalancingAlgorithm} {root : Option Json}
    {config : ProxyConfig} (hload : loadConfig uninit root = .ok (some config)) {i : ℕ}
    {lc : ListenerConfig} (hlc : config.listeners[i]? = some lc) (listenFd : Fd)
    (inputs : List BalancedInput) :
    EveryReached balancedStep FirstOnly (.started listenFd lc) inputs := by
  have hcount := loadListener_count (loadConfig_spec hload hlc)
  have hstarted : FirstOnly (.started listenFd lc) := by
    refine ⟨hcount, by rintro a i ⟨⟩, fun i _ => ?_⟩
    show (stat (initMmap lc) i).connections = 0
    rw [stat_initMmap]
  have hlegal : EveryStep balancedStep (fun _ _ => True) (.started listenFd lc) inputs :=
    everyStep_of_mem fun _ _ _ => trivial
  exact everyReached_inv (fun _ _ _ h _ hstep => firstOnly_step h hstep) hstarted hlegal

/-- Two clients of a listener with two backends are sent to the first. -/
theorem loaded_first_only_two :
    EveryReached balancedStep FirstOnly (.started 3 (twoBackendsConfig .leastConnections 4))
      [firstDial, .accept (some ⟨7, 1, some 8⟩)] :=
  loaded_first_only loadConfig_leastConnections (i := 0) rfl 3 _

end PkuyoProxy.Analysis
