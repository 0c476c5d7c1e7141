import PkuyoProxy.Lib.FallibleRun
import PkuyoProxy.Model.Balancer

/-!
# Divisions and accesses of the balancer

`load_config` leaves `backend_count` at zero, `init_mmap` counts processes, and `check_health`
goes over the backends.  So a call of `get_next_backend` divides by zero when it is a round
robin, and a health check leaves the region when there are more backends than processes; no
other call goes wrong.
-/

set_option autoImplicit false

namespace PkuyoProxy.Analysis

open PkuyoProxy.Lib PkuyoProxy.Model

/-! ## What `load_config` leaves in a listener -/

/-- Loading a backend adds one and changes neither the count nor the algorithm. -/
theorem loadBackend_frame {item : Option Json} {lb lb' : LoadBalancerConfig}
    (h : loadBackend item lb = .ok lb') :
    lb'.backendCount = lb.backendCount ∧ lb'.algorithm = lb.algorithm ∧
      lb'.backends.length = lb.backends.length + 1 := by
  unfold loadBackend at h
  obtain ⟨host, -, h⟩ := bind_eq_ok_iff.mp h
  cases h
  simp

/-- Loading a list of backends adds as many as it has, and changes neither count nor algorithm. -/
theorem loadBackends_frame {item : Option Json} {l : List ℕ} {lb lb' : LoadBalancerConfig}
    (h : l.foldlM (fun lb _ => loadBackend item lb) lb = .ok lb') :
    lb'.backendCount = lb.backendCount ∧ lb'.algorithm = lb.algorithm ∧
      lb'.backends.length = lb.backends.length + l.length := by
  induction l generalizing lb with
  | nil =>
    cases h
    simp
  | cons j l ih =>
    rw [List.foldlM_cons] at h
    obtain ⟨lb₁, hfirst, hrest⟩ := bind_eq_ok_iff.mp h
    obtain ⟨hcount, halg, hlen⟩ := loadBackend_frame hfirst
    obtain ⟨hcount', halg', hlen'⟩ := ih hrest
    refine ⟨hcount'.trans hcount, halg'.trans halg, ?_⟩
    rw [hlen', hlen, List.length_cons]
    omega

/-- A required text that is read is the text of the value. -/
theorem requireString_eq_ok {json : Option Json} {s : Bytes} (h : requireString json = .ok s) :
    Json.stringValue json = some s := by
  unfold requireString at h
  cases hs : Json.stringValue json with
  | none => simp [hs] at h
  | some t => simpa [hs] using h

/-- What a listener with backends is loaded with. -/
structure LoadedFrom (uninit : LoadBalancingAlgorithm) (item : Option Json)
    (lc : ListenerConfig) : Prop where
  processCount : lc.processCount =
    toInt (Json.integerValue (Json.objectGet item (ascii "process_count")))
  backends : lc.loadBalancer.backends.length =
    Json.arraySize (Json.objectGet item (ascii "backends"))
  count : lc.loadBalancer.backendCount = 0
  algorithm : ∃ name, Json.stringValue (Json.objectGet item (ascii "load_balancing")) = some name ∧
    lc.loadBalancer.algorithm = algorithmNamed uninit name

/-- Loading the certificates changes neither the processes nor the balancer. -/
theorem loadSsl_frame {item : Option Json} {lc lc' : ListenerConfig}
    (h : loadSsl item lc = .ok lc') :
    lc'.processCount = lc.processCount ∧ lc'.loadBalancer = lc.loadBalancer := by
  unfold loadSsl at h
  split at h
  · obtain ⟨sslKeyFile, -, h⟩ := bind_eq_ok_iff.mp h
    obtain ⟨sslCertFile, -, h⟩ := bind_eq_ok_iff.mp h
    cases h
    exact ⟨rfl, rfl⟩
  · cases h
    exact ⟨rfl, rfl⟩

/-- A listener is loaded with the backends of its document, or keeps the balancer it began with. -/
theorem loadListener_cases {uninit : LoadBalancingAlgorithm} {item : Option Json} {i : ℕ}
    {lc : ListenerConfig} (h : loadListener uninit item i = .ok lc) :
    LoadedFrom uninit item lc ∨ lc.loadBalancer = { algorithm := uninit } := by
  obtain ⟨serverName, -, h⟩ := bind_eq_ok_iff.mp h
  obtain ⟨lc₁, hssl, h⟩ := bind_eq_ok_iff.mp h
  obtain ⟨hprocess, hlb₁⟩ := loadSsl_frame hssl
  unfold loadBackendType at h
  split at h
  · obtain ⟨lb, hlb, h⟩ := bind_eq_ok_iff.mp h
    cases h
    obtain ⟨name, hname, hlb⟩ := bind_eq_ok_iff.mp hlb
    obtain ⟨hcount, halg, hlen⟩ := loadBackends_frame hlb
    refine .inl ⟨hprocess, ?_, hcount, name, requireString_eq_ok hname, halg⟩
    simpa using hlen
  · obtain ⟨rootPath, -, h⟩ := bind_eq_ok_iff.mp h
    cases h
    exact .inr hlb₁

/-- A listener that is loaded with a backend has the values of its document. -/
theorem loadListener_spec {uninit : LoadBalancingAlgorithm} {item : Option Json} {i : ℕ}
    {lc : ListenerConfig} (h : loadListener uninit item i = .ok lc)
    (hbackends : lc.loadBalancer.backends ≠ []) : LoadedFrom uninit item lc := by
  rcases loadListener_cases h with hloaded | hkept
  · exact hloaded
  · exact absurd (congrArg LoadBalancerConfig.backends hkept) hbackends

/-- No document gives a listener a count of its backends, whether it has some or not. -/
theorem loadListener_count {uninit : LoadBalancingAlgorithm} {item : Option Json} {i : ℕ}
    {lc : ListenerConfig} (h : loadListener uninit item i = .ok lc) :
    lc.loadBalancer.backendCount = 0 := by
  rcases loadListener_cases h with hloaded | hkept
  · exact hloaded.count
  · exact congrArg LoadBalancerConfig.backendCount hkept

/-- The item a listener is loaded from. -/
def listenerItem (root : Option Json) (i : ℕ) : Option Json :=
  Json.arrayGet (Json.objectGet root (ascii "listen_ports")) i

/-- Every listener of a loaded configuration was loaded from its item of the document. -/
theorem loadConfig_spec {uninit : ℕ → LoadBalancingAlgorithm} {root : Option Json}
    {config : ProxyConfig} (h : loadConfig uninit root = .ok (some config)) {i : ℕ}
    {lc : ListenerConfig} (hlc : config.listeners[i]? = some lc) :
    loadListener (uninit i) (listenerItem root i) i = .ok lc := by
  unfold loadConfig at h
  split at h
  · cases h
  · obtain ⟨listeners, hlisteners, h⟩ := bind_eq_ok_iff.mp h
    cases h
    obtain ⟨j, hj, hload⟩ := mapM_eq_ok hlisteners hlc
    obtain rfl : i = j := by
      obtain ⟨hlt, hij⟩ := List.getElem?_eq_some_iff.mp hj
      simpa using hij
    exact hload

/-! ## Calls -/

/-- An element is read at an index exactly if it is there. -/
theorem elementAt_eq_ok_iff {α : Type} {xs : List α} {i : ℕ} {x : α} :
    elementAt xs i = .ok x ↔ xs[i]? = some x := by
  unfold elementAt
  cases xs[i]? <;> simp

/-- An index in the range can be read. -/
theorem exists_elementAt {α : Type} {xs : List α} {i : ℕ} (h : i < xs.length) :
    ∃ x, elementAt xs i = .ok x :=
  ⟨xs[i], by rw [elementAt_eq_ok_iff]; exact List.getElem?_eq_getElem h⟩

/-- Adding a weight changes no length. -/
theorem addWeight_length (lb : ShmLoadBalancer) (i : ℕ) (w : ℤ) :
    (lb.addWeight i w).stats.length = lb.stats.length := by
  simp [ShmLoadBalancer.addWeight]

/-- Without a count of backends, round robin fails. -/
theorem roundRobin_fails {config : LoadBalancerConfig} (h : config.backendCount = 0)
    (lb : ShmLoadBalancer) (r : Option BackServer × ShmLoadBalancer) :
    roundRobin config lb ≠ .ok r := by
  intro hok
  obtain ⟨b, -, hok⟩ := bind_eq_ok_iff.mp hok
  obtain ⟨s, -, hok⟩ := bind_eq_ok_iff.mp hok
  rw [if_pos h] at hok
  cases hok

/-- Without a count of backends, the other algorithms look at the first one only. -/
theorem getNextBackend_first {config : LoadBalancerConfig} (h : config.backendCount = 0)
    (halg : config.algorithm ≠ .roundRobin) (hbackends : config.backends ≠ [])
    {lb : ShmLoadBalancer} (hstats : 0 < lb.stats.length) :
    ∃ answer lb', getNextBackend config lb = .ok (answer, lb') ∧
      lb'.stats.length = lb.stats.length := by
  obtain ⟨b, hb⟩ := exists_elementAt (List.length_pos_iff.mpr hbackends)
  obtain ⟨s, hs⟩ := exists_elementAt hstats
  unfold getNextBackend
  cases hcase : config.algorithm with
  | roundRobin => exact absurd hcase halg
  | weightedRoundRobin =>
    have hlen := addWeight_length lb 0 b.weight
    obtain ⟨s', hs'⟩ := exists_elementAt (hstats.trans_eq hlen.symm)
    simp only [weightedRoundRobin, h, hb, hs, hs', bind, Except.bind, pure, Except.pure,
      Nat.zero_sub, List.range'_zero, List.foldlM_nil]
    split
    · exact ⟨_, _, rfl, by rw [addWeight_length, hlen]⟩
    · exact ⟨_, _, rfl, by rw [addWeight_length, hlen]⟩
  | leastConnections =>
    simp only [leastConnections, h, hb, hs, bind, Except.bind, pure, Except.pure, Nat.zero_sub,
      List.range'_zero, List.foldlM_nil]
    exact ⟨_, lb, rfl, rfl⟩
  | unset => exact ⟨none, lb, rfl, rfl⟩

/-- A health check needs one statistic for each backend. -/
theorem checkHealth_ok_iff (config : LoadBalancerConfig) (healthy : ℕ → Bool)
    (lb : ShmLoadBalancer) :
    ((∃ lb', checkHealth config healthy lb = .ok lb') ↔
      config.backends.length ≤ lb.stats.length) ∧
    ∀ lb', checkHealth config healthy lb = .ok lb' → lb'.stats.length = lb.stats.length := by
  have hrun := @runSteps_ok_iff _ _ _ (checkHealthAt healthy)
    (fun lb' => lb'.stats.length = lb.stats.length) (fun i => i < lb.stats.length) ?_ ?_ lb rfl
    (List.range config.backends.length)
  · refine ⟨hrun.1.trans ?_, hrun.2⟩
    constructor
    · intro h
      by_contra hlt
      exact absurd (h lb.stats.length (List.mem_range.mpr (by omega))) (lt_irrefl _)
    · intro h i hi
      exact (List.mem_range.mp hi).trans_le h
  · intro s i hs hi
    obtain ⟨x, hx⟩ := exists_elementAt (hi.trans_eq hs.symm)
    refine ⟨_, bind_eq_ok_iff.mpr ⟨x, hx, rfl⟩, ?_⟩
    simpa using hs
  · intro s i s' hs hi hok
    obtain ⟨x, hx, -⟩ := bind_eq_ok_iff.mp hok
    obtain ⟨hlt, -⟩ := List.getElem?_eq_some_iff.mp (elementAt_eq_ok_iff.mp hx)
    omega

/-! ## Runs -/

/-- What must hold of the item of a listener for a call to stay in bounds. -/
def InBounds (uninit : LoadBalancingAlgorithm) (item : Option Json) : BalancerCall → Prop
  | .getNextBackend =>
    ∀ name, Json.stringValue (Json.objectGet item (ascii "load_balancing")) = some name →
      algorithmNamed uninit name ≠ .roundRobin
  | .checkHealth _ =>
    (Json.arraySize (Json.objectGet item (ascii "backends")) : ℤ) ≤
      toInt (Json.integerValue (Json.objectGet item (ascii "process_count")))
  | .flags _ => True

/-- Choosing a backend is in bounds for every algorithm but round robin. -/
theorem LoadedFrom.inBounds_next {uninit : LoadBalancingAlgorithm} {item : Option Json}
    {lc : ListenerConfig} (h : LoadedFrom uninit item lc) :
    InBounds uninit item .getNextBackend ↔ lc.loadBalancer.algorithm ≠ .roundRobin := by
  obtain ⟨name, hname, halg⟩ := h.algorithm
  rw [halg]
  constructor
  · intro hbounds
    exact hbounds name hname
  · intro hne name' hname'
    obtain rfl : name = name' := Option.some.inj (hname.symm.trans hname')
    exact hne

/-- The health check is in bounds exactly if there are no more backends than processes. -/
theorem LoadedFrom.inBounds_check {uninit : LoadBalancingAlgorithm} {item : Option Json}
    {lc : ListenerConfig} (h : LoadedFrom uninit item lc) (hprocess : 1 ≤ lc.processCount)
    (healthy : ℕ → Bool) :
    InBounds uninit item (.checkHealth healthy) ↔
      lc.loadBalancer.backends.length ≤ lc.processCount.toNat := by
  rw [InBounds, ← h.processCount, ← h.backends]
  omega

/-- **A run of calls on a loaded listener divides by no zero and stays inside of its arrays if
and only if it has no call for a round robin, and no health check of more backends than there
are processes.** -/
theorem balancer_safe_iff {uninit : ℕ → LoadBalancingAlgorithm} {root : Option Json}
    {config : ProxyConfig} (hload : loadConfig uninit root = .ok (some config)) {i : ℕ}
    {lc : ListenerConfig} (hlc : config.listeners[i]? = some lc) (hprocess : 1 ≤ lc.processCount)
    (hbackends : lc.loadBalancer.backends ≠ []) (calls : List BalancerCall) :
    (∃ lb, runSteps (balancerStep lc.loadBalancer) (initMmap lc) calls = .ok lb) ↔
      ∀ call ∈ calls, InBounds (uninit i) (listenerItem root i) call := by
  have hloaded := loadListener_spec (loadConfig_spec hload hlc) hbackends
  have hpos : 0 < lc.processCount.toNat := by omega
  refine (@runSteps_ok_iff _ _ _ (balancerStep lc.loadBalancer)
    (fun lb => lb.stats.length = lc.processCount.toNat) _ ?_ ?_ (initMmap lc) ?_ calls).1
  · intro lb call hlb hbounds
    cases call with
    | getNextBackend =>
      obtain ⟨answer, lb', hget, hlen⟩ := getNextBackend_first hloaded.count
        (hloaded.inBounds_next.mp hbounds) hbackends (hpos.trans_eq hlb.symm)
      exact ⟨lb', by simp [balancerStep, hget, Except.map], hlen.trans hlb⟩
    | checkHealth healthy =>
      have hle := (hloaded.inBounds_check hprocess healthy).mp hbounds
      obtain ⟨hiff, hlen⟩ := checkHealth_ok_iff lc.loadBalancer healthy lb
      rw [← hlb] at hle
      obtain ⟨lb', hcheck⟩ := hiff.mpr hle
      exact ⟨lb', hcheck, (hlen lb' hcheck).trans hlb⟩
    | flags healthy => exact ⟨_, rfl, by simpa using hlb⟩
  · intro lb call lb' hlb hout hok
    cases call with
    | getNextBackend =>
      rw [hloaded.inBounds_next, not_not] at hout
      rw [balancerStep, getNextBackend, hout] at hok
      cases hcall : roundRobin lc.loadBalancer lb with
      | error e => simp [hcall, Except.map] at hok
      | ok r => exact roundRobin_fails hloaded.count lb r hcall
    | checkHealth healthy =>
      rw [hloaded.inBounds_check hprocess] at hout
      have hle := (checkHealth_ok_iff lc.loadBalancer healthy lb).1.mp ⟨lb', hok⟩
      omega
    | flags healthy => exact hout trivial
  · simp [initMmap]

/-! ## Examples -/

/-- A document with one listener of two backends. -/
def twoBackendsDocument (loadBalancing : Bytes) (processCount : ℤ) : Json :=
  let backend (port : ℤ) : Json :=
    .object [(ascii "host", .string (ascii "127.0.0.1")), (ascii "port", .integer port)]
  .object [(ascii "listen_ports", .array [.object
    [(ascii "port", .integer 8080),
      (ascii "server_name", .string (ascii "server1")),
      (ascii "process_count", .integer processCount),
      (ascii "load_balancing", .string loadBalancing),
      (ascii "backends", .array [backend 8000, backend 8001])]])]

/-- What the document is loaded as. -/
def twoBackendsConfig (algorithm : LoadBalancingAlgorithm) (processCount : ℤ) : ListenerConfig where
  port := 8080
  serverName := ascii "server1"
  processCount := processCount
  backendType := .loadBalancer
  loadBalancer :=
    { algorithm
      backends := [⟨⟨8000, ⟨127, 0, 0, 1⟩⟩, 0⟩, ⟨⟨8000, ⟨127, 0, 0, 1⟩⟩, 0⟩] }

/-- The document of two backends with least connections is loaded. -/
theorem loadConfig_leastConnections :
    loadConfig (fun _ => .unset) (some (twoBackendsDocument (ascii "least_connections") 4)) =
      .ok (some ⟨[twoBackendsConfig .leastConnections 4], 1⟩) := by decide +kernel

/-- The document of two backends with round robin is loaded. -/
theorem loadConfig_roundRobin :
    loadConfig (fun _ => .unset) (some (twoBackendsDocument (ascii "round_robin") 4)) =
      .ok (some ⟨[twoBackendsConfig .roundRobin 4], 1⟩) := by decide +kernel

/-- Two backends of least connections can be used and checked. -/
theorem balancer_safe_iff_leastConnections :
    ∃ lb, runSteps (balancerStep (twoBackendsConfig .leastConnections 4).loadBalancer)
      (initMmap (twoBackendsConfig .leastConnections 4))
      [.getNextBackend, .checkHealth fun _ => false, .getNextBackend] = .ok lb := by
  rw [balancer_safe_iff loadConfig_leastConnections (i := 0) rfl (by decide) (by decide)]
  intro call hcall
  simp only [List.mem_cons, List.not_mem_nil, or_false] at hcall
  rcases hcall with rfl | rfl | rfl
  · intro name hname
    cases hname
    decide
  · unfold InBounds
    decide +kernel
  · intro name hname
    cases hname
    decide

/-- The first call for a round robin of two backends divides by zero. -/
theorem not_balancer_safe :
    ¬ ∀ (uninit : ℕ → LoadBalancingAlgorithm) (root : Option Json) (config : ProxyConfig) (i : ℕ)
        (lc : ListenerConfig), loadConfig uninit root = .ok (some config) →
      config.listeners[i]? = some lc → 1 ≤ lc.processCount → lc.loadBalancer.backends ≠ [] →
      ∀ calls, ∃ lb, runSteps (balancerStep lc.loadBalancer) (initMmap lc) calls = .ok lb := by
  intro hall
  obtain ⟨lb, hrun⟩ := hall _ _ _ 0 _ loadConfig_roundRobin rfl (by decide) (by decide)
    [.getNextBackend]
  have hfault : runSteps (balancerStep (twoBackendsConfig .roundRobin 4).loadBalancer)
      (initMmap (twoBackendsConfig .roundRobin 4)) [.getNextBackend] = .error .divByZero := rfl
  rw [hfault] at hrun
  cases hrun

end PkuyoProxy.Analysis
