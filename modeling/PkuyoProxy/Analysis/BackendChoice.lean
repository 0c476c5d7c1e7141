import PkuyoProxy.Lib.FallibleRun
import PkuyoProxy.Lib.ScanMin
import PkuyoProxy.Model.Balancer

/-!
# Which backend `get_next_backend` returns

Each algorithm settles on one candidate and returns it if it is healthy: round robin on the
current one, the other two on the result of a scan that begins with the first backend,
whether that one is healthy or not.
-/

set_option autoImplicit false

namespace PkuyoProxy.Analysis

open PkuyoProxy.Lib PkuyoProxy.Model

/-! ## Access -/

/-- The statistic of backend `i`. -/
def stat (lb : ShmLoadBalancer) (i : ℕ) : BackendStat := lb.stats.getD i {}

/-- The weight of backend `i`. -/
def weight (config : LoadBalancerConfig) (i : ℕ) : ℤ :=
  ((config.backends[i]?).map BackendServerConfig.weight).getD 0

/-- The configuration and the shared region agree on the number of backends, and there is
one. -/
structure WellSized (config : LoadBalancerConfig) (lb : ShmLoadBalancer) : Prop where
  stats : lb.stats.length = config.backends.length
  count : config.backendCount = config.backends.length
  nonempty : 0 < config.backends.length

variable {config : LoadBalancerConfig} {lb : ShmLoadBalancer}

/-- An index in the range of the statistics is read as the statistic there. -/
theorem elementAt_stats {i : ℕ} (h : i < lb.stats.length) :
    elementAt lb.stats i = .ok (stat lb i) := by
  simp [elementAt, stat, h]

/-- An index in the range of the backends is read as a backend of the weight there. -/
theorem exists_elementAt_backends {i : ℕ} (h : i < config.backends.length) :
    ∃ b, elementAt config.backends i = .ok b ∧ b.weight = weight config i :=
  ⟨config.backends[i], by simp [elementAt, h], by simp [weight, h]⟩

/-! ## Round robin -/

/-- A round robin call answers with the backend at the index if it is healthy, and moves the index
on. -/
theorem roundRobin_eq (hcount : config.backendCount = config.backends.length)
    (hindex : lb.currentIndex < config.backends.length)
    (hstats : config.backends.length ≤ lb.stats.length) :
    roundRobin config lb =
      .ok (if (stat lb lb.currentIndex).isHealthy then some ⟨lb.currentIndex, lb.currentIndex⟩
          else none,
        { lb with currentIndex := (lb.currentIndex + 1) % config.backends.length }) := by
  obtain ⟨b, hb, -⟩ := exists_elementAt_backends hindex
  have hs := elementAt_stats (hindex.trans_le hstats)
  have hpos : config.backendCount ≠ 0 := by omega
  rw [roundRobin, hb, hs, ← hcount]
  exact if_neg hpos

/-! ## Scans -/

/-- The candidate of a scan over `n` backends: the first one, or a healthy one with a smaller
key. -/
def candidate (lb : ShmLoadBalancer) (key : ℕ → ℤ) (n : ℕ) : ℕ :=
  scanMin (fun i => (stat lb i).isHealthy) key 0 (List.range' 1 (n - 1))

/-- The candidate is one of those that were scanned. -/
theorem candidate_lt (lb : ShmLoadBalancer) (key : ℕ → ℤ) {n : ℕ} (hn : 0 < n) :
    candidate lb key n < n := by
  rcases scanMin_mem (fun i => (stat lb i).isHealthy) key 0 (List.range' 1 (n - 1)) with h | ⟨h, -⟩
  · exact h.trans_lt hn
  · have := List.mem_range'_1.mp h
    unfold candidate
    omega

/-- Only the first backend can be an unhealthy candidate. -/
theorem candidate_healthy (lb : ShmLoadBalancer) (key : ℕ → ℤ) (n : ℕ) :
    candidate lb key n = 0 ∨ (stat lb (candidate lb key n)).isHealthy = true := by
  have h := scanMin_mem (fun i => (stat lb i).isHealthy) key 0 (List.range' 1 (n - 1))
  exact h.imp_right And.right

/-- No healthy backend has a smaller key than the candidate, nor has the first. -/
theorem candidate_le_key {lb : ShmLoadBalancer} (key : ℕ → ℤ) {n i : ℕ} (hi : i < n)
    (h : i = 0 ∨ (stat lb i).isHealthy = true) : key (candidate lb key n) ≤ key i := by
  by_cases hzero : i = 0
  · rw [hzero]
    exact scanMin_le_start _ key 0 _
  · apply scanMin_le _ key 0 _ (h.resolve_left hzero)
    rw [List.mem_range'_1]
    omega

/-- One more backend replaces the candidate if it is healthy and its key is smaller. -/
theorem candidate_succ (lb : ShmLoadBalancer) (key : ℕ → ℤ) (k : ℕ) :
    candidate lb key (k + 2) =
      if (stat lb (k + 1)).isHealthy ∧ key (k + 1) < key (candidate lb key (k + 1)) then k + 1
      else candidate lb key (k + 1) := by
  have hrange : List.range' 1 (k + 2 - 1) = List.range' 1 (k + 1 - 1) ++ [k + 1] := by
    rw [Nat.add_sub_cancel, show k + 2 - 1 = k + 1 by omega, List.range'_1_concat, Nat.add_comm 1]
  rw [candidate, hrange, scanMin_concat]
  rfl

/-- The candidate is healthy if the first backend is, or a healthy one has a smaller key. -/
theorem candidate_healthy_iff (lb : ShmLoadBalancer) (key : ℕ → ℤ) (n : ℕ) :
    (stat lb (candidate lb key n)).isHealthy = true ↔
      (stat lb 0).isHealthy = true ∨
        ∃ i, 0 < i ∧ i < n ∧ (stat lb i).isHealthy = true ∧ key i < key 0 := by
  have h := scanMin_eligible_iff (fun i => (stat lb i).isHealthy) key 0 (List.range' 1 (n - 1))
  rw [candidate, h]
  simp only [List.mem_range'_1]
  constructor
  · rintro (h | ⟨i, hi, helig, hlt⟩)
    · exact .inl h
    · exact .inr ⟨i, by omega, by omega, helig, hlt⟩
  · rintro (h | ⟨i, hpos, hi, helig, hlt⟩)
    · exact .inl h
    · exact .inr ⟨i, by omega, helig, hlt⟩

/-! ## Least connections -/

/-- The scans go over the first `n` backends, all of which there are. -/
structure ScansFirst (config : LoadBalancerConfig) (lb : ShmLoadBalancer) (n : ℕ) : Prop where
  stats : n ≤ lb.stats.length
  backends : n ≤ config.backends.length
  count : config.backendCount - 1 = n - 1
  nonempty : 0 < n

/-- A region that is well sized is scanned as far as the configuration says. -/
theorem WellSized.scansFirst (h : WellSized config lb) :
    ScansFirst config lb config.backends.length :=
  ⟨h.stats.ge, le_rfl, by rw [h.count], h.nonempty⟩

variable {n : ℕ}

/-- One round keeps the better of the candidate and the backend it looks at. -/
theorem leastRound_eq (h : ScansFirst config lb n) {best i : ℕ} (hbest : best < n) (hi : i < n) :
    leastRound config lb ⟨best, best⟩ i =
      let next := if (stat lb i).isHealthy ∧ (stat lb i).connections < (stat lb best).connections
        then i else best
      .ok ⟨next, next⟩ := by
  obtain ⟨b, hb, -⟩ := exists_elementAt_backends (hi.trans_le h.backends)
  have hstat := elementAt_stats (hi.trans_le h.stats)
  have hstate := elementAt_stats (hbest.trans_le h.stats)
  simp only [leastRound, hstat, hstate, hb, bind, Except.bind, pure, Except.pure]
  by_cases hhealthy : (stat lb i).isHealthy = true
  · by_cases hlt : (stat lb i).connections < (stat lb best).connections <;>
      simp [hhealthy, hlt]
  · simp [hhealthy]

/-- The rounds find the candidate of the backends they look at. -/
theorem leastLoop_eq (h : ScansFirst config lb n) {k : ℕ} (hk : k < n) :
    (List.range' 1 k).foldlM (leastRound config lb) ⟨0, 0⟩ =
      let best := candidate lb (fun i => (stat lb i).connections) (k + 1)
      .ok ⟨best, best⟩ := by
  let best (k : ℕ) : ℕ := candidate lb (fun i => (stat lb i).connections) (k + 1)
  apply runSteps_range' (fun k => (⟨best k, best k⟩ : BackServer)) 1 k
  intro j hj
  have hbest : best j < j + 1 := candidate_lt lb _ (by omega)
  rw [leastRound_eq h (by omega) (by omega), Nat.add_comm 1]
  simp only [best, candidate_succ]

/-- A call of least connections answers with the candidate of the backends it scans. -/
theorem leastConnections_scan (h : ScansFirst config lb n) :
    leastConnections config lb =
      let best := candidate lb (fun i => (stat lb i).connections) n
      .ok (if (stat lb best).isHealthy then some ⟨best, best⟩ else none, lb) := by
  have hpos := h.nonempty
  have hstats := h.stats
  obtain ⟨b, hb, -⟩ := exists_elementAt_backends (hpos.trans_le h.backends)
  have hloop := leastLoop_eq h (show n - 1 < n by omega)
  have hbest := candidate_lt lb (fun i => (stat lb i).connections) hpos
  rw [show n - 1 + 1 = n by omega] at hloop
  simp only [leastConnections, hb, elementAt_stats (hpos.trans_le hstats), h.count, hloop,
    elementAt_stats (hbest.trans_le hstats), bind, Except.bind, pure, Except.pure]

/-- A call of least connections on a region that is well sized scans all backends. -/
theorem leastConnections_eq (h : WellSized config lb) :
    leastConnections config lb =
      let best := candidate lb (fun i => (stat lb i).connections) config.backends.length
      .ok (if (stat lb best).isHealthy then some ⟨best, best⟩ else none, lb) :=
  leastConnections_scan h.scansFirst

/-! ## Weighted round robin -/

/-- The current weight of backend `i` after it was given its weight. -/
def creditedWeight (config : LoadBalancerConfig) (lb : ShmLoadBalancer) (i : ℕ) : ℤ :=
  toInt ((stat lb i).currentWeight + weight config i)

/-- The region after the first `m` backends were given their weights: an unhealthy backend is
passed over, unless it is the first. -/
def credit (config : LoadBalancerConfig) (lb : ShmLoadBalancer) (m : ℕ) : ShmLoadBalancer :=
  { lb with
    stats := lb.stats.mapIdx fun i s =>
      if i < m ∧ (i = 0 ∨ s.isHealthy) then s.addWeight (weight config i) else s }

/-- Crediting raises the weights of the first backend and of the healthy ones among those it has
passed. -/
theorem stat_credit {m i : ℕ} (hi : i < lb.stats.length) :
    stat (credit config lb m) i =
      if i < m ∧ (i = 0 ∨ (stat lb i).isHealthy) then (stat lb i).addWeight (weight config i)
      else stat lb i := by
  simp [stat, credit, hi]

/-- Crediting changes no length. -/
theorem credit_length (m : ℕ) : (credit config lb m).stats.length = lb.stats.length := by
  simp [credit]

/-- The statistics after one more backend was given its weight or passed over. -/
theorem credit_succ_stats (m : ℕ) :
    (credit config lb (m + 1)).stats =
      if m = 0 ∨ (stat lb m).isHealthy = true then
        (credit config lb m).stats.modify m (·.addWeight (weight config m))
      else (credit config lb m).stats := by
  apply List.ext_getElem?
  intro i
  cases hs : lb.stats[i]? with
  | none => split <;> simp [credit, List.getElem?_modify, hs]
  | some s =>
    by_cases him : m = i
    · subst him
      have hstat : stat lb m = s := by simp [stat, hs]
      rw [hstat]
      by_cases h : m = 0 ∨ s.isHealthy = true <;> simp [credit, hs, h]
    · have hget (k : ℕ) : (credit config lb k).stats[i]? =
          some (if i < k ∧ (i = 0 ∨ s.isHealthy = true) then s.addWeight (weight config i)
            else s) := by
        simp [credit, hs]
      have hlt : (i < m + 1) = (i < m) := propext (by omega)
      have hsame : (credit config lb (m + 1)).stats[i]? = (credit config lb m).stats[i]? := by
        rw [hget, hget]
        simp only [hlt]
      rw [hsame]
      split
      · rw [List.getElem?_modify_ne _ _ him]
      · rfl

/-- The credit of one more backend is its own weight added to what was credited. -/
theorem credit_addWeight {m : ℕ} (h : m = 0 ∨ (stat lb m).isHealthy = true) :
    (credit config lb m).addWeight m (weight config m) = credit config lb (m + 1) := by
  have hstats := @credit_succ_stats config lb m
  rw [if_pos h] at hstats
  exact congrArg (ShmLoadBalancer.mk lb.currentIndex) hstats.symm

/-- An unhealthy backend gets no credit. -/
theorem credit_skip {m : ℕ} (hm : m ≠ 0) (h : (stat lb m).isHealthy = false) :
    credit config lb (m + 1) = credit config lb m := by
  have hstats := @credit_succ_stats config lb m
  rw [if_neg (by simp [hm, h])] at hstats
  exact congrArg (ShmLoadBalancer.mk lb.currentIndex) hstats

/-- Before the first backend nothing is credited. -/
theorem credit_zero : credit config lb 0 = lb := by
  have hstats : lb.stats.mapIdx (fun _ s => s) = lb.stats := by
    apply List.ext_getElem?
    simp
  simp [credit, hstats]

/-- A backend that was credited has its credited weight. -/
theorem credit_currentWeight {m i : ℕ} (hi : i < lb.stats.length) (hm : i < m)
    (h : i = 0 ∨ (stat lb i).isHealthy = true) :
    (stat (credit config lb m) i).currentWeight = creditedWeight config lb i := by
  rw [stat_credit hi, if_pos ⟨hm, h⟩]
  rfl

/-- Crediting changes no health flag. -/
theorem credit_isHealthy {m i : ℕ} (hi : i < lb.stats.length) :
    (stat (credit config lb m) i).isHealthy = (stat lb i).isHealthy := by
  rw [stat_credit hi]
  split <;> rfl

/-- One round credits its backend and keeps the better of it and the candidate. -/
theorem weightedRound_eq (h : WellSized config lb) {best k : ℕ} (hbest : best < k + 1)
    (hhealthy : best = 0 ∨ (stat lb best).isHealthy = true) (hk : k + 1 < lb.stats.length) :
    weightedRound config (⟨best, best⟩, credit config lb (k + 1)) (k + 1) =
      let next := if (stat lb (k + 1)).isHealthy ∧
        creditedWeight config lb (k + 1) < creditedWeight config lb best then k + 1 else best
      .ok (⟨next, next⟩, credit config lb (k + 2)) := by
  have hlen (m : ℕ) : (credit config lb m).stats.length = lb.stats.length := credit_length m
  obtain ⟨b, hb, hweight⟩ := exists_elementAt_backends (hk.trans_eq h.stats)
  have hstat := @elementAt_stats (credit config lb (k + 1)) (k + 1) (by rw [hlen]; exact hk)
  by_cases hnew : (stat lb (k + 1)).isHealthy = true
  · have hadd := @credit_addWeight config lb (k + 1) (.inr hnew)
    have hstat' := @elementAt_stats (credit config lb (k + 2)) (k + 1) (by rw [hlen]; exact hk)
    have hstate := @elementAt_stats (credit config lb (k + 2)) best (by rw [hlen]; omega)
    have hnewWeight := @credit_currentWeight config lb (k + 2) (k + 1) hk (by omega) (.inr hnew)
    have hbestWeight := @credit_currentWeight config lb (k + 2) best (by omega) (by omega) hhealthy
    simp only [weightedRound, hstat, hb, hweight, hadd, hstat', hstate, credit_isHealthy hk, hnew,
      hnewWeight, hbestWeight, bind, Except.bind, pure, Except.pure, Bool.not_true,
      Bool.false_eq_true, if_false, true_and]
    by_cases hlt : creditedWeight config lb (k + 1) < creditedWeight config lb best <;> simp [hlt]
  · have hskip := @credit_skip config lb (k + 1) (by omega) (by simpa using hnew)
    simp only [weightedRound, hstat, credit_isHealthy hk, hnew, hskip, bind, Except.bind, pure,
      Except.pure]
    simp

/-- The rounds credit all they look at and find the candidate among them. -/
theorem weightedLoop_eq (h : WellSized config lb) {k : ℕ} (hk : k < lb.stats.length) :
    (List.range' 1 k).foldlM (weightedRound config) (⟨0, 0⟩, credit config lb 1) =
      let best := candidate lb (creditedWeight config lb) (k + 1)
      .ok (⟨best, best⟩, credit config lb (k + 1)) := by
  let best (k : ℕ) : ℕ := candidate lb (creditedWeight config lb) (k + 1)
  apply runSteps_range'
    (fun k => ((⟨best k, best k⟩, credit config lb (k + 1)) : BackServer × ShmLoadBalancer)) 1 k
  intro j hj
  have hbest : best j < j + 1 := candidate_lt lb _ (by omega)
  have hhealthy : best j = 0 ∨ (stat lb (best j)).isHealthy = true := candidate_healthy lb _ _
  rw [Nat.add_comm 1, weightedRound_eq h hbest hhealthy (by omega)]
  simp only [best, candidate_succ]

/-- The region after a call that settled on `best`: its weight goes down by the total, or by
its own weight if it is unhealthy. -/
def settleWeights (config : LoadBalancerConfig) (lb : ShmLoadBalancer) (best : ℕ) :
    ShmLoadBalancer :=
  (credit config lb config.backends.length).addWeight best
    (if (stat lb best).isHealthy then -config.totalWeight else -weight config best)

/-- A weighted call credits every backend and charges the candidate for all the weights. -/
theorem weightedRoundRobin_eq (h : WellSized config lb) :
    weightedRoundRobin config lb =
      let best := candidate lb (creditedWeight config lb) config.backends.length
      .ok (if (stat lb best).isHealthy then some ⟨best, best⟩ else none,
        settleWeights config lb best) := by
  have hpos := h.nonempty
  have hstats := h.stats
  have hlen (m : ℕ) : (credit config lb m).stats.length = lb.stats.length := credit_length m
  obtain ⟨b, hb, hweight⟩ := exists_elementAt_backends hpos
  have hfirst : lb.addWeight 0 (weight config 0) = credit config lb 1 := by
    have hadd := @credit_addWeight config lb 0 (.inl rfl)
    rwa [credit_zero] at hadd
  have hloop := weightedLoop_eq h (show config.backends.length - 1 < lb.stats.length by omega)
  rw [show config.backends.length - 1 + 1 = config.backends.length by omega] at hloop
  have hbest := candidate_lt lb (creditedWeight config lb) hpos
  obtain ⟨c, hc, hcweight⟩ := exists_elementAt_backends hbest
  have hstate := @elementAt_stats (credit config lb config.backends.length)
    (candidate lb (creditedWeight config lb) config.backends.length) (by rw [hlen]; omega)
  simp only [weightedRoundRobin, hb, elementAt_stats (hpos.trans_eq hstats.symm), h.count, hweight,
    hfirst, hloop, hc, hstate, hcweight, credit_isHealthy (hbest.trans_eq hstats.symm), bind,
    Except.bind, pure, Except.pure, settleWeights]
  split <;> rfl

/-! ## The answer -/

/-- The backend an algorithm settles on. -/
def settled (config : LoadBalancerConfig) (lb : ShmLoadBalancer) : Option ℕ :=
  match config.algorithm with
  | .roundRobin => some lb.currentIndex
  | .weightedRoundRobin =>
    some (candidate lb (creditedWeight config lb) config.backends.length)
  | .leastConnections =>
    some (candidate lb (fun i => (stat lb i).connections) config.backends.length)
  | .unset => none

/-- The backend a call settles on is in the range of the statistics. -/
theorem settled_lt (h : WellSized config lb) (hindex : lb.currentIndex < config.backends.length)
    {b : ℕ} (hb : settled config lb = some b) : b < lb.stats.length := by
  have hpos := h.nonempty
  rw [h.stats]
  unfold settled at hb
  split at hb
  · cases hb
    exact hindex
  · cases hb
    exact candidate_lt lb _ hpos
  · cases hb
    exact candidate_lt lb _ hpos
  · cases hb

/-- A call returns the backend it settles on if that one is healthy. -/
theorem getNextBackend_answer (h : WellSized config lb)
    (hindex : lb.currentIndex < config.backends.length) :
    ∃ lb', getNextBackend config lb =
      .ok ((settled config lb).bind fun b =>
        if (stat lb b).isHealthy then some ⟨b, b⟩ else none, lb') := by
  unfold getNextBackend settled
  cases config.algorithm with
  | roundRobin => exact ⟨_, roundRobin_eq h.count hindex h.stats.ge⟩
  | weightedRoundRobin => exact ⟨_, weightedRoundRobin_eq h⟩
  | leastConnections => exact ⟨_, leastConnections_eq h⟩
  | unset => exact ⟨lb, rfl⟩

/-- A round of the weighted scan goes on with the address and the statistic of one backend. -/
theorem weightedRound_paired {acc acc' : BackServer × ShmLoadBalancer} {i : ℕ}
    (h : weightedRound config acc i = .ok acc') (hacc : acc.1.config = acc.1.stat) :
    acc'.1.config = acc'.1.stat := by
  obtain ⟨s, -, h⟩ := bind_eq_ok_iff.mp h
  split at h
  · cases h
    exact hacc
  · obtain ⟨b, -, h⟩ := bind_eq_ok_iff.mp h
    obtain ⟨s', -, h⟩ := bind_eq_ok_iff.mp h
    obtain ⟨t, -, h⟩ := bind_eq_ok_iff.mp h
    cases h
    dsimp only
    split
    · rfl
    · exact hacc

/-- A round of the scan for the fewest connections goes on with the address and the statistic of
one backend. -/
theorem leastRound_paired {best best' : BackServer} {i : ℕ}
    (h : leastRound config lb best i = .ok best') (hbest : best.config = best.stat) :
    best'.config = best'.stat := by
  obtain ⟨s, -, h⟩ := bind_eq_ok_iff.mp h
  split at h
  · cases h
    exact hbest
  · obtain ⟨t, -, h⟩ := bind_eq_ok_iff.mp h
    split at h
    · obtain ⟨b, -, h⟩ := bind_eq_ok_iff.mp h
      cases h
      rfl
    · cases h
      exact hbest

section Paired

variable {lb' : ShmLoadBalancer} {b : BackServer}

/-- Round robin answers with the address and the statistic of one backend. -/
theorem roundRobin_paired (h : roundRobin config lb = .ok (some b, lb')) : b.config = b.stat := by
  obtain ⟨c, -, h⟩ := bind_eq_ok_iff.mp h
  obtain ⟨s, -, h⟩ := bind_eq_ok_iff.mp h
  dsimp only at h
  split at h
  · cases h
  · obtain ⟨hanswer, -⟩ := Prod.ext_iff.mp (Except.ok.inj h)
    dsimp only at hanswer
    split at hanswer
    · cases hanswer
      rfl
    · cases hanswer

/-- Weighted round robin answers with the address and the statistic of one backend. -/
theorem weightedRoundRobin_paired (h : weightedRoundRobin config lb = .ok (some b, lb')) :
    b.config = b.stat := by
  obtain ⟨c, -, h⟩ := bind_eq_ok_iff.mp h
  obtain ⟨s, -, h⟩ := bind_eq_ok_iff.mp h
  obtain ⟨⟨best, lb₁⟩, hloop, h⟩ := bind_eq_ok_iff.mp h
  have hbest : best.config = best.stat :=
    @runSteps_keeps _ _ _ (weightedRound config)
      (fun acc : BackServer × ShmLoadBalancer => acc.1.config = acc.1.stat) _
      (fun acc i _ acc' hacc hround => weightedRound_paired hround hacc) _ _ rfl hloop
  obtain ⟨d, -, h⟩ := bind_eq_ok_iff.mp h
  obtain ⟨t, -, h⟩ := bind_eq_ok_iff.mp h
  split at h
  · cases h
    exact hbest
  · cases h

/-- Least connections answers with the address and the statistic of one backend. -/
theorem leastConnections_paired (h : leastConnections config lb = .ok (some b, lb')) :
    b.config = b.stat := by
  obtain ⟨c, -, h⟩ := bind_eq_ok_iff.mp h
  obtain ⟨s, -, h⟩ := bind_eq_ok_iff.mp h
  obtain ⟨best, hloop, h⟩ := bind_eq_ok_iff.mp h
  have hbest : best.config = best.stat :=
    @runSteps_keeps _ _ _ (leastRound config lb)
      (fun best : BackServer => best.config = best.stat) _
      (fun best i _ best' hbest hround => leastRound_paired hround hbest) _ _ rfl hloop
  obtain ⟨t, -, h⟩ := bind_eq_ok_iff.mp h
  obtain ⟨hanswer, -⟩ := Prod.ext_iff.mp (Except.ok.inj h)
  dsimp only at hanswer
  split at hanswer
  · cases hanswer
    exact hbest
  · cases hanswer

/-- A call that no other one interrupts answers with the address and the statistic of one
backend. -/
theorem getNextBackend_paired (h : getNextBackend config lb = .ok (some b, lb')) :
    b.config = b.stat := by
  unfold getNextBackend at h
  split at h
  · exact roundRobin_paired h
  · exact weightedRoundRobin_paired h
  · exact leastConnections_paired h
  · cases h

end Paired

/-! ## Availability -/

/-- Some backend is healthy. -/
def SomeHealthy (lb : ShmLoadBalancer) : Prop :=
  ∃ i, i < lb.stats.length ∧ (stat lb i).isHealthy = true

/-- The answer is a backend that is healthy: the address and the statistic are both its own. -/
def ReturnsHealthy (lb : ShmLoadBalancer) (answer : Option BackServer) : Prop :=
  ∃ b, answer = some b ∧ b.config = b.stat ∧ b.stat < lb.stats.length ∧
    (stat lb b.stat).isHealthy = true

/-- A call returns a healthy backend if and only if there is one, and the empty one
otherwise. -/
def Available (config : LoadBalancerConfig) (lb : ShmLoadBalancer) : Prop :=
  ∃ answer lb', getNextBackend config lb = .ok (answer, lb') ∧
    (ReturnsHealthy lb answer ↔ SomeHealthy lb) ∧ (¬ SomeHealthy lb → answer = none)

/-- Where the algorithm looks for a healthy backend: at the current index, or at the first
backend and those that have a smaller key than the first. -/
def FindsHealthy (config : LoadBalancerConfig) (lb : ShmLoadBalancer) : Prop :=
  match config.algorithm with
  | .roundRobin => (stat lb lb.currentIndex).isHealthy = true
  | .weightedRoundRobin => (stat lb 0).isHealthy = true ∨
    ∃ i, 0 < i ∧ i < config.backends.length ∧ (stat lb i).isHealthy = true ∧
      creditedWeight config lb i < creditedWeight config lb 0
  | .leastConnections => (stat lb 0).isHealthy = true ∨
    ∃ i, 0 < i ∧ i < config.backends.length ∧ (stat lb i).isHealthy = true ∧
      (stat lb i).connections < (stat lb 0).connections
  | .unset => False

/-- A call finds a healthy backend exactly if the one it settles on is healthy. -/
theorem findsHealthy_iff (config : LoadBalancerConfig) (lb : ShmLoadBalancer) :
    FindsHealthy config lb ↔
      ∃ b, settled config lb = some b ∧ (stat lb b).isHealthy = true := by
  unfold FindsHealthy settled
  cases config.algorithm with
  | roundRobin => simp
  | weightedRoundRobin => simp [candidate_healthy_iff]
  | leastConnections => simp [candidate_healthy_iff]
  | unset => simp

/-- **A call finds a healthy backend whenever there is one, if and only if there is one where
its algorithm looks.** -/
theorem available_iff (h : WellSized config lb)
    (hindex : lb.currentIndex < config.backends.length) :
    Available config lb ↔ (SomeHealthy lb → FindsHealthy config lb) := by
  obtain ⟨lb', hget⟩ := getNextBackend_answer h hindex
  rw [findsHealthy_iff]
  constructor
  · rintro ⟨answer, lb'', hget', hiff, -⟩ hsome
    obtain ⟨b, hanswer, -⟩ := hiff.mpr hsome
    obtain ⟨hans, -⟩ : _ = answer ∧ lb' = lb'' := by simpa using hget.symm.trans hget'
    rw [hanswer, Option.bind_eq_some_iff] at hans
    obtain ⟨i, hi, hhealthy⟩ := hans
    refine ⟨i, hi, ?_⟩
    by_contra hnot
    simp [hnot] at hhealthy
  · intro himp
    refine ⟨_, lb', hget, ⟨?_, ?_⟩, ?_⟩
    · rintro ⟨b, -, -, hlt, hhealthy⟩
      exact ⟨b.stat, hlt, hhealthy⟩
    · intro hsome
      obtain ⟨b, hb, hhealthy⟩ := himp hsome
      exact ⟨⟨b, b⟩, by simp [hb, hhealthy], rfl, settled_lt h hindex hb, hhealthy⟩
    · intro hnone
      rw [Option.bind_eq_none_iff]
      intro b hb
      apply if_neg
      intro hhealthy
      exact hnone ⟨b, settled_lt h hindex hb, hhealthy⟩

/-! ## Two backends -/

/-- A configuration of two backends with equal weights. -/
def twoBackends (algorithm : LoadBalancingAlgorithm) : LoadBalancerConfig where
  backendCount := 2
  totalWeight := 2
  algorithm := algorithm
  backends := [⟨⟨8000, ⟨127, 0, 0, 1⟩⟩, 1⟩, ⟨⟨8001, ⟨127, 0, 0, 1⟩⟩, 1⟩]

/-- A region of two backends of which only the second is healthy. -/
def firstDown : ShmLoadBalancer where
  stats := [{ isHealthy := false }, {}]

/-- The region of two backends is well sized. -/
theorem wellSized_twoBackends (algorithm : LoadBalancingAlgorithm) :
    WellSized (twoBackends algorithm) firstDown :=
  ⟨rfl, rfl, Nat.zero_lt_two⟩

/-- With one connection on the first backend the second is found. -/
theorem available_iff_secondFree :
    Available (twoBackends .leastConnections)
      { stats := [{ isHealthy := false, connections := 1 }, {}] } := by
  rw [available_iff ⟨rfl, rfl, by decide⟩ (by decide)]
  intro _
  exact .inr ⟨1, by decide, by decide, by decide, by decide⟩

/-- With the first backend down, no algorithm that is set is available, although the second one is
healthy. -/
theorem not_available (algorithm : LoadBalancingAlgorithm) (h : algorithm ≠ .unset) :
    ¬ Available (twoBackends algorithm) firstDown := by
  rintro ⟨answer, lb', hget, hiff, -⟩
  have hnone : (getNextBackend (twoBackends algorithm) firstDown).map Prod.fst = .ok none := by
    revert h
    cases algorithm <;> decide
  rw [hget] at hnone
  cases hnone
  obtain ⟨b, hb, -⟩ := hiff.mpr ⟨1, by decide, by decide⟩
  cases hb

/-- No algorithm finds the second of two backends while the first is down, no backend has a
connection and the weights are equal. -/
theorem not_available_firstDown :
    (¬ ∀ config lb, config.algorithm = .roundRobin → WellSized config lb →
      lb.currentIndex < config.backends.length → Available config lb) ∧
    (¬ ∀ config lb, config.algorithm = .weightedRoundRobin → WellSized config lb →
      lb.currentIndex < config.backends.length → Available config lb) ∧
    (¬ ∀ config lb, config.algorithm = .leastConnections → WellSized config lb →
      lb.currentIndex < config.backends.length → Available config lb) := by
  refine ⟨?_, ?_, ?_⟩
  · intro hall
    apply not_available .roundRobin (by decide)
    exact hall _ _ rfl (wellSized_twoBackends _) Nat.zero_lt_two
  · intro hall
    apply not_available .weightedRoundRobin (by decide)
    exact hall _ _ rfl (wellSized_twoBackends _) Nat.zero_lt_two
  · intro hall
    apply not_available .leastConnections (by decide)
    exact hall _ _ rfl (wellSized_twoBackends _) Nat.zero_lt_two

end PkuyoProxy.Analysis
