import PkuyoProxy.Analysis.BackendChoice

/-!
# The backend with the fewest connections

The scan of `get_next_backend` begins with the first backend, healthy or not.  If it ends with a
healthy one, that one has the fewest connections of the healthy ones and is the first of these
(`leastConnections_optimal`).  That it may end with the first one while others are healthy is the
matter of `available_iff`.
-/

set_option autoImplicit false

namespace PkuyoProxy.Analysis

open PkuyoProxy.Lib PkuyoProxy.Model

variable {config : LoadBalancerConfig} {lb : ShmLoadBalancer}

/-- A healthy backend with the fewest connections, the first of these. -/
structure LeastLoaded (lb : ShmLoadBalancer) (b : BackServer) : Prop where
  same : b.config = b.stat
  lt : b.stat < lb.stats.length
  healthy : (stat lb b.stat).isHealthy = true
  least : ∀ i < lb.stats.length, (stat lb i).isHealthy = true →
    (stat lb b.stat).connections ≤ (stat lb i).connections
  first : ∀ i < lb.stats.length, (stat lb i).isHealthy = true →
    (stat lb i).connections = (stat lb b.stat).connections → b.stat ≤ i

/-- A healthy backend in front of the candidate has a larger key. -/
theorem candidate_le_of_key_le (key : ℕ → ℤ) {n i : ℕ} (hi : i < n)
    (hhealthy : (stat lb i).isHealthy = true) (hkey : key i ≤ key (candidate lb key n)) :
    candidate lb key n ≤ i := by
  cases i with
  | zero =>
    -- the scan leaves the first backend only for a smaller key
    have hle (j : ℕ) (hj : j ∈ List.range' 1 (n - 1)) (helig : (stat lb j).isHealthy = true) :
        key 0 ≤ key j := by
      have hlt := (List.mem_range'_1.mp hj).2
      exact hkey.trans (candidate_le_key key (by omega) (.inr helig))
    exact Nat.le_of_eq ((scanMin_eq_start_iff _ key 0 _).mpr hle)
  | succ i =>
    apply scanMin_le_of_key_le _ key 0 _ _ hhealthy hkey
    · rw [List.pairwise_cons]
      refine ⟨?_, List.pairwise_lt_range'⟩
      intro j hj
      have hpos := (List.mem_range'_1.mp hj).1
      omega
    · rw [List.mem_range'_1]
      omega

/-- **A call for least connections leaves the region as it is, and the backend it returns is
healthy, has the fewest connections of the healthy ones, and is the first of these.** -/
theorem leastConnections_optimal (h : WellSized config lb)
    (halg : config.algorithm = .leastConnections) :
    ∃ answer, getNextBackend config lb = .ok (answer, lb) ∧
      ∀ b, answer = some b → LeastLoaded lb b := by
  have hlen := h.stats
  refine ⟨_, by rw [getNextBackend, halg]; exact leastConnections_eq h, ?_⟩
  intro b hb
  split at hb
  · rename_i hhealthy
    obtain rfl := Option.some.inj hb
    refine ⟨rfl, ?_, hhealthy, ?_, ?_⟩
    · rw [hlen]
      exact candidate_lt lb _ h.nonempty
    · intro i hi hi'
      apply candidate_le_key (fun i => (stat lb i).connections) (hi.trans_eq hlen) (.inr hi')
    · intro i hi hi' heq
      exact candidate_le_of_key_le (fun i => (stat lb i).connections) (hi.trans_eq hlen) hi' heq.le
  · cases hb

/-- A region of two backends: the first has more connections and is not healthy. -/
def secondLighter : ShmLoadBalancer where
  stats := [{ connections := 5, isHealthy := false }, { connections := 3 }]

/-- The second backend has fewer connections, and is returned. -/
theorem leastConnections_optimal_second :
    getNextBackend (twoBackends .leastConnections) secondLighter =
        .ok (some ⟨1, 1⟩, secondLighter) ∧
      LeastLoaded secondLighter ⟨1, 1⟩ := by
  have hanswer : getNextBackend (twoBackends .leastConnections) secondLighter =
      .ok (some ⟨1, 1⟩, secondLighter) := by decide
  obtain ⟨answer, hcall, hleast⟩ :=
    @leastConnections_optimal (twoBackends .leastConnections) secondLighter
      ⟨rfl, rfl, by decide⟩ rfl
  rw [hanswer] at hcall
  cases hcall
  exact ⟨hanswer, hleast ⟨1, 1⟩ rfl⟩

end PkuyoProxy.Analysis
