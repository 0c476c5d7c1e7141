import Mathlib.Data.List.Rotate
import PkuyoProxy.Analysis.BackendChoice
import PkuyoProxy.Analysis.BalancerSafety

/-!
# Windows of a round robin

As many calls as there are backends go once around: they return the healthy backends, each once,
in cyclic order from the current index, and nothing for the others.  The index stays in range in
every run, so this holds wherever in a run the window begins (`roundRobin_fair`).
-/

set_option autoImplicit false

namespace PkuyoProxy.Analysis

open PkuyoProxy.Lib PkuyoProxy.Model

variable {config : LoadBalancerConfig} {lb : ShmLoadBalancer}

/-- Backends are counted, each of them has a statistic, and the index is that of one of them. -/
structure Cycling (config : LoadBalancerConfig) (lb : ShmLoadBalancer) : Prop where
  count : config.backendCount = config.backends.length
  stats : config.backends.length ≤ lb.stats.length
  index : lb.currentIndex < config.backends.length

/-- What a round robin returns for backend `i`. -/
def answerAt (lb : ShmLoadBalancer) (i : ℕ) : Option BackServer :=
  if (stat lb i).isHealthy then some ⟨i, i⟩ else none

/-- The answers to a window of calls on `n` backends. -/
structure OnceAround (lb : ShmLoadBalancer) (n : ℕ) (answers : List (Option BackServer)) :
    Prop where
  cyclic : answers = ((List.range n).rotate lb.currentIndex).map (answerAt lb)
  once : ∀ i < n, (stat lb i).isHealthy = true → answers.count (some ⟨i, i⟩) = 1
  healthy : ∀ b, some b ∈ answers →
    b.config = b.stat ∧ b.stat < n ∧ (stat lb b.stat).isHealthy = true
  empty : answers.count none = (List.range n).countP fun i => !(stat lb i).isHealthy

/-- In the state `lb`, the index is in range, and a window of calls succeeds, goes once around and
leaves the region as it was. -/
def FairFrom (config : LoadBalancerConfig) (lb : ShmLoadBalancer) : Prop :=
  lb.currentIndex < config.backends.length ∧
    ∃ answers, nextBackends config lb config.backends.length = .ok (answers, lb) ∧
      OnceAround lb config.backends.length answers

/-! ## Windows -/

/-- A call answers for the backend at the index, and moves the index on. -/
theorem getNextBackend_roundRobin (h : Cycling config lb) (halg : config.algorithm = .roundRobin) :
    getNextBackend config lb = .ok (answerAt lb lb.currentIndex,
      { lb with currentIndex := (lb.currentIndex + 1) % config.backends.length }) := by
  rw [getNextBackend, halg]
  exact roundRobin_eq h.count h.index h.stats

/-- The calls go through the backends from the current index on. -/
theorem nextBackends_roundRobin (h : Cycling config lb) (halg : config.algorithm = .roundRobin)
    (k : ℕ) :
    nextBackends config lb k =
      .ok ((List.range k).map fun j =>
          answerAt lb ((lb.currentIndex + j) % config.backends.length),
        { lb with currentIndex := (lb.currentIndex + k) % config.backends.length }) := by
  induction k with
  | zero =>
    rw [Nat.add_zero, Nat.mod_eq_of_lt h.index]
    rfl
  | succ k ih =>
    have hcall := @getNextBackend_roundRobin config
      { lb with currentIndex := (lb.currentIndex + k) % config.backends.length }
      ⟨h.count, h.stats, Nat.mod_lt _ (Nat.zero_lt_of_lt h.index)⟩ halg
    simp only [Nat.mod_add_mod] at hcall
    rw [nextBackends, ih, List.range_succ, List.map_append]
    simp only [bind, Except.bind, pure, Except.pure, hcall]
    rfl

/-- A window goes through a rotation of the backends. -/
theorem map_mod_eq_rotate (s n : ℕ) :
    (List.range n).map (fun j => (s + j) % n) = (List.range n).rotate s := by
  apply List.ext_getElem
  · simp
  · intro j hj hj'
    simp [List.getElem_rotate, Nat.add_comm]

/-- A round robin answers with a backend exactly if it is healthy. -/
theorem answerAt_eq_some_iff {i : ℕ} {b : BackServer} :
    answerAt lb i = some b ↔ (stat lb i).isHealthy = true ∧ b = ⟨i, i⟩ := by
  unfold answerAt
  split
  · rename_i hhealthy
    simp [hhealthy, eq_comm]
  · rename_i hhealthy
    simp [hhealthy]

/-- The answers from the index on go once around. -/
theorem onceAround_rotate (lb : ShmLoadBalancer) (n : ℕ) :
    OnceAround lb n (((List.range n).rotate lb.currentIndex).map (answerAt lb)) := by
  have hperm : List.Perm (((List.range n).rotate lb.currentIndex).map (answerAt lb))
      ((List.range n).map (answerAt lb)) := (List.rotate_perm _ _).map _
  refine ⟨rfl, ?_, ?_, ?_⟩
  · intro i hi hhealthy
    rw [hperm.count_eq, List.count, List.countP_map]
    calc (List.range n).countP ((· == some ⟨i, i⟩) ∘ answerAt lb)
        = (List.range n).countP (· == i) := by
          apply List.countP_congr
          intro j hj
          simp only [Function.comp_apply, beq_iff_eq, answerAt_eq_some_iff, BackServer.mk.injEq,
            and_self]
          constructor
          · exact fun h => h.2.symm
          · rintro rfl
            exact ⟨hhealthy, rfl⟩
      _ = 1 := List.count_eq_one_of_mem List.nodup_range (List.mem_range.mpr hi)
  · intro b hb
    obtain ⟨i, hi, hanswer⟩ := List.mem_map.mp (hperm.mem_iff.mp hb)
    obtain ⟨hhealthy, rfl⟩ := answerAt_eq_some_iff.mp hanswer
    exact ⟨rfl, List.mem_range.mp hi, hhealthy⟩
  · rw [hperm.count_eq, List.count, List.countP_map]
    apply List.countP_congr
    intro i hi
    simp [answerAt]

/-- **A window of calls goes once around.** -/
theorem Cycling.fairFrom (h : Cycling config lb) (halg : config.algorithm = .roundRobin) :
    FairFrom config lb := by
  have hrun := nextBackends_roundRobin h halg config.backends.length
  have hback : (lb.currentIndex + config.backends.length) % config.backends.length =
      lb.currentIndex := by
    rw [Nat.add_mod_right, Nat.mod_eq_of_lt h.index]
  have hmap : ((List.range config.backends.length).map fun j =>
      answerAt lb ((lb.currentIndex + j) % config.backends.length)) =
      ((List.range config.backends.length).rotate lb.currentIndex).map (answerAt lb) := by
    rw [← map_mod_eq_rotate, List.map_map]
    rfl
  rw [hback, hmap] at hrun
  exact ⟨h.index, _, hrun, onceAround_rotate lb _⟩

/-! ## Runs -/

/-- A health check does not move the index. -/
theorem checkHealth_index {healthy : ℕ → Bool} {lb' : ShmLoadBalancer}
    (h : checkHealth config healthy lb = .ok lb') : lb'.currentIndex = lb.currentIndex := by
  refine @runSteps_keeps _ _ _ _ (fun s => s.currentIndex = lb.currentIndex) _ ?_ _ _ rfl h
  intro s i hi s' hs hstep
  obtain ⟨-, -, hstep⟩ := bind_eq_ok_iff.mp hstep
  cases hstep
  exact hs

/-- No call fails, and every one keeps the index in range. -/
theorem balancerStep_cycling (halg : config.algorithm = .roundRobin) (h : Cycling config lb)
    (call : BalancerCall) : ∃ lb', balancerStep config lb call = .ok lb' ∧ Cycling config lb' := by
  cases call with
  | getNextBackend =>
    have hcall := congrArg (Except.map Prod.snd) (getNextBackend_roundRobin h halg)
    exact ⟨_, hcall, h.count, h.stats, Nat.mod_lt _ (Nat.zero_lt_of_lt h.index)⟩
  | checkHealth healthy =>
    obtain ⟨hiff, hlen⟩ := checkHealth_ok_iff config healthy lb
    obtain ⟨lb', hcheck⟩ := hiff.mpr h.stats
    exact ⟨lb', hcheck, h.count, (hlen lb' hcheck).symm ▸ h.stats,
      (checkHealth_index hcheck).trans_lt h.index⟩
  | flags healthy => exact ⟨_, rfl, h.count, by simpa using h.stats, h.index⟩

/-- **In every run, whatever the health checks find, the index stays in range, and a window of calls
returns each healthy backend once, in cyclic order, and nothing for each of the others.** -/
theorem roundRobin_fair (h : Cycling config lb) (halg : config.algorithm = .roundRobin)
    (calls : List BalancerCall) :
    EveryState (balancerStep config) (FairFrom config) lb calls := by
  have hlegal : EveryStep (balancerStep config) (fun _ _ => True) lb calls :=
    fun _ _ _ _ _ => trivial
  have hcycling := hlegal.succeeds (fun s call hs _ => balancerStep_cycling halg hs call) h
  intro pre hpre
  obtain ⟨lb', hrun, hlb'⟩ := hcycling pre hpre
  exact ⟨lb', hrun, hlb'.fairFrom halg⟩

/-- Two backends are returned in turn, whatever calls and checks come between. -/
theorem roundRobin_fair_two :
    EveryState (balancerStep (twoBackends .roundRobin)) (FairFrom (twoBackends .roundRobin))
      { currentIndex := 1, stats := [{}, {}] }
      [.getNextBackend, .flags (· == 0), .getNextBackend, .checkHealth (· == 1)] :=
  roundRobin_fair ⟨rfl, by decide, by decide⟩ rfl _

end PkuyoProxy.Analysis
