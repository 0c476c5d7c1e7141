import Mathlib.Algebra.Order.BigOperators.Group.List
import Mathlib.Tactic.Ring
import PkuyoProxy.Analysis.BackendChoice

/-!
# How often weighted round robin returns each backend

In a call every backend gains its weight and the one returned pays the total.  After as many
calls as the total weight, with each backend returned according to its weight, all current
weights are zero again; so the backend returned last had the total weight as its current
weight, and the others zero.  The algorithm returns a backend with smallest current weight,
which that one is not.
-/

set_option autoImplicit false

namespace PkuyoProxy.Analysis

open PkuyoProxy.Lib PkuyoProxy.Model

variable {config : LoadBalancerConfig} {lb : ShmLoadBalancer}

/-- Positive weights, their number and their sum, which is a positive `int`. -/
structure Weighted (config : LoadBalancerConfig) : Prop where
  algorithm : config.algorithm = .weightedRoundRobin
  count : config.backendCount = config.backends.length
  nonempty : config.backends ≠ []
  positive : ∀ b ∈ config.backends, 0 < b.weight
  total : config.totalWeight = (config.backends.map BackendServerConfig.weight).sum
  range : config.totalWeight < 2 ^ 31

/-- One statistic for each backend, all healthy, with current weight zero. -/
structure Unused (config : LoadBalancerConfig) (lb : ShmLoadBalancer) : Prop where
  stats : lb.stats.length = config.backends.length
  fresh : ∀ s ∈ lb.stats, s.isHealthy = true ∧ s.currentWeight = 0

/-- In every run, among the calls `start`, ..., `start + totalWeight - 1` each backend is
returned according to its weight. -/
def Fair (config : LoadBalancerConfig) (lb : ShmLoadBalancer) : Prop :=
  ∀ start, ∃ answers lb',
    nextBackends config lb (start + config.totalWeight.toNat) = .ok (answers, lb') ∧
    ∀ i < config.backends.length,
      ((answers.drop start).count (some ⟨i, i⟩) : ℤ) = weight config i

/-! ## One call -/

/-- Two conversions of a sum are one. -/
theorem toInt_toInt_add (x y : ℤ) : toInt (toInt x + y) = toInt (x + y) := Int.bmod_add_bmod

/-- Adding a weight is seen at its index only. -/
theorem stat_addWeight {i : ℕ} (hi : i < lb.stats.length) (j : ℕ) (w : ℤ) :
    stat (lb.addWeight j w) i = if j = i then (stat lb i).addWeight w else stat lb i := by
  simp only [stat, ShmLoadBalancer.addWeight, List.getD_eq_getElem?_getD, List.getElem?_modify,
    List.getElem?_eq_getElem hi]
  split <;> rfl

/-- All backends are healthy. -/
def AllHealthy (lb : ShmLoadBalancer) : Prop :=
  ∀ i < lb.stats.length, (stat lb i).isHealthy = true

/-- Among healthy backends the candidate has the smallest key. -/
theorem candidate_le (hhealthy : AllHealthy lb) (key : ℕ → ℤ) {n i : ℕ} (hi : i < n)
    (hn : n ≤ lb.stats.length) : key (candidate lb key n) ≤ key i :=
  candidate_le_key key hi (.inr (hhealthy i (by omega)))

/-- The region after a call in which every backend is healthy and `b` is returned. -/
theorem stat_settleWeights (hlen : lb.stats.length = config.backends.length)
    (hhealthy : AllHealthy lb) {b i : ℕ} (hb : b < config.backends.length)
    (hi : i < config.backends.length) :
    (stat (settleWeights config lb b) i).isHealthy = true ∧
      (stat (settleWeights config lb b) i).currentWeight =
        toInt ((stat lb i).currentWeight + weight config i -
          if b = i then config.totalWeight else 0) := by
  have hi' : i < lb.stats.length := by omega
  have hcredit : i < (credit config lb config.backends.length).stats.length := by
    rw [credit_length]
    exact hi'
  have hweight := @credit_currentWeight config lb _ i hi' hi (.inr (hhealthy i hi'))
  have hflag := @credit_isHealthy config lb config.backends.length i hi'
  rw [hhealthy i hi'] at hflag
  unfold settleWeights
  rw [if_pos (hhealthy b (by omega)), stat_addWeight hcredit]
  by_cases heq : b = i
  · rw [if_pos heq, if_pos heq]
    refine ⟨hflag, ?_⟩
    simp only [BackendStat.addWeight, hweight, creditedWeight]
    rw [toInt_toInt_add, sub_eq_add_neg]
  · rw [if_neg heq, if_neg heq, sub_zero]
    exact ⟨hflag, hweight⟩

/-! ## Runs -/

/-- The state after calls that returned `answers`: every backend has gained its weight in each
call and paid the total for each answer that named it. -/
structure Balanced (config : LoadBalancerConfig) (lb : ShmLoadBalancer)
    (answers : List (Option BackServer)) : Prop where
  stats : lb.stats.length = config.backends.length
  healthy : AllHealthy lb
  weights : ∀ i < config.backends.length, (stat lb i).currentWeight =
    toInt (answers.length * weight config i -
      config.totalWeight * answers.count (some ⟨i, i⟩))

/-- Before the first call the weights are balanced. -/
theorem balanced_unused (h : Unused config lb) : Balanced config lb [] := by
  have hmem (i : ℕ) (hi : i < lb.stats.length) : stat lb i ∈ lb.stats := by
    simp [stat, hi]
  refine ⟨h.stats, fun i hi => (h.fresh _ (hmem i hi)).1, ?_⟩
  intro i hi
  rw [(h.fresh _ (hmem i (h.stats ▸ hi))).2]
  simp [toInt]

/-- A credited weight is what the backend has gained with this call, less what it has paid. -/
theorem creditedWeight_eq {answers : List (Option BackServer)} (h : Balanced config lb answers)
    {i : ℕ} (hi : i < config.backends.length) :
    creditedWeight config lb i = toInt ((answers.length + 1) * weight config i -
      config.totalWeight * answers.count (some ⟨i, i⟩)) := by
  rw [creditedWeight, h.weights i hi, toInt_toInt_add]
  congr 1
  ring

/-- A call returns a backend with smallest credited weight. -/
theorem balanced_step (hw : Weighted config) {answers : List (Option BackServer)}
    (h : Balanced config lb answers) :
    ∃ b lb', b < config.backends.length ∧
      getNextBackend config lb = .ok (some ⟨b, b⟩, lb') ∧
      (∀ i < config.backends.length, creditedWeight config lb b ≤ creditedWeight config lb i) ∧
      Balanced config lb' (answers ++ [some ⟨b, b⟩]) := by
  have hpos := List.length_pos_iff.mpr hw.nonempty
  have hsized : WellSized config lb := ⟨h.stats, hw.count, hpos⟩
  let b := candidate lb (creditedWeight config lb) config.backends.length
  have hb : b < config.backends.length := candidate_lt lb _ hpos
  have hcall : getNextBackend config lb = .ok (some ⟨b, b⟩, settleWeights config lb b) := by
    have hhealthy : (stat lb b).isHealthy = true := h.healthy b (by rw [h.stats]; exact hb)
    rw [getNextBackend, hw.algorithm]
    simp only [weightedRoundRobin_eq hsized, b, hhealthy, if_true]
  have hlen : (settleWeights config lb b).stats.length = config.backends.length := by
    simp [settleWeights, ShmLoadBalancer.addWeight, credit_length, h.stats]
  refine ⟨b, settleWeights config lb b, hb, hcall, ?_, hlen, ?_, ?_⟩
  · intro i hi
    exact candidate_le h.healthy _ hi h.stats.ge
  · intro i hi
    exact (stat_settleWeights h.stats h.healthy hb (hlen ▸ hi)).1
  · intro i hi
    rw [(stat_settleWeights h.stats h.healthy hb hi).2, h.weights i hi, add_sub_assoc,
      toInt_toInt_add, List.length_append, List.count_append]
    congr 1
    by_cases heq : b = i
    · simp [heq]
      ring
    · simp [heq]
      ring

/-- Calls keep the weights balanced, and answer with a backend each. -/
theorem nextBackends_balanced (hw : Weighted config) (h : Unused config lb) (k : ℕ) :
    ∃ answers lb', nextBackends config lb k = .ok (answers, lb') ∧ answers.length = k ∧
      Balanced config lb' answers ∧
      ∀ a ∈ answers, ∃ b < config.backends.length, a = some ⟨b, b⟩ := by
  induction k with
  | zero => exact ⟨[], lb, rfl, rfl, balanced_unused h, by simp⟩
  | succ k ih =>
    obtain ⟨answers, lb₁, hrun, hlen, hbal, hmem⟩ := ih
    obtain ⟨b, lb₂, hb, hcall, -, hbal₂⟩ := balanced_step hw hbal
    refine ⟨answers ++ [some ⟨b, b⟩], lb₂, ?_, by simp [hlen], hbal₂, ?_⟩
    · rw [nextBackends, hrun]
      simp only [bind, Except.bind, hcall]
      rfl
    · intro a ha
      rcases List.mem_append.mp ha with ha | ha
      · exact hmem a ha
      · exact ⟨b, hb, List.mem_singleton.mp ha⟩

/-! ## Fairness -/

/-- The total is positive. -/
theorem totalWeight_pos (hw : Weighted config) : 0 < config.totalWeight := by
  rw [hw.total]
  apply List.sum_pos
  · intro w hw'
    obtain ⟨b, hb, rfl⟩ := List.mem_map.mp hw'
    exact hw.positive b hb
  · simpa using hw.nonempty

/-- A single backend gets every call. -/
theorem fair_of_one (hw : Weighted config) (h : Unused config lb)
    (hone : config.backends.length = 1) : Fair config lb := by
  intro start
  obtain ⟨answers, lb', hrun, hlen, -, hmem⟩ :=
    nextBackends_balanced hw h (start + config.totalWeight.toNat)
  refine ⟨answers, lb', hrun, ?_⟩
  intro i hi
  obtain rfl : i = 0 := by omega
  have hall : answers.drop start = List.replicate config.totalWeight.toNat (some ⟨0, 0⟩) := by
    rw [List.eq_replicate_iff]
    refine ⟨by simp [hlen], ?_⟩
    intro a ha
    obtain ⟨b, hb, rfl⟩ := hmem a (List.mem_of_mem_drop ha)
    obtain rfl : b = 0 := by omega
    rfl
  have hweight : weight config 0 = config.totalWeight := by
    obtain ⟨b, hb⟩ := List.length_eq_one_iff.mp hone
    simp [weight, hw.total, hb]
  have hpos := totalWeight_pos hw
  rw [hall, List.count_replicate_self, hweight]
  omega

/-- Of several backends, the one returned last in a fair round would have the total weight as
its credited weight, and the others zero. -/
theorem not_fair_of_two (hw : Weighted config) (h : Unused config lb)
    (htwo : 1 < config.backends.length) : ¬ Fair config lb := by
  intro hfair
  have hpos := totalWeight_pos hw
  obtain ⟨m, hm⟩ : ∃ m, config.totalWeight.toNat = m + 1 :=
    ⟨config.totalWeight.toNat - 1, by omega⟩
  have hT : config.totalWeight = m + 1 := by omega
  obtain ⟨answers, lb₁, hrun, hlen, hbal, -⟩ := nextBackends_balanced hw h m
  obtain ⟨b, lb₂, hb, hcall, hmin, -⟩ := balanced_step hw hbal
  obtain ⟨answers', lb', hrun', hcount⟩ := hfair 0
  have hanswers : answers' = answers ++ [some ⟨b, b⟩] := by
    rw [hm, Nat.zero_add, nextBackends, hrun] at hrun'
    simp only [bind, Except.bind, hcall, pure, Except.pure, Except.ok.injEq, Prod.mk.injEq]
      at hrun'
    exact hrun'.1.symm
  have hcredit (i : ℕ) (hi : i < config.backends.length) :
      creditedWeight config lb₁ i = toInt (if b = i then config.totalWeight else 0) := by
    have hi' := hcount i hi
    rw [hanswers, List.drop_zero, List.count_append] at hi'
    rw [creditedWeight_eq hbal hi, hlen, ← hi', ← hT]
    congr 1
    by_cases heq : b = i
    · simp [heq]
      ring
    · simp [heq]
  obtain ⟨i, hi, hne⟩ : ∃ i < config.backends.length, b ≠ i := by
    by_cases hzero : b = 0
    · exact ⟨1, htwo, by omega⟩
    · exact ⟨0, by omega, hzero⟩
  have hle := hmin i hi
  rw [hcredit i hi, hcredit b hb, if_pos rfl, if_neg hne] at hle
  have hrange := hw.range
  have hself : toInt config.totalWeight = config.totalWeight := by
    apply Int.bmod_eq_of_le <;> omega
  have hzero : toInt 0 = 0 := by decide
  rw [hself, hzero] at hle
  omega

/-- **Every backend is returned according to its weight if and only if there is one only.** -/
theorem fair_iff (hw : Weighted config) (h : Unused config lb) :
    Fair config lb ↔ config.backends.length = 1 := by
  constructor
  · intro hfair
    have hpos := List.length_pos_iff.mpr hw.nonempty
    by_contra hne
    exact not_fair_of_two hw h (by omega) hfair
  · exact fair_of_one hw h

/-! ## Examples -/

/-- A configuration of one backend. -/
def oneBackend : LoadBalancerConfig where
  backendCount := 1
  totalWeight := 3
  algorithm := .weightedRoundRobin
  backends := [⟨⟨8000, ⟨127, 0, 0, 1⟩⟩, 3⟩]

/-- A single backend is returned in every call. -/
theorem fair_iff_oneBackend : Fair oneBackend { stats := [{}] } := by
  rw [fair_iff ⟨rfl, rfl, by decide, by decide, by decide, by decide⟩ ⟨rfl, by decide⟩]
  rfl

/-- A configuration of two backends with weights one and two. -/
def unevenBackends : LoadBalancerConfig where
  backendCount := 2
  totalWeight := 3
  algorithm := .weightedRoundRobin
  backends := [⟨⟨8000, ⟨127, 0, 0, 1⟩⟩, 1⟩, ⟨⟨8001, ⟨127, 0, 0, 1⟩⟩, 2⟩]

/-- The backend of weight one is returned in all of the first three calls. -/
theorem not_fair_unevenBackends :
    ¬ ∀ config lb, Weighted config → Unused config lb → Fair config lb := by
  intro hall
  obtain ⟨answers, lb', hrun, hcount⟩ := hall unevenBackends { stats := [{}, {}] }
    ⟨rfl, rfl, by decide, by decide, by decide, by decide⟩ ⟨rfl, by decide⟩ 0
  have hanswers : (nextBackends unevenBackends { stats := [{}, {}] } 3).map Prod.fst =
      .ok [some ⟨0, 0⟩, some ⟨0, 0⟩, some ⟨0, 0⟩] := by decide
  have hrun' : nextBackends unevenBackends { stats := [{}, {}] } 3 = .ok (answers, lb') := hrun
  rw [hrun'] at hanswers
  cases hanswers
  have hzero := hcount 0 (by decide)
  revert hzero
  decide

end PkuyoProxy.Analysis
