import Mathlib.Algebra.BigOperators.Ring.Finset
import Mathlib.Algebra.Order.BigOperators.Group.Finset
import PkuyoProxy.Analysis.WeightedFairness
import PkuyoProxy.Interface.ConfigDocument

/-!
# The sum of the current weights

A call gives the first backend and the healthy ones their weights, and takes the total weight
from the backend it returns, or the weight of the first one if it returns none.  The two balance
when every backend was given its weight and no `int` wraps alone, or when only an unhealthy first
backend was (`conserved_iff_balances`).
-/

set_option autoImplicit false

namespace PkuyoProxy.Analysis

open PkuyoProxy.Lib PkuyoProxy.Model PkuyoProxy.Interface

variable {config : LoadBalancerConfig} {lb : ShmLoadBalancer}

/-- The sum of the current weights of all backends. -/
def weightSum (lb : ShmLoadBalancer) : ℤ :=
  ∑ i ∈ Finset.range lb.stats.length, (stat lb i).currentWeight

/-- A call keeps the sum of the current weights, and each of them if it returns no backend. -/
def Conserved (config : LoadBalancerConfig) (lb : ShmLoadBalancer) : Prop :=
  ∃ answer lb', getNextBackend config lb = .ok (answer, lb') ∧ weightSum lb' = weightSum lb ∧
    (answer = none → ∀ i < lb.stats.length,
      (stat lb' i).currentWeight = (stat lb i).currentWeight)

/-- The backends whose current weight wraps when they are given their weight. -/
def overflowing (config : LoadBalancerConfig) (lb : ShmLoadBalancer) : Finset ℕ :=
  {i ∈ Finset.range config.backends.length |
    2 ^ 31 ≤ (stat lb i).currentWeight + weight config i}

/-- One current weight wraps when it grows, or none does, and none could wrap when the total is
taken from it. -/
def WrapsBalance (config : LoadBalancerConfig) (lb : ShmLoadBalancer) : Prop :=
  (overflowing config lb).card = 1 ∨ overflowing config lb = ∅ ∧
    ∀ i < config.backends.length,
      -2 ^ 31 ≤ (stat lb i).currentWeight + weight config i - config.totalWeight

/-- The first backend is unhealthy, and so are the others; or a healthy one is found, the others
behind the first are healthy as well, and the `int`s do not wrap alone. -/
def Balances (config : LoadBalancerConfig) (lb : ShmLoadBalancer) : Prop :=
  (∀ i < config.backends.length, (stat lb i).isHealthy = false) ∨
    FindsHealthy config lb ∧ WrapsBalance config lb ∧
      ∀ i, 0 < i → i < config.backends.length → (stat lb i).isHealthy = true

/-! ## One weight -/

/-- A current weight that grows wraps at most once. -/
theorem toInt_add {c w : ℤ} (hc : IsInt c) (hw : 0 < w) (hlt : w < 2 ^ 31) :
    toInt (c + w) = c + w - 2 ^ 32 * if 2 ^ 31 ≤ c + w then 1 else 0 := by
  obtain ⟨hlo, hhi⟩ := hc
  unfold toInt
  rw [Int.bmod_eq_iff (by decide)]
  split
  · exact ⟨by omega, by omega, ⟨-1, by omega⟩⟩
  · exact ⟨by omega, by omega, ⟨0, by omega⟩⟩

/-- A current weight that pays wraps at most once. -/
theorem toInt_sub {c t : ℤ} (hc : IsInt c) (ht : 0 < t) (hlt : t < 2 ^ 31) :
    toInt (c - t) = c - t + 2 ^ 32 * if c - t < -2 ^ 31 then 1 else 0 := by
  obtain ⟨hlo, hhi⟩ := hc
  unfold toInt
  rw [Int.bmod_eq_iff (by decide)]
  split
  · exact ⟨by omega, by omega, ⟨1, by omega⟩⟩
  · exact ⟨by omega, by omega, ⟨0, by omega⟩⟩

/-- What was converted to `int` is in its range. -/
theorem isInt_toInt (n : ℤ) : IsInt (toInt n) := by
  unfold IsInt toInt
  have hlo := @Int.le_bmod n (2 ^ 32) (by decide)
  have hhi := @Int.bmod_lt n (2 ^ 32) (by decide)
  omega

/-- A weight is positive. -/
theorem weight_pos (hw : Weighted config) {i : ℕ} (hi : i < config.backends.length) :
    0 < weight config i := by
  rw [weight, List.getElem?_eq_getElem hi]
  exact hw.positive _ (List.getElem_mem hi)

/-- The sum over the indices is that over the list. -/
theorem sum_range_getElem? (l : List BackendServerConfig) :
    ∑ i ∈ Finset.range l.length, ((l[i]?).map BackendServerConfig.weight).getD 0 =
      (l.map BackendServerConfig.weight).sum := by
  induction l with
  | nil => rfl
  | cons b l ih =>
    rw [List.length_cons, Finset.sum_range_succ', List.map_cons, List.sum_cons, ← ih, add_comm]
    rfl

/-- The weights make up the total. -/
theorem sum_weight (hw : Weighted config) :
    ∑ i ∈ Finset.range config.backends.length, weight config i = config.totalWeight := by
  rw [hw.total]
  exact sum_range_getElem? config.backends

/-- No weight is above the total. -/
theorem weight_le_total (hw : Weighted config) {i : ℕ} (hi : i < config.backends.length) :
    weight config i ≤ config.totalWeight := by
  rw [← sum_weight hw]
  apply Finset.single_le_sum (fun j hj => (weight_pos hw (Finset.mem_range.mp hj)).le)
  exact Finset.mem_range.mpr hi

/-! ## What a call does to the weights -/

/-- The current weight of backend `i` after the loop. -/
def grownWeight (config : LoadBalancerConfig) (lb : ShmLoadBalancer) (i : ℕ) : ℤ :=
  if i = 0 ∨ (stat lb i).isHealthy = true then creditedWeight config lb i
  else (stat lb i).currentWeight

/-- The weights that are left: the backend that was settled on has paid, the others have grown. -/
theorem settleWeights_currentWeight (hlen : lb.stats.length = config.backends.length) (b : ℕ)
    {i : ℕ} (hi : i < config.backends.length) :
    (stat (settleWeights config lb b) i).currentWeight =
      if b = i then
        toInt (grownWeight config lb i +
          if (stat lb b).isHealthy then -config.totalWeight else -weight config b)
      else grownWeight config lb i := by
  have hi' : i < lb.stats.length := by omega
  have hcredit : i < (credit config lb config.backends.length).stats.length := by
    rw [credit_length]
    exact hi'
  have hgrown : (stat (credit config lb config.backends.length) i).currentWeight =
      grownWeight config lb i := by
    rw [stat_credit hi', grownWeight]
    by_cases h : i = 0 ∨ (stat lb i).isHealthy = true
    · rw [if_pos ⟨hi, h⟩, if_pos h]
      rfl
    · rw [if_neg (fun hand => h hand.2), if_neg h]
  unfold settleWeights
  rw [stat_addWeight hcredit]
  by_cases heq : b = i
  · rw [if_pos heq, if_pos heq, ← hgrown]
    rfl
  · rw [if_neg heq, if_neg heq, hgrown]

/-- There are as many as before. -/
theorem settleWeights_length (hlen : lb.stats.length = config.backends.length) (b : ℕ) :
    (settleWeights config lb b).stats.length = config.backends.length := by
  simp [settleWeights, ShmLoadBalancer.addWeight, credit_length, hlen]

/-- The weights that the loop gives. -/
def weightGiven (config : LoadBalancerConfig) (lb : ShmLoadBalancer) : ℤ :=
  ∑ i ∈ Finset.range config.backends.length,
    if i = 0 ∨ (stat lb i).isHealthy = true then weight config i else 0

/-- How many current weights wrap in the loop. -/
def wrapsGiven (config : LoadBalancerConfig) (lb : ShmLoadBalancer) : ℤ :=
  ∑ i ∈ Finset.range config.backends.length,
    if (i = 0 ∨ (stat lb i).isHealthy = true) ∧
      2 ^ 31 ≤ (stat lb i).currentWeight + weight config i then 1 else 0

/-- The sum of the current weights is that over the indices. -/
theorem weightSum_range (hlen : lb.stats.length = config.backends.length) :
    weightSum lb = ∑ i ∈ Finset.range config.backends.length, (stat lb i).currentWeight := by
  rw [weightSum, hlen]

/-- What the loop adds to the sum: the weights it gives, less what wraps. -/
theorem sum_grownWeight (hw : Weighted config) (hlen : lb.stats.length = config.backends.length)
    (hint : ∀ i < config.backends.length, IsInt (stat lb i).currentWeight) :
    ∑ i ∈ Finset.range config.backends.length, grownWeight config lb i =
      weightSum lb + weightGiven config lb - 2 ^ 32 * wrapsGiven config lb := by
  rw [weightSum_range hlen, weightGiven, wrapsGiven, Finset.mul_sum, ← Finset.sum_add_distrib,
    ← Finset.sum_sub_distrib]
  apply Finset.sum_congr rfl
  intro i hi
  have hi := Finset.mem_range.mp hi
  have hlt := (weight_le_total hw hi).trans_lt hw.range
  have hgrow := toInt_add (hint i hi) (weight_pos hw hi) hlt
  unfold grownWeight creditedWeight
  by_cases h : i = 0 ∨ (stat lb i).isHealthy = true
  · rw [if_pos h, if_pos h, hgrow]
    simp only [h, true_and]
  · simp [h]

/-- The sum behind a call that settles on `b`. -/
theorem weightSum_settleWeights (hlen : lb.stats.length = config.backends.length) {b : ℕ}
    (hb : b < config.backends.length) :
    weightSum (settleWeights config lb b) =
      ∑ i ∈ Finset.range config.backends.length, grownWeight config lb i +
        (toInt (grownWeight config lb b +
          if (stat lb b).isHealthy then -config.totalWeight else -weight config b) -
            grownWeight config lb b) := by
  have hterm (i : ℕ) (hi : i ∈ Finset.range config.backends.length) :
      (stat (settleWeights config lb b) i).currentWeight = grownWeight config lb i +
        if b = i then
          toInt (grownWeight config lb b +
            if (stat lb b).isHealthy then -config.totalWeight else -weight config b) -
              grownWeight config lb b
        else 0 := by
    rw [settleWeights_currentWeight hlen b (Finset.mem_range.mp hi)]
    by_cases h : b = i
    · subst h
      rw [if_pos rfl, if_pos rfl]
      ring
    · rw [if_neg h, if_neg h, add_zero]
  rw [weightSum, settleWeights_length hlen, Finset.sum_congr rfl hterm, Finset.sum_add_distrib,
    Finset.sum_ite_eq, if_pos (Finset.mem_range.mpr hb)]

/-! ## The whole call -/

/-- A call given its weights settles on the first backend with smallest credited weight. -/
theorem getNextBackend_weighted (hw : Weighted config)
    (hlen : lb.stats.length = config.backends.length) :
    let b := candidate lb (creditedWeight config lb) config.backends.length
    getNextBackend config lb =
      .ok (if (stat lb b).isHealthy then some ⟨b, b⟩ else none, settleWeights config lb b) := by
  have hsized : WellSized config lb := ⟨hlen, hw.count, List.length_pos_iff.mpr hw.nonempty⟩
  rw [getNextBackend, hw.algorithm]
  exact weightedRoundRobin_eq hsized

/-- The weights given make up the total if and only if every backend was given its weight. -/
theorem weightGiven_eq_total (hw : Weighted config) :
    weightGiven config lb = config.totalWeight ↔
      ∀ i, 0 < i → i < config.backends.length → (stat lb i).isHealthy = true := by
  rw [weightGiven, ← sum_weight hw, Finset.sum_eq_sum_iff_of_le]
  · constructor
    · intro h i hpos hi
      by_contra hnot
      have hi' := h i (Finset.mem_range.mpr hi)
      rw [if_neg (by simp [hnot]; omega)] at hi'
      exact (weight_pos hw hi).ne hi'
    · intro h i hi
      rw [if_pos]
      by_cases hzero : i = 0
      · exact .inl hzero
      · exact .inr (h i (by omega) (Finset.mem_range.mp hi))
  · intro i hi
    have hpos := weight_pos hw (Finset.mem_range.mp hi)
    split <;> omega

/-- The loop gives a positive weight. -/
theorem weightGiven_pos (hw : Weighted config) : 0 < weightGiven config lb := by
  have hpos := List.length_pos_iff.mpr hw.nonempty
  apply Finset.sum_pos'
  · intro i hi
    have := weight_pos hw (Finset.mem_range.mp hi)
    split <;> omega
  · refine ⟨0, Finset.mem_range.mpr hpos, ?_⟩
    rw [if_pos (.inl rfl)]
    exact weight_pos hw hpos

/-- The loop gives no more than the total. -/
theorem weightGiven_le (hw : Weighted config) : weightGiven config lb ≤ config.totalWeight := by
  rw [weightGiven, ← sum_weight hw]
  apply Finset.sum_le_sum
  intro i hi
  have := weight_pos hw (Finset.mem_range.mp hi)
  split <;> omega

/-- When every backend was given its weight, as many weights wrap as the total wraps, if and only
if one does and none other, or none can. -/
theorem wrapsBalance_iff (hw : Weighted config)
    (hint : ∀ i < config.backends.length, IsInt (stat lb i).currentWeight) {b : ℕ}
    (hb : b < config.backends.length)
    (hle : ∀ i < config.backends.length, creditedWeight config lb b ≤ creditedWeight config lb i) :
    WrapsBalance config lb ↔ ((overflowing config lb).card : ℤ) =
      if creditedWeight config lb b - config.totalWeight < -2 ^ 31 then 1 else 0 := by
  have hcredited (i : ℕ) (hi : i < config.backends.length) : creditedWeight config lb i =
      (stat lb i).currentWeight + weight config i -
        2 ^ 32 * if 2 ^ 31 ≤ (stat lb i).currentWeight + weight config i then 1 else 0 :=
    toInt_add (hint i hi) (weight_pos hw hi) ((weight_le_total hw hi).trans_lt hw.range)
  have hmem (i : ℕ) : i ∈ overflowing config lb ↔
      i < config.backends.length ∧ 2 ^ 31 ≤ (stat lb i).currentWeight + weight config i := by
    simp [overflowing]
  unfold WrapsBalance
  rcases (overflowing config lb).eq_empty_or_nonempty with hempty | ⟨j, hj⟩
  · -- no weight wraps: the total wraps if it does for the candidate, whose weight is smallest
    have hcredited' (i : ℕ) (hi : i < config.backends.length) : creditedWeight config lb i =
        (stat lb i).currentWeight + weight config i := by
      have hnot : ¬ 2 ^ 31 ≤ (stat lb i).currentWeight + weight config i := by
        intro hge
        have hin := (hmem i).mpr ⟨hi, hge⟩
        simp [hempty] at hin
      rw [hcredited i hi, if_neg hnot]
      ring
    simp only [hempty, Finset.card_empty, Nat.cast_zero, zero_ne_one, false_or, true_and]
    constructor
    · intro h
      have hbge := h b hb
      rw [hcredited' b hb, if_neg (by omega)]
    · intro h i hi
      have hmin := hle i hi
      rw [hcredited' i hi] at hmin
      split at h <;> omega
  · -- a weight that wraps is small, and so is the candidate's: the total wraps
    obtain ⟨hlt, hge⟩ := (hmem j).mp hj
    have hmin := hle j hlt
    rw [hcredited j hlt, if_pos hge] at hmin
    have hmax := (hint j hlt).2
    have htotal := weight_le_total hw hlt
    have hne : overflowing config lb ≠ ∅ := Finset.ne_empty_of_mem hj
    rw [if_pos (by omega)]
    simp [hne]

/-- When every backend is given its weight, all weights that wrap are counted. -/
theorem wrapsGiven_eq_card
    (hothers : ∀ i, 0 < i → i < config.backends.length → (stat lb i).isHealthy = true) :
    wrapsGiven config lb = (overflowing config lb).card := by
  rw [wrapsGiven, overflowing, Finset.card_filter, Nat.cast_sum]
  apply Finset.sum_congr rfl
  intro i hi
  have hgiven : i = 0 ∨ (stat lb i).isHealthy = true := by
    by_cases hzero : i = 0
    · exact .inl hzero
    · exact .inr (hothers i (by omega) (Finset.mem_range.mp hi))
  simp [hgiven]

/-- What a call that returns a backend adds to the sum. -/
theorem weightSum_returned (hw : Weighted config)
    (hlen : lb.stats.length = config.backends.length)
    (hint : ∀ i < config.backends.length, IsInt (stat lb i).currentWeight) {b : ℕ}
    (hb : b < config.backends.length) (hgiven : b = 0 ∨ (stat lb b).isHealthy = true)
    (hhealthy : (stat lb b).isHealthy = true) :
    weightSum (settleWeights config lb b) =
      weightSum lb + (weightGiven config lb - config.totalWeight) - 2 ^ 32 *
        (wrapsGiven config lb -
          if creditedWeight config lb b - config.totalWeight < -2 ^ 31 then 1 else 0) := by
  have hgrown : grownWeight config lb b = creditedWeight config lb b := if_pos hgiven
  have htotal : 0 < config.totalWeight := (weight_pos hw hb).trans_le (weight_le_total hw hb)
  have hpay := @toInt_sub (creditedWeight config lb b) _ (isInt_toInt _) htotal hw.range
  rw [weightSum_settleWeights hlen hb, hgrown, hhealthy, if_pos rfl, ← sub_eq_add_neg, hpay,
    sum_grownWeight hw hlen hint]
  ring

/-- A call that returns a backend keeps the sum if the weights given are the total, and as many
of them wrap as the total does. -/
theorem weightSum_of_healthy (hw : Weighted config)
    (hlen : lb.stats.length = config.backends.length)
    (hint : ∀ i < config.backends.length, IsInt (stat lb i).currentWeight)
    (hhealthy : (stat lb (candidate lb (creditedWeight config lb)
      config.backends.length)).isHealthy = true) :
    weightSum (settleWeights config lb
        (candidate lb (creditedWeight config lb) config.backends.length)) = weightSum lb ↔
      WrapsBalance config lb ∧
        ∀ i, 0 < i → i < config.backends.length → (stat lb i).isHealthy = true := by
  have hb := candidate_lt lb (creditedWeight config lb) (List.length_pos_iff.mpr hw.nonempty)
  have hmin (i : ℕ) := @candidate_le_key lb (creditedWeight config lb) config.backends.length i
  generalize candidate lb (creditedWeight config lb) config.backends.length = b at *
  have hchange := weightSum_returned hw hlen hint hb (.inr hhealthy) hhealthy
  have hsplit : weightSum (settleWeights config lb b) = weightSum lb ↔
      wrapsGiven config lb =
        (if creditedWeight config lb b - config.totalWeight < -2 ^ 31 then 1 else 0) ∧
      weightGiven config lb = config.totalWeight := by
    have hpos := @weightGiven_pos config lb hw
    have hle := @weightGiven_le config lb hw
    have hrange := hw.range
    rw [hchange]
    omega
  rw [hsplit, weightGiven_eq_total hw]
  apply and_congr_left
  intro hothers
  rw [wrapsGiven_eq_card hothers, wrapsBalance_iff hw hint hb]
  intro i hi
  apply hmin i hi
  by_cases hzero : i = 0
  · exact .inl hzero
  · exact .inr (hothers i (by omega) hi)

/-- A call that returns no backend takes back the weight of the first one, and of no other. -/
theorem weights_kept_iff (hw : Weighted config) (hlen : lb.stats.length = config.backends.length)
    (hint : ∀ i < config.backends.length, IsInt (stat lb i).currentWeight)
    (hdown : (stat lb 0).isHealthy = false) :
    (∀ i < config.backends.length,
      (stat (settleWeights config lb 0) i).currentWeight = (stat lb i).currentWeight) ↔
      ∀ i < config.backends.length, (stat lb i).isHealthy = false := by
  constructor
  · intro h i hi
    rw [Bool.eq_false_iff]
    intro hhealthy
    have hne : ¬ 0 = i := by
      rintro rfl
      simp [hdown] at hhealthy
    have hkept := h i hi
    have hpos := weight_pos hw hi
    have hrange := (weight_le_total hw hi).trans_lt hw.range
    rw [settleWeights_currentWeight hlen 0 hi, if_neg hne, grownWeight, if_pos (.inr hhealthy),
      creditedWeight, toInt_add (hint i hi) hpos hrange] at hkept
    split at hkept <;> omega
  · intro h i hi
    rw [settleWeights_currentWeight hlen 0 hi]
    by_cases hzero : 0 = i
    · subst hzero
      rw [if_pos rfl, hdown, grownWeight, if_pos (.inl rfl), creditedWeight, toInt_toInt_add]
      simpa [toInt_eq_self_iff] using hint 0 hi
    · rw [if_neg hzero, grownWeight, if_neg]
      simp [h i hi, Ne.symm hzero]

/-- A call conserves the weights exactly if their sum is the same, and each of them if it returns
none. -/
theorem conserved_of_call (hlen : lb.stats.length = config.backends.length) {b : ℕ}
    (hcall : getNextBackend config lb =
      .ok (if (stat lb b).isHealthy then some ⟨b, b⟩ else none, settleWeights config lb b)) :
    Conserved config lb ↔ weightSum (settleWeights config lb b) = weightSum lb ∧
      ((stat lb b).isHealthy = false → ∀ i < config.backends.length,
        (stat (settleWeights config lb b) i).currentWeight = (stat lb i).currentWeight) := by
  rw [Conserved, hcall, hlen]
  constructor
  · rintro ⟨answer, lb', hanswer, hsum, hkept⟩
    cases hanswer
    refine ⟨hsum, fun hdown => hkept ?_⟩
    rw [hdown]
    rfl
  · rintro ⟨hsum, hkept⟩
    refine ⟨_, _, rfl, hsum, ?_⟩
    intro hnone
    apply hkept
    by_contra hup
    simp [hup] at hnone

/-- The sum depends on the current weights only. -/
theorem weightSum_congr {lb' : ShmLoadBalancer} (hlen : lb'.stats.length = lb.stats.length)
    (h : ∀ i < lb.stats.length, (stat lb' i).currentWeight = (stat lb i).currentWeight) :
    weightSum lb' = weightSum lb := by
  rw [weightSum, hlen]
  exact Finset.sum_congr rfl fun i hi => h i (Finset.mem_range.mp hi)

/-- **A call keeps the sum of the current weights, and every one of them when it returns no
backend, if and only if all backends are unhealthy, or one is returned while all others behind the
first are healthy and the wraps of the `int`s balance.** -/
theorem conserved_iff_balances (hw : Weighted config)
    (hlen : lb.stats.length = config.backends.length)
    (hint : ∀ i < config.backends.length, IsInt (stat lb i).currentWeight) :
    Conserved config lb ↔ Balances config lb := by
  have hb := candidate_lt lb (creditedWeight config lb) (List.length_pos_iff.mpr hw.nonempty)
  have hzero := candidate_healthy lb (creditedWeight config lb) config.backends.length
  have hfinds : FindsHealthy config lb ↔ (stat lb
      (candidate lb (creditedWeight config lb) config.backends.length)).isHealthy = true := by
    rw [findsHealthy_iff, settled, hw.algorithm]
    simp
  have hsum := weightSum_of_healthy hw hlen hint
  rw [conserved_of_call hlen (getNextBackend_weighted hw hlen), Balances, hfinds]
  generalize candidate lb (creditedWeight config lb) config.backends.length = b at *
  cases hhealthy : (stat lb b).isHealthy with
  | true =>
    have hup : ¬ ∀ i < config.backends.length, (stat lb i).isHealthy = false := by
      intro hdown
      simp [hdown b hb] at hhealthy
    simp [hsum hhealthy, hup]
  | false =>
    obtain rfl : b = 0 := hzero.resolve_right (by simp [hhealthy])
    have hkept := weights_kept_iff hw hlen hint hhealthy
    have hsame : (∀ i < config.backends.length, (stat (settleWeights config lb 0) i).currentWeight =
        (stat lb i).currentWeight) → weightSum (settleWeights config lb 0) = weightSum lb := by
      intro h
      apply weightSum_congr (by rw [settleWeights_length hlen, hlen])
      rw [hlen]
      exact h
    rw [hkept] at hsame
    simpa [hkept] using hsame

/-! ## Two backends -/

/-- The configuration of two backends is weighted. -/
theorem weighted_twoBackends : Weighted (twoBackends .weightedRoundRobin) :=
  ⟨rfl, rfl, by decide, by decide, by decide, by decide⟩

/-- A call that finds both backends healthy conserves their weights. -/
theorem conserved_iff_balances_twoBackends :
    Conserved (twoBackends .weightedRoundRobin) { stats := [{}, {}] } := by
  rw [conserved_iff_balances weighted_twoBackends rfl (by unfold IsInt; decide)]
  refine .inr ⟨.inl (by decide), .inr ⟨by decide, by decide⟩, ?_⟩
  intro i hpos hi
  have hone : i = 1 := by
    have : i < 2 := hi
    omega
  subst hone
  rfl

/-- While the first backend is down, the second keeps the weight it was given though no backend
is returned. -/
theorem not_conserved_firstDown : ¬ Conserved (twoBackends .weightedRoundRobin) firstDown := by
  rintro ⟨answer, lb', hcall, -, hkept⟩
  have hanswer : (getNextBackend (twoBackends .weightedRoundRobin) firstDown).map
      (fun r => (r.1, (stat r.2 1).currentWeight)) = .ok (none, 1) := by decide
  rw [hcall] at hanswer
  obtain ⟨rfl, hone⟩ := Prod.mk.inj (Except.ok.inj hanswer)
  have hzero := hkept rfl 1 (by decide)
  rw [hone] at hzero
  revert hzero
  decide

/-- While the second backend is down, the first pays for both. -/
theorem not_conserved_secondDown :
    ¬ Conserved (twoBackends .weightedRoundRobin) { stats := [{}, { isHealthy := false }] } := by
  rintro ⟨answer, lb', hcall, hsum, -⟩
  have hanswer : (getNextBackend (twoBackends .weightedRoundRobin)
      { stats := [{}, { isHealthy := false }] }).map (fun r => weightSum r.2) = .ok (-1) := by
    decide
  rw [hcall] at hanswer
  have hone : weightSum lb' = -1 := Except.ok.inj hanswer
  rw [hone] at hsum
  revert hsum
  decide

/-- Neither a call that returns no backend nor one that returns a backend need conserve the
weights. -/
theorem not_conserved_oneDown :
    (¬ ∀ config lb, Weighted config → lb.stats.length = config.backends.length →
      (∀ i < config.backends.length, IsInt (stat lb i).currentWeight) → Conserved config lb) ∧
    ¬ ∀ config lb, Weighted config → lb.stats.length = config.backends.length →
      (∀ i < config.backends.length, IsInt (stat lb i).currentWeight) →
      FindsHealthy config lb → Conserved config lb := by
  refine ⟨?_, ?_⟩
  · intro hall
    exact not_conserved_firstDown (hall _ firstDown weighted_twoBackends rfl
      (by unfold IsInt; decide))
  · intro hall
    exact not_conserved_secondDown (hall _ _ weighted_twoBackends rfl (by unfold IsInt; decide)
      (.inl rfl))

end PkuyoProxy.Analysis
