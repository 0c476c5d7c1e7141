import Mathlib.Data.Nat.ModEq
import PkuyoProxy.Analysis.BackendChoice
import PkuyoProxy.Lib.StoreCount
import PkuyoProxy.Model.InterleavedCalls

/-!
# Round robin under interleaving

A call takes the backend's configuration, its statistic and the next position from three loads
of the shared index.  What it returns is of one backend, and its advance counts, exactly as long
as the index still is what the call loaded when it takes the statistic and when it stores
(`inStep_iff_unmoved`); the index stays in range in any case.
-/

set_option autoImplicit false

namespace PkuyoProxy.Analysis

open PkuyoProxy.Lib PkuyoProxy.Model

variable {config : LoadBalancerConfig} {s s' : InterleavedCalls} {worker : ℕ}

/-! ## One access -/

/-- The indices a call has loaded are those of backends. -/
def LoadedWithin (n : ℕ) : RoundRobinCall → Prop
  | .config i => i < n
  | .backend b | .stored b => b.stat < n
  | .advance b i => b.stat < n ∧ i < n

/-- The index is that of a backend, and so is what the calls in progress have loaded. -/
structure InRange (config : LoadBalancerConfig) (s : InterleavedCalls) : Prop where
  sized : WellSized config s.lb
  index : s.lb.currentIndex < config.backends.length
  calls : ∀ w c, s.calls w = some c → LoadedWithin config.backends.length c

/-- What one access of a worker does. -/
inductive AccessMove (config : LoadBalancerConfig) (s : InterleavedCalls) (worker : ℕ) :
    InterleavedCalls → Prop
  | loadConfig (h : s.calls worker = none) :
      AccessMove config s worker (s.setCall worker (some (.config s.lb.currentIndex)))
  | loadStat (i : ℕ) (h : s.calls worker = some (.config i)) :
      AccessMove config s worker (s.setCall worker (some (.backend ⟨i, s.lb.currentIndex⟩)))
  | loadNext (b : BackServer) (h : s.calls worker = some (.backend b)) :
      AccessMove config s worker (s.setCall worker (some (.advance b s.lb.currentIndex)))
  | store (b : BackServer) (i : ℕ) (h : s.calls worker = some (.advance b i)) :
      AccessMove config s worker
        (InterleavedCalls.setCall
          { s with lb := { s.lb with currentIndex := (i + 1) % config.backends.length } } worker
          (some (.stored b)))
  | answer (b : BackServer) (h : s.calls worker = some (.stored b)) :
      AccessMove config s worker
        (InterleavedCalls.setCall
          { s with
            returned := s.returned ++ [if (stat s.lb b.stat).isHealthy then some b else none] }
          worker none)

/-- In range every access is one of the moves. -/
theorem access_move (h : InRange config s) (worker : ℕ) :
    ∃ s', s.access config worker = .ok s' ∧ AccessMove config s worker s' := by
  have hstat {i : ℕ} (hi : i < config.backends.length) :
      elementAt s.lb.stats i = .ok (stat s.lb i) := elementAt_stats (hi.trans_eq h.sized.stats.symm)
  unfold InterleavedCalls.access
  cases hcall : s.calls worker with
  | none =>
    obtain ⟨b, hb, -⟩ := exists_elementAt_backends h.index
    rw [hb]
    exact ⟨_, rfl, .loadConfig hcall⟩
  | some c =>
    have hc := h.calls worker c hcall
    cases c with
    | config i =>
      simp only [hstat h.index]
      exact ⟨_, rfl, .loadStat i hcall⟩
    | backend b => exact ⟨_, rfl, .loadNext b hcall⟩
    | advance b i =>
      have hpos : config.backends.length ≠ 0 := h.sized.nonempty.ne'
      simp only [h.sized.count, if_neg hpos]
      exact ⟨_, rfl, .store b i hcall⟩
    | stored b =>
      simp only [hstat (show b.stat < _ from hc)]
      exact ⟨_, rfl, .answer b hcall⟩

/-- What holds of the calls in progress and of the one that is set. -/
theorem forall_setCall {P : RoundRobinCall → Prop} {call : Option RoundRobinCall}
    (h : ∀ w c, s.calls w = some c → P c) (hcall : ∀ c, call = some c → P c) :
    ∀ w c, (s.setCall worker call).calls w = some c → P c := by
  intro w c hc
  by_cases hw : w = worker
  · rw [hw, s.setCall_self] at hc
    exact hcall c hc
  · rw [s.setCall_ne hw] at hc
    exact h w c hc

/-- A move keeps what was loaded in range. -/
theorem AccessMove.inRange (hmove : AccessMove config s worker s') (h : InRange config s) :
    InRange config s' := by
  cases hmove with
  | loadConfig hcall =>
    refine ⟨h.sized, h.index, forall_setCall h.calls ?_⟩
    rintro c ⟨⟩
    exact h.index
  | loadStat i hcall =>
    refine ⟨h.sized, h.index, forall_setCall h.calls ?_⟩
    rintro c ⟨⟩
    exact h.index
  | loadNext b hcall =>
    refine ⟨h.sized, h.index, forall_setCall h.calls ?_⟩
    rintro c ⟨⟩
    exact ⟨h.calls worker _ hcall, h.index⟩
  | store b i hcall =>
    refine ⟨⟨h.sized.stats, h.sized.count, h.sized.nonempty⟩, ?_, forall_setCall h.calls ?_⟩
    · exact Nat.mod_lt _ h.sized.nonempty
    · rintro c ⟨⟩
      exact (h.calls worker _ hcall).1
  | answer b hcall =>
    refine ⟨h.sized, h.index, forall_setCall h.calls ?_⟩
    rintro c ⟨⟩

/-- The health flags have no part in the index and the calls. -/
theorem InRange.setFlags (h : InRange config s) (healthy : ℕ → Bool) :
    InRange config { s with
      lb := { s.lb with
        stats := s.lb.stats.mapIdx fun i t => { t with isHealthy := healthy i } } } := by
  refine ⟨⟨?_, h.sized.count, h.sized.nonempty⟩, h.index, h.calls⟩
  simpa using h.sized.stats

/-- No access fails, whatever the others do. -/
theorem accessStep_inRange (h : InRange config s) (input : AccessInput) :
    ∃ s', accessStep config s input = .ok s' ∧ InRange config s' := by
  cases input with
  | access worker =>
    obtain ⟨s', hs', hmove⟩ := access_move h worker
    exact ⟨s', hs', hmove.inRange h⟩
  | flags healthy => exact ⟨_, rfl, h.setFlags healthy⟩

/-- A call that nobody interrupts is a call of `roundRobin`. -/
theorem access_alone (h : s.calls worker = none) :
    runSteps (accessStep config) s (List.replicate 5 (.access worker)) =
      (roundRobin config s.lb).map fun (answer, lb) =>
        { s with lb, returned := s.returned ++ [answer] } := by
  unfold roundRobin runSteps
  simp only [List.replicate, List.foldlM_cons, List.foldlM_nil, accessStep]
  cases hconfig : elementAt config.backends s.lb.currentIndex with
  | error e => simp [InterleavedCalls.access, h, hconfig, bind, Except.bind, Except.map]
  | ok b =>
    cases hstat : elementAt s.lb.stats s.lb.currentIndex with
    | error e =>
      simp [InterleavedCalls.access, h, hconfig, hstat, bind, Except.bind, pure, Except.pure,
        Except.map]
    | ok t =>
      by_cases hcount : config.backendCount = 0
      · simp [InterleavedCalls.access, h, hconfig, hstat, hcount, bind, Except.bind, pure,
          Except.pure, Except.map]
      · have hcalls : Function.update s.calls worker none = s.calls := by
          rw [← h, Function.update_eq_self]
        simp [InterleavedCalls.access, InterleavedCalls.setCall, h, hconfig, hstat, hcount, hcalls,
          bind, Except.bind, pure, Except.pure, Except.map]

/-! ## Advances -/

/-- The call has stored the index and still has to return. -/
def HasStored (_ : ℕ) (c : RoundRobinCall) : Prop := ∃ b, c = .stored b

/-- The number of stores to the index. -/
noncomputable def advances (s : InterleavedCalls) : ℕ :=
  s.returned.length + (holding s.calls HasStored).ncard

/-- The configuration and the statistic a call has taken are of the same backend. -/
def OneBackend : RoundRobinCall → Prop
  | .config _ => True
  | .backend b | .advance b _ | .stored b => b.config = b.stat

/-- Whatever was taken is of one backend, and the index went on by one with every store. -/
structure InStep (config : LoadBalancerConfig) (start : ℕ) (s : InterleavedCalls) : Prop where
  returned : ∀ b, some b ∈ s.returned → b.config = b.stat
  calls : ∀ w c, s.calls w = some c → OneBackend c
  index : s.lb.currentIndex = (start + advances s) % config.backends.length

/-- What is returned is of one backend, the index is in range, and when no call is in progress
it went on by one with every call that was completed. -/
structure RoundRobinLaw (config : LoadBalancerConfig) (start : ℕ) (s : InterleavedCalls) :
    Prop where
  returned : ∀ b, some b ∈ s.returned → b.config = b.stat
  inRange : s.lb.currentIndex < config.backends.length
  advanced : (∀ w, s.calls w = none) →
    s.lb.currentIndex = (start + s.returned.length) % config.backends.length

/-- The index is what the call has loaded, when it takes the statistic and when it stores. -/
def Unmoved (s : InterleavedCalls) : AccessInput → Prop
  | .access worker => ∀ c, s.calls worker = some c →
      match c with
      | .config i | .advance _ i => s.lb.currentIndex = i
      | _ => True
  | .flags _ => True

/-- The calls are in range and in step, and finitely many of them have stored the index. -/
structure CallsInv (config : LoadBalancerConfig) (start : ℕ) (s : InterleavedCalls) : Prop where
  inRange : InRange config s
  inStep : InStep config start s
  finite : (holding s.calls HasStored).Finite

/-- A call that has not stored the index is none of those that have. -/
theorem not_hasStored {c : RoundRobinCall} (hcall : s.calls worker = some c)
    (hc : ∀ b, c ≠ .stored b) : worker ∉ holding s.calls HasStored := by
  rintro ⟨c', hc', b, hb⟩
  rw [hcall] at hc'
  cases hc'
  exact hc b hb

/-- A load is no store. -/
theorem holding_setCall {c : RoundRobinCall} (hworker : worker ∉ holding s.calls HasStored)
    (hc : ∀ b, c ≠ .stored b) :
    holding (s.setCall worker (some c)).calls HasStored = holding s.calls HasStored :=
  holding_put_not hworker fun ⟨b, hb⟩ => hc b hb

/-- A load keeps the invariant. -/
theorem CallsInv.load {start : ℕ} (h : CallsInv config start s) {c : RoundRobinCall}
    (hworker : worker ∉ holding s.calls HasStored) (hc : ∀ b, c ≠ .stored b) (hone : OneBackend c)
    (hrange : InRange config (s.setCall worker (some c))) :
    CallsInv config start (s.setCall worker (some c)) := by
  have hholding := holding_setCall hworker hc
  refine ⟨hrange, ⟨h.inStep.returned, forall_setCall h.inStep.calls ?_, ?_⟩, ?_⟩
  · rintro c ⟨⟩
    exact hone
  · rw [advances, hholding]
    exact h.inStep.index
  · rw [hholding]
    exact h.finite

/-- The number of stores behind one more. -/
theorem advances_store {start b i} (h : CallsInv config start s)
    (hcall : s.calls worker = some (.advance b i)) (index : ℕ) :
    advances (InterleavedCalls.setCall { s with lb := { s.lb with currentIndex := index } } worker
      (some (.stored b))) = advances s + 1 := by
  have hworker := not_hasStored hcall fun b' => by simp
  show s.returned.length + (holding (Function.update s.calls worker _) HasStored).ncard = _
  rw [holding_put hworker ⟨b, rfl⟩, Set.ncard_insert_of_notMem hworker h.finite, advances]
  omega

/-- A move of a worker that finds the index unmoved keeps the invariant. -/
theorem CallsInv.keeps {start : ℕ} (h : CallsInv config start s)
    (hmove : AccessMove config s worker s') (hunmoved : Unmoved s (.access worker)) :
    CallsInv config start s' := by
  have hrange := hmove.inRange h.inRange
  cases hmove with
  | loadConfig hcall => exact h.load (not_mem_holding hcall) (fun b => by simp) trivial hrange
  | loadStat i hcall =>
    exact h.load (not_hasStored hcall fun b => by simp) (fun b => by simp)
      (hunmoved _ hcall).symm hrange
  | loadNext b hcall =>
    have hone : OneBackend (.backend b) := h.inStep.calls worker _ hcall
    exact h.load (not_hasStored hcall fun b => by simp) (fun b => by simp) hone hrange
  | store b i hcall =>
    have hone : OneBackend (.advance b i) := h.inStep.calls worker _ hcall
    have hindex : s.lb.currentIndex = i := hunmoved _ hcall
    have hworker := not_hasStored hcall fun b' => by simp
    refine ⟨hrange, ⟨h.inStep.returned, forall_setCall h.inStep.calls ?_, ?_⟩, ?_⟩
    · rintro c ⟨⟩
      exact hone
    · rw [advances_store h hcall]
      show (i + 1) % _ = _
      rw [← hindex, h.inStep.index, Nat.mod_add_mod, Nat.add_assoc]
    · show (holding (Function.update s.calls worker _) HasStored).Finite
      rw [holding_put hworker ⟨b, rfl⟩]
      exact h.finite.insert worker
  | answer b hcall =>
    have hone : OneBackend (.stored b) := h.inStep.calls worker _ hcall
    have hworker : worker ∈ holding s.calls HasStored := ⟨_, hcall, b, rfl⟩
    refine ⟨hrange, ⟨?_, forall_setCall h.inStep.calls ?_, ?_⟩, ?_⟩
    · intro b' hb'
      rcases List.mem_append.mp hb' with hold | hnew
      · exact h.inStep.returned b' hold
      · have hb : b' = b := by
          revert hnew
          split <;> simp
        rw [hb]
        exact hone
    · rintro c ⟨⟩
    · have hcard := Set.ncard_sdiff_singleton_add_one hworker h.finite
      have hsame : advances (InterleavedCalls.setCall
          { s with returned := s.returned ++
            [if (stat s.lb b.stat).isHealthy then some b else none] } worker none) =
          advances s := by
        show (s.returned ++ _).length +
          (holding (Function.update s.calls worker none) HasStored).ncard = _
        rw [holding_remove, List.length_append, List.length_singleton, advances]
        omega
      rw [hsame]
      exact h.inStep.index
    · show (holding (Function.update s.calls worker none) HasStored).Finite
      rw [holding_remove]
      exact h.finite.subset Set.sdiff_subset

/-- The statistic of another backend is taken, or the index is stored over another advance. -/
theorem CallsInv.breaks {start : ℕ} (h : CallsInv config start s)
    (hmove : AccessMove config s worker s') (hmoved : ¬ Unmoved s (.access worker)) :
    ¬ InStep config start s' := by
  intro hafter
  apply hmoved
  intro c hc
  cases hmove with
  | loadConfig hcall =>
    rw [hcall] at hc
    cases hc
  | loadStat i hcall =>
    rw [hcall] at hc
    cases hc
    exact (hafter.calls worker _ (s.setCall_self _ _)).symm
  | loadNext b hcall =>
    rw [hcall] at hc
    cases hc
    trivial
  | store b i hcall =>
    rw [hcall] at hc
    cases hc
    have hstored : (i + 1) % config.backends.length =
        (start + advances (InterleavedCalls.setCall _ worker (some (.stored b)))) %
          config.backends.length := hafter.index
    have hindex : (s.lb.currentIndex + 1) % config.backends.length =
        (start + advances s + 1) % config.backends.length := by
      rw [h.inStep.index, Nat.mod_add_mod]
    rw [advances_store h hcall, ← Nat.add_assoc, ← hindex] at hstored
    have hmod : i ≡ s.lb.currentIndex [MOD config.backends.length] :=
      Nat.ModEq.add_right_cancel' 1 hstored
    have hi : i < config.backends.length := (h.inRange.calls worker _ hcall).2
    exact (hmod.eq_of_lt_of_lt hi h.inRange.index).symm
  | answer b hcall =>
    rw [hcall] at hc
    cases hc
    trivial

/-! ## Runs -/

/-- A step that finds the index unmoved keeps the invariant. -/
theorem accessStep_keeps {start : ℕ} (h : CallsInv config start s) {input : AccessInput}
    (hunmoved : Unmoved s input) :
    ∃ s', accessStep config s input = .ok s' ∧ CallsInv config start s' := by
  cases input with
  | access worker =>
    obtain ⟨s', hs', hmove⟩ := access_move h.inRange worker
    exact ⟨s', hs', h.keeps hmove hunmoved⟩
  | flags healthy =>
    refine ⟨_, rfl, h.inRange.setFlags healthy, ?_, h.finite⟩
    exact ⟨h.inStep.returned, h.inStep.calls, h.inStep.index⟩

/-- Behind a step that does not, the calls are not in step. -/
theorem accessStep_breaks {start : ℕ} (h : CallsInv config start s) {input : AccessInput}
    (hmoved : ¬ Unmoved s input) (hs' : accessStep config s input = .ok s') :
    ¬ InStep config start s' := by
  cases input with
  | access worker =>
    obtain ⟨s₁, hs₁, hmove⟩ := access_move h.inRange worker
    obtain rfl : s₁ = s' := Except.ok.inj (hs₁.symm.trans hs')
    exact h.breaks hmove hmoved
  | flags healthy => exact absurd trivial hmoved

/-- What the invariant says of the calls in progress gives the law when there are none. -/
theorem CallsInv.law {start : ℕ} (h : CallsInv config start s) : RoundRobinLaw config start s := by
  refine ⟨h.inStep.returned, h.inRange.index, fun hidle => ?_⟩
  have hnone : holding s.calls HasStored = ∅ := by
    ext w
    simp [holding, hidle w]
  have hadvances : advances s = s.returned.length := by
    rw [advances, hnone, Set.ncard_empty, Nat.add_zero]
  rw [← hadvances]
  exact h.inStep.index

/-- Without calls in progress the index is in range. -/
theorem inRange_idle {lb : ShmLoadBalancer} (h : WellSized config lb)
    (hindex : lb.currentIndex < config.backends.length) : InRange config { lb } := by
  refine ⟨h, hindex, ?_⟩
  rintro w c ⟨⟩

/-- The invariant holds without calls in progress. -/
theorem callsInv_idle {lb : ShmLoadBalancer} (h : WellSized config lb)
    (hindex : lb.currentIndex < config.backends.length) :
    CallsInv config lb.currentIndex { lb } := by
  have hnone : holding (fun _ : ℕ => (none : Option RoundRobinCall)) HasStored = ∅ := by
    ext w
    simp [holding]
  refine ⟨inRange_idle h hindex, ⟨by simp, ?_, ?_⟩, ?_⟩
  · rintro w c ⟨⟩
  · rw [advances, hnone, Set.ncard_empty]
    exact (Nat.mod_eq_of_lt hindex).symm
  · rw [hnone]
    exact Set.finite_empty

/-- **Calls that are interleaved take what is of one backend and advance the index one by one**
exactly when the index is unmoved at every second load and every store.  Then the law holds in
every state, and the index is in range in every state of any run. -/
theorem inStep_iff_unmoved (lb : ShmLoadBalancer) (h : WellSized config lb)
    (hindex : lb.currentIndex < config.backends.length) (inputs : List AccessInput) :
    (EveryState (accessStep config) (InStep config lb.currentIndex) { lb } inputs ↔
        EveryStep (accessStep config) Unmoved { lb } inputs) ∧
      (EveryStep (accessStep config) Unmoved { lb } inputs →
        EveryState (accessStep config) (RoundRobinLaw config lb.currentIndex) { lb } inputs) ∧
      EveryState (accessStep config) (InRange config) { lb } inputs := by
  have hinv := callsInv_idle h hindex
  refine ⟨?_, fun hunmoved pre hpre => ?_, ?_⟩
  · exact everyState_iff (fun s hs => hs.inStep)
      (fun s i hs _ hunmoved => accessStep_keeps hs hunmoved)
      (fun s i s' hs _ hmoved hs' => accessStep_breaks hs hmoved hs') hinv
      (fun _ _ _ _ _ => trivial)
  · have hkeeps := hunmoved.succeeds (fun s i hs hu => accessStep_keeps hs hu) hinv
    obtain ⟨s, hrun, hs⟩ := hkeeps pre hpre
    exact ⟨s, hrun, hs.law⟩
  · have hall : EveryStep (accessStep config) (fun _ _ => True) { lb } inputs :=
      fun _ _ _ _ _ => trivial
    exact hall.succeeds (fun s i hs _ => accessStep_inRange hs i) (inRange_idle h hindex)

/-- The accesses of whole calls of two workers, one behind the other. -/
def oneByOne : List AccessInput :=
  List.replicate 5 (.access 0) ++ List.replicate 5 (.access 1)

/-- The equivalence and the law for two whole calls, one behind the other. -/
theorem inStep_iff_unmoved_oneByOne :
    (EveryState (accessStep (twoBackends .roundRobin))
          (InStep (twoBackends .roundRobin) 0) { lb := firstDown } oneByOne ↔
        EveryStep (accessStep (twoBackends .roundRobin)) Unmoved { lb := firstDown } oneByOne) ∧
      (EveryStep (accessStep (twoBackends .roundRobin)) Unmoved { lb := firstDown } oneByOne →
        EveryState (accessStep (twoBackends .roundRobin))
          (RoundRobinLaw (twoBackends .roundRobin) 0) { lb := firstDown } oneByOne) ∧
      EveryState (accessStep (twoBackends .roundRobin)) (InRange (twoBackends .roundRobin))
        { lb := firstDown } oneByOne :=
  inStep_iff_unmoved firstDown (wellSized_twoBackends _) (by decide) oneByOne

/-- One worker's call lies between two accesses of another worker's: behind the first load the
other gets the statistic of another backend, behind the third its store undoes the advance. -/
theorem interleaved_not_law :
    (¬ ∀ config lb inputs, WellSized config lb → lb.currentIndex < config.backends.length →
      EveryState (accessStep config) (fun s => ∀ b, some b ∈ s.returned → b.config = b.stat)
        { lb } inputs) ∧
    (¬ ∀ config lb inputs, WellSized config lb → lb.currentIndex < config.backends.length →
      EveryState (accessStep config) (fun s => (∀ w, s.calls w = none) → s.lb.currentIndex =
        (lb.currentIndex + s.returned.length) % config.backends.length) { lb } inputs) := by
  refine ⟨fun hall => ?_, fun hall => ?_⟩
  · obtain ⟨s, hrun, hs⟩ := hall (twoBackends .roundRobin) { stats := [{}, {}] }
      ([.access 0] ++ List.replicate 5 (.access 1) ++ List.replicate 4 (.access 0))
      ⟨rfl, rfl, by decide⟩ (by decide) _ List.prefix_rfl
    cases hrun
    exact absurd (hs ⟨0, 1⟩ (by decide)) (by decide)
  · obtain ⟨s, hrun, hs⟩ := hall (twoBackends .roundRobin) { stats := [{}, {}] }
      (List.replicate 3 (.access 0) ++ List.replicate 5 (.access 1) ++
        List.replicate 2 (.access 0))
      ⟨rfl, rfl, by decide⟩ (by decide) _ List.prefix_rfl
    cases hrun
    refine absurd (hs fun w => ?_) (by decide)
    by_cases h : w = 0
    · subst h
      rfl
    · by_cases h' : w = 1
      · subst h'
        rfl
      · simp [InterleavedCalls.setCall, h, h']

end PkuyoProxy.Analysis
