import PkuyoProxy.Analysis.ConnectionCounts
import PkuyoProxy.Model.SharedRegion

/-!
# Generations that share a region

A region belongs to a server name, not to the generation that starts: a start initialises the
region its predecessors use, and stores a pointer into its own mapping there.  So generations do
not disturb each other exactly as long as none starts, forks or checks the backends while the
region of its name is in use by another (`undisturbed_iff_separated`).
-/

set_option autoImplicit false

namespace PkuyoProxy.Analysis

open PkuyoProxy.Lib PkuyoProxy.Model

/-- `stats` points to the statistics in the mapping of the generation, and no process of another
one wrote the region last. -/
structure OwnBalancer (i : ℕ) (g : Generation) (r : SharedRegion) : Prop where
  stats : r.stats = g.statsMem
  inside : r.stats + statSize * r.lb.stats.length = g.rawMem + g.memLength
  writer : r.writer = i

/-- Every live worker has the balancer of its generation. -/
def Undisturbed (d : Daemon) : Prop :=
  ∀ (i : ℕ) (g : Generation), d.generations[i]? = some g → 0 < g.workers →
    ∃ r, d.regions g.config.serverName = some r ∧ OwnBalancer i g r

/-- The region of a name is not in use where a generation starts, is still that of the generation
where a worker is forked, and has no workers of another where a master checks the backends. -/
def Separated (d : Daemon) : DaemonInput → Prop
  | .start config _ => ∀ (i : ℕ) (g : Generation), d.generations[i]? = some g →
      g.config.serverName = config.serverName → g.workers = 0
  | .fork i => ∀ g : Generation, d.generations[i]? = some g →
      ∃ r, d.regions g.config.serverName = some r ∧ r.writer = i
  | .masterRound i _ => ∀ g : Generation, d.generations[i]? = some g →
      g.config.checkHealthTime ≠ -1 → g.config.loadBalancer.backends ≠ [] →
      ∀ (i' : ℕ) (g' : Generation), d.generations[i']? = some g' →
      g'.config.serverName = g.config.serverName → 0 < g'.workers → i' = i
  | _ => True

/-- A generation that still forks workers and wrote the region last has it as its own. -/
structure RegionInv (d : Daemon) : Prop where
  live : Undisturbed d
  starting : ∀ (i : ℕ) (g : Generation) (r : SharedRegion),
    d.generations[i]? = some g → 0 < g.unforked →
    d.regions g.config.serverName = some r → r.writer = i → OwnBalancer i g r

/-- A generation that is found is the one at the index. -/
theorem generation_eq_ok {d : Daemon} {i : ℕ} {g : Generation} (h : d.generation i = .ok g) :
    d.generations[i]? = some g := by
  unfold Daemon.generation at h
  split at h
  · cases h
    assumption
  · cases h

/-! ## Starting -/

section Starting

variable {d : Daemon} {config : ListenerConfig} {rawMem : ℕ}

/-- Behind a start a generation was there before, or is the new one. -/
theorem startListener_generations {i : ℕ} {g : Generation}
    (h : (d.startListener config rawMem).generations[i]? = some g) :
    d.generations[i]? = some g ∨ i = d.generations.length ∧
      g = ⟨config, rawMem, config.processCount.toNat, 0, true⟩ := by
  unfold Daemon.startListener at h
  dsimp only at h
  by_cases hi : i < d.generations.length
  · rw [List.getElem?_append_left hi] at h
    exact .inl h
  · rw [List.getElem?_append_right (Nat.le_of_not_lt hi)] at h
    obtain ⟨hlt, hg⟩ := List.getElem?_eq_some_iff.mp h
    have hi' : i = d.generations.length := by
      rw [List.length_singleton] at hlt
      omega
    exact .inr ⟨hi', by simpa using hg.symm⟩

/-- A generation that is there has an index in the range. -/
theorem lt_generations {i : ℕ} {g : Generation} (h : d.generations[i]? = some g) :
    i < d.generations.length := (List.getElem?_eq_some_iff.mp h).1

/-- The region of the new generation is its own. -/
theorem startListener_self :
    (d.startListener config rawMem).regions config.serverName =
      some ⟨initMmap config, rawMem + statsOffset, d.generations.length⟩ :=
  d.setRegion_self _ _

/-- The regions of other names stay. -/
theorem startListener_ne {name : Bytes} (h : name ≠ config.serverName) :
    (d.startListener config rawMem).regions name = d.regions name :=
  d.setRegion_ne h _

/-- The new generation has its own balancer. -/
theorem startListener_own :
    OwnBalancer d.generations.length ⟨config, rawMem, config.processCount.toNat, 0, true⟩
      ⟨initMmap config, rawMem + statsOffset, d.generations.length⟩ := by
  refine ⟨rfl, ?_, rfl⟩
  simp only [initMmap, List.length_replicate, Generation.memLength, statsOffset]
  omega

/-- A start under a name that is not in use keeps the invariant. -/
theorem startListener_keeps (h : RegionInv d) (hsep : Separated d (.start config rawMem)) :
    RegionInv (d.startListener config rawMem) := by
  refine ⟨fun i g hg hlive => ?_, fun i g r hg hunforked hr hwriter => ?_⟩
  · rcases startListener_generations hg with hold | ⟨-, rfl⟩
    · have hname : g.config.serverName ≠ config.serverName := fun heq => by
        have hnone := hsep i g hold heq
        omega
      rw [startListener_ne hname]
      exact h.live i g hold hlive
    · exact absurd hlive (lt_irrefl 0)
  · rcases startListener_generations hg with hold | ⟨rfl, rfl⟩
    · by_cases hname : g.config.serverName = config.serverName
      · rw [hname, startListener_self] at hr
        cases hr
        exact absurd hwriter (lt_generations hold).ne'
      · rw [startListener_ne hname] at hr
        exact h.starting i g r hold hunforked hr hwriter
    · rw [startListener_self] at hr
      cases hr
      exact startListener_own

/-- A start in front of a live worker of its name takes the region over. -/
theorem startListener_breaks (hsep : ¬ Separated d (.start config rawMem)) :
    ¬ Undisturbed (d.startListener config rawMem) := by
  unfold Separated at hsep
  push Not at hsep
  obtain ⟨i, g, hg, hname, hlive⟩ := hsep
  intro hall
  have hlt := lt_generations hg
  have hg' : (d.startListener config rawMem).generations[i]? = some g := by
    show (d.generations ++ _)[i]? = some g
    rw [List.getElem?_append_left hlt, hg]
  obtain ⟨r, hr, hown⟩ := hall i g hg' (Nat.pos_of_ne_zero hlive)
  rw [hname, startListener_self] at hr
  cases hr
  exact hlt.ne' hown.writer

end Starting

/-! ## Processes that come and go -/

/-- The workers of a generation may end at any time, and more are forked where the region is
its own. -/
theorem RegionInv.setGeneration {d : Daemon} (h : RegionInv d) {i : ℕ} {g g' : Generation}
    (hg : d.generations[i]? = some g) (hconfig : g'.config = g.config)
    (hrawMem : g'.rawMem = g.rawMem) (hunforked : g'.unforked ≤ g.unforked)
    (hworkers : 0 < g'.workers →
      ∃ r, d.regions g.config.serverName = some r ∧ OwnBalancer i g r) :
    RegionInv (d.setGeneration i g') := by
  have hown {r : SharedRegion} (hr : OwnBalancer i g r) : OwnBalancer i g' r := by
    refine ⟨?_, ?_, hr.writer⟩
    · rw [Generation.statsMem, hrawMem]
      exact hr.stats
    · rw [Generation.memLength, hrawMem, hconfig]
      exact hr.inside
  have hcases {j : ℕ} {x : Generation} (hx : (d.generations.set i g')[j]? = some x) :
      j = i ∧ x = g' ∨ d.generations[j]? = some x := by
    rw [List.getElem?_set] at hx
    by_cases hj : i = j
    · subst hj
      rw [if_pos rfl, if_pos (lt_generations hg)] at hx
      exact .inl ⟨rfl, (Option.some.inj hx).symm⟩
    · rw [if_neg hj] at hx
      exact .inr hx
  refine ⟨fun j x hx hlive => ?_, fun j x r hx hpending hr hwriter => ?_⟩
  · rcases hcases hx with ⟨rfl, rfl⟩ | hold
    · obtain ⟨r, hr, hbefore⟩ := hworkers hlive
      rw [hconfig]
      exact ⟨r, hr, hown hbefore⟩
    · exact h.live j x hold hlive
  · rcases hcases hx with ⟨rfl, rfl⟩ | hold
    · rw [hconfig] at hr
      exact hown (h.starting j g r hg (hpending.trans_le hunforked) hr hwriter)
    · exact h.starting j x r hold hpending hr hwriter

/-- Forking a worker of the generation that wrote the region last keeps the invariant. -/
theorem forkWorker_keeps {d d' : Daemon} {i : ℕ} (h : RegionInv d) (hsep : Separated d (.fork i))
    (hd' : d.forkWorker i = .ok d') : RegionInv d' := by
  obtain ⟨g, hg, hd'⟩ := bind_eq_ok_iff.mp hd'
  have hg := generation_eq_ok hg
  obtain ⟨r, hr, hwriter⟩ := hsep g hg
  split at hd'
  · cases hd'
  · rename_i hunforked
    cases hd'
    have hown := h.starting i g r hg (Nat.pos_of_ne_zero hunforked) hr hwriter
    exact h.setGeneration hg rfl rfl (Nat.sub_le _ _) fun _ => ⟨r, hr, hown⟩

/-- A worker that is forked finds what another generation wrote. -/
theorem forkWorker_breaks {d d' : Daemon} {i : ℕ} (hsep : ¬ Separated d (.fork i))
    (hd' : d.forkWorker i = .ok d') : ¬ Undisturbed d' := by
  obtain ⟨g, hg, hd'⟩ := bind_eq_ok_iff.mp hd'
  have hg := generation_eq_ok hg
  split at hd'
  · cases hd'
  · cases hd'
    intro hall
    apply hsep
    intro g₁ hg₁
    obtain rfl : g = g₁ := Option.some.inj (hg.symm.trans hg₁)
    obtain ⟨r, hr, hown⟩ := hall i _ (List.getElem?_set_self (lt_generations hg)) (Nat.succ_pos _)
    exact ⟨r, hr, hown.writer⟩

/-- The exit of a worker keeps the invariant. -/
theorem exitWorker_keeps {d d' : Daemon} {i : ℕ} (h : RegionInv d)
    (hd' : d.exitWorker i = .ok d') : RegionInv d' := by
  obtain ⟨g, hg, hd'⟩ := bind_eq_ok_iff.mp hd'
  have hg := generation_eq_ok hg
  split at hd'
  · cases hd'
  · rename_i hworkers
    cases hd'
    exact h.setGeneration hg rfl rfl le_rfl fun _ => h.live i g hg (Nat.pos_of_ne_zero hworkers)

/-- The exit of a master keeps the invariant. -/
theorem exitMaster_keeps {d d' : Daemon} {i : ℕ} (h : RegionInv d)
    (hd' : d.exitMaster i = .ok d') : RegionInv d' := by
  obtain ⟨g, hg, hd'⟩ := bind_eq_ok_iff.mp hd'
  have hg := generation_eq_ok hg
  cases hd'
  exact h.setGeneration hg rfl rfl (Nat.zero_le _) fun hworkers => h.live i g hg hworkers

/-! ## Using the region -/

/-- What a process stores goes to the region of its name, which it reads through its own
mapping. -/
theorem useRegion_cases {d d' : Daemon} {i : ℕ} {g : Generation}
    {f : ShmLoadBalancer → Except BalancerFault ShmLoadBalancer}
    (hd' : d.useRegion i g f = .ok d') :
    ∃ r lb, d.regions g.config.serverName = some r ∧ r.stats = g.statsMem ∧ f r.lb = .ok lb ∧
      d' = d.setRegion g.config.serverName ⟨lb, r.stats, i⟩ := by
  unfold Daemon.useRegion at hd'
  cases hr : d.regions g.config.serverName with
  | none => simp [hr] at hd'
  | some r =>
    rw [hr] at hd'
    dsimp only at hd'
    split at hd'
    · rename_i hstats
      obtain ⟨lb, hlb, hd'⟩ := bind_eq_ok_iff.mp hd'
      cases hd'
      exact ⟨r, lb, rfl, hstats, mapError_eq_ok_iff.mp hlb, rfl⟩
    · cases hd'

/-- Work on the balancer keeps the number of statistics. -/
def KeepsLength (f : ShmLoadBalancer → Except BalancerFault ShmLoadBalancer) : Prop :=
  ∀ lb lb', f lb = .ok lb' → lb'.stats.length = lb.stats.length

/-- A new client keeps the number of statistics. -/
theorem newBackendFd_keepsLength (config : LoadBalancerConfig) (connected : Option Fd) :
    KeepsLength fun lb => do
      let (_, lb) ← newBackendFd config connected lb
      return lb := by
  intro lb lb' h
  obtain ⟨⟨backend, lb₁⟩, hnew, h⟩ := bind_eq_ok_iff.mp h
  cases h
  rcases newBackendFd_cases hnew with ⟨-, -, -, hsame⟩ | ⟨b, lb₂, -, -, -, hlen, -⟩
  · exact hsame.length
  · exact hlen

/-- A health check keeps the number of statistics. -/
theorem checkHealth_keepsLength (config : LoadBalancerConfig) (healthy : ℕ → Bool) :
    KeepsLength (checkHealth config healthy) := fun _ _ h => (checkHealth_sameCounts h).length

/-- A process may use the region if no live worker of another generation has its name. -/
theorem useRegion_keeps {d d' : Daemon} {i : ℕ} {g : Generation}
    {f : ShmLoadBalancer → Except BalancerFault ShmLoadBalancer} (h : RegionInv d)
    (hg : d.generations[i]? = some g) (hkeeps : KeepsLength f)
    (halone : ∀ (i' : ℕ) (g' : Generation), d.generations[i']? = some g' →
      g'.config.serverName = g.config.serverName → 0 < g'.workers → i' = i)
    (hforked : 0 < g.unforked → 0 < g.workers) (hd' : d.useRegion i g f = .ok d') :
    RegionInv d' := by
  obtain ⟨r, lb, hr, hstats, hf, rfl⟩ := useRegion_cases hd'
  have hlen := hkeeps r.lb lb hf
  have hown (hlive : 0 < g.workers) : OwnBalancer i g ⟨lb, r.stats, i⟩ := by
    obtain ⟨r', hr', hbefore⟩ := h.live i g hg hlive
    obtain rfl : r = r' := Option.some.inj (hr.symm.trans hr')
    refine ⟨hbefore.stats, ?_, rfl⟩
    rw [hlen]
    exact hbefore.inside
  refine ⟨fun j x hx hlive => ?_, fun j x r' hx hunforked hr' hwriter => ?_⟩
  · by_cases hname : x.config.serverName = g.config.serverName
    · obtain rfl := halone j x hx hname hlive
      obtain rfl : g = x := Option.some.inj (hg.symm.trans hx)
      exact ⟨_, d.setRegion_self _ _, hown hlive⟩
    · rw [d.setRegion_ne hname]
      exact h.live j x hx hlive
  · by_cases hname : x.config.serverName = g.config.serverName
    · rw [hname, d.setRegion_self] at hr'
      cases hr'
      obtain rfl : i = j := hwriter
      obtain rfl : g = x := Option.some.inj (hg.symm.trans hx)
      exact hown (hforked hunforked)
    · rw [d.setRegion_ne hname] at hr'
      exact h.starting j x r' hx hunforked hr' hwriter

/-- An accept keeps the invariant. -/
theorem acceptClient_keeps {d d' : Daemon} {i : ℕ} {connected : Option Fd} (h : RegionInv d)
    (hd' : d.acceptClient i connected = .ok d') : RegionInv d' := by
  obtain ⟨g, hg, hd'⟩ := bind_eq_ok_iff.mp hd'
  have hg := generation_eq_ok hg
  split at hd'
  · cases hd'
  · rename_i hworkers
    have hlive := Nat.pos_of_ne_zero hworkers
    split at hd'
    · cases hd'
      exact h
    · refine useRegion_keeps h hg (newBackendFd_keepsLength _ connected) ?_ (fun _ => hlive) hd'
      -- both generations are the last to have written the region
      intro i' g' hg' hname hlive'
      obtain ⟨r, hr, hown⟩ := h.live i g hg hlive
      obtain ⟨r', hr', hown'⟩ := h.live i' g' hg' hlive'
      rw [hname, hr] at hr'
      cases hr'
      exact hown'.writer.symm.trans hown.writer

/-- A round of a master whose region has no other workers keeps the invariant. -/
theorem masterRound_keeps {d d' : Daemon} {i : ℕ} {healthy : ℕ → Bool} (h : RegionInv d)
    (hsep : Separated d (.masterRound i healthy)) (hd' : d.masterRound i healthy = .ok d') :
    RegionInv d' := by
  obtain ⟨g, hg, hd'⟩ := bind_eq_ok_iff.mp hd'
  have hg := generation_eq_ok hg
  split at hd'
  · cases hd'
  · rename_i hmaster
    obtain ⟨hforked, -⟩ := not_or.mp hmaster
    split at hd'
    · cases hd'
      exact h
    · rename_i hcheck
      obtain ⟨htime, hbackends⟩ := not_or.mp hcheck
      exact useRegion_keeps h hg (checkHealth_keepsLength _ healthy) (hsep g hg htime hbackends)
        (fun hunforked => absurd hunforked (by omega)) hd'

/-- A master that checks the backends writes the region of another generation's worker. -/
theorem masterRound_breaks {d d' : Daemon} {i : ℕ} {healthy : ℕ → Bool}
    (hsep : ¬ Separated d (.masterRound i healthy)) (hd' : d.masterRound i healthy = .ok d') :
    ¬ Undisturbed d' := by
  unfold Separated at hsep
  push Not at hsep
  obtain ⟨g, hg, htime, hbackends, i', g', hg', hname, hlive', hne⟩ := hsep
  obtain ⟨g₁, hg₁, hd'⟩ := bind_eq_ok_iff.mp hd'
  obtain rfl : g = g₁ := Option.some.inj (hg.symm.trans (generation_eq_ok hg₁))
  split at hd'
  · cases hd'
  · rw [if_neg (not_or.mpr ⟨htime, hbackends⟩)] at hd'
    obtain ⟨r, lb, -, -, -, rfl⟩ := useRegion_cases hd'
    intro hall
    obtain ⟨r', hr', hown⟩ := hall i' g' hg' hlive'
    rw [hname, d.setRegion_self] at hr'
    cases hr'
    exact hne hown.writer.symm

/-! ## Who changes a region -/

/-- Work on a balancer changes the region that its generation wrote, and no other one. -/
theorem useRegion_changed {d d' : Daemon} {i : ℕ} {g : Generation}
    {f : ShmLoadBalancer → Except BalancerFault ShmLoadBalancer}
    (hd' : d.useRegion i g f = .ok d') {name : Bytes} (hne : d'.regions name ≠ d.regions name) :
    ∃ r, d'.regions name = some r ∧ r.writer = i := by
  obtain ⟨r, lb, -, -, -, rfl⟩ := useRegion_cases hd'
  by_cases hname : name = g.config.serverName
  · rw [hname]
    exact ⟨_, d.setRegion_self _ _, rfl⟩
  · exact absurd (d.setRegion_ne hname _) hne

/-- A region that a step changes was last written by the process that took the step. -/
theorem writer_of_changed {d d' : Daemon} {input : DaemonInput}
    (hd' : daemonStep d input = .ok d') {name : Bytes} (hne : d'.regions name ≠ d.regions name) :
    ∃ r, d'.regions name = some r ∧ r.writer = input.actor d := by
  cases input with
  | start config rawMem =>
    cases hd'
    by_cases hname : name = config.serverName
    · rw [hname]
      exact ⟨_, startListener_self, rfl⟩
    · exact absurd (startListener_ne hname) hne
  | accept i connected =>
    obtain ⟨g, -, hd'⟩ := bind_eq_ok_iff.mp hd'
    split at hd'
    · cases hd'
    · split at hd'
      · cases hd'
        exact absurd rfl hne
      · exact useRegion_changed hd' hne
  | masterRound i healthy =>
    obtain ⟨g, -, hd'⟩ := bind_eq_ok_iff.mp hd'
    split at hd'
    · cases hd'
    · split at hd'
      · cases hd'
        exact absurd rfl hne
      · exact useRegion_changed hd' hne
  | fork i | exitWorker i =>
    obtain ⟨g, -, hd'⟩ := bind_eq_ok_iff.mp hd'
    split at hd'
    · cases hd'
    · cases hd'
      exact absurd rfl hne
  | exitMaster i =>
    obtain ⟨g, -, hd'⟩ := bind_eq_ok_iff.mp hd'
    cases hd'
    exact absurd rfl hne

/-- The region of a live worker is changed by processes of its generation only. -/
def ChangedByOwn (d : Daemon) (input : DaemonInput) : Prop :=
  ∀ d', daemonStep d input = .ok d' → ∀ (i : ℕ) (g : Generation), d'.generations[i]? = some g →
    0 < g.workers → d'.regions g.config.serverName ≠ d.regions g.config.serverName →
    input.actor d = i

/-- Where every live worker keeps its balancer, only its own generation changes its region. -/
theorem Undisturbed.changedByOwn {d : Daemon} {input : DaemonInput}
    (h : ∀ d', daemonStep d input = .ok d' → Undisturbed d') : ChangedByOwn d input := by
  intro d' hd' i g hg hlive hne
  obtain ⟨r, hr, hown⟩ := h d' hd' i g hg hlive
  obtain ⟨r', hr', hwriter⟩ := writer_of_changed hd' hne
  rw [hr] at hr'
  cases hr'
  exact hwriter.symm.trans hown.writer

/-! ## Runs -/

/-- A step that meets the conditions keeps the invariant. -/
theorem daemonStep_keeps {d d' : Daemon} {input : DaemonInput} (h : RegionInv d)
    (hsep : Separated d input) (hd' : daemonStep d input = .ok d') : RegionInv d' := by
  cases input with
  | start config rawMem =>
    cases hd'
    exact startListener_keeps h hsep
  | fork i => exact forkWorker_keeps h hsep hd'
  | accept i connected => exact acceptClient_keeps h hd'
  | masterRound i healthy => exact masterRound_keeps h hsep hd'
  | exitWorker i => exact exitWorker_keeps h hd'
  | exitMaster i => exact exitMaster_keeps h hd'

/-- Behind a step that does not, some live worker has lost its balancer. -/
theorem daemonStep_breaks {d d' : Daemon} {input : DaemonInput} (hsep : ¬ Separated d input)
    (hd' : daemonStep d input = .ok d') : ¬ Undisturbed d' := by
  cases input with
  | start config rawMem =>
    cases hd'
    exact startListener_breaks hsep
  | fork i => exact forkWorker_breaks hsep hd'
  | masterRound i healthy => exact masterRound_breaks hsep hd'
  | accept _ _ | exitWorker _ | exitMaster _ => exact absurd trivial hsep

/-- The invariant holds at the start. -/
theorem regionInv_empty : RegionInv {} :=
  ⟨fun i g hg => by simp at hg, fun i g r hg => by simp at hg⟩

/-- **Generations do not disturb each other** exactly when they are separated: then every live
worker has its own statistics and its own generation's writes behind every step, and only its
own generation changes its region. -/
theorem undisturbed_iff_separated (inputs : List DaemonInput) :
    (EveryReached daemonStep Undisturbed {} inputs ↔ EveryTaken daemonStep Separated {} inputs) ∧
      (EveryTaken daemonStep Separated {} inputs →
        EveryStep daemonStep ChangedByOwn {} inputs) := by
  have hiff : EveryReached daemonStep Undisturbed {} inputs ↔
      EveryTaken daemonStep Separated {} inputs :=
    everyReached_iff (fun _ h => h.live) (fun _ _ _ h _ hsep hd' => daemonStep_keeps h hsep hd')
      (fun _ _ _ _ _ hsep hd' => daemonStep_breaks hsep hd') regionInv_empty
      (fun _ _ _ _ _ => trivial)
  refine ⟨hiff, fun hsep pre input hpre d hrun => ?_⟩
  exact Undisturbed.changedByOwn ((hiff.mpr hsep).everyTaken pre input hpre d hrun)

/-- A listener is started again, at another address, while its worker still has clients. -/
theorem reload_not_undisturbed :
    ¬ ∀ inputs : List DaemonInput, EveryReached daemonStep Undisturbed {} inputs := by
  intro hall
  obtain ⟨r, hr, hown⟩ := hall [.start (twoBackendsConfig .leastConnections 1) 4096, .fork 0,
    .start (twoBackendsConfig .leastConnections 4) 8192] _ List.prefix_rfl _ rfl 0 _ rfl
    (Nat.succ_pos 0)
  cases hr
  exact absurd hown.stats (by decide)

end PkuyoProxy.Analysis
