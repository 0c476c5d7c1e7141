import Mathlib.Data.Int.Interval
import PkuyoProxy.Analysis.BackendChoice
import PkuyoProxy.Analysis.BalancerSafety
import PkuyoProxy.Analysis.ConnectionMaps
import PkuyoProxy.Interface.ConfigDocument
import PkuyoProxy.Lib.StoreCount
import PkuyoProxy.Model.BalancedWorker

/-!
# Connections that are counted

`new_backend_fd` counts every backend it tries to connect to, whether the connection is made or
not, and nothing is counted back.  All workers of a listener count in one region.  So the counters
of the balancer are the numbers of connected pairs of a worker exactly as long as no connection to
a chosen backend fails, no connected pair ends and no other worker is given a backend
(`accurate_iff_kept`).
-/

set_option autoImplicit false

namespace PkuyoProxy.Analysis

open PkuyoProxy.Lib PkuyoProxy.Model PkuyoProxy.Interface

/-! ## What a choice leaves -/

/-- The number of statistics and their counters of connections are the same. -/
structure SameCounts (lb lb' : ShmLoadBalancer) : Prop where
  length : lb'.stats.length = lb.stats.length
  connections : ∀ i, (stat lb' i).connections = (stat lb i).connections

/-- A region has its own numbers of connections. -/
theorem SameCounts.refl (lb : ShmLoadBalancer) : SameCounts lb lb := ⟨rfl, fun _ => rfl⟩

/-- Equal numbers are equal to equal ones. -/
theorem SameCounts.trans {lb lb' lb'' : ShmLoadBalancer} (h : SameCounts lb lb')
    (h' : SameCounts lb' lb'') : SameCounts lb lb'' :=
  ⟨h'.length.trans h.length, fun i => (h'.connections i).trans (h.connections i)⟩

/-- Changing a statistic but for its number of connections keeps the numbers. -/
theorem sameCounts_modify (lb : ShmLoadBalancer) (k : ℕ) {f : BackendStat → BackendStat}
    (hf : ∀ s, (f s).connections = s.connections) :
    SameCounts lb { lb with stats := lb.stats.modify k f } := by
  refine ⟨by simp, fun i => ?_⟩
  simp only [stat, List.getD_eq_getElem?_getD, List.getElem?_modify]
  cases lb.stats[i]? with
  | none => rfl
  | some s =>
    by_cases hk : k = i
    · simp [hk, hf]
    · simp [hk]

/-- Adding a weight keeps the numbers of connections. -/
theorem sameCounts_addWeight (lb : ShmLoadBalancer) (k : ℕ) (w : ℤ) :
    SameCounts lb (lb.addWeight k w) := sameCounts_modify lb k fun _ => rfl

variable {config : LoadBalancerConfig} {lb lb' : ShmLoadBalancer} {answer : Option BackServer}

/-- The choice counts nothing, and a chosen backend has a statistic. -/
structure Chosen (lb : ShmLoadBalancer) (answer : Option BackServer) (lb' : ShmLoadBalancer) :
    Prop where
  counts : SameCounts lb lb'
  inRange : ∀ b, answer = some b → b.stat < lb'.stats.length

/-- An element that can be read has an index in the range. -/
theorem elementAt_lt {α : Type} {xs : List α} {i : ℕ} {x : α} (h : elementAt xs i = .ok x) :
    i < xs.length := (List.getElem?_eq_some_iff.mp (elementAt_eq_ok_iff.mp h)).1

/-- Round robin keeps the numbers and answers with a backend in the range. -/
theorem roundRobin_chosen (h : roundRobin config lb = .ok (answer, lb')) :
    Chosen lb answer lb' := by
  obtain ⟨b, -, h⟩ := bind_eq_ok_iff.mp h
  obtain ⟨s, hs, h⟩ := bind_eq_ok_iff.mp h
  dsimp only at h
  split at h
  · cases h
  · cases h
    refine ⟨⟨rfl, fun _ => rfl⟩, fun b hb => ?_⟩
    split at hb
    · cases hb
      exact elementAt_lt hs
    · cases hb

/-- A round of the weighted loop keeps the numbers and a candidate in the range. -/
theorem weightedRound_chosen {best best' : BackServer} {i : ℕ}
    (h : weightedRound config (best, lb) i = .ok (best', lb'))
    (hbest : best.stat < lb.stats.length) :
    SameCounts lb lb' ∧ best'.stat < lb'.stats.length := by
  obtain ⟨s, hs, h⟩ := bind_eq_ok_iff.mp h
  split at h
  · cases h
    exact ⟨.refl lb, hbest⟩
  · obtain ⟨b, -, h⟩ := bind_eq_ok_iff.mp h
    obtain ⟨s', hs', h⟩ := bind_eq_ok_iff.mp h
    obtain ⟨t, ht, h⟩ := bind_eq_ok_iff.mp h
    cases h
    refine ⟨sameCounts_addWeight lb i b.weight, ?_⟩
    split
    · exact elementAt_lt hs'
    · exact elementAt_lt ht

/-- Weighted round robin keeps the numbers and answers with a backend in the range. -/
theorem weightedRoundRobin_chosen (h : weightedRoundRobin config lb = .ok (answer, lb')) :
    Chosen lb answer lb' := by
  obtain ⟨b, -, h⟩ := bind_eq_ok_iff.mp h
  obtain ⟨s, hs, h⟩ := bind_eq_ok_iff.mp h
  obtain ⟨⟨best, lb₁⟩, hloop, h⟩ := bind_eq_ok_iff.mp h
  obtain ⟨c, -, h⟩ := bind_eq_ok_iff.mp h
  obtain ⟨t, ht, h⟩ := bind_eq_ok_iff.mp h
  have hfirst := sameCounts_addWeight lb 0 b.weight
  have hcounts : SameCounts lb lb₁ := by
    refine (@runSteps_keeps _ _ _ (weightedRound config) (fun acc =>
      SameCounts lb acc.2 ∧ acc.1.stat < acc.2.stats.length) _ ?_ _ _ ⟨hfirst, ?_⟩ hloop).1
    · rintro ⟨best, lb₂⟩ i - ⟨best', lb₃⟩ ⟨hsame, hbest⟩ hround
      obtain ⟨hsame', hbest'⟩ := weightedRound_chosen hround hbest
      exact ⟨hsame.trans hsame', hbest'⟩
    · rw [hfirst.length]
      exact elementAt_lt hs
  have hlt := elementAt_lt ht
  split at h
  · cases h
    have hlast := sameCounts_addWeight lb₁ best.stat (-config.totalWeight)
    refine ⟨hcounts.trans hlast, ?_⟩
    rintro b' ⟨⟩
    rwa [hlast.length]
  · cases h
    refine ⟨hcounts.trans (sameCounts_addWeight lb₁ best.stat _), by simp⟩

/-- Least connections keeps the numbers and answers with a backend in the range. -/
theorem leastConnections_chosen (h : leastConnections config lb = .ok (answer, lb')) :
    Chosen lb answer lb' := by
  obtain ⟨b, -, h⟩ := bind_eq_ok_iff.mp h
  obtain ⟨s, hs, h⟩ := bind_eq_ok_iff.mp h
  obtain ⟨best, hloop, h⟩ := bind_eq_ok_iff.mp h
  obtain ⟨t, ht, h⟩ := bind_eq_ok_iff.mp h
  cases h
  refine ⟨.refl lb, fun b' hb' => ?_⟩
  split at hb'
  · cases hb'
    exact elementAt_lt ht
  · cases hb'

/-- Every algorithm keeps the numbers and answers with a backend in the range. -/
theorem getNextBackend_chosen (h : getNextBackend config lb = .ok (answer, lb')) :
    Chosen lb answer lb' := by
  unfold getNextBackend at h
  split at h
  · exact roundRobin_chosen h
  · exact weightedRoundRobin_chosen h
  · exact leastConnections_chosen h
  · cases h
    exact ⟨.refl lb, by simp⟩

/-- A health check keeps the numbers. -/
theorem checkHealth_sameCounts {healthy : ℕ → Bool} (h : checkHealth config healthy lb = .ok lb') :
    SameCounts lb lb' := by
  refine @runSteps_keeps _ _ _ (checkHealthAt healthy) (SameCounts lb) _ ?_ _ _ (.refl lb) h
  intro lb₁ i _ lb₂ hsame hround
  obtain ⟨s, -, hround⟩ := bind_eq_ok_iff.mp hround
  cases hround
  exact hsame.trans (sameCounts_modify lb₁ i fun _ => rfl)

/-- Counting a failed connection keeps the number of connections. -/
theorem addFailed_connections (s : BackendStat) : s.addFailed.connections = s.connections := rfl

/-- What is returned for a backend that was chosen, and what is counted then. -/
theorem newBackendFd_cases {connected : Option Fd} {backend : Option (Fd × BackServer)}
    (h : newBackendFd config connected lb = .ok (backend, lb')) :
    (∃ lb₁, getNextBackend config lb = .ok (none, lb₁) ∧ backend = none ∧ SameCounts lb lb') ∨
      ∃ b lb₁, getNextBackend config lb = .ok (some b, lb₁) ∧ backend = connected.map (·, b) ∧
        b.stat < lb'.stats.length ∧ lb'.stats.length = lb.stats.length ∧
        ∀ i, (stat lb' i).connections = if b.stat = i then toInt ((stat lb i).connections + 1)
          else (stat lb i).connections := by
  obtain ⟨⟨answer, lb₁⟩, hchoice, h⟩ := bind_eq_ok_iff.mp h
  have hchosen := getNextBackend_chosen hchoice
  cases answer with
  | none =>
    cases h
    exact .inl ⟨lb', hchoice, rfl, hchosen.counts⟩
  | some b =>
    obtain ⟨lb₂, hsame, heq⟩ : ∃ lb₂, SameCounts lb₁ lb₂ ∧
        (connected.map (·, b), { lb₂ with stats := lb₂.stats.modify b.stat .addConnection }) =
          (backend, lb') := by
      cases connected with
      | none => exact ⟨_, sameCounts_modify lb₁ b.stat addFailed_connections, Except.ok.inj h⟩
      | some fd => exact ⟨lb₁, .refl lb₁, Except.ok.inj h⟩
    cases heq
    have hcounts := hchosen.counts.trans hsame
    have hlt : b.stat < lb₂.stats.length := by
      rw [hsame.length]
      exact hchosen.inRange b rfl
    refine .inr ⟨b, lb₁, hchoice, rfl, by simpa using hlt, by simpa using hcounts.length, ?_⟩
    intro i
    rw [← hcounts.connections i]
    simp only [stat, List.getD_eq_getElem?_getD, List.getElem?_modify]
    by_cases hi : b.stat = i
    · subst hi
      simp [hlt, BackendStat.addConnection]
    · simp [hi]

/-- A counter that is raised changes, even where it wraps. -/
theorem toInt_succ_ne (n : ℤ) : toInt (n + 1) ≠ n := by
  intro heq
  have hmod : toInt (n + 1) % 2 ^ 32 = (n + 1) % 2 ^ 32 := Int.bmod_emod
  rw [heq] at hmod
  omega

/-! ## Connected pairs -/

/-- The backend of the pair is a connection to the address of backend `i`. -/
def ConnectedTo (s : BalancedWorker) (i : ℕ) (a : Addr) (h : ProxyHandler) : Prop :=
  (s.target a).map BackServer.config = some i ∧ ∃ fd, h.backend = .normal fd

/-- The number of owned pairs that are connected to backend `i`. -/
noncomputable def load (s : BalancedWorker) (i : ℕ) : ℕ :=
  (holding s.worker.heap (ConnectedTo s i)).ncard

/-- Every counter of connections is the number of owned pairs connected to its backend. -/
def Accurate (s : BalancedWorker) : Prop :=
  ∀ i < s.lb.stats.length, (stat s.lb i).connections = load s i

/-- A descriptor is a natural number that is an `int`. -/
def IsFd (fd : Fd) : Prop := 0 ≤ fd ∧ fd < 2 ^ 31

/-- What the kernel and the allocator give out is not in use. -/
def LegalDial (s : BalancedWorker) : BalancedInput → Prop
  | .accept (some d) => FreshFor s.worker ⟨d.clientFd, d.addr, d.connected⟩ ∧ IsFd d.clientFd
  | _ => True

/-- A connection to a backend that was chosen is made, no other worker is given one, and what is
disconnected is not a pair with a connected backend. -/
def CountKept (s : BalancedWorker) : BalancedInput → Prop
  | .accept (some d) => s.worker.backendType = .loadBalancer → d.connected = none →
      ∀ b lb, getNextBackend s.config s.lb ≠ .ok (some b, lb)
  | .neighbour _ => s.worker.backendType = .loadBalancer →
      ∀ b lb, getNextBackend s.config s.lb ≠ .ok (some b, lb)
  | .disconnect fd => ∀ a h,
      (s.worker.clientToBackend fd).or (s.worker.backendToClient fd) = some a →
      s.worker.heap a = some h → backendFd h = none
  | _ => True

/-- The live pairs have different clients and known backends. -/
structure Numbered (s : BalancedWorker) : Prop where
  listen : IsFd s.worker.listenFd
  owns : Owns s.worker
  finite : FiniteStore s.worker.heap
  clients : ∀ a h, s.worker.heap a = some h → IsFd h.client ∧ h.client ≠ s.worker.listenFd
  targets : ∀ a h fd, s.worker.heap a = some h → h.backend = .normal fd →
    ∃ i < s.lb.stats.length, (s.target a).map BackServer.config = some i

/-- There are finitely many descriptors. -/
theorem finite_setOf_isFd : {fd | IsFd fd}.Finite := Set.finite_Ico (0 : ℤ) (2 ^ 31)

/-- There are 2^31 of them. -/
theorem ncard_setOf_isFd : {fd | IsFd fd}.ncard = 2 ^ 31 := by
  show (Set.Ico (0 : ℤ) (2 ^ 31)).ncard = 2 ^ 31
  rw [← Finset.coe_Ico, Set.ncard_coe_finset, Int.card_Ico]
  rfl

/-- There are fewer pairs than descriptors, so no counter has to wrap. -/
theorem Numbered.load_lt {s : BalancedWorker} (h : Numbered s) (i : ℕ) : load s i < 2 ^ 31 := by
  have hvalues (a : Addr) (ph : ProxyHandler) (hlive : s.worker.heap a = some ph) :
      ph.client ∈ {fd | IsFd fd} \ {s.worker.listenFd} := h.clients a ph hlive
  have hle := Indexes.ncard_holding_le h.owns (finite_setOf_isFd.subset Set.sdiff_subset)
    hvalues (ConnectedTo s i)
  have hmem : s.worker.listenFd ∈ {fd | IsFd fd} := h.listen
  have hcard := Set.ncard_sdiff_singleton_add_one hmem finite_setOf_isFd
  rw [ncard_setOf_isFd] at hcard
  unfold load
  omega

/-- A load fits into an `int`, as the clients of its pairs have different descriptors. -/
theorem Numbered.toInt_load {s : BalancedWorker} (h : Numbered s) (i : ℕ) :
    toInt (load s i) = load s i := by
  have hlt := h.load_lt i
  rw [toInt_eq_self_iff, IsInt]
  omega

/-! ## Accepting -/

/-- The backend's handler of a new pair. -/
theorem newBackend_eq_normal {w : Worker} {a : Accepted} {fd : Fd}
    (h : w.newBackend a = .normal fd) : w.backendType = .loadBalancer ∧ a.backendFd = some fd := by
  unfold Worker.newBackend at h
  split at h
  · cases h
    exact ⟨‹_›, ‹_›⟩
  · cases h
  · cases h

section Entering

variable {s : BalancedWorker} {d : Dial} {backend : Option (Fd × BackServer)}

/-- An accepted client adds its pair. -/
theorem enter_heap (howns : Owns s.worker) (hfd : ¬ IsOpen s.worker d.clientFd) :
    (s.enter d backend).worker.heap = Function.update s.worker.heap d.addr
      (some ⟨d.clientFd,
        s.worker.newBackend ⟨d.clientFd, d.addr, backend.map Prod.fst⟩⟩) :=
  howns.accept_heap hfd

/-- The targets of the other pairs stay. -/
theorem enter_target_ne {a : Addr} (ha : a ≠ d.addr) :
    (s.enter d backend).target a = s.target a := Function.update_of_ne ha _ _

/-- An accepted client does not change to whom the other pairs are connected. -/
theorem connectedTo_ne {i : ℕ} {a : Addr} (ha : a ≠ d.addr) (h : ProxyHandler) :
    ConnectedTo (s.enter d backend) i a h ↔ ConnectedTo s i a h := by
  unfold ConnectedTo
  rw [enter_target_ne ha]

/-- A pair without a connected backend adds to no load. -/
theorem load_enter_none (howns : Owns s.worker) (hfd : ¬ IsOpen s.worker d.clientFd)
    (haddr : s.worker.heap d.addr = none) (i : ℕ) : load (s.enter d none) i = load s i := by
  unfold load
  rw [enter_heap howns hfd, holding_store_not haddr ?_ fun a ha h => connectedTo_ne ha h]
  rintro ⟨-, fd, hnormal⟩
  cases (newBackend_eq_normal hnormal).2

/-- A connected pair adds one to the load of its backend. -/
theorem load_enter_some (howns : Owns s.worker) (hfinite : FiniteStore s.worker.heap)
    (hfd : ¬ IsOpen s.worker d.clientFd) (haddr : s.worker.heap d.addr = none)
    (htype : s.worker.backendType = .loadBalancer) (fd : Fd) (b : BackServer) (i : ℕ) :
    load (s.enter d (some (fd, b))) i = if b.config = i then load s i + 1 else load s i := by
  have htarget : ((s.enter d (some (fd, b))).target d.addr).map BackServer.config =
      some b.config := by
    show (Function.update s.target d.addr (some b) d.addr).map BackServer.config = _
    rw [Function.update_self, Option.map_some]
  unfold load
  rw [enter_heap howns hfd]
  split
  · rename_i hi
    apply ncard_store hfinite haddr ?_ fun a ha h => connectedTo_ne ha h
    exact ⟨by rw [htarget, hi], fd, by simp [Worker.newBackend, htype]⟩
  · rename_i hi
    rw [holding_store_not haddr ?_ fun a ha h => connectedTo_ne ha h]
    rintro ⟨hsome, -⟩
    rw [htarget] at hsome
    exact hi (Option.some.inj hsome)

/-- An accepted client keeps the numbering. -/
theorem Numbered.enter (h : Numbered s) (hfd : ¬ IsOpen s.worker d.clientFd)
    (haddr : s.worker.heap d.addr = none) (hint : IsFd d.clientFd)
    (hbackend : ∀ x, backend = some x → x.2.config < s.lb.stats.length) :
    Numbered (s.enter d backend) := by
  have hlisten : (s.enter d backend).worker.listenFd = s.worker.listenFd := by
    show (s.worker.eraseClient d.clientFd).listenFd = _
    rw [h.owns.eraseClient_eq hfd]
  have hheap := @enter_heap s d backend h.owns hfd
  refine ⟨?_, h.owns.accept hfd haddr, ?_, ?_, ?_⟩
  · rw [hlisten]
    exact h.listen
  · rw [hheap]
    exact h.finite.insert haddr _
  · intro a ph hlive
    rw [hheap] at hlive
    rw [hlisten]
    by_cases ha : a = d.addr
    · rw [ha, Function.update_self] at hlive
      cases hlive
      exact ⟨hint, fun heq => hfd (.inl heq)⟩
    · rw [Function.update_of_ne ha] at hlive
      exact h.clients a ph hlive
  · intro a ph fd hlive hnormal
    rw [hheap] at hlive
    by_cases ha : a = d.addr
    · rw [ha, Function.update_self] at hlive
      cases hlive
      obtain ⟨x, hx, -⟩ := Option.map_eq_some_iff.mp (newBackend_eq_normal hnormal).2
      refine ⟨x.2.config, hbackend x hx, ?_⟩
      rw [ha, hx]
      show (Function.update s.target d.addr (some x.2) d.addr).map BackServer.config = _
      rw [Function.update_self, Option.map_some]
    · rw [Function.update_of_ne ha] at hlive
      obtain ⟨i, hi, htarget⟩ := h.targets a ph fd hlive hnormal
      exact ⟨i, hi, by rwa [enter_target_ne ha]⟩

end Entering

/-- An accept serves files, or asks for a backend and counts a connection that is made. -/
theorem acceptNewConn_cases {s s' : BalancedWorker} {d : Dial}
    (h : s.acceptNewConn (some d) = .ok s') :
    (s.worker.backendType = .static ∧ s' = s.enter d none) ∨
      (s.worker.backendType = .loadBalancer ∧ ∃ backend lb',
        newBackendFd s.config d.connected s.lb = .ok (backend, lb') ∧
          s' = { s with lb := lb' }.enter d backend) := by
  unfold BalancedWorker.acceptNewConn at h
  cases htype : s.worker.backendType with
  | «static» =>
    rw [htype] at h
    cases h
    exact .inl ⟨rfl, rfl⟩
  | loadBalancer =>
    rw [htype] at h
    obtain ⟨⟨backend, lb'⟩, hnew, h⟩ := bind_eq_ok_iff.mp h
    cases h
    exact .inr ⟨rfl, backend, lb', hnew, rfl⟩

/-- The load of a worker does not depend on the counters. -/
theorem Numbered.withLb {s : BalancedWorker} (h : Numbered s) {lb' : ShmLoadBalancer}
    (hlen : lb'.stats.length = s.lb.stats.length) : Numbered { s with lb := lb' } := by
  refine ⟨h.listen, h.owns, h.finite, h.clients, fun a ph fd hlive hnormal => ?_⟩
  obtain ⟨i, hi, htarget⟩ := h.targets a ph fd hlive hnormal
  exact ⟨i, hi.trans_eq hlen.symm, htarget⟩

/-- Accuracy depends on the numbers of the region only. -/
theorem Accurate.withLb {s : BalancedWorker} (h : Accurate s) {lb' : ShmLoadBalancer}
    (hsame : SameCounts s.lb lb') : Accurate { s with lb := lb' } := by
  intro i hi
  exact (hsame.connections i).trans (h i (hi.trans_eq hsame.length))

/-- The numbers agree, and nothing has wrapped. -/
structure CountInv (s : BalancedWorker) : Prop where
  numbered : Numbered s
  accurate : Accurate s

/-- A client without a backend keeps the invariant. -/
theorem CountInv.enter_none {s : BalancedWorker} (h : CountInv s) {d : Dial}
    (hfd : ¬ IsOpen s.worker d.clientFd) (haddr : s.worker.heap d.addr = none)
    (hint : IsFd d.clientFd) : CountInv (s.enter d none) := by
  refine ⟨h.numbered.enter hfd haddr hint (by simp), fun i hi => ?_⟩
  rw [load_enter_none h.numbered.owns hfd haddr i]
  exact h.accurate i hi

/-- An accept keeps the invariant, if a connection to the chosen backend is made. -/
theorem accept_keeps {s s' : BalancedWorker} {d : Dial} (h : CountInv s)
    (hlegal : LegalDial s (.accept (some d))) (hkept : CountKept s (.accept (some d)))
    (hs' : s.acceptNewConn (some d) = .ok s') : CountInv s' := by
  obtain ⟨hfresh, hint⟩ := hlegal
  rcases acceptNewConn_cases hs' with ⟨-, rfl⟩ | ⟨htype, backend, lb', hnew, rfl⟩
  · exact h.enter_none hfresh.clientFd hfresh.addr hint
  · rcases newBackendFd_cases hnew with ⟨lb₁, -, rfl, hsame⟩ |
      ⟨b, lb₁, hchoice, rfl, hlt, hlen, hcount⟩
    · have hnext : CountInv { s with lb := lb' } :=
        ⟨h.numbered.withLb hsame.length, h.accurate.withLb hsame⟩
      exact hnext.enter_none hfresh.clientFd hfresh.addr hint
    · cases hconnected : d.connected with
      | none => exact absurd hchoice (hkept htype hconnected b lb₁)
      | some fd =>
        have hpaired := getNextBackend_paired hchoice
        have hnumbered := h.numbered.withLb hlen
        have hload (i : ℕ) := load_enter_some hnumbered.owns hnumbered.finite hfresh.clientFd
          hfresh.addr htype fd b i
        have hnext := @Numbered.enter _ d (some (fd, b)) hnumbered hfresh.clientFd hfresh.addr
          hint (by rintro x ⟨⟩; exact hpaired ▸ hlt)
        refine ⟨hnext, fun i hi => ?_⟩
        have hbefore : (stat s.lb i).connections = load s i :=
          h.accurate i (hi.trans_eq hlen)
        have hbound := hnext.toInt_load i
        show (stat lb' i).connections = (load ({ s with lb := lb' }.enter d (some (fd, b))) i : ℤ)
        rw [hcount i, hbefore]
        have hsame : load { s with lb := lb' } i = load s i := rfl
        rw [hload i, hsame, hpaired] at hbound ⊢
        split
        · rename_i hb
          rw [if_pos hb] at hbound
          exact_mod_cast hbound
        · rfl

/-- A failed connection to a chosen backend is counted. -/
theorem accept_breaks {s s' : BalancedWorker} {d : Dial} (h : CountInv s)
    (hlegal : LegalDial s (.accept (some d))) (hkept : ¬ CountKept s (.accept (some d)))
    (hs' : s.acceptNewConn (some d) = .ok s') : ¬ Accurate s' := by
  obtain ⟨hfresh, -⟩ := hlegal
  unfold CountKept at hkept
  push Not at hkept
  obtain ⟨htype, hconnected, b, lb₁, hchoice⟩ := hkept
  rcases acceptNewConn_cases hs' with ⟨hstatic, -⟩ | ⟨-, backend, lb', hnew, rfl⟩
  · rw [htype] at hstatic
    cases hstatic
  · rcases newBackendFd_cases hnew with ⟨lb₂, hnone, -⟩ |
      ⟨b', lb₂, hchoice', rfl, hlt, hlen, hcount⟩
    · rw [hchoice] at hnone
      cases hnone
    · rw [hconnected, Option.map_none]
      intro hafter
      have hload : load (BalancedWorker.enter { s with lb := lb' } d none) b'.stat =
          load s b'.stat :=
        load_enter_none (h.numbered.withLb hlen).owns hfresh.clientFd hfresh.addr b'.stat
      have hbefore : (stat s.lb b'.stat).connections = load s b'.stat :=
        h.accurate b'.stat (hlt.trans_eq hlen)
      have hraised := hcount b'.stat
      rw [if_pos rfl, hbefore] at hraised
      have hnow : (stat lb' b'.stat).connections =
          load (BalancedWorker.enter { s with lb := lb' } d none) b'.stat := hafter b'.stat hlt
      rw [hload, hraised] at hnow
      exact toInt_succ_ne (load s b'.stat) hnow

/-! ## The other workers -/

/-- An accept of another worker changes nothing, or the region only. -/
theorem neighbourAccepts_cases {s s' : BalancedWorker} {connected : Option Fd}
    (h : s.neighbourAccepts connected = .ok s') :
    (s.worker.backendType = .static ∧ s' = s) ∨
      (s.worker.backendType = .loadBalancer ∧ ∃ backend lb',
        newBackendFd s.config connected s.lb = .ok (backend, lb') ∧ s' = { s with lb := lb' }) := by
  unfold BalancedWorker.neighbourAccepts at h
  cases htype : s.worker.backendType with
  | «static» =>
    rw [htype] at h
    cases h
    exact .inl ⟨rfl, rfl⟩
  | loadBalancer =>
    rw [htype] at h
    obtain ⟨⟨backend, lb'⟩, hnew, h⟩ := bind_eq_ok_iff.mp h
    cases h
    exact .inr ⟨rfl, backend, lb', hnew, rfl⟩

/-- An accept of another worker keeps the invariant if it is given no backend. -/
theorem neighbour_keeps {s s' : BalancedWorker} {connected : Option Fd} (h : CountInv s)
    (hkept : CountKept s (.neighbour connected)) (hs' : s.neighbourAccepts connected = .ok s') :
    CountInv s' := by
  rcases neighbourAccepts_cases hs' with ⟨-, rfl⟩ | ⟨htype, backend, lb', hnew, rfl⟩
  · exact h
  · rcases newBackendFd_cases hnew with ⟨lb₁, -, -, hsame⟩ | ⟨b, lb₁, hchoice, -⟩
    · exact ⟨h.numbered.withLb hsame.length, h.accurate.withLb hsame⟩
    · exact absurd hchoice (hkept htype b lb₁)

/-- What another worker is given is counted, and is no pair of this one. -/
theorem neighbour_breaks {s s' : BalancedWorker} {connected : Option Fd} (h : CountInv s)
    (hkept : ¬ CountKept s (.neighbour connected)) (hs' : s.neighbourAccepts connected = .ok s') :
    ¬ Accurate s' := by
  unfold CountKept at hkept
  push Not at hkept
  obtain ⟨htype, b, lb₁, hchoice⟩ := hkept
  rcases neighbourAccepts_cases hs' with ⟨hstatic, -⟩ | ⟨-, backend, lb', hnew, rfl⟩
  · rw [htype] at hstatic
    cases hstatic
  · rcases newBackendFd_cases hnew with ⟨lb₂, hnone, -⟩ |
      ⟨b', lb₂, -, -, hlt, hlen, hcount⟩
    · rw [hchoice] at hnone
      cases hnone
    · intro hafter
      have hbefore : (stat s.lb b'.stat).connections = load s b'.stat :=
        h.accurate b'.stat (hlt.trans_eq hlen)
      have hraised := hcount b'.stat
      rw [if_pos rfl, hbefore] at hraised
      have hnow : (stat lb' b'.stat).connections = load s b'.stat := hafter b'.stat hlt
      rw [hraised] at hnow
      exact toInt_succ_ne (load s b'.stat) hnow

/-! ## Disconnecting -/

/-- A disconnect changes nothing, or destroys one pair. -/
theorem disconnect_cases {s : BalancedWorker} (howns : Owns s.worker) {fd : Fd} {w' : Worker}
    (hw' : s.worker.disconnect fd = .ok w') :
    ((s.worker.clientToBackend fd).or (s.worker.backendToClient fd) = none ∧ w' = s.worker) ∨
      ∃ a h, (s.worker.clientToBackend fd).or (s.worker.backendToClient fd) = some a ∧
        s.worker.heap a = some h ∧ w'.heap = Function.update s.worker.heap a none := by
  cases hentry : (s.worker.clientToBackend fd).or (s.worker.backendToClient fd) with
  | none =>
    obtain ⟨hclient, hbackend⟩ := Option.or_eq_none_iff.mp hentry
    rw [Worker.disconnect_unknown hclient hbackend] at hw'
    exact .inl ⟨rfl, (Except.ok.inj hw').symm⟩
  | some a =>
    obtain ⟨h, hlive⟩ := howns.disconnect_live hw' hentry
    exact .inr ⟨a, h, rfl, hlive, (howns.disconnect hw').2 a hentry⟩

/-- A disconnect keeps the numbering. -/
theorem Numbered.disconnect {s : BalancedWorker} (h : Numbered s) {fd : Fd} {w' : Worker}
    (hw' : s.worker.disconnect fd = .ok w') : Numbered { s with worker := w' } := by
  rcases disconnect_cases h.owns hw' with ⟨-, rfl⟩ | ⟨a, ph, -, -, hheap⟩
  · exact h
  · have hlisten := Worker.disconnect_listenFd hw'
    have hlive (b : Addr) (ph' : ProxyHandler) (hb : w'.heap b = some ph') :
        s.worker.heap b = some ph' := by
      rw [hheap] at hb
      by_cases hba : b = a
      · rw [hba, Function.update_self] at hb
        cases hb
      · rwa [Function.update_of_ne hba] at hb
    refine ⟨?_, (h.owns.disconnect hw').1, ?_, fun b ph' hb => ?_, fun b ph' fd' hb => ?_⟩
    · show IsFd w'.listenFd
      rw [hlisten]
      exact h.listen
    · show FiniteStore w'.heap
      rw [hheap]
      exact h.finite.remove a
    · show IsFd ph'.client ∧ ph'.client ≠ w'.listenFd
      rw [hlisten]
      exact h.clients b ph' (hlive b ph' hb)
    · exact h.targets b ph' fd' (hlive b ph' hb)

/-- A disconnect keeps the invariant if no pair with a connected backend is removed. -/
theorem disconnect_keeps {s : BalancedWorker} (h : CountInv s) {fd : Fd}
    (hkept : CountKept s (.disconnect fd)) {w' : Worker} (hw' : s.worker.disconnect fd = .ok w') :
    CountInv { s with worker := w' } := by
  refine ⟨h.numbered.disconnect hw', ?_⟩
  rcases disconnect_cases h.numbered.owns hw' with ⟨-, rfl⟩ | ⟨a, ph, hentry, hlive, hheap⟩
  · exact h.accurate
  · have hnone := backendFd_eq_none.mp (hkept a ph hentry hlive)
    have hnot (i : ℕ) : ¬ ConnectedTo s i a ph := by
      rintro ⟨-, b, hb⟩
      exact hnone b hb
    intro i hi
    have hload : load { s with worker := w' } i = load s i := by
      show (holding w'.heap (ConnectedTo s i)).ncard = load s i
      rw [hheap, holding_remove_not hlive (hnot i)]
      rfl
    rw [hload]
    exact h.accurate i hi

/-- The end of a connected pair is not counted. -/
theorem disconnect_breaks {s : BalancedWorker} (h : CountInv s) {fd : Fd}
    (hkept : ¬ CountKept s (.disconnect fd)) {w' : Worker}
    (hw' : s.worker.disconnect fd = .ok w') : ¬ Accurate { s with worker := w' } := by
  unfold CountKept at hkept
  push Not at hkept
  obtain ⟨a, ph, hentry, hlive, hbackend⟩ := hkept
  obtain ⟨b, hb⟩ := Option.ne_none_iff_exists'.mp hbackend
  have hnormal := backendFd_eq_some.mp hb
  obtain ⟨i, hi, htarget⟩ := h.numbered.targets a ph b hlive hnormal
  have hload : load { s with worker := w' } i + 1 = load s i := by
    show (holding w'.heap (ConnectedTo s i)).ncard + 1 = load s i
    rw [(h.numbered.owns.disconnect hw').2 a hentry]
    exact ncard_remove h.numbered.finite hlive ⟨htarget, b, hnormal⟩
  intro hafter
  have hbefore : (stat s.lb i).connections = load s i := h.accurate i hi
  have hnow : (stat s.lb i).connections = load { s with worker := w' } i := hafter i hi
  omega

/-! ## Runs -/

/-- A step that meets the condition keeps the invariant. -/
theorem balancedStep_keeps {s s' : BalancedWorker} {input : BalancedInput} (h : CountInv s)
    (hlegal : LegalDial s input) (hkept : CountKept s input)
    (hs' : balancedStep s input = .ok s') : CountInv s' := by
  cases input with
  | accept dial =>
    have haccept := mapError_eq_ok_iff.mp hs'
    cases dial with
    | none =>
      cases haccept
      exact h
    | some d => exact accept_keeps h hlegal hkept haccept
  | neighbour connected => exact neighbour_keeps h hkept (mapError_eq_ok_iff.mp hs')
  | disconnect fd =>
    obtain ⟨w', hw', hs'⟩ := bind_eq_ok_iff.mp hs'
    cases hs'
    exact disconnect_keeps h hkept (mapError_eq_ok_iff.mp hw')
  | checkHealth healthy =>
    obtain ⟨lb', hlb', hs'⟩ := bind_eq_ok_iff.mp hs'
    cases hs'
    have hsame := checkHealth_sameCounts (mapError_eq_ok_iff.mp hlb')
    exact ⟨h.numbered.withLb hsame.length, h.accurate.withLb hsame⟩

/-- Behind a step that does not, some number is wrong. -/
theorem balancedStep_breaks {s s' : BalancedWorker} {input : BalancedInput} (h : CountInv s)
    (hlegal : LegalDial s input) (hkept : ¬ CountKept s input)
    (hs' : balancedStep s input = .ok s') : ¬ Accurate s' := by
  cases input with
  | accept dial =>
    cases dial with
    | none => exact absurd trivial hkept
    | some d => exact accept_breaks h hlegal hkept (mapError_eq_ok_iff.mp hs')
  | neighbour connected => exact neighbour_breaks h hkept (mapError_eq_ok_iff.mp hs')
  | disconnect fd =>
    obtain ⟨w', hw', hs'⟩ := bind_eq_ok_iff.mp hs'
    cases hs'
    exact disconnect_breaks h hkept (mapError_eq_ok_iff.mp hw')
  | checkHealth healthy => exact absurd trivial hkept

/-- Without pairs nothing is connected. -/
theorem load_eq_zero {s : BalancedWorker} (h : ∀ a, s.worker.heap a = none) (i : ℕ) :
    load s i = 0 := by
  have hempty : holding s.worker.heap (ConnectedTo s i) = ∅ := by
    ext a
    simp [holding, h a]
  rw [load, hempty, Set.ncard_empty]

/-- The invariant holds at the start. -/
theorem countInv_started (listenFd : Fd) (hlisten : IsFd listenFd) (config : ListenerConfig) :
    CountInv (.started listenFd config) := by
  refine ⟨⟨hlisten, indexes_empty, finiteStore_empty, ?_, ?_⟩, fun i hi => ?_⟩
  · rintro a h ⟨⟩
  · rintro a h fd ⟨⟩
  · rw [load_eq_zero fun _ => rfl]
    have hlt : i < config.processCount.toNat := by
      simpa [BalancedWorker.started, initMmap] using hi
    simp [stat, BalancedWorker.started, initMmap, hlt]

/-- **The counters are the numbers of connected pairs** of a worker in every state of a run exactly
when no connection to a chosen backend fails in it, no connected pair ends and no other worker of
the listener is given a backend. -/
theorem accurate_iff_kept (listenFd : Fd) (hlisten : IsFd listenFd) (config : ListenerConfig)
    (inputs : List BalancedInput)
    (hlegal : EveryStep balancedStep LegalDial (.started listenFd config) inputs) :
    EveryReached balancedStep Accurate (.started listenFd config) inputs ↔
      EveryTaken balancedStep CountKept (.started listenFd config) inputs :=
  everyReached_iff (fun _ h => h.accurate)
    (fun _ _ _ h hl hkept hs' => balancedStep_keeps h hl hkept hs')
    (fun _ _ _ h hl hkept hs' => balancedStep_breaks h hl hkept hs')
    (countInv_started listenFd hlisten config) hlegal

/-- A client from descriptor 5 for which descriptor 6 is connected. -/
def firstDial : BalancedInput := .accept (some ⟨5, 0, some 6⟩)

/-- The run with a first client is legal. -/
theorem legal_firstDial (config : ListenerConfig) (fd : Fd) :
    EveryStep balancedStep LegalDial (.started 3 config) [firstDial, .disconnect fd] := by
  refine everyStep_cons.mpr ⟨⟨⟨?_, rfl, ?_⟩, by simp [IsFd]⟩, fun s _ => ?_⟩
  · simp [IsOpen, BalancedWorker.started]
  · rintro fd' ⟨⟩
    simp [IsOpen, BalancedWorker.started]
  · exact everyStep_cons.mpr ⟨trivial, fun _ _ => everyStep_nil⟩

/-- The equivalence for a client that is connected and a descriptor without pair that is
disconnected. -/
theorem accurate_iff_kept_connected :
    EveryReached balancedStep Accurate (.started 3 (twoBackendsConfig .leastConnections 4))
        [firstDial, .disconnect 7] ↔
      EveryTaken balancedStep CountKept (.started 3 (twoBackendsConfig .leastConnections 4))
        [firstDial, .disconnect 7] :=
  accurate_iff_kept 3 (by simp [IsFd]) _ _ (legal_firstDial _ 7)

/-- The client's connection is closed, and the backend's stays counted. -/
theorem disconnect_not_accurate :
    ¬ ∀ (listenFd : Fd) (config : ListenerConfig) (inputs : List BalancedInput), IsFd listenFd →
      EveryStep balancedStep LegalDial (.started listenFd config) inputs →
      EveryReached balancedStep Accurate (.started listenFd config) inputs := by
  intro hall
  have hend := hall 3 (twoBackendsConfig .leastConnections 4) [firstDial, .disconnect 5]
    (by simp [IsFd]) (legal_firstDial _ 5) _ List.prefix_rfl _ rfl 0 (by decide)
  rw [load_eq_zero fun a => ?_] at hend
  · revert hend
    decide
  · by_cases ha : a = 0
    · subst ha
      rfl
    · show Function.update (Function.update (fun _ => none) 0 (some (⟨5, _⟩ : ProxyHandler)))
        0 none a = none
      rw [Function.update_of_ne ha, Function.update_of_ne ha]

end PkuyoProxy.Analysis
