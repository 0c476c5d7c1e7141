import PkuyoProxy.Analysis.OpenDescriptors
import PkuyoProxy.Model.EventLoop

/-!
# Runs of a worker's process

From its startup to its end a worker accounts for its descriptors (`descriptors_accounted`): a run
closes none that is not open but -1, where `socket` fails, and the end of the loop leaves those
that were inherited (`ended_closes_all`).  On the way the descriptors of every live pair lead to it
(`live_pairs_routed`), a batch without events of closed descriptors is safe
(`current_never_destroyed`), and a worker whose listening socket was paused accepts nothing any
more (`paused_accepts_none`).  What the kernel promises of descriptors is what the maps were
assumed to be given (`process_refines_worker`).
-/

set_option autoImplicit false

namespace PkuyoProxy.Analysis

open PkuyoProxy.Lib PkuyoProxy.Model

variable {d d' : Descriptors} {fd : Fd} {s s' : WorkerProcess} {inherited : Set Fd}
  {backendType : BackendType} {isSsl : Bool} {io : StartupAnswer}

/-! ## Startup and end -/

/-- What the kernel may give to a worker that starts; its epoll instance is new. -/
structure LegalStartup (d : Descriptors) (io : StartupAnswer) : Prop where
  listenFd : ∀ fd, io.listenFd = some fd → UnusedFd d fd
  epollFd : ∀ fd, io.listenFd = some fd → ∀ fd', io.epollFd = some fd' → UnusedFd (d.give fd) fd'
  epoll : ∀ fd, d.epoll fd = none

/-- A listening handler that could not be started closes what it has open. -/
theorem closeListener_given (hfd : UnusedFd d fd) :
    ∃ d', (d.give fd).closeListener fd (-1) = .ok d' ∧ openFds d' = openFds d := by
  have htable := give_table d hfd.nonneg
  have hopen : fd ∈ openFds (d.give fd) := by simp [htable]
  obtain ⟨d', hclose, hclosed⟩ := close_spec hopen
  refine ⟨d', ?_, ?_⟩
  · simp [Descriptors.closeListener, hfd.nonneg, hclose, bind, Except.bind]
  · rw [(hclosed.given hfd htable fun _ _ => rfl).table]
    ext fd'
    simp

/-- The account of a worker that has started is in order. -/
theorem processInv_started {listenFd epollFd : Fd} (hlisten : UnusedFd d listenFd)
    (hepoll : UnusedFd (d.give listenFd) epollFd) (hnew : ∀ fd, d.epoll fd = none)
    (htable : openFds d' = openFds d ∪ {listenFd, epollFd})
    (hwatch : d'.epoll = Function.update d.epoll listenFd (some .events)) :
    ProcessInv (openFds d)
      { worker := { listenFd, backendType }, isSsl, epollFd, descriptors := d' } := by
  obtain ⟨hnotin, hne⟩ : epollFd ∉ openFds d ∧ epollFd ≠ listenFd := by
    have hclosed := hepoll.closed
    rw [give_table d hlisten.nonneg] at hclosed
    exact not_or.mp hclosed
  refine ⟨⟨⟨hlisten.nonneg, hlisten.closed⟩, ⟨hepoll.nonneg, hnotin⟩, hne.symm⟩, indexes_empty, ?_,
    ?_, ?_, ?_, List.nodup_nil, ?_⟩
  · show Accounts pairFds (openFds d ∪ {listenFd, epollFd}) (fun _ => none) (openFds d')
    rw [htable]
    exact accounts_empty _
  · rintro p h fd ⟨⟩
  · intro fd hfd
    have hfd : fd ∈ owned pairFds (fun _ : Addr => none) := hfd
    rw [owned_empty] at hfd
    exact hfd.elim
  · intro fd hfd
    have hfd : d'.epoll fd ≠ none := hfd
    left
    by_contra hother
    rw [hwatch, Function.update_of_ne hother, hnew] at hfd
    exact hfd rfl
  · rintro ev ⟨⟩

/-- What a startup ends with: a worker whose account is in order, or what was open before. -/
def StartsOrLeaves (backendType : BackendType) (d : Descriptors) :
    Descriptors ⊕ WorkerProcess → Prop
  | .inl d' => openFds d' = openFds d
  | .inr s => ProcessInv (openFds d) s ∧ ∃ listenFd, s.worker = { listenFd, backendType }

/-- A startup ends with a worker whose account is in order, or with what was open before, or
fails. -/
theorem start_spec (hlegal : LegalStartup d io) :
    EndsIn (· = .runtimeError) (StartsOrLeaves backendType d)
      (WorkerProcess.start backendType isSsl io d) := by
  unfold WorkerProcess.start Descriptors.startup
  split
  · exact rfl
  · cases hlisten : io.listenFd with
    | none => exact rfl
    | some listenFd =>
      have hfd := hlegal.listenFd listenFd hlisten
      obtain ⟨d', hclose, htable⟩ := closeListener_given hfd
      have hfail : EndsIn (· = .runtimeError) (StartsOrLeaves backendType d)
          ((d.give listenFd).closeListener listenFd (-1) >>= fun d => .ok (.inl d)) := by
        rw [hclose]
        exact htable
      dsimp only
      split
      · exact hfail
      · cases hepoll : io.epollFd with
        | none => exact hfail
        | some epollFd =>
          have hfd' := hlegal.epollFd listenFd hlisten epollFd hepoll
          dsimp only
          unfold Descriptors.addEpollFd
          split
          · refine ⟨processInv_started hfd hfd' hlegal.epoll ?_ rfl, listenFd, rfl⟩
            show openFds ((d.give listenFd).give epollFd) = _
            rw [give_table _ hfd'.nonneg, give_table d hfd.nonneg, Set.union_assoc]
            rfl
          · exact rfl

/-- A worker behind its startup, with the descriptors it inherited. -/
def Started (d : Descriptors) (backendType : BackendType) (s : WorkerProcess) : Prop :=
  ∃ isSsl io, LegalStartup d io ∧ WorkerProcess.start backendType isSsl io d = .ok (.inr s)

/-- The account of a started worker is in order, and it has no pairs. -/
theorem Started.inv (h : Started d backendType s) :
    ProcessInv (openFds d) s ∧ ∃ listenFd, s.worker = { listenFd, backendType } := by
  obtain ⟨isSsl, io, hlegal, hstart⟩ := h
  exact (start_spec hlegal).of_ok hstart

/-- The end of a worker without pairs. -/
theorem finish_spec (hinv : ProcessInv inherited s)
    (hnone : ∀ fd, s.worker.clientToBackend fd = none) :
    ∃ d', s.finish = .ok d' ∧ openFds d' = inherited := by
  have hheap (p : Addr) : s.worker.heap p = none := by
    by_contra hsome
    obtain ⟨h, hlive⟩ := Option.ne_none_iff_exists'.mp hsome
    have howner := (hinv.owners h.client p).mpr ⟨h, hlive, rfl⟩
    rw [hnone] at howner
    cases howner
  have htable := hinv.accounts.eq_base hheap
  obtain ⟨hlisten, hepoll, hne⟩ := hinv.listener
  obtain ⟨d₁, hfirst, hclosed₁⟩ := close_spec hinv.listenFd_open
  have hstill : s.epollFd ∈ openFds d₁ := by
    rw [hclosed₁.table, htable]
    exact ⟨.inr (.inr rfl), by simpa using hne.symm⟩
  obtain ⟨d₂, hsecond, hclosed₂⟩ := close_spec hstill
  refine ⟨d₂, ?_, ?_⟩
  · simp [WorkerProcess.finish, Descriptors.closeListener, hlisten.1, hepoll.1, hfirst, hsecond,
      bind, Except.bind]
  · rw [hclosed₂.table, hclosed₁.table, htable]
    ext fd
    constructor
    · rintro ⟨⟨hmem | hmem | hmem, hne₁⟩, hne₂⟩
      · exact hmem
      · exact absurd (by simpa using hmem) hne₁
      · exact absurd (by simpa using hmem) hne₂
    · intro hmem
      refine ⟨⟨.inl hmem, ?_⟩, ?_⟩
      · rintro hfd
        obtain rfl := List.mem_singleton.mp hfd
        exact hlisten.2 hmem
      · rintro hfd
        obtain rfl := List.mem_singleton.mp hfd
        exact hepoll.2 hmem

/-- The event is one of a descriptor that is still open. -/
def Current (s : WorkerProcess) : ProcessInput → Prop
  | .event => ∀ ev, s.batch.head? = some ev → s.descriptors.isOpen ev.fd = true
  | _ => True

/-! ## A session -/

/-- A process with the three standard descriptors. -/
def standardFds : Descriptors where
  isOpen fd := decide (0 ≤ fd ∧ fd ≤ 2)
  epoll _ := none
  nonneg _ h := (of_decide_eq_true h).1
  closed _ _ := rfl

/-- The listening handler gets 3 and 4. -/
def startupAnswer : StartupAnswer := { listenFd := some 3, epollFd := some 4 }

/-- The answers of `startupAnswer` are legal ones of the kernel. -/
theorem legal_startupAnswer : LegalStartup standardFds startupAnswer := by
  refine ⟨?_, ?_, fun _ => rfl⟩
  · rintro fd ⟨⟩
    exact ⟨by decide, by rw [mem_openFds]; decide⟩
  · rintro fd ⟨⟩ fd' ⟨⟩
    exact ⟨by decide, by rw [mem_openFds]; decide⟩

/-- The worker behind this startup. -/
def startedWorker : WorkerProcess where
  worker := { listenFd := 3, backendType := .loadBalancer }
  isSsl := false
  epollFd := 4
  descriptors := ((standardFds.give 3).give 4).watch 3 .events rfl

/-- The worker is what the startup with them leaves. -/
theorem started_startedWorker : Started standardFds .loadBalancer startedWorker :=
  ⟨false, startupAnswer, legal_startupAnswer, rfl⟩

/-- A client's connection with descriptor 5, for which 6 is connected to a backend. -/
def arrivalEvent : ProcessEvent :=
  ⟨3, true, false, false, ⟨{ fd := some 5 }, 0, true, .connected 6 true⟩⟩

/-- The client's descriptor is readable, and its handler asks for the connection to be closed. -/
def leavingEvent : ProcessEvent := ⟨5, true, false, true, ⟨{ fd := none }, 0, true, .noSocket⟩⟩

/-- A client comes, the worker is told to exit, and the client goes. -/
def sessionInputs : List ProcessInput :=
  [.wait 0 [arrivalEvent], .event, .hangUp, .wait 5 [leavingEvent], .event]

/-- A legal step in front of a legal session makes one. -/
theorem session_step {s' : WorkerProcess} {i : ProcessInput} {inputs : List ProcessInput}
    (hlegal : LegalProcess s i) (hcurrent : Current s i) (hstep : processStep s i = .ok s')
    (hrest : EveryStep processStep (fun s i => LegalProcess s i ∧ Current s i) s' inputs) :
    EveryStep processStep (fun s i => LegalProcess s i ∧ Current s i) s (i :: inputs) := by
  refine everyStep_cons.mpr ⟨⟨hlegal, hcurrent⟩, fun s'' hs'' => ?_⟩
  rw [hstep] at hs''
  cases hs''
  exact hrest

/-- The session is legal. -/
theorem session_legal : EveryStep processStep (fun s i => LegalProcess s i ∧ Current s i)
    startedWorker sessionInputs := by
  refine session_step ⟨by simp, by simp [arrivalEvent]; rfl⟩ trivial rfl ?_
  refine session_step ?_ ?_ rfl ?_
  · rintro ev ⟨⟩ -
    refine ⟨?_, rfl, ?_⟩
    · rintro fd ⟨⟩
      exact ⟨by decide, by rw [mem_openFds]; decide⟩
    · rintro fd ⟨⟩ b ⟨⟩
      exact ⟨by decide, by rw [mem_openFds]; decide⟩
  · rintro ev ⟨⟩
    rfl
  refine session_step trivial trivial rfl ?_
  refine session_step ⟨by simp, by simp [leavingEvent]; rfl⟩ trivial rfl ?_
  refine session_step ?_ ?_ rfl everyStep_nil
  · rintro ev ⟨⟩ hfd
    exact absurd hfd (by decide)
  · rintro ev ⟨⟩
    rfl

/-- The session runs to its end. -/
theorem session_run : ∃ s', runSteps processStep startedWorker sessionInputs = .ok s' := ⟨_, rfl⟩

/-! ## The account along runs -/

/-- A legal run keeps the account in order, and closes nothing that is not open. -/
theorem processInv_run (h : ProcessInv inherited s) {inputs : List ProcessInput}
    (hlegal : EveryStep processStep LegalProcess s inputs) :
    EndsIn (· ≠ .badDescriptor) (ProcessInv inherited) (runSteps processStep s inputs) := by
  apply EndsIn.run (fun s i hinv hl => (processStep_spec hinv hl).mono ?_ fun _ h => h) h hlegal
  rintro e he rfl
  exact he

/-- **A worker accounts for its descriptors** in every state of a run, and no run closes a number
from zero on that is not open (`connect` closes -1 where `socket` fails, to no effect): those that
are open are those that were inherited, the two of the listening handler, and those of the live
pairs, each of one pair, which an entry of `client_to_backend` owns. -/
theorem descriptors_accounted (hstarted : Started d backendType s) {inputs : List ProcessInput}
    (hlegal : EveryStep processStep LegalProcess s inputs) :
    EndsIn (· ≠ .badDescriptor)
      (fun s' => Owns s'.worker ∧ Accounts pairFds (base (openFds d) s') s'.worker.heap
        (openFds s'.descriptors)) (runSteps processStep s inputs) :=
  (processInv_run hstarted.inv.1 hlegal).mono (fun _ h => h) fun _ h => ⟨h.owners, h.accounts⟩

/-- A client that comes and goes leaves the account in order. -/
theorem descriptors_accounted_session :
    EndsIn (· ≠ .badDescriptor)
      (fun s' => Owns s'.worker ∧ Accounts pairFds (base (openFds standardFds) s') s'.worker.heap
        (openFds s'.descriptors)) (runSteps processStep startedWorker sessionInputs) :=
  descriptors_accounted started_startedWorker (session_legal.mono fun _ _ h => h.1)

/-- **A worker leaves what it inherited**: if its startup fails, and at the end of its loop, every
descriptor that it opened is closed. -/
theorem ended_closes_all (hlegal : LegalStartup d io) :
    EndsIn (· = .runtimeError)
      (Sum.elim (fun d' => openFds d' = openFds d)
        (fun s => ∀ inputs, EveryStep processStep LegalProcess s inputs →
          ∀ s', runSteps processStep s inputs = .ok s' →
            (∀ fd, s'.worker.clientToBackend fd = none) →
            ∃ d', s'.finish = .ok d' ∧ openFds d' = openFds d))
      (WorkerProcess.start backendType isSsl io d) := by
  apply (start_spec hlegal).mono (fun _ h => h)
  rintro (d' | s) h
  · exact h
  · intro inputs hrun s' hs' hnone
    exact finish_spec ((processInv_run h.1 hrun).of_ok hs') hnone

/-- A worker that starts and ends leaves the three standard descriptors open. -/
theorem ended_closes_all_session :
    EndsIn (· = .runtimeError)
      (Sum.elim (fun d' => openFds d' = openFds standardFds)
        (fun s => ∀ inputs, EveryStep processStep LegalProcess s inputs →
          ∀ s', runSteps processStep s inputs = .ok s' →
            (∀ fd, s'.worker.clientToBackend fd = none) →
            ∃ d', s'.finish = .ok d' ∧ openFds d' = openFds standardFds))
      (WorkerProcess.start .loadBalancer false startupAnswer standardFds) :=
  ended_closes_all legal_startupAnswer

/-! ## Live pairs and stale entries -/

/-- The events of the pair's descriptors are dispatched to the pair. -/
def Routed (w : Worker) : Prop :=
  ∀ p h, w.heap p = some h → EventLoop.Entry w h.client p .client ∧
    ∀ fd, backendFd h = some fd → EventLoop.Entry w fd p .backend

/-- The entries of live pairs lead to them. -/
theorem ProcessInv.entries (hinv : ProcessInv inherited s) : Routed s.worker := by
  intro p h hlive
  refine ⟨(hinv.owners h.client p).mpr ⟨h, hlive, rfl⟩, fun fd hfd => ⟨?_, ?_⟩⟩
  · by_contra hsome
    obtain ⟨p', hentry⟩ := Option.ne_none_iff_exists'.mp hsome
    obtain ⟨h', hlive', hclient⟩ := (hinv.owners fd p').mp hentry
    have hmem : fd ∈ pairFds h := by simp [pairFds, hfd]
    have hmem' : fd ∈ pairFds h' := by
      rw [← Option.some.inj hclient]
      simp [pairFds]
    -- the descriptor would be that of two handlers
    obtain rfl := hinv.accounts.unique p p' h h' fd hlive hlive' hmem hmem'
    rw [hlive] at hlive'
    cases hlive'
    have hnodup := hinv.accounts.nodup p h hlive
    simp [pairFds, hfd, Option.some.inj hclient] at hnodup
  · exact hinv.routed p h fd hlive hfd

/-- **No stale entry shadows a live pair**: in every state of a run the descriptors of a live pair
lead to it, the client's by `client_to_backend`, the backend's by `backend_to_client` only. -/
theorem live_pairs_routed (hstarted : Started d backendType s) {inputs : List ProcessInput}
    (hlegal : EveryStep processStep LegalProcess s inputs) :
    EveryReached processStep (fun s' => Routed s'.worker) s inputs := by
  have hreached : EveryReached processStep (ProcessInv (openFds d)) s inputs :=
    everyReached_inv (fun _ _ _ hinv hl hstep => (processStep_spec hinv hl).of_ok hstep)
      hstarted.inv.1 hlegal
  exact fun pre hpre s' hrun => (hreached pre hpre s' hrun).entries

/-- The descriptors of a client that comes and goes lead to its pair while it is there. -/
theorem live_pairs_routed_session :
    EveryReached processStep (fun s' => Routed s'.worker) startedWorker sessionInputs :=
  live_pairs_routed started_startedWorker (session_legal.mono fun _ _ h => h.1)

/-- A descriptor that a live pair owns does not dangle. -/
theorem ProcessInv.not_dangling (hinv : ProcessInv inherited s)
    (hmem : fd ∈ owned pairFds s.worker.heap) : ¬ Dangling s.worker fd := by
  obtain ⟨p, h, hlive, hfd⟩ := hmem
  obtain ⟨hclient, hbackend⟩ := hinv.entries p h hlive
  rintro ⟨p', hentry, hdead⟩
  have hp : p' = p := by
    rcases List.mem_cons.mp hfd with rfl | hfd
    · have hclient : s.worker.clientToBackend h.client = some p := hclient
      rw [hclient, Option.some_or] at hentry
      exact (Option.some.inj hentry).symm
    · obtain ⟨hnone, hsome⟩ := hbackend fd (by simpa using hfd)
      rw [hnone, Option.none_or, hsome] at hentry
      exact (Option.some.inj hentry).symm
  rw [hp, hlive] at hdead
  cases hdead

/-- A step with events of open descriptors fails for want of events or in adding a descriptor
only. -/
theorem current_excuses (hinv : ProcessInv inherited s) {input : ProcessInput}
    (hlegal : LegalProcess s input) (hcurrent : Current s input) :
    EndsIn (fun e => e = .notWaiting ∨ e = .runtimeError) (ProcessInv inherited)
      (processStep s input) := by
  have hspec := processStep_spec hinv hlegal
  cases hstep : processStep s input with
  | ok s' => exact hspec.of_ok hstep
  | error e =>
    rw [hstep] at hspec
    cases e with
    | notWaiting => exact .inl rfl
    | runtimeError => exact .inr rfl
    | badDescriptor => exact hspec.elim
    | destroyed =>
      obtain ⟨ev, hhead, hfd, hdangling⟩ := hspec
      cases input with
      | hangUp => cases hstep
      | wait client events =>
        have hwait : s.wait client events = .error .destroyed := hstep
        unfold WorkerProcess.wait at hwait
        split at hwait <;> cases hwait
      | event =>
        refine absurd hdangling (hinv.not_dangling (hinv.owner (hcurrent ev hhead) fun hbase => ?_))
        exact hfd (hinv.batch ev (List.mem_of_mem_head? hhead) hbase).1

/-- **A destroyed pair is never used in a run whose events are of descriptors that are open** when
they are processed, however many entries of `backend_to_client` clients have left behind: such a
run can only be stopped by the loop being elsewhere or a descriptor that cannot be added.  What the
handlers of a pair answer is an input, and an exception of theirs is none of these answers. -/
theorem current_never_destroyed (hstarted : Started d backendType s) {inputs : List ProcessInput}
    (hlegal : EveryStep processStep LegalProcess s inputs)
    (hcurrent : EveryStep processStep Current s inputs) :
    EndsIn (fun e => e = .notWaiting ∨ e = .runtimeError) (fun _ => True)
      (runSteps processStep s inputs) := by
  have hboth : EveryStep processStep (fun s i => LegalProcess s i ∧ Current s i) s inputs :=
    fun pre i hpre s' hrun => ⟨hlegal pre i hpre s' hrun, hcurrent pre i hpre s' hrun⟩
  exact (EndsIn.run (fun s i hinv h => current_excuses hinv h.1 h.2) hstarted.inv.1 hboth).mono
    (fun _ h => h) fun _ _ => trivial

/-- No event of a client that comes and goes meets a destroyed pair. -/
theorem current_never_destroyed_session :
    EndsIn (fun e => e = .notWaiting ∨ e = .runtimeError) (fun _ => True)
      (runSteps processStep startedWorker sessionInputs) :=
  current_never_destroyed started_startedWorker (session_legal.mono fun _ _ h => h.1)
    (session_legal.mono fun _ _ h => h.2)

/-! ## A paused listening socket -/

/-- The listening socket is registered without events. -/
def Paused (s : WorkerProcess) : Prop :=
  s.descriptors.epoll s.worker.listenFd = some .nothing

/-- The worker is paused, and its pairs are among those of `s`. -/
structure PausedSince (s s' : WorkerProcess) : Prop where
  paused : Paused s'
  pairs : ∀ p h, s'.worker.heap p = some h → s.worker.heap p = some h

/-- A disconnect adds no pair to a paused worker. -/
theorem PausedSince.disconnected {s₀ : WorkerProcess} (hinv : ProcessInv inherited s)
    (h : PausedSince s₀ s) (hs' : Disconnected s s') : PausedSince s₀ s' := by
  cases hs' with
  | nothing => exact h
  | @pair p h' w d hr =>
    refine ⟨?_, fun q hq hlive => ?_⟩
    · show d.epoll w.listenFd = some .nothing
      rw [hr.listenFd, hr.closed.frame]
      · exact h.paused
      · exact fun hmem => hinv.accounts.apart _ ⟨p, h', hr.live, hmem⟩
          (listenFd_mem_base inherited s)
    · have hlive : w.heap q = some hq := hlive
      rw [hr.heap] at hlive
      by_cases hqp : q = p
      · rw [hqp, Function.update_self] at hlive
        cases hlive
      · rw [Function.update_of_ne hqp] at hlive
        exact h.pairs q hq hlive

/-- No step adds a pair to a paused worker. -/
theorem pausedSince_step {s₀ : WorkerProcess} (hinv : ProcessInv inherited s)
    (h : PausedSince s₀ s) {input : ProcessInput} (hlegal : LegalProcess s input)
    (hstep : processStep s input = .ok s') : PausedSince s₀ s' := by
  cases input with
  | hangUp =>
    cases hstep
    exact ⟨h.paused, h.pairs⟩
  | wait client events =>
    have hwait : s.wait client events = .ok s' := hstep
    unfold WorkerProcess.wait at hwait
    split at hwait
    · cases hwait
      exact ⟨h.paused, h.pairs⟩
    · cases hwait
  | event =>
    cases hbatch : s.batch with
    | nil =>
      simp only [processStep, WorkerProcess.processEvent, hbatch] at hstep
      cases hstep
    | cons ev events =>
      have hspec := (processEvent_spec hinv hbatch hlegal).of_ok hstep
      have hfd : ev.fd ≠ s.worker.listenFd := by
        intro hfd
        obtain ⟨-, hevents⟩ := hinv.batch ev (by simp [hbatch])
          (hfd ▸ listenFd_mem_base inherited s)
        have hpaused := h.paused
        unfold Paused at hpaused
        rw [← hfd, hevents] at hpaused
        cases hpaused
      rw [if_neg hfd] at hspec
      have hpopped : PausedSince s₀ { s with batch := events } := ⟨h.paused, h.pairs⟩
      exact hpopped.disconnected (hinv.pop hbatch).1 hspec

/-- **A worker that has paused its listening socket accepts nothing any more**: the socket stays
paused and every pair of a later state was there when it was. -/
theorem paused_accepts_none (hstarted : Started d backendType s) {before after : List ProcessInput}
    (hlegal : EveryStep processStep LegalProcess s (before ++ after)) {s₁ : WorkerProcess}
    (hrun : runSteps processStep s before = .ok s₁) (hpaused : Paused s₁) :
    EveryReached processStep (PausedSince s₁) s₁ after := by
  have hbefore : EveryStep processStep LegalProcess s before :=
    fun pre i hpre => hlegal pre i (hpre.trans (List.prefix_append _ _))
  have hafter : EveryStep processStep LegalProcess s₁ after := by
    intro pre i hpre s' hs'
    apply hlegal (before ++ pre) i
    · rw [List.append_assoc]
      exact (List.prefix_append_right_inj before).mpr hpre
    · exact (runSteps_append hrun pre).trans hs'
  have hinv := (processInv_run hstarted.inv.1 hbefore).of_ok hrun
  have hreached : EveryReached processStep
      (fun s => ProcessInv (openFds d) s ∧ PausedSince s₁ s) s₁ after :=
    everyReached_inv (fun _ _ _ h hl hstep => ⟨(processStep_spec h.1 hl).of_ok hstep,
      pausedSince_step h.1 h.2 hl hstep⟩) ⟨hinv, hpaused, fun _ _ h => h⟩ hafter
  exact fun pre hpre s' hs' => (hreached pre hpre s' hs').2

/-- No descriptor is left for the client's connection. -/
def fullEvent : ProcessEvent :=
  ⟨3, true, false, false, ⟨{ fd := none, noDescriptors := true }, 0, true, .noSocket⟩⟩

/-- A worker that has no descriptor left for a client accepts none any more. -/
theorem paused_accepts_none_full :
    ∃ s₁, runSteps processStep startedWorker [.wait 0 [fullEvent], .event] = .ok s₁ ∧
      EveryReached processStep (PausedSince s₁) s₁ [.wait 0 []] := by
  have hlegal : EveryStep processStep (fun s i => LegalProcess s i ∧ Current s i) startedWorker
      ([.wait 0 [fullEvent], .event] ++ [.wait 0 []]) := by
    refine session_step ⟨by simp, by simp [fullEvent]; rfl⟩ trivial rfl ?_
    refine session_step ?_ ?_ rfl ?_
    · rintro ev ⟨⟩ -
      exact ⟨by rintro fd ⟨⟩, rfl, by rintro fd ⟨⟩⟩
    · rintro ev ⟨⟩
      rfl
    exact session_step ⟨by simp, by simp⟩ trivial rfl everyStep_nil
  exact ⟨_, rfl, paused_accepts_none started_startedWorker (hlegal.mono fun _ _ h => h.1) rfl rfl⟩

/-! ## The maps -/

/-- Erasing a client does what it does in the model of the worker alone. -/
theorem eraseClient_worker (h : s.eraseClient fd = .ok s') :
    s'.worker = s.worker.eraseClient fd := by
  unfold WorkerProcess.eraseClient at h
  split at h
  · cases h
    rfl
  · obtain ⟨d, -, h⟩ := bind_eq_ok_iff.mp h
    cases h
    rfl

/-- A disconnect does what it does in the model of the worker alone. -/
theorem disconnect_worker (h : s.disconnect fd = .ok s') :
    s.worker.disconnect fd = .ok s'.worker := by
  unfold WorkerProcess.disconnect at h
  unfold Worker.disconnect
  split at h
  · rename_i hclient
    rw [if_pos hclient, eraseClient_worker h]
  · rename_i hclient
    rw [if_neg hclient]
    cases hbackend : s.worker.backendToClient fd with
    | none =>
      simp only [hbackend] at h
      cases h
      rfl
    | some p =>
      simp only [hbackend] at h
      cases hlive : s.worker.heap p with
      | none =>
        simp only [hlive] at h
        cases h
      | some handler =>
        simp only [hlive] at h ⊢
        exact congrArg Except.ok (eraseClient_worker h).symm

/-- The round of a descriptor that is dispatched. -/
theorem dispatched_worker {ev : ProcessEvent} {result : Bool}
    (h : (WorkerProcess.lift (s.worker.dispatch ev.fd result) >>= fun result =>
      if result = true then s.disconnect ev.fd else .ok s) = .ok s') :
    (s.worker.dispatch ev.fd result >>= fun result =>
      if result = true then s.worker.disconnect ev.fd else .ok s.worker) = .ok s'.worker := by
  obtain ⟨b, hdispatch, h⟩ := bind_eq_ok_iff.mp h
  refine bind_eq_ok_iff.mpr ⟨b, mapError_eq_ok_iff.mp hdispatch, ?_⟩
  split at h
  · rename_i hb
    rw [if_pos hb]
    exact disconnect_worker h
  · rename_i hb
    cases h
    rw [if_neg hb]

/-- What the listening socket brings is something that the maps can be given. -/
theorem arrival_refines (hinv : ProcessInv inherited s) (hlegal : LegalProcess s .event)
    {ev : ProcessEvent} {events : List ProcessEvent} (hbatch : s.batch = ev :: events)
    (hfd : ev.fd = s.worker.listenFd) (h : s.processEvent = .ok s') :
    ∃ ev, LegalInput s.worker (.event ev) ∧ s.worker.processEvent ev = .ok s'.worker := by
  have hspec := (processEvent_spec hinv hbatch hlegal).of_ok h
  rw [if_pos hfd] at hspec
  have haccept (accepted : Option Accepted) :
      s.worker.processEvent { ev.event with accepted } =
        .ok (s.worker.acceptNewConn accepted) := by
    unfold Worker.processEvent
    exact if_pos hfd
  cases hspec with
  | refused _ | paused _ =>
    refine ⟨_, ?_, haccept none⟩
    rintro a - ⟨⟩
  | @pair a d hfresh _ =>
    refine ⟨_, ?_, haccept (some a)⟩
    rintro a' - ⟨⟩
    exact hfresh

/-- A round of the process moves the maps as one of the worker does, for which the kernel keeps
what was assumed of it. -/
theorem processEvent_refines (hinv : ProcessInv inherited s) (hlegal : LegalProcess s .event)
    (h : s.processEvent = .ok s') :
    ∃ ev, LegalInput s.worker (.event ev) ∧ s.worker.processEvent ev = .ok s'.worker := by
  cases hbatch : s.batch with
  | nil =>
    simp only [WorkerProcess.processEvent, hbatch] at h
    cases h
  | cons ev events =>
    by_cases hfd : ev.fd = s.worker.listenFd
    · exact arrival_refines hinv hlegal hbatch hfd h
    · refine ⟨ev.event, by rintro a - ⟨⟩, ?_⟩
      unfold WorkerProcess.processEvent at h
      rw [hbatch] at h
      simp only [if_neg hfd] at h
      unfold Worker.processEvent
      rw [if_neg (show ev.event.fd ≠ s.worker.listenFd from hfd)]
      split at h
      · rename_i hin
        rw [if_pos (show ev.event.epollIn = true from hin)]
        exact dispatched_worker (s := { s with batch := events }) h
      · rename_i hin
        rw [if_neg (show ¬ ev.event.epollIn = true from hin)]
        split at h
        · rename_i hout
          rw [if_pos (show ev.event.epollOut = true from hout)]
          exact dispatched_worker (s := { s with batch := events }) h
        · rename_i hout
          rw [if_neg (show ¬ ev.event.epollOut = true from hout)]
          cases h
          rfl

/-- What a step of the process does to the maps, the worker does. -/
theorem processStep_refines (hinv : ProcessInv inherited s) {input : ProcessInput}
    (hlegal : LegalProcess s input) (hstep : processStep s input = .ok s') :
    Attains workerStep LegalInput s.worker s'.worker := by
  cases input with
  | hangUp =>
    cases hstep
    exact .refl _
  | wait client events =>
    have hwait : s.wait client events = .ok s' := hstep
    unfold WorkerProcess.wait at hwait
    split at hwait
    · cases hwait
      exact .refl _
    · cases hwait
  | event =>
    obtain ⟨ev, hlegalev, hmove⟩ := processEvent_refines hinv hlegal hstep
    exact .single hlegalev (show workerStep s.worker (.event ev) = .ok s'.worker from hmove)

/-- **The kernel keeps what the maps were assumed to be given**: the worker of a process moves as
in a run of its own, in which every connection that is accepted has descriptors that no live pair
has, and an address of its own. -/
theorem process_refines_worker (hstarted : Started d backendType s) {inputs : List ProcessInput}
    (hlegal : EveryStep processStep LegalProcess s inputs)
    (hrun : runSteps processStep s inputs = .ok s') :
    ∃ listenFd moves, EveryStep workerStep LegalInput { listenFd, backendType } moves ∧
      runSteps workerStep { listenFd, backendType } moves = .ok s'.worker := by
  obtain ⟨hinv, listenFd, hworker⟩ := hstarted.inv
  refine ⟨listenFd, ?_⟩
  rw [← hworker]
  obtain ⟨w, ⟨-, rfl⟩, hmoves⟩ : ∃ w, (ProcessInv (openFds d) s' ∧ s'.worker = w) ∧
      Attains workerStep LegalInput s.worker w :=
    hlegal.simulated (R := fun s w => ProcessInv (openFds d) s ∧ s.worker = w)
      (fun s i s' w h hl hstep => ⟨s'.worker, ⟨(processStep_spec h.1 hl).of_ok hstep, rfl⟩,
        h.2 ▸ processStep_refines h.1 hl hstep⟩) ⟨hinv, rfl⟩ hrun
  exact hmoves

/-- The maps move as in a run of the worker when a client comes and goes. -/
theorem process_refines_worker_session :
    ∃ s', runSteps processStep startedWorker sessionInputs = .ok s' ∧
      ∃ listenFd moves,
        EveryStep workerStep LegalInput { listenFd, backendType := .loadBalancer } moves ∧
        runSteps workerStep { listenFd, backendType := .loadBalancer } moves = .ok s'.worker := by
  obtain ⟨s', hrun⟩ := session_run
  exact ⟨s', hrun, process_refines_worker started_startedWorker
    (session_legal.mono fun _ _ h => h.1) hrun⟩

end PkuyoProxy.Analysis
