import PkuyoProxy.Model.WorkerLoop

/-!
# Workers that drain

A worker that was told to exit goes on while it has clients, and its listening socket stays
registered.  So its clients are those it had exactly as long as no event of the listening
socket finds a connection to accept (`draining_iff_noneAccepted`).
-/

set_option autoImplicit false

namespace PkuyoProxy.Analysis

open PkuyoProxy.Lib PkuyoProxy.Model

variable {w w' : Worker} {s s' : WorkerLoop}

/-! ## The clients of a worker -/

/-- An entry that is erased is not there, and the others are as they were. -/
theorem eraseClient_clients (w : Worker) (fd fd' : Fd) :
    (w.eraseClient fd).clientToBackend fd' = none ∨
      (w.eraseClient fd).clientToBackend fd' = w.clientToBackend fd' := by
  unfold Worker.eraseClient
  split
  · exact .inr rfl
  · by_cases h : fd' = fd
    · rw [h]
      exact .inl (Function.update_self _ _ _)
    · exact .inr (Function.update_of_ne h _ _)

/-- A disconnect changes a client's entry by removing it only. -/
theorem disconnect_clients {fd : Fd} (h : w.disconnect fd = .ok w') (fd' : Fd) :
    w'.clientToBackend fd' = none ∨ w'.clientToBackend fd' = w.clientToBackend fd' := by
  unfold Worker.disconnect at h
  split at h
  · cases h
    exact eraseClient_clients w fd fd'
  · split at h
    · cases h
      exact .inr rfl
    · split at h
      · cases h
      · cases h
        exact eraseClient_clients _ _ fd'

/-- An accept enters its client. -/
theorem acceptNewConn_clients (a : Accepted) (fd : Fd) :
    (w.acceptNewConn (some a)).clientToBackend fd =
      if fd = a.clientFd then some a.addr else (w.eraseClient a.clientFd).clientToBackend fd := by
  show Function.update _ a.clientFd _ fd = _
  rw [Function.update_apply]

/-- An event of another descriptor, or without a connection to accept, adds no client. -/
theorem processEvent_clients {ev : Worker.Event} (hev : ev.fd = w.listenFd → ev.accepted = none)
    (h : w.processEvent ev = .ok w') (fd : Fd) :
    w'.clientToBackend fd = none ∨ w'.clientToBackend fd = w.clientToBackend fd := by
  by_cases hfd : ev.fd = w.listenFd
  · rw [Worker.processEvent, if_pos hfd, hev hfd] at h
    cases h
    exact .inr rfl
  · by_cases hflag : ev.epollIn = true ∨ ev.epollOut = true
    · rw [Worker.processEvent_flagged hfd hflag] at h
      obtain ⟨result, -, h⟩ := bind_eq_ok_iff.mp h
      split at h
      · exact disconnect_clients h fd
      · cases h
        exact .inr rfl
    · rw [Worker.processEvent_unflagged hfd hflag] at h
      cases h
      exact .inr rfl

/-! ## Draining -/

/-- Once the worker was told to exit its clients are among those it had. -/
def Draining (s : WorkerLoop) : Prop :=
  s.needExit = true → ∀ fd n, s.clients fd = some n → s.atExit fd = some n

/-- Once the worker was told to exit no connection is accepted. -/
def NoneAccepted (s : WorkerLoop) : WorkerLoopInput → Prop
  | .event => s.needExit = true → ∀ ev, s.batch.head? = some ev →
      ev.fd = s.worker.listenFd → ev.accepted = none
  | _ => True

/-- The numbers of the connections are below that of the next one. -/
structure DrainInv (s : WorkerLoop) : Prop where
  draining : Draining s
  clients : ∀ fd n, s.clients fd = some n → n < s.accepted
  atExit : ∀ fd n, s.atExit fd = some n → n < s.accepted

/-- A descriptor is that of a client with a number exactly if it has an entry and this number. -/
theorem clients_eq_some {fd : Fd} {n : ℕ} :
    s.clients fd = some n ↔ (s.worker.clientToBackend fd).isSome = true ∧ s.number fd = n := by
  unfold WorkerLoop.clients
  cases s.worker.clientToBackend fd <;> simp

/-- Nothing is numbered where nothing is accepted. -/
theorem count_eq_self {ev : Worker.Event} (hev : ev.fd = s.worker.listenFd → ev.accepted = none) :
    s.count ev = s := by
  unfold WorkerLoop.count
  split
  · rename_i a ha
    apply if_neg
    intro hfd
    rw [hev hfd] at ha
    cases ha
  · rfl

/-- An accepted connection is given the next number. -/
theorem count_accepted {ev : Worker.Event} {a : Accepted} (hfd : ev.fd = s.worker.listenFd)
    (ha : ev.accepted = some a) :
    s.count ev = { s with
      number := Function.update s.number a.clientFd s.accepted
      accepted := s.accepted + 1 } := by
  simp [WorkerLoop.count, ha, hfd]

/-- An event that accepts nothing adds no client. -/
structure AcceptsNone (s s' : WorkerLoop) : Prop where
  needExit : s'.needExit = s.needExit
  atExit : s'.atExit = s.atExit
  accepted : s'.accepted = s.accepted
  clients : ∀ fd n, s'.clients fd = some n → s.clients fd = some n

/-- An event that accepts a connection gives it a new number. -/
structure Accepts (s : WorkerLoop) (fd : Fd) (s' : WorkerLoop) : Prop where
  needExit : s'.needExit = s.needExit
  atExit : s'.atExit = s.atExit
  accepted : s'.accepted = s.accepted + 1
  client : s'.clients fd = some s.accepted
  clients : ∀ fd' n, s'.clients fd' = some n → n = s.accepted ∨ s.clients fd' = some n

/-- An event without a new connection accepts none. -/
theorem quiet_of_event {ev : Worker.Event} {events : List Worker.Event}
    (hev : ev.fd = s.worker.listenFd → ev.accepted = none)
    (hw' : s.worker.processEvent ev = .ok w') :
    AcceptsNone s { s with worker := w', batch := events } := by
  refine ⟨rfl, rfl, rfl, fun fd n h => ?_⟩
  obtain ⟨hsome, hnumber⟩ := clients_eq_some.mp h
  rcases processEvent_clients hev hw' fd with hnone | hsame
  · rw [show w'.clientToBackend fd = none from hnone] at hsome
    cases hsome
  · exact clients_eq_some.mpr ⟨hsame ▸ hsome, hnumber⟩

/-- An event with one accepts it. -/
theorem accepts_of_event {a : Accepted} {events : List Worker.Event} :
    Accepts s a.clientFd
      { s with
        worker := s.worker.acceptNewConn (some a)
        batch := events
        number := Function.update s.number a.clientFd s.accepted
        accepted := s.accepted + 1 } := by
  refine ⟨rfl, rfl, rfl, ?_, fun fd n h => ?_⟩
  · rw [clients_eq_some]
    refine ⟨?_, Function.update_self _ _ _⟩
    show ((s.worker.acceptNewConn (some a)).clientToBackend a.clientFd).isSome = true
    rw [acceptNewConn_clients, if_pos rfl]
    rfl
  · obtain ⟨hsome, hnumber⟩ := clients_eq_some.mp h
    by_cases hfd : fd = a.clientFd
    · rw [hfd] at hnumber
      exact .inl (hnumber.symm.trans (Function.update_self _ _ _))
    · have hentry : ((s.worker.acceptNewConn (some a)).clientToBackend fd).isSome = true := hsome
      rw [acceptNewConn_clients, if_neg hfd] at hentry
      refine .inr (clients_eq_some.mpr ⟨?_, ?_⟩)
      · rcases eraseClient_clients s.worker a.clientFd fd with hnone | hsame
        · rw [hnone] at hentry
          cases hentry
        · rwa [hsame] at hentry
      · exact (Function.update_of_ne hfd _ _).symm.trans hnumber

/-- One round of the loop of `process_events`. -/
theorem loopEvent_cases (h : s.processEvent = .ok s') :
    ∃ ev, s.batch.head? = some ev ∧
      ((ev.fd = s.worker.listenFd → ev.accepted = none) ∧ AcceptsNone s s' ∨
        ∃ a, ev.fd = s.worker.listenFd ∧ ev.accepted = some a ∧ Accepts s a.clientFd s') := by
  unfold WorkerLoop.processEvent at h
  split at h
  · cases h
  · rename_i ev events hbatch
    obtain ⟨w', hw', h⟩ := bind_eq_ok_iff.mp h
    have hw' := mapError_eq_ok_iff.mp hw'
    cases h
    refine ⟨ev, by rw [hbatch]; rfl, ?_⟩
    by_cases hev : ev.fd = s.worker.listenFd → ev.accepted = none
    · rw [count_eq_self hev]
      exact .inl ⟨hev, quiet_of_event hev hw'⟩
    · push Not at hev
      obtain ⟨hfd, hsome⟩ := hev
      obtain ⟨a, ha⟩ := Option.ne_none_iff_exists'.mp hsome
      rw [Worker.processEvent, if_pos hfd, ha] at hw'
      cases hw'
      rw [count_accepted hfd ha]
      exact .inr ⟨a, hfd, ha, accepts_of_event⟩

/-- An event that accepts nothing once the worker was told to exit keeps the invariant. -/
theorem event_keeps (h : DrainInv s) (hnone : NoneAccepted s .event)
    (hs' : s.processEvent = .ok s') : DrainInv s' := by
  obtain ⟨ev, hhead, ⟨-, hquiet⟩ | ⟨a, hfd, ha, haccepts⟩⟩ := loopEvent_cases hs'
  · refine ⟨fun hexit fd n hn => ?_, fun fd n hn => ?_, fun fd n hn => ?_⟩
    · rw [hquiet.needExit] at hexit
      rw [hquiet.atExit]
      exact h.draining hexit fd n (hquiet.clients fd n hn)
    · rw [hquiet.accepted]
      exact h.clients fd n (hquiet.clients fd n hn)
    · rw [hquiet.atExit] at hn
      rw [hquiet.accepted]
      exact h.atExit fd n hn
  · refine ⟨fun hexit => ?_, fun fd n hn => ?_, fun fd n hn => ?_⟩
    · rw [haccepts.needExit] at hexit
      rw [hnone hexit ev hhead hfd] at ha
      cases ha
    · rw [haccepts.accepted]
      rcases haccepts.clients fd n hn with hnew | hold
      · omega
      · have hlt := h.clients fd n hold
        omega
    · rw [haccepts.atExit] at hn
      rw [haccepts.accepted]
      have hlt := h.atExit fd n hn
      omega

/-- The connection that is accepted was not there. -/
theorem event_breaks (h : DrainInv s) (hsome : ¬ NoneAccepted s .event)
    (hs' : s.processEvent = .ok s') : ¬ Draining s' := by
  unfold NoneAccepted at hsome
  push Not at hsome
  obtain ⟨hexit, ev, hhead, hfd, haccepted⟩ := hsome
  obtain ⟨ev', hhead', ⟨hnone, -⟩ | ⟨a, -, -, haccepts⟩⟩ := loopEvent_cases hs'
  · obtain rfl : ev = ev' := Option.some.inj (hhead.symm.trans hhead')
    exact absurd (hnone hfd) haccepted
  · intro hafter
    have hold := hafter (haccepts.needExit.trans hexit) a.clientFd s.accepted haccepts.client
    rw [haccepts.atExit] at hold
    exact lt_irrefl _ (h.atExit _ _ hold)

/-! ## Runs -/

/-- A step that accepts nothing once the worker was told to exit keeps the invariant. -/
theorem workerLoopStep_keeps (h : DrainInv s) {input : WorkerLoopInput}
    (hnone : NoneAccepted s input) (hs' : workerLoopStep s input = .ok s') : DrainInv s' := by
  cases input with
  | hangUp =>
    cases hs'
    unfold WorkerLoop.reloadSignalHandler
    split
    · exact h
    · exact ⟨fun _ fd n hn => hn, h.clients, h.clients⟩
  | wait client events =>
    have hwait : s.wait client events = .ok s' := hs'
    unfold WorkerLoop.wait at hwait
    split at hwait
    · cases hwait
      exact ⟨h.draining, h.clients, h.atExit⟩
    · cases hwait
  | event => exact event_keeps h hnone hs'

/-- The invariant holds at the start. -/
theorem drainInv_started (listenFd : Fd) (backendType : BackendType) :
    DrainInv (.started listenFd backendType) := by
  refine ⟨?_, ?_, ?_⟩
  · rintro ⟨⟩
  · rintro fd n ⟨⟩
  · rintro fd n ⟨⟩

/-- **A worker that was told to exit has no other clients than it had** in every state of a run
exactly when no event of the listening socket finds a connection to accept from then on. -/
theorem draining_iff_noneAccepted (listenFd : Fd) (backendType : BackendType)
    (inputs : List WorkerLoopInput) :
    EveryReached workerLoopStep Draining (.started listenFd backendType) inputs ↔
      EveryTaken workerLoopStep NoneAccepted (.started listenFd backendType) inputs := by
  apply everyReached_iff (fun _ h => h.draining)
    (fun _ _ _ h _ hnone hs' => workerLoopStep_keeps h hnone hs') ?_
    (drainInv_started listenFd backendType) (fun _ _ _ _ _ => trivial)
  intro s input s' h _ hsome hs'
  cases input with
  | event => exact event_breaks h hsome hs'
  | hangUp | wait _ _ => exact absurd trivial hsome

/-- An event of the listening socket 3 that finds a client. -/
def clientEvent (clientFd : Fd) (addr : Addr) : Worker.Event :=
  ⟨3, true, false, false, some ⟨clientFd, addr, none⟩⟩

/-- The worker is told to exit while it has a client, and accepts another one. -/
theorem accept_not_draining :
    ¬ ∀ (listenFd : Fd) (backendType : BackendType) (inputs : List WorkerLoopInput),
      EveryReached workerLoopStep Draining (.started listenFd backendType) inputs := by
  intro hall
  have hend := hall 3 .static [.wait 0 [clientEvent 5 0], .event, .hangUp,
    .wait 5 [clientEvent 6 1], .event] _ List.prefix_rfl _ rfl
  exact absurd (hend rfl 6 1 rfl) (by decide)

end PkuyoProxy.Analysis
