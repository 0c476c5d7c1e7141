import PkuyoProxy.Analysis.ProcessRuns
import PkuyoProxy.Model.WorkerRounds

/-!
# Signals that a worker misses

The test of `needExit` and the wait for events are two steps.  A worker whose SIGHUP comes between
them waits although it has been told to exit; if it has no clients then nothing but a new client or
another SIGHUP ends the wait (`stranded_wakes`), and this is the only way to such a wait
(`stranded_iff_missed`).  Whatever signals are missed, the worker does what one does whose test and
wait are one step, with the signal behind them (`rounds_refine_process`).
-/

set_option autoImplicit false

namespace PkuyoProxy.Analysis

open PkuyoProxy.Lib PkuyoProxy.Model

variable {d : Descriptors} {backendType : BackendType} {inherited : Set Fd} {p t : WorkerProcess}
  {s s' : WorkerRounds} {input : RoundInput} {inputs : List RoundInput}

/-! ## Steps -/

/-- The worker owns a pair. -/
def HasClients (w : Worker) : Prop := ∃ fd, (w.clientToBackend fd).isSome = true

/-- The test sees a client if there is one, and the kernel keeps to its contract. -/
def LegalRound (s : WorkerRounds) : RoundInput → Prop
  | .test client => HasClients s.process.worker →
      (s.process.worker.clientToBackend client).isSome = true
  | .ready events => LegalBatch s.process.descriptors events
  | .event => LegalProcess s.process .event
  | .wait | .hangUp => True

/-- What a step does. -/
inductive RoundMove (s : WorkerRounds) : RoundInput → WorkerRounds → Prop
  | goesOn {client : Fd} (hpoint : s.point = .test)
      (hgo : s.process.needExit = false ∨ HasClients s.process.worker) :
      RoundMove s (.test client) { s with point := .beforeWait }
  | returns {client : Fd} (hpoint : s.point = .test) (hexit : s.process.needExit = true)
      (hnone : ¬ HasClients s.process.worker) :
      RoundMove s (.test client) { s with point := .returned }
  | wait (hpoint : s.point = .beforeWait) : RoundMove s .wait { s with point := .waiting }
  | ready {events : List ProcessEvent} (hpoint : s.point = .waiting) (hsome : events ≠ [])
      (hmax : events.length ≤ maxEvents) :
      RoundMove s (.ready events)
        { process := { s.process with batch := events }, point := .serving }
  | event {process : WorkerProcess} (hpoint : s.point = .serving)
      (hstep : s.process.processEvent = .ok process) :
      RoundMove s .event { process, point := if process.batch = [] then .test else .serving }
  | woken (hpoint : s.point = .waiting) :
      RoundMove s .hangUp { process := { s.process with needExit := true }, point := .test }
  | flagged (hpoint : s.point ≠ .waiting) :
      RoundMove s .hangUp { s with process := { s.process with needExit := true } }

/-- A legal test of the flag is one of the moves. -/
theorem test_move {client : Fd} (hlegal : LegalRound s (.test client)) (hpoint : s.point = .test) :
    RoundMove s (.test client) (s.test client) := by
  unfold WorkerRounds.test
  dsimp only
  split
  · rename_i hgo
    refine .goesOn hpoint ?_
    rcases Bool.or_eq_true_iff.mp hgo with hexit | hclient
    · exact .inl (by simpa using hexit)
    · exact .inr ⟨client, hclient⟩
  · rename_i hstop
    obtain ⟨hexit, hclient⟩ := Bool.or_eq_false_iff.mp (Bool.eq_false_iff.mpr hstop)
    refine .returns hpoint (by simpa using hexit) fun hclients => ?_
    rw [hlegal hclients] at hclient
    cases hclient

/-- Every legal step is one of the moves. -/
theorem roundStep_move (hlegal : LegalRound s input) (hstep : roundStep s input = .ok s') :
    RoundMove s input s' := by
  unfold roundStep at hstep
  cases input with
  | test client =>
    dsimp only at hstep
    split at hstep
    · rename_i hpoint
      cases hstep
      exact test_move hlegal hpoint
    · cases hstep
  | wait =>
    dsimp only at hstep
    split at hstep
    · rename_i hpoint
      cases hstep
      exact .wait hpoint
    · cases hstep
  | ready events =>
    dsimp only at hstep
    split at hstep
    · rename_i hpoint
      unfold WorkerRounds.ready at hstep
      split at hstep
      · rename_i hevents
        cases hstep
        exact .ready hpoint hevents.1 hevents.2
      · cases hstep
    · cases hstep
  | event =>
    dsimp only at hstep
    split at hstep
    · rename_i hpoint
      obtain ⟨process, hprocess, hstep⟩ := bind_eq_ok_iff.mp hstep
      cases hstep
      exact .event hpoint (mapError_eq_ok_iff.mp hprocess)
    · cases hstep
  | hangUp =>
    dsimp only at hstep
    cases hstep
    unfold WorkerRounds.reloadSignalHandler
    by_cases hpoint : s.point = .waiting
    · rw [if_pos hpoint]
      exact .woken hpoint
    · rw [if_neg hpoint]
      exact .flagged hpoint

/-! ## One step for the test and the wait -/

/-- The process `t` has done what the worker has, up to a SIGHUP that it is told of when the wait
has ended. -/
structure Lags (s : WorkerRounds) (t : WorkerProcess) : Prop where
  same : s.process = { t with needExit := s.process.needExit }
  raised : t.needExit = true → s.process.needExit = true
  seen : s.point ≠ .beforeWait → s.point ≠ .waiting → t.needExit = s.process.needExit
  goesOn : s.point = .beforeWait ∨ s.point = .waiting → t.needExit = false ∨ HasClients t.worker
  idle : s.point ≠ .serving → s.process.batch = []

/-- Once both flags agree so do the processes. -/
theorem Lags.eq (h : Lags s t) (hflag : t.needExit = s.process.needExit) : s.process = t := by
  rw [h.same, ← hflag]

/-- A process that lags has the worker's maps. -/
theorem Lags.worker (h : Lags s t) : s.process.worker = t.worker := by rw [h.same]

/-- A process that lags has the worker's descriptors. -/
theorem Lags.descriptors (h : Lags s t) : s.process.descriptors = t.descriptors := by
  rw [h.same]

/-- A process that lags has the worker's batch. -/
theorem Lags.batch (h : Lags s t) : s.process.batch = t.batch := by rw [h.same]

/-- The wait ends with events, and the process is told of the signal that was missed. -/
theorem Lags.ready (h : Lags s t) (hpoint : s.point = .waiting) {events : List ProcessEvent}
    (hlegal : LegalBatch s.process.descriptors events) (hmax : events.length ≤ maxEvents) :
    Attains processStep LegalProcess t
      { t with batch := events, needExit := s.process.needExit } := by
  obtain ⟨client, hgo⟩ : ∃ client : Fd,
      (!t.needExit || (t.worker.clientToBackend client).isSome) = true := by
    rcases h.goesOn (.inr hpoint) with hexit | ⟨client, hclient⟩
    · exact ⟨0, by simp [hexit]⟩
    · exact ⟨client, by simp [hclient]⟩
  have hbatch : t.batch = [] := h.batch ▸ h.idle (by simp [hpoint])
  have hwait : processStep t (.wait client events) = .ok { t with batch := events } := by
    show t.wait client events = _
    unfold WorkerProcess.wait
    exact if_pos ⟨hbatch, hgo, hmax⟩
  have hfirst : Attains processStep LegalProcess t { t with batch := events } := by
    refine .single ?_ hwait
    rw [h.descriptors] at hlegal
    exact hlegal
  cases hexit : s.process.needExit with
  | true => exact hfirst.trans (.single (i := .hangUp) trivial rfl)
  | false =>
    have hflag : t.needExit = false := by
      by_contra hraised
      have htrue := h.raised (by simpa using hraised)
      rw [hexit] at htrue
      cases htrue
    rw [← hflag]
    exact hfirst

/-- A SIGHUP sets the flag of the process. -/
theorem hangUp_attained (t : WorkerProcess) :
    Attains processStep LegalProcess t { t with needExit := true } :=
  .single (i := .hangUp) trivial rfl

/-- A step of the worker is followed by moves of the process, and leaves it lagging at most. -/
theorem Lags.step (h : Lags s t) (hlegal : LegalRound s input)
    (hstep : roundStep s input = .ok s') :
    ∃ t', Lags s' t' ∧ Attains processStep LegalProcess t t' := by
  cases roundStep_move hlegal hstep with
  | goesOn hpoint hgo =>
    have hflag := h.seen (by simp [hpoint]) (by simp [hpoint])
    refine ⟨t, ⟨h.same, h.raised, by simp, fun _ => ?_, fun _ => h.idle (by simp [hpoint])⟩,
      .refl t⟩
    rw [hflag, ← h.worker]
    exact hgo
  | returns hpoint =>
    exact ⟨t, ⟨h.same, h.raised, fun _ _ => h.seen (by simp [hpoint]) (by simp [hpoint]), by simp,
      fun _ => h.idle (by simp [hpoint])⟩, .refl t⟩
  | wait hpoint =>
    exact ⟨t, ⟨h.same, h.raised, by simp, fun _ => h.goesOn (.inl hpoint),
      fun _ => h.idle (by simp [hpoint])⟩, .refl t⟩
  | @ready events hpoint _ hmax =>
    refine ⟨{ t with batch := events, needExit := s.process.needExit },
      ⟨?_, id, fun _ _ => rfl, by simp, by simp⟩, h.ready hpoint hlegal hmax⟩
    show { s.process with batch := events } = _
    rw [h.same]
  | @event process hpoint hprocess =>
    have heq := h.eq (h.seen (by simp [hpoint]) (by simp [hpoint]))
    rw [← heq]
    refine ⟨process, ⟨rfl, id, fun _ _ => rfl, ?_, ?_⟩, .single (i := .event) hlegal hprocess⟩
    · dsimp only
      split <;> simp
    · dsimp only
      split
      · exact fun _ => ‹_›
      · simp
  | woken hpoint =>
    refine ⟨{ t with needExit := true }, ⟨?_, fun _ => rfl, fun _ _ => rfl, by simp,
      fun _ => h.idle (by simp [hpoint])⟩, hangUp_attained t⟩
    show { s.process with needExit := true } = _
    rw [h.same]
  | flagged hpoint =>
    have hsame : { s.process with needExit := true } = { t with needExit := true } := by rw [h.same]
    by_cases hbefore : s.point = .beforeWait
    · -- the signal comes too late for the test, and is put behind the wait
      exact ⟨t, ⟨hsame, fun _ => rfl, fun hnot => absurd hbefore hnot, h.goesOn, h.idle⟩, .refl t⟩
    · refine ⟨{ t with needExit := true }, ⟨hsame, fun _ => rfl, fun _ _ => rfl, ?_, h.idle⟩,
        hangUp_attained t⟩
      rintro (hp | hp)
      · exact absurd hp hbefore
      · exact absurd hp hpoint

/-- A started process has no batch under way. -/
theorem Started.batch (h : Started d backendType p) : p.batch = [] := by
  obtain ⟨isSsl, io, -, hstart⟩ := h
  obtain ⟨⟨failed, listenFd, epollFd, d'⟩, -, hstart⟩ := bind_eq_ok_iff.mp hstart
  dsimp only at hstart
  split at hstart
  · obtain ⟨d'', -, hstart⟩ := bind_eq_ok_iff.mp hstart
    cases hstart
  · cases hstart
    rfl

/-- A worker that starts is followed by the process that starts. -/
theorem lags_started (h : Started d backendType p) : Lags { process := p } p :=
  ⟨rfl, id, fun _ _ => rfl, by simp, fun _ => h.batch⟩

/-- The SIGHUP comes between the test and the wait. -/
def missedInputs : List RoundInput := [.test 0, .hangUp, .wait]

/-- The worker that has started has no clients. -/
theorem no_clients_startedWorker : ¬ HasClients startedWorker.worker := by
  rintro ⟨fd, hfd⟩
  cases hfd

/-- The run with the missed signal is legal. -/
theorem legal_missedInputs (last : RoundInput)
    (hlast : ∀ s, runSteps roundStep { process := startedWorker } missedInputs = .ok s →
      LegalRound s last) :
    EveryStep roundStep LegalRound { process := startedWorker } (missedInputs ++ [last]) := by
  refine everyStep_concat.mpr ⟨everyStep_cons.mpr ⟨?_, fun s _ => ?_⟩, hlast⟩
  · exact fun hclients => absurd hclients no_clients_startedWorker
  · refine everyStep_of_mem fun i hi s' => ?_
    rcases List.mem_cons.mp hi with rfl | hi
    · trivial
    · rw [List.mem_singleton.mp hi]
      trivial

/-- **The test and the wait can be taken for one step**: whenever the signals come, the process of a
worker moves as in a run in which they are one, and the signals between them come behind it. -/
theorem rounds_refine_process (hstarted : Started d backendType p)
    (hlegal : EveryStep roundStep LegalRound { process := p } inputs)
    (hrun : runSteps roundStep { process := p } inputs = .ok s) :
    ∃ t, Lags s t ∧ ∃ moves, EveryStep processStep LegalProcess p moves ∧
      runSteps processStep p moves = .ok t :=
  hlegal.simulated (fun _ _ _ _ h hl hstep => h.step hl hstep) (lags_started hstarted) hrun

/-- The run with the missed signal is matched by one of the process. -/
theorem rounds_refine_process_missed :
    ∃ s, runSteps roundStep { process := startedWorker } missedInputs = .ok s ∧
      ∃ t, Lags s t ∧ ∃ moves, EveryStep processStep LegalProcess startedWorker moves ∧
        runSteps processStep startedWorker moves = .ok t := by
  obtain ⟨hlegal, -⟩ := everyStep_concat.mp (legal_missedInputs .hangUp fun _ _ => trivial)
  exact ⟨_, rfl, rounds_refine_process started_startedWorker hlegal rfl⟩

/-- The account of the descriptors is in order at every point of the loop. -/
theorem rounds_inv (hstarted : Started d backendType p)
    (hlegal : EveryStep roundStep LegalRound { process := p } inputs)
    (hrun : runSteps roundStep { process := p } inputs = .ok s) :
    ProcessInv (openFds d) s.process := by
  obtain ⟨t, hlags, moves, hmoves, hend⟩ := rounds_refine_process hstarted hlegal hrun
  have hinv := (processInv_run hstarted.inv.1 hmoves).of_ok hend
  rw [hlags.same]
  exact hinv.withBatch _ hinv.nodup hinv.batch

/-! ## Waiting for nothing -/

/-- The worker was told to exit and has no clients. -/
structure Done (p : WorkerProcess) : Prop where
  needExit : p.needExit = true
  none : ¬ HasClients p.worker

/-- It waits all the same. -/
structure Stranded (s : WorkerRounds) : Prop where
  waiting : s.point = .waiting
  done : Done s.process

/-- The worker has found that it is to go on, and has no clients. -/
structure Unwarned (s : WorkerRounds) : Prop where
  point : s.point = .beforeWait
  goesOn : s.process.needExit = false
  none : ¬ HasClients s.process.worker

/-- The worker with the flag set. -/
def told (s : WorkerRounds) : WorkerRounds :=
  { s with process := { s.process with needExit := true } }

/-- However many signals come, they set the flag. -/
theorem told_run (hpoint : s.point ≠ .waiting) (k : ℕ) :
    runSteps roundStep s (List.replicate (k + 1) .hangUp) = .ok (told s) := by
  have hstep (s : WorkerRounds) (hpoint : s.point ≠ .waiting) :
      roundStep s .hangUp = .ok (told s) := by
    show Except.ok s.reloadSignalHandler = _
    unfold WorkerRounds.reloadSignalHandler
    rw [if_neg hpoint]
    rfl
  induction k generalizing s with
  | zero => exact runSteps_cons (hstep s hpoint) []
  | succ k ih =>
    rw [List.replicate_succ, runSteps_cons (hstep s hpoint)]
    exact ih (s := told s) hpoint

/-- A worker that is about to wait in vain was told of it behind the test. -/
theorem done_beforeWait (hlegal : EveryStep roundStep LegalRound { process := p } inputs)
    (hrun : runSteps roundStep { process := p } inputs = .ok s) (hpoint : s.point = .beforeWait)
    (hdone : Done s.process) :
    ∃ before k s₁, inputs = before ++ List.replicate (k + 1) .hangUp ∧
      runSteps roundStep { process := p } before = .ok s₁ ∧ Unwarned s₁ := by
  induction inputs using List.reverseRecOn generalizing s with
  | nil =>
    cases hrun
    cases hpoint
  | append_singleton inputs input ih =>
    obtain ⟨s₁, hrun₁, hstep⟩ := runSteps_concat_eq_ok hrun
    obtain ⟨hlegal₁, hlast⟩ := everyStep_concat.mp hlegal
    cases roundStep_move (hlast s₁ hrun₁) hstep with
    | goesOn _ hgo =>
      rcases hgo with hexit | hclients
      · have htrue := hdone.needExit
        rw [hexit] at htrue
        cases htrue
      · exact absurd hclients hdone.none
    | flagged hwaiting =>
      cases hexit : s₁.process.needExit with
      | false =>
        exact ⟨inputs, 0, s₁, rfl, hrun₁, hpoint, hexit, hdone.none⟩
      | true =>
        obtain ⟨before, k, s₂, rfl, hrun₂, hunwarned⟩ := ih hlegal₁ hrun₁ hpoint ⟨hexit, hdone.none⟩
        refine ⟨before, k + 1, s₂, ?_, hrun₂, hunwarned⟩
        rw [List.append_assoc, ← List.replicate_succ']
    | event _ _ =>
      dsimp only at hpoint
      split at hpoint <;> cases hpoint
    | returns | wait | ready | woken => cases hpoint

/-- **A worker waits in vain exactly if it missed a signal**: one that has been told to exit and has
no clients is in `epoll_wait` if and only if the SIGHUP came between the test of the flag and the
wait, and nothing has come since. -/
theorem stranded_iff_missed (hlegal : EveryStep roundStep LegalRound { process := p } inputs)
    (hrun : runSteps roundStep { process := p } inputs = .ok s) :
    Stranded s ↔ ∃ before k s₁, inputs = before ++ List.replicate (k + 1) .hangUp ++ [.wait] ∧
      runSteps roundStep { process := p } before = .ok s₁ ∧ Unwarned s₁ := by
  constructor
  · intro hstranded
    have hpoint := hstranded.waiting
    induction inputs using List.reverseRecOn with
    | nil =>
      cases hrun
      cases hpoint
    | append_singleton inputs input =>
      obtain ⟨s₁, hrun₁, hstep⟩ := runSteps_concat_eq_ok hrun
      obtain ⟨hlegal₁, hlast⟩ := everyStep_concat.mp hlegal
      cases roundStep_move (hlast s₁ hrun₁) hstep with
      | wait hbefore =>
        obtain ⟨before, k, s₂, rfl, hrun₂, hunwarned⟩ :=
          done_beforeWait hlegal₁ hrun₁ hbefore hstranded.done
        exact ⟨before, k, s₂, rfl, hrun₂, hunwarned⟩
      | flagged hwaiting => exact absurd hpoint hwaiting
      | event _ _ =>
        dsimp only at hpoint
        split at hpoint <;> cases hpoint
      | goesOn | returns | ready | woken => cases hpoint
  · rintro ⟨before, k, s₁, rfl, hbefore, hunwarned⟩
    have htold := (runSteps_append hbefore _).trans
      (told_run (s := s₁) (by simp [hunwarned.point]) k)
    have hwait : roundStep (told s₁) .wait = .ok { told s₁ with point := .waiting } :=
      if_pos hunwarned.point
    rw [runSteps_concat htold, hwait] at hrun
    cases hrun
    exact ⟨rfl, rfl, hunwarned.none⟩

/-- The equivalence behind the run with the missed signal. -/
theorem stranded_iff_missed_signal :
    ∃ s, runSteps roundStep { process := startedWorker } missedInputs = .ok s ∧
      (Stranded s ↔ ∃ before k s₁,
        missedInputs = before ++ List.replicate (k + 1) .hangUp ++ [.wait] ∧
        runSteps roundStep { process := startedWorker } before = .ok s₁ ∧ Unwarned s₁) := by
  obtain ⟨hlegal, -⟩ := everyStep_concat.mp (legal_missedInputs .hangUp fun _ _ => trivial)
  exact ⟨_, rfl, stranded_iff_missed hlegal rfl⟩

/-- The listening socket is the only descriptor that is watched for a worker without clients. -/
theorem ProcessInv.watched_alone {fd : Fd} (hinv : ProcessInv inherited p)
    (hnone : ¬ HasClients p.worker) (hwatched : p.descriptors.epoll fd ≠ none) :
    fd = p.worker.listenFd := by
  refine (hinv.registered fd hwatched).resolve_right ?_
  rintro ⟨a, h, hlive, -⟩
  refine hnone ⟨h.client, ?_⟩
  rw [(hinv.owners h.client a).mpr ⟨h, hlive, rfl⟩]
  rfl

/-- **What ends such a wait**: another SIGHUP, behind which the worker is to return, or an event of
the listening socket, which brings a client for a configuration that was replaced. -/
theorem stranded_wakes (hstarted : Started d backendType p)
    (hlegal : EveryStep roundStep LegalRound { process := p } (inputs ++ [input]))
    (hrun : runSteps roundStep { process := p } inputs = .ok s) (hstranded : Stranded s)
    (hstep : roundStep s input = .ok s') :
    (input = .hangUp ∧ s'.point = .test ∧ Done s'.process) ∨
      ∃ ev, input = .ready [ev] ∧ ev.fd = s.process.worker.listenFd := by
  obtain ⟨hbefore, hlast⟩ := everyStep_concat.mp hlegal
  have hpoint := hstranded.waiting
  have hinput := hlast s hrun
  cases roundStep_move hinput hstep with
  | woken => exact .inl ⟨rfl, rfl, rfl, hstranded.done.none⟩
  | flagged hwaiting => exact absurd hpoint hwaiting
  | @ready events _ hsome =>
    have hinv := rounds_inv hstarted hbefore hrun
    have hbatch : LegalBatch s.process.descriptors events := hinput
    have hlisten (ev : ProcessEvent) (hev : ev ∈ events) : ev.fd = s.process.worker.listenFd := by
      refine hinv.watched_alone hstranded.done.none ?_
      rw [hbatch.watched ev hev]
      simp
    right
    -- two events would be of one descriptor
    match events, hsome with
    | [ev], _ => exact ⟨ev, rfl, hlisten ev (by simp)⟩
    | ev :: ev' :: rest, _ =>
      have hnodup := hbatch.nodup
      rw [List.map_cons, List.nodup_cons, hlisten ev (by simp)] at hnodup
      refine absurd ?_ hnodup.1
      rw [← hlisten ev' (by simp)]
      simp
  | goesOn hp | returns hp | wait hp | event hp =>
    rw [hpoint] at hp
    cases hp

/-- A client comes to the worker that has missed the signal. -/
theorem stranded_wakes_arrival :
    ∃ s s', runSteps roundStep { process := startedWorker } missedInputs = .ok s ∧
      roundStep s (.ready [arrivalEvent]) = .ok s' ∧
      ((RoundInput.ready [arrivalEvent] = .hangUp ∧ s'.point = .test ∧ Done s'.process) ∨
        ∃ ev, RoundInput.ready [arrivalEvent] = .ready [ev] ∧
          ev.fd = s.process.worker.listenFd) := by
  refine ⟨_, _, rfl, rfl, stranded_wakes started_startedWorker (legal_missedInputs _ ?_) rfl
    ⟨rfl, rfl, no_clients_startedWorker⟩ rfl⟩
  rintro s ⟨⟩
  exact ⟨by simp, by simp [arrivalEvent]; rfl⟩

end PkuyoProxy.Analysis
