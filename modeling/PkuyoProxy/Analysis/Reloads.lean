import PkuyoProxy.Analysis.BalancerSafety
import PkuyoProxy.Model.MainLoop

/-!
# Requests to reload

The loop of `init` resets `need_reload` behind the reload, so a request that arrives while the
reload runs is dropped, and one between the test and `pause` waits for the next signal
(`requestKept_iff_inTime`).  A request reaches the listeners as well: they exit although the
main process may find a configuration it rejects, and exits, or sleep over the request in `pause`
(`serving_of_accepted`).
-/

set_option autoImplicit false

namespace PkuyoProxy.Analysis

open PkuyoProxy.Lib PkuyoProxy.Model

variable {s s' : MainProcess} {file : ConfigFile} {forked : Bool}

/-! ## One step of the loop -/

/-- What a step of the main process does. -/
inductive LoopMove (s : MainProcess) (file : ConfigFile) (forked : Bool) : MainProcess → Prop
  | test (h : s.point = .test) :
      LoopMove s file forked
        { s with point := if s.needReload then .load else .beforePause, unseen := false }
  | accepted (h : s.point = .load) (config : ProxyConfig)
      (hload : file.load = .ok (some config)) :
      LoopMove s file forked
        { s with
          point := .fork config.listenerCount.toNat
          generations := [] :: s.generations
          loaded := true
          requested := false }
  | rejected (h : s.point = .load) (hload : ∀ config, file.load ≠ .ok (some config)) :
      LoopMove s file forked { s with point := .ended, requested := false }
  | allForked (h : s.point = .fork 0) : LoopMove s file forked { s with point := .reset }
  | forked (n : ℕ) (h : s.point = .fork (n + 1)) (hforked : forked = true) :
      LoopMove s file forked
        { s with
          point := .fork n
          generations := s.generations.modifyHead (· ++ [.inherited]) }
  | notForked (n : ℕ) (h : s.point = .fork (n + 1)) (hforked : forked = false) :
      LoopMove s file forked { s with point := .ended }
  | reset (h : s.point = .reset) :
      LoopMove s file forked { s with point := .beforePause, needReload := false, unseen := false }
  | pause (h : s.point = .beforePause) : LoopMove s file forked { s with point := .paused }

/-- Reading the configuration is one of the moves. -/
theorem reloadConfig_move (h : s.point = .load) :
    LoopMove s file forked (s.reloadConfig file) := by
  unfold MainProcess.reloadConfig
  split
  · rename_i config hload
    exact .accepted h config hload
  · rename_i hload
    exact .rejected h fun config => by simp [hload]
  · rename_i e hload
    exact .rejected h fun config => by simp [hload]

/-- Forking a listener is one of the moves. -/
theorem forkListener_move {n : ℕ} (h : s.point = .fork n) :
    LoopMove s file forked (s.forkListener n forked) := by
  cases n with
  | zero => exact .allForked h
  | succ n =>
    cases forked with
    | true => exact .forked n h rfl
    | false => exact .notForked n h rfl

/-- Every step of the main process is one of the moves. -/
theorem step_move (h : s.step file forked = .ok s') : LoopMove s file forked s' := by
  unfold MainProcess.step at h
  cases hpoint : s.point with
  | test =>
    rw [hpoint] at h
    cases h
    exact .test hpoint
  | load =>
    rw [hpoint] at h
    cases h
    exact reloadConfig_move hpoint
  | fork n =>
    rw [hpoint] at h
    cases h
    exact forkListener_move hpoint
  | reset =>
    rw [hpoint] at h
    cases h
    exact .reset hpoint
  | beforePause =>
    rw [hpoint] at h
    cases h
    exact .pause hpoint
  | paused | ended =>
    rw [hpoint] at h
    cases h

/-! ## Requests that are kept -/

/-- The flag is set if a SIGHUP was handled since the configuration was read, and not set in
`pause`. -/
structure RequestKept (s : MainProcess) : Prop where
  requested : s.requested = true → s.needReload = true
  paused : s.point = .paused → s.needReload = false

/-- No SIGHUP was handled between the reading of the configuration and the reset of the flag,
nor between the last look at the flag and `pause`. -/
def InTime (s : MainProcess) : MainInput → Prop
  | .step _ _ => (s.point = .reset → s.requested = false) ∧
      (s.point = .beforePause → s.unseen = false)
  | _ => True

/-- A request is kept, and one that the process is about to miss is one it has not seen. -/
structure RequestInv (s : MainProcess) : Prop where
  kept : RequestKept s
  unseen : s.point = .beforePause → s.needReload = s.unseen

/-- A step that takes no request too early keeps the invariant. -/
theorem step_keeps_request (h : RequestInv s) (htime : InTime s (.step file forked))
    (hmove : LoopMove s file forked s') : RequestInv s' := by
  obtain ⟨⟨hrequested, hpaused⟩, hunseen⟩ := h
  cases hmove with
  | test hpoint =>
    refine ⟨⟨hrequested, ?_⟩, ?_⟩
    · show (if s.needReload then MainPoint.load else .beforePause) = .paused → _
      split <;> simp
    · show (if s.needReload then MainPoint.load else .beforePause) = .beforePause → _
      split
      · simp
      · rename_i hneed
        intro _
        simpa using hneed
  | accepted hpoint config hload => exact ⟨⟨by simp, by simp⟩, by simp⟩
  | rejected hpoint hload => exact ⟨⟨by simp, by simp⟩, by simp⟩
  | allForked hpoint => exact ⟨⟨hrequested, by simp⟩, by simp⟩
  | forked n hpoint hforked => exact ⟨⟨hrequested, by simp⟩, by simp⟩
  | notForked n hpoint hforked => exact ⟨⟨hrequested, by simp⟩, by simp⟩
  | reset hpoint =>
    have hnone := htime.1 hpoint
    exact ⟨⟨by simp [hnone], by simp⟩, fun _ => rfl⟩
  | pause hpoint =>
    refine ⟨⟨hrequested, fun _ => ?_⟩, by simp⟩
    exact (hunseen hpoint).trans (htime.2 hpoint)

/-- The flag is reset over a request, or `pause` is entered in spite of one. -/
theorem step_breaks_request (h : RequestInv s) (htime : ¬ InTime s (.step file forked))
    (hmove : LoopMove s file forked s') : ¬ RequestKept s' := by
  intro hafter
  apply htime
  cases hmove with
  | reset hpoint =>
    refine ⟨fun _ => ?_, by simp [hpoint]⟩
    by_contra hrequested
    have hneed := hafter.requested (by simpa using hrequested)
    cases hneed
  | pause hpoint =>
    refine ⟨by simp [hpoint], fun _ => ?_⟩
    rw [← h.unseen hpoint]
    exact hafter.paused rfl
  | test hpoint | accepted hpoint | rejected hpoint | allForked hpoint | forked n hpoint
  | notForked n hpoint => exact ⟨by simp [hpoint], by simp [hpoint]⟩

/-- A signal ends `pause`. -/
theorem wake_paused : s.wake.point ≠ .paused := by
  unfold MainProcess.wake
  split
  · simp
  · assumption

/-- A process that is about to pause behind a signal was about to pause before it. -/
theorem wake_beforePause (h : s.wake.point = .beforePause) : s.point = .beforePause := by
  unfold MainProcess.wake at h
  split at h
  · cases h
  · exact h

/-- A signal keeps the invariant. -/
theorem wake_keeps_request (h : RequestInv s) : RequestInv s.wake :=
  ⟨⟨h.kept.requested, fun hpaused => absurd hpaused wake_paused⟩,
    fun hbefore => h.unseen (wake_beforePause hbefore)⟩

/-- A SIGHUP keeps the invariant. -/
theorem hangUp_keeps_request (h : RequestInv s) : RequestInv s.hangUp := by
  unfold MainProcess.hangUp MainProcess.handleHangUp
  split
  · exact ⟨⟨h.kept.requested, h.kept.paused⟩, h.unseen⟩
  · exact ⟨⟨fun _ => rfl, fun hpaused => absurd hpaused wake_paused⟩, fun _ => rfl⟩

/-- Every step that takes no request too early keeps the invariant. -/
theorem mainStep_keeps_request (h : RequestInv s) {input : MainInput} (htime : InTime s input)
    (hs' : mainStep s input = .ok s') : RequestInv s' := by
  cases input with
  | step file forked => exact step_keeps_request h htime (step_move hs')
  | listener g i =>
    cases hs'
    exact ⟨⟨h.kept.requested, h.kept.paused⟩, h.unseen⟩
  | hangUp =>
    cases hs'
    exact hangUp_keeps_request h
  | child =>
    cases hs'
    exact wake_keeps_request h
  | terminate =>
    cases hs'
    exact ⟨⟨h.kept.requested, by simp⟩, by simp⟩

/-- The invariant holds at the start. -/
theorem requestInv_start : RequestInv {} := ⟨⟨by simp, by simp⟩, by simp⟩

/-- **No request is lost**, and none waits in `pause`, exactly when no SIGHUP is handled between
the reading of the configuration and the reset of the flag, nor between the last look at the
flag and `pause`. -/
theorem requestKept_iff_inTime (inputs : List MainInput) :
    EveryReached mainStep RequestKept {} inputs ↔ EveryTaken mainStep InTime {} inputs := by
  apply everyReached_iff (fun _ h => h.kept)
    (fun _ _ _ h _ htime hs' => mainStep_keeps_request h htime hs') ?_ requestInv_start
    (fun _ _ _ _ _ => trivial)
  intro s input s' h _ htime hs'
  cases input with
  | step file forked => exact step_breaks_request h htime (step_move hs')
  | listener _ _ | hangUp | child | terminate => exact absurd trivial htime

/-! ## Reloads that fail -/

/-- A configuration of one listener, and a file that cannot be read. -/
def validFile : ConfigFile where
  root := some (twoBackendsDocument (ascii "least_connections") 4)
  uninit := fun _ => .unset

/-- A file that cannot be read. -/
def unreadableFile : ConfigFile := ⟨none, fun _ => .unset⟩

/-- The file is loaded as a configuration of one listener. -/
theorem load_validFile :
    validFile.load = .ok (some ⟨[twoBackendsConfig .leastConnections 4], 1⟩) :=
  loadConfig_leastConnections

/-- The steps of the main process from the test of the flag to `pause`, with one listener. -/
def reload : List MainInput := List.replicate 6 (.step validFile true)

/-- The second SIGHUP arrives while the first reload still forks its listener. -/
theorem reload_not_requestKept :
    ¬ ∀ inputs : List MainInput, EveryReached mainStep RequestKept {} inputs := by
  intro hall
  have hend := hall (reload.take 2 ++ [.hangUp] ++ reload.drop 2) _ List.prefix_rfl _ rfl
  exact absurd (hend.requested rfl) (by decide)

/-- The listeners of a reload are being forked, or the flag is still to be reset. -/
def Forking : MainPoint → Prop
  | .fork _ | .reset => True
  | _ => False

/-- A reload is in progress: it was asked for and the loop goes on to it, or is in it.  A loop that
has looked at the flag and is about to pause, or is blocked in `pause`, does neither. -/
def Reloading (s : MainProcess) : Prop :=
  s.needReload = true ∧ (s.point = .test ∨ s.point = .load ∨ Forking s.point)

/-- Once a configuration was loaded the main process is alive, and while no reload is in progress
there is a generation of which no listener was told to exit. -/
def Serving (s : MainProcess) : Prop :=
  s.loaded = true → s.point ≠ .ended ∧
    (¬ Reloading s → ∃ g ∈ s.generations, ∀ l ∈ g, l.Untold)

/-- The inputs of a run are reloads: no SIGTERM, and no fork that fails. -/
def OnlyReloads (_ : MainProcess) : MainInput → Prop
  | .step _ forked => forked = true
  | .terminate => False
  | _ => True

/-- Once a configuration was loaded the others are accepted. -/
def LoadAccepted (s : MainProcess) : MainInput → Prop
  | .step file _ => s.point = .load → s.loaded = true → ∃ config, file.load = .ok (some config)
  | _ => True

/-- A SIGHUP that comes while the listeners of a reload are forked, or behind the last look at the
flag, finds the newest listeners with the handler of the main process. -/
def ReloadUntouched (s : MainProcess) : MainInput → Prop
  | .hangUp => Forking s.point ∨ s.point = .beforePause →
      ∀ g, s.generations[0]? = some g → ∀ l ∈ g, l = .inherited
  | _ => True

/-- The generation of a reload in progress is untold. -/
structure ServingInv (s : MainProcess) : Prop where
  serving : Serving s
  newest : Forking s.point → ∃ g, s.generations[0]? = some g ∧ ∀ l ∈ g, l.Untold

/-- Installing handlers tells no listener to exit. -/
theorem installNext_untold {l : ListenerState} (h : l.Untold) : l.installNext.Untold := by
  revert h
  cases l <;> decide

/-- Installing the handlers of one listener tells none of its generation to exit. -/
theorem modify_untold {g : List ListenerState} (h : ∀ l ∈ g, l.Untold) (i : ℕ) :
    ∀ l ∈ g.modify i .installNext, l.Untold := by
  intro l hl
  obtain ⟨j, hj⟩ := List.mem_iff_getElem?.mp hl
  rw [List.getElem?_modify] at hj
  obtain ⟨l', hl', heq⟩ := Option.map_eq_some_iff.mp hj
  have huntold := h l' (List.mem_iff_getElem?.mpr ⟨j, hl'⟩)
  rw [← heq]
  split
  · exact installNext_untold huntold
  · exact huntold

/-- A change of one generation that keeps it untold. -/
theorem exists_modify_untold {gens : List (List ListenerState)} {k : ℕ}
    {f : List ListenerState → List ListenerState}
    (hf : ∀ g, (∀ l ∈ g, l.Untold) → ∀ l ∈ f g, l.Untold) (i : ℕ)
    (h : ∃ g, gens[k]? = some g ∧ ∀ l ∈ g, l.Untold) :
    ∃ g, (gens.modify i f)[k]? = some g ∧ ∀ l ∈ g, l.Untold := by
  obtain ⟨g, hg, huntold⟩ := h
  rw [List.getElem?_modify, hg]
  by_cases hi : i = k
  · exact ⟨f g, by simp [hi], hf g huntold⟩
  · exact ⟨g, by simp [hi], huntold⟩

/-- A new listener of a generation is not told to exit. -/
theorem append_untold {g : List ListenerState} (h : ∀ l ∈ g, l.Untold) :
    ∀ l ∈ g ++ [.inherited], l.Untold := by
  intro l hl
  rcases List.mem_append.mp hl with hold | hnew
  · exact h l hold
  · rw [List.mem_singleton.mp hnew]
    decide

/-- A step whose fork succeeds and whose configuration is accepted keeps the newest generation
untold. -/
theorem step_keeps_serving (h : ServingInv s) (hforked : forked = true)
    (haccepted : LoadAccepted s (.step file forked)) (hmove : LoopMove s file forked s') :
    ServingInv s' := by
  obtain ⟨hserving, hnewest⟩ := h
  cases hmove with
  | test hpoint =>
    by_cases hneed : s.needReload = true
    · simp only [if_pos hneed]
      exact ⟨fun _ => ⟨by simp, fun hnot => absurd ⟨hneed, .inr (.inl rfl)⟩ hnot⟩, False.elim⟩
    · simp only [if_neg hneed]
      exact ⟨fun hloaded => ⟨by simp, fun _ => (hserving hloaded).2 fun h => hneed h.1⟩,
        False.elim⟩
  | accepted hpoint config hload =>
    exact ⟨fun _ => ⟨by simp, fun _ => ⟨[], by simp, by simp⟩⟩, fun _ => ⟨[], rfl, by simp⟩⟩
  | rejected hpoint hload =>
    refine ⟨fun hloaded => ?_, False.elim⟩
    obtain ⟨config, hconfig⟩ := haccepted hpoint hloaded
    exact absurd hconfig (hload config)
  | allForked hpoint =>
    rw [hpoint] at hnewest
    obtain ⟨g, hg, huntold⟩ := hnewest trivial
    refine ⟨fun _ => ⟨by simp, fun _ => ⟨g, ?_, huntold⟩⟩, hnewest⟩
    exact List.mem_iff_getElem?.mpr ⟨0, hg⟩
  | forked n hpoint _ =>
    rw [hpoint] at hnewest
    have hnewest' := exists_modify_untold (fun g => append_untold) 0 (hnewest trivial)
    rw [← List.modifyHead_eq_modify_zero] at hnewest'
    obtain ⟨g, hg, huntold⟩ := hnewest'
    refine ⟨fun _ => ⟨by simp, fun _ => ⟨g, ?_, huntold⟩⟩, fun _ => ⟨g, hg, huntold⟩⟩
    exact List.mem_iff_getElem?.mpr ⟨0, hg⟩
  | notForked n hpoint hnot => exact absurd (hforked.symm.trans hnot) (by simp)
  | reset hpoint =>
    rw [hpoint] at hnewest
    obtain ⟨g, hg, huntold⟩ := hnewest trivial
    refine ⟨fun _ => ⟨by simp, fun _ => ⟨g, ?_, huntold⟩⟩, False.elim⟩
    exact List.mem_iff_getElem?.mpr ⟨0, hg⟩
  | pause hpoint =>
    have hnot : ¬ Reloading s := by simp [Reloading, hpoint, Forking]
    exact ⟨fun hloaded => ⟨by simp, fun _ => (hserving hloaded).2 hnot⟩, False.elim⟩

/-- A signal does not end the main process by waking it. -/
theorem wake_ended (h : s.point ≠ .ended) : s.wake.point ≠ .ended := by
  unfold MainProcess.wake
  dsimp only
  split
  · simp
  · exact h

/-- A process that is woken was not forking in `pause`. -/
theorem wake_forking (h : Forking s.wake.point) : Forking s.point := by
  unfold MainProcess.wake at h
  dsimp only at h
  split at h
  · exact h.elim
  · exact h

/-- A reload in progress is not asleep, so waking the process leaves it in progress. -/
theorem Reloading.wake (h : Reloading s) : Reloading s.wake := by
  have hawake : s.point ≠ .paused := by
    rintro hpaused
    simp [Reloading, hpaused, Forking] at h
  obtain ⟨hneed, hpoint⟩ := h
  unfold MainProcess.wake
  rw [if_neg hawake]
  exact ⟨hneed, hpoint⟩

/-- A signal keeps the newest generation untold. -/
theorem wake_keeps_serving (h : ServingInv s) : ServingInv s.wake := by
  refine ⟨fun hloaded => ?_, fun hforking => h.newest (wake_forking hforking)⟩
  obtain ⟨halive, hsome⟩ := h.serving hloaded
  exact ⟨wake_ended halive, fun hnot => hsome fun hreload => hnot hreload.wake⟩

/-- A SIGHUP leaves a generation alone whose listeners all have the handler of the main process. -/
theorem hangUp_untold {g : List ListenerState} (hg : s.generations[0]? = some g)
    (hinherited : ∀ l ∈ g, l = .inherited) :
    ∃ g', (s.generations.map (List.map ListenerState.hangUp))[0]? = some g' ∧
      ∀ l ∈ g', l.Untold := by
  refine ⟨g.map ListenerState.hangUp, ?_, ?_⟩
  · rw [List.getElem?_map, hg]
    rfl
  · intro l hl
    obtain ⟨l', hl', rfl⟩ := List.mem_map.mp hl
    rw [hinherited l' hl']
    decide

/-- Behind a SIGHUP a loop that is not about to pause goes on to a reload. -/
theorem reloading_hangUp (hended : s.point ≠ .ended) (hbefore : s.point ≠ .beforePause) :
    Reloading
      (MainProcess.wake { s with needReload := true, requested := true, unseen := true }) := by
  unfold Reloading MainProcess.wake
  dsimp only
  refine ⟨rfl, ?_⟩
  cases hpoint : s.point with
  | test | load | paused => simp
  | fork n | reset => simp [Forking]
  | beforePause => exact absurd hpoint hbefore
  | ended => exact absurd hpoint hended

/-- A SIGHUP that leaves a reload in progress untouched keeps the invariant. -/
theorem hangUp_keeps_serving (h : ServingInv s) (huntouched : ReloadUntouched s .hangUp) :
    ServingInv s.hangUp := by
  unfold MainProcess.hangUp MainProcess.handleHangUp
  split
  · rename_i hended
    refine ⟨fun hloaded => absurd hended (h.serving hloaded).1, fun hforking => ?_⟩
    rw [show s.point = .ended from hended] at hforking
    exact hforking.elim
  · rename_i halive
    refine ⟨fun hloaded => ⟨wake_ended (h.serving hloaded).1, fun hnot => ?_⟩,
      fun hforking => ?_⟩
    · have hbefore : s.point = .beforePause := by
        by_contra hne
        exact hnot (reloading_hangUp halive hne)
      have hidle : ¬ Reloading s := by simp [Reloading, hbefore, Forking]
      obtain ⟨g, hg, -⟩ := (h.serving hloaded).2 hidle
      obtain ⟨newest, hnewest⟩ : ∃ newest, s.generations[0]? = some newest :=
        ⟨_, List.getElem?_eq_getElem (List.length_pos_of_mem hg)⟩
      obtain ⟨g', hg', huntold⟩ :=
        hangUp_untold hnewest (huntouched (.inr hbefore) newest hnewest)
      exact ⟨g', List.mem_iff_getElem?.mpr ⟨0, hg'⟩, huntold⟩
    · have hpoint : Forking s.point := wake_forking hforking
      obtain ⟨g, hg, -⟩ := h.newest hpoint
      exact hangUp_untold hg (huntouched (.inl hpoint) g hg)

/-- Every step that meets the conditions keeps the invariant. -/
theorem mainStep_keeps_serving (h : ServingInv s) {input : MainInput}
    (hreload : OnlyReloads s input) (haccepted : LoadAccepted s input)
    (huntouched : ReloadUntouched s input) (hs' : mainStep s input = .ok s') : ServingInv s' := by
  cases input with
  | step file forked => exact step_keeps_serving h hreload haccepted (step_move hs')
  | listener g i =>
    cases hs'
    have hmodify (k : ℕ) (h : ∃ g, s.generations[k]? = some g ∧ ∀ l ∈ g, l.Untold) :=
      exists_modify_untold (fun g hg => modify_untold hg i) g h
    refine ⟨fun hloaded => ⟨(h.serving hloaded).1, fun hnot => ?_⟩,
      fun hforking => hmodify 0 (h.newest hforking)⟩
    obtain ⟨g', hg', huntold⟩ := (h.serving hloaded).2 hnot
    obtain ⟨k, hk⟩ := List.mem_iff_getElem?.mp hg'
    obtain ⟨g'', hg'', huntold'⟩ := hmodify k ⟨g', hk, huntold⟩
    exact ⟨g'', List.mem_iff_getElem?.mpr ⟨k, hg''⟩, huntold'⟩
  | hangUp =>
    cases hs'
    exact hangUp_keeps_serving h huntouched
  | child =>
    cases hs'
    exact wake_keeps_serving h
  | terminate => exact hreload.elim

/-- The invariant holds at the start. -/
theorem servingInv_start : ServingInv {} := ⟨by simp [Serving], False.elim⟩

/-- A configuration that is rejected ends the main process. -/
theorem loadAccepted_of_serving {input : MainInput}
    (h : ∀ s', mainStep s input = .ok s' → Serving s') : LoadAccepted s input := by
  cases input with
  | step file forked =>
    intro hpoint hloaded
    by_contra hnone
    have hstep : mainStep s (.step file forked) = .ok (s.reloadConfig file) := by
      simp [mainStep, MainProcess.step, hpoint]
    have hend := h _ hstep
    unfold MainProcess.reloadConfig at hend
    split at hend
    · rename_i config hload
      exact hnone ⟨config, hload⟩
    · exact (hend hloaded).1 rfl
    · exact (hend hloaded).1 rfl
  | listener _ _ | hangUp | child | terminate => trivial

/-- **The daemon goes on serving** in a run of reloads if every later configuration is accepted
and no SIGHUP that comes while listeners are forked, or between the last look at the flag and
`pause`, finds one of the newest listeners past the handler it inherited.  It does so only if every
later configuration is accepted. -/
theorem serving_of_accepted (inputs : List MainInput)
    (hreloads : EveryStep mainStep OnlyReloads {} inputs) :
    (EveryTaken mainStep LoadAccepted {} inputs → EveryTaken mainStep ReloadUntouched {} inputs →
        EveryReached mainStep Serving {} inputs) ∧
      (EveryReached mainStep Serving {} inputs → EveryTaken mainStep LoadAccepted {} inputs) := by
  refine ⟨fun haccepted huntouched => ?_, fun hserving => ?_⟩
  · have hlegal : EveryStep mainStep (fun s i => ∀ s', mainStep s i = .ok s' →
        OnlyReloads s i ∧ LoadAccepted s i ∧ ReloadUntouched s i) {} inputs :=
      fun pre i hpre s hrun s' hs' => ⟨hreloads pre i hpre s hrun,
        haccepted pre i hpre s hrun s' hs', huntouched pre i hpre s hrun s' hs'⟩
    have hinv := everyReached_inv (fun s i s' h hl hs' => mainStep_keeps_serving h
      (hl s' hs').1 (hl s' hs').2.1 (hl s' hs').2.2 hs') servingInv_start hlegal
    exact fun pre hpre s hrun => (hinv pre hpre s hrun).serving
  · intro pre i hpre s hrun s' _
    exact loadAccepted_of_serving (hserving.everyTaken pre i hpre s hrun)

/-- The steps of a reload are none of a SIGTERM or a failed fork. -/
theorem onlyReloads_reload : EveryStep mainStep OnlyReloads {} reload := by
  apply everyStep_of_mem
  intro i hi s
  rw [List.eq_of_mem_replicate hi]
  rfl

/-- Both directions for a daemon that loads its first configuration. -/
theorem serving_of_accepted_reload :
    (EveryTaken mainStep LoadAccepted {} reload → EveryTaken mainStep ReloadUntouched {} reload →
        EveryReached mainStep Serving {} reload) ∧
      (EveryReached mainStep Serving {} reload → EveryTaken mainStep LoadAccepted {} reload) :=
  serving_of_accepted reload onlyReloads_reload

/-- Every configuration of the run is accepted. -/
def AllAccepted (_ : MainProcess) : MainInput → Prop
  | .step file _ => ∃ config, file.load = .ok (some config)
  | _ => True

/-- No SIGHUP comes while listeners are forked. -/
def NoneForking (s : MainProcess) : MainInput → Prop
  | .hangUp => ¬ Forking s.point
  | _ => True

/-- A file that cannot be read ends the main process, with its listener told to exit.  With valid
files only, a SIGHUP that comes between the fork of the second listener and the reset of the flag
leaves nobody untold.  So does one that comes between the test of the flag and `pause`: the main
process sleeps over it. -/
theorem reload_not_serving :
    (¬ ∀ inputs, EveryStep mainStep OnlyReloads {} inputs →
      EveryReached mainStep Serving {} inputs) ∧
    (¬ ∀ inputs, EveryStep mainStep OnlyReloads {} inputs →
      EveryStep mainStep AllAccepted {} inputs → EveryReached mainStep Serving {} inputs) ∧
    (¬ ∀ inputs, EveryStep mainStep OnlyReloads {} inputs →
      EveryStep mainStep AllAccepted {} inputs → EveryStep mainStep NoneForking {} inputs →
      EveryReached mainStep Serving {} inputs) := by
  refine ⟨fun hall => ?_, fun hall => ?_, fun hall => ?_⟩
  · have hend := hall (reload ++ List.replicate 2 (.listener 0 0) ++ [.hangUp] ++
      List.replicate 2 (.step unreadableFile true)) ?_ _ List.prefix_rfl _ rfl
    · exact (hend rfl).1 rfl
    · apply everyStep_of_mem
      simp [reload, OnlyReloads]
  · have hend := hall (reload ++ List.replicate 2 (.listener 0 0) ++ [.hangUp] ++ reload.take 3 ++
      List.replicate 2 (.listener 0 0) ++ [.hangUp] ++ reload.take 2) ?_ ?_ _ List.prefix_rfl _ rfl
    · obtain ⟨g, hg, huntold⟩ := (hend rfl).2 (by rintro ⟨⟨⟩, -⟩)
      revert g
      decide
    · apply everyStep_of_mem
      simp [reload, OnlyReloads]
    · apply everyStep_of_mem
      simp [reload, AllAccepted, load_validFile]
  · have hend := hall
      (reload ++ List.replicate 2 (.listener 0 0) ++ [.child, .step validFile true] ++
        [.hangUp, .step validFile true]) ?_ ?_ ?_ _ List.prefix_rfl _ rfl
    · obtain ⟨g, hg, huntold⟩ := (hend rfl).2 (by rintro ⟨-, h | h | h⟩ <;> cases h)
      revert g
      decide
    · apply everyStep_of_mem
      simp [reload, OnlyReloads]
    · apply everyStep_of_mem
      simp [reload, AllAccepted, load_validFile]
    · refine EveryStep.append (everyStep_of_mem ?_) rfl (everyStep_cons.mpr ⟨id, fun s _ => ?_⟩)
      · simp [reload, NoneForking]
      · exact everyStep_of_mem (by simp [NoneForking])

end PkuyoProxy.Analysis
