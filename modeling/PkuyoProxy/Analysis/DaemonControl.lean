import PkuyoProxy.Analysis.Reloads
import PkuyoProxy.Model.Commands

/-!
# Which daemons the PID file names

The file is tested and written in two steps, and removed in a third.  So at most one daemon runs,
and the file names it, exactly as long as no `init` finds the file missing while another daemon is
being started or cleans up (`one_daemon_iff`).  The main process ends in other ways than by `stop`
as well, and leaves the file.  Once no process has the handler that removes it, it stays for good
(`removable_iff`); a reload whose configuration is rejected comes to that
(`rejected_reload_final`).
-/

set_option autoImplicit false

namespace PkuyoProxy.Analysis

open PkuyoProxy.Lib PkuyoProxy.Model

variable {h h' : Host}

/-! ## The kinds of processes -/

/-- The daemon has written its file, and not begun to remove it. -/
def HasWritten : Stage → Prop
  | .written | .running _ => True
  | .checked | .cleaning _ | .signalling _ _ => False

/-- The daemon is between the test of the file and the write of it, or in `cleanup`. -/
def Unlisted : Stage → Prop
  | .checked | .cleaning _ => True
  | .written | .running _ | .signalling _ _ => False

/-- The process is one of a daemon, and not of a command. -/
def OfDaemon (stage : Stage) : Prop := HasWritten stage ∨ Unlisted stage

/-- No daemon is new, nor has one just written its file. -/
def Wanes (h h' : Host) : Prop :=
  ∀ pid stage', h'.processes pid = some stage' → OfDaemon stage' →
    ∃ stage, h.processes pid = some stage ∧ OfDaemon stage ∧ (HasWritten stage' → HasWritten stage)

/-- Setting a process leaves the file as it is. -/
@[simp] theorem setProcess_pidFile (pid : Pid) (stage : Option Stage) :
    (h.setProcess pid stage).pidFile = h.pidFile := rfl

/-- The process is the one that was set. -/
theorem setProcess_self (pid : Pid) (stage : Option Stage) :
    (h.setProcess pid stage).processes pid = stage := Function.update_self ..

/-- Setting the stage of one process leaves the other processes as they were. -/
theorem setProcess_other {pid q : Pid} (hq : q ≠ pid) (stage : Option Stage) :
    (h.setProcess pid stage).processes q = h.processes q := Function.update_of_ne hq ..

/-- A process of the new host is the one that was set, or was there before. -/
theorem setProcess_cases {pid q : Pid} {stage? : Option Stage} {stage : Stage}
    (hq : (h.setProcess pid stage?).processes q = some stage) :
    q = pid ∧ stage? = some stage ∨ q ≠ pid ∧ h.processes q = some stage := by
  by_cases heq : q = pid
  · subst heq
    rw [setProcess_self] at hq
    exact .inl ⟨rfl, hq⟩
  · rw [setProcess_other heq] at hq
    exact .inr ⟨heq, hq⟩

/-- A process is changed, into one of its kind if it is still of a daemon. -/
theorem Wanes.setProcess {pid : Pid} {stage? : Option Stage}
    (hstage : ∀ stage', stage? = some stage' → OfDaemon stage' →
      ∃ stage, h.processes pid = some stage ∧ OfDaemon stage ∧
        (HasWritten stage' → HasWritten stage)) :
    Wanes h (h.setProcess pid stage?) := by
  intro q stage' hq hof
  rcases setProcess_cases hq with ⟨rfl, hself⟩ | ⟨-, hother⟩
  · exact hstage stage' hself hof
  · exact ⟨stage', hother, hof, id⟩

/-- A host has no new daemon beside itself. -/
theorem Wanes.refl : Wanes h h := fun _ stage' hq hof => ⟨stage', hq, hof, id⟩

/-- Two steps without a new daemon have none together. -/
theorem Wanes.trans {h'' : Host} (hfirst : Wanes h h') (hrest : Wanes h' h'') : Wanes h h'' := by
  intro q stage'' hq hof
  obtain ⟨stage', hq', hof', hwritten'⟩ := hrest q stage'' hq hof
  obtain ⟨stage, hq, hof, hwritten⟩ := hfirst q stage' hq' hof'
  exact ⟨stage, hq, hof, hwritten ∘ hwritten'⟩

/-- Removing a process makes no daemon. -/
theorem wanes_remove (pid : Pid) : Wanes h (h.setProcess pid none) := .setProcess (by simp)

/-- What is left of a process that gets a signal is of its kind. -/
theorem receive_kind {signal : Signal} {stage stage' : Stage}
    (hreceive : stage.receive signal = some stage') :
    OfDaemon stage ∧ (HasWritten stage' → HasWritten stage) := by
  cases stage with
  | running s => exact ⟨.inl trivial, fun _ => trivial⟩
  | cleaning n =>
    cases hreceive
    exact ⟨.inr trivial, id⟩
  | checked | written | signalling target signal => cases hreceive

/-- A signal makes no daemon. -/
theorem wanes_kill (target : Pid) (signal : Signal) : Wanes h (h.kill target signal) := by
  apply Wanes.setProcess
  intro stage' hreceive _
  obtain ⟨stage, hstage, hreceive⟩ := Option.bind_eq_some_iff.mp hreceive
  exact ⟨stage, hstage, receive_kind hreceive⟩

/-- A daemon that cleans up counts as one that has not written its file. -/
theorem cleaningLess_kind {n : ℕ} {stage : Stage} (hless : Stage.cleaningLess n = some stage) :
    ¬ HasWritten stage := by
  unfold Stage.cleaningLess at hless
  split at hless
  · cases hless
  · cases hless
    exact id

/-- A crash makes no daemon. -/
theorem wanes_crash (pid : Pid) : Wanes h (h.crash pid) := by
  unfold Host.crash
  split
  · rename_i s hpid
    apply Wanes.setProcess
    rintro stage' ⟨rfl⟩ -
    exact ⟨_, hpid, .inl trivial, fun _ => trivial⟩
  · rename_i n hpid
    apply Wanes.setProcess
    intro stage' hless _
    exact ⟨_, hpid, .inr trivial, fun hwritten => absurd hwritten (cleaningLess_kind hless)⟩
  · exact wanes_remove pid

/-- A command that sends a signal makes no daemon. -/
theorem wanes_sendSignalToDaemon (pid : Pid) (signalType : Bytes) :
    Wanes h (h.sendSignalToDaemon pid signalType) := by
  -- a command that signals is no daemon
  have hcommand (target : Pid) (signal : Signal) :
      Wanes h (h.setProcess pid (some (.signalling target signal))) := by
    apply Wanes.setProcess
    rintro stage' ⟨rfl⟩ (hof | hof) <;> exact hof.elim
  unfold Host.sendSignalToDaemon
  split
  · exact .refl
  · split
    · exact hcommand _ _
    · split
      · exact hcommand _ _
      · exact .refl

/-- A command that sends a signal leaves the file as it is. -/
@[simp] theorem sendSignalToDaemon_pidFile (pid : Pid) (signalType : Bytes) :
    (h.sendSignalToDaemon pid signalType).pidFile = h.pidFile := by
  unfold Host.sendSignalToDaemon
  split
  · rfl
  · split
    · rfl
    · split <;> rfl

/-- A crash leaves the file as it is. -/
@[simp] theorem crash_pidFile (pid : Pid) : (h.crash pid).pidFile = h.pidFile := by
  unfold Host.crash
  split <;> rfl

/-! ## One step of the host -/

/-- What a step does to the file and the daemons. -/
inductive HostMove (h : Host) : HostInput → Host → Prop
  | accepted (pid : Pid) (args : List Bytes) (hfile : h.pidFile = none) :
      HostMove h (.main pid (ascii "init" :: args)) (h.setProcess pid (some .checked))
  | created (pid : Pid) (hpid : h.processes pid = some .checked) :
      HostMove h (.step pid true) (h.createDaemon pid)
  | cleaned (pid : Pid) (n : ℕ) (ok : Bool) (hpid : h.processes pid = some (.cleaning n)) :
      HostMove h (.step pid ok) (h.cleanup pid n)
  | other (input : HostInput) (h' : Host) (hfile : h'.pidFile = h.pidFile) (hwanes : Wanes h h') :
      HostMove h input h'

/-- A command is one of the moves. -/
theorem main_move (pid : Pid) (args : List Bytes) :
    HostMove h (.main pid args) (h.main pid args) := by
  cases args with
  | nil => exact .other _ _ rfl .refl
  | cons arg args =>
    simp only [Host.main]
    split
    · rename_i harg
      subst harg
      split
      · exact .other _ _ rfl .refl
      · rename_i hfile
        exact .accepted pid args (by simpa using hfile)
    · exact .other _ _ (sendSignalToDaemon_pidFile pid arg) (wanes_sendSignalToDaemon pid arg)

/-- A step of a process on its own is one of the moves. -/
theorem hostStep_step_move {pid : Pid} {ok : Bool} (hstep : h.step pid ok = .ok h') :
    HostMove h (.step pid ok) h' := by
  unfold Host.step at hstep
  split at hstep
  · rename_i hpid
    cases hstep
    cases ok with
    | true => exact .created pid hpid
    | false => exact .other _ _ rfl (wanes_remove pid)
  · rename_i hpid
    cases hstep
    refine .other _ _ rfl (.setProcess fun stage' _ _ => ?_)
    exact ⟨_, hpid, .inl trivial, fun _ => trivial⟩
  · rename_i n hpid
    cases hstep
    exact .cleaned pid n ok hpid
  · cases hstep
    exact .other _ _ rfl ((wanes_remove pid).trans (wanes_kill _ _))
  · cases hstep
  · cases hstep

/-- A step of a daemon's main loop is one of the moves. -/
theorem daemon_move {pid : Pid} {input : MainInput} (hstep : h.daemon pid input = .ok h') :
    HostMove h (.daemon pid input) h' := by
  unfold Host.daemon at hstep
  split at hstep
  · rename_i s hpid
    -- a daemon in its loop goes on there
    have hloop (s' : MainProcess) : Wanes h (h.setProcess pid (some (.running s'))) :=
      .setProcess fun stage' _ _ => ⟨_, hpid, .inl trivial, fun _ => trivial⟩
    cases input with
    | hangUp | terminate =>
      cases hstep
      exact .other _ _ rfl (wanes_kill _ _)
    | step file forked | listener g i | child =>
      simp only at hstep
      split at hstep
      · cases hstep
        exact .other _ _ rfl (hloop _)
      · cases hstep
  · cases hstep

/-- Every step of the host is one of the moves. -/
theorem hostStep_move {input : HostInput} (hstep : hostStep h input = .ok h') :
    HostMove h input h' := by
  cases input with
  | main pid args =>
    cases hstep
    exact main_move pid args
  | step pid ok => exact hostStep_step_move hstep
  | daemon pid input => exact daemon_move hstep
  | crash pid =>
    cases hstep
    exact .other _ _ (crash_pidFile pid) (wanes_crash pid)

/-! ## One daemon -/

/-- At most one daemon is there, and the file names it once it has written it. -/
structure OneDaemon (h : Host) : Prop where
  unique : ∀ p q stage stage', h.processes p = some stage → h.processes q = some stage' →
    OfDaemon stage → OfDaemon stage' → p = q
  named : ∀ pid stage, h.processes pid = some stage → HasWritten stage → h.pidFile = some pid

/-- The process of a command is new. -/
def NewPid (h : Host) : HostInput → Prop
  | .main pid _ => h.processes pid = none
  | _ => True

/-- An `init` that finds no file finds no daemon that is being started or cleans up. -/
def Exclusive (h : Host) : HostInput → Prop
  | .main _ args => args.head? = some (ascii "init") → h.pidFile = none →
      ∀ q stage, h.processes q = some stage → ¬ Unlisted stage
  | _ => True

/-- At the start there is no daemon. -/
theorem oneDaemon_start : OneDaemon {} where
  unique := by simp
  named := by simp

/-- Where no daemon is new and the file stays, there is still at most one. -/
theorem Wanes.oneDaemon (hwanes : Wanes h h') (hfile : h'.pidFile = h.pidFile)
    (hone : OneDaemon h) : OneDaemon h' := by
  constructor
  · intro p q stage stage' hp hq hof hof'
    obtain ⟨_, hp, hof, -⟩ := hwanes p stage hp hof
    obtain ⟨_, hq, hof', -⟩ := hwanes q stage' hq hof'
    exact hone.unique p q _ _ hp hq hof hof'
  · intro pid stage hpid hwritten
    obtain ⟨stage', hpid, -, hwritten'⟩ := hwanes pid stage hpid (.inl hwritten)
    rw [hfile]
    exact hone.named pid stage' hpid (hwritten' hwritten)

/-- The daemon in process `pid` is the only one behind a step of it, if it was before. -/
theorem oneDaemon_alone {pid : Pid} {stage? file : Option _}
    (hothers : ∀ q stage, q ≠ pid → h.processes q = some stage → ¬ OfDaemon stage)
    (hnamed : ∀ stage, stage? = some stage → HasWritten stage → file = some pid) :
    OneDaemon { h.setProcess pid stage? with pidFile := file } := by
  have honly (q : Pid) (stage : Stage)
      (hq : (h.setProcess pid stage?).processes q = some stage) (hof : OfDaemon stage) :
      q = pid := by
    rcases setProcess_cases hq with ⟨heq, -⟩ | ⟨hne, hother⟩
    · exact heq
    · exact absurd hof (hothers q stage hne hother)
  constructor
  · intro p q stage stage' hp hq hof hof'
    exact (honly p stage hp hof).trans (honly q stage' hq hof').symm
  · intro q stage hq hwritten
    obtain rfl := honly q stage hq (.inl hwritten)
    exact hnamed stage ((setProcess_self q stage?).symm.trans hq) hwritten

/-- Beside a daemon every other process is one of a command. -/
theorem OneDaemon.others (hone : OneDaemon h) {pid : Pid} {stage : Stage}
    (hpid : h.processes pid = some stage) (hof : OfDaemon stage) (q : Pid) (stage' : Stage)
    (hne : q ≠ pid) (hq : h.processes q = some stage') : ¬ OfDaemon stage' :=
  fun hof' => hne (hone.unique q pid stage' stage hq hpid hof' hof)

/-- A step that meets the condition keeps it so. -/
theorem hostStep_keeps_one {input : HostInput} (hone : OneDaemon h) (hexcl : Exclusive h input)
    (hmove : HostMove h input h') : OneDaemon h' := by
  cases hmove with
  | accepted pid args hfile =>
    refine oneDaemon_alone (fun q stage _ hq hof => ?_) ?_
    · rcases hof with hwritten | hunlisted
      · have hnamed := hone.named q stage hq hwritten
        rw [hfile] at hnamed
        cases hnamed
      · exact hexcl rfl hfile q stage hq hunlisted
    · rintro stage ⟨rfl⟩ hwritten
      exact hwritten.elim
  | created pid hpid =>
    exact oneDaemon_alone (hone.others hpid (.inr trivial)) fun _ _ _ => rfl
  | cleaned pid n ok hpid =>
    refine oneDaemon_alone (hone.others hpid (.inr trivial)) fun stage hless hwritten => ?_
    exact absurd hwritten (cleaningLess_kind hless)
  | other input h' hfile hwanes => exact hwanes.oneDaemon hfile hone

/-- The `init` starts a daemon beside the other. -/
theorem hostStep_breaks_one {input : HostInput} (hfresh : NewPid h input)
    (hnot : ¬ Exclusive h input) (hstep : hostStep h input = .ok h') : ¬ OneDaemon h' := by
  intro hone
  cases input with
  | step pid ok | daemon pid input | crash pid => exact hnot trivial
  | main pid args =>
    simp only [Exclusive, Classical.not_imp, not_forall, not_not] at hnot
    obtain ⟨hargs, hfile, q, stage, hq, hunlisted⟩ := hnot
    obtain ⟨rest, rfl⟩ := List.head?_eq_some_iff.mp hargs
    have hmain : h' = h.setProcess pid (some .checked) := by
      cases hstep
      simp [Host.main, hfile]
    have hne : q ≠ pid := by
      rintro rfl
      rw [show h.processes q = none from hfresh] at hq
      cases hq
    rw [hmain] at hone
    refine hone.others (setProcess_self pid _) (.inr trivial) q stage hne ?_ (.inr hunlisted)
    rwa [setProcess_other hne]

/-- **At most one daemon is there, and the PID file names it**, exactly as long as no `init` finds
the file missing while a daemon is on its way from the test of the file to the write of it, or
cleans up.  A signal is for the whole process group of a daemon, as `kill` in `stop` and `reload`
sends it; one that is sent to the main process alone is not among the inputs. -/
theorem one_daemon_iff (inputs : List HostInput) (hfresh : EveryStep hostStep NewPid {} inputs) :
    EveryReached hostStep OneDaemon {} inputs ↔ EveryTaken hostStep Exclusive {} inputs :=
  everyReached_iff (fun _ hone => hone)
    (fun _ _ _ hone _ hexcl hstep => hostStep_keeps_one hone hexcl (hostStep_move hstep))
    (fun _ _ _ _ hfresh hnot hstep => hostStep_breaks_one hfresh hnot hstep)
    oneDaemon_start hfresh

/-- A daemon is started and stopped, by the commands of processes 7 and 8. -/
def startAndStop : List HostInput :=
  [.main 7 [ascii "init"], .step 7 true, .step 7 true, .main 8 [ascii "stop"], .step 8 true,
    .step 7 true]

/-- The commands of this run are new processes. -/
theorem newPid_startAndStop : EveryStep hostStep NewPid {} startAndStop := by
  refine everyStep_cons.mpr ⟨rfl, ?_⟩
  rintro _ ⟨rfl⟩
  refine everyStep_cons.mpr ⟨trivial, ?_⟩
  rintro _ ⟨rfl⟩
  refine everyStep_cons.mpr ⟨trivial, ?_⟩
  rintro _ ⟨rfl⟩
  refine everyStep_cons.mpr ⟨rfl, fun s _ => ?_⟩
  apply everyStep_of_mem
  simp [NewPid]

/-- The run meets the condition. -/
theorem exclusive_startAndStop : EveryTaken hostStep Exclusive {} startAndStop := by
  refine everyStep_cons.mpr ⟨?_, fun s _ => everyStep_of_mem ?_⟩
  · rintro _ - - - q stage ⟨⟩
  · intro input hinput s s' _
    simp only [List.mem_cons, List.not_mem_nil, or_false] at hinput
    rcases hinput with rfl | rfl | rfl | rfl | rfl
    · trivial
    · trivial
    · intro hinit
      exact absurd hinit (by decide)
    · trivial
    · trivial

/-- The daemon of process 7 is the only one. -/
theorem one_daemon_iff_startAndStop :
    EveryTaken hostStep Exclusive {} startAndStop ∧
      EveryReached hostStep OneDaemon {} startAndStop :=
  ⟨exclusive_startAndStop,
    (one_daemon_iff startAndStop newPid_startAndStop).mpr exclusive_startAndStop⟩

/-! ## A file that stays -/

/-- The process is not of a daemon, or of one in which nobody has the handler for SIGTERM. -/
def Spent : Stage → Prop
  | .signalling _ _ => True
  | .running s => s.handlers = 0
  | .checked | .written | .cleaning _ => False

/-- The file is there, and no process is going to remove it. -/
structure Stale (h : Host) : Prop where
  file : h.pidFile ≠ none
  spent : ∀ pid stage, h.processes pid = some stage → Spent stage

/-- Nobody has the handler for SIGTERM exactly if the main loop has ended and no listener inherits
it. -/
theorem handlers_eq_zero_iff {s : MainProcess} :
    s.handlers = 0 ↔ s.point = .ended ∧ ∀ g ∈ s.generations, .inherited ∉ g := by
  unfold MainProcess.handlers
  rw [Nat.add_eq_zero_iff, List.count_eq_zero, List.mem_flatten]
  simp

/-- A listener that installs its handlers inherits none of those. -/
theorem installNext_inherited (l : ListenerState) : l.installNext ≠ .inherited := by
  cases l <;> decide

/-- A SIGHUP leaves a listener with inherited handlers only if it had them. -/
theorem hangUp_inherited {l : ListenerState} (hl : l.hangUp = .inherited) : l = .inherited := by
  revert hl
  cases l <;> decide

/-- An element of a modified list was there or is the image of one that was. -/
theorem mem_modify_cases {α : Type} {xs : List α} {i : ℕ} {f : α → α} {x : α}
    (hx : x ∈ xs.modify i f) : x ∈ xs ∨ ∃ y ∈ xs, f y = x := by
  obtain ⟨j, hj⟩ := List.mem_iff_getElem?.mp hx
  rw [List.getElem?_modify] at hj
  obtain ⟨y, hy, heq⟩ := Option.map_eq_some_iff.mp hj
  have hmem := List.mem_iff_getElem?.mpr ⟨j, hy⟩
  split at heq
  · exact .inr ⟨y, hmem, heq⟩
  · rw [show y = x from heq] at hmem
    exact .inl hmem

/-- Nobody gets the handler back once the main process has ended. -/
theorem mainStep_handlers {s s' : MainProcess} {input : MainInput} (hs : s.handlers = 0)
    (hstep : mainStep s input = .ok s') : s'.handlers = 0 := by
  obtain ⟨hended, hnone⟩ := handlers_eq_zero_iff.mp hs
  rw [handlers_eq_zero_iff]
  cases input with
  | step file forked => simp [mainStep, MainProcess.step, hended] at hstep
  | listener g i =>
    cases hstep
    refine ⟨hended, fun g' hg' hinherited => ?_⟩
    rcases mem_modify_cases hg' with hold | ⟨g, hg, rfl⟩
    · exact hnone g' hold hinherited
    · rcases mem_modify_cases hinherited with hold | ⟨l, -, hl⟩
      · exact hnone g hg hold
      · exact installNext_inherited l hl
  | hangUp =>
    cases hstep
    simp only [MainProcess.hangUp, MainProcess.handleHangUp, hended, if_true]
    refine ⟨trivial, fun g' hg' hinherited => ?_⟩
    obtain ⟨g, hg, rfl⟩ := List.mem_map.mp hg'
    obtain ⟨l, hl, hinherited⟩ := List.mem_map.mp hinherited
    rw [hangUp_inherited hinherited] at hl
    exact hnone g hg hl
  | child =>
    cases hstep
    exact ⟨by simp [MainProcess.wake, hended], hnone⟩
  | terminate =>
    cases hstep
    refine ⟨rfl, fun g' hg' hinherited => ?_⟩
    obtain ⟨g, -, rfl⟩ := List.mem_map.mp hg'
    obtain ⟨l, -, hl⟩ := List.mem_map.mp hinherited
    cases hl

/-- A process that is spent keeps the file stale. -/
theorem Stale.setProcess (hstale : Stale h) {pid : Pid} {stage? : Option Stage}
    (hstage : ∀ stage, stage? = some stage → Spent stage) : Stale (h.setProcess pid stage?) := by
  refine ⟨hstale.file, fun q stage hq => ?_⟩
  rcases setProcess_cases hq with ⟨rfl, hself⟩ | ⟨-, hother⟩
  · exact hstage stage hself
  · exact hstale.spent q stage hother

/-- A signal keeps the file stale. -/
theorem Stale.kill (hstale : Stale h) (target : Pid) (signal : Signal) :
    Stale (h.kill target signal) := by
  apply hstale.setProcess
  intro stage' hreceive
  obtain ⟨stage, hstage, hreceive⟩ := Option.bind_eq_some_iff.mp hreceive
  have hspent := hstale.spent target stage hstage
  cases stage with
  | running s =>
    cases signal with
    | hangUp =>
      cases hreceive
      have hstep : mainStep s .hangUp = .ok s.hangUp := rfl
      exact mainStep_handlers hspent hstep
    | terminate =>
      have hnone : Stage.receive .terminate (.running s) = none := if_pos hspent
      rw [hnone] at hreceive
      cases hreceive
  | cleaning n => exact hspent.elim
  | checked | written | signalling target signal => cases hreceive

/-- A command that sends a signal keeps the file stale. -/
theorem Stale.sendSignalToDaemon (hstale : Stale h) (pid : Pid) (signalType : Bytes) :
    Stale (h.sendSignalToDaemon pid signalType) := by
  unfold Host.sendSignalToDaemon
  split
  · exact hstale
  · split
    · exact hstale.setProcess (by rintro _ ⟨rfl⟩; trivial)
    · split
      · exact hstale.setProcess (by rintro _ ⟨rfl⟩; trivial)
      · exact hstale

/-- Every command keeps the file stale. -/
theorem Stale.main (hstale : Stale h) (pid : Pid) (args : List Bytes) :
    Stale (h.main pid args) := by
  cases args with
  | nil => exact hstale
  | cons arg args =>
    have hfile : h.pidFile.isSome = true := Option.isSome_iff_ne_none.mpr hstale.file
    simp only [Host.main, hfile, if_true]
    split
    · exact hstale
    · exact hstale.sendSignalToDaemon pid arg

/-- A step of a process on its own keeps the file stale. -/
theorem Stale.step (hstale : Stale h) {pid : Pid} {ok : Bool} (hstep : h.step pid ok = .ok h') :
    Stale h' := by
  unfold Host.step at hstep
  split at hstep
  · rename_i hpid
    exact (hstale.spent pid _ hpid).elim
  · rename_i hpid
    exact (hstale.spent pid _ hpid).elim
  · rename_i hpid
    exact (hstale.spent pid _ hpid).elim
  · cases hstep
    exact Stale.kill (hstale.setProcess (by simp)) _ _
  · cases hstep
  · cases hstep

/-- A step of a daemon's main loop keeps the file stale. -/
theorem Stale.daemon (hstale : Stale h) {pid : Pid} {input : MainInput}
    (hstep : h.daemon pid input = .ok h') : Stale h' := by
  unfold Host.daemon at hstep
  split at hstep
  · rename_i s hpid
    have hspent : s.handlers = 0 := hstale.spent pid _ hpid
    cases input with
    | hangUp | terminate =>
      cases hstep
      exact hstale.kill _ _
    | step file forked | listener g i | child =>
      simp only at hstep
      split at hstep
      · rename_i s' hs'
        cases hstep
        apply hstale.setProcess
        rintro _ ⟨rfl⟩
        exact mainStep_handlers hspent hs'
      · cases hstep
  · cases hstep

/-- A crash keeps the file stale. -/
theorem Stale.crash (hstale : Stale h) (pid : Pid) : Stale (h.crash pid) := by
  unfold Host.crash
  split
  · rename_i s hpid
    apply hstale.setProcess
    rintro _ ⟨rfl⟩
    have hspent : s.handlers = 0 := hstale.spent pid _ hpid
    exact handlers_eq_zero_iff.mpr ⟨rfl, (handlers_eq_zero_iff.mp hspent).2⟩
  · rename_i n hpid
    exact (hstale.spent pid _ hpid).elim
  · exact hstale.setProcess (by simp)

/-- Every step of the host keeps the file stale. -/
theorem hostStep_keeps_stale {input : HostInput} (hstale : Stale h)
    (hstep : hostStep h input = .ok h') : Stale h' := by
  cases input with
  | main pid args =>
    cases hstep
    exact hstale.main pid args
  | step pid ok => exact hstale.step hstep
  | daemon pid input => exact hstale.daemon hstep
  | crash pid =>
    cases hstep
    exact hstale.crash pid

/-- A file that is stale is so in every state that a run from there reaches. -/
theorem stale_reached (hstale : Stale h) (inputs : List HostInput) :
    EveryReached hostStep Stale h inputs := by
  apply everyReached_inv (fun _ _ _ hstale _ hstep => hostStep_keeps_stale hstale hstep) hstale
  exact everyStep_of_mem (Q := fun _ _ => True) fun _ _ _ => trivial

/-- Some run from here removes the file. -/
def Removable (h : Host) : Prop :=
  ∃ inputs h', runSteps hostStep h inputs = .ok h' ∧ h'.pidFile = none

/-- If the file can be removed behind a step, it can be before it. -/
theorem Removable.cons {input : HostInput} (hstep : hostStep h input = .ok h')
    (hremovable : Removable h') : Removable h := by
  obtain ⟨inputs, h'', hrun, hfile⟩ := hremovable
  exact ⟨input :: inputs, h'', (runSteps_cons hstep inputs).trans hrun, hfile⟩

/-- A daemon that cleans up removes the file. -/
theorem removable_cleaning {pid : Pid} {n : ℕ} (hpid : h.processes pid = some (.cleaning n)) :
    Removable h := by
  have hstep : hostStep h (.step pid true) = .ok (h.cleanup pid n) := by
    simp [hostStep, Host.step, hpid]
  exact .cons hstep ⟨[], _, rfl, rfl⟩

/-- The group is told to stop, and somebody cleans up. -/
theorem removable_running {pid : Pid} {s : MainProcess} (hpid : h.processes pid = some (.running s))
    (hs : s.handlers ≠ 0) : Removable h := by
  have hstep : hostStep h (.daemon pid .terminate) = .ok (h.kill pid .terminate) := by
    simp [hostStep, Host.daemon, hpid]
  have hkill : (h.kill pid .terminate).processes pid = some (.cleaning s.handlers) := by
    unfold Host.kill
    rw [setProcess_self, hpid]
    exact if_neg hs
  exact .cons hstep (removable_cleaning hkill)

/-- A daemon that has just written its file can be stopped, and removes it. -/
theorem removable_written {pid : Pid} (hpid : h.processes pid = some .written) : Removable h := by
  have hstep : hostStep h (.step pid true) = .ok (h.setProcess pid (some (.running {}))) := by
    simp [hostStep, Host.step, hpid]
  exact .cons hstep (removable_running (setProcess_self pid _) (by decide))

/-- A daemon that has tested for the file can still write it, and remove it. -/
theorem removable_checked {pid : Pid} (hpid : h.processes pid = some .checked) : Removable h := by
  have hstep : hostStep h (.step pid true) = .ok (h.createDaemon pid) := by
    simp [hostStep, Host.step, hpid]
  exact .cons hstep (removable_written (setProcess_self pid _))

/-- While some process is not spent the file can still be removed. -/
theorem removable_of_not_spent {pid : Pid} {stage : Stage} (hpid : h.processes pid = some stage)
    (hnot : ¬ Spent stage) : Removable h := by
  cases stage with
  | checked => exact removable_checked hpid
  | written => exact removable_written hpid
  | running s => exact removable_running hpid hnot
  | cleaning n => exact removable_cleaning hpid
  | signalling target signal => exact absurd trivial hnot

/-- **The file can still go** by the program's own doing, in whatever order its processes go on and
commands are given, exactly if it is gone already, or a daemon is there in which some process has
the handler for SIGTERM or is to get it. -/
theorem removable_iff (h : Host) : Removable h ↔ ¬ Stale h := by
  constructor
  · rintro ⟨inputs, h', hrun, hfile⟩ hstale
    exact (stale_reached hstale inputs inputs List.prefix_rfl h' hrun).file hfile
  · intro hnot
    by_cases hfile : h.pidFile = none
    · exact ⟨[], h, rfl, hfile⟩
    · have hsome : ¬ ∀ pid stage, h.processes pid = some stage → Spent stage :=
        fun hspent => hnot ⟨hfile, hspent⟩
      simp only [not_forall] at hsome
      obtain ⟨pid, stage, hpid, hstage⟩ := hsome
      exact removable_of_not_spent hpid hstage

/-- **A rejected configuration is the end**: if there has never been more than one daemon so far,
the main process exits over it, and if every listener has handlers of its own by then the file
stays whatever happens, so that each `init` finds a daemon started and no signal reaches one. -/
theorem rejected_reload_final {inputs : List HostInput}
    (hone : EveryReached hostStep OneDaemon {} inputs)
    (hrun : runSteps hostStep {} inputs = .ok h) {pid : Pid} {s : MainProcess}
    (hpid : h.processes pid = some (.running s)) (hload : s.point = .load)
    (hown : ∀ g ∈ s.generations, .inherited ∉ g) {file : ConfigFile}
    (hrejected : ∀ config, file.load ≠ .ok (some config)) (forked : Bool)
    (hstep : hostStep h (.daemon pid (.step file forked)) = .ok h') (rest : List HostInput) :
    EveryReached hostStep Stale h' rest := by
  have hhost := hone inputs List.prefix_rfl h hrun
  -- the main process is at its end
  have hs : mainStep s (.step file forked) = .ok (s.reloadConfig file) := by
    simp [mainStep, MainProcess.step, hload]
  have hend : (s.reloadConfig file).handlers = 0 := by
    rw [handlers_eq_zero_iff]
    unfold MainProcess.reloadConfig
    split
    · rename_i config hconfig
      exact absurd hconfig (hrejected config)
    · exact ⟨rfl, hown⟩
    · exact ⟨rfl, hown⟩
  have hh' : h' = h.setProcess pid (some (.running (s.reloadConfig file))) := by
    simp only [hostStep, Host.daemon, hpid, hs] at hstep
    cases hstep
    rfl
  subst hh'
  refine stale_reached ⟨?_, fun q stage hq => ?_⟩ rest
  · rw [setProcess_pidFile, hhost.named pid _ hpid trivial]
    simp
  · rcases setProcess_cases hq with ⟨-, hself⟩ | ⟨hne, hother⟩
    · cases hself
      exact hend
    · have hnot := hhost.others hpid (.inl trivial) q stage hne hother
      cases stage with
      | signalling target signal => trivial
      | written | running s => exact absurd (.inl trivial) hnot
      | checked | cleaning n => exact absurd (.inr trivial) hnot

/-- A reload is due when the listener of the first has handlers of its own. -/
def twoReloads : List MainInput :=
  reload ++ [.listener 0 0, .listener 0 0, .hangUp, .step validFile true]

/-- A daemon is started, and reloads twice. -/
def startAndReload : List HostInput :=
  startAndStop.take 3 ++ twoReloads.map (.daemon 7)

/-- The run with a reload meets the condition. -/
theorem exclusive_startAndReload : EveryStep hostStep Exclusive {} startAndReload := by
  refine everyStep_cons.mpr ⟨by simp [Exclusive], fun s _ => ?_⟩
  apply everyStep_of_mem
  intro input hinput s
  rcases List.mem_append.mp hinput with hstep | hdaemon
  · rw [List.eq_of_mem_replicate (n := 2) hstep]
    trivial
  · obtain ⟨_, -, rfl⟩ := List.mem_map.mp hdaemon
    trivial

/-- The main process then is in front of `load_config`, and its listener was told to exit. -/
theorem run_twoReloads :
    ∃ s, runSteps mainStep {} twoReloads = .ok s ∧ s.point = .load ∧ s.generations = [[.told]] :=
  ⟨_, rfl, rfl, rfl⟩

/-- The loop of `init` goes on in its process as it does alone, up to a SIGTERM. -/
theorem run_daemon {pid : Pid} {s s' : MainProcess} {inputs : List MainInput}
    (hnone : ∀ input ∈ inputs, input ≠ .terminate) (hpid : h.processes pid = some (.running s))
    (hrun : runSteps mainStep s inputs = .ok s') :
    ∃ h', runSteps hostStep h (inputs.map (.daemon pid)) = .ok h' ∧
      h'.processes pid = some (.running s') := by
  induction inputs generalizing h s with
  | nil =>
    cases hrun
    exact ⟨h, rfl, hpid⟩
  | cons input inputs ih =>
    obtain ⟨s₁, hfirst, hrest⟩ := bind_eq_ok_iff.mp hrun
    have hstep : hostStep h (.daemon pid input) = .ok (h.setProcess pid (some (.running s₁))) := by
      cases input with
      | step file forked | listener g i | child => simp [hostStep, Host.daemon, hpid, hfirst]
      | hangUp =>
        cases hfirst
        simp [hostStep, Host.daemon, hpid, Host.kill, Stage.receive]
      | terminate => exact absurd rfl (hnone _ (by simp))
    obtain ⟨h', hrun', hpid'⟩ :=
      ih (fun input hinput => hnone input (by simp [hinput])) (setProcess_self pid _) hrest
    exact ⟨h', (runSteps_cons hstep _).trans hrun', hpid'⟩

/-- The second reload finds a file that cannot be read. -/
theorem rejected_reload_final_unreadable :
    ∃ h h', runSteps hostStep {} startAndReload = .ok h ∧
      hostStep h (.daemon 7 (.step unreadableFile true)) = .ok h' ∧
      EveryReached hostStep Stale h'
        [.main 8 [ascii "stop"], .step 8 true, .main 9 [ascii "init"]] := by
  have hone : EveryReached hostStep OneDaemon {} startAndReload :=
    everyReached_inv (fun _ _ _ hone hexcl hstep => hostStep_keeps_one hone hexcl
      (hostStep_move hstep)) oneDaemon_start exclusive_startAndReload
  have hrejected (config : ProxyConfig) : unreadableFile.load ≠ .ok (some config) := by
    simp [unreadableFile, ConfigFile.load, loadConfig]
  obtain ⟨s, hs, hload, hgenerations⟩ := run_twoReloads
  obtain ⟨h₀, hstart, hpid₀⟩ : ∃ h, runSteps hostStep {} (startAndStop.take 3) = .ok h ∧
      h.processes 7 = some (.running {}) := ⟨_, rfl, rfl⟩
  obtain ⟨h, hrun, hpid⟩ := run_daemon (by simp [twoReloads, reload]) hpid₀ hs
  replace hrun : runSteps hostStep {} startAndReload = .ok h :=
    (runSteps_append hstart _).trans hrun
  have hown : ∀ g ∈ s.generations, .inherited ∉ g := by simp [hgenerations]
  have hstep : hostStep h (.daemon 7 (.step unreadableFile true)) =
      .ok (h.setProcess 7 (some (.running (s.reloadConfig unreadableFile)))) := by
    simp [hostStep, Host.daemon, hpid, mainStep, MainProcess.step, hload]
  exact ⟨h, _, hrun, hstep,
    rejected_reload_final hone hrun hpid hload hown hrejected true hstep _⟩

end PkuyoProxy.Analysis
