import PkuyoProxy.Lib.FallibleRun
import PkuyoProxy.Model.Config

/-!
# The main process and its listeners (main.cpp:102-151, init_listener.cpp:89-111)

The loop of `init` tests `need_reload`, reloads, resets the flag and pauses; the handler of a
signal runs between any two of these steps.  A signal to the process group is handled by the
main process and by every listener.  A listener that was forked has the handler of the main
process, then the default action, then `reload_signal_handler`; its workers inherit the handler
and the flag `needExit`.  Nobody reads `loaded`, `requested` and `unseen`; they are there to
speak of runs.
-/

set_option autoImplicit false

namespace PkuyoProxy.Model

/-- What a listener does with SIGHUP, or has done. -/
inductive ListenerState
  | inherited
  | defaultAction
  | listening
  | told
  | killed
  deriving DecidableEq, Repr

namespace ListenerState

/-- init_listener.cpp:95-104: the next call of `signal` for SIGHUP. -/
def installNext : ListenerState → ListenerState
  | inherited => defaultAction
  | defaultAction => listening
  | s => s

/-- The listener gets a SIGHUP. -/
def hangUp : ListenerState → ListenerState
  | inherited => inherited
  | defaultAction | killed => killed
  | listening | told => told

/-- The listener has neither been told to exit nor been killed. -/
def Untold (s : ListenerState) : Prop := s ≠ told ∧ s ≠ killed

instance : DecidablePred Untold := fun s => inferInstanceAs (Decidable (s ≠ told ∧ s ≠ killed))

end ListenerState

/-- Where the main process is: in front of `if (need_reload)`, of `load_config`, of the fork
of another listener, of `need_reload = false`, of `pause`, or in it, or at its end. -/
inductive MainPoint
  | test
  | load
  | fork (remaining : ℕ)
  | reset
  | beforePause
  | paused
  | ended
  deriving DecidableEq, Repr

/-- The listeners of the newest generation come first.  A configuration was loaded, a SIGHUP
was handled since the last one was read, or since the flag was tested or reset. -/
structure MainProcess where
  point : MainPoint := .test
  needReload : Bool := true
  generations : List (List ListenerState) := []
  loaded : Bool := false
  requested : Bool := false
  unseen : Bool := false
  deriving DecidableEq, Repr

/-- What `load_config` finds: the document, and the memory of the algorithms. -/
structure ConfigFile where
  root : Option Json
  uninit : ℕ → LoadBalancingAlgorithm

/-- What the file is loaded as. -/
def ConfigFile.load (file : ConfigFile) : Except LoadFault (Option ProxyConfig) :=
  loadConfig file.uninit file.root

/-- The process is blocked, or has ended. -/
inductive MainFault
  | noStep
  deriving DecidableEq, Repr

namespace MainProcess

/-- main.cpp:115-125 and init_listener.cpp:93: `load_config`, and the first listener is next. -/
def reloadConfig (s : MainProcess) (file : ConfigFile) : MainProcess :=
  match file.load with
  | .ok (some config) =>
    { s with
      point := .fork config.listenerCount.toNat
      generations := [] :: s.generations
      loaded := true
      requested := false }
  | .ok none | .error _ => { s with point := .ended, requested := false }

/-- init_listener.cpp:93-110; `forked` says whether `fork` succeeds. -/
def forkListener (s : MainProcess) (remaining : ℕ) (forked : Bool) : MainProcess :=
  match remaining with
  | 0 => { s with point := .reset }
  | n + 1 =>
    if forked then
      { s with
        point := .fork n
        generations := s.generations.modifyHead (· ++ [.inherited]) }
    else { s with point := .ended }

/-- main.cpp:144-149 -/
def step (s : MainProcess) (file : ConfigFile) (forked : Bool) : Except MainFault MainProcess :=
  match s.point with
  | .test =>
    .ok { s with point := if s.needReload then .load else .beforePause, unseen := false }
  | .load => .ok (s.reloadConfig file)
  | .fork remaining => .ok (s.forkListener remaining forked)
  | .reset => .ok { s with point := .beforePause, needReload := false, unseen := false }
  | .beforePause => .ok { s with point := .paused }
  | .paused | .ended => .error .noStep

/-- A handler returns; this ends `pause`. -/
def wake (s : MainProcess) : MainProcess :=
  { s with point := if s.point = .paused then .test else s.point }

/-- main.cpp:103-105 -/
def handleHangUp (s : MainProcess) : MainProcess :=
  if s.point = .ended then s
  else wake { s with needReload := true, requested := true, unseen := true }

/-- SIGHUP to the process group. -/
def hangUp (s : MainProcess) : MainProcess :=
  handleHangUp { s with generations := s.generations.map (List.map .hangUp) }

end MainProcess

/-- What can happen: the main process or a listener takes its next step, or a signal arrives. -/
inductive MainInput
  | step (file : ConfigFile) (forked : Bool)
  | listener (generation index : ℕ)
  | hangUp
  | child
  | terminate

/-- main.cpp:102-113; SIGTERM ends the listeners too, by the handler of the main process or the
default action. -/
def mainStep (s : MainProcess) : MainInput → Except MainFault MainProcess
  | .step file forked => s.step file forked
  | .listener g i =>
    .ok { s with generations := s.generations.modify g (List.modify · i .installNext) }
  | .hangUp => .ok s.hangUp
  | .child => .ok s.wake
  | .terminate =>
    .ok { s with
      point := .ended
      generations := s.generations.map (List.map fun _ => .killed) }

end PkuyoProxy.Model
