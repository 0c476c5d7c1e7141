import Mathlib.Logic.Function.Basic
import PkuyoProxy.Model.MainLoop

/-!
# The commands of the program (main.cpp:21-113, 133-171)

`init` starts a daemon if there is no PID file, and the daemon writes the file; `reload` and `stop`
send a signal to the process group that the file names.  The file goes when `cleanup` runs, in
the handler of SIGTERM, in the main process and in a listener that has not yet replaced the
handler it was forked with.  A test of the file and the write of it, and the read of it and the
signal, are steps of their own; the processes of the host take theirs in any order.
-/

set_option autoImplicit false

namespace PkuyoProxy.Model

/-- The number of a process. -/
abbrev Pid := ℕ

/-- The signals that the commands send. -/
inductive Signal
  | hangUp
  | terminate
  deriving DecidableEq, Repr

/-- What a process of the program is about to do.  A daemon has the number of its group; before its
handlers are installed a signal ends it. -/
inductive Stage
  | checked
  | written
  | running (s : MainProcess)
  | cleaning (processes : ℕ)
  | signalling (target : Pid) (signal : Signal)
  deriving DecidableEq, Repr

/-- The file, and the processes that are there. -/
structure Host where
  pidFile : Option Pid := none
  processes : Pid → Option Stage := fun _ => none

/-- The process takes no such step. -/
inductive HostFault
  | noStep
  deriving DecidableEq, Repr

/-- The processes of the group of a daemon that have its handler for SIGTERM.  A listener replaces
that and the one for SIGHUP in one step (init_listener.cpp:98-99). -/
def MainProcess.handlers (s : MainProcess) : ℕ :=
  (if s.point = .ended then 0 else 1) + s.generations.flatten.count .inherited

/-- main.cpp:102-113: the group gets a signal. -/
def Stage.receive (signal : Signal) : Stage → Option Stage
  | .running s =>
    match signal with
    | .hangUp => some (.running s.hangUp)
    | .terminate => if s.handlers = 0 then none else some (.cleaning s.handlers)
  | .cleaning processes => some (.cleaning processes)
  | .checked | .written | .signalling _ _ => none

/-- One of the processes in `cleanup` ends. -/
def Stage.cleaningLess (processes : ℕ) : Option Stage :=
  if processes ≤ 1 then none else some (.cleaning (processes - 1))

namespace Host

/-- The process is at this stage, or gone. -/
def setProcess (h : Host) (pid : Pid) (stage : Option Stage) : Host :=
  { h with processes := Function.update h.processes pid stage }

/-- `kill(-target, signal)` -/
def kill (h : Host) (target : Pid) (signal : Signal) : Host :=
  h.setProcess target ((h.processes target).bind (Stage.receive signal))

/-- main.cpp:64-93: as far as the read of the file. -/
def sendSignalToDaemon (h : Host) (pid : Pid) (signalType : Bytes) : Host :=
  match h.pidFile with
  | none => h
  | some target =>
    if signalType = ascii "reload" then h.setProcess pid (some (.signalling target .hangUp))
    else if signalType = ascii "stop" then h.setProcess pid (some (.signalling target .terminate))
    else h

/-- main.cpp:155-171; `pid` is that of the daemon that `init` forks. -/
def main (h : Host) (pid : Pid) : List Bytes → Host
  | [] => h
  | arg :: _ =>
    if arg = ascii "init" then
      if h.pidFile.isSome then h else h.setProcess pid (some .checked)
    else h.sendSignalToDaemon pid arg

/-- main.cpp:21-62: the group is the daemon's own. -/
def createDaemon (h : Host) (pid : Pid) : Host :=
  { h.setProcess pid (some .written) with pidFile := some pid }

/-- main.cpp:97-100 and 107-108 -/
def cleanup (h : Host) (pid : Pid) (processes : ℕ) : Host :=
  { h.setProcess pid (Stage.cleaningLess processes) with pidFile := none }

/-- The next step of a process outside of the loop of `init`; `ok` says whether the calls of
`create_daemon`, or `setup_logger`, succeed. -/
def step (h : Host) (pid : Pid) (ok : Bool) : Except HostFault Host :=
  match h.processes pid with
  | some .checked => .ok (if ok then h.createDaemon pid else h.setProcess pid none)
  | some .written => .ok (h.setProcess pid (if ok then some (.running {}) else none))
  | some (.cleaning processes) => .ok (h.cleanup pid processes)
  | some (.signalling target signal) => .ok ((h.setProcess pid none).kill target signal)
  | some (.running _) | none => .error .noStep

/-- Something happens to a daemon in the loop of `init`. -/
def daemon (h : Host) (pid : Pid) (input : MainInput) : Except HostFault Host :=
  match h.processes pid with
  | some (.running s) =>
    match input with
    | .hangUp => .ok (h.kill pid .hangUp)
    | .terminate => .ok (h.kill pid .terminate)
    | .step _ _ | .listener _ _ | .child =>
      match mainStep s input with
      | .ok s => .ok (h.setProcess pid (some (.running s)))
      | .error .noStep => .error .noStep
  | _ => .error .noStep

/-- The process is killed; the listeners of a daemon stay. -/
def crash (h : Host) (pid : Pid) : Host :=
  match h.processes pid with
  | some (.running s) => h.setProcess pid (some (.running { s with point := .ended }))
  | some (.cleaning processes) => h.setProcess pid (Stage.cleaningLess processes)
  | _ => h.setProcess pid none

end Host

/-- What can happen on a host, in any order. -/
inductive HostInput
  | main (pid : Pid) (args : List Bytes)
  | step (pid : Pid) (ok : Bool)
  | daemon (pid : Pid) (input : MainInput)
  | crash (pid : Pid)

/-- One input of the host. -/
def hostStep (h : Host) : HostInput → Except HostFault Host
  | .main pid args => .ok (h.main pid args)
  | .step pid ok => h.step pid ok
  | .daemon pid input => h.daemon pid input
  | .crash pid => .ok (h.crash pid)

end PkuyoProxy.Model
