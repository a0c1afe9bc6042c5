/-
Module: Chaotix.Kernel.Signals
Layer: Kernel
Purpose: Sending signals with `sys_kill`, and handling the pending ones when the scheduler has switched to a process.
  The list of all processes is a list in the order of its links. `1 << signum` is a bit of a word, also for the
  largest signal number. The messages that the kernel prints are left out. The negation of a `pid_t` wraps.
Imports: Mathlib.Logic.Function.Basic, Chaotix.Lib.BitSet, Chaotix.Lib.Transition, Chaotix.Kernel.Base,
  Chaotix.Kernel.Scheduler, Chaotix.Kernel.Lseek
Trusted boundary: human-reviewed model of `api/signum.h`, of `get_default_disposition_for_signal`, `send_signal`,
  `process_send_signal_to_one`, `process_send_signal_to_group`, `process_send_signal_to_all`,
  `process_handle_pending_signals` and `terminate_with_signal` of `process.c`, and of `sys_kill` and `sys_setpgid` of
  `syscall/process.c`
Main exports: Disposition, getDefaultDispositionForSignal, SignalTable, sendSignal, processHandlePendingSignals, sysKill,
  SignalEvent, SignalStep, signalSystem
-/
import Mathlib.Logic.Function.Basic
import Chaotix.Lib.BitSet
import Chaotix.Lib.Transition
import Chaotix.Kernel.Base
import Chaotix.Kernel.Scheduler
import Chaotix.Kernel.Lseek

namespace Chaotix

/-! ### Signal numbers -/

abbrev SIGHUP : Int := 1
abbrev SIGINT : Int := 2
abbrev SIGQUIT : Int := 3
abbrev SIGILL : Int := 4
abbrev SIGTRAP : Int := 5
abbrev SIGABRT : Int := 6
abbrev SIGBUS : Int := 7
abbrev SIGFPE : Int := 8
abbrev SIGKILL : Int := 9
abbrev SIGUSR1 : Int := 10
abbrev SIGSEGV : Int := 11
abbrev SIGUSR2 : Int := 12
abbrev SIGPIPE : Int := 13
abbrev SIGALRM : Int := 14
abbrev SIGTERM : Int := 15
abbrev SIGSTKFLT : Int := 16
abbrev SIGCHLD : Int := 17
abbrev SIGCONT : Int := 18
abbrev SIGSTOP : Int := 19
abbrev SIGTSTP : Int := 20
abbrev SIGTTIN : Int := 21
abbrev SIGTTOU : Int := 22
abbrev SIGURG : Int := 23
abbrev SIGXCPU : Int := 24
abbrev SIGXFSZ : Int := 25
abbrev SIGVTALRM : Int := 26
abbrev SIGPROF : Int := 27
abbrev SIGWINCH : Int := 28
abbrev SIGIO : Int := 29
abbrev SIGPWR : Int := 30
abbrev SIGSYS : Int := 31
abbrev NSIG : Int := 32

/-- The `DISP_` constants. -/
inductive Disposition where
  | TERM
  | IGN
  | CORE
  | STOP
  | CONT
deriving DecidableEq, Repr

/-- `get_default_disposition_for_signal`; `none` is `UNREACHABLE`. -/
def getDefaultDispositionForSignal (signum : Int) : Option Disposition :=
  if signum ∈ [SIGHUP, SIGINT, SIGKILL, SIGPIPE, SIGALRM, SIGUSR1, SIGUSR2, SIGVTALRM, SIGSTKFLT, SIGIO, SIGPROF,
      SIGPWR, SIGTERM] then some .TERM
  else if signum ∈ [SIGCHLD, SIGURG, SIGWINCH] then some .IGN
  else if signum ∈ [SIGQUIT, SIGILL, SIGTRAP, SIGABRT, SIGBUS, SIGFPE, SIGSEGV, SIGXCPU, SIGXFSZ, SIGSYS] then
    some .CORE
  else if signum ∈ [SIGSTOP, SIGTSTP, SIGTTIN, SIGTTOU] then some .STOP
  else if signum = SIGCONT then some .CONT
  else none

/-- `__builtin_ffs`. -/
def builtinFfs (word : BitVec 32) : Nat :=
  match BitSet.lowestBit word with
  | none => 0
  | some k => k + 1

/-- `1 << signum`. -/
def signalBit (signum : Int) : BitVec 32 := 1#32 <<< signum.toNat

/-! ### Processes -/

/-- `all_processes`, `current`, `next_pid` and the fields of the processes that signals are about. -/
structure SignalTable (P : Type) where
  allProcesses : List P
  current : P
  pid : P → Int
  pgid : P → Int
  state : P → ProcessState
  pendingSignals : P → BitVec 32
  exitStatus : P → Int
  nextPid : Int

namespace SignalTable

variable {P : Type} [DecidableEq P]

/-- `get_default_disposition_for_signal`, as a step. -/
def disposition (signum : Int) : Kernel (SignalTable P) Disposition :=
  match getDefaultDispositionForSignal signum with
  | some disp => pure disp
  | none => throw .panic

/-- `terminate_with_signal`: the low byte of a signal number is the number. -/
def terminateWithSignal (signum : Int) : Kernel (SignalTable P) Unit :=
  modify fun s =>
    { s with
      exitStatus := Function.update s.exitStatus s.current (signum % 256)
      state := Function.update s.state s.current .DYING }

/-- The loop of `process_handle_pending_signals`; each round clears a bit. -/
def handleLoop : Nat → Kernel (SignalTable P) Unit
  | 0 => throw .hang
  | n + 1 => do
      let s ← get
      if s.pendingSignals s.current = 0 then
        return
      let b := builtinFfs (s.pendingSignals s.current)
      assert (0 < b)
      let signum : Int := b - 1
      modify fun s =>
        { s with
          pendingSignals :=
            Function.update s.pendingSignals s.current (s.pendingSignals s.current &&& ~~~signalBit signum) }
      match ← disposition signum with
      | .TERM | .CORE => terminateWithSignal signum
      | .IGN => pure ()
      | .STOP | .CONT => throw .panic
      handleLoop n

/-- `process_handle_pending_signals`: a word has 32 bits to clear. -/
def processHandlePendingSignals : Kernel (SignalTable P) Unit := handleLoop 33

/-- `send_signal`. -/
def sendSignal (process : P) (signum : Int) : Kernel (SignalTable P) (Except Errno Unit) := do
  if signum < 0 ∨ NSIG ≤ signum then
    return .error .EINVAL
  match ← disposition signum with
  | .IGN => return .ok ()
  | .STOP | .CONT => throw .panic
  | .TERM | .CORE =>
      modify fun s =>
        { s with
          pendingSignals :=
            Function.update s.pendingSignals process (s.pendingSignals process ||| signalBit signum) }
      if process = (← get).current then
        processHandlePendingSignals
      return .ok ()

/-- The walk of `process_send_signal_to_group` and `process_send_signal_to_all`, which skip the processes that are not
    selected and end at the first error. -/
def sendSignalToEach (select : SignalTable P → P → Bool) (signum : Int) :
    List P → Kernel (SignalTable P) (Except Errno Unit)
  | [] => return .ok ()
  | it :: next => do
      if select (← get) it then
        match ← sendSignal it signum with
        | .error e => return .error e
        | .ok () => sendSignalToEach select signum next
      else
        sendSignalToEach select signum next

/-- `process_send_signal_to_one`. -/
def processSendSignalToOne (pid signum : Int) : Kernel (SignalTable P) (Except Errno Unit) := do
  let s ← get
  match s.allProcesses.find? (fun it => s.pid it = pid) with
  | none => return .error .ESRCH
  | some process => sendSignal process signum

/-- `process_send_signal_to_group`. -/
def processSendSignalToGroup (pgid signum : Int) : Kernel (SignalTable P) (Except Errno Unit) := do
  sendSignalToEach (fun s it => s.pgid it = pgid) signum (← get).allProcesses

/-- `process_send_signal_to_all`. -/
def processSendSignalToAll (signum : Int) : Kernel (SignalTable P) (Except Errno Unit) := do
  sendSignalToEach (fun s it => 1 < s.pid it) signum (← get).allProcesses

/-- `sys_kill`. -/
def sysKill (pid sig : Int) : Kernel (SignalTable P) (Except Errno Unit) := do
  if 0 < pid then
    processSendSignalToOne pid sig
  else if pid = 0 then
    let s ← get
    processSendSignalToGroup (s.pgid s.current) sig
  else if pid = -1 then
    processSendSignalToAll sig
  else
    processSendSignalToGroup (toOff (-pid)) sig

/-- `sys_setpgid`. -/
def sysSetpgid (pid pgid : Int) : Kernel (SignalTable P) (Except Errno Unit) := do
  if pgid < 0 then
    return .error .EINVAL
  let s ← get
  let targetPid := if pid ≠ 0 then pid else s.pid s.current
  match s.allProcesses.find? (fun it => s.pid it = targetPid) with
  | none => return .error .ESRCH
  | some target =>
      set { s with pgid := Function.update s.pgid target (if pgid ≠ 0 then pgid else targetPid) }
      return .ok ()

end SignalTable

/-! ### Runs -/

/-- What happens to processes as far as signals are concerned. `interrupt` is a key of a terminal. -/
inductive SignalEvent (P : Type) where
  | kill (pid sig : Int) (result : Except Errno Unit)
  | setpgid (pid pgid : Int) (result : Except Errno Unit)
  | interrupt (pgid signum : Int) (result : Except Errno Unit)
  | schedule (process : P)
  | fork (process : P)
  | spawn (process : P)
  | init
  | remove (process : P)
  | changeState (process : P) (state : ProcessState)

section Steps

variable {P : Type} [DecidableEq P]

/-- The structure of a process that did not exist, zeroed and then filled in. -/
def SignalTable.register (s : SignalTable P) (process : P) (pid pgid : Int) (allProcesses : List P) : SignalTable P :=
  { s with
    allProcesses
    pid := Function.update s.pid process pid
    pgid := Function.update s.pgid process pgid
    state := Function.update s.state process .RUNNABLE
    pendingSignals := Function.update s.pendingSignals process 0
    exitStatus := Function.update s.exitStatus process 0 }

/-- The steps that return. Process numbers do not wrap, and a new process is linked somewhere into the list. -/
inductive SignalStep : SignalTable P → SignalEvent P → SignalTable P → Prop where
  | kill {s s'} (pid sig : Int) (result : Except Errno Unit) :
      IsOff pid → SignalTable.sysKill pid sig s = .ok (result, s') → SignalStep s (.kill pid sig result) s'
  | setpgid {s s'} (pid pgid : Int) (result : Except Errno Unit) :
      IsOff pgid → SignalTable.sysSetpgid pid pgid s = .ok (result, s') → SignalStep s (.setpgid pid pgid result) s'
  | interrupt {s s'} (pgid signum : Int) (result : Except Errno Unit) :
      signum ∈ [SIGINT, SIGQUIT] → SignalTable.processSendSignalToGroup pgid signum s = .ok (result, s') →
      SignalStep s (.interrupt pgid signum result) s'
  | schedule {s s' : SignalTable P} (process : P) :
      SignalTable.processHandlePendingSignals { s with current := process } = .ok ((), s') →
      SignalStep s (.schedule process) s'
  | fork {s : SignalTable P} (process : P) (prev next : List P) :
      s.nextPid < 2 ^ 31 → process ∉ s.allProcesses → s.allProcesses = prev ++ next →
      SignalStep s (.fork process)
        { s.register process s.nextPid (s.pgid s.current) (prev ++ process :: next) with nextPid := s.nextPid + 1 }
  | spawn {s : SignalTable P} (process : P) (prev next : List P) :
      process ∉ s.allProcesses → s.allProcesses = prev ++ next →
      SignalStep s (.spawn process) (s.register process 0 0 (prev ++ process :: next))
  | init {s : SignalTable P} :
      s.nextPid < 2 ^ 31 →
      SignalStep s .init { s with pid := Function.update s.pid s.current s.nextPid, nextPid := s.nextPid + 1 }
  | remove {s : SignalTable P} (process : P) :
      SignalStep s (.remove process) { s with allProcesses := s.allProcesses.erase process }
  | changeState {s : SignalTable P} (process : P) (state : ProcessState) :
      SignalStep s (.changeState process state) { s with state := Function.update s.state process state }

/-- `process_init`: no process is registered yet, and the fields are zero. -/
def signalSystem (P : Type) [DecidableEq P] : TransitionSystem (SignalTable P) (SignalEvent P) where
  init s := s.allProcesses = [] ∧ s.nextPid = 1 ∧ ∀ p, s.pid p = 0 ∧ s.pgid p = 0 ∧ s.pendingSignals p = 0
  step := SignalStep

end Steps

end Chaotix
