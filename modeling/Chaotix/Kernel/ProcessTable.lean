/-
Module: Chaotix.Kernel.ProcessTable
Layer: Kernel
Purpose: The list of all processes, as `scheduler_register` links it, `die` walks over it, and `waitpid_should_unblock`
  unlinks from it, inside `sys_fork`, `process_exit` and `sys_waitpid`. A `struct process` is a name with one map for
  each of its fields. A process can be preempted between any two steps, so each step is an event of one process, and
  which process goes on is left open; what runs with interrupts disabled is one step, and so is
  `scheduler_block` from its test to its yield. `struct waitpid_blocker` is part of the control point of the process
  that waits. Process numbers do not wrap.
Imports: Mathlib.Logic.Function.Basic, Chaotix.Lib.Transition, Chaotix.Lib.LinkedList, Chaotix.Kernel.Scheduler
Trusted boundary: human-reviewed model of `scheduler_register`, `scheduler_unregister` and the loop body of
  `unblock_processes` of `scheduler.c`, of `process_spawn_kernel_process`, `process_generate_next_pid`, `process_exit`,
  `die` and `terminate_with_signal` of `process.c`, of `sys_fork`, `sys_setpgid` and `sys_waitpid` of
  `syscall/process.c`, and of `init` and the end of `start` of `main.c`
Main exports: WaitpidBlocker, ProcessPc, ProcessTable, schedulerRegister, schedulerUnregister, waitpidShouldUnblock,
  ProcessTable.Event, processTableSystem
-/
import Mathlib.Logic.Function.Basic
import Chaotix.Lib.Transition
import Chaotix.Lib.LinkedList
import Chaotix.Kernel.Scheduler

namespace Chaotix

/-- `struct waitpid_blocker`. -/
structure WaitpidBlocker (P : Type) where
  paramPid : Int
  currentPid : Int
  currentPgid : Int
  waitedProcess : Option P := none
deriving DecidableEq

/-- Where a new process starts: in `init`, in another function of the kernel, or in `return_to_userland`. -/
inductive EntryPoint where
  | init
  | kernel
  | returnToUserland
deriving DecidableEq

/-- Where a process is. `absent` is a process that is not registered yet, or one that is dead. -/
inductive ProcessPc (P : Type) where
  | absent
  | start
  | kernel
  | init
  | initGenerated (pid : Int)
  | user
  | forking (child : P)
  | creating (child : P) (entry : EntryPoint)
  | waitpid (nohang : Bool) (blocker : WaitpidBlocker P)
  | blocked (blocker : WaitpidBlocker P)
  | woken (blocker : WaitpidBlocker P)
  | waited (blocker : WaitpidBlocker P)
  | dying
deriving DecidableEq

/-- A process at its entry point. -/
def EntryPoint.pc {P : Type} : EntryPoint → ProcessPc P
  | .init => .init
  | .kernel => .kernel
  | .returnToUserland => .user

/-- The global variables, the fields of each process, and the control points. `allocated` lists the structures that
    exist, with their kernel stacks. `waitResult` is what the last `waitpid` of a process returned. Two fields are not
    in the code: `forked` says that the process was created by `fork`, and `removed` lists what the last `waitpid` of a
    process has taken out of the list. -/
structure ProcessTable (P : Type) where
  allProcesses : Option P
  nextInAllProcesses : P → Option P
  allocated : List P
  nextPid : Int
  pid : P → Int
  ppid : P → Int
  pgid : P → Int
  state : P → ProcessState
  exitStatus : P → Nat
  pendingSignals : P → Bool
  blockerWasInterrupted : P → Bool
  pc : P → ProcessPc P
  waitResult : P → Option (Except Errno (Int × Option Nat))
  forked : P → Bool
  removed : P → List P

namespace ProcessTable

variable {P : Type} [DecidableEq P]

/-! ### Functions that run with interrupts disabled -/

/-- `scheduler_register`, up to `pop_cli`. The walk never ends on a cyclic list. -/
def schedulerRegister (process : P) : Kernel (ProcessTable P) Unit := do
  assert ((← get).state process = .RUNNABLE)
  let s ← get
  match findNode s.nextInAllProcesses (fun it => ¬s.pid it < s.pid process) s.allocated.length none s.allProcesses with
  | none => throw .hang
  | some (prev, it) =>
      let (next, head) :=
        LinkedList.setLink (Function.update s.nextInAllProcesses process it) s.allProcesses prev (some process)
      set { s with nextInAllProcesses := next, allProcesses := head }

/-- The variables of the loop of `scheduler_unregister`: the links, `all_processes`, `prev` and `it`. -/
structure UnregisterLoop (P : Type) where
  next : P → Option P
  head : Option P
  prev : Option P
  it : Option P

/-- The variables at the beginning of `scheduler_unregister`. -/
def UnregisterLoop.start (next : P → Option P) (head : Option P) : UnregisterLoop P := ⟨next, head, none, head⟩

/-- One round of the loop. When `it` is `NULL`, the loop has ended. -/
def UnregisterLoop.round (process : P) (v : UnregisterLoop P) : UnregisterLoop P :=
  match v.it with
  | none => v
  | some it =>
      if it ≠ process then { v with prev := some it, it := v.next it }
      else
        match v.prev with
        | some prev => { v with next := Function.update v.next prev (v.next it) }
        | none => { v with head := v.next it }

/-- `scheduler_unregister`. Once the loop has found the process it never goes on. -/
def schedulerUnregister (process : P) : Kernel (ProcessTable P) Unit := do
  let s ← get
  match findNode s.nextInAllProcesses (fun it => it = process) s.allocated.length none s.allProcesses with
  | some (_, none) => pure ()
  | _ => throw .hang

/-- One round of the loop of `die`: a child of the process is adopted by `init`. -/
def adopt (p it : P) : Kernel (ProcessTable P) Unit :=
  modify fun s => if s.ppid it = s.pid p then { s with ppid := Function.update s.ppid it 1 } else s

/-- The end of `die`. -/
def dieFinally (p : P) : Kernel (ProcessTable P) Unit := do
  let s ← get
  match visit s.nextInAllProcesses s.allocated.length s.allProcesses with
  | none => throw .hang
  | some processes => do
      processes.forM (adopt p)
      modify fun s => { s with state := Function.update s.state p .DEAD, pc := Function.update s.pc p .absent }

/-- `is_target`. -/
def isTarget (s : ProcessTable P) (blocker : WaitpidBlocker P) (it : P) : Bool :=
  if blocker.paramPid < -1 then s.pgid it = -blocker.paramPid
  else if blocker.paramPid = -1 then s.ppid it = blocker.currentPid
  else if blocker.paramPid = 0 then s.pgid it = blocker.currentPgid
  else s.pid it = blocker.paramPid

/-- The loop of `waitpid_should_unblock`, with `prev`, `it` and `any_target_exists`. -/
def waitpidLoop (s : ProcessTable P) (blocker : WaitpidBlocker P) :
    Nat → Option P → Option P → Bool → Option (Option P × Option P × Bool)
  | _, prev, none, anyTargetExists => some (prev, none, anyTargetExists)
  | 0, _, some _, _ => none
  | n + 1, prev, some it, anyTargetExists =>
      let target := s.isTarget blocker it
      if target ∧ s.state it = .DEAD then some (prev, some it, anyTargetExists || target)
      else waitpidLoop s blocker n (some it) (s.nextInAllProcesses it) (anyTargetExists || target)

/-- `waitpid_should_unblock`, with the blocker it leaves. -/
def waitpidShouldUnblock (blocker : WaitpidBlocker P) : Kernel (ProcessTable P) (Bool × WaitpidBlocker P) := do
  let s ← get
  match s.waitpidLoop blocker s.allocated.length none s.allProcesses false with
  | none => throw .hang
  | some (_, none, anyTargetExists) =>
      if anyTargetExists then return (false, blocker) else return (true, { blocker with waitedProcess := none })
  | some (prev, some it, _) => do
      let (next, head) := LinkedList.setLink s.nextInAllProcesses s.allProcesses prev (s.nextInAllProcesses it)
      set { s with nextInAllProcesses := next, allProcesses := head }
      return (true, { blocker with waitedProcess := some it })

/-! ### The functions of the processes -/

/-- The process goes on to another control point. -/
def setPc (p : P) (pc : ProcessPc P) : Kernel (ProcessTable P) Unit :=
  modify fun s => { s with pc := Function.update s.pc p pc }

/-- The predicate has answered yes: the blocker holds the process that it has taken out of the list. -/
def unblocked (p : P) (blocker : WaitpidBlocker P) (pc : ProcessPc P) : Kernel (ProcessTable P) Unit := do
  modify fun s => { s with removed := Function.update s.removed p (s.removed p ++ blocker.waitedProcess.toList) }
  setPc p pc

/-- `sys_waitpid` returns. -/
def returnWait (p : P) (result : Except Errno (Int × Option Nat)) : Kernel (ProcessTable P) Unit := do
  modify fun s => { s with waitResult := Function.update s.waitResult p (some result) }
  setPc p .user

/-- `kaligned_alloc` and `*process = (struct process){0}`, and the state that follows. -/
def allocProcess (process : P) (forked : Bool) : Kernel (ProcessTable P) Unit :=
  modify fun s =>
    { s with
      allocated := process :: s.allocated
      nextInAllProcesses := Function.update s.nextInAllProcesses process none
      pid := Function.update s.pid process 0
      ppid := Function.update s.ppid process 0
      pgid := Function.update s.pgid process 0
      state := Function.update s.state process .RUNNABLE
      exitStatus := Function.update s.exitStatus process 0
      pendingSignals := Function.update s.pendingSignals process false
      blockerWasInterrupted := Function.update s.blockerWasInterrupted process false
      pc := Function.update s.pc process .absent
      forked := Function.update s.forked process forked }

/-- What happens: one process goes on by one step, or the scheduler or another process acts on it. -/
inductive Event (P : Type) where
  | createKernelProcess (p child : P)
  | fork (p child : P)
  | generatePid (p : P)
  | forkFails (p : P)
  | register (p : P)
  | assignPid (p : P)
  | setState (p : P) (state : ProcessState)
  | setpgid (p : P) (pgid : Int)
  | sendSignal (p : P)
  | terminateWithSignal (p : P) (signum : Nat)
  | exit (p : P) (exitStatus : Option Nat)
  | die (p : P)
  | waitpid (p : P) (pid : Int) (nohang : Bool)
  | testBlocker (p : P)
  | unblock (p : P)
  | blockReturns (p : P)
  | reap (p : P)
deriving DecidableEq

/-- Which events can happen. Only `start` creates `userland_init`; what runs in the kernel alone neither forks nor
    waits. A dead process does nothing. `process_die_if_needed` enters `die` without an exit status of its own. -/
def Enabled (s : ProcessTable P) : Event P → Prop
  | .createKernelProcess p child => (s.pc p = .start ∨ s.pc p = .kernel) ∧ child ∉ s.allocated
  | .fork p child => s.pc p = .user ∧ child ∉ s.allocated
  | .generatePid p => s.pc p = .init ∨ ∃ child, s.pc p = .forking child
  | .forkFails p => (∃ child, s.pc p = .forking child) ∨ ∃ child, s.pc p = .creating child .returnToUserland
  | .register p => ∃ child entry, s.pc p = .creating child entry
  | .assignPid p => ∃ pid, s.pc p = .initGenerated pid
  | .setState p state => s.pc p ≠ .absent ∧ state ≠ .DEAD
  | .setpgid _ _ => True
  | .sendSignal _ => True
  | .terminateWithSignal p _ => s.pc p ≠ .absent
  | .exit p exitStatus => (s.pc p = .user ∨ s.pc p = .kernel) ∧ (exitStatus = none → s.state p = .DYING)
  | .die p => s.pc p = .dying
  | .waitpid p _ _ => s.pc p = .user
  | .testBlocker p => ∃ nohang blocker, s.pc p = .waitpid nohang blocker
  | .unblock p => ∃ blocker, s.pc p = .blocked blocker
  | .blockReturns p => ∃ blocker, s.pc p = .woken blocker
  | .reap p => ∃ blocker, s.pc p = .waited blocker

section Decidable

variable (pc : ProcessPc P)

instance : Decidable (∃ child, pc = .forking child) :=
  decidable_of_iff (pc matches .forking _) (by cases pc <;> simp)

instance : Decidable (∃ child, pc = .creating child .returnToUserland) :=
  decidable_of_iff (pc matches .creating _ .returnToUserland)
    (by rcases pc with _ | _ | _ | _ | _ | _ | _ | ⟨_, entry⟩ <;> first | (cases entry <;> simp) | simp)

instance : Decidable (∃ child entry, pc = .creating child entry) :=
  decidable_of_iff (pc matches .creating _ _) (by cases pc <;> simp)

instance : Decidable (∃ pid, pc = .initGenerated pid) :=
  decidable_of_iff (pc matches .initGenerated _) (by cases pc <;> simp)

instance : Decidable (∃ nohang blocker, pc = .waitpid nohang blocker) :=
  decidable_of_iff (pc matches .waitpid _ _) (by cases pc <;> simp)

instance : Decidable (∃ blocker, pc = .blocked blocker) :=
  decidable_of_iff (pc matches .blocked _) (by cases pc <;> simp)

instance : Decidable (∃ blocker, pc = .woken blocker) :=
  decidable_of_iff (pc matches .woken _) (by cases pc <;> simp)

instance : Decidable (∃ blocker, pc = .waited blocker) :=
  decidable_of_iff (pc matches .waited _) (by cases pc <;> simp)

end Decidable

instance (s : ProcessTable P) (e : Event P) : Decidable (s.Enabled e) :=
  match e with
  | .createKernelProcess _ _ => inferInstanceAs (Decidable (_ ∧ _))
  | .fork _ _ => inferInstanceAs (Decidable (_ ∧ _))
  | .generatePid p => inferInstanceAs (Decidable (_ ∨ ∃ child, s.pc p = .forking child))
  | .forkFails p =>
      inferInstanceAs (Decidable ((∃ child, s.pc p = .forking child) ∨ ∃ child, s.pc p = .creating child .returnToUserland))
  | .register p => inferInstanceAs (Decidable (∃ child entry, s.pc p = .creating child entry))
  | .assignPid p => inferInstanceAs (Decidable (∃ pid, s.pc p = .initGenerated pid))
  | .setState _ _ => inferInstanceAs (Decidable (_ ∧ _))
  | .setpgid _ _ => isTrue trivial
  | .sendSignal _ => isTrue trivial
  | .terminateWithSignal _ _ => inferInstanceAs (Decidable (_ ≠ _))
  | .exit _ _ => inferInstanceAs (Decidable (_ ∧ _))
  | .die _ => inferInstanceAs (Decidable (_ = _))
  | .waitpid _ _ _ => inferInstanceAs (Decidable (_ = _))
  | .testBlocker p => inferInstanceAs (Decidable (∃ nohang blocker, s.pc p = .waitpid nohang blocker))
  | .unblock p => inferInstanceAs (Decidable (∃ blocker, s.pc p = .blocked blocker))
  | .blockReturns p => inferInstanceAs (Decidable (∃ blocker, s.pc p = .woken blocker))
  | .reap p => inferInstanceAs (Decidable (∃ blocker, s.pc p = .waited blocker))

/-- What an event runs. -/
def Event.run : Event P → Kernel (ProcessTable P) Unit
  | .createKernelProcess p child => do
      let entry := if (← get).pc p = .start then EntryPoint.init else .kernel
      allocProcess child false
      setPc p (.creating child entry)
  | .fork p child => do
      allocProcess child true
      setPc p (.forking child)
  | .generatePid p => do
      let s ← get
      match s.pc p with
      | .forking child => do
          set { s with
            nextPid := s.nextPid + 1
            pid := Function.update s.pid child s.nextPid
            ppid := Function.update s.ppid child (s.pid p)
            pgid := Function.update s.pgid child (s.pgid p) }
          setPc p (.creating child .returnToUserland)
      | _ => do
          set { s with nextPid := s.nextPid + 1 }
          setPc p (.initGenerated s.nextPid)
  | .forkFails p => setPc p .user
  | .register p => do
      match (← get).pc p with
      | .creating child entry => do
          schedulerRegister child
          setPc p (if entry = .returnToUserland then .user else .kernel)
          setPc child entry.pc
      | _ => pure ()
  | .assignPid p => do
      let s ← get
      match s.pc p with
      | .initGenerated pid => do
          set { s with pid := Function.update s.pid p pid, pgid := Function.update s.pgid p pid }
          setPc p .user
      | _ => pure ()
  | .setState p state => modify fun s => { s with state := Function.update s.state p state }
  | .setpgid p pgid => modify fun s => { s with pgid := Function.update s.pgid p pgid }
  | .sendSignal p => modify fun s => { s with pendingSignals := Function.update s.pendingSignals p true }
  | .terminateWithSignal p signum =>
      modify fun s => { s with
        pendingSignals := Function.update s.pendingSignals p false
        exitStatus := Function.update s.exitStatus p (signum % 2 ^ 8)
        state := Function.update s.state p .DYING }
  | .exit p exitStatus => do
      match exitStatus with
      | some status => modify fun s => { s with exitStatus := Function.update s.exitStatus p status }
      | none => pure ()
      assert ((← get).pid p ≠ 1)
      setPc p .dying
  | .die p => dieFinally p
  | .waitpid p pid nohang => do
      let s ← get
      set { s with removed := Function.update s.removed p [] }
      setPc p (.waitpid nohang { paramPid := pid, currentPid := s.pid p, currentPgid := s.pgid p })
  | .testBlocker p => do
      match (← get).pc p with
      | .waitpid nohang blocker => do
          let (shouldUnblock, blocker) ← waitpidShouldUnblock blocker
          if shouldUnblock then unblocked p blocker (.waited blocker)
          else if nohang then
            match blocker.waitedProcess with
            | some _ => returnWait p (.ok (0, none))
            | none => returnWait p (.error .ECHILD)
          else do
            modify fun s => { s with blockerWasInterrupted := Function.update s.blockerWasInterrupted p false }
            setPc p (.blocked blocker)
      | _ => pure ()
  | .unblock p => do
      let s ← get
      match s.pc p with
      | .blocked blocker => do
          if s.pendingSignals p then
            set { s with blockerWasInterrupted := Function.update s.blockerWasInterrupted p true }
            setPc p (.woken blocker)
          else
            let (shouldUnblock, blocker) ← waitpidShouldUnblock blocker
            if shouldUnblock then
              modify fun s => { s with blockerWasInterrupted := Function.update s.blockerWasInterrupted p false }
              unblocked p blocker (.woken blocker)
      | _ => pure ()
  | .blockReturns p => do
      let s ← get
      match s.pc p with
      | .woken blocker =>
          if s.blockerWasInterrupted p then returnWait p (.error .EINTR) else setPc p (.waited blocker)
      | _ => pure ()
  | .reap p => do
      let s ← get
      match s.pc p with
      | .waited blocker =>
          match blocker.waitedProcess with
          | none => returnWait p (.error .ECHILD)
          | some process => do
              schedulerUnregister process
              modify fun s => { s with allocated := s.allocated.erase process }
              returnWait p (.ok (s.pid process, some (s.exitStatus process)))
      | _ => pure ()

/-- After `process_init`: the process that boots the kernel is not on the list. -/
def initial (kernelInit : P) : ProcessTable P :=
  { allProcesses := none
    nextInAllProcesses := fun _ => none
    allocated := [kernelInit]
    nextPid := 1
    pid := fun _ => 0
    ppid := fun _ => 0
    pgid := fun _ => 0
    state := fun _ => .RUNNING
    exitStatus := fun _ => 0
    pendingSignals := fun _ => false
    blockerWasInterrupted := fun _ => false
    pc := Function.update (fun _ => .absent) kernelInit .start
    waitResult := fun _ => none
    forked := fun _ => false
    removed := fun _ => [] }

end ProcessTable

/-- The processes from boot on. -/
def processTableSystem (P : Type) [DecidableEq P] : TransitionSystem (ProcessTable P) (ProcessTable.Event P) where
  init s := ∃ kernelInit, s = ProcessTable.initial kernelInit
  step s e t := s.Enabled e ∧ e.run s = .ok ((), t)

end Chaotix
