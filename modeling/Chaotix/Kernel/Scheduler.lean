/-
Module: Chaotix.Kernel.Scheduler
Layer: Kernel
Purpose: The scheduler of `kernel/scheduler.c` on one processor, with a timer interrupt that may strike
  between any two statements that run with interrupts enabled. The functions that run with interrupts
  disabled (`scheduler_enqueue`, `scheduler_deque`, `unblock_processes`, `switch_to_next_process` and
  `scheduler_yield`) are programs; `scheduler_block` is a sequence of statements, and each process has a
  control point that says which one comes next. A `struct process` is a name with one map for each of
  its fields, so that a link may point anywhere. A function pointer and a `void*` are numbers, 0 for
  `NULL`, and the answers of the predicates are chosen by each event.
Imports: Mathlib.Logic.Function.Basic, Chaotix.Lib.Transition, Chaotix.Lib.LinkedList,
  Chaotix.Kernel.Base
Trusted boundary: human-reviewed model of `kernel/scheduler.c` and of the parts of `kernel/process.c`
  that set the state of a process
Main exports: Scheduler, schedulerEnqueue, schedulerDeque, unblockProcesses, switchToNextProcess,
  schedulerYield, schedulerTick, schedulerBlockStatement, SchedulerEvent, schedulerSystem
-/
import Mathlib.Logic.Function.Basic
import Chaotix.Lib.Transition
import Chaotix.Lib.LinkedList
import Chaotix.Kernel.Base

namespace Chaotix

/-- The `state` of a process. -/
inductive ProcessState where
  | RUNNABLE
  | RUNNING
  | BLOCKED
  | DYING
  | DEAD
deriving DecidableEq, Repr

/-- The statements of `scheduler_block`, in order. -/
inductive BlockPoint where
  | assertShouldUnblock
  | assertBlockerData
  | test
  | setState
  | setShouldUnblock
  | setBlockerData
  | setWasInterrupted
  | yields
  | returns
deriving DecidableEq, Repr

/-- Where a process is: outside the scheduler, before a statement of `scheduler_block(f, data)`, between
    the two halves of `scheduler_register(child)`, or inside `die`. -/
inductive SchedulerPc (P : Type) where
  | outside
  | block (point : BlockPoint) (f data : Nat)
  | registering (child : P)
  | dying
deriving DecidableEq, Repr

/-- The global variables, the fields of each process, and the control points. `allocated` lists the
    process structures that exist, and `blockReturn` is what the last `scheduler_block` of a process
    returned (`none` for 0). `pendingSignals` says whether any bit of the field is set: only signals that
    terminate a process are ever left pending. -/
structure Scheduler (P : Type) where
  readyQueue : Option P
  idle : P
  current : P
  allProcesses : List P
  allocated : List P
  pid : P → Int
  state : P → ProcessState
  shouldUnblock : P → Nat
  blockerData : P → Nat
  blockerWasInterrupted : P → Bool
  pendingSignals : P → Bool
  nextInReadyQueue : P → Option P
  pc : P → SchedulerPc P
  blockReturn : P → Option Errno

variable {P : Type} [DecidableEq P]

/-! ### Functions that run with interrupts disabled -/

/-- `scheduler_enqueue`. The walk to the tail never ends on a cyclic queue. -/
def schedulerEnqueue (p : P) : Kernel (Scheduler P) Unit := do
  assert ((← get).state p ≠ .DEAD)
  modify fun s => { s with nextInReadyQueue := Function.update s.nextInReadyQueue p none }
  let s ← get
  match s.readyQueue with
  | some head =>
      match findTail s.nextInReadyQueue s.allocated.length head with
      | some tail =>
          set { s with nextInReadyQueue := Function.update s.nextInReadyQueue tail (some p) }
      | none => throw .hang
  | none => set { s with readyQueue := some p }

/-- `scheduler_deque`. -/
def schedulerDeque : Kernel (Scheduler P) P := do
  let s ← get
  match s.readyQueue with
  | none => return s.idle
  | some p => do
      set { s with
        readyQueue := s.nextInReadyQueue p
        nextInReadyQueue := Function.update s.nextInReadyQueue p none }
      assert (s.state p ≠ .DEAD)
      return p

/-- One round of the loop of `unblock_processes`. -/
def unblockProcess (answers : Nat → Nat → Bool) (p : P) : Kernel (Scheduler P) Unit := do
  let s ← get
  if s.state p = .BLOCKED then
    assert (s.shouldUnblock p ≠ 0)
    if s.pendingSignals p ∨ answers (s.shouldUnblock p) (s.blockerData p) then
      set { s with
        shouldUnblock := Function.update s.shouldUnblock p 0
        blockerData := Function.update s.blockerData p 0
        blockerWasInterrupted := Function.update s.blockerWasInterrupted p (s.pendingSignals p)
        state := Function.update s.state p .RUNNING }
      schedulerEnqueue p

/-- `unblock_processes`. -/
def unblockProcesses (answers : Nat → Nat → Bool) : Kernel (Scheduler P) Unit := do
  (← get).allProcesses.forM (unblockProcess answers)

/-- `process_handle_pending_signals`. -/
def processHandlePendingSignals : Kernel (Scheduler P) Unit := do
  let s ← get
  if s.pendingSignals s.current then
    set { s with
      pendingSignals := Function.update s.pendingSignals s.current false
      state := Function.update s.state s.current .DYING }

/-- `switch_to_next_process`, up to the jump into the next process. -/
def switchToNextProcess (answers : Nat → Nat → Bool) : Kernel (Scheduler P) Unit := do
  unblockProcesses answers
  let next ← schedulerDeque
  modify fun s => { s with current := next }
  assert ((← get).state next ≠ .DEAD)
  processHandlePendingSignals
  let s ← get
  if s.state s.current = .RUNNABLE then
    set { s with state := Function.update s.state s.current .RUNNING }

/-- `scheduler_yield`, up to the jump into the next process. -/
def schedulerYield (requeueCurrent : Bool) (answers : Nat → Nat → Bool) :
    Kernel (Scheduler P) Unit := do
  let s ← get
  if s.current = s.idle then
    set { s with state := Function.update s.state s.idle .RUNNABLE }
    switchToNextProcess answers
  else
    if requeueCurrent then
      schedulerEnqueue s.current
    switchToNextProcess answers

/-! ### The functions of the processes -/

/-- The current process goes on to another control point. -/
def setPc (pc : SchedulerPc P) : Kernel (Scheduler P) Unit :=
  modify fun s => { s with pc := Function.update s.pc s.current pc }

/-- `scheduler_tick`: in user mode a process that is `DYING` enters `die`, any other is preempted. -/
def schedulerTick (inKernel : Bool) (answers : Nat → Nat → Bool) : Kernel (Scheduler P) Unit := do
  let s ← get
  if inKernel = false ∧ s.state s.current = .DYING then
    setPc .dying
  else
    schedulerYield true answers

/-- The statement of `scheduler_block(f, data)` at a control point, run by the current process. -/
def schedulerBlockStatement (point : BlockPoint) (f data : Nat) (answers : Nat → Nat → Bool) :
    Kernel (Scheduler P) Unit := do
  let s ← get
  match point with
  | .assertShouldUnblock =>
      assert (s.shouldUnblock s.current = 0)
      setPc (.block .assertBlockerData f data)
  | .assertBlockerData =>
      assert (s.blockerData s.current = 0)
      setPc (.block .test f data)
  | .test =>
      if answers f data then
        set { s with blockReturn := Function.update s.blockReturn s.current none }
        setPc .outside
      else
        setPc (.block .setState f data)
  | .setState =>
      set { s with state := Function.update s.state s.current .BLOCKED }
      setPc (.block .setShouldUnblock f data)
  | .setShouldUnblock =>
      set { s with shouldUnblock := Function.update s.shouldUnblock s.current f }
      setPc (.block .setBlockerData f data)
  | .setBlockerData =>
      set { s with blockerData := Function.update s.blockerData s.current data }
      setPc (.block .setWasInterrupted f data)
  | .setWasInterrupted =>
      set { s with
        blockerWasInterrupted := Function.update s.blockerWasInterrupted s.current false }
      setPc (.block .yields f data)
  | .yields =>
      setPc (.block .returns f data)
      schedulerYield false answers
  | .returns =>
      set { s with
        blockReturn := Function.update s.blockReturn s.current
          (if s.blockerWasInterrupted s.current then some .EINTR else none) }
      setPc .outside

/-- The loop of `scheduler_register`: insert behind every process with a smaller `pid`. -/
def insertByPid (pid : P → Int) (p : P) : List P → List P
  | [] => [p]
  | q :: qs => if pid q < pid p then q :: insertByPid pid p qs else p :: q :: qs

/-- Create a process structure, zeroed but for its `pid` and `state`, and run the first half of
    `scheduler_register` on it. -/
def schedulerRegister (child : P) (pid : Int) : Kernel (Scheduler P) Unit := do
  modify fun s =>
    { s with
      allocated := child :: s.allocated
      pid := Function.update s.pid child pid
      state := Function.update s.state child .RUNNABLE
      shouldUnblock := Function.update s.shouldUnblock child 0
      blockerData := Function.update s.blockerData child 0
      blockerWasInterrupted := Function.update s.blockerWasInterrupted child false
      pendingSignals := Function.update s.pendingSignals child false
      nextInReadyQueue := Function.update s.nextInReadyQueue child none
      pc := Function.update s.pc child .outside }
  let s ← get
  assert (s.state child = .RUNNABLE)
  set { s with allProcesses := insertByPid s.pid child s.allProcesses }
  setPc (.registering child)

/-- The second half of `scheduler_register`. -/
def schedulerRegisterEnqueue : Kernel (Scheduler P) Unit := do
  let s ← get
  match s.pc s.current with
  | .registering child => do
      schedulerEnqueue child
      setPc .outside
  | _ => pure ()

/-- The end of `die`, with interrupts disabled. -/
def dieFinally (answers : Nat → Nat → Bool) : Kernel (Scheduler P) Unit := do
  modify fun s => { s with state := Function.update s.state s.current .DEAD }
  schedulerYield false answers

/-- `send_signal`, for a signal that terminates. -/
def sendSignal (p : P) : Kernel (Scheduler P) Unit := do
  let s ← get
  set { s with pendingSignals := Function.update s.pendingSignals p true }
  if p = s.current then
    processHandlePendingSignals

/-- What `waitpid_should_unblock` does to a dead process: take it out of `all_processes`. -/
def reapProcess (p : P) : Kernel (Scheduler P) Unit :=
  modify fun s => { s with allProcesses := s.allProcesses.erase p }

/-! ### The system -/

/-- What happens next: the current process goes on, the timer strikes, or a signal arrives. -/
inductive SchedulerEvent (P : Type) where
  | callBlock (f data : Nat)
  | statement (answers : Nat → Nat → Bool)
  | yield (answers : Nat → Nat → Bool)
  | tick (inKernel : Bool) (answers : Nat → Nat → Bool)
  | exit
  | die (answers : Nat → Nat → Bool)
  | register (child : P) (pid : Int)
  | registerEnqueue
  | signal (p : P)
  | reap (p : P)

namespace Scheduler

/-- Which events can happen. The timer strikes in user mode only outside the kernel's functions. The
    process `init` never exits: `die` panics then. -/
def Enabled (s : Scheduler P) : SchedulerEvent P → Prop
  | .callBlock f _ => s.pc s.current = .outside ∧ s.current ≠ s.idle ∧ f ≠ 0
  | .statement _ => ∃ point f data, s.pc s.current = .block point f data
  | .yield _ => s.pc s.current = .outside ∨ s.pc s.current = .dying
  | .tick inKernel _ =>
      inKernel = false →
        s.pc s.current = .outside ∧ s.current ≠ s.idle ∧
          (s.state s.current = .DYING → s.pid s.current ≠ 1)
  | .exit => s.pc s.current = .outside ∧ s.current ≠ s.idle ∧ s.pid s.current ≠ 1
  | .die _ => s.pc s.current = .dying
  | .register child _ => s.pc s.current = .outside ∧ s.current ≠ s.idle ∧ child ∉ s.allocated
  | .registerEnqueue => ∃ child, s.pc s.current = .registering child
  | .signal p => p ∈ s.allProcesses
  | .reap p => p ∈ s.allProcesses ∧ s.state p = .DEAD

instance (s : Scheduler P) (e : SchedulerEvent P) : Decidable (s.Enabled e) :=
  match e with
  | .callBlock _ _ => inferInstanceAs (Decidable (_ ∧ _))
  | .statement _ =>
      match h : s.pc s.current with
      | .block point f data => isTrue ⟨point, f, data, h⟩
      | .outside => isFalse (by simp [Enabled, h])
      | .registering _ => isFalse (by simp [Enabled, h])
      | .dying => isFalse (by simp [Enabled, h])
  | .yield _ => inferInstanceAs (Decidable (_ ∨ _))
  | .tick _ _ => inferInstanceAs (Decidable (_ → _))
  | .exit => inferInstanceAs (Decidable (_ ∧ _))
  | .die _ => inferInstanceAs (Decidable (_ = _))
  | .register _ _ => inferInstanceAs (Decidable (_ ∧ _))
  | .registerEnqueue =>
      match h : s.pc s.current with
      | .registering child => isTrue ⟨child, h⟩
      | .outside => isFalse (by simp [Enabled, h])
      | .block _ _ _ => isFalse (by simp [Enabled, h])
      | .dying => isFalse (by simp [Enabled, h])
  | .signal _ => inferInstanceAs (Decidable (_ ∈ _))
  | .reap _ => inferInstanceAs (Decidable (_ ∧ _))

/-- After `scheduler_init`: the process that booted the kernel runs, and `idle` has been created. -/
def initial (idle kernelInit : P) : Scheduler P :=
  { readyQueue := none
    idle := idle
    current := kernelInit
    allProcesses := []
    allocated := [kernelInit, idle]
    pid := fun _ => 0
    state := Function.update (fun _ => .RUNNABLE) kernelInit .RUNNING
    shouldUnblock := fun _ => 0
    blockerData := fun _ => 0
    blockerWasInterrupted := fun _ => false
    pendingSignals := fun _ => false
    nextInReadyQueue := fun _ => none
    pc := fun _ => .outside
    blockReturn := fun _ => none }

end Scheduler

/-- What an event runs. -/
def SchedulerEvent.run : SchedulerEvent P → Kernel (Scheduler P) Unit
  | .callBlock f data => setPc (.block .assertShouldUnblock f data)
  | .statement answers => do
      let s ← get
      match s.pc s.current with
      | .block point f data => schedulerBlockStatement point f data answers
      | _ => pure ()
  | .yield answers => schedulerYield true answers
  | .tick inKernel answers => schedulerTick inKernel answers
  | .exit => setPc .dying
  | .die answers => dieFinally answers
  | .register child pid => schedulerRegister child pid
  | .registerEnqueue => schedulerRegisterEnqueue
  | .signal p => sendSignal p
  | .reap p => reapProcess p

/-- Any number of processes on one processor. An event that fails an `ASSERT` has no next state. -/
def schedulerSystem (P : Type) [DecidableEq P] :
    TransitionSystem (Scheduler P) (SchedulerEvent P) where
  init s := ∃ idle kernelInit : P, kernelInit ≠ idle ∧ s = Scheduler.initial idle kernelInit
  step s e s' := s.Enabled e ∧ e.run s = .ok ((), s')

end Chaotix
