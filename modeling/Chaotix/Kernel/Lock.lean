/-
Module: Chaotix.Kernel.Lock
Layer: Kernel
Purpose: The recursive mutex of `kernel/lock.c`. Each of the three functions is a retry loop around one
  section that runs between the compare-and-swap that sets `lock` and the store that clears it. The
  sections are translated as functions of the calling process and the mutex, and `lockSystem` runs
  them for any number of processes: a process calls a function, its compare-and-swap succeeds or fails,
  and its section runs to the store.
Imports: Mathlib.Algebra.Group.Nat.Defs, Mathlib.Logic.Function.Basic, Chaotix.Lib.Transition
Trusted boundary: human-reviewed model of `kernel/lock.c`
Main exports: Mutex, mutexLockSection, mutexUnlockSection, mutexUnlockIfLockedSection, LockState,
  LockStep, lockSystem
-/
import Mathlib.Algebra.Group.Nat.Defs
import Mathlib.Logic.Function.Basic
import Chaotix.Lib.Transition

namespace Chaotix

/-- `struct mutex`. `level` is a `uint32_t`, kept as a natural number below `2 ^ 32`. -/
structure Mutex (P : Type) where
  holder : Option P := none
  level : Nat := 0
  lock : Bool := false
deriving DecidableEq, Repr

/-- The three functions of the interface. -/
inductive LockCall where
  | lock
  | unlock
  | unlockIfLocked
deriving DecidableEq, Repr

/-- How a section ends: the function returns (with the value of the `bool` one), goes round its loop
    again, or fails an `ASSERT`. -/
inductive SectionOutcome where
  | returns
  | returnsBool (value : Bool)
  | retries
  | asserts
deriving DecidableEq, Repr

section Sections

variable {P : Type} [DecidableEq P]

/-- The section of `mutex_lock`. -/
def mutexLockSection (current : P) (m : Mutex P) : Mutex P × SectionOutcome :=
  if m.holder = none ∨ m.holder = some current then
    ({ holder := some current, level := (m.level + 1) % 2 ^ 32, lock := false }, .returns)
  else
    ({ m with lock := false }, .retries)

/-- The section of `mutex_unlock`. -/
def mutexUnlockSection (current : P) (m : Mutex P) : Mutex P × SectionOutcome :=
  if m.holder ≠ some current then (m, .asserts)
  else if ¬ 0 < m.level then (m, .asserts)
  else if m.level - 1 = 0 then
    ({ holder := none, level := m.level - 1, lock := false }, .returns)
  else
    ({ m with level := m.level - 1, lock := false }, .returns)

/-- The section of `mutex_unlock_if_locked`. The `holder` is cleared on the branch on which the level
    stays positive, and kept on the one on which it reaches zero, as in the source. -/
def mutexUnlockIfLockedSection (current : P) (m : Mutex P) : Mutex P × SectionOutcome :=
  if m.level = 0 then ({ m with lock := false }, .returnsBool false)
  else if m.holder ≠ some current then ({ m with lock := false }, .returnsBool false)
  else if ¬ 0 < m.level then (m, .asserts)
  else if m.level - 1 = 0 then
    ({ m with level := m.level - 1, lock := false }, .returnsBool false)
  else
    ({ holder := none, level := m.level - 1, lock := false }, .returnsBool true)

/-- The section that a call runs. -/
def LockCall.section : LockCall → P → Mutex P → Mutex P × SectionOutcome
  | .lock => mutexLockSection
  | .unlock => mutexUnlockSection
  | .unlockIfLocked => mutexUnlockIfLockedSection

end Sections

/-- Where a process is: outside the functions, at the compare-and-swap of a call, or past it. -/
inductive LockPc where
  | outside
  | atCas (call : LockCall)
  | inSection (call : LockCall)
deriving DecidableEq, Repr

/-- The mutex with the control point of every process. The two counters record the history: how often
    a process has acquired the mutex, and how often it has given a level back. -/
structure LockState (P : Type) where
  mutex : Mutex P
  pc : P → LockPc
  acquired : P → Nat
  released : P → Nat

namespace LockState

variable {P : Type}

/-- All processes are outside and the mutex is zeroed. -/
def initial : LockState P :=
  { mutex := {}, pc := fun _ => .outside, acquired := fun _ => 0, released := fun _ => 0 }

/-- A process owns the mutex when it has acquired it more often than it has given it back. -/
def Owns (s : LockState P) (p : P) : Prop := s.released p < s.acquired p

end LockState

/-- A section gave one level back. -/
def ReleasesLevel {P : Type} (call : LockCall) (m m' : Mutex P) : Prop :=
  call ≠ .lock ∧ m.level = m'.level + 1

instance {P : Type} (call : LockCall) (m m' : Mutex P) : Decidable (ReleasesLevel call m m') :=
  inferInstanceAs (Decidable (_ ∧ _))

/-- What one process does in one step. -/
inductive LockEvent (P : Type) where
  | invoke (p : P) (call : LockCall)
  | cas (p : P) (success : Bool)
  | runSection (p : P) (call : LockCall) (outcome : SectionOutcome)
deriving DecidableEq, Repr

section Steps

variable {P : Type} [DecidableEq P]

/-- The state after process `p` has run the section of `call`, with the history brought up to date. -/
def LockState.afterSection (s : LockState P) (p : P) (call : LockCall) : LockState P :=
  let m' := (call.section p s.mutex).1
  let outcome := (call.section p s.mutex).2
  { mutex := m'
    pc := Function.update s.pc p (if outcome = .retries then .atCas call else .outside)
    acquired :=
      if call = .lock ∧ outcome = .returns then
        Function.update s.acquired p (s.acquired p + 1)
      else s.acquired
    released :=
      if ReleasesLevel call s.mutex m' then Function.update s.released p (s.released p + 1)
      else s.released }

/-- The steps of the processes. `mutex_unlock` is called by a process that owns the mutex, the other
    two functions by anyone; a failed compare-and-swap yields and leaves the loop where it is. A
    section that fails an `ASSERT` has no next state. -/
inductive LockStep : LockState P → LockEvent P → LockState P → Prop where
  | invoke {s : LockState P} (p : P) (call : LockCall) :
      s.pc p = .outside → (call = .unlock → s.Owns p) →
      LockStep s (.invoke p call) { s with pc := Function.update s.pc p (.atCas call) }
  | casSuccess {s : LockState P} (p : P) (call : LockCall) :
      s.pc p = .atCas call → s.mutex.lock = false →
      LockStep s (.cas p true)
        { s with
          mutex := { s.mutex with lock := true }
          pc := Function.update s.pc p (.inSection call) }
  | casFailure {s : LockState P} (p : P) (call : LockCall) :
      s.pc p = .atCas call → s.mutex.lock = true → LockStep s (.cas p false) s
  | runSection {s : LockState P} (p : P) (call : LockCall) :
      s.pc p = .inSection call → (call.section p s.mutex).2 ≠ .asserts →
      LockStep s (.runSection p call (call.section p s.mutex).2) (s.afterSection p call)

/-- Any number of processes on one mutex. -/
def lockSystem (P : Type) [DecidableEq P] : TransitionSystem (LockState P) (LockEvent P) where
  init s := s = LockState.initial
  step := LockStep

end Steps

end Chaotix
