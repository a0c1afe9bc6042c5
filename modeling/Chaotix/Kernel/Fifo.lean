/-
Module: Chaotix.Kernel.Fifo
Layer: Kernel
Purpose: A pipe made by `sys_pipe`, used by any number of processes. `fifo_read` and `fifo_write` wait for
  a predicate that is evaluated outside the lock of the buffer, then run a section under the lock, and
  may go round again. The processes duplicate, copy on `fork`, close and drop on exit the slots that
  hold the two descriptions; each access to a reference count or to the numbers of readers and writers
  is a step of its own. A `fork` that fails behind the copy of the table leaves the counts as they are.
  A second system adds `F_SETFL`, which any process that holds a description may call.
Imports: Mathlib.Logic.Function.Basic, Chaotix.Lib.Transition, Chaotix.Kernel.RingBuf
Trusted boundary: human-reviewed model of `kernel/fs/fifo.c`, of `sys_pipe`, `sys_close`, `F_DUPFD` and `F_SETFL` of
  `kernel/syscall/fs.c`, and of the descriptor tables of `kernel/fs/fs.c`
Main exports: Fifo, fifoReadSection, fifoWriteSection, PipeState, PipeStep, pipeSystem,
  flaggedPipeSystem
-/
import Mathlib.Logic.Function.Basic
import Chaotix.Lib.Transition
import Chaotix.Kernel.RingBuf

namespace Chaotix

/-- `struct fifo`. -/
structure Fifo where
  buf : RingBuf
  numReaders : Nat
  numWriters : Nat

/-! ### The file operations -/

/-- `fifo_create`. -/
def fifoCreate (innerBuf : Nat → UInt8) : Fifo :=
  { buf := ringBufInit innerBuf, numReaders := 0, numWriters := 0 }

/-- `fifo_open`, for flags that do not ask for both. -/
def fifoOpen (fifo : Fifo) (flags : Nat) : Fifo :=
  { fifo with
    numReaders := if HasFlag flags O_RDONLY then fifo.numReaders + 1 else fifo.numReaders
    numWriters := if HasFlag flags O_WRONLY then fifo.numWriters + 1 else fifo.numWriters }

/-- `fifo_close`, for flags that pass its assertion. -/
def fifoClose (fifo : Fifo) (flags : Nat) : Fifo :=
  { fifo with
    numReaders := if HasFlag flags O_RDONLY then wordPred fifo.numReaders else fifo.numReaders
    numWriters := if HasFlag flags O_WRONLY then wordPred fifo.numWriters else fifo.numWriters }

/-- `read_should_unblock`. -/
def readShouldUnblock (fifo : Fifo) : Prop := fifo.numWriters = 0 ∨ ¬fifo.buf.IsEmpty

/-- `write_should_unblock`. -/
def writeShouldUnblock (fifo : Fifo) : Prop := fifo.numReaders = 0 ∨ ¬fifo.buf.IsFull

/-- The section of `fifo_read` under the lock: the bytes it returns, or `none` to go round again. -/
def fifoReadSection (fifo : Fifo) (count : Nat) : Option (List UInt8) × Fifo :=
  if ¬fifo.buf.IsEmpty then
    (some (ringBufRead fifo.buf count).1, { fifo with buf := (ringBufRead fifo.buf count).2 })
  else if fifo.numWriters = 0 then (some [], fifo)
  else (none, fifo)

/-- The section of `fifo_write` under the lock: what it returns, or `none` to go round again. Before it
    returns `-EPIPE` the process sends itself `SIGPIPE`. -/
def fifoWriteSection (fifo : Fifo) (bytes : List UInt8) : Option (Except Errno Nat) × Fifo :=
  if fifo.numReaders = 0 then (some (.error .EPIPE), fifo)
  else if fifo.buf.IsFull then (none, fifo)
  else (some (.ok (ringBufWrite fifo.buf bytes).1), { fifo with buf := (ringBufWrite fifo.buf bytes).2 })

/-! ### The processes -/

/-- The two descriptions that `sys_pipe` opens. -/
inductive PipeEnd where
  | reader
  | writer
deriving DecidableEq, Repr

/-- The flags a description was opened with. -/
def PipeEnd.flags : PipeEnd → Nat
  | .reader => O_RDONLY
  | .writer => O_WRONLY

/-- In the loop of `fifo_read` and `fifo_write`: waiting for the predicate, or before the section. -/
inductive FifoPoint where
  | blocks
  | atSection
deriving DecidableEq, Repr

/-- In `file_description_close`, after the last reference is gone: before `fops->close`, or before the
    description is freed. -/
inductive ClosePoint where
  | fopsClose
  | release
deriving DecidableEq, Repr

/-- Where a process is. A process that `fork` is making has had the first entries of its table counted. -/
inductive PipePc (P : Type) where
  | unborn
  | embryo (counted : Nat)
  | outside
  | reading (point : FifoPoint) (count : Nat)
  | writing (point : FifoPoint) (count : Nat)
  | duplicating (fd newfd : Nat) (e : PipeEnd)
  | closing (point : ClosePoint) (fd : Nat) (e : PipeEnd) (exiting : Bool)
  | forking (child : P)
  | exiting (fd : Nat)
  | dead
deriving DecidableEq, Repr

/-- The pipe, the `ref_count` of its descriptions, and for each process the slots of its table that hold
    one of them. -/
structure PipeState (P : Type) where
  fifo : Fifo
  refCount : PipeEnd → Nat
  table : P → Nat → Option PipeEnd
  pc : P → PipePc P

/-- What one process does in one step. The sections say what they end with. -/
inductive PipeEvent (P : Type) where
  | readCall (p : P) (fd count : Nat)
  | writeCall (p : P) (fd count : Nat)
  | unblocked (p : P)
  | interrupted (p : P)
  | readSection (p : P) (count : Nat) (outcome : Option (List UInt8))
  | writeSection (p : P) (bytes : List UInt8) (outcome : Option (Except Errno Nat))
  | dup (p : P) (fd newfd : Nat)
  | dupRef (p : P)
  | close (p : P) (fd : Nat)
  | closeFops (p : P)
  | closeRelease (p : P)
  | fork (p child : P)
  | forkEntry (p : P)
  | forkReturn (p : P)
  | forkFail (p : P)
  | exit (p : P)
  | exitEntry (p : P)
  | exitReturn (p : P)

section Steps

variable {P : Type} [DecidableEq P]

namespace PipeState

/-- A process goes on to another control point. -/
def setPc (s : PipeState P) (p : P) (pc : PipePc P) : PipeState P :=
  { s with pc := Function.update s.pc p pc }

/-- A slot of a process is set. -/
def setSlot (s : PipeState P) (p : P) (fd : Nat) (slot : Option PipeEnd) : PipeState P :=
  { s with table := Function.update s.table p (Function.update (s.table p) fd slot) }

/-- After `file_description_close` has returned: `sys_close` clears the slot, and an exit goes on to the
    next one. -/
def afterClose (s : PipeState P) (p : P) (fd : Nat) (exiting : Bool) : PipeState P :=
  if exiting then s.setPc p (.exiting (fd + 1))
  else (s.setSlot p fd none).setPc p .outside

/-- The start of `file_description_close`: drop one reference, and return unless it was the last. -/
def dropRef (s : PipeState P) (p : P) (fd : Nat) (e : PipeEnd) (exiting : Bool) : PipeState P :=
  if 0 < s.refCount e - 1 then
    { s with refCount := Function.update s.refCount e (s.refCount e - 1) }.afterClose p fd exiting
  else
    { s with refCount := Function.update s.refCount e (s.refCount e - 1) }.setPc p
      (.closing .fopsClose fd e exiting)

/-- One more reference. -/
def addRef (s : PipeState P) (e : PipeEnd) : PipeState P :=
  { s with refCount := Function.update s.refCount e (s.refCount e + 1) }

/-- After a successful `sys_pipe`: one process holds the two descriptions in two slots. -/
def sysPipe (innerBuf : Nat → UInt8) (p : P) (readerFd writerFd : Nat) : PipeState P :=
  { fifo := fifoOpen (fifoOpen (fifoCreate innerBuf) (PipeEnd.flags .reader)) (PipeEnd.flags .writer)
    refCount := fun _ => 1
    table := Function.update (fun _ _ => none) p
      (Function.update (Function.update (fun _ => none) readerFd (some .reader)) writerFd (some .writer))
    pc := Function.update (fun _ => .unborn) p .outside }

end PipeState

/-- The steps of the processes. A descriptor is only used by a process that is not in another call, and
    calls that are rejected before they reach the pipe are left out. -/
inductive PipeStep : PipeState P → PipeEvent P → PipeState P → Prop where
  | readCall {s : PipeState P} {p : P} {fd : Nat} {e : PipeEnd} (count : Nat) :
      s.pc p = .outside → s.table p fd = some e → HasFlag e.flags O_RDONLY →
      PipeStep s (.readCall p fd count) (s.setPc p (.reading .blocks count))
  | writeCall {s : PipeState P} {p : P} {fd : Nat} {e : PipeEnd} (count : Nat) :
      s.pc p = .outside → s.table p fd = some e → HasFlag e.flags O_WRONLY →
      PipeStep s (.writeCall p fd count) (s.setPc p (.writing .blocks count))
  | readUnblocked {s : PipeState P} {p : P} {count : Nat} :
      s.pc p = .reading .blocks count → readShouldUnblock s.fifo →
      PipeStep s (.unblocked p) (s.setPc p (.reading .atSection count))
  | writeUnblocked {s : PipeState P} {p : P} {count : Nat} :
      s.pc p = .writing .blocks count → writeShouldUnblock s.fifo →
      PipeStep s (.unblocked p) (s.setPc p (.writing .atSection count))
  | readInterrupted {s : PipeState P} {p : P} {count : Nat} :
      s.pc p = .reading .blocks count → PipeStep s (.interrupted p) (s.setPc p .outside)
  | writeInterrupted {s : PipeState P} {p : P} {count : Nat} :
      s.pc p = .writing .blocks count → PipeStep s (.interrupted p) (s.setPc p .outside)
  | readSection {s : PipeState P} {p : P} {count : Nat} :
      s.pc p = .reading .atSection count →
      PipeStep s (.readSection p count (fifoReadSection s.fifo count).1)
        ({ s with fifo := (fifoReadSection s.fifo count).2 }.setPc p
          (if (fifoReadSection s.fifo count).1.isNone then .reading .blocks count else .outside))
  | writeSection {s : PipeState P} {p : P} (bytes : List UInt8) :
      s.pc p = .writing .atSection bytes.length →
      PipeStep s (.writeSection p bytes (fifoWriteSection s.fifo bytes).1)
        ({ s with fifo := (fifoWriteSection s.fifo bytes).2 }.setPc p
          (if (fifoWriteSection s.fifo bytes).1.isNone then .writing .blocks bytes.length else .outside))
  | dup {s : PipeState P} {p : P} {fd newfd : Nat} {e : PipeEnd} :
      s.pc p = .outside → s.table p fd = some e → s.table p newfd = none → newfd < OPEN_MAX →
      PipeStep s (.dup p fd newfd) ((s.setSlot p newfd (some e)).setPc p (.duplicating fd newfd e))
  | dupRef {s : PipeState P} {p : P} {fd newfd : Nat} {e : PipeEnd} :
      s.pc p = .duplicating fd newfd e → PipeStep s (.dupRef p) ((s.addRef e).setPc p .outside)
  | close {s : PipeState P} {p : P} {fd : Nat} {e : PipeEnd} :
      s.pc p = .outside → s.table p fd = some e → 0 < s.refCount e →
      PipeStep s (.close p fd) (s.dropRef p fd e false)
  | closeFops {s : PipeState P} {p : P} {fd : Nat} {e : PipeEnd} {exiting : Bool} :
      s.pc p = .closing .fopsClose fd e exiting →
      PipeStep s (.closeFops p)
        ({ s with fifo := fifoClose s.fifo e.flags }.setPc p (.closing .release fd e exiting))
  | closeRelease {s : PipeState P} {p : P} {fd : Nat} {e : PipeEnd} {exiting : Bool} :
      s.pc p = .closing .release fd e exiting →
      PipeStep s (.closeRelease p) (s.afterClose p fd exiting)
  | fork {s : PipeState P} {p child : P} :
      s.pc p = .outside → s.pc child = .unborn →
      PipeStep s (.fork p child)
        (({ s with table := Function.update s.table child (s.table p) }.setPc child (.embryo 0)).setPc p
          (.forking child))
  | forkEntry {s : PipeState P} {p child : P} {counted : Nat} :
      s.pc p = .forking child → s.pc child = .embryo counted → counted < OPEN_MAX →
      PipeStep s (.forkEntry p)
        ((match s.table p counted with
          | some e => s.addRef e
          | none => s).setPc child (.embryo (counted + 1)))
  | forkReturn {s : PipeState P} {p child : P} :
      s.pc p = .forking child → s.pc child = .embryo OPEN_MAX →
      PipeStep s (.forkReturn p) ((s.setPc child .outside).setPc p .outside)
  | forkFail {s : PipeState P} {p child : P} {counted : Nat} :
      s.pc p = .forking child → s.pc child = .embryo counted → counted = 0 ∨ counted = OPEN_MAX →
      PipeStep s (.forkFail p) ((s.setPc child .unborn).setPc p .outside)
  | exit {s : PipeState P} {p : P} :
      s.pc p = .outside → PipeStep s (.exit p) (s.setPc p (.exiting 0))
  | exitSlot {s : PipeState P} {p : P} {fd : Nat} {e : PipeEnd} :
      s.pc p = .exiting fd → fd < OPEN_MAX → s.table p fd = some e → 0 < s.refCount e →
      PipeStep s (.exitEntry p) (s.dropRef p fd e true)
  | exitEmptySlot {s : PipeState P} {p : P} {fd : Nat} :
      s.pc p = .exiting fd → fd < OPEN_MAX → s.table p fd = none →
      PipeStep s (.exitEntry p) (s.setPc p (.exiting (fd + 1)))
  | exitReturn {s : PipeState P} {p : P} :
      s.pc p = .exiting OPEN_MAX → PipeStep s (.exitReturn p) (s.setPc p .dead)

/-- Any number of processes on one pipe, none of which changes the flags of a description. -/
def pipeSystem (P : Type) [DecidableEq P] : TransitionSystem (PipeState P) (PipeEvent P) where
  init s := ∃ innerBuf p readerFd writerFd, readerFd < OPEN_MAX ∧ writerFd < OPEN_MAX ∧
    readerFd ≠ writerFd ∧ s = PipeState.sysPipe innerBuf p readerFd writerFd
  step := PipeStep

/-! ### Flags that change -/

/-- A pipe with the current `flags` of its descriptions. -/
structure FlaggedPipe (P : Type) where
  pipe : PipeState P
  flags : PipeEnd → Nat

/-- What one process does in one step: something with the pipe, or `F_SETFL`. -/
inductive FlaggedEvent (P : Type) where
  | pipe (e : PipeEvent P)
  | setFlags (p : P) (fd arg : Nat)

/-- The steps that do not look at the flags of a description. -/
def PipeEvent.FlagFree : PipeEvent P → Prop
  | .readCall _ _ _ | .writeCall _ _ _ | .closeFops _ => False
  | _ => True

/-- The steps of the processes when `F_SETFL` may store any flags. -/
inductive FlaggedStep : FlaggedPipe P → FlaggedEvent P → FlaggedPipe P → Prop where
  | pipe {s : FlaggedPipe P} {e : PipeEvent P} {pipe : PipeState P} :
      e.FlagFree → PipeStep s.pipe e pipe → FlaggedStep s (.pipe e) { s with pipe := pipe }
  | readCall {s : FlaggedPipe P} {p : P} {fd : Nat} {e : PipeEnd} (count : Nat) :
      s.pipe.pc p = .outside → s.pipe.table p fd = some e → HasFlag (s.flags e) O_RDONLY →
      FlaggedStep s (.pipe (.readCall p fd count)) { s with pipe := s.pipe.setPc p (.reading .blocks count) }
  | writeCall {s : FlaggedPipe P} {p : P} {fd : Nat} {e : PipeEnd} (count : Nat) :
      s.pipe.pc p = .outside → s.pipe.table p fd = some e → HasFlag (s.flags e) O_WRONLY →
      FlaggedStep s (.pipe (.writeCall p fd count)) { s with pipe := s.pipe.setPc p (.writing .blocks count) }
  | closeFops {s : FlaggedPipe P} {p : P} {fd : Nat} {e : PipeEnd} {exiting : Bool} :
      s.pipe.pc p = .closing .fopsClose fd e exiting →
      ¬(HasFlag (s.flags e) O_RDONLY ∧ HasFlag (s.flags e) O_WRONLY) →
      FlaggedStep s (.pipe (.closeFops p))
        { s with pipe :=
          { s.pipe with fifo := fifoClose s.pipe.fifo (s.flags e) }.setPc p (.closing .release fd e exiting) }
  | setFlags {s : FlaggedPipe P} {p : P} {fd : Nat} {e : PipeEnd} (arg : Nat) :
      s.pipe.pc p = .outside → s.pipe.table p fd = some e →
      FlaggedStep s (.setFlags p fd arg) { s with flags := Function.update s.flags e arg }

/-- Any number of processes on one pipe. -/
def flaggedPipeSystem (P : Type) [DecidableEq P] : TransitionSystem (FlaggedPipe P) (FlaggedEvent P) where
  init s := (pipeSystem P).init s.pipe ∧ s.flags = PipeEnd.flags
  step := FlaggedStep

end Steps

end Chaotix
