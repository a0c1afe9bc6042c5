/-
Module: Chaotix.Kernel.NonBlocking
Layer: Kernel
Purpose: Reads and writes on a pipe or a connected socket with `file_description_block` step by step. For a description
  with `O_NONBLOCK` the predicate is evaluated once to decide about `-EAGAIN`, and once more in `scheduler_block`, and
  each evaluation is a step of its own, as is each section under the lock of a buffer. Any process that holds a
  description may set its flags. Which buffer of a socket a call uses is computed from `connector_fd`, which does not
  change any more.
Imports: Mathlib.Logic.Function.Basic, Chaotix.Lib.Transition, Chaotix.Kernel.Fifo, Chaotix.Kernel.SocketStream
Trusted boundary: human-reviewed model of `file_description_block` of `kernel/fs/fs.c`, of `scheduler_block` of
  `kernel/scheduler.c`, and of the read and write loops of `kernel/fs/fifo.c` and `kernel/unix_socket.c`
Main exports: ByteStream, StreamCall, StreamState, StreamEvent, nonBlockingSystem
-/
import Mathlib.Logic.Function.Basic
import Chaotix.Lib.Transition
import Chaotix.Kernel.Fifo
import Chaotix.Kernel.SocketStream

namespace Chaotix

/-- `O_NONBLOCK`. -/
abbrev O_NONBLOCK : Nat := 0x100

/-- What the descriptions refer to. -/
inductive ByteStream (D : Type) where
  | pipe (fifo : Fifo)
  | socket (sock : ConnectedSocket D)

/-- A call of `read` or `write` on a description. -/
inductive StreamCall (D : Type) where
  | read (desc : D) (count : Nat)
  | write (desc : D) (bytes : List UInt8)
deriving DecidableEq, Repr

/-- What a call returns. -/
inductive StreamResult where
  | read (bytes : List UInt8)
  | written (count : Nat)
  | error (e : Errno)
deriving DecidableEq, Repr

/-- The description of a call. -/
def StreamCall.desc {D : Type} : StreamCall D → D
  | .read desc _ => desc
  | .write desc _ => desc

/-- The flag that `file_description_read` and `file_description_write` ask for. -/
def StreamCall.access {D : Type} : StreamCall D → Nat
  | .read _ _ => O_RDONLY
  | .write _ _ => O_WRONLY

namespace ByteStream

variable {D : Type} [DecidableEq D]

/-- The predicate that the call waits for. -/
def ShouldUnblock : ByteStream D → StreamCall D → Prop
  | .pipe fifo, .read _ _ => readShouldUnblock fifo
  | .pipe fifo, .write _ _ => writeShouldUnblock fifo
  | .socket sock, .read desc _ => socketReadShouldUnblock sock desc
  | .socket sock, .write desc _ => socketWriteShouldUnblock sock desc

instance (stream : ByteStream D) (call : StreamCall D) : Decidable (stream.ShouldUnblock call) :=
  match stream, call with
  | .pipe fifo, .read _ _ => inferInstanceAs (Decidable (fifo.numWriters = 0 ∨ ¬fifo.buf.IsEmpty))
  | .pipe fifo, .write _ _ => inferInstanceAs (Decidable (fifo.numReaders = 0 ∨ ¬fifo.buf.IsFull))
  | .socket sock, .read desc _ => inferInstanceAs (Decidable (¬(sock.buf (getBufToRead sock desc)).IsEmpty))
  | .socket sock, .write desc _ => inferInstanceAs (Decidable (¬(sock.buf (getBufToWrite sock desc)).IsFull))

/-- The section of the call under the lock of the buffer: what it returns, or `none` to go round again. -/
def lockedSection : ByteStream D → StreamCall D → Option StreamResult × ByteStream D
  | .pipe fifo, .read _ count =>
      ((fifoReadSection fifo count).1.map .read, .pipe (fifoReadSection fifo count).2)
  | .pipe fifo, .write _ bytes =>
      ((fifoWriteSection fifo bytes).1.map fun
        | .ok count => .written count
        | .error e => .error e, .pipe (fifoWriteSection fifo bytes).2)
  | .socket sock, .read desc count =>
      ((unixSocketReadSection sock (getBufToRead sock desc) count).1.map .read,
        .socket (unixSocketReadSection sock (getBufToRead sock desc) count).2)
  | .socket sock, .write desc bytes =>
      ((unixSocketWriteSection sock (getBufToWrite sock desc) bytes).1.map .written,
        .socket (unixSocketWriteSection sock (getBufToWrite sock desc) bytes).2)

/-- `fops->close`, when the last reference to a description with these flags is gone. -/
def close : ByteStream D → Nat → ByteStream D
  | .pipe fifo, flags => .pipe (fifoClose fifo flags)
  | .socket sock, _ => .socket sock

end ByteStream

/-- Where a process is: in front of the test for `O_NONBLOCK`, in front of the test of `scheduler_block`, blocked, or in
    front of the section. -/
inductive StreamPc (D : Type) where
  | outside
  | tests (call : StreamCall D)
  | schedules (call : StreamCall D)
  | blocked (call : StreamCall D)
  | atSection (call : StreamCall D)
deriving DecidableEq, Repr

/-- The stream, which descriptions are open and with which flags, and the processes. `result` is what the last call of a
    process has returned. -/
structure StreamState (P D : Type) where
  stream : ByteStream D
  isOpen : D → Bool
  flags : D → Nat
  pc : P → StreamPc D
  result : P → Option StreamResult

/-- One step of one process. -/
inductive StreamEvent (P D : Type) where
  | call (p : P) (call : StreamCall D)
  | test (p : P)
  | schedule (p : P)
  | unblock (p : P)
  | interrupt (p : P)
  | lockedSection (p : P)
  | close (p : P) (desc : D)
  | setFlags (p : P) (desc : D) (arg : Nat)
deriving DecidableEq

/-- Who takes the step. -/
def StreamEvent.actor {P D : Type} : StreamEvent P D → P
  | .call p _ => p
  | .test p => p
  | .schedule p => p
  | .unblock p => p
  | .interrupt p => p
  | .lockedSection p => p
  | .close p _ => p
  | .setFlags p _ _ => p

namespace StreamState

variable {P D : Type}

/-- The call is on a description with `O_NONBLOCK`. -/
def NonBlocking (s : StreamState P D) (call : StreamCall D) : Prop := HasFlag (s.flags call.desc) O_NONBLOCK

instance (s : StreamState P D) (call : StreamCall D) : Decidable (s.NonBlocking call) :=
  inferInstanceAs (Decidable (HasFlag _ _))

/-- The process uses the description. -/
def Uses (s : StreamState P D) (p : P) (desc : D) : Prop :=
  match s.pc p with
  | .outside => False
  | .tests call => call.desc = desc
  | .schedules call => call.desc = desc
  | .blocked call => call.desc = desc
  | .atSection call => call.desc = desc

variable [DecidableEq P]

/-- A process goes on to another control point. -/
def setPc (s : StreamState P D) (p : P) (pc : StreamPc D) : StreamState P D :=
  { s with pc := Function.update s.pc p pc }

/-- The call of a process returns. -/
def returns (s : StreamState P D) (p : P) (result : StreamResult) : StreamState P D :=
  { s with result := Function.update s.result p (some result) }.setPc p .outside

variable {s : StreamState P D} {p : P}

@[simp] theorem setPc_pc (s : StreamState P D) (p : P) (pc : StreamPc D) : (s.setPc p pc).pc p = pc :=
  Function.update_self _ _ _

@[simp] theorem returns_pc (s : StreamState P D) (p : P) (result : StreamResult) :
    (s.returns p result).pc p = .outside :=
  Function.update_self _ _ _

theorem setPc_pc_of_ne {q : P} (h : q ≠ p) (pc : StreamPc D) : (s.setPc p pc).pc q = s.pc q :=
  Function.update_of_ne h _ _

theorem returns_pc_of_ne {q : P} (h : q ≠ p) (result : StreamResult) : (s.returns p result).pc q = s.pc q :=
  Function.update_of_ne h _ _

variable [DecidableEq D]

/-- Which steps can happen. A blocked process goes on when the scheduler finds its predicate true, or a signal pending.
    A description is closed for the last time when no process uses it. -/
def Enabled (s : StreamState P D) : StreamEvent P D → Prop
  | .call p call => s.pc p = .outside ∧ s.isOpen call.desc = true ∧ HasFlag (s.flags call.desc) call.access
  | .test p => ∃ call, s.pc p = .tests call
  | .schedule p => ∃ call, s.pc p = .schedules call
  | .unblock p => ∃ call, s.pc p = .blocked call ∧ s.stream.ShouldUnblock call
  | .interrupt p => ∃ call, s.pc p = .blocked call
  | .lockedSection p => ∃ call, s.pc p = .atSection call
  | .close p desc => s.pc p = .outside ∧ s.isOpen desc = true ∧ ∀ q, ¬s.Uses q desc
  | .setFlags p desc _ => s.pc p = .outside ∧ s.isOpen desc = true

/-- The state after a step. -/
def apply (s : StreamState P D) : StreamEvent P D → StreamState P D
  | .call p call => s.setPc p (.tests call)
  | .test p =>
      match s.pc p with
      | .tests call =>
          -- `if ((desc->flags & O_NONBLOCK) && !should_unblock(desc)) return -EAGAIN;`
          if s.NonBlocking call ∧ ¬s.stream.ShouldUnblock call then s.returns p (.error .EAGAIN)
          else s.setPc p (.schedules call)
      | _ => s
  | .schedule p =>
      match s.pc p with
      | .schedules call =>
          if s.stream.ShouldUnblock call then s.setPc p (.atSection call) else s.setPc p (.blocked call)
      | _ => s
  | .unblock p =>
      match s.pc p with
      | .blocked call => s.setPc p (.atSection call)
      | _ => s
  | .interrupt p => s.returns p (.error .EINTR)
  | .lockedSection p =>
      match s.pc p with
      | .atSection call =>
          match (s.stream.lockedSection call).1 with
          | some result => { s with stream := (s.stream.lockedSection call).2 }.returns p result
          | none => { s with stream := (s.stream.lockedSection call).2 }.setPc p (.tests call)
      | _ => s
  | .close _ desc =>
      { s with stream := s.stream.close (s.flags desc), isOpen := Function.update s.isOpen desc false }
  | .setFlags _ desc arg => { s with flags := Function.update s.flags desc arg }

end StreamState

section System

variable {P D : Type} [DecidableEq P] [DecidableEq D]

/-- After `sys_pipe`. -/
def ByteStream.initialPipe (innerBuf : Nat → UInt8) : ByteStream D :=
  .pipe (fifoOpen (fifoOpen (fifoCreate innerBuf) O_RDONLY) O_WRONLY)

/-- After `connect` and `accept`. -/
def ByteStream.initialSocket (serverToClient clientToServer : Nat → UInt8) (client : D) : ByteStream D :=
  .socket
    { connected := true
      connectorFd := some client
      serverToClientBuf := ringBufInit serverToClient
      clientToServerBuf := ringBufInit clientToServer }

/-- Any number of processes on one pipe or one connection. -/
def nonBlockingSystem (P D : Type) [DecidableEq P] [DecidableEq D] :
    TransitionSystem (StreamState P D) (StreamEvent P D) where
  init s :=
    ((∃ innerBuf, s.stream = .initialPipe innerBuf) ∨
      ∃ serverToClient clientToServer client, s.stream = .initialSocket serverToClient clientToServer client) ∧
    ∀ p, s.pc p = .outside
  step s e t := s.Enabled e ∧ t = s.apply e

end System

end Chaotix
