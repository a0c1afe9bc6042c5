/-
Module: Chaotix.Kernel.SocketQueue
Layer: Kernel
Purpose: The queue of pending connectors of one listening Unix socket. Any number of processes accept,
  and each connector calls `unix_socket_connect` once; a section under `pending_queue_lock` is one step, and
  so is each access to `num_pending` and `connected`, which are atomic variables outside the lock. The
  connectors are linked through their own `next` fields. Taking a connector from an empty queue
  dereferences `NULL`.
Imports: Mathlib.Logic.Function.Basic, Chaotix.Lib.Transition, Chaotix.Lib.LinkedList,
  Chaotix.Kernel.Base
Trusted boundary: human-reviewed model of `enqueue_pending`, `deque_pending`, `unix_socket_accept` and
  `unix_socket_connect` of `kernel/unix_socket.c`
Main exports: Listener, enqueuePending, dequePending, ListenerStep, listenerSystem
-/
import Mathlib.Logic.Function.Basic
import Chaotix.Lib.Transition
import Chaotix.Lib.LinkedList
import Chaotix.Kernel.Base

namespace Chaotix

/-- Where a connector is: before its call, behind the check of the backlog, in the queue but not yet in
    `num_pending`, in `scheduler_block`, or returned. -/
inductive ConnectPc where
  | outside
  | checked
  | enqueued
  | blocked
  | returned
deriving DecidableEq, Repr

/-- Where an accepting process is: outside, in `scheduler_block`, behind it, and then with a connector
    before each access to an atomic variable. A process that has dereferenced `NULL` is gone. -/
inductive AcceptPc (C : Type) where
  | outside
  | blocked
  | polled
  | dequeued (connector : C)
  | counted (connector : C)
  | asserted (connector : C)
  | faulted
deriving DecidableEq, Repr

/-- The listener with its connectors and the processes that accept. `backlog` is the field as a `size_t`,
    and `sockets` are the connectors that exist. -/
structure Listener (C A : Type) where
  backlog : Nat
  sockets : List C
  numPending : Nat
  pending : Option C
  next : C → Option C
  connected : C → Bool
  connectPc : C → ConnectPc
  acceptPc : A → AcceptPc C

section Functions

variable {C A : Type} [DecidableEq C]

/-- The section of `enqueue_pending`. The walk to the tail never ends on a cyclic queue. -/
def enqueuePending (s : Listener C A) (connector : C) : Except Stop (Listener C A) :=
  let next := Function.update s.next connector none
  match s.pending with
  | none => .ok { s with next := next, pending := some connector }
  | some head =>
      match findTail next s.sockets.length head with
      | some tail => .ok { s with next := Function.update next tail (some connector) }
      | none => .error .hang

/-- The section of `deque_pending`. -/
def dequePending (s : Listener C A) : Except Stop (C × Listener C A) :=
  match s.pending with
  | none => .error .fault
  | some connector => .ok (connector, { s with pending := s.next connector })

end Functions

/-- What a connector or an accepting process does in one step. -/
inductive ListenerEvent (C A : Type) where
  | connectCheck (c : C)
  | connectRefused (c : C)
  | enqueue (c : C)
  | countEnqueued (c : C)
  | connectReturn (c : C)
  | connectInterrupted (c : C)
  | accept (a : A)
  | acceptPoll (a : A)
  | acceptInterrupted (a : A)
  | deque (a : A) (c : C)
  | dequeNull (a : A)
  | countDequeued (a : A)
  | assertNotConnected (a : A)
  | acceptReturn (a : A) (c : C)
deriving DecidableEq, Repr

section Steps

variable {C A : Type} [DecidableEq C] [DecidableEq A]

namespace Listener

/-- A connector goes on to another control point. -/
def setConnect (s : Listener C A) (c : C) (pc : ConnectPc) : Listener C A :=
  { s with connectPc := Function.update s.connectPc c pc }

/-- An accepting process goes on to another control point. -/
def setAccept (s : Listener C A) (a : A) (pc : AcceptPc C) : Listener C A :=
  { s with acceptPc := Function.update s.acceptPc a pc }

/-- Nobody has connected yet. -/
def initial (backlog : Nat) (sockets : List C) : Listener C A :=
  { backlog := backlog
    sockets := sockets
    numPending := 0
    pending := none
    next := fun _ => none
    connected := fun _ => false
    connectPc := fun _ => .outside
    acceptPc := fun _ => .outside }

end Listener

/-- The steps of the connectors and of the accepting processes. -/
inductive ListenerStep : Listener C A → ListenerEvent C A → Listener C A → Prop where
  | connectCheck {s : Listener C A} {c : C} :
      s.connectPc c = .outside → c ∈ s.sockets → s.numPending < s.backlog →
      ListenerStep s (.connectCheck c) (s.setConnect c .checked)
  | connectRefused {s : Listener C A} {c : C} :
      s.connectPc c = .outside → c ∈ s.sockets → s.backlog ≤ s.numPending →
      ListenerStep s (.connectRefused c) (s.setConnect c .returned)
  | enqueue {s s' : Listener C A} {c : C} :
      s.connectPc c = .checked → enqueuePending s c = .ok s' →
      ListenerStep s (.enqueue c) (s'.setConnect c .enqueued)
  | countEnqueued {s : Listener C A} {c : C} :
      s.connectPc c = .enqueued →
      ListenerStep s (.countEnqueued c)
        ({ s with numPending := wordSucc s.numPending }.setConnect c .blocked)
  | connectReturn {s : Listener C A} {c : C} :
      s.connectPc c = .blocked → s.connected c = true →
      ListenerStep s (.connectReturn c) (s.setConnect c .returned)
  | connectInterrupted {s : Listener C A} {c : C} :
      s.connectPc c = .blocked → ListenerStep s (.connectInterrupted c) (s.setConnect c .returned)
  | accept {s : Listener C A} {a : A} :
      s.acceptPc a = .outside → ListenerStep s (.accept a) (s.setAccept a .blocked)
  | acceptPoll {s : Listener C A} {a : A} :
      s.acceptPc a = .blocked → 0 < s.numPending →
      ListenerStep s (.acceptPoll a) (s.setAccept a .polled)
  | acceptInterrupted {s : Listener C A} {a : A} :
      s.acceptPc a = .blocked → ListenerStep s (.acceptInterrupted a) (s.setAccept a .outside)
  | deque {s s' : Listener C A} {a : A} {c : C} :
      s.acceptPc a = .polled → dequePending s = .ok (c, s') →
      ListenerStep s (.deque a c) (s'.setAccept a (.dequeued c))
  | dequeNull {s : Listener C A} {a : A} :
      s.acceptPc a = .polled → dequePending s = .error .fault →
      ListenerStep s (.dequeNull a) (s.setAccept a .faulted)
  | countDequeued {s : Listener C A} {a : A} {c : C} :
      s.acceptPc a = .dequeued c →
      ListenerStep s (.countDequeued a)
        ({ s with numPending := wordPred s.numPending }.setAccept a (.counted c))
  | assertNotConnected {s : Listener C A} {a : A} {c : C} :
      s.acceptPc a = .counted c → s.connected c = false →
      ListenerStep s (.assertNotConnected a) (s.setAccept a (.asserted c))
  | acceptReturn {s : Listener C A} {a : A} {c : C} :
      s.acceptPc a = .asserted c →
      ListenerStep s (.acceptReturn a c)
        ({ s with connected := Function.update s.connected c true }.setAccept a .outside)

/-- Any number of connectors and accepting processes on one listener. -/
def listenerSystem (C A : Type) [DecidableEq C] [DecidableEq A] :
    TransitionSystem (Listener C A) (ListenerEvent C A) where
  init s := ∃ backlog sockets, backlog < wordSize ∧ s = Listener.initial backlog sockets
  step := ListenerStep

end Steps

end Chaotix
