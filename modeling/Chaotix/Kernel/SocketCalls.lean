/-
Module: Chaotix.Kernel.SocketCalls
Layer: Kernel
Purpose: The system calls on sockets, over the descriptions and inodes of the descriptor model. A call is one
  step: `accept` from the moment it finds a pending connector, `connect` up to the moment it blocks. The
  address is its family, its length and what its path leads to.
Imports: Chaotix.Lib.LinkedList, Chaotix.Kernel.FileDescriptors
Trusted boundary: human-reviewed model of `kernel/syscall/socket.c` and of `unix_socket_accept` and
  `unix_socket_connect` of `kernel/unix_socket.c`
Main exports: sysBind, sysListen, sysAccept, sysConnect, SocketCall, socketSystem
-/
import Chaotix.Lib.LinkedList
import Chaotix.Kernel.FileDescriptors

namespace Chaotix

/-- `sizeof(sa_family_t)` and `sizeof(sockaddr_un)`. -/
abbrev SIZEOF_SA_FAMILY : Nat := 2

abbrev SIZEOF_SOCKADDR_UN : Nat := 110

/-- What a caller passes as an address, whether there is memory for a copy of its path, and what the path
    leads to. -/
structure SockAddr (D N : Type) where
  saFamily : Int
  addrlen : Nat
  copied : Bool
  path : PathOutcome N
  choice : OpenChoice D

section Calls

variable {P D N S : Type} [DecidableEq P] [DecidableEq D] [DecidableEq N] [DecidableEq S]

/-- The checks that each call on a socket starts with. A socket file is not a `unix_socket`, and taking it
    for one is an access to memory outside it. -/
def getSocket (p : P) (sockfd : Int) : Kernel (Files P D N S) (Except Errno (D × S)) := do
  let s ← get
  match processGetFileDescription s p sockfd with
  | .error e => return .error e
  | .ok desc =>
      if ¬s.IsSock (s.desc desc).inode then
        return .error .ENOTSOCK
      match (s.desc desc).inode with
      | .socket k => return .ok (desc, k)
      | .node _ => throw .fault

/-- The checks of an address, and the copy of its path. -/
def checkAddr (addr : SockAddr D N) : Except Errno Unit :=
  if addr.addrlen ≤ SIZEOF_SA_FAMILY ∨ SIZEOF_SOCKADDR_UN < addr.addrlen then .error .EINVAL
  else if addr.saFamily ≠ AF_UNIX then .error .EINVAL
  else if !addr.copied then .error .ENOMEM
  else .ok ()

/-- `desc->inode->bound_socket = socket` on a description of a file. -/
def setBoundSocket (desc : D) (socket : S) : Kernel (Files P D N S) Unit := do
  let s ← get
  match (s.desc desc).inode with
  | .node n => set (s.setNode n { s.node n with boundSocket := some socket })
  | .socket _ => pure ()

/-- `desc->inode->bound_socket`. The inode inside a `unix_socket` never has one. -/
def boundSocket (s : Files P D N S) (desc : D) : Option S :=
  match (s.desc desc).inode with
  | .node n => (s.node n).boundSocket
  | .socket _ => none

/-- `sys_bind`. -/
def sysBind (p : P) (sockfd : Int) (addr : SockAddr D N) :
    Kernel (Files P D N S) (Except Errno Nat) := do
  match ← getSocket p sockfd with
  | .error e => return .error e
  | .ok (_, socket) =>
      match checkAddr addr with
      | .error e => return .error e
      | .ok _ =>
          match ← vfsOpen addr.path (O_CREAT ||| O_EXCL) .S_IFSOCK addr.choice with
          | .error e => return .error (if e = .EEXIST then .EADDRINUSE else e)
          | .ok boundDesc =>
              setBoundSocket boundDesc socket
              return .ok 0

/-- `sys_listen`. The backlog is kept as a `size_t`. -/
def sysListen (p : P) (sockfd : Int) (backlog : Int) : Kernel (Files P D N S) (Except Errno Nat) := do
  match ← getSocket p sockfd with
  | .error e => return .error e
  | .ok (_, k) =>
      modify fun s => s.setSocket k { s.socket k with backlog := (backlog % wordSize).toNat }
      return .ok 0

/-- `unix_socket_accept` once a connector is pending. -/
def unixSocketAccept (listener : S) : Kernel (Files P D N S) S := do
  let s ← get
  Program.require (0 < (s.socket listener).numPending) .hang
  match (s.socket listener).next with
  | none => throw .fault
  | some connector =>
      set (s.setSocket listener
        { s.socket listener with
          next := (s.socket connector).next
          numPending := wordPred (s.socket listener).numPending })
      assert ((s.socket connector).connected = false)
      modify fun s => s.setSocket connector { s.socket connector with connected := true }
      return connector

/-- `sys_accept`, where `interrupted` says that a signal ends the wait. -/
def sysAccept (p : P) (sockfd : Int) (interrupted : Bool) (choice : OpenChoice D) :
    Kernel (Files P D N S) (Except Errno Nat) := do
  match ← getSocket p sockfd with
  | .error e => return .error e
  | .ok (_, listener) =>
      if interrupted then
        return .error .EINTR
      let connector ← unixSocketAccept listener
      inodeRef (.socket connector)
      match ← inodeOpen (.socket connector) O_RDWR choice with
      | .error e => return .error e
      | .ok connectorDesc => processAllocFileDescriptor p (-1) connectorDesc

/-- `enqueue_pending`, where the walk to the tail takes at most `steps` steps. A walk that does not end there
    is no execution with this number. -/
def enqueuePendingSocket (listener connector : S) (steps : Nat) : Kernel (Files P D N S) Unit := do
  modify fun s => s.setSocket connector { s.socket connector with next := none }
  let s ← get
  match (s.socket listener).next with
  | none => set (s.setSocket listener { s.socket listener with next := some connector })
  | some head =>
      match findTail (fun k => (s.socket k).next) steps head with
      | some tail => set (s.setSocket tail { s.socket tail with next := some connector })
      | none => throw .hang
  modify fun s => s.setSocket listener
    { s.socket listener with numPending := wordSucc (s.socket listener).numPending }

/-- `unix_socket_connect` up to the moment it blocks. -/
def unixSocketConnect (connectorFd : D) (connector listener : S) (steps : Nat) (interrupted : Bool) :
    Kernel (Files P D N S) (Except Errno Nat) := do
  modify fun s => s.setSocket connector { s.socket connector with connectorFd := some connectorFd }
  let s ← get
  if (s.socket listener).backlog ≤ (s.socket listener).numPending then
    return .error .ECONNREFUSED
  enqueuePendingSocket listener connector steps
  if interrupted then
    return .error .EINTR
  return .ok 0

/-- `sys_connect`. -/
def sysConnect (p : P) (sockfd : Int) (addr : SockAddr D N) (steps : Nat) (interrupted : Bool) :
    Kernel (Files P D N S) (Except Errno Nat) := do
  match ← getSocket p sockfd with
  | .error e => return .error e
  | .ok (desc, socket) =>
      if ((← get).socket socket).connected then
        return .error .EISCONN
      match checkAddr addr with
      | .error e => return .error e
      | .ok _ =>
          match ← vfsOpen addr.path 0 .S_IFREG addr.choice with
          | .error e => return .error e
          | .ok listenerDesc =>
              match boundSocket (← get) listenerDesc with
              | none => return .error .ECONNREFUSED
              | some listener => unixSocketConnect desc socket listener steps interrupted

end Calls

/-! ### Runs -/

/-- The calls on sockets. -/
inductive SocketCall (D N S : Type) where
  | socket (domain type : Int) (create : CreateChoice S) (choice : OpenChoice D)
  | bind (sockfd : Int) (addr : SockAddr D N)
  | listen (sockfd : Int) (backlog : Int)
  | connect (sockfd : Int) (addr : SockAddr D N) (steps : Nat) (interrupted : Bool)
  | accept (sockfd : Int) (interrupted : Bool) (choice : OpenChoice D)
  | close (fd : Int)

section Runs

variable {P D N S : Type} [DecidableEq P] [DecidableEq D] [DecidableEq N] [DecidableEq S]

namespace SocketCall

/-- What a process runs for a call. -/
def run (p : P) : SocketCall D N S → Kernel (Files P D N S) (Except Errno Nat)
  | .socket domain type create choice => sysSocket p domain type create choice
  | .bind sockfd addr => sysBind p sockfd addr
  | .listen sockfd backlog => sysListen p sockfd backlog
  | .connect sockfd addr steps interrupted => sysConnect p sockfd addr steps interrupted
  | .accept sockfd interrupted choice => sysAccept p sockfd interrupted choice
  | .close fd => sysClose p fd

/-- What the call is answered is possible. -/
def Fresh (s : Files P D N S) : SocketCall D N S → Prop
  | .socket _ _ create choice => (∀ k, create.block = some k → s.socketLive k = false) ∧ choice.Fresh s
  | .bind _ addr => addr.path.Fits s (O_CREAT ||| O_EXCL) ∧ addr.choice.Fresh s
  | .connect _ addr _ _ => addr.path.Fits s 0 ∧ addr.choice.Fresh s
  | .accept _ _ choice => choice.Fresh s
  | _ => True

end SocketCall

/-- A call by a process, and what it returns. -/
structure SocketCallEvent (P D N S : Type) where
  process : P
  call : SocketCall D N S
  result : Except Errno Nat

/-- Any number of processes with their calls on sockets; no file is bound to a socket yet. -/
def socketSystem (P D N S : Type) [DecidableEq P] [DecidableEq D] [DecidableEq N] [DecidableEq S] :
    TransitionSystem (Files P D N S) (SocketCallEvent P D N S) where
  init s := s.Initial ∧ ∀ n, (s.node n).boundSocket = none
  step s e s' :=
    s.registered e.process = true ∧ e.call.Fresh s ∧ e.call.run e.process s = .ok (e.result, s')

end Runs

end Chaotix
