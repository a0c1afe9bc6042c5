/-
Module: Chaotix.Kernel.SocketStream
Layer: Kernel
Purpose: A Unix socket that has been connected and accepted, read and written by any number of processes
  on the connecting and on the accepted description. The two ring buffers are chosen by comparing the
  description with `connector_fd`; each section under the lock of a buffer is one step. The descriptions
  are names; two open descriptions are different ones.
Imports: Mathlib.Logic.Function.Basic, Chaotix.Lib.Transition, Chaotix.Kernel.RingBuf
Trusted boundary: human-reviewed model of the file operations of `kernel/unix_socket.c`, and of what
  `unix_socket_connect`, `unix_socket_accept` and `sys_accept` set on the connector
Main exports: ConnectedSocket, SocketDirection, unixSocketReadSection, unixSocketWriteSection,
  SocketStreamStep, socketStreamSystem
-/
import Mathlib.Logic.Function.Basic
import Chaotix.Lib.Transition
import Chaotix.Kernel.RingBuf

namespace Chaotix

/-- The fields of the connector's `struct unix_socket` that its file operations use. -/
structure ConnectedSocket (D : Type) where
  connected : Bool
  connectorFd : Option D
  serverToClientBuf : RingBuf
  clientToServerBuf : RingBuf

/-- The two buffers. -/
inductive SocketDirection where
  | serverToClient
  | clientToServer
deriving DecidableEq, Repr

namespace ConnectedSocket

variable {D : Type}

/-- The buffer of a direction. -/
def buf (socket : ConnectedSocket D) : SocketDirection → RingBuf
  | .serverToClient => socket.serverToClientBuf
  | .clientToServer => socket.clientToServerBuf

/-- Change the buffer of a direction. -/
def setBuf (socket : ConnectedSocket D) (direction : SocketDirection) (buf : RingBuf) :
    ConnectedSocket D :=
  match direction with
  | .serverToClient => { socket with serverToClientBuf := buf }
  | .clientToServer => { socket with clientToServerBuf := buf }

end ConnectedSocket

section Functions

variable {D : Type} [DecidableEq D]

/-- `get_buf_to_read`. -/
def getBufToRead (socket : ConnectedSocket D) (desc : D) : SocketDirection :=
  if socket.connectorFd = some desc then .serverToClient else .clientToServer

/-- `get_buf_to_write`. -/
def getBufToWrite (socket : ConnectedSocket D) (desc : D) : SocketDirection :=
  if socket.connectorFd = some desc then .clientToServer else .serverToClient

/-- `read_should_unblock`. -/
def socketReadShouldUnblock (socket : ConnectedSocket D) (desc : D) : Prop :=
  ¬(socket.buf (getBufToRead socket desc)).IsEmpty

/-- `write_should_unblock`. -/
def socketWriteShouldUnblock (socket : ConnectedSocket D) (desc : D) : Prop :=
  ¬(socket.buf (getBufToWrite socket desc)).IsFull

end Functions

section Sections

variable {D : Type}

/-- The section of `unix_socket_read` on the buffer it chose: the bytes it returns, or `none` to go round
    again. -/
def unixSocketReadSection (socket : ConnectedSocket D) (direction : SocketDirection) (count : Nat) :
    Option (List UInt8) × ConnectedSocket D :=
  if (socket.buf direction).IsEmpty then (none, socket)
  else
    (some (ringBufRead (socket.buf direction) count).1,
      socket.setBuf direction (ringBufRead (socket.buf direction) count).2)

/-- The section of `unix_socket_write` on the buffer it chose: how many bytes it wrote, or `none` to go
    round again. -/
def unixSocketWriteSection (socket : ConnectedSocket D) (direction : SocketDirection)
    (bytes : List UInt8) : Option Nat × ConnectedSocket D :=
  if (socket.buf direction).IsFull then (none, socket)
  else
    (some (ringBufWrite (socket.buf direction) bytes).1,
      socket.setBuf direction (ringBufWrite (socket.buf direction) bytes).2)

end Sections

/-- In the loop of `unix_socket_read` and `unix_socket_write`: waiting for the predicate, or before the
    section. -/
inductive SocketPoint where
  | blocks
  | atSection
deriving DecidableEq, Repr

/-- Where a process is. The buffer is chosen when the call starts. -/
inductive SocketPc (D : Type) where
  | outside
  | reading (point : SocketPoint) (desc : D) (direction : SocketDirection) (count : Nat)
  | writing (point : SocketPoint) (desc : D) (direction : SocketDirection) (count : Nat)
deriving DecidableEq, Repr

/-- The socket, the description that `sys_accept` has opened for it, and the processes. -/
structure SocketStream (P D : Type) where
  socket : ConnectedSocket D
  accepted : Option D
  pc : P → SocketPc D

section Steps

variable {P D : Type} [DecidableEq P] [DecidableEq D]

namespace SocketStream

/-- A process goes on to another control point. -/
def setPc (s : SocketStream P D) (p : P) (pc : SocketPc D) : SocketStream P D :=
  { s with pc := Function.update s.pc p pc }

/-- After `unix_socket_create`. -/
def initial (serverToClient clientToServer : Nat → UInt8) : SocketStream P D :=
  { socket :=
      { connected := false
        connectorFd := none
        serverToClientBuf := ringBufInit serverToClient
        clientToServerBuf := ringBufInit clientToServer }
    accepted := none
    pc := fun _ => .outside }

/-- The description is one of the two ends of an accepted connection. -/
def IsEnd (s : SocketStream P D) (desc : D) : Prop :=
  s.socket.connected = true ∧ (s.socket.connectorFd = some desc ∨ s.accepted = some desc)

end SocketStream

end Steps

end Chaotix
