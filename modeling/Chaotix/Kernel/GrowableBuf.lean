/-
Module: Chaotix.Kernel.GrowableBuf
Layer: Kernel
Purpose: The growable buffer of `kernel/growable_buf.c`, over the page tables and the memory behind them.
  What the range allocator answers in one call of `grow_buf`, and what it does to the address space, is
  given from outside, so that its calls can succeed and fail in any way. Every range of buffer memory
  that a `memcpy` or `memset` touches is recorded together with the block it was meant for.
Imports: Chaotix.Lib.Segments, Chaotix.Lib.Transition, Chaotix.Kernel.Paging
Trusted boundary: human-reviewed model of `kernel/growable_buf.c`
Main exports: GrowableBuf, BufState, GrowChoice, growBuf, growableBufPread, growableBufPwrite,
  growableBufTruncate, growableBufMmap, BufStep, bufSystem
-/
import Chaotix.Lib.Segments
import Chaotix.Lib.Transition
import Chaotix.Kernel.Paging

namespace Chaotix

/-! ### Copying bytes -/

/-- The bytes that a `memcpy` reads from `vaddr` on. -/
def loadBytes : Nat → Nat → Kernel Vm (List UInt8)
  | _, 0 => return []
  | vaddr, n + 1 => do
      let byte ← load8 vaddr
      let bytes ← loadBytes ((vaddr + 1) % wordSize) n
      return byte :: bytes

/-- The writes of a `memcpy` or a `memset` from `vaddr` on. -/
def storeBytes : Nat → List UInt8 → Kernel Vm Unit
  | _, [] => return ()
  | vaddr, byte :: bytes => do
      store8 vaddr byte
      storeBytes ((vaddr + 1) % wordSize) bytes

/-! ### The buffer -/

/-- `growable_buf`, without its lock: the functions of the module run under it. -/
structure GrowableBuf where
  addr : Nat := 0
  capacity : Nat := 0
  size : Nat := 0
deriving DecidableEq, Repr

/-- A range of memory that a `memcpy` or `memset` touched, and the block it was meant for. -/
structure Access where
  vaddr : Nat
  len : Nat
  block : Segment
deriving DecidableEq, Repr

/-- The range lies inside the block. -/
def Access.Inside (x : Access) : Prop :=
  x.len = 0 ∨ (x.block.1 ≤ x.vaddr ∧ x.vaddr + x.len ≤ x.block.1 + x.block.2)

/-- A buffer and the address space it lives in, with two records: the blocks of virtual addresses that
    the range allocator has given to the buffer, and the accesses to buffer memory. -/
structure BufState where
  buf : GrowableBuf := {}
  vm : Vm
  blocks : List Segment := []
  accesses : List Access := []

/-- Run a function of the address space. -/
def onBufVm {α : Type} (m : Kernel Vm α) : Kernel BufState α :=
  Program.focus BufState.vm (fun vm s => { s with vm := vm }) m

/-- Record an access. -/
def touch (block : Segment) (vaddr len : Nat) : Kernel BufState Unit :=
  modify fun s => { s with accesses := { vaddr := vaddr, len := len, block := block } :: s.accesses }

/-- `memcpy` out of a block. -/
def memcpyFrom (block : Segment) (vaddr count : Nat) : Kernel BufState (List UInt8) := do
  touch block vaddr count
  onBufVm (loadBytes vaddr count)

/-- `memcpy` into a block. -/
def memcpyTo (block : Segment) (vaddr : Nat) (bytes : List UInt8) : Kernel BufState Unit := do
  touch block vaddr bytes.length
  onBufVm (storeBytes vaddr bytes)

/-- `memset` to 0 in a block. -/
def memsetZero (block : Segment) (vaddr count : Nat) : Kernel BufState Unit := do
  touch block vaddr count
  onBufVm (storeBytes vaddr (List.replicate count 0))

/-- The memory of the buffer. -/
def GrowableBuf.block (buf : GrowableBuf) : Segment := (buf.addr, buf.capacity)

/-! ### Growing -/

/-- What the two calls to the range allocator return in one call of `grow_buf`, and what they do to the
    address space. -/
structure GrowChoice where
  alloc : Except Errno Nat
  afterAlloc : Vm → Vm
  free : Except Errno Unit
  afterFree : Vm → Vm

/-- `range_allocator_alloc(&kernel_vaddr_allocator, size)`. -/
def bufRangeAlloc (c : GrowChoice) (size : Nat) : Kernel BufState (Except Errno Nat) := do
  modify fun s => { s with vm := c.afterAlloc s.vm }
  match c.alloc with
  | .error e => return .error e
  | .ok addr => do
      modify fun s => { s with blocks := (addr, size) :: s.blocks }
      return .ok addr

/-- `range_allocator_free(&kernel_vaddr_allocator, addr, size)`. -/
def bufRangeFree (c : GrowChoice) (addr size : Nat) : Kernel BufState (Except Errno Unit) := do
  modify fun s => { s with vm := c.afterFree s.vm }
  match c.free with
  | .error e => return .error e
  | .ok () => do
      modify fun s => { s with blocks := s.blocks.erase (addr, size) }
      return .ok ()

/-- The flags of the pages of a buffer, `PAGE_WRITE | PAGE_GLOBAL`. -/
abbrev bufPageFlags : Nat := PAGE_WRITE ||| PAGE_GLOBAL

/-- The new capacity that `grow_buf` computes. -/
def growCapacity (capacity requestedSize : Nat) : Nat :=
  let newCapacity := roundUp (max (capacity * 2 % wordSize) requestedSize)
  if newCapacity = 0 then PAGE_SIZE else newCapacity

/-- The first part of `grow_buf`: the pages of the buffer are mapped at the new address as well. -/
def shareOld (buf : GrowableBuf) (newAddr : Nat) : Kernel BufState (Except Errno Unit) := do
  if buf.addr ≠ 0 then
    onBufVm (pagingCopyMapping newAddr buf.addr buf.capacity bufPageFlags)
  else
    assert (buf.capacity = 0)
    return .ok ()

/-- The second part of `grow_buf`: free pages are mapped behind them. -/
def mapBlock (buf : GrowableBuf) (newAddr newCapacity : Nat) :
    Kernel BufState (Except Errno Unit) := do
  match ← shareOld buf newAddr with
  | .error e => return .error e
  | .ok () =>
      onBufVm (pagingMapToFreePages ((newAddr + buf.capacity) % wordSize)
        ((newCapacity + wordSize - buf.capacity) % wordSize) bufPageFlags)

/-- `if (buf->addr) memcpy((void*)new_addr, (void*)buf->addr, buf->size);`. -/
def copyOld (buf : GrowableBuf) (newAddr newCapacity : Nat) : Kernel BufState Unit := do
  if buf.addr ≠ 0 then
    let bytes ← memcpyFrom buf.block buf.addr buf.size
    memcpyTo (newAddr, newCapacity) newAddr bytes
  else
    return ()

/-- The last part of `grow_buf`: the old block is unmapped and given back. -/
def releaseOld (c : GrowChoice) (buf : GrowableBuf) : Kernel BufState (Except Errno Unit) := do
  if buf.addr ≠ 0 then
    onBufVm (pagingUnmap buf.addr buf.capacity)
    bufRangeFree c buf.addr buf.capacity
  else
    return .ok ()

/-- `grow_buf`. When the old block cannot be given back, it returns with the buffer still at the old
    address, whose pages are unmapped by then, as in the source. -/
def growBuf (c : GrowChoice) (requestedSize : Nat) : Kernel BufState (Except Errno Unit) := do
  let buf := (← get).buf
  let newCapacity := growCapacity buf.capacity requestedSize
  match ← bufRangeAlloc c newCapacity with
  | .error e => return .error e
  | .ok newAddr => do
      match ← mapBlock buf newAddr newCapacity with
      | .error e => return .error e
      | .ok () => do
          copyOld buf newAddr newCapacity
          memsetZero (newAddr, newCapacity) ((newAddr + buf.size) % wordSize)
            ((newCapacity + wordSize - buf.size) % wordSize)
          match ← releaseOld c buf with
          | .error e => return .error e
          | .ok () => do
              modify fun s =>
                { s with buf := { s.buf with addr := newAddr, capacity := newCapacity } }
              return .ok ()

/-! ### Reading and writing -/

/-- `growable_buf_pread`, with an offset that is not negative. It returns the bytes it has copied. -/
def growableBufPread (count offset : Nat) : Kernel BufState (List UInt8) := do
  let buf := (← get).buf
  if offset ≥ buf.size then
    return []
  else
    let count := if (offset + count) % wordSize ≥ buf.size then buf.size - offset else count
    memcpyFrom buf.block ((buf.addr + offset) % wordSize) count

/-- The end of `growable_buf_pwrite`, once the buffer is large enough. -/
def writeAt (bytes : List UInt8) (offset finish : Nat) : Kernel BufState Unit := do
  let buf := (← get).buf
  memcpyTo buf.block ((buf.addr + offset) % wordSize) bytes
  modify fun s => { s with buf := { s.buf with size := max s.buf.size finish } }

/-- `growable_buf_pwrite`, with an offset that is not negative. It returns the number of bytes. -/
def growableBufPwrite (c : GrowChoice) (bytes : List UInt8) (offset : Nat) :
    Kernel BufState (Except Errno Nat) := do
  let finish := (offset + bytes.length) % wordSize
  if finish > (← get).buf.capacity then
    match ← growBuf c finish with
    | .error e => return .error e
    | .ok () => do
        writeAt bytes offset finish
        return .ok bytes.length
  else
    writeAt bytes offset finish
    return .ok bytes.length

/-- `(size_t)length`. -/
def toSize (length : Int) : Nat := (length % (wordSize : Int)).toNat

/-- `buf->size = length`. -/
def setSize (length : Nat) : Kernel BufState Unit :=
  modify fun s => { s with buf := { s.buf with size := length } }

/-- `growable_buf_truncate`. -/
def growableBufTruncate (c : GrowChoice) (length : Int) : Kernel BufState (Except Errno Unit) := do
  let buf := (← get).buf
  let length := toSize length
  if length ≤ buf.size then
    memsetZero buf.block ((buf.addr + length) % wordSize) (buf.size - length)
    setSize length
    return .ok ()
  else if length ≤ buf.capacity then
    memsetZero buf.block ((buf.addr + buf.size) % wordSize) (length - buf.size)
    setSize length
    return .ok ()
  else
    match ← growBuf c length with
    | .error e => return .error e
    | .ok () => do
        setSize length
        return .ok ()

/-- `growable_buf_mmap`. -/
def growableBufMmap (addr length : Nat) (offset : Int) (pageFlags : Nat) :
    Kernel BufState (Except Errno Nat) := do
  let buf := (← get).buf
  if offset ≠ 0 ∨ pageFlags &&& PAGE_SHARED = 0 then
    return .error .ENOTSUP
  else if length > buf.size then
    return .error .EINVAL
  else
    match ← onBufVm (pagingCopyMapping addr buf.addr length pageFlags) with
    | .error e => return .error e
    | .ok () => return .ok addr

/-! ### The buffer and its callers -/

/-- A page of a block. -/
def InBlock (block : Segment) (page : Nat) : Prop :=
  block.1 ≤ page * PAGE_SIZE ∧ page * PAGE_SIZE < block.1 + block.2

/-- Other code leaves the mapping of some pages alone, and keeps the references behind them. -/
structure KeepsPages (own : Nat → Prop) (vm vm' : Vm) : Prop where
  frameOf : ∀ page, own page → vm'.frameOf page = vm.frameOf page
  held : ∀ page frame k, own page → vm.frameOf page = some frame →
    vm.pages.Held frame k → vm'.pages.Held frame k
  pages : PagesOk vm'.pages

/-- Other code leaves the contents of some pages alone as well. -/
structure KeepsBytes (own : Nat → Prop) (vm vm' : Vm) : Prop extends KeepsPages own vm vm' where
  ram : ∀ page frame, own page → vm.frameOf page = some frame → vm'.ram frame = vm.ram frame

/-- What the buffer may rely on when it asks for a block of `size` bytes: the two calls leave the pages
    of the blocks they do not touch alone, and a block that is handed out is free. -/
structure GrowChoice.Sound (c : GrowChoice) (s : BufState) (size : Nat) : Prop where
  keepsOld : KeepsBytes (InBlock s.buf.block) s.vm (c.afterAlloc s.vm)
  aligned : ∀ addr, c.alloc = .ok addr → addr % PAGE_SIZE = 0
  inside : ∀ addr, c.alloc = .ok addr → 0 < addr ∧ addr + size < wordSize
  unmapped : ∀ addr page, c.alloc = .ok addr → InBlock (addr, size) page →
    (c.afterAlloc s.vm).frameOf page = none
  keepsNew : ∀ addr vm, c.alloc = .ok addr → PagesOk vm.pages →
    KeepsBytes (InBlock (addr, size)) vm (c.afterFree vm)

/-- The calls of the four functions, and whatever else the kernel and the users of mapped buffer pages
    do. -/
inductive BufEvent where
  | pread (count offset : Nat) (result : List UInt8)
  | pwrite (c : GrowChoice) (bytes : List UInt8) (offset : Nat) (result : Except Errno Nat)
  | truncate (c : GrowChoice) (length : Int) (result : Except Errno Unit)
  | mmap (addr length : Nat) (offset : Int) (pageFlags : Nat) (result : Except Errno Nat)
  | client

/-- The calls that return. -/
inductive BufStep : BufState → BufEvent → BufState → Prop where
  | pread {s s' : BufState} (count offset : Nat) (result : List UInt8) :
      count < wordSize → offset < 2 ^ 31 → growableBufPread count offset s = .ok (result, s') →
      BufStep s (.pread count offset result) s'
  | pwrite {s s' : BufState} (c : GrowChoice) (bytes : List UInt8) (offset : Nat)
      (result : Except Errno Nat) :
      bytes.length < wordSize → offset < 2 ^ 31 →
      c.Sound s (growCapacity s.buf.capacity ((offset + bytes.length) % wordSize)) →
      growableBufPwrite c bytes offset s = .ok (result, s') →
      BufStep s (.pwrite c bytes offset result) s'
  | truncate {s s' : BufState} (c : GrowChoice) (length : Int) (result : Except Errno Unit) :
      -2 ^ 31 ≤ length → length < 2 ^ 31 →
      c.Sound s (growCapacity s.buf.capacity (toSize length)) →
      growableBufTruncate c length s = .ok (result, s') → BufStep s (.truncate c length result) s'
  | mmap {s s' : BufState} (addr length : Nat) (offset : Int) (pageFlags : Nat)
      (result : Except Errno Nat) :
      addr < wordSize → length < wordSize →
      growableBufMmap addr length offset pageFlags s = .ok (result, s') →
      BufStep s (.mmap addr length offset pageFlags result) s'
  | client {s : BufState} (vm : Vm) :
      KeepsPages (InBlock s.buf.block) s.vm vm → BufStep s .client { s with vm := vm }

/-- A buffer from the zero state. -/
def bufSystem : TransitionSystem BufState BufEvent where
  init s := s.buf = {} ∧ s.blocks = [] ∧ s.accesses = [] ∧ PagesOk s.vm.pages
  step := BufStep

end Chaotix
