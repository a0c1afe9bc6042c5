/-
Module: Chaotix.Kernel.RangeAllocator
Layer: Kernel
Purpose: The allocator of virtual address ranges of `kernel/memory/range_allocator.c`. The free ranges
  form a list whose nodes are stored in the ranges: the first page of a free range is mapped and holds
  the size of the range and the address of the next one. Taking the front of a range or putting a block
  before one moves the node by mapping its frame at the new address. `rangeSystem` runs the allocator
  for any number of processes beside the rest of the kernel.
Imports: Mathlib.Logic.Function.Basic, Chaotix.Lib.Segments, Chaotix.Lib.Transition,
  Chaotix.Kernel.Lock, Chaotix.Kernel.Paging
Trusted boundary: human-reviewed model of `kernel/memory/range_allocator.c`
Main exports: RangeAllocator, RangeState, rangeAllocatorInit, rangeAllocatorAlloc,
  rangeAllocatorFree, RangeHistory, RangeStep, rangeSystem
-/
import Mathlib.Logic.Function.Basic
import Chaotix.Lib.Segments
import Chaotix.Lib.Transition
import Chaotix.Kernel.Lock
import Chaotix.Kernel.Paging

namespace Chaotix

/-- `range_allocator`. `ranges` is the address of the first free range, 0 for `NULL`. -/
structure RangeAllocator (P : Type) where
  start : Nat := 0
  finish : Nat := 0
  ranges : Nat := 0
  lock : Mutex P := {}

/-- An allocator and the address space it lives in. -/
structure RangeState (P : Type) where
  allocator : RangeAllocator P
  vm : Vm

/-- `sizeof(struct range)`. -/
abbrev sizeofRange : Nat := 8

/-- The address of `range->next`. -/
def nextField (range : Nat) : Nat := (range + 4) % wordSize

variable {P : Type}

/-- Run a function of the address space. -/
def onVm {α : Type} (m : Kernel Vm α) : Kernel (RangeState P) α :=
  Program.focus RangeState.vm (fun vm s => { s with vm := vm }) m

/-- Change the allocator. -/
def modifyAllocator (f : RangeAllocator P → RangeAllocator P) : Kernel (RangeState P) Unit :=
  modify fun s => { s with allocator := f s.allocator }

section Locking

variable [DecidableEq P]

/-- `mutex_lock(&allocator->lock)` by a process that nobody runs beside: it spins forever on a mutex that
    another process has not released. -/
def rangeLock (current : P) : Kernel (RangeState P) Unit := do
  match mutexLockSection current (← get).allocator.lock with
  | (m, .returns) => modifyAllocator fun a => { a with lock := m }
  | (_, .asserts) => throw .panic
  | _ => throw .hang

/-- `mutex_unlock(&allocator->lock)`. -/
def rangeUnlock (current : P) : Kernel (RangeState P) Unit := do
  match mutexUnlockSection current (← get).allocator.lock with
  | (m, .returns) => modifyAllocator fun a => { a with lock := m }
  | (_, .asserts) => throw .panic
  | _ => throw .hang

end Locking

/-- `range_allocator_init`. -/
def rangeAllocatorInit (start finish : Nat) : Kernel (RangeState P) (Except Errno Unit) := do
  assert (start % PAGE_SIZE = 0)
  assert (finish % PAGE_SIZE = 0)
  modifyAllocator fun _ => { start := start, finish := finish }
  match ← onVm (pagingMapToFreePages start sizeofRange PAGE_WRITE) with
  | .error e => return .error e
  | .ok () => do
      modifyAllocator fun a => { a with ranges := start }
      onVm (store32 start ((finish + wordSize - start) % wordSize))
      onVm (store32 (nextField start) 0)
      return .ok ()

/-- The loop of `range_allocator_alloc`: the first range that is large enough, and the one before it. A
    list of more nodes than there are addresses is a cycle, on which the loop never ends. -/
def findFit (size : Nat) : Nat → Nat → Nat → Kernel Vm (Nat × Nat)
  | 0, _, _ => throw .hang
  | n + 1, prev, it => do
      if it = 0 then
        return (prev, it)
      else
        let itSize ← load32 it
        if itSize < size then
          let next ← load32 (nextField it)
          findFit size n it next
        else
          return (prev, it)

/-- `if (prev) prev->next = range; else allocator->ranges = range;`. -/
def setLink (prev range : Nat) : Kernel (RangeState P) Unit :=
  if prev ≠ 0 then
    onVm (store32 (nextField prev) range)
  else
    modifyAllocator fun a => { a with ranges := range }

/-- `setLink`, where the list must start with `it` when there is no `prev`. -/
def linkRange (prev it range : Nat) : Kernel (RangeState P) Unit := do
  assert (prev ≠ 0 ∨ (← get).allocator.ranges = it)
  setLink prev range

variable [DecidableEq P]

/-- `mutex_unlock(&allocator->lock); return result;`. -/
def unlockAndReturn {α : Type} (current : P) (result : α) : Kernel (RangeState P) α := do
  rangeUnlock current
  return result

/-- The case of `range_allocator_alloc` in which the block is a whole range. -/
def allocWhole (current : P) (prev it : Nat) : Kernel (RangeState P) (Except Errno Nat) := do
  let next ← onVm (load32 (nextField it))
  linkRange prev it next
  onVm (pagingUnmap it sizeofRange)
  unlockAndReturn current (.ok it)

/-- The case of `range_allocator_alloc` in which the block is the front of a range. -/
def allocFront (current : P) (size prev it : Nat) : Kernel (RangeState P) (Except Errno Nat) := do
  let addr := (it + size) % wordSize
  match ← onVm (pagingCopyMapping addr it sizeofRange PAGE_WRITE) with
  | .error e => unlockAndReturn current (.error e)
  | .ok () => do
      let rangeSize ← onVm (load32 addr)
      onVm (store32 addr ((rangeSize + wordSize - size) % wordSize))
      onVm (pagingUnmap it sizeofRange)
      linkRange prev it addr
      unlockAndReturn current (.ok it)

/-- `range_allocator_alloc`. When no range is large enough it returns without `mutex_unlock`, as in the
    source. -/
def rangeAllocatorAlloc (current : P) (size : Nat) : Kernel (RangeState P) (Except Errno Nat) := do
  assert ((← get).allocator.ranges ≠ 0)
  rangeLock current
  let (prev, it) ← onVm (findFit (roundUp size) wordSize 0 (← get).allocator.ranges)
  if it = 0 then
    return .error .ENOMEM
  else
    let itSize ← onVm (load32 it)
    if itSize = roundUp size then
      allocWhole current prev it
    else
      allocFront current (roundUp size) prev it

/-- The loop of `range_allocator_free`: the first range that does not end at or before `addr`, and the
    one before it. -/
def findGap (addr size : Nat) : Nat → Nat → Nat → Kernel Vm (Nat × Nat)
  | 0, _, _ => throw .hang
  | n + 1, prev, it => do
      if it = 0 then
        return (prev, it)
      else
        let itSize ← load32 it
        if (it + itSize) % wordSize ≤ addr then
          assert ((it + itSize) % wordSize ≤ addr ∨ (addr + size) % wordSize ≤ it)
          let next ← load32 (nextField it)
          findGap addr size n it next
        else
          return (prev, it)

/-- The end of a range, `(uintptr_t)range + range->size`. -/
def rangeEnd (range : Nat) : Kernel (RangeState P) Nat := do
  let size ← onVm (load32 range)
  return (range + size) % wordSize

/-- `range && (uintptr_t)range + range->size == addr`. -/
def endsAt (range addr : Nat) : Kernel (RangeState P) Bool := do
  if range = 0 then
    return false
  else
    return decide ((← rangeEnd range) = addr)

/-- The range `prev` takes in the range `it` when it ends where `it` starts. -/
def fillGap (prev it : Nat) : Kernel (RangeState P) Unit := do
  let prevEnd ← rangeEnd prev
  if it ≠ 0 ∧ prevEnd = it then
    let prevSize ← onVm (load32 prev)
    let itSize ← onVm (load32 it)
    onVm (store32 prev ((prevSize + itSize) % wordSize))
    let next ← onVm (load32 (nextField it))
    onVm (store32 (nextField prev) next)
    onVm (pagingUnmap it sizeofRange)
  else
    return ()

/-- The case of `range_allocator_free` in which the block follows the range `prev`. -/
def freeAfter (current : P) (size prev it : Nat) : Kernel (RangeState P) (Except Errno Unit) := do
  let prevSize ← onVm (load32 prev)
  onVm (store32 prev ((prevSize + size) % wordSize))
  fillGap prev it
  unlockAndReturn current (.ok ())

/-- The case of `range_allocator_free` in which the block precedes the range `it`. -/
def freeBefore (current : P) (addr size prev it : Nat) :
    Kernel (RangeState P) (Except Errno Unit) := do
  match ← onVm (pagingCopyMapping addr it sizeofRange PAGE_WRITE) with
  | .error e => unlockAndReturn current (.error e)
  | .ok () => do
      let itSize ← onVm (load32 addr)
      onVm (store32 addr ((itSize + size) % wordSize))
      onVm (pagingUnmap it sizeofRange)
      linkRange prev it addr
      unlockAndReturn current (.ok ())

/-- `if (prev) ASSERT((uintptr_t)prev + prev->size < addr);`. -/
def assertBefore (prev addr : Nat) : Kernel (RangeState P) Unit := do
  if prev ≠ 0 then
    assert ((← rangeEnd prev) < addr)
  else
    return ()

/-- The case of `range_allocator_free` in which the block becomes a range of its own. -/
def freeAlone (current : P) (addr size prev it : Nat) :
    Kernel (RangeState P) (Except Errno Unit) := do
  assertBefore prev addr
  assert (it = 0 ∨ (addr + size) % wordSize < it)
  match ← onVm (pagingMapToFreePages addr sizeofRange PAGE_WRITE) with
  | .error e => unlockAndReturn current (.error e)
  | .ok () => do
      onVm (store32 addr size)
      onVm (store32 (nextField addr) it)
      setLink prev addr
      unlockAndReturn current (.ok ())

/-- `range_allocator_free`. -/
def rangeAllocatorFree (current : P) (addr size : Nat) :
    Kernel (RangeState P) (Except Errno Unit) := do
  assert (addr % PAGE_SIZE = 0)
  assert ((← get).allocator.ranges ≠ 0)
  let size := roundUp size
  let a := (← get).allocator
  if addr < a.start ∨ a.finish < (addr + size) % wordSize then
    return .error .EINVAL
  else
    rangeLock current
    let (prev, it) ← onVm (findGap addr size wordSize 0 (← get).allocator.ranges)
    if ← endsAt prev addr then
      freeAfter current size prev it
    else if it ≠ 0 ∧ it = (addr + size) % wordSize then
      freeBefore current addr size prev it
    else
      freeAlone current addr size prev it

/-! ### The allocator and its callers -/

/-- The allocator, and the blocks that its callers have and have not given back. -/
structure RangeHistory (P : Type) where
  state : RangeState P
  blocks : List Segment

/-- The calls of the two functions, and whatever else the kernel does. -/
inductive RangeEvent (P : Type) where
  | alloc (current : P) (size : Nat) (result : Except Errno Nat)
  | free (current : P) (addr size : Nat) (result : Except Errno Unit)
  | client

namespace RangeHistory

/-- A page of the address space that the allocator manages and that is in no block. -/
def OwnPage (s : RangeHistory P) (page : Nat) : Prop :=
  s.state.allocator.start ≤ page * PAGE_SIZE ∧ page * PAGE_SIZE < s.state.allocator.finish ∧
    coverage s.blocks (page * PAGE_SIZE) = 0

/-- A block that is outstanding, given back with its size and with its pages unmapped. -/
def Returns (s : RangeHistory P) (addr size : Nat) : Prop :=
  size < wordSize ∧ (addr, roundUp size) ∈ s.blocks ∧
    ∀ page, addr ≤ page * PAGE_SIZE → page * PAGE_SIZE < addr + roundUp size →
      s.state.vm.frameOf page = none

end RangeHistory

/-- The rest of the kernel maps, unmaps and writes what it likes, except for the pages that belong to
    the allocator and the frames behind them. -/
structure ClientKeeps (s s' : RangeHistory P) : Prop where
  allocator : s'.state.allocator = s.state.allocator
  blocks : s'.blocks = s.blocks
  pages : PagesOk s'.state.vm.pages
  frameOf : ∀ page, s.OwnPage page → s'.state.vm.frameOf page = s.state.vm.frameOf page
  ram : ∀ page frame, s.OwnPage page → s.state.vm.frameOf page = some frame →
    s'.state.vm.ram frame = s.state.vm.ram frame
  held : ∀ page frame, s.OwnPage page → s.state.vm.frameOf page = some frame →
    s.state.vm.pages.Held frame 1 → s'.state.vm.pages.Held frame 1

/-- The calls that return, in any order and by any process, and the rest of the kernel between them. A
    block whose `range_allocator_free` fails stays outstanding. -/
inductive RangeStep : RangeHistory P → RangeEvent P → RangeHistory P → Prop where
  | alloc {s : RangeHistory P} (current : P) (size addr : Nat) (state : RangeState P) :
      size < wordSize → rangeAllocatorAlloc current size s.state = .ok (.ok addr, state) →
      RangeStep s (.alloc current size (.ok addr))
        { state := state, blocks := (addr, roundUp size) :: s.blocks }
  | allocFails {s : RangeHistory P} (current : P) (size : Nat) (e : Errno) (state : RangeState P) :
      size < wordSize → rangeAllocatorAlloc current size s.state = .ok (.error e, state) →
      RangeStep s (.alloc current size (.error e)) { s with state := state }
  | free {s : RangeHistory P} (current : P) (addr size : Nat) (state : RangeState P) :
      s.Returns addr size → rangeAllocatorFree current addr size s.state = .ok (.ok (), state) →
      RangeStep s (.free current addr size (.ok ()))
        { state := state, blocks := s.blocks.erase (addr, roundUp size) }
  | freeFails {s : RangeHistory P} (current : P) (addr size : Nat) (e : Errno)
      (state : RangeState P) :
      s.Returns addr size → rangeAllocatorFree current addr size s.state = .ok (.error e, state) →
      RangeStep s (.free current addr size (.error e)) { s with state := state }
  | client {s s' : RangeHistory P} : ClientKeeps s s' → RangeStep s .client s'

/-- The allocator from a `range_allocator_init` that succeeds. -/
def rangeSystem (P : Type) [DecidableEq P] (start finish : Nat) (vm : Vm) :
    TransitionSystem (RangeHistory P) (RangeEvent P) where
  init s := ∃ allocator, s.blocks = [] ∧
    rangeAllocatorInit start finish { allocator := allocator, vm := vm } = .ok (.ok (), s.state)
  step := RangeStep

end Chaotix
