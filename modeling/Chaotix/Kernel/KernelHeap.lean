/-
Module: Chaotix.Kernel.KernelHeap
Layer: Kernel
Purpose: The kernel heap of `kernel/memory/kmalloc.c` with its range allocator, over the page directories. The list
  that the allocator keeps in the first page of each free range is a list of ranges here, in order of their
  addresses; the pages that it lies in are mapped and unmapped as the code does. The functions run under the lock
  of the allocator.
Imports: Chaotix.Lib.Segments, Chaotix.Kernel.PageDirectory
Trusted boundary: human-reviewed model of `kernel/memory/kmalloc.c`, and of `range_allocator_alloc` and
  `range_allocator_free` of `kernel/memory/range_allocator.c` for `kernel_vaddr_allocator`
Main exports: HeapState, rangeAllocatorAlloc, rangeAllocatorFree, kalignedAlloc, kmalloc, kfree,
  pagingCreatePageDirectory, pagingCloneCurrentPageDirectory, pagingDestroyCurrentPageDirectory
-/
import Chaotix.Lib.Segments
import Chaotix.Kernel.PageDirectory

namespace Chaotix

/-- The page directories, and the free ranges of `kernel_vaddr_allocator`. -/
structure HeapState where
  machine : Machine
  ranges : List Segment

namespace HeapState

/-- Run a function of the page directories. -/
def onMachine {α : Type} (f : Kernel Machine α) : Kernel HeapState α :=
  Program.focus HeapState.machine (fun machine s => { s with machine := machine }) f

/-- Write the list of free ranges. -/
def setRanges (ranges : List Segment) : Kernel HeapState Unit :=
  modify fun s => { s with ranges := ranges }

/-! ### The range allocator -/

/-- `sizeof(struct range)`. -/
abbrev sizeofRange : Nat := 8

/-- The address behind a range. -/
def rangeFinish (r : Segment) : Nat := (r.1 + r.2) % wordSize

/-- The walk of `range_allocator_alloc`: the ranges before the first one that is large enough, that one, and the
    ranges behind it. -/
def findFit (size : Nat) : List Segment → Option (List Segment × Segment × List Segment)
  | [] => none
  | r :: rest =>
      if r.2 < size then (findFit size rest).map fun (before, it, behind) => (r :: before, it, behind)
      else some ([], r, rest)

/-- `range_allocator_alloc`. -/
def rangeAllocatorAlloc (size : Nat) : Kernel HeapState (Except Errno Nat) := do
  let ranges := (← get).ranges
  assert (ranges ≠ [])
  match findFit (roundUp size) ranges with
  | none => return .error .ENOMEM
  | some (before, it, behind) =>
      if it.2 = roundUp size then
        setRanges (before ++ behind)
        onMachine (Machine.pagingUnmap it.1 sizeofRange)
        return .ok it.1
      else
        let addr := (it.1 + roundUp size) % wordSize
        match ← onMachine (Machine.pagingCopyMapping addr it.1 sizeofRange PAGE_WRITE) with
        | .error e => return .error e
        | .ok () => do
            onMachine (Machine.pagingUnmap it.1 sizeofRange)
            setRanges (before ++ (addr, it.2 - roundUp size) :: behind)
            return .ok it.1

/-- The walk of `range_allocator_free`: the ranges that end at or before the address, and the rest. -/
def findGap (addr : Nat) : List Segment → List Segment × List Segment
  | [] => ([], [])
  | r :: rest =>
      if rangeFinish r ≤ addr then
        let (before, behind) := findGap addr rest
        (r :: before, behind)
      else ([], r :: rest)

/-- The first case of `range_allocator_free`: the block lies right behind the range `prev`, and may fill the gap to
    the next one. -/
def freeAfter (size : Nat) (before : List Segment) (prev : Segment) (behind : List Segment) :
    Kernel HeapState (Except Errno Unit) := do
  let grown := (prev.1, prev.2 + size)
  match behind with
  | it :: rest =>
      if rangeFinish grown = it.1 then
        setRanges (before ++ (prev.1, prev.2 + size + it.2) :: rest)
        onMachine (Machine.pagingUnmap it.1 sizeofRange)
        return .ok ()
      else
        setRanges (before ++ grown :: behind)
        return .ok ()
  | [] => do
      setRanges (before ++ [grown])
      return .ok ()

/-- The second case of `range_allocator_free`: the block lies right before the range `it`, whose page is mapped at
    the start of the block. -/
def freeBefore (addr size : Nat) (before : List Segment) (it : Segment) (rest : List Segment) :
    Kernel HeapState (Except Errno Unit) := do
  match ← onMachine (Machine.pagingCopyMapping addr it.1 sizeofRange PAGE_WRITE) with
  | .error e => return .error e
  | .ok () => do
      onMachine (Machine.pagingUnmap it.1 sizeofRange)
      setRanges (before ++ (addr, it.2 + size) :: rest)
      return .ok ()

/-- The last case of `range_allocator_free`: the block becomes a range of its own. -/
def freeAlone (addr size : Nat) (before behind : List Segment) : Kernel HeapState (Except Errno Unit) := do
  assert (∀ prev ∈ before.getLast?, rangeFinish prev < addr)
  assert (∀ it ∈ behind.head?, (addr + size) % wordSize < it.1)
  match ← onMachine (Machine.pagingMapToFreePages addr sizeofRange PAGE_WRITE) with
  | .error e => return .error e
  | .ok () => do
      setRanges (before ++ (addr, size) :: behind)
      return .ok ()

/-- `range_allocator_free`. -/
def rangeAllocatorFree (addr size : Nat) : Kernel HeapState (Except Errno Unit) := do
  let ranges := (← get).ranges
  assert (addr % PAGE_SIZE = 0)
  assert (ranges ≠ [])
  let size := roundUp size
  if addr < KERNEL_HEAP_START ∨ KERNEL_HEAP_END < (addr + size) % wordSize then
    return .error .EINVAL
  else
    let (before, behind) := findGap addr ranges
    match before.getLast?, behind with
    | some prev, _ =>
        if rangeFinish prev = addr then freeAfter size before.dropLast prev behind
        else
          match behind with
          | it :: rest =>
              if it.1 = (addr + size) % wordSize then freeBefore addr size before it rest
              else freeAlone addr size before behind
          | [] => freeAlone addr size before behind
    | none, it :: rest =>
        if it.1 = (addr + size) % wordSize then freeBefore addr size before it rest
        else freeAlone addr size before behind
    | none, [] => freeAlone addr size before behind

/-! ### Blocks -/

/-- `alignof(max_align_t)`. -/
abbrev maxAlign : Nat := 16

/-- `kaligned_alloc`. -/
def kalignedAlloc (alignment size : Nat) : Kernel HeapState (Option Nat) := do
  if size = 0 then
    return none
  else
    assert (alignment ≤ PAGE_SIZE)
    let realSize := (Machine.dataOffset alignment + size) % wordSize
    match ← rangeAllocatorAlloc realSize with
    | .error _ => return none
    | .ok addr => do
        match ← onMachine (Machine.pagingMapToFreePages addr realSize (PAGE_WRITE ||| PAGE_GLOBAL)) with
        | .error _ => return none
        | .ok () => do
            modify fun s => { s with machine :=
              { s.machine with headers := Function.update s.machine.headers addr (some realSize) } }
            return some (addr + Machine.dataOffset alignment)

/-- `kmalloc`. -/
def kmalloc (size : Nat) : Kernel HeapState (Option Nat) := kalignedAlloc maxAlign size

/-- `kfree`, of a pointer that is not null. -/
def kfree (ptr : Nat) : Kernel HeapState Unit := do
  let header := Machine.headerAddr ptr
  match (← get).machine.headers header with
  | none => throw .panic
  | some size => do
      onMachine (Machine.pagingUnmap header size)
      modify fun s => { s with machine :=
        { s.machine with headers := Function.update s.machine.headers header none } }
      match ← rangeAllocatorFree header size with
      | .ok () => return ()
      | .error _ => throw .panic

/-! ### Page directories -/

/-- `paging_create_page_directory`. -/
def pagingCreatePageDirectory : Kernel HeapState (Except Errno Nat) := do
  match ← kalignedAlloc PAGE_SIZE PAGE_SIZE with
  | none => return .error .ENOMEM
  | some dst => do
      let m := (← get).machine
      let paddr ← onMachine (Machine.pagingVirtualToPhysicalAddr dst)
      onMachine (modify fun m' => m'.setDir dst
        (Function.update (Machine.kernelSlots m.currentDir) 1023 (some (paddr / PAGE_SIZE))))
      return .ok dst

/-- `paging_clone_current_page_directory`. It runs under `quickmap_lock`. -/
def pagingCloneCurrentPageDirectory : Kernel HeapState (Except Errno Nat) := do
  match ← pagingCreatePageDirectory with
  | .error e => return .error e
  | .ok dst => do
      match ← onMachine (Program.tryRange 0 KERNEL_PDE_IDX (Machine.cloneSlot dst)) with
      | .error e => return .error e
      | .ok () => return .ok dst

end HeapState

end Chaotix
