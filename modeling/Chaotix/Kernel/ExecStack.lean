/-
Module: Chaotix.Kernel.ExecStack
Layer: Kernel
Purpose: The initial stack of a program: how `sys_execve` copies the argument and environment strings into the
  kernel and pushes them on the user stack. Addresses and sizes are words, and differences wrap. Each byte
  that is pushed is recorded with its address; a byte outside the stack is written and recorded like any
  other. A string in C is its characters without the terminating zero.
Imports: Chaotix.Lib.ByteMem, Chaotix.Kernel.Base
Trusted boundary: human-reviewed model of `string_list_create`, `push_value`, `push_strings` and `push_ptrs` of
  `kernel/syscall/exec.c`, of the part of `sys_execve` that calls them, and of `next_power_of_two` of
  `common/extra.h`
Main exports: CString, StringList, stringListCreate, nextPowerOfTwo, UserStack, pushValue, pushStrings, pushPtrs,
  pushArguments, execArguments
-/
import Chaotix.Lib.ByteMem
import Chaotix.Kernel.Base

namespace Chaotix

/-- A string in C: its characters, none of which is zero. -/
structure CString where
  chars : List UInt8
  noNul : ∀ c ∈ chars, c ≠ 0

/-- `strlen(str) + 1`. -/
def CString.size (str : CString) : Nat := str.chars.length + 1

/-! ### Copies of the strings -/

/-- `string_list`: the characters in one block, and where each string starts in it. -/
structure StringList where
  buf : List UInt8
  elements : List Nat

/-- What `strlcpy(dst, src, size)` writes for a `size` above zero. -/
def strlcpyBytes (src : List UInt8) (size : Nat) : List UInt8 := src.take (size - 1) ++ [0]

/-- The loop of `string_list_create`, with a block of `blockSize` bytes of which `buf` have been written. A
    write behind the block is a fault. -/
def stringListCopy (blockSize : Nat) : List CString → List UInt8 → List Nat → Except Stop StringList
  | [], buf, elements => .ok { buf := buf, elements := elements }
  | str :: strs, buf, elements =>
      if blockSize < buf.length + str.size then .error .fault
      else
        stringListCopy blockSize strs (buf ++ strlcpyBytes str.chars str.size) (elements ++ [buf.length])

/-- `string_list_create`. The size of the block is a sum of words, and `allocated` says whether there is memory
    for both blocks. -/
def stringListCreate (src : List CString) (allocated : Bool) : Except Stop (Except Errno StringList) :=
  let totalSize := (src.map CString.size).sum % wordSize
  if src.length = 0 then .ok (.ok { buf := [], elements := [] })
  else if !allocated then .ok (.error .ENOMEM)
  else (stringListCopy totalSize src [] []).map .ok

/-- The string that starts at an offset of a block. -/
def cStringAt (buf : List UInt8) (offset : Nat) : List UInt8 := (buf.drop offset).takeWhile (· != 0)

/-! ### Pushing -/

/-- `__builtin_clz` on a word that is not zero. -/
def clz (x : Nat) : Nat := 31 - Nat.log2 x

/-- `next_power_of_two`. -/
def nextPowerOfTwo (x : Nat) : Nat := if x ≤ 1 then 1 else ((wordSize - 1) >>> clz (x - 1) + 1) % wordSize

/-- The stack pointer and the memory, and the addresses of the bytes that have been pushed. -/
structure UserStack where
  sp : Nat
  mem : Nat → UInt8
  writes : List Nat

/-- Write bytes from an address on; addresses wrap. -/
def storeAt (mem : Nat → UInt8) (a : Nat) (bs : List UInt8) : Nat → UInt8 :=
  if a + bs.length ≤ wordSize then writeBytes mem a bs
  else writeBytes (writeBytes mem a (bs.take (wordSize - a))) 0 (bs.drop (wordSize - a))

namespace UserStack

/-- Move the stack pointer and write bytes there. -/
def pushAt (s : UserStack) (sp : Nat) (bs : List UInt8) : UserStack :=
  { sp := sp
    mem := storeAt s.mem sp bs
    writes := s.writes ++ (List.range bs.length).map fun i => (sp + i) % wordSize }

end UserStack

/-- `push_value`. -/
def pushValue (stackBase value : Nat) : Kernel UserStack (Except Errno Unit) := do
  let s ← get
  if wordSub s.sp 4 < stackBase then
    return .error .E2BIG
  set (s.pushAt (wordSub s.sp 4) (wordBytes value))
  return .ok ()

/-- The loop of `push_strings`: the strings from index `i` on, with the pointers recorded so far. -/
def pushStringsLoop (stackBase : Nat) (buf : List UInt8) :
    List Nat → Nat → List Nat → Kernel UserStack (Except Errno (List Nat))
  | [], _, ptrs => return .ok ptrs
  | element :: elements, i, ptrs => do
      let str := cStringAt buf element
      let size := str.length + 1
      let s ← get
      if wordSub s.sp size < stackBase then
        return .error .E2BIG
      let sp := wordSub s.sp (nextPowerOfTwo size)
      set (s.pushAt sp (strlcpyBytes str size))
      pushStringsLoop stackBase buf elements (i + 1) (ptrs.set (ptrs.length - i - 1) sp)

/-- `push_strings`, where `allocated` says whether there is memory for the pointers. -/
def pushStrings (stackBase : Nat) (strings : StringList) (allocated : Bool) :
    Kernel UserStack (Except Errno (List Nat)) := do
  if strings.elements.length = 0 then
    return .ok []
  if !allocated then
    return .error .ENOMEM
  pushStringsLoop stackBase strings.buf strings.elements 0 (List.replicate strings.elements.length 0)

/-- `push_ptrs`. -/
def pushPtrs (stackBase : Nat) : List Nat → Kernel UserStack (Except Errno Unit)
  | [] => return .ok ()
  | ptr :: ptrs => do
      match ← pushValue stackBase ptr with
      | .error e => return .error e
      | .ok _ => pushPtrs stackBase ptrs

/-- A null pointer and an array of pointers below it; returns where the array starts. -/
def pushArray (stackBase : Nat) (ptrs : List Nat) : Kernel UserStack (Except Errno Nat) := do
  match ← pushValue stackBase 0 with
  | .error e => return .error e
  | .ok _ =>
      match ← pushPtrs stackBase ptrs with
      | .error e => return .error e
      | .ok _ => return .ok (← get).sp

/-- The two arrays and the frame of `_start`. -/
def pushFrame (stackBase argc : Nat) (envpPtrs argvPtrs : List Nat) : Kernel UserStack (Except Errno Unit) := do
  match ← pushArray stackBase envpPtrs with
  | .error e => return .error e
  | .ok userEnvp =>
      match ← pushArray stackBase argvPtrs with
      | .error e => return .error e
      | .ok userArgv =>
          modify fun s => { s with sp := s.sp / 16 * 16 }
          pushPtrs stackBase [userEnvp, userArgv, argc, 0]

/-- The part of `sys_execve` that fills the stack above `stackBase`. -/
def pushArguments (stackBase : Nat) (envpAllocated argvAllocated : Bool) (copiedEnvp copiedArgv : StringList) :
    Kernel UserStack (Except Errno Unit) := do
  set
    { sp := stackBase + STACK_SIZE
      mem := writeBytes (← get).mem stackBase (List.replicate STACK_SIZE 0)
      writes := [] : UserStack }
  match ← pushStrings stackBase copiedEnvp envpAllocated with
  | .error e => return .error e
  | .ok envpPtrs =>
      match ← pushStrings stackBase copiedArgv argvAllocated with
      | .error e => return .error e
      | .ok argvPtrs => pushFrame stackBase copiedArgv.elements.length envpPtrs argvPtrs

/-- Whether there is memory for the copies of the strings and for the lists of their pointers. -/
structure ExecMemory where
  argvCopy : Bool
  envpCopy : Bool
  envpPtrs : Bool
  argvPtrs : Bool

/-- What `sys_execve` does with its arguments, once the stack above `stackBase` has been mapped: the strings
    have been copied before, `argv` first. -/
def execArguments (stackBase : Nat) (memory : ExecMemory) (argv envp : List CString) :
    Kernel UserStack (Except Errno Unit) := do
  modify fun s => { s with writes := [] }
  match stringListCreate argv memory.argvCopy with
  | .error stop => throw stop
  | .ok (.error e) => return .error e
  | .ok (.ok copiedArgv) =>
      match stringListCreate envp memory.envpCopy with
      | .error stop => throw stop
      | .ok (.error e) => return .error e
      | .ok (.ok copiedEnvp) => pushArguments stackBase memory.envpPtrs memory.argvPtrs copiedEnvp copiedArgv

end Chaotix
