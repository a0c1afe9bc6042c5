/-
Module: Chaotix.Kernel.CommandLine
Layer: Kernel
Purpose: `cmdline.c` over byte memory. `raw` and `buf` are addresses, and a store behind the end of `keys` faults. What
  `kprintf` prints is left out.
Imports: Mathlib.Logic.Function.Basic, Chaotix.Kernel.CString
Trusted boundary: human-reviewed model of `kernel/cmdline.c`
Main exports: Cmdline.Statics, Cmdline.Table, cmdlineInit, cmdlineLookup, cmdlineContains
-/
import Mathlib.Logic.Function.Basic
import Chaotix.Kernel.CString

namespace Chaotix

namespace Cmdline

open CString

/-- `MAX_CMDLINE_LEN`. -/
abbrev MAX_CMDLINE_LEN : Nat := 1024

/-- `MAX_NUM_KEYS`. -/
abbrev MAX_NUM_KEYS : Nat := 1024

/-- Where `raw`, `buf` and the string of `sep` are. -/
structure Statics where
  raw : Nat
  buf : Nat
  sep : Nat

/-- `num_keys`, `keys` and `values`. -/
structure Table where
  numKeys : Nat := 0
  keys : Nat → Nat := fun _ => 0
  values : Nat → Option Nat := fun _ => none

/-- `values[num_keys]`, after the token is stored. -/
def readValue (mem : Memory) (token : Nat) (value : Option Nat) : Except Stop (Option Nat) := do
  let nextEqual ← strchr mem token 0x3d
  let nextSpace ← strchr mem token 0x20
  match nextEqual with
  | none => return value
  | some equal => return if nextSpace.all (equal < ·) then some (equal + 1) else value

/-- The loop over the tokens, with `token` and `saved_ptr`. -/
def tokenLoop (sep : Nat) (mem : Memory) (t : Table) (token saved : Option Nat) : Except Stop (Memory × Table) :=
  match token with
  | none => .ok (mem, t)
  | some token =>
      if t.numKeys < MAX_NUM_KEYS then do
        let value ← readValue mem token (t.values t.numKeys)
        let next ← strtokR mem none sep saved
        tokenLoop sep next.mem
          { numKeys := t.numKeys + 1
            keys := Function.update t.keys t.numKeys token
            values := Function.update t.values t.numKeys value }
          next.token next.last
      else .error .fault
termination_by MAX_NUM_KEYS - t.numKeys

/-- `*p = 0`, where `p` is not `NULL`. -/
def terminate (mem : Memory) (p : Option Nat) : Memory :=
  match p with
  | none => mem
  | some a => Function.update mem a 0

/-- The body of the loop that terminates keys. -/
def terminateKey (mem : Memory) (key : Nat) (value : Option Nat) : Except Stop Memory := do
  let space ← strchr mem key 0x20
  let mem := terminate mem space
  if value.isSome then
    let equal ← strchr mem key 0x3d
    return terminate mem equal
  else
    return mem

/-- The loop that terminates keys. -/
def terminateLoop (t : Table) (i : Nat) (mem : Memory) : Except Stop Memory :=
  if i < t.numKeys then do
    let mem ← terminateKey mem (t.keys i) (t.values i)
    terminateLoop t (i + 1) mem
  else .ok mem
termination_by t.numKeys - i

/-- `cmdline_init`, from the string `str` on. -/
def cmdlineRead (st : Statics) (str : Nat) (mem : Memory) (t : Table) : Except Stop (Memory × Table) := do
  let (_, mem) ← strlcpy mem st.raw str MAX_CMDLINE_LEN
  let (_, mem) ← strlcpy mem st.buf str MAX_CMDLINE_LEN
  -- `saved_ptr` is not read by the first call
  let first ← strtokR mem (some st.buf) st.sep none
  let (mem, t) ← tokenLoop st.sep first.mem t first.token first.last
  let mem ← terminateLoop t 0 mem
  return (mem, t)

/-- `cmdline_init`. The field `mb_info->cmdline` is there when its flag is set. -/
def cmdlineInit (st : Statics) (cmdline : Option Nat) (mem : Memory) (t : Table) : Except Stop (Memory × Table) :=
  match cmdline with
  | none => .ok (mem, t)
  | some cmdline => cmdlineRead st ((cmdline + KERNEL_VADDR) % wordSize) mem t

/-- The loop of `cmdline_lookup` and `cmdline_contains`: the first key that is the same string. -/
def keyLoop {α : Type} (mem : Memory) (t : Table) (key : Nat) (found : Nat → α) (missing : α) (i : Nat) :
    Except Stop α :=
  if i < t.numKeys then do
    let order ← strcmp mem (t.keys i) key
    if order = 0 then return found i else keyLoop mem t key found missing (i + 1)
  else .ok missing
termination_by t.numKeys - i

/-- `cmdline_lookup`. -/
def cmdlineLookup (mem : Memory) (t : Table) (key : Nat) : Except Stop (Option Nat) :=
  if t.numKeys = 0 then .ok none else keyLoop mem t key t.values none 0

/-- `cmdline_contains`. -/
def cmdlineContains (mem : Memory) (t : Table) (key : Nat) : Except Stop Bool :=
  if t.numKeys = 0 then .ok false else keyLoop mem t key (fun _ => true) false 0

end Cmdline

end Chaotix
