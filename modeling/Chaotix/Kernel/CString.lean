/-
Module: Chaotix.Kernel.CString
Layer: Kernel
Purpose: `common/string.c` over byte memory. A loop that goes on until a zero faults where it has passed all addresses.
  The instructions `rep stos` and `rep movs` are repeated stores and moves, whose addresses wrap.
Imports: Mathlib.Logic.Function.Basic, Chaotix.Lib.ByteMem, Chaotix.Kernel.Base
Trusted boundary: human-reviewed model of `common/string.c`
Main exports: memset, memcpy, memmove, strcmp, strncmp, strlen, strcpy, strlcpy, strcat, strncat, strchr, strrchr,
  strtokR, strstr
-/
import Mathlib.Logic.Function.Basic
import Chaotix.Lib.ByteMem
import Chaotix.Kernel.Base

namespace Chaotix

namespace CString

/-- The bytes of the address space. -/
abbrev Memory := Nat → UInt8

/-- `alignof(uint32_t)` and `sizeof(uint32_t)`. -/
abbrev sizeofWord : Nat := 4

/-! ### Blocks of bytes -/

/-- `rep stosb`. -/
def repStosb (mem : Memory) (dest : Nat) (a : UInt8) : Nat → Memory
  | 0 => mem
  | n + 1 => repStosb (Function.update mem dest a) ((dest + 1) % wordSize) a n

/-- `rep stosl`, at an aligned address. -/
def repStosl (mem : Memory) (dest : Nat) (a : BitVec 32) : Nat → Memory
  | 0 => mem
  | n + 1 => repStosl (writeBytes mem dest (wordBytes a.toNat)) ((dest + sizeofWord) % wordSize) a n

/-- `memset`. -/
def memset (mem : Memory) (s : Nat) (c : BitVec 32) (n : Nat) : Memory :=
  if s &&& (sizeofWord - 1) = 0 ∧ sizeofWord ≤ n then
    let nd := n / sizeofWord
    let d := c <<< 24 ||| c <<< 16 ||| c <<< 8 ||| c
    let filled := repStosl mem s d nd
    let n := n - sizeofWord * nd
    if n = 0 then filled
    else repStosb filled ((s + sizeofWord * nd) % wordSize) (UInt8.ofNat c.toNat) n
  else repStosb mem s (UInt8.ofNat c.toNat) n

/-- `rep movsb`. -/
def repMovsb (mem : Memory) (dest src : Nat) : Nat → Memory
  | 0 => mem
  | n + 1 => repMovsb (Function.update mem dest (mem src)) ((dest + 1) % wordSize) ((src + 1) % wordSize) n

/-- `rep movsl`, between aligned addresses. -/
def repMovsl (mem : Memory) (dest src : Nat) : Nat → Memory
  | 0 => mem
  | n + 1 =>
      let word := (List.range sizeofWord).map fun i => mem (src + i)
      repMovsl (writeBytes mem dest word) ((dest + sizeofWord) % wordSize) ((src + sizeofWord) % wordSize) n

/-- `memcpy`. -/
def memcpy (mem : Memory) (dest src n : Nat) : Memory :=
  if (dest &&& (sizeofWord - 1) = 0 ∧ src &&& (sizeofWord - 1) = 0) ∧ sizeofWord ≤ n then
    let nd := n / sizeofWord
    let copied := repMovsl mem dest src nd
    let n := n - sizeofWord * nd
    if n = 0 then copied
    else repMovsb copied ((dest + sizeofWord * nd) % wordSize) ((src + sizeofWord * nd) % wordSize) n
  else repMovsb mem dest src n

/-- `memmove`. Its own loop begins with the last byte. -/
def memmove (mem : Memory) (dest src n : Nat) : Memory :=
  if n ≤ wordSub dest src then memcpy mem dest src n else copyBackward n mem dest src

/-! ### Strings -/

/-- `strcmp`. -/
def strcmp (mem : Memory) (s1 s2 : Nat) : Except Stop Int :=
  if s1 < wordSize ∧ s2 < wordSize then
    if mem s1 = mem s2 then
      if mem s1 = 0 then .ok 0 else strcmp mem (s1 + 1) (s2 + 1)
    else .ok (if charValue (mem s1) < charValue (mem s2) then -1 else 1)
  else .error .fault
termination_by wordSize - s1

/-- `strncmp`. -/
def strncmp (mem : Memory) (s1 s2 : Nat) : Nat → Except Stop Int
  | 0 => .ok 0
  | n + 1 =>
      if s1 < wordSize ∧ s2 < wordSize then
        if mem s1 ≠ mem s2 then .ok ((mem s1).toNat - (mem s2).toNat)
        else if mem s1 = 0 then .ok 0
        else strncmp mem (s1 + 1) (s2 + 1) n
      else .error .fault

/-- The loop of `strlen`, and the last loop of `strlcpy`. -/
def countFrom (mem : Memory) (str len : Nat) : Except Stop Nat :=
  if str < wordSize then
    if mem str = 0 then .ok len else countFrom mem (str + 1) (len + 1)
  else .error .fault
termination_by wordSize - str

/-- `strlen`. -/
def strlen (mem : Memory) (str : Nat) : Except Stop Nat := countFrom mem str 0

/-- `strcpy`. -/
def strcpy (mem : Memory) (dest src : Nat) : Except Stop Memory :=
  if src < wordSize then
    if mem src = 0 then .ok mem else strcpy (Function.update mem dest (mem src)) (dest + 1) (src + 1)
  else .error .fault
termination_by wordSize - src

/-- The first loop of `strlcpy`: the memory, `dst`, `src` and `len` after it. -/
def strlcpyLoop (mem : Memory) (dst src size len : Nat) : Except Stop (Memory × Nat × Nat × Nat) :=
  if len + 1 < size then
    if src < wordSize then
      if mem src = 0 then .ok (mem, dst, src, len)
      else strlcpyLoop (Function.update mem dst (mem src)) (dst + 1) (src + 1) size (len + 1)
    else .error .fault
  else .ok (mem, dst, src, len)
termination_by size - len

/-- `strlcpy`. -/
def strlcpy (mem : Memory) (dst src size : Nat) : Except Stop (Nat × Memory) := do
  let (mem, dst, src, len) ← strlcpyLoop mem dst src size 0
  let mem := if size > 0 then Function.update mem dst 0 else mem
  let len ← countFrom mem src len
  return (len, mem)

/-- The loop of `strcat`, and of `strncat` with a bound on `i`: the memory and `i` after it. -/
def appendLoop (mem : Memory) (dest src : Nat) (n : Option Nat) (i : Nat) : Except Stop (Memory × Nat) :=
  if n = some i then .ok (mem, i)
  else if src + i < wordSize then
    if mem (src + i) = 0 then .ok (mem, i)
    else appendLoop (Function.update mem (dest + i) (mem (src + i))) dest src n (i + 1)
  else .error .fault
termination_by wordSize - (src + i)

/-- `strcat`. -/
def strcat (mem : Memory) (dest src : Nat) : Except Stop Memory := do
  let destLen ← strlen mem dest
  let (mem, i) ← appendLoop mem (dest + destLen) src none 0
  return Function.update mem (dest + destLen + i) 0

/-- `strncat`. -/
def strncat (mem : Memory) (dest src n : Nat) : Except Stop Memory := do
  let destLen ← strlen mem dest
  let (mem, i) ← appendLoop mem (dest + destLen) src (some n) 0
  return Function.update mem (dest + destLen + i) 0

/-- `strchr`. -/
def strchr (mem : Memory) (str : Nat) (ch : Int) : Except Stop (Option Nat) :=
  if str < wordSize then
    if mem str = 0 then .ok none
    else if charValue (mem str) = ch then .ok (some str)
    else strchr mem (str + 1) ch
  else .error .fault
termination_by wordSize - str

/-- The loop of `strrchr`, with `last`. -/
def strrchrLoop (mem : Memory) (str : Nat) (ch : Int) (last : Option Nat) : Except Stop (Option Nat) :=
  if str < wordSize then
    if mem str = 0 then .ok last
    else strrchrLoop mem (str + 1) ch (if charValue (mem str) = ch then some str else last)
  else .error .fault
termination_by wordSize - str

/-- `strrchr`. -/
def strrchr (mem : Memory) (str : Nat) (ch : Int) : Except Stop (Option Nat) := strrchrLoop mem str ch none

/-- `strstr`. -/
def strstr (mem : Memory) (str substr : Nat) : Except Stop (Option Nat) :=
  if str < wordSize then
    if mem str = 0 then .ok none
    else
      match strcmp mem str substr with
      | .error e => .error e
      | .ok order => if order = 0 then .ok (some str) else strstr mem (str + 1) substr
  else .error .fault
termination_by wordSize - str

/-! ### Tokens -/

/-- A loop of `strtok_r`: the first address at which the string ends, or a character stands that is a separator or,
    where `separator` is false, one that is none. -/
def strtokLoop (mem : Memory) (sep : Nat) (separator : Bool) (str : Nat) : Except Stop Nat :=
  if str < wordSize then
    if mem str = 0 then .ok str
    else
      match strchr mem sep (charValue (mem str)) with
      | .error e => .error e
      | .ok found => if found.isSome = separator then .ok str else strtokLoop mem sep separator (str + 1)
  else .error .fault
termination_by wordSize - str

/-- What `strtok_r` leaves: its result, `*last`, and the memory. -/
structure Strtok where
  token : Option Nat
  last : Option Nat
  mem : Memory

/-- `strtok_r`. -/
def strtokR (mem : Memory) (str : Option Nat) (sep : Nat) (last : Option Nat) : Except Stop Strtok :=
  match str.or last with
  | none => .ok ⟨none, last, mem⟩
  | some str => do
      let str ← strtokLoop mem sep false str
      if mem str = 0 then return ⟨none, none, mem⟩
      let stop ← strtokLoop mem sep true str
      return ⟨some str, if mem stop ≠ 0 then some (stop + 1) else none, Function.update mem stop 0⟩

end CString

end Chaotix
