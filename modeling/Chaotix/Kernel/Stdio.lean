/-
Module: Chaotix.Kernel.Stdio
Layer: Kernel
Purpose: `vsnprintf`, over any way to store a byte at a place of its buffer. The format is read as the list of the bytes
  that are still to come, the terminator included; reading on behind the terminator is a fault, because no string is
  there. Each round of the loop reads its part of the format before it stores anything, so a round is split into the
  directive that it reads and what it does for it. The `size_t` that is returned stands for the `int`.
Imports: Mathlib.Logic.Function.Basic, Chaotix.Lib.Numeral, Chaotix.Kernel.Base, Chaotix.Kernel.ExecStack
Trusted boundary: human-reviewed model of `itoa` and `vsnprintf` of `common/stdio.c`
Main exports: Arg, Directive, itoa, readDirective, vsnprintf, PrintBuffer, storeAt
-/
import Mathlib.Logic.Function.Basic
import Chaotix.Lib.Numeral
import Chaotix.Kernel.Base
import Chaotix.Kernel.ExecStack

namespace Chaotix

namespace Stdio

/-! ### Numbers -/

/-- The first loop of `itoa`, with `num_buf` and `c`. -/
def itoaDigits (radix : Nat) : Nat → Nat → (Nat → UInt8) → Nat → (Nat → UInt8) × Nat
  | 0, _, numBuf, c => (numBuf, c)
  | fuel + 1, uvalue, numBuf, c =>
      let mod := uvalue % radix
      let numBuf := Function.update numBuf c (if mod < 10 then UInt8.ofNat (mod + 48) else UInt8.ofNat (mod - 10 + 97))
      if uvalue / radix = 0 then (numBuf, c + 1) else itoaDigits radix fuel (uvalue / radix) numBuf (c + 1)

/-- `itoa`, with the `strlen` of what it leaves in `num_buf`: no digit is zero. A word has at most 32 digits. -/
def itoa (value : BitVec 32) (radix : Nat) : (Nat → UInt8) × Nat :=
  let negative := radix = 10 ∧ value.toInt < 0
  let numBuf : Nat → UInt8 := fun _ => 0
  let (numBuf, str, uvalue) :=
    if negative then (Function.update numBuf 0 45, 1, (-value).toNat) else (numBuf, 0, value.toNat)
  let (numBuf, c) := itoaDigits radix 32 uvalue numBuf str
  (reverseLoop 32 str (c - 1) numBuf, c)

/-- The characters of `num_buf`. -/
def itoaText (value : BitVec 32) (radix : Nat) : List UInt8 :=
  let (numBuf, len) := itoa value radix
  (List.range len).map numBuf

/-! ### Reading the format -/

/-- What `va_arg` finds: a word, or a pointer to a string that can be `NULL`. -/
inductive Arg where
  | int (value : BitVec 32)
  | str (str : Option CString)

/-- What one round of the loop reads of the format. `ch` is the last character of a conversion, and `prefixed` is
    `*format == 'x'` behind it. -/
inductive Directive where
  | finish
  | char (ch : UInt8)
  | character
  | number (pad0 : Bool) (padLen : Nat) (ch : UInt8) (prefixed : Bool)
  | string
  | unknown
deriving DecidableEq, Repr

/-- `*format++`. -/
def readChar : List UInt8 → Except Stop (UInt8 × List UInt8)
  | [] => .error .fault
  | ch :: format => .ok (ch, format)

/-- A conversion from its last character on. -/
def readConversion (pad0 : Bool) (padLen : Nat) (ch : UInt8) (format : List UInt8) :
    Except Stop (Directive × List UInt8) :=
  if ch = 99 then .ok (.character, format)
  else if ch = 100 ∨ ch = 105 ∨ ch = 117 ∨ ch = 120 ∨ ch = 35 then
    match readChar format with
    | .error e => .error e
    | .ok (next, rest) =>
        if next = 120 then .ok (.number pad0 padLen ch true, rest) else .ok (.number pad0 padLen ch false, format)
  else if ch = 115 then .ok (.string, format)
  else .ok (.unknown, format)

/-- A conversion from its width on. -/
def readWidth (pad0 : Bool) (ch : UInt8) (format : List UInt8) : Except Stop (Directive × List UInt8) :=
  if 48 ≤ ch ∧ ch ≤ 57 then
    match readChar format with
    | .error e => .error e
    | .ok (next, format) => readConversion pad0 (ch.toNat - 48) next format
  else readConversion pad0 0 ch format

/-- What a round reads: up to the end of the format, a character, or a conversion. -/
def readDirective (format : List UInt8) : Except Stop (Directive × List UInt8) :=
  match readChar format with
  | .error e => .error e
  | .ok (ch, format) =>
      if ch = 0 then .ok (.finish, format)
      else if ch ≠ 37 then .ok (.char ch, format)
      else
        match readChar format with
        | .error e => .error e
        | .ok (ch, format) =>
            if ch = 37 then .ok (.char 37, format)
            else if ch = 48 then
              match readChar format with
              | .error e => .error e
              | .ok (ch, format) => readWidth true ch format
            else readWidth false ch format

/-! ### Storing the output -/

section Output

variable {σ : Type} (store : Nat → UInt8 → Kernel σ Unit) (size : Nat)

/-- `buffer[idx++] = ch; if (idx >= size) goto too_long;`, with the new `idx` and whether it jumps. -/
def putChar (idx : Nat) (ch : UInt8) : Kernel σ (Nat × Bool) := do
  store idx ch
  return (idx + 1, decide (size ≤ idx + 1))

/-- A loop that stores one character in each round. -/
def putChars : Nat → List UInt8 → Kernel σ (Nat × Bool)
  | idx, [] => return (idx, false)
  | idx, ch :: chs => do
      match ← putChar store size idx ch with
      | (idx, true) => return (idx, true)
      | (idx, false) => putChars idx chs

/-- The padding and the digits of a number. -/
def putNumber (idx : Nat) (pad0 : Bool) (padLen : Nat) (numBuf : List UInt8) : Kernel σ (Nat × Bool) := do
  match ← putChars store size idx (List.replicate (padLen - numBuf.length) (if pad0 then 48 else 32)) with
  | (idx, true) => return (idx, true)
  | (idx, false) => putChars store size idx numBuf

/-- `va_arg(args, int)`. -/
def vaArgInt : List Arg → Kernel σ (BitVec 32 × List Arg)
  | .int value :: args => return (value, args)
  | _ => throw .fault

/-- `va_arg(args, const char*)`. -/
def vaArgStr : List Arg → Kernel σ (Option CString × List Arg)
  | .str str :: args => return (str, args)
  | _ => throw .fault

/-- `"(null)"`. -/
def nullText : List UInt8 := [40, 110, 117, 108, 108, 41]

/-- What a round does for its directive, with the new `idx`, whether it jumps to `too_long`, and the arguments that are
    left. -/
def perform (directive : Directive) (args : List Arg) (idx : Nat) : Kernel σ ((Nat × Bool) × List Arg) :=
  match directive with
  | .finish => return ((idx, true), args)
  | .char ch => do return (← putChar store size idx ch, args)
  | .character => do
      let (value, args) ← vaArgInt args
      return (← putChar store size idx (UInt8.ofNat (value.toNat % 256)), args)
  | .number pad0 padLen _ true => do
      store idx 48
      store (idx + 1) 120
      if size ≤ idx + 2 then
        return ((idx + 2, true), args)
      else
        let (value, args) ← vaArgInt args
        return (← putNumber store size (idx + 2) pad0 padLen (itoaText value 16), args)
  | .number pad0 padLen ch false => do
      let (value, args) ← vaArgInt args
      return (← putNumber store size idx pad0 padLen (itoaText value (if ch = 120 then 16 else 10)), args)
  | .string => do
      let (str, args) ← vaArgStr args
      match str with
      | none => return (← putChars store size idx nullText, args)
      | some str => return (← putChars store size idx str.chars, args)
  | .unknown => do return (← putChar store size idx 63, args)

/-- The loop of `vsnprintf`, up to `too_long`: every round reads at least one byte of the format. -/
def vsnprintfLoop : Nat → List UInt8 → List Arg → Nat → Kernel σ Nat
  | 0, _, _, _ => throw .hang
  | fuel + 1, format, args, idx =>
      match readDirective format with
      | .error e => throw e
      | .ok (directive, format) => do
          match ← perform store size directive args idx with
          | ((idx, true), _) => return idx
          | ((idx, false), args) => vsnprintfLoop fuel format args idx

/-- `vsnprintf`. -/
def vsnprintf (format : List UInt8) (args : List Arg) : Kernel σ Nat := do
  if size = 0 then
    return 0
  else
    let idx ← vsnprintfLoop store size (format.length + 1) format args 0
    store (if idx < size then idx else size - 1) 0
    return idx

end Output

/-! ### A buffer in memory -/

/-- The memory at a buffer, by the distance from its start, and the places that have been stored to. -/
structure PrintBuffer where
  mem : Nat → UInt8
  written : List Nat := []

/-- A store at a place. -/
def storeAt (idx : Nat) (ch : UInt8) : Kernel PrintBuffer Unit :=
  modify fun b => { mem := Function.update b.mem idx ch, written := idx :: b.written }

end Stdio

end Chaotix
