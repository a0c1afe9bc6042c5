/-
Module: Chaotix.Userland.Environment
Layer: Userland
Purpose: `getenv`. The array `environ` is the list of its pointers in front of `NULL`.
Imports: Chaotix.Kernel.CString
Trusted boundary: human-reviewed model of `getenv` of `userland/lib/stdlib.c`
Main exports: getenv
-/
import Chaotix.Kernel.CString

namespace Chaotix

open CString

/-- `getenv`, from an element of `environ` on. -/
def getenv (mem : Memory) (name : Nat) : List Nat → Except Stop (Option Nat)
  | [] => .ok none
  | env :: rest => do
      match ← strchr mem env 0x3d with
      | none => getenv mem name rest
      | some s =>
          let len := s - env
          if len > 0 then
            let order ← strncmp mem env name len
            if order = 0 then return some (s + 1) else getenv mem name rest
          else getenv mem name rest

end Chaotix
