/-
Module: Chaotix.Kernel.Base
Layer: Kernel
Purpose: What all kernel modules share: the ways in which kernel code does not return, error numbers,
  the flags of descriptions, the page size, the 32-bit arithmetic of `common/extra.h`, and the value of a `char`.
  Machine words are natural numbers below `2 ^ 32`, and the operations that can wrap say so.
Imports: Mathlib.Algebra.Group.Int.Defs, Mathlib.Algebra.GroupWithZero.Nat, Chaotix.Lib.Program
Trusted boundary: human-reviewed model of `kernel/boot_defs.h`, `kernel/api/fcntl.h` and
  `common/extra.h`
Main exports: Stop, Kernel, Errno, HasFlag, wordSucc, wordPred, wordSub, roundUp, divCeil,
  charValue
-/
import Mathlib.Algebra.Group.Int.Defs
import Mathlib.Algebra.GroupWithZero.Nat
import Chaotix.Lib.Program

namespace Chaotix

/-- Why kernel code does not return: a failed `ASSERT` or a `PANIC`, an access to an unmapped address,
    or a wait for something that never comes. -/
inductive Stop where
  | panic
  | fault
  | hang
deriving DecidableEq, Repr

/-- Kernel code over a state. -/
abbrev Kernel (σ α : Type) := Program σ Stop α

/-- `ASSERT(c)`. -/
def assert {σ : Type} (c : Prop) [Decidable c] : Kernel σ Unit := Program.require c .panic

/-- The error numbers of `api/errno.h` that the modelled code returns, as `-EINVAL` and so on. -/
inductive Errno where
  | EPERM
  | ENOENT
  | EINTR
  | EBADF
  | ENOMEM
  | EEXIST
  | EXDEV
  | ENODEV
  | ENOTDIR
  | EISDIR
  | EINVAL
  | EMFILE
  | ENOTEMPTY
  | EPIPE
  | ENOTSUP
  | ENOTSOCK
  | EAFNOSUPPORT
  | EADDRINUSE
  | EISCONN
  | ECONNREFUSED
  | E2BIG
  | EACCES
  | EROFS
  | ECHILD
  | EAGAIN
  | ESRCH
deriving DecidableEq, Repr

/-- The flags of `open` of `api/fcntl.h`. -/
abbrev O_RDONLY : Nat := 0x1

abbrev O_WRONLY : Nat := 0x2

abbrev O_RDWR : Nat := O_RDONLY ||| O_WRONLY

abbrev O_CREAT : Nat := 0x8

abbrev O_EXCL : Nat := 0x10

/-- `flags & f`, as a condition. -/
def HasFlag (flags f : Nat) : Prop := flags &&& f ≠ 0

instance (flags f : Nat) : Decidable (HasFlag flags f) := inferInstanceAs (Decidable (_ ≠ _))

/-- `OPEN_MAX`, the number of slots of a descriptor table. -/
abbrev OPEN_MAX : Nat := 1024

/-- `PAGE_SIZE`. -/
abbrev PAGE_SIZE : Nat := 4096

/-- `KERNEL_VADDR`. -/
abbrev KERNEL_VADDR : Nat := 0xc0000000

/-- The number of values of a `uint32_t`, a `size_t` or a `uintptr_t`. -/
abbrev wordSize : Nat := 2 ^ 32

/-- `STACK_SIZE`. -/
abbrev STACK_SIZE : Nat := 0x4000

/-- `++x` on a word. -/
def wordSucc (x : Nat) : Nat := if x + 1 = wordSize then 0 else x + 1

/-- `--x` on a word. -/
def wordPred (x : Nat) : Nat := if x = 0 then wordSize - 1 else x - 1

/-- `x - y` on words. -/
def wordSub (x y : Nat) : Nat := (x + (wordSize - y)) % wordSize

/-- `round_up(x, PAGE_SIZE)`: `(x + (align - 1)) & ~(align - 1)`, where the sum wraps. -/
def roundUp (x : Nat) : Nat := (x + (PAGE_SIZE - 1)) % wordSize / PAGE_SIZE * PAGE_SIZE

/-- `div_ceil(lhs, rhs)`: `(lhs + rhs - 1) / rhs`, where the sum wraps. -/
def divCeil (lhs rhs : Nat) : Nat := (lhs + rhs - 1) % wordSize / rhs

/-- The value of a `char`, which is signed. -/
def charValue (c : UInt8) : Int := if c.toNat < 128 then c.toNat else (c.toNat : Int) - 256

theorem wordSucc_lt {x : Nat} (h : x < wordSize) : wordSucc x < wordSize := by
  unfold wordSucc
  split
  · exact Nat.two_pow_pos 32
  · rename_i hne
    exact Nat.lt_of_le_of_ne h hne

theorem wordPred_lt {x : Nat} (h : x < wordSize) : wordPred x < wordSize := by
  unfold wordPred
  split
  · exact Nat.sub_lt (Nat.two_pow_pos 32) Nat.one_pos
  · exact Nat.lt_of_le_of_lt (Nat.sub_le x 1) h

theorem wordSub_of_le {x y : Nat} (hle : y ≤ x) (hx : x < wordSize) : wordSub x y = x - y := by
  have hsum : x + (wordSize - y) = x - y + wordSize := by omega
  rw [wordSub, hsum, Nat.add_mod_right, Nat.mod_eq_of_lt (Nat.lt_of_le_of_lt (Nat.sub_le x y) hx)]

theorem wordSucc_of_lt {x n : Nat} (h : x < n) (hn : n < wordSize) : wordSucc x = x + 1 :=
  if_neg (by omega)

theorem wordPred_of_pos {x : Nat} (h : 0 < x) : wordPred x = x - 1 := if_neg (Nat.ne_of_gt h)

theorem wordSucc_mod (x n : Nat) : (wordSucc x + n) % wordSize = (x + n + 1) % wordSize := by
  unfold wordSucc
  split
  · rename_i h
    rw [Nat.add_right_comm, h, Nat.add_comm wordSize n, Nat.add_mod_right, Nat.zero_add]
  · rw [Nat.add_right_comm]

theorem wordPred_mod (x n : Nat) : (wordPred x + n + 1) % wordSize = (x + n) % wordSize := by
  have hpos : 1 ≤ wordSize := Nat.two_pow_pos 32
  unfold wordPred
  split
  · rename_i h
    rw [h, Nat.add_right_comm, Nat.sub_add_cancel hpos, Nat.add_comm wordSize n, Nat.add_mod_right,
      Nat.zero_add]
  · rename_i h
    rw [Nat.add_right_comm, Nat.sub_add_cancel (Nat.pos_of_ne_zero h)]

theorem roundUp_of_le {x : Nat} (h : x ≤ wordSize - PAGE_SIZE) :
    roundUp x = (x + (PAGE_SIZE - 1)) / PAGE_SIZE * PAGE_SIZE := by
  unfold roundUp
  rw [Nat.mod_eq_of_lt (by simp only [wordSize, PAGE_SIZE] at h ⊢; omega)]

/-- The only words that wrap are the ones above the last page boundary, and they wrap to zero. -/
theorem roundUp_of_gt {x : Nat} (h : wordSize - PAGE_SIZE < x) (hx : x < wordSize) :
    roundUp x = 0 := by
  simp only [roundUp, wordSize, PAGE_SIZE] at h hx ⊢
  omega

theorem roundUp_mod (x : Nat) : roundUp x % PAGE_SIZE = 0 := Nat.mul_mod_left _ _

theorem roundUp_lt (x : Nat) : roundUp x < wordSize := by
  simp only [roundUp, wordSize, PAGE_SIZE]
  omega

theorem le_roundUp {x : Nat} (h : x ≤ wordSize - PAGE_SIZE) : x ≤ roundUp x := by
  rw [roundUp_of_le h]
  simp only [PAGE_SIZE]
  omega

theorem roundUp_le {x y : Nat} (h : x ≤ y) (hmod : y % PAGE_SIZE = 0) : roundUp x ≤ y := by
  simp only [roundUp, wordSize, PAGE_SIZE] at hmod ⊢
  omega

theorem roundUp_lt_add {x : Nat} : roundUp x < x + PAGE_SIZE := by
  simp only [roundUp, wordSize, PAGE_SIZE]
  omega

theorem roundUp_of_mod {x : Nat} (h : x % PAGE_SIZE = 0) (hx : x < wordSize) : roundUp x = x := by
  simp only [roundUp, wordSize, PAGE_SIZE] at h hx ⊢
  omega

end Chaotix
