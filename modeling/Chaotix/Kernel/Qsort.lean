/-
Module: Chaotix.Kernel.Qsort
Layer: Kernel
Purpose: `qsort` of `common/stdlib.c` over byte memory. The array is an object in the address space, so that no address of
  one of its elements wraps, and a swap that reaches outside of it faults.
Imports: Mathlib.Logic.Function.Basic, Chaotix.Kernel.Base, Chaotix.Kernel.CString
Trusted boundary: human-reviewed model of `memswap` and `qsort` of `common/stdlib.c`
Main exports: memswap, SortJob, SortJob.element, SortJob.partitionLoop, SortJob.partition, SortJob.qsort
-/
import Mathlib.Logic.Function.Basic
import Chaotix.Kernel.Base
import Chaotix.Kernel.CString

namespace Chaotix

open CString

/-- `memswap`. -/
def memswap (mem : Memory) (s1 s2 : Nat) : Nat → Memory
  | 0 => mem
  | n + 1 => memswap (Function.update (Function.update mem s1 (mem s2)) s2 (mem s1)) (s1 + 1) (s2 + 1) n

/-- The arguments of `qsort`. The comparison function reads the bytes of two elements. -/
structure SortJob where
  base : Nat
  nmemb : Nat
  size : Nat
  compar : (Fin size → UInt8) → (Fin size → UInt8) → Int

namespace SortJob

variable (job : SortJob)

/-- The bytes at an address in the array. -/
def element (mem : Memory) (s : Nat) : Fin job.size → UInt8 := fun i => mem (s + i)

/-- The bytes of an element lie inside the array. -/
def Inside (s : Nat) : Prop := job.base ≤ s ∧ s + job.size ≤ job.base + job.nmemb * job.size

instance (s : Nat) : Decidable (job.Inside s) := inferInstanceAs (Decidable (_ ∧ _))

/-- A call of `memswap` with two elements. -/
def swap (mem : Memory) (s1 s2 : Nat) : Except Stop Memory :=
  if job.Inside s1 ∧ job.Inside s2 then .ok (memswap mem s1 s2 job.size) else .error .fault

/-- The loop over `j`, with `i`. -/
def partitionLoop (mem : Memory) (start nmemb i j : Nat) : Except Stop (Memory × Nat) :=
  if j < nmemb then
    if job.compar (job.element mem (start + j * job.size)) (job.element mem start) < 0 then
      match job.swap mem (start + j * job.size) (start + i * job.size) with
      | .error e => .error e
      | .ok mem => partitionLoop mem start nmemb (i + 1) (j + 1)
    else partitionLoop mem start nmemb i (j + 1)
  else .ok (mem, i)
termination_by nmemb - j

/-- The body of the loop of `qsort`, up to the recursion: the memory, and `i`. -/
def partition (mem : Memory) (start nmemb : Nat) : Except Stop (Memory × Nat) :=
  let pivotPoint := nmemb / 2
  match if pivotPoint ≠ 0 then job.swap mem (start + pivotPoint * job.size) start else .ok mem with
  | .error e => .error e
  | .ok mem =>
      match job.partitionLoop mem start nmemb 1 1 with
      | .error e => .error e
      | .ok (mem, i) =>
          match job.swap mem start (start + (i - 1) * job.size) with
          | .error e => .error e
          | .ok mem => .ok (mem, i)

/-- The loop counts from `i` on, and no faster than `j`. -/
theorem partitionLoop_bounds {mem mem' : Memory} {start nmemb i j i' : Nat} (hij : i ≤ j) (hj : j ≤ nmemb)
    (h : job.partitionLoop mem start nmemb i j = .ok (mem', i')) : i ≤ i' ∧ i' ≤ nmemb := by
  fun_induction partitionLoop job mem start nmemb i j with
  | case1 mem i j hlt hless e hswap => cases h
  | case2 mem i j hlt hless mem'' hswap ih =>
      obtain ⟨hlo, hhi⟩ := ih (by omega) (by omega) h
      exact ⟨by omega, hhi⟩
  | case3 mem i j hlt hless ih => exact ih (by omega) (by omega) h
  | case4 mem i j hlt =>
      cases h
      exact ⟨Nat.le_refl _, by omega⟩

/-- The pivot is one of the elements. -/
theorem partition_bounds {mem mem' : Memory} {start nmemb i : Nat} (hmany : 1 < nmemb)
    (h : job.partition mem start nmemb = .ok (mem', i)) : 1 ≤ i ∧ i ≤ nmemb := by
  dsimp only [partition] at h
  split at h
  · cases h
  · split at h
    · cases h
    · rename_i hloop
      split at h
      · cases h
      · cases h
        exact job.partitionLoop_bounds (Nat.le_refl 1) (Nat.le_of_lt hmany) hloop

/-- `qsort`, where the loop goes on with the part that is sorted last. -/
def qsort (mem : Memory) (start nmemb : Nat) : Except Stop Memory :=
  if hmany : 1 < nmemb then
    match hpartition : job.partition mem start nmemb with
    | .error e => .error e
    | .ok (mem, i) =>
        have _ := job.partition_bounds hmany hpartition
        if i > nmemb / 2 then
          match qsort mem (start + i * job.size) (nmemb - i) with
          | .error e => .error e
          | .ok mem => qsort mem start (i - 1)
        else
          match qsort mem start (i - 1) with
          | .error e => .error e
          | .ok mem => qsort mem (start + i * job.size) (nmemb - i)
  else .ok mem
termination_by nmemb

end SortJob

end Chaotix
