/-
Module: Chaotix.Lib.Periods
Layer: Lib
Purpose: A line of time that is divided into consecutive periods, each with a length of its own, such as years or
  months. An instant is counted from the start of one period on; it falls into a later one when all periods between the
  two have passed and the rest is less than its length. A search that goes from period to period finds it, and the sum
  of the lengths gives the instant back.
Imports: Mathlib.Algebra.BigOperators.Intervals
Trusted boundary: none
Main exports: Falls, falls_sum, Falls.sum, exists_falls
-/
import Mathlib.Algebra.BigOperators.Intervals

/-- The instant `t`, counted from the start of the period `i`, falls into the period `j`, at `r` from its start. -/
inductive Falls (len : Nat → Nat) : Nat → Nat → Nat → Nat → Prop where
  | here {i r : Nat} : r < len i → Falls len i r i r
  | later {i t j r : Nat} : Falls len (i + 1) t j r → Falls len i (len i + t) j r

section Periods

variable {len : Nat → Nat} {i j t r : Nat}

theorem Falls.lt (h : Falls len i t j r) : r < len j := by
  induction h with
  | here hr => exact hr
  | later _ ih => exact ih

theorem Falls.le (h : Falls len i t j r) : i ≤ j := by
  induction h with
  | here _ => exact Nat.le_refl _
  | later _ ih => exact Nat.le_of_succ_le ih

/-- What has passed is the sum of the lengths and the rest. -/
theorem Falls.sum (h : Falls len i t j r) : t = ∑ k ∈ Finset.Ico i j, len k + r := by
  induction h with
  | here _ => simp
  | @later i t j r hrest ih => rw [Finset.sum_eq_sum_Ico_succ_bot hrest.le, Nat.add_assoc, ← ih]

/-- The instant that lies the rest behind the sum of the lengths. -/
theorem falls_sum (hij : i ≤ j) (hr : r < len j) : Falls len i (∑ k ∈ Finset.Ico i j, len k + r) j r := by
  induction hij using Nat.decreasingInduction with
  | self => simpa using Falls.here hr
  | of_succ i hlt ih =>
      rw [Finset.sum_eq_sum_Ico_succ_bot hlt, Nat.add_assoc]
      exact .later ih

/-- An instant before the end of a period falls into one up to it. -/
theorem exists_falls {n : Nat} (h : t < ∑ k ∈ Finset.Ico i n, len k) : ∃ j r, j < n ∧ Falls len i t j r := by
  have hin : i ≤ n := by
    by_contra hlt
    rw [Finset.Ico_eq_empty_of_le (Nat.le_of_not_le hlt)] at h
    exact absurd h (Nat.not_lt_zero t)
  induction hin using Nat.decreasingInduction generalizing t with
  | self => simp at h
  | of_succ i hlt ih =>
      rw [Finset.sum_eq_sum_Ico_succ_bot hlt] at h
      by_cases hhere : t < len i
      · exact ⟨i, t, hlt, .here hhere⟩
      · obtain ⟨s, rfl⟩ := Nat.exists_eq_add_of_le (Nat.le_of_not_lt hhere)
        obtain ⟨j, r, hjn, hfalls⟩ := ih (Nat.lt_of_add_lt_add_left h)
        exact ⟨j, r, hjn, .later hfalls⟩

end Periods
