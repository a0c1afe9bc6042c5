/-
Module: Chaotix.Lib.Count
Layer: Lib
Purpose: How many arguments a function maps to values with a property, and how that number changes when the
  function changes at one argument. There may be infinitely many arguments: the number is an extended
  natural number.
Imports: Mathlib.Logic.Function.Basic, Mathlib.Data.Set.Card
Trusted boundary: none
Main exports: countWhere, countWhere_update_add, countWhere_update_sub, countWhere_update_same,
  countWhere_update_le, countWhere_pos, countWhere_of_forall_not
-/
import Mathlib.Logic.Function.Basic
import Mathlib.Data.Set.Card

universe u v

variable {α : Type u} {β : Type v}

/-- How many arguments a function maps to values with the property. -/
noncomputable def countWhere (V : β → Prop) (f : α → β) : ℕ∞ := {x | V (f x)}.encard

section Count

variable {V : β → Prop} {f : α → β} {a : α} {b : β}

theorem countWhere_of_forall_not (h : ∀ x, ¬V (f x)) : countWhere V f = 0 :=
  Set.encard_eq_zero.2 (Set.eq_empty_iff_forall_notMem.2 h)

theorem countWhere_pos (h : V (f a)) : 0 < countWhere V f := by
  have hmem : a ∈ {x | V (f x)} := h
  exact Set.encard_pos.2 ⟨a, hmem⟩

/-- A number that is finite with one more is finite. -/
theorem exists_of_add_one_eq {x : ℕ∞} {n : ℕ} (h : x + 1 = n) : ∃ k : ℕ, x = k ∧ n = k + 1 := by
  cases x with
  | top => simp at h
  | coe k => exact ⟨k, rfl, by exact_mod_cast h.symm⟩

variable [DecidableEq α]

/-- The other arguments are as before. -/
theorem update_sdiff (V : β → Prop) (f : α → β) (a : α) (b : β) :
    {x | V (Function.update f a b x)} \ {a} = {x | V (f x)} \ {a} := by
  ext x
  by_cases heq : x = a
  · simp [heq]
  · simp [heq]

/-- One more. -/
theorem countWhere_update_add (hold : ¬V (f a)) (hnew : V b) :
    countWhere V (Function.update f a b) = countWhere V f + 1 := by
  have hmem : a ∈ {x | V (Function.update f a b x)} := by simpa using hnew
  have hnot : a ∉ {x | V (f x)} := hold
  rw [countWhere, countWhere, ← Set.encard_sdiff_singleton_add_one hmem, update_sdiff,
    Set.sdiff_singleton_eq_self hnot]

/-- One less. -/
theorem countWhere_update_sub (hold : V (f a)) (hnew : ¬V b) :
    countWhere V (Function.update f a b) + 1 = countWhere V f := by
  have hmem : a ∈ {x | V (f x)} := hold
  have hnot : a ∉ {x | V (Function.update f a b x)} := by simpa using hnew
  rw [countWhere, countWhere, ← Set.encard_sdiff_singleton_add_one hmem, ← update_sdiff V f a b,
    Set.sdiff_singleton_eq_self hnot]

/-- As many. -/
theorem countWhere_update_same (h : V b ↔ V (f a)) :
    countWhere V (Function.update f a b) = countWhere V f := by
  have hsame : ∀ x, V (Function.update f a b x) ↔ V (f x) := by
    intro x
    by_cases heq : x = a
    · simp [heq, h]
    · simp [Function.update_of_ne heq]
  simp only [countWhere, hsame]

/-- Not more. -/
theorem countWhere_update_le (h : V b → V (f a)) :
    countWhere V (Function.update f a b) ≤ countWhere V f := by
  by_cases hold : V (f a)
  · by_cases hnew : V b
    · exact (countWhere_update_same (iff_of_true hnew hold)).le
    · exact le_of_le_of_eq le_self_add (countWhere_update_sub hold hnew)
  · exact (countWhere_update_same (iff_of_false (fun hb => hold (h hb)) hold)).le

end Count
