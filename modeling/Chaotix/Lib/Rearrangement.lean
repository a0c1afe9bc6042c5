/-
Module: Chaotix.Lib.Rearrangement
Layer: Lib
Purpose: Sequences whose elements are put into another order within a range. What holds of all elements in the range goes
  on to hold, and they are a permutation as a list. A range is sorted when it is split at a place with smaller elements
  in front and none behind, and both parts are sorted.
Imports: Mathlib.Logic.Equiv.Basic, Mathlib.Data.List.Nodup, Mathlib.Data.List.Range
Trusted boundary: none
Main exports: Rearranged, Rearranged.swap, Rearranged.trans, Rearranged.forall_range, Rearranged.perm, SortedOn,
  SortedOn.of_parts
-/
import Mathlib.Logic.Equiv.Basic
import Mathlib.Data.List.Nodup
import Mathlib.Data.List.Range

universe u

variable {α : Type u} {lo hi lo' hi' a b : Nat} {f g h : Nat → α}

/-- The second sequence is the first one with its elements between the two places in another order. -/
def Rearranged (lo hi : Nat) (f g : Nat → α) : Prop :=
  ∃ σ : Equiv.Perm Nat, (∀ k, k < lo ∨ hi ≤ k → σ k = k) ∧ g = f ∘ σ

namespace Rearranged

theorem refl (lo hi : Nat) (f : Nat → α) : Rearranged lo hi f f := ⟨Equiv.refl Nat, fun _ _ => rfl, rfl⟩

theorem swap (ha : lo ≤ a) (ha' : a < hi) (hb : lo ≤ b) (hb' : b < hi) (f : Nat → α) :
    Rearranged lo hi f (f ∘ Equiv.swap a b) :=
  ⟨Equiv.swap a b, fun k hk => Equiv.swap_apply_of_ne_of_ne (by omega) (by omega), rfl⟩

theorem trans (hfg : Rearranged lo hi f g) (hgh : Rearranged lo hi g h) : Rearranged lo hi f h := by
  obtain ⟨σ, hσ, rfl⟩ := hfg
  obtain ⟨τ, hτ, rfl⟩ := hgh
  refine ⟨τ.trans σ, fun k hk => ?_, rfl⟩
  rw [Equiv.trans_apply, hτ k hk, hσ k hk]

/-- A larger range. -/
theorem mono (hfg : Rearranged lo hi f g) (hlo : lo' ≤ lo) (hhi : hi ≤ hi') : Rearranged lo' hi' f g := by
  obtain ⟨σ, hσ, rfl⟩ := hfg
  exact ⟨σ, fun k hk => hσ k (by omega), rfl⟩

theorem outside (hfg : Rearranged lo hi f g) {k : Nat} (hk : k < lo ∨ hi ≤ k) : g k = f k := by
  obtain ⟨σ, hσ, rfl⟩ := hfg
  exact congrArg f (hσ k hk)

/-- A permutation that moves nothing outside of a range keeps to the range. -/
theorem apply_inside {σ : Equiv.Perm Nat} (hσ : ∀ k, k < lo ∨ hi ≤ k → σ k = k) {k : Nat} :
    lo ≤ σ k ∧ σ k < hi ↔ lo ≤ k ∧ k < hi := by
  constructor
  · intro hinside
    by_contra hout
    have hfixed : σ k = k := hσ k (by omega)
    omega
  · intro hinside
    by_contra hout
    have hfixed : σ (σ k) = σ k := hσ _ (by omega)
    have hsame : σ k = k := σ.injective hfixed
    omega

/-- What holds of the elements of the range goes on to hold. -/
theorem forall_range {p : α → Prop} (hfg : Rearranged lo hi f g) (hp : ∀ k, lo ≤ k → k < hi → p (f k)) :
    ∀ k, lo ≤ k → k < hi → p (g k) := by
  obtain ⟨σ, hσ, rfl⟩ := hfg
  intro k hlo hhi
  obtain ⟨hlo', hhi'⟩ := (apply_inside hσ).2 ⟨hlo, hhi⟩
  exact hp (σ k) hlo' hhi'

/-- The elements from the first place on, as lists. -/
theorem perm (hfg : Rearranged 0 hi f g) : ((List.range hi).map g).Perm ((List.range hi).map f) := by
  obtain ⟨σ, hσ, rfl⟩ := hfg
  rw [← List.map_map]
  refine List.Perm.map f ?_
  rw [List.perm_ext_iff_of_nodup (List.Nodup.map σ.injective List.nodup_range) List.nodup_range]
  intro k
  rw [List.mem_map, List.mem_range]
  constructor
  · rintro ⟨j, hj, rfl⟩
    exact ((apply_inside hσ).2 ⟨Nat.zero_le j, List.mem_range.1 hj⟩).2
  · intro hk
    have hinside : 0 ≤ σ (σ.symm k) ∧ σ (σ.symm k) < hi := by
      rw [σ.apply_symm_apply]
      exact ⟨Nat.zero_le k, hk⟩
    exact ⟨σ.symm k, List.mem_range.2 ((apply_inside hσ).1 hinside).2, σ.apply_symm_apply k⟩

end Rearranged

/-- No element of the range is smaller than one in front of it. -/
def SortedOn (lt : α → α → Prop) (lo hi : Nat) (f : Nat → α) : Prop :=
  ∀ a b, lo ≤ a → a < b → b < hi → ¬ lt (f b) (f a)

section Sorted

variable {lt : α → α → Prop} {p : Nat}

theorem SortedOn.of_le_one (h : hi ≤ lo + 1) : SortedOn lt lo hi f := fun _ _ _ _ _ => by omega

/-- A smaller range. -/
theorem SortedOn.mono (hf : SortedOn lt lo hi f) (hlo : lo ≤ lo') (hhi : hi' ≤ hi) : SortedOn lt lo' hi' f :=
  fun a b ha hab hb => hf a b (Nat.le_trans hlo ha) hab (Nat.lt_of_lt_of_le hb hhi)

/-- Two sorted parts, of which the first is smaller than the element between them and the second is not. -/
theorem SortedOn.of_parts (htrans : ∀ x y z, lt x y → lt y z → lt x z) (hasymm : ∀ x y, lt x y → ¬ lt y x)
    (hleft : SortedOn lt lo p f) (hright : SortedOn lt (p + 1) hi f) (hsmaller : ∀ k, lo ≤ k → k < p → lt (f k) (f p))
    (hnot : ∀ k, p < k → k < hi → ¬ lt (f k) (f p)) : SortedOn lt lo hi f := by
  intro a b hlo hab hhi hlt
  rcases Nat.lt_trichotomy b p with hb | rfl | hb
  · exact hleft a b hlo hab hb hlt
  · exact hasymm _ _ hlt (hsmaller a hlo hab)
  · rcases Nat.lt_trichotomy a p with ha | rfl | ha
    · exact hnot b hb hhi (htrans _ _ _ hlt (hsmaller a hlo ha))
    · exact hnot b hb hhi hlt
    · exact hright a b ha hab hhi hlt

theorem SortedOn.congr (hf : SortedOn lt lo hi f) (hsame : ∀ k, lo ≤ k → k < hi → g k = f k) :
    SortedOn lt lo hi g := by
  intro a b hlo hab hhi
  rw [hsame a hlo (by omega), hsame b (by omega) hhi]
  exact hf a b hlo hab hhi

end Sorted
