/-
Module: Chaotix.Lib.Damage
Layer: Lib
Purpose: Incremental drawing. A state has parts with a view of each and a mark on some; a display shows views. A
  change that marks every part whose view it changes keeps the display right about the parts that are not marked,
  and changes of this kind compose.
Imports: Mathlib.Tactic
Trusted boundary: none
Main exports: MarksChanges, UpToDate, UpToDate.change, UpToDate.draw, foldl_range_induction
-/
import Mathlib.Tactic

section Damage

variable {σ δ ι α : Type*} {dirty : σ → ι → Prop} {view : σ → ι → α} {shows : δ → ι → α → Prop} {s t u : σ} {d e : δ}

/-- A part without a mark had none before, and its view is the same. -/
def MarksChanges (dirty : σ → ι → Prop) (view : σ → ι → α) (s t : σ) : Prop :=
  ∀ i, ¬dirty t i → ¬dirty s i ∧ view t i = view s i

/-- The display is right about the parts without a mark. -/
def UpToDate (dirty : σ → ι → Prop) (view : σ → ι → α) (shows : δ → ι → α → Prop) (s : σ) (d : δ) : Prop :=
  ∀ i, ¬dirty s i → shows d i (view s i)

namespace MarksChanges

theorem refl (s : σ) : MarksChanges dirty view s s := fun _ hclean => ⟨hclean, rfl⟩

theorem trans (hst : MarksChanges dirty view s t) (htu : MarksChanges dirty view t u) :
    MarksChanges dirty view s u := by
  intro i hclean
  obtain ⟨hclean, hview⟩ := htu i hclean
  obtain ⟨hclean, hview'⟩ := hst i hclean
  exact ⟨hclean, hview.trans hview'⟩

/-- Marks stay. -/
theorem dirty_of_dirty (h : MarksChanges dirty view s t) {i : ι} (hdirty : dirty s i) : dirty t i := by
  by_contra hclean
  exact (h i hclean).1 hdirty

/-- Where everything is marked, anything may have changed. -/
theorem of_all_dirty (h : ∀ i, dirty t i) : MarksChanges dirty view s t := fun i hclean => absurd (h i) hclean

end MarksChanges

namespace UpToDate

theorem change (h : UpToDate dirty view shows s d) (hchange : MarksChanges dirty view s t) :
    UpToDate dirty view shows t d := by
  intro i hclean
  obtain ⟨hclean, hview⟩ := hchange i hclean
  rw [hview]
  exact h i hclean

theorem of_all_dirty (h : ∀ i, dirty s i) : UpToDate dirty view shows s d := fun i hclean => absurd (h i) hclean

/-- One part is drawn and its mark removed; the display keeps the others. -/
theorem draw (h : UpToDate dirty view shows s d) {i : ι} (hview : view t = view s)
    (hdirty : ∀ j, j ≠ i → dirty s j → dirty t j) (hdraw : shows e i (view s i))
    (hkeep : ∀ j, j ≠ i → ∀ v, shows d j v → shows e j v) : UpToDate dirty view shows t e := by
  intro j hclean
  rw [hview]
  rcases eq_or_ne j i with rfl | hne
  · exact hdraw
  · exact hkeep j hne _ (h j fun hmarked => hclean (hdirty j hne hmarked))

end UpToDate

end Damage

/-- A loop over the numbers below `n`: what holds at the start and goes on from each number to the next. -/
theorem foldl_range_induction {σ : Type*} {f : σ → Nat → σ} {s : σ} {n : Nat} (motive : Nat → σ → Prop)
    (start : motive 0 s) (step : ∀ i, i < n → ∀ t, motive i t → motive (i + 1) (f t i)) :
    motive n ((List.range n).foldl f s) := by
  induction n with
  | zero => exact start
  | succ n ih =>
      rw [List.range_succ, List.foldl_append, List.foldl_cons, List.foldl_nil]
      exact step n (Nat.lt_succ_self n) _ (ih fun i hi => step i (Nat.lt_succ_of_lt hi))
