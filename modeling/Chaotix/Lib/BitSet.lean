/-
Module: Chaotix.Lib.BitSet
Layer: Lib
Purpose: A set of natural numbers packed into words of `w` bits. Bit `i` lives in word `i / w` at
  position `i % w`. The word updates are the usual `|= 1 << k` and `&= ~(1 << k)`; the search for the
  first set bit goes word by word, as with a hardware find-first-set instruction.
Imports: Mathlib.Logic.Function.Basic, Mathlib.Tactic
Trusted boundary: none
Main exports: BitSet, BitSet.mem, BitSet.insert, BitSet.erase, BitSet.findFirst, BitSet.elements,
  mem_insert, mem_erase, insertRange, eraseRange, findFirst_eq_some, findFirst_eq_none, card_elements_insert,
  card_elements_erase
-/
import Mathlib.Logic.Function.Basic
import Mathlib.Tactic

/-- Words of `w` bits, indexed from zero. -/
abbrev BitSet (w : Nat) := Nat → BitVec w

namespace BitSet

variable {w : Nat}

/-- The bit of `i`. -/
def mem (b : BitSet w) (i : Nat) : Bool := (b (i / w)).getLsbD (i % w)

/-- Set the bit of `i`. -/
def insert (b : BitSet w) (i : Nat) : BitSet w :=
  Function.update b (i / w) (b (i / w) ||| 1#w <<< (i % w))

/-- Clear the bit of `i`. -/
def erase (b : BitSet w) (i : Nat) : BitSet w :=
  Function.update b (i / w) (b (i / w) &&& ~~~(1#w <<< (i % w)))

/-- The position of the lowest set bit of a word. -/
def lowestBit (word : BitVec w) : Option Nat :=
  (List.range w).find? fun k => word.getLsbD k

/-- The first set bit of the words `start`, ..., `start + n - 1`. -/
def findFirst (b : BitSet w) : Nat → Nat → Option Nat
  | _, 0 => none
  | start, n + 1 =>
      match lowestBit (b start) with
      | some k => some (start * w + k)
      | none => findFirst b (start + 1) n

theorem index_eq_iff {i j : Nat} : i / w = j / w ∧ i % w = j % w ↔ i = j := by
  constructor
  · rintro ⟨hdiv, hmod⟩
    rw [← Nat.div_add_mod i w, ← Nat.div_add_mod j w, hdiv, hmod]
  · rintro rfl
    exact ⟨rfl, rfl⟩

/-- The mask of one bit has exactly that bit. -/
theorem getLsbD_mask {k l : Nat} (hl : l < w) :
    (1#w <<< k).getLsbD l = decide (l = k) := by
  rw [← BitVec.twoPow_eq, BitVec.getLsbD_twoPow]
  by_cases h : l = k
  · simp [← h, hl]
  · simp [h, Ne.symm h]

/-- Two indices in one word are told apart by their position in it. -/
theorem decide_mod_eq {i j : Nat} (hword : j / w = i / w) :
    decide (j % w = i % w) = decide (j = i) := by
  rw [decide_eq_decide]
  exact ⟨fun hmod => index_eq_iff.1 ⟨hword, hmod⟩, fun heq => (index_eq_iff.2 heq).2⟩

/-- Indices in different words differ. -/
theorem ne_of_div_ne {i j : Nat} (hword : j / w ≠ i / w) : j ≠ i :=
  mt (congrArg (· / w)) hword

theorem mem_insert (hw : 0 < w) (b : BitSet w) (i j : Nat) :
    (b.insert i).mem j = (b.mem j || decide (j = i)) := by
  have hj : j % w < w := Nat.mod_lt _ hw
  unfold mem insert
  by_cases hword : j / w = i / w
  · rw [hword, Function.update_self, BitVec.getLsbD_or, getLsbD_mask hj, decide_mod_eq hword]
  · rw [Function.update_of_ne hword]
    simp [ne_of_div_ne hword]

theorem mem_erase (hw : 0 < w) (b : BitSet w) (i j : Nat) :
    (b.erase i).mem j = (b.mem j && decide (j ≠ i)) := by
  have hj : j % w < w := Nat.mod_lt _ hw
  unfold mem erase
  by_cases hword : j / w = i / w
  · rw [hword, Function.update_self, BitVec.getLsbD_and, BitVec.getLsbD_not, getLsbD_mask hj,
      decide_mod_eq hword]
    simp [hj]
  · rw [Function.update_of_ne hword]
    simp [ne_of_div_ne hword]

theorem lowestBit_eq_some {word : BitVec w} {k : Nat} (h : lowestBit word = some k) :
    k < w ∧ word.getLsbD k = true := by
  refine ⟨?_, ?_⟩
  · exact List.mem_range.1 (List.mem_of_find?_eq_some h)
  · exact List.find?_some h

theorem lowestBit_eq_none {word : BitVec w} (h : lowestBit word = none) {k : Nat} (hk : k < w) :
    word.getLsbD k = false := by
  have := List.find?_eq_none.1 h k (List.mem_range.2 hk)
  simpa using this

/-- What the search finds is a set bit of one of the words. -/
theorem findFirst_eq_some {b : BitSet w} {start n i : Nat} (h : findFirst b start n = some i) :
    b.mem i = true ∧ start * w ≤ i ∧ i < (start + n) * w := by
  induction n generalizing start with
  | zero => simp [findFirst] at h
  | succ n ih =>
      rw [findFirst] at h
      split at h
      · rename_i k hk
        obtain ⟨hkw, hbit⟩ := lowestBit_eq_some hk
        obtain rfl : start * w + k = i := Option.some.inj h
        have hdiv : (start * w + k) / w = start := by
          rw [Nat.mul_comm, Nat.mul_add_div (by omega), Nat.div_eq_of_lt hkw, Nat.add_zero]
        have hmod : (start * w + k) % w = k := by
          rw [Nat.mul_comm, Nat.mul_add_mod, Nat.mod_eq_of_lt hkw]
        refine ⟨?_, Nat.le_add_right _ _, ?_⟩
        · rw [mem, hdiv, hmod, hbit]
        · rw [Nat.add_mul, Nat.add_mul]
          omega
      · obtain ⟨hmem, hlo, hhi⟩ := ih h
        refine ⟨hmem, ?_, ?_⟩
        · exact le_trans (Nat.mul_le_mul_right w (Nat.le_succ start)) hlo
        · rwa [show start + (n + 1) = start + 1 + n by omega]

/-- When the search finds nothing, every bit of the words is clear. -/
theorem findFirst_eq_none (hw : 0 < w) {b : BitSet w} {start n i : Nat}
    (h : findFirst b start n = none) (hlo : start * w ≤ i) (hhi : i < (start + n) * w) :
    b.mem i = false := by
  induction n generalizing start with
  | zero => simp at hhi; omega
  | succ n ih =>
      rw [findFirst] at h
      split at h
      · simp at h
      · rename_i hnone
        by_cases hword : i < (start + 1) * w
        · have hdiv : i / w = start := by
            apply Nat.div_eq_of_lt_le hlo
            exact hword
          rw [mem, hdiv]
          exact lowestBit_eq_none hnone (Nat.mod_lt _ hw)
        · apply ih h (Nat.le_of_not_lt hword)
          rwa [show start + 1 + n = start + (n + 1) by omega]

/-! ### Ranges -/

/-- Set the bits of `n` indices from `i` on. -/
def insertRange (b : BitSet w) : Nat → Nat → BitSet w
  | _, 0 => b
  | i, n + 1 => insertRange (b.insert i) (i + 1) n

/-- Clear the bits of `n` indices from `i` on. -/
def eraseRange (b : BitSet w) : Nat → Nat → BitSet w
  | _, 0 => b
  | i, n + 1 => eraseRange (b.erase i) (i + 1) n

theorem mem_insertRange (hw : 0 < w) (b : BitSet w) (i n j : Nat) :
    (b.insertRange i n).mem j = true ↔ b.mem j = true ∨ i ≤ j ∧ j < i + n := by
  induction n generalizing b i with
  | zero =>
      rw [insertRange]
      exact ⟨Or.inl, fun h => h.resolve_right (by omega)⟩
  | succ n ih =>
      rw [insertRange, ih, mem_insert hw, Bool.or_eq_true, decide_eq_true_eq, or_assoc]
      apply or_congr_right
      omega

theorem mem_eraseRange (hw : 0 < w) (b : BitSet w) (i n j : Nat) :
    (b.eraseRange i n).mem j = true ↔ b.mem j = true ∧ ¬(i ≤ j ∧ j < i + n) := by
  induction n generalizing b i with
  | zero =>
      rw [eraseRange]
      exact ⟨fun h => ⟨h, by omega⟩, And.left⟩
  | succ n ih =>
      rw [eraseRange, ih, mem_erase hw, Bool.and_eq_true, decide_eq_true_eq, and_assoc]
      apply and_congr_right
      intro _
      omega

/-! ### The elements below a bound -/

/-- The elements below `n`. -/
def elements (b : BitSet w) (n : Nat) : Finset Nat := (Finset.range n).filter fun i => b.mem i = true

@[simp] theorem mem_elements {b : BitSet w} {n i : Nat} :
    i ∈ b.elements n ↔ i < n ∧ b.mem i = true := by
  simp [elements]

theorem card_elements_insert (hw : 0 < w) {b : BitSet w} {n i : Nat} (hi : i < n)
    (hclear : b.mem i = false) : ((b.insert i).elements n).card = (b.elements n).card + 1 := by
  have hset : (b.insert i).elements n = Insert.insert i (b.elements n) := by
    ext j
    simp only [mem_elements, mem_insert hw, Finset.mem_insert, Bool.or_eq_true, decide_eq_true_eq]
    constructor
    · rintro ⟨hj, hmem | rfl⟩
      · exact Or.inr ⟨hj, hmem⟩
      · exact Or.inl rfl
    · rintro (rfl | ⟨hj, hmem⟩)
      · exact ⟨hi, Or.inr rfl⟩
      · exact ⟨hj, Or.inl hmem⟩
  rw [hset, Finset.card_insert_of_notMem (by simp [hclear])]

theorem card_elements_erase (hw : 0 < w) {b : BitSet w} {n i : Nat} (hi : i < n)
    (hmem : b.mem i = true) : ((b.erase i).elements n).card + 1 = (b.elements n).card := by
  have hset : (b.erase i).elements n = (b.elements n).erase i := by
    ext j
    simp only [mem_elements, mem_erase hw, Finset.mem_erase, Bool.and_eq_true, decide_eq_true_eq]
    tauto
  rw [hset]
  exact Finset.card_erase_add_one (mem_elements.2 ⟨hi, hmem⟩)

end BitSet
