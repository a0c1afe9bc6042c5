/-
Module: Chaotix.Lib.CellRing
Layer: Lib
Purpose: A queue in a ring of `n` cells of which one is always free. The index that is written next runs
  ahead of the index that is read next, both around the end; equal indices mean an empty ring. The
  contents are the cells from the one index up to the other: a push that does not fill the last free cell
  appends, a pop from a ring that is not empty removes the first. The loops that push or pop several
  elements stop when the ring is full or empty, and move a prefix. A push into a full ring empties it; the loop
  that does not stop leaves the last elements, as many as the distance of the indices says.
Imports: Mathlib.Logic.Function.Basic, Mathlib.Data.List.Basic, Mathlib.Data.List.DropRight, Mathlib.Data.Nat.ModEq
Trusted boundary: none
Main exports: CellRing, CellRing.push, CellRing.pop, CellRing.contents, CellRing.contents_push,
  CellRing.contents_pop, CellRing.pushWhile, CellRing.popWhile, CellRing.pushWhile_spec,
  CellRing.popWhile_spec, CellRing.pushAll, CellRing.contents_pushAll, CellRing.popUntil, CellRing.contents_popUntil
-/
import Mathlib.Logic.Function.Basic
import Mathlib.Data.List.Basic
import Mathlib.Data.List.DropRight
import Mathlib.Data.Nat.ModEq

universe u

/-- A ring of `n` cells with the index that is written next and the index that is read next. -/
structure CellRing (α : Type u) (n : Nat) where
  cells : Nat → α
  writeIdx : Nat
  readIdx : Nat
  writeIdx_lt : writeIdx < n
  readIdx_lt : readIdx < n

namespace CellRing

variable {α : Type u} {n : Nat}

/-- Both indices are equal. -/
def IsEmpty (r : CellRing α n) : Prop := r.writeIdx = r.readIdx

/-- One more element would make both indices equal. -/
def IsFull (r : CellRing α n) : Prop := (r.writeIdx + 1) % n = r.readIdx

instance (r : CellRing α n) : Decidable r.IsEmpty := inferInstanceAs (Decidable (_ = _))

instance (r : CellRing α n) : Decidable r.IsFull := inferInstanceAs (Decidable (_ = _))

theorem size_pos (r : CellRing α n) : 0 < n := Nat.zero_lt_of_lt r.readIdx_lt

/-- Write the next cell. -/
def push (r : CellRing α n) (a : α) : CellRing α n :=
  { r with
    cells := Function.update r.cells r.writeIdx a
    writeIdx := (r.writeIdx + 1) % n
    writeIdx_lt := Nat.mod_lt _ r.size_pos }

/-- Read the next cell. -/
def pop (r : CellRing α n) : α × CellRing α n :=
  (r.cells r.readIdx,
    { r with
      readIdx := (r.readIdx + 1) % n
      readIdx_lt := Nat.mod_lt _ r.size_pos })

/-- Push the elements in order, and stop behind the one that fills the ring. Also returns how many were
    pushed. -/
def pushWhile : CellRing α n → List α → Nat × CellRing α n
  | r, [] => (0, r)
  | r, a :: as =>
      if (r.push a).IsFull then (1, r.push a)
      else ((pushWhile (r.push a) as).1 + 1, (pushWhile (r.push a) as).2)

/-- Pop up to `count` elements, and stop behind the one that empties the ring. -/
def popWhile : CellRing α n → Nat → List α × CellRing α n
  | r, 0 => ([], r)
  | r, count + 1 =>
      if r.pop.2.IsEmpty then ([r.pop.1], r.pop.2)
      else (r.pop.1 :: (popWhile r.pop.2 count).1, (popWhile r.pop.2 count).2)

/-- Push all elements in order, whether the ring is full or not. -/
def pushAll (r : CellRing α n) (as : List α) : CellRing α n := as.foldl push r

/-- Pop up to `count` elements, and stop at a ring that is empty. -/
def popUntil : CellRing α n → Nat → List α × CellRing α n
  | r, 0 => ([], r)
  | r, count + 1 =>
      if r.IsEmpty then ([], r)
      else (r.pop.1 :: (popUntil r.pop.2 count).1, (popUntil r.pop.2 count).2)

/-! ### The contents -/

/-- How many cells are occupied. -/
def used (r : CellRing α n) : Nat := (r.writeIdx + (n - r.readIdx)) % n

/-- The occupied cells, from the one that is read next. -/
def contents (r : CellRing α n) : List α :=
  (List.range r.used).map fun i => r.cells ((r.readIdx + i) % n)

@[simp] theorem length_contents (r : CellRing α n) : r.contents.length = r.used := by
  simp [contents]

theorem used_lt (r : CellRing α n) : r.used < n := Nat.mod_lt _ r.size_pos

/-- The write index is `used` cells ahead of the read index. -/
theorem writeIdx_eq (r : CellRing α n) : r.writeIdx = (r.readIdx + r.used) % n := by
  have hw := r.writeIdx_lt
  have hr := r.readIdx_lt
  rw [used, Nat.add_mod_mod, show r.readIdx + (r.writeIdx + (n - r.readIdx)) = r.writeIdx + n by omega,
    Nat.add_mod_right, Nat.mod_eq_of_lt hw]

/-- The distance between the indices, without wrapping. -/
theorem used_eq (r : CellRing α n) :
    r.used = if r.readIdx ≤ r.writeIdx then r.writeIdx - r.readIdx else r.writeIdx + n - r.readIdx := by
  have hw := r.writeIdx_lt
  have hr := r.readIdx_lt
  unfold used
  split_ifs with h
  · rw [show r.writeIdx + (n - r.readIdx) = r.writeIdx - r.readIdx + n by omega, Nat.add_mod_right]
    exact Nat.mod_eq_of_lt (by omega)
  · rw [Nat.mod_eq_of_lt (by omega)]
    omega

theorem isEmpty_iff (r : CellRing α n) : r.IsEmpty ↔ r.used = 0 := by
  have hw := r.writeIdx_lt
  have hr := r.readIdx_lt
  rw [IsEmpty, used_eq]
  split_ifs <;> omega

theorem isEmpty_iff_contents (r : CellRing α n) : r.IsEmpty ↔ r.contents = [] := by
  rw [isEmpty_iff, ← length_contents, List.length_eq_zero_iff]

/-- The index behind another one, without wrapping. -/
theorem succ_mod (i : Nat) (h : i < n) : (i + 1) % n = if i + 1 = n then 0 else i + 1 := by
  split_ifs with heq
  · rw [heq, Nat.mod_self]
  · exact Nat.mod_eq_of_lt (by omega)

theorem isFull_iff (r : CellRing α n) : r.IsFull ↔ r.used + 1 = n := by
  have hw := r.writeIdx_lt
  have hr := r.readIdx_lt
  rw [IsFull, used_eq, succ_mod r.writeIdx hw]
  split_ifs <;> omega

theorem used_push {r : CellRing α n} (h : ¬r.IsFull) (a : α) : (r.push a).used = r.used + 1 := by
  have hw := r.writeIdx_lt
  have hr := r.readIdx_lt
  rw [isFull_iff] at h
  rw [used_eq] at h
  rw [used_eq, used_eq]
  simp only [push, succ_mod r.writeIdx hw]
  split_ifs at h ⊢ <;> omega

theorem used_pop {r : CellRing α n} (h : ¬r.IsEmpty) : r.used = r.pop.2.used + 1 := by
  have hw := r.writeIdx_lt
  have hr := r.readIdx_lt
  rw [IsEmpty] at h
  rw [used_eq, used_eq]
  simp only [pop, succ_mod r.readIdx hr]
  split_ifs <;> omega

/-- A push to a ring that is not full appends. -/
theorem contents_push {r : CellRing α n} (h : ¬r.IsFull) (a : α) :
    (r.push a).contents = r.contents ++ [a] := by
  have hlt := r.used_lt
  rw [isFull_iff] at h
  rw [contents, used_push (by rwa [isFull_iff]), List.range_succ, List.map_append, contents]
  congr 1
  · apply List.map_congr_left
    intro i hi
    rw [List.mem_range] at hi
    -- the cell that is written is not occupied
    have hne : (r.readIdx + i) % n ≠ r.writeIdx := by
      have hw := r.writeIdx_eq
      have hr := r.readIdx_lt
      intro heq
      rw [hw] at heq
      have hmod : i ≡ r.used [MOD n] := Nat.ModEq.add_left_cancel' r.readIdx heq
      rw [Nat.ModEq, Nat.mod_eq_of_lt (by omega), Nat.mod_eq_of_lt hlt] at hmod
      omega
    simp [push, Function.update_of_ne hne]
  · simp [push, ← writeIdx_eq]

/-- A pop from a ring that is not empty removes the first element. -/
theorem contents_pop {r : CellRing α n} (h : ¬r.IsEmpty) : r.contents = r.pop.1 :: r.pop.2.contents := by
  rw [contents, used_pop h, List.range_succ_eq_map, List.map_cons, List.map_map, contents]
  congr 1
  · simp [pop, Nat.mod_eq_of_lt r.readIdx_lt]
  · apply List.map_congr_left
    intro i _
    simp only [pop, Function.comp_apply, Nat.succ_eq_add_one, Nat.mod_add_mod]
    congr 2
    omega

/-! ### The loops -/

/-- The loop appends as many elements as it says, and at least one. -/
theorem pushWhile_spec {r : CellRing α n} (h : ¬r.IsFull) (as : List α) :
    (r.pushWhile as).2.contents = r.contents ++ as.take (r.pushWhile as).1 ∧
      (r.pushWhile as).1 ≤ as.length ∧ (as ≠ [] → 0 < (r.pushWhile as).1) := by
  induction as generalizing r with
  | nil => simp [pushWhile]
  | cons a as ih =>
      rw [pushWhile]
      split_ifs with hfull
      · simp [contents_push h]
      · obtain ⟨hcontents, hle, _⟩ := ih hfull
        simp only [hcontents, contents_push h, List.append_assoc, List.take_succ_cons, List.length_cons,
          List.singleton_append, true_and]
        omega

/-- The loop removes what it returns from the front, and at least one element. -/
theorem popWhile_spec {r : CellRing α n} (h : ¬r.IsEmpty) (count : Nat) :
    r.contents = (r.popWhile count).1 ++ (r.popWhile count).2.contents ∧
      (r.popWhile count).1.length ≤ count ∧ (0 < count → (r.popWhile count).1 ≠ []) := by
  induction count generalizing r with
  | zero => simp [popWhile]
  | succ count ih =>
      rw [popWhile]
      split_ifs with hempty
      · simp [contents_pop h]
      · obtain ⟨hcontents, hle, _⟩ := ih hempty
        rw [contents_pop h, hcontents]
        simpa using hle

/-- A push into a full ring empties it. -/
theorem contents_push_full {r : CellRing α n} (h : r.IsFull) (a : α) : (r.push a).contents = [] :=
  (isEmpty_iff_contents _).1 h

/-- The elements that are left when all have been pushed are the last ones: the distance of the indices wraps. -/
theorem contents_pushAll (r : CellRing α n) (as : List α) :
    (r.pushAll as).contents = (r.contents ++ as).rtake ((r.used + as.length) % n) := by
  induction as using List.reverseRecOn with
  | nil =>
      rw [List.length_nil, Nat.add_zero, Nat.mod_eq_of_lt r.used_lt, List.append_nil, List.rtake, length_contents,
        Nat.sub_self, List.drop_zero]
      rfl
  | append_singleton as a ih =>
      have hpush : r.pushAll (as ++ [a]) = (r.pushAll as).push a := List.foldl_append
      have hused : (r.pushAll as).used = (r.used + as.length) % n := by
        rw [← length_contents, ih, List.rtake, List.length_drop, List.length_append, length_contents]
        exact Nat.sub_sub_self (Nat.mod_le _ _)
      rw [hpush, List.length_append, List.length_singleton, ← List.append_assoc, ← Nat.add_assoc, ← Nat.mod_add_mod,
        ← hused]
      by_cases hfull : (r.pushAll as).IsFull
      · rw [contents_push_full hfull, (isFull_iff _).1 hfull, Nat.mod_self, List.rtake_zero]
      · have hlt : (r.pushAll as).used + 1 < n := by
          have hle := (r.pushAll as).used_lt
          rw [isFull_iff] at hfull
          omega
        rw [contents_push hfull, ih, Nat.mod_eq_of_lt hlt, List.rtake_concat_succ, hused]

/-- The loop removes what it returns from the front. -/
theorem contents_popUntil (r : CellRing α n) (count : Nat) :
    r.contents = (r.popUntil count).1 ++ (r.popUntil count).2.contents := by
  induction count generalizing r with
  | zero => rfl
  | succ count ih =>
      rw [popUntil]
      split
      · rfl
      · rename_i hempty
        rw [contents_pop hempty, ih r.pop.2]
        rfl

end CellRing
