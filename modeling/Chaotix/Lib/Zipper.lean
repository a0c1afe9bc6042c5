/-
Module: Chaotix.Lib.Zipper
Layer: Lib
Purpose: A text with a cursor, as a zipper: what stands before the cursor, the last element first, and what stands
  behind it. Each edit is one case on the side it takes an element from. The lemmas say what moves do to the text and to
  the cursor, and where an element is inserted.
Imports: none (Mathlib-free)
Trusted boundary: none
Main exports: Zipper, Zipper.text, Zipper.cursor, Zipper.insert, Zipper.backspace, Zipper.delete, Zipper.goRight,
  Zipper.goLeft, Zipper.goHome, Zipper.goEnd
-/

/-- A text and a place in it. -/
structure Zipper (α : Type) where
  left : List α
  right : List α

namespace Zipper

variable {α : Type}

/-- The text without the cursor. -/
def text (z : Zipper α) : List α := z.left.reverse ++ z.right

/-- How much of the text is before the cursor. -/
def cursor (z : Zipper α) : Nat := z.left.length

/-- No text. -/
def empty : Zipper α := ⟨[], []⟩

/-- An element is put before the cursor. -/
def insert (z : Zipper α) (a : α) : Zipper α := ⟨a :: z.left, z.right⟩

/-- The element before the cursor is taken away. -/
def backspace : Zipper α → Zipper α
  | ⟨[], right⟩ => ⟨[], right⟩
  | ⟨_ :: left, right⟩ => ⟨left, right⟩

/-- The element at the cursor is taken away. -/
def delete : Zipper α → Zipper α
  | ⟨left, []⟩ => ⟨left, []⟩
  | ⟨left, _ :: right⟩ => ⟨left, right⟩

/-- The cursor goes behind the element at it. -/
def goRight : Zipper α → Zipper α
  | ⟨left, []⟩ => ⟨left, []⟩
  | ⟨left, a :: right⟩ => ⟨a :: left, right⟩

/-- The cursor goes in front of the element before it. -/
def goLeft : Zipper α → Zipper α
  | ⟨[], right⟩ => ⟨[], right⟩
  | ⟨a :: left, right⟩ => ⟨left, a :: right⟩

/-- The cursor goes to the start of the text. -/
def goHome (z : Zipper α) : Zipper α := ⟨[], z.text⟩

/-- The cursor goes to the end of the text. -/
def goEnd (z : Zipper α) : Zipper α := ⟨z.text.reverse, []⟩

section Texts

variable (z : Zipper α)

theorem length_text : z.text.length = z.left.length + z.right.length := by
  rw [text, List.length_append, List.length_reverse]

theorem cursor_le : z.cursor ≤ z.text.length := by
  rw [length_text]
  exact Nat.le_add_right _ _

theorem length_right : z.right.length = z.text.length - z.cursor := by
  rw [length_text, cursor, Nat.add_sub_cancel_left]

/-- Inserting is at the cursor. -/
theorem text_insert (a : α) : (z.insert a).text = z.left.reverse ++ a :: z.right := by
  rw [text, insert, List.reverse_cons, List.append_assoc]
  rfl

/-- Moves leave the text as it is. -/
@[simp] theorem text_goRight : z.goRight.text = z.text := by
  obtain ⟨left, right⟩ := z
  cases right with
  | nil => rfl
  | cons a right => simp [goRight, text]

@[simp] theorem text_goLeft : z.goLeft.text = z.text := by
  obtain ⟨left, right⟩ := z
  cases left with
  | nil => rfl
  | cons a left => simp [goLeft, text]

@[simp] theorem text_goEnd : z.goEnd.text = z.text := by
  simp [goEnd, text]

theorem cursor_goRight : z.goRight.cursor = if z.cursor < z.text.length then z.cursor + 1 else z.cursor := by
  obtain ⟨left, right⟩ := z
  cases right with
  | nil => simp [goRight, cursor, text]
  | cons a right => simp [goRight, cursor, text]

theorem cursor_goLeft : z.goLeft.cursor = z.cursor - 1 := by
  obtain ⟨left, right⟩ := z
  cases left with
  | nil => rfl
  | cons a left => rfl

@[simp] theorem cursor_goEnd : z.goEnd.cursor = z.text.length := by
  simp [goEnd, cursor]

end Texts

end Zipper
