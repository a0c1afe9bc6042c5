/-
Module: Chaotix.Lib.NodeList
Layer: Lib
Purpose: Singly linked lists whose nodes are stored in a memory. A memory maps an address to the payload
  and the link of the node stored there, when there is one; address 0 ends a list. `NodeSeg node head
  xs tail` is the segment of a list from `head` up to `tail`. Changing the link of the last node of a
  segment redirects it, and changing anything outside a segment leaves it as it is.
Imports: Mathlib.Logic.Function.Basic, Mathlib.Data.List.Nodup
Trusted boundary: none
Main exports: NodeSeg, NodeSeg.append_iff, NodeSeg.congr, NodeSeg.redirect, NodeSeg.unique,
  NodeSeg.last
-/
import Mathlib.Logic.Function.Basic
import Mathlib.Data.List.Nodup

universe u

variable {V : Type u}

/-- Following the links from `head` visits exactly the given nodes with their payloads, and arrives at
    `tail`. -/
def NodeSeg (node : Nat → Option (V × Nat)) : Nat → List (Nat × V) → Nat → Prop
  | head, [], tail => head = tail
  | head, (a, v) :: xs, tail =>
      head = a ∧ a ≠ 0 ∧ ∃ next, node a = some (v, next) ∧ NodeSeg node next xs tail

namespace NodeSeg

variable {node node' : Nat → Option (V × Nat)} {head tail : Nat} {xs ys : List (Nat × V)}

@[simp] theorem nil_iff : NodeSeg node head [] tail ↔ head = tail := Iff.rfl

theorem cons_iff {x : Nat × V} :
    NodeSeg node head (x :: xs) tail ↔
      head = x.1 ∧ x.1 ≠ 0 ∧ ∃ next, node x.1 = some (x.2, next) ∧ NodeSeg node next xs tail := Iff.rfl

/-- Two segments, one after the other. -/
theorem append_iff :
    NodeSeg node head (xs ++ ys) tail ↔ ∃ mid, NodeSeg node head xs mid ∧ NodeSeg node mid ys tail := by
  induction xs generalizing head with
  | nil => simp
  | cons x xs ih =>
      simp only [List.cons_append, cons_iff, ih]
      constructor
      · rintro ⟨hhead, hne, next, hnode, mid, hxs, hys⟩
        exact ⟨mid, ⟨hhead, hne, next, hnode, hxs⟩, hys⟩
      · rintro ⟨mid, ⟨hhead, hne, next, hnode, hxs⟩, hys⟩
        exact ⟨hhead, hne, next, hnode, mid, hxs, hys⟩

/-- Only the nodes of a segment matter to it. -/
theorem congr (h : NodeSeg node head xs tail) (heq : ∀ x ∈ xs, node' x.1 = node x.1) :
    NodeSeg node' head xs tail := by
  induction xs generalizing head with
  | nil => exact h
  | cons x xs ih =>
      obtain ⟨hhead, hne, next, hnode, hrest⟩ := h
      refine ⟨hhead, hne, next, ?_, ih hrest fun y hy => heq y (List.mem_cons_of_mem x hy)⟩
      rw [heq x List.mem_cons_self, hnode]

/-- A segment that ends the list is empty exactly when it starts with 0. -/
theorem eq_nil_iff (h : NodeSeg node head xs 0) : xs = [] ↔ head = 0 := by
  cases xs with
  | nil => simpa using h
  | cons x xs => simp [h.1, h.2.1]

/-- Every node of a segment is stored in the memory. -/
theorem exists_node (h : NodeSeg node head xs tail) {x : Nat × V} (hx : x ∈ xs) :
    x.1 ≠ 0 ∧ ∃ next, node x.1 = some (x.2, next) := by
  induction xs generalizing head with
  | nil => simp at hx
  | cons y ys ih =>
      obtain ⟨_, hne, next, hnode, hrest⟩ := h
      rcases List.mem_cons.1 hx with rfl | hx
      · exact ⟨hne, next, hnode⟩
      · exact ih hrest hx

/-- The head of a list determines it. -/
theorem unique (hx : NodeSeg node head xs 0) (hy : NodeSeg node head ys 0) : xs = ys := by
  induction xs generalizing head ys with
  | nil =>
      obtain rfl : head = 0 := hx
      exact (hy.eq_nil_iff.2 rfl).symm
  | cons x xs ih =>
      obtain ⟨rfl, hne, next, hnode, hrest⟩ := hx
      cases ys with
      | nil => exact absurd hy hne
      | cons y ys =>
          obtain ⟨hhead, _, next', hnode', hrest'⟩ := hy
          rw [← hhead, hnode] at hnode'
          simp only [Option.some.injEq, Prod.mk.injEq] at hnode'
          obtain ⟨hv, rfl⟩ := hnode'
          rw [ih hrest hrest', Prod.ext hhead hv]

/-- Changing the link of the last node of a segment redirects the segment. -/
theorem redirect {x : Nat × V} {tail' : Nat}
    (h : NodeSeg node head (xs ++ [x]) tail)
    (hsame : ∀ y ∈ xs, node' y.1 = node y.1) (hlink : node' x.1 = some (x.2, tail')) :
    NodeSeg node' head (xs ++ [x]) tail' := by
  obtain ⟨mid, hxs, hlast⟩ := append_iff.1 h
  exact append_iff.2 ⟨mid, hxs.congr hsame, hlast.1, hlast.2.1, tail', hlink, rfl⟩

/-- The address of the last node of a segment, 0 when there is none. -/
def last (xs : List (Nat × V)) : Nat := (xs.getLast?.map Prod.fst).getD 0

@[simp] theorem last_nil : last ([] : List (Nat × V)) = 0 := rfl

@[simp] theorem last_concat (xs : List (Nat × V)) (x : Nat × V) : last (xs ++ [x]) = x.1 := by
  simp [last]

end NodeSeg
