/-
Module: Chaotix.Lib.LinkedList
Layer: Lib
Purpose: Singly linked lists whose links live in the nodes. `LinkedList next head xs` says that following
  `next` from `head` visits exactly the nodes `xs` and then ends. The walk to the last node is given as
  many rounds as there can be nodes, so that it ends on every acyclic list and answers `none` on a
  cyclic one. The same holds of the walk that looks for a node and remembers the one before it, and of the walk that
  visits every node. Setting one link, behind that node or at the head, is how a list is changed in the middle.
Imports: Mathlib.Logic.Function.Basic, Mathlib.Data.List.Nodup
Trusted boundary: none
Main exports: LinkedList, LinkedList.congr, LinkedList.unique, findTail, findTail_eq, LinkedList.append, visit,
  visit_eq, findNode, findNode_eq, LinkedList.nodup, LinkedList.setLink, LinkedList.insert, LinkedList.unlink
-/
import Mathlib.Logic.Function.Basic
import Mathlib.Data.List.Nodup

universe u

variable {N : Type u}

/-- Following `next` from `head` visits exactly the given nodes, in order. -/
def LinkedList (next : N → Option N) : Option N → List N → Prop
  | head, [] => head = none
  | head, x :: xs => head = some x ∧ LinkedList next (next x) xs

/-- The last node reached from `x` in at most `n` rounds. -/
def findTail (next : N → Option N) : Nat → N → Option N
  | 0, _ => none
  | n + 1, x =>
      match next x with
      | none => some x
      | some y => findTail next n y

namespace LinkedList

variable {next next' : N → Option N} {head : Option N} {xs ys : List N}

theorem nil_iff : LinkedList next none xs ↔ xs = [] := by
  cases xs with
  | nil => simp [LinkedList]
  | cons x xs => simp [LinkedList]

/-- A list that starts at a node has that node first. -/
theorem exists_cons {x : N} (h : LinkedList next (some x) xs) :
    ∃ ys, xs = x :: ys ∧ LinkedList next (next x) ys := by
  cases xs with
  | nil => simp [LinkedList] at h
  | cons y ys =>
      obtain ⟨hhead, htail⟩ := h
      obtain rfl : x = y := Option.some.inj hhead
      exact ⟨ys, rfl, htail⟩

/-- Only the links of its own nodes matter to a list. -/
theorem congr (h : LinkedList next head xs) (heq : ∀ x ∈ xs, next' x = next x) :
    LinkedList next' head xs := by
  induction xs generalizing head with
  | nil => exact h
  | cons x xs ih =>
      refine ⟨h.1, ?_⟩
      rw [heq x List.mem_cons_self]
      exact ih h.2 fun y hy => heq y (List.mem_cons_of_mem x hy)

/-- The head determines the list. -/
theorem unique (hx : LinkedList next head xs) (hy : LinkedList next head ys) : xs = ys := by
  induction xs generalizing head ys with
  | nil =>
      obtain rfl : head = none := hx
      exact (nil_iff.1 hy).symm
  | cons x xs ih =>
      obtain ⟨rfl, htail⟩ := hx
      obtain ⟨zs, rfl, hzs⟩ := hy.exists_cons
      rw [ih htail hzs]

end LinkedList

section Append

variable {next : N → Option N} {xs : List N}

/-- The walk finds the last node of a list that is not longer than its rounds. -/
theorem findTail_eq {x : N} {n : Nat} (h : LinkedList next (some x) xs) (hne : xs ≠ [])
    (hn : xs.length ≤ n) : findTail next n x = some (xs.getLast hne) := by
  induction xs generalizing x n with
  | nil => exact absurd rfl hne
  | cons y ys ih =>
      obtain ⟨hhead, htail⟩ := h
      obtain rfl : x = y := Option.some.inj hhead
      cases n with
      | zero => simp at hn
      | succ n =>
          rw [findTail]
          cases ys with
          | nil =>
              have hend : next x = none := htail
              simp [hend]
          | cons z zs =>
              have hnext : next x = some z := htail.1
              rw [hnext] at htail ⊢
              rw [List.getLast_cons (by simp)]
              apply ih htail (by simp)
              simpa using hn

variable [DecidableEq N]

/-- Linking a node behind the last one appends it. -/
theorem LinkedList.append {head : Option N} {y : N} (h : LinkedList next head xs) (hne : xs ≠ [])
    (hnodup : xs.Nodup) (hy : y ∉ xs) :
    LinkedList (Function.update (Function.update next y none) (xs.getLast hne) (some y)) head
      (xs ++ [y]) := by
  induction xs generalizing head with
  | nil => exact absurd rfl hne
  | cons x xs ih =>
      obtain ⟨rfl, htail⟩ := h
      refine ⟨rfl, ?_⟩
      have hyx : y ≠ x := fun heq => hy (heq ▸ List.mem_cons_self)
      cases xs with
      | nil => simp [LinkedList, hyx]
      | cons z zs =>
          have hlast : (x :: z :: zs).getLast hne = (z :: zs).getLast (by simp) :=
            List.getLast_cons (by simp)
          have hx : x ≠ (z :: zs).getLast (by simp) := fun heq =>
            (List.nodup_cons.1 hnodup).1 (heq ▸ List.getLast_mem _)
          rw [hlast, Function.update_of_ne hx, Function.update_of_ne hyx.symm]
          apply ih htail (by simp) (List.nodup_cons.1 hnodup).2
          exact fun hmem => hy (List.mem_cons_of_mem x hmem)

end Append

section Walks

variable {next : N → Option N} {head : Option N} {xs : List N}

/-- The nodes that a walk visits, if it ends within its rounds. -/
def visit (next : N → Option N) : Nat → Option N → Option (List N)
  | _, none => some []
  | 0, some _ => none
  | n + 1, some x => (visit next n (next x)).map (x :: ·)

theorem visit_eq {n : Nat} (h : LinkedList next head xs) (hn : xs.length ≤ n) : visit next n head = some xs := by
  induction xs generalizing head n with
  | nil =>
      obtain rfl : head = none := h
      cases n <;> rfl
  | cons x xs ih =>
      obtain ⟨rfl, htail⟩ := h
      cases n with
      | zero => exact absurd hn (Nat.not_succ_le_zero _)
      | succ n => rw [visit, ih htail (Nat.le_of_succ_le_succ hn), Option.map_some]

/-- The first node that satisfies `p`, if there is one, and the node before it, where `prev` is before `head`. -/
def findNode (next : N → Option N) (p : N → Bool) : Nat → Option N → Option N → Option (Option N × Option N)
  | _, prev, none => some (prev, none)
  | 0, _, some _ => none
  | n + 1, prev, some x => if p x then some (prev, some x) else findNode next p n (some x) (next x)

/-- The walk stops in front of the part of the list that begins with the first such node. -/
theorem findNode_eq {p : N → Bool} {n : Nat} (prev : Option N) (h : LinkedList next head xs) (hn : xs.length ≤ n) :
    ∃ ys zs, xs = ys ++ zs ∧ (∀ y ∈ ys, p y = false) ∧ (∀ z, zs.head? = some z → p z = true) ∧
      findNode next p n prev head = some (ys.getLast?.or prev, zs.head?) := by
  induction xs generalizing head n prev with
  | nil =>
      obtain rfl : head = none := h
      refine ⟨[], [], rfl, nofun, nofun, ?_⟩
      cases n <;> rfl
  | cons x xs ih =>
      obtain ⟨rfl, htail⟩ := h
      cases n with
      | zero => exact absurd hn (Nat.not_succ_le_zero _)
      | succ n =>
          rw [findNode]
          by_cases hx : p x = true
          · refine ⟨[], x :: xs, rfl, nofun, ?_, by rw [if_pos hx]; rfl⟩
            intro z hz
            rwa [← Option.some.inj hz]
          · obtain ⟨ys, zs, rfl, hys, hzs, hwalk⟩ := ih (some x) htail (Nat.le_of_succ_le_succ hn)
            refine ⟨x :: ys, zs, rfl, ?_, hzs, ?_⟩
            · intro y hy
              rcases List.mem_cons.1 hy with rfl | hy
              · exact eq_false_of_ne_true hx
              · exact hys y hy
            · rw [if_neg hx, hwalk, List.getLast?_cons]
              cases ys.getLast? with
              | none => rfl
              | some y => rfl

/-- The head of a list is its first node. -/
theorem LinkedList.head_eq (h : LinkedList next head xs) : head = xs.head? := by
  cases xs with
  | nil => exact h
  | cons x xs => exact h.1

theorem LinkedList.suffix {ys zs : List N} (h : LinkedList next head (ys ++ zs)) : LinkedList next zs.head? zs := by
  induction ys generalizing head with
  | nil =>
      rw [List.nil_append] at h
      rwa [← h.head_eq]
  | cons y ys ih => exact ih h.2

/-- A list that ends visits no node twice. -/
theorem LinkedList.nodup (h : LinkedList next head xs) : xs.Nodup := by
  induction xs generalizing head with
  | nil => exact List.nodup_nil
  | cons x xs ih =>
      refine List.nodup_cons.2 ⟨fun hmem => ?_, ih h.2⟩
      obtain ⟨ys, zs, rfl⟩ := List.append_of_mem hmem
      -- the rest behind the second visit would be the same as behind the first
      have hsame := congrArg List.length (h.2.unique h.2.suffix.2)
      rw [List.length_append, List.length_cons] at hsame
      omega

end Walks

section SetLink

variable [DecidableEq N] {next : N → Option N} {head : Option N} {ys zs : List N}

/-- Let the link behind `prev` point to `target`; without a node before it, that is the head. -/
def LinkedList.setLink (next : N → Option N) (head prev target : Option N) : (N → Option N) × Option N :=
  match prev with
  | some x => (Function.update next x target, head)
  | none => (next, target)

/-- The nodes up to `prev` stay, and the target's list follows them. -/
theorem LinkedList.relink {target : Option N} {zs' : List N} (h : LinkedList next head (ys ++ zs))
    (hnodup : ys.Nodup) (htarget : LinkedList next target zs') (hnew : ∀ z ∈ zs', z ∉ ys) :
    LinkedList (LinkedList.setLink next head ys.getLast? target).1
      (LinkedList.setLink next head ys.getLast? target).2 (ys ++ zs') := by
  induction ys generalizing head with
  | nil => exact htarget
  | cons y ys ih =>
      obtain ⟨rfl, htail⟩ := h
      obtain ⟨hy, hys⟩ := List.nodup_cons.1 hnodup
      cases ys with
      | nil =>
          have hne : ∀ z ∈ zs', z ≠ y := fun z hz heq => hnew z hz (heq ▸ List.mem_cons_self)
          refine ⟨rfl, ?_⟩
          simp only [List.getLast?_singleton, LinkedList.setLink, Function.update_self]
          exact htarget.congr fun z hz => Function.update_of_ne (hne z hz) target next
      | cons x ys =>
          have hrest := ih htail hys fun z hz hmem => hnew z hz (List.mem_cons_of_mem y hmem)
          obtain ⟨last, hlast⟩ : ∃ last, (x :: ys).getLast? = some last := ⟨_, List.getLast?_cons⟩
          have hne : y ≠ last := fun heq => hy (heq ▸ List.mem_of_getLast? hlast)
          rw [hlast, LinkedList.setLink] at hrest
          rw [List.getLast?_cons_cons, hlast, LinkedList.setLink]
          refine ⟨rfl, ?_⟩
          simp only [Function.update_of_ne hne]
          exact hrest

/-- A new node is put between two parts of a list. -/
theorem LinkedList.insert {y : N} (h : LinkedList next head (ys ++ zs)) (hnodup : (ys ++ zs).Nodup) (hy : y ∉ ys ++ zs) :
    LinkedList (LinkedList.setLink (Function.update next y zs.head?) head ys.getLast? (some y)).1
      (LinkedList.setLink (Function.update next y zs.head?) head ys.getLast? (some y)).2 (ys ++ y :: zs) := by
  have hlinked : LinkedList (Function.update next y zs.head?) head (ys ++ zs) :=
    h.congr fun x hx => Function.update_of_ne (ne_of_mem_of_not_mem hx hy) _ next
  have hsuffix := hlinked.suffix
  obtain ⟨hys, _, hdisjoint⟩ := List.nodup_append.1 hnodup
  refine hlinked.relink hys ⟨rfl, ?_⟩ fun z hz hmem => ?_
  · rwa [Function.update_self]
  · rcases List.mem_cons.1 hz with rfl | hz
    · exact hy (List.mem_append_left zs hmem)
    · exact hdisjoint z hmem z hz rfl

/-- A node is taken out of the middle. -/
theorem LinkedList.unlink {y : N} (h : LinkedList next head (ys ++ y :: zs)) (hnodup : (ys ++ y :: zs).Nodup) :
    LinkedList (LinkedList.setLink next head ys.getLast? (next y)).1
      (LinkedList.setLink next head ys.getLast? (next y)).2 (ys ++ zs) := by
  obtain ⟨hys, _, hdisjoint⟩ := List.nodup_append.1 hnodup
  exact h.relink hys h.suffix.2 fun z hz hmem => hdisjoint z hmem z (List.mem_cons_of_mem y hz) rfl

end SetLink
