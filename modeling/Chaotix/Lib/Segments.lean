/-
Module: Chaotix.Lib.Segments
Layer: Lib
Purpose: Finite families of half-open intervals of natural numbers, each given by its base and its size.
  The coverage of a point is how many intervals contain it, so that a family tiles an interval when
  every point of it has coverage one and every other point has none. Splitting and joining
  intervals are equations between multiplicities.
Imports: Mathlib.Tactic
Trusted boundary: none
Main exports: Segment, Segment.covers, coverage, Spaced, Tiles, coverage_split, Tiles.disjoint,
  Tiles.pairwise_disjoint, Tiles.inside
-/
import Mathlib.Tactic

/-- The interval of `size` points from `base` on. -/
abbrev Segment := Nat × Nat

namespace Segment

/-- The point lies in the interval. -/
def covers (s : Segment) (x : Nat) : Bool := decide (s.1 ≤ x ∧ x < s.1 + s.2)

@[simp] theorem covers_iff {s : Segment} {x : Nat} :
    s.covers x = true ↔ s.1 ≤ x ∧ x < s.1 + s.2 := by
  simp [covers]

/-- No point lies in both. -/
def Disjoint (s t : Segment) : Prop := ∀ x, ¬(s.covers x = true ∧ t.covers x = true)

end Segment

open Segment

/-- How many intervals of the family contain the point. -/
def coverage (l : List Segment) (x : Nat) : Nat := l.countP fun s => s.covers x

@[simp] theorem coverage_nil (x : Nat) : coverage [] x = 0 := rfl

theorem coverage_cons (s : Segment) (l : List Segment) (x : Nat) :
    coverage (s :: l) x = coverage [s] x + coverage l x := by
  simp only [coverage, List.countP_cons, List.countP_nil]
  omega

@[simp] theorem coverage_append (l l' : List Segment) (x : Nat) :
    coverage (l ++ l') x = coverage l x + coverage l' x := List.countP_append

theorem coverage_middle (pre post : List Segment) (s : Segment) (x : Nat) :
    coverage (pre ++ s :: post) x = coverage (pre ++ post) x + coverage [s] x := by
  rw [coverage_append, coverage_append, coverage_cons]
  omega

theorem coverage_perm {l l' : List Segment} (h : l.Perm l') (x : Nat) :
    coverage l x = coverage l' x := h.countP_eq _

theorem coverage_singleton (s : Segment) (x : Nat) :
    coverage [s] x = if s.1 ≤ x ∧ x < s.1 + s.2 then 1 else 0 := by
  simp [coverage, List.countP_cons]

/-- An interval cut in two. -/
theorem coverage_split (a m n x : Nat) :
    coverage [(a, m + n)] x = coverage [(a, m)] x + coverage [(a + m, n)] x := by
  simp only [coverage_singleton]
  split_ifs <;> omega

theorem coverage_pos {l : List Segment} {s : Segment} {x : Nat} (hs : s ∈ l)
    (hx : s.covers x = true) : 0 < coverage l x :=
  List.countP_pos_iff.2 ⟨s, hs, hx⟩

/-- The intervals of the family lie apart from each other and in order: none touches the next. -/
def Spaced (l : List Segment) : Prop := l.Pairwise fun s t => s.1 + s.2 < t.1

namespace Spaced

variable {l pre post : List Segment} {s t : Segment}

theorem middle_iff :
    Spaced (pre ++ s :: post) ↔
      Spaced (pre ++ post) ∧ (∀ r ∈ pre, r.1 + r.2 < s.1) ∧ ∀ r ∈ post, s.1 + s.2 < r.1 := by
  simp only [Spaced, List.pairwise_append, List.pairwise_cons, List.mem_cons, forall_eq_or_imp]
  constructor
  · rintro ⟨hpre, ⟨hs, hpost⟩, hcross⟩
    exact ⟨⟨hpre, hpost, fun r hr => (hcross r hr).2⟩, fun r hr => (hcross r hr).1, hs⟩
  · rintro ⟨⟨hpre, hpost, hcross⟩, hbefore, hafter⟩
    exact ⟨hpre, ⟨hafter, hpost⟩, fun r hr => ⟨hbefore r hr, hcross r hr⟩⟩

/-- A spaced family of intervals below `hi` has at most `hi` members. -/
theorem length_le (lo : Nat) {hi : Nat} (h : Spaced l) (hlo : ∀ r ∈ l, lo ≤ r.1) (hhi : ∀ r ∈ l, r.1 < hi)
    (hle : lo ≤ hi) : lo + l.length ≤ hi := by
  induction l generalizing lo with
  | nil => simpa using hle
  | cons s l ih =>
      obtain ⟨hs, hl⟩ := List.pairwise_cons.1 h
      have hrest := ih (s.1 + 1) hl
        (fun r hr => by have := hs r hr; omega)
        (fun r hr => hhi r (List.mem_cons_of_mem s hr))
        (hhi s List.mem_cons_self)
      have := hlo s List.mem_cons_self
      rw [List.length_cons]
      omega

end Spaced

/-- The intervals of the family cover every point from `lo` up to `hi` once, and no other. -/
def Tiles (l : List Segment) (lo hi : Nat) : Prop :=
  ∀ x, coverage l x = if lo ≤ x ∧ x < hi then 1 else 0

namespace Tiles

variable {l l' : List Segment} {lo hi : Nat}

theorem coverage_le_one (h : Tiles l lo hi) (x : Nat) : coverage l x ≤ 1 := by
  rw [h x]
  split <;> omega

/-- Every non-empty interval of a tiling lies inside. -/
theorem inside (h : Tiles l lo hi) {s : Segment} (hs : s ∈ l) (hpos : 0 < s.2) :
    lo ≤ s.1 ∧ s.1 + s.2 ≤ hi := by
  have hinside : ∀ x, s.covers x = true → lo ≤ x ∧ x < hi := by
    intro x hx
    have hcount := coverage_pos hs hx
    rw [h x] at hcount
    by_contra hout
    simp [hout] at hcount
  have hfirst := hinside s.1 (by simp [hpos])
  have hlast := hinside (s.1 + s.2 - 1) (by simp; omega)
  omega

/-- When one segment has come to a part of a tiling, it has gone from the rest. -/
theorem coverage_taken {rest rest' : List Segment} {s : Segment} (h : Tiles (rest ++ l) lo hi)
    (h' : Tiles (rest' ++ s :: l) lo hi) (x : Nat) : coverage rest x = coverage rest' x + coverage [s] x := by
  have hold := h x
  have hnew := h' x
  rw [coverage_append] at hold hnew
  rw [coverage_cons] at hnew
  omega

/-- Intervals from two parts of a tiling are disjoint. -/
theorem disjoint (h : Tiles (l ++ l') lo hi) {s t : Segment} (hs : s ∈ l) (ht : t ∈ l') :
    s.Disjoint t := by
  rintro x ⟨hsx, htx⟩
  have hle := h.coverage_le_one x
  have := coverage_pos hs hsx
  have := coverage_pos ht htx
  rw [coverage_append] at hle
  omega

theorem pairwise_of_le_one (h : ∀ x, coverage l x ≤ 1) : l.Pairwise Segment.Disjoint := by
  induction l with
  | nil => exact List.Pairwise.nil
  | cons s l ih =>
      refine List.pairwise_cons.2 ⟨?_, ih ?_⟩
      · rintro t ht x ⟨hsx, htx⟩
        have hle := h x
        have := coverage_pos ht htx
        have := coverage_pos (List.mem_singleton_self s) hsx
        rw [coverage_cons] at hle
        omega
      · intro x
        have hle := h x
        rw [coverage_cons] at hle
        omega

/-- The intervals of a tiling are pairwise disjoint. -/
theorem pairwise_disjoint (h : Tiles l lo hi) : l.Pairwise Segment.Disjoint :=
  pairwise_of_le_one h.coverage_le_one

/-- Every point inside lies in an interval of the tiling. -/
theorem exists_covers (h : Tiles l lo hi) {x : Nat} (hlo : lo ≤ x) (hhi : x < hi) :
    ∃ s ∈ l, s.covers x = true := by
  have hone := h x
  rw [if_pos ⟨hlo, hhi⟩] at hone
  exact List.countP_pos_iff.1 (by rw [coverage] at hone; omega)

end Tiles
