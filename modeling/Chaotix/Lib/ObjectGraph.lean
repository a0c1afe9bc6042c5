/-
Module: Chaotix.Lib.ObjectGraph
Layer: Lib
Purpose: Objects that refer to each other and are counted. Each object has a count of references, a count of links, and
  edges to other objects. The links of an object are the edges that lead to it; its references are these and the ones
  that are held elsewhere. The accounting is a multiset equation, and there is one rule for each way of changing one
  object. Edges that have been taken out of an object, but whose links have not been taken back yet, are pending.
Imports: Mathlib.Tactic
Trusted boundary: none
Main exports: GraphNode, ObjectGraph, ObjectGraph.edges, Accounted, Accounted.acquire, Accounted.release,
  Accounted.unlink, Accounted.cut, Accounted.attach, Accounted.remove, Accounted.create
-/
import Mathlib.Tactic

/-- An object: how often it is referred to, how many edges lead to it, and where its own edges lead. -/
structure GraphNode where
  refs : ℕ
  links : ℕ
  out : Multiset ℕ

/-- The objects by their addresses. -/
abbrev ObjectGraph := ℕ → Option GraphNode

namespace ObjectGraph

/-- The edges of the object at an address. -/
def out (g : ObjectGraph) (i : ℕ) : Multiset ℕ := ((g i).map GraphNode.out).getD 0

/-- The edges of all objects below a bound. -/
def edges (g : ObjectGraph) (bound : ℕ) : Multiset ℕ := ∑ i ∈ Finset.range bound, g.out i

variable {g : ObjectGraph} {bound i : ℕ} {node : GraphNode}

theorem out_of_some (h : g i = some node) : g.out i = node.out := by
  simp [out, h]

/-- The edges after a change of one object. -/
theorem edges_update (hi : i < bound) (new : Option GraphNode) :
    edges (Function.update g i new) bound + g.out i = edges g bound + (new.map GraphNode.out).getD 0 := by
  have hmem : i ∈ Finset.range bound := Finset.mem_range.2 hi
  have hrest : ∑ j ∈ (Finset.range bound).erase i, out (Function.update g i new) j =
      ∑ j ∈ (Finset.range bound).erase i, g.out j := by
    refine Finset.sum_congr rfl fun j hj => ?_
    simp [out, Finset.ne_of_mem_erase hj]
  have hself : out (Function.update g i new) i = (new.map GraphNode.out).getD 0 := by simp [out]
  rw [edges, edges, ← Finset.add_sum_erase _ _ hmem, hrest, hself, ← Finset.add_sum_erase _ g.out hmem]
  abel

/-- The edges after a change of one object that keeps its edges. -/
theorem edges_update_same (h : g i = some node) {refs links : ℕ} :
    edges (Function.update g i (some { refs := refs, links := links, out := node.out })) bound = edges g bound := by
  refine Finset.sum_congr rfl fun j _ => ?_
  by_cases hj : j = i
  · subst hj
    simp [out, h]
  · simp [out, hj]

/-- The edges after a change of the edges of one object. -/
theorem edges_update_out {new : GraphNode} (hi : i < bound) (h : g i = some node) {gone added : Multiset ℕ}
    (hout : new.out + gone = node.out + added) :
    edges (Function.update g i (some new)) bound + gone = edges g bound + added := by
  have hedges := edges_update (g := g) hi (some new)
  rw [out_of_some h] at hedges
  have hnew : edges (Function.update g i (some new)) bound + node.out = edges g bound + new.out := hedges
  have hsum : edges (Function.update g i (some new)) bound + gone + (node.out + new.out) =
      edges g bound + added + (node.out + new.out) := by
    calc edges (Function.update g i (some new)) bound + gone + (node.out + new.out)
        = (edges (Function.update g i (some new)) bound + node.out) + (new.out + gone) := by abel
      _ = (edges g bound + new.out) + (node.out + added) := by rw [hnew, hout]
      _ = edges g bound + added + (node.out + new.out) := by abel
  exact add_right_cancel hsum

/-- Further objects without an edge to an address add nothing to the edges that lead there. -/
theorem count_edges_congr {g' : ObjectGraph} {bound' : ℕ} (hbound : bound ≤ bound')
    (hold : ∀ j < bound, g'.out j = g.out j) (hnew : ∀ j, bound ≤ j → i ∉ g'.out j) :
    (edges g' bound').count i = (edges g bound).count i := by
  rw [edges, edges, ← Finset.sum_range_add_sum_Ico _ hbound, Multiset.count_add, Multiset.count_sum', Multiset.count_sum',
    Multiset.count_sum']
  have hnone : ∑ j ∈ Finset.Ico bound bound', (g'.out j).count i = 0 :=
    Finset.sum_eq_zero fun j hj => Multiset.count_eq_zero.2 (hnew j (Finset.mem_Ico.1 hj).1)
  rw [hnone, add_zero]
  refine Finset.sum_congr rfl fun j hj => ?_
  rw [hold j (Finset.mem_range.1 hj)]

end ObjectGraph

open ObjectGraph

/-- The counts of the objects are those of two multisets: one of links, and one of references. -/
structure Counts (g : ObjectGraph) (links refs : Multiset ℕ) : Prop where
  links_eq : ∀ i node, g i = some node → node.links = links.count i
  refs_eq : ∀ i node, g i = some node → node.refs = refs.count i
  present : ∀ i ∈ refs, ∃ node, g i = some node

namespace Counts

variable {g : ObjectGraph} {links refs links' refs' : Multiset ℕ} {i : ℕ} {node new : GraphNode}

/-- A change of one object, and of its counts. -/
theorem update (h : Counts g links refs) (hlinks : new.links = links'.count i) (hrefs : new.refs = refs'.count i)
    (hother : ∀ j ≠ i, links'.count j = links.count j ∧ refs'.count j = refs.count j) :
    Counts (Function.update g i (some new)) links' refs' := by
  refine ⟨fun j node' hj => ?_, fun j node' hj => ?_, fun j hj => ?_⟩
  · by_cases hji : j = i
    · subst hji
      obtain rfl : new = node' := by simpa using hj
      exact hlinks
    · rw [Function.update_of_ne hji] at hj
      rw [(hother j hji).1]
      exact h.links_eq j node' hj
  · by_cases hji : j = i
    · subst hji
      obtain rfl : new = node' := by simpa using hj
      exact hrefs
    · rw [Function.update_of_ne hji] at hj
      rw [(hother j hji).2]
      exact h.refs_eq j node' hj
  · by_cases hji : j = i
    · subst hji
      exact ⟨new, by simp⟩
    · rw [Function.update_of_ne hji]
      refine h.present j ?_
      rw [← Multiset.count_pos, ← (hother j hji).2]
      exact Multiset.count_pos.2 hj

end Counts

/-- The accounting: the links of an object are the edges that lead to it, and its references are these and the ones
    that are held. -/
structure Accounted (g : ObjectGraph) (bound : ℕ) (pending held : Multiset ℕ) : Prop where
  bounded : ∀ i node, g i = some node → i < bound
  counts : Counts g (edges g bound + pending) (edges g bound + pending + held)

namespace Accounted

variable {g : ObjectGraph} {bound i : ℕ} {pending held : Multiset ℕ} {node : GraphNode}

/-- The count of references of an object. -/
theorem refs_eq (h : Accounted g bound pending held) (hi : g i = some node) :
    node.refs = node.links + held.count i := by
  rw [h.counts.refs_eq i node hi, h.counts.links_eq i node hi, Multiset.count_add _ _ held]

/-- What is held is there. -/
theorem exists_of_held (h : Accounted g bound pending held) (hi : i ∈ held) : ∃ node, g i = some node ∧ 0 < node.refs := by
  obtain ⟨node, hnode⟩ := h.counts.present i (Multiset.mem_add.2 (.inr hi))
  refine ⟨node, hnode, ?_⟩
  have hpos : 0 < held.count i := Multiset.count_pos.2 hi
  rw [h.refs_eq hnode]
  omega

/-- What an edge leads to is there. -/
theorem exists_of_edge (h : Accounted g bound pending held) {j : ℕ} (hi : g i = some node) (hj : j ∈ node.out) :
    ∃ child, g j = some child ∧ 0 < child.links := by
  have hedge : j ∈ edges g bound := by
    refine Multiset.mem_sum.2 ⟨i, Finset.mem_range.2 (h.bounded i node hi), ?_⟩
    rw [out_of_some hi]
    exact hj
  obtain ⟨child, hchild⟩ := h.counts.present j (Multiset.mem_add.2 (.inl (Multiset.mem_add.2 (.inl hedge))))
  refine ⟨child, hchild, ?_⟩
  rw [h.counts.links_eq j child hchild]
  exact Multiset.count_pos.2 (Multiset.mem_add.2 (.inl hedge))

/-- What a pending edge leads to is there. -/
theorem exists_of_pending (h : Accounted g bound pending held) (hi : i ∈ pending) :
    ∃ node, g i = some node ∧ 0 < node.links := by
  obtain ⟨node, hnode⟩ := h.counts.present i (Multiset.mem_add.2 (.inl (Multiset.mem_add.2 (.inr hi))))
  refine ⟨node, hnode, ?_⟩
  rw [h.counts.links_eq i node hnode]
  exact Multiset.count_pos.2 (Multiset.mem_add.2 (.inr hi))

theorem bounded_update (h : Accounted g bound pending held) (hi : g i = some node) (new : Option GraphNode) :
    ∀ j node', Function.update g i new j = some node' → j < bound := by
  intro j node' hj
  by_cases hji : j = i
  · subst hji
    exact h.bounded j node hi
  · rw [Function.update_of_ne hji] at hj
    exact h.bounded j node' hj

/-- One more reference is held. -/
theorem acquire (h : Accounted g bound pending held) (hi : g i = some node) :
    Accounted (Function.update g i (some { node with refs := node.refs + 1 })) bound pending (i ::ₘ held) := by
  refine ⟨h.bounded_update hi _, ?_⟩
  rw [edges_update_same hi]
  refine h.counts.update (h.counts.links_eq i node hi) ?_ fun j hj => ⟨rfl, ?_⟩
  · simp only [h.counts.refs_eq i node hi, Multiset.count_add, Multiset.count_cons_self]
    omega
  · simp [Multiset.count_cons_of_ne hj]

/-- A reference that is held is given back. -/
theorem release (h : Accounted g bound pending (i ::ₘ held)) (hi : g i = some node) :
    Accounted (Function.update g i (some { node with refs := node.refs - 1 })) bound pending held := by
  refine ⟨h.bounded_update hi _, ?_⟩
  rw [edges_update_same hi]
  refine h.counts.update (h.counts.links_eq i node hi) ?_ fun j hj => ⟨rfl, ?_⟩
  · simp only [h.counts.refs_eq i node hi, Multiset.count_add, Multiset.count_cons_self]
    omega
  · simp [Multiset.count_cons_of_ne hj]

/-- The link of a pending edge is taken back, and the reference that the edge was is held. -/
theorem unlink (h : Accounted g bound (i ::ₘ pending) held) (hi : g i = some node) :
    Accounted (Function.update g i (some { node with links := node.links - 1 })) bound pending (i ::ₘ held) := by
  refine ⟨h.bounded_update hi _, ?_⟩
  rw [edges_update_same hi]
  refine h.counts.update ?_ ?_ fun j hj => ⟨?_, ?_⟩
  · simp only [h.counts.links_eq i node hi, Multiset.count_add, Multiset.count_cons_self]
    omega
  · simp only [h.counts.refs_eq i node hi, Multiset.count_add, Multiset.count_cons_self]
    omega
  · simp [Multiset.count_cons_of_ne hj]
  · simp [Multiset.count_cons_of_ne hj]

/-- Edges are taken out of an object. -/
theorem cut (h : Accounted g bound pending held) (hi : g i = some node) (out gone : Multiset ℕ)
    (hout : out + gone = node.out) :
    Accounted (Function.update g i (some { node with out := out })) bound (gone + pending) held := by
  have hedges := edges_update_out (h.bounded i node hi) hi
    (show ({ node with out := out } : GraphNode).out + gone = node.out + 0 by simpa using hout)
  have hlinks : edges (Function.update g i (some { node with out := out })) bound + (gone + pending) =
      edges g bound + pending := by
    rw [← add_assoc, hedges, add_zero]
  refine ⟨h.bounded_update hi _, ?_⟩
  rw [hlinks]
  exact h.counts.update (h.counts.links_eq i node hi) (h.counts.refs_eq i node hi) fun j _ => ⟨rfl, rfl⟩

/-- A reference that is held becomes an edge, and its link is added. -/
theorem attach {dir : ℕ} {dirNode : GraphNode} (h : Accounted g bound pending (i ::ₘ held)) (hdir : g dir = some dirNode)
    {out : Multiset ℕ} (hout : out = dirNode.out + {i})
    (hi : Function.update g dir (some { dirNode with out := out }) i = some node) :
    Accounted
      (Function.update (Function.update g dir (some { dirNode with out := out })) i
        (some { node with links := node.links + 1 }))
      bound pending held := by
  have hbounded := h.bounded_update hdir (some { dirNode with out := out })
  have hedges := edges_update_out (h.bounded dir dirNode hdir) hdir
    (show ({ dirNode with out := out } : GraphNode).out + 0 = dirNode.out + {i} by simp [hout])
  rw [add_zero] at hedges
  have hcounts : Counts (Function.update g dir (some { dirNode with out := out })) (edges g bound + pending)
      (edges g bound + pending + (i ::ₘ held)) :=
    h.counts.update (h.counts.links_eq dir dirNode hdir) (h.counts.refs_eq dir dirNode hdir) fun j _ => ⟨rfl, rfl⟩
  constructor
  · intro j node' hj
    by_cases hji : j = i
    · subst hji
      exact hbounded j node hi
    · rw [Function.update_of_ne hji] at hj
      exact hbounded j node' hj
  · rw [edges_update_same hi, hedges]
    refine hcounts.update ?_ ?_ fun j hj => ⟨?_, ?_⟩
    · simp only [hcounts.links_eq i node hi, Multiset.count_add, Multiset.count_singleton_self]
      omega
    · simp only [hcounts.refs_eq i node hi, Multiset.count_add, Multiset.count_cons_self, Multiset.count_singleton_self]
      omega
    · simp [hj]
    · simp [Multiset.count_cons_of_ne hj, hj]

/-- An object to which nothing refers, and which refers to nothing, is removed. -/
theorem remove (h : Accounted g bound pending held) (hi : g i = some node) (hrefs : node.refs = 0) (hout : node.out = 0) :
    Accounted (Function.update g i none) bound pending held := by
  have hedges : edges (Function.update g i none) bound = edges g bound := by
    have hupdate := edges_update (g := g) (h.bounded i node hi) none
    rw [out_of_some hi, hout] at hupdate
    simpa using hupdate
  refine ⟨h.bounded_update hi none, ?_⟩
  rw [hedges]
  have hnone : ∀ j ∈ edges g bound + pending + held, j ≠ i := by
    rintro j hj rfl
    have hpos := Multiset.count_pos.2 hj
    rw [← h.counts.refs_eq j node hi, hrefs] at hpos
    exact absurd hpos (lt_irrefl 0)
  have hother : ∀ j node', Function.update g i none j = some node' → g j = some node' := by
    intro j node' hj
    by_cases hji : j = i
    · subst hji
      simp at hj
    · rwa [Function.update_of_ne hji] at hj
  refine ⟨fun j node' hj => h.counts.links_eq j node' (hother j node' hj), fun j node' hj =>
    h.counts.refs_eq j node' (hother j node' hj), fun j hj => ?_⟩
  rw [Function.update_of_ne (hnone j hj)]
  exact h.counts.present j hj

/-- What is not there is nowhere. -/
theorem not_mem (h : Accounted g bound pending held) (hi : g i = none) : i ∉ edges g bound + pending + held := by
  intro hmem
  obtain ⟨node, hnode⟩ := h.counts.present i hmem
  simp [hi] at hnode

/-- A new object, with one reference that is held. -/
theorem create (h : Accounted g bound pending held) :
    Accounted (Function.update g bound (some { refs := 1, links := 0, out := 0 })) (bound + 1) pending
      (bound ::ₘ held) := by
  have hfresh : g bound = none := by
    cases hnode : g bound with
    | none => rfl
    | some node => exact absurd (h.bounded bound node hnode) (lt_irrefl bound)
  have hedges : edges (Function.update g bound (some { refs := 1, links := 0, out := 0 })) (bound + 1) =
      edges g bound := by
    unfold edges
    rw [Finset.sum_range_succ]
    have hlast : ObjectGraph.out (Function.update g bound (some { refs := 1, links := 0, out := 0 })) bound = 0 := by
      simp [ObjectGraph.out]
    rw [hlast, add_zero]
    refine Finset.sum_congr rfl fun j hj => ?_
    have hne : j ≠ bound := by
      rintro rfl
      exact absurd (Finset.mem_range.1 hj) (lt_irrefl j)
    simp [ObjectGraph.out, hne]
  have hnot := h.not_mem hfresh
  constructor
  · intro j node' hj
    by_cases hji : j = bound
    · omega
    · rw [Function.update_of_ne hji] at hj
      exact Nat.lt_succ_of_lt (h.bounded j node' hj)
  · rw [hedges]
    refine h.counts.update ?_ ?_ fun j hj => ⟨rfl, ?_⟩
    · rw [Multiset.mem_add, not_or] at hnot
      exact (Multiset.count_eq_zero.2 hnot.1).symm
    · rw [Multiset.add_cons, Multiset.count_cons_self, Multiset.count_eq_zero.2 hnot]
    · rw [Multiset.add_cons, Multiset.count_cons_of_ne hj]

end Accounted
