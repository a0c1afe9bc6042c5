/-
Module: Chaotix.Lib.EvictingQueue
Layer: Lib
Purpose: A bounded queue that evicts its oldest elements, and what a ring does in its place when elements are pushed
  without looking whether it is full. The ring has the newest elements exactly when the pushed ones fit, or when the
  write index comes to rest one cell behind the read index. The run rule is for any system that has such a ring in its
  state.
Imports: Chaotix.Lib.CellRing, Chaotix.Lib.Transition
Trusted boundary: none
Main exports: QueueUse, newest, CellRing.Uses, CellRing.Fits, CellRing.Uses.newest_iff, HasNewest, Run.newest_iff
-/
import Chaotix.Lib.CellRing
import Chaotix.Lib.Transition

/-- Elements are put behind those of a queue, or taken from its front. -/
inductive QueueUse (α : Type) where
  | put (as : List α)
  | take (as : List α)

/-- The queue that has room for `capacity` elements and evicts the oldest. -/
def newest {α : Type} (capacity : Nat) (q : List α) : QueueUse α → List α
  | .put as => (q ++ as).rtake capacity
  | .take as => q.drop as.length

/-- What is taken is what stands at the front. -/
def Delivers {α : Type} (q : List α) : QueueUse α → Prop
  | .put _ => True
  | .take as => as <+: q

namespace CellRing

variable {α : Type} {n : Nat} {r r' : CellRing α n} {u : QueueUse α}

/-- The ring is used as a queue, where pushes do not stop at a full ring. -/
def Uses (r : CellRing α n) (u : QueueUse α) (r' : CellRing α n) : Prop :=
  match u with
  | .put as => r' = r.pushAll as
  | .take as => r.contents = as ++ r'.contents

/-- The pushed elements fit into the free cells, or the write index ends one cell behind the read index. -/
def Fits (r : CellRing α n) : QueueUse α → Prop
  | .put as => r.used + as.length < n ∨ (r.used + as.length) % n = n - 1
  | .take _ => True

/-- The last elements of a list, by how many there are. -/
theorem rtake_eq_rtake_iff {l : List α} {i j : Nat} : l.rtake i = l.rtake j ↔ min i l.length = min j l.length := by
  constructor
  · intro h
    have hlength := congrArg List.length h
    simp only [List.rtake, List.length_drop] at hlength
    omega
  · intro h
    rw [List.rtake, List.rtake]
    congr 1
    omega

/-- The ring has the newest elements exactly when the pushed ones fit. -/
theorem Uses.newest_iff (h : r.Uses u r') : r'.contents = newest (n - 1) r.contents u ↔ r.Fits u := by
  have hused := r.used_lt
  cases u with
  | put as =>
      have hpush : r' = r.pushAll as := h
      have hmod := Nat.mod_lt (r.used + as.length) r.size_pos
      rw [hpush, contents_pushAll, newest, rtake_eq_rtake_iff, List.length_append, length_contents, Fits,
        Nat.min_eq_left (Nat.mod_le _ _)]
      by_cases hfits : r.used + as.length < n
      · rw [Nat.mod_eq_of_lt hfits, Nat.min_eq_right (by omega)]
        simp [hfits]
      · rw [Nat.min_eq_left (by omega)]
        simp [hfits]
  | take as =>
      have htake : r.contents = as ++ r'.contents := h
      simp [newest, htake, Fits]

/-- What the ring gives stands at its front. -/
theorem Uses.delivers (h : r.Uses u r') : Delivers r.contents u := by
  cases u with
  | put as => trivial
  | take as =>
      have htake : r.contents = as ++ r'.contents := h
      exact ⟨r'.contents, htake.symm⟩

end CellRing

/-- In this transition the ring delivers what the queue has, and then holds the newest elements. -/
def HasNewest {σ ε α : Type} {n : Nat} (ring : σ → CellRing α n) (use : ε → QueueUse α)
    (x : Transition (σ × List α) ε) : Prop :=
  Delivers x.before.2 (use x.event) ∧ (ring x.after.1).contents = x.after.2

namespace TransitionSystem

variable {σ ε α : Type} {n : Nat} {M : TransitionSystem σ ε}

/-- A system beside the queue that evicts the oldest elements. -/
def withNewest (M : TransitionSystem σ ε) (capacity : Nat) (use : ε → QueueUse α) :
    TransitionSystem (σ × List α) ε :=
  M.observed [] fun q e => newest capacity q (use e)

theorem withNewest_step {s s' : σ} {e : ε} (h : M.step s e s') (capacity : Nat) (use : ε → QueueUse α) (q : List α) :
    (M.withNewest capacity use).step (s, q) e (s', newest capacity q (use e)) :=
  ⟨h, rfl⟩

/-- A run keeps the newest elements exactly when all pushes of it fit. -/
theorem Run.newest_iff (ring : σ → CellRing α n) (use : ε → QueueUse α)
    (hstep : ∀ s e s', M.step s e s' → (ring s).Uses (use e) (ring s')) {p q : σ × List α}
    {xs : List (Transition (σ × List α) ε)} (run : Run (M.withNewest (n - 1) use) p xs q)
    (hstart : (ring p.1).contents = p.2) :
    (∀ x ∈ xs, HasNewest ring use x) ↔ ∀ x ∈ xs, (ring x.before.1).Fits (use x.event) := by
  have keeps : ∀ p e p', (ring p.1).contents = p.2 → (ring p.1).Fits (use e) → (M.withNewest (n - 1) use).step p e p' →
      (ring p'.1).contents = p'.2 := by
    intro p e p' hcontents hfits hnext
    rw [hnext.2, ← hcontents]
    exact (hstep _ _ _ hnext.1).newest_iff.2 hfits
  have delivers : ∀ p e p', (ring p.1).contents = p.2 → (M.withNewest (n - 1) use).step p e p' →
      Delivers p.2 (use e) := by
    intro p e p' hcontents hnext
    rw [← hcontents]
    exact (hstep _ _ _ hnext.1).delivers
  exact run.guarded_iff (fun p e p' => Delivers p.2 (use e) ∧ (ring p'.1).contents = p'.2) keeps
    (fun p e p' hcontents hfits hnext => ⟨delivers p e p' hcontents hnext, keeps p e p' hcontents hfits hnext⟩)
    (fun p e p' hcontents hnext hholds => by
      have hsame := hholds.2
      rw [hnext.2, ← hcontents] at hsame
      exact (hstep _ _ _ hnext.1).newest_iff.1 hsame)
    hstart

end TransitionSystem
