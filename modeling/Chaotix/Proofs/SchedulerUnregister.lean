/-
Module: Chaotix.Proofs.SchedulerUnregister
Layer: Proofs
Purpose: The loop of `scheduler_unregister`, round by round. It takes the process out of the list in the round that
  finds it, and then repeats that round for ever; only on a list without the process does it end.
Imports: Mathlib.Tactic, Chaotix.Lib.LinkedList, Chaotix.Kernel.ProcessTable, Chaotix.Proofs.ProcessList
Trusted boundary: none
Main exports: UnregisterLoop.search, UnregisterLoop.run_of_mem, schedulerUnregister_returns_iff,
  scheduler_unregister_iff
-/
import Mathlib.Tactic
import Chaotix.Lib.LinkedList
import Chaotix.Kernel.ProcessTable
import Chaotix.Proofs.ProcessList

namespace Chaotix

namespace ProcessTable

section Loop

variable {P : Type} [DecidableEq P] {next : P → Option P} {head prev : Option P} {process : P} {l ys zs : List P}

namespace UnregisterLoop

/-- The loop walks up to the process, or to the end of the list. -/
theorem search (h : LinkedList next head (ys ++ zs)) (hys : process ∉ ys) (first prev : Option P) :
    (round process)^[ys.length] ⟨next, first, prev, head⟩ = ⟨next, first, ys.getLast?.or prev, zs.head?⟩ := by
  induction ys generalizing head prev with
  | nil =>
      rw [List.nil_append] at h
      rw [h.head_eq]
      rfl
  | cons y ys ih =>
      obtain ⟨rfl, htail⟩ := h
      have hne : y ≠ process := fun heq => hys (heq ▸ List.mem_cons_self)
      have hround : round process ⟨next, first, prev, some y⟩ = ⟨next, first, some y, next y⟩ := by
        simp [round, hne]
      rw [List.length_cons, Function.iterate_succ_apply, hround,
        ih htail (fun hmem => hys (List.mem_cons_of_mem y hmem)), List.getLast?_cons]
      cases ys.getLast? <;> rfl

/-- The round that finds the process takes it out, and every later one does so again. -/
theorem round_found (hprev : prev ≠ some process) :
    ∃ v, round process ⟨next, head, prev, some process⟩ = v ∧ round process v = v ∧ v.it = some process ∧
      (v.next, v.head) = LinkedList.setLink next head prev (next process) := by
  cases prev with
  | none => exact ⟨⟨next, next process, none, some process⟩, by simp [round], by simp [round], rfl, rfl⟩
  | some x =>
      have hne : process ≠ x := fun heq => hprev (heq ▸ rfl)
      refine ⟨⟨Function.update next x (next process), head, some x, some process⟩, by simp [round], ?_, rfl, rfl⟩
      simp [round, Function.update_of_ne hne]

/-- On a list with the process, the loop takes it out and goes on for ever. -/
theorem run_of_mem (h : LinkedList next head l) (hprocess : process ∈ l) :
    ∃ k v, (∀ n, k ≤ n → (round process)^[n] (start next head) = v) ∧ v.it = some process ∧
      LinkedList v.next v.head (l.erase process) := by
  obtain ⟨ys, zs, rfl, hys⟩ := List.eq_append_cons_of_mem hprocess
  have hprev : ys.getLast?.or none ≠ some process := by
    rw [Option.or_none]
    exact fun hlast => hys (List.mem_of_getLast? hlast)
  obtain ⟨v, hfound, hagain, hit, hlinks⟩ := round_found hprev
  have hsearch : (round process)^[ys.length] (start next head) = _ := search h hys head none
  have hlinked := h.unlink h.nodup
  rw [Option.or_none] at hlinks
  rw [← hlinks] at hlinked
  refine ⟨ys.length + 1, v, fun n hn => ?_, hit, ?_⟩
  · obtain ⟨m, rfl⟩ := Nat.exists_eq_add_of_le' hn
    rw [Function.iterate_add_apply, Function.iterate_succ_apply', hsearch, List.head?_cons, hfound]
    exact Function.iterate_fixed hagain m
  · rwa [List.erase_append_right _ hys, List.erase_cons_head]

theorem never_ends (h : LinkedList next head l) (hprocess : process ∈ l) (n : Nat) :
    ((round process)^[n] (start next head)).it ≠ none := by
  intro hend
  obtain ⟨k, v, hrun, hit, -⟩ := run_of_mem h hprocess
  -- a loop that has ended stays so
  have hstays : round process ((round process)^[n] (start next head)) = (round process)^[n] (start next head) := by
    rw [round, hend]
  have hlater := hrun (k + n) (Nat.le_add_right k n)
  rw [Function.iterate_add_apply, Function.iterate_fixed hstays] at hlater
  rw [hlater, hit] at hend
  exact absurd hend (Option.some_ne_none process)

/-- On a list without the process, the loop ends and changes nothing. -/
theorem run_of_notMem (h : LinkedList next head l) (hprocess : process ∉ l) :
    (round process)^[l.length] (start next head) = ⟨next, head, l.getLast?, none⟩ := by
  have hall : LinkedList next head (l ++ []) := by rwa [List.append_nil]
  have hsearch : (round process)^[l.length] (start next head) = _ := search hall hprocess head none
  rw [hsearch, Option.or_none]
  rfl

end UnregisterLoop

/-- `scheduler_unregister` in the system of the processes returns on the lists on which its loop ends. -/
theorem schedulerUnregister_returns_iff {s : ProcessTable P} (h : Listed s l) :
    (∃ t, schedulerUnregister process s = .ok ((), t)) ↔
      ∃ n, ((UnregisterLoop.round process)^[n] (.start s.nextInAllProcesses s.allProcesses)).it = none := by
  by_cases hprocess : process ∈ l
  · refine iff_of_false ?_ ?_
    · rintro ⟨t, hcall⟩
      obtain ⟨ys, zs, rfl, hys, -, hwalk⟩ := findNode_eq (p := fun it => decide (it = process)) none h.linked
        h.length_le
      have hmem : process ∈ zs := by
        refine (List.mem_append.1 hprocess).resolve_left fun hmem => ?_
        exact absurd (hys process hmem) (by simp)
      obtain ⟨z, zs, rfl⟩ := List.exists_cons_of_ne_nil (List.ne_nil_of_mem hmem)
      rw [List.head?_cons] at hwalk
      simp [schedulerUnregister, hwalk] at hcall
    · rintro ⟨n, hend⟩
      exact UnregisterLoop.never_ends h.linked hprocess n hend
  · refine iff_of_true ⟨s, schedulerUnregister_eq h hprocess⟩ ⟨l.length, ?_⟩
    rw [UnregisterLoop.run_of_notMem h.linked hprocess]

/-- `scheduler_unregister` returns, with the process removed and the others in their order, exactly where the process is
    not on the list. -/
theorem scheduler_unregister_iff (h : LinkedList next head l) (process : P) :
    (∃ n v, (UnregisterLoop.round process)^[n] (.start next head) = v ∧ v.it = none ∧
      LinkedList v.next v.head (l.erase process)) ↔ process ∉ l := by
  constructor
  · rintro ⟨n, v, rfl, hend, -⟩ hprocess
    exact UnregisterLoop.never_ends h hprocess n hend
  · intro hprocess
    refine ⟨l.length, _, UnregisterLoop.run_of_notMem h hprocess, rfl, ?_⟩
    rwa [List.erase_of_not_mem hprocess]

end Loop

/-- Two processes, 1 and 2. -/
def twoProcesses : Nat → Option Nat := fun p => if p = 1 then some 2 else none

theorem twoProcesses_linked : LinkedList twoProcesses (some 1) [1, 2] := ⟨rfl, rfl, rfl⟩

/-- A third process is not on their list. -/
theorem scheduler_unregister_third :
    ∃ n v, (UnregisterLoop.round 3)^[n] (.start twoProcesses (some 1)) = v ∧ v.it = none ∧
      LinkedList v.next v.head ([1, 2].erase 3) :=
  (scheduler_unregister_iff twoProcesses_linked 3).2 (by decide)

/-- The loop does not end for the first of them. -/
theorem scheduler_unregister_first :
    LinkedList twoProcesses (some 1) [1, 2] ∧
      ∀ n, ((UnregisterLoop.round 1)^[n] (.start twoProcesses (some 1))).it ≠ none :=
  ⟨twoProcesses_linked, UnregisterLoop.never_ends twoProcesses_linked (by decide)⟩

end ProcessTable

end Chaotix
