/-
Module: Chaotix.Proofs.NonBlockingCalls
Layer: Proofs
Purpose: When a call on a description with `O_NONBLOCK` blocks all the same. Between the two evaluations of its predicate
  another process can take the last byte out of a buffer, or fill it. As long as no step of another process makes the
  predicate of such a call false, the second evaluation gives the answer of the first.
Imports: Mathlib.Tactic, Chaotix.Kernel.NonBlocking
Trusted boundary: none
Main exports: BlocksNonBlocking, Spares, NonBlockingInvariant, nonblocking_calls_never_block
-/
import Mathlib.Tactic
import Chaotix.Kernel.NonBlocking

namespace Chaotix

namespace StreamState

variable {P D : Type} [DecidableEq P] [DecidableEq D]

/-! ### The property -/

/-- The step puts a process into the state `BLOCKED` whose call is on a description with `O_NONBLOCK`. -/
def BlocksNonBlocking (s t : StreamState P D) : Prop :=
  ∃ p call, s.pc p ≠ .blocked call ∧ t.pc p = .blocked call ∧ s.NonBlocking call

/-- What a process that is between the two evaluations needs of the state. -/
def ReadyBetween (s : StreamState P D) (p : P) : Prop :=
  match s.pc p with
  | .schedules call => s.NonBlocking call → s.stream.ShouldUnblock call
  | _ => True

/-- No other process that is between the two evaluations of a non-blocking call finds its predicate false after the
    step. -/
def Spares (s : StreamState P D) (e : StreamEvent P D) : Prop :=
  ∀ p, p ≠ e.actor → s.ReadyBetween p → (s.apply e).ReadyBetween p

/-- Between the two evaluations of a non-blocking call, its predicate is true. -/
def NonBlockingInvariant (s : StreamState P D) : Prop := ∀ p, s.ReadyBetween p

/-! ### Steps -/

variable {s t : StreamState P D} {e : StreamEvent P D} {p : P}

/-- A step moves no process but its actor. -/
theorem apply_pc_of_ne (h : p ≠ e.actor) : (s.apply e).pc p = s.pc p := by
  cases e with
  | call q call => exact setPc_pc_of_ne h _
  | test q =>
      simp only [apply]
      split
      · split
        · exact returns_pc_of_ne h _
        · exact setPc_pc_of_ne h _
      · rfl
  | schedule q =>
      simp only [apply]
      split
      · split <;> exact setPc_pc_of_ne h _
      · rfl
  | unblock q =>
      simp only [apply]
      split
      · exact setPc_pc_of_ne h _
      · rfl
  | interrupt q => exact returns_pc_of_ne h _
  | lockedSection q =>
      simp only [apply]
      split
      · split
        · exact returns_pc_of_ne h _
        · exact setPc_pc_of_ne h _
      · rfl
  | close q desc => rfl
  | setFlags q desc arg => rfl

/-- Where its own step takes a process: to the second evaluation only after the first, and to `BLOCKED` only from
    there. -/
theorem apply_pc_actor (enabled : s.Enabled e) :
    (∀ call, (s.apply e).pc e.actor = .schedules call → (s.apply e).flags = s.flags ∧
      (s.apply e).stream = s.stream ∧ (s.NonBlocking call → s.stream.ShouldUnblock call)) ∧
    ∀ call, (s.apply e).pc e.actor = .blocked call →
      s.pc e.actor = .schedules call ∧ ¬s.stream.ShouldUnblock call := by
  cases e with
  | call q call => simp [apply, StreamEvent.actor]
  | test q =>
      obtain ⟨call, hq⟩ := enabled
      simp only [apply, StreamEvent.actor, hq]
      split
      · simp
      · rename_i hgoes
        refine ⟨fun call' hcall => ?_, by simp⟩
        obtain rfl : call = call' := by simpa using hcall
        exact ⟨rfl, rfl, fun hflag => by_contra fun hready => hgoes ⟨hflag, hready⟩⟩
  | schedule q =>
      obtain ⟨call, hq⟩ := enabled
      simp only [apply, StreamEvent.actor, hq]
      split
      · simp
      · rename_i hblocks
        refine ⟨by simp, fun call' hcall => ?_⟩
        obtain rfl : call = call' := by simpa using hcall
        exact ⟨rfl, hblocks⟩
  | unblock q =>
      obtain ⟨call, hq, _⟩ := enabled
      simp [apply, StreamEvent.actor, hq]
  | interrupt q => simp [apply, StreamEvent.actor]
  | lockedSection q =>
      obtain ⟨call, hq⟩ := enabled
      simp only [apply, StreamEvent.actor, hq]
      split <;> simp
  | close q desc => simp [apply, StreamEvent.actor, enabled.1]
  | setFlags q desc arg => simp [apply, StreamEvent.actor, enabled.1]

/-- A step that spares the others keeps the invariant. -/
theorem nonBlockingInvariant_apply (inv : NonBlockingInvariant s) (enabled : s.Enabled e) (spares : s.Spares e) :
    NonBlockingInvariant (s.apply e) := by
  intro p
  by_cases hp : p = e.actor
  · subst hp
    unfold ReadyBetween
    split
    · rename_i call hcall
      obtain ⟨hflags, hstream, hready⟩ := (apply_pc_actor enabled).1 call hcall
      rw [NonBlocking, hflags, hstream]
      exact hready
    · trivial
  · exact spares p hp (inv p)

/-- From a state in the invariant, no step blocks a process in a non-blocking call. -/
theorem not_blocksNonBlocking (inv : NonBlockingInvariant s) (enabled : s.Enabled e) :
    ¬BlocksNonBlocking s (s.apply e) := by
  rintro ⟨p, call, hbefore, hafter, hflag⟩
  by_cases hp : p = e.actor
  · subst hp
    obtain ⟨hcall, hblocks⟩ := (apply_pc_actor enabled).2 call hafter
    have hready := inv e.actor
    rw [ReadyBetween, hcall] at hready
    exact hblocks (hready hflag)
  · rw [apply_pc_of_ne hp] at hafter
    exact hbefore hafter

/-! ### Runs -/

/-- In every run in which no step of another process makes the predicate of a process between its two evaluations
    false, no call on a description with `O_NONBLOCK` is ever blocked. -/
theorem nonblocking_calls_never_block {xs : List (Transition (StreamState P D) (StreamEvent P D))}
    (hinit : (nonBlockingSystem P D).init s) (run : (nonBlockingSystem P D).Run s xs t)
    (spares : ∀ x ∈ xs, x.before.Spares x.event) : ∀ x ∈ xs, ¬BlocksNonBlocking x.before x.after := by
  have hstart : NonBlockingInvariant s := by
    intro p
    rw [ReadyBetween, hinit.2 p]
    trivial
  intro x hx
  obtain ⟨inv, _⟩ := run.guarded_invariant_mem NonBlockingInvariant
    (fun s e s' inv spares hstep => hstep.2 ▸ nonBlockingInvariant_apply inv hstep.1 spares) hstart spares x hx
  obtain ⟨enabled, happly⟩ := run.step_of_mem x hx
  rw [happly]
  exact not_blocksNonBlocking inv enabled

/-! ### Two readers and one byte -/

/-- A check of `Enabled` that can be computed, for the steps of the calls. -/
def canStep (s : StreamState P D) : StreamEvent P D → Bool
  | .call p call => s.pc p = .outside ∧ s.isOpen call.desc = true ∧ HasFlag (s.flags call.desc) call.access
  | .test p => (s.pc p matches .tests _)
  | .schedule p => (s.pc p matches .schedules _)
  | .lockedSection p => (s.pc p matches .atSection _)
  | .setFlags p desc _ => s.pc p = .outside ∧ s.isOpen desc = true
  | _ => false

omit [DecidableEq P] in
theorem enabled_of_canStep (h : s.canStep e = true) : s.Enabled e := by
  cases e with
  | call p call =>
      rw [canStep, decide_eq_true_eq] at h
      exact h
  | setFlags p desc arg =>
      rw [canStep, decide_eq_true_eq] at h
      exact h
  | test p =>
      cases hpc : s.pc p <;> simp [canStep, hpc] at h
      exact ⟨_, hpc⟩
  | schedule p =>
      cases hpc : s.pc p <;> simp [canStep, hpc] at h
      exact ⟨_, hpc⟩
  | lockedSection p =>
      cases hpc : s.pc p <;> simp [canStep, hpc] at h
      exact ⟨_, hpc⟩
  | unblock p => cases h
  | interrupt p => cases h
  | close p desc => cases h

/-- The state after a step that can be checked. -/
def next (s : StreamState P D) (e : StreamEvent P D) : Option (StreamState P D) :=
  if s.canStep e then some (s.apply e) else none

theorem step_of_next (h : s.next e = some t) : (nonBlockingSystem P D).step s e t := by
  unfold next at h
  split at h
  · rename_i hcan
    exact ⟨enabled_of_canStep hcan, (Option.some.inj h).symm⟩
  · cases h

/-- A pipe whose reading end, description 0, has `O_NONBLOCK`. -/
def nonBlockingPipe : StreamState (Fin 3) (Fin 2) where
  stream := .initialPipe fun _ => 0
  isOpen _ := true
  flags desc := if desc = 0 then O_RDONLY ||| O_NONBLOCK else O_WRONLY
  pc _ := .outside
  result _ := none

theorem nonBlockingPipe_init : (nonBlockingSystem (Fin 3) (Fin 2)).init nonBlockingPipe :=
  ⟨Or.inl ⟨_, rfl⟩, fun _ => rfl⟩

/-- Process 2 writes one byte, process 0 tests, process 1 reads the byte, and then process 0 blocks. -/
theorem nonblocking_reader_blocks :
    ∃ xs s t, (nonBlockingSystem (Fin 3) (Fin 2)).Run nonBlockingPipe xs s ∧
      (nonBlockingSystem (Fin 3) (Fin 2)).step s (.schedule 0) t ∧ s.BlocksNonBlocking t := by
  have hplay : ([.call 2 (.write 1 [7]), .test 2, .schedule 2, .lockedSection 2, .call 0 (.read 0 1), .test 0,
      .call 1 (.read 0 1), .test 1, .schedule 1, .lockedSection 1].foldlM next nonBlockingPipe).any (fun s =>
        s.canStep (.schedule 0) ∧ s.pc 0 ≠ .blocked (.read 0 1) ∧
        (s.apply (.schedule 0)).pc 0 = .blocked (.read 0 1) ∧ s.NonBlocking (.read 0 1)) = true := by
    decide +kernel
  obtain ⟨s, hs, hafter⟩ := (Option.any_eq_true _ _).1 hplay
  obtain ⟨hcan, hbefore, hblocked, hflag⟩ := of_decide_eq_true hafter
  obtain ⟨xs, run, _, _⟩ := TransitionSystem.Run.of_play (M := nonBlockingSystem (Fin 3) (Fin 2)) (fun _ _ => True)
    (fun s e s' hnext => ⟨step_of_next hnext, trivial⟩) hs
  exact ⟨xs, s, _, run, ⟨enabled_of_canStep hcan, rfl⟩, 0, .read 0 1, hbefore, hblocked, hflag⟩

instance (s : StreamState P D) (p : P) : Decidable (s.ReadyBetween p) :=
  match h : s.pc p with
  | .schedules call =>
      decidable_of_iff (s.NonBlocking call → s.stream.ShouldUnblock call) (by simp [ReadyBetween, h])
  | .outside => isTrue (by simp [ReadyBetween, h])
  | .tests _ => isTrue (by simp [ReadyBetween, h])
  | .blocked _ => isTrue (by simp [ReadyBetween, h])
  | .atSection _ => isTrue (by simp [ReadyBetween, h])

instance [Fintype P] (s : StreamState P D) (e : StreamEvent P D) : Decidable (s.Spares e) :=
  inferInstanceAs (Decidable (∀ _, _ → _ → _))

/-- One reader has the byte for itself. -/
theorem nonblocking_calls_never_block_one_reader :
    ∃ xs s, (nonBlockingSystem (Fin 3) (Fin 2)).Run nonBlockingPipe xs s ∧ s.result 0 = some (.read [7]) ∧
      ∀ x ∈ xs, ¬BlocksNonBlocking x.before x.after := by
  have hplay : ([.call 2 (.write 1 [7]), .test 2, .schedule 2, .lockedSection 2, .call 0 (.read 0 1), .test 0,
      .call 1 (.read 0 1), .schedule 0, .lockedSection 0, .test 1].foldlM
        (fun (s : StreamState (Fin 3) (Fin 2)) e => if s.Spares e then next s e else none) nonBlockingPipe).any (fun s =>
          s.result 0 = some (.read [7])) = true := by
    decide +kernel
  obtain ⟨s, hs, hresult⟩ := (Option.any_eq_true _ _).1 hplay
  obtain ⟨xs, run, _, spares⟩ := TransitionSystem.Run.of_play (M := nonBlockingSystem (Fin 3) (Fin 2)) Spares
    (fun s e s' hnext => by
      split at hnext
      · rename_i hspares
        exact ⟨step_of_next hnext, hspares⟩
      · cases hnext) hs
  exact ⟨xs, s, run, of_decide_eq_true hresult, nonblocking_calls_never_block nonBlockingPipe_init run spares⟩

end StreamState

end Chaotix
