/-
Module: Chaotix.Proofs.DyingProcesses
Layer: Proofs
Purpose: A process that is `DYING` only becomes `DEAD`, in exactly the runs in which no `DYING` process
  reaches the statement of `scheduler_block` that sets its state. The three other places that write a
  state write the one of a `BLOCKED` process, of a new process or of `idle`, none of which is `DYING`,
  whatever the order of preemptions; the ready queue may be corrupt.
Imports: Mathlib.Tactic, Chaotix.Kernel.Scheduler, Chaotix.Proofs.SchedulerQueue
Trusted boundary: none
Main exports: Doomed, DoomedStay, DyingGuard, DoomInvariant, doomState_step, dying_is_final_iff
-/
import Mathlib.Tactic
import Chaotix.Kernel.Scheduler
import Chaotix.Proofs.SchedulerQueue

namespace Chaotix

variable {P : Type}

/-- A process that will not run user code again. -/
def Doomed (st : ProcessState) : Prop := st = .DYING ∨ st = .DEAD

/-- No process leaves `DYING` but for `DEAD`, and none leaves `DEAD`. -/
def DoomedStay (s s' : Scheduler P) : Prop :=
  ∀ p, (s.state p = .DYING → Doomed (s'.state p)) ∧ (s.state p = .DEAD → s'.state p = .DEAD)

/-- The current process is not `DYING` when it reaches the statement that sets its state to
    `BLOCKED`. -/
def DyingGuard (s : Scheduler P) : SchedulerEvent P → Prop
  | .statement _ => ∀ f data, s.pc s.current = .block .setState f data → s.state s.current ≠ .DYING
  | _ => True

theorem DoomedStay.refl (s : Scheduler P) : DoomedStay s s := fun _ => ⟨Or.inl, id⟩

theorem DoomedStay.of_state {s s' : Scheduler P} (h : s'.state = s.state) : DoomedStay s s' := by
  intro p
  rw [h]
  exact ⟨Or.inl, id⟩

theorem DoomedStay.trans {s s' s'' : Scheduler P} (h : DoomedStay s s') (h' : DoomedStay s' s'') :
    DoomedStay s s'' := by
  intro p
  constructor
  · intro hdying
    rcases (h p).1 hdying with hdying | hdead
    · exact (h' p).1 hdying
    · exact Or.inr ((h' p).2 hdead)
  · exact fun hdead => (h' p).2 ((h p).2 hdead)

theorem DoomedStay.setState [DecidableEq P] {s : Scheduler P} {p : P} {st : ProcessState}
    (hdying : s.state p = .DYING → Doomed st) (hdead : s.state p = .DEAD → st = .DEAD) :
    DoomedStay s { s with state := Function.update s.state p st } := by
  intro q
  by_cases heq : q = p
  · subst heq
    simpa using ⟨hdying, hdead⟩
  · simpa [Function.update_of_ne heq] using DoomedStay.refl s q

/-! ### The invariant -/

/-- Who can be signalled, queued or created. Only allocated processes are doomed, so that a new process
    never is; `idle` is never signalled. -/
structure DoomInvariant (s : Scheduler P) : Prop where
  idle_allocated : s.idle ∈ s.allocated
  idle_outside : s.pc s.idle = .outside
  idle_unsignalled : s.pendingSignals s.idle = false
  idle_alive : ¬Doomed (s.state s.idle)
  current_allocated : s.current ∈ s.allocated
  listed : ∀ p ∈ s.allProcesses, p ∈ s.allocated ∧ p ≠ s.idle
  head_allocated : ∀ p, s.readyQueue = some p → p ∈ s.allocated
  next_allocated : ∀ p q, s.nextInReadyQueue p = some q → q ∈ s.allocated
  child_allocated : ∀ p c, s.pc p = .registering c → c ∈ s.allocated
  doomed_allocated : ∀ p, Doomed (s.state p) → p ∈ s.allocated

namespace DoomInvariant

variable {s : Scheduler P}

/-- Changing the queue among allocated processes. -/
theorem setQueue {head : Option P} {next : P → Option P} (inv : DoomInvariant s)
    (hhead : ∀ p, head = some p → p ∈ s.allocated)
    (hnext : ∀ p q, next p = some q → q ∈ s.allocated) :
    DoomInvariant { s with readyQueue := head, nextInReadyQueue := next } :=
  ⟨inv.1, inv.2, inv.3, inv.4, inv.5, inv.6, hhead, hnext, inv.9, inv.10⟩

/-- Changing what the process that blocks has stored. -/
theorem setFields (inv : DoomInvariant s) (su bd : P → Nat) (bwi : P → Bool) (br : P → Option Errno) :
    DoomInvariant { s with
      shouldUnblock := su, blockerData := bd, blockerWasInterrupted := bwi, blockReturn := br } :=
  ⟨inv.1, inv.2, inv.3, inv.4, inv.5, inv.6, inv.7, inv.8, inv.9, inv.10⟩

theorem ne_idle (inv : DoomInvariant s) {p : P} (hpc : s.pc p ≠ .outside) : p ≠ s.idle := by
  rintro rfl
  exact hpc inv.idle_outside

variable [DecidableEq P]

/-- Changing the state of an allocated process. -/
theorem setState {p : P} (inv : DoomInvariant s) (st : ProcessState) (hp : p ∈ s.allocated)
    (hidle : p = s.idle → ¬Doomed st) :
    DoomInvariant { s with state := Function.update s.state p st } := by
  refine ⟨inv.1, inv.2, inv.3, ?_, inv.5, inv.6, inv.7, inv.8, inv.9, ?_⟩
  · by_cases heq : s.idle = p
    · simpa [heq] using hidle heq.symm
    · simpa [Function.update_of_ne heq] using inv.idle_alive
  · intro q hq
    by_cases heq : q = p
    · rwa [heq]
    · exact inv.doomed_allocated q (by simpa [Function.update_of_ne heq] using hq)

/-- Moving a process that is not `idle` to another control point. -/
theorem setPc {p : P} {pc : SchedulerPc P} (inv : DoomInvariant s) (hidle : p ≠ s.idle)
    (hchild : ∀ c, pc = .registering c → c ∈ s.allocated) :
    DoomInvariant { s with pc := Function.update s.pc p pc } := by
  refine ⟨inv.1, ?_, inv.3, inv.4, inv.5, inv.6, inv.7, inv.8, ?_, inv.10⟩
  · simpa [Function.update_of_ne hidle.symm] using inv.idle_outside
  · intro q c hq
    by_cases heq : q = p
    · exact hchild c (by simpa [heq] using hq)
    · exact inv.child_allocated q c (by simpa [Function.update_of_ne heq] using hq)

end DoomInvariant

/-! ### What the functions keep -/

/-- The states may change, but no process that is doomed recovers. -/
def Keeps (s t : Scheduler P) : Prop := DoomInvariant t ∧ DoomedStay s t

theorem Keeps.trans {s t u : Scheduler P} (h : Keeps s t) (h' : Keeps t u) : Keeps s u :=
  ⟨h'.1, h.2.trans h'.2⟩

section Functions

variable [DecidableEq P] {s : Scheduler P}

theorem schedulerEnqueue_keeps (inv : DoomInvariant s) {p : P} (hp : p ∈ s.allocated) :
    Ensures (schedulerEnqueue p) s fun _ t =>
      DoomInvariant t ∧ t.state = s.state ∧ t.current = s.current ∧ t.pc = s.pc ∧
        t.allocated = s.allocated := by
  have hnext : ∀ x q, Function.update s.nextInReadyQueue p none x = some q → q ∈ s.allocated := by
    intro x q hq
    by_cases heq : x = p
    · simp [heq] at hq
    · exact inv.next_allocated x q (by simpa [Function.update_of_ne heq] using hq)
  simp only [schedulerEnqueue, ensures_bind, ensures_get, ensures_modify, assert, ensures_require]
  intro _
  cases hhead : s.readyQueue with
  | none =>
      refine ⟨inv.setQueue ?_ hnext, rfl, rfl, rfl, rfl⟩
      rintro _ ⟨⟩
      exact hp
  | some head =>
      simp only
      cases htail : findTail (Function.update s.nextInReadyQueue p none) s.allocated.length head with
      | none => exact trivial
      | some tail =>
          have hnext' : ∀ x q, Function.update (Function.update s.nextInReadyQueue p none) tail (some p) x =
              some q → q ∈ s.allocated := by
            intro x q hq
            by_cases heq : x = tail
            · rw [heq, Function.update_self] at hq
              exact Option.some.inj hq ▸ hp
            · exact hnext x q (by simpa [Function.update_of_ne heq] using hq)
          exact ⟨inv.setQueue (fun q hq => inv.head_allocated q (hhead ▸ hq)) hnext', rfl, rfl, rfl, rfl⟩

theorem unblockProcess_keeps (inv : DoomInvariant s) (answers : Nat → Nat → Bool) {p : P}
    (hp : p ∈ s.allocated) :
    Ensures (unblockProcess answers p) s fun _ t => Keeps s t ∧ t.allocated = s.allocated := by
  simp only [unblockProcess, ensures_bind, ensures_get]
  by_cases hblocked : s.state p = .BLOCKED
  · rw [if_pos hblocked]
    simp only [ensures_bind, assert, ensures_require]
    intro _
    split_ifs
    · rw [ensures_bind, ensures_set]
      have hstate : DoomedStay s { s with state := Function.update s.state p .RUNNING } :=
        .setState (by simp [hblocked]) (by simp [hblocked])
      have inv' := (inv.setState .RUNNING hp (by simp [Doomed])).setFields
        (Function.update s.shouldUnblock p 0) (Function.update s.blockerData p 0)
        (Function.update s.blockerWasInterrupted p (s.pendingSignals p)) s.blockReturn
      apply (schedulerEnqueue_keeps inv' hp).mono
      rintro _ t ⟨hinv, hsame, _, _, hallocated⟩
      exact ⟨⟨hinv, hstate.trans (.of_state hsame)⟩, hallocated⟩
    · exact ⟨⟨inv, .refl s⟩, rfl⟩
  · rw [if_neg hblocked]
    exact ⟨⟨inv, .refl s⟩, rfl⟩

theorem unblockProcesses_keeps (inv : DoomInvariant s) (answers : Nat → Nat → Bool) :
    Ensures (unblockProcesses answers) s fun _ t => Keeps s t := by
  simp only [unblockProcesses, ensures_bind, ensures_get]
  apply (Ensures.forM (fun t => Keeps s t ∧ t.allocated = s.allocated) ⟨⟨inv, .refl s⟩, rfl⟩ ?_).mono
  · exact fun _ _ h => h.1
  · rintro p hp t ⟨keeps, hallocated⟩
    apply (unblockProcess_keeps keeps.1 answers (hallocated ▸ (inv.listed p hp).1)).mono
    exact fun _ _ h => ⟨keeps.trans h.1, h.2.trans hallocated⟩

theorem schedulerDeque_keeps (inv : DoomInvariant s) :
    Ensures schedulerDeque s fun p t => DoomInvariant t ∧ t.state = s.state ∧ p ∈ t.allocated := by
  simp only [schedulerDeque, ensures_bind, ensures_get]
  cases hhead : s.readyQueue with
  | none => exact ⟨inv, rfl, inv.idle_allocated⟩
  | some p =>
      simp only [ensures_bind, ensures_set, assert, ensures_require]
      intro _
      refine ⟨inv.setQueue (inv.next_allocated p) ?_, rfl, inv.head_allocated p hhead⟩
      intro x q hq
      by_cases heq : x = p
      · simp [heq] at hq
      · exact inv.next_allocated x q (by simpa [Function.update_of_ne heq] using hq)

theorem processHandlePendingSignals_keeps (inv : DoomInvariant s) (halive : s.state s.current ≠ .DEAD) :
    Ensures processHandlePendingSignals s fun _ t =>
      Keeps s t ∧ t.current = s.current ∧ t.state t.current ≠ .DEAD := by
  simp only [processHandlePendingSignals, ensures_bind, ensures_get]
  by_cases hpending : s.pendingSignals s.current = true
  · rw [if_pos hpending, ensures_set]
    have hidle : s.current ≠ s.idle := by
      intro heq
      rw [heq, inv.idle_unsignalled] at hpending
      simp at hpending
    have inv' := inv.setState .DYING inv.current_allocated fun h => absurd h hidle
    have hstay : DoomedStay s { s with state := Function.update s.state s.current .DYING } :=
      .setState (fun _ => Or.inl rfl) fun h => absurd h halive
    refine ⟨⟨⟨inv'.1, inv'.2, ?_, inv'.4, inv'.5, inv'.6, inv'.7, inv'.8, inv'.9, inv'.10⟩, hstay⟩, rfl, ?_⟩
    · simpa [Function.update_of_ne hidle.symm] using inv.idle_unsignalled
    · simp
  · rw [if_neg hpending]
    exact ⟨⟨inv, .refl s⟩, rfl, halive⟩

theorem switchToNextProcess_keeps (inv : DoomInvariant s) (answers : Nat → Nat → Bool) :
    Ensures (switchToNextProcess answers) s fun _ t => Keeps s t ∧ t.state t.current ≠ .DEAD := by
  simp only [switchToNextProcess, ensures_bind]
  apply (unblockProcesses_keeps inv answers).mono
  intro _ t1 keeps1
  apply (schedulerDeque_keeps keeps1.1).mono
  rintro next t2 ⟨inv2, hstate2, hnext⟩
  simp only [ensures_modify, ensures_get, assert, ensures_require]
  intro halive
  have inv3 : DoomInvariant { t2 with current := next } :=
    ⟨inv2.1, inv2.2, inv2.3, inv2.4, hnext, inv2.6, inv2.7, inv2.8, inv2.9, inv2.10⟩
  apply (processHandlePendingSignals_keeps inv3 halive).mono
  rintro _ t4 ⟨keeps4, _, halive4⟩
  have hkeeps : Keeps s t4 :=
    ⟨keeps4.1, (keeps1.2.trans (.of_state hstate2)).trans keeps4.2⟩
  split_ifs with hrunnable
  · refine ⟨hkeeps.trans ⟨?_, ?_⟩, by simp⟩
    · exact keeps4.1.setState .RUNNING keeps4.1.current_allocated (by simp [Doomed])
    · exact .setState (by simp [hrunnable]) (by simp [hrunnable])
  · exact ⟨hkeeps, halive4⟩

theorem schedulerYield_keeps (inv : DoomInvariant s) (requeueCurrent : Bool)
    (answers : Nat → Nat → Bool) :
    Ensures (schedulerYield requeueCurrent answers) s fun _ t =>
      Keeps s t ∧ t.state t.current ≠ .DEAD := by
  simp only [schedulerYield, ensures_bind, ensures_get]
  split_ifs with hidle hrequeue
  · rw [ensures_bind, ensures_set]
    have hstay : DoomedStay s { s with state := Function.update s.state s.idle .RUNNABLE } :=
      .setState (fun h => absurd (Or.inl h) inv.idle_alive) fun h => absurd (Or.inr h) inv.idle_alive
    apply (switchToNextProcess_keeps (inv.setState .RUNNABLE inv.idle_allocated
      (by simp [Doomed])) answers).mono
    rintro _ t ⟨keeps, halive⟩
    exact ⟨⟨keeps.1, hstay.trans keeps.2⟩, halive⟩
  · rw [ensures_bind]
    apply (schedulerEnqueue_keeps inv inv.current_allocated).mono
    rintro _ t1 ⟨inv1, hstate1, _⟩
    apply (switchToNextProcess_keeps inv1 answers).mono
    rintro _ t ⟨keeps, halive⟩
    exact ⟨⟨keeps.1, (DoomedStay.of_state hstate1).trans keeps.2⟩, halive⟩
  · exact switchToNextProcess_keeps inv answers

/-- The statements of `scheduler_block`, but for the one that sets the state of a `DYING` process. -/
theorem schedulerBlockStatement_keeps (inv : DoomInvariant s) (halive : s.state s.current ≠ .DEAD)
    {point : BlockPoint} {f data : Nat} (hpc : s.pc s.current = .block point f data)
    (answers : Nat → Nat → Bool) (guard : point = .setState → s.state s.current ≠ .DYING) :
    Ensures (schedulerBlockStatement point f data answers) s fun _ t =>
      Keeps s t ∧ t.state t.current ≠ .DEAD := by
  have hidle : s.current ≠ s.idle := inv.ne_idle (by simp [hpc])
  have hmove : ∀ pc : SchedulerPc P, (∀ c, pc ≠ .registering c) →
      Keeps s { s with pc := Function.update s.pc s.current pc } := fun pc hchild =>
    ⟨inv.setPc hidle fun c hc => absurd hc (hchild c), .of_state rfl⟩
  simp only [schedulerBlockStatement, ensures_bind, ensures_get]
  cases point with
  | assertShouldUnblock =>
      simp only [ensures_bind, assert, ensures_require, setPc, ensures_modify]
      exact fun _ => ⟨hmove _ (by simp), halive⟩
  | assertBlockerData =>
      simp only [ensures_bind, assert, ensures_require, setPc, ensures_modify]
      exact fun _ => ⟨hmove _ (by simp), halive⟩
  | test =>
      simp only
      split_ifs
      · simp only [ensures_bind, ensures_set, setPc, ensures_modify]
        exact ⟨⟨(hmove .outside (by simp)).1.setFields _ _ _ _, .of_state rfl⟩, halive⟩
      · simp only [setPc, ensures_modify]
        exact ⟨hmove _ (by simp), halive⟩
  | setState =>
      simp only [ensures_bind, ensures_set, setPc, ensures_modify]
      have inv' := inv.setState .BLOCKED inv.current_allocated (by simp [Doomed])
      refine ⟨⟨inv'.setPc hidle (by simp), ?_⟩, by simp⟩
      have hstay : DoomedStay s { s with state := Function.update s.state s.current .BLOCKED } :=
        .setState (fun h => absurd h (guard rfl)) fun h => absurd h halive
      exact hstay.trans (.of_state rfl)
  | setShouldUnblock =>
      simp only [ensures_bind, ensures_set, setPc, ensures_modify]
      exact ⟨⟨(hmove (.block .setBlockerData f data) (by simp)).1.setFields _ _ _ _, .of_state rfl⟩, halive⟩
  | setBlockerData =>
      simp only [ensures_bind, ensures_set, setPc, ensures_modify]
      exact ⟨⟨(hmove (.block .setWasInterrupted f data) (by simp)).1.setFields _ _ _ _, .of_state rfl⟩, halive⟩
  | setWasInterrupted =>
      simp only [ensures_bind, ensures_set, setPc, ensures_modify]
      exact ⟨⟨(hmove (.block .yields f data) (by simp)).1.setFields _ _ _ _, .of_state rfl⟩, halive⟩
  | yields =>
      simp only [ensures_bind, setPc, ensures_modify]
      have keeps := hmove (.block .returns f data) (by simp)
      apply (schedulerYield_keeps keeps.1 false answers).mono
      rintro _ t ⟨keeps', halive'⟩
      exact ⟨keeps.trans keeps', halive'⟩
  | returns =>
      simp only [ensures_bind, ensures_set, setPc, ensures_modify]
      exact ⟨⟨(hmove .outside (by simp)).1.setFields _ _ _ _, .of_state rfl⟩, halive⟩

theorem schedulerRegister_keeps (inv : DoomInvariant s) (halive : s.state s.current ≠ .DEAD)
    (hidle : s.current ≠ s.idle) {child : P} (hchild : child ∉ s.allocated) (pid : Int) :
    Ensures (schedulerRegister child pid) s fun _ t => Keeps s t ∧ t.state t.current ≠ .DEAD := by
  have hcurrent : s.current ≠ child := fun heq => hchild (heq ▸ inv.current_allocated)
  have hidleChild : s.idle ≠ child := fun heq => hchild (heq ▸ inv.idle_allocated)
  have hnew : ¬Doomed (s.state child) := fun h => hchild (inv.doomed_allocated child h)
  have hpc : ∀ p c, Function.update (Function.update s.pc child .outside) s.current (.registering child) p =
      .registering c → c = child ∨ s.pc p = .registering c := by
    intro p c hp
    by_cases heq : p = s.current
    · subst heq
      exact Or.inl (by simpa using hp.symm)
    · by_cases heq' : p = child
      · simp [heq', Function.update_of_ne hcurrent.symm] at hp
      · exact Or.inr (by simpa [Function.update_of_ne heq, Function.update_of_ne heq'] using hp)
  simp only [schedulerRegister, ensures_bind, ensures_modify, ensures_get, ensures_set, assert,
    ensures_require, setPc]
  intro _
  refine ⟨⟨⟨?_, ?_, ?_, ?_, ?_, ?_, ?_, ?_, ?_, ?_⟩, ?_⟩, ?_⟩
  · exact List.mem_cons_of_mem child inv.idle_allocated
  · simpa [Function.update_of_ne hidle.symm, Function.update_of_ne hidleChild] using inv.idle_outside
  · simpa [Function.update_of_ne hidleChild] using inv.idle_unsignalled
  · simpa [Function.update_of_ne hidleChild] using inv.idle_alive
  · exact List.mem_cons_of_mem child inv.current_allocated
  · intro p hp
    rcases mem_insertByPid.1 hp with rfl | hp
    · exact ⟨List.mem_cons_self, hidleChild.symm⟩
    · exact ⟨List.mem_cons_of_mem child (inv.listed p hp).1, (inv.listed p hp).2⟩
  · exact fun p hp => List.mem_cons_of_mem child (inv.head_allocated p hp)
  · intro p q hq
    by_cases heq : p = child
    · simp [heq] at hq
    · exact List.mem_cons_of_mem child
        (inv.next_allocated p q (by simpa [Function.update_of_ne heq] using hq))
  · intro p c hp
    rcases hpc p c hp with rfl | hold
    · exact List.mem_cons_self
    · exact List.mem_cons_of_mem child (inv.child_allocated p c hold)
  · intro p hp
    by_cases heq : p = child
    · exact heq ▸ List.mem_cons_self
    · exact List.mem_cons_of_mem child
        (inv.doomed_allocated p (by simpa [Function.update_of_ne heq] using hp))
  · exact .trans (.setState (fun h => absurd (Or.inl h) hnew) fun h => absurd (Or.inr h) hnew) (.of_state rfl)
  · simpa [Function.update_of_ne hcurrent] using halive

theorem schedulerRegisterEnqueue_keeps (inv : DoomInvariant s) (halive : s.state s.current ≠ .DEAD)
    {child : P} (hpc : s.pc s.current = .registering child) :
    Ensures schedulerRegisterEnqueue s fun _ t => Keeps s t ∧ t.state t.current ≠ .DEAD := by
  simp only [schedulerRegisterEnqueue, ensures_bind, ensures_get, hpc]
  apply (schedulerEnqueue_keeps inv (inv.child_allocated s.current child hpc)).mono
  rintro _ t ⟨inv', hstate, hcurrent, hpcs, _⟩
  simp only [setPc, ensures_modify]
  have hidle : t.current ≠ t.idle := inv'.ne_idle (by simp [hcurrent, hpcs, hpc])
  refine ⟨⟨inv'.setPc hidle (by simp), .of_state hstate⟩, ?_⟩
  rwa [hstate, hcurrent]

theorem dieFinally_keeps (inv : DoomInvariant s) (hpc : s.pc s.current = .dying)
    (answers : Nat → Nat → Bool) :
    Ensures (dieFinally answers) s fun _ t => Keeps s t ∧ t.state t.current ≠ .DEAD := by
  have hidle : s.current ≠ s.idle := inv.ne_idle (by simp [hpc])
  simp only [dieFinally, ensures_bind, ensures_modify]
  apply (schedulerYield_keeps (inv.setState .DEAD inv.current_allocated fun h => absurd h hidle) false answers).mono
  rintro _ t ⟨keeps, halive⟩
  have hstay : DoomedStay s { s with state := Function.update s.state s.current .DEAD } :=
    .setState (fun _ => Or.inr rfl) fun _ => rfl
  exact ⟨⟨keeps.1, hstay.trans keeps.2⟩, halive⟩

theorem sendSignal_keeps (inv : DoomInvariant s) (halive : s.state s.current ≠ .DEAD) {p : P}
    (hp : p ∈ s.allProcesses) :
    Ensures (sendSignal p) s fun _ t => Keeps s t ∧ t.state t.current ≠ .DEAD := by
  have inv' : DoomInvariant { s with pendingSignals := Function.update s.pendingSignals p true } := by
    refine ⟨inv.1, inv.2, ?_, inv.4, inv.5, inv.6, inv.7, inv.8, inv.9, inv.10⟩
    simpa [Function.update_of_ne (inv.listed p hp).2.symm] using inv.idle_unsignalled
  simp only [sendSignal, ensures_bind, ensures_get, ensures_set]
  split_ifs
  · apply (processHandlePendingSignals_keeps inv' halive).mono
    exact fun _ _ h => ⟨h.1, h.2.2⟩
  · exact ⟨⟨inv', .of_state rfl⟩, halive⟩

end Functions

/-! ### Runs -/

section Runs

variable [DecidableEq P]

/-- What holds between two events. -/
def DoomState (s : Scheduler P) : Prop := DoomInvariant s ∧ s.state s.current ≠ .DEAD

theorem doomState_step {s : Scheduler P} (inv : DoomState s) {e : SchedulerEvent P}
    (enabled : s.Enabled e) (guard : DyingGuard s e) :
    Ensures e.run s fun _ t => Keeps s t ∧ t.state t.current ≠ .DEAD := by
  obtain ⟨inv, halive⟩ := inv
  cases e with
  | callBlock f data =>
      simp only [SchedulerEvent.run, setPc, ensures_modify]
      exact ⟨⟨inv.setPc enabled.2.1 (by simp), .of_state rfl⟩, halive⟩
  | statement answers =>
      obtain ⟨point, f, data, hpc⟩ := enabled
      simp only [SchedulerEvent.run, ensures_bind, ensures_get, hpc]
      exact schedulerBlockStatement_keeps inv halive hpc answers fun h => guard f data (h ▸ hpc)
  | yield answers => exact schedulerYield_keeps inv true answers
  | tick inKernel answers =>
      simp only [SchedulerEvent.run, schedulerTick, ensures_bind, ensures_get]
      split_ifs with hdying
      · simp only [setPc, ensures_modify]
        exact ⟨⟨inv.setPc (enabled hdying.1).2.1 (by simp), .of_state rfl⟩, halive⟩
      · exact schedulerYield_keeps inv true answers
  | exit =>
      simp only [SchedulerEvent.run, setPc, ensures_modify]
      exact ⟨⟨inv.setPc enabled.2.1 (by simp), .of_state rfl⟩, halive⟩
  | die answers => exact dieFinally_keeps inv enabled answers
  | register child pid =>
      obtain ⟨_, hidle, hchild⟩ := enabled
      exact schedulerRegister_keeps inv halive hidle hchild pid
  | registerEnqueue =>
      obtain ⟨child, hpc⟩ := enabled
      exact schedulerRegisterEnqueue_keeps inv halive hpc
  | signal p => exact sendSignal_keeps inv halive enabled
  | reap p =>
      simp only [SchedulerEvent.run, reapProcess, ensures_modify]
      refine ⟨⟨⟨inv.1, inv.2, inv.3, inv.4, inv.5, ?_, inv.7, inv.8, inv.9, inv.10⟩, .of_state rfl⟩, halive⟩
      exact fun q hq => inv.listed q (List.mem_of_mem_erase hq)

/-- A `DYING` process that reaches the statement becomes `BLOCKED`. -/
theorem setState_forgets_dying {s t : Scheduler P} {answers : Nat → Nat → Bool} {f data : Nat}
    (hpc : s.pc s.current = .block .setState f data) (hdying : s.state s.current = .DYING)
    (hrun : (SchedulerEvent.statement answers).run s = .ok ((), t)) : ¬DoomedStay s t := by
  have hblocked : Ensures (SchedulerEvent.statement answers).run s fun _ t =>
      t.state s.current = .BLOCKED := by
    simp [SchedulerEvent.run, ensures_bind, ensures_get, hpc, schedulerBlockStatement, ensures_set, setPc]
  rw [Ensures, hrun] at hblocked
  intro hstay
  rcases (hstay s.current).1 hdying with h | h <;> simp [hblocked] at h

theorem doomState_initial (idle kernelInit : P) : DoomState (Scheduler.initial idle kernelInit) := by
  have halive : ∀ p, ¬Doomed ((Scheduler.initial idle kernelInit).state p) := by
    intro p
    by_cases heq : p = kernelInit <;> simp [Scheduler.initial, heq, Doomed]
  refine ⟨⟨?_, rfl, rfl, halive idle, ?_, ?_, ?_, ?_, ?_, fun p hp => absurd hp (halive p)⟩, ?_⟩
  all_goals simp [Scheduler.initial]

/-- Dying over runs: the runs in which every process that is `DYING` only becomes `DEAD` are exactly those
    in which no `DYING` process reaches the statement that sets its state to `BLOCKED`. -/
theorem dying_is_final_iff {s t : Scheduler P}
    {xs : List (Transition (Scheduler P) (SchedulerEvent P))} (hinit : (schedulerSystem P).init s)
    (run : (schedulerSystem P).Run s xs t) :
    (∀ x ∈ xs, DoomedStay x.before x.after) ↔ ∀ x ∈ xs, DyingGuard x.before x.event := by
  obtain ⟨idle, kernelInit, _, rfl⟩ := hinit
  have hkeeps : ∀ s e s', DoomState s → DyingGuard s e → (schedulerSystem P).step s e s' →
      Keeps s s' ∧ s'.state s'.current ≠ .DEAD := by
    intro s e s' inv guard hstep
    have h := doomState_step inv hstep.1 guard
    rwa [Ensures, hstep.2] at h
  have hexact : ∀ s e s', DoomState s → (schedulerSystem P).step s e s' → DoomedStay s s' →
      DyingGuard s e := by
    intro s e s' _ hstep hstay
    cases e with
    | statement answers =>
        intro f data hpc hdying
        exact setState_forgets_dying hpc hdying hstep.2 hstay
    | _ => exact trivial
  exact run.guarded_iff (fun s _ s' => DoomedStay s s')
    (fun s e s' inv guard hstep => ⟨(hkeeps s e s' inv guard hstep).1.1, (hkeeps s e s' inv guard hstep).2⟩)
    (fun s e s' inv guard hstep => (hkeeps s e s' inv guard hstep).1.2) hexact (doomState_initial idle kernelInit)

/-- A second process is told to die, and the timer moves on to the first. -/
theorem dying_is_final_after_signal :
    ∃ s xs t, (schedulerSystem (Fin 3)).init s ∧ (schedulerSystem (Fin 3)).Run s xs t ∧
      t.state 2 = .DYING ∧ ∀ x ∈ xs, DoomedStay x.before x.after := by
  have hinit : (schedulerSystem (Fin 3)).init (Scheduler.initial 1 0) := ⟨1, 0, by decide, rfl⟩
  have hplay : ([.register 2 5, .registerEnqueue, .yield fun _ _ => false, .signal 2,
      .tick true fun _ _ => false].foldlM Scheduler.next (Scheduler.initial (1 : Fin 3) 0)).any
        (fun t => t.state 2 = .DYING) = true := by
    decide +kernel
  obtain ⟨t, ht, hafter⟩ := (Option.any_eq_true _ _).1 hplay
  obtain ⟨xs, run, hevents, _⟩ := TransitionSystem.Run.of_play (M := schedulerSystem (Fin 3))
    (fun _ _ => True) (fun s e s' hnext => ⟨Scheduler.step_of_next hnext, trivial⟩) ht
  have hguard : ∀ x ∈ xs, DyingGuard x.before x.event := by
    intro x hx
    have hmem : x.event ∈ xs.map Transition.event := List.mem_map_of_mem hx
    rw [hevents] at hmem
    simp only [List.mem_cons, List.not_mem_nil, or_false] at hmem
    rcases hmem with h | h | h | h | h <;> rw [h] <;> exact trivial
  exact ⟨_, xs, t, hinit, run, of_decide_eq_true hafter, (dying_is_final_iff hinit run).2 hguard⟩

/-- A signal arrives between the call of `scheduler_block` and the statement that sets the state: the
    process is `DYING`, and then `BLOCKED`. -/
theorem schedulerBlock_forgets_dying :
    ¬ ∀ (s : Scheduler (Fin 3)) xs t, (schedulerSystem (Fin 3)).init s →
      (schedulerSystem (Fin 3)).Run s xs t → ∀ x ∈ xs, DoomedStay x.before x.after := by
  intro h
  have hinit : (schedulerSystem (Fin 3)).init (Scheduler.initial 1 0) := ⟨1, 0, by decide, rfl⟩
  have hplay : ([.register 2 5, .registerEnqueue, .yield fun _ _ => false, .callBlock 7 9, .signal 2,
      .statement fun _ _ => false, .statement fun _ _ => false, .statement fun _ _ => false].foldlM
      Scheduler.next (Scheduler.initial (1 : Fin 3) 0)).any
        (fun t => t.pc t.current = .block .setState 7 9 ∧ t.state t.current = .DYING) = true := by
    decide +kernel
  obtain ⟨t, ht, hafter⟩ := (Option.any_eq_true _ _).1 hplay
  obtain ⟨hpc, hdying⟩ := of_decide_eq_true hafter
  obtain ⟨xs, run, _, _⟩ := TransitionSystem.Run.of_play (M := schedulerSystem (Fin 3))
    (fun _ _ => True) (fun s e s' hnext => ⟨Scheduler.step_of_next hnext, trivial⟩) ht
  have hstep : (schedulerSystem (Fin 3)).step t (.statement fun _ _ => false)
      { t with
        state := Function.update t.state t.current .BLOCKED
        pc := Function.update t.pc t.current (.block .setShouldUnblock 7 9) } := by
    refine ⟨⟨.setState, 7, 9, hpc⟩, ?_⟩
    simp [SchedulerEvent.run, hpc, schedulerBlockStatement, setPc]
  exact setState_forgets_dying hpc hdying hstep.2
    (h _ _ _ hinit (run.snoc hstep) _ (List.mem_append_right xs List.mem_cons_self))

end Runs

end Chaotix
