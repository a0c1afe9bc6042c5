/-
Module: Chaotix.Proofs.SchedulerQueue
Layer: Proofs
Purpose: The ready queue under preemption. `scheduler_block` sets `state` before `should_unblock` and
  yields last, with interrupts enabled throughout, so a tick in between requeues a blocked process. In
  every run in which no tick strikes while the current process is `BLOCKED`, the queue stays a list of
  distinct processes that can run, and no `ASSERT` of the scheduler fails.
Imports: Mathlib.Tactic, Chaotix.Kernel.Scheduler
Trusted boundary: none
Main exports: ReadyQueueIntegrity, SchedulerGuard, SchedulerInvariant, switchToNextProcess_yields,
  schedulerInvariant_run, scheduler_queue_integrity, tick_in_schedulerBlock_fails_assert
-/
import Mathlib.Tactic
import Chaotix.Kernel.Scheduler

namespace Chaotix

variable {P : Type}

/-! ### The property and the invariant -/

/-- The ready queue is a finite list of distinct processes, none of them `BLOCKED` or `DEAD`. -/
def ReadyQueueIntegrity (s : Scheduler P) : Prop :=
  ∃ q, LinkedList s.nextInReadyQueue s.readyQueue q ∧ q.Nodup ∧
    ∀ p ∈ q, s.state p ≠ .BLOCKED ∧ s.state p ≠ .DEAD

/-- No tick strikes while the current process is `BLOCKED`, that is between the statement of
    `scheduler_block` that sets its state and its yield. -/
def SchedulerGuard (s : Scheduler P) : SchedulerEvent P → Prop
  | .tick _ _ => s.state s.current ≠ .BLOCKED
  | _ => True

instance (s : Scheduler P) (e : SchedulerEvent P) : Decidable (SchedulerGuard s e) :=
  match e with
  | .tick _ _ => inferInstanceAs (Decidable (s.state s.current ≠ .BLOCKED))
  | .callBlock _ _ | .statement _ | .yield _ | .exit | .die _ | .register _ _ | .registerEnqueue
  | .signal _ | .reap _ => isTrue trivial

/-- `should_unblock` and `blocker_data` of a process that is at a control point: they are `NULL` until
    `scheduler_block` sets them. -/
def BlockerFields : SchedulerPc P → Nat → Nat → Prop
  | .block .setBlockerData _ _, _, data => data = 0
  | .block .setWasInterrupted _ _, _, _ => True
  | .block .yields _ _, _, _ => True
  | .block .returns _ _, _, _ => True
  | _, f, data => f = 0 ∧ data = 0

/-- A process that may be given the processor. -/
structure Resumable (s : Scheduler P) (p : P) : Prop where
  allocated : p ∈ s.allocated
  awake : s.state p ≠ .BLOCKED
  alive : s.state p ≠ .DEAD
  registered : ∀ q, s.pc q ≠ .registering p
  unblocked : ∀ f data, s.pc p = .block .returns f data → s.shouldUnblock p = 0 ∧ s.blockerData p = 0

/-- What holds of every process at any time, also in the middle of a switch. -/
structure ProcessInvariant (s : Scheduler P) : Prop where
  idle_state : s.state s.idle = .RUNNABLE ∨ s.state s.idle = .RUNNING
  idle_outside : s.pc s.idle = .outside
  idle_allocated : s.idle ∈ s.allocated
  idle_unlisted : s.idle ∉ s.allProcesses
  idle_unsignalled : s.pendingSignals s.idle = false
  idle_registered : ∀ q, s.pc q ≠ .registering s.idle
  listed : ∀ p ∈ s.allProcesses, p ∈ s.allocated
  child_new : ∀ p c, s.pc p = .registering c →
    c ∈ s.allocated ∧ s.state c = .RUNNABLE ∧ s.pc c = .outside
  child_unique : ∀ p p' c, s.pc p = .registering c → s.pc p' = .registering c → p = p'
  fields : ∀ p, BlockerFields (s.pc p) (s.shouldUnblock p) (s.blockerData p)
  argument : ∀ p point f data, s.pc p = .block point f data → f ≠ 0
  blocked_allocated : ∀ p, s.state p = .BLOCKED → p ∈ s.allocated

/-- The queue visits the processes of `q`, each of which may be given the processor. -/
structure QueueInvariant (s : Scheduler P) (q : List P) : Prop where
  linked : LinkedList s.nextInReadyQueue s.readyQueue q
  nodup : q.Nodup
  resumable : ∀ p ∈ q, Resumable s p
  idle_notMem : s.idle ∉ q

/-- Every blocked process has a predicate. -/
def BlockedHavePredicate (s : Scheduler P) : Prop :=
  ∀ p, s.state p = .BLOCKED → s.shouldUnblock p ≠ 0

/-- What `switch_to_next_process` needs: nothing about the process it switches from. -/
structure SwitchReady (s : Scheduler P) : Prop where
  processes : ProcessInvariant s
  queue : ∃ q, QueueInvariant s q
  blocked : BlockedHavePredicate s

/-- The invariant between events. The current process is not in the queue, and only it may be blocked
    without a predicate, right after it has set its state. -/
structure SchedulerInvariant (s : Scheduler P) : Prop where
  processes : ProcessInvariant s
  queue : ∃ q, QueueInvariant s q ∧ s.current ∉ q
  blocked : ∀ p, s.state p = .BLOCKED →
    s.shouldUnblock p ≠ 0 ∨ p = s.current ∧ ∃ f data, s.pc p = .block .setShouldUnblock f data
  current_allocated : s.current ∈ s.allocated
  current_alive : s.state s.current ≠ .DEAD
  current_registered : ∀ q, s.pc q ≠ .registering s.current
  current_unblocked : ∀ f data, s.pc s.current = .block .returns f data →
    s.shouldUnblock s.current = 0 ∧ s.blockerData s.current = 0

theorem SchedulerInvariant.integrity {s : Scheduler P} (inv : SchedulerInvariant s) :
    ReadyQueueIntegrity s := by
  obtain ⟨q, hq, _⟩ := inv.queue
  exact ⟨q, hq.linked, hq.nodup, fun p hp => ⟨(hq.resumable p hp).awake, (hq.resumable p hp).alive⟩⟩

/-- A current process that is not blocked may be given the processor again. -/
theorem SchedulerInvariant.resumable {s : Scheduler P} (inv : SchedulerInvariant s)
    (hawake : s.state s.current ≠ .BLOCKED) : Resumable s s.current :=
  ⟨inv.current_allocated, hawake, inv.current_alive, inv.current_registered, inv.current_unblocked⟩

/-- A blocked process has a predicate, except right after it has set its state. -/
theorem SchedulerInvariant.predicate_of_blocked {s : Scheduler P} (inv : SchedulerInvariant s) {p : P}
    (hblocked : s.state p = .BLOCKED) (hpc : ∀ f data, s.pc p ≠ .block .setShouldUnblock f data) :
    s.shouldUnblock p ≠ 0 := by
  rcases inv.blocked p hblocked with hset | ⟨_, f, data, hpoint⟩
  · exact hset
  · exact absurd hpoint (hpc f data)

/-- A state outside `scheduler_block` is not `BLOCKED`. -/
theorem SchedulerInvariant.awake_of_fields {s : Scheduler P} (inv : SchedulerInvariant s) {p : P}
    (hfields : s.shouldUnblock p = 0) (hpc : ∀ f data, s.pc p ≠ .block .setShouldUnblock f data) :
    s.state p ≠ .BLOCKED :=
  fun hblocked => inv.predicate_of_blocked hblocked hpc hfields

theorem SchedulerInvariant.awake_outside {s : Scheduler P} (inv : SchedulerInvariant s)
    (hpc : s.pc s.current = .outside ∨ s.pc s.current = .dying) : s.state s.current ≠ .BLOCKED := by
  have hfields := inv.processes.fields s.current
  rcases hpc with hpc | hpc
  · rw [hpc] at hfields
    exact inv.awake_of_fields hfields.1 (by simp [hpc])
  · rw [hpc] at hfields
    exact inv.awake_of_fields hfields.1 (by simp [hpc])

/-- A blocked process is neither `idle` nor a process that is being registered. -/
theorem SwitchReady.ne_idle_of_blocked {s : Scheduler P} (ready : SwitchReady s) {p : P}
    (hblocked : s.state p = .BLOCKED) : p ≠ s.idle := by
  rintro rfl
  rcases ready.processes.idle_state with h | h <;> simp [h] at hblocked

theorem SwitchReady.registered_of_blocked {s : Scheduler P} (ready : SwitchReady s) {p : P}
    (hblocked : s.state p = .BLOCKED) (x : P) : s.pc x ≠ .registering p := by
  intro hpc
  have := (ready.processes.child_new x p hpc).2.1
  simp [this] at hblocked

theorem SchedulerInvariant.switchReady {s : Scheduler P} (inv : SchedulerInvariant s)
    (hawake : s.state s.current ≠ .BLOCKED) : SwitchReady s where
  processes := inv.processes
  queue := by
    obtain ⟨q, hq, _⟩ := inv.queue
    exact ⟨q, hq⟩
  blocked := by
    intro p hp
    rcases inv.blocked p hp with hset | ⟨rfl, _⟩
    · exact hset
    · exact absurd hp hawake

/-- `idle` is never inside a function of the scheduler. -/
theorem SchedulerInvariant.ne_idle {s : Scheduler P} (inv : SchedulerInvariant s)
    (hpc : s.pc s.current ≠ .outside) : s.current ≠ s.idle := by
  intro heq
  exact hpc (heq ▸ inv.processes.idle_outside)

/-- Changing `blocker_was_interrupted` or the recorded return values does not touch the invariant. -/
theorem SchedulerInvariant.of_flags {s : Scheduler P} {flags : P → Bool} {returns : P → Option Errno}
    (inv : SchedulerInvariant s) :
    SchedulerInvariant { s with blockerWasInterrupted := flags, blockReturn := returns } := by
  have hp := inv.processes
  refine ⟨⟨hp.1, hp.2, hp.3, hp.4, hp.5, hp.6, hp.7, hp.8, hp.9, hp.10, hp.11, hp.12⟩, ?_, inv.3,
    inv.4, inv.5, inv.6, inv.7⟩
  obtain ⟨q, hq, hcurrent⟩ := inv.queue
  refine ⟨q, ⟨hq.linked, hq.nodup, ?_, hq.idle_notMem⟩, hcurrent⟩
  intro x hx
  have := hq.resumable x hx
  exact ⟨this.1, this.2, this.3, this.4, this.5⟩

/-! ### Enqueueing -/

section Queue

variable {s : Scheduler P} {q : List P} {p : P}

/-- Appending to the queue keeps the queue invariant. -/
theorem QueueInvariant.append {next : P → Option P} {head : Option P} (hq : QueueInvariant s q)
    (hlinked : LinkedList next head (q ++ [p])) (hp : p ∉ q) (hres : Resumable s p)
    (hidle : p ≠ s.idle) :
    QueueInvariant { s with nextInReadyQueue := next, readyQueue := head } (q ++ [p]) where
  linked := hlinked
  nodup := by
    rw [List.nodup_append]
    exact ⟨hq.nodup, List.nodup_singleton p, by
      intro x hx y hy
      rw [List.mem_singleton.1 hy]
      rintro rfl
      exact hp hx⟩
  resumable := by
    intro x hx
    rcases List.mem_append.1 hx with hx | hx
    · have := hq.resumable x hx
      exact ⟨this.1, this.2, this.3, this.4, this.5⟩
    · rw [List.mem_singleton.1 hx]
      exact ⟨hres.1, hres.2, hres.3, hres.4, hres.5⟩
  idle_notMem := by
    intro hmem
    rcases List.mem_append.1 hmem with hmem | hmem
    · exact hq.idle_notMem hmem
    · exact hidle (List.mem_singleton.1 hmem).symm

/-- The process invariant says nothing about the queue. -/
theorem ProcessInvariant.of_queue {next : P → Option P} {head : Option P} (inv : ProcessInvariant s) :
    ProcessInvariant { s with nextInReadyQueue := next, readyQueue := head } :=
  ⟨inv.1, inv.2, inv.3, inv.4, inv.5, inv.6, inv.7, inv.8, inv.9, inv.10, inv.11, inv.12⟩

variable [DecidableEq P]

/-- `scheduler_enqueue` appends a process that is not in the queue, and changes nothing else. -/
theorem schedulerEnqueue_yields (hlinked : LinkedList s.nextInReadyQueue s.readyQueue q)
    (hnodup : q.Nodup) (hallocated : ∀ x ∈ q, x ∈ s.allocated) (hp : p ∉ q)
    (halive : s.state p ≠ .DEAD) :
    Yields (schedulerEnqueue p) s fun _ t =>
      ∃ next head, t = { s with nextInReadyQueue := next, readyQueue := head } ∧
        LinkedList next head (q ++ [p]) := by
  have hlinked' : LinkedList (Function.update s.nextInReadyQueue p none) s.readyQueue q :=
    hlinked.congr fun x hx => Function.update_of_ne (ne_of_mem_of_not_mem hx hp) _ _
  simp only [schedulerEnqueue, yields_bind, yields_get, yields_modify, assert, yields_require]
  refine ⟨halive, ?_⟩
  cases hhead : s.readyQueue with
  | none =>
      rw [hhead] at hlinked
      obtain rfl := LinkedList.nil_iff.1 hlinked
      exact ⟨_, _, rfl, rfl, by simp [LinkedList]⟩
  | some head =>
      have hne : q ≠ [] := by
        rintro rfl
        simp [LinkedList, hhead] at hlinked
      have hlength : q.length ≤ s.allocated.length := (hnodup.subperm hallocated).length_le
      have htail := findTail_eq (hhead ▸ hlinked') hne hlength
      simp only [htail]
      refine ⟨_, _, rfl, ?_⟩
      have happend := hlinked.append hne hnodup hp
      rw [hhead] at happend
      exact happend

/-- Enqueueing a process that may run keeps what a switch needs. -/
theorem schedulerEnqueue_switchReady (ready : SwitchReady s) (hq : QueueInvariant s q) (hp : p ∉ q)
    (hres : Resumable s p) (hidle : p ≠ s.idle) :
    Yields (schedulerEnqueue p) s fun _ t =>
      SwitchReady t ∧ t.current = s.current ∧ t.allProcesses = s.allProcesses := by
  apply (schedulerEnqueue_yields hq.linked hq.nodup (fun x hx => (hq.resumable x hx).allocated) hp
    hres.alive).mono
  rintro _ t ⟨next, head, rfl, hlinked⟩
  refine ⟨⟨ready.processes.of_queue, ⟨_, hq.append hlinked hp hres hidle⟩, ready.blocked⟩, rfl, rfl⟩

end Queue

/-! ### Changing the state or the control point of one process -/

section Update

variable [DecidableEq P] {s : Scheduler P} {q : List P} {p : P}

theorem ProcessInvariant.setState {st : ProcessState} (inv : ProcessInvariant s)
    (hallocated : p ∈ s.allocated) (hregistered : ∀ x, s.pc x ≠ .registering p)
    (hidle : p = s.idle → st = .RUNNABLE ∨ st = .RUNNING) :
    ProcessInvariant { s with state := Function.update s.state p st } where
  idle_state := by
    by_cases heq : s.idle = p
    · simpa [heq] using hidle heq.symm
    · simpa [Function.update_of_ne heq] using inv.idle_state
  idle_outside := inv.idle_outside
  idle_allocated := inv.idle_allocated
  idle_unlisted := inv.idle_unlisted
  idle_unsignalled := inv.idle_unsignalled
  idle_registered := inv.idle_registered
  listed := inv.listed
  child_new := by
    intro x c hpc
    have hne : c ≠ p := by
      rintro rfl
      exact hregistered x hpc
    simpa [Function.update_of_ne hne] using inv.child_new x c hpc
  child_unique := inv.child_unique
  fields := inv.fields
  argument := inv.argument
  blocked_allocated := by
    intro x hx
    by_cases heq : x = p
    · rwa [heq]
    · exact inv.blocked_allocated x (by simpa [Function.update_of_ne heq] using hx)

theorem QueueInvariant.setState {st : ProcessState} (hq : QueueInvariant s q) (hp : p ∉ q) :
    QueueInvariant { s with state := Function.update s.state p st } q where
  linked := hq.linked
  nodup := hq.nodup
  resumable := by
    intro x hx
    have hne := ne_of_mem_of_not_mem hx hp
    have := hq.resumable x hx
    refine ⟨this.1, ?_, ?_, this.4, this.5⟩
    · simpa [Function.update_of_ne hne] using this.awake
    · simpa [Function.update_of_ne hne] using this.alive
  idle_notMem := hq.idle_notMem

theorem SchedulerInvariant.setState {st : ProcessState} (inv : SchedulerInvariant s)
    (hblocked : st = .BLOCKED → ∃ f data, s.pc s.current = .block .setShouldUnblock f data)
    (hdead : st ≠ .DEAD)
    (hidle : s.current = s.idle → st = .RUNNABLE ∨ st = .RUNNING) :
    SchedulerInvariant { s with state := Function.update s.state s.current st } where
  processes := inv.processes.setState inv.current_allocated inv.current_registered hidle
  queue := by
    obtain ⟨q, hq, hcurrent⟩ := inv.queue
    exact ⟨q, hq.setState hcurrent, hcurrent⟩
  blocked := by
    intro x hx
    by_cases heq : x = s.current
    · exact Or.inr ⟨heq, heq ▸ hblocked (by simpa [heq] using hx)⟩
    · exact inv.blocked x (by simpa [Function.update_of_ne heq] using hx)
  current_allocated := inv.current_allocated
  current_alive := by simpa using hdead
  current_registered := inv.current_registered
  current_unblocked := inv.current_unblocked

/-- Moving one process to another control point, with its fields as they should be there. -/
theorem ProcessInvariant.move {pc : SchedulerPc P} {su bd : P → Nat} (inv : ProcessInvariant s)
    (hidle : p ≠ s.idle) (hregistered : ∀ x, s.pc x ≠ .registering p)
    (hpc : ∀ c, pc ≠ .registering c) (hsu : ∀ x, x ≠ p → su x = s.shouldUnblock x)
    (hbd : ∀ x, x ≠ p → bd x = s.blockerData x) (hfields : BlockerFields pc (su p) (bd p))
    (hargument : ∀ point f data, pc = .block point f data → f ≠ 0) :
    ProcessInvariant { s with
      shouldUnblock := su, blockerData := bd, pc := Function.update s.pc p pc } := by
  have hold : ∀ x c, Function.update s.pc p pc x = .registering c → s.pc x = .registering c := by
    intro x c hx
    by_cases heq : x = p
    · simp [heq, hpc] at hx
    · simpa [Function.update_of_ne heq] using hx
  refine ⟨inv.1, ?_, inv.3, inv.4, inv.5, ?_, inv.7, ?_, ?_, ?_, ?_, inv.12⟩
  · simpa [Function.update_of_ne hidle.symm] using inv.idle_outside
  · exact fun x hx => inv.idle_registered x (hold x _ hx)
  · intro x c hx
    have hne : c ≠ p := by
      rintro rfl
      exact hregistered x (hold x _ hx)
    simpa [Function.update_of_ne hne] using inv.child_new x c (hold x c hx)
  · exact fun x y c hx hy => inv.child_unique x y c (hold x c hx) (hold y c hy)
  · intro x
    by_cases heq : x = p
    · simpa [heq] using hfields
    · simpa [Function.update_of_ne heq, hsu x heq, hbd x heq] using inv.fields x
  · intro x point f data hx
    by_cases heq : x = p
    · exact hargument point f data (by simpa [heq] using hx)
    · exact inv.argument x point f data (by simpa [Function.update_of_ne heq] using hx)

theorem QueueInvariant.move {pc : SchedulerPc P} {su bd : P → Nat} (hq : QueueInvariant s q)
    (hp : p ∉ q) (hpc : ∀ c, pc = .registering c → c ∉ q)
    (hsu : ∀ x, x ≠ p → su x = s.shouldUnblock x) (hbd : ∀ x, x ≠ p → bd x = s.blockerData x) :
    QueueInvariant { s with
      shouldUnblock := su, blockerData := bd, pc := Function.update s.pc p pc } q where
  linked := hq.linked
  nodup := hq.nodup
  resumable := by
    intro x hx
    have hne := ne_of_mem_of_not_mem hx hp
    have := hq.resumable x hx
    refine ⟨this.1, this.2, this.3, ?_, ?_⟩
    · intro y hy
      by_cases heq : y = p
      · exact hpc x (by simpa [heq] using hy) hx
      · exact this.registered y (by simpa [Function.update_of_ne heq] using hy)
    · simpa [Function.update_of_ne hne, hsu x hne, hbd x hne] using this.unblocked
  idle_notMem := hq.idle_notMem

theorem SchedulerInvariant.move {pc : SchedulerPc P} {su bd : P → Nat} (inv : SchedulerInvariant s)
    (hidle : s.current ≠ s.idle) (hpc : ∀ c, pc ≠ .registering c)
    (hreturns : ∀ f data, pc ≠ .block .returns f data)
    (hargument : ∀ point f data, pc = .block point f data → f ≠ 0)
    (hsu : ∀ x, x ≠ s.current → su x = s.shouldUnblock x)
    (hbd : ∀ x, x ≠ s.current → bd x = s.blockerData x)
    (hfields : BlockerFields pc (su s.current) (bd s.current))
    (hblocked : s.state s.current = .BLOCKED →
      su s.current ≠ 0 ∨ ∃ f data, pc = .block .setShouldUnblock f data) :
    SchedulerInvariant { s with
      shouldUnblock := su, blockerData := bd, pc := Function.update s.pc s.current pc } where
  processes := inv.processes.move hidle inv.current_registered hpc hsu hbd hfields hargument
  queue := by
    obtain ⟨q, hq, hcurrent⟩ := inv.queue
    exact ⟨q, hq.move hcurrent (fun c hc => absurd hc (hpc c)) hsu hbd, hcurrent⟩
  blocked := by
    intro x hx
    by_cases heq : x = s.current
    · subst heq
      rcases hblocked hx with hset | hpoint
      · exact Or.inl hset
      · exact Or.inr ⟨rfl, by simpa using hpoint⟩
    · simpa [Function.update_of_ne heq, heq, hsu x heq] using inv.blocked x hx
  current_allocated := inv.current_allocated
  current_alive := inv.current_alive
  current_registered := by
    intro x hx
    by_cases heq : x = s.current
    · exact hpc s.current (by simpa [heq] using hx)
    · exact inv.current_registered x (by simpa [Function.update_of_ne heq] using hx)
  current_unblocked := by
    intro f data hx
    exact absurd (by simpa using hx) (hreturns f data)

/-- Moving the current process without touching its fields. -/
theorem SchedulerInvariant.setPc {pc : SchedulerPc P} (inv : SchedulerInvariant s)
    (hidle : s.current ≠ s.idle) (hpc : ∀ c, pc ≠ .registering c)
    (hreturns : ∀ f data, pc ≠ .block .returns f data)
    (hargument : ∀ point f data, pc = .block point f data → f ≠ 0)
    (hfields : BlockerFields pc (s.shouldUnblock s.current) (s.blockerData s.current))
    (hblocked : s.state s.current = .BLOCKED → s.shouldUnblock s.current ≠ 0) :
    SchedulerInvariant { s with pc := Function.update s.pc s.current pc } :=
  inv.move hidle hpc hreturns hargument (fun _ _ => rfl) (fun _ _ => rfl) hfields fun h =>
    Or.inl (hblocked h)

end Update

/-! ### Switching -/

section Switch

variable [DecidableEq P] {s : Scheduler P}

/-- The state in which a process has just been unblocked, before it is enqueued. -/
def Scheduler.unblocked (s : Scheduler P) (p : P) : Scheduler P :=
  { s with
    shouldUnblock := Function.update s.shouldUnblock p 0
    blockerData := Function.update s.blockerData p 0
    blockerWasInterrupted := Function.update s.blockerWasInterrupted p (s.pendingSignals p)
    state := Function.update s.state p .RUNNING }

theorem blockerFields_zero {P : Type} (pc : SchedulerPc P) : BlockerFields pc 0 0 := by
  unfold BlockerFields
  split <;> simp

theorem SwitchReady.unblocked (ready : SwitchReady s) {p : P} (hblocked : s.state p = .BLOCKED)
    {q : List P} (hq : QueueInvariant s q) :
    SwitchReady (s.unblocked p) ∧ QueueInvariant (s.unblocked p) q ∧
      Resumable (s.unblocked p) p ∧ p ∉ q := by
  have hp : p ∉ q := fun hmem => (hq.resumable p hmem).awake hblocked
  have hallocated := ready.processes.blocked_allocated p hblocked
  have hregistered := ready.registered_of_blocked hblocked
  have hstate : ProcessInvariant { s with state := Function.update s.state p .RUNNING } :=
    ready.processes.setState hallocated hregistered fun _ => Or.inr rfl
  have hq' : QueueInvariant (s.unblocked p) q := by
    refine ⟨hq.linked, hq.nodup, ?_, hq.idle_notMem⟩
    intro x hx
    have hne := ne_of_mem_of_not_mem hx hp
    have := hq.resumable x hx
    refine ⟨this.1, ?_, ?_, this.4, ?_⟩
    · simpa [Scheduler.unblocked, Function.update_of_ne hne] using this.awake
    · simpa [Scheduler.unblocked, Function.update_of_ne hne] using this.alive
    · simpa [Scheduler.unblocked, Function.update_of_ne hne] using this.unblocked
  refine ⟨⟨?_, ⟨q, hq'⟩, ?_⟩, hq', ?_, hp⟩
  · refine ⟨hstate.1, hstate.2, hstate.3, hstate.4, hstate.5, hstate.6, hstate.7, hstate.8, hstate.9,
      ?_, hstate.11, hstate.12⟩
    intro x
    by_cases heq : x = p
    · simpa [Scheduler.unblocked, heq] using blockerFields_zero (s.pc p)
    · simpa [Scheduler.unblocked, Function.update_of_ne heq] using ready.processes.fields x
  · intro x hx
    by_cases heq : x = p
    · simp [Scheduler.unblocked, heq] at hx
    · simpa [Scheduler.unblocked, Function.update_of_ne heq] using
        ready.blocked x (by simpa [Scheduler.unblocked, Function.update_of_ne heq] using hx)
  · exact ⟨hallocated, by simp [Scheduler.unblocked], by simp [Scheduler.unblocked], hregistered,
      by simp [Scheduler.unblocked]⟩

/-- The `ASSERT` of `unblock_processes` holds for every process, and the loop keeps what a switch
    needs. -/
theorem unblockProcess_yields (ready : SwitchReady s) (answers : Nat → Nat → Bool) (p : P) :
    Yields (unblockProcess answers p) s fun _ t =>
      SwitchReady t ∧ t.allProcesses = s.allProcesses := by
  simp only [unblockProcess, yields_bind, yields_get]
  split
  · rename_i hblocked
    simp only [yields_bind, assert, yields_require]
    refine ⟨ready.blocked p hblocked, ?_⟩
    split
    · rw [yields_bind, yields_set]
      obtain ⟨q, hq⟩ := ready.queue
      obtain ⟨hready, hq', hres, hp⟩ := ready.unblocked hblocked hq
      apply (schedulerEnqueue_switchReady hready hq' hp hres (ready.ne_idle_of_blocked hblocked)).mono
      rintro _ t ⟨ht, _, hlist⟩
      exact ⟨ht, hlist⟩
    · exact ⟨ready, rfl⟩
  · exact ⟨ready, rfl⟩

theorem unblockProcesses_yields (ready : SwitchReady s) (answers : Nat → Nat → Bool) :
    Yields (unblockProcesses answers) s fun _ t => SwitchReady t := by
  simp only [unblockProcesses, yields_bind, yields_get]
  apply (Yields.forM SwitchReady ready _).mono fun _ _ ht => ht
  intro p _ t ht
  exact (unblockProcess_yields ht answers p).mono fun _ _ h => h.1

/-- Taking the first process out of the queue makes it the current one. -/
theorem schedulerDeque_yields (ready : SwitchReady s) :
    Yields schedulerDeque s fun p t => SchedulerInvariant { t with current := p } := by
  obtain ⟨q, hq⟩ := ready.queue
  simp only [schedulerDeque, yields_bind, yields_get]
  split
  · rename_i hnone
    have hempty : q = [] := LinkedList.nil_iff.1 (hnone ▸ hq.linked)
    have inv := ready.processes
    refine ⟨⟨inv.1, inv.2, inv.3, inv.4, inv.5, inv.6, inv.7, inv.8, inv.9, inv.10, inv.11, inv.12⟩,
      ⟨q, ⟨hq.linked, hq.nodup, ?_, hq.idle_notMem⟩, by simp [hempty]⟩,
      fun p hp => Or.inl (ready.blocked p hp), inv.idle_allocated, ?_, inv.idle_registered, ?_⟩
    · simp [hempty]
    · rcases inv.idle_state with h | h <;> simp [h]
    · simp [inv.idle_outside]
  · rename_i p hsome
    obtain ⟨xs, rfl, htail⟩ := LinkedList.exists_cons (hsome ▸ hq.linked)
    have hp : p ∉ xs := (List.nodup_cons.1 hq.nodup).1
    have hres := hq.resumable p List.mem_cons_self
    have inv := ready.processes
    simp only [yields_bind, yields_set, assert, yields_require]
    refine ⟨hres.alive, ⟨?_, ⟨xs, ⟨?_, (List.nodup_cons.1 hq.nodup).2, ?_, ?_⟩, hp⟩,
      fun x hx => Or.inl (ready.blocked x hx), hres.allocated, hres.alive, hres.registered,
      hres.unblocked⟩⟩
    · exact ⟨inv.1, inv.2, inv.3, inv.4, inv.5, inv.6, inv.7, inv.8, inv.9, inv.10, inv.11, inv.12⟩
    · exact htail.congr fun x hx => Function.update_of_ne (ne_of_mem_of_not_mem hx hp) _ _
    · intro x hx
      have := hq.resumable x (List.mem_cons_of_mem p hx)
      exact ⟨this.1, this.2, this.3, this.4, this.5⟩
    · exact fun hmem => hq.idle_notMem (List.mem_cons_of_mem p hmem)

theorem processHandlePendingSignals_yields (inv : SchedulerInvariant s) :
    Yields processHandlePendingSignals s fun _ t => SchedulerInvariant t := by
  simp only [processHandlePendingSignals, yields_bind, yields_get]
  split
  · rename_i hpending
    have hidle : s.current ≠ s.idle := by
      intro heq
      simp [heq, inv.processes.idle_unsignalled] at hpending
    have hdying : SchedulerInvariant { s with
        state := Function.update s.state s.current .DYING } :=
      inv.setState (by simp) (by simp) fun heq => absurd heq hidle
    have hp := hdying.processes
    refine ⟨⟨hp.1, hp.2, hp.3, hp.4, ?_, hp.6, hp.7, hp.8, hp.9, hp.10, hp.11, hp.12⟩, ?_,
      hdying.blocked, hdying.current_allocated, hdying.current_alive, hdying.current_registered,
      hdying.current_unblocked⟩
    · simpa [Function.update_of_ne hidle.symm] using hp.idle_unsignalled
    · obtain ⟨q, hq, hcurrent⟩ := hdying.queue
      refine ⟨q, ⟨hq.linked, hq.nodup, ?_, hq.idle_notMem⟩, hcurrent⟩
      intro x hx
      have := hq.resumable x hx
      exact ⟨this.1, this.2, this.3, this.4, this.5⟩
  · exact inv

/-- A switch from any state that is ready for it ends in the invariant. -/
theorem switchToNextProcess_yields (ready : SwitchReady s) (answers : Nat → Nat → Bool) :
    Yields (switchToNextProcess answers) s fun _ t => SchedulerInvariant t := by
  simp only [switchToNextProcess, yields_bind]
  apply (unblockProcesses_yields ready answers).mono
  intro _ s1 h1
  apply (schedulerDeque_yields h1).mono
  intro p s2 h2
  simp only [yields_modify, yields_get, assert, yields_require]
  refine ⟨h2.current_alive, ?_⟩
  apply (processHandlePendingSignals_yields h2).mono
  intro _ s3 h3
  split
  · exact h3.setState (by simp) (by simp) fun _ => Or.inr rfl
  · exact h3

theorem SwitchReady.setState {p : P} {st : ProcessState} (ready : SwitchReady s)
    (hallocated : p ∈ s.allocated) (hregistered : ∀ x, s.pc x ≠ .registering p)
    (hidle : p = s.idle → st = .RUNNABLE ∨ st = .RUNNING)
    (hp : ∀ q, QueueInvariant s q → p ∉ q) (hblocked : st ≠ .BLOCKED) :
    SwitchReady { s with state := Function.update s.state p st } where
  processes := ready.processes.setState hallocated hregistered hidle
  queue := by
    obtain ⟨q, hq⟩ := ready.queue
    exact ⟨q, hq.setState (hp q hq)⟩
  blocked := by
    intro x hx
    by_cases heq : x = p
    · simp [heq, hblocked] at hx
    · exact ready.blocked x (by simpa [Function.update_of_ne heq] using hx)

/-- Yielding without requeueing the current process. -/
theorem schedulerYield_false_yields (ready : SwitchReady s) (answers : Nat → Nat → Bool) :
    Yields (schedulerYield false answers) s fun _ t => SchedulerInvariant t := by
  simp only [schedulerYield, yields_bind, yields_get]
  split
  · rw [yields_bind, yields_set]
    apply switchToNextProcess_yields
    exact ready.setState ready.processes.idle_allocated ready.processes.idle_registered
      (fun _ => Or.inl rfl) (fun _ hq => hq.idle_notMem) (by simp)
  · exact switchToNextProcess_yields ready answers

/-- Yielding with requeueing, from a current process that is not blocked. -/
theorem schedulerYield_true_yields (inv : SchedulerInvariant s)
    (hawake : s.state s.current ≠ .BLOCKED) (answers : Nat → Nat → Bool) :
    Yields (schedulerYield true answers) s fun _ t => SchedulerInvariant t := by
  have ready := inv.switchReady hawake
  by_cases hidle : s.current = s.idle
  · have hfalse := schedulerYield_false_yields ready answers
    simp only [schedulerYield, yields_bind, yields_get, if_pos hidle] at hfalse ⊢
    exact hfalse
  · obtain ⟨q, hq, hcurrent⟩ := inv.queue
    simp only [schedulerYield, yields_bind, yields_get, if_neg hidle, if_true]
    apply (schedulerEnqueue_switchReady ready hq hcurrent (inv.resumable hawake) hidle).mono
    rintro _ t ⟨ht, _⟩
    exact switchToNextProcess_yields ht answers

end Switch

/-! ### Every event keeps the invariant -/

section Events

variable [DecidableEq P] {s : Scheduler P}

/-- One statement of `scheduler_block`: none of its `ASSERT`s fails, and the invariant is kept. -/
theorem schedulerBlockStatement_yields (inv : SchedulerInvariant s) {point : BlockPoint}
    {f data : Nat} (hpc : s.pc s.current = .block point f data) (answers : Nat → Nat → Bool) :
    Yields (schedulerBlockStatement point f data answers) s fun _ t => SchedulerInvariant t := by
  have hidle : s.current ≠ s.idle := inv.ne_idle (by simp [hpc])
  have hfields := inv.processes.fields s.current
  have hf := inv.processes.argument s.current point f data hpc
  have harg : ∀ next point' f' data', SchedulerPc.block (P := P) next f data =
      .block point' f' data' → f' ≠ 0 := by
    intro next point' f' data' heq
    simp only [SchedulerPc.block.injEq] at heq
    rwa [← heq.2.1]
  rw [hpc] at hfields
  simp only [schedulerBlockStatement, yields_bind, yields_get]
  cases point with
  | assertShouldUnblock =>
      simp only [yields_bind, assert, yields_require, setPc, yields_modify]
      have hawake := inv.awake_of_fields hfields.1 (by simp [hpc])
      refine ⟨hfields.1, ?_⟩
      exact inv.setPc hidle (by simp) (by simp) (harg _) hfields fun h => absurd h hawake
  | assertBlockerData =>
      simp only [yields_bind, assert, yields_require, setPc, yields_modify]
      have hawake := inv.awake_of_fields hfields.1 (by simp [hpc])
      refine ⟨hfields.2, ?_⟩
      exact inv.setPc hidle (by simp) (by simp) (harg _) hfields fun h => absurd h hawake
  | test =>
      have hawake := inv.awake_of_fields hfields.1 (by simp [hpc])
      dsimp only
      split
      · simp only [yields_bind, yields_set, setPc, yields_modify]
        have hmoved : SchedulerInvariant { s with pc := Function.update s.pc s.current .outside } :=
          inv.setPc hidle (by simp) (by simp) (by simp) hfields fun h => absurd h hawake
        exact hmoved.of_flags
      · simp only [setPc, yields_modify]
        exact inv.setPc hidle (by simp) (by simp) (harg _) hfields fun h => absurd h hawake
  | setState =>
      simp only [yields_bind, yields_set, setPc, yields_modify]
      have hawake := inv.awake_of_fields hfields.1 (by simp [hpc])
      have hmoved : SchedulerInvariant { s with
          pc := Function.update s.pc s.current (.block .setShouldUnblock f data) } :=
        inv.setPc hidle (by simp) (by simp) (harg _) hfields fun h => absurd h hawake
      exact hmoved.setState (fun _ => ⟨f, data, by simp⟩) (by simp) fun heq => absurd heq hidle
  | setShouldUnblock =>
      simp only [yields_bind, yields_set, setPc, yields_modify]
      apply inv.move hidle (by simp) (by simp) (harg _)
      · exact fun x hx => Function.update_of_ne hx _ _
      · exact fun _ _ => rfl
      · exact hfields.2
      · exact fun _ => Or.inl (by simpa using hf)
  | setBlockerData =>
      simp only [yields_bind, yields_set, setPc, yields_modify]
      apply inv.move hidle (by simp) (by simp) (harg _)
      · exact fun _ _ => rfl
      · exact fun x hx => Function.update_of_ne hx _ _
      · exact trivial
      · exact fun h => Or.inl (inv.predicate_of_blocked h (by simp [hpc]))
  | setWasInterrupted =>
      simp only [yields_bind, yields_set, setPc, yields_modify]
      have hmoved : SchedulerInvariant { s with
          pc := Function.update s.pc s.current (.block .yields f data) } :=
        inv.setPc hidle (by simp) (by simp) (harg _) trivial fun h =>
          inv.predicate_of_blocked h (by simp [hpc])
      exact hmoved.of_flags
  | yields =>
      simp only [yields_bind, setPc, yields_modify]
      apply schedulerYield_false_yields
      refine ⟨?_, ?_, ?_⟩
      · exact inv.processes.move hidle inv.current_registered (by simp) (fun _ _ => rfl)
          (fun _ _ => rfl) trivial (harg _)
      · obtain ⟨q, hq, hcurrent⟩ := inv.queue
        exact ⟨q, hq.move hcurrent (by simp) (fun _ _ => rfl) fun _ _ => rfl⟩
      · intro p hp
        rcases inv.blocked p hp with hset | ⟨rfl, f', data', hpoint⟩
        · exact hset
        · simp [hpc] at hpoint
  | returns =>
      simp only [yields_bind, yields_set, setPc, yields_modify]
      have hzero := inv.current_unblocked f data hpc
      have hawake := inv.awake_of_fields hzero.1 (by simp [hpc])
      have hmoved : SchedulerInvariant { s with pc := Function.update s.pc s.current .outside } :=
        inv.setPc hidle (by simp) (by simp) (by simp) hzero fun h => absurd h hawake
      exact hmoved.of_flags

omit [DecidableEq P] in
theorem mem_insertByPid {pid : P → Int} {p x : P} {l : List P} :
    x ∈ insertByPid pid p l ↔ x = p ∨ x ∈ l := by
  induction l with
  | nil => simp [insertByPid]
  | cons y ys ih =>
      rw [insertByPid]
      split
      · simp only [List.mem_cons, ih]
        tauto
      · simp

/-- Creating a process and listing it keeps the invariant: the new process is known to nobody else. -/
theorem schedulerRegister_yields (inv : SchedulerInvariant s) (hpc : s.pc s.current = .outside)
    (hidle : s.current ≠ s.idle) {child : P} (hchild : child ∉ s.allocated) (pid : Int) :
    Yields (schedulerRegister child pid) s fun _ t => SchedulerInvariant t := by
  have hp := inv.processes
  have hfields := hp.fields s.current
  rw [hpc] at hfields
  have hidleChild : s.idle ≠ child := fun heq => hchild (heq ▸ hp.idle_allocated)
  have hcurrentChild : s.current ≠ child := fun heq => hchild (heq ▸ inv.current_allocated)
  simp only [schedulerRegister, yields_bind, yields_modify, yields_get, assert, yields_require,
    yields_set, setPc]
  refine ⟨by simp, ?_⟩
  -- the control points afterwards
  have hnew : ∀ x c, Function.update (Function.update s.pc child .outside) s.current
      (.registering child) x = .registering c →
      x = s.current ∧ c = child ∨ s.pc x = .registering c ∧ c ≠ child := by
    intro x c hx
    by_cases hxc : x = s.current
    · subst hxc
      simp only [Function.update_self, SchedulerPc.registering.injEq] at hx
      exact Or.inl ⟨rfl, hx.symm⟩
    · by_cases hxn : x = child
      · simp [hxn, hcurrentChild.symm] at hx
      · rw [Function.update_of_ne hxc, Function.update_of_ne hxn] at hx
        exact Or.inr ⟨hx, fun heq => hchild (heq ▸ (hp.child_new x c hx).1)⟩
  have hblock : ∀ x point f data, Function.update (Function.update s.pc child .outside) s.current
      (.registering child) x = .block point f data → s.pc x = .block point f data := by
    intro x point f data hx
    by_cases hxc : x = s.current
    · simp [hxc] at hx
    · by_cases hxn : x = child
      · simp [hxn, hcurrentChild.symm] at hx
      · rwa [Function.update_of_ne hxc, Function.update_of_ne hxn] at hx
  refine ⟨⟨?_, ?_, ?_, ?_, ?_, ?_, ?_, ?_, ?_, ?_, ?_, ?_⟩, ?_, ?_, ?_, ?_, ?_, ?_⟩
  · simpa [Function.update_of_ne hidleChild] using hp.idle_state
  · simpa [Function.update_of_ne hidle.symm, Function.update_of_ne hidleChild] using hp.idle_outside
  · exact List.mem_cons_of_mem child hp.idle_allocated
  · rw [mem_insertByPid]
    rintro (heq | hmem)
    · exact hidleChild heq
    · exact hp.idle_unlisted hmem
  · simpa [Function.update_of_ne hidleChild] using hp.idle_unsignalled
  · intro x hx
    rcases hnew x _ hx with ⟨_, heq⟩ | ⟨hold, _⟩
    · exact hidleChild heq
    · exact hp.idle_registered x hold
  · intro x hx
    rcases mem_insertByPid.1 hx with rfl | hx
    · exact List.mem_cons_self
    · exact List.mem_cons_of_mem child (hp.listed x hx)
  · intro x c hx
    rcases hnew x c hx with ⟨_, rfl⟩ | ⟨hold, hne⟩
    · simp [hcurrentChild.symm]
    · have hc : c ≠ s.current := by
        rintro rfl
        exact inv.current_registered x hold
      obtain ⟨hallocated, hstate, houtside⟩ := hp.child_new x c hold
      simp [Function.update_of_ne hne, Function.update_of_ne hc, hallocated, hstate, houtside]
  · intro x y c hx hy
    rcases hnew x c hx with ⟨rfl, rfl⟩ | ⟨hx', hne⟩
    · rcases hnew y c hy with ⟨rfl, _⟩ | ⟨_, hne⟩
      · rfl
      · exact absurd rfl hne
    · rcases hnew y c hy with ⟨rfl, rfl⟩ | ⟨hy', _⟩
      · exact absurd rfl hne
      · exact hp.child_unique x y c hx' hy'
  · intro x
    by_cases hxn : x = child
    · simpa [hxn, hcurrentChild.symm] using blockerFields_zero _
    · by_cases hxc : x = s.current
      · simpa [hxc, Function.update_of_ne hcurrentChild, BlockerFields] using hfields
      · simpa [Function.update_of_ne hxn, Function.update_of_ne hxc] using hp.fields x
  · exact fun x point f data hx => hp.argument x point f data (hblock x point f data hx)
  · intro x hx
    by_cases hxn : x = child
    · simp [hxn]
    · exact List.mem_cons_of_mem child (hp.blocked_allocated x (by
        simpa [Function.update_of_ne hxn] using hx))
  · obtain ⟨q, hq, hcurrent⟩ := inv.queue
    refine ⟨q, ⟨?_, hq.nodup, ?_, hq.idle_notMem⟩, hcurrent⟩
    · apply hq.linked.congr
      intro x hx
      have hxn : x ≠ child := fun heq => hchild (heq ▸ (hq.resumable x hx).allocated)
      exact Function.update_of_ne hxn _ _
    · intro x hx
      have hres := hq.resumable x hx
      have hxn : x ≠ child := fun heq => hchild (heq ▸ hres.allocated)
      refine ⟨List.mem_cons_of_mem child hres.1, ?_, ?_, ?_, ?_⟩
      · simpa [Function.update_of_ne hxn] using hres.awake
      · simpa [Function.update_of_ne hxn] using hres.alive
      · intro y hy
        rcases hnew y x hy with ⟨_, heq⟩ | ⟨hold, _⟩
        · exact hxn heq
        · exact hres.registered y hold
      · intro f data hy
        simpa [Function.update_of_ne hxn] using hres.unblocked f data (hblock x _ f data hy)
  · intro x hx
    by_cases hxn : x = child
    · simp [hxn] at hx
    · dsimp only at hx
      rw [Function.update_of_ne hxn] at hx
      rcases inv.blocked x hx with hset | ⟨rfl, f, data, hpoint⟩
      · exact Or.inl (by simpa [Function.update_of_ne hxn] using hset)
      · simp [hpc] at hpoint
  · exact List.mem_cons_of_mem child inv.current_allocated
  · simpa [Function.update_of_ne hcurrentChild] using inv.current_alive
  · intro x hx
    rcases hnew x _ hx with ⟨_, heq⟩ | ⟨hold, _⟩
    · exact hcurrentChild heq
    · exact inv.current_registered x hold
  · simp

/-- The second half of `scheduler_register` makes the new process one of the others. -/
theorem schedulerRegisterEnqueue_yields (inv : SchedulerInvariant s) {child : P}
    (hpc : s.pc s.current = .registering child) :
    Yields schedulerRegisterEnqueue s fun _ t => SchedulerInvariant t := by
  obtain ⟨hallocated, hstate, houtside⟩ := inv.processes.child_new _ _ hpc
  obtain ⟨q, hq, hcurrent⟩ := inv.queue
  have hidle : s.current ≠ s.idle := inv.ne_idle (by simp [hpc])
  have hfields := inv.processes.fields s.current
  rw [hpc] at hfields
  have hawake := inv.awake_of_fields hfields.1 (by simp [hpc])
  have hchild : child ∉ q := fun hmem => (hq.resumable child hmem).registered _ hpc
  have hcurrentChild : child ≠ s.current := by
    rintro rfl
    exact inv.current_registered _ hpc
  have hmoved : SchedulerInvariant { s with pc := Function.update s.pc s.current .outside } :=
    inv.setPc hidle (by simp) (by simp) (by simp) hfields fun h => absurd h hawake
  have hq' : QueueInvariant { s with pc := Function.update s.pc s.current .outside } q :=
    hq.move hcurrent (by simp) (fun _ _ => rfl) fun _ _ => rfl
  have hres : Resumable { s with pc := Function.update s.pc s.current .outside } child := by
    refine ⟨hallocated, by simp [hstate], by simp [hstate], ?_, ?_⟩
    · intro x hx
      by_cases hxc : x = s.current
      · simp [hxc] at hx
      · dsimp only at hx
        rw [Function.update_of_ne hxc] at hx
        exact hxc (inv.processes.child_unique _ _ _ hx hpc)
    · simp [Function.update_of_ne hcurrentChild, houtside]
  have hidleChild : child ≠ s.idle := by
    rintro rfl
    exact inv.processes.idle_registered _ hpc
  simp only [schedulerRegisterEnqueue, yields_bind, yields_get, hpc, setPc, yields_modify]
  apply (schedulerEnqueue_yields hq.linked hq.nodup (fun x hx => (hq.resumable x hx).allocated) hchild
    (by simp [hstate])).mono
  rintro _ t ⟨next, head, rfl, hlinked⟩
  refine ⟨hmoved.processes.of_queue, ⟨_, hq'.append hlinked hchild hres hidleChild, ?_⟩,
    hmoved.blocked, hmoved.current_allocated, hmoved.current_alive, hmoved.current_registered,
    hmoved.current_unblocked⟩
  intro hmem
  rcases List.mem_append.1 hmem with hmem | hmem
  · exact hcurrent hmem
  · exact hcurrentChild (List.mem_singleton.1 hmem).symm

/-- The end of `die` leaves the process to its parent and switches away. -/
theorem dieFinally_yields (inv : SchedulerInvariant s) (hpc : s.pc s.current = .dying)
    (answers : Nat → Nat → Bool) :
    Yields (dieFinally answers) s fun _ t => SchedulerInvariant t := by
  have hidle : s.current ≠ s.idle := inv.ne_idle (by simp [hpc])
  obtain ⟨q, hq, hcurrent⟩ := inv.queue
  have ready := inv.switchReady (inv.awake_outside (Or.inr hpc))
  simp only [dieFinally, yields_bind, yields_modify]
  apply schedulerYield_false_yields
  refine ⟨ready.processes.setState inv.current_allocated inv.current_registered
    fun heq => absurd heq hidle, ⟨q, hq.setState hcurrent⟩, ?_⟩
  intro x hx
  by_cases heq : x = s.current
  · simp [heq] at hx
  · exact ready.blocked x (by simpa [Function.update_of_ne heq] using hx)

omit [DecidableEq P] in
/-- Signals and the list of processes touch nothing the queue depends on. -/
theorem SchedulerInvariant.of_listed {pending : P → Bool} {listed : List P}
    (inv : SchedulerInvariant s) (hidle : pending s.idle = false)
    (hlisted : ∀ p ∈ listed, p ∈ s.allProcesses) :
    SchedulerInvariant { s with pendingSignals := pending, allProcesses := listed } := by
  have hp := inv.processes
  refine ⟨⟨hp.1, hp.2, hp.3, fun hmem => hp.4 (hlisted _ hmem), hidle, hp.6,
    fun p hmem => hp.7 p (hlisted p hmem), hp.8, hp.9, hp.10, hp.11, hp.12⟩, ?_, inv.3, inv.4, inv.5,
    inv.6, inv.7⟩
  obtain ⟨q, hq, hcurrent⟩ := inv.queue
  refine ⟨q, ⟨hq.linked, hq.nodup, ?_, hq.idle_notMem⟩, hcurrent⟩
  intro x hx
  have := hq.resumable x hx
  exact ⟨this.1, this.2, this.3, this.4, this.5⟩

theorem sendSignal_yields (inv : SchedulerInvariant s) {p : P} (hp : p ∈ s.allProcesses) :
    Yields (sendSignal p) s fun _ t => SchedulerInvariant t := by
  have hidle : s.idle ≠ p := fun heq => inv.processes.idle_unlisted (heq ▸ hp)
  have hsent : SchedulerInvariant { s with
      pendingSignals := Function.update s.pendingSignals p true } :=
    inv.of_listed (by simpa [Function.update_of_ne hidle] using inv.processes.idle_unsignalled)
      fun _ h => h
  simp only [sendSignal, yields_bind, yields_get, yields_set]
  split
  · exact processHandlePendingSignals_yields hsent
  · exact hsent

theorem schedulerTick_yields (inv : SchedulerInvariant s) (hawake : s.state s.current ≠ .BLOCKED)
    {inKernel : Bool} (huser : inKernel = false → s.pc s.current = .outside ∧ s.current ≠ s.idle)
    (answers : Nat → Nat → Bool) :
    Yields (schedulerTick inKernel answers) s fun _ t => SchedulerInvariant t := by
  simp only [schedulerTick, yields_bind, yields_get]
  split
  · rename_i hdying
    obtain ⟨hpc, hidle⟩ := huser hdying.1
    have hfields := inv.processes.fields s.current
    rw [hpc] at hfields
    simp only [setPc, yields_modify]
    exact inv.setPc hidle (by simp) (by simp) (by simp) hfields fun h => absurd h hawake
  · exact schedulerYield_true_yields inv hawake answers

/-- Every event that can happen runs without failing an `ASSERT`, and keeps the invariant, unless it is
    a tick that strikes a blocked process. -/
theorem schedulerEvent_yields (inv : SchedulerInvariant s) {e : SchedulerEvent P}
    (enabled : s.Enabled e) (guard : SchedulerGuard s e) :
    Yields e.run s fun _ t => SchedulerInvariant t := by
  cases e with
  | callBlock f data =>
      obtain ⟨hpc, hidle, hf⟩ := enabled
      have hfields := inv.processes.fields s.current
      rw [hpc] at hfields
      simp only [SchedulerEvent.run, setPc, yields_modify]
      apply inv.setPc hidle (by simp) (by simp) (by simp [hf]) (by exact hfields)
      exact fun h => absurd h (inv.awake_outside (Or.inl hpc))
  | statement answers =>
      obtain ⟨point, f, data, hpc⟩ := enabled
      simp only [SchedulerEvent.run, yields_bind, yields_get, hpc]
      exact schedulerBlockStatement_yields inv hpc answers
  | yield answers => exact schedulerYield_true_yields inv (inv.awake_outside enabled) answers
  | tick inKernel answers =>
      exact schedulerTick_yields inv guard (fun h => ⟨(enabled h).1, (enabled h).2.1⟩) answers
  | exit =>
      obtain ⟨hpc, hidle, _⟩ := enabled
      have hfields := inv.processes.fields s.current
      rw [hpc] at hfields
      simp only [SchedulerEvent.run, setPc, yields_modify]
      apply inv.setPc hidle (by simp) (by simp) (by simp) (by exact hfields)
      exact fun h => absurd h (inv.awake_outside (Or.inl hpc))
  | die answers => exact dieFinally_yields inv enabled answers
  | register child pid =>
      obtain ⟨hpc, hidle, hchild⟩ := enabled
      exact schedulerRegister_yields inv hpc hidle hchild pid
  | registerEnqueue =>
      obtain ⟨child, hpc⟩ := enabled
      exact schedulerRegisterEnqueue_yields inv hpc
  | signal p => exact sendSignal_yields inv enabled
  | reap p =>
      simp only [SchedulerEvent.run, reapProcess, yields_modify]
      exact inv.of_listed inv.processes.idle_unsignalled fun _ h => List.mem_of_mem_erase h

theorem schedulerInvariant_initial {idle kernelInit : P} (hne : kernelInit ≠ idle) :
    SchedulerInvariant (Scheduler.initial idle kernelInit) := by
  have hawake : ∀ p, (Scheduler.initial idle kernelInit).state p ≠ .BLOCKED := by
    intro p
    by_cases heq : p = kernelInit <;> simp [Scheduler.initial, heq]
  refine ⟨⟨?_, rfl, ?_, ?_, rfl, ?_, ?_, ?_, ?_, ?_, ?_, ?_⟩, ⟨[], ⟨rfl, List.nodup_nil, ?_, ?_⟩, ?_⟩,
    fun p hp => absurd hp (hawake p), ?_, ?_, ?_, ?_⟩
  case refine_10 => exact fun p hp => absurd hp (hawake p)
  all_goals simp [Scheduler.initial, BlockerFields, hne.symm]

end Events

/-! ### Runs -/

section Runs

variable [DecidableEq P]

theorem schedulerInvariant_run {s t : Scheduler P}
    {xs : List (Transition (Scheduler P) (SchedulerEvent P))} (hinit : (schedulerSystem P).init s)
    (run : (schedulerSystem P).Run s xs t) (guard : ∀ x ∈ xs, SchedulerGuard x.before x.event) :
    SchedulerInvariant t := by
  obtain ⟨idle, kernelInit, hne, rfl⟩ := hinit
  apply run.guarded_invariant SchedulerInvariant _ (schedulerInvariant_initial hne) guard
  intro s e s' inv hguard hstep
  exact (schedulerEvent_yields inv hstep.1 hguard).and_return hstep.2

/-- The ready queue over runs. In every run in which no tick strikes a blocked current process, the
    queue is a list of distinct processes that are neither blocked nor dead, and every next event that
    is not such a tick runs without failing an `ASSERT`. -/
theorem scheduler_queue_integrity {s t : Scheduler P}
    {xs : List (Transition (Scheduler P) (SchedulerEvent P))} (hinit : (schedulerSystem P).init s)
    (run : (schedulerSystem P).Run s xs t) (guard : ∀ x ∈ xs, SchedulerGuard x.before x.event) :
    ReadyQueueIntegrity t ∧
      ∀ e, t.Enabled e → SchedulerGuard t e → Yields e.run t fun _ _ => True := by
  have inv := schedulerInvariant_run hinit run guard
  refine ⟨inv.integrity, ?_⟩
  intro e enabled hguard
  exact (schedulerEvent_yields inv enabled hguard).mono fun _ _ _ => trivial

/-- The state after an event that can happen and returns. -/
def Scheduler.next (s : Scheduler P) (e : SchedulerEvent P) : Option (Scheduler P) :=
  if s.Enabled e then
    match e.run s with
    | .ok (_, t) => some t
    | .error _ => none
  else none

theorem Scheduler.step_of_next {s t : Scheduler P} {e : SchedulerEvent P} (h : s.next e = some t) :
    (schedulerSystem P).step s e t := by
  unfold Scheduler.next at h
  split at h
  · rename_i enabled
    split at h
    · rename_i hrun
      obtain rfl := Option.some.inj h
      exact ⟨enabled, hrun⟩
    · simp at h
  · simp at h

/-- The process that booted the kernel creates another one, and the timer preempts it. -/
theorem scheduler_queue_integrity_after_tick :
    ∃ s xs t, (schedulerSystem (Fin 3)).init s ∧ (schedulerSystem (Fin 3)).Run s xs t ∧
      t.current = 2 ∧ t.readyQueue = some 0 ∧ ReadyQueueIntegrity t := by
  have hinit : (schedulerSystem (Fin 3)).init (Scheduler.initial 1 0) := ⟨1, 0, by decide, rfl⟩
  have hplay : ([.register 2 5, .registerEnqueue, .tick true fun _ _ => false].foldlM
      (fun s e => if SchedulerGuard s e then Scheduler.next s e else none)
      (Scheduler.initial (1 : Fin 3) 0)).any
        (fun t => t.current = 2 ∧ t.readyQueue = some 0) = true := by decide +kernel
  obtain ⟨t, ht, hafter⟩ := (Option.any_eq_true _ _).1 hplay
  obtain ⟨hcurrent, hqueue⟩ := of_decide_eq_true hafter
  obtain ⟨xs, run, _, hguard⟩ := TransitionSystem.Run.of_play (M := schedulerSystem (Fin 3))
    SchedulerGuard (fun s e s' hnext => by
      split at hnext
      · rename_i hguard
        exact ⟨Scheduler.step_of_next hnext, hguard⟩
      · simp at hnext) ht
  exact ⟨_, xs, t, hinit, run, hcurrent, hqueue, (scheduler_queue_integrity hinit run hguard).1⟩

/-- The timer strikes between the statement that sets the state and the one that sets the predicate:
    `unblock_processes` fails its `ASSERT`. -/
theorem tick_in_schedulerBlock_fails_assert :
    ¬ ∀ (s : Scheduler (Fin 3)) xs t, (schedulerSystem (Fin 3)).init s →
      (schedulerSystem (Fin 3)).Run s xs t →
      ReadyQueueIntegrity t ∧ ∀ e, t.Enabled e → Yields e.run t fun _ _ => True := by
  intro h
  have hinit : (schedulerSystem (Fin 3)).init (Scheduler.initial 1 0) := ⟨1, 0, by decide, rfl⟩
  have hplay : ([.register 2 5, .registerEnqueue, .yield fun _ _ => false, .callBlock 7 9,
      .statement fun _ _ => false, .statement fun _ _ => false, .statement fun _ _ => false,
      .statement fun _ _ => false].foldlM Scheduler.next (Scheduler.initial (1 : Fin 3) 0)).any
        (fun t => ¬Yields (SchedulerEvent.tick true fun _ _ => false).run t fun _ _ => True) = true := by
    decide +kernel
  obtain ⟨t, ht, hafter⟩ := (Option.any_eq_true _ _).1 hplay
  obtain ⟨xs, run, _, _⟩ := TransitionSystem.Run.of_play (M := schedulerSystem (Fin 3))
    (fun _ _ => True) (fun s e s' hnext => ⟨Scheduler.step_of_next hnext, trivial⟩) ht
  exact of_decide_eq_true hafter ((h _ xs t hinit run).2 _ nofun)

end Runs

end Chaotix
