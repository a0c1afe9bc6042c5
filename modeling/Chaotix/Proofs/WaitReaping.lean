/-
Module: Chaotix.Proofs.WaitReaping
Layer: Proofs
Purpose: What `waitpid` does to the dead. The predicate takes a dead target out of the list and leaves it in the blocker;
  from then on it is in the hands of that one call, which reports it and frees it. A call that is interrupted has not
  got an answer from the predicate. So every death is followed by at most one removal and one `kfree`.
Imports: Mathlib.Data.List.Count, Chaotix.Proofs.ProcessList
Trusted boundary: none
Main exports: ProcessTable.processes, ProcessTable.Effect, ProcessTable.WaitInvariant, ProcessTable.waitpid_reaps_once
-/
import Chaotix.Proofs.ProcessList

open Program

namespace Chaotix

/-- A process inside `waitpid`. -/
def ProcessPc.Waits {P : Type} : ProcessPc P → Prop
  | .waitpid _ _ => True
  | .blocked _ => True
  | .woken _ => True
  | .waited _ => True
  | _ => False

/-- A process that has asked the predicate and not got a yes. -/
def ProcessPc.Asks {P : Type} : ProcessPc P → Prop
  | .waitpid _ _ => True
  | .blocked _ => True
  | _ => False

namespace ProcessTable

/-- The processes on the list, as a walk finds them. -/
def processes {P : Type} (s : ProcessTable P) : List P :=
  (visit s.nextInAllProcesses s.allocated.length s.allProcesses).getD []

section Effects

variable {P : Type} {s t : ProcessTable P} {l : List P}

theorem Listed.processes_eq (h : Listed s l) : s.processes = l := by
  rw [processes, visit_eq h.linked h.length_le, Option.getD_some]

/-- What one step does to the dead. Only the predicate of `waitpid` takes a process out of the list, a dead one, and the
    call records it. Only `waitpid` frees a process: the dead one that it has removed, and it reports its number and its
    exit status. A call that returns `EINTR` has removed nothing. Otherwise the dead stay as they are, and only `die`
    adds to them. -/
structure Effect (s : ProcessTable P) (e : Event P) (t : ProcessTable P) : Prop where
  left : ∀ w ∈ s.processes, w ∉ t.processes →
    ∃ p, (e = .testBlocker p ∨ e = .unblock p) ∧ s.state w = .DEAD ∧ t.removed p = [w]
  entered : ∀ w ∈ t.processes, w ∉ s.processes → s.state w ≠ .DEAD
  freed : ∀ w ∈ s.allocated, w ∉ t.allocated →
    ∃ p, e = .reap p ∧ s.state w = .DEAD ∧ w ∉ s.processes ∧ s.removed p = [w] ∧
      t.waitResult p = some (.ok (s.pid w, some (s.exitStatus w)))
  interrupted : ∀ p, e = .blockReturns p → t.pc p = .user →
    t.waitResult p = some (.error .EINTR) ∧ t.removed p = []
  started : ∀ p pid nohang, e = .waitpid p pid nohang → t.removed p = []
  recorded : ∀ p, (∀ pid nohang, e ≠ .waitpid p pid nohang) → s.removed p <+: t.removed p
  dead : ∀ w ∈ s.allocated, s.state w = .DEAD → w ∈ t.allocated →
    t.state w = .DEAD ∧ t.pid w = s.pid w ∧ t.exitStatus w = s.exitStatus w
  died : ∀ w ∈ t.allocated, t.state w = .DEAD → (w ∈ s.allocated ∧ s.state w = .DEAD) ∨ e = .die w
  dies : ∀ w, e = .die w → s.state w ≠ .DEAD ∧ w ∈ t.allocated ∧ t.state w = .DEAD

/-- What every step keeps, of one process: its blocker holds what it has removed, which is dead, and it holds nothing
    until the predicate has said yes. A process that it has only created is not dead. -/
structure BlockerInvariant (s : ProcessTable P) (p : P) : Prop where
  recorded : (s.pc p).Waits → s.removed p = (s.pc p).owned.toList
  asks : (s.pc p).Asks → (s.pc p).owned = none
  held : ∀ w, (s.pc p).Waits → (s.pc p).owned = some w → s.state w = .DEAD
  created : ∀ c, ¬(s.pc p).Waits → (s.pc p).owned = some c → s.state c ≠ .DEAD
  interrupted : (∃ blocker, s.pc p = .woken blocker) → s.blockerWasInterrupted p = true → (s.pc p).owned = none

structure WaitInvariant (s : ProcessTable P) : Prop where
  allocatedOnce : s.allocated.Nodup
  blockers : ∀ p, BlockerInvariant s p

/-- The two states agree on what the invariant says of a process. -/
structure Agrees (s t : ProcessTable P) (p : P) : Prop where
  pc : t.pc p = s.pc p
  removed : t.removed p = s.removed p
  interrupted : t.blockerWasInterrupted p = s.blockerWasInterrupted p
  state : ∀ c, (s.pc p).owned = some c → t.state c = s.state c

theorem BlockerInvariant.of_agrees {p : P} (h : BlockerInvariant s p) (hagrees : Agrees s t p) :
    BlockerInvariant t p := by
  constructor
  case recorded =>
    rw [hagrees.pc, hagrees.removed]
    exact h.recorded
  case asks =>
    rw [hagrees.pc]
    exact h.asks
  case held =>
    rw [hagrees.pc]
    intro w hwaits hw
    rw [hagrees.state w hw]
    exact h.held w hwaits hw
  case created =>
    rw [hagrees.pc]
    intro c hwaits hc
    rw [hagrees.state c hc]
    exact h.created c hwaits hc
  case interrupted =>
    rw [hagrees.pc, hagrees.interrupted]
    exact h.interrupted

/-- A process outside `waitpid`. -/
theorem BlockerInvariant.of_not_waits {p : P} (hwaits : ¬(s.pc p).Waits)
    (hcreated : ∀ c, (s.pc p).owned = some c → s.state c ≠ .DEAD) : BlockerInvariant s p := by
  constructor
  case recorded => exact fun h => absurd h hwaits
  case held => exact fun w h => absurd h hwaits
  case created => exact fun c _ => hcreated c
  case asks =>
    intro hasks
    refine absurd ?_ hwaits
    cases hpc : s.pc p <;> rw [hpc] at hasks <;> trivial
  case interrupted =>
    rintro ⟨blocker, hpc⟩
    rw [hpc] at hwaits
    exact absurd trivial hwaits

theorem WaitInvariant.step (h : WaitInvariant s) (hnodup : t.allocated.Nodup)
    (hblockers : ∀ p, Agrees s t p ∨ BlockerInvariant t p) : WaitInvariant t := by
  refine ⟨hnodup, fun p => ?_⟩
  rcases hblockers p with hagrees | hnew
  · exact (h.blockers p).of_agrees hagrees
  · exact hnew

/-- The events that do nothing but what is said here. -/
def Quiet (e : Event P) : Prop :=
  (∀ p, e ≠ .blockReturns p) ∧ (∀ p pid nohang, e ≠ .waitpid p pid nohang) ∧ ∀ p, e ≠ .die p

/-- A step that takes nothing out of the list and frees nothing. -/
theorem Effect.of_quiet {e : Event P} (hlist : ∀ w ∈ s.processes, w ∈ t.processes)
    (hentered : ∀ w ∈ t.processes, w ∉ s.processes → s.state w ≠ .DEAD) (hallocated : ∀ w ∈ s.allocated, w ∈ t.allocated)
    (hremoved : t.removed = s.removed)
    (hdead : ∀ w ∈ s.allocated, s.state w = .DEAD →
      t.state w = .DEAD ∧ t.pid w = s.pid w ∧ t.exitStatus w = s.exitStatus w)
    (hdied : ∀ w ∈ t.allocated, t.state w = .DEAD → w ∈ s.allocated ∧ s.state w = .DEAD) (hquiet : Quiet e) :
    Effect s e t := by
  constructor
  case left => exact fun w hw hgone => absurd (hlist w hw) hgone
  case entered => exact hentered
  case freed => exact fun w hw hgone => absurd (hallocated w hw) hgone
  case interrupted => exact fun p h => absurd h (hquiet.1 p)
  case started => exact fun p pid nohang h => absurd h (hquiet.2.1 p pid nohang)
  case recorded => exact fun p _ => hremoved ▸ List.prefix_refl _
  case dead => exact fun w hw hd _ => hdead w hw hd
  case died => exact fun w hw hd => Or.inl (hdied w hw hd)
  case dies => exact fun w h => absurd h (hquiet.2.2 w)

/-- A step that also leaves the dead, the list and the allocated processes as they are. -/
theorem Effect.of_same {e : Event P} (hprocesses : t.processes = s.processes) (hallocated : t.allocated = s.allocated)
    (hremoved : t.removed = s.removed)
    (hdead : ∀ w ∈ s.allocated, s.state w = .DEAD →
      t.state w = .DEAD ∧ t.pid w = s.pid w ∧ t.exitStatus w = s.exitStatus w)
    (hdied : ∀ w, t.state w = .DEAD → s.state w = .DEAD) (hquiet : Quiet e) : Effect s e t :=
  .of_quiet (fun _ hw => hprocesses ▸ hw) (fun _ hw hnot => absurd (hprocesses ▸ hw) hnot)
    (fun _ hw => hallocated ▸ hw) hremoved hdead (fun w hw hd => ⟨hallocated ▸ hw, hdied w hd⟩) hquiet

/-- The parts that the invariant does not speak of. -/
theorem WaitInvariant.setOther (waits : WaitInvariant s) (hallocated : t.allocated = s.allocated) (hpc : t.pc = s.pc)
    (hremoved : t.removed = s.removed) (hinterrupted : t.blockerWasInterrupted = s.blockerWasInterrupted)
    (hstate : ∀ q c, (s.pc q).owned = some c → t.state c = s.state c) : WaitInvariant t :=
  waits.step (hallocated ▸ waits.allocatedOnce) fun q =>
    Or.inl ⟨congrFun hpc q, congrFun hremoved q, congrFun hinterrupted q, hstate q⟩

/-- A call that has its answer. -/
theorem BlockerInvariant.of_answered {p : P} (blocker : WaitpidBlocker P)
    (hpc : s.pc p = .waited blocker ∨ s.pc p = .woken blocker) (hremoved : s.removed p = blocker.waitedProcess.toList)
    (hheld : ∀ w, blocker.waitedProcess = some w → s.state w = .DEAD)
    (hinterrupted : s.blockerWasInterrupted p = true → s.pc p ≠ .waited blocker → blocker.waitedProcess = none) :
    BlockerInvariant s p := by
  have howned : (s.pc p).owned = blocker.waitedProcess := by rcases hpc with hpc | hpc <;> rw [hpc] <;> rfl
  have hwaits : (s.pc p).Waits := by rcases hpc with hpc | hpc <;> rw [hpc] <;> trivial
  constructor
  case recorded => exact fun _ => hremoved.trans (by rw [howned])
  case asks =>
    intro hasks
    rcases hpc with hpc | hpc <;> rw [hpc] at hasks <;> exact hasks.elim
  case held => exact fun w _ hw => hheld w (howned ▸ hw)
  case created => exact fun c hnot => absurd hwaits hnot
  case interrupted =>
    rintro ⟨blocker', hwoken⟩ hflag
    rw [howned]
    exact hinterrupted hflag (by rw [hwoken]; exact nofun)

/-- What the invariant says of a blocker that the predicate has looked at. -/
theorem held_of_polled {blocker : WaitpidBlocker P} {r : Bool × WaitpidBlocker P} {l' : List P}
    (hpolled : Polled s l blocker r t l') (hblocker : blocker.waitedProcess = none) :
    t.state = s.state ∧ t.pid = s.pid ∧ t.exitStatus = s.exitStatus ∧ t.allocated = s.allocated ∧
      t.removed = s.removed ∧ t.pc = s.pc ∧ t.blockerWasInterrupted = s.blockerWasInterrupted ∧
      (∀ w, r.2.waitedProcess = some w → s.state w = .DEAD) ∧ (r.1 = false → r.2 = blocker) := by
  cases hpolled with
  | waits => exact ⟨rfl, rfl, rfl, rfl, rfl, rfl, rfl, fun w hw => absurd (hblocker.symm.trans hw) nofun, fun _ => rfl⟩
  | none => exact ⟨rfl, rfl, rfl, rfl, rfl, rfl, rfl, nofun, nofun⟩
  | reaps hsplit target dead linked =>
      exact ⟨rfl, rfl, rfl, rfl, rfl, rfl, rfl, fun w hw => Option.some.inj hw ▸ dead, nofun⟩

end Effects

/-! ### Steps -/

section Steps

variable {P : Type} [DecidableEq P] {s t : ProcessTable P} {l : List P}

/-- What a step may do to the state of the processes that other processes hold: nothing, since these are absent. -/
theorem TableInvariant.state_owned (inv : TableInvariant s l) {p : P} (hp : s.pc p ≠ .absent) (state : ProcessState)
    {q c : P} (hc : (s.pc q).owned = some c) : Function.update s.state p state c = s.state c := by
  have hcp : c ≠ p := fun heq => hp (heq ▸ (inv.owned q c hc).2.2)
  rw [Function.update_of_ne hcp]

/-- A process goes to a control point outside `waitpid`. -/
theorem WaitInvariant.setPc (waits : WaitInvariant s) (p : P) (pc : ProcessPc P) (hpc : ¬pc.Waits)
    (howned : ∀ c, pc.owned = some c → s.state c ≠ .DEAD) :
    WaitInvariant { s with pc := Function.update s.pc p pc } := by
  refine waits.step waits.allocatedOnce fun q => ?_
  by_cases hqp : q = p
  · refine Or.inr (.of_not_waits ?_ fun c hc => ?_)
    · simpa only [hqp, Function.update_self] using hpc
    · simp only [hqp, Function.update_self] at hc
      exact howned c hc
  · exact Or.inl ⟨Function.update_of_ne hqp _ _, rfl, rfl, fun _ _ => rfl⟩

theorem effect_setState (inv : TableInvariant s l) (waits : WaitInvariant s) {p : P} {state : ProcessState}
    (hp : s.pc p ≠ .absent) (hstate : state ≠ .DEAD) (pending : P → Bool) {exitStatus : P → Nat}
    (hexit : ∀ w, w ≠ p → exitStatus w = s.exitStatus w) {e : Event P}
    (hquiet : Quiet e) :
    let t := { s with
      pendingSignals := pending, exitStatus := exitStatus, state := Function.update s.state p state }
    WaitInvariant t ∧ Effect s e t := by
  have hold : ∀ w, s.state w = .DEAD → w ≠ p := fun w hw heq => (inv.acts p hp).2 (heq ▸ hw)
  refine ⟨waits.setOther rfl rfl rfl rfl fun q c hc => inv.state_owned hp state hc, ?_⟩
  refine Effect.of_same rfl rfl rfl (fun w _ hw => ?_) (fun w hw => ?_) hquiet
  · exact ⟨(Function.update_of_ne (hold w hw) _ _).trans hw, rfl, hexit w (hold w hw)⟩
  · by_cases hwp : w = p
    · simp only [hwp, Function.update_self] at hw
      exact absurd hw hstate
    · simpa only [Function.update_of_ne hwp] using hw

/-- A process is created. -/
theorem effect_alloc (inv : TableInvariant s l) (waits : WaitInvariant s) {p child : P}
    (hchild : child ∉ s.allocated) (forked : Bool) (hforked : forked = true → ∀ q, ¬(s.pc q).BeforeInit)
    {pc : ProcessPc P} (hpc : ¬pc.Waits) (howned : pc.owned = some child) {e : Event P} (hquiet : Quiet e) :
    Ensures (allocProcess child forked >>= fun _ => ProcessTable.setPc p pc) s fun _ t =>
      WaitInvariant t ∧ Effect s e t := by
  have hne : ∀ {q}, q ∈ s.allocated → q ≠ child := fun hq => ne_of_mem_of_not_mem hq hchild
  rw [ensures_bind]
  constructor
  · refine WaitInvariant.setPc ?_ p pc hpc fun c hc => ?_
    · refine waits.step (List.nodup_cons.2 ⟨hchild, waits.allocatedOnce⟩) fun q => ?_
      by_cases hqc : q = child
      · refine Or.inr (.of_not_waits ?_ fun c hc => ?_)
        · simp only [hqc, Function.update_self]
          exact id
        · simp [hqc, ProcessPc.owned] at hc
      · refine Or.inl ⟨Function.update_of_ne hqc _ _, rfl, Function.update_of_ne hqc _ _, fun c hc => ?_⟩
        exact Function.update_of_ne (hne (inv.owned q c hc).1) _ _
    · obtain rfl := Option.some.inj (hc.symm.trans howned)
      simp
  · have hlist := (inv.alloc hchild hforked).toListed
    have hprocesses : s.processes = l := inv.processes_eq
    refine .of_quiet (fun w hw => ?_) (fun w hw hnot => ?_) (fun w hw => List.mem_cons_of_mem child hw) rfl
      (fun w hw hd => ?_) (fun w hw hd => ?_) hquiet
    · rw [hprocesses] at hw
      exact hlist.processes_eq.symm ▸ hw
    · exact absurd (hprocesses ▸ hlist.processes_eq ▸ hw) hnot
    · have hwc := hne hw
      exact ⟨(Function.update_of_ne hwc _ _).trans hd, Function.update_of_ne hwc _ _, Function.update_of_ne hwc _ _⟩
    · by_cases hwc : w = child
      · simp [hwc] at hd
      · simp only [Function.update_of_ne hwc] at hd
        exact ⟨(List.mem_cons.1 hw).resolve_left hwc, hd⟩

theorem effect_generatePid (waits : WaitInvariant s) {p : P}
    (hp : s.pc p = .init ∨ ∃ child, s.pc p = .forking child) :
    Ensures (Event.generatePid p).run s fun _ t => WaitInvariant t ∧ Effect s (.generatePid p) t := by
  rw [Event.run, ensures_bind, ensures_get]
  rcases hp with hp | ⟨child, hp⟩
  · simp only [hp]
    constructor
    · exact (waits.setPc p (.initGenerated s.nextPid) id (by simp [ProcessPc.owned])).setOther rfl rfl rfl rfl fun _ _ _ => rfl
    · exact .of_same rfl rfl rfl (fun w _ hd => ⟨hd, rfl, rfl⟩) (fun w hd => hd) ⟨by simp, by simp, by simp⟩
  · simp only [hp]
    have hwaits : ¬(s.pc p).Waits := by
      rw [hp]
      exact id
    have halive := (waits.blockers p).created child hwaits (by rw [hp]; rfl)
    constructor
    · refine (waits.setPc p (.creating child .returnToUserland) id fun c hc => ?_).setOther rfl rfl rfl rfl
        fun _ _ _ => rfl
      obtain rfl := Option.some.inj hc
      exact halive
    · refine .of_same rfl rfl rfl (fun w _ hd => ⟨hd, ?_, rfl⟩) (fun w hd => hd) ⟨by simp, by simp, by simp⟩
      have hwc : w ≠ child := fun heq => halive (heq ▸ hd)
      exact Function.update_of_ne hwc _ _

theorem effect_register (inv : TableInvariant s l) (waits : WaitInvariant s) {p child : P} {entry : EntryPoint}
    (hp : s.pc p = .creating child entry) :
    Ensures (Event.register p).run s fun _ t => WaitInvariant t ∧ Effect s (.register p) t := by
  obtain ⟨hchild, hfresh, _⟩ := inv.owned p child (by rw [hp]; rfl)
  rw [Event.run, ensures_bind, ensures_get]
  simp only [hp]
  rw [ensures_bind]
  apply (schedulerRegister_ensures inv.toListed hfresh).mono
  rintro _ t ⟨hstate, next, head, ys, zs, rfl, _, _, hlinked, rfl⟩
  constructor
  · refine ((waits.setPc p (if entry = .returnToUserland then .user else .kernel) ?_ ?_).setPc child entry.pc ?_
      ?_).setOther rfl rfl rfl rfl fun _ _ _ => rfl
    · split <;> exact id
    · split <;> simp [ProcessPc.owned]
    · cases entry <;> exact id
    · cases entry <;> simp [EntryPoint.pc, ProcessPc.owned]
  · have hmem : ∀ {w}, w ∈ ys ++ child :: zs ↔ w = child ∨ w ∈ ys ++ zs := by
      intro w
      simp only [List.mem_append, List.mem_cons]
      exact or_left_comm
    have hlist : Listed { s with nextInAllProcesses := next, allProcesses := head } (ys ++ child :: zs) := by
      refine ⟨hlinked, ?_, fun w hw => ?_⟩
      · rw [List.nodup_middle]
        exact List.nodup_cons.2 ⟨hfresh, inv.nodup⟩
      · rcases hmem.1 hw with rfl | hw
        · exact hchild
        · exact inv.allocated w hw
    have hprocesses := inv.processes_eq
    have hprocesses' := hlist.processes_eq
    refine .of_quiet (fun w hw => ?_) (fun w hw hnot => ?_) (fun w hw => hw) rfl (fun w _ hd => ⟨hd, rfl, rfl⟩)
      (fun w hw hd => ⟨hw, hd⟩) ⟨by simp, by simp, by simp⟩
    · rw [hprocesses] at hw
      exact hprocesses'.symm ▸ hmem.2 (Or.inr hw)
    · rw [hprocesses] at hnot
      rcases hmem.1 (hprocesses' ▸ hw) with rfl | hw
      · rw [hstate]
        simp
      · exact absurd hw hnot

theorem effect_assignPid (inv : TableInvariant s l) (waits : WaitInvariant s) {p : P} {pid : Int}
    (hp : s.pc p = .initGenerated pid) :
    Ensures (Event.assignPid p).run s fun _ t => WaitInvariant t ∧ Effect s (.assignPid p) t := by
  have hold : ∀ w, s.state w = .DEAD → w ≠ p := fun w hw heq =>
    (inv.acts p (by rw [hp]; simp)).2 (heq ▸ hw)
  rw [Event.run, ensures_bind, ensures_get]
  simp only [hp]
  constructor
  · exact (waits.setPc p .user id (by simp [ProcessPc.owned])).setOther rfl rfl rfl rfl fun _ _ _ => rfl
  · exact .of_same rfl rfl rfl (fun w _ hd => ⟨hd, Function.update_of_ne (hold w hd) _ _, rfl⟩) (fun w hd => hd)
      ⟨by simp, by simp, by simp⟩

theorem effect_exit (inv : TableInvariant s l) (waits : WaitInvariant s) {p : P}
    (hp : s.pc p = .user ∨ s.pc p = .kernel) (exitStatus : Option Nat) :
    Ensures (Event.exit p exitStatus).run s fun _ t => WaitInvariant t ∧ Effect s (.exit p exitStatus) t := by
  have hacts : s.pc p ≠ .absent := by rcases hp with hp | hp <;> rw [hp] <;> simp
  have hold : ∀ w, s.state w = .DEAD → w ≠ p := fun w hw heq => (inv.acts p hacts).2 (heq ▸ hw)
  have hmoved := waits.setPc p .dying id (by simp [ProcessPc.owned])
  cases exitStatus with
  | none =>
      rw [Event.run, ensures_bind, ensures_get, ensures_bind, assert, ensures_require]
      intro _
      exact ⟨hmoved, .of_same rfl rfl rfl (fun w _ hd => ⟨hd, rfl, rfl⟩) (fun w hd => hd) ⟨by simp, by simp, by simp⟩⟩
  | some status =>
      rw [Event.run, ensures_bind, ensures_modify, ensures_bind, ensures_get, ensures_bind, assert, ensures_require]
      intro _
      constructor
      · exact hmoved.setOther rfl rfl rfl rfl fun _ _ _ => rfl
      · exact .of_same rfl rfl rfl (fun w _ hd => ⟨hd, rfl, Function.update_of_ne (hold w hd) _ _⟩) (fun w hd => hd)
          ⟨by simp, by simp, by simp⟩

theorem effect_die (inv : TableInvariant s l) (waits : WaitInvariant s) {p : P} (hp : s.pc p = .dying) :
    Ensures (Event.die p).run s fun _ t => WaitInvariant t ∧ Effect s (.die p) t := by
  have hacts : s.pc p ≠ .absent := by rw [hp]; simp
  change Ensures (dieFinally p) s _
  rw [Ensures, dieFinally_eq p inv.toListed]
  constructor
  · exact (waits.setPc p .absent id (by simp [ProcessPc.owned])).setOther rfl rfl rfl rfl fun q c hc => by
      by_cases hqp : q = p
      · simp [hqp, ProcessPc.owned] at hc
      · simp only [Function.update_of_ne hqp] at hc
        exact inv.state_owned hacts .DEAD hc
  · constructor
    case left => exact fun w hw hgone => absurd hw hgone
    case entered => exact fun w hw hnot => absurd hw hnot
    case freed => exact fun w hw hgone => absurd hw hgone
    case interrupted => simp
    case started => simp
    case recorded => exact fun q _ => List.prefix_refl _
    case dead =>
      intro w _ hd _
      have hwp : w ≠ p := fun heq => (inv.acts p hacts).2 (heq ▸ hd)
      exact ⟨(Function.update_of_ne hwp _ _).trans hd, rfl, rfl⟩
    case died =>
      intro w hw hd
      by_cases hwp : w = p
      · exact Or.inr (by rw [hwp])
      · simp only [Function.update_of_ne hwp] at hd
        exact Or.inl ⟨hw, hd⟩
    case dies =>
      intro w h
      obtain rfl := Event.die.inj h
      exact ⟨(inv.acts p hacts).2, (inv.acts p hacts).1, Function.update_self _ _ _⟩

theorem effect_waitpid (waits : WaitInvariant s) (p : P) (pid : Int) (nohang : Bool) :
    Ensures (Event.waitpid p pid nohang).run s fun _ t => WaitInvariant t ∧ Effect s (.waitpid p pid nohang) t := by
  rw [Event.run, ensures_bind, ensures_get, ensures_bind, ensures_set]
  constructor
  · refine waits.step waits.allocatedOnce fun q => ?_
    by_cases hqp : q = p
    · rw [hqp]
      refine Or.inr ⟨fun _ => ?_, fun _ => ?_, fun w _ hw => ?_, fun c hnot => ?_, ?_⟩
      · simp only [Function.update_self]
        rfl
      · simp only [Function.update_self]
        rfl
      · simp only [Function.update_self] at hw
        cases hw
      · simp only [Function.update_self] at hnot
        exact absurd trivial hnot
      · rintro ⟨blocker, h⟩
        simp only [Function.update_self] at h
        cases h
    · exact Or.inl ⟨Function.update_of_ne hqp _ _, Function.update_of_ne hqp _ _, rfl, fun _ _ => rfl⟩
  · constructor
    case left => exact fun w hw hgone => absurd hw hgone
    case entered => exact fun w hw hnot => absurd hw hnot
    case freed => exact fun w hw hgone => absurd hw hgone
    case interrupted => simp
    case started =>
      intro q _ _ h
      obtain ⟨rfl, _, _⟩ := Event.waitpid.inj h
      exact Function.update_self _ _ _
    case recorded =>
      intro q hq
      have hqp : q ≠ p := fun heq => hq pid nohang (by rw [heq])
      simp only [Function.update_of_ne hqp]
      exact List.prefix_refl _
    case dead => exact fun w _ hd _ => ⟨hd, rfl, rfl⟩
    case died => exact fun w hw hd => Or.inl ⟨hw, hd⟩
    case dies => simp

/-- What the predicate does is recorded by the call that asked it. -/
theorem effect_polled (inv : TableInvariant s l) {blocker : WaitpidBlocker P} {r : Bool × WaitpidBlocker P}
    {u : ProcessTable P} {l' : List P} (hpolled : Polled s l blocker r u l') {p : P} (hbefore : s.removed p = []) {e : Event P} (he : e = .testBlocker p ∨ e = .unblock p)
    (hnext : t.nextInAllProcesses = u.nextInAllProcesses) (hhead : t.allProcesses = u.allProcesses)
    (hallocated : t.allocated = s.allocated) (hstate : t.state = s.state) (hpid : t.pid = s.pid)
    (hexit : t.exitStatus = s.exitStatus) (hothers : ∀ q, q ≠ p → t.removed q = s.removed q)
    (hremoved : t.removed p = r.2.waitedProcess.toList) : Effect s e t := by
  have hlist : Listed t l' := by
    have hlist := (inv.polled hpolled).1.toListed
    have huallocated : u.allocated = s.allocated := by cases hpolled <;> rfl
    exact ⟨hnext ▸ hhead ▸ hlist.linked, hlist.nodup, fun w hw => hallocated ▸ huallocated ▸ hlist.allocated w hw⟩
  have hprocesses := inv.processes_eq
  have hprocesses' := hlist.processes_eq
  constructor
  case left =>
    rw [hprocesses, hprocesses']
    intro w hw hgone
    refine ⟨p, he, ?_⟩
    rw [hremoved]
    cases hpolled with
    | waits => exact absurd hw hgone
    | none => exact absurd hw hgone
    | @reaps ys zs v _ _ hsplit _ dead _ =>
        have hwv : w = v := by
          rw [hsplit] at hw
          rcases List.mem_append.1 hw with hw | hw
          · exact absurd (List.mem_append_left zs hw) hgone
          · exact (List.mem_cons.1 hw).resolve_right fun hw => hgone (List.mem_append_right ys hw)
        rw [hwv]
        exact ⟨dead, rfl⟩
  case entered =>
    rw [hprocesses, hprocesses']
    intro w hw hnot
    cases hpolled with
    | waits => exact absurd hw hnot
    | none => exact absurd hw hnot
    | @reaps ys zs v _ _ hsplit _ _ _ =>
        refine absurd ?_ hnot
        rw [hsplit]
        exact ((List.sublist_cons_self v zs).append_left ys).subset hw
  case freed => exact fun w hw hgone => absurd (hallocated ▸ hw) hgone
  case interrupted =>
    intro q h
    rcases he with rfl | rfl <;> cases h
  case started =>
    intro q pid nohang h
    rcases he with rfl | rfl <;> cases h
  case recorded =>
    intro q _
    by_cases hqp : q = p
    · rw [hqp, hbefore]
      exact List.nil_prefix
    · exact hothers q hqp ▸ List.prefix_refl _
  case dead => exact fun w _ hd _ => ⟨hstate ▸ hd, hpid ▸ rfl, hexit ▸ rfl⟩
  case died => exact fun w hw hd => Or.inl ⟨hallocated ▸ hw, hstate ▸ hd⟩
  case dies =>
    intro w h
    rcases he with rfl | rfl <;> cases h

theorem effect_testBlocker (inv : TableInvariant s l) (waits : WaitInvariant s) {p : P} {nohang : Bool}
    {blocker : WaitpidBlocker P} (hp : s.pc p = .waitpid nohang blocker) :
    Ensures (Event.testBlocker p).run s fun _ t => WaitInvariant t ∧ Effect s (.testBlocker p) t := by
  have hblocker : blocker.waitedProcess = none := by
    have hasks := (waits.blockers p).asks (by rw [hp]; trivial)
    rwa [hp] at hasks
  have hbefore : s.removed p = [] := by
    have hrecorded := (waits.blockers p).recorded (by rw [hp]; trivial)
    rwa [hp, ProcessPc.owned, hblocker] at hrecorded
  rw [Event.run, ensures_bind, ensures_get]
  simp only [hp]
  rw [ensures_bind]
  apply (waitpidShouldUnblock_ensures blocker inv.toListed).mono
  rintro ⟨shouldUnblock, blocker'⟩ t ⟨l', hpolled⟩
  obtain ⟨hstate, hpid, hexit, hallocated, hremoved, hpc, hflag, hheld, hsame⟩ := held_of_polled hpolled hblocker
  have hwaits : WaitInvariant t := waits.setOther hallocated hpc hremoved hflag fun _ _ _ => hstate ▸ rfl
  cases shouldUnblock with
  | true =>
      simp only [if_true]
      constructor
      · refine hwaits.step hwaits.allocatedOnce fun q => ?_
        by_cases hqp : q = p
        · rw [hqp]
          refine Or.inr (.of_answered blocker' (Or.inl (Function.update_self _ _ _)) ?_ ?_ ?_)
          · simp [hremoved, hbefore]
          · exact fun w hw => hstate ▸ hheld w hw
          · exact fun _ hne => absurd (Function.update_self _ _ _) hne
        · exact Or.inl ⟨Function.update_of_ne hqp _ _, Function.update_of_ne hqp _ _, rfl, fun _ _ => rfl⟩
      · refine effect_polled inv hpolled hbefore (Or.inl rfl) rfl rfl hallocated hstate hpid hexit (fun q hq => ?_) ?_
        · exact (Function.update_of_ne hq _ _).trans (congrFun hremoved q)
        · simp [hremoved, hbefore]
  | false =>
      obtain rfl : blocker' = blocker := hsame rfl
      have hpolled' : ∀ u : ProcessTable P, u.nextInAllProcesses = t.nextInAllProcesses →
          u.allProcesses = t.allProcesses → u.allocated = t.allocated → u.state = t.state → u.pid = t.pid →
          u.exitStatus = t.exitStatus → u.removed = t.removed → Effect s (.testBlocker p) u := by
        intro u hnext hhead hallocated' hstate' hpid' hexit' hremoved'
        refine effect_polled inv hpolled hbefore (Or.inl rfl) hnext hhead (hallocated'.trans hallocated)
          (hstate'.trans hstate) (hpid'.trans hpid) (hexit'.trans hexit) (fun q _ => ?_) ?_
        · rw [hremoved', hremoved]
        · rw [hremoved', hremoved, hbefore, hblocker]
          rfl
      simp only [Bool.false_eq_true, if_false]
      cases nohang with
      | true =>
          simp only [if_true, hblocker]
          constructor
          · exact (hwaits.setPc p .user id (by simp [ProcessPc.owned])).setOther rfl rfl rfl rfl fun _ _ _ => rfl
          · exact hpolled' _ rfl rfl rfl rfl rfl rfl rfl
      | false =>
          constructor
          · refine hwaits.step hwaits.allocatedOnce fun q => ?_
            by_cases hqp : q = p
            · rw [hqp]
              refine Or.inr ⟨fun _ => ?_, fun _ => ?_, fun w _ hw => ?_, fun c hnot => ?_, ?_⟩
              · simp [hremoved, hbefore, ProcessPc.owned, hblocker]
              · simp [ProcessPc.owned, hblocker]
              · simp [ProcessPc.owned, hblocker] at hw
              · simp [ProcessPc.Waits] at hnot
              · simp
            · exact Or.inl ⟨Function.update_of_ne hqp _ _, rfl, Function.update_of_ne hqp _ _, fun _ _ => rfl⟩
          · exact hpolled' _ rfl rfl rfl rfl rfl rfl rfl

theorem effect_unblock (inv : TableInvariant s l) (waits : WaitInvariant s) {p : P} {blocker : WaitpidBlocker P}
    (hp : s.pc p = .blocked blocker) :
    Ensures (Event.unblock p).run s fun _ t => WaitInvariant t ∧ Effect s (.unblock p) t := by
  have hblocker : blocker.waitedProcess = none := by
    have hasks := (waits.blockers p).asks (by rw [hp]; trivial)
    rwa [hp] at hasks
  have hbefore : s.removed p = [] := by
    have hrecorded := (waits.blockers p).recorded (by rw [hp]; trivial)
    rwa [hp, ProcessPc.owned, hblocker] at hrecorded
  rw [Event.run, ensures_bind, ensures_get]
  simp only [hp]
  split
  · -- a signal is pending, so the predicate is not asked
    constructor
    · refine waits.step waits.allocatedOnce fun q => ?_
      by_cases hqp : q = p
      · rw [hqp]
        refine Or.inr (.of_answered blocker (Or.inr (Function.update_self _ _ _)) ?_ ?_ fun _ _ => hblocker)
        · rw [hblocker]
          exact hbefore
        · rw [hblocker]
          simp
      · exact Or.inl ⟨Function.update_of_ne hqp _ _, rfl, Function.update_of_ne hqp _ _, fun _ _ => rfl⟩
    · exact .of_same rfl rfl rfl (fun w _ hd => ⟨hd, rfl, rfl⟩) (fun w hd => hd) ⟨by simp, by simp, by simp⟩
  · rw [ensures_bind]
    apply (waitpidShouldUnblock_ensures blocker inv.toListed).mono
    rintro ⟨shouldUnblock, blocker'⟩ t ⟨l', hpolled⟩
    obtain ⟨hstate, hpid, hexit, hallocated, hremoved, hpc, hflag, hheld, hsame⟩ := held_of_polled hpolled hblocker
    have hwaits : WaitInvariant t := waits.setOther hallocated hpc hremoved hflag fun _ _ _ => hstate ▸ rfl
    cases shouldUnblock with
    | false =>
        refine ⟨hwaits, effect_polled inv hpolled hbefore (Or.inr rfl) rfl rfl hallocated hstate hpid hexit
          (fun q _ => congrFun hremoved q) ?_⟩
        rw [hremoved, hbefore, hsame rfl, hblocker]
        rfl
    | true =>
        simp only [if_true]
        constructor
        · refine hwaits.step hwaits.allocatedOnce fun q => ?_
          by_cases hqp : q = p
          · rw [hqp]
            refine Or.inr (.of_answered blocker' (Or.inr (Function.update_self _ _ _)) ?_ ?_ ?_)
            · simp [hremoved, hbefore]
            · exact fun w hw => hstate ▸ hheld w hw
            · exact fun hset => absurd hset (by simp)
          · exact Or.inl ⟨Function.update_of_ne hqp _ _, Function.update_of_ne hqp _ _, Function.update_of_ne hqp _ _,
              fun _ _ => rfl⟩
        · refine effect_polled inv hpolled hbefore (Or.inr rfl) rfl rfl hallocated hstate hpid hexit (fun q hq => ?_) ?_
          · exact (Function.update_of_ne hq _ _).trans (congrFun hremoved q)
          · simp [hremoved, hbefore]

theorem effect_blockReturns (waits : WaitInvariant s) {p : P} {blocker : WaitpidBlocker P}
    (hp : s.pc p = .woken blocker) :
    Ensures (Event.blockReturns p).run s fun _ t => WaitInvariant t ∧ Effect s (.blockReturns p) t := by
  have hblocker := waits.blockers p
  have hrecorded := hblocker.recorded (by rw [hp]; trivial)
  have hsame : ∀ t : ProcessTable P, t.nextInAllProcesses = s.nextInAllProcesses → t.allProcesses = s.allProcesses →
      t.allocated = s.allocated → t.removed = s.removed → t.state = s.state → t.pid = s.pid →
      t.exitStatus = s.exitStatus → (t.pc p = .user → t.waitResult p = some (.error .EINTR) ∧ t.removed p = []) →
      Effect s (.blockReturns p) t := by
    intro t hnext hhead hallocated hremoved hstate hpid hexit hreturn
    have hprocesses : t.processes = s.processes := by rw [processes, processes, hnext, hhead, hallocated]
    constructor
    case left => exact fun w hw hgone => absurd (hprocesses ▸ hw) hgone
    case entered => exact fun w hw hnot => absurd (hprocesses ▸ hw) hnot
    case freed => exact fun w hw hgone => absurd (hallocated ▸ hw) hgone
    case interrupted =>
      intro q h
      obtain rfl := Event.blockReturns.inj h
      exact hreturn
    case started => simp
    case recorded => exact fun q _ => hremoved ▸ List.prefix_refl _
    case dead => exact fun w _ hd _ => ⟨hstate ▸ hd, hpid ▸ rfl, hexit ▸ rfl⟩
    case died => exact fun w hw hd => Or.inl ⟨hallocated ▸ hw, hstate ▸ hd⟩
    case dies => simp
  rw [Event.run, ensures_bind, ensures_get]
  simp only [hp]
  split
  · rename_i hflag
    constructor
    · exact (waits.setPc p .user id (by simp [ProcessPc.owned])).setOther rfl rfl rfl rfl fun _ _ _ => rfl
    · refine hsame _ rfl rfl rfl rfl rfl rfl rfl fun _ => ⟨Function.update_self _ _ _, ?_⟩
      rw [hrecorded, hblocker.interrupted ⟨blocker, hp⟩ hflag]
      rfl
  · rw [hp] at hrecorded
    constructor
    · refine waits.step waits.allocatedOnce fun q => ?_
      by_cases hqp : q = p
      · rw [hqp]
        refine Or.inr (.of_answered blocker (Or.inl (Function.update_self _ _ _)) hrecorded (fun w hw => ?_) ?_)
        · exact hblocker.held w (by rw [hp]; trivial) (by rw [hp]; exact hw)
        · exact fun _ hne => absurd (Function.update_self _ _ _) hne
      · exact Or.inl ⟨Function.update_of_ne hqp _ _, rfl, rfl, fun _ _ => rfl⟩
    · refine hsame _ rfl rfl rfl rfl rfl rfl rfl fun hpc => ?_
      simp at hpc

theorem effect_reap (inv : TableInvariant s l) (waits : WaitInvariant s) {p : P} {blocker : WaitpidBlocker P}
    (hp : s.pc p = .waited blocker) :
    Ensures (Event.reap p).run s fun _ t => WaitInvariant t ∧ Effect s (.reap p) t := by
  rw [Event.run, ensures_bind, ensures_get]
  simp only [hp]
  have hreturned := waits.setPc p .user id (by simp [ProcessPc.owned])
  cases hwaited : blocker.waitedProcess with
  | none =>
      constructor
      · exact hreturned.setOther rfl rfl rfl rfl fun _ _ _ => rfl
      · exact .of_same rfl rfl rfl (fun w _ hd => ⟨hd, rfl, rfl⟩) (fun w hd => hd) ⟨by simp, by simp, by simp⟩
  | some w =>
      have howned : (s.pc p).owned = some w := by rw [hp, ProcessPc.owned, hwaited]
      have hw : (s.pc p).Waits := by rw [hp]; trivial
      have hdead := (waits.blockers p).held w hw howned
      have hremoved : s.removed p = [w] := by rw [(waits.blockers p).recorded hw, howned]; rfl
      have hlist := (inv.owned p w howned).2.1
      have hmem : ∀ {v}, v ∈ s.allocated.erase w ↔ v ≠ w ∧ v ∈ s.allocated := waits.allocatedOnce.mem_erase_iff
      simp only
      rw [ensures_bind_of_return (schedulerUnregister_eq inv.toListed hlist)]
      constructor
      · refine hreturned.step (waits.allocatedOnce.erase w) fun q => Or.inl ⟨rfl, rfl, rfl, fun _ _ => rfl⟩
      · have hlisted : Listed { s with allocated := s.allocated.erase w } l :=
          ⟨inv.linked, inv.nodup, fun v hv => hmem.2 ⟨ne_of_mem_of_not_mem hv hlist, inv.allocated v hv⟩⟩
        have hprocesses := inv.processes_eq
        have hprocesses' := hlisted.processes_eq
        constructor
        case left => exact fun v hv hgone => absurd (hprocesses'.symm ▸ hprocesses ▸ hv) hgone
        case entered => exact fun v hv hnot => absurd (hprocesses.symm ▸ hprocesses' ▸ hv) hnot
        case freed =>
          intro v hv hgone
          obtain rfl : v = w := by_contra fun hne => hgone (hmem.2 ⟨hne, hv⟩)
          exact ⟨p, rfl, hdead, hprocesses.symm ▸ hlist, hremoved, Function.update_self _ _ _⟩
        case interrupted => simp
        case started => simp
        case recorded => exact fun q _ => List.prefix_refl _
        case dead => exact fun v _ hd _ => ⟨hd, rfl, rfl⟩
        case died => exact fun v hv hd => Or.inl ⟨(hmem.1 hv).2, hd⟩
        case dies => simp

theorem effect_step (inv : TableInvariant s l) (waits : WaitInvariant s) {e : Event P} (enabled : s.Enabled e) :
    Ensures e.run s fun _ t => WaitInvariant t ∧ Effect s e t := by
  have hquiet : ∀ {t : ProcessTable P} {e : Event P}, t.nextInAllProcesses = s.nextInAllProcesses →
      t.allProcesses = s.allProcesses → t.allocated = s.allocated → t.removed = s.removed → t.state = s.state →
      t.pid = s.pid → t.exitStatus = s.exitStatus → Quiet e → Effect s e t := by
    intro t e hnext hhead hallocated hremoved hstate hpid hexit hquiet
    refine .of_same (by rw [processes, processes, hnext, hhead, hallocated]) hallocated hremoved (fun w _ hd => ?_)
      (fun w hd => hstate ▸ hd) hquiet
    exact ⟨hstate ▸ hd, hpid ▸ rfl, hexit ▸ rfl⟩
  cases e with
  | createKernelProcess p child =>
      rw [Event.run, ensures_bind, ensures_get]
      exact effect_alloc inv waits enabled.2 false (by simp) id rfl ⟨by simp, by simp, by simp⟩
  | fork p child =>
      have huser : (s.pc p).User := by rw [enabled.1]; trivial
      exact effect_alloc inv waits enabled.2 true (fun _ => inv.not_boot huser) id rfl ⟨by simp, by simp, by simp⟩
  | generatePid p => exact effect_generatePid waits enabled
  | forkFails p =>
      exact ⟨waits.setPc p .user id (by simp [ProcessPc.owned]), hquiet rfl rfl rfl rfl rfl rfl rfl ⟨by simp, by simp, by simp⟩⟩
  | register p =>
      obtain ⟨child, entry, hp⟩ := enabled
      exact effect_register inv waits hp
  | assignPid p =>
      obtain ⟨pid, hp⟩ := enabled
      exact effect_assignPid inv waits hp
  | setState p state =>
      exact effect_setState inv waits enabled.1 enabled.2 s.pendingSignals (fun _ _ => rfl) ⟨by simp, by simp, by simp⟩
  | setpgid p pgid =>
      exact ⟨waits.setOther rfl rfl rfl rfl fun _ _ _ => rfl, hquiet rfl rfl rfl rfl rfl rfl rfl ⟨by simp, by simp, by simp⟩⟩
  | sendSignal p =>
      exact ⟨waits.setOther rfl rfl rfl rfl fun _ _ _ => rfl, hquiet rfl rfl rfl rfl rfl rfl rfl ⟨by simp, by simp, by simp⟩⟩
  | terminateWithSignal p signum =>
      exact effect_setState inv waits enabled (by decide) _ (fun w hw => Function.update_of_ne hw _ _)
        ⟨by simp, by simp, by simp⟩
  | exit p exitStatus => exact effect_exit inv waits enabled.1 exitStatus
  | die p => exact effect_die inv waits enabled
  | waitpid p pid nohang => exact effect_waitpid waits p pid nohang
  | testBlocker p =>
      obtain ⟨nohang, blocker, hp⟩ := enabled
      exact effect_testBlocker inv waits hp
  | unblock p =>
      obtain ⟨blocker, hp⟩ := enabled
      exact effect_unblock inv waits hp
  | blockReturns p =>
      obtain ⟨blocker, hp⟩ := enabled
      exact effect_blockReturns waits hp
  | reap p =>
      obtain ⟨blocker, hp⟩ := enabled
      exact effect_reap inv waits hp

/-! ### Runs -/

/-- How often a process dies in a run, is taken out of the list, and is freed. -/
def deaths (w : P) (xs : List (Transition (ProcessTable P) (Event P))) : Nat :=
  xs.countP fun x => x.event = .die w

def removals (w : P) (xs : List (Transition (ProcessTable P) (Event P))) : Nat :=
  xs.countP fun x => w ∈ x.before.processes ∧ w ∉ x.after.processes

def frees (w : P) (xs : List (Transition (ProcessTable P) (Event P))) : Nat :=
  xs.countP fun x => w ∈ x.before.allocated ∧ w ∉ x.after.allocated

/-- A dead process that is still allocated, and one that is still on the list. -/
def zombie (w : P) (s : ProcessTable P) : Nat := if w ∈ s.allocated ∧ s.state w = .DEAD then 1 else 0

def listedZombie (w : P) (s : ProcessTable P) : Nat := if w ∈ s.processes ∧ s.state w = .DEAD then 1 else 0

/-- A dead process is freed once, or it is still there. -/
theorem Effect.frees_add {e : Event P} (h : Effect s e t) (w : P) :
    (if w ∈ s.allocated ∧ w ∉ t.allocated then 1 else 0) + zombie w t = (if e = .die w then 1 else 0) + zombie w s := by
  unfold zombie
  by_cases hdie : e = .die w
  · obtain ⟨halive, hw, hdead⟩ := h.dies w hdie
    simp [hdie, halive, hw, hdead]
  · simp only [if_neg hdie, Nat.zero_add]
    by_cases hs : w ∈ s.allocated ∧ s.state w = .DEAD
    · by_cases hw : w ∈ t.allocated
      · simp [hs, hw, (h.dead w hs.1 hs.2 hw).1]
      · simp [hs, hw]
    · have hkept : ¬(w ∈ s.allocated ∧ w ∉ t.allocated) := by
        rintro ⟨hw, hgone⟩
        obtain ⟨_, _, hdead, _⟩ := h.freed w hw hgone
        exact hs ⟨hw, hdead⟩
      have ht : ¬(w ∈ t.allocated ∧ t.state w = .DEAD) := fun ht => (h.died w ht.1 ht.2).elim hs hdie
      simp [if_neg hkept, if_neg ht, if_neg hs]

/-- A dead process leaves the list once, or it is still there. -/
theorem Effect.removals_add_le {e : Event P} (h : Effect s e t) (w : P) (hlist : ∀ w ∈ t.processes, w ∈ t.allocated) :
    (if w ∈ s.processes ∧ w ∉ t.processes then 1 else 0) + listedZombie w t ≤
      (if e = .die w then 1 else 0) + listedZombie w s := by
  unfold listedZombie
  by_cases hgone : w ∈ s.processes ∧ w ∉ t.processes
  · obtain ⟨_, _, hdead, _⟩ := h.left w hgone.1 hgone.2
    simp [hgone, hdead]
  · rw [if_neg hgone, Nat.zero_add]
    by_cases hdie : e = .die w
    · rw [if_pos hdie]
      split <;> omega
    · rw [if_neg hdie, Nat.zero_add]
      by_cases ht : w ∈ t.processes ∧ t.state w = .DEAD
      · obtain ⟨_, hdead⟩ := (h.died w (hlist w ht.1) ht.2).resolve_right hdie
        have hw : w ∈ s.processes := by_contra fun hnot => h.entered w ht.1 hnot hdead
        simp [ht, hw, hdead]
      · rw [if_neg ht]
        exact Nat.zero_le _

/-- Both invariants, of a list of the processes. -/
def ReapInvariant (s : ProcessTable P) : Prop := (∃ l, TableInvariant s l) ∧ WaitInvariant s

theorem reapInvariant_step {e : Event P} (inv : ReapInvariant s) (hstep : (processTableSystem P).step s e t) :
    ReapInvariant t ∧ Effect s e t := by
  obtain ⟨⟨l, inv⟩, waits⟩ := inv
  obtain ⟨hwaits, heffect⟩ := ensures_iff.1 (effect_step inv waits hstep.1) () t hstep.2
  exact ⟨⟨ensures_iff.1 (tableInvariant_step inv hstep.1) () t hstep.2, hwaits⟩, heffect⟩

theorem reapInvariant_run {xs : List (Transition (ProcessTable P) (Event P))} (inv : ReapInvariant s)
    (run : (processTableSystem P).Run s xs t) (w : P) :
    (∀ x ∈ xs, Effect x.before x.event x.after) ∧ frees w xs + zombie w t = deaths w xs + zombie w s ∧
      removals w xs + listedZombie w t ≤ deaths w xs + listedZombie w s := by
  induction run with
  | nil s => exact ⟨nofun, rfl, Nat.le_refl _⟩
  | @cons s e s' xs t hstep run ih =>
      obtain ⟨hinv, heffect⟩ := reapInvariant_step inv hstep
      obtain ⟨hrest, hfrees, hremovals⟩ := ih hinv
      obtain ⟨⟨l, htable⟩, _⟩ := hinv
      have hlist : ∀ w ∈ s'.processes, w ∈ s'.allocated := fun w hw => htable.allocated w (htable.processes_eq ▸ hw)
      have hfree := heffect.frees_add w
      have hremoval := heffect.removals_add_le w hlist
      refine ⟨fun x hx => ?_, ?_, ?_⟩
      · rcases List.mem_cons.1 hx with rfl | hx
        · exact heffect
        · exact hrest x hx
      · simp only [frees, deaths, List.countP_cons, decide_eq_true_eq] at hfrees ⊢
        omega
      · simp only [removals, deaths, List.countP_cons, decide_eq_true_eq] at hremovals ⊢
        omega

theorem reapInvariant_initial (kernelInit : P) : ReapInvariant (initial kernelInit) := by
  refine ⟨⟨[], tableInvariant_initial kernelInit⟩, List.nodup_singleton _, fun p => .of_not_waits ?_ nofun⟩
  by_cases hp : p = kernelInit
  · simp [initial, hp, ProcessPc.Waits]
  · simp [initial, hp, ProcessPc.Waits]

/-- In every run from boot, only `waitpid` takes processes out of the list and frees them, dead ones, and reports them;
    no death of a process is followed by two removals or by two frees. -/
theorem waitpid_reaps_once {xs : List (Transition (ProcessTable P) (Event P))}
    (hinit : (processTableSystem P).init s) (run : (processTableSystem P).Run s xs t) :
    (∀ x ∈ xs, Effect x.before x.event x.after) ∧ ∀ w, removals w xs ≤ deaths w xs ∧ frees w xs ≤ deaths w xs := by
  obtain ⟨kernelInit, rfl⟩ := hinit
  have hrun := reapInvariant_run (reapInvariant_initial kernelInit) run
  refine ⟨(hrun kernelInit).1, fun w => ?_⟩
  obtain ⟨_, hfrees, hremovals⟩ := hrun w
  have hzombie : zombie w (initial kernelInit) = 0 := if_neg fun h => ProcessState.noConfusion h.2
  have hlisted : listedZombie w (initial kernelInit) = 0 := if_neg fun h => List.not_mem_nil h.1
  rw [hzombie] at hfrees
  rw [hlisted] at hremovals
  exact ⟨Nat.le_of_add_right_le hremovals, Nat.le_of_add_right_le (Nat.le_of_eq hfrees)⟩

/-- A child exits with a status and is waited for. -/
theorem waitpid_reaps_once_after_exit :
    ∃ s xs t, (processTableSystem (Fin 3)).init s ∧ (processTableSystem (Fin 3)).Run s xs t ∧
      t.allProcesses = some 1 ∧ t.waitResult 1 = some (.ok (2, some 256)) ∧ frees 2 xs ≤ deaths 2 xs := by
  have hplay : ([.createKernelProcess 0 1, .register 0, .generatePid 1, .assignPid 1, .fork 1 2, .generatePid 1,
      .register 1, .exit 2 (some 256), .die 2, .waitpid 1 (-1) false, .testBlocker 1,
      .reap 1].foldlM next (initial (0 : Fin 3))).any
        (fun t => t.allProcesses = some 1 ∧ t.waitResult 1 = some (.ok (2, some 256))) = true := by
    decide +kernel
  obtain ⟨t, ht, hafter⟩ := (Option.any_eq_true _ _).1 hplay
  obtain ⟨hhead, hresult⟩ := of_decide_eq_true hafter
  obtain ⟨hinit, xs, run⟩ := run_of_play ht
  exact ⟨_, xs, t, hinit, run, hhead, hresult, ((waitpid_reaps_once hinit run).2 2).2⟩

end Steps

end ProcessTable

end Chaotix
