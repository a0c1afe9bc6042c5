/-
Module: Chaotix.Proofs.ProcessList
Layer: Proofs
Purpose: The list of all processes in every run. Process numbers are given before a process is registered, so they can
  be registered in any order, and each is put in front of the first number that is not smaller. A forked process on the
  list has a parent on the list, or `init`: the parent cannot die in `fork`, and the end of `die` goes over the list
  with interrupts disabled.
Imports: Mathlib.Data.List.Perm.Subperm, Chaotix.Kernel.ProcessTable
Trusted boundary: none
Main exports: schedulerRegister_ensures, waitpidShouldUnblock_ensures, dieFinally_ensures, TableInvariant,
  tableInvariant_step, process_table_invariant
-/
import Mathlib.Data.List.Perm.Subperm
import Chaotix.Kernel.ProcessTable

open Program

namespace Chaotix

namespace ProcessTable

/-! ### What the functions do to the list -/

section Listed

variable {P : Type} {s : ProcessTable P} {l : List P}

/-- A list of the processes that fits into the rounds of the walks. -/
structure Listed (s : ProcessTable P) (l : List P) : Prop where
  linked : LinkedList s.nextInAllProcesses s.allProcesses l
  nodup : l.Nodup
  allocated : ∀ p ∈ l, p ∈ s.allocated

theorem Listed.length_le (h : Listed s l) : l.length ≤ s.allocated.length :=
  (h.nodup.subperm h.allocated).length_le

/-- The loop of `waitpid_should_unblock` looks for a dead target. -/
theorem waitpidLoop_eq {blocker : WaitpidBlocker P} (n : Nat) (prev it : Option P) (anyTargetExists : Bool) :
    (s.waitpidLoop blocker n prev it anyTargetExists).map (fun r => (r.1, r.2.1)) =
      findNode s.nextInAllProcesses (fun it => decide (s.isTarget blocker it ∧ s.state it = .DEAD)) n prev it := by
  induction n generalizing prev it anyTargetExists with
  | zero => cases it <;> rfl
  | succ n ih =>
      cases it with
      | none => rfl
      | some it =>
          rw [waitpidLoop, findNode]
          by_cases hdead : s.isTarget blocker it ∧ s.state it = .DEAD
          · simp [hdead]
          · simp only [hdead, if_false, decide_false]
            exact ih _ _ _

end Listed

variable {P : Type} [DecidableEq P] {s t : ProcessTable P} {l : List P}

/-- The process is put behind the first processes with smaller numbers. -/
theorem schedulerRegister_ensures {process : P} (hlist : Listed s l) (hfresh : process ∉ l) :
    Ensures (schedulerRegister process) s fun _ t => s.state process = .RUNNABLE ∧ ∃ next head ys zs, l = ys ++ zs ∧
      (∀ y ∈ ys, s.pid y < s.pid process) ∧ (∀ z, zs.head? = some z → s.pid process ≤ s.pid z) ∧
      LinkedList next head (ys ++ process :: zs) ∧ t = { s with nextInAllProcesses := next, allProcesses := head } := by
  obtain ⟨ys, zs, rfl, hys, hzs, hwalk⟩ := findNode_eq (p := fun it => decide ¬s.pid it < s.pid process) none
    hlist.linked hlist.length_le
  rw [Option.or_none] at hwalk
  unfold schedulerRegister
  rw [ensures_bind, ensures_get, ensures_bind, assert, ensures_require]
  intro hstate
  rw [ensures_bind, ensures_get, hwalk]
  refine ensures_set.2 ⟨hstate, _, _, ys, zs, rfl, ?_, ?_, hlist.linked.insert hlist.nodup hfresh, rfl⟩
  · intro y hy
    simpa using hys y hy
  · intro z hz
    simpa using hzs z hz

/-- On a list without the process, `scheduler_unregister` does nothing. -/
theorem schedulerUnregister_eq {process : P} (hlist : Listed s l) (hprocess : process ∉ l) :
    schedulerUnregister process s = .ok ((), s) := by
  obtain ⟨ys, zs, rfl, _, hzs, hwalk⟩ := findNode_eq (p := fun it => decide (it = process)) none hlist.linked
    hlist.length_le
  have hnone : zs.head? = none := by
    cases hhead : zs.head? with
    | none => rfl
    | some z =>
        have hz : z = process := of_decide_eq_true (hzs z hhead)
        exact absurd (List.mem_append_right ys (List.mem_of_head? hhead)) (hz ▸ hprocess)
  rw [hnone] at hwalk
  simp [schedulerUnregister, hwalk]

/-- Each process of a walk whose parent has the given number is adopted. -/
theorem adopt_eq (p : P) (processes : List P) (s : ProcessTable P) :
    forM processes (adopt p) s =
      .ok (⟨⟩, { s with ppid := fun it => if it ∈ processes ∧ s.ppid it = s.pid p then 1 else s.ppid it }) := by
  induction processes generalizing s with
  | nil => simp
  | cons it processes ih =>
      -- the first round, and then the others from the state it leaves
      rw [List.forM_cons, run_bind, adopt, run_modify]
      simp only
      by_cases hchild : s.ppid it = s.pid p
      · rw [if_pos hchild, ih]
        simp only [Except.ok.injEq, Prod.mk.injEq, mk.injEq, true_and, and_true]
        funext x
        by_cases hx : x = it
        · subst hx
          simp [hchild]
        · simp [hx]
      · rw [if_neg hchild, ih]
        simp only [Except.ok.injEq, Prod.mk.injEq, mk.injEq, true_and, and_true]
        funext x
        by_cases hx : x = it
        · subst hx
          simp [hchild]
        · simp [hx]

/-- What `die` leaves: the children on the list are adopted, and the process is dead. -/
theorem dieFinally_eq (p : P) (hlist : Listed s l) :
    dieFinally p s = .ok ((), { s with
      ppid := fun it => if it ∈ l ∧ s.ppid it = s.pid p then 1 else s.ppid it
      state := Function.update s.state p .DEAD
      pc := Function.update s.pc p .absent }) := by
  simp [dieFinally, visit_eq hlist.linked hlist.length_le, adopt_eq]

/-- What the predicate of `waitpid` does: it takes a dead target out of the list, or it leaves everything alone. -/
inductive Polled (s : ProcessTable P) (l : List P) (blocker : WaitpidBlocker P) :
    Bool × WaitpidBlocker P → ProcessTable P → List P → Prop where
  | waits : Polled s l blocker (false, blocker) s l
  | none : Polled s l blocker (true, { blocker with waitedProcess := none }) s l
  | reaps {ys zs : List P} {w : P} {next : P → Option P} {head : Option P} (hsplit : l = ys ++ w :: zs)
      (target : s.isTarget blocker w = true) (dead : s.state w = .DEAD) (linked : LinkedList next head (ys ++ zs)) :
      Polled s l blocker (true, { blocker with waitedProcess := some w })
        { s with nextInAllProcesses := next, allProcesses := head } (ys ++ zs)

theorem waitpidShouldUnblock_ensures (blocker : WaitpidBlocker P) (hlist : Listed s l) :
    Ensures (waitpidShouldUnblock blocker) s fun r t => ∃ l', Polled s l blocker r t l' := by
  obtain ⟨ys, zs, rfl, _, hzs, hwalk⟩ := findNode_eq
    (p := fun it => decide (s.isTarget blocker it ∧ s.state it = .DEAD)) none hlist.linked hlist.length_le
  rw [← waitpidLoop_eq s.allocated.length none s.allProcesses false, Option.or_none] at hwalk
  obtain ⟨⟨prev, it, anyTargetExists⟩, hloop, hfound⟩ := Option.map_eq_some_iff.1 hwalk
  obtain ⟨rfl, rfl⟩ := Prod.mk.inj hfound
  unfold waitpidShouldUnblock
  rw [ensures_bind, ensures_get, hloop]
  cases zs with
  | nil =>
      rw [List.append_nil] at hlist ⊢
      simp only [List.head?_nil]
      split
      · exact ⟨ys, .waits⟩
      · exact ⟨ys, .none⟩
  | cons w zs =>
      obtain ⟨htarget, hdead⟩ := of_decide_eq_true (hzs w rfl)
      simp only [List.head?_cons]
      rw [ensures_bind, ensures_set]
      exact ⟨ys ++ zs, .reaps rfl htarget hdead (hlist.linked.unlink hlist.nodup)⟩

/-! ### The invariant -/

end ProcessTable

namespace ProcessPc

variable {P : Type}

/-- The process that a process has created and not registered yet, or that it has unlinked and not freed yet. -/
def owned : ProcessPc P → Option P
  | .forking child => some child
  | .creating child _ => some child
  | .waitpid _ blocker => blocker.waitedProcess
  | .blocked blocker => blocker.waitedProcess
  | .woken blocker => blocker.waitedProcess
  | .waited blocker => blocker.waitedProcess
  | _ => none

/-- A process that runs a program, in the kernel or out of it. -/
def User : ProcessPc P → Prop
  | .user => True
  | .forking _ => True
  | .creating _ entry => entry = .returnToUserland
  | .waitpid _ _ => True
  | .blocked _ => True
  | .woken _ => True
  | .waited _ => True
  | _ => False

/-- Until `init` has its number, no process has one: one process boots, creates `init` or is `init`. -/
def BeforeInit : ProcessPc P → Prop
  | .start => True
  | .creating _ entry => entry = .init
  | .init => True
  | .initGenerated _ => True
  | _ => False

/-- A process that is on the list as long as it is there. -/
def OnList (pc : ProcessPc P) : Prop := pc.User ∨ pc = .init ∨ ∃ pid, pc = .initGenerated pid

theorem User.not_beforeInit {pc : ProcessPc P} (h : pc.User) : ¬pc.BeforeInit := by
  cases pc with
  | creating child entry =>
      intro hinit
      exact EntryPoint.noConfusion (h.symm.trans hinit)
  | absent => exact h.elim
  | start => exact h.elim
  | kernel => exact h.elim
  | init => exact h.elim
  | initGenerated pid => exact h.elim
  | user => exact id
  | forking child => exact id
  | waitpid nohang blocker => exact id
  | blocked blocker => exact id
  | woken blocker => exact id
  | waited blocker => exact id
  | dying => exact h.elim

end ProcessPc

namespace ProcessTable

variable {P : Type} {s t : ProcessTable P} {l : List P}

/-- What every step keeps, of the processes on the list. `acts` is about a process that still does something. -/
structure TableInvariant (s : ProcessTable P) (l : List P) : Prop extends Listed s l where
  sorted : l.Pairwise fun p q => 0 < s.pid p → 0 < s.pid q → s.pid p < s.pid q
  nextPid : 0 < s.nextPid
  pidLt : ∀ p ∈ s.allocated, s.pid p < s.nextPid
  unique : ∀ p ∈ s.allocated, ∀ q ∈ s.allocated, 0 < s.pid p → s.pid p = s.pid q → p = q
  acts : ∀ p, s.pc p ≠ .absent → p ∈ s.allocated ∧ s.state p ≠ .DEAD
  onList : ∀ p, (s.pc p).OnList → p ∈ l
  owned : ∀ p c, (s.pc p).owned = some c → c ∈ s.allocated ∧ c ∉ l ∧ s.pc c = .absent
  ownedOnce : ∀ p q c, (s.pc p).owned = some c → (s.pc q).owned = some c → p = q
  created : ∀ p c entry, s.pc p = .creating c entry → s.forked c → s.ppid c = s.pid p ∧ entry = .returnToUserland
  generated : ∀ p pid, s.pc p = .initGenerated pid → 0 < pid ∧ pid < s.nextPid
  parents : ∀ c ∈ l, s.forked c → s.ppid c = 1 ∨ ∃ q ∈ l, s.state q ≠ .DEAD ∧ s.pid q = s.ppid c
  boot : ∀ p, (s.pc p).BeforeInit → ∀ q ∈ s.allocated,
    s.pid q = 0 ∧ s.forked q = false ∧ ¬(s.pc q).User ∧ ((s.pc q).BeforeInit → q = p)

theorem TableInvariant.not_boot (inv : TableInvariant s l) {p : P} (h : (s.pc p).User) (q : P) : ¬(s.pc q).BeforeInit := by
  intro hq
  have hp : s.pc p ≠ .absent := by
    intro heq
    rw [heq] at h
    exact h
  exact (inv.boot q hq p (inv.acts p hp).1).2.2.1 h

/-- Fields that the invariant does not speak of. -/
theorem TableInvariant.setOther (inv : TableInvariant s l) (pgid : P → Int) (exitStatus : P → Nat) (pending interrupted : P → Bool)
    (result : P → Option (Except Errno (Int × Option Nat))) (removed : P → List P) :
    TableInvariant { s with
      pgid := pgid
      exitStatus := exitStatus
      pendingSignals := pending
      blockerWasInterrupted := interrupted
      waitResult := result
      removed := removed } l :=
  { inv with toListed := { inv.toListed with } }

/-- A dead process is unlinked. -/
theorem TableInvariant.unlink (inv : TableInvariant s l) {w : P} {ys zs : List P} {next : P → Option P} {head : Option P}
    (hsplit : l = ys ++ w :: zs) (hdead : s.state w = .DEAD) (hlinked : LinkedList next head (ys ++ zs)) :
    TableInvariant { s with nextInAllProcesses := next, allProcesses := head } (ys ++ zs) := by
  subst hsplit
  have hsub : (ys ++ zs).Sublist (ys ++ w :: zs) := (List.sublist_cons_self w zs).append_left ys
  have hmem : ∀ {p}, p ∈ ys ++ w :: zs → p ≠ w → p ∈ ys ++ zs := by
    intro p hp hne
    rcases List.mem_append.1 hp with hp | hp
    · exact List.mem_append_left zs hp
    · exact List.mem_append_right ys ((List.mem_cons.1 hp).resolve_left hne)
  constructor
  case toListed => exact ⟨hlinked, inv.nodup.sublist hsub, fun p hp => inv.allocated p (hsub.subset hp)⟩
  case sorted => exact inv.sorted.sublist hsub
  case nextPid => exact inv.nextPid
  case pidLt => exact inv.pidLt
  case unique => exact inv.unique
  case acts => exact inv.acts
  case onList =>
    intro p hp
    refine hmem (inv.onList p hp) fun heq => ?_
    have hacts : s.pc p ≠ .absent := by
      intro habsent
      simp [habsent, ProcessPc.OnList, ProcessPc.User] at hp
    exact (inv.acts p hacts).2 (heq ▸ hdead)
  case owned =>
    intro p c hp
    obtain ⟨hc, hl, hpc⟩ := inv.owned p c hp
    exact ⟨hc, fun h => hl (hsub.subset h), hpc⟩
  case ownedOnce => exact inv.ownedOnce
  case created => exact inv.created
  case generated => exact inv.generated
  case parents =>
    intro c hc hforked
    rcases inv.parents c (hsub.subset hc) hforked with hone | ⟨q, hq, halive, hpid⟩
    · exact Or.inl hone
    · exact Or.inr ⟨q, hmem hq fun heq => halive (heq ▸ hdead), halive, hpid⟩
  case boot => exact inv.boot

section Fields

variable [DecidableEq P] (inv : TableInvariant s l)

include inv

/-- A process goes on to another control point. -/
theorem TableInvariant.setPc {p : P} (pc : ProcessPc P) (hp : s.pc p ≠ .absent) (honList : pc.OnList → p ∈ l)
    (howned : ∀ c, pc.owned = some c → (s.pc p).owned = some c ∨
      c ∈ s.allocated ∧ c ∉ l ∧ s.pc c = .absent ∧ ∀ q, (s.pc q).owned ≠ some c)
    (hcreated : ∀ c entry, pc = .creating c entry → s.forked c → s.ppid c = s.pid p ∧ entry = .returnToUserland)
    (hgenerated : ∀ pid, pc = .initGenerated pid → 0 < pid ∧ pid < s.nextPid)
    (hboot : pc.BeforeInit → (s.pc p).BeforeInit) (huser : pc.User → (s.pc p).User ∨ (s.pc p).BeforeInit) :
    TableInvariant { s with pc := Function.update s.pc p pc } l := by
  obtain ⟨hallocated, halive⟩ := inv.acts p hp
  constructor
  case toListed => exact { inv.toListed with }
  case sorted => exact inv.sorted
  case nextPid => exact inv.nextPid
  case pidLt => exact inv.pidLt
  case unique => exact inv.unique
  case parents => exact inv.parents
  case acts =>
    intro q hq
    by_cases hqp : q = p
    · rw [hqp]
      exact ⟨hallocated, halive⟩
    · simp only [Function.update_of_ne hqp] at hq
      exact inv.acts q hq
  case onList =>
    intro q hq
    by_cases hqp : q = p
    · simp only [hqp, Function.update_self] at hq ⊢
      exact honList hq
    · simp only [Function.update_of_ne hqp] at hq
      exact inv.onList q hq
  case owned =>
    intro q c hq
    have hold : c ∈ s.allocated ∧ c ∉ l ∧ s.pc c = .absent := by
      by_cases hqp : q = p
      · simp only [hqp, Function.update_self] at hq
        rcases howned c hq with hold | ⟨hc, hl, habsent, _⟩
        · exact inv.owned p c hold
        · exact ⟨hc, hl, habsent⟩
      · simp only [Function.update_of_ne hqp] at hq
        exact inv.owned q c hq
    have hcp : c ≠ p := fun heq => hp (heq ▸ hold.2.2)
    simp only [Function.update_of_ne hcp]
    exact hold
  case ownedOnce =>
    have hothers : ∀ q c, q ≠ p → (s.pc q).owned = some c → pc.owned ≠ some c := by
      intro q c hqp hq hpc
      rcases howned c hpc with hold | ⟨_, _, _, hnone⟩
      · exact hqp (inv.ownedOnce q p c hq hold)
      · exact hnone q hq
    intro q r c hq hr
    by_cases hqp : q = p
    · by_cases hrp : r = p
      · rw [hqp, hrp]
      · simp only [hqp, Function.update_self, Function.update_of_ne hrp] at hq hr
        exact absurd hq (hothers r c hrp hr)
    · by_cases hrp : r = p
      · simp only [hrp, Function.update_self, Function.update_of_ne hqp] at hq hr
        exact absurd hr (hothers q c hqp hq)
      · simp only [Function.update_of_ne hqp, Function.update_of_ne hrp] at hq hr
        exact inv.ownedOnce q r c hq hr
  case created =>
    intro q c entry hq
    by_cases hqp : q = p
    · simp only [hqp, Function.update_self] at hq ⊢
      exact hcreated c entry hq
    · simp only [Function.update_of_ne hqp] at hq
      exact inv.created q c entry hq
  case generated =>
    intro q pid hq
    by_cases hqp : q = p
    · simp only [hqp, Function.update_self] at hq
      exact hgenerated pid hq
    · simp only [Function.update_of_ne hqp] at hq
      exact inv.generated q pid hq
  case boot =>
    intro q hq r hr
    by_cases hqp : q = p
    · simp only [hqp, Function.update_self] at hq ⊢
      obtain ⟨hpid, hforked, hnot, hone⟩ := inv.boot p (hboot hq) r hr
      by_cases hrp : r = p
      · simp only [hrp, Function.update_self] at hpid hforked ⊢
        exact ⟨hpid, hforked, fun h => h.not_beforeInit hq, fun _ => trivial⟩
      · simp only [Function.update_of_ne hrp]
        exact ⟨hpid, hforked, hnot, hone⟩
    · simp only [Function.update_of_ne hqp] at hq
      obtain ⟨hpid, hforked, hnot, hone⟩ := inv.boot q hq r hr
      by_cases hrp : r = p
      · rw [hrp] at hpid hforked hnot hone
        simp only [hrp, Function.update_self]
        refine ⟨hpid, hforked, fun h => ?_, fun h => hone (hboot h)⟩
        rcases huser h with hold | hold
        · exact hnot hold
        · exact hqp (hone hold).symm
      · simp only [Function.update_of_ne hrp]
        exact ⟨hpid, hforked, hnot, hone⟩

/-- The scheduler changes the state of a process that is not dead. -/
theorem TableInvariant.setState {p : P} {state : ProcessState} (hstate : state ≠ .DEAD) :
    TableInvariant { s with state := Function.update s.state p state } l := by
  have hkeeps : ∀ q, s.state q ≠ .DEAD → Function.update s.state p state q ≠ .DEAD := by
    intro q hq
    by_cases hqp : q = p
    · rwa [hqp, Function.update_self]
    · rwa [Function.update_of_ne hqp]
  refine { inv with toListed := { inv.toListed with }, acts := fun q hq => ?_, parents := fun c hc hforked => ?_ }
  · exact ⟨(inv.acts q hq).1, hkeeps q (inv.acts q hq).2⟩
  · rcases inv.parents c hc hforked with hone | ⟨q, hq, halive, hpid⟩
    · exact Or.inl hone
    · exact Or.inr ⟨q, hq, hkeeps q halive, hpid⟩

/-- A process is created. While `init` has no number none is created by `fork`. -/
theorem TableInvariant.alloc {child : P} {forked : Bool} (hchild : child ∉ s.allocated)
    (hforked : forked = true → ∀ q, ¬(s.pc q).BeforeInit) :
    TableInvariant { s with
      allocated := child :: s.allocated
      nextInAllProcesses := Function.update s.nextInAllProcesses child none
      pid := Function.update s.pid child 0
      ppid := Function.update s.ppid child 0
      pgid := Function.update s.pgid child 0
      state := Function.update s.state child .RUNNABLE
      exitStatus := Function.update s.exitStatus child 0
      pendingSignals := Function.update s.pendingSignals child false
      blockerWasInterrupted := Function.update s.blockerWasInterrupted child false
      pc := Function.update s.pc child .absent
      forked := Function.update s.forked child forked } l := by
  have hne : ∀ {p}, p ∈ s.allocated → p ≠ child := fun hp => ne_of_mem_of_not_mem hp hchild
  have hacts : ∀ {p}, Function.update s.pc child .absent p ≠ .absent → p ≠ child ∧ s.pc p ≠ .absent := by
    intro p hp
    by_cases heq : p = child
    · rw [heq, Function.update_self] at hp
      exact absurd rfl hp
    · rw [Function.update_of_ne heq] at hp
      exact ⟨heq, hp⟩
  have howner : ∀ {p c}, (Function.update s.pc child .absent p).owned = some c → p ≠ child ∧ (s.pc p).owned = some c := by
    intro p c hp
    have hp' : Function.update s.pc child .absent p ≠ .absent := fun heq => by simp [heq, ProcessPc.owned] at hp
    obtain ⟨hne, _⟩ := hacts hp'
    rw [Function.update_of_ne hne] at hp
    exact ⟨hne, hp⟩
  constructor
  case toListed =>
    refine ⟨?_, inv.nodup, fun p hp => List.mem_cons_of_mem child (inv.allocated p hp)⟩
    exact inv.linked.congr fun p hp => Function.update_of_ne (hne (inv.allocated p hp)) _ _
  case sorted =>
    refine inv.sorted.imp_of_mem fun {p q} hp hq hpq => ?_
    simp only [Function.update_of_ne (hne (inv.allocated p hp)), Function.update_of_ne (hne (inv.allocated q hq))]
    exact hpq
  case nextPid => exact inv.nextPid
  case pidLt =>
    intro p hp
    by_cases heq : p = child
    · simp only [heq, Function.update_self]
      exact inv.nextPid
    · simp only [Function.update_of_ne heq]
      exact inv.pidLt p ((List.mem_cons.1 hp).resolve_left heq)
  case unique =>
    intro p hp q hq hpos heq
    by_cases hpc : p = child
    · simp only [hpc, Function.update_self] at hpos
      exact absurd hpos (Int.lt_irrefl 0)
    · simp only [Function.update_of_ne hpc] at hpos heq
      by_cases hqc : q = child
      · simp only [hqc, Function.update_self] at heq
        exact absurd (heq ▸ hpos) (Int.lt_irrefl 0)
      · simp only [Function.update_of_ne hqc] at heq
        exact inv.unique p ((List.mem_cons.1 hp).resolve_left hpc) q ((List.mem_cons.1 hq).resolve_left hqc) hpos heq
  case acts =>
    intro p hp
    obtain ⟨heq, hp⟩ := hacts hp
    simp only [Function.update_of_ne heq]
    exact ⟨List.mem_cons_of_mem child (inv.acts p hp).1, (inv.acts p hp).2⟩
  case onList =>
    intro p hp
    have hp' : Function.update s.pc child .absent p ≠ .absent := by
      intro heq
      simp [heq, ProcessPc.OnList, ProcessPc.User] at hp
    simp only [Function.update_of_ne (hacts hp').1] at hp
    exact inv.onList p hp
  case owned =>
    intro p c hp
    obtain ⟨hc, hl, habsent⟩ := inv.owned p c (howner hp).2
    simp only [Function.update_of_ne (hne hc)]
    exact ⟨List.mem_cons_of_mem child hc, hl, habsent⟩
  case ownedOnce => exact fun p q c hp hq => inv.ownedOnce p q c (howner hp).2 (howner hq).2
  case created =>
    intro p c entry hp
    obtain ⟨heq, howned⟩ := howner (p := p) (c := c) (by simp only at hp; rw [hp]; rfl)
    simp only [Function.update_of_ne heq, Function.update_of_ne (hne (inv.owned p c howned).1)] at hp ⊢
    exact inv.created p c entry hp
  case generated =>
    intro p pid hp
    obtain ⟨heq, _⟩ := hacts (p := p) (by simp only at hp; rw [hp]; exact nofun)
    simp only [Function.update_of_ne heq] at hp
    exact inv.generated p pid hp
  case parents =>
    intro c hc hcforked
    simp only [Function.update_of_ne (hne (inv.allocated c hc))] at hcforked ⊢
    rcases inv.parents c hc hcforked with hone | ⟨q, hq, halive, hpid⟩
    · exact Or.inl hone
    · refine Or.inr ⟨q, hq, ?_⟩
      simp only [Function.update_of_ne (hne (inv.allocated q hq))]
      exact ⟨halive, hpid⟩
  case boot =>
    intro p hp q hq
    have hp' : Function.update s.pc child .absent p ≠ .absent := by
      intro heq
      simp [heq, ProcessPc.BeforeInit] at hp
    simp only [Function.update_of_ne (hacts hp').1] at hp
    by_cases heq : q = child
    · simp only [heq, Function.update_self]
      refine ⟨trivial, ?_, id, False.elim⟩
      exact Bool.eq_false_iff.2 fun h => hforked h p hp
    · simp only [Function.update_of_ne heq]
      exact inv.boot p hp q ((List.mem_cons.1 hq).resolve_left heq)

/-- A process that nobody needs any more is freed. -/
theorem TableInvariant.free {w : P} (hlist : w ∉ l) (habsent : s.pc w = .absent)
    (hnone : ∀ p, (s.pc p).owned ≠ some w) :
    TableInvariant { s with allocated := s.allocated.erase w } l := by
  have hmem : ∀ {p}, p ∈ s.allocated.erase w → p ∈ s.allocated := List.mem_of_mem_erase
  constructor
  case toListed =>
    refine ⟨inv.linked, inv.nodup, fun p hp => ?_⟩
    exact (List.mem_erase_of_ne (ne_of_mem_of_not_mem hp hlist)).2 (inv.allocated p hp)
  case sorted => exact inv.sorted
  case nextPid => exact inv.nextPid
  case pidLt => exact fun p hp => inv.pidLt p (hmem hp)
  case unique => exact fun p hp q hq => inv.unique p (hmem hp) q (hmem hq)
  case acts =>
    intro p hp
    have hne : p ≠ w := fun heq => hp (heq ▸ habsent)
    exact ⟨(List.mem_erase_of_ne hne).2 (inv.acts p hp).1, (inv.acts p hp).2⟩
  case onList => exact inv.onList
  case owned =>
    intro p c hp
    obtain ⟨hc, hl, hpc⟩ := inv.owned p c hp
    have hne : c ≠ w := fun heq => hnone p (heq ▸ hp)
    exact ⟨(List.mem_erase_of_ne hne).2 hc, hl, hpc⟩
  case ownedOnce => exact inv.ownedOnce
  case created => exact inv.created
  case generated => exact inv.generated
  case parents => exact inv.parents
  case boot => exact fun p hp q hq => inv.boot p hp q (hmem hq)

/-- The end of `die`. -/
theorem TableInvariant.die {p : P} (hp : s.pc p = .dying) :
    TableInvariant { s with
      ppid := fun it => if it ∈ l ∧ s.ppid it = s.pid p then 1 else s.ppid it
      state := Function.update s.state p .DEAD
      pc := Function.update s.pc p .absent } l := by
  have hmoved := inv.setPc (p := p) .absent (by rw [hp]; exact nofun)
    (by simp [ProcessPc.OnList, ProcessPc.User]) nofun nofun nofun False.elim False.elim
  have hother : ∀ {q}, Function.update s.pc p .absent q ≠ .absent → q ≠ p := by
    intro q hq heq
    exact hq (by rw [heq, Function.update_self])
  constructor
  case toListed => exact { hmoved.toListed with }
  case sorted => exact inv.sorted
  case nextPid => exact inv.nextPid
  case pidLt => exact inv.pidLt
  case unique => exact inv.unique
  case acts =>
    intro q hq
    simp only [Function.update_of_ne (hother hq)]
    exact hmoved.acts q hq
  case onList => exact hmoved.onList
  case owned => exact hmoved.owned
  case ownedOnce => exact hmoved.ownedOnce
  case created =>
    intro q c entry hq hforked
    have hl := (hmoved.owned q c (by simp only at hq ⊢; rw [hq]; rfl)).2.1
    simp only [hl, false_and, if_false]
    exact hmoved.created q c entry hq hforked
  case generated => exact hmoved.generated
  case parents =>
    intro c hc hforked
    by_cases hchild : s.ppid c = s.pid p
    · exact Or.inl (by simp [hc, hchild])
    · simp only [hchild, and_false, if_false]
      rcases inv.parents c hc hforked with hone | ⟨q, hq, halive, hpid⟩
      · exact Or.inl hone
      · have hne : q ≠ p := fun heq => hchild (by rw [← hpid, heq])
        refine Or.inr ⟨q, hq, ?_, hpid⟩
        rwa [Function.update_of_ne hne]
  case boot => exact hmoved.boot

/-- `fork` gives the new process its number and its parent. -/
theorem TableInvariant.identify {p child : P} (hp : s.pc p = .forking child) (pgid : P → Int) :
    TableInvariant { s with
      nextPid := s.nextPid + 1
      pid := Function.update s.pid child s.nextPid
      ppid := Function.update s.ppid child (s.pid p)
      pgid := pgid
      pc := Function.update s.pc p (.creating child .returnToUserland) } l := by
  obtain ⟨hchild, hfresh, habsent⟩ := inv.owned p child (by rw [hp]; rfl)
  have hboot := inv.not_boot (p := p) (by rw [hp]; trivial)
  have hpne : p ≠ child := by
    intro heq
    rw [heq, habsent] at hp
    cases hp
  have hl : ∀ {q}, q ∈ l → q ≠ child := fun hq => ne_of_mem_of_not_mem hq hfresh
  have hnumbered : TableInvariant { s with
      nextPid := s.nextPid + 1
      pid := Function.update s.pid child s.nextPid
      ppid := Function.update s.ppid child (s.pid p) } l := by
    constructor
    case toListed => exact { inv.toListed with }
    case sorted =>
      refine inv.sorted.imp_of_mem fun {a b} ha hb hab => ?_
      simp only [Function.update_of_ne (hl ha), Function.update_of_ne (hl hb)]
      exact hab
    case nextPid => exact Int.lt_trans inv.nextPid (Int.lt_succ _)
    case pidLt =>
      intro q hq
      by_cases heq : q = child
      · simp only [heq, Function.update_self]
        exact Int.lt_succ _
      · simp only [Function.update_of_ne heq]
        exact Int.lt_trans (inv.pidLt q hq) (Int.lt_succ _)
    case unique =>
      intro a ha b hb hpos heq
      by_cases hac : a = child
      · by_cases hbc : b = child
        · rw [hac, hbc]
        · simp only [hac, Function.update_self, Function.update_of_ne hbc] at heq
          exact absurd heq (Int.ne_of_gt (inv.pidLt b hb))
      · by_cases hbc : b = child
        · simp only [hbc, Function.update_self, Function.update_of_ne hac] at heq
          exact absurd heq (Int.ne_of_lt (inv.pidLt a ha))
        · simp only [Function.update_of_ne hac, Function.update_of_ne hbc] at hpos heq
          exact inv.unique a ha b hb hpos heq
    case acts => exact inv.acts
    case onList => exact inv.onList
    case owned => exact inv.owned
    case ownedOnce => exact inv.ownedOnce
    case created =>
      intro q c entry hq hforked
      have hqne : q ≠ child := by
        intro heq
        rw [heq] at hq
        exact absurd (habsent.symm.trans hq) nofun
      have hcne : c ≠ child := by
        intro heq
        have hqp := inv.ownedOnce q p child (by rw [hq, ← heq]; rfl) (by rw [hp]; rfl)
        rw [hqp] at hq
        exact absurd (hp.symm.trans hq) nofun
      simp only [Function.update_of_ne hqne, Function.update_of_ne hcne]
      exact inv.created q c entry hq hforked
    case generated =>
      intro q pid hq
      obtain ⟨hpos, hlt⟩ := inv.generated q pid hq
      exact ⟨hpos, Int.lt_trans hlt (Int.lt_succ _)⟩
    case parents =>
      intro c hc hforked
      simp only [Function.update_of_ne (hl hc)]
      rcases inv.parents c hc hforked with hone | ⟨q, hq, halive, hpid⟩
      · exact Or.inl hone
      · refine Or.inr ⟨q, hq, halive, ?_⟩
        simp only [Function.update_of_ne (hl hq)]
        exact hpid
    case boot => exact fun q hq => absurd hq (hboot q)
  refine (hnumbered.setPc (p := p) (.creating child .returnToUserland) ?_ ?_ ?_ ?_ nofun nofun ?_).setOther
    pgid s.exitStatus s.pendingSignals s.blockerWasInterrupted s.waitResult s.removed
  · rw [hp]
    exact nofun
  · exact fun _ => inv.onList p (Or.inl (by rw [hp]; trivial))
  · intro c hc
    exact Or.inl (by rw [hp]; exact hc)
  · rintro c entry hcreating _
    obtain ⟨rfl, rfl⟩ := ProcessPc.creating.inj hcreating
    simp only [Function.update_self, Function.update_of_ne hpne]
    trivial
  · exact fun _ => Or.inl (by rw [hp]; trivial)

/-- `init` takes its number; no other process has one. -/
theorem TableInvariant.assign {p : P} {pid : Int} (hp : s.pc p = .initGenerated pid) (pgid : P → Int) :
    TableInvariant { s with
      pid := Function.update s.pid p pid
      pgid := pgid
      pc := Function.update s.pc p .user } l := by
  have hboot := inv.boot p (by rw [hp]; trivial)
  obtain ⟨hpos, hlt⟩ := inv.generated p pid hp
  have hzero : ∀ {q}, q ∈ s.allocated → 0 < Function.update s.pid p pid q → q = p := by
    intro q hq hqpos
    by_contra hne
    rw [Function.update_of_ne hne, (hboot q hq).1] at hqpos
    exact Int.lt_irrefl 0 hqpos
  have hmoved := inv.setPc (p := p) .user (by rw [hp]; exact nofun)
    (fun _ => inv.onList p (Or.inr (Or.inr ⟨pid, hp⟩))) nofun nofun nofun False.elim
    (fun _ => Or.inr (by rw [hp]; trivial))
  constructor
  case toListed => exact { inv.toListed with }
  case sorted =>
    refine inv.nodup.imp_of_mem fun {a b} ha hb hab hapos hbpos => ?_
    exact absurd ((hzero (inv.allocated a ha) hapos).trans (hzero (inv.allocated b hb) hbpos).symm) hab
  case nextPid => exact inv.nextPid
  case pidLt =>
    intro q hq
    by_cases heq : q = p
    · simp only [heq, Function.update_self]
      exact hlt
    · simp only [Function.update_of_ne heq]
      exact inv.pidLt q hq
  case unique =>
    intro a ha b hb hapos heq
    simp only at heq
    exact (hzero ha hapos).trans (hzero hb (heq ▸ hapos)).symm
  case acts => exact hmoved.acts
  case onList => exact hmoved.onList
  case owned => exact hmoved.owned
  case ownedOnce => exact hmoved.ownedOnce
  case created =>
    intro q c entry hq hforked
    have hc := (hmoved.owned q c (by simp only at hq ⊢; rw [hq]; rfl)).1
    exact absurd hforked (by simp [(hboot c hc).2.1])
  case generated => exact hmoved.generated
  case parents =>
    intro c hc hforked
    exact absurd hforked (by simp [(hboot c (inv.allocated c hc)).2.1])
  case boot =>
    intro q hq
    -- `init` was the last process without a number
    have hqp : q ≠ p := by
      rintro rfl
      simp only [Function.update_self] at hq
      exact hq
    simp only [Function.update_of_ne hqp] at hq
    have hacts : s.pc q ≠ .absent := by
      intro habsent
      rw [habsent] at hq
      exact hq
    exact absurd ((hboot q (inv.acts q hacts).1).2.2.2 hq) hqp

/-- A new process is put in its place, and goes to its entry point. -/
theorem TableInvariant.enter {child : P} {entry : EntryPoint} (hchild : child ∈ s.allocated) (hfresh : child ∉ l)
    (habsent : s.pc child = .absent) (hnone : ∀ q, (s.pc q).owned ≠ some child) (halive : s.state child ≠ .DEAD)
    {next : P → Option P} {head : Option P} {ys zs : List P} (hsplit : l = ys ++ zs)
    (hys : ∀ y ∈ ys, s.pid y < s.pid child) (hzs : ∀ z, zs.head? = some z → s.pid child ≤ s.pid z)
    (hlinked : LinkedList next head (ys ++ child :: zs))
    (hparent : s.forked child → ∃ q ∈ l, s.state q ≠ .DEAD ∧ s.pid q = s.ppid child)
    (hinit : entry = .init → ∀ q ∈ s.allocated,
      s.pid q = 0 ∧ s.forked q = false ∧ ¬(s.pc q).User ∧ ¬(s.pc q).BeforeInit)
    (huser : entry = .returnToUserland → ∀ q, ¬(s.pc q).BeforeInit) :
    TableInvariant { s with
      nextInAllProcesses := next
      allProcesses := head
      pc := Function.update s.pc child entry.pc } (ys ++ child :: zs) := by
  subst hsplit
  have hmem : ∀ {q}, q ∈ ys ++ child :: zs ↔ q = child ∨ q ∈ ys ++ zs := by
    intro q
    simp only [List.mem_append, List.mem_cons]
    exact or_left_comm
  have hallocated : ∀ {q}, q ∈ ys ++ child :: zs → q ∈ s.allocated := by
    intro q hq
    rcases hmem.1 hq with rfl | hq
    · exact hchild
    · exact inv.allocated q hq
  have hne : ∀ {q}, q ∈ ys ++ zs → q ≠ child := fun hq => ne_of_mem_of_not_mem hq hfresh
  have hentry : (entry.pc : ProcessPc P).owned = none := by cases entry <;> rfl
  have howner : ∀ {q c}, (Function.update s.pc child entry.pc q).owned = some c → q ≠ child ∧ (s.pc q).owned = some c := by
    intro q c hq
    have hqne : q ≠ child := by
      intro heq
      rw [heq, Function.update_self, hentry] at hq
      cases hq
    rw [Function.update_of_ne hqne] at hq
    exact ⟨hqne, hq⟩
  constructor
  case toListed =>
    refine ⟨hlinked, ?_, fun q hq => hallocated hq⟩
    rw [List.nodup_middle]
    exact List.nodup_cons.2 ⟨hfresh, inv.nodup⟩
  case sorted =>
    obtain ⟨hsortedYs, hsortedZs, hcross⟩ := List.pairwise_append.1 inv.sorted
    refine List.pairwise_append.2 ⟨hsortedYs, List.pairwise_cons.2 ⟨fun z hz hpos hzpos => ?_, hsortedZs⟩, ?_⟩
    · -- the first process behind it is not smaller, so it has a number and the others are above it
      obtain ⟨first, rest, rfl⟩ := List.exists_cons_of_ne_nil (List.ne_nil_of_mem hz)
      have hge := hzs first rfl
      have hfirst : first ∈ ys ++ first :: rest := List.mem_append_right ys List.mem_cons_self
      have hlt : s.pid child < s.pid first := by
        refine Int.lt_iff_le_and_ne.2 ⟨hge, fun heq => hne hfirst ?_⟩
        exact (inv.unique child hchild first (inv.allocated first hfirst) hpos heq).symm
      rcases List.mem_cons.1 hz with rfl | hz
      · exact hlt
      · exact Int.lt_trans hlt ((List.pairwise_cons.1 hsortedZs).1 z hz (Int.lt_trans hpos hlt) hzpos)
    · intro y hy z hz
      rcases List.mem_cons.1 hz with rfl | hz
      · exact fun _ _ => hys y hy
      · exact hcross y hy z hz
  case nextPid => exact inv.nextPid
  case pidLt => exact inv.pidLt
  case unique => exact inv.unique
  case acts =>
    intro q hq
    by_cases hqc : q = child
    · rw [hqc]
      exact ⟨hchild, halive⟩
    · simp only [Function.update_of_ne hqc] at hq
      exact inv.acts q hq
  case onList =>
    intro q hq
    by_cases hqc : q = child
    · exact hmem.2 (Or.inl hqc)
    · simp only [Function.update_of_ne hqc] at hq
      exact hmem.2 (Or.inr (inv.onList q hq))
  case owned =>
    intro q c hq
    obtain ⟨_, hq⟩ := howner hq
    obtain ⟨hc, hl, hpc⟩ := inv.owned q c hq
    have hcne : c ≠ child := fun heq => hnone q (heq ▸ hq)
    simp only [Function.update_of_ne hcne]
    exact ⟨hc, fun h => (hmem.1 h).elim hcne hl, hpc⟩
  case ownedOnce => exact fun q r c hq hr => inv.ownedOnce q r c (howner hq).2 (howner hr).2
  case created =>
    intro q c entry' hq
    obtain ⟨hqc, _⟩ := howner (q := q) (c := c) (by simp only at hq; rw [hq]; rfl)
    simp only [Function.update_of_ne hqc] at hq
    exact inv.created q c entry' hq
  case generated =>
    intro q pid hq
    have hqc : q ≠ child := by
      intro heq
      simp only [heq, Function.update_self] at hq
      cases entry <;> cases hq
    simp only [Function.update_of_ne hqc] at hq
    exact inv.generated q pid hq
  case parents =>
    intro c hc hforked
    rcases hmem.1 hc with rfl | hc
    · obtain ⟨q, hq, hqalive, hpid⟩ := hparent hforked
      exact Or.inr ⟨q, hmem.2 (Or.inr hq), hqalive, hpid⟩
    · rcases inv.parents c hc hforked with hone | ⟨q, hq, hqalive, hpid⟩
      · exact Or.inl hone
      · exact Or.inr ⟨q, hmem.2 (Or.inr hq), hqalive, hpid⟩
  case boot =>
    intro q hq r hr
    by_cases hqc : q = child
    · simp only [hqc, Function.update_self] at hq ⊢
      have hentry : entry = .init := by
        cases entry with
        | init => rfl
        | kernel => exact hq.elim
        | returnToUserland => exact hq.elim
      obtain ⟨hpid, hforked, hnot, hbefore⟩ := hinit hentry r hr
      by_cases hrc : r = child
      · simp only [hrc, Function.update_self] at hpid hforked ⊢
        refine ⟨hpid, hforked, ?_, fun _ => trivial⟩
        rw [hentry]
        exact id
      · simp only [Function.update_of_ne hrc]
        exact ⟨hpid, hforked, hnot, fun h => absurd h hbefore⟩
    · simp only [Function.update_of_ne hqc] at hq
      obtain ⟨hpid, hforked, hnot, hone⟩ := inv.boot q hq r hr
      by_cases hrc : r = child
      · simp only [hrc, Function.update_self] at hpid hforked ⊢
        refine ⟨hpid, hforked, ?_⟩
        have hqallocated : q ∈ s.allocated := (inv.acts q fun habsent => by rw [habsent] at hq; exact hq).1
        cases entry with
        | init => exact absurd hq (hinit rfl q hqallocated).2.2.2
        | kernel => exact ⟨id, False.elim⟩
        | returnToUserland => exact absurd hq (huser rfl q)
      · simp only [Function.update_of_ne hrc]
        exact ⟨hpid, hforked, hnot, hone⟩

end Fields

/-! ### Steps -/

/-- What the predicate of `waitpid` leaves, and whom the blocker then owns. -/
theorem TableInvariant.polled (inv : TableInvariant s l) {blocker : WaitpidBlocker P} {r : Bool × WaitpidBlocker P}
    {t : ProcessTable P} {l' : List P} (h : Polled s l blocker r t l') :
    TableInvariant t l' ∧ t.pc = s.pc ∧ ∀ c, r.2.waitedProcess = some c → blocker.waitedProcess = some c ∨
      c ∈ t.allocated ∧ c ∉ l' ∧ t.pc c = .absent ∧ ∀ q, (t.pc q).owned ≠ some c := by
  cases h with
  | waits => exact ⟨inv, rfl, fun c hc => Or.inl hc⟩
  | none => exact ⟨inv, rfl, nofun⟩
  | @reaps ys zs w next head hsplit target dead linked =>
      refine ⟨inv.unlink hsplit dead linked, rfl, fun c hc => Or.inr ?_⟩
      obtain rfl := Option.some.inj hc
      have hw : w ∈ l := hsplit ▸ List.mem_append_right ys List.mem_cons_self
      have hnew : w ∉ ys ++ zs := by
        have hnodup := inv.nodup
        rw [hsplit, List.nodup_middle] at hnodup
        exact (List.nodup_cons.1 hnodup).1
      refine ⟨inv.allocated w hw, hnew, by_contra fun hacts => (inv.acts w hacts).2 dead, fun q hq => ?_⟩
      exact (inv.owned q w hq).2.1 hw

section Steps

variable [DecidableEq P]

/-- A user process goes on in the kernel or out of it, with nothing new in its hands. -/
theorem TableInvariant.setUser (inv : TableInvariant s l) {p : P} (hp : (s.pc p).User) (pc : ProcessPc P)
    (hpc : pc.User) (hcreating : ∀ c entry, pc ≠ .creating c entry)
    (howned : ∀ c, pc.owned = some c → (s.pc p).owned = some c ∨
      c ∈ s.allocated ∧ c ∉ l ∧ s.pc c = .absent ∧ ∀ q, (s.pc q).owned ≠ some c) :
    TableInvariant { s with pc := Function.update s.pc p pc } l := by
  refine inv.setPc pc ?_ (fun _ => inv.onList p (Or.inl hp)) howned (fun c entry h => absurd h (hcreating c entry)) ?_
    (fun h => absurd h hpc.not_beforeInit) (fun _ => Or.inl hp)
  · intro habsent
    rw [habsent] at hp
    exact hp
  · intro pid h
    rw [h] at hpc
    exact hpc.elim

theorem tableInvariant_testBlocker (inv : TableInvariant s l) {p : P} {nohang : Bool} {blocker : WaitpidBlocker P}
    (hp : s.pc p = .waitpid nohang blocker) :
    Ensures (Event.testBlocker p).run s fun _ t => ∃ l', TableInvariant t l' := by
  have huser : (s.pc p).User := by rw [hp]; trivial
  rw [Event.run, ensures_bind, ensures_get]
  simp only [hp]
  rw [ensures_bind]
  apply (waitpidShouldUnblock_ensures blocker inv.toListed).mono
  rintro ⟨unblocked, blocker'⟩ t ⟨l', hpolled⟩
  obtain ⟨hinv, hpc, howned⟩ := inv.polled hpolled
  have huser' : (t.pc p).User := hpc ▸ huser
  have hkept : ∀ c, blocker'.waitedProcess = some c → (t.pc p).owned = some c ∨
      c ∈ t.allocated ∧ c ∉ l' ∧ t.pc c = .absent ∧ ∀ q, (t.pc q).owned ≠ some c := by
    intro c hc
    have howner : (t.pc p).owned = blocker.waitedProcess := by rw [hpc, hp, ProcessPc.owned]
    rw [howner]
    exact howned c hc
  cases unblocked with
  | true => exact ⟨l', (hinv.setUser huser' (.waited blocker') trivial nofun hkept).setOther _ _ _ _ _ _⟩
  | false =>
      simp only [Bool.false_eq_true, if_false]
      cases nohang with
      | false =>
          exact ⟨l', (hinv.setUser huser' (.blocked blocker') trivial nofun hkept).setOther _ _ _ _ _ _⟩
      | true =>
          simp only [if_true]
          cases blocker'.waitedProcess with
          | none => exact ⟨l', (hinv.setUser huser' .user trivial nofun nofun).setOther _ _ _ _ _ _⟩
          | some c => exact ⟨l', (hinv.setUser huser' .user trivial nofun nofun).setOther _ _ _ _ _ _⟩

theorem tableInvariant_unblock (inv : TableInvariant s l) {p : P} {blocker : WaitpidBlocker P}
    (hp : s.pc p = .blocked blocker) : Ensures (Event.unblock p).run s fun _ t => ∃ l', TableInvariant t l' := by
  have huser : (s.pc p).User := by rw [hp]; trivial
  rw [Event.run, ensures_bind, ensures_get]
  simp only [hp]
  split
  · refine ⟨l, (inv.setUser huser (.woken blocker) trivial nofun fun c hc => Or.inl ?_).setOther _ _ _ _ _ _⟩
    rw [hp]
    exact hc
  · rw [ensures_bind]
    apply (waitpidShouldUnblock_ensures blocker inv.toListed).mono
    rintro ⟨unblocked, blocker'⟩ t ⟨l', hpolled⟩
    obtain ⟨hinv, hpc, howned⟩ := inv.polled hpolled
    cases unblocked with
    | false => exact ⟨l', hinv⟩
    | true =>
        refine ⟨l', (hinv.setUser (hpc ▸ huser) (.woken blocker') trivial nofun ?_).setOther _ _ _ _ _ _⟩
        intro c hc
        have howner : (t.pc p).owned = blocker.waitedProcess := by rw [hpc, hp, ProcessPc.owned]
        rw [howner]
        exact howned c hc

theorem tableInvariant_blockReturns (inv : TableInvariant s l) {p : P} {blocker : WaitpidBlocker P}
    (hp : s.pc p = .woken blocker) : Ensures (Event.blockReturns p).run s fun _ t => ∃ l', TableInvariant t l' := by
  have huser : (s.pc p).User := by rw [hp]; trivial
  rw [Event.run, ensures_bind, ensures_get]
  simp only [hp]
  split
  · exact ⟨l, (inv.setUser huser .user trivial nofun nofun).setOther _ _ _ _ _ _⟩
  · refine ⟨l, inv.setUser huser (.waited blocker) trivial nofun fun c hc => Or.inl ?_⟩
    rw [hp]
    exact hc

theorem tableInvariant_reap (inv : TableInvariant s l) {p : P} {blocker : WaitpidBlocker P}
    (hp : s.pc p = .waited blocker) : Ensures (Event.reap p).run s fun _ t => ∃ l', TableInvariant t l' := by
  have huser : (s.pc p).User := by rw [hp]; trivial
  have hreturned := inv.setUser huser .user trivial nofun nofun
  rw [Event.run, ensures_bind, ensures_get]
  simp only [hp]
  cases hwaited : blocker.waitedProcess with
  | none => exact ⟨l, hreturned.setOther _ _ _ _ _ _⟩
  | some w =>
      have howner : (s.pc p).owned = some w := by rw [hp, ProcessPc.owned, hwaited]
      obtain ⟨_, hlist, habsent⟩ := inv.owned p w howner
      have hwp : w ≠ p := by
        intro heq
        rw [heq, hp] at habsent
        cases habsent
      simp only
      rw [ensures_bind_of_return (schedulerUnregister_eq inv.toListed hlist)]
      refine ⟨l, (hreturned.free (w := w) hlist ?_ ?_).setOther _ _ _ _ _ _⟩
      · simp only [Function.update_of_ne hwp]
        exact habsent
      · intro q hq
        by_cases hqp : q = p
        · simp [hqp, ProcessPc.owned] at hq
        · simp only [Function.update_of_ne hqp] at hq
          exact hqp (inv.ownedOnce q p w hq howner)

/-- A process creates another one, which is its own until it is registered. -/
theorem tableInvariant_alloc (inv : TableInvariant s l) {p child : P} (hp : s.pc p ≠ .absent)
    (hchild : child ∉ s.allocated) (forked : Bool) (hforked : forked = true → ∀ q, ¬(s.pc q).BeforeInit)
    (pc : ProcessPc P) (honList : pc.OnList → p ∈ l) (howned : pc.owned = some child)
    (hcreated : ∀ entry, pc = .creating child entry → forked = false)
    (hboot : pc.BeforeInit → (s.pc p).BeforeInit) (huser : pc.User → (s.pc p).User ∨ (s.pc p).BeforeInit) :
    Ensures (allocProcess child forked >>= fun _ => ProcessTable.setPc p pc) s fun _ t => TableInvariant t l := by
  have hpc : p ≠ child := ne_of_mem_of_not_mem (inv.acts p hp).1 hchild
  have howner : ∀ c, pc.owned = some c → c = child := fun c hc => Option.some.inj (hc.symm.trans howned)
  rw [ensures_bind]
  refine (inv.alloc hchild hforked).setPc pc ?_ honList (fun c hc => Or.inr ?_) (fun c entry h => ?_) (fun pid h => ?_) ?_ ?_
  · simpa only [Function.update_of_ne hpc] using hp
  · obtain rfl := howner c hc
    refine ⟨List.mem_cons_self, fun hl => hchild (inv.allocated c hl), by simp only [Function.update_self], fun q hq => ?_⟩
    by_cases hqc : q = c
    · simp [hqc, ProcessPc.owned] at hq
    · simp only [Function.update_of_ne hqc] at hq
      exact hchild (inv.owned q c hq).1
  · obtain rfl := howner c (by rw [h]; rfl)
    simp only [Function.update_self, hcreated entry h]
    exact nofun
  · rw [h] at howned
    cases howned
  · simpa only [Function.update_of_ne hpc] using hboot
  · simpa only [Function.update_of_ne hpc] using huser

theorem tableInvariant_createKernelProcess (inv : TableInvariant s l) {p child : P}
    (hp : s.pc p = .start ∨ s.pc p = .kernel) (hchild : child ∉ s.allocated) :
    Ensures (Event.createKernelProcess p child).run s fun _ t => ∃ l', TableInvariant t l' := by
  rw [Event.run, ensures_bind, ensures_get]
  rcases hp with hp | hp
  · simp only [hp, if_true]
    refine (tableInvariant_alloc inv (p := p) (by rw [hp]; exact nofun) hchild false nofun
      (.creating child .init) (fun h => ?_) rfl (fun _ _ => rfl) (fun _ => by rw [hp]; trivial) nofun).mono
      fun _ _ h => ⟨l, h⟩
    simp [ProcessPc.OnList, ProcessPc.User] at h
  · simp only [hp, reduceCtorEq, if_false]
    refine (tableInvariant_alloc inv (p := p) (by rw [hp]; exact nofun) hchild false nofun
      (.creating child .kernel) (fun h => ?_) rfl (fun _ _ => rfl) nofun nofun).mono fun _ _ h => ⟨l, h⟩
    simp [ProcessPc.OnList, ProcessPc.User] at h

theorem tableInvariant_fork (inv : TableInvariant s l) {p child : P} (hp : s.pc p = .user)
    (hchild : child ∉ s.allocated) :
    Ensures (Event.fork p child).run s fun _ t => ∃ l', TableInvariant t l' := by
  have huser : (s.pc p).User := by rw [hp]; trivial
  exact (tableInvariant_alloc inv (p := p) (by rw [hp]; exact nofun) hchild true (fun _ => inv.not_boot huser)
    (.forking child) (fun _ => inv.onList p (Or.inl huser)) rfl nofun False.elim (fun _ => Or.inl huser)).mono
    fun _ _ h => ⟨l, h⟩

theorem tableInvariant_generatePid (inv : TableInvariant s l) {p : P}
    (hp : s.pc p = .init ∨ ∃ child, s.pc p = .forking child) :
    Ensures (Event.generatePid p).run s fun _ t => ∃ l', TableInvariant t l' := by
  rw [Event.run, ensures_bind, ensures_get]
  rcases hp with hp | ⟨child, hp⟩
  · simp only [hp]
    have hcounted : TableInvariant { s with nextPid := s.nextPid + 1 } l :=
      { inv with
        toListed := { inv.toListed with }
        nextPid := Int.lt_trans inv.nextPid (Int.lt_succ _)
        pidLt := fun q hq => Int.lt_trans (inv.pidLt q hq) (Int.lt_succ _)
        generated := fun q pid hq =>
          ⟨(inv.generated q pid hq).1, Int.lt_trans (inv.generated q pid hq).2 (Int.lt_succ _)⟩ }
    refine ⟨l, hcounted.setPc (.initGenerated s.nextPid) ?_ (fun _ => ?_) nofun nofun ?_ ?_ False.elim⟩
    · simp only [hp]
      exact nofun
    · exact inv.onList p (Or.inr (Or.inl hp))
    · intro pid h
      obtain rfl := ProcessPc.initGenerated.inj h
      exact ⟨inv.nextPid, Int.lt_succ _⟩
    · simp only [hp]
      exact fun _ => trivial
  · simp only [hp]
    exact ⟨l, inv.identify hp _⟩

theorem tableInvariant_register (inv : TableInvariant s l) {p child : P} {entry : EntryPoint}
    (hp : s.pc p = .creating child entry) :
    Ensures (Event.register p).run s fun _ t => ∃ l', TableInvariant t l' := by
  have howner : (s.pc p).owned = some child := by rw [hp]; rfl
  obtain ⟨hchild, hfresh, habsent⟩ := inv.owned p child howner
  have hacts := inv.acts p (by rw [hp]; exact nofun)
  have hpc : child ≠ p := by
    intro heq
    rw [heq, hp] at habsent
    cases habsent
  rw [Event.run, ensures_bind, ensures_get]
  simp only [hp]
  rw [ensures_bind]
  apply (schedulerRegister_ensures inv.toListed hfresh).mono
  rintro _ t ⟨hstate, next, head, ys, zs, hsplit, hys, hzs, hlinked, rfl⟩
  have hmoved : TableInvariant { s with
      pc := Function.update s.pc p (if entry = .returnToUserland then .user else .kernel) } l := by
    by_cases hentry : entry = .returnToUserland
    · rw [if_pos hentry]
      exact inv.setUser (by rw [hp]; exact hentry) .user trivial nofun nofun
    · rw [if_neg hentry]
      refine inv.setPc .kernel (by rw [hp]; exact nofun) ?_ nofun nofun nofun False.elim False.elim
      simp [ProcessPc.OnList, ProcessPc.User]
  have hleft : ∀ q, q ≠ p → (s.pc q).owned ≠ some child := fun q hqp hq => hqp (inv.ownedOnce q p child hq howner)
  have hnew : ∀ q, (Function.update s.pc p (if entry = .returnToUserland then .user else .kernel) q).owned ≠
      some child := by
    intro q
    by_cases hqp : q = p
    · rw [hqp, Function.update_self]
      split <;> exact nofun
    · rw [Function.update_of_ne hqp]
      exact hleft q hqp
  refine ⟨_, hmoved.enter hchild hfresh ?_ hnew (by rw [hstate]; decide) hsplit hys hzs hlinked ?_ ?_ ?_⟩
  · simp only [Function.update_of_ne hpc]
    exact habsent
  · intro hforked
    obtain ⟨hparent, rfl⟩ := inv.created p child entry hp hforked
    exact ⟨p, inv.onList p (Or.inl (by rw [hp]; rfl)), hacts.2, hparent.symm⟩
  · rintro rfl q hq
    obtain ⟨hpid, hforked, hnot, hone⟩ := inv.boot p (by rw [hp]; rfl) q hq
    by_cases hqp : q = p
    · simp only [hqp, Function.update_self] at hpid hforked ⊢
      exact ⟨hpid, hforked, id, id⟩
    · simp only [Function.update_of_ne hqp]
      exact ⟨hpid, hforked, hnot, fun h => hqp (hone h)⟩
  · rintro rfl q
    by_cases hqp : q = p
    · simp only [hqp, Function.update_self, if_true]
      exact id
    · simp only [Function.update_of_ne hqp]
      exact inv.not_boot (p := p) (by rw [hp]; rfl) q

theorem tableInvariant_exit (inv : TableInvariant s l) {p : P} (hp : s.pc p = .user ∨ s.pc p = .kernel)
    (exitStatus : Option Nat) : Ensures (Event.exit p exitStatus).run s fun _ t => ∃ l', TableInvariant t l' := by
  have hmoved : TableInvariant { s with pc := Function.update s.pc p .dying } l := by
    refine inv.setPc .dying ?_ (by simp [ProcessPc.OnList, ProcessPc.User]) nofun nofun nofun False.elim False.elim
    rcases hp with hp | hp <;> rw [hp] <;> exact nofun
  cases exitStatus with
  | none =>
      rw [Event.run, ensures_bind, ensures_get, ensures_bind, assert, ensures_require]
      exact fun _ => ⟨l, hmoved⟩
  | some status =>
      rw [Event.run, ensures_bind, ensures_modify, ensures_bind, ensures_get, ensures_bind, assert, ensures_require]
      exact fun _ => ⟨l, hmoved.setOther _ _ _ _ _ _⟩

theorem tableInvariant_step (inv : TableInvariant s l) {e : Event P} (enabled : s.Enabled e) :
    Ensures e.run s fun _ t => ∃ l', TableInvariant t l' := by
  cases e with
  | createKernelProcess p child => exact tableInvariant_createKernelProcess inv enabled.1 enabled.2
  | fork p child => exact tableInvariant_fork inv enabled.1 enabled.2
  | generatePid p => exact tableInvariant_generatePid inv enabled
  | forkFails p =>
      refine ⟨l, inv.setUser ?_ .user trivial (by simp) (by simp [ProcessPc.owned])⟩
      rcases enabled with ⟨child, hp⟩ | ⟨child, hp⟩ <;> rw [hp]
      · trivial
      · rfl
  | register p =>
      obtain ⟨child, entry, hp⟩ := enabled
      exact tableInvariant_register inv hp
  | assignPid p =>
      obtain ⟨pid, hp⟩ := enabled
      rw [Event.run, ensures_bind, ensures_get]
      simp only [hp]
      exact ⟨l, inv.assign hp _⟩
  | setState p state => exact ⟨l, inv.setState enabled.2⟩
  | setpgid p pgid => exact ⟨l, inv.setOther _ _ _ _ _ _⟩
  | sendSignal p => exact ⟨l, inv.setOther _ _ _ _ _ _⟩
  | terminateWithSignal p signum => exact ⟨l, (inv.setState (by decide)).setOther _ _ _ _ _ _⟩
  | exit p exitStatus => exact tableInvariant_exit inv enabled.1 exitStatus
  | die p =>
      change Ensures (dieFinally p) s _
      rw [Ensures, dieFinally_eq p inv.toListed]
      exact ⟨l, inv.die enabled⟩
  | waitpid p pid nohang =>
      have hp : s.pc p = .user := enabled
      have hmoved := inv.setUser (by rw [hp]; trivial)
        (.waitpid nohang { paramPid := pid, currentPid := s.pid p, currentPgid := s.pgid p }) trivial (by simp)
        (by simp [ProcessPc.owned])
      exact ⟨l, hmoved.setOther _ _ _ _ _ _⟩
  | testBlocker p =>
      obtain ⟨nohang, blocker, hp⟩ := enabled
      exact tableInvariant_testBlocker inv hp
  | unblock p =>
      obtain ⟨blocker, hp⟩ := enabled
      exact tableInvariant_unblock inv hp
  | blockReturns p =>
      obtain ⟨blocker, hp⟩ := enabled
      exact tableInvariant_blockReturns inv hp
  | reap p =>
      obtain ⟨blocker, hp⟩ := enabled
      exact tableInvariant_reap inv hp

end Steps

/-! ### Runs -/

/-- The list is finite and no process is on it twice, those with numbers above zero are in the order of their numbers,
    and each that `fork` created has `init` as its parent or one on the list that is not dead. -/
def WellFormed (s : ProcessTable P) : Prop :=
  ∃ l, LinkedList s.nextInAllProcesses s.allProcesses l ∧ l.Nodup ∧
    (l.Pairwise fun p q => 0 < s.pid p → 0 < s.pid q → s.pid p < s.pid q) ∧
    ∀ c ∈ l, s.forked c → s.ppid c = 1 ∨ ∃ q ∈ l, s.state q ≠ .DEAD ∧ s.pid q = s.ppid c

variable [DecidableEq P]

theorem tableInvariant_initial (kernelInit : P) : TableInvariant (initial kernelInit) [] := by
  have hpc : ∀ p, (initial kernelInit).pc p ≠ .absent → p = kernelInit ∧ (initial kernelInit).pc p = .start := by
    intro p hp
    by_cases heq : p = kernelInit
    · exact ⟨heq, by simp [initial, heq]⟩
    · exact absurd (by simp [initial, heq]) hp
  have hstart : ∀ p, (initial kernelInit).pc p = .absent ∨ (initial kernelInit).pc p = .start := by
    intro p
    by_cases heq : (initial kernelInit).pc p = .absent
    · exact Or.inl heq
    · exact Or.inr (hpc p heq).2
  constructor
  case toListed => exact ⟨rfl, List.nodup_nil, nofun⟩
  case sorted => exact List.Pairwise.nil
  case nextPid => exact Int.one_pos
  case pidLt => exact fun p _ => Int.one_pos
  case unique => exact fun p _ q _ hpos _ => absurd hpos (Int.lt_irrefl 0)
  case acts => exact fun p hp => ⟨(hpc p hp).1 ▸ List.mem_singleton_self _, nofun⟩
  case onList =>
    intro p hp
    rcases hstart p with h | h <;> simp [h, ProcessPc.OnList, ProcessPc.User] at hp
  case owned =>
    intro p c hp
    rcases hstart p with h | h <;> rw [h] at hp <;> cases hp
  case ownedOnce =>
    intro p q c hp
    rcases hstart p with h | h <;> rw [h] at hp <;> cases hp
  case created =>
    intro p c entry hp
    rcases hstart p with h | h <;> rw [h] at hp <;> cases hp
  case generated =>
    intro p pid hp
    rcases hstart p with h | h <;> rw [h] at hp <;> cases hp
  case parents => exact nofun
  case boot =>
    intro p hp q hq
    refine ⟨rfl, rfl, ?_, fun hbefore => ?_⟩
    · rcases hstart q with h | h <;> rw [h] <;> exact id
    · have hacts : ∀ r, ((initial kernelInit).pc r).BeforeInit → r = kernelInit := by
        intro r hr
        refine (hpc r fun habsent => ?_).1
        rw [habsent] at hr
        exact hr
      exact (hacts q hbefore).trans (hacts p hp).symm

/-- In every run from boot, the list of all processes is well formed in every state. -/
theorem process_table_invariant {xs : List (Transition (ProcessTable P) (Event P))}
    (hinit : (processTableSystem P).init s) (run : (processTableSystem P).Run s xs t) : WellFormed t := by
  obtain ⟨kernelInit, rfl⟩ := hinit
  obtain ⟨l, inv⟩ := run.invariant (fun s => ∃ l, TableInvariant s l)
    (fun s e s' ⟨l, inv⟩ hstep => ensures_iff.1 (tableInvariant_step inv hstep.1) () s' hstep.2)
    ⟨[], tableInvariant_initial kernelInit⟩
  exact ⟨l, inv.linked, inv.nodup, inv.sorted, inv.parents⟩

/-- The state after an event that can happen and returns. -/
def next (s : ProcessTable P) (e : Event P) : Option (ProcessTable P) :=
  if s.Enabled e then
    match e.run s with
    | .ok (_, t) => some t
    | .error _ => none
  else none

theorem step_of_next {e : Event P} (h : s.next e = some t) : (processTableSystem P).step s e t := by
  unfold next at h
  split at h
  · rename_i enabled
    split at h
    · rename_i hrun
      obtain rfl := Option.some.inj h
      exact ⟨enabled, hrun⟩
    · cases h
  · cases h

/-- A list of events can be played from boot. -/
theorem run_of_play {es : List (Event P)} {kernelInit : P} (h : es.foldlM next (initial kernelInit) = some t) :
    (processTableSystem P).init (initial kernelInit) ∧
      ∃ xs, (processTableSystem P).Run (initial kernelInit) xs t := by
  obtain ⟨xs, run, _, _⟩ := TransitionSystem.Run.of_play (M := processTableSystem P) (fun _ _ => True)
    (fun s e s' hnext => ⟨step_of_next hnext, trivial⟩) h
  exact ⟨⟨kernelInit, rfl⟩, xs, run⟩

/-- `init` takes its number and forks. -/
theorem process_table_invariant_after_fork :
    ∃ s xs t, (processTableSystem (Fin 3)).init s ∧ (processTableSystem (Fin 3)).Run s xs t ∧
      t.allProcesses = some 1 ∧ t.nextInAllProcesses 1 = some 2 ∧ t.ppid 2 = 1 ∧ WellFormed t := by
  have hplay : ([.createKernelProcess 0 1, .register 0, .generatePid 1, .assignPid 1, .fork 1 2, .generatePid 1,
      .register 1].foldlM next (initial (0 : Fin 3))).any
        (fun t => t.allProcesses = some 1 ∧ t.nextInAllProcesses 1 = some 2 ∧ t.ppid 2 = 1) = true := by
    decide +kernel
  obtain ⟨t, ht, hafter⟩ := (Option.any_eq_true _ _).1 hplay
  obtain ⟨hhead, hnext, hppid⟩ := of_decide_eq_true hafter
  obtain ⟨hinit, xs, run⟩ := run_of_play ht
  exact ⟨_, xs, t, hinit, run, hhead, hnext, hppid, process_table_invariant hinit run⟩

end ProcessTable

end Chaotix
