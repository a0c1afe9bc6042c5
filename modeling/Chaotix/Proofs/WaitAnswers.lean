/-
Module: Chaotix.Proofs.WaitAnswers
Layer: Proofs
Purpose: What one call of `waitpid` answers, against what it is meant to answer. The selector decides which processes
  the predicate looks at, and only the selector -1 asks for the children of the caller. The predicate has one answer
  for "not yet" and a blocker without a process, and with `WNOHANG` that is reported as `ECHILD`.
Imports: Chaotix.Proofs.WaitReaping
Trusted boundary: none
Main exports: WaitAnswer, waitAnswer, Evaluates, Gives, MeetsAnswer, waitpid_answers_iff
-/
import Chaotix.Proofs.WaitReaping

open Program

namespace Chaotix

namespace ProcessTable

/-! ### What `waitpid` is meant to answer -/

section Answer

variable {P : Type} [DecidableEq P]

/-- The processes that a pid argument selects. -/
def Selects (s : ProcessTable P) (blocker : WaitpidBlocker P) (it : P) : Prop :=
  if blocker.paramPid < -1 then s.pgid it = -blocker.paramPid
  else if blocker.paramPid = -1 then True
  else if blocker.paramPid = 0 then s.pgid it = blocker.currentPgid
  else s.pid it = blocker.paramPid

instance (s : ProcessTable P) (blocker : WaitpidBlocker P) (it : P) : Decidable (s.Selects blocker it) := by
  unfold Selects
  infer_instance

/-- The children of the caller that are selected. -/
def selectedChildren (s : ProcessTable P) (p : P) (blocker : WaitpidBlocker P) : List P :=
  s.processes.filter fun it => s.ppid it = s.pid p ∧ s.Selects blocker it

/-- The processes that the predicate looks at. -/
def targets (s : ProcessTable P) (blocker : WaitpidBlocker P) : List P :=
  s.processes.filter fun it => s.isTarget blocker it

/-- The first dead process of a list. -/
def firstDead (s : ProcessTable P) (l : List P) : Option P := l.find? fun it => s.state it = .DEAD

inductive WaitAnswer (P : Type) where
  | noChild
  | notYet
  | child (w : P)
deriving DecidableEq

/-- The answer for the children that are selected. -/
def waitAnswer (s : ProcessTable P) (p : P) (blocker : WaitpidBlocker P) : WaitAnswer P :=
  match s.firstDead (s.selectedChildren p blocker) with
  | some w => .child w
  | none => if s.selectedChildren p blocker = [] then .noChild else .notYet

/-- The event evaluates the predicate for a call of `waitpid`: the first time, or again while the call is blocked. -/
inductive Evaluates (s : ProcessTable P) : Event P → P → Bool → WaitpidBlocker P → Prop where
  | first {p : P} {nohang : Bool} {blocker : WaitpidBlocker P} (hpc : s.pc p = .waitpid nohang blocker) :
      Evaluates s (.testBlocker p) p nohang blocker
  | again {p : P} {blocker : WaitpidBlocker P} (hpc : s.pc p = .blocked blocker)
      (hsignal : s.pendingSignals p = false) :
      Evaluates s (.unblock p) p false blocker

/-- The call of `p` returns `result`: however the processes go on, it has returned that, or it can take its next step
    without waiting for anything. -/
def Returns (p : P) (t : ProcessTable P) (result : Except Errno (Int × Option Nat)) : Prop :=
  ∀ xs u, (processTableSystem P).Run t xs u → (∀ x ∈ xs, ∀ pid nohang, x.event ≠ .waitpid p pid nohang) →
    (¬(u.pc p).Waits → u.waitResult p = some result) ∧
    ((u.pc p).Waits → ∃ e v, (e = .blockReturns p ∨ e = .reap p) ∧ (processTableSystem P).step u e v)

/-- After an evaluation, the call of `p` gives the answer. -/
def Gives (s t : ProcessTable P) (p : P) (nohang : Bool) : WaitAnswer P → Prop
  | .noChild => t.processes = s.processes ∧ Returns p t (.error .ECHILD)
  | .notYet => t.processes = s.processes ∧
      if nohang then Returns p t (.ok (0, none)) else ∃ blocker, t.pc p = .blocked blocker
  | .child w => t.processes = s.processes.erase w ∧ Returns p t (.ok (s.pid w, some (s.exitStatus w)))

/-- The first dead process that the predicate looks at is a child of the caller. If there is none, then with `WNOHANG`
    no child is selected, and without it no process at all is looked at unless a child is selected. -/
def MeetsAnswer (s : ProcessTable P) (p : P) (nohang : Bool) (blocker : WaitpidBlocker P) : Prop :=
  match s.firstDead (s.targets blocker) with
  | some w => s.ppid w = s.pid p
  | none =>
      if nohang then s.selectedChildren p blocker = []
      else s.selectedChildren p blocker = [] → s.targets blocker = []

end Answer

/-! ### What the predicate does -/

section Predicate

variable {P : Type} {s : ProcessTable P} {l : List P} {blocker : WaitpidBlocker P}

/-- On a list without a dead target, the loop goes to the end and has seen every process. -/
theorem waitpidLoop_none {it : Option P} (hlinked : LinkedList s.nextInAllProcesses it l) {n : Nat}
    (hn : l.length ≤ n) (hnone : ∀ x ∈ l, ¬(s.isTarget blocker x ∧ s.state x = .DEAD)) (prev : Option P)
    (anyTargetExists : Bool) :
    ∃ prev', s.waitpidLoop blocker n prev it anyTargetExists =
      some (prev', none, anyTargetExists || l.any (s.isTarget blocker)) := by
  induction l generalizing it n prev anyTargetExists with
  | nil =>
      obtain rfl : it = none := hlinked
      refine ⟨prev, ?_⟩
      cases n <;> simp [waitpidLoop]
  | cons x l ih =>
      obtain ⟨rfl, htail⟩ := hlinked
      cases n with
      | zero => simp at hn
      | succ n =>
          obtain ⟨prev', hrest⟩ := ih htail (Nat.le_of_succ_le_succ hn)
            (fun y hy => hnone y (List.mem_cons_of_mem x hy)) (some x) (anyTargetExists || s.isTarget blocker x)
          refine ⟨prev', ?_⟩
          rw [waitpidLoop, if_neg (hnone x List.mem_cons_self), hrest, List.any_cons, Bool.or_assoc]

theorem firstDead_targets (hlist : Listed s l) :
    s.firstDead (s.targets blocker) = l.find? fun it => decide (s.isTarget blocker it ∧ s.state it = .DEAD) := by
  rw [firstDead, targets, hlist.processes_eq, List.find?_filter]
  congr 1
  funext it
  simp

variable [DecidableEq P]

/-- Without a dead target, the answer is whether there is a target at all. -/
theorem waitpidShouldUnblock_none (hlist : Listed s l) (hnone : s.firstDead (s.targets blocker) = none) :
    waitpidShouldUnblock blocker s = .ok (if s.targets blocker = [] then (true, { blocker with waitedProcess := none })
      else (false, blocker), s) := by
  rw [firstDead_targets hlist, List.find?_eq_none] at hnone
  have hnone' : ∀ x ∈ l, ¬(s.isTarget blocker x ∧ s.state x = .DEAD) := fun x hx hdead =>
    hnone x hx (decide_eq_true hdead)
  obtain ⟨prev, hloop⟩ := waitpidLoop_none hlist.linked hlist.length_le hnone' none false
  have hany : (s.targets blocker = []) ↔ l.any (s.isTarget blocker) = false := by
    rw [targets, hlist.processes_eq, List.filter_eq_nil_iff, List.any_eq_false]
  simp only [waitpidShouldUnblock, run_bind, run_get, hloop, Bool.false_or]
  by_cases hempty : s.targets blocker = []
  · simp [hempty, hany.1 hempty]
  · have htrue : l.any (s.isTarget blocker) = true := by
      rw [← Bool.not_eq_false]
      exact fun h => hempty (hany.2 h)
    simp [hempty, htrue]

/-- The first dead target is taken out of the list. -/
theorem waitpidShouldUnblock_some (hlist : Listed s l) {w : P} (hsome : s.firstDead (s.targets blocker) = some w) :
    ∃ next head, waitpidShouldUnblock blocker s = .ok ((true, { blocker with waitedProcess := some w }),
        { s with nextInAllProcesses := next, allProcesses := head }) ∧
      Listed { s with nextInAllProcesses := next, allProcesses := head } (l.erase w) := by
  rw [firstDead_targets hlist] at hsome
  obtain ⟨ys, zs, rfl, hys, hzs, hwalk⟩ := findNode_eq
    (p := fun it => decide (s.isTarget blocker it ∧ s.state it = .DEAD)) none hlist.linked hlist.length_le
  rw [List.find?_append, List.find?_eq_none.2 fun y hy => by simp [hys y hy], Option.none_or] at hsome
  rw [← waitpidLoop_eq s.allocated.length none s.allProcesses false, Option.or_none] at hwalk
  obtain ⟨⟨prev, it, anyTargetExists⟩, hloop, hfound⟩ := Option.map_eq_some_iff.1 hwalk
  obtain ⟨rfl, rfl⟩ := Prod.mk.inj hfound
  cases zs with
  | nil => cases hsome
  | cons z zs =>
      rw [List.find?_cons, hzs z rfl] at hsome
      obtain rfl := Option.some.inj hsome
      have hnotMem : z ∉ ys := fun hz => (List.nodup_append.1 hlist.nodup).2.2 z hz z List.mem_cons_self rfl
      have herase : (ys ++ z :: zs).erase z = ys ++ zs := by
        rw [List.erase_append_right _ hnotMem, List.erase_cons_head]
      refine ⟨(LinkedList.setLink s.nextInAllProcesses s.allProcesses ys.getLast? (s.nextInAllProcesses z)).1,
        (LinkedList.setLink s.nextInAllProcesses s.allProcesses ys.getLast? (s.nextInAllProcesses z)).2, ?_, ?_⟩
      · simp only [waitpidShouldUnblock, run_bind, run_get, hloop, List.head?_cons, run_set]
        rfl
      · rw [herase]
        exact ⟨hlist.linked.unlink hlist.nodup, (List.nodup_middle.1 hlist.nodup).of_cons,
          fun x hx => hlist.allocated x (by simp only [List.mem_append, List.mem_cons] at hx ⊢; tauto)⟩

end Predicate

/-! ### What the other processes do to a call -/

section Frame

variable {P : Type} {s t u : ProcessTable P} {l : List P}

/-- The steps of a call of `waitpid`. -/
def CallStep (p : P) (e : Event P) : Prop :=
  e = .testBlocker p ∨ e = .unblock p ∨ e = .blockReturns p ∨ e = .reap p

/-- The call of `p`, or what it has returned, is left alone. -/
structure CallKept (p : P) (s t : ProcessTable P) : Prop where
  waitResult : t.waitResult p = s.waitResult p
  waits : (s.pc p).Waits →
    t.pc p = s.pc p ∧ t.pid p = s.pid p ∧ t.blockerWasInterrupted p = s.blockerWasInterrupted p
  outside : ¬(s.pc p).Waits → ¬(t.pc p).Waits

theorem CallStep.waits {p : P} {e : Event P} (h : CallStep p e) (enabled : s.Enabled e) : (s.pc p).Waits := by
  rcases h with rfl | rfl | rfl | rfl
  · obtain ⟨nohang, blocker, h⟩ := enabled
    rw [h]
    trivial
  all_goals
    obtain ⟨blocker, h⟩ := enabled
    rw [h]
    trivial

theorem CallStep.of_woken {p : P} {e : Event P} (h : CallStep p e) (enabled : s.Enabled e) {blocker : WaitpidBlocker P}
    (hpc : s.pc p = .woken blocker) : e = .blockReturns p := by
  rcases h with rfl | rfl | rfl | rfl
  · obtain ⟨_, _, h⟩ := enabled
    cases hpc.symm.trans h
  · obtain ⟨_, h⟩ := enabled
    cases hpc.symm.trans h
  · rfl
  · obtain ⟨_, h⟩ := enabled
    cases hpc.symm.trans h

theorem CallStep.of_waited {p : P} {e : Event P} (h : CallStep p e) (enabled : s.Enabled e) {blocker : WaitpidBlocker P}
    (hpc : s.pc p = .waited blocker) : e = .reap p := by
  rcases h with rfl | rfl | rfl | rfl
  · obtain ⟨_, _, h⟩ := enabled
    cases hpc.symm.trans h
  · obtain ⟨_, h⟩ := enabled
    cases hpc.symm.trans h
  · obtain ⟨_, h⟩ := enabled
    cases hpc.symm.trans h
  · rfl

theorem CallKept.of_same {p : P} (hresult : t.waitResult p = s.waitResult p) (hpc : t.pc p = s.pc p)
    (hpid : t.pid p = s.pid p) (hinterrupted : t.blockerWasInterrupted p = s.blockerWasInterrupted p) :
    CallKept p s t :=
  ⟨hresult, fun _ => ⟨hpc, hpid, hinterrupted⟩, fun h => by rwa [hpc]⟩

theorem CallKept.of_outside {p : P} (hresult : t.waitResult p = s.waitResult p) (hs : ¬(s.pc p).Waits)
    (ht : ¬(t.pc p).Waits) : CallKept p s t :=
  ⟨hresult, fun h => absurd h hs, fun _ => ht⟩

/-- A process that another one has created or taken out of the list is in no call. -/
theorem TableInvariant.owned_outside (inv : TableInvariant s l) {q c : P} (hc : (s.pc q).owned = some c) :
    ¬(s.pc c).Waits := by
  rw [(inv.owned q c hc).2.2]
  exact id

theorem Polled.caller {blocker : WaitpidBlocker P} {r : Bool × WaitpidBlocker P} {l' : List P}
    (h : Polled s l blocker r t l') : r.2.currentPid = blocker.currentPid := by
  cases h <;> rfl

/-- The predicate changes the list and nothing else. -/
theorem Polled.keeps {blocker : WaitpidBlocker P} {r : Bool × WaitpidBlocker P} {l' : List P}
    (h : Polled s l blocker r t l') : t.pc = s.pc ∧ t.pid = s.pid ∧ t.waitResult = s.waitResult ∧
      t.blockerWasInterrupted = s.blockerWasInterrupted := by
  cases h <;> exact ⟨rfl, rfl, rfl, rfl⟩

variable [DecidableEq P]

/-- A process goes on outside `waitpid`, and its number may be set. -/
theorem CallKept.setPc {p q : P} {pc : ProcessPc P} (hs : ¬(s.pc q).Waits) (hpc : ¬pc.Waits)
    (hresult : t.waitResult = s.waitResult) (ht : t.pc = Function.update s.pc q pc)
    (hpid : p ≠ q → t.pid p = s.pid p)
    (hinterrupted : p ≠ q → t.blockerWasInterrupted p = s.blockerWasInterrupted p) : CallKept p s t := by
  by_cases hpq : p = q
  · subst hpq
    exact .of_outside (congrFun hresult p) hs (by rwa [ht, Function.update_self])
  · exact .of_same (congrFun hresult p) (by rw [ht, Function.update_of_ne hpq]) (hpid hpq) (hinterrupted hpq)

/-- A new process is made, and its maker goes on. -/
theorem callKept_alloc (inv : TableInvariant s l) {p q child : P} {pc : ProcessPc P} (hq : ¬(s.pc q).Waits)
    (hchild : child ∉ s.allocated) (hpc : ¬pc.Waits) (forked : Bool) :
    Ensures (do allocProcess child forked; setPc q pc) s fun _ t => CallKept p s t := by
  simp only [allocProcess, setPc, ensures_bind, ensures_modify]
  have houtside : ¬(s.pc child).Waits := by
    intro hwaits
    refine hchild (inv.acts child fun habsent => ?_).1
    rw [habsent] at hwaits
    exact hwaits
  by_cases hpq : p = q
  · subst hpq
    refine .of_outside rfl hq ?_
    simp only [Function.update_self]
    exact hpc
  · by_cases hpc' : p = child
    · subst hpc'
      refine .of_outside rfl houtside ?_
      simp only [Function.update_of_ne hpq, Function.update_self]
      exact id
    · refine .of_same rfl ?_ ?_ ?_
      · simp only [Function.update_of_ne hpq, Function.update_of_ne hpc']
      · simp only [Function.update_of_ne hpc']
      · simp only [Function.update_of_ne hpc']

/-- What another process does inside `waitpid`. -/
theorem callKept_other {p q : P} (hpq : p ≠ q) (hpid : t.pid = s.pid)
    (hpc : ∃ pc, t.pc = Function.update s.pc q pc ∨ t.pc = s.pc)
    (hresult : ∃ r, t.waitResult = Function.update s.waitResult q r ∨ t.waitResult = s.waitResult)
    (hinterrupted : ∃ b, t.blockerWasInterrupted = Function.update s.blockerWasInterrupted q b ∨
      t.blockerWasInterrupted = s.blockerWasInterrupted) : CallKept p s t := by
  obtain ⟨pc, hpc | hpc⟩ := hpc <;> obtain ⟨r, hr | hr⟩ := hresult <;> obtain ⟨b, hb | hb⟩ := hinterrupted <;>
    exact .of_same (by simp [hr, hpq]) (by simp [hpc, hpq]) (congrFun hpid p) (by simp [hb, hpq])

/-- A step of another process, or one of `p` outside `waitpid`. -/
theorem callKept_step (inv : TableInvariant s l) {p : P} {e : Event P} (enabled : s.Enabled e) (hother : ¬CallStep p e)
    (hwaitpid : ∀ pid nohang, e ≠ .waitpid p pid nohang) : Ensures e.run s fun _ t => CallKept p s t := by
  cases e with
  | createKernelProcess q child =>
      rw [Event.run, ensures_bind, ensures_get]
      refine callKept_alloc inv ?_ enabled.2 id false
      rcases enabled.1 with h | h <;> rw [h] <;> exact id
  | fork q child => exact callKept_alloc inv (by rw [enabled.1]; exact id) enabled.2 id true
  | generatePid q =>
      rw [Event.run, ensures_bind, ensures_get]
      rcases enabled with h | ⟨child, h⟩
      · simp only [h]
        exact .setPc (by rw [h]; exact id) id rfl rfl (fun _ => rfl) fun _ => rfl
      · simp only [h]
        have houtside := inv.owned_outside (q := q) (c := child) (by rw [h]; rfl)
        rw [ensures_bind, ensures_set]
        by_cases hpc : p = child
        · subst hpc
          refine .of_outside rfl houtside ?_
          by_cases hpq : p = q
          · simp only [hpq, Function.update_self]
            exact id
          · simp only [Function.update_of_ne hpq]
            exact houtside
        · exact .setPc (by rw [h]; exact id) id rfl rfl (fun _ => Function.update_of_ne hpc _ _) fun _ => rfl
  | forkFails q =>
      have hq : ¬(s.pc q).Waits := by rcases enabled with ⟨child, h⟩ | ⟨child, h⟩ <;> rw [h] <;> exact id
      exact CallKept.setPc hq id rfl rfl (fun _ => rfl) fun _ => rfl
  | register q =>
      obtain ⟨child, entry, h⟩ := enabled
      have houtside := inv.owned_outside (q := q) (c := child) (by rw [h]; rfl)
      have hfresh := (inv.owned q child (by rw [h]; rfl)).2.1
      rw [Event.run, ensures_bind, ensures_get]
      simp only [h]
      rw [ensures_bind]
      apply (schedulerRegister_ensures inv.toListed hfresh).mono
      rintro _ t ⟨_, next, head, _, _, _, _, _, _, rfl⟩
      simp only [setPc, ensures_bind, ensures_modify]
      by_cases hpc : p = child
      · subst hpc
        refine .of_outside rfl houtside ?_
        simp only [Function.update_self]
        cases entry <;> exact id
      · by_cases hpq : p = q
        · subst hpq
          refine .of_outside rfl (by rw [h]; exact id) ?_
          simp only [Function.update_of_ne hpc, Function.update_self]
          split <;> exact id
        · exact .of_same rfl (by simp only [Function.update_of_ne hpc, Function.update_of_ne hpq]) rfl rfl
  | assignPid q =>
      obtain ⟨pid, h⟩ := enabled
      rw [Event.run, ensures_bind, ensures_get]
      simp only [h]
      exact .setPc (by rw [h]; exact id) id rfl rfl (fun hpq => Function.update_of_ne hpq _ _) fun _ => rfl
  | setState q state => exact .of_same rfl rfl rfl rfl
  | setpgid q pgid => exact .of_same rfl rfl rfl rfl
  | sendSignal q => exact .of_same rfl rfl rfl rfl
  | terminateWithSignal q signum => exact .of_same rfl rfl rfl rfl
  | exit q exitStatus =>
      have hq : ¬(s.pc q).Waits := by rcases enabled.1 with h | h <;> rw [h] <;> exact id
      cases exitStatus with
      | none =>
          rw [Event.run, ensures_bind, ensures_get, ensures_bind, assert, ensures_require]
          exact fun _ => .setPc hq id rfl rfl (fun _ => rfl) fun _ => rfl
      | some status =>
          rw [Event.run, ensures_bind, ensures_modify, ensures_bind, ensures_get, ensures_bind, assert, ensures_require]
          exact fun _ => .setPc hq id rfl rfl (fun _ => rfl) fun _ => rfl
  | die q =>
      change Ensures (dieFinally q) s _
      rw [Ensures, dieFinally_eq q inv.toListed]
      exact .setPc (by rw [show s.pc q = .dying from enabled]; exact id) id rfl rfl (fun _ => rfl) fun _ => rfl
  | waitpid q pid nohang =>
      have hpq : p ≠ q := fun heq => hwaitpid pid nohang (by rw [heq])
      exact callKept_other hpq rfl ⟨_, Or.inl rfl⟩ ⟨none, Or.inr rfl⟩ ⟨true, Or.inr rfl⟩
  | testBlocker q =>
      have hpq : p ≠ q := fun heq => hother (Or.inl (by rw [heq]))
      obtain ⟨nohang, blocker, h⟩ := enabled
      rw [Event.run, ensures_bind, ensures_get]
      simp only [h]
      rw [ensures_bind]
      apply (waitpidShouldUnblock_ensures blocker inv.toListed).mono
      rintro ⟨shouldUnblock, blocker'⟩ t ⟨l', hpolled⟩
      obtain ⟨hpc, hpid, hresult, hinterrupted⟩ := hpolled.keeps
      cases shouldUnblock with
      | true =>
          exact callKept_other hpq hpid ⟨_, Or.inl (by rw [← hpc])⟩ ⟨none, Or.inr hresult⟩
            ⟨true, Or.inr hinterrupted⟩
      | false =>
          simp only [Bool.false_eq_true, if_false]
          cases nohang with
          | false =>
              exact callKept_other hpq hpid ⟨_, Or.inl (by rw [← hpc])⟩ ⟨none, Or.inr hresult⟩
                ⟨false, Or.inl (by rw [← hinterrupted])⟩
          | true =>
              simp only [if_true]
              cases blocker'.waitedProcess with
              | none =>
                  exact callKept_other hpq hpid ⟨_, Or.inl (by rw [← hpc])⟩
                    ⟨_, Or.inl (by rw [← hresult])⟩ ⟨true, Or.inr hinterrupted⟩
              | some _ =>
                  exact callKept_other hpq hpid ⟨_, Or.inl (by rw [← hpc])⟩
                    ⟨_, Or.inl (by rw [← hresult])⟩ ⟨true, Or.inr hinterrupted⟩
  | unblock q =>
      have hpq : p ≠ q := fun heq => hother (Or.inr (Or.inl (by rw [heq])))
      obtain ⟨blocker, h⟩ := enabled
      rw [Event.run, ensures_bind, ensures_get]
      simp only [h]
      split
      · exact callKept_other hpq rfl ⟨_, Or.inl rfl⟩ ⟨none, Or.inr rfl⟩ ⟨true, Or.inl rfl⟩
      · rw [ensures_bind]
        apply (waitpidShouldUnblock_ensures blocker inv.toListed).mono
        rintro ⟨shouldUnblock, blocker'⟩ t ⟨l', hpolled⟩
        obtain ⟨hpc, hpid, hresult, hinterrupted⟩ := hpolled.keeps
        cases shouldUnblock with
        | false =>
            exact callKept_other hpq hpid ⟨.user, Or.inr hpc⟩ ⟨none, Or.inr hresult⟩ ⟨true, Or.inr hinterrupted⟩
        | true =>
            exact callKept_other hpq hpid ⟨_, Or.inl (by rw [← hpc])⟩ ⟨none, Or.inr hresult⟩
              ⟨false, Or.inl (by rw [← hinterrupted])⟩
  | blockReturns q =>
      have hpq : p ≠ q := fun heq => hother (Or.inr (Or.inr (Or.inl (by rw [heq]))))
      obtain ⟨blocker, h⟩ := enabled
      rw [Event.run, ensures_bind, ensures_get]
      simp only [h]
      split
      · exact callKept_other hpq rfl ⟨_, Or.inl rfl⟩ ⟨_, Or.inl rfl⟩ ⟨true, Or.inr rfl⟩
      · exact callKept_other hpq rfl ⟨_, Or.inl rfl⟩ ⟨none, Or.inr rfl⟩ ⟨true, Or.inr rfl⟩
  | reap q =>
      have hpq : p ≠ q := fun heq => hother (Or.inr (Or.inr (Or.inr (by rw [heq]))))
      obtain ⟨blocker, h⟩ := enabled
      rw [Event.run, ensures_bind, ensures_get]
      simp only [h]
      cases hwaited : blocker.waitedProcess with
      | none => exact callKept_other hpq rfl ⟨_, Or.inl rfl⟩ ⟨_, Or.inl rfl⟩ ⟨true, Or.inr rfl⟩
      | some w =>
          have howner : (s.pc q).owned = some w := by rw [h, ProcessPc.owned, hwaited]
          simp only
          rw [ensures_bind_of_return (schedulerUnregister_eq inv.toListed (inv.owned q w howner).2.1)]
          exact callKept_other hpq rfl ⟨_, Or.inl rfl⟩ ⟨_, Or.inl rfl⟩ ⟨true, Or.inr rfl⟩

end Frame

/-! ### The caller -/

section Caller

variable {P : Type} [DecidableEq P] {s t : ProcessTable P}

/-- A call that has not got its answer has kept the number of its caller. -/
def CallerInvariant (s : ProcessTable P) : Prop :=
  ∀ p blocker, ((∃ nohang, s.pc p = .waitpid nohang blocker) ∨ s.pc p = .blocked blocker) →
    blocker.currentPid = s.pid p

/-- What a step of a call leaves, if the call goes on without an answer. -/
theorem callerInvariant_callStep (inv : ∃ l, TableInvariant s l) (caller : CallerInvariant s) {p : P} {e : Event P}
    (hcall : CallStep p e) (enabled : s.Enabled e) : Ensures e.run s fun _ t => ∀ blocker,
      ((∃ nohang, t.pc p = .waitpid nohang blocker) ∨ t.pc p = .blocked blocker) → blocker.currentPid = t.pid p := by
  obtain ⟨l, inv⟩ := inv
  rcases hcall with rfl | rfl | rfl | rfl
  · obtain ⟨nohang, blocker, h⟩ := enabled
    have hcaller := caller p blocker (Or.inl ⟨nohang, h⟩)
    rw [Event.run, ensures_bind, ensures_get]
    simp only [h]
    rw [ensures_bind]
    apply (waitpidShouldUnblock_ensures blocker inv.toListed).mono
    rintro ⟨shouldUnblock, blocker'⟩ t ⟨l', hpolled⟩
    have hblocker : blocker'.currentPid = blocker.currentPid := hpolled.caller
    obtain ⟨_, hpid, _, _⟩ := hpolled.keeps
    cases shouldUnblock with
    | true =>
        rintro b (⟨_, hb⟩ | hb) <;> simp at hb
    | false =>
        simp only [Bool.false_eq_true, if_false]
        cases nohang with
        | false =>
            rintro b (⟨_, hb⟩ | hb)
            · simp at hb
            · simp only [Function.update_self, ProcessPc.blocked.injEq] at hb
              rw [← hb, hblocker, hcaller]
              exact (congrFun hpid p).symm
        | true =>
            simp only [if_true]
            cases blocker'.waitedProcess with
            | none => rintro b (⟨_, hb⟩ | hb) <;> simp at hb
            | some _ => rintro b (⟨_, hb⟩ | hb) <;> simp at hb
  · obtain ⟨blocker, h⟩ := enabled
    rw [Event.run, ensures_bind, ensures_get]
    simp only [h]
    split
    · rintro b (⟨_, hb⟩ | hb) <;> simp at hb
    · rw [ensures_bind]
      apply (waitpidShouldUnblock_ensures blocker inv.toListed).mono
      rintro ⟨shouldUnblock, blocker'⟩ t ⟨l', hpolled⟩
      obtain ⟨hpc, hpid, _, _⟩ := hpolled.keeps
      cases shouldUnblock with
      | true => rintro b (⟨_, hb⟩ | hb) <;> simp at hb
      | false =>
          intro b hb
          rw [hpid]
          simp only [hpc] at hb
          exact caller p b hb
  · obtain ⟨blocker, h⟩ := enabled
    rw [Event.run, ensures_bind, ensures_get]
    simp only [h]
    split
    · rintro b (⟨_, hb⟩ | hb) <;> simp at hb
    · rintro b (⟨_, hb⟩ | hb) <;> simp at hb
  · obtain ⟨blocker, h⟩ := enabled
    rw [Event.run, ensures_bind, ensures_get]
    simp only [h]
    cases hwaited : blocker.waitedProcess with
    | none => rintro b (⟨_, hb⟩ | hb) <;> simp at hb
    | some w =>
        have howner : (s.pc p).owned = some w := by rw [h, ProcessPc.owned, hwaited]
        simp only
        rw [ensures_bind_of_return (schedulerUnregister_eq inv.toListed (inv.owned p w howner).2.1)]
        rintro b (⟨_, hb⟩ | hb) <;> simp at hb

theorem callerInvariant_step (inv : ∃ l, TableInvariant s l) (caller : CallerInvariant s) {e : Event P}
    (hstep : (processTableSystem P).step s e t) : CallerInvariant t := by
  intro p blocker hpc
  by_cases hcall : CallStep p e
  · exact ensures_iff.1 (callerInvariant_callStep inv caller hcall hstep.1) () t hstep.2 blocker hpc
  · by_cases hstart : ∃ pid nohang, e = .waitpid p pid nohang
    · obtain ⟨pid, nohang, rfl⟩ := hstart
      have hrun := hstep.2
      simp only [Event.run, setPc, run_bind, run_get, run_set, run_modify, Except.ok.injEq, Prod.mk.injEq,
        true_and] at hrun
      subst hrun
      rcases hpc with ⟨_, hpc⟩ | hpc
      · simp only [Function.update_self, ProcessPc.waitpid.injEq] at hpc
        rw [← hpc.2]
      · simp at hpc
    · obtain ⟨l, inv⟩ := inv
      have kept := ensures_iff.1 (callKept_step inv (p := p) hstep.1 hcall fun pid nohang heq =>
        hstart ⟨pid, nohang, heq⟩) () t hstep.2
      have hwaits : (s.pc p).Waits := by
        by_contra hnot
        refine kept.outside hnot ?_
        rcases hpc with ⟨_, hpc⟩ | hpc <;> rw [hpc] <;> trivial
      obtain ⟨hsame, hpid, _⟩ := kept.waits hwaits
      rw [hsame] at hpc
      rw [hpid]
      exact caller p blocker hpc

end Caller

/-! ### The rest of a call -/

section Rest

variable {P : Type} {s t : ProcessTable P} {p : P} {result : Except Errno (Int × Option Nat)}

/-- What a call returns when it has the given process in its hands. -/
def resultOf (s : ProcessTable P) : Option P → Except Errno (Int × Option Nat)
  | none => .error .ECHILD
  | some w => .ok (s.pid w, some (s.exitStatus w))

/-- The call of `p` has its answer: it has returned the result, or it only has to hand it over. -/
inductive Resolved (p : P) (result : Except Errno (Int × Option Nat)) (s : ProcessTable P) : Prop where
  | returned (houtside : ¬(s.pc p).Waits) (hresult : s.waitResult p = some result)
  | woken (blocker : WaitpidBlocker P) (hpc : s.pc p = .woken blocker) (hflag : s.blockerWasInterrupted p = false)
      (hresult : result = resultOf s blocker.waitedProcess)
  | waited (blocker : WaitpidBlocker P) (hpc : s.pc p = .waited blocker)
      (hresult : result = resultOf s blocker.waitedProcess)

theorem resultOf_congr (hpid : t.pid = s.pid) (hexit : t.exitStatus = s.exitStatus) (w : Option P) :
    resultOf t w = resultOf s w := by
  cases w with
  | none => rfl
  | some w => rw [resultOf, resultOf, hpid, hexit]

/-- The dead process that a call holds is not changed as long as the call holds it. -/
theorem resultOf_kept (inv : ReapInvariant s) (inv' : ReapInvariant t) {e : Event P} (effect : Effect s e t)
    (hpc : t.pc p = s.pc p) (hwaits : (s.pc p).Waits) : resultOf t (s.pc p).owned = resultOf s (s.pc p).owned := by
  cases howned : (s.pc p).owned with
  | none => rfl
  | some w =>
      obtain ⟨⟨l, table⟩, waits⟩ := inv
      obtain ⟨⟨l', table'⟩, _⟩ := inv'
      have hdead := (waits.blockers p).held w hwaits howned
      have hlater := (table'.owned p w (by rw [hpc, howned])).1
      obtain ⟨_, hpid, hexit⟩ := effect.dead w (table.owned p w howned).1 hdead hlater
      rw [resultOf, resultOf, hpid, hexit]

theorem Resolved.not_blocked (h : Resolved p result t)
    {blocker : WaitpidBlocker P} : t.pc p ≠ .blocked blocker := by
  intro hpc
  cases h with
  | returned houtside _ => exact houtside (by rw [hpc]; trivial)
  | woken _ hwoken => cases hpc.symm.trans hwoken
  | waited _ hwaited => cases hpc.symm.trans hwaited

variable [DecidableEq P]

/-- The last step of a call hands the result over. -/
theorem reap_yields (inv : ReapInvariant s) {blocker : WaitpidBlocker P} (hpc : s.pc p = .waited blocker) :
    Yields (Event.reap p).run s fun _ t =>
      ¬(t.pc p).Waits ∧ t.waitResult p = some (resultOf s blocker.waitedProcess) := by
  obtain ⟨⟨l, table⟩, _⟩ := inv
  rw [Event.run, yields_bind, yields_get]
  simp only [hpc]
  cases hwaited : blocker.waitedProcess with
  | none => simp [returnWait, setPc, yields_modify, resultOf, ProcessPc.Waits]
  | some w =>
      have howner : (s.pc p).owned = some w := by rw [hpc, ProcessPc.owned, hwaited]
      simp only
      rw [yields_bind_of_return (schedulerUnregister_eq table.toListed (table.owned p w howner).2.1)]
      simp [returnWait, setPc, yields_modify, resultOf, ProcessPc.Waits]

theorem blockReturns_yields {blocker : WaitpidBlocker P} (hpc : s.pc p = .woken blocker)
    (hflag : s.blockerWasInterrupted p = false) :
    Yields (Event.blockReturns p).run s fun _ t => t.pc p = .waited blocker ∧ t.pid = s.pid ∧
      t.exitStatus = s.exitStatus := by
  rw [Event.run, yields_bind, yields_get]
  simp only [hpc, hflag, Bool.false_eq_true, if_false, setPc, yields_modify, Function.update_self, and_self]

/-- A call that has its answer keeps it, whoever goes on. -/
theorem Resolved.step (h : Resolved p result s) (inv : ReapInvariant s) {e : Event P}
    (hstep : (processTableSystem P).step s e t) (hwaitpid : ∀ pid nohang, e ≠ .waitpid p pid nohang) :
    Resolved p result t := by
  obtain ⟨inv', effect⟩ := reapInvariant_step inv hstep
  by_cases hcall : CallStep p e
  · cases h with
    | returned houtside hresult => exact absurd (hcall.waits hstep.1) houtside
    | woken blocker hpc hflag hresult =>
        obtain rfl := hcall.of_woken hstep.1 hpc
        obtain ⟨hwaited, hpid, hexit⟩ := (blockReturns_yields hpc hflag).and_return hstep.2
        exact .waited blocker hwaited (hresult.trans (resultOf_congr hpid hexit _).symm)
    | waited blocker hpc hresult =>
        obtain rfl := hcall.of_waited hstep.1 hpc
        obtain ⟨houtside, hreturned⟩ := (reap_yields inv hpc).and_return hstep.2
        exact .returned houtside (hreturned.trans (congrArg some hresult.symm))
  · obtain ⟨l, table⟩ := inv.1
    have kept := ensures_iff.1 (callKept_step table hstep.1 hcall hwaitpid) () t hstep.2
    cases h with
    | returned houtside hresult => exact .returned (kept.outside houtside) (kept.waitResult.trans hresult)
    | woken blocker hpc hflag hresult =>
        have hwaits : (s.pc p).Waits := by rw [hpc]; trivial
        obtain ⟨hsame, _, hinterrupted⟩ := kept.waits hwaits
        have hsameResult := resultOf_kept inv inv' effect hsame hwaits
        rw [hpc] at hsameResult
        exact .woken blocker (hsame.trans hpc) (hinterrupted.trans hflag) (hresult.trans hsameResult.symm)
    | waited blocker hpc hresult =>
        have hwaits : (s.pc p).Waits := by rw [hpc]; trivial
        obtain ⟨hsame, _, _⟩ := kept.waits hwaits
        have hsameResult := resultOf_kept inv inv' effect hsame hwaits
        rw [hpc] at hsameResult
        exact .waited blocker (hsame.trans hpc) (hresult.trans hsameResult.symm)

/-- A call that has its answer can go on until it has returned. -/
theorem Resolved.progress (h : Resolved p result s) (inv : ReapInvariant s) (hwaits : (s.pc p).Waits) :
    ∃ e v, (e = .blockReturns p ∨ e = .reap p) ∧ (processTableSystem P).step s e v := by
  cases h with
  | returned houtside hresult => exact absurd hwaits houtside
  | woken blocker hpc hflag hresult =>
      obtain ⟨v, hreturn, -⟩ := (blockReturns_yields hpc hflag).state
      exact ⟨_, v, Or.inl rfl, ⟨blocker, hpc⟩, hreturn⟩
  | waited blocker hpc hresult =>
      obtain ⟨v, hreturn, -⟩ := (reap_yields inv hpc).state
      exact ⟨_, v, Or.inr rfl, ⟨blocker, hpc⟩, hreturn⟩

/-- However the processes go on, a call that has its answer returns it. -/
theorem Resolved.returns (h : Resolved p result t) (inv : ReapInvariant t) : Returns p t result := by
  intro xs u run hcalls
  obtain ⟨hu, invu⟩ := run.guarded_invariant (fun s => Resolved p result s ∧ ReapInvariant s)
    (fun s e s' ⟨h, inv⟩ (hcall : ∀ pid nohang, e ≠ .waitpid p pid nohang) hstep =>
      ⟨h.step inv hstep hcall, (reapInvariant_step inv hstep).1⟩) ⟨h, inv⟩ hcalls
  refine ⟨fun houtside => ?_, hu.progress invu⟩
  cases hu with
  | returned _ hresult => exact hresult
  | woken blocker hpc => exact absurd (by rw [hpc]; trivial) houtside
  | waited blocker hpc => exact absurd (by rw [hpc]; trivial) houtside

theorem completes_of_waited (inv : ReapInvariant t) {blocker : WaitpidBlocker P} (hpc : t.pc p = .waited blocker) :
    ∃ xs u, (processTableSystem P).Run t xs u ∧ (∀ x ∈ xs, ∀ pid nohang, x.event ≠ .waitpid p pid nohang) ∧
      ¬(u.pc p).Waits ∧ u.waitResult p = some (resultOf t blocker.waitedProcess) := by
  obtain ⟨u, hreturn, houtside, hresult⟩ := (reap_yields inv hpc).state
  have hstep : (processTableSystem P).step t (.reap p) u := ⟨⟨blocker, hpc⟩, hreturn⟩
  refine ⟨_, u, .cons hstep (.nil u), ?_, houtside, hresult⟩
  intro x hx
  rw [List.mem_singleton.1 hx]
  exact fun _ _ => nofun

/-- A call that has its answer returns in a run of its own steps. -/
theorem Resolved.completes (h : Resolved p result t) (inv : ReapInvariant t) :
    ∃ xs u, (processTableSystem P).Run t xs u ∧ (∀ x ∈ xs, ∀ pid nohang, x.event ≠ .waitpid p pid nohang) ∧
      ¬(u.pc p).Waits ∧ u.waitResult p = some result := by
  cases h with
  | returned houtside hresult => exact ⟨[], t, .nil t, nofun, houtside, hresult⟩
  | waited blocker hpc hresult => exact hresult ▸ completes_of_waited inv hpc
  | woken blocker hpc hflag hresult =>
      obtain ⟨v, hreturn, hwaited, hpid, hexit⟩ := (blockReturns_yields hpc hflag).state
      have hstep : (processTableSystem P).step t (.blockReturns p) v := ⟨⟨blocker, hpc⟩, hreturn⟩
      obtain ⟨xs, u, run, hcalls, houtside, hlast⟩ := completes_of_waited (reapInvariant_step inv hstep).1 hwaited
      rw [resultOf_congr hpid hexit, ← hresult] at hlast
      refine ⟨_, u, .cons hstep run, ?_, houtside, hlast⟩
      intro x hx
      rcases List.mem_cons.1 hx with rfl | hx
      · exact fun _ _ => nofun
      · exact hcalls x hx

/-- A call that has its answer returns nothing else. -/
theorem Resolved.result_eq {result' : Except Errno (Int × Option Nat)} (h : Resolved p result t)
    (inv : ReapInvariant t) (hreturns : Returns p t result') : result' = result := by
  obtain ⟨xs, u, run, hcalls, houtside, hresult⟩ := h.completes inv
  exact Option.some.inj (((hreturns xs u run hcalls).1 houtside).symm.trans hresult)

/-- A blocked call does not return. -/
theorem not_returns_of_blocked {blocker : WaitpidBlocker P} (hpc : t.pc p = .blocked blocker) :
    ¬Returns p t result := by
  intro hreturns
  obtain ⟨e, v, he, hstep⟩ := (hreturns [] t (.nil t) nofun).2 (by rw [hpc]; trivial)
  rcases he with rfl | rfl
  · obtain ⟨_, h⟩ := hstep.1
    cases hpc.symm.trans h
  · obtain ⟨_, h⟩ := hstep.1
    cases hpc.symm.trans h

end Rest

/-! ### The answer of an evaluation -/

section Evaluation

variable {P : Type} {s t : ProcessTable P} {p : P} {nohang : Bool} {blocker : WaitpidBlocker P}

/-- What the code answers. -/
def codeAnswer (s : ProcessTable P) (nohang : Bool) (blocker : WaitpidBlocker P) : WaitAnswer P :=
  match s.firstDead (s.targets blocker) with
  | some w => .child w
  | none => if s.targets blocker = [] ∨ nohang then .noChild else .notYet

theorem waitAnswer_mem {w : P} (h : s.waitAnswer p blocker = .child w) : w ∈ s.processes := by
  unfold waitAnswer at h
  split at h
  · rename_i v hv
    obtain rfl := WaitAnswer.child.inj h
    exact List.mem_of_mem_filter (List.mem_of_find?_eq_some hv)
  · split at h <;> cases h

theorem codeAnswer_mem {w : P} (h : codeAnswer s nohang blocker = .child w) : w ∈ s.processes := by
  unfold codeAnswer at h
  split at h
  · rename_i v hv
    obtain rfl := WaitAnswer.child.inj h
    exact List.mem_of_mem_filter (List.mem_of_find?_eq_some hv)
  · split at h <;> cases h

/-- Only a call that blocks is not answered yet. -/
theorem nohang_of_codeAnswer (h : codeAnswer s nohang blocker = .notYet) : nohang = false := by
  cases nohang with
  | false => rfl
  | true =>
      unfold codeAnswer at h
      split at h <;> simp at h

variable [DecidableEq P]

/-- After an evaluation, a call that does not block has its answer. -/
def Leaves (s t : ProcessTable P) (p : P) : WaitAnswer P → Prop
  | .noChild => t.processes = s.processes ∧ Resolved p (.error .ECHILD) t
  | .notYet => t.processes = s.processes ∧ ∃ blocker, t.pc p = .blocked blocker
  | .child w => t.processes = s.processes.erase w ∧ Resolved p (.ok (s.pid w, some (s.exitStatus w))) t

/-- The list after the dead process has been taken out of it. -/
theorem Listed.processes_erase {l : List P} (h : Listed s l) {w : P} (h' : Listed t (l.erase w)) :
    t.processes = s.processes.erase w := by
  rw [h.processes_eq, h'.processes_eq]

/-- The first evaluation of a call. -/
theorem testBlocker_leaves (inv : ReapInvariant s) (hpc : s.pc p = .waitpid nohang blocker) :
    Yields (Event.testBlocker p).run s fun _ t => Leaves s t p (codeAnswer s nohang blocker) := by
  obtain ⟨⟨l, table⟩, waits⟩ := inv
  have hempty : blocker.waitedProcess = none := by
    have hasks := (waits.blockers p).asks (by rw [hpc]; trivial)
    rwa [hpc] at hasks
  rw [Event.run, yields_bind, yields_get]
  simp only [hpc]
  cases hdead : s.firstDead (s.targets blocker) with
  | some w =>
      obtain ⟨next, head, hreturn, hlist⟩ := waitpidShouldUnblock_some table.toListed hdead
      rw [yields_bind_of_return hreturn]
      simp only [if_true, codeAnswer, hdead, unblocked, setPc, yields_bind, yields_modify]
      exact ⟨table.toListed.processes_erase { hlist with }, .waited _ (Function.update_self _ _ _) rfl⟩
  | none =>
      rw [yields_bind_of_return (waitpidShouldUnblock_none table.toListed hdead)]
      by_cases htargets : s.targets blocker = []
      · simp only [htargets, if_true, codeAnswer, true_or, unblocked, setPc, yields_bind, yields_modify]
        exact ⟨rfl, .waited _ (Function.update_self _ _ _) rfl⟩
      · cases nohang with
        | true =>
            simp only [if_neg htargets, Bool.false_eq_true, if_false, if_true, hempty, codeAnswer, hdead, or_true,
              returnWait, setPc, yields_bind, yields_modify]
            refine ⟨rfl, .returned ?_ (Function.update_self _ _ _)⟩
            simp only [Function.update_self]
            exact id
        | false =>
            simp only [Bool.false_eq_true, if_false, codeAnswer, hdead, htargets, or_self, setPc, yields_bind,
              yields_modify]
            exact ⟨rfl, blocker, Function.update_self _ _ _⟩

/-- An evaluation while the call is blocked. -/
theorem unblock_leaves (inv : ReapInvariant s) (hpc : s.pc p = .blocked blocker)
    (hsignal : s.pendingSignals p = false) :
    Yields (Event.unblock p).run s fun _ t => Leaves s t p (codeAnswer s false blocker) := by
  obtain ⟨⟨l, table⟩, _⟩ := inv
  rw [Event.run, yields_bind, yields_get]
  simp only [hpc, hsignal, Bool.false_eq_true, if_false]
  cases hdead : s.firstDead (s.targets blocker) with
  | some w =>
      obtain ⟨next, head, hreturn, hlist⟩ := waitpidShouldUnblock_some table.toListed hdead
      rw [yields_bind_of_return hreturn]
      simp only [if_true, codeAnswer, hdead, unblocked, setPc, yields_bind, yields_modify]
      exact ⟨table.toListed.processes_erase { hlist with },
        .woken _ (Function.update_self _ _ _) (Function.update_self _ _ _) rfl⟩
  | none =>
      rw [yields_bind_of_return (waitpidShouldUnblock_none table.toListed hdead)]
      by_cases htargets : s.targets blocker = []
      · simp only [htargets, if_true, codeAnswer, true_or, unblocked, setPc, yields_bind, yields_modify]
        exact ⟨rfl, .woken _ (Function.update_self _ _ _) (Function.update_self _ _ _) rfl⟩
      · simp only [Bool.false_eq_true, if_false, codeAnswer, hdead, htargets, or_self]
        exact ⟨rfl, blocker, hpc⟩

theorem Evaluates.leaves {e : Event P} (inv : ReapInvariant s) (h : Evaluates s e p nohang blocker) :
    Yields e.run s fun _ t => Leaves s t p (codeAnswer s nohang blocker) := by
  cases h with
  | first hpc => exact testBlocker_leaves inv hpc
  | again hpc hsignal => exact unblock_leaves inv hpc hsignal

theorem Leaves.gives {answer : WaitAnswer P} (inv : ReapInvariant t) (hnohang : answer = .notYet → nohang = false)
    (h : Leaves s t p answer) : Gives s t p nohang answer := by
  cases answer with
  | noChild => exact ⟨h.1, h.2.returns inv⟩
  | notYet =>
      obtain rfl := hnohang rfl
      exact h
  | child w => exact ⟨h.1, h.2.returns inv⟩

/-- What the code leaves gives no other answer: the list tells which process has been removed, and the rest of the call
    tells what is returned. -/
theorem Leaves.answer_eq {answer answer' : WaitAnswer P} (hnodup : s.processes.Nodup) (inv : ReapInvariant t)
    (hmem : ∀ w, answer = .child w → w ∈ s.processes) (hmem' : ∀ w, answer' = .child w → w ∈ s.processes)
    (hnohang : answer = .notYet → nohang = false) (h : Leaves s t p answer) (h' : Gives s t p nohang answer') :
    answer' = answer := by
  have hkept : ∀ w ∈ s.processes, s.processes ≠ s.processes.erase w := by
    intro w hw heq
    exact hnodup.not_mem_erase (heq ▸ hw)
  cases answer with
  | child w =>
      cases answer' with
      | child w' =>
          by_cases hne : w = w'
          · rw [hne]
          · have hgone : w ∈ s.processes.erase w' := (List.mem_erase_of_ne hne).2 (hmem w rfl)
            rw [← h'.1, h.1] at hgone
            exact absurd hgone hnodup.not_mem_erase
      | noChild => exact absurd (h'.1.symm.trans h.1) (hkept w (hmem w rfl))
      | notYet => exact absurd (h'.1.symm.trans h.1) (hkept w (hmem w rfl))
  | noChild =>
      cases answer' with
      | child w' => exact absurd (h.1.symm.trans h'.1) (hkept w' (hmem' w' rfl))
      | noChild => rfl
      | notYet =>
          obtain ⟨_, hcall⟩ := h'
          cases nohang with
          | true => cases h.2.result_eq inv hcall
          | false =>
              obtain ⟨blocker, hpc⟩ := hcall
              exact absurd hpc h.2.not_blocked
  | notYet =>
      obtain ⟨blocker, hpc⟩ := h.2
      cases answer' with
      | child w' => exact absurd (h.1.symm.trans h'.1) (hkept w' (hmem' w' rfl))
      | noChild => exact absurd h'.2 (not_returns_of_blocked hpc)
      | notYet => rfl

end Evaluation

/-! ### Both answers -/

section Agreement

variable {P : Type} {s : ProcessTable P} {p : P} {nohang : Bool} {blocker : WaitpidBlocker P}

/-- A selected child is looked at. -/
theorem isTarget_of_selected (hcaller : blocker.currentPid = s.pid p) {it : P}
    (hchild : s.ppid it = s.pid p) (hselects : s.Selects blocker it) : s.isTarget blocker it = true := by
  unfold Selects at hselects
  unfold isTarget
  split_ifs at hselects ⊢ <;> simp_all

theorem selects_of_isTarget {it : P} (h : s.isTarget blocker it = true) : s.Selects blocker it := by
  unfold isTarget at h
  unfold Selects
  split_ifs at h ⊢ <;> simp_all

/-- The selected children are the children among the processes that are looked at. -/
theorem selectedChildren_eq (hcaller : blocker.currentPid = s.pid p) :
    s.selectedChildren p blocker = (s.targets blocker).filter fun it => s.ppid it = s.pid p := by
  rw [selectedChildren, targets, List.filter_filter]
  congr 1
  funext it
  by_cases hchild : s.ppid it = s.pid p
  · by_cases hselects : s.Selects blocker it
    · simp [hchild, hselects, isTarget_of_selected hcaller hchild hselects]
    · have hnot : s.isTarget blocker it = false := by
        rw [← Bool.not_eq_true]
        exact fun h => hselects (selects_of_isTarget h)
      simp [hselects, hnot]
  · simp [hchild]

/-- The first dead process of a list is the first dead child if it is a child. -/
theorem firstDead_filter {l : List P} {w : P} (h : s.firstDead l = some w) (hchild : s.ppid w = s.pid p) :
    s.firstDead (l.filter fun it => s.ppid it = s.pid p) = some w := by
  obtain ⟨hdead, ys, zs, rfl, hys⟩ := List.find?_eq_some_iff_append.1 h
  refine List.find?_eq_some_iff_append.2 ⟨hdead, ys.filter fun it => s.ppid it = s.pid p,
    zs.filter fun it => s.ppid it = s.pid p, ?_, fun y hy => ?_⟩
  · rw [List.filter_append, List.filter_cons_of_pos (by simpa using hchild)]
  · exact hys y (List.mem_of_mem_filter hy)

theorem firstDead_filter_none {l : List P} (h : s.firstDead l = none) (q : P → Bool) :
    s.firstDead (l.filter q) = none :=
  List.find?_eq_none.2 fun x hx => List.find?_eq_none.1 h x (List.mem_of_mem_filter hx)

/-- Both answers agree exactly under the condition. -/
theorem answers_agree_iff (hcaller : blocker.currentPid = s.pid p) :
    s.waitAnswer p blocker = codeAnswer s nohang blocker ↔ MeetsAnswer s p nohang blocker := by
  unfold waitAnswer codeAnswer MeetsAnswer
  rw [selectedChildren_eq hcaller]
  cases hdead : s.firstDead (s.targets blocker) with
  | some w =>
      simp only
      constructor
      · intro h
        split at h
        · rename_i v hv
          obtain rfl := WaitAnswer.child.inj h
          have hmem := List.mem_of_find?_eq_some hv
          simpa using (List.mem_filter.1 hmem).2
        · split at h <;> cases h
      · intro hchild
        rw [firstDead_filter hdead hchild]
  | none =>
      rw [firstDead_filter_none hdead]
      simp only
      have hempty : s.targets blocker = [] → (s.targets blocker).filter (fun it => s.ppid it = s.pid p) = [] := by
        intro h
        rw [h, List.filter_nil]
      cases nohang with
      | true =>
          by_cases hnone : (s.targets blocker).filter (fun it => s.ppid it = s.pid p) = []
          · simp [hnone]
          · simp only [hnone, if_false, or_true, if_true]
            simp
      | false =>
          by_cases htargets : s.targets blocker = []
          · simp [htargets]
          · by_cases hnone : (s.targets blocker).filter (fun it => s.ppid it = s.pid p) = []
            · simp [hnone, htargets]
            · simp only [hnone, htargets, if_false]
              simp

end Agreement

/-! ### Runs -/

section Runs

variable {P : Type} [DecidableEq P] {s₀ s : ProcessTable P}

theorem waitInvariants_run {xs : List (Transition (ProcessTable P) (Event P))}
    (hinit : (processTableSystem P).init s₀) (run : (processTableSystem P).Run s₀ xs s) :
    ReapInvariant s ∧ CallerInvariant s := by
  obtain ⟨kernelInit, rfl⟩ := hinit
  refine run.invariant (fun s => ReapInvariant s ∧ CallerInvariant s)
    (fun s e s' ⟨inv, caller⟩ hstep =>
      ⟨(reapInvariant_step inv hstep).1, callerInvariant_step inv.1 caller hstep⟩)
    ⟨reapInvariant_initial kernelInit, ?_⟩
  intro p blocker hpc
  by_cases hp : p = kernelInit
  · rcases hpc with ⟨_, hpc⟩ | hpc <;> simp [initial, hp] at hpc
  · rcases hpc with ⟨_, hpc⟩ | hpc <;> simp [initial, hp] at hpc

/-- In every run from boot, an evaluation of the predicate gives the call the answer it is meant to have, whatever the
    processes do from there on, exactly when the first dead process that the code looks at is a child of the caller, or
    there is none and the code has nothing to take for a child that is not. -/
theorem waitpid_answers_iff {xs : List (Transition (ProcessTable P) (Event P))} {e : Event P} {p : P} {nohang : Bool}
    {blocker : WaitpidBlocker P} (hinit : (processTableSystem P).init s₀) (run : (processTableSystem P).Run s₀ xs s)
    (heval : Evaluates s e p nohang blocker) :
    Yields e.run s (fun _ t => Gives s t p nohang (s.waitAnswer p blocker)) ↔ MeetsAnswer s p nohang blocker := by
  obtain ⟨inv, caller⟩ := waitInvariants_run hinit run
  have hcaller : blocker.currentPid = s.pid p := by
    cases heval with
    | first hpc => exact caller p blocker (Or.inl ⟨nohang, hpc⟩)
    | again hpc => exact caller p blocker (Or.inr hpc)
  have enabled : s.Enabled e := by
    cases heval with
    | first hpc => exact ⟨nohang, blocker, hpc⟩
    | again hpc => exact ⟨blocker, hpc⟩
  obtain ⟨t, hreturn, hleaves⟩ := (heval.leaves inv).state
  have inv' := (reapInvariant_step inv ⟨enabled, hreturn⟩).1
  have hnodup : s.processes.Nodup := by
    obtain ⟨l, table⟩ := inv.1
    rw [table.processes_eq]
    exact table.nodup
  rw [← answers_agree_iff hcaller]
  constructor
  · intro hyields
    exact hleaves.answer_eq hnodup inv' (fun _ => codeAnswer_mem) (fun _ => waitAnswer_mem) nohang_of_codeAnswer
      (hyields.and_return hreturn)
  · intro hagree
    refine yields_of_return hreturn ?_
    rw [hagree]
    exact hleaves.gives inv' nohang_of_codeAnswer

/-- With `WNOHANG` and a child that is alive, the call returns `ECHILD`. -/
theorem nohang_with_living_child :
    ∃ (s₀ s : ProcessTable (Fin 3)) (xs : _) (blocker : WaitpidBlocker (Fin 3)),
      (processTableSystem (Fin 3)).init s₀ ∧ (processTableSystem (Fin 3)).Run s₀ xs s ∧
      Evaluates s (.testBlocker 1) 1 true blocker ∧ s.waitAnswer 1 blocker = .notYet ∧
      ¬ Yields (Event.testBlocker 1).run s (fun _ t => Gives s t 1 true (s.waitAnswer 1 blocker)) := by
  have hplay : ([.createKernelProcess 0 1, .register 0, .generatePid 1, .assignPid 1, .fork 1 2, .generatePid 1,
      .register 1, .waitpid 1 (-1) true].foldlM next (initial (0 : Fin 3))).any (fun s =>
        s.pc 1 = .waitpid true { paramPid := -1, currentPid := 1, currentPgid := 1 } ∧
        s.waitAnswer 1 { paramPid := -1, currentPid := 1, currentPgid := 1 } = .notYet ∧
        Yields (Event.testBlocker 1).run s fun _ t => t.pc 1 = .user ∧ t.waitResult 1 = some (.error .ECHILD)) =
          true := by
    decide +kernel
  obtain ⟨s, hs, hafter⟩ := (Option.any_eq_true _ _).1 hplay
  obtain ⟨hpc, hanswer, hyields⟩ := of_decide_eq_true hafter
  obtain ⟨hinit, xs, run⟩ := run_of_play hs
  refine ⟨_, s, xs, _, hinit, run, .first hpc, hanswer, fun hgives => ?_⟩
  obtain ⟨t, hreturn, huser, hresult⟩ := hyields.state
  have hcall := hgives.and_return hreturn
  rw [hanswer] at hcall
  have hzero := (hcall.2 [] t (.nil t) nofun).1 (by rw [huser]; exact id)
  rw [hresult] at hzero
  cases hzero

/-- A child that has exited is waited for. -/
theorem waitpid_answers_iff_exited_child :
    ∃ (s₀ s : ProcessTable (Fin 3)) (xs : _) (blocker : WaitpidBlocker (Fin 3)),
      (processTableSystem (Fin 3)).init s₀ ∧ (processTableSystem (Fin 3)).Run s₀ xs s ∧
      Evaluates s (.testBlocker 1) 1 false blocker ∧
      Yields (Event.testBlocker 1).run s fun _ t => Gives s t 1 false (s.waitAnswer 1 blocker) := by
  have hplay : ([.createKernelProcess 0 1, .register 0, .generatePid 1, .assignPid 1, .fork 1 2, .generatePid 1,
      .register 1, .exit 2 (some 256), .die 2, .waitpid 1 (-1) false].foldlM next (initial (0 : Fin 3))).any (fun s =>
        s.pc 1 = .waitpid false { paramPid := -1, currentPid := 1, currentPgid := 1 } ∧
        s.firstDead (s.targets { paramPid := -1, currentPid := 1, currentPgid := 1 }) = some 2 ∧
        s.ppid 2 = s.pid 1) = true := by
    decide +kernel
  obtain ⟨s, hs, hafter⟩ := (Option.any_eq_true _ _).1 hplay
  obtain ⟨hpc, hdead, hchild⟩ := of_decide_eq_true hafter
  obtain ⟨hinit, xs, run⟩ := run_of_play hs
  refine ⟨_, s, xs, _, hinit, run, .first hpc, (waitpid_answers_iff hinit run (.first hpc)).2 ?_⟩
  rw [MeetsAnswer, hdead]
  exact hchild

end Runs

end ProcessTable

end Chaotix
