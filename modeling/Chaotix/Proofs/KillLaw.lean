/-
Module: Chaotix.Proofs.KillLaw
Layer: Proofs
Purpose: What `kill` promises: it returns, an error changes nothing, and otherwise the signal is posted to exactly the
  processes that the number selects. The range check of `send_signal` lets through the number 0, which has no
  disposition, and the signals that stop or continue a process, whose dispositions are not implemented, so the promise
  is kept by the calls that select nobody or whose signal is any other one.
Imports: Chaotix.Kernel.Signals
Trusted boundary: none
Main exports: Selected, PostedTo, KillLaw, SignalTableOk, handleLoop_spec, sendSignal_spec, sendSignalToEach_spec,
  kill_law_iff, kill_law_breaks
-/
import Chaotix.Kernel.Signals

open Program

namespace Chaotix

/-! ### Dispositions -/

/-- The signal ends a process by default. -/
def Fatal (signum : Int) : Prop :=
  getDefaultDispositionForSignal signum = some .TERM ∨ getDefaultDispositionForSignal signum = some .CORE

/-- The signal is one that the kernel can act on. -/
def Implemented (signum : Int) : Prop := Fatal signum ∨ getDefaultDispositionForSignal signum = some .IGN

instance (signum : Int) : Decidable (Fatal signum) := inferInstanceAs (Decidable (_ ∨ _))

instance (signum : Int) : Decidable (Implemented signum) := inferInstanceAs (Decidable (_ ∨ _))

/-- Only the numbers of signals have a disposition. -/
theorem signum_of_disposition {signum : Int} {disp : Disposition}
    (h : getDefaultDispositionForSignal signum = some disp) : 0 < signum ∧ signum < NSIG := by
  have hall : ∀ l : List Int, (l.all fun x => 0 < x ∧ x < NSIG) = true → signum ∈ l → 0 < signum ∧ signum < NSIG := by
    intro l hl hmem
    simpa using List.all_eq_true.1 hl signum hmem
  unfold getDefaultDispositionForSignal at h
  split at h
  · exact hall _ rfl ‹_›
  · split at h
    · exact hall _ rfl ‹_›
    · split at h
      · exact hall _ rfl ‹_›
      · split at h
        · exact hall _ rfl ‹_›
        · split at h
          · rename_i hcont
            rw [hcont]
            decide
          · cases h

theorem Implemented.signum {signum : Int} (h : Implemented signum) : 0 < signum ∧ signum < NSIG := by
  rcases h with (h | h) | h
  · exact signum_of_disposition h
  · exact signum_of_disposition h
  · exact signum_of_disposition h

/-! ### The law -/

section Law

variable {P : Type}

/-- The processes that the first argument of `kill` selects: one, a group, or all but the first. -/
def Selected (s : SignalTable P) (pid : Int) (p : P) : Prop :=
  p ∈ s.allProcesses ∧
    if 0 < pid then s.pid p = pid
    else if pid = 0 then s.pgid p = s.pgid s.current
    else if pid = -1 then 1 < s.pid p
    else s.pgid p = -pid

/-- Neither the pending signals nor the state of a process have changed. -/
def Untouched (s : SignalTable P) (p : P) (t : SignalTable P) : Prop :=
  t.pendingSignals p = s.pendingSignals p ∧ t.state p = s.state p

/-- The signal was posted to a process: it is pending, or the current process has already died of it. An ignored signal
    is dropped. -/
def PostedTo [DecidableEq P] (s : SignalTable P) (signum : Int) (p : P) (t : SignalTable P) : Prop :=
  if Fatal signum then
    if p = s.current then t.pendingSignals p = 0 ∧ t.state p = .DYING
    else t.pendingSignals p = s.pendingSignals p ||| signalBit signum ∧ t.state p = s.state p
  else Untouched s p t

/-- An error changes no process; otherwise the signal was posted to the selected processes and to no others. -/
structure KillLaw [DecidableEq P] (s : SignalTable P) (pid sig : Int) (result : Except Errno Unit) (t : SignalTable P) : Prop where
  failed : ∀ e, result = .error e → ∀ p, Untouched s p t
  posted : result = .ok () → ∀ p, Selected s pid p → PostedTo s sig p t
  others : result = .ok () → ∀ p, ¬Selected s pid p → Untouched s p t

/-- The calls that select nobody, whose number is no signal, or whose signal the kernel can act on. -/
def Harmless (s : SignalTable P) (pid sig : Int) : Prop :=
  (¬∃ p, Selected s pid p) ∨ (sig < 0 ∨ NSIG ≤ sig) ∨ Implemented sig

/-- What the kernel keeps true of its processes between calls. -/
structure SignalTableOk (s : SignalTable P) : Prop where
  nodup : s.allProcesses.Nodup
  pids : ∀ p ∈ s.allProcesses, ∀ q ∈ s.allProcesses, 0 < s.pid p → s.pid p = s.pid q → p = q
  pid_bounds : ∀ p, 0 ≤ s.pid p ∧ s.pid p < s.nextPid
  nextPid : s.nextPid ≤ 2 ^ 31
  pgid : ∀ p, 0 ≤ s.pgid p ∧ s.pgid p < 2 ^ 31
  pending : ∀ p k, (s.pendingSignals p).getLsbD k = true → Fatal k

end Law

/-! ### Signals of one process -/

section Frame

variable {P : Type} {s t u : SignalTable P} {p : P}

/-- Nothing but the signals, the state and the exit status of one process has changed. -/
structure OnlyAt (p : P) (s t : SignalTable P) : Prop where
  allProcesses : t.allProcesses = s.allProcesses
  current : t.current = s.current
  pid : t.pid = s.pid
  pgid : t.pgid = s.pgid
  nextPid : t.nextPid = s.nextPid
  others : ∀ q, q ≠ p → Untouched s q t

theorem Untouched.refl (p : P) (s : SignalTable P) : Untouched s p s := ⟨rfl, rfl⟩

theorem Untouched.trans (h : Untouched s p t) (h' : Untouched t p u) : Untouched s p u :=
  ⟨h'.1.trans h.1, h'.2.trans h.2⟩

theorem OnlyAt.refl (p : P) (s : SignalTable P) : OnlyAt p s s :=
  ⟨rfl, rfl, rfl, rfl, rfl, fun q _ => .refl q s⟩

theorem OnlyAt.trans (h : OnlyAt p s t) (h' : OnlyAt p t u) : OnlyAt p s u where
  allProcesses := h'.allProcesses.trans h.allProcesses
  current := h'.current.trans h.current
  pid := h'.pid.trans h.pid
  pgid := h'.pgid.trans h.pgid
  nextPid := h'.nextPid.trans h.nextPid
  others q hq := Untouched.trans (h.others q hq) (h'.others q hq)

theorem PostedTo.of_untouched_after [DecidableEq P] {signum : Int} (h : PostedTo s signum p t) (h' : Untouched t p u) :
    PostedTo s signum p u := by
  unfold PostedTo at h ⊢
  rw [h'.1, h'.2]
  split
  · rename_i hfatal
    rwa [if_pos hfatal] at h
  · rename_i hfatal
    rw [if_neg hfatal] at h
    exact Untouched.trans h h'

theorem PostedTo.of_untouched_before [DecidableEq P] {signum : Int} (h : PostedTo t signum p u)
    (hcur : t.current = s.current) (h' : Untouched s p t) : PostedTo s signum p u := by
  unfold PostedTo at h ⊢
  rw [hcur, h'.1, h'.2] at h
  split
  · rename_i hfatal
    rwa [if_pos hfatal] at h
  · rename_i hfatal
    rw [if_neg hfatal] at h
    exact Untouched.trans h' h

end Frame

namespace SignalTable

section Spec

variable {P : Type} [DecidableEq P] {s t u : SignalTable P} {signum : Int}

omit [DecidableEq P] in
theorem disposition_of_eq {disp : Disposition} (h : getDefaultDispositionForSignal signum = some disp) :
    disposition signum s = .ok (disp, s) := by
  unfold disposition
  rw [h]
  rfl

theorem getLsbD_signalBit {k l : Nat} (hl : l < 32) : (signalBit (k : Int)).getLsbD l = decide (l = k) :=
  BitSet.getLsbD_mask hl

/-- A set of pending signals without one below `k` has a lowest one. -/
theorem exists_lowest {word : BitVec 32} {k : Nat} (hne : word ≠ 0) (hlow : ∀ l < k, word.getLsbD l = false) :
    ∃ b, BitSet.lowestBit word = some b ∧ b < 32 ∧ k ≤ b ∧ word.getLsbD b = true ∧
      ∀ l < b, word.getLsbD l = false := by
  cases hfind : BitSet.lowestBit word with
  | none =>
      have hzero : word = 0 := by
        apply BitVec.eq_of_getLsbD_eq
        intro l hl
        rw [BitSet.lowestBit_eq_none hfind hl]
        simp
      exact absurd hzero hne
  | some b =>
      obtain ⟨hb, hbit⟩ := BitSet.lowestBit_eq_some hfind
      have hk : k ≤ b := by
        by_contra hlt
        rw [hlow b (Nat.lt_of_not_le hlt)] at hbit
        cases hbit
      have hfirst : ∀ l < b, word.getLsbD l = false := by
        intro l hl
        have hnot := (List.find?_range_eq_some.1 hfind).2.2 l hl
        simpa using hnot
      exact ⟨b, rfl, hb, hk, hbit, hfirst⟩

/-- Clearing the lowest signal leaves none up to it, and adds none. -/
theorem getLsbD_clear (word : BitVec 32) {b l : Nat} (hl : l < 32) :
    (word &&& ~~~signalBit (b : Int)).getLsbD l = (word.getLsbD l && decide (l ≠ b)) := by
  rw [BitVec.getLsbD_and, BitVec.getLsbD_not, getLsbD_signalBit hl]
  simp [hl]

/-- The current process after it has died of a pending signal. -/
def afterRound (s : SignalTable P) (b : Nat) : SignalTable P :=
  { s with
    pendingSignals := Function.update s.pendingSignals s.current (s.pendingSignals s.current &&& ~~~signalBit (b : Int))
    exitStatus := Function.update s.exitStatus s.current ((b : Int) % 256)
    state := Function.update s.state s.current .DYING }

theorem onlyAt_afterRound (s : SignalTable P) (b : Nat) : OnlyAt s.current s (afterRound s b) := by
  refine ⟨rfl, rfl, rfl, rfl, rfl, fun q hq => ⟨?_, ?_⟩⟩
  · exact Function.update_of_ne hq _ _
  · exact Function.update_of_ne hq _ _

theorem handleLoop_zero {n : Nat} (h : s.pendingSignals s.current = 0) : handleLoop (n + 1) s = .ok ((), s) := by
  simp [handleLoop, h]

/-- One round: the lowest pending signal is taken out, and the process dies of it. -/
theorem handleLoop_round {n b : Nat} (hne : s.pendingSignals s.current ≠ 0)
    (hlowest : BitSet.lowestBit (s.pendingSignals s.current) = some b) (hfatal : Fatal b) :
    handleLoop (n + 1) s = handleLoop n (afterRound s b) := by
  have hffs : builtinFfs (s.pendingSignals s.current) = b + 1 := by
    unfold builtinFfs
    rw [hlowest]
  have hsome : ¬s.pendingSignals s.current = 0#32 := hne
  rw [handleLoop]
  rcases hfatal with hdisp | hdisp
  · simp [hsome, hffs, assert, disposition, hdisp, terminateWithSignal, afterRound]
  · simp [hsome, hffs, assert, disposition, hdisp, terminateWithSignal, afterRound]

/-- The loop empties the pending signals of the current process, which dies if there were any. -/
theorem handleLoop_spec {n k : Nat} (hn : 33 ≤ n + k) (hk : k ≤ 32)
    (hfatal : ∀ l, (s.pendingSignals s.current).getLsbD l = true → Fatal l)
    (hlow : ∀ l < k, (s.pendingSignals s.current).getLsbD l = false) :
    Yields (handleLoop n) s fun _ t =>
      OnlyAt s.current s t ∧ t.pendingSignals s.current = 0 ∧
        t.state s.current = if s.pendingSignals s.current = 0 then s.state s.current else .DYING := by
  induction n generalizing s k with
  | zero => omega
  | succ n ih =>
      by_cases hzero : s.pendingSignals s.current = 0
      · rw [Yields, handleLoop_zero hzero, if_pos hzero]
        exact ⟨.refl _ s, hzero, rfl⟩
      · obtain ⟨b, hlowest, hb, hkb, hbit, hfirst⟩ := exists_lowest hzero hlow
        have hpending : (afterRound s b).pendingSignals s.current =
            s.pendingSignals s.current &&& ~~~signalBit (b : Int) := Function.update_self ..
        have hstate : (afterRound s b).state s.current = .DYING := Function.update_self ..
        have hkept : ∀ l, ((afterRound s b).pendingSignals s.current).getLsbD l = true →
            (s.pendingSignals s.current).getLsbD l = true ∧ l ≠ b := by
          intro l hl
          have hlt : l < 32 := BitVec.lt_of_getLsbD hl
          rw [hpending, getLsbD_clear _ hlt] at hl
          simpa using hl
        have hrest := ih (s := afterRound s b) (k := b + 1) (by omega) (by omega)
          (fun l hl => hfatal l (hkept l hl).1) ?_
        · rw [Yields, handleLoop_round hzero hlowest (hfatal b hbit), if_neg hzero]
          apply hrest.mono
          rintro _ t ⟨honly, hnone, hdying⟩
          refine ⟨(onlyAt_afterRound s b).trans honly, hnone, ?_⟩
          rw [show (afterRound s b).current = s.current from rfl, hstate, ite_self] at hdying
          exact hdying
        · intro l hl
          cases hset : ((afterRound s b).pendingSignals s.current).getLsbD l with
          | false => exact hset
          | true =>
              obtain ⟨hold, hne⟩ := hkept l hset
              rw [hfirst l (by omega)] at hold
              cases hold

/-- A process is left with its pending signals handled. -/
theorem processHandlePendingSignals_spec
    (hfatal : ∀ l, (s.pendingSignals s.current).getLsbD l = true → Fatal l) :
    Yields processHandlePendingSignals s fun _ t =>
      OnlyAt s.current s t ∧ t.pendingSignals s.current = 0 ∧
        t.state s.current = if s.pendingSignals s.current = 0 then s.state s.current else .DYING :=
  handleLoop_spec (k := 0) (by omega) (by omega) hfatal fun l hl => absurd hl (Nat.not_lt_zero l)

/-! ### Sending -/

/-- A number out of range is an error. -/
theorem sendSignal_range (p : P) (h : signum < 0 ∨ NSIG ≤ signum) : sendSignal p signum s = .ok (.error .EINVAL, s) := by
  simp only [sendSignal, if_pos h]
  rfl

/-- A number in range that the kernel cannot act on is a panic. -/
theorem sendSignal_panics (p : P) (h : ¬(signum < 0 ∨ NSIG ≤ signum)) (himpl : ¬Implemented signum) :
    sendSignal p signum s = .error .panic := by
  simp only [sendSignal, if_neg h]
  cases hdisp : getDefaultDispositionForSignal signum with
  | none => simp [disposition, hdisp]
  | some disp =>
      cases disp with
      | TERM => exact absurd (.inl (.inl hdisp)) himpl
      | CORE => exact absurd (.inl (.inr hdisp)) himpl
      | IGN => exact absurd (.inr hdisp) himpl
      | STOP => simp [disposition, hdisp]
      | CONT => simp [disposition, hdisp]

/-- The bits of a signal that has been added. -/
theorem getLsbD_posted (hsig : 0 ≤ signum) {word : BitVec 32} {l : Nat}
    (hl : (word ||| signalBit signum).getLsbD l = true) : word.getLsbD l = true ∨ (l : Int) = signum := by
  have hlt : l < 32 := BitVec.lt_of_getLsbD hl
  have hcast : signum = (signum.toNat : Int) := (Int.toNat_of_nonneg hsig).symm
  rw [BitVec.getLsbD_or, hcast, getLsbD_signalBit hlt, Bool.or_eq_true, decide_eq_true_eq] at hl
  rcases hl with hold | hnew
  · exact .inl hold
  · exact .inr (by omega)

theorem posted_ne_zero (hsig : 0 ≤ signum) (hrange : signum < 32) (word : BitVec 32) :
    word ||| signalBit signum ≠ 0 := by
  intro hzero
  have hlt : signum.toNat < 32 := by omega
  have hbit : (signalBit signum).getLsbD signum.toNat = true := by
    rw [show signalBit signum = signalBit (signum.toNat : Int) by rw [Int.toNat_of_nonneg hsig], getLsbD_signalBit hlt]
    exact decide_eq_true rfl
  have hor := congrArg (fun w => BitVec.getLsbD w signum.toNat) hzero
  simp [hbit] at hor

/-- The signal is pending at a process. -/
def addPending (s : SignalTable P) (p : P) (signum : Int) : SignalTable P :=
  { s with pendingSignals := Function.update s.pendingSignals p (s.pendingSignals p ||| signalBit signum) }

theorem onlyAt_addPending (s : SignalTable P) (p : P) (signum : Int) : OnlyAt p s (addPending s p signum) :=
  ⟨rfl, rfl, rfl, rfl, rfl, fun _ hq => ⟨Function.update_of_ne hq _ _, rfl⟩⟩

theorem sendSignal_fatal (p : P) (h : Fatal signum) :
    sendSignal p signum s =
      (if p = s.current then (do processHandlePendingSignals; return .ok ()) else return .ok () :
        Kernel (SignalTable P) (Except Errno Unit)) (addPending s p signum) := by
  have hrange : ¬(signum < 0 ∨ NSIG ≤ signum) := by
    have hsignum := Implemented.signum (.inl h)
    omega
  simp only [sendSignal, if_neg hrange]
  rcases h with hdisp | hdisp
  · simp only [disposition, hdisp, run_bind]
    rfl
  · simp only [disposition, hdisp, run_bind]
    rfl

/-- A signal that the kernel can act on is posted to the process. -/
theorem sendSignal_spec (p : P) (h : Implemented signum)
    (hpending : ∀ k, (s.pendingSignals p).getLsbD k = true → Fatal k) :
    Yields (sendSignal p signum) s fun r t => r = .ok () ∧ OnlyAt p s t ∧ PostedTo s signum p t := by
  have hsignum : 0 < signum ∧ signum < 32 := h.signum
  by_cases hfatal : Fatal signum
  · simp only [PostedTo, if_pos hfatal]
    rw [Yields, sendSignal_fatal p hfatal]
    have hadded : (addPending s p signum).pendingSignals p = s.pendingSignals p ||| signalBit signum :=
      Function.update_self ..
    by_cases hcur : p = s.current
    · subst hcur
      have hall : ∀ k, ((addPending s s.current signum).pendingSignals s.current).getLsbD k = true → Fatal k := by
        intro k hk
        rw [hadded] at hk
        rcases getLsbD_posted hsignum.1.le hk with hold | rfl
        · exact hpending k hold
        · exact hfatal
      simp only [if_true]
      change Yields _ (addPending s s.current signum) _
      rw [yields_bind]
      apply (processHandlePendingSignals_spec (s := addPending s s.current signum) hall).mono
      rintro _ t ⟨honly, hnone, hstate⟩
      refine ⟨rfl, (onlyAt_addPending s _ signum).trans honly, hnone, hstate.trans (if_neg ?_)⟩
      rw [show (addPending s s.current signum).current = s.current from rfl, hadded]
      exact posted_ne_zero hsignum.1.le hsignum.2 _
    · simp only [if_neg hcur]
      exact ⟨rfl, onlyAt_addPending s p signum, hadded, rfl⟩
  · simp only [PostedTo, if_neg hfatal]
    have hignored : getDefaultDispositionForSignal signum = some .IGN := h.resolve_left hfatal
    have hrange : ¬(signum < 0 ∨ NSIG ≤ signum) := by
      have hlt := h.signum
      omega
    have hsend : sendSignal p signum s = .ok (.ok (), s) := by
      simp [sendSignal, if_neg hrange, disposition, hignored]
    exact yields_of_return hsend ⟨rfl, .refl p s, .refl p s⟩

/-- Posting adds no signal but the one that is posted. -/
theorem fatal_of_postedTo {p : P} (h : PostedTo s signum p t) (himpl : Implemented signum)
    (hpending : ∀ k, (s.pendingSignals p).getLsbD k = true → Fatal k) :
    ∀ k, (t.pendingSignals p).getLsbD k = true → Fatal k := by
  intro k hk
  unfold PostedTo at h
  split at h
  · rename_i hfatal
    split at h
    · rw [h.1] at hk
      simp at hk
    · rw [h.1] at hk
      rcases getLsbD_posted himpl.signum.1.le hk with hold | rfl
      · exact hpending k hold
      · exact hfatal
  · rw [h.1] at hk
    exact hpending k hk

/-! ### The walk over the list -/

section Walk

variable {select : SignalTable P → P → Bool} {l : List P}

/-- A walk that selects nobody changes nothing. -/
theorem sendSignalToEach_none (hnone : ∀ p ∈ l, select s p = false) :
    sendSignalToEach select signum l s = .ok (.ok (), s) := by
  induction l with
  | nil => rfl
  | cons it next ih =>
      have hit := hnone it List.mem_cons_self
      simp [sendSignalToEach, hit, ih fun p hp => hnone p (List.mem_cons_of_mem it hp)]

/-- A walk that selects somebody ends there when nothing can be sent. -/
theorem sendSignalToEach_panics (hsome : ∃ p ∈ l, select s p = true)
    (hsend : ∀ p, sendSignal p signum s = .error .panic) :
    sendSignalToEach select signum l s = .error .panic := by
  induction l with
  | nil => simp at hsome
  | cons it next ih =>
      cases hit : select s it with
      | true => simp [sendSignalToEach, hit, hsend]
      | false =>
          have hrest : ∃ p ∈ next, select s p = true := by
            obtain ⟨p, hp, hsel⟩ := hsome
            rcases List.mem_cons.1 hp with rfl | hp
            · rw [hit] at hsel
              cases hsel
            · exact ⟨p, hp, hsel⟩
          simp [sendSignalToEach, hit, ih hrest]

/-- A walk with a number out of range changes nothing, and it is an error when somebody is selected. -/
theorem sendSignalToEach_range (h : signum < 0 ∨ NSIG ≤ signum) :
    sendSignalToEach select signum l s =
      .ok (if ∃ p ∈ l, select s p = true then .error .EINVAL else .ok (), s) := by
  induction l with
  | nil => rfl
  | cons it next ih =>
      cases hit : select s it with
      | true => simp [sendSignalToEach, hit, sendSignal_range it h]
      | false => simp [sendSignalToEach, hit, ih]

/-- A walk with a signal that the kernel can act on posts it to those it selects, once each. -/
theorem sendSignalToEach_spec (h : Implemented signum) (hnodup : l.Nodup)
    (hselect : ∀ t, t.pid = s.pid → t.pgid = s.pgid → select t = select s)
    (hpending : ∀ p k, (s.pendingSignals p).getLsbD k = true → Fatal k) :
    Yields (sendSignalToEach select signum l) s fun r t =>
      r = .ok () ∧
        (∀ p ∈ l, select s p = true → PostedTo s signum p t) ∧
        ∀ p, ¬(p ∈ l ∧ select s p = true) → Untouched s p t := by
  induction l generalizing s with
  | nil => exact ⟨rfl, nofun, fun p _ => .refl p s⟩
  | cons it next ih =>
      obtain ⟨hit, hnext⟩ := List.nodup_cons.1 hnodup
      rw [sendSignalToEach, yields_bind, yields_get]
      cases hsel : select s it with
      | false =>
          apply (ih hnext hselect hpending).mono
          rintro r t ⟨hr, hposted, hothers⟩
          refine ⟨hr, ?_, ?_⟩
          · intro p hp hp'
            rcases List.mem_cons.1 hp with rfl | hp
            · rw [hsel] at hp'
              cases hp'
            · exact hposted p hp hp'
          · intro p hp
            exact hothers p fun h => hp ⟨List.mem_cons_of_mem it h.1, h.2⟩
      | true =>
          simp only [if_true]
          rw [yields_bind]
          apply (sendSignal_spec it h (hpending it)).mono
          rintro _ u ⟨rfl, honly, hit'⟩
          have hsame : select u = select s := hselect u honly.pid honly.pgid
          have hkept : ∀ p k, (u.pendingSignals p).getLsbD k = true → Fatal k := by
            intro p
            by_cases hp : p = it
            · subst hp
              exact fatal_of_postedTo hit' h (hpending p)
            · rw [(honly.others p hp).1]
              exact hpending p
          apply (ih hnext (fun t ht ht' => (hselect t (ht.trans honly.pid) (ht'.trans honly.pgid)).trans hsame.symm)
            hkept).mono
          rintro r t ⟨hr, hposted, hothers⟩
          rw [hsame] at hposted hothers
          refine ⟨hr, ?_, ?_⟩
          · intro p hp hp'
            rcases List.mem_cons.1 hp with rfl | hp
            · exact hit'.of_untouched_after (hothers p fun h => hit h.1)
            · have hne : p ≠ it := fun h => hit (h ▸ hp)
              exact (hposted p hp hp').of_untouched_before honly.current (honly.others p hne)
          · intro p hp
            have hne : p ≠ it := fun h => hp ⟨h ▸ List.mem_cons_self, h ▸ hsel⟩
            exact (honly.others p hne).trans (hothers p fun h => hp ⟨List.mem_cons_of_mem it h.1, h.2⟩)

end Walk

/-! ### The calls -/

section Calls

variable {pid : Int}

/-- A call that changes nothing keeps the law when it is an error or selects nobody. -/
theorem killLaw_unchanged {r : Except Errno Unit} (h : r = .ok () → ¬∃ p, Selected s pid p) :
    KillLaw s pid signum r s where
  failed _ _ p := .refl p s
  posted hr p hp := absurd ⟨p, hp⟩ (h hr)
  others _ p _ := .refl p s

/-- A walk that selects the right processes keeps the law exactly when the call is harmless. -/
theorem sendSignalToEach_law {select : SignalTable P → P → Bool} (hok : SignalTableOk s)
    (hselect : ∀ t, t.pid = s.pid → t.pgid = s.pgid → select t = select s)
    (hselected : ∀ p, Selected s pid p ↔ p ∈ s.allProcesses ∧ select s p = true) :
    Yields (sendSignalToEach select signum s.allProcesses) s (KillLaw s pid signum) ↔ Harmless s pid signum := by
  have hsome : (∃ p, Selected s pid p) ↔ ∃ p ∈ s.allProcesses, select s p = true := exists_congr hselected
  by_cases hrange : signum < 0 ∨ NSIG ≤ signum
  · refine iff_of_true (yields_of_return (sendSignalToEach_range hrange) ?_) (.inr (.inl hrange))
    apply killLaw_unchanged
    intro hr hex
    rw [if_pos (hsome.1 hex)] at hr
    cases hr
  · by_cases himpl : Implemented signum
    · refine iff_of_true ?_ (.inr (.inr himpl))
      apply (sendSignalToEach_spec himpl hok.nodup hselect hok.pending).mono
      rintro _ t ⟨rfl, hposted, hothers⟩
      refine ⟨nofun, fun _ p hp => ?_, fun _ p hp => ?_⟩
      · exact hposted p ((hselected p).1 hp).1 ((hselected p).1 hp).2
      · exact hothers p fun h => hp ((hselected p).2 h)
    · by_cases hex : ∃ p, Selected s pid p
      · refine iff_of_false ?_ ?_
        · rw [Yields, sendSignalToEach_panics (hsome.1 hex) fun p => sendSignal_panics p hrange himpl]
          exact id
        · rintro (hnone | hbad | hbad)
          · exact hnone hex
          · exact hrange hbad
          · exact himpl hbad
      · refine iff_of_true (yields_of_return (sendSignalToEach_none ?_) (killLaw_unchanged fun _ => hex)) (.inl hex)
        intro p hp
        by_contra hsel
        exact hex (hsome.2 ⟨p, hp, by simpa using hsel⟩)

/-- `kill` of one process keeps the law exactly when it is harmless. -/
theorem processSendSignalToOne_law (hok : SignalTableOk s) (hpid : 0 < pid) :
    Yields (processSendSignalToOne pid signum) s (KillLaw s pid signum) ↔ Harmless s pid signum := by
  have hselected : ∀ p, Selected s pid p ↔ p ∈ s.allProcesses ∧ s.pid p = pid := by
    intro p
    rw [Selected, if_pos hpid]
  unfold processSendSignalToOne
  rw [yields_bind, yields_get]
  cases hfind : s.allProcesses.find? (fun it => s.pid it = pid) with
  | none =>
      have hnone : ¬∃ p, Selected s pid p := by
        rintro ⟨p, hp⟩
        have hne := List.find?_eq_none.1 hfind p ((hselected p).1 hp).1
        simp [((hselected p).1 hp).2] at hne
      exact iff_of_true (killLaw_unchanged nofun) (.inl hnone)
  | some process =>
      have hmem := List.mem_of_find?_eq_some hfind
      have heq : s.pid process = pid := by simpa using List.find?_some hfind
      have honly : ∀ p, Selected s pid p ↔ p = process := by
        intro p
        rw [hselected]
        constructor
        · rintro ⟨hp, hp'⟩
          exact hok.pids p hp process hmem (hp'.symm ▸ hpid) (hp'.trans heq.symm)
        · rintro rfl
          exact ⟨hmem, heq⟩
      by_cases hrange : signum < 0 ∨ NSIG ≤ signum
      · exact iff_of_true (yields_of_return (sendSignal_range process hrange) (killLaw_unchanged nofun))
          (.inr (.inl hrange))
      · by_cases himpl : Implemented signum
        · refine iff_of_true ?_ (.inr (.inr himpl))
          apply (sendSignal_spec process himpl (hok.pending process)).mono
          rintro _ t ⟨rfl, hat, hposted⟩
          refine ⟨nofun, fun _ p hp => ?_, fun _ p hp => ?_⟩
          · rwa [(honly p).1 hp]
          · exact hat.others p fun h => hp ((honly p).2 h)
        · refine iff_of_false ?_ ?_
          · dsimp only
            rw [Yields, sendSignal_panics process hrange himpl]
            exact id
          · rintro (hnone | hbad | hbad)
            · exact hnone ⟨process, (honly process).2 rfl⟩
            · exact hrange hbad
            · exact himpl hbad

/-- `kill` keeps the law exactly when it is harmless. -/
theorem sysKill_law (hok : SignalTableOk s) (hpid : IsOff pid) :
    Yields (sysKill pid signum) s (KillLaw s pid signum) ↔ Harmless s pid signum := by
  unfold sysKill
  split
  · rename_i hpos
    exact processSendSignalToOne_law hok hpos
  · rename_i hpos
    split
    · rename_i hzero
      rw [yields_bind, yields_get, processSendSignalToGroup, yields_bind, yields_get]
      apply sendSignalToEach_law hok
      · intro t _ hpgid
        rw [hpgid]
      · intro p
        simp [Selected, hzero]
    · rename_i hzero
      split
      · rename_i hall
        rw [processSendSignalToAll, yields_bind, yields_get]
        apply sendSignalToEach_law hok
        · intro t hpid _
          rw [hpid]
        · intro p
          simp [Selected, hall]
      · rename_i hall
        have hgroup : ∀ p, s.pgid p = toOff (-pid) ↔ s.pgid p = -pid := by
          intro p
          have hbounds := hok.pgid p
          simp only [IsOff, toOff] at hpid ⊢
          omega
        rw [processSendSignalToGroup, yields_bind, yields_get]
        apply sendSignalToEach_law hok
        · intro t _ hpgid
          rw [hpgid]
        · intro p
          simp [Selected, hpos, hzero, hall, hgroup]

end Calls

/-! ### What every call and every switch keep -/

/-- The frame of a call: only the signals, the states and the exit statuses have changed. -/
structure SameProcesses (s t : SignalTable P) : Prop where
  allProcesses : t.allProcesses = s.allProcesses
  pid : t.pid = s.pid
  pgid : t.pgid = s.pgid
  nextPid : t.nextPid = s.nextPid

omit [DecidableEq P] in
theorem SameProcesses.signalTableOk (h : SameProcesses s t) (hok : SignalTableOk s)
    (hpending : ∀ p k, (t.pendingSignals p).getLsbD k = true → Fatal k) : SignalTableOk t where
  nodup := h.allProcesses ▸ hok.nodup
  pids := h.allProcesses ▸ h.pid ▸ hok.pids
  pid_bounds := h.pid ▸ h.nextPid ▸ hok.pid_bounds
  nextPid := h.nextPid ▸ hok.nextPid
  pgid := h.pgid ▸ hok.pgid
  pending := hpending

/-- What returns leaves a table in order. -/
def KeepsOrder {α : Type} (m : Kernel (SignalTable P) α) : Prop :=
  ∀ s, SignalTableOk s → Ensures m s fun _ t => SignalTableOk t

theorem sendSignal_order (p : P) (signum : Int) : KeepsOrder (sendSignal p signum) := by
  intro s hok
  by_cases hrange : signum < 0 ∨ NSIG ≤ signum
  · rw [Ensures, sendSignal_range p hrange]
    exact hok
  · by_cases himpl : Implemented signum
    · apply (sendSignal_spec p himpl (hok.pending p)).ensures.mono
      rintro _ t ⟨rfl, honly, hposted⟩
      apply SameProcesses.signalTableOk ⟨honly.allProcesses, honly.pid, honly.pgid, honly.nextPid⟩ hok
      intro q
      by_cases hq : q = p
      · subst hq
        exact fatal_of_postedTo hposted himpl (hok.pending q)
      · rw [(honly.others q hq).1]
        exact hok.pending q
    · rw [Ensures, sendSignal_panics p hrange himpl]
      trivial

theorem sendSignalToEach_order (select : SignalTable P → P → Bool) (signum : Int) (l : List P) :
    KeepsOrder (sendSignalToEach select signum l) := by
  induction l with
  | nil => exact fun _ hok => hok
  | cons it next ih =>
      intro s hok
      rw [sendSignalToEach, ensures_bind, ensures_get]
      split
      · rw [ensures_bind]
        apply (sendSignal_order it signum s hok).mono
        intro r t ht
        cases r with
        | error e => exact ht
        | ok _ => exact ih t ht
      · exact ih s hok

theorem processSendSignalToGroup_order (pgid signum : Int) :
    KeepsOrder (processSendSignalToGroup (P := P) pgid signum) := by
  intro s hok
  rw [processSendSignalToGroup, ensures_bind, ensures_get]
  exact sendSignalToEach_order _ signum _ s hok

theorem sysKill_order (pid sig : Int) : KeepsOrder (sysKill (P := P) pid sig) := by
  intro s hok
  unfold sysKill
  split
  · unfold processSendSignalToOne
    rw [ensures_bind, ensures_get]
    split
    · exact hok
    · exact sendSignal_order _ sig s hok
  · split
    · rw [ensures_bind, ensures_get]
      exact processSendSignalToGroup_order _ sig s hok
    · split
      · rw [processSendSignalToAll, ensures_bind, ensures_get]
        exact sendSignalToEach_order _ sig _ s hok
      · exact processSendSignalToGroup_order _ sig s hok

theorem sysSetpgid_order {pgid : Int} (pid : Int) (hpgid : IsOff pgid) : KeepsOrder (sysSetpgid (P := P) pid pgid) := by
  intro s hok
  unfold sysSetpgid
  split
  · exact hok
  · rename_i hneg
    rw [ensures_bind, ensures_get]
    dsimp only
    split
    · exact hok
    · rename_i target hfind
      rw [ensures_bind, ensures_set]
      have htarget : s.pid target = if pid ≠ 0 then pid else s.pid s.current := by simpa using List.find?_some hfind
      have hbounds := hok.pid_bounds target
      have hnext := hok.nextPid
      have hoff : -2 ^ 31 ≤ pgid ∧ pgid < 2 ^ 31 := hpgid
      refine ⟨hok.nodup, hok.pids, hok.pid_bounds, hok.nextPid, fun p => ?_, hok.pending⟩
      change 0 ≤ Function.update s.pgid target _ p ∧ Function.update s.pgid target _ p < 2 ^ 31
      by_cases hp : p = target
      · rw [hp, Function.update_self, ← htarget]
        split <;> omega
      · rw [Function.update_of_ne hp]
        exact hok.pgid p

end Spec

end SignalTable

/-! ### Runs -/

section Runs

variable {P : Type} [DecidableEq P]

/-- A new process has a new number or none, and no pending signals. -/
theorem SignalTableOk.register {s : SignalTable P} (hok : SignalTableOk s) {process : P} {pid pgid n : Int}
    {prev next : List P} (hnew : process ∉ s.allProcesses) (hsplit : s.allProcesses = prev ++ next)
    (hpid : pid = 0 ∨ pid = s.nextPid) (hpgid : 0 ≤ pgid ∧ pgid < 2 ^ 31) (hn : s.nextPid ≤ n ∧ n ≤ 2 ^ 31)
    (hlt : 0 ≤ pid ∧ pid < n) :
    SignalTableOk { s.register process pid pgid (prev ++ process :: next) with nextPid := n } := by
  have hmem : ∀ p, p ∈ prev ++ process :: next ↔ p = process ∨ p ∈ s.allProcesses := by
    intro p
    rw [hsplit]
    simp only [List.mem_append, List.mem_cons]
    tauto
  have hold : ∀ p ∈ s.allProcesses, Function.update s.pid process pid p = s.pid p := fun p hp =>
    Function.update_of_ne (ne_of_mem_of_not_mem hp hnew) _ _
  have hself : Function.update s.pid process pid process = pid := Function.update_self ..
  constructor
  · have hperm : (prev ++ process :: next).Perm (process :: s.allProcesses) := hsplit ▸ List.perm_middle
    exact hperm.nodup_iff.2 (List.nodup_cons.2 ⟨hnew, hok.nodup⟩)
  · intro p hp q hq hpos heq
    change 0 < Function.update s.pid process pid p at hpos
    change Function.update s.pid process pid p = Function.update s.pid process pid q at heq
    rcases (hmem p).1 hp with hp' | hp
    · rcases (hmem q).1 hq with hq' | hq
      · exact hp'.trans hq'.symm
      · have hbounds := hok.pid_bounds q
        rw [hp', hself] at hpos heq
        rw [hold q hq] at heq
        omega
    · rcases (hmem q).1 hq with hq' | hq
      · have hbounds := hok.pid_bounds p
        rw [hold p hp] at hpos heq
        rw [hq', hself] at heq
        omega
      · rw [hold p hp] at hpos heq
        rw [hold q hq] at heq
        exact hok.pids p hp q hq hpos heq
  · intro p
    change 0 ≤ Function.update s.pid process pid p ∧ Function.update s.pid process pid p < n
    by_cases hp : p = process
    · rwa [hp, hself]
    · have hbounds := hok.pid_bounds p
      rw [Function.update_of_ne hp]
      omega
  · exact hn.2
  · intro p
    change 0 ≤ Function.update s.pgid process pgid p ∧ Function.update s.pgid process pgid p < 2 ^ 31
    by_cases hp : p = process
    · rwa [hp, Function.update_self]
    · rw [Function.update_of_ne hp]
      exact hok.pgid p
  · intro p k hk
    change (Function.update s.pendingSignals process 0 p).getLsbD k = true at hk
    by_cases hp : p = process
    · rw [hp, Function.update_self] at hk
      simp at hk
    · rw [Function.update_of_ne hp] at hk
      exact hok.pending p k hk

/-- The current process gets a new number. -/
theorem SignalTableOk.generate {s : SignalTable P} (hok : SignalTableOk s) (hlt : s.nextPid < 2 ^ 31)
    (hpos : 0 ≤ s.nextPid) :
    SignalTableOk { s with pid := Function.update s.pid s.current s.nextPid, nextPid := s.nextPid + 1 } := by
  refine ⟨hok.nodup, ?_, ?_, by simpa using hlt, hok.pgid, hok.pending⟩
  · intro p hp q hq hgt heq
    change 0 < Function.update s.pid s.current s.nextPid p at hgt
    change Function.update s.pid s.current s.nextPid p = Function.update s.pid s.current s.nextPid q at heq
    have hp' := hok.pid_bounds p
    have hq' := hok.pid_bounds q
    rw [Function.update_apply] at hgt heq
    rw [Function.update_apply] at heq
    split at heq
    · rename_i hcur
      split at heq
      · rename_i hcur'
        exact hcur.trans hcur'.symm
      · omega
    · rename_i hcur
      rw [if_neg hcur] at hgt
      split at heq
      · omega
      · exact hok.pids p hp q hq hgt heq
  · intro p
    change 0 ≤ Function.update s.pid s.current s.nextPid p ∧ Function.update s.pid s.current s.nextPid p < s.nextPid + 1
    have hp' := hok.pid_bounds p
    rw [Function.update_apply]
    split <;> omega

theorem signalTableOk_step {s s' : SignalTable P} {e : SignalEvent P} (hok : SignalTableOk s)
    (hstep : SignalStep s e s') : SignalTableOk s' := by
  have hpos : ∀ p, 0 ≤ s.pid p ∧ s.pid p < s.nextPid := hok.pid_bounds
  cases hstep with
  | kill pid sig result hpid hreturn => exact ensures_iff.1 (SignalTable.sysKill_order pid sig s hok) result s' hreturn
  | setpgid pid pgid result hpgid hreturn =>
      exact ensures_iff.1 (SignalTable.sysSetpgid_order pid hpgid s hok) result s' hreturn
  | interrupt pgid signum result hsignum hreturn =>
      exact ensures_iff.1 (SignalTable.processSendSignalToGroup_order pgid signum s hok) result s' hreturn
  | schedule process hreturn =>
      have hspec := SignalTable.processHandlePendingSignals_spec (s := { s with current := process })
        (hok.pending process)
      obtain ⟨honly, hnone, -⟩ := hspec.and_return hreturn
      refine SignalTable.SameProcesses.signalTableOk (s := s)
        ⟨honly.allProcesses, honly.pid, honly.pgid, honly.nextPid⟩ hok fun p => ?_
      by_cases hp : p = process
      · intro k hk
        change s'.pendingSignals process = 0 at hnone
        rw [hp, hnone] at hk
        simp at hk
      · rw [(honly.others p hp).1]
        exact hok.pending p
  | fork process prev next hlt hnew hsplit =>
      have hcur := hpos s.current
      exact hok.register hnew hsplit (.inr rfl) (hok.pgid _) ⟨by omega, by omega⟩ ⟨by omega, by omega⟩
  | spawn process prev next hnew hsplit =>
      have hcur := hpos s.current
      exact hok.register hnew hsplit (.inl rfl) ⟨by omega, by omega⟩ ⟨le_refl _, hok.nextPid⟩ ⟨le_refl _, by omega⟩
  | init hlt =>
      have hcur := hpos s.current
      exact hok.generate hlt (by omega)
  | remove process =>
      refine ⟨hok.nodup.erase process, fun p hp q hq => ?_, hok.pid_bounds, hok.nextPid, hok.pgid, hok.pending⟩
      exact hok.pids p (List.mem_of_mem_erase hp) q (List.mem_of_mem_erase hq)
  | changeState process state =>
      exact SignalTable.SameProcesses.signalTableOk (s := s) ⟨rfl, rfl, rfl, rfl⟩ hok hok.pending

/-- `kill` keeps its law exactly when it selects nobody or its number is no signal or one that the kernel can act on,
    and whatever has happened before, the processes are as the law expects them. -/
theorem kill_law_iff :
    (∀ (s : SignalTable P) pid sig, SignalTableOk s → IsOff pid → IsOff sig →
      (Yields (SignalTable.sysKill pid sig) s (KillLaw s pid sig) ↔ Harmless s pid sig)) ∧
    ∀ s xs t, (signalSystem P).init s → (signalSystem P).Run s xs t → SignalTableOk t := by
  constructor
  · exact fun s pid sig hok hpid _ => SignalTable.sysKill_law hok hpid
  · rintro s xs t ⟨hnone, hnext, hzero⟩ run
    have hstart : SignalTableOk s := by
      refine ⟨?_, ?_, fun p => ?_, ?_, fun p => ?_, fun p k hk => ?_⟩
      · rw [hnone]
        exact List.nodup_nil
      · rw [hnone]
        exact nofun
      · rw [(hzero p).1, hnext]
        exact ⟨le_refl _, Int.one_pos⟩
      · rw [hnext]
        decide
      · rw [(hzero p).2.1]
        exact ⟨le_refl _, by decide⟩
      · rw [(hzero p).2.2] at hk
        simp at hk
    exact run.invariant SignalTableOk (fun _ _ _ => signalTableOk_step) hstart

/-- The first process, and a second one with a child in its group; the second one runs. -/
def threeProcesses : SignalTable (Fin 3) where
  allProcesses := [0, 1, 2]
  current := 1
  pid p := p.val + 1
  pgid p := if p = 0 then 1 else 2
  state p := if p = 1 then .RUNNING else .BLOCKED
  pendingSignals _ := 0
  exitStatus _ := 0
  nextPid := 4

theorem signalTableOk_three : SignalTableOk threeProcesses := by
  refine ⟨by decide, by decide, by decide, by decide, by decide, fun p k hk => ?_⟩
  simp [threeProcesses] at hk

/-- Killing the own group, the caller included. -/
theorem kill_law_group :
    Yields (SignalTable.sysKill 0 SIGTERM) threeProcesses (KillLaw threeProcesses 0 SIGTERM) :=
  (kill_law_iff.1 threeProcesses 0 SIGTERM signalTableOk_three (by decide) (by decide)).2 (.inr (.inr (by decide)))

/-- `kill(pid, 0)` and `kill(pid, SIGSTOP)` of an existing process take the kernel down. -/
theorem kill_law_breaks :
    SignalTable.sysKill 3 0 threeProcesses = .error .panic ∧
      SignalTable.sysKill 3 SIGSTOP threeProcesses = .error .panic ∧
      ¬Yields (SignalTable.sysKill 3 0) threeProcesses (KillLaw threeProcesses 3 0) := by
  have hpanic : SignalTable.sysKill 3 0 threeProcesses = .error .panic := rfl
  refine ⟨hpanic, rfl, ?_⟩
  rw [Yields, hpanic]
  exact id

end Runs

end Chaotix
