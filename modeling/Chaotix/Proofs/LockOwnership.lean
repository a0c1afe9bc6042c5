/-
Module: Chaotix.Proofs.LockOwnership
Layer: Proofs
Purpose: Ownership of the recursive mutex over every run of any number of processes. The inductive
  invariant `LockInvariant` ties the fields of the mutex to the history of acquisitions and releases.
  It is kept by every step except two: a section of `mutex_unlock_if_locked` run by the holder, which
  keeps the holder of a free mutex or clears the holder of a held one, and a relock at the largest
  level, which wraps the counter. `mutex_ownership_iff` states that these two are the only ones.
Imports: Mathlib.Tactic, Chaotix.Kernel.Lock
Trusted boundary: none
Main exports: MutexOwnership, ReleaseHolds, MutexGuard, LockInvariant, lockInvariant_step,
  mutex_ownership_iff, unlockIfLocked_keeps_holder_of_free_mutex
-/
import Mathlib.Tactic
import Chaotix.Kernel.Lock

namespace Chaotix

variable {P : Type} [DecidableEq P]

/-! ### The ownership property -/

/-- Ownership in one state: the mutex has a holder exactly when its level is positive, at most one
    process owns it, the owner is the holder, and the level is what the owner has acquired and not yet
    given back. -/
structure MutexOwnership (s : LockState P) : Prop where
  holder_iff_level : s.mutex.holder ≠ none ↔ 0 < s.mutex.level
  one_owner : ∀ p q, s.Owns p → s.Owns q → p = q
  owner_holds : ∀ p, s.Owns p ↔ s.mutex.holder = some p
  level_eq : ∀ p, s.Owns p → s.mutex.level = s.acquired p - s.released p

/-- The mutex is free: nobody holds it and the section of `mutex_lock` succeeds for every process. -/
def Acquirable (m : Mutex P) : Prop :=
  m.holder = none ∧ ∀ q, (mutexLockSection q m).2 = .returns

/-- What a release does. A section of `mutex_unlock` or `mutex_unlock_if_locked` that succeeds for the
    owner at level `n` leaves level `n - 1`, with the same owner when that is positive and a free mutex
    otherwise; and `mutex_unlock_if_locked` answers `true` exactly when it released one level. -/
structure ReleaseHolds (s : LockState P) (e : LockEvent P) (s' : LockState P) : Prop where
  by_owner : ∀ p call outcome, e = .runSection p call outcome → call ≠ .lock → s.Owns p →
    outcome = .returns ∨ outcome = .returnsBool true ∨ ReleasesLevel call s.mutex s'.mutex →
      s'.mutex.level = s.mutex.level - 1 ∧
      if 0 < s.mutex.level - 1 then s'.mutex.holder = some p else Acquirable s'.mutex
  reports : ∀ p outcome, e = .runSection p .unlockIfLocked outcome →
    (outcome = .returnsBool true ↔ ReleasesLevel .unlockIfLocked s.mutex s'.mutex)

/-- The steps on which the code keeps the property: the section of `mutex_unlock_if_locked` is not run
    by the holder, and the holder does not lock again at the largest level. -/
def MutexGuard (s : LockState P) : LockEvent P → Prop
  | .runSection p .lock _ => s.mutex.holder = some p → s.mutex.level + 1 < 2 ^ 32
  | .runSection p .unlockIfLocked _ => s.mutex.holder ≠ some p
  | _ => True

/-! ### The inductive invariant -/

/-- The invariant: the history of every process against the mutex, and the callers of `mutex_unlock`
    hold what they release. -/
structure LockInvariant (s : LockState P) : Prop where
  holder_history : ∀ p, s.mutex.holder = some p →
    0 < s.mutex.level ∧ s.mutex.level + s.released p = s.acquired p
  other_history : ∀ p, s.mutex.holder ≠ some p → s.acquired p = s.released p
  free_level : s.mutex.holder = none → s.mutex.level = 0
  unlock_holds : ∀ p, s.pc p = .atCas .unlock ∨ s.pc p = .inSection .unlock →
    s.mutex.holder = some p

omit [DecidableEq P] in
theorem LockInvariant.owns_iff {s : LockState P} (inv : LockInvariant s) (p : P) :
    s.Owns p ↔ s.mutex.holder = some p := by
  unfold LockState.Owns
  constructor
  · intro howns
    by_contra hne
    have := inv.other_history p hne
    omega
  · intro hholds
    have := inv.holder_history p hholds
    omega

omit [DecidableEq P] in
/-- The invariant contains the ownership property. -/
theorem LockInvariant.ownership {s : LockState P} (inv : LockInvariant s) : MutexOwnership s where
  holder_iff_level := by
    constructor
    · intro hsome
      obtain ⟨p, hp⟩ := Option.ne_none_iff_exists'.1 hsome
      exact (inv.holder_history p hp).1
    · intro hlevel hnone
      have := inv.free_level hnone
      omega
  one_owner := by
    intro p q hp hq
    rw [inv.owns_iff] at hp hq
    exact Option.some.inj (hp.symm.trans hq)
  owner_holds := inv.owns_iff
  level_eq := by
    intro p hp
    have := inv.holder_history p ((inv.owns_iff p).1 hp)
    omega

omit [DecidableEq P] in
theorem lockInvariant_initial : LockInvariant (LockState.initial : LockState P) where
  holder_history := by simp [LockState.initial]
  other_history := by simp [LockState.initial]
  free_level := by simp [LockState.initial]
  unlock_holds := by simp [LockState.initial]

/-! ### What each section does to a mutex -/

theorem mutexLockSection_free {m : Mutex P} (p : P) (h : m.holder = none ∨ m.holder = some p) :
    mutexLockSection p m =
      ({ holder := some p, level := (m.level + 1) % 2 ^ 32, lock := false }, .returns) := by
  rw [mutexLockSection, if_pos h]

theorem mutexLockSection_held {m : Mutex P} (p : P) (h : ¬(m.holder = none ∨ m.holder = some p)) :
    mutexLockSection p m = ({ m with lock := false }, .retries) := by
  rw [mutexLockSection, if_neg h]

/-- For the holder at a positive level, `mutex_unlock` gives one level back. -/
theorem mutexUnlockSection_holder {m : Mutex P} {p : P} (hp : m.holder = some p)
    (hlevel : 0 < m.level) :
    mutexUnlockSection p m =
      ({ holder := if m.level - 1 = 0 then none else some p
         level := m.level - 1
         lock := false }, .returns) := by
  unfold mutexUnlockSection
  split_ifs with h1 h2 h3 <;> simp_all

/-- For any other process, `mutex_unlock_if_locked` changes nothing and answers `false`. -/
theorem mutexUnlockIfLockedSection_other {m : Mutex P} {p : P} (hp : m.holder ≠ some p) :
    mutexUnlockIfLockedSection p m = ({ m with lock := false }, .returnsBool false) := by
  unfold mutexUnlockIfLockedSection
  split_ifs <;> rfl

/-- For the holder, `mutex_unlock_if_locked` lowers the level but leaves the wrong holder behind, and
    its answer is the opposite of what it did. -/
theorem mutexUnlockIfLockedSection_holder {m : Mutex P} {p : P} (hp : m.holder = some p)
    (hlevel : 0 < m.level) :
    mutexUnlockIfLockedSection p m =
      ({ holder := if m.level - 1 = 0 then some p else none
         level := m.level - 1
         lock := false }, .returnsBool (decide (m.level - 1 ≠ 0))) := by
  unfold mutexUnlockIfLockedSection
  split_ifs with h1 h2 h3 h4 <;> simp_all

/-! ### Sections keep the invariant -/

section AfterSection

variable {s : LockState P} {p : P}

/-- A process that is about to unlock does not call anything else, so the section of another call
    leaves it waiting. -/
theorem unlock_pc_of_afterSection {call : LockCall} (hcall : call ≠ .unlock) {q : P}
    (hq : (s.afterSection p call).pc q = .atCas .unlock ∨
      (s.afterSection p call).pc q = .inSection .unlock) :
    q ≠ p ∧ (s.pc q = .atCas .unlock ∨ s.pc q = .inSection .unlock) := by
  unfold LockState.afterSection at hq
  by_cases hqp : q = p
  · subst hqp
    simp only [Function.update_self] at hq
    split_ifs at hq <;> simp_all
  · simpa [Function.update_of_ne hqp, hqp] using hq

theorem lockInvariant_lock (inv : LockInvariant s)
    (hroom : s.mutex.holder = some p → s.mutex.level + 1 < 2 ^ 32) :
    LockInvariant (s.afterSection p .lock) := by
  by_cases hfree : s.mutex.holder = none ∨ s.mutex.holder = some p
  · have hsection := mutexLockSection_free p hfree
    have hlevel : (s.mutex.level + 1) % 2 ^ 32 = s.mutex.level + 1 := by
      rcases hfree with hnone | hsome
      · simp [inv.free_level hnone]
      · exact Nat.mod_eq_of_lt (hroom hsome)
    have hhistory : s.mutex.level + s.released p = s.acquired p := by
      rcases hfree with hnone | hsome
      · have := inv.other_history p (by simp [hnone])
        have := inv.free_level hnone
        omega
      · exact (inv.holder_history p hsome).2
    refine ⟨?_, ?_, ?_, ?_⟩
    · intro q hq
      simp only [LockState.afterSection, LockCall.section, hsection, hlevel] at hq ⊢
      obtain rfl : p = q := Option.some.inj hq
      simp [ReleasesLevel]
      omega
    · intro q hq
      have hqp : q ≠ p := by
        rintro rfl
        simp [LockState.afterSection, LockCall.section, hsection] at hq
      have hother : s.mutex.holder ≠ some q := by
        rcases hfree with hnone | hsome
        · simp [hnone]
        · simpa [hsome] using Ne.symm hqp
      simp [LockState.afterSection, LockCall.section, hsection, ReleasesLevel,
        Function.update_of_ne hqp, inv.other_history q hother]
    · simp [LockState.afterSection, LockCall.section, hsection]
    · intro q hq
      obtain ⟨hqp, hpc⟩ := unlock_pc_of_afterSection (by decide) hq
      have hq' := inv.unlock_holds q hpc
      rcases hfree with hnone | hsome
      · simp [hnone] at hq'
      · exact absurd (Option.some.inj (hq'.symm.trans hsome)) hqp
  · have hsection := mutexLockSection_held p hfree
    refine ⟨?_, ?_, ?_, ?_⟩
    · simpa [LockState.afterSection, LockCall.section, hsection, ReleasesLevel]
        using inv.holder_history
    · simpa [LockState.afterSection, LockCall.section, hsection, ReleasesLevel]
        using inv.other_history
    · simpa [LockState.afterSection, LockCall.section, hsection] using inv.free_level
    · intro q hq
      obtain ⟨-, hpc⟩ := unlock_pc_of_afterSection (by decide) hq
      simpa [LockState.afterSection, LockCall.section, hsection] using inv.unlock_holds q hpc

theorem lockInvariant_unlock (inv : LockInvariant s) (hp : s.mutex.holder = some p) :
    LockInvariant (s.afterSection p .unlock) := by
  obtain ⟨hlevel, hhistory⟩ := inv.holder_history p hp
  have hsection := mutexUnlockSection_holder hp hlevel
  have hrel : s.mutex.level = s.mutex.level - 1 + 1 := by omega
  refine ⟨?_, ?_, ?_, ?_⟩
  · intro q hq
    simp only [LockState.afterSection, LockCall.section, hsection] at hq ⊢
    split_ifs at hq with hzero
    obtain rfl : p = q := Option.some.inj hq
    simp [ReleasesLevel, ← hrel]
    omega
  · intro q hq
    simp only [LockState.afterSection, LockCall.section, hsection] at hq ⊢
    by_cases hqp : q = p
    · subst hqp
      have hone : s.mutex.level - 1 = 0 := by
        by_contra hne
        simp [hne] at hq
      simp [ReleasesLevel, ← hrel]
      omega
    · have := inv.other_history q (by simpa [hp] using Ne.symm hqp)
      simp [ReleasesLevel, ← hrel, Function.update_of_ne hqp, this]
  · simp only [LockState.afterSection, LockCall.section, hsection]
    split_ifs with hzero <;> simp [hzero]
  · intro q hq
    have hqp : q ≠ p := by
      rintro rfl
      simp [LockState.afterSection, LockCall.section, hsection] at hq
    have hpc : s.pc q = .atCas .unlock ∨ s.pc q = .inSection .unlock := by
      simpa [LockState.afterSection, Function.update_of_ne hqp] using hq
    exact absurd (Option.some.inj ((inv.unlock_holds q hpc).symm.trans hp)) hqp

theorem lockInvariant_unlockIfLocked (inv : LockInvariant s) (hp : s.mutex.holder ≠ some p) :
    LockInvariant (s.afterSection p .unlockIfLocked) := by
  have hsection := mutexUnlockIfLockedSection_other hp
  refine ⟨?_, ?_, ?_, ?_⟩
  · simpa [LockState.afterSection, LockCall.section, hsection, ReleasesLevel]
      using inv.holder_history
  · simpa [LockState.afterSection, LockCall.section, hsection, ReleasesLevel]
      using inv.other_history
  · simpa [LockState.afterSection, LockCall.section, hsection] using inv.free_level
  · intro q hq
    obtain ⟨-, hpc⟩ := unlock_pc_of_afterSection (by decide) hq
    simpa [LockState.afterSection, LockCall.section, hsection] using inv.unlock_holds q hpc

end AfterSection

/-- Every guarded step keeps the invariant. -/
theorem lockInvariant_step {s s' : LockState P} {e : LockEvent P} (inv : LockInvariant s)
    (guard : MutexGuard s e) (step : LockStep s e s') : LockInvariant s' := by
  cases step with
  | invoke p call hpc howns =>
      refine ⟨inv.holder_history, inv.other_history, inv.free_level, ?_⟩
      intro q hq
      by_cases hqp : q = p
      · subst hqp
        simp at hq
        exact (inv.owns_iff q).1 (howns hq)
      · exact inv.unlock_holds q (by simpa [Function.update_of_ne hqp] using hq)
  | casSuccess p call hpc hlock =>
      refine ⟨inv.holder_history, inv.other_history, inv.free_level, ?_⟩
      intro q hq
      by_cases hqp : q = p
      · subst hqp
        simp at hq
        exact inv.unlock_holds q (Or.inl (hq ▸ hpc))
      · exact inv.unlock_holds q (by simpa [Function.update_of_ne hqp] using hq)
  | casFailure p call hpc hlock => exact inv
  | runSection p call hpc hassert =>
      cases call with
      | lock => exact lockInvariant_lock inv guard
      | unlock => exact lockInvariant_unlock inv (inv.unlock_holds p (Or.inr hpc))
      | unlockIfLocked => exact lockInvariant_unlockIfLocked inv guard

/-! ### Sections exclude each other -/

/-- At most one process is inside a section, and none is while `lock` is clear. -/
structure SectionsExclusive (s : LockState P) : Prop where
  clear : s.mutex.lock = false → ∀ p call, s.pc p ≠ .inSection call
  unique : ∀ p q call call', s.pc p = .inSection call → s.pc q = .inSection call' → p = q

/-- A section that does not fail an `ASSERT` ends with the store that clears `lock`. -/
theorem section_clears_lock (call : LockCall) (p : P) (m : Mutex P)
    (h : (call.section p m).2 ≠ .asserts) : (call.section p m).1.lock = false := by
  cases call with
  | lock =>
      simp only [LockCall.section, mutexLockSection] at h ⊢
      split_ifs <;> rfl
  | unlock =>
      simp only [LockCall.section, mutexUnlockSection] at h ⊢
      split_ifs at h ⊢ <;> first | rfl | exact absurd rfl h
  | unlockIfLocked =>
      simp only [LockCall.section, mutexUnlockIfLockedSection] at h ⊢
      split_ifs at h ⊢ <;> first | rfl | exact absurd rfl h

theorem sectionsExclusive_step {s s' : LockState P} {e : LockEvent P} (inv : SectionsExclusive s)
    (step : LockStep s e s') : SectionsExclusive s' := by
  cases step with
  | invoke p call hpc howns =>
      refine ⟨fun hlock q call' hq => ?_, fun q r call' call'' hq hr => ?_⟩
      · by_cases hqp : q = p
        · simp [hqp] at hq
        · exact inv.clear hlock q call' (by simpa [Function.update_of_ne hqp] using hq)
      · have hqp : q ≠ p := by rintro rfl; simp at hq
        have hrp : r ≠ p := by rintro rfl; simp at hr
        exact inv.unique q r call' call'' (by simpa [Function.update_of_ne hqp] using hq)
          (by simpa [Function.update_of_ne hrp] using hr)
  | casSuccess p call hpc hlock =>
      have only_p : ∀ q call', Function.update s.pc p (.inSection call) q = .inSection call' →
          q = p := by
        intro q call' hq
        by_contra hqp
        exact inv.clear hlock q call' (by simpa [Function.update_of_ne hqp] using hq)
      refine ⟨by simp, fun q r call' call'' hq hr => ?_⟩
      rw [only_p q call' hq, only_p r call'' hr]
  | casFailure p call hpc hlock => exact inv
  | runSection p call hpc hassert =>
      have nobody : ∀ q call', (s.afterSection p call).pc q ≠ .inSection call' := by
        intro q call' hq
        by_cases hqp : q = p
        · subst hqp
          simp only [LockState.afterSection, Function.update_self] at hq
          split_ifs at hq
        · simp only [LockState.afterSection, Function.update_of_ne hqp] at hq
          exact hqp (inv.unique q p call' call hq hpc)
      exact ⟨fun _ => nobody, fun q r call' call'' hq _ => absurd hq (nobody q call')⟩

/-- Over every run the sections exclude each other, which is why a section counts as one step. -/
theorem sectionsExclusive_run {t : LockState P}
    {xs : List (Transition (LockState P) (LockEvent P))}
    (run : (lockSystem P).Run LockState.initial xs t) : SectionsExclusive t :=
  run.invariant SectionsExclusive (fun _ _ _ inv step => sectionsExclusive_step inv step)
    ⟨fun _ p call => by simp [LockState.initial], fun p q call call' hp => by
      simp [LockState.initial] at hp⟩

/-! ### Releases -/

/-- Every guarded step releases as it should. -/
theorem releaseHolds_step {s s' : LockState P} {e : LockEvent P} (inv : LockInvariant s)
    (guard : MutexGuard s e) (step : LockStep s e s') : ReleaseHolds s e s' := by
  refine ⟨?_, ?_⟩
  · rintro p call outcome rfl hcall howns -
    have hp := (inv.owns_iff p).1 howns
    cases step with
    | runSection p call hpc hassert =>
        cases call with
        | lock => exact absurd rfl hcall
        | unlockIfLocked => exact absurd hp guard
        | unlock =>
            have hsection := mutexUnlockSection_holder hp (inv.holder_history p hp).1
            simp only [LockState.afterSection, LockCall.section, hsection, true_and]
            split_ifs with h1 h2
            · omega
            · rfl
            · exact ⟨rfl, fun q => by simp [mutexLockSection]⟩
            · omega
  · rintro p outcome rfl
    cases step with
    | runSection p call hpc hassert =>
        simp [LockState.afterSection, LockCall.section, mutexUnlockIfLockedSection_other guard,
          ReleasesLevel]

/-- A step that is not guarded breaks the property in the state it reaches. -/
theorem mutexGuard_of_ownership {s s' : LockState P} {e : LockEvent P} (inv : LockInvariant s)
    (step : LockStep s e s') (after : MutexOwnership s') : MutexGuard s e := by
  cases step with
  | invoke p call hpc howns => trivial
  | casSuccess p call hpc hlock => trivial
  | casFailure p call hpc hlock => trivial
  | runSection p call hpc hassert =>
      cases call with
      | unlock => trivial
      | lock =>
          intro hp
          have hpos := after.holder_iff_level.1 (by
            simp [LockState.afterSection, LockCall.section, mutexLockSection_free p (Or.inr hp)])
          have hlevel := after.level_eq p ((after.owner_holds p).2 (by
            simp [LockState.afterSection, LockCall.section, mutexLockSection_free p (Or.inr hp)]))
          have hhistory := inv.holder_history p hp
          simp [LockState.afterSection, LockCall.section, mutexLockSection_free p (Or.inr hp),
            ReleasesLevel] at hpos hlevel
          omega
      | unlockIfLocked =>
          intro hp
          have hlevel := (inv.holder_history p hp).1
          have hiff := after.holder_iff_level
          simp only [LockState.afterSection, LockCall.section,
            mutexUnlockIfLockedSection_holder hp hlevel] at hiff
          split_ifs at hiff with hzero
          · simp [hzero] at hiff
          · have : s.mutex.level ≤ 1 := by simpa using hiff
            omega

/-! ### Runs -/

/-- Ownership over runs, exactly. From the zeroed mutex, every state reached has the ownership property
    and every release does what it should if and only if no holder ran the section of
    `mutex_unlock_if_locked` and no holder relocked at the largest level. -/
theorem mutex_ownership_iff {t : LockState P} {xs : List (Transition (LockState P) (LockEvent P))}
    (run : (lockSystem P).Run LockState.initial xs t) :
    (∀ x ∈ xs, MutexOwnership x.after ∧ ReleaseHolds x.before x.event x.after) ↔
      ∀ x ∈ xs, MutexGuard x.before x.event :=
  run.guarded_iff (fun s e s' => MutexOwnership s' ∧ ReleaseHolds s e s')
    (fun _ _ _ inv guard step => lockInvariant_step inv guard step)
    (fun _ _ _ inv guard step =>
      ⟨(lockInvariant_step inv guard step).ownership, releaseHolds_step inv guard step⟩)
    (fun _ _ _ inv step after => mutexGuard_of_ownership inv step after.1)
    lockInvariant_initial

/-- One process takes the mutex: a run on which every step is guarded. -/
theorem mutex_ownership_after_lock :
    ∃ xs t, (lockSystem Bool).Run LockState.initial xs t ∧
      xs.map Transition.event =
        [.invoke true .lock, .cas true true, .runSection true .lock .returns] ∧
      ∀ x ∈ xs, MutexOwnership x.after ∧ ReleaseHolds x.before x.event x.after := by
  have run : (lockSystem Bool).Run LockState.initial _ _ :=
    .cons (.invoke true .lock rfl (by simp)) <|
    .cons (.casSuccess true .lock rfl rfl) <|
    .cons (.runSection true .lock rfl (by decide)) <| .nil _
  refine ⟨_, _, run, rfl, (mutex_ownership_iff run).2 ?_⟩
  simp [MutexGuard, LockState.initial]

/-- The mutex is taken once and handed to `mutex_unlock_if_locked`: the level is zero and the process
    is still the holder, so the property fails. -/
theorem unlockIfLocked_keeps_holder_of_free_mutex :
    ¬ ∀ xs t, (lockSystem Bool).Run LockState.initial xs t →
      ∀ x ∈ xs, MutexOwnership x.after ∧ ReleaseHolds x.before x.event x.after := by
  intro h
  have run : (lockSystem Bool).Run LockState.initial _ _ :=
    .cons (.invoke true .lock rfl (by simp)) <|
    .cons (.casSuccess true .lock rfl rfl) <|
    .cons (.runSection true .lock rfl (by decide)) <|
    .cons (.invoke true .unlockIfLocked rfl (by simp)) <|
    .cons (.casSuccess true .unlockIfLocked rfl rfl) <|
    .cons (.runSection true .unlockIfLocked rfl (by decide)) <| .nil _
  have hlast := (h _ _ run _ (List.getLast_mem (by simp))).1.holder_iff_level
  exact absurd (hlast.1 (by decide)) (by decide)

end Chaotix
