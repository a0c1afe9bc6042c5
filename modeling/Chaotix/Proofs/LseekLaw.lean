/-
Module: Chaotix.Proofs.LseekLaw
Layer: Proofs
Purpose: What `lseek` promises: the exact new offset or an error, and a lock that others can take afterwards. The values
  are right for every `whence`, but a call with `SEEK_CUR` leaves its process as the holder of the lock, so the law
  holds of the calls with any other `whence` and of no others.
Imports: Chaotix.Kernel.Lseek
Trusted boundary: none
Main exports: seekTarget, LseekLaw, DescriptionOk, setOffset_spec, fileDescriptionLseek_spec, lseek_law_iff,
  lseek_law_breaks
-/
import Chaotix.Kernel.Lseek

open Program

namespace Chaotix

/-! ### The law -/

section Law

variable {P : Type} [DecidableEq P]

/-- The exact new offset. -/
def seekTarget (s : SeekState P) (offset whence : Int) : Option Int :=
  if whence = SEEK_SET then some offset
  else if whence = SEEK_CUR then some (s.offset + offset)
  else if whence = SEEK_END then some (s.size + offset)
  else none

/-- The exact new offset exists and is one that an `off_t` holds. -/
def SeeksTo (s : SeekState P) (offset whence n : Int) : Prop :=
  seekTarget s offset whence = some n ∧ 0 ≤ n ∧ n < 2 ^ 31

/-- The new offset is set and returned, or an error is returned and the offset is unchanged; and nobody holds the lock,
    so every process can take it. -/
structure LseekLaw (s : SeekState P) (offset whence : Int) (result : Except Errno Int) (s' : SeekState P) : Prop where
  found : ∀ n, SeeksTo s offset whence n → result = .ok n ∧ s'.offset = n
  fails : (¬∃ n, SeeksTo s offset whence n) → (∃ e, result = .error e) ∧ s'.offset = s.offset
  unheld : s'.offsetLock.holder = none ∧ s'.offsetLock.level = 0
  lockable : ∀ q, (mutexLockSection q s'.offsetLock).2 = .returns

/-- A description between calls. -/
structure DescriptionOk (s : SeekState P) : Prop where
  unlocked : s.offsetLock = {}
  offset : 0 ≤ s.offset
  isOff : IsOff s.offset
  size : 0 ≤ s.size
  size_isOff : IsOff s.size

end Law

/-! ### Sums of offsets -/

theorem toOff_of_isOff {x : Int} (h : IsOff x) : toOff x = x := by
  simp only [IsOff, toOff] at h ⊢
  omega

/-- The sum of an `off_t` that is not negative and another one is negative after it has wrapped. -/
theorem toOff_add {x y : Int} (hx : 0 ≤ x) (hoff : IsOff x) (hy : IsOff y) :
    toOff (x + y) = x + y ∧ x + y < 2 ^ 31 ∨ toOff (x + y) < 0 ∧ 2 ^ 31 ≤ x + y := by
  simp only [IsOff, toOff] at hoff hy ⊢
  omega

/-! ### The functions -/

section Functions

variable {P : Type} [DecidableEq P] {s : SeekState P}

/-- What a call that has not taken the lock does at its end: the mutex is as it was. -/
theorem setOffset_spec (current : P) (newOffset : Int) (h : s.offsetLock = {}) :
    setOffset current newOffset s =
      if newOffset < 0 then .ok (.error .EINVAL, s) else .ok (.ok newOffset, { s with offset := newOffset }) := by
  have hsection : mutexUnlockIfLockedSection current ({} : Mutex P) = ({}, .returnsBool false) := rfl
  obtain ⟨offset, lock, size⟩ := s
  obtain rfl : lock = {} := h
  unfold setOffset unlockOffsetIfLocked
  split <;> simp [hsection]

/-- What a call that has taken the lock once does at its end: the level is zero and the holder stays. -/
theorem setOffset_locked (current : P) (newOffset : Int) (h : s.offsetLock = { holder := some current, level := 1 }) :
    setOffset current newOffset s =
      let lock : Mutex P := { holder := some current }
      if newOffset < 0 then .ok (.error .EINVAL, { s with offsetLock := lock })
      else .ok (.ok newOffset, { s with offset := newOffset, offsetLock := lock }) := by
  have hsection : mutexUnlockIfLockedSection current { holder := some current, level := 1 } =
      ({ holder := some current }, .returnsBool false) := by
    simp [mutexUnlockIfLockedSection]
  obtain ⟨offset, lock, size⟩ := s
  obtain rfl : lock = { holder := some current, level := 1 } := h
  unfold setOffset unlockOffsetIfLocked
  split <;> simp [hsection]

theorem lockOffset_unlocked (current : P) (h : s.offsetLock = {}) :
    lockOffset current s = .ok ((), { s with offsetLock := { holder := some current, level := 1 } }) := by
  have hsection : mutexLockSection current ({} : Mutex P) = ({ holder := some current, level := 1 }, .returns) := rfl
  simp [lockOffset, h, hsection]

/-- The offset that is computed is the exact one, or it is negative because there is none in range. -/
theorem setOffset_law {newOffset offset whence : Int} {n : Int} (current : P) (h : DescriptionOk s)
    (htarget : seekTarget s offset whence = some n)
    (hnew : newOffset = n ∧ n < 2 ^ 31 ∨ newOffset < 0 ∧ 2 ^ 31 ≤ n) :
    Yields (setOffset current newOffset) s fun r t => LseekLaw s offset whence r t ∧ t.offsetLock = {} := by
  have hreach : ∀ m, SeeksTo s offset whence m ↔ m = n ∧ 0 ≤ n ∧ n < 2 ^ 31 := by
    intro m
    rw [SeeksTo, htarget, Option.some.injEq]
    constructor
    · rintro ⟨rfl, hm⟩
      exact ⟨rfl, hm⟩
    · rintro ⟨rfl, hm⟩
      exact ⟨rfl, hm⟩
  have hlockable : ∀ q, (mutexLockSection q ({} : Mutex P)).2 = .returns := fun _ => rfl
  rw [Yields, setOffset_spec current newOffset h.unlocked]
  by_cases hneg : newOffset < 0
  · have hnone : ¬∃ m, SeeksTo s offset whence m := by
      rintro ⟨m, hm⟩
      have hn := (hreach m).1 hm
      omega
    rw [if_pos hneg]
    refine ⟨⟨fun m hm => absurd ⟨m, hm⟩ hnone, fun _ => ⟨⟨_, rfl⟩, rfl⟩, ?_, ?_⟩, h.unlocked⟩
    · exact h.unlocked ▸ ⟨rfl, rfl⟩
    · exact h.unlocked ▸ hlockable
  · have hn : newOffset = n ∧ 0 ≤ n ∧ n < 2 ^ 31 := by omega
    rw [if_neg hneg]
    refine ⟨⟨fun m hm => ?_, fun hnone => absurd ⟨n, (hreach n).2 ⟨rfl, hn.2⟩⟩ hnone, ?_, ?_⟩, h.unlocked⟩
    · obtain ⟨rfl, -⟩ := (hreach m).1 hm
      exact ⟨by rw [hn.1], hn.1⟩
    · exact h.unlocked ▸ ⟨rfl, rfl⟩
    · exact h.unlocked ▸ hlockable

/-- With a `whence` other than `SEEK_CUR` the law holds, and the lock is as it was. -/
theorem fileDescriptionLseek_spec (current : P) {offset whence : Int} (h : DescriptionOk s) (hoff : IsOff offset)
    (hwhence : whence ≠ SEEK_CUR) :
    Yields (fileDescriptionLseek current offset whence) s fun r t =>
      LseekLaw s offset whence r t ∧ t.offsetLock = {} := by
  unfold fileDescriptionLseek
  split
  · rename_i hset
    have htarget : seekTarget s offset whence = some offset := if_pos hset
    exact setOffset_law current h htarget (.inl ⟨rfl, hoff.2⟩)
  · rename_i hset
    split
    · rename_i hend
      have htarget : seekTarget s offset whence = some (s.size + offset) := by
        rw [seekTarget, if_neg hset, if_neg hwhence, if_pos hend]
      rw [yields_bind, yields_get]
      exact setOffset_law current h htarget (toOff_add h.size h.size_isOff hoff)
    · rename_i hend
      have htarget : seekTarget s offset whence = none := by
        rw [seekTarget, if_neg hset, if_neg hwhence, if_neg hend]
      have hnone : ∀ n, ¬SeeksTo s offset whence n := fun n hn => by
        rw [SeeksTo, htarget] at hn
        cases hn.1
      refine ⟨⟨fun n hn => absurd hn (hnone n), fun _ => ⟨⟨_, rfl⟩, rfl⟩, ?_, ?_⟩, h.unlocked⟩
      · exact h.unlocked ▸ ⟨rfl, rfl⟩
      · exact h.unlocked ▸ fun _ => rfl

/-- A call with `SEEK_CUR` returns with its process as the holder of a mutex of level zero. -/
theorem fileDescriptionLseek_cur (current : P) (offset : Int) (h : s.offsetLock = {}) :
    Yields (fileDescriptionLseek current offset SEEK_CUR) s fun _ t => t.offsetLock = { holder := some current } := by
  rw [fileDescriptionLseek, if_neg (by decide), if_pos rfl, yields_bind_of_return (lockOffset_unlocked current h),
    yields_bind, yields_get, Yields, setOffset_locked current _ rfl]
  split
  · rename_i heq
    split at heq <;> cases heq <;> rfl
  · rename_i heq
    split at heq <;> cases heq

/-- The law holds of a call exactly when it does not seek from the current offset. -/
theorem fileDescriptionLseek_iff (current : P) {offset whence : Int} (h : DescriptionOk s) (hoff : IsOff offset) :
    Yields (fileDescriptionLseek current offset whence) s (LseekLaw s offset whence) ↔ whence ≠ SEEK_CUR := by
  constructor
  · rintro hlaw rfl
    obtain ⟨r, t, hreturn, hheld⟩ := yields_iff.1 (fileDescriptionLseek_cur current offset h.unlocked)
    have hunheld := (hlaw.and_return hreturn).unheld.1
    rw [hheld] at hunheld
    cases hunheld
  · intro hwhence
    exact (fileDescriptionLseek_spec current h hoff hwhence).mono fun _ _ hr => hr.1

end Functions

/-! ### Runs -/

section Runs

variable {P : Type} [DecidableEq P]

/-- The call does not seek from the current offset. -/
def SeekEvent.NotFromCurrent : SeekEvent P → Prop
  | .lseek _ _ whence _ => whence ≠ SEEK_CUR
  | _ => True

/-- A call of `lseek` keeps the law. -/
def KeepsLseekLaw (s : SeekState P) (e : SeekEvent P) (s' : SeekState P) : Prop :=
  match e with
  | .lseek _ offset whence result => LseekLaw s offset whence result s'
  | _ => True

/-- A law-abiding call leaves a description as calls expect it. -/
theorem LseekLaw.descriptionOk {s s' : SeekState P} {offset whence : Int} {result : Except Errno Int}
    (hlaw : LseekLaw s offset whence result s') (h : DescriptionOk s) (hlock : s'.offsetLock = {})
    (hsize : s'.size = s.size) : DescriptionOk s' := by
  have hoffset : 0 ≤ s'.offset ∧ IsOff s'.offset := by
    by_cases hreach : ∃ n, SeeksTo s offset whence n
    · obtain ⟨n, hn⟩ := hreach
      rw [(hlaw.found n hn).2]
      refine ⟨hn.2.1, ?_, hn.2.2⟩
      have hpos := hn.2.1
      omega
    · rw [(hlaw.fails hreach).2]
      exact ⟨h.offset, h.isOff⟩
  exact ⟨hlock, hoffset.1, hoffset.2, hsize ▸ h.size, hsize ▸ h.size_isOff⟩

theorem fileDescriptionLseek_size (current : P) (offset whence : Int) :
    Keeps (SeekState.size (P := P)) (fileDescriptionLseek current offset whence) := by
  have hunlock : Keeps (SeekState.size (P := P)) (unlockOffsetIfLocked current) := by
    refine Keeps.get.bind fun s => ?_
    split
    · exact Keeps.modify fun _ => rfl
    · exact Keeps.throw _
    · exact Keeps.throw _
  have hlock : Keeps (SeekState.size (P := P)) (lockOffset current) := by
    refine Keeps.get.bind fun s => ?_
    split
    · exact Keeps.modify fun _ => rfl
    · exact Keeps.throw _
    · exact Keeps.throw _
  have hset : ∀ n, Keeps (SeekState.size (P := P)) (setOffset current n) := by
    intro n
    unfold setOffset
    split
    · exact hunlock.bind fun _ => Keeps.pure _
    · have hstore : Keeps (SeekState.size (P := P)) (modify fun s => { s with offset := n } : Kernel (SeekState P) Unit) :=
        Keeps.modify fun _ => rfl
      exact hstore.bind fun _ => hunlock.bind fun _ => Keeps.pure _
  unfold fileDescriptionLseek
  split
  · exact hset _
  · split
    · exact hlock.bind fun _ => Keeps.get.bind fun _ => hset _
    · split
      · exact Keeps.get.bind fun _ => hset _
      · exact Keeps.pure _

/-- A read or a write gives the lock back. -/
theorem advanceOffset_unlocked {s : SeekState P} (current : P) (n : Nat) (h : s.offsetLock = {}) :
    advanceOffset current n s = .ok ((), { s with offset := s.offset + n }) := by
  have hsection : mutexUnlockSection current { holder := some current, level := 1 } = ({}, .returns) := by
    simp [mutexUnlockSection]
  obtain ⟨offset, lock, size⟩ := s
  obtain rfl : lock = {} := h
  simp [advanceOffset, lockOffset_unlocked current, unlockOffset, hsection]

/-- The steps that do not seek from the current offset keep the description. -/
theorem descriptionOk_step {s s' : SeekState P} {e : SeekEvent P} (h : DescriptionOk s) (hguard : e.NotFromCurrent)
    (hstep : SeekStep s e s') : DescriptionOk s' ∧ KeepsLseekLaw s e s' := by
  cases hstep with
  | lseek current offset whence result hoff hreturn =>
      have hlaw := (fileDescriptionLseek_spec current h hoff hguard).and_return hreturn
      have hsize := ensures_iff.1 (fileDescriptionLseek_size current offset whence s) result s' hreturn
      exact ⟨hlaw.1.descriptionOk h hlaw.2 hsize, hlaw.1⟩
  | advance current n hn hreturn =>
      rw [advanceOffset_unlocked current n h.unlocked] at hreturn
      cases hreturn
      have hpos := h.offset
      refine ⟨⟨h.unlocked, ?_, ?_, h.size, h.size_isOff⟩, trivial⟩
      · change 0 ≤ s.offset + n
        omega
      · refine ⟨?_, hn⟩
        change -2 ^ 31 ≤ s.offset + n
        omega
  | resize size hpos hsize => exact ⟨⟨h.unlocked, h.offset, h.isOff, hpos, hsize⟩, trivial⟩

/-- A call keeps the law of `lseek` exactly when it does not seek from the current offset, and a run keeps it at every
    call exactly when none of its calls does. -/
theorem lseek_law_iff :
    (∀ (s : SeekState P) current offset whence, DescriptionOk s → IsOff offset →
      (Yields (fileDescriptionLseek current offset whence) s (LseekLaw s offset whence) ↔ whence ≠ SEEK_CUR)) ∧
    ∀ s xs t, (seekSystem P).init s → (seekSystem P).Run s xs t →
      ((∀ x ∈ xs, KeepsLseekLaw x.before x.event x.after) ↔ ∀ x ∈ xs, x.event.NotFromCurrent) := by
  constructor
  · exact fun s current offset whence h hoff => fileDescriptionLseek_iff current h hoff
  · rintro s xs t ⟨hlock, hoffset, hisOff, hsize, hsizeOff⟩ run
    have hexact : ∀ (s : SeekState P) e s', DescriptionOk s → SeekStep s e s' → KeepsLseekLaw s e s' → e.NotFromCurrent := by
      intro s e s' inv hstep hlaw
      cases hstep with
      | advance current n hn hreturn => trivial
      | resize size hpos hsize => trivial
      | lseek current offset whence result hoff hreturn =>
          exact (fileDescriptionLseek_iff current inv hoff).1 (yields_of_return hreturn hlaw)
    exact run.guarded_iff KeepsLseekLaw (fun _ _ _ inv hguard hstep => (descriptionOk_step inv hguard hstep).1)
      (fun _ _ _ inv hguard hstep => (descriptionOk_step inv hguard hstep).2) hexact
      ⟨hlock, hoffset, hisOff, hsize, hsizeOff⟩

/-- A description at offset 3 of a file of 10 bytes. -/
def someDescription : SeekState (Fin 2) := { offset := 3, size := 10 }

theorem descriptionOk_some : DescriptionOk someDescription := ⟨rfl, by decide, by decide, by decide, by decide⟩

/-- Seeking to the end by 5 more bytes. -/
theorem lseek_law_at_end :
    Yields (fileDescriptionLseek 0 5 SEEK_END) someDescription (LseekLaw someDescription 5 SEEK_END) :=
  (lseek_law_iff.1 someDescription 0 5 SEEK_END descriptionOk_some (by decide)).2 (by decide)

/-- `lseek(fd, 0, SEEK_CUR)` by one process breaks the law: another one that shares the description waits for the lock
    in its next read. -/
theorem lseek_law_breaks :
    ¬Yields (fileDescriptionLseek 0 0 SEEK_CUR) someDescription (LseekLaw someDescription 0 SEEK_CUR) ∧
      Yields (fileDescriptionLseek 0 0 SEEK_CUR) someDescription fun r t =>
        r = .ok 3 ∧ advanceOffset 1 4 t = .error .hang := by
  constructor
  · intro hlaw
    exact (fileDescriptionLseek_iff 0 descriptionOk_some (by decide)).1 hlaw rfl
  · exact ⟨rfl, rfl⟩

end Runs

end Chaotix
