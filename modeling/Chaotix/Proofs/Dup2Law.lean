/-
Module: Chaotix.Proofs.Dup2Law
Layer: Proofs
Purpose: What `dup2` promises about slots and counts, and exactly when `sys_dup2` keeps it. It closes what is at the new
  descriptor before it looks for a slot, so a descriptor that is duplicated to itself loses its description when nobody
  else refers to it; and a negative new descriptor means any slot to `process_alloc_file_descriptor`.
Imports: Chaotix.Proofs.DescriptorCounts
Trusted boundary: none
Main exports: TableOk, Dup2Law, Dup2Guard, dup2_moves, dup2_keeps_itself, dup2_law_iff, dup2_law_breaks
-/
import Chaotix.Proofs.DescriptorCounts

open Program

set_option linter.unusedSectionVars false

namespace Chaotix

section Law

variable {P D N S : Type} [DecidableEq P] [DecidableEq D] [DecidableEq N] [DecidableEq S]

/-! ### The law -/

/-- The inode has references. -/
def Files.InodeHeld (s : Files P D N S) : InodeRef N S → Prop
  | .node n => 0 < (s.node n).refCount
  | .socket k => 0 < (s.socket k).refCount

/-- The table of a process as it is between calls: the counters count the slots, and a description holds a reference to
    its inode. -/
structure TableOk (s : Files P D N S) (p : P) : Prop where
  registered : s.registered p = true
  counts : DescriptionIntegrity s
  inodes : ∀ d, s.descLive d = true → s.InodeHeld (s.desc d).inode

/-- The descriptor is outside the table. -/
def OutOfTable (fd : Int) : Prop := fd < 0 ∨ (OPEN_MAX : Int) ≤ fd

/-- The slot of the new descriptor holds the description `d`, which is counted once more; what was there is counted once
    less; and nothing else has changed. -/
structure Duplicated (s : Files P D N S) (p : P) (newfd : Nat) (d : D) (s' : Files P D N S) : Prop where
  entries : s'.entries = Function.update s.entries p (Function.update (s.entries p) newfd (some d))
  counts : ∀ x, (s'.desc x).refCount + (if s.entries p newfd = some x then 1 else 0) =
    (s.desc x).refCount + (if x = d then 1 else 0)
  fields : ∀ x, (s'.desc x).inode = (s.desc x).inode ∧ (s'.desc x).flags = (s.desc x).flags
  inodes : (∀ x, s.entries p newfd = some x → (s.desc x).refCount ≠ 1) →
    s'.node = s.node ∧ s'.socket = s.socket ∧ s'.descLive = s.descLive

/-- What `dup2` promises. -/
structure Dup2Law (s : Files P D N S) (p : P) (oldfd newfd : Int) (r : Except Errno Nat) (s' : Files P D N S) :
    Prop where
  badf : (∀ d, processGetFileDescription s p oldfd ≠ .ok d) ∨ OutOfTable newfd → r = .error .EBADF ∧ s' = s
  same : ∀ d, processGetFileDescription s p oldfd = .ok d → oldfd = newfd → r = .ok newfd.toNat ∧ s' = s
  moved : ∀ d, processGetFileDescription s p oldfd = .ok d → ¬OutOfTable newfd → oldfd ≠ newfd →
    r = .ok newfd.toNat ∧ Duplicated s p newfd.toNat d s'

/-- There is nothing to duplicate, the new descriptor is too large, or it is in the table and, if it is the old one, the
    description is counted more than once. -/
def Dup2Guard (s : Files P D N S) (p : P) (oldfd newfd : Int) : Prop :=
  ∀ d, processGetFileDescription s p oldfd = .ok d →
    (OPEN_MAX : Int) ≤ newfd ∨ 0 ≤ newfd ∧ (oldfd = newfd → (s.desc d).refCount ≠ 1)

/-! ### The parts of the call -/

variable {s : Files P D N S} {p : P} {fd : Int} {d : D}

theorem processGetFileDescription_of_entry (hfd : ¬OutOfTable fd) (h : s.entries p fd.toNat = some d) :
    processGetFileDescription s p fd = .ok d := by
  unfold OutOfTable at hfd
  rw [processGetFileDescription, if_neg hfd, h]

theorem processGetFileDescription_of_none (h : OutOfTable fd ∨ s.entries p fd.toNat = none) :
    processGetFileDescription s p fd = .error .EBADF := by
  unfold processGetFileDescription
  split
  · rfl
  · rename_i hfd
    rw [h.resolve_left hfd]

/-- The error of a descriptor that is not open. -/
theorem processGetFileDescription_error (h : ∀ d, processGetFileDescription s p fd ≠ .ok d) :
    processGetFileDescription s p fd = .error .EBADF := by
  by_cases hfd : OutOfTable fd
  · exact processGetFileDescription_of_none (.inl hfd)
  · cases hentry : s.entries p fd.toNat with
    | none => exact processGetFileDescription_of_none (.inr hentry)
    | some d => exact absurd (processGetFileDescription_of_entry hfd hentry) (h d)

/-- A slot in the table that is empty is taken, and the description is counted once more. -/
theorem takeSlot (hfd : ¬OutOfTable fd) (hentry : s.entries p fd.toNat = none) (d : D) :
    Yields (do
      match ← processAllocFileDescriptor p fd d with
      | .error e => return .error e
      | .ok ret =>
          refDesc d
          return .ok ret : Kernel (Files P D N S) (Except Errno Nat)) s fun r t =>
      r = .ok fd.toNat ∧ t = (s.setEntry p fd.toNat (some d)).setRefCount d ((s.desc d).refCount + 1) := by
  have hmax : ¬(OPEN_MAX : Int) ≤ fd := fun h => hfd (.inr h)
  have hneg : 0 ≤ fd := Int.not_lt.1 fun h => hfd (.inl h)
  have halloc : processAllocFileDescriptor p fd d s = .ok (.ok fd.toNat, s.setEntry p fd.toNat (some d)) := by
    unfold processAllocFileDescriptor
    rw [if_neg hmax, run_bind, run_get]
    dsimp only
    rw [if_pos hneg, hentry]
    rfl
  rw [yields_bind_of_return halloc]
  exact ⟨rfl, rfl⟩

theorem inodeUnref_held {inode : InodeRef N S} (h : s.InodeHeld inode) :
    Yields (inodeUnref inode) s fun _ t => SameDescriptions s t := by
  cases inode with
  | node n =>
      unfold inodeUnref
      rw [yields_bind, yields_get, yields_bind, assert, yields_require]
      refine ⟨h, ?_⟩
      rw [yields_bind, yields_set]
      split
      · exact ⟨rfl, rfl, rfl, rfl, rfl, rfl⟩
      · exact ⟨rfl, rfl, rfl, rfl, rfl, rfl⟩
  | socket k =>
      unfold inodeUnref
      rw [yields_bind, yields_get, yields_bind, assert, yields_require]
      refine ⟨h, ?_⟩
      rw [yields_bind, yields_set]
      split
      · exact ⟨rfl, rfl, rfl, rfl, rfl, rfl⟩
      · exact ⟨rfl, rfl, rfl, rfl, rfl, rfl⟩

/-- A description of a slot is closed: it is counted once less, and freed when it was counted once. -/
theorem closeSlot (h : TableOk s p) {fd : Nat} (hfd : fd < OPEN_MAX) (hentry : s.entries p fd = some d) :
    Yields (fileDescriptionClose d) s fun _ t =>
      1 < (s.desc d).refCount ∧ t = s.setRefCount d ((s.desc d).refCount - 1) ∨
        (s.desc d).refCount = 1 ∧ SameDescriptions ((s.setRefCount d 0).freeDesc d) t := by
  have hslot : s.slot (p, fd) = some d := by rw [Files.slot, if_pos ⟨h.registered, hfd⟩, hentry]
  have hpos := h.counts.refs.count_pos hslot
  have hinode := h.inodes d (h.counts.refs.holds _ d hslot)
  unfold fileDescriptionClose
  rw [yields_bind, yields_get, yields_bind, assert, yields_require]
  refine ⟨hpos, ?_⟩
  rw [yields_bind, yields_set]
  split
  · exact .inl ⟨by omega, rfl⟩
  · have hone : (s.desc d).refCount = 1 := by omega
    have hheld : ((s.setRefCount d 0).freeDesc d).InodeHeld (s.desc d).inode := by
      cases hnode : (s.desc d).inode with
      | node n => rw [hnode] at hinode; exact hinode
      | socket k => rw [hnode] at hinode; exact hinode
    rw [yields_bind, yields_modify, hone]
    exact (inodeUnref_held hheld).mono fun _ _ hsame => .inr ⟨rfl, hsame⟩

/-- The first part of `sys_dup2`, where the new descriptor is not open. -/
theorem dup2CloseNew_closed {e : Errno} (h : processGetFileDescription s p fd = .error e) :
    dup2CloseNew p fd s = .ok (.ok 0, s) := by
  unfold dup2CloseNew
  rw [run_bind, run_get]
  dsimp only
  rw [h]
  rfl

theorem processAllocFileDescriptor_large (h : (OPEN_MAX : Int) ≤ fd) (d : D) :
    processAllocFileDescriptor p fd d s = .ok (.error .EBADF, s) := by
  unfold processAllocFileDescriptor
  rw [if_pos h]
  rfl

/-- The first part of `sys_dup2`, where the new descriptor is open. -/
theorem dup2CloseNew_open (h : TableOk s p) (hfd : ¬OutOfTable fd) (hentry : s.entries p fd.toNat = some d) :
    Yields (dup2CloseNew p fd) s fun r t => (∃ n, r = .ok n) ∧ ∃ u, t = u.setEntry p fd.toNat none ∧
      (1 < (s.desc d).refCount ∧ u = s.setRefCount d ((s.desc d).refCount - 1) ∨
        (s.desc d).refCount = 1 ∧ SameDescriptions ((s.setRefCount d 0).freeDesc d) u) := by
  have hmax : fd.toNat < OPEN_MAX := by
    simp only [OutOfTable] at hfd
    omega
  unfold dup2CloseNew
  rw [yields_bind, yields_get, processGetFileDescription_of_entry hfd hentry, yields_bind]
  apply (closeSlot h hmax hentry).mono
  intro _ u hu
  have hkept : u.entries p fd.toNat = some d := by
    cases hu with
    | inl hmore => rw [hmore.2]; exact hentry
    | inr hlast => rw [hlast.2.entries]; exact hentry
  have hfree : processFreeFileDescriptor p fd u = .ok (.ok 0, u.setEntry p fd.toNat none) := by
    unfold OutOfTable at hfd
    unfold processFreeFileDescriptor
    rw [if_neg hfd, run_bind, run_get]
    dsimp only
    rw [hkept]
    rfl
  exact yields_of_return hfree ⟨⟨0, rfl⟩, u, rfl, hu⟩

/-! ### The whole call -/

theorem update_entries (s : Files P D N S) (p : P) (fd : Nat) (e e' : Option D) :
    ((s.setEntry p fd e).setEntry p fd e').entries =
      Function.update s.entries p (Function.update (s.entries p) fd e') := by
  simp [Files.setEntry]

theorem refCount_setRefCount (s : Files P D N S) (d x : D) (n : Nat) :
    ((s.setRefCount d n).desc x).refCount = if x = d then n else (s.desc x).refCount := by
  by_cases hx : x = d
  · simp [Files.setRefCount, hx]
  · simp [Files.setRefCount, hx]

/-- A description is duplicated to a descriptor of the table. -/
theorem dup2_moves (h : TableOk s p) {oldfd newfd : Int} (hold : processGetFileDescription s p oldfd = .ok d)
    (hnew : ¬OutOfTable newfd) :
    Yields (sysDup2 p oldfd newfd) s fun r t => r = .ok newfd.toNat ∧ Duplicated s p newfd.toNat d t := by
  unfold sysDup2
  rw [yields_bind, yields_get, hold, yields_bind]
  cases hentry : s.entries p newfd.toNat with
  | none =>
      have hclosed := processGetFileDescription_of_none (s := s) (p := p) (.inr hentry)
      have hskip := dup2CloseNew_closed hclosed
      refine yields_of_return hskip ((takeSlot hnew hentry d).mono ?_)
      rintro r t ⟨rfl, rfl⟩
      refine ⟨rfl, rfl, fun x => ?_, fun x => ?_, fun _ => ⟨rfl, rfl, rfl⟩⟩
      · rw [refCount_setRefCount, hentry]
        by_cases hx : x = d
        · simp [hx]
        · simp [hx, Files.setEntry]
      · by_cases hx : x = d
        · simp [hx, Files.setRefCount, Files.setEntry]
        · simp [hx, Files.setRefCount, Files.setEntry]
  | some d' =>
      obtain ⟨hold0, holdMax, holdEntry⟩ := processGetFileDescription_ok hold
      apply (dup2CloseNew_open h hnew hentry).mono
      rintro r t ⟨⟨n, rfl⟩, u, rfl, hu⟩
      have hempty : (u.setEntry p newfd.toNat none).entries p newfd.toNat = none := by simp [Files.setEntry]
      refine (takeSlot hnew hempty d).mono ?_
      rintro r t ⟨rfl, rfl⟩
      have hcount : 0 < (s.desc d').refCount := by
        cases hu with
        | inl hmore => omega
        | inr hlast => omega
      have hdesc : ∀ x, (u.desc x).refCount = (if x = d' then (s.desc d').refCount - 1 else (s.desc x).refCount) ∧
          (u.desc x).inode = (s.desc x).inode ∧ (u.desc x).flags = (s.desc x).flags := by
        intro x
        cases hu with
        | inl hmore =>
            rw [hmore.2]
            by_cases hx : x = d'
            · simp [hx, Files.setRefCount]
            · simp [hx, Files.setRefCount]
        | inr hlast =>
            rw [hlast.2.desc, hlast.1]
            by_cases hx : x = d'
            · simp [hx, Files.setRefCount, Files.freeDesc]
            · simp [hx, Files.setRefCount, Files.freeDesc]
      have hentries : u.entries = s.entries := by
        cases hu with
        | inl hmore => rw [hmore.2]; rfl
        | inr hlast => rw [hlast.2.entries]; rfl
      refine ⟨rfl, ?_, fun x => ?_, fun x => ?_, fun hshared => ?_⟩
      · change ((u.setEntry p newfd.toNat none).setEntry p newfd.toNat (some d)).entries = _
        rw [update_entries, hentries]
      · rw [refCount_setRefCount]
        change (if x = d then (u.desc d).refCount + 1 else (u.desc x).refCount) + _ = _
        rw [hentry, (hdesc d).1, (hdesc x).1]
        simp only [Option.some.injEq]
        by_cases hx : x = d
        · subst hx
          by_cases hxd : x = d'
          · subst hxd
            simp only [if_true]
            omega
          · simp [hxd, Ne.symm hxd]
        · by_cases hxd : x = d'
          · subst hxd
            simp only [hx, if_false, if_true]
            omega
          · simp [hx, hxd, Ne.symm hxd]
      · by_cases hx : x = d
        · subst hx
          simpa [Files.setRefCount, Files.setEntry] using (hdesc x).2
        · simpa [hx, Files.setRefCount, Files.setEntry] using (hdesc x).2
      · have hmore := hu.resolve_right fun hlast => hshared d' hentry hlast.1
        rw [hmore.2]
        exact ⟨rfl, rfl, rfl⟩

/-- A description that is counted more than once is duplicated to its own descriptor. -/
theorem dup2_keeps_itself (h : TableOk s p) (hold : processGetFileDescription s p fd = .ok d)
    (hshared : (s.desc d).refCount ≠ 1) :
    Yields (sysDup2 p fd fd) s fun r t => r = .ok fd.toNat ∧ t = s := by
  obtain ⟨hfd, hmax, hentry⟩ := processGetFileDescription_ok hold
  have hin : ¬OutOfTable fd := by
    simp only [OutOfTable]
    omega
  unfold sysDup2
  rw [yields_bind, yields_get, hold, yields_bind]
  apply (dup2CloseNew_open h hin hentry).mono
  rintro r t ⟨⟨n, rfl⟩, u, rfl, hu⟩
  obtain ⟨hmore, rfl⟩ := hu.resolve_right fun hlast => hshared hlast.1
  have hempty : ((s.setRefCount d ((s.desc d).refCount - 1)).setEntry p fd.toNat none).entries p fd.toNat = none := by
    simp [Files.setEntry]
  refine (takeSlot hin hempty d).mono ?_
  rintro r t ⟨rfl, rfl⟩
  have hcount : (s.desc d).refCount - 1 + 1 = (s.desc d).refCount := by omega
  have hrow : Function.update (s.entries p) fd.toNat (some d) = s.entries p := by
    rw [← hentry, Function.update_eq_self]
  refine ⟨rfl, ?_⟩
  simp [Files.setRefCount, Files.setEntry, hcount, hrow]

/-- Without an old or a new descriptor nothing happens. -/
theorem dup2_badf {oldfd newfd : Int}
    (h : (∀ d, processGetFileDescription s p oldfd ≠ .ok d) ∨ (OPEN_MAX : Int) ≤ newfd) :
    sysDup2 p oldfd newfd s = .ok (.error .EBADF, s) := by
  by_cases hold : ∀ d, processGetFileDescription s p oldfd ≠ .ok d
  · simp [sysDup2, processGetFileDescription_error hold]
  · have hmax := h.resolve_left hold
    obtain ⟨d, hd⟩ := not_forall_not.1 hold
    have hnew : processGetFileDescription s p newfd = .error .EBADF :=
      processGetFileDescription_of_none (.inl (.inr hmax))
    simp [sysDup2, hd, dup2CloseNew_closed hnew, processAllocFileDescriptor_large hmax]

/-- A call that closes the only reference of the old descriptor changes the description. -/
theorem dup2_frees_itself (hold : processGetFileDescription s p fd = .ok d) (hone : (s.desc d).refCount = 1) :
    Ensures (sysDup2 p fd fd) s fun _ t => t ≠ s := by
  obtain ⟨hfd, hmax, hentry⟩ := processGetFileDescription_ok hold
  unfold sysDup2
  rw [ensures_bind, ensures_get, hold]
  dsimp only
  rw [ensures_bind, dup2CloseNew, ensures_bind, ensures_get, hold]
  dsimp only
  rw [ensures_bind]
  apply (fileDescriptionClose_spec d s).mono
  intro _ u hu
  have hsame := (hu.resolve_left fun hmore => by omega).2
  have hkept : u.entries p fd.toNat = some d := by
    rw [hsame.entries]
    exact hentry
  apply (processFreeFileDescriptor_spec hfd hmax hkept).mono
  rintro r v ⟨rfl, rfl⟩
  have hclosed : u.closed d = s.closed d + 1 := by
    rw [hsame.closed]
    simp [Files.freeDesc, Files.setRefCount]
  have hchanged : ∀ t : Files P D N S, t.closed = u.closed → t ≠ s := by
    rintro t ht rfl
    have := congrFun ht d
    omega
  rw [ensures_bind]
  apply (processAllocFileDescriptor_spec p fd d _).mono
  rintro r w (⟨i, rfl, -, -, rfl, -⟩ | ⟨⟨e, rfl⟩, rfl, -, -⟩)
  · exact hchanged _ rfl
  · exact hchanged _ rfl

/-- With a negative new descriptor the call never says that it is bad. -/
theorem dup2_negative {oldfd newfd : Int} (hold : processGetFileDescription s p oldfd = .ok d) (hneg : newfd < 0) :
    Ensures (sysDup2 p oldfd newfd) s fun r _ => r ≠ .error .EBADF := by
  have hnew : processGetFileDescription s p newfd = .error .EBADF :=
    processGetFileDescription_of_none (.inl (.inl hneg))
  have hmax : ¬(OPEN_MAX : Int) ≤ newfd := by omega
  unfold sysDup2
  rw [ensures_bind, ensures_get, hold]
  dsimp only
  rw [ensures_bind_of_return (dup2CloseNew_closed hnew)]
  unfold processAllocFileDescriptor
  dsimp only
  rw [ensures_bind, if_neg hmax, ensures_bind, ensures_get, if_neg (Int.not_le.2 hneg)]
  cases findFreeEntry (s.entries p) 0 OPEN_MAX with
  | some i => exact nofun
  | none => exact nofun

/-- The law of `dup2` holds of a call exactly when the guard does. -/
theorem dup2_law_iff (s : Files P D N S) (p : P) (oldfd newfd : Int) (h : TableOk s p) :
    Yields (sysDup2 p oldfd newfd) s (Dup2Law s p oldfd newfd) ↔ Dup2Guard s p oldfd newfd := by
  constructor
  · intro hlaw d hold
    obtain ⟨r, t, hreturn, hr⟩ := yields_iff.1 hlaw
    by_cases hmax : (OPEN_MAX : Int) ≤ newfd
    · exact .inl hmax
    · refine .inr ⟨Int.not_lt.1 fun hneg => ?_, ?_⟩
      · have hnot := ensures_iff.1 (dup2_negative hold hneg) r t hreturn
        exact hnot (hr.badf (.inr (.inl hneg))).1
      · rintro rfl hone
        exact ensures_iff.1 (dup2_frees_itself hold hone) r t hreturn (hr.same d hold rfl).2
  · intro hguard
    by_cases hbad : (∀ d, processGetFileDescription s p oldfd ≠ .ok d) ∨ (OPEN_MAX : Int) ≤ newfd
    · refine yields_of_return (dup2_badf hbad) ⟨fun _ => ⟨rfl, rfl⟩, fun d hold heq => ?_, fun d hold hin _ => ?_⟩
      · have hmax := hbad.resolve_left fun hnone => hnone d hold
        obtain ⟨hfd, hlt, -⟩ := processGetFileDescription_ok hold
        omega
      · exact absurd (.inr (hbad.resolve_left fun hnone => hnone d hold)) hin
    · obtain ⟨hopen, hmax⟩ := not_or.1 hbad
      obtain ⟨d, hold⟩ := not_forall_not.1 hopen
      obtain ⟨hpos, hitself⟩ := (hguard d hold).resolve_left hmax
      have hin : ¬OutOfTable newfd := by
        simp only [OutOfTable]
        omega
      have honly : ∀ x, processGetFileDescription s p oldfd = .ok x → x = d := fun x hx =>
        Except.ok.inj (hx.symm.trans hold)
      have hnotBad : ¬((∀ d, processGetFileDescription s p oldfd ≠ .ok d) ∨ OutOfTable newfd) :=
        not_or.2 ⟨fun hnone => hnone d hold, hin⟩
      by_cases heq : oldfd = newfd
      · subst heq
        apply (dup2_keeps_itself h hold (hitself rfl)).mono
        intro r t hr
        exact ⟨fun hcon => absurd hcon hnotBad, fun _ _ _ => hr, fun _ _ _ hcon => absurd rfl hcon⟩
      · apply (dup2_moves h hold hin).mono
        intro r t hr
        exact ⟨fun hcon => absurd hcon hnotBad, fun _ _ hcon => absurd hcon heq, fun x hx _ _ => honly x hx ▸ hr⟩

end Law

/-- A process that has opened one file at descriptor 0. -/
theorem tableOk_after_open : ∃ t, openFile.run 2 oneProcess = .ok (.ok 0, t) ∧ TableOk t 2 ∧
    processGetFileDescription t 2 0 = .ok 0 ∧ (t.desc 0).refCount = 1 := by
  have hopen : ∃ t, openFile.run 2 oneProcess = .ok (.ok 0, t) ∧ t.registered 2 = true ∧
      (∀ d, t.descLive d = true → t.InodeHeld (t.desc d).inode) ∧ processGetFileDescription t 2 0 = .ok 0 ∧
      (t.desc 0).refCount = 1 := by
    refine ⟨_, rfl, rfl, fun d hd => ?_, rfl, rfl⟩
    by_cases hzero : d = 0
    · subst hzero
      exact Nat.one_pos
    · have hdead : Function.update oneProcess.descLive 0 true d = true := hd
      rw [Function.update_of_ne hzero] at hdead
      exact absurd hdead Bool.false_ne_true
  obtain ⟨t, hrun, hregistered, hinodes, hget, hone⟩ := hopen
  have hstep : (descriptorSystem Nat Nat Nat Nat).step oneProcess ⟨2, openFile, .ok 0⟩ t :=
    ⟨rfl, openFile_fresh, hrun⟩
  have hcounts := (fileCall_spec (descriptionIntegrity_initial oneProcess_initial) hstep).2 fun _ => ⟨0, by decide, rfl⟩
  exact ⟨t, hrun, ⟨hregistered, hcounts, hinodes⟩, hget, hone⟩

/-- `dup2(0, 5)`. -/
theorem dup2_law_after_open : ∃ t, openFile.run 2 oneProcess = .ok (.ok 0, t) ∧
    Yields (sysDup2 2 0 5) t (Dup2Law t 2 0 5) := by
  obtain ⟨t, hrun, hok, -, -⟩ := tableOk_after_open
  exact ⟨t, hrun, (dup2_law_iff t 2 0 5 hok).2 fun _ _ => .inr ⟨by decide, fun h => absurd h (by decide)⟩⟩

/-- `dup2(0, 0)` frees the description and `dup2(0, -1)` does not say that -1 is bad, when descriptor 0 is open. -/
theorem dup2_law_breaks : ∃ t, openFile.run 2 oneProcess = .ok (.ok 0, t) ∧ TableOk t 2 ∧
    ¬Yields (sysDup2 2 0 0) t (Dup2Law t 2 0 0) ∧ ¬Yields (sysDup2 2 0 (-1)) t (Dup2Law t 2 0 (-1)) := by
  obtain ⟨t, hrun, hok, hget, hone⟩ := tableOk_after_open
  refine ⟨t, hrun, hok, fun hlaw => ?_, fun hlaw => ?_⟩
  · obtain ⟨r, u, hreturn, hr⟩ := yields_iff.1 hlaw
    exact ensures_iff.1 (dup2_frees_itself hget hone) r u hreturn (hr.same 0 hget rfl).2
  · obtain ⟨r, u, hreturn, hr⟩ := yields_iff.1 hlaw
    have hneg : (-1 : Int) < 0 := by decide
    exact ensures_iff.1 (dup2_negative hget hneg) r u hreturn (hr.badf (.inr (.inl hneg))).1

end Chaotix
