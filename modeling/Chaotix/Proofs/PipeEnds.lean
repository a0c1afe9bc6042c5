/-
Module: Chaotix.Proofs.PipeEnds
Layer: Proofs
Purpose: The numbers of readers and writers of a pipe when `F_SETFL` may store any flags. As long as the last
  reference to a description is only dropped while its access bits are the ones it was opened with, each number
  counts the live descriptions that were opened for it, and the assertion of `fifo_close` holds.
Imports: Mathlib.Tactic, Chaotix.Proofs.PipeStream
Trusted boundary: none
Main exports: EndCounts, FlaggedEvent.KeepsAccess, EndsInvariant, fifo_end_counts
-/
import Mathlib.Tactic
import Chaotix.Proofs.PipeStream

namespace Chaotix

/-! ### What the claim is about -/

section Claim

variable {P : Type}

/-- A description that is open, or is being closed. -/
def PipeState.Live (s : PipeState P) (e : PipeEnd) : Prop :=
  0 < s.refCount e ∨ ∃ p point fd exiting, s.pc p = .closing point fd e exiting

/-- No process is inside `file_description_close` behind `fifo_close`. -/
def PipeState.BetweenCalls (s : PipeState P) : Prop :=
  ∀ p fd e exiting, s.pc p ≠ .closing .release fd e exiting

/-- The live descriptions that were opened with a flag. -/
def PipeState.liveEnds (s : PipeState P) (f : Nat) : Set PipeEnd := {e | s.Live e ∧ HasFlag e.flags f}

/-- The numbers of readers and writers are right, and whoever is about to run `fifo_close` passes its assertion. -/
structure EndCounts (s : FlaggedPipe P) : Prop where
  readers : s.pipe.BetweenCalls → (s.pipe.fifo.numReaders : ℕ∞) = (s.pipe.liveEnds O_RDONLY).encard
  writers : s.pipe.BetweenCalls → (s.pipe.fifo.numWriters : ℕ∞) = (s.pipe.liveEnds O_WRONLY).encard
  assertion : ∀ p fd e exiting, s.pipe.pc p = .closing .fopsClose fd e exiting →
    ¬(HasFlag (s.flags e) O_RDONLY ∧ HasFlag (s.flags e) O_WRONLY)

/-- Flags with the access bits that a description was opened with. -/
def PipeEnd.SameAccess (e : PipeEnd) (flags : Nat) : Prop :=
  (HasFlag flags O_RDONLY ↔ e = .reader) ∧ (HasFlag flags O_WRONLY ↔ e = .writer)

/-- The step does not drop the last reference to a description whose access bits have changed. -/
def FlaggedEvent.KeepsAccess (s : FlaggedPipe P) : FlaggedEvent P → Prop
  | .pipe (.close p fd) =>
      ∀ e, s.pipe.table p fd = some e → s.pipe.refCount e = 1 → e.SameAccess (s.flags e)
  | .pipe (.exitEntry p) =>
      ∀ fd e, s.pipe.pc p = .exiting fd → s.pipe.table p fd = some e → s.pipe.refCount e = 1 →
        e.SameAccess (s.flags e)
  | _ => True

end Claim

theorem PipeEnd.sameAccess_flags (e : PipeEnd) : e.SameAccess e.flags := by
  cases e <;> simp [SameAccess, PipeEnd.flags, HasFlag]

/-! ### Who is about to run `fifo_close` -/

section Closers

variable {P : Type} {s s' : PipeState P}

/-- The processes that have dropped the last reference to a description and not run `fifo_close` yet. -/
def PipeState.closers (s : PipeState P) (e : PipeEnd) : Set P :=
  {p | ∃ fd exiting, s.pc p = .closing .fopsClose fd e exiting}

/-- A description that has not been through `fifo_close`. -/
def PipeState.Open (s : PipeState P) (e : PipeEnd) : Prop := 0 < s.refCount e ∨ (s.closers e).Nonempty

/-- Neither the references nor the closers of a description change. -/
structure SameEnds (s s' : PipeState P) (e : PipeEnd) : Prop where
  refCount : 0 < s'.refCount e ↔ 0 < s.refCount e
  closers : s'.closers e = s.closers e

/-- The last reference to a description is dropped. -/
structure DropsLast (s s' : PipeState P) (e : PipeEnd) (p : P) : Prop where
  one : s.refCount e = 1
  refCount : s'.refCount e = 0
  closers : s'.closers e = insert p (s.closers e)

theorem SameEnds.open_iff {e : PipeEnd} (h : SameEnds s s' e) : s'.Open e ↔ s.Open e := by
  rw [PipeState.Open, PipeState.Open, h.refCount, h.closers]

theorem SameEnds.trans {s'' : PipeState P} {e : PipeEnd} (h : SameEnds s s' e) (h' : SameEnds s' s'' e) :
    SameEnds s s'' e :=
  ⟨h'.refCount.trans h.refCount, h'.closers.trans h.closers⟩

/-- The slots, the buffer and the numbers of readers and writers play no part. -/
theorem SameEnds.of_eq {e : PipeEnd} (hrefs : s'.refCount = s.refCount) (hpc : s'.pc = s.pc) :
    SameEnds s s' e := by
  constructor
  · rw [hrefs]
  · simp only [PipeState.closers, hpc]

/-- One more reference to a description that has one. -/
theorem SameEnds.addRef {e : PipeEnd} (hpos : 0 < s.refCount e) (e' : PipeEnd) : SameEnds s (s.addRef e) e' := by
  constructor
  · by_cases heq : e' = e
    · subst heq
      simp [PipeState.addRef, hpos]
    · simp [PipeState.addRef, heq]
  · rfl

/-- The closers stay when a process moves that neither was nor becomes one. -/
theorem PipeState.closers_of_moves {p : P} {e : PipeEnd} (hpc : ∀ q, q ≠ p → s'.pc q = s.pc q)
    (hold : ∀ fd exiting, s.pc p ≠ .closing .fopsClose fd e exiting)
    (hnew : ∀ fd exiting, s'.pc p ≠ .closing .fopsClose fd e exiting) : s'.closers e = s.closers e := by
  ext q
  by_cases heq : q = p
  · subst heq
    constructor
    · rintro ⟨fd, exiting, h⟩
      exact absurd h (hnew fd exiting)
    · rintro ⟨fd, exiting, h⟩
      exact absurd h (hold fd exiting)
  · simp only [closers, Set.mem_ofPred_eq, hpc q heq]

variable [DecidableEq P]

/-- A process moves between points where it is not about to run `fifo_close`. -/
theorem SameEnds.setPc (s : PipeState P) (p : P) (pc : PipePc P) (e : PipeEnd)
    (hold : ∀ fd exiting, s.pc p ≠ .closing .fopsClose fd e exiting)
    (hnew : ∀ fd exiting, pc ≠ .closing .fopsClose fd e exiting) : SameEnds s (s.setPc p pc) e := by
  constructor
  · exact Iff.rfl
  · apply PipeState.closers_of_moves (p := p)
    · exact fun q hne => Function.update_of_ne hne _ _
    · exact hold
    · simpa using hnew

/-- A slot is closed: other descriptions are as before, and this one is, unless it was counted once. -/
theorem PipeState.dropRef_ends {p : P} (fd : Nat) {e : PipeEnd} (exiting : Bool) (hpos : 0 < s.refCount e)
    (hpc : ∀ point fd e exiting, s.pc p ≠ .closing point fd e exiting) (e' : PipeEnd) :
    SameEnds s (s.dropRef p fd e exiting) e' ∨
      e' = e ∧ DropsLast s (s.dropRef p fd e exiting) e' p := by
  unfold PipeState.dropRef
  split_ifs with hmore
  · refine Or.inl ⟨?_, ?_⟩
    · by_cases heq : e' = e
      · subst heq
        simp only [afterClose_refCount, Function.update_self]
        omega
      · simp [Function.update_of_ne heq]
    · have hframe := OnlyMoves.afterClose
        { s with refCount := Function.update s.refCount e (s.refCount e - 1) } p fd exiting
      apply closers_of_moves (p := p) hframe.pc
      · exact fun fd' exiting' => hpc .fopsClose fd' e' exiting'
      · intro fd' exiting'
        rw [afterClose_pc]
        cases exiting <;> simp
  · by_cases heq : e' = e
    · subst heq
      refine Or.inr ⟨rfl, by omega, by simpa using Nat.eq_zero_of_not_pos hmore, ?_⟩
      ext q
      by_cases hq : q = p
      · subst hq
        simp only [closers, Set.mem_ofPred_eq, setPc_pc, Set.mem_insert_iff, true_or, iff_true]
        exact ⟨fd, exiting, rfl⟩
      · simp [closers, setPc, hq]
    · refine Or.inl ⟨by simp [Function.update_of_ne heq], ?_⟩
      apply closers_of_moves (p := p)
      · exact fun q hne => Function.update_of_ne hne _ _
      · exact fun fd' exiting' => hpc .fopsClose fd' e' exiting'
      · intro fd' exiting' h
        simp only [setPc_pc, PipePc.closing.injEq] at h
        exact heq h.2.2.1.symm

/-- What a step that does not look at the flags does to a description. -/
theorem pipeStep_ends {ev : PipeEvent P} (inv : PipeInvariant s) (hfree : ev.FlagFree) (hstep : PipeStep s ev s')
    (e : PipeEnd) :
    s'.fifo.opened e = s.fifo.opened e ∧
      (SameEnds s s' e ∨ ∃ p, DropsLast s s' e p ∧
        ((∃ fd, ev = .close p fd ∧ s.table p fd = some e) ∨
          ∃ fd, ev = .exitEntry p ∧ s.pc p = .exiting fd ∧ s.table p fd = some e)) := by
  cases hstep with
  | readCall _ _ _ _ => exact absurd hfree id
  | writeCall _ _ _ _ => exact absurd hfree id
  | closeFops _ => exact absurd hfree id
  | readUnblocked hpc _ => exact ⟨rfl, Or.inl (.setPc s _ _ e (by simp [hpc]) (by simp))⟩
  | writeUnblocked hpc _ => exact ⟨rfl, Or.inl (.setPc s _ _ e (by simp [hpc]) (by simp))⟩
  | readInterrupted hpc => exact ⟨rfl, Or.inl (.setPc s _ _ e (by simp [hpc]) (by simp))⟩
  | writeInterrupted hpc => exact ⟨rfl, Or.inl (.setPc s _ _ e (by simp [hpc]) (by simp))⟩
  | @readSection p count hpc =>
      refine ⟨opened_fifoReadSection s.fifo count e, Or.inl ?_⟩
      have hfifo : SameEnds s { s with fifo := (fifoReadSection s.fifo count).2 } e := .of_eq rfl rfl
      apply hfifo.trans
      apply SameEnds.setPc
      · simp [hpc]
      · split <;> simp
  | @writeSection p bytes hpc =>
      refine ⟨opened_fifoWriteSection s.fifo bytes e, Or.inl ?_⟩
      have hfifo : SameEnds s { s with fifo := (fifoWriteSection s.fifo bytes).2 } e := .of_eq rfl rfl
      apply hfifo.trans
      apply SameEnds.setPc
      · simp [hpc]
      · split <;> simp
  | @dup p fd newfd e' hpc =>
      have hslot : SameEnds s (s.setSlot p newfd (some e')) e := .of_eq rfl rfl
      exact ⟨rfl, Or.inl (hslot.trans (.setPc _ _ _ e (by simp [PipeState.setSlot, hpc]) (by simp)))⟩
  | @dupRef p fd newfd e' hpc =>
      obtain ⟨hslot, hne, _⟩ := inv.duplicating p fd newfd e' hpc
      have hmem : (p, fd) ∈ s.counted e' := ⟨hslot, by simpa [hpc, PipePc.Counted] using hne⟩
      have href := SameEnds.addRef (inv.refCount_pos hmem) e
      exact ⟨rfl, Or.inl (href.trans (.setPc _ _ _ e (by simp [PipeState.addRef, hpc]) (by simp)))⟩
  | @close p fd e' hpc hslot hpos =>
      refine ⟨by simp, ?_⟩
      rcases PipeState.dropRef_ends fd false hpos (p := p) (by simp [hpc]) e with hsame | ⟨rfl, hdrop⟩
      · exact Or.inl hsame
      · exact Or.inr ⟨p, hdrop, Or.inl ⟨fd, rfl, hslot⟩⟩
  | @closeRelease p fd e' exiting hpc =>
      have hframe := OnlyMoves.afterClose s p fd exiting
      refine ⟨by simp, Or.inl ⟨by simp, ?_⟩⟩
      apply PipeState.closers_of_moves hframe.pc
      · simp [hpc]
      · intro fd' exiting'
        rw [PipeState.afterClose_pc]
        cases exiting <;> simp
  | @fork p child hpc hchild =>
      have htable : SameEnds s { s with table := Function.update s.table child (s.table p) } e := .of_eq rfl rfl
      have hne : p ≠ child := by
        rintro rfl
        simp [hpc] at hchild
      refine ⟨rfl, Or.inl ?_⟩
      apply (htable.trans (.setPc _ child (.embryo 0) e (by simp [hchild]) (by simp))).trans
      apply SameEnds.setPc
      · simp [PipeState.setPc, Function.update_of_ne hne, hpc]
      · simp
  | @forkEntry p child counted hpc hchild _ =>
      have htable := (inv.forking p child hpc).2
      cases hentry : s.table p counted with
      | none => exact ⟨rfl, Or.inl (.setPc s _ _ e (by simp [hchild]) (by simp))⟩
      | some e' =>
          have hmem : (p, counted) ∈ s.counted e' := ⟨hentry, by simp [hpc, PipePc.Counted]⟩
          have href := SameEnds.addRef (inv.refCount_pos hmem) e
          exact ⟨rfl, Or.inl (href.trans (.setPc _ _ _ e (by simp [PipeState.addRef, hchild]) (by simp)))⟩
  | @forkReturn p child hpc hchild =>
      refine ⟨rfl, Or.inl ?_⟩
      apply (SameEnds.setPc s child .outside e (by simp [hchild]) (by simp)).trans
      apply SameEnds.setPc
      · intro fd exiting
        by_cases hne : p = child
        · simp [hne]
        · simp [PipeState.setPc, Function.update_of_ne hne, hpc]
      · simp
  | @forkFail p child counted hpc hchild _ =>
      refine ⟨rfl, Or.inl ?_⟩
      apply (SameEnds.setPc s child .unborn e (by simp [hchild]) (by simp)).trans
      apply SameEnds.setPc
      · intro fd exiting
        by_cases hne : p = child
        · simp [hne]
        · simp [PipeState.setPc, Function.update_of_ne hne, hpc]
      · simp
  | exit hpc => exact ⟨rfl, Or.inl (.setPc s _ _ e (by simp [hpc]) (by simp))⟩
  | @exitSlot p fd e' hpc _ hslot hpos =>
      refine ⟨by simp, ?_⟩
      rcases PipeState.dropRef_ends fd true hpos (p := p) (by simp [hpc]) e with hsame | ⟨rfl, hdrop⟩
      · exact Or.inl hsame
      · exact Or.inr ⟨p, hdrop, Or.inr ⟨fd, rfl, hpc, hslot⟩⟩
  | exitEmptySlot hpc _ _ => exact ⟨rfl, Or.inl (.setPc s _ _ e (by simp [hpc]) (by simp))⟩
  | exitReturn hpc => exact ⟨rfl, Or.inl (.setPc s _ _ e (by simp [hpc]) (by simp))⟩

end Closers

/-! ### The invariant -/

section Invariant

variable {P : Type} [DecidableEq P] {s s' : FlaggedPipe P}

/-- A description counts as one reader or writer until one process runs `fifo_close` for it, and that process finds
    the access bits that the description was opened with. -/
structure EndsInvariant (s : FlaggedPipe P) : Prop where
  pipe : PipeInvariant s.pipe
  single : ∀ e, (s.pipe.closers e).Subsingleton
  opened : ∀ e, s.pipe.Open e → s.pipe.fifo.opened e = 1
  closed : ∀ e, ¬s.pipe.Open e → s.pipe.fifo.opened e = 0
  access : ∀ e, (s.pipe.closers e).Nonempty → e.SameAccess (s.flags e)

omit [DecidableEq P] in
/-- Nobody is about to run `fifo_close` for a description that has references. -/
theorem EndsInvariant.closers_eq_empty (inv : EndsInvariant s) {e : PipeEnd} (hpos : 0 < s.pipe.refCount e) :
    s.pipe.closers e = ∅ := by
  apply Set.eq_empty_iff_forall_notMem.2
  rintro p ⟨fd, exiting, hpc⟩
  exact Nat.ne_of_gt hpos (inv.pipe.closing p .fopsClose fd e exiting hpc)

omit [DecidableEq P] in
theorem EndsInvariant.of_same (inv : EndsInvariant s) {pipe : PipeState P} (hpipe : PipeInvariant pipe)
    (hsame : ∀ e, pipe.fifo.opened e = s.pipe.fifo.opened e ∧ SameEnds s.pipe pipe e) :
    EndsInvariant { s with pipe := pipe } := by
  constructor
  case pipe => exact hpipe
  case single =>
    intro e
    change (pipe.closers e).Subsingleton
    rw [(hsame e).2.closers]
    exact inv.single e
  case opened =>
    intro e h
    exact (hsame e).1.trans (inv.opened e ((hsame e).2.open_iff.1 h))
  case closed =>
    intro e h
    exact (hsame e).1.trans (inv.closed e fun h' => h ((hsame e).2.open_iff.2 h'))
  case access =>
    intro e h
    apply inv.access e
    rw [← (hsame e).2.closers]
    exact h

/-- A step that does not look at the flags. -/
theorem EndsInvariant.flagFree (inv : EndsInvariant s) {ev : PipeEvent P} {pipe : PipeState P}
    (hfree : ev.FlagFree) (hguard : (FlaggedEvent.pipe ev).KeepsAccess s) (hstep : PipeStep s.pipe ev pipe) :
    EndsInvariant { s with pipe := pipe } := by
  have hends := pipeStep_ends inv.pipe hfree hstep
  have hcases : ∀ e, SameEnds s.pipe pipe e ∨ ∃ p, DropsLast s.pipe pipe e p ∧ pipe.closers e = {p} ∧
      s.pipe.Open e ∧ e.SameAccess (s.flags e) := by
    intro e
    rcases (hends e).2 with hsame | ⟨p, hdrop, hevent⟩
    · exact Or.inl hsame
    · have hpos : 0 < s.pipe.refCount e := hdrop.one ▸ Nat.one_pos
      have hclosers := hdrop.closers
      rw [inv.closers_eq_empty hpos, insert_empty_eq] at hclosers
      refine Or.inr ⟨p, hdrop, hclosers, Or.inl hpos, ?_⟩
      rcases hevent with ⟨fd, rfl, hslot⟩ | ⟨fd, rfl, hpc, hslot⟩
      · exact hguard e hslot hdrop.one
      · exact hguard fd e hpc hslot hdrop.one
  constructor
  case pipe => exact pipeInvariant_step inv.pipe hstep
  case single =>
    intro e
    change (pipe.closers e).Subsingleton
    rcases hcases e with hsame | ⟨p, _, hclosers, _, _⟩
    · rw [hsame.closers]
      exact inv.single e
    · rw [hclosers]
      exact Set.subsingleton_singleton
  case opened =>
    intro e h
    apply (hends e).1.trans
    apply inv.opened e
    rcases hcases e with hsame | ⟨_, _, _, hopen, _⟩
    · exact hsame.open_iff.1 h
    · exact hopen
  case closed =>
    intro e h
    apply (hends e).1.trans
    apply inv.closed e
    rcases hcases e with hsame | ⟨p, _, hclosers, _, _⟩
    · exact fun h' => h (hsame.open_iff.2 h')
    · exact absurd (Or.inr ⟨p, by rw [hclosers]; rfl⟩) h
  case access =>
    intro e h
    rcases hcases e with hsame | ⟨_, _, _, _, haccess⟩
    · exact inv.access e (hsame.closers ▸ h)
    · exact haccess

/-- Flags with the same access bits are the same for `fifo_close`. -/
theorem fifoClose_of_sameAccess {e : PipeEnd} {flags : Nat} (h : e.SameAccess flags) (fifo : Fifo) :
    fifoClose fifo flags = fifoClose fifo e.flags := by
  have hflags := e.sameAccess_flags
  simp only [fifoClose, h.1, h.2, hflags.1, hflags.2]

theorem opened_fifoClose_self (e : PipeEnd) (fifo : Fifo) :
    (fifoClose fifo e.flags).opened e = wordPred (fifo.opened e) := by
  cases e <;> rfl

/-- `fifo_close`, of a description with the access bits that it was opened with. -/
theorem EndsInvariant.closeFops (inv : EndsInvariant s) {p : P} {fd : Nat} {e : PipeEnd} {exiting : Bool}
    (hpc : s.pipe.pc p = .closing .fopsClose fd e exiting) :
    EndsInvariant { s with pipe :=
      { s.pipe with fifo := fifoClose s.pipe.fifo (s.flags e) }.setPc p (.closing .release fd e exiting) } := by
  have hmem : p ∈ s.pipe.closers e := ⟨fd, exiting, hpc⟩
  have hzero := inv.pipe.closing p .fopsClose fd e exiting hpc
  rw [fifoClose_of_sameAccess (inv.access e ⟨p, hmem⟩)]
  generalize hnext : ({ s.pipe with fifo := fifoClose s.pipe.fifo e.flags }.setPc p
    (.closing .release fd e exiting)) = pipe
  have hfifo : pipe.fifo = fifoClose s.pipe.fifo e.flags := hnext ▸ rfl
  have hrefs : pipe.refCount = s.pipe.refCount := hnext ▸ rfl
  have hpcs : pipe.pc = Function.update s.pipe.pc p (.closing .release fd e exiting) := hnext ▸ rfl
  have hself : pipe.closers e = ∅ := by
    apply Set.eq_empty_iff_forall_notMem.2
    rintro q ⟨fd', exiting', h⟩
    rw [hpcs] at h
    by_cases hq : q = p
    · simp [hq] at h
    · rw [Function.update_of_ne hq] at h
      exact hq (inv.single e ⟨fd', exiting', h⟩ hmem)
  have hgone : ¬pipe.Open e := by
    rw [PipeState.Open, hrefs, hzero, hself]
    simp
  have hothers : ∀ e', e' ≠ e → SameEnds s.pipe pipe e' := by
    intro e' hne
    refine ⟨by rw [hrefs], ?_⟩
    apply PipeState.closers_of_moves (p := p)
    · intro q hq
      rw [hpcs, Function.update_of_ne hq]
    · intro fd' exiting' h
      rw [hpc] at h
      exact hne (PipePc.closing.inj h).2.2.1.symm
    · simp [hpcs]
  constructor
  case pipe =>
    rw [← hnext]
    exact pipeInvariant_step inv.pipe (.closeFops hpc)
  case single =>
    intro e'
    change (pipe.closers e').Subsingleton
    by_cases heq : e' = e
    · rw [heq, hself]
      exact Set.subsingleton_empty
    · rw [(hothers e' heq).closers]
      exact inv.single e'
  case opened =>
    intro e' h
    have hne : e' ≠ e := fun heq => hgone (heq ▸ h)
    change pipe.fifo.opened e' = 1
    rw [hfifo, opened_fifoClose hne]
    exact inv.opened e' ((hothers e' hne).open_iff.1 h)
  case closed =>
    intro e' h
    change pipe.fifo.opened e' = 0
    by_cases heq : e' = e
    · rw [heq, hfifo, opened_fifoClose_self, inv.opened e (Or.inr ⟨p, hmem⟩)]
      rfl
    · rw [hfifo, opened_fifoClose heq]
      exact inv.closed e' fun h' => h ((hothers e' heq).open_iff.2 h')
  case access =>
    intro e' h
    have hne : e' ≠ e := by
      rintro rfl
      exact hgone (Or.inr h)
    exact inv.access e' ((hothers e' hne).closers ▸ h)

omit [DecidableEq P] in
/-- `F_SETFL`: nobody is about to run `fifo_close` for a description that a slot holds. -/
theorem EndsInvariant.setFlags (inv : EndsInvariant s) {p : P} {fd : Nat} {e : PipeEnd}
    (hpc : s.pipe.pc p = .outside) (hslot : s.pipe.table p fd = some e) (arg : Nat) :
    EndsInvariant { s with flags := Function.update s.flags e arg } := by
  have hcounted : (p, fd) ∈ s.pipe.counted e := ⟨hslot, by simp [hpc, PipePc.Counted]⟩
  have hempty := inv.closers_eq_empty (inv.pipe.refCount_pos hcounted)
  refine ⟨inv.pipe, inv.single, inv.opened, inv.closed, fun e' h => ?_⟩
  have hne : e' ≠ e := by
    rintro rfl
    exact Set.not_nonempty_empty (hempty ▸ h)
  change e'.SameAccess (Function.update s.flags e arg e')
  rw [Function.update_of_ne hne]
  exact inv.access e' h

theorem endsInvariant_step {ev : FlaggedEvent P} (inv : EndsInvariant s) (hguard : ev.KeepsAccess s)
    (hstep : FlaggedStep s ev s') : EndsInvariant s' := by
  cases hstep with
  | pipe hfree hstep => exact inv.flagFree hfree hguard hstep
  | @readCall p fd e count hpc =>
      have hpipe : PipeInvariant (s.pipe.setPc p (.reading .blocks count)) :=
        inv.pipe.setPlain (by simp [hpc, PipePc.Plain]) trivial
      exact inv.of_same hpipe fun e => ⟨rfl, .setPc s.pipe _ _ e (by simp [hpc]) (by simp)⟩
  | @writeCall p fd e count hpc =>
      have hpipe : PipeInvariant (s.pipe.setPc p (.writing .blocks count)) :=
        inv.pipe.setPlain (by simp [hpc, PipePc.Plain]) trivial
      exact inv.of_same hpipe fun e => ⟨rfl, .setPc s.pipe _ _ e (by simp [hpc]) (by simp)⟩
  | closeFops hpc _ => exact inv.closeFops hpc
  | setFlags arg hpc hslot => exact inv.setFlags hpc hslot arg

theorem endsInvariant_initial (hinit : (flaggedPipeSystem P).init s) : EndsInvariant s := by
  obtain ⟨⟨innerBuf, p, readerFd, writerFd, hreader, hwriter, _, hpipe⟩, hflags⟩ := hinit
  have hclosers : ∀ e, s.pipe.closers e = ∅ := by
    intro e
    apply Set.eq_empty_iff_forall_notMem.2
    rintro q ⟨fd, exiting, h⟩
    simp only [hpipe, PipeState.sysPipe, Function.update_apply] at h
    split_ifs at h
  have hrefs : ∀ e, s.pipe.refCount e = 1 := fun e => by rw [hpipe, PipeState.sysPipe]
  constructor
  case pipe =>
    rw [hpipe]
    exact pipeInvariant_sysPipe hreader hwriter
  case single =>
    intro e
    rw [hclosers]
    exact Set.subsingleton_empty
  case opened =>
    intro e _
    rw [hpipe]
    cases e <;> rfl
  case closed =>
    intro e h
    exact absurd (Or.inl (by rw [hrefs]; exact Nat.one_pos)) h
  case access =>
    intro e h
    rw [hclosers] at h
    exact absurd h Set.not_nonempty_empty

end Invariant

/-! ### Runs -/

section Runs

variable {P : Type} {s : FlaggedPipe P}

/-- Between calls, a live description has not been through `fifo_close`. -/
theorem PipeState.live_iff_open {s : PipeState P} (hbetween : s.BetweenCalls) (e : PipeEnd) :
    s.Live e ↔ s.Open e := by
  apply or_congr_right
  constructor
  · rintro ⟨p, point, fd, exiting, hpc⟩
    cases point with
    | fopsClose => exact ⟨p, fd, exiting, hpc⟩
    | release => exact absurd hpc (hbetween p fd e exiting)
  · rintro ⟨p, fd, exiting, hpc⟩
    exact ⟨p, .fopsClose, fd, exiting, hpc⟩

/-- The number that an end counts in is the number of the live descriptions that were opened like it. -/
theorem EndsInvariant.counts (inv : EndsInvariant s) (hbetween : s.pipe.BetweenCalls) {e : PipeEnd} {f : Nat}
    (hf : ∀ e', HasFlag e'.flags f ↔ e' = e) : (s.pipe.fifo.opened e : ℕ∞) = (s.pipe.liveEnds f).encard := by
  have hmem : ∀ e', e' ∈ s.pipe.liveEnds f ↔ s.pipe.Open e ∧ e' = e := by
    intro e'
    rw [PipeState.liveEnds, Set.mem_ofPred_eq, s.pipe.live_iff_open hbetween, hf]
    exact ⟨fun ⟨h, heq⟩ => ⟨heq ▸ h, heq⟩, fun ⟨h, heq⟩ => ⟨heq ▸ h, heq⟩⟩
  by_cases hopen : s.pipe.Open e
  · have hone : s.pipe.liveEnds f = {e} := by
      ext e'
      simp [hmem, hopen]
    rw [inv.opened e hopen, hone, Set.encard_singleton, Nat.cast_one]
  · have hnone : s.pipe.liveEnds f = ∅ := by
      ext e'
      simp [hmem, hopen]
    rw [inv.closed e hopen, hnone, Set.encard_empty, Nat.cast_zero]

theorem EndsInvariant.endCounts (inv : EndsInvariant s) : EndCounts s := by
  constructor
  case readers => exact fun hbetween => inv.counts hbetween fun e => e.sameAccess_flags.1
  case writers => exact fun hbetween => inv.counts hbetween fun e => e.sameAccess_flags.2
  case assertion =>
    rintro p fd e exiting hpc ⟨hread, hwrite⟩
    have haccess := inv.access e ⟨p, fd, exiting, hpc⟩
    have hreader := haccess.1.1 hread
    have hwriter := haccess.2.1 hwrite
    rw [hreader] at hwriter
    cases hwriter

variable [DecidableEq P]

/-- Pipe ends over runs: the numbers of readers and writers are the numbers of live descriptions opened for reading
    and for writing, and the assertion of `fifo_close` holds, in every state of a run that never drops the last
    reference to a description whose access bits have changed. -/
theorem fifo_end_counts {t : FlaggedPipe P} {xs : List (Transition (FlaggedPipe P) (FlaggedEvent P))}
    (hinit : (flaggedPipeSystem P).init s) (run : (flaggedPipeSystem P).Run s xs t)
    (hguard : ∀ x ∈ xs, x.event.KeepsAccess x.before) : EndCounts t ∧ ∀ x ∈ xs, EndCounts x.before := by
  have hstart := endsInvariant_initial hinit
  have hkeeps : ∀ (s : FlaggedPipe P) e s', EndsInvariant s → e.KeepsAccess s → (flaggedPipeSystem P).step s e s' →
      EndsInvariant s' := fun _ _ _ inv hguard hstep => endsInvariant_step inv hguard hstep
  refine ⟨(run.guarded_invariant EndsInvariant hkeeps hstart hguard).endCounts, fun x hx => ?_⟩
  exact (run.guarded_invariant_mem EndsInvariant hkeeps hstart hguard x hx).1.endCounts

/-- A process closes the writer of its pipe: its number falls to zero. -/
theorem fifo_end_counts_after_close :
    ∃ s xs t, (flaggedPipeSystem Nat).init s ∧ (flaggedPipeSystem Nat).Run s xs t ∧
      t.pipe.fifo.numWriters = 0 ∧ EndCounts t := by
  let s : FlaggedPipe Nat := ⟨PipeState.sysPipe (fun _ => 0) 0 3 4, PipeEnd.flags⟩
  have hinit : (flaggedPipeSystem Nat).init s := ⟨⟨fun _ => 0, 0, 3, 4, by decide, by decide, by decide, rfl⟩, rfl⟩
  let dropped : FlaggedPipe Nat := { s with pipe := s.pipe.dropRef 0 4 .writer false }
  have hclose : (flaggedPipeSystem Nat).step s (.pipe (.close 0 4)) dropped :=
    .pipe trivial (.close (e := .writer) rfl rfl Nat.one_pos)
  have hpc : dropped.pipe.pc 0 = .closing .fopsClose 4 .writer false := rfl
  have hfops : (flaggedPipeSystem Nat).step dropped (.pipe (.closeFops 0)) _ := .closeFops hpc (by decide)
  have run : (flaggedPipeSystem Nat).Run s _ _ := .cons hclose (.cons hfops (.nil _))
  refine ⟨s, _, _, hinit, run, by decide, (fifo_end_counts hinit run ?_).1⟩
  intro x hx
  simp only [List.mem_cons, List.not_mem_nil, or_false] at hx
  rcases hx with rfl | rfl
  · intro e _ _
    exact e.sameAccess_flags
  · exact trivial

/-- `F_SETFL` makes the reader a writer as well: the next process that closes it fails the assertion. -/
theorem setFlags_breaks_fifo_close :
    ¬∀ (s : FlaggedPipe Nat) xs t, (flaggedPipeSystem Nat).init s → (flaggedPipeSystem Nat).Run s xs t →
      EndCounts t := by
  intro h
  let s : FlaggedPipe Nat := ⟨PipeState.sysPipe (fun _ => 0) 0 3 4, PipeEnd.flags⟩
  have hinit : (flaggedPipeSystem Nat).init s := ⟨⟨fun _ => 0, 0, 3, 4, by decide, by decide, by decide, rfl⟩, rfl⟩
  let changed : FlaggedPipe Nat := { s with flags := Function.update s.flags .reader O_RDWR }
  have hset : (flaggedPipeSystem Nat).step s (.setFlags 0 3 O_RDWR) changed :=
    .setFlags (e := .reader) O_RDWR rfl rfl
  have hclose : (flaggedPipeSystem Nat).step changed (.pipe (.close 0 3))
      { changed with pipe := changed.pipe.dropRef 0 3 .reader false } :=
    .pipe trivial (.close (e := .reader) rfl rfl Nat.one_pos)
  have counts := h s _ _ hinit (.cons hset (.cons hclose (.nil _)))
  exact counts.assertion 0 3 .reader false rfl (by decide)

end Runs

end Chaotix
