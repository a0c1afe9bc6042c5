/-
Module: Chaotix.Proofs.TableEffects
Layer: Proofs
Purpose: What a call on descriptors does to the tables. A call of one process leaves the slots of all others alone, and
  what they lead to as long as it is live. For the calls that the shell makes there is one lemma each, with the slot that
  is written and what it leads to afterwards.
Imports: Mathlib.Tactic, Chaotix.Userland.ShSession, Chaotix.Proofs.DescriptorCounts
Trusted boundary: none
Main exports: Files.tables, Moves, fileCall_moves, sysClose_table, sysFcntl_table, sysDup2_table, sysOpen_table,
  sysPipeEnds_table, sysFork_table, sysPipe_eq
-/
import Mathlib.Tactic
import Chaotix.Userland.ShSession
import Chaotix.Proofs.DescriptorCounts

namespace Chaotix

open Sh (LowestFree)

section Tables

variable {P D N S : Type}

/-- What the tables say: the processes, their slots, and how often and for which inode each block has been used. -/
structure Tables (P D N S : Type) where
  registered : P → Bool
  entries : P → ℕ → Option D
  opened : D → ℕ
  inode : D → InodeRef N S

def Files.tables (f : Files P D N S) : Tables P D N S := ⟨f.registered, f.entries, f.opened, fun d => (f.desc d).inode⟩

variable {f f' : Files P D N S}

theorem SameDescriptions.tables (h : SameDescriptions f f') : f'.tables = f.tables := by
  rw [Files.tables, Files.tables, h.registered, h.entries, h.opened, h.desc]

theorem opening_congr (h : f'.tables = f.tables) : f'.opening = f.opening := by
  funext d
  have hopened := congrFun (congrArg Tables.opened h) d
  have hinode := congrFun (congrArg Tables.inode h) d
  simp only [Files.tables] at hopened hinode
  rw [Files.opening, Files.opening, hopened, hinode]

variable [DecidableEq D]

theorem tables_setRefCount (f : Files P D N S) (d : D) (n : ℕ) : (f.setRefCount d n).tables = f.tables := by
  have hinode : (fun d' => (Function.update f.desc d { f.desc d with refCount := n } d').inode) =
      fun d' => (f.desc d').inode := by
    funext d'
    by_cases heq : d' = d
    · simp [heq]
    · simp [heq]
  rw [Files.tables, Files.tables]
  exact congrArg (Tables.mk f.registered f.entries f.opened) hinode

theorem opening_newDesc (f : Files P D N S) (d : D) (inode : InodeRef N S) (flags : ℕ) :
    (f.newDesc d inode flags).opening d = ⟨d, f.opened d + 1, inode⟩ := by
  simp [Files.opening, Files.newDesc]

theorem opening_newDesc_ne (f : Files P D N S) {d d' : D} (hne : d' ≠ d) (inode : InodeRef N S) (flags : ℕ) :
    (f.newDesc d inode flags).opening d' = f.opening d' := by
  simp [Files.opening, Files.newDesc, hne]

variable [DecidableEq P] [DecidableEq N] [DecidableEq S]

theorem fileDescriptionClose_tables (d : D) (f : Files P D N S) :
    Ensures (fileDescriptionClose d) f fun _ f' => f'.tables = f.tables := by
  apply (fileDescriptionClose_spec d f).mono
  rintro _ f' (⟨-, rfl⟩ | ⟨-, hsame⟩)
  · exact tables_setRefCount f d _
  · rw [hsame.tables]
    exact tables_setRefCount f d 0

/-- The search finds the first empty slot. -/
theorem findFreeEntry_lowest {entries : ℕ → Option D} {i n j : ℕ} (h : findFreeEntry entries i n = some j) :
    ∀ k, i ≤ k → k < j → entries k ≠ none := by
  induction n generalizing i with
  | zero => simp [findFreeEntry] at h
  | succ n ih =>
      unfold findFreeEntry at h
      split_ifs at h with hfree
      · obtain rfl := Option.some.inj h
        omega
      · intro k hik hkj
        rcases Nat.eq_or_lt_of_le hik with rfl | hlt
        · simpa [Option.isNone_iff_eq_none] using hfree
        · exact ih h k hlt hkj

/-- A new descriptor gets the first empty slot, or there is none. -/
theorem processAllocFileDescriptor_lowest (p : P) (d : D) (f : Files P D N S) :
    Ensures (processAllocFileDescriptor p (-1) d) f fun r f' =>
      (∃ i, r = .ok i ∧ LowestFree (f.entries p) i ∧ f' = f.setEntry p i (some d)) ∨
        ((∃ e, r = .error e) ∧ f' = f ∧ ∀ i, i < OPEN_MAX → f.entries p i ≠ none) := by
  unfold processAllocFileDescriptor
  rw [if_neg (by decide), ensures_bind, ensures_get, if_neg (by decide)]
  rcases findFreeEntry_cases (f.entries p) 0 OPEN_MAX with ⟨i, hi, -, hlt, hfree⟩ | ⟨hnone, hall⟩
  · rw [hi]
    exact .inl ⟨i, rfl, ⟨by omega, hfree, fun j hj => findFreeEntry_lowest hi j (Nat.zero_le j) hj⟩, rfl⟩
  · rw [hnone]
    exact .inr ⟨⟨_, rfl⟩, rfl, fun i hi => hall i (Nat.zero_le i) (by omega)⟩

end Tables

/-! ### What a call leaves alone -/

section Frames

variable {P D N S : Type}

/-- Since the start the slots of the other processes have stayed as they were, and so has what was live. -/
structure Moves (p : P) (start f : Files P D N S) : Prop where
  registered : ∀ q, q ≠ p → start.registered q = true → f.registered q = true
  entries : ∀ q, q ≠ p → start.registered q = true → f.entries q = start.entries q
  opening : ∀ d, start.descLive d = true → f.opening d = start.opening d
  opened : ∀ d, start.opened d ≤ f.opened d

namespace Moves

variable {p : P} {start f f' : Files P D N S}

theorem refl (p : P) (f : Files P D N S) : Moves p f f :=
  ⟨fun _ _ h => h, fun _ _ _ => rfl, fun _ _ => rfl, fun _ => le_refl _⟩

theorem same (h : Moves p start f) (hsame : f'.tables = f.tables) : Moves p start f' := by
  have hregistered := congrArg Tables.registered hsame
  have hentries := congrArg Tables.entries hsame
  have hopened := congrArg Tables.opened hsame
  simp only [Files.tables] at hregistered hentries hopened
  refine ⟨?_, ?_, ?_, ?_⟩
  · rw [hregistered]
    exact h.registered
  · rw [hentries]
    exact h.entries
  · rw [opening_congr hsame]
    exact h.opening
  · rw [hopened]
    exact h.opened

section Updates

variable [DecidableEq P] [DecidableEq D]

theorem setEntry (h : Moves p start f) (i : ℕ) (entry : Option D) : Moves p start (f.setEntry p i entry) := by
  refine ⟨h.registered, fun q hq hreg => ?_, h.opening, h.opened⟩
  rw [← h.entries q hq hreg]
  exact Function.update_of_ne hq ..

theorem newDesc (h : Moves p start f) {d : D} (hlive : start.descLive d = false) (inode : InodeRef N S) (flags : ℕ) :
    Moves p start (f.newDesc d inode flags) := by
  refine ⟨h.registered, h.entries, fun d' hd' => ?_, fun d' => ?_⟩
  · have hne : d' ≠ d := by
      rintro rfl
      simp [hlive] at hd'
    rw [opening_newDesc_ne f hne, h.opening d' hd']
  · by_cases heq : d' = d
    · subst heq
      have := h.opened d'
      simp [Files.newDesc]
      omega
    · simpa [Files.newDesc, heq] using h.opened d'

/-- The slots of a process that was not there may change. -/
theorem setEntries (h : Moves p start f) {child : P} (hchild : start.registered child = false) (entries : ℕ → Option D) :
    Moves p start { f with entries := Function.update f.entries child entries } := by
  refine ⟨h.registered, fun q hq hreg => ?_, h.opening, h.opened⟩
  have hne : q ≠ child := by
    rintro rfl
    simp [hchild] at hreg
  rw [← h.entries q hq hreg]
  exact Function.update_of_ne hne ..

theorem register (h : Moves p start f) (child : P) :
    Moves p start { f with registered := Function.update f.registered child true } := by
  refine ⟨fun q hq hreg => ?_, h.entries, h.opening, h.opened⟩
  by_cases heq : q = child
  · simp [heq]
  · simpa [heq] using h.registered q hq hreg

theorem unregister (h : Moves p start f) : Moves p start { f with registered := Function.update f.registered p false } := by
  refine ⟨fun q hq hreg => ?_, h.entries, h.opening, h.opened⟩
  simpa [hq] using h.registered q hq hreg

end Updates

end Moves

variable [DecidableEq P] [DecidableEq D] [DecidableEq N] [DecidableEq S] {p : P} {start f : Files P D N S}

theorem fileDescriptionClose_moves (h : Moves p start f) (d : D) :
    Ensures (fileDescriptionClose d) f fun _ f' => Moves p start f' :=
  (fileDescriptionClose_tables d f).mono fun _ _ hsame => h.same hsame

theorem processFreeFileDescriptor_moves (h : Moves p start f) (fd : ℤ) :
    Ensures (processFreeFileDescriptor p fd) f fun _ f' => Moves p start f' := by
  unfold processFreeFileDescriptor
  split_ifs
  · exact h
  · rw [ensures_bind, ensures_get]
    split_ifs
    · exact h
    · exact h.setEntry _ none

theorem processAllocFileDescriptor_moves (h : Moves p start f) (fd : ℤ) (d : D) :
    Ensures (processAllocFileDescriptor p fd d) f fun _ f' => Moves p start f' := by
  apply (processAllocFileDescriptor_spec p fd d f).mono
  rintro r f' (⟨i, -, -, -, rfl, -⟩ | ⟨-, rfl, -⟩)
  · exact h.setEntry i _
  · exact h

theorem inodeOpen_moves (h : Moves p start f) {inode : InodeRef N S} {flags : ℕ} {choice : OpenChoice D}
    (hfresh : choice.Fresh start) : Ensures (inodeOpen inode flags choice) f fun _ f' => Moves p start f' := by
  apply (inodeOpen_spec inode flags choice f).mono
  rintro r f' (⟨-, hsame, -⟩ | ⟨d, -, hblock, rfl, -⟩)
  · exact h.same hsame.tables
  · exact h.newDesc (hfresh d hblock) inode flags

theorem vfsOpen_moves (h : Moves p start f) {path : PathOutcome N} {flags : ℕ} {choice : OpenChoice D}
    (hfresh : choice.Fresh start) : Ensures (vfsOpen path flags .S_IFREG choice) f fun _ f' => Moves p start f' := by
  apply (vfsOpen_spec path flags (by decide) choice f).mono
  rintro r f' (⟨-, hsame, -⟩ | ⟨d, n, f₁, -, hblock, hsame, rfl, -⟩)
  · exact h.same hsame.tables
  · exact (h.same hsame.tables).newDesc (hfresh d hblock) _ flags

theorem sysOpen_moves (h : Moves p start f) {path : PathOutcome N} {flags : ℕ} {choice : OpenChoice D}
    (hfresh : choice.Fresh start) : Ensures (sysOpen p path flags choice) f fun _ f' => Moves p start f' := by
  rw [sysOpen, ensures_bind]
  apply (vfsOpen_moves h hfresh).mono
  intro r f₁ h₁
  cases r with
  | error e => exact h₁
  | ok d => exact processAllocFileDescriptor_moves h₁ (-1) d

/-- A slot is closed and cleared. -/
theorem closeSlot_moves (h : Moves p start f) (fd : ℤ) (d : D) :
    Ensures (do fileDescriptionClose d; processFreeFileDescriptor p fd : Kernel (Files P D N S) _) f
      fun _ f' => Moves p start f' := by
  rw [ensures_bind]
  exact (fileDescriptionClose_moves h d).mono fun _ _ h₁ => processFreeFileDescriptor_moves h₁ fd

/-- A slot for a description, with one more reference. -/
theorem allocRef_moves (h : Moves p start f) (fd : ℤ) (d : D) :
    Ensures (do
      match ← processAllocFileDescriptor p fd d with
      | .error e => return .error e
      | .ok ret =>
          refDesc d
          return .ok ret : Kernel (Files P D N S) (Except Errno Nat)) f fun _ f' => Moves p start f' := by
  rw [ensures_bind]
  apply (processAllocFileDescriptor_moves h fd d).mono
  intro r f₁ h₁
  cases r with
  | error e => exact h₁
  | ok ret => exact h₁.same (tables_setRefCount f₁ d _)

theorem sysClose_moves (h : Moves p start f) (fd : ℤ) : Ensures (sysClose p fd) f fun _ f' => Moves p start f' := by
  rw [sysClose, ensures_bind, ensures_get]
  cases processGetFileDescription f p fd with
  | error e => exact h
  | ok d => exact closeSlot_moves h fd d

theorem sysFcntl_moves (h : Moves p start f) (fd : ℤ) (cmd : FcntlCmd) (arg : ℕ) :
    Ensures (sysFcntl p fd cmd arg) f fun _ f' => Moves p start f' := by
  rw [sysFcntl, ensures_bind, ensures_get]
  cases processGetFileDescription f p fd with
  | error e => exact h
  | ok d =>
      cases cmd with
      | F_DUPFD => exact allocRef_moves h (-1) d
      | F_GETFL => exact h
      | F_SETFL =>
          have hinode : (fun d' => (Function.update f.desc d { f.desc d with flags := arg } d').inode) =
              fun d' => (f.desc d').inode := by
            funext d'
            by_cases heq : d' = d
            · simp [heq]
            · simp [heq]
          exact h.same (congrArg (Tables.mk f.registered f.entries f.opened) hinode)
      | other => exact h

theorem dup2CloseNew_moves (h : Moves p start f) (newfd : ℤ) :
    Ensures (dup2CloseNew p newfd) f fun _ f' => Moves p start f' := by
  rw [dup2CloseNew, ensures_bind, ensures_get]
  cases processGetFileDescription f p newfd with
  | error e => exact h
  | ok d => exact closeSlot_moves h newfd d

theorem sysDup2_moves (h : Moves p start f) (oldfd newfd : ℤ) :
    Ensures (sysDup2 p oldfd newfd) f fun _ f' => Moves p start f' := by
  rw [sysDup2, ensures_bind, ensures_get]
  cases processGetFileDescription f p oldfd with
  | error e => exact h
  | ok d =>
      dsimp only
      rw [ensures_bind]
      apply (dup2CloseNew_moves h newfd).mono
      intro r f₁ h₁
      cases r with
      | error e => exact h₁
      | ok _ => exact allocRef_moves h₁ newfd d

theorem fifoCreateInode_tables (fifo : CreateChoice N) (f : Files P D N S) :
    Ensures (fifoCreateInode fifo) f fun _ f' => f'.tables = f.tables := by
  unfold fifoCreateInode
  cases fifo.block with
  | none => rfl
  | some n =>
      cases fifo.buffers with
      | false => rfl
      | true => rfl

theorem pipeAllocFds_moves (h : Moves p start f) (reader writer : D) :
    Ensures (pipeAllocFds p reader writer) f fun _ f' => Moves p start f' := by
  rw [pipeAllocFds, ensures_bind]
  apply (processAllocFileDescriptor_moves h (-1) reader).mono
  intro r f₁ h₁
  cases r with
  | error e =>
      dsimp only
      rw [ensures_bind]
      apply (fileDescriptionClose_moves h₁ reader).mono
      intro _ f₂ h₂
      rw [ensures_bind]
      exact fileDescriptionClose_moves h₂ writer
  | ok readerFd =>
      dsimp only
      rw [ensures_bind]
      apply (processAllocFileDescriptor_moves h₁ (-1) writer).mono
      intro r f₂ h₂
      cases r with
      | ok writerFd => exact h₂
      | error e =>
          dsimp only
          rw [ensures_bind]
          apply (fileDescriptionClose_moves h₂ reader).mono
          intro _ f₃ h₃
          rw [ensures_bind]
          apply (fileDescriptionClose_moves h₃ writer).mono
          intro _ f₄ h₄
          rw [ensures_bind]
          exact processFreeFileDescriptor_moves h₄ readerFd

theorem sysPipe_moves (h : Moves p start f) {fifo : CreateChoice N} {readerChoice writerChoice : OpenChoice D}
    (hreader : readerChoice.Fresh start) (hwriter : writerChoice.Fresh start) :
    Ensures (sysPipe p fifo readerChoice writerChoice) f fun _ f' => Moves p start f' := by
  rw [sysPipe, ensures_bind]
  apply (fifoCreateInode_tables fifo f).mono
  intro r f₁ hsame
  have h₁ := h.same hsame
  cases r with
  | error e => exact h₁
  | ok n =>
      dsimp only
      rw [ensures_bind]
      apply (inodeRef_same (.node n) f₁).mono
      intro _ f₂ hsame₂
      rw [ensures_bind]
      apply (inodeOpen_moves (h₁.same hsame₂.tables) hreader).mono
      intro r f₃ h₃
      cases r with
      | error e =>
          dsimp only
          rw [ensures_bind]
          exact (inodeUnref_same (.node n) f₃).mono fun _ _ hsame₄ => h₃.same hsame₄.tables
      | ok reader =>
          dsimp only
          rw [ensures_bind]
          apply (inodeOpen_moves h₃ hwriter).mono
          intro r f₄ h₄
          cases r with
          | error e =>
              dsimp only
              rw [ensures_bind]
              exact fileDescriptionClose_moves h₄ reader
          | ok writer => exact pipeAllocFds_moves h₄ reader writer

theorem unixSocketCreate_tables (choice : CreateChoice S) (f : Files P D N S) :
    Ensures (unixSocketCreate choice) f fun _ f' => f'.tables = f.tables := by
  unfold unixSocketCreate
  cases choice.block with
  | none => rfl
  | some k =>
      dsimp only
      rw [ensures_bind, ensures_modify]
      cases choice.buffers with
      | false => rfl
      | true => rfl

theorem sysSocket_moves (h : Moves p start f) (domain type : ℤ) (create : CreateChoice S) {choice : OpenChoice D}
    (hfresh : choice.Fresh start) : Ensures (sysSocket p domain type create choice) f fun _ f' => Moves p start f' := by
  unfold sysSocket
  split_ifs
  · exact h
  · rw [ensures_bind]
    apply (unixSocketCreate_tables create f).mono
    intro r f₁ hsame
    have h₁ := h.same hsame
    cases r with
    | error e => exact h₁
    | ok k =>
        dsimp only
        rw [ensures_bind]
        apply (inodeRef_same (.socket k) f₁).mono
        intro _ f₂ hsame₂
        rw [ensures_bind]
        apply (inodeOpen_moves (h₁.same hsame₂.tables) hfresh).mono
        intro r f₃ h₃
        cases r with
        | error e => exact h₃
        | ok d => exact processAllocFileDescriptor_moves h₃ (-1) d

/-- The table of a child that is not there yet is copied, and the counters go up. -/
theorem fileDescriptorTableCloneFrom_tables (child parent : P) (allocated : Bool) (f : Files P D N S) :
    Ensures (fileDescriptorTableCloneFrom child parent allocated) f fun r f' =>
      ((∃ e, r = .error e) ∧ f' = f) ∨
        (r = .ok () ∧
          f'.tables = ({ f with entries := Function.update f.entries child (f.entries parent) } : Files P D N S).tables) := by
  unfold fileDescriptorTableCloneFrom
  cases allocated with
  | false => exact .inl ⟨⟨_, rfl⟩, rfl⟩
  | true =>
      simp only [Bool.not_true, Bool.false_eq_true, if_false]
      rw [ensures_bind, ensures_modify, ensures_bind]
      refine Ensures.mono (Ensures.forRange (fun _ t => t.tables =
        ({ f with entries := Function.update f.entries child (f.entries parent) } : Files P D N S).tables) rfl ?_) ?_
      · intro i t _ _ hsame
        rw [ensures_bind, ensures_get]
        cases t.entries parent i with
        | none => exact hsame
        | some d => exact (tables_setRefCount t d _).trans hsame
      · exact fun _ t hsame => .inr ⟨rfl, hsame⟩

theorem sysFork_moves (h : Moves p start f) {choice : ForkChoice P} (hchild : start.registered choice.child = false) :
    Ensures (sysFork p choice) f fun _ f' => Moves p start f' := by
  unfold sysFork
  cases choice.process with
  | false => exact h
  | true =>
  simp only [Bool.not_true, Bool.false_eq_true, if_false]
  cases choice.pageDirectory with
  | some e => exact h
  | none =>
  cases choice.cwdPath with
  | false => exact h
  | true =>
  simp only [Bool.not_true, Bool.false_eq_true, if_false]
  rw [ensures_bind]
  apply (fileDescriptorTableCloneFrom_tables choice.child p choice.table f).mono
  rintro r f₁ (⟨⟨e, rfl⟩, rfl⟩ | ⟨rfl, hsame⟩)
  · exact h
  · have h₁ := (h.setEntries hchild (f.entries p)).same hsame
    cases choice.stack with
    | false => exact h₁
    | true => exact h₁.register choice.child

theorem processExit_moves (h : Moves p start f) : Ensures (processExit p) f fun _ f' => Moves p start f' := by
  unfold processExit
  rw [ensures_bind, ensures_get, ensures_bind]
  apply ensures_require.2
  intro _
  rw [ensures_bind]
  refine Ensures.mono (Ensures.forRange (fun _ t => Moves p start t) h ?_) fun _ t ht => ht.unregister
  intro i t _ _ ht
  rw [ensures_bind, ensures_get]
  cases t.entries p i with
  | none => exact ht
  | some d => exact fileDescriptionClose_moves ht d

/-- A call leaves the slots of the other processes alone, and what they lead to. -/
theorem fileCall_moves {call : FileCall P D N S} (hfresh : call.Fresh f) :
    Ensures (call.run p) f fun _ f' => Moves p f f' := by
  have h := Moves.refl p f
  cases call with
  | «open» path flags choice => exact sysOpen_moves h hfresh.2
  | close fd => exact sysClose_moves h fd
  | fcntl fd cmd arg => exact sysFcntl_moves h fd cmd arg
  | dup2 oldfd newfd => exact sysDup2_moves h oldfd newfd
  | pipe fifo reader writer => exact sysPipe_moves h hfresh.2.1 hfresh.2.2.1
  | socket domain type create choice => exact sysSocket_moves h domain type create hfresh.2
  | fork choice => exact sysFork_moves h hfresh
  | exit => exact processExit_moves h

end Frames

/-! ### The slot that a call writes -/

section Slots

variable {P D N S : Type} [DecidableEq P] [DecidableEq D] [DecidableEq N] [DecidableEq S] {p : P} {f : Files P D N S}

theorem entries_of_tables {f' : Files P D N S} (h : f'.tables = f.tables) : f'.entries = f.entries :=
  congrArg Tables.entries h

theorem registered_of_tables {f' : Files P D N S} (h : f'.tables = f.tables) : f'.registered = f.registered :=
  congrArg Tables.registered h

theorem entries_setEntry (f : Files P D N S) (p : P) (i : ℕ) (entry : Option D) :
    (f.setEntry p i entry).entries p = Function.update (f.entries p) i entry := by
  simp [Files.setEntry]

theorem closeSlot_table {fd : ℤ} {d : D} (hget : processGetFileDescription f p fd = .ok d) :
    Ensures (do fileDescriptionClose d; processFreeFileDescriptor p fd : Kernel (Files P D N S) _) f fun r f' =>
      r = .ok 0 ∧ f'.registered = f.registered ∧ f'.entries p = Function.update (f.entries p) fd.toNat none := by
  obtain ⟨hfd, hmax, hentry⟩ := processGetFileDescription_ok hget
  rw [ensures_bind]
  apply (fileDescriptionClose_tables d f).mono
  intro _ f₁ hsame
  have hentry₁ : f₁.entries p fd.toNat = some d := by rw [entries_of_tables hsame, hentry]
  apply (processFreeFileDescriptor_spec hfd hmax hentry₁).mono
  rintro r f' ⟨rfl, rfl⟩
  have hregistered := registered_of_tables hsame
  refine ⟨rfl, hregistered, ?_⟩
  rw [entries_setEntry, entries_of_tables hsame]

theorem sysClose_table (fd : ℤ) (f : Files P D N S) :
    Ensures (sysClose p fd) f fun r f' => f'.registered = f.registered ∧
      (((∃ e, r = .error e) ∧ (∃ e, processGetFileDescription f p fd = .error e) ∧ f'.entries = f.entries) ∨
        (r = .ok 0 ∧ (∃ d, processGetFileDescription f p fd = .ok d) ∧
          f'.entries p = Function.update (f.entries p) fd.toNat none)) := by
  rw [sysClose, ensures_bind, ensures_get]
  cases hget : processGetFileDescription f p fd with
  | error e => exact ⟨rfl, .inl ⟨⟨e, rfl⟩, ⟨e, rfl⟩, rfl⟩⟩
  | ok d =>
      apply (closeSlot_table hget).mono
      rintro r f' ⟨rfl, hregistered, hentries⟩
      exact ⟨hregistered, .inr ⟨rfl, ⟨d, rfl⟩, hentries⟩⟩

theorem sysFcntl_table (fd : ℤ) (arg : ℕ) (f : Files P D N S) :
    Ensures (sysFcntl p fd .F_DUPFD arg) f fun r f' => f'.registered = f.registered ∧
      (((∃ e, r = .error e) ∧ f'.entries = f.entries ∧
          ((∃ e, processGetFileDescription f p fd = .error e) ∨ ∀ i, i < OPEN_MAX → f.entries p i ≠ none)) ∨
        ∃ i d, r = .ok i ∧ processGetFileDescription f p fd = .ok d ∧ LowestFree (f.entries p) i ∧
          f'.entries p = Function.update (f.entries p) i (some d)) := by
  rw [sysFcntl, ensures_bind, ensures_get]
  cases hget : processGetFileDescription f p fd with
  | error e => exact ⟨rfl, .inl ⟨⟨e, rfl⟩, rfl, .inl ⟨e, rfl⟩⟩⟩
  | ok d =>
      dsimp only
      rw [ensures_bind]
      apply (processAllocFileDescriptor_lowest p d f).mono
      rintro r f₁ (⟨i, rfl, hi, rfl⟩ | ⟨⟨e, rfl⟩, rfl, hfull⟩)
      · exact ⟨rfl, .inr ⟨i, d, rfl, rfl, hi, entries_setEntry f p i (some d)⟩⟩
      · exact ⟨rfl, .inl ⟨⟨e, rfl⟩, rfl, .inr hfull⟩⟩

theorem sysDup2_table (oldfd : ℤ) (newfd : ℕ) (f : Files P D N S) :
    Ensures (sysDup2 p oldfd newfd) f fun r f' => f'.registered = f.registered ∧
      (((∃ e, r = .error e) ∧ f'.entries = f.entries ∧
          ((∃ e, processGetFileDescription f p oldfd = .error e) ∨ OPEN_MAX ≤ newfd)) ∨
        ∃ d, r = .ok newfd ∧ processGetFileDescription f p oldfd = .ok d ∧ newfd < OPEN_MAX ∧
          f'.entries p = Function.update (f.entries p) newfd (some d)) := by
  rw [sysDup2, ensures_bind, ensures_get]
  cases hget : processGetFileDescription f p oldfd with
  | error e => exact ⟨rfl, .inl ⟨⟨e, rfl⟩, rfl, .inl ⟨e, rfl⟩⟩⟩
  | ok d =>
      dsimp only
      rw [ensures_bind]
      -- the slot is empty afterwards, if it is one
      have hclose : Ensures (dup2CloseNew p newfd) f fun r f₁ => (∃ n, r = .ok n) ∧ f₁.registered = f.registered ∧
          (newfd < OPEN_MAX → f₁.entries p = Function.update (f.entries p) newfd none) ∧
          (OPEN_MAX ≤ newfd → f₁.entries = f.entries) := by
        rw [dup2CloseNew, ensures_bind, ensures_get]
        cases hnew : processGetFileDescription f p newfd with
        | error e =>
            refine ⟨⟨_, rfl⟩, rfl, fun hlt => ?_, fun _ => rfl⟩
            have hrange : ¬((newfd : ℤ) < 0 ∨ (OPEN_MAX : ℤ) ≤ (newfd : ℤ)) := by omega
            rw [processGetFileDescription, if_neg hrange, Int.toNat_natCast] at hnew
            cases hentry : f.entries p newfd with
            | none => exact (Function.update_eq_self_iff.2 hentry.symm).symm
            | some d' => simp [hentry] at hnew
        | ok d' =>
            apply (closeSlot_table hnew).mono
            rintro r f₁ ⟨rfl, hregistered, hentries⟩
            obtain ⟨-, hmax, -⟩ := processGetFileDescription_ok hnew
            rw [Int.toNat_natCast] at hentries hmax
            exact ⟨⟨0, rfl⟩, hregistered, fun _ => hentries, fun hge => absurd hmax (by omega)⟩
      apply hclose.mono
      rintro r f₁ ⟨⟨n, rfl⟩, hregistered, hslot, hlarge⟩
      dsimp only
      rw [ensures_bind]
      apply (processAllocFileDescriptor_spec p newfd d f₁).mono
      rintro r f₂ (⟨i, rfl, hi, -, rfl, hfd⟩ | ⟨⟨e, rfl⟩, rfl, -, hfull⟩)
      · obtain rfl : newfd = i := by
          have := hfd (by omega)
          omega
        refine ⟨hregistered, .inr ⟨d, rfl, rfl, hi, ?_⟩⟩
        refine (entries_setEntry f₁ p newfd (some d)).trans ?_
        rw [hslot hi, Function.update_idem]
      · have hge : OPEN_MAX ≤ newfd := by
          by_contra hlt
          refine hfull (by omega) (by omega) ?_
          rw [hslot (by omega), Int.toNat_natCast, Function.update_self]
        exact ⟨hregistered, .inl ⟨⟨e, rfl⟩, hlarge hge, .inr hge⟩⟩

theorem sysOpen_table (path : PathOutcome N) (flags : ℕ) (choice : OpenChoice D) (f : Files P D N S) :
    Ensures (sysOpen p path flags choice) f fun r f' => f'.registered = f.registered ∧
      (((∃ e, r = .error e) ∧ f'.entries = f.entries) ∨
        ∃ i d n, r = .ok i ∧ choice.block = some d ∧ LowestFree (f.entries p) i ∧
          f'.entries p = Function.update (f.entries p) i (some d) ∧ f'.opening d = ⟨d, f.opened d + 1, .node n⟩) := by
  rw [sysOpen, ensures_bind]
  apply (vfsOpen_spec path flags (by decide) choice f).mono
  rintro r f₁ (⟨⟨e, rfl⟩, hsame, -⟩ | ⟨d, n, f₂, rfl, hblock, hsame, rfl, -⟩)
  · exact ⟨hsame.registered, .inl ⟨⟨e, rfl⟩, hsame.entries⟩⟩
  · have hentries : (f₂.newDesc d (.node n) flags).entries = f.entries := hsame.entries
    apply (processAllocFileDescriptor_lowest p d (f₂.newDesc d (.node n) flags)).mono
    rw [hentries]
    rintro r f₃ (⟨i, rfl, hi, rfl⟩ | ⟨⟨e, rfl⟩, rfl, -⟩)
    · refine ⟨hsame.registered, .inr ⟨i, d, n, rfl, hblock, hi, ?_, ?_⟩⟩
      · rw [entries_setEntry, hentries]
      · refine (opening_newDesc f₂ d (.node n) flags).trans ?_
        rw [hsame.opened]
    · exact ⟨hsame.registered, .inl ⟨⟨e, rfl⟩, hentries⟩⟩

/-- Both ends get a slot, or neither. -/
theorem pipeAllocEnds_table (reader writer : D) (f : Files P D N S) :
    Ensures (pipeAllocEnds p reader writer) f fun r f' => f'.registered = f.registered ∧ f'.opening = f.opening ∧
      (((∃ e, r = .error e) ∧ f'.entries p = f.entries p) ∨
        ∃ i j, r = .ok (i, j) ∧ LowestFree (f.entries p) i ∧
          LowestFree (Function.update (f.entries p) i (some reader)) j ∧
          f'.entries p = Function.update (Function.update (f.entries p) i (some reader)) j (some writer)) := by
  have hcloseBoth : ∀ t : Files P D N S, Ensures (do
      fileDescriptionClose reader
      fileDescriptionClose writer : Kernel (Files P D N S) Unit) t fun _ t' => t'.tables = t.tables := by
    intro t
    rw [ensures_bind]
    apply (fileDescriptionClose_tables reader t).mono
    intro _ t₁ h₁
    exact (fileDescriptionClose_tables writer t₁).mono fun _ _ h₂ => h₂.trans h₁
  rw [pipeAllocEnds, ensures_bind]
  apply (processAllocFileDescriptor_lowest p reader f).mono
  rintro r f₁ (⟨i, rfl, hi, rfl⟩ | ⟨⟨e, rfl⟩, rfl, -⟩)
  · dsimp only
    rw [ensures_bind]
    apply (processAllocFileDescriptor_lowest p writer (f.setEntry p i (some reader))).mono
    rw [entries_setEntry]
    rintro r f₂ (⟨j, rfl, hj, rfl⟩ | ⟨⟨e, rfl⟩, rfl, -⟩)
    · refine ⟨rfl, rfl, .inr ⟨i, j, rfl, hi, hj, ?_⟩⟩
      rw [entries_setEntry, entries_setEntry]
    · dsimp only
      rw [ensures_bind]
      have hclose := hcloseBoth (f.setEntry p i (some reader))
      rw [ensures_bind] at hclose
      apply hclose.mono
      intro _ f₃ hboth
      rw [ensures_bind]
      apply hboth.mono
      intro _ f₄ hsame
      have hentry : f₄.entries p (i : ℤ).toNat = some reader := by
        rw [entries_of_tables hsame, entries_setEntry, Int.toNat_natCast, Function.update_self]
      rw [ensures_bind]
      apply (processFreeFileDescriptor_spec (Int.natCast_nonneg i) (by simpa using hi.1) hentry).mono
      rintro r f₅ ⟨rfl, rfl⟩
      have hregistered := registered_of_tables hsame
      have hopening := opening_congr hsame
      refine ⟨hregistered, hopening, .inl ⟨⟨e, rfl⟩, ?_⟩⟩
      refine (entries_setEntry f₄ p _ none).trans ?_
      rw [entries_of_tables hsame, entries_setEntry, Int.toNat_natCast, Function.update_idem,
        Function.update_eq_self_iff.2 hi.2.1.symm]
  · dsimp only
    rw [ensures_bind]
    have hclose := hcloseBoth f₁
    rw [ensures_bind] at hclose
    apply hclose.mono
    intro _ f₂ hboth
    rw [ensures_bind]
    apply hboth.mono
    intro _ f₃ hsame
    exact ⟨registered_of_tables hsame, opening_congr hsame, .inl ⟨⟨e, rfl⟩, by rw [entries_of_tables hsame]⟩⟩

/-- The two ends of a pipe are new, and lead to one inode. -/
theorem sysPipeEnds_table {fifo : CreateChoice N} {readerChoice writerChoice : OpenChoice D}
    (hne : ∀ d, readerChoice.block = some d → writerChoice.block ≠ some d) (f : Files P D N S) :
    Ensures (sysPipeEnds p fifo readerChoice writerChoice) f fun r f' => f'.registered = f.registered ∧
      (((∃ e, r = .error e) ∧ f'.entries p = f.entries p) ∨
        ∃ i j reader writer n, r = .ok (i, j) ∧ readerChoice.block = some reader ∧ writerChoice.block = some writer ∧
          LowestFree (f.entries p) i ∧ LowestFree (Function.update (f.entries p) i (some reader)) j ∧
          f'.entries p = Function.update (Function.update (f.entries p) i (some reader)) j (some writer) ∧
          f'.opening reader = ⟨reader, f.opened reader + 1, .node n⟩ ∧
          f'.opening writer = ⟨writer, f.opened writer + 1, .node n⟩) := by
  rw [sysPipeEnds, ensures_bind]
  apply (fifoCreateInode_tables fifo f).mono
  intro r f₁ hsame₁
  cases r with
  | error e => exact ⟨registered_of_tables hsame₁, .inl ⟨⟨e, rfl⟩, by rw [entries_of_tables hsame₁]⟩⟩
  | ok n =>
      dsimp only
      rw [ensures_bind]
      apply (inodeRef_same (.node n) f₁).mono
      intro _ f₂ hsame₂
      have hsame : f₂.tables = f.tables := hsame₂.tables.trans hsame₁
      have hentries : f₂.entries p = f.entries p := by rw [entries_of_tables hsame]
      have hopened : f₂.opened = f.opened := congrArg Tables.opened hsame
      have hreg₂ : f₂.registered = f.registered := registered_of_tables hsame
      rw [ensures_bind]
      apply (inodeOpen_spec (.node n) O_RDONLY readerChoice f₂).mono
      rintro r f₃ (⟨⟨e, rfl⟩, hsame₃, -⟩ | ⟨reader, rfl, hreader, rfl, -⟩)
      · dsimp only
        rw [ensures_bind]
        apply (inodeUnref_same (.node n) f₃).mono
        intro _ f₄ hsame₄
        have hall := (hsame₄.tables.trans hsame₃.tables).trans hsame
        exact ⟨registered_of_tables hall, .inl ⟨⟨e, rfl⟩, by rw [entries_of_tables hall]⟩⟩
      · dsimp only
        rw [ensures_bind]
        apply (inodeOpen_spec (.node n) O_WRONLY writerChoice (f₂.newDesc reader (.node n) O_RDONLY)).mono
        rintro r f₃ (⟨⟨e, rfl⟩, hsame₃, -⟩ | ⟨writer, rfl, hwriter, rfl, -⟩)
        · dsimp only
          rw [ensures_bind]
          apply (fileDescriptionClose_tables reader f₃).mono
          intro _ f₄ hsame₄
          have hreg : f₄.registered = f₂.registered := (registered_of_tables hsame₄).trans hsame₃.registered
          have hent : f₄.entries = f₂.entries := (entries_of_tables hsame₄).trans hsame₃.entries
          exact ⟨hreg.trans hreg₂, .inl ⟨⟨e, rfl⟩, by rw [hent, hentries]⟩⟩
        · have hdistinct : reader ≠ writer := by
            rintro rfl
            exact hne reader hreader hwriter
          have hopenings : ∀ f₃ : Files P D N S,
              f₃.opening = ((f₂.newDesc reader (.node n) O_RDONLY).newDesc writer (.node n) O_WRONLY).opening →
              f₃.opening reader = ⟨reader, f.opened reader + 1, .node n⟩ ∧
                f₃.opening writer = ⟨writer, f.opened writer + 1, .node n⟩ := by
            intro f₃ hopening
            rw [hopening, opening_newDesc, opening_newDesc_ne _ hdistinct, opening_newDesc, hopened]
            refine ⟨rfl, ?_⟩
            simp [Files.newDesc, hdistinct.symm, hopened]
          apply (pipeAllocEnds_table reader writer _).mono
          rintro r f₃ ⟨hregistered, hopening, ⟨⟨e, rfl⟩, hsame₃⟩ | ⟨i, j, rfl, hi, hj, hslots⟩⟩
          · exact ⟨hregistered.trans hreg₂, .inl ⟨⟨e, rfl⟩, hsame₃.trans hentries⟩⟩
          · have hview : ((f₂.newDesc reader (.node n) O_RDONLY).newDesc writer (.node n) O_WRONLY).entries p = f.entries p :=
              hentries
            rw [hview] at hi hj hslots
            obtain ⟨hr, hw⟩ := hopenings f₃ hopening
            exact ⟨hregistered.trans hreg₂,
              .inr ⟨i, j, reader, writer, n, rfl, hreader, hwriter, hi, hj, hslots, hr, hw⟩⟩

/-- A child gets the slots of its parent. -/
theorem sysFork_table {choice : ForkChoice P} (hchild : p ≠ choice.child) (f : Files P D N S) :
    Ensures (sysFork p choice) f fun r f' => f'.entries p = f.entries p ∧ f'.registered p = f.registered p ∧
      ∀ pid, r = .ok pid → f'.entries choice.child = f.entries p ∧ f'.registered choice.child = true := by
  unfold sysFork
  cases choice.process with
  | false => exact ⟨rfl, rfl, by simp⟩
  | true =>
  simp only [Bool.not_true, Bool.false_eq_true, if_false]
  cases choice.pageDirectory with
  | some e => exact ⟨rfl, rfl, by simp⟩
  | none =>
  cases choice.cwdPath with
  | false => exact ⟨rfl, rfl, by simp⟩
  | true =>
  simp only [Bool.not_true, Bool.false_eq_true, if_false]
  rw [ensures_bind]
  apply (fileDescriptorTableCloneFrom_tables choice.child p choice.table f).mono
  rintro r f₁ (⟨⟨e, rfl⟩, rfl⟩ | ⟨rfl, hsame⟩)
  · exact ⟨rfl, rfl, by simp⟩
  · have hentries : f₁.entries = Function.update f.entries choice.child (f.entries p) := congrArg Tables.entries hsame
    have hregistered : f₁.registered = f.registered := congrArg Tables.registered hsame
    have hparent : f₁.entries p = f.entries p := by rw [hentries, Function.update_of_ne hchild]
    cases choice.stack with
    | false => exact ⟨hparent, by rw [hregistered], by simp⟩
    | true =>
        refine ⟨hparent, ?_, fun pid _ => ⟨?_, Function.update_self ..⟩⟩
        · change Function.update f₁.registered choice.child true p = f.registered p
          rw [Function.update_of_ne hchild, hregistered]
        · change f₁.entries choice.child = f.entries p
          rw [hentries, Function.update_self]

/-- What is done with an error or with the two results of `sys_pipe`. -/
def withoutEnds {σ : Type} (m : Kernel σ (Except Errno (ℕ × ℕ))) : Kernel σ (Except Errno ℕ) :=
  m >>= fun r => pure (r.map fun _ => 0)

theorem withoutEnds_bind {σ α : Type} (m : Kernel σ α) (g : α → Kernel σ (Except Errno (ℕ × ℕ))) :
    withoutEnds (m >>= g) = m >>= fun a => withoutEnds (g a) :=
  bind_assoc m g _

/-- `sys_pipe` is the same with and without its two results. -/
theorem sysPipe_eq (p : P) (fifo : CreateChoice N) (readerChoice writerChoice : OpenChoice D) :
    (sysPipe p fifo readerChoice writerChoice : Kernel (Files P D N S) _) =
      withoutEnds (sysPipeEnds p fifo readerChoice writerChoice) := by
  have hslots : ∀ reader writer : D, (pipeAllocFds p reader writer : Kernel (Files P D N S) _) =
      withoutEnds (pipeAllocEnds p reader writer) := by
    intro reader writer
    rw [pipeAllocFds, pipeAllocEnds, withoutEnds_bind]
    congr 1
    funext r
    cases r with
    | error e => simp only [withoutEnds_bind]; rfl
    | ok i =>
        dsimp only
        rw [withoutEnds_bind]
        congr 1
        funext r
        cases r with
        | error e => simp only [withoutEnds_bind]; rfl
        | ok j => rfl
  rw [sysPipe, sysPipeEnds, withoutEnds_bind]
  congr 1
  funext r
  cases r with
  | error e => rfl
  | ok n =>
      dsimp only
      rw [withoutEnds_bind]
      congr 1
      funext _
      rw [withoutEnds_bind]
      congr 1
      funext r
      cases r with
      | error e => simp only [withoutEnds_bind]; rfl
      | ok reader =>
          dsimp only
          rw [withoutEnds_bind]
          congr 1
          funext r
          cases r with
          | error e => simp only [withoutEnds_bind]; rfl
          | ok writer => exact hslots reader writer

theorem sysPipe_of_ends {fifo : CreateChoice N} {readerChoice writerChoice : OpenChoice D}
    {r : Except Errno (ℕ × ℕ)} {f' : Files P D N S}
    (h : sysPipeEnds p fifo readerChoice writerChoice f = .ok (r, f')) :
    sysPipe p fifo readerChoice writerChoice f = .ok (r.map fun _ => 0, f') := by
  rw [sysPipe_eq, withoutEnds, Program.run_bind, h]
  rfl

end Slots

end Chaotix
