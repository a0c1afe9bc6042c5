/-
Module: Chaotix.Proofs.DescriptorCounts
Layer: Proofs
Purpose: The counter of a description is the number of slots that hold it, over whole runs. The accounting of
  the library is kept for a map of places that follows each call: the slots of the tables, and the places
  behind a table for the local variables of the call. It breaks at a call that opens a description and finds
  no slot, at a `dup2` of a descriptor to itself when nobody else holds the description, and at a fork that
  fails after the table has been copied.
Imports: Mathlib.Tactic, Chaotix.Lib.RefCount, Chaotix.Kernel.FileDescriptors
Trusted boundary: none
Main exports: DescriptionIntegrity, FileCall.Balanced, description_counts_iff
-/
import Mathlib.Tactic
import Chaotix.Lib.RefCount
import Chaotix.Kernel.FileDescriptors

set_option linter.unusedSectionVars false

namespace Chaotix

/-! ### What the claim is about -/

/-- The descriptions that the places hold, with the history of each: all but the live ones have been closed
    as often as opened. -/
structure Accounts {P D N S κ : Type} (held : κ → Option D) (s : Files P D N S) : Prop where
  refs : RefCounts held (fun d => (s.desc d).refCount) s.descLive
  ledger : ∀ d, s.opened d = s.closed d + if s.descLive d = true then 1 else 0

/-- Between calls: each live description is counted once for each slot that holds it, slots hold live
    descriptions, and a description is live as long as a slot holds it; each description that was opened is
    live or has been closed once. -/
def DescriptionIntegrity {P D N S : Type} (s : Files P D N S) : Prop := Accounts s.slot s

section Guards

variable {P D N S : Type}

/-- The table of the process has an empty slot. -/
def Files.HasFreeSlot (s : Files P D N S) (p : P) : Prop := ∃ i, i < OPEN_MAX ∧ s.entries p i = none

/-- `inode_open` gets as far as a description. -/
def Opens (isDir : Prop) (flags : Nat) (choice : OpenChoice D) (hookError : Option Errno) : Prop :=
  ¬(isDir ∧ HasFlag flags O_WRONLY) ∧ choice.block ≠ none ∧ hookError = none

/-- `vfs_open` for a regular file gets as far as a description. -/
def PathOutcome.Opens (s : Files P D N S) (flags : Nat) (choice : OpenChoice D) : PathOutcome N → Prop
  | .error _ => False
  | .found n => Chaotix.Opens ((s.node n).mode = .S_IFDIR) flags choice choice.openError
  | .created _ => Chaotix.Opens False flags choice choice.openError

/-- A call by the process keeps the accounting: what it opens finds an empty slot, `dup2` of a descriptor to
    itself finds a description that is counted more than once, and a fork does not fail for want of a stack
    when there is something to copy. -/
def FileCall.Balanced (s : Files P D N S) (p : P) : FileCall P D N S → Prop
  | .open path flags choice => path.Opens s flags choice → s.HasFreeSlot p
  | .socket domain type create choice =>
      domain = AF_UNIX → type = SOCK_STREAM → create.block ≠ none → create.buffers = true →
        choice.block ≠ none → s.HasFreeSlot p
  | .dup2 oldfd newfd =>
      oldfd = newfd → ∀ d, processGetFileDescription s p oldfd = .ok d → (s.desc d).refCount ≠ 1
  | .fork choice =>
      choice.process = true → choice.pageDirectory = none → choice.cwdPath = true → choice.table = true →
        choice.stack = false → ∀ i, i < OPEN_MAX → s.entries p i = none
  | _ => True

end Guards

/-! ### The functions -/

section Functions

variable {P D N S κ : Type} [DecidableEq P] [DecidableEq D] [DecidableEq N] [DecidableEq S]

/-- Only inodes change. -/
structure SameDescriptions (s s' : Files P D N S) : Prop where
  registered : s'.registered = s.registered
  entries : s'.entries = s.entries
  desc : s'.desc = s.desc
  descLive : s'.descLive = s.descLive
  opened : s'.opened = s.opened
  closed : s'.closed = s.closed

namespace SameDescriptions

variable {s s' s'' : Files P D N S}

theorem refl (s : Files P D N S) : SameDescriptions s s := ⟨rfl, rfl, rfl, rfl, rfl, rfl⟩

theorem trans (h : SameDescriptions s s') (h' : SameDescriptions s' s'') : SameDescriptions s s'' :=
  ⟨h'.registered.trans h.registered, h'.entries.trans h.entries, h'.desc.trans h.desc,
    h'.descLive.trans h.descLive, h'.opened.trans h.opened, h'.closed.trans h.closed⟩

theorem accounts (h : SameDescriptions s s') {held : κ → Option D} (accounts : Accounts held s) :
    Accounts held s' := by
  constructor
  · rw [h.desc, h.descLive]
    exact accounts.refs
  · rw [h.opened, h.closed, h.descLive]
    exact accounts.ledger

theorem slot (h : SameDescriptions s s') : s'.slot = s.slot := by
  funext k
  rw [Files.slot, Files.slot, h.registered, h.entries]

end SameDescriptions

theorem inodeRef_same (inode : InodeRef N S) (s : Files P D N S) :
    Ensures (inodeRef inode) s fun _ s' => SameDescriptions s s' := by
  cases inode with
  | node n => exact ⟨rfl, rfl, rfl, rfl, rfl, rfl⟩
  | socket k => exact ⟨rfl, rfl, rfl, rfl, rfl, rfl⟩

theorem inodeUnref_same (inode : InodeRef N S) (s : Files P D N S) :
    Ensures (inodeUnref inode) s fun _ s' => SameDescriptions s s' := by
  cases inode with
  | node n =>
      unfold inodeUnref
      rw [ensures_bind, ensures_get, ensures_bind]
      apply ensures_require.2
      intro _
      rw [ensures_bind, ensures_set]
      split
      · exact ⟨rfl, rfl, rfl, rfl, rfl, rfl⟩
      · exact ⟨rfl, rfl, rfl, rfl, rfl, rfl⟩
  | socket k =>
      unfold inodeUnref
      rw [ensures_bind, ensures_get, ensures_bind]
      apply ensures_require.2
      intro _
      rw [ensures_bind, ensures_set]
      split
      · exact ⟨rfl, rfl, rfl, rfl, rfl, rfl⟩
      · exact ⟨rfl, rfl, rfl, rfl, rfl, rfl⟩

/-- `inode_open` fails and leaves the descriptions alone, or opens a new one. -/
theorem inodeOpen_spec (inode : InodeRef N S) (flags : Nat) (choice : OpenChoice D) (s : Files P D N S) :
    Ensures (inodeOpen inode flags choice) s fun r s' =>
      ((∃ e, r = .error e) ∧ SameDescriptions s s' ∧
          ¬Opens (s.IsDir inode) flags choice (choice.hookError inode)) ∨
        ∃ d, r = .ok d ∧ choice.block = some d ∧ s' = s.newDesc d inode flags ∧
          Opens (s.IsDir inode) flags choice (choice.hookError inode) := by
  unfold inodeOpen
  rw [ensures_bind, ensures_get]
  split_ifs with hdir
  · rw [ensures_bind]
    apply (inodeUnref_same inode s).mono
    intro _ s' hsame
    exact Or.inl ⟨⟨_, rfl⟩, hsame, fun h => h.1 hdir⟩
  · cases hblock : choice.block with
    | none =>
        simp only
        rw [ensures_bind]
        apply (inodeUnref_same inode s).mono
        intro _ s' hsame
        exact Or.inl ⟨⟨_, rfl⟩, hsame, fun h => h.2.1 hblock⟩
    | some d =>
        cases hhook : choice.hookError inode with
        | some e =>
            simp only
            rw [ensures_bind]
            apply (inodeUnref_same inode s).mono
            intro _ s' hsame
            exact Or.inl ⟨⟨_, rfl⟩, hsame, fun h => by simpa using h.2.2⟩
        | none => exact Or.inr ⟨d, rfl, rfl, rfl, hdir, by simp [hblock], rfl⟩

/-- `file_description_close` counts one place less, and frees a description that was counted once. -/
theorem fileDescriptionClose_spec (d : D) (s : Files P D N S) :
    Ensures (fileDescriptionClose d) s fun _ s' =>
      (1 < (s.desc d).refCount ∧ s' = s.setRefCount d ((s.desc d).refCount - 1)) ∨
        ((s.desc d).refCount = 1 ∧ SameDescriptions ((s.setRefCount d 0).freeDesc d) s') := by
  unfold fileDescriptionClose
  rw [ensures_bind, ensures_get, ensures_bind]
  apply ensures_require.2
  intro hpos
  rw [ensures_bind, ensures_set]
  split_ifs with hmore
  · exact Or.inl ⟨by omega, rfl⟩
  · have hone : (s.desc d).refCount = 1 := by omega
    rw [ensures_bind, ensures_modify, hone]
    apply (inodeUnref_same (s.desc d).inode _).mono
    intro _ s' hsame
    exact Or.inr ⟨rfl, hsame⟩

/-- The search finds an empty slot if there is one. -/
theorem findFreeEntry_cases (entries : Nat → Option D) (i n : Nat) :
    (∃ j, findFreeEntry entries i n = some j ∧ i ≤ j ∧ j < i + n ∧ entries j = none) ∨
      (findFreeEntry entries i n = none ∧ ∀ j, i ≤ j → j < i + n → entries j ≠ none) := by
  induction n generalizing i with
  | zero => exact Or.inr ⟨rfl, by omega⟩
  | succ n ih =>
      cases hentry : entries i with
      | none => exact Or.inl ⟨i, by simp [findFreeEntry, hentry], le_refl i, by omega, hentry⟩
      | some d =>
          have hskip : findFreeEntry entries i (n + 1) = findFreeEntry entries (i + 1) n := by
            simp [findFreeEntry, hentry]
          rw [hskip]
          rcases ih (i + 1) with ⟨j, hj, hlo, hhi, hfree⟩ | ⟨hnone, hall⟩
          · exact Or.inl ⟨j, hj, by omega, by omega, hfree⟩
          · refine Or.inr ⟨hnone, fun j hlo hhi => ?_⟩
            rcases Nat.eq_or_lt_of_le hlo with rfl | hlt
            · simp [hentry]
            · exact hall j hlt (by omega)

/-- `process_alloc_file_descriptor` puts the description into an empty slot, or fails and changes nothing. It
    finds every slot that it may use. -/
theorem processAllocFileDescriptor_spec (p : P) (fd : Int) (d : D) (s : Files P D N S) :
    Ensures (processAllocFileDescriptor p fd d) s fun r s' =>
      (∃ i, r = .ok i ∧ i < OPEN_MAX ∧ s.entries p i = none ∧ s' = s.setEntry p i (some d) ∧
          (0 ≤ fd → fd = i)) ∨
        ((∃ e, r = .error e) ∧ s' = s ∧ (fd < 0 → ¬s.HasFreeSlot p) ∧
          (0 ≤ fd → fd < OPEN_MAX → s.entries p fd.toNat ≠ none)) := by
  unfold processAllocFileDescriptor
  split_ifs with hmax hfd
  · exact Or.inr ⟨⟨_, rfl⟩, rfl, by omega, by omega⟩
  · rw [ensures_bind, ensures_get]
    split_ifs with hentry
    · exact Or.inr ⟨⟨_, rfl⟩, rfl, by omega, fun _ _ h => by simp [h] at hentry⟩
    · rw [ensures_bind, ensures_set]
      have hfree : s.entries p fd.toNat = none := by simpa using hentry
      exact Or.inl ⟨fd.toNat, rfl, by omega, hfree, rfl, by omega⟩
  · rw [ensures_bind, ensures_get]
    rcases findFreeEntry_cases (s.entries p) 0 OPEN_MAX with ⟨i, hi, _, hlt, hfree⟩ | ⟨hnone, hall⟩
    · rw [hi]
      exact Or.inl ⟨i, rfl, by omega, hfree, rfl, by omega⟩
    · rw [hnone]
      refine Or.inr ⟨⟨_, rfl⟩, rfl, fun _ => ?_, by omega⟩
      rintro ⟨i, hi, hfree⟩
      exact hall i (Nat.zero_le i) (by omega) hfree

/-- A descriptor that is found is a slot with a description. -/
theorem processGetFileDescription_ok {s : Files P D N S} {p : P} {fd : Int} {d : D}
    (h : processGetFileDescription s p fd = .ok d) :
    0 ≤ fd ∧ fd.toNat < OPEN_MAX ∧ s.entries p fd.toNat = some d := by
  unfold processGetFileDescription at h
  split_ifs at h with hrange
  cases hentry : s.entries p fd.toNat with
  | none => simp [hentry] at h
  | some d' =>
      simp only [hentry, Except.ok.injEq] at h
      exact ⟨by omega, by omega, h ▸ rfl⟩

/-- A slot that is occupied is cleared. -/
theorem processFreeFileDescriptor_spec {s : Files P D N S} {p : P} {fd : Int} {d : D} (hfd : 0 ≤ fd)
    (hmax : fd.toNat < OPEN_MAX) (hentry : s.entries p fd.toNat = some d) :
    Ensures (processFreeFileDescriptor p fd) s fun r s' => r = .ok 0 ∧ s' = s.setEntry p fd.toNat none := by
  unfold processFreeFileDescriptor
  have hrange : ¬(fd < 0 ∨ (OPEN_MAX : Int) ≤ fd) := by omega
  rw [if_neg hrange, ensures_bind, ensures_get]
  simp only [hentry, Option.isNone_some, Bool.false_eq_true, if_false]
  exact ⟨rfl, rfl⟩

end Functions

/-! ### The accounting along a call -/

section Accounting

variable {P D N S κ : Type} [DecidableEq P] [DecidableEq D] [DecidableEq N] [DecidableEq S] [DecidableEq κ]
  {s : Files P D N S} {held : κ → Option D} {k : κ} {d : D}

theorem desc_setRefCount (s : Files P D N S) (d : D) (n : Nat) :
    (fun d' => ((s.setRefCount d n).desc d').refCount) =
      Function.update (fun d' => (s.desc d').refCount) d n := by
  funext d'
  by_cases heq : d' = d
  · simp [heq, Files.setRefCount]
  · simp [heq, Files.setRefCount]

/-- A new description is held by one place. -/
theorem Accounts.newDesc (accounts : Accounts held s) (hk : held k = none) (hlive : s.descLive d = false)
    (inode : InodeRef N S) (flags : Nat) :
    Accounts (Function.update held k (some d)) (s.newDesc d inode flags) := by
  constructor
  · have hcount : (fun d' => ((s.newDesc d inode flags).desc d').refCount) =
        Function.update (fun d' => (s.desc d').refCount) d 1 := by
      funext d'
      by_cases heq : d' = d
      · simp [heq, Files.newDesc]
      · simp [heq, Files.newDesc]
    rw [hcount]
    exact accounts.refs.create hk hlive
  · intro d'
    have hledger := accounts.ledger d'
    by_cases heq : d' = d
    · subst heq
      simp only [hlive, Bool.false_eq_true, if_false] at hledger
      simp [Files.newDesc, hledger]
    · simpa [Files.newDesc, heq] using hledger

/-- A further place holds a live description. -/
theorem Accounts.refDesc (accounts : Accounts held s) (hk : held k = none) (hlive : s.descLive d = true) :
    Accounts (Function.update held k (some d)) (s.setRefCount d ((s.desc d).refCount + 1)) := by
  constructor
  · rw [desc_setRefCount]
    exact accounts.refs.acquire hk hlive
  · exact accounts.ledger

/-- A place hands its description over to another one. -/
theorem Accounts.move (accounts : Accounts held s) (hk : held k = some d) {k' : κ} (hk' : held k' = none) :
    Accounts (Function.update (Function.update held k none) k' (some d)) s :=
  ⟨accounts.refs.move hk hk', accounts.ledger⟩

/-- The tables and the processes play no part in the accounting. -/
theorem Accounts.setTables (accounts : Accounts held s) (registered : P → Bool)
    (entries : P → Nat → Option D) :
    Accounts held { s with registered := registered, entries := entries } :=
  ⟨accounts.refs, accounts.ledger⟩

/-- `file_description_close` on what a place holds: the place holds nothing any more. A description that was
    counted once is gone. -/
theorem Accounts.close (accounts : Accounts held s) (hk : held k = some d) :
    Ensures (fileDescriptionClose d) s fun _ s' =>
      Accounts (Function.update held k none) s' ∧ s'.registered = s.registered ∧ s'.entries = s.entries ∧
        s'.descLive d = (s.descLive d && (s.desc d).refCount != 1) := by
  apply (fileDescriptionClose_spec d s).mono
  rintro _ s' (⟨hmore, rfl⟩ | ⟨hone, hsame⟩)
  · have hne : (s.desc d).refCount ≠ 1 := by omega
    refine ⟨⟨?_, accounts.ledger⟩, rfl, rfl, by simp [Files.setRefCount, hne]⟩
    rw [desc_setRefCount]
    exact accounts.refs.releaseShared hk hmore
  · have hlive := accounts.refs.holds k d hk
    have hfreed : Accounts (Function.update held k none) ((s.setRefCount d 0).freeDesc d) := by
      constructor
      · have hrelease := accounts.refs.releaseLast hk hone 0
        rw [← desc_setRefCount] at hrelease
        exact hrelease
      · intro d'
        have hledger := accounts.ledger d'
        by_cases heq : d' = d
        · subst heq
          simp only [hlive, if_true] at hledger
          simp [Files.freeDesc, Files.setRefCount, hledger]
        · simpa [Files.freeDesc, Files.setRefCount, heq] using hledger
    refine ⟨hsame.accounts hfreed, hsame.registered, hsame.entries, ?_⟩
    rw [hsame.descLive]
    simp [Files.freeDesc, hone]

end Accounting

/-! ### Calls -/

section Calls

variable {P D N S : Type} [DecidableEq P] [DecidableEq D] [DecidableEq N] [DecidableEq S]
  {s : Files P D N S} {p : P}

theorem slot_of_registered (hp : s.registered p = true) {i : Nat} (hi : i < OPEN_MAX) :
    s.slot (p, i) = s.entries p i :=
  if_pos ⟨hp, hi⟩

theorem slot_setEntry (hp : s.registered p = true) {i : Nat} (hi : i < OPEN_MAX) (entry : Option D) :
    (s.setEntry p i entry).slot = Function.update s.slot (p, i) entry := by
  funext ⟨q, j⟩
  by_cases hq : q = p
  · subst hq
    by_cases hj : j = i
    · subst hj
      simp [Files.slot, Files.setEntry, hp, hi]
    · simp [Files.slot, Files.setEntry, hj]
  · simp [Files.slot, Files.setEntry, hq]

/-- No slot is behind the table. -/
theorem slot_behind (s : Files P D N S) (p : P) {i : Nat} (hi : OPEN_MAX ≤ i) : s.slot (p, i) = none :=
  if_neg fun h => absurd h.2 (by omega)

/-- What a slot holds is live. -/
theorem DescriptionIntegrity.live (hs : DescriptionIntegrity s) (hp : s.registered p = true) {i : Nat} {d : D}
    (hi : i < OPEN_MAX) (hentry : s.entries p i = some d) : s.descLive d = true :=
  hs.refs.holds (p, i) d ((slot_of_registered hp hi).trans hentry)

/-- A description that has just been opened gets a slot, or stays without one. -/
theorem allocNew_spec (hs : DescriptionIntegrity s) (hp : s.registered p = true) {d : D}
    (hlive : s.descLive d = false) (inode : InodeRef N S) (flags : Nat) :
    Ensures (processAllocFileDescriptor p (-1) d) (s.newDesc d inode flags) fun _ s' =>
      DescriptionIntegrity s' ↔ s.HasFreeSlot p := by
  apply (processAllocFileDescriptor_spec p (-1) d (s.newDesc d inode flags)).mono
  rintro r s' (⟨i, _, hi, hfree, rfl, _⟩ | ⟨_, rfl, hfull, _⟩)
  · refine iff_of_true ?_ ⟨i, hi, hfree⟩
    have hslot : s.slot (p, i) = none := (slot_of_registered hp hi).trans hfree
    have hnew := hs.newDesc hslot hlive inode flags
    have hview : ((s.newDesc d inode flags).setEntry p i (some d)).slot =
        Function.update s.slot (p, i) (some d) := slot_setEntry (s := s.newDesc d inode flags) hp hi (some d)
    rw [DescriptionIntegrity, hview]
    exact hnew.setTables _ _
  · refine iff_of_false ?_ (hfull (by omega))
    intro hbad
    obtain ⟨k, hk⟩ := hbad.refs.isHeld d (Function.update_self ..)
    exact hs.refs.not_held hlive k hk

/-- `vfs_open` fails and leaves the descriptions alone, or opens a new one. -/
theorem vfsOpen_spec (path : PathOutcome N) (flags : Nat) {mode : FileType} (hmode : mode ≠ .S_IFDIR)
    (choice : OpenChoice D) (s : Files P D N S) :
    Ensures (vfsOpen path flags mode choice) s fun r s' =>
      ((∃ e, r = .error e) ∧ SameDescriptions s s' ∧ ¬path.Opens s flags choice) ∨
        ∃ d n s₁, r = .ok d ∧ choice.block = some d ∧ SameDescriptions s s₁ ∧
          s' = s₁.newDesc d (.node n) flags ∧ path.Opens s flags choice := by
  cases path with
  | error e => exact Or.inl ⟨⟨e, rfl⟩, .refl s, id⟩
  | found n =>
      unfold vfsOpen
      rw [ensures_bind]
      have href : Ensures (inodeRef (.node n)) s fun _ s₁ =>
          SameDescriptions s s₁ ∧ (s₁.IsDir (.node n) ↔ (s.node n).mode = .S_IFDIR) :=
        ⟨⟨rfl, rfl, rfl, rfl, rfl, rfl⟩, by simp [Files.IsDir, Files.setNode]⟩
      apply href.mono
      rintro _ s₁ ⟨hsame, hdir⟩
      apply (inodeOpen_spec (.node n) flags choice s₁).mono
      rintro r s' (⟨herror, hsame', hnot⟩ | ⟨d, hr, hblock, hs', hopens⟩)
      · rw [hdir] at hnot
        exact Or.inl ⟨herror, hsame.trans hsame', hnot⟩
      · rw [hdir] at hopens
        exact Or.inr ⟨d, n, s₁, hr, hblock, hsame, hs', hopens⟩
  | created n =>
      unfold vfsOpen
      rw [ensures_bind, ensures_modify]
      let s₁ := s.newNode n { mode := mode, numLinks := 1, refCount := 1, boundSocket := none }
      have hsame : SameDescriptions s s₁ := ⟨rfl, rfl, rfl, rfl, rfl, rfl⟩
      have hdir : s₁.IsDir (.node n) ↔ False := by simp [s₁, Files.IsDir, Files.newNode, Files.setNode, hmode]
      apply (inodeOpen_spec (.node n) flags choice s₁).mono
      rintro r s' (⟨herror, hsame', hnot⟩ | ⟨d, hr, hblock, hs', hopens⟩)
      · rw [hdir] at hnot
        exact Or.inl ⟨herror, hsame.trans hsame', hnot⟩
      · rw [hdir] at hopens
        exact Or.inr ⟨d, n, s₁, hr, hblock, hsame, hs', hopens⟩

/-- The accounting does not see a change of inodes. -/
theorem SameDescriptions.integrity {s' : Files P D N S} (h : SameDescriptions s s')
    (hs : DescriptionIntegrity s) : DescriptionIntegrity s' := by
  rw [DescriptionIntegrity, h.slot]
  exact h.accounts hs

theorem SameDescriptions.hasFreeSlot_iff {s' : Files P D N S} (h : SameDescriptions s s') :
    s'.HasFreeSlot p ↔ s.HasFreeSlot p := by
  rw [Files.HasFreeSlot, Files.HasFreeSlot, h.entries]

theorem sysOpen_spec (hs : DescriptionIntegrity s) (hp : s.registered p = true) (path : PathOutcome N)
    (flags : Nat) {choice : OpenChoice D} (hfresh : choice.Fresh s) :
    Ensures (sysOpen p path flags choice) s fun _ s' =>
      DescriptionIntegrity s' ↔ FileCall.Balanced s p (.open path flags choice : FileCall P D N S) := by
  unfold sysOpen
  rw [ensures_bind]
  apply (vfsOpen_spec path flags (by decide) choice s).mono
  rintro r s' (⟨⟨e, rfl⟩, hsame, hnot⟩ | ⟨d, n, s₁, rfl, hblock, hsame, rfl, hopens⟩)
  · exact iff_of_true (hsame.integrity hs) fun h => absurd h hnot
  · have hlive : s₁.descLive d = false := by
      rw [hsame.descLive]
      exact hfresh d hblock
    apply (allocNew_spec (hsame.integrity hs) (by rwa [hsame.registered]) hlive (.node n) flags).mono
    intro _ s' hiff
    rw [hiff, hsame.hasFreeSlot_iff]
    exact ⟨fun h _ => h, fun h => h hopens⟩

theorem sysSocket_spec (hs : DescriptionIntegrity s) (hp : s.registered p = true) (domain type : Int)
    (create : CreateChoice S) {choice : OpenChoice D} (hfresh : choice.Fresh s) :
    Ensures (sysSocket p domain type create choice) s fun _ s' =>
      DescriptionIntegrity s' ↔
        FileCall.Balanced s p (.socket domain type create choice : FileCall P D N S) := by
  unfold sysSocket
  split_ifs with hkind
  · refine iff_of_true hs fun hdomain htype => ?_
    rcases hkind with h | h
    · exact absurd hdomain h
    · exact absurd htype h
  · have hcreate : Ensures (unixSocketCreate create) s fun r s₁ => SameDescriptions s s₁ ∧
        ((∃ e, r = .error e) ∧ (create.block = none ∨ create.buffers = false) ∨
          (∃ k, r = .ok k) ∧ create.block ≠ none ∧ create.buffers = true) := by
      unfold unixSocketCreate
      cases hblock : create.block with
      | none => exact ⟨.refl s, Or.inl ⟨⟨_, rfl⟩, Or.inl rfl⟩⟩
      | some k =>
          simp only
          rw [ensures_bind, ensures_modify]
          cases hbuffers : create.buffers with
          | false => exact ⟨⟨rfl, rfl, rfl, rfl, rfl, rfl⟩, Or.inl ⟨⟨_, rfl⟩, Or.inr rfl⟩⟩
          | true => exact ⟨⟨rfl, rfl, rfl, rfl, rfl, rfl⟩, Or.inr ⟨⟨k, rfl⟩, by simp, rfl⟩⟩
    rw [ensures_bind]
    apply hcreate.mono
    rintro r s₁ ⟨hsame, ⟨⟨e, rfl⟩, hfailed⟩ | ⟨⟨k, rfl⟩, hblock, hbuffers⟩⟩
    · refine iff_of_true (hsame.integrity hs) fun _ _ hblock hbuffers => ?_
      rcases hfailed with h | h
      · exact absurd h hblock
      · simp [h] at hbuffers
    · have hdomain : domain = AF_UNIX := by_contra fun h => hkind (Or.inl h)
      have htype : type = SOCK_STREAM := by_contra fun h => hkind (Or.inr h)
      simp only
      rw [ensures_bind]
      apply (inodeRef_same (.socket k) s₁).mono
      intro _ s₂ hsame'
      rw [ensures_bind]
      apply (inodeOpen_spec (.socket k) O_RDWR choice s₂).mono
      have hsame₂ := hsame.trans hsame'
      rintro r s₃ (⟨⟨e, rfl⟩, hsame₃, hnot⟩ | ⟨d, rfl, hd, rfl, _⟩)
      · refine iff_of_true ((hsame₂.trans hsame₃).integrity hs) fun _ _ _ _ hchoice => ?_
        exact absurd ⟨fun h => h.1, hchoice, rfl⟩ hnot
      · have hlive : s₂.descLive d = false := by
          rw [hsame₂.descLive]
          exact hfresh d hd
        apply (allocNew_spec (hsame₂.integrity hs) (by rwa [hsame₂.registered]) hlive (.socket k) O_RDWR).mono
        intro _ s' hiff
        rw [hiff, hsame₂.hasFreeSlot_iff]
        exact ⟨fun h _ _ _ _ _ => h, fun h => h hdomain htype hblock hbuffers (by simp [hd])⟩

/-- A slot is closed and then cleared. -/
theorem closeSlot_spec (hs : DescriptionIntegrity s) (hp : s.registered p = true) {fd : Int} {d : D}
    (hfd : 0 ≤ fd) (hmax : fd.toNat < OPEN_MAX) (hentry : s.entries p fd.toNat = some d) :
    Ensures (do fileDescriptionClose d; processFreeFileDescriptor p fd : Kernel (Files P D N S) _) s
      fun r s' => r = .ok 0 ∧ DescriptionIntegrity s' ∧ s'.registered = s.registered ∧
        s'.entries = Function.update s.entries p (Function.update (s.entries p) fd.toNat none) ∧
        s'.descLive d = (s.descLive d && (s.desc d).refCount != 1) := by
  have hslot : s.slot (p, fd.toNat) = some d := (slot_of_registered hp hmax).trans hentry
  rw [ensures_bind]
  apply (hs.close hslot).mono
  rintro _ s₁ ⟨haccounts, hregistered, hentries, hgone⟩
  have hentry₁ : s₁.entries p fd.toNat = some d := by rwa [hentries]
  apply (processFreeFileDescriptor_spec hfd hmax hentry₁).mono
  rintro r s' ⟨rfl, rfl⟩
  have hp₁ : s₁.registered p = true := by rwa [hregistered]
  have hview : s₁.slot = s.slot := by
    funext k
    rw [Files.slot, Files.slot, hregistered, hentries]
  refine ⟨rfl, ?_, hregistered, ?_, hgone⟩
  · rw [DescriptionIntegrity, slot_setEntry hp₁ hmax, hview]
    exact haccounts.setTables _ _
  · simp only [Files.setEntry, hentries]

theorem sysClose_spec (hs : DescriptionIntegrity s) (hp : s.registered p = true) (fd : Int) :
    Ensures (sysClose p fd) s fun _ s' => DescriptionIntegrity s' := by
  unfold sysClose
  rw [ensures_bind, ensures_get]
  cases hget : processGetFileDescription s p fd with
  | error e => exact hs
  | ok d =>
      obtain ⟨hfd, hmax, hentry⟩ := processGetFileDescription_ok hget
      apply (closeSlot_spec hs hp hfd hmax hentry).mono
      intro _ s' h
      exact h.2.1

/-- A slot takes a description that is live, and it is counted. -/
theorem allocRef_spec (hs : DescriptionIntegrity s) (hp : s.registered p = true) (fd : Int) {d : D}
    (hlive : s.descLive d = true) :
    Ensures (do
      match ← processAllocFileDescriptor p fd d with
      | .error e => return .error e
      | .ok ret =>
          refDesc d
          return .ok ret : Kernel (Files P D N S) (Except Errno Nat)) s fun _ s' => DescriptionIntegrity s' := by
  rw [ensures_bind]
  apply (processAllocFileDescriptor_spec p fd d s).mono
  rintro r s' (⟨i, rfl, hi, hfree, rfl, _⟩ | ⟨⟨e, rfl⟩, rfl, _⟩)
  · have hslot : s.slot (p, i) = none := (slot_of_registered hp hi).trans hfree
    have hnew := hs.refDesc hslot hlive
    change DescriptionIntegrity ((s.setEntry p i (some d)).setRefCount d _)
    have hview : ((s.setEntry p i (some d)).setRefCount d ((s.desc d).refCount + 1)).slot =
        Function.update s.slot (p, i) (some d) := slot_setEntry hp hi (some d)
    rw [DescriptionIntegrity, show ((s.setEntry p i (some d)).desc d).refCount = (s.desc d).refCount from rfl,
      hview]
    exact hnew.setTables _ _
  · exact hs

theorem sysFcntl_spec (hs : DescriptionIntegrity s) (hp : s.registered p = true) (fd : Int) (cmd : FcntlCmd)
    (arg : Nat) : Ensures (sysFcntl p fd cmd arg) s fun _ s' => DescriptionIntegrity s' := by
  unfold sysFcntl
  rw [ensures_bind, ensures_get]
  cases hget : processGetFileDescription s p fd with
  | error e => exact hs
  | ok d =>
      obtain ⟨hfd, hmax, hentry⟩ := processGetFileDescription_ok hget
      cases cmd with
      | F_DUPFD => exact allocRef_spec hs hp (-1) (hs.live hp hmax hentry)
      | F_GETFL => exact hs
      | F_SETFL =>
          have hcount : (fun d' => (Function.update s.desc d { s.desc d with flags := arg } d').refCount) =
              fun d' => (s.desc d').refCount := by
            funext d'
            by_cases heq : d' = d
            · simp [heq]
            · simp [heq]
          refine ⟨?_, hs.ledger⟩
          change RefCounts s.slot (fun d' => (Function.update s.desc d _ d').refCount) s.descLive
          rw [hcount]
          exact hs.refs
      | other => exact hs

theorem sysDup2_spec (hs : DescriptionIntegrity s) (hp : s.registered p = true) (oldfd newfd : Int) :
    Ensures (sysDup2 p oldfd newfd) s fun _ s' =>
      DescriptionIntegrity s' ↔ FileCall.Balanced s p (.dup2 oldfd newfd : FileCall P D N S) := by
  unfold sysDup2
  rw [ensures_bind, ensures_get]
  cases hold : processGetFileDescription s p oldfd with
  | error e =>
      refine iff_of_true hs fun _ d h => ?_
      simp [hold] at h
  | ok d =>
      obtain ⟨hfd, hmax, hentry⟩ := processGetFileDescription_ok hold
      have hlive := hs.live hp hmax hentry
      simp only
      rw [ensures_bind]
      unfold dup2CloseNew
      rw [ensures_bind, ensures_get]
      cases hnew : processGetFileDescription s p newfd with
      | error e =>
          apply (allocRef_spec hs hp newfd hlive).mono
          intro _ s' hs'
          refine iff_of_true hs' fun heq d' h => ?_
          simp [heq, hnew] at h
      | ok d' =>
          obtain ⟨hfd', hmax', hentry'⟩ := processGetFileDescription_ok hnew
          apply (closeSlot_spec hs hp hfd' hmax' hentry').mono
          rintro r s₁ ⟨rfl, hs₁, hregistered, hentries, hlive₁⟩
          have hp₁ : s₁.registered p = true := by rwa [hregistered]
          by_cases heq : oldfd = newfd
          · subst heq
            obtain rfl : d = d' := Except.ok.inj (hold.symm.trans hnew)
            by_cases hone : (s.desc d).refCount = 1
            · -- the description is freed before its slot is written again
              simp only
              rw [ensures_bind]
              apply (processAllocFileDescriptor_spec p oldfd d s₁).mono
              have hgone : s₁.descLive d = false := by simp [hlive₁, hone]
              rintro r s₂ (⟨i, rfl, hi, _, rfl, _⟩ | ⟨_, _, _, hfull⟩)
              · refine iff_of_false ?_ fun h => h rfl d hold hone
                intro hbad
                have hslot : ((s₁.setEntry p i (some d)).setRefCount d ((s₁.desc d).refCount + 1)).slot (p, i) =
                    some d := by
                  change (s₁.setEntry p i (some d)).slot (p, i) = some d
                  rw [slot_setEntry hp₁ hi, Function.update_self]
                exact absurd (hbad.refs.holds (p, i) d hslot) (by simp [Files.setRefCount, Files.setEntry, hgone])
              · have hempty : s₁.entries p oldfd.toNat = none := by simp [hentries]
                exact absurd hempty (hfull hfd (by omega))
            · have hstays : s₁.descLive d = true := by simp [hlive₁, hlive, hone]
              apply (allocRef_spec hs₁ hp₁ oldfd hstays).mono
              intro _ s' hs'
              refine iff_of_true hs' fun _ d' h => ?_
              obtain rfl : d = d' := Except.ok.inj (hold.symm.trans h)
              exact hone
          · have hne : oldfd.toNat ≠ newfd.toNat := by omega
            have hentry₁ : s₁.entries p oldfd.toNat = some d := by simp [hentries, hne, hentry]
            apply (allocRef_spec hs₁ hp₁ newfd (hs₁.live hp₁ hmax hentry₁)).mono
            intro _ s' hs'
            exact iff_of_true hs' fun h => absurd h heq

/-! ### The loops over a table -/

/-- The places when the first slots of the table of a process have been closed. -/
def closedBelow (s : Files P D N S) (p : P) (i : Nat) (k : P × Nat) : Option D :=
  if k.1 = p ∧ k.2 < i then none else s.slot k

theorem closedBelow_succ (s : Files P D N S) (p : P) (i : Nat) :
    closedBelow s p (i + 1) = Function.update (closedBelow s p i) (p, i) none := by
  funext ⟨q, j⟩
  by_cases hq : q = p
  · subst hq
    by_cases hj : j = i
    · simp [closedBelow, hj]
    · have hiff : j < i + 1 ↔ j < i := by omega
      simp [closedBelow, hj, hiff]
  · simp [closedBelow, hq]

/-- The table of a process is closed from its first slot on. -/
theorem fileDescriptorTableDestroy_spec (hs : DescriptionIntegrity s) (hp : s.registered p = true) :
    Ensures (fileDescriptorTableDestroy p) s fun _ t =>
      Accounts (closedBelow s p OPEN_MAX) t ∧ t.registered = s.registered ∧ t.entries = s.entries := by
  have hstart : closedBelow s p 0 = s.slot := by
    funext k
    simp [closedBelow]
  unfold fileDescriptorTableDestroy
  apply Ensures.forRange (fun i t => Accounts (closedBelow s p i) t ∧ t.registered = s.registered ∧
    t.entries = s.entries)
  · rw [hstart]
    exact ⟨hs, rfl, rfl⟩
  · rintro i t _ hi ⟨haccounts, hregistered, hentries⟩
    have hplace : closedBelow s p i (p, i) = s.entries p i := by
      simp [closedBelow, slot_of_registered hp hi]
    rw [ensures_bind, ensures_get, hentries, closedBelow_succ]
    cases hentry : s.entries p i with
    | none =>
        rw [Function.update_eq_self_iff.2 (hplace.trans hentry).symm]
        exact ⟨haccounts, hregistered, hentries⟩
    | some d =>
        apply (haccounts.close (hplace.trans hentry)).mono
        rintro _ t' ⟨haccounts', hregistered', hentries', _⟩
        exact ⟨haccounts', hregistered'.trans hregistered, hentries'.trans hentries⟩

theorem processExit_spec (hs : DescriptionIntegrity s) (hp : s.registered p = true) :
    Ensures (processExit p) s fun _ s' => DescriptionIntegrity s' := by
  unfold processExit
  rw [ensures_bind, ensures_get, ensures_bind]
  apply ensures_require.2
  intro _
  rw [ensures_bind]
  apply (fileDescriptorTableDestroy_spec hs hp).mono
  rintro _ t ⟨haccounts, hregistered, hentries⟩
  rw [ensures_bind, ensures_modify]
  have hview : ({ t with registered := Function.update t.registered p false } : Files P D N S).slot =
      closedBelow s p OPEN_MAX := by
    funext ⟨q, j⟩
    by_cases hq : q = p
    · subst hq
      by_cases hj : j < OPEN_MAX
      · simp [Files.slot, closedBelow, hj]
      · simp [Files.slot, closedBelow, hj]
    · simp [Files.slot, closedBelow, hq, hregistered, hentries]
  change DescriptionIntegrity { t with registered := Function.update t.registered p false }
  rw [DescriptionIntegrity, hview]
  exact haccounts.setTables _ t.entries

/-- The places when the first slots of the table of a process have been counted for a child. -/
def copiedBelow (s : Files P D N S) (parent child : P) (i : Nat) (k : P × Nat) : Option D :=
  if k.1 = child then if k.2 < i then s.slot (parent, k.2) else none else s.slot k

theorem copiedBelow_succ (s : Files P D N S) (parent child : P) (i : Nat) :
    copiedBelow s parent child (i + 1) =
      Function.update (copiedBelow s parent child i) (child, i) (s.slot (parent, i)) := by
  funext ⟨q, j⟩
  by_cases hq : q = child
  · subst hq
    by_cases hj : j = i
    · simp [copiedBelow, hj]
    · have hiff : j < i + 1 ↔ j < i := by omega
      simp [copiedBelow, hj, hiff]
  · simp [copiedBelow, hq]

/-- The table of a child is copied, and every copy is counted. -/
theorem fileDescriptorTableCloneFrom_spec (hs : DescriptionIntegrity s) (hp : s.registered p = true) {child : P}
    (hchild : s.registered child = false) (allocated : Bool) :
    Ensures (fileDescriptorTableCloneFrom child p allocated) s fun r s' =>
      ((∃ e, r = .error e) ∧ allocated = false ∧ s' = s) ∨
        (r = .ok () ∧ allocated = true ∧ Accounts (copiedBelow s p child OPEN_MAX) s' ∧
          s'.registered = s.registered ∧ s'.entries = Function.update s.entries child (s.entries p)) := by
  unfold fileDescriptorTableCloneFrom
  cases allocated with
  | false => exact Or.inl ⟨⟨_, rfl⟩, rfl, rfl⟩
  | true =>
      have hne : p ≠ child := by
        rintro rfl
        simp [hp] at hchild
      simp only [Bool.not_true, Bool.false_eq_true, if_false]
      rw [ensures_bind, ensures_modify, ensures_bind]
      have hstart : copiedBelow s p child 0 = s.slot := by
        funext ⟨q, j⟩
        by_cases hq : q = child
        · simp [copiedBelow, Files.slot, hq, hchild]
        · simp [copiedBelow, hq]
      refine Ensures.mono (Ensures.forRange (fun i t => Accounts (copiedBelow s p child i) t ∧
        t.registered = s.registered ∧ t.entries = Function.update s.entries child (s.entries p)) ?_ ?_) ?_
      · rw [hstart]
        exact ⟨hs.setTables _ _, rfl, rfl⟩
      · rintro i t _ hi ⟨haccounts, hregistered, hentries⟩
        have hparent : t.entries p i = s.entries p i := by rw [hentries, Function.update_of_ne hne]
        have hplace : copiedBelow s p child i (child, i) = none := by simp [copiedBelow]
        rw [ensures_bind, ensures_get, hparent, copiedBelow_succ, slot_of_registered hp hi]
        cases hentry : s.entries p i with
        | none =>
            rw [Function.update_eq_self_iff.2 hplace.symm]
            exact ⟨haccounts, hregistered, hentries⟩
        | some d =>
            have hheld : copiedBelow s p child i (p, i) = some d := by
              rw [copiedBelow, if_neg hne, slot_of_registered hp hi, hentry]
            exact ⟨haccounts.refDesc hplace (haccounts.refs.holds _ d hheld), hregistered, hentries⟩
      · rintro _ t ⟨haccounts, hregistered, hentries⟩
        exact Or.inr ⟨rfl, trivial, haccounts, hregistered, hentries⟩

theorem sysFork_spec (hs : DescriptionIntegrity s) (hp : s.registered p = true) {choice : ForkChoice P}
    (hchild : s.registered choice.child = false) :
    Ensures (sysFork p choice) s fun _ s' =>
      DescriptionIntegrity s' ↔ FileCall.Balanced s p (.fork choice : FileCall P D N S) := by
  unfold sysFork
  have hne : p ≠ choice.child := by
    intro heq
    rw [← heq, hp] at hchild
    cases hchild
  cases hprocess : choice.process with
  | false => exact iff_of_true hs fun h => by simp [hprocess] at h
  | true =>
  simp only [Bool.not_true, Bool.false_eq_true, if_false]
  cases hdirectory : choice.pageDirectory with
  | some e => exact iff_of_true hs fun _ h => by simp [hdirectory] at h
  | none =>
  simp only
  cases hcwd : choice.cwdPath with
  | false => exact iff_of_true hs fun _ _ h => by simp [hcwd] at h
  | true =>
  simp only [Bool.not_true, Bool.false_eq_true, if_false]
  rw [ensures_bind]
  apply (fileDescriptorTableCloneFrom_spec hs hp hchild choice.table).mono
  rintro r t (⟨⟨e, rfl⟩, htable, rfl⟩ | ⟨rfl, htable, haccounts, hregistered, hentries⟩)
  · exact iff_of_true hs fun _ _ _ h => by simp [htable] at h
  · have hslot : ∀ q j, q ≠ choice.child → t.slot (q, j) = s.slot (q, j) := by
      intro q j hq
      simp [Files.slot, hregistered, hentries, hq]
    cases hstack : choice.stack with
    | true =>
        -- the child is registered, and its slots are slots
        refine iff_of_true ?_ fun _ _ _ _ h => by simp [hstack] at h
        change DescriptionIntegrity { t with registered := Function.update t.registered choice.child true }
        have hview : ({ t with registered := Function.update t.registered choice.child true } :
            Files P D N S).slot = copiedBelow s p choice.child OPEN_MAX := by
          funext ⟨q, j⟩
          by_cases hq : q = choice.child
          · subst hq
            by_cases hj : j < OPEN_MAX
            · simp [Files.slot, copiedBelow, hj, hentries, hp]
            · simp [Files.slot, copiedBelow, hj]
          · simp [Files.slot, copiedBelow, hq, hregistered, hentries]
        rw [DescriptionIntegrity, hview]
        exact haccounts.setTables _ t.entries
    | false =>
        change DescriptionIntegrity t ↔ _
        have hview : t.slot = s.slot := by
          funext ⟨q, j⟩
          by_cases hq : q = choice.child
          · subst hq
            simp [Files.slot, hregistered, hchild]
          · exact hslot q j hq
        constructor
        · -- a slot that has been copied is counted twice
          intro hbad _ _ _ _ _ i hi
          by_contra hsome
          obtain ⟨d, hd⟩ := Option.ne_none_iff_exists'.1 hsome
          have hcopy : copiedBelow s p choice.child OPEN_MAX (choice.child, i) = some d := by
            simp [copiedBelow, hi, slot_of_registered hp hi, hd]
          have hle : ∀ k a, t.slot k = some a → copiedBelow s p choice.child OPEN_MAX k = some a := by
            rintro ⟨q, j⟩ a hk
            rw [hview] at hk
            by_cases hq : q = choice.child
            · simp [Files.slot, hq, hchild] at hk
            · simp [copiedBelow, hq, hk]
          have hheld := hbad.refs.held_of_counts haccounts.refs hle hcopy
          rw [hview] at hheld
          simp [Files.slot, hchild] at hheld
        · intro hempty
          have hall := hempty hprocess hdirectory hcwd htable hstack
          have hsame : copiedBelow s p choice.child OPEN_MAX = t.slot := by
            rw [hview]
            funext ⟨q, j⟩
            by_cases hq : q = choice.child
            · subst hq
              by_cases hj : j < OPEN_MAX
              · simp [copiedBelow, hj, Files.slot, hchild, hall j hj]
              · simp [copiedBelow, hj, Files.slot]
            · simp [copiedBelow, hq]
          rw [DescriptionIntegrity, ← hsame]
          exact haccounts

/-! ### Pipes -/

/-- The places behind the table of a process stand for the two descriptions in local variables. -/
def withLocals (held : P × Nat → Option D) (p : P) (reader writer : Option D) : P × Nat → Option D :=
  Function.update (Function.update held (p, OPEN_MAX) reader) (p, OPEN_MAX + 1) writer

section Locals

variable {held : P × Nat → Option D} {reader writer : Option D}

theorem withLocals_none (s : Files P D N S) (p : P) : withLocals s.slot p none none = s.slot := by
  have hreader : Function.update s.slot (p, OPEN_MAX) none = s.slot :=
    Function.update_eq_self_iff.2 (slot_behind s p (le_refl OPEN_MAX)).symm
  have hwriter : Function.update s.slot (p, OPEN_MAX + 1) none = s.slot :=
    Function.update_eq_self_iff.2 (slot_behind s p (Nat.le_succ OPEN_MAX)).symm
  rw [withLocals, hreader, hwriter]

theorem withLocals_reader : withLocals held p reader writer (p, OPEN_MAX) = reader := by
  simp [withLocals]

theorem withLocals_writer : withLocals held p reader writer (p, OPEN_MAX + 1) = writer := by
  simp [withLocals]

theorem withLocals_slot {i : Nat} (hi : i < OPEN_MAX) :
    withLocals held p reader writer (p, i) = held (p, i) := by
  have hreader : i ≠ OPEN_MAX := by omega
  have hwriter : i ≠ OPEN_MAX + 1 := by omega
  simp [withLocals, hreader, hwriter]

theorem update_reader (reader' : Option D) :
    Function.update (withLocals held p reader writer) (p, OPEN_MAX) reader' =
      withLocals held p reader' writer := by
  rw [withLocals, Function.update_comm (by simp), Function.update_idem, withLocals]

theorem update_writer (writer' : Option D) :
    Function.update (withLocals held p reader writer) (p, OPEN_MAX + 1) writer' =
      withLocals held p reader writer' := by
  rw [withLocals, Function.update_idem, withLocals]

theorem update_slot {i : Nat} (hi : i < OPEN_MAX) (entry : Option D) :
    Function.update (withLocals held p reader writer) (p, i) entry =
      withLocals (Function.update held (p, i) entry) p reader writer := by
  have hreader : (p, OPEN_MAX) ≠ (p, i) := by simp; omega
  have hwriter : (p, OPEN_MAX + 1) ≠ (p, i) := by simp; omega
  rw [withLocals, Function.update_comm hwriter, Function.update_comm hreader, withLocals]

end Locals

/-- The slots are what the tables say. -/
theorem slot_congr {s' : Files P D N S} (hregistered : s'.registered = s.registered)
    (hentries : s'.entries = s.entries) : s'.slot = s.slot := by
  funext k
  rw [Files.slot, Files.slot, hregistered, hentries]

/-- The two descriptions of a pipe get two slots, or are closed. -/
theorem pipeAllocFds_spec {reader writer : D} (hp : s.registered p = true)
    (haccounts : Accounts (withLocals s.slot p (some reader) (some writer)) s) :
    Ensures (pipeAllocFds p reader writer) s fun _ s' => DescriptionIntegrity s' := by
  unfold pipeAllocFds
  rw [ensures_bind]
  apply (processAllocFileDescriptor_spec p (-1) reader s).mono
  rintro r s₁ (⟨i, rfl, hi, hfree, rfl, _⟩ | ⟨⟨e, rfl⟩, rfl, _⟩)
  · have hempty : s.slot (p, i) = none := (slot_of_registered hp hi).trans hfree
    have hmoved := haccounts.move withLocals_reader ((withLocals_slot hi).trans hempty)
    rw [update_reader, update_slot hi] at hmoved
    have hreader : Accounts (withLocals (Function.update s.slot (p, i) (some reader)) p none (some writer))
        (s.setEntry p i (some reader)) := hmoved.setTables _ _
    have hp₁ : (s.setEntry p i (some reader)).registered p = true := hp
    have hview := slot_setEntry hp hi (some reader)
    rw [← hview] at hreader
    simp only
    rw [ensures_bind]
    apply (processAllocFileDescriptor_spec p (-1) writer (s.setEntry p i (some reader))).mono
    rintro r s₂ (⟨j, rfl, hj, hfree', rfl, _⟩ | ⟨⟨e, rfl⟩, rfl, _⟩)
    · have hempty' := (slot_of_registered hp₁ hj).trans hfree'
      have hmoved' := hreader.move withLocals_writer ((withLocals_slot hj).trans hempty')
      rw [update_writer, update_slot hj, ← slot_setEntry hp₁ hj] at hmoved'
      have hboth := hmoved'.setTables ((s.setEntry p i (some reader)).setEntry p j (some writer)).registered
        ((s.setEntry p i (some reader)).setEntry p j (some writer)).entries
      rw [withLocals_none] at hboth
      exact hboth
    · simp only
      rw [ensures_bind]
      have hheld : withLocals (s.setEntry p i (some reader)).slot p none (some writer) (p, i) = some reader := by
        rw [withLocals_slot hi, hview, Function.update_self]
      apply (hreader.close hheld).mono
      rintro _ s₂ ⟨haccounts₂, hregistered₂, hentries₂, _⟩
      rw [ensures_bind]
      rw [update_slot hi, hview, Function.update_idem, Function.update_eq_self_iff.2 hempty.symm] at haccounts₂
      apply (haccounts₂.close withLocals_writer).mono
      rintro _ s₃ ⟨haccounts₃, hregistered₃, hentries₃, _⟩
      rw [update_writer] at haccounts₃
      have hentries : s₃.entries = (s.setEntry p i (some reader)).entries := hentries₃.trans hentries₂
      have hp₃ : s₃.registered p = true := by
        rw [hregistered₃, hregistered₂]
        exact hp
      have hentry : s₃.entries p (Int.toNat i) = some reader := by simp [hentries, Files.setEntry]
      rw [ensures_bind]
      apply (processFreeFileDescriptor_spec (Int.natCast_nonneg i) (by simpa using hi) hentry).mono
      rintro r s₄ ⟨rfl, rfl⟩
      have hslot : s₃.slot = (s.setEntry p i (some reader)).slot :=
        slot_congr (hregistered₃.trans hregistered₂) hentries
      change DescriptionIntegrity (s₃.setEntry p (Int.toNat i) none)
      rw [DescriptionIntegrity, Int.toNat_natCast, slot_setEntry hp₃ hi, hslot, hview, Function.update_idem,
        Function.update_eq_self_iff.2 hempty.symm]
      rw [withLocals_none] at haccounts₃
      exact haccounts₃.setTables _ _
  · simp only
    rw [ensures_bind]
    apply (haccounts.close withLocals_reader).mono
    rintro _ s₂ ⟨haccounts₂, hregistered₂, hentries₂, _⟩
    rw [update_reader] at haccounts₂
    rw [ensures_bind]
    apply (haccounts₂.close withLocals_writer).mono
    rintro _ s₃ ⟨haccounts₃, hregistered₃, hentries₃, _⟩
    rw [update_writer, withLocals_none] at haccounts₃
    change DescriptionIntegrity s₃
    rwa [DescriptionIntegrity, slot_congr (hregistered₃.trans hregistered₂) (hentries₃.trans hentries₂)]

theorem sysPipe_spec (hs : DescriptionIntegrity s) (hp : s.registered p = true) (fifo : CreateChoice N)
    {readerChoice writerChoice : OpenChoice D} (hreader : readerChoice.Fresh s) (hwriter : writerChoice.Fresh s)
    (hne : ∀ d, readerChoice.block = some d → writerChoice.block ≠ some d) :
    Ensures (sysPipe p fifo readerChoice writerChoice) s fun _ s' => DescriptionIntegrity s' := by
  unfold sysPipe
  have hcreate : Ensures (fifoCreateInode fifo) s fun _ s₁ => SameDescriptions s s₁ := by
    unfold fifoCreateInode
    cases fifo.block with
    | none => exact .refl s
    | some n =>
        cases fifo.buffers with
        | false => exact .refl s
        | true => exact ⟨rfl, rfl, rfl, rfl, rfl, rfl⟩
  rw [ensures_bind]
  apply hcreate.mono
  intro r s₁ hsame₁
  cases r with
  | error e => exact hsame₁.integrity hs
  | ok n =>
      simp only
      rw [ensures_bind]
      apply (inodeRef_same (.node n) s₁).mono
      intro _ s₂ hsame₂
      rw [ensures_bind]
      apply (inodeOpen_spec (.node n) O_RDONLY readerChoice s₂).mono
      rintro r s₃ (⟨⟨e, rfl⟩, hsame₃, _⟩ | ⟨reader, rfl, hblock, rfl, _⟩)
      · simp only
        rw [ensures_bind]
        apply (inodeUnref_same (.node n) s₃).mono
        intro _ s₄ hsame₄
        exact (((hsame₁.trans hsame₂).trans hsame₃).trans hsame₄).integrity hs
      · have hsame := hsame₁.trans hsame₂
        have hs₂ := hsame.integrity hs
        have hp₂ : s₂.registered p = true := by rwa [hsame.registered]
        have hlive : s₂.descLive reader = false := by
          rw [hsame.descLive]
          exact hreader reader hblock
        rw [DescriptionIntegrity, ← withLocals_none s₂ p] at hs₂
        have haccounts := Accounts.newDesc hs₂ withLocals_reader hlive (.node n) O_RDONLY
        rw [update_reader] at haccounts
        simp only
        rw [ensures_bind]
        apply (inodeOpen_spec (.node n) O_WRONLY writerChoice (s₂.newDesc reader (.node n) O_RDONLY)).mono
        rintro r s₃ (⟨⟨e, rfl⟩, hsame₃, _⟩ | ⟨writer, rfl, hblock', rfl, _⟩)
        · simp only
          rw [ensures_bind]
          apply ((hsame₃.accounts haccounts).close withLocals_reader).mono
          rintro _ s₄ ⟨haccounts₄, hregistered₄, hentries₄, _⟩
          rw [update_reader, withLocals_none] at haccounts₄
          change DescriptionIntegrity s₄
          have hslot : s₄.slot = s₂.slot :=
            slot_congr (hregistered₄.trans hsame₃.registered) (hentries₄.trans hsame₃.entries)
          rwa [DescriptionIntegrity, hslot]
        · have hdiffer : writer ≠ reader := by
            rintro rfl
            exact hne writer hblock hblock'
          have hlive' : (s₂.newDesc reader (.node n) O_RDONLY).descLive writer = false := by
            have h := hwriter writer hblock'
            rw [← hsame.descLive] at h
            simpa [Files.newDesc, hdiffer] using h
          have haccounts' := haccounts.newDesc withLocals_writer hlive' (.node n) O_WRONLY
          rw [update_writer] at haccounts'
          exact pipeAllocFds_spec hp₂ haccounts'

end Calls

/-! ### Runs -/

section Runs

variable {P D N S : Type} [DecidableEq P] [DecidableEq D] [DecidableEq N] [DecidableEq S]

/-- A call keeps the accounting exactly when it is balanced. -/
theorem fileCall_spec {s s' : Files P D N S} {e : DescriptorEvent P D N S} (hs : DescriptionIntegrity s)
    (hstep : (descriptorSystem P D N S).step s e s') :
    DescriptionIntegrity s' ↔ e.call.Balanced s e.process := by
  obtain ⟨hp, hfresh, hrun⟩ := hstep
  cases hcall : e.call with
  | «open» path flags choice =>
      rw [hcall] at hfresh hrun
      exact ensures_iff.1 (sysOpen_spec hs hp path flags hfresh.2) _ _ hrun
  | close fd =>
      rw [hcall] at hrun
      exact iff_of_true (ensures_iff.1 (sysClose_spec hs hp fd) _ _ hrun) trivial
  | fcntl fd cmd arg =>
      rw [hcall] at hrun
      exact iff_of_true (ensures_iff.1 (sysFcntl_spec hs hp fd cmd arg) _ _ hrun) trivial
  | dup2 oldfd newfd =>
      rw [hcall] at hrun
      exact ensures_iff.1 (sysDup2_spec hs hp oldfd newfd) _ _ hrun
  | pipe fifo reader writer =>
      rw [hcall] at hfresh hrun
      obtain ⟨_, hreader, hwriter, hne⟩ := hfresh
      exact iff_of_true (ensures_iff.1 (sysPipe_spec hs hp fifo hreader hwriter hne) _ _ hrun) trivial
  | socket domain type create choice =>
      rw [hcall] at hfresh hrun
      exact ensures_iff.1 (sysSocket_spec hs hp domain type create hfresh.2) _ _ hrun
  | fork choice =>
      rw [hcall] at hfresh hrun
      exact ensures_iff.1 (sysFork_spec hs hp hfresh) _ _ hrun
  | exit =>
      rw [hcall] at hrun
      exact iff_of_true (ensures_iff.1 (processExit_spec hs hp) _ _ hrun) trivial

theorem descriptionIntegrity_initial {s : Files P D N S} (hs : s.Initial) : DescriptionIntegrity s := by
  obtain ⟨hentries, hdescs, _⟩ := hs
  have hslot : ∀ k d, s.slot k ≠ some d := by
    intro k d
    simp [Files.slot, hentries]
  refine ⟨⟨fun d hd => ?_, fun k d hk => absurd hk (hslot k d), fun d hd => ?_⟩, fun d => ?_⟩
  · simp [(hdescs d).1] at hd
  · simp [(hdescs d).1] at hd
  · simp [hdescs d]

/-- Reference counts of descriptions over runs: they are right in every state of a run exactly when each call
    of the run is balanced. -/
theorem description_counts_iff {s t : Files P D N S}
    {xs : List (Transition (Files P D N S) (DescriptorEvent P D N S))}
    (hinit : (descriptorSystem P D N S).init s) (run : (descriptorSystem P D N S).Run s xs t) :
    (∀ x ∈ xs, DescriptionIntegrity x.after) ↔ ∀ x ∈ xs, x.event.call.Balanced x.before x.event.process :=
  run.guarded_iff (fun _ _ s' => DescriptionIntegrity s')
    (fun _ _ _ hs hbalanced hstep => (fileCall_spec hs hstep).2 hbalanced)
    (fun _ _ _ hs hbalanced hstep => (fileCall_spec hs hstep).2 hbalanced)
    (fun _ _ _ hs hstep hs' => (fileCall_spec hs hstep).1 hs') (descriptionIntegrity_initial hinit)

/-- One process, one file and no description. -/
def oneProcess : Files Nat Nat Nat Nat :=
  { init := 1
    registered := fun p => p == 2
    entries := fun _ _ => none
    desc := fun _ => { inode := .node 0, flags := 0, refCount := 0 }
    descLive := fun _ => false
    opened := fun _ => 0
    closed := fun _ => 0
    node := fun _ => { mode := .S_IFREG, numLinks := 1, refCount := 0, boundSocket := none }
    nodeLive := fun n => n == 0
    socket := fun _ =>
      { refCount := 0, backlog := 0, numPending := 0, next := none, connected := false, connectorFd := none }
    socketLive := fun _ => false }

/-- The process opens the file. -/
def openFile : FileCall Nat Nat Nat Nat := .open (.found 0) O_RDONLY { block := some 0, openError := none }

theorem oneProcess_initial : (descriptorSystem Nat Nat Nat Nat).init oneProcess :=
  ⟨fun _ _ => rfl, fun _ => ⟨rfl, rfl, rfl⟩, fun _ => rfl⟩

theorem openFile_fresh : openFile.Fresh oneProcess := ⟨⟨rfl, by decide⟩, fun _ _ => rfl⟩

/-- A file is opened: its description is counted once, for slot 0. -/
theorem description_counts_iff_after_open :
    ∃ xs t, (descriptorSystem Nat Nat Nat Nat).Run oneProcess xs t ∧ t.slot (2, 0) = some 0 ∧
      ∀ x ∈ xs, DescriptionIntegrity x.after := by
  have hopen : ∃ t, openFile.run 2 oneProcess = .ok (.ok 0, t) ∧ t.slot (2, 0) = some 0 := ⟨_, rfl, rfl⟩
  obtain ⟨t, hrun, hslot⟩ := hopen
  have run : (descriptorSystem Nat Nat Nat Nat).Run oneProcess [⟨oneProcess, ⟨2, openFile, .ok 0⟩, t⟩] t :=
    .cons ⟨rfl, openFile_fresh, hrun⟩ (.nil t)
  refine ⟨_, t, run, hslot, (description_counts_iff oneProcess_initial run).2 ?_⟩
  intro x hx
  obtain rfl := List.mem_singleton.1 hx
  exact fun _ => ⟨0, by decide, rfl⟩

/-- `dup2` of a descriptor to itself frees the description and leaves it in the slot. -/
theorem dup2_frees_description :
    ¬ ∀ (s : Files Nat Nat Nat Nat) xs t, (descriptorSystem Nat Nat Nat Nat).init s →
      (descriptorSystem Nat Nat Nat Nat).Run s xs t → DescriptionIntegrity t := by
  intro h
  have hopen : ∃ t u, openFile.run 2 oneProcess = .ok (.ok 0, t) ∧ t.registered 2 = true ∧
      (FileCall.dup2 0 0 : FileCall Nat Nat Nat Nat).run 2 t = .ok (.ok 0, u) ∧ u.slot (2, 0) = some 0 ∧
      u.descLive 0 = false := ⟨_, _, rfl, rfl, rfl, rfl, rfl⟩
  obtain ⟨t, u, hrun, hregistered, hdup2, hslot, hgone⟩ := hopen
  have run : (descriptorSystem Nat Nat Nat Nat).Run oneProcess
      [⟨oneProcess, ⟨2, openFile, .ok 0⟩, t⟩, ⟨t, ⟨2, .dup2 0 0, .ok 0⟩, u⟩] u :=
    .cons ⟨rfl, openFile_fresh, hrun⟩ (.cons ⟨hregistered, trivial, hdup2⟩ (.nil u))
  have hlive := (h oneProcess _ u oneProcess_initial run).refs.holds (2, 0) 0 hslot
  simp [hgone] at hlive

end Runs

end Chaotix
