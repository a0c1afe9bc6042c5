/-
Module: Chaotix.Proofs.ExclusiveCreation
Layer: Proofs
Purpose: Names in one tmpfs directory under concurrent creators. No two entries have the same name; of the
  exclusive opens of one name at most one creates it while it is not unlinked, and exactly one when nobody else
  creates it and memory is not short; and what a non-exclusive open of a regular file opens was denoted by the
  name during the call.
Imports: Mathlib.Tactic, Chaotix.Kernel.Directory
Trusted boundary: none
Main exports: NamesUnique, Denotes, OpensExclusively, outcomes, exclusive_creation
-/
import Mathlib.Tactic
import Chaotix.Kernel.Directory

namespace Chaotix

set_option linter.unusedSectionVars false

/-! ### Entries -/

section Entries

variable {N I : Type} [DecidableEq N] {entries entries' : List (Dentry N I)} {name : N}

/-- The names of a directory. -/
def namesOf (entries : List (Dentry N I)) : List N := entries.map Dentry.name

theorem dentryFind_error_iff {e : Errno} :
    dentryFind entries name = .error e ↔ e = .ENOENT ∧ name ∉ namesOf entries := by
  induction entries with
  | nil => simp [dentryFind, namesOf, eq_comm]
  | cons dentry rest ih =>
      by_cases hname : dentry.name = name
      · simp [dentryFind, namesOf, hname]
      · rw [dentryFind, if_neg hname, ih, namesOf, namesOf, List.map_cons, List.mem_cons, not_or]
        exact ⟨fun h => ⟨h.1, fun heq => hname heq.symm, h.2⟩, fun h => ⟨h.1, h.2.2⟩⟩

theorem mem_names_of_find {inode : I} (h : dentryFind entries name = .ok inode) : name ∈ namesOf entries := by
  by_contra hnot
  rw [dentryFind_error_iff.2 ⟨rfl, hnot⟩] at h
  cases h

/-- An entry is appended only when its name is new. -/
theorem dentryAppend_ok {child : I} {allocated : Bool}
    (h : dentryAppend entries name child allocated = .ok entries') :
    entries' = entries ++ [{ name := name, inode := child }] ∧ name ∉ namesOf entries := by
  induction entries generalizing entries' with
  | nil =>
      cases allocated with
      | false => cases h
      | true => exact ⟨(Except.ok.inj h).symm, List.not_mem_nil⟩
  | cons it rest ih =>
      rw [dentryAppend] at h
      split_ifs at h with hname
      cases hrest : dentryAppend rest name child allocated with
      | error e => rw [hrest] at h; cases h
      | ok rest' =>
          rw [hrest] at h
          obtain rfl := Except.ok.inj h
          obtain ⟨rfl, hnot⟩ := ih hrest
          refine ⟨rfl, ?_⟩
          rw [namesOf, List.map_cons, List.mem_cons, not_or]
          exact ⟨fun heq => hname heq.symm, hnot⟩

/-- An entry is refused when its name is there, or when memory is short. -/
theorem dentryAppend_error {child : I} {allocated : Bool} {e : Errno}
    (h : dentryAppend entries name child allocated = .error e) :
    (e = .EEXIST ∧ name ∈ namesOf entries) ∨ (e = .ENOMEM ∧ allocated = false) := by
  induction entries with
  | nil =>
      cases allocated with
      | false => exact Or.inr ⟨(Except.error.inj h).symm, rfl⟩
      | true => cases h
  | cons it rest ih =>
      rw [dentryAppend] at h
      split_ifs at h with hname
      · refine Or.inl ⟨(Except.error.inj h).symm, ?_⟩
        rw [namesOf, List.map_cons, hname]
        exact List.mem_cons_self
      · cases hrest : dentryAppend rest name child allocated with
        | ok rest' => rw [hrest] at h; cases h
        | error e' =>
            rw [hrest] at h
            obtain rfl := Except.error.inj h
            exact (ih hrest).imp_left fun h => ⟨h.1, List.mem_cons_of_mem _ h.2⟩

theorem dentryFind_append {child : I} (hnot : name ∉ namesOf entries) :
    dentryFind (entries ++ [{ name := name, inode := child }]) name = .ok child := by
  induction entries with
  | nil => simp [dentryFind]
  | cons dentry rest ih =>
      rw [namesOf, List.map_cons, List.mem_cons, not_or] at hnot
      rw [List.cons_append, dentryFind, if_neg fun heq => hnot.1 heq.symm]
      exact ih hnot.2

/-- What is removed is one entry of the name. -/
theorem dentryRemove_ok {r : I × List (Dentry N I)} (h : dentryRemove entries name = .ok r) :
    r.2.Sublist entries ∧ ∀ n, n ≠ name → (n ∈ namesOf r.2 ↔ n ∈ namesOf entries) := by
  induction entries generalizing r with
  | nil => cases h
  | cons it rest ih =>
      rw [dentryRemove] at h
      split_ifs at h with hname
      · obtain rfl := Except.ok.inj h
        refine ⟨List.sublist_cons_self _ _, fun n hn => ?_⟩
        rw [namesOf, namesOf, List.map_cons, hname, List.mem_cons]
        exact (or_iff_right hn).symm
      · cases hrest : dentryRemove rest name with
        | error e => rw [hrest] at h; cases h
        | ok r' =>
            rw [hrest] at h
            obtain rfl := Except.ok.inj h
            obtain ⟨hsub, hnames⟩ := ih hrest
            refine ⟨hsub.cons_cons it, fun n hn => ?_⟩
            rw [namesOf, namesOf, List.map_cons, List.map_cons, List.mem_cons, List.mem_cons]
            exact or_congr_right (hnames n hn)

end Entries

section Directory

variable {P N I : Type} [DecidableEq P] [DecidableEq N] {inodes : Inodes I} {s s' t : DirState P N I}
  {e : DirEvent P N I}

/-! ### Names are unique -/

/-- No two entries have the same name. -/
def NamesUnique (s : DirState P N I) : Prop := (namesOf s.entries).Nodup

/-- What one step does to the entries: nothing, or one new name is appended, or one entry goes. -/
inductive EntriesStep (entries : List (Dentry N I)) : DirEvent P N I → List (Dentry N I) → Prop where
  | same (e : DirEvent P N I) : EntriesStep entries e entries
  | append (e : DirEvent P N I) (name : N) (child : I) :
      name ∉ namesOf entries → EntriesStep entries e (entries ++ [{ name := name, inode := child }])
  | remove (p : P) (name : N) (entries' : List (Dentry N I)) :
      entries'.Sublist entries → (∀ n, n ≠ name → (n ∈ namesOf entries' ↔ n ∈ namesOf entries)) →
      EntriesStep entries (.unlinkChild p name) entries'

theorem entriesStep_append {entries : List (Dentry N I)} (e : DirEvent P N I) (name : N) (child : I)
    (allocated : Bool) :
    EntriesStep entries e (entriesAfter entries (dentryAppend entries name child allocated)) := by
  cases happend : dentryAppend entries name child allocated with
  | error err => exact .same e
  | ok entries' =>
      obtain ⟨rfl, hnot⟩ := dentryAppend_ok happend
      exact .append e name child hnot

theorem entriesStep_create {entries : List (Dentry N I)} (e : DirEvent P N I) (name : N) (child : I)
    (inodeAllocated allocated : Bool) :
    EntriesStep entries e
      (entriesAfter entries (tmpfsCreateChild entries name child inodeAllocated allocated)) := by
  cases inodeAllocated with
  | false => exact .same e
  | true => exact entriesStep_append e name child allocated

theorem entriesStep_of_step (step : DirStep inodes s e s') : EntriesStep s.entries e s'.entries := by
  cases step with
  | createChild p c child inodeAllocated allocated _ _ _ _ => exact entriesStep_create _ _ _ _ _
  | linkChild p target name allocated _ _ => exact entriesStep_append _ _ _ _
  | unlinkChild p name _ =>
      cases hremove : dentryRemove s.entries name with
      | error err => exact .same _
      | ok r =>
          obtain ⟨hsub, hnames⟩ := dentryRemove_ok hremove
          exact .remove p name r.2 hsub hnames
  | call => exact .same _
  | resolve => exact .same _
  | resolveFails => exact .same _
  | lookupChild => exact .same _
  | openInode => exact .same _
  | linkOther => exact .same _
  | returns => exact .same _

/-- Every step keeps the names unique. -/
theorem namesUnique_step (h : NamesUnique s) (step : DirStep inodes s e s') : NamesUnique s' := by
  have hentries := entriesStep_of_step step
  rw [NamesUnique] at h ⊢
  generalize s'.entries = entries' at hentries
  cases hentries with
  | same => exact h
  | append _ name child hnot =>
      rw [namesOf, List.map_append, List.map_singleton, List.nodup_append']
      exact ⟨h, List.nodup_singleton _, List.disjoint_singleton.2 hnot⟩
  | remove p name _ hsub _ => exact h.sublist (hsub.map _)

/-- A name stays until it is unlinked. -/
theorem mem_names_step {n : N} (h : n ∈ namesOf s.entries) (step : DirStep inodes s e s')
    (hunlink : ∀ p, e ≠ .unlinkChild p n) : n ∈ namesOf s'.entries := by
  have hentries := entriesStep_of_step step
  generalize s'.entries = entries' at hentries
  cases hentries with
  | same => exact h
  | append _ name child _ =>
      rw [namesOf, List.map_append]
      exact List.mem_append_left _ h
  | remove p name _ _ hnames =>
      refine (hnames n fun heq => ?_).2 h
      exact hunlink p (by rw [heq])

/-! ### Exclusive opens of one name -/

/-- `vfs_open` of the name with `O_CREAT | O_EXCL`, of a file that is neither a directory nor a device. -/
def Creation.ExclusiveOpen (c : Creation N) (n : N) : Prop :=
  c.name = n ∧ c.exclusive = true ∧ c.opens ≠ none ∧ c.type ≠ .S_IFDIR ∧ c.type.isDevice = false

instance (c : Creation N) (n : N) : Decidable (c.ExclusiveOpen n) := inferInstanceAs (Decidable (_ ∧ _))

/-- The call may create the name and is not such an open. -/
def DirCall.CreatesOtherwise (n : N) : DirCall N I → Prop
  | .create c => c.name = n ∧ ¬c.ExclusiveOpen n
  | .link _ name => name = n
  | .unlink _ => False

/-- The process is in a call that may create the name and is not such an open. -/
def DirPc.CreatesOtherwise (n : N) : DirPc N I → Prop
  | .resolve call => call.CreatesOtherwise n
  | .createChild c => c.name = n ∧ ¬c.ExclusiveOpen n
  | .lookupChild c => c.name = n ∧ ¬c.ExclusiveOpen n
  | .linkChild _ name => name = n
  | _ => False

/-- The process is in such an open. -/
def DirPc.OpensExclusively (n : N) : DirPc N I → Prop
  | .resolve (.create c) => c.ExclusiveOpen n
  | .createChild c => c.ExclusiveOpen n
  | .lookupChild c => c.ExclusiveOpen n
  | .openInode c _ _ => c.ExclusiveOpen n
  | .done (.create c) _ => c.ExclusiveOpen n
  | _ => False

/-- The process has created the name in such an open, and has not failed since. -/
def DirPc.Wins (n : N) : DirPc N I → Prop
  | .openInode c _ _ => c.ExclusiveOpen n
  | .done (.create c) (.ok _) => c.ExclusiveOpen n
  | _ => False

/-- What such an open returns in a step. -/
def DirEvent.outcome (n : N) : DirEvent P N I → List (Except Errno (Option I))
  | .returns _ (.create c) result => if c.ExclusiveOpen n then [result] else []
  | _ => []

/-- There was not enough memory. -/
def DirEvent.ShortOfMemory : DirEvent P N I → Prop
  | .resolve _ allocated => allocated = false
  | .createChild _ allocated => allocated = false
  | .openInode _ allocated => allocated = false
  | .linkChild _ allocated => allocated = false
  | _ => False

/-- A process in such an open has an inode that can be opened, or an error of the right kind. -/
def DirPc.Fine (inodes : Inodes I) (short : Prop) (n : N) : DirPc N I → Prop
  | .lookupChild c => ¬c.ExclusiveOpen n
  | .openInode c _ inode => c.ExclusiveOpen n →
      inodes.type inode ≠ .S_IFDIR ∧ (inodes.type inode).isDevice = false ∧ inodes.hasOpen inode = false
  | .done (.create c) (.error e) => c.ExclusiveOpen n → e = .EEXIST ∨ (short ∧ e = .ENOMEM)
  | _ => True

/-- The race for a name that is not unlinked: at most one process has won it. Memory may have been short when
    `short`, and only the racing opens create the name when `alone`. -/
structure RaceInvariant (inodes : Inodes I) (short alone : Prop) (n : N) (s : DirState P N I)
    (results : List (Except Errno (Option I))) : Prop where
  fine : ∀ p, (s.pc p).Fine inodes short n
  errors : ∀ e, .error e ∈ results → e = .EEXIST ∨ (short ∧ e = .ENOMEM)
  winner :
    (results.countP Except.toBool = 0 ∧ (∀ p, ¬(s.pc p).Wins n) ∧ (alone → n ∉ namesOf s.entries)) ∨
    (n ∈ namesOf s.entries ∧ results.countP Except.toBool = 0 ∧ ∃ p, ∀ q, (s.pc q).Wins n ↔ q = p) ∨
    (n ∈ namesOf s.entries ∧ results.countP Except.toBool = 1 ∧ ∀ p, ¬(s.pc p).Wins n)
  creators : alone → ∀ p, ¬(s.pc p).CreatesOtherwise n
  returned : alone → results ≠ [] → n ∈ namesOf s.entries
  finished : alone → ∀ p c r, s.pc p = .done (.create c) r → c.ExclusiveOpen n → n ∈ namesOf s.entries

namespace RaceInvariant

variable {short alone : Prop} {n : N} {results : List (Except Errno (Option I))} {p : P} {pc' : DirPc N I}

/-- A step that does not change who has won. -/
theorem quiet (h : RaceInvariant inodes short alone n s results) (hpc : s'.pc = Function.update s.pc p pc')
    (hnames : n ∈ namesOf s.entries → n ∈ namesOf s'.entries)
    (hback : alone → n ∈ namesOf s'.entries → n ∈ namesOf s.entries) (hfine : pc'.Fine inodes short n)
    (hwins : pc'.Wins n ↔ (s.pc p).Wins n) (hcreators : alone → ¬pc'.CreatesOtherwise n)
    (hfinished : ∀ c r, pc' = .done (.create c) r → c.ExclusiveOpen n → alone → n ∈ namesOf s'.entries) :
    RaceInvariant inodes short alone n s' results := by
  have hwins' : ∀ q, (s'.pc q).Wins n ↔ (s.pc q).Wins n := by
    intro q
    rw [hpc]
    by_cases hq : q = p
    · rw [hq, Function.update_self]
      exact hwins
    · rw [Function.update_of_ne hq]
  constructor
  case fine =>
    rw [hpc]
    exact (Function.forall_update_iff s.pc fun _ pc => pc.Fine inodes short n).2 ⟨hfine, fun q _ => h.fine q⟩
  case errors => exact h.errors
  case winner =>
    rcases h.winner with ⟨hcount, hnone, habsent⟩ | ⟨hmem, hcount, q, hone⟩ | ⟨hmem, hcount, hnone⟩
    · exact Or.inl ⟨hcount, fun q hq => hnone q ((hwins' q).1 hq), fun ha hmem => habsent ha (hback ha hmem)⟩
    · exact Or.inr (Or.inl ⟨hnames hmem, hcount, q, fun r => (hwins' r).trans (hone r)⟩)
    · exact Or.inr (Or.inr ⟨hnames hmem, hcount, fun q hq => hnone q ((hwins' q).1 hq)⟩)
  case creators =>
    intro ha
    rw [hpc]
    exact (Function.forall_update_iff s.pc fun _ pc => ¬pc.CreatesOtherwise n).2
      ⟨hcreators ha, fun q _ => h.creators ha q⟩
  case returned => exact fun ha hne => hnames (h.returned ha hne)
  case finished =>
    intro ha q c r hq hc
    rw [hpc] at hq
    by_cases hqp : q = p
    · rw [hqp, Function.update_self] at hq
      exact hfinished c r hq hc ha
    · rw [Function.update_of_ne hqp] at hq
      exact hnames (h.finished ha q c r hq hc)

/-- A process creates the name. -/
theorem create (h : RaceInvariant inodes short alone n s results) (hpc : s'.pc = Function.update s.pc p pc')
    (hnew : n ∉ namesOf s.entries) (hmem : n ∈ namesOf s'.entries) (hfine : pc'.Fine inodes short n)
    (hwins : pc'.Wins n) (hcreators : ¬pc'.CreatesOtherwise n) :
    RaceInvariant inodes short alone n s' results := by
  obtain ⟨hcount, hnone, _⟩ | ⟨hmem', _⟩ | ⟨hmem', _⟩ := h.winner
  · constructor
    case fine =>
      rw [hpc]
      exact (Function.forall_update_iff s.pc fun _ pc => pc.Fine inodes short n).2 ⟨hfine, fun q _ => h.fine q⟩
    case errors => exact h.errors
    case winner =>
      refine Or.inr (Or.inl ⟨hmem, hcount, p, fun q => ?_⟩)
      rw [hpc]
      by_cases hq : q = p
      · rw [hq, Function.update_self]
        exact iff_of_true hwins rfl
      · rw [Function.update_of_ne hq]
        exact iff_of_false (hnone q) hq
    case creators =>
      intro ha
      rw [hpc]
      exact (Function.forall_update_iff s.pc fun _ pc => ¬pc.CreatesOtherwise n).2
        ⟨hcreators, fun q _ => h.creators ha q⟩
    case returned => exact fun _ _ => hmem
    case finished => exact fun _ _ _ _ _ _ => hmem
  · exact absurd hmem' hnew
  · exact absurd hmem' hnew

/-- The winner fails because memory is short. -/
theorem loses (h : RaceInvariant inodes short alone n s results) (hpc : s'.pc = Function.update s.pc p pc')
    (halone : ¬alone) (hwins : (s.pc p).Wins n)
    (hfine : pc'.Fine inodes short n) (hnot : ¬pc'.Wins n) : RaceInvariant inodes short alone n s' results := by
  constructor
  case fine =>
    rw [hpc]
    exact (Function.forall_update_iff s.pc fun _ pc => pc.Fine inodes short n).2 ⟨hfine, fun q _ => h.fine q⟩
  case errors => exact h.errors
  case winner =>
    rcases h.winner with ⟨_, hnone, _⟩ | ⟨_, hcount, q, hone⟩ | ⟨_, _, hnone⟩
    · exact absurd hwins (hnone p)
    · refine Or.inl ⟨hcount, ?_, fun ha => absurd ha halone⟩
      rw [hpc]
      refine (Function.forall_update_iff s.pc fun _ pc => ¬pc.Wins n).2 ⟨hnot, fun r hr hwinsr => hr ?_⟩
      rw [(hone r).1 hwinsr, (hone p).1 hwins]
    · exact absurd hwins (hnone p)
  case creators => exact fun ha => absurd ha halone
  case returned => exact fun ha => absurd ha halone
  case finished => exact fun ha => absurd ha halone

/-- An exclusive open of the name returns. -/
theorem returns (h : RaceInvariant inodes short alone n s results) {c : Creation N}
    {result : Except Errno (Option I)} (hp : s.pc p = .done (.create c) result) (hc : c.ExclusiveOpen n) :
    RaceInvariant inodes short alone n (s.setPc p .outside) (results ++ [result]) := by
  have hfineAll : ∀ q, ((s.setPc p .outside).pc q).Fine inodes short n :=
    (Function.forall_update_iff s.pc fun _ pc => pc.Fine inodes short n).2 ⟨trivial, fun q _ => h.fine q⟩
  have hcreators : alone → ∀ q, ¬((s.setPc p .outside).pc q).CreatesOtherwise n := fun ha =>
    (Function.forall_update_iff s.pc fun _ pc => ¬pc.CreatesOtherwise n).2 ⟨id, fun q _ => h.creators ha q⟩
  have hfinished : alone → ∀ q c r, (s.setPc p .outside).pc q = .done (.create c) r → c.ExclusiveOpen n →
      n ∈ namesOf s.entries := by
    intro ha q c' r hq hc'
    by_cases hqp : q = p
    · simp only [DirState.setPc, hqp, Function.update_self] at hq
      cases hq
    · simp only [DirState.setPc, Function.update_of_ne hqp] at hq
      exact h.finished ha q c' r hq hc'
  have hreturned : alone → results ++ [result] ≠ [] → n ∈ namesOf s.entries := fun ha _ =>
    h.finished ha p c result hp hc
  cases result with
  | error e =>
      have hcount : (results ++ [Except.error e]).countP Except.toBool = results.countP Except.toBool := by
        rw [List.countP_append]
        rfl
      have hnot : ¬(s.pc p).Wins n := by rw [hp]; exact id
      have hsame : ∀ q, ((s.setPc p .outside).pc q).Wins n ↔ (s.pc q).Wins n := by
        intro q
        by_cases hq : q = p
        · simp only [DirState.setPc, hq, Function.update_self]
          exact iff_of_false id hnot
        · simp only [DirState.setPc, Function.update_of_ne hq]
      refine ⟨hfineAll, ?_, ?_, hcreators, hreturned, hfinished⟩
      · intro e' he'
        rcases List.mem_append.1 he' with he' | he'
        · exact h.errors e' he'
        · have hfine := h.fine p
          rw [hp] at hfine
          obtain rfl : e' = e := Except.error.inj (List.mem_singleton.1 he')
          exact hfine hc
      · rw [hcount]
        rcases h.winner with ⟨hzero, hnone, habsent⟩ | ⟨hmem, hzero, q, hone⟩ | ⟨hmem, hcount1, hnone⟩
        · exact Or.inl ⟨hzero, fun q hq => hnone q ((hsame q).1 hq), habsent⟩
        · exact Or.inr (Or.inl ⟨hmem, hzero, q, fun r => (hsame r).trans (hone r)⟩)
        · exact Or.inr (Or.inr ⟨hmem, hcount1, fun q hq => hnone q ((hsame q).1 hq)⟩)
  | ok desc =>
      have hcount : (results ++ [Except.ok desc]).countP Except.toBool = results.countP Except.toBool + 1 := by
        rw [List.countP_append]
        rfl
      have hwins : (s.pc p).Wins n := by rw [hp]; exact hc
      refine ⟨hfineAll, ?_, ?_, hcreators, hreturned, hfinished⟩
      · intro e' he'
        rcases List.mem_append.1 he' with he' | he'
        · exact h.errors e' he'
        · cases List.mem_singleton.1 he'
      · rcases h.winner with ⟨_, hnone, _⟩ | ⟨hmem, hzero, q, hone⟩ | ⟨_, _, hnone⟩
        · exact absurd hwins (hnone p)
        · refine Or.inr (Or.inr ⟨hmem, by rw [hcount, hzero], ?_⟩)
          refine (Function.forall_update_iff s.pc fun _ pc => ¬pc.Wins n).2 ⟨id, fun r hr hwinsr => hr ?_⟩
          rw [(hone r).1 hwinsr, (hone p).1 hwins]
        · exact absurd hwins (hnone p)

end RaceInvariant

/-! ### Where the sections lead -/

variable {n : N}

theorem found_of_exclusive {c : Creation N} (hc : c.ExclusiveOpen n) (inode : I) :
    ∃ writable, (c.found inode : DirPc N I) = .openInode c writable inode := by
  cases hopens : c.opens with
  | none => exact absurd hopens hc.2.2.1
  | some writable => exact ⟨writable, by simp only [Creation.found, hopens]⟩

/-- The process is not in the race. -/
structure DirPc.Idle (inodes : Inodes I) (short : Prop) (n : N) (pc : DirPc N I) : Prop where
  fine : pc.Fine inodes short n
  notWins : ¬pc.Wins n
  notCreates : ¬pc.CreatesOtherwise n
  notDone : ∀ c r, pc = .done (.create c) r → ¬c.ExclusiveOpen n

/-- Another kind of creation has found its inode. -/
theorem found_idle {c : Creation N} {short : Prop} (hc : ¬c.ExclusiveOpen n) (inode : I) :
    (c.found inode : DirPc N I).Idle inodes short n := by
  unfold Creation.found
  cases c.opens with
  | none =>
      refine ⟨trivial, hc, id, ?_⟩
      rintro c' r ⟨⟩
      exact hc
  | some writable =>
      refine ⟨fun h => absurd h hc, hc, id, ?_⟩
      rintro c' r ⟨⟩

/-- After the look-up of a path, nobody has won or lost, and an exclusive open has failed only if the name is
    there. -/
theorem afterResolve_cases {short : Prop} (entries : List (Dentry N I)) (g : I → I) (call : DirCall N I)
    {pc : DirPc N I} (hpc : afterResolve inodes.type call ((dentryFind entries call.name).map g) = pc) :
    pc.Fine inodes short n ∧ ¬pc.Wins n ∧ (pc.CreatesOtherwise n → call.CreatesOtherwise n) ∧
      ∀ c r, pc = .done (.create c) r → c.ExclusiveOpen n → n ∈ namesOf entries := by
  subst hpc
  cases hfind : dentryFind entries call.name with
  | ok inode =>
      have hmem := mem_names_of_find hfind
      cases call with
      | create c =>
          simp only [Except.map, afterResolve]
          split_ifs with hexclusive
          · refine ⟨fun _ => Or.inl rfl, id, False.elim, ?_⟩
            rintro c' r ⟨⟩ hc
            rw [← hc.1]
            exact hmem
          · have hc : ¬c.ExclusiveOpen n := fun hc => hexclusive hc.2.1
            have hidle := @found_idle _ _ _ inodes n c short hc (g inode)
            exact ⟨hidle.fine, hidle.notWins, fun h => absurd h hidle.notCreates,
              fun c' r h hc' => absurd hc' (hidle.notDone c' r h)⟩
      | link target name =>
          refine ⟨trivial, id, False.elim, ?_⟩
          rintro c r ⟨⟩
      | unlink name =>
          simp only [Except.map, afterResolve]
          split_ifs
          · refine ⟨trivial, id, False.elim, ?_⟩
            rintro c r ⟨⟩
          · refine ⟨trivial, id, False.elim, ?_⟩
            rintro c r ⟨⟩
  | error e =>
      obtain ⟨rfl, _⟩ := dentryFind_error_iff.1 hfind
      cases call with
      | create c =>
          refine ⟨trivial, id, id, ?_⟩
          rintro c' r ⟨⟩
      | link target name =>
          refine ⟨trivial, id, id, ?_⟩
          rintro c r ⟨⟩
      | unlink name =>
          refine ⟨trivial, id, False.elim, ?_⟩
          rintro c r ⟨⟩

theorem tmpfsCreateChild_error {entries : List (Dentry N I)} {name : N} {child : I} {inodeAllocated allocated : Bool}
    {e : Errno} (h : tmpfsCreateChild entries name child inodeAllocated allocated = .error e) :
    (e = .EEXIST ∧ name ∈ namesOf entries) ∨ (e = .ENOMEM ∧ (inodeAllocated && allocated) = false) := by
  cases inodeAllocated with
  | false => exact Or.inr ⟨(Except.error.inj h).symm, rfl⟩
  | true => exact dentryAppend_error h

theorem tmpfsCreateChild_ok {entries entries' : List (Dentry N I)} {name : N} {child : I}
    {inodeAllocated allocated : Bool}
    (h : tmpfsCreateChild entries name child inodeAllocated allocated = .ok entries') :
    entries' = entries ++ [{ name := name, inode := child }] ∧ name ∉ namesOf entries := by
  cases inodeAllocated with
  | false => cases h
  | true => exact dentryAppend_ok h

/-- An inode of an exclusive open is opened unless memory is short. -/
theorem vfsOpenResult_fine {writable allocated : Bool} {fopsOpen : Option (Except Errno Unit)} {device : Option I}
    {inode : I} (hdir : inodes.type inode ≠ .S_IFDIR) (hdevice : (inodes.type inode).isDevice = false)
    (hopen : fopsOpen = none) :
    vfsOpenResult inodes.type writable allocated fopsOpen device inode =
      if allocated then .ok (some inode) else .error .ENOMEM := by
  simp only [vfsOpenResult, hdevice, Bool.false_eq_true, if_false, inodeOpenResult, hopen]
  rw [if_neg fun h => hdir h.1]
  cases allocated <;> rfl

/-! ### Steps -/

/-- Every step keeps the race. -/
theorem raceInvariant_step {short alone : Prop} {results : List (Except Errno (Option I))}
    (h : RaceInvariant inodes short alone n s results) (step : DirStep inodes s e s')
    (hunlink : ∀ p, e ≠ .unlinkChild p n) (hshort : e.ShortOfMemory → short) (halone : alone → ¬short)
    (hcall : alone → ∀ p call, e = .call p call → ¬call.CreatesOtherwise n) :
    RaceInvariant inodes short alone n s' (results ++ e.outcome n) := by
  have hnames := fun hmem : n ∈ namesOf s.entries => mem_names_step hmem step hunlink
  have hsilent : e.outcome n = [] → RaceInvariant inodes short alone n s' results →
      RaceInvariant inodes short alone n s' (results ++ e.outcome n) := by
    intro hnone hnext
    rw [hnone, List.append_nil]
    exact hnext
  -- a process outside of the race goes on outside of it
  have hidle : ∀ {p : P} {pc : DirPc N I}, s'.pc = Function.update s.pc p pc →
      (alone → n ∈ namesOf s'.entries → n ∈ namesOf s.entries) → pc.Idle inodes short n → ¬(s.pc p).Wins n →
      RaceInvariant inodes short alone n s' results := by
    intro p pc hpc hback idle hnot
    exact h.quiet hpc hnames hback idle.fine (iff_of_false idle.notWins hnot) (fun _ => idle.notCreates)
      fun c r hdone hc _ => absurd hc (idle.notDone c r hdone)
  cases step with
  | call p call hpc =>
      refine hsilent rfl (h.quiet rfl hnames (fun _ hmem => hmem) trivial ?_ ?_ ?_)
      · rw [hpc]
        exact Iff.rfl
      · exact fun ha => hcall ha p call rfl
      · rintro c r ⟨⟩
  | resolve p call guest hpc _ =>
      obtain ⟨hfine, hnot, hcreates, hfinished⟩ := @afterResolve_cases _ _ _ inodes n short s.entries
        (fun child => guest.getD child) call _ rfl
      refine hsilent rfl (h.quiet rfl hnames (fun _ hmem => hmem) hfine ?_ ?_
        fun c r hdone hc _ => hfinished c r hdone hc)
      · rw [hpc]
        exact iff_of_false hnot id
      · intro ha hother
        have hcreators := h.creators ha p
        rw [hpc] at hcreators
        exact hcreators (hcreates hother)
  | resolveFails p call hpc =>
      refine hsilent rfl (h.quiet rfl hnames (fun _ hmem => hmem) ?_ ?_ (fun _ => id) ?_)
      · cases call with
        | create c => exact fun _ => Or.inr ⟨hshort rfl, rfl⟩
        | link target name => trivial
        | unlink name => trivial
      · rw [hpc]
        cases call <;> exact Iff.rfl
      · exact fun _ _ _ _ ha => absurd (hshort rfl) (halone ha)
  | createChild p c child inodeAllocated allocated hpc _ htype hopen =>
      have hnot : ¬(s.pc p).Wins n := by rw [hpc]; exact id
      cases hcreate : tmpfsCreateChild s.entries c.name child inodeAllocated allocated with
      | ok entries' =>
          obtain ⟨rfl, hnew⟩ := tmpfsCreateChild_ok hcreate
          rw [hcreate] at hnames hsilent hidle
          refine hsilent rfl ?_
          by_cases hc : c.ExclusiveOpen n
          · obtain ⟨writable, hfound⟩ := @found_of_exclusive N I _ n c hc child
            simp only [afterCreateChild, hfound]
            refine h.create rfl (hc.1 ▸ hnew) ?_ ?_ hc id
            · simp only [DirState.setPc, entriesAfter, namesOf, List.map_append, ← hc.1]
              simp
            · exact fun _ => by rw [htype]; exact ⟨hc.2.2.2.1, hc.2.2.2.2, hopen⟩
          · refine hidle rfl ?_ (found_idle hc child) hnot
            intro ha hmem
            have hcreators := h.creators ha p
            rw [hpc] at hcreators
            simp only [DirState.setPc, entriesAfter, namesOf, List.map_append, List.mem_append,
              List.map_singleton, List.mem_singleton] at hmem
            rcases hmem with hmem | heq
            · exact hmem
            · exact absurd ⟨heq.symm, hc⟩ hcreators
      | error err =>
          have herror := tmpfsCreateChild_error hcreate
          rw [hcreate] at hnames hsilent
          simp only [afterCreateChild] at hnames hsilent ⊢
          refine hsilent rfl ?_
          split_ifs with hdone
          · refine h.quiet rfl hnames (fun _ hmem => hmem) ?_ (iff_of_false id hnot) (fun _ => id) ?_
            · intro _
              rcases herror with ⟨rfl, _⟩ | ⟨rfl, hfalse⟩
              · exact Or.inl rfl
              · exact Or.inr ⟨hshort hfalse, rfl⟩
            · rintro c' r ⟨⟩ hc' ha
              rcases herror with ⟨_, hmem⟩ | ⟨_, hfalse⟩
              · rw [← hc'.1]
                exact hmem
              · exact absurd (hshort hfalse) (halone ha)
          · refine h.quiet rfl hnames (fun _ hmem => hmem) ?_ (iff_of_false id hnot) ?_ ?_
            · exact fun hc => hdone (Or.inr hc.2.1)
            · intro ha
              have hcreators := h.creators ha p
              rw [hpc] at hcreators
              exact hcreators
            · rintro c' r ⟨⟩
  | lookupChild p c hpc =>
      have hc : ¬c.ExclusiveOpen n := by
        have hfine := h.fine p
        rw [hpc] at hfine
        exact hfine
      have hnot : ¬(s.pc p).Wins n := by rw [hpc]; exact id
      refine hsilent rfl ?_
      cases hfind : dentryFind s.entries c.name with
      | ok inode =>
          rw [hfind] at hidle
          exact hidle rfl (fun _ hmem => hmem) (found_idle hc inode) hnot
      | error err =>
          obtain ⟨rfl, _⟩ := dentryFind_error_iff.1 hfind
          refine h.quiet rfl hnames (fun _ hmem => hmem) trivial (iff_of_false id hnot) ?_ ?_
          · intro ha
            have hcreators := h.creators ha p
            rw [hpc] at hcreators
            exact hcreators
          · rintro c' r ⟨⟩
  | openInode p c writable inode device fopsOpen allocated hpc _ hopen =>
      refine hsilent rfl ?_
      by_cases hc : c.ExclusiveOpen n
      · have hfine := h.fine p
        rw [hpc] at hfine
        obtain ⟨hdir, hdevice, hhas⟩ := hfine hc
        rw [vfsOpenResult_fine hdir hdevice (hopen hdevice hhas)] at hnames ⊢
        have hwins : (s.pc p).Wins n := by rw [hpc]; exact hc
        cases allocated with
        | true =>
            refine h.quiet rfl hnames (fun _ hmem => hmem) trivial (iff_of_true hc hwins) (fun _ => id) ?_
            intro c' r _ _ _
            rcases h.winner with ⟨_, hnone, _⟩ | ⟨hmem, _⟩ | ⟨hmem, _⟩
            · exact absurd hwins (hnone p)
            · exact hmem
            · exact hmem
        | false =>
            refine h.loses rfl (fun ha => halone ha (hshort rfl)) hwins ?_ id
            exact fun _ => Or.inr ⟨hshort rfl, rfl⟩
      · have hnot : ¬(s.pc p).Wins n := by rw [hpc]; exact hc
        refine hidle rfl (fun _ hmem => hmem) ?_ hnot
        cases vfsOpenResult inodes.type writable allocated fopsOpen device inode with
        | error err =>
            refine ⟨fun h => absurd h hc, id, id, ?_⟩
            rintro c' r ⟨⟩
            exact hc
        | ok desc =>
            refine ⟨trivial, hc, id, ?_⟩
            rintro c' r ⟨⟩
            exact hc
  | linkOther p target name hpc _ =>
      have hnot : ¬(s.pc p).Wins n := by rw [hpc]; exact id
      refine hsilent rfl (hidle rfl (fun _ hmem => hmem) ⟨trivial, id, id, ?_⟩ hnot)
      rintro c r ⟨⟩
  | linkChild p target name allocated hpc _ =>
      have hnot : ¬(s.pc p).Wins n := by rw [hpc]; exact id
      refine hsilent rfl (hidle rfl ?_ ⟨trivial, id, id, ?_⟩ hnot)
      · intro ha hmem
        have hcreators := h.creators ha p
        rw [hpc] at hcreators
        simp only [DirState.setPc] at hmem
        cases happend : dentryAppend s.entries name target allocated with
        | error err =>
            rw [happend] at hmem
            exact hmem
        | ok entries' =>
            obtain ⟨rfl, _⟩ := dentryAppend_ok happend
            simp only [happend, entriesAfter, namesOf, List.map_append, List.mem_append, List.map_singleton,
              List.mem_singleton] at hmem
            rcases hmem with hmem | heq
            · exact hmem
            · exact absurd heq.symm hcreators
      · rintro c r ⟨⟩
  | unlinkChild p name hpc =>
      have hnot : ¬(s.pc p).Wins n := by rw [hpc]; exact id
      refine hsilent rfl (hidle rfl ?_ ⟨trivial, id, id, ?_⟩ hnot)
      · intro _ hmem
        simp only [DirState.setPc] at hmem
        cases hremove : dentryRemove s.entries name with
        | error err =>
            rw [hremove] at hmem
            exact hmem
        | ok r =>
            obtain ⟨hsub, _⟩ := dentryRemove_ok hremove
            rw [hremove] at hmem
            exact (hsub.map Dentry.name).subset hmem
      · rintro c r ⟨⟩
  | returns p call result hpc =>
      have hother : ¬(s.pc p).Wins n → RaceInvariant inodes short alone n (s.setPc p .outside) results := by
        intro hnot
        refine hidle rfl (fun _ hmem => hmem) ⟨trivial, id, id, ?_⟩ hnot
        rintro c r ⟨⟩
      cases call with
      | create c =>
          by_cases hc : c.ExclusiveOpen n
          · simp only [DirEvent.outcome, if_pos hc]
            exact h.returns hpc hc
          · simp only [DirEvent.outcome, if_neg hc, List.append_nil]
            apply hother
            rw [hpc]
            cases result with
            | error err => exact id
            | ok desc => exact hc
      | link target name => exact hsilent rfl (hother (by rw [hpc]; exact id))
      | unlink name => exact hsilent rfl (hother (by rw [hpc]; exact id))

/-! ### What an open opens -/

/-- The name stands for the inode. -/
def Denotes (s : DirState P N I) (name : N) (inode : I) : Prop := dentryFind s.entries name = .ok inode

/-- The process is in the creation and has got the inode. -/
def DirPc.Holds (c : Creation N) (inode : I) (pc : DirPc N I) : Prop :=
  (∃ writable, pc = .openInode c writable inode) ∨ pc = .done (.create c) (.ok (some inode))

theorem holds_found {c c' : Creation N} {inode inode' : I} (h : (c'.found inode' : DirPc N I).Holds c inode) :
    c' = c ∧ inode' = inode := by
  unfold Creation.found at h
  cases hopens : c'.opens with
  | none =>
      rw [hopens] at h
      rcases h with ⟨_, h⟩ | h
      · cases h
      · cases h
  | some writable =>
      rw [hopens] at h
      rcases h with ⟨_, h⟩ | h
      · cases h
        exact ⟨rfl, rfl⟩
      · cases h

theorem not_holds {c : Creation N} {inode : I} {pc : DirPc N I} (hopen : ∀ writable, pc ≠ .openInode c writable inode)
    (hdone : pc ≠ .done (.create c) (.ok (some inode))) : ¬pc.Holds c inode := by
  rintro (⟨writable, hpc⟩ | hpc)
  · exact hopen writable hpc
  · exact hdone hpc

theorem holds_afterResolve {c : Creation N} {inode : I} {call : DirCall N I} {r : Except Errno I}
    (h : (afterResolve inodes.type call r).Holds c inode) : call = .create c ∧ r = .ok inode := by
  cases call with
  | create c' =>
      cases r with
      | error e =>
          simp only [afterResolve] at h
          split_ifs at h
          · exact absurd h (not_holds nofun nofun)
          · exact absurd h (not_holds nofun nofun)
      | ok inode' =>
          simp only [afterResolve] at h
          split_ifs at h
          · exact absurd h (not_holds nofun nofun)
          · obtain ⟨rfl, rfl⟩ := holds_found h
            exact ⟨rfl, rfl⟩
  | link target name =>
      cases r with
      | error e =>
          simp only [afterResolve] at h
          split_ifs at h
          · exact absurd h (not_holds nofun nofun)
          · exact absurd h (not_holds nofun nofun)
      | ok inode' => exact absurd h (not_holds nofun nofun)
  | unlink name =>
      cases r with
      | error e => exact absurd h (not_holds nofun nofun)
      | ok inode' =>
          simp only [afterResolve] at h
          split_ifs at h
          · exact absurd h (not_holds nofun nofun)
          · exact absurd h (not_holds nofun nofun)

/-- What is opened is the inode or the device behind it. -/
theorem vfsOpenResult_ok {writable allocated : Bool} {fopsOpen : Option (Except Errno Unit)} {device : Option I}
    {inode opened : I} (h : vfsOpenResult inodes.type writable allocated fopsOpen device inode = .ok (some opened)) :
    opened = inode ∨ device = some opened := by
  have hopened : ∀ i, inodeOpenResult inodes.type writable allocated fopsOpen i = .ok (some opened) → opened = i := by
    intro i hi
    unfold inodeOpenResult at hi
    split_ifs at hi
    split at hi
    · cases hi
    · cases hi
      rfl
  unfold vfsOpenResult at h
  split_ifs at h
  · cases device with
    | none => cases h
    | some d => exact Or.inr (congrArg some (hopened d h).symm)
  · exact Or.inl (hopened inode h)

/-- A process gets a regular file at a moment when the name denotes it. -/
theorem holds_step {p : P} {c : Creation N} {inode : I} (htype : inodes.type inode = .S_IFREG)
    (step : DirStep inodes s e s') (h : (s'.pc p).Holds c inode) :
    (s.pc p).Holds c inode ∨ Denotes s c.name inode ∨ Denotes s' c.name inode := by
  -- what another process does leaves the process where it is
  have hother : ∀ {q : P} {pc : DirPc N I}, s'.pc = Function.update s.pc q pc → q ≠ p → (s.pc p).Holds c inode := by
    intro q pc hpc hq
    rw [hpc, Function.update_of_ne hq.symm] at h
    exact h
  have hself : ∀ {q : P} {pc : DirPc N I}, s'.pc = Function.update s.pc q pc → q = p → pc.Holds c inode := by
    intro q pc hpc hq
    rw [hpc, hq, Function.update_self] at h
    exact h
  cases step with
  | call q call _ =>
      by_cases hq : q = p
      · exact absurd (hself rfl hq) (not_holds nofun nofun)
      · exact Or.inl (hother rfl hq)
  | resolve q call guest _ hguest =>
      by_cases hq : q = p
      · obtain ⟨rfl, hresult⟩ := holds_afterResolve (hself rfl hq)
        cases hfind : dentryFind s.entries c.name with
        | error err =>
            rw [DirCall.name, hfind] at hresult
            cases hresult
        | ok child =>
            rw [DirCall.name, hfind] at hresult
            have hchild : guest.getD child = inode := Except.ok.inj hresult
            cases guest with
            | none => exact Or.inr (Or.inl (hfind.trans (congrArg Except.ok hchild)))
            | some g =>
                have hdir := hguest g rfl
                rw [show g = inode from hchild, htype] at hdir
                cases hdir
      · exact Or.inl (hother rfl hq)
  | resolveFails q call _ =>
      by_cases hq : q = p
      · exact absurd (hself rfl hq) (not_holds nofun nofun)
      · exact Or.inl (hother rfl hq)
  | createChild q c' child inodeAllocated allocated _ _ _ _ =>
      by_cases hq : q = p
      · have hholds := hself rfl hq
        cases hcreate : tmpfsCreateChild s.entries c'.name child inodeAllocated allocated with
        | error err =>
            simp only [hcreate, afterCreateChild] at hholds
            split_ifs at hholds
            · exact absurd hholds (not_holds nofun nofun)
            · exact absurd hholds (not_holds nofun nofun)
        | ok entries' =>
            obtain ⟨rfl, hnew⟩ := tmpfsCreateChild_ok hcreate
            rw [hcreate] at hholds
            obtain ⟨rfl, rfl⟩ := holds_found hholds
            refine Or.inr (Or.inr ?_)
            rw [Denotes]
            exact dentryFind_append hnew
      · exact Or.inl (hother rfl hq)
  | lookupChild q c' _ =>
      by_cases hq : q = p
      · have hholds := hself rfl hq
        cases hfind : dentryFind s.entries c'.name with
        | error err =>
            simp only [hfind, afterLookupChild] at hholds
            split_ifs at hholds
            · exact absurd hholds (not_holds nofun nofun)
            · exact absurd hholds (not_holds nofun nofun)
        | ok inode' =>
            rw [hfind] at hholds
            obtain ⟨rfl, rfl⟩ := holds_found hholds
            exact Or.inr (Or.inl hfind)
      · exact Or.inl (hother rfl hq)
  | openInode q c' writable inode' device fopsOpen allocated hpc hdevice _ =>
      by_cases hq : q = p
      · rcases hself rfl hq with ⟨_, hpc'⟩ | hpc'
        · cases hpc'
        · obtain ⟨hcall, hresult⟩ := DirPc.done.inj hpc'
          obtain rfl := DirCall.create.inj hcall
          rcases vfsOpenResult_ok hresult with rfl | hdev
          · exact Or.inl (Or.inl ⟨writable, hq ▸ hpc⟩)
          · have hdev' := hdevice inode hdev
            rw [htype] at hdev'
            cases hdev'
      · exact Or.inl (hother rfl hq)
  | linkOther q target name _ _ =>
      by_cases hq : q = p
      · exact absurd (hself rfl hq) (not_holds nofun nofun)
      · exact Or.inl (hother rfl hq)
  | linkChild q target name allocated _ _ =>
      by_cases hq : q = p
      · exact absurd (hself rfl hq) (not_holds nofun nofun)
      · exact Or.inl (hother rfl hq)
  | unlinkChild q name _ =>
      by_cases hq : q = p
      · exact absurd (hself rfl hq) (not_holds nofun nofun)
      · exact Or.inl (hother rfl hq)
  | returns q call result _ =>
      by_cases hq : q = p
      · exact absurd (hself rfl hq) (not_holds nofun nofun)
      · exact Or.inl (hother rfl hq)

theorem holds_run {xs : List (Transition (DirState P N I) (DirEvent P N I))} {p : P} {c : Creation N} {inode : I}
    (htype : inodes.type inode = .S_IFREG) (run : (directorySystem P N I inodes).Run s xs t)
    (h : (t.pc p).Holds c inode) :
    (s.pc p).Holds c inode ∨ ∃ x ∈ xs, Denotes x.before c.name inode ∨ Denotes x.after c.name inode := by
  induction run with
  | nil s => exact Or.inl h
  | cons hstep _ ih =>
      rcases ih h with hholds | ⟨x, hx, hdenotes⟩
      · rcases holds_step htype hstep hholds with hfirst | hdenotes
        · exact Or.inl hfirst
        · exact Or.inr ⟨_, List.mem_cons_self, hdenotes⟩
      · exact Or.inr ⟨x, List.mem_cons_of_mem _ hx, hdenotes⟩

/-! ### Runs -/

section Runs

variable {xs : List (Transition (DirState P N I) (DirEvent P N I))}

/-- What the exclusive opens of a name that return in a run return. -/
def outcomes (n : N) (xs : List (Transition (DirState P N I) (DirEvent P N I))) :
    List (Except Errno (Option I)) :=
  xs.flatMap fun x => x.event.outcome n

/-- The name is not unlinked. -/
def NotUnlinked (n : N) (xs : List (Transition (DirState P N I) (DirEvent P N I))) : Prop :=
  ∀ x ∈ xs, ∀ p, x.event ≠ .unlinkChild p n

/-- At most one open succeeds, and the others find the name there or memory short. -/
structure AtMostOne (results : List (Except Errno (Option I))) : Prop where
  one : results.countP Except.toBool ≤ 1
  others : ∀ e, .error e ∈ results → e = .EEXIST ∨ e = .ENOMEM

/-- Exactly one open succeeds, and the others find the name there. -/
structure ExactlyOne (results : List (Except Errno (Option I))) : Prop where
  one : results.countP Except.toBool = 1
  others : ∀ e, .error e ∈ results → e = .EEXIST

/-- The exclusive opens of a name in a run are alone: the name is not there at first, nobody else creates it, memory
    is not short, and there are opens, all of which return. -/
structure AloneInRace (n : N) (s : DirState P N I) (xs : List (Transition (DirState P N I) (DirEvent P N I)))
    (t : DirState P N I) : Prop where
  absent : n ∉ namesOf s.entries
  creators : ∀ p, ¬(s.pc p).CreatesOtherwise n
  calls : ∀ x ∈ xs, ∀ p call, x.event = .call p call → ¬call.CreatesOtherwise n
  memory : ∀ x ∈ xs, ¬x.event.ShortOfMemory
  some : outcomes n xs ≠ []
  returned : ∀ p, ¬(t.pc p).OpensExclusively n

theorem opensExclusively_of_wins {pc : DirPc N I} (h : pc.Wins n) : pc.OpensExclusively n := by
  cases pc with
  | openInode c writable inode => exact h
  | done call result =>
      cases call with
      | create c =>
          cases result with
          | error e => exact absurd h id
          | ok desc => exact h
      | link target name => exact absurd h id
      | unlink name => exact absurd h id
  | _ => exact absurd h id

/-- Before the race. -/
theorem raceInvariant_initial {short alone : Prop} (hfree : ∀ p, ¬(s.pc p).OpensExclusively n)
    (habsent : alone → n ∉ namesOf s.entries) (hcreators : alone → ∀ p, ¬(s.pc p).CreatesOtherwise n) :
    RaceInvariant inodes short alone n s [] := by
  constructor
  case fine =>
    intro p
    have hp := hfree p
    cases hpc : s.pc p with
    | lookupChild c =>
        rw [hpc] at hp
        exact hp
    | openInode c writable inode =>
        rw [hpc] at hp
        exact fun hc => absurd hc hp
    | done call result =>
        rw [hpc] at hp
        cases call with
        | create c =>
            cases result with
            | error e => exact fun hc => absurd hc hp
            | ok desc => trivial
        | link target name => trivial
        | unlink name => trivial
    | _ => trivial
  case errors => exact fun e he => absurd he List.not_mem_nil
  case winner => exact Or.inl ⟨rfl, fun p hp => hfree p (opensExclusively_of_wins hp), habsent⟩
  case creators => exact hcreators
  case returned => exact fun _ hne => absurd rfl hne
  case finished =>
    intro _ p c r hpc hc
    have hp := hfree p
    rw [hpc] at hp
    exact absurd hc hp

theorem raceInvariant_run {short alone : Prop} (run : (directorySystem P N I inodes).Run s xs t)
    (h : RaceInvariant inodes short alone n s []) (hunlink : NotUnlinked n xs) (halone : alone → ¬short)
    (hshort : ∀ x ∈ xs, x.event.ShortOfMemory → short)
    (hcalls : alone → ∀ x ∈ xs, ∀ p call, x.event = .call p call → ¬call.CreatesOtherwise n) :
    RaceInvariant inodes short alone n t (outcomes n xs) :=
  run.guarded_collect (RaceInvariant inodes short alone n) (DirEvent.outcome n)
    (fun _ e _ _ h (guard : (∀ p, e ≠ .unlinkChild p n) ∧ (e.ShortOfMemory → short) ∧
      (alone → ∀ p call, e = .call p call → ¬call.CreatesOtherwise n)) step =>
      raceInvariant_step h step guard.1 guard.2.1 halone guard.2.2) h
    fun x hx => ⟨hunlink x hx, hshort x hx, fun ha => hcalls ha x hx⟩

/-- Concurrent creation over runs: names are unique; the exclusive opens of a name that is not unlinked meanwhile
    have at most one winner, and exactly one when they are alone; and a creation that opens a regular file opens
    what the name denoted at some moment of the call. -/
theorem concurrent_creation {s0 : DirState P N I} {ys : List (Transition (DirState P N I) (DirEvent P N I))}
    (hinit : (directorySystem P N I inodes).init s0) (reach : (directorySystem P N I inodes).Run s0 ys s) :
    NamesUnique s ∧
      (∀ n xs t, (directorySystem P N I inodes).Run s xs t → (∀ p, ¬(s.pc p).OpensExclusively n) →
        NotUnlinked n xs →
        AtMostOne (outcomes n xs) ∧ (AloneInRace n s xs t → ExactlyOne (outcomes n xs))) ∧
      ∀ p c inode xs t, (directorySystem P N I inodes).Run s xs t → s.pc p = .resolve (.create c) →
        (∀ x ∈ xs, ∀ call result, x.event ≠ .returns p call result) →
        t.pc p = .done (.create c) (.ok (some inode)) → inodes.type inode = .S_IFREG →
        ∃ x ∈ xs, Denotes x.before c.name inode ∨ Denotes x.after c.name inode := by
  refine ⟨?_, ?_, ?_⟩
  · refine reach.invariant NamesUnique (fun _ _ _ h step => namesUnique_step h step) ?_
    rw [NamesUnique, hinit.1]
    exact List.nodup_nil
  · intro n xs t run hfree hunlink
    constructor
    · have hrace := raceInvariant_run run (raceInvariant_initial hfree False.elim False.elim) hunlink
        (fun h : False => absurd h id) (fun _ _ _ => trivial) False.elim
      constructor
      case one =>
        rcases hrace.winner with ⟨hcount, _⟩ | ⟨_, hcount, _⟩ | ⟨_, hcount, _⟩
        · omega
        · omega
        · omega
      case others =>
        intro e he
        exact (hrace.errors e he).imp_right And.right
    · intro halone
      have hrace := raceInvariant_run run
        (raceInvariant_initial hfree (fun _ : True => halone.absent) fun _ => halone.creators) hunlink
        (fun _ => not_false) halone.memory fun _ => halone.calls
      have hmem := hrace.returned trivial halone.some
      constructor
      case one =>
        rcases hrace.winner with ⟨_, _, habsent⟩ | ⟨_, _, p, hone⟩ | ⟨_, hcount, _⟩
        · exact absurd hmem (habsent trivial)
        · exact absurd (opensExclusively_of_wins ((hone p).2 rfl)) (halone.returned p)
        · exact hcount
      case others =>
        intro e he
        exact (hrace.errors e he).resolve_right fun h => h.1
  · intro p c inode xs t run hpc _ hdone htype
    rcases holds_run htype run (Or.inr hdone) with hholds | hmoment
    · rw [hpc] at hholds
      exact absurd hholds (not_holds nofun nofun)
    · exact hmoment

end Runs

end Directory

/-! ### Two opens of one name -/

/-- The inodes of the examples: one directory, and regular files. -/
def twoTypes : Inodes Nat where
  type i := if i = 0 then .S_IFDIR else .S_IFREG
  hasOpen _ := false
  sameRoot _ := true

/-- A new directory. -/
def newDirectory : DirState (Fin 3) Nat Nat where
  entries := []
  inodes _ := False
  pc _ := .outside

/-- `open(..., O_CREAT | O_EXCL)`. -/
def exclusiveCreation : Creation Nat := { name := 7, type := .S_IFREG, exclusive := true, opens := some false }

theorem exclusiveCreation_exclusive : exclusiveCreation.ExclusiveOpen 7 := by decide

/-- Of two exclusive opens that have both found the name absent, one succeeds. -/
theorem concurrent_creation_two_opens : ∃ xs t, (directorySystem (Fin 3) Nat Nat twoTypes).Run newDirectory xs t ∧
    ExactlyOne (outcomes 7 xs) := by
  have hfresh : ¬(False ∨ (2 : Nat) = 1) := by decide
  have run : (directorySystem (Fin 3) Nat Nat twoTypes).Run newDirectory _ _ :=
    .cons (.call 0 (.create exclusiveCreation) rfl) (.cons (.call 1 (.create exclusiveCreation) rfl)
      (.cons (.resolve 0 (.create exclusiveCreation) none rfl nofun)
        (.cons (.resolve 1 (.create exclusiveCreation) none rfl nofun)
          (.cons (.createChild 0 exclusiveCreation 1 true true rfl nofun rfl rfl)
            (.cons (.createChild 1 exclusiveCreation 2 true true rfl hfresh rfl rfl)
              (.cons (.openInode 0 exclusiveCreation false 1 none none true rfl nofun (fun _ _ => rfl))
                (.cons (.returns 1 (.create exclusiveCreation) (.error .EEXIST) rfl)
                  (.cons (.returns 0 (.create exclusiveCreation) (.ok (some 1)) rfl) (.nil _)))))))))
  have hinit : (directorySystem (Fin 3) Nat Nat twoTypes).init newDirectory := ⟨rfl, fun _ => rfl⟩
  have hrace := (concurrent_creation hinit (.nil newDirectory)).2.1 7 _ _ run
    (fun _ => id)
  refine ⟨_, _, run, (hrace ?_).2 ?_⟩
  · intro x hx p
    simp only [List.mem_cons, List.not_mem_nil, or_false] at hx
    rcases hx with rfl | rfl | rfl | rfl | rfl | rfl | rfl | rfl | rfl <;> simp
  · constructor
    case absent => exact List.not_mem_nil
    case creators => exact fun _ => id
    case calls =>
      intro x hx p call hcall hother
      simp only [List.mem_cons, List.not_mem_nil, or_false] at hx
      rcases hx with rfl | rfl | rfl | rfl | rfl | rfl | rfl | rfl | rfl <;> cases hcall
      · exact hother.2 exclusiveCreation_exclusive
      · exact hother.2 exclusiveCreation_exclusive
    case memory =>
      intro x hx
      simp only [List.mem_cons, List.not_mem_nil, or_false] at hx
      rcases hx with rfl | rfl | rfl | rfl | rfl | rfl | rfl | rfl | rfl <;> simp [DirEvent.ShortOfMemory]
    case some => simp [outcomes, DirEvent.outcome, exclusiveCreation_exclusive]
    case returned =>
      intro p
      fin_cases p
      · exact id
      · exact id
      · exact id

/-- When a `mkdir` comes first, none of two exclusive opens succeeds. -/
theorem mkdir_wins_race : ∃ xs t, (directorySystem (Fin 3) Nat Nat twoTypes).Run newDirectory xs t ∧
    NotUnlinked 7 xs ∧ (∀ p, ¬(t.pc p).OpensExclusively 7) ∧
    outcomes 7 xs = [.error .EEXIST, .error .EEXIST] ∧ ¬ExactlyOne (outcomes 7 xs) := by
  have hfresh : ¬(False ∨ (1 : Nat) = 0) := by decide
  have hfresh' : ¬((False ∨ (2 : Nat) = 0) ∨ (2 : Nat) = 1) := by decide
  have run : (directorySystem (Fin 3) Nat Nat twoTypes).Run newDirectory _ _ :=
    .cons (.call 0 (.create exclusiveCreation) rfl) (.cons (.call 1 (.create exclusiveCreation) rfl)
      (.cons (.call 2 (sysMkdirCall 7) rfl)
        (.cons (.resolve 0 (.create exclusiveCreation) none rfl nofun)
          (.cons (.resolve 1 (.create exclusiveCreation) none rfl nofun)
            (.cons (.resolve 2 (sysMkdirCall 7) none rfl nofun)
              (.cons (.createChild 2 { name := 7, type := .S_IFDIR, exclusive := true, opens := none } 0 true true rfl
                  nofun rfl rfl)
                (.cons (.createChild 0 exclusiveCreation 1 true true rfl hfresh rfl rfl)
                  (.cons (.createChild 1 exclusiveCreation 2 true true rfl hfresh' rfl rfl)
                    (.cons (.returns 0 (.create exclusiveCreation) (.error .EEXIST) rfl)
                      (.cons (.returns 1 (.create exclusiveCreation) (.error .EEXIST) rfl) (.nil _)))))))))))
  refine ⟨_, _, run, ?_, ?_, ?_, ?_⟩
  · intro x hx p
    simp only [List.mem_cons, List.not_mem_nil, or_false] at hx
    rcases hx with rfl | rfl | rfl | rfl | rfl | rfl | rfl | rfl | rfl | rfl | rfl <;> simp
  · intro p
    fin_cases p
    · exact id
    · exact id
    · rintro ⟨_, _, hopens, _⟩
      exact hopens rfl
  · simp [outcomes, DirEvent.outcome, exclusiveCreation_exclusive]
  · intro h
    have hone := h.one
    simp [outcomes, DirEvent.outcome, exclusiveCreation_exclusive, Except.toBool] at hone

end Chaotix
