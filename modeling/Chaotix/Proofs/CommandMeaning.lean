/-
Module: Chaotix.Proofs.CommandMeaning
Layer: Proofs
Purpose: What the shell does for a command is what the command means. For each function that runs a kind of command there
  is one lemma, from what is known of the commands inside it: its programs begin with the descriptors that the meaning
  says, and unless it reports an error the table of the shell is as it was. The write end of a pipe is not in the table
  of any process on its right.
Imports: Mathlib.Tactic, Chaotix.Userland.ShMeaning
Trusted boundary: none
Main exports: Meaning.new_or_old, Outcome, always_runCommand, always_runLines
-/
import Mathlib.Tactic
import Chaotix.Userland.ShMeaning

namespace Chaotix

namespace Sh

variable {H : Type} {Ends : H → H → Prop} {s s' s'' : ShProcess H}

/-! ### Tables -/

@[simp] theorem pid_put (s : ShProcess H) (fd : ℕ) (entry : Option H) : (s.put fd entry).pid = s.pid := rfl

@[simp] theorem pgid_put (s : ShProcess H) (fd : ℕ) (entry : Option H) : (s.put fd entry).pgid = s.pgid := rfl

@[simp] theorem seen_put (s : ShProcess H) (fd : ℕ) (entry : Option H) : (s.put fd entry).seen = s.seen := rfl

@[simp] theorem table_put (s : ShProcess H) (fd : ℕ) (entry : Option H) :
    (s.put fd entry).table = Function.update s.table fd entry := rfl

@[simp] theorem table_see (s : ShProcess H) (h : H) : (s.see h).table = s.table := rfl

@[simp] theorem seen_see (s : ShProcess H) (h : H) : (s.see h).seen = insert h s.seen := rfl

/-- Two states of a process are the same when their tables are, and the rest. -/
theorem process_ext (hpid : s.pid = s'.pid) (hpgid : s.pgid = s'.pgid) (htable : ∀ i, s.table i = s'.table i)
    (hseen : s.seen = s'.seen) : s = s' := by
  obtain ⟨pid, pgid, table, seen⟩ := s
  obtain ⟨pid', pgid', table', seen'⟩ := s'
  simp only at hpid hpgid hseen
  subst hpid hpgid hseen
  have heq : table = table' := funext htable
  rw [heq]

theorem at_natCast (s : ShProcess H) {fd : ℕ} (hfd : fd < OPEN_MAX) : s.at (fd : ℤ) = s.table fd := by
  have hrange : ¬((fd : ℤ) < 0 ∨ (OPEN_MAX : ℤ) ≤ (fd : ℤ)) := by omega
  rw [ShProcess.at, if_neg hrange, Int.toNat_natCast]

/-- What is in a table after a slot has been written is what was written, or was there before. -/
theorem entry_update {table : ℕ → Option H} {i j : ℕ} {entry : Option H} {x : H}
    (h : Function.update table i entry j = some x) : entry = some x ∨ table j = some x := by
  by_cases hj : j = i
  · rw [hj, Function.update_self] at h
    exact .inl h
  · rw [Function.update_of_ne hj] at h
    exact .inr h

/-- A standard descriptor has been kept in a slot, and something new is in its place. -/
theorem saved_entry {table : ℕ → Option H} {saved fd i : ℕ} {h x : H}
    (hi : Function.update (Function.update table saved (table fd)) fd (some h) i = some x) :
    h = x ∨ ∃ j, table j = some x := by
  rcases entry_update hi with hnew | hold
  · exact .inl (Option.some.inj hnew)
  · rcases entry_update hold with hkept | hold
    · exact .inr ⟨fd, hkept⟩
    · exact .inr ⟨i, hold⟩

theorem freeSlots_put_free {table : ℕ → Option H} {i : ℕ} (hi : i < OPEN_MAX) (hfree : table i = none) (h : H) :
    freeSlots (Function.update table i (some h)) + 1 = freeSlots table := by
  have herase : (Finset.range OPEN_MAX).filter (fun j => (Function.update table i (some h) j).isNone) =
      ((Finset.range OPEN_MAX).filter fun j => (table j).isNone).erase i := by
    ext j
    by_cases hj : j = i
    · simp [hj]
    · simp [hj]
  have hmem : i ∈ (Finset.range OPEN_MAX).filter fun j => (table j).isNone := by simp [hi, hfree]
  rw [freeSlots, herase, Finset.card_erase_add_one hmem, freeSlots]

theorem freeSlots_put_taken {table : ℕ → Option H} {i : ℕ} (htaken : table i ≠ none) (h : H) :
    freeSlots (Function.update table i (some h)) = freeSlots table := by
  refine congrArg Finset.card (Finset.filter_congr fun j _ => ?_)
  by_cases hj : j = i
  · subst hj
    simp [htaken]
  · simp [hj]

theorem exists_free {table : ℕ → Option H} (h : 0 < freeSlots table) : ∃ i, i < OPEN_MAX ∧ table i = none := by
  obtain ⟨i, hi⟩ := Finset.card_pos.1 h
  obtain ⟨hlt, hfree⟩ := Finset.mem_filter.1 hi
  exact ⟨i, Finset.mem_range.1 hlt, Option.isNone_iff_eq_none.1 hfree⟩

theorem ShProcess.Later.refl (s : ShProcess H) : s.Later s := ⟨rfl, rfl, rfl, subset_rfl⟩

theorem ShProcess.Later.trans (h : s.Later s') (h' : s'.Later s'') : s.Later s'' :=
  ⟨h'.pid.trans h.pid, h'.pgid.trans h.pgid, h'.table.trans h.table, h.seen.trans h'.seen⟩

theorem ShProcess.Ready.mono {m n : ℕ} (h : s.Ready n) (hle : m ≤ n) : s.Ready m :=
  ⟨h.stdin, h.stdout, hle.trans h.room, h.seen⟩

theorem ShProcess.Ready.later {n : ℕ} (h : s.Ready n) (hlater : s.Later s') : s'.Ready n := by
  refine ⟨?_, ?_, ?_, fun i x hx => hlater.seen (h.seen i x ?_)⟩
  · rw [hlater.table]
    exact h.stdin
  · rw [hlater.table]
    exact h.stdout
  · rw [hlater.table]
    exact h.room
  · rwa [hlater.table] at hx

/-- The state of a child is as good as that of its parent. -/
theorem ShProcess.Ready.child {n : ℕ} (h : s.Ready n) (pid : ℕ) : { s with pid := pid }.Ready n :=
  ⟨h.stdin, h.stdout, h.room, h.seen⟩

/-- A name that has just been come across is in no slot. -/
theorem ShProcess.Ready.notMem {n : ℕ} (h : s.Ready n) {x : H} (hx : x ∉ s.seen) (i : ℕ) : s.table i ≠ some x :=
  fun hi => hx (h.seen i x hi)

theorem ShProcess.Ready.leftOf {n : ℕ} (h : s.Ready n) (reader writer : H) (pid : ℕ) :
    (Sh.leftOf s reader writer pid).Ready n := by
  have htable : (Sh.leftOf s reader writer pid).table = Function.update s.table STDOUT_FILENO (some writer) := rfl
  refine ⟨?_, ?_, ?_, fun i x hx => ?_⟩
  · rw [htable, Function.update_of_ne (by decide)]
    exact h.stdin
  · simp [htable]
  · rw [htable, freeSlots_put_taken h.stdout]
    exact h.room
  · change x ∈ insert writer (insert reader s.seen)
    rw [htable] at hx
    rcases entry_update hx with hnew | hold
    · rw [Option.some.inj hnew]
      exact Set.mem_insert _ _
    · exact Set.mem_insert_of_mem _ (Set.mem_insert_of_mem _ (h.seen i x hold))

/-- The table with a standard descriptor in a free slot and something else in its place. -/
theorem ready_saved {n fd other saved : ℕ} {h₀ x : H} (h : s.Ready (n + 1)) (hfd : s.table fd = some h₀)
    (hstd : fd = STDIN_FILENO ∧ other = STDOUT_FILENO ∨ fd = STDOUT_FILENO ∧ other = STDIN_FILENO)
    (hsaved : saved < OPEN_MAX) (hfree : s.table saved = none) {t : ShProcess H}
    (htable : t.table = Function.update (Function.update s.table saved (some h₀)) fd (some x))
    (hseen : s.seen ⊆ t.seen) (hx : x ∈ t.seen) : t.Ready n := by
  have hne : fd ≠ saved := by
    rintro rfl
    simp [hfd] at hfree
  have hother : s.table other ≠ none := by
    rcases hstd with ⟨-, rfl⟩ | ⟨-, rfl⟩
    · exact h.stdout
    · exact h.stdin
  have hother' : t.table other ≠ none := by
    have hno : other ≠ fd := by
      rcases hstd with ⟨rfl, rfl⟩ | ⟨rfl, rfl⟩ <;> decide
    have hns : other ≠ saved := by
      rintro rfl
      exact hother hfree
    rwa [htable, Function.update_of_ne hno, Function.update_of_ne hns]
  have hself : t.table fd ≠ none := by simp [htable]
  have hroom : n ≤ freeSlots t.table := by
    have hsome : Function.update s.table saved (some h₀) fd ≠ none := by simp [hne, hfd]
    have hless := freeSlots_put_free hsaved hfree h₀
    have := h.room
    rw [htable, freeSlots_put_taken hsome]
    omega
  have hnames : ∀ i y, t.table i = some y → y ∈ t.seen := by
    intro i y hy
    rw [htable] at hy
    rcases entry_update hy with hnew | hy
    · rwa [← Option.some.inj hnew]
    · rcases entry_update hy with hkept | hold
      · rw [← Option.some.inj hkept]
        exact hseen (h.seen fd h₀ hfd)
      · exact hseen (h.seen i y hold)
  rcases hstd with ⟨rfl, rfl⟩ | ⟨rfl, rfl⟩
  · exact ⟨hself, hother', hroom, hnames⟩
  · exact ⟨hother', hself, hroom, hnames⟩

/-! ### What the processes of a command hold -/

/-- What is in the table of a process of the command was in the table of the shell, or is new. -/
theorem Meaning.new_or_old {c : Command} {ctx : RunContext} {E : Multiset (ShEvent H)} (h : Meaning Ends c ctx s E)
    {e : ShEvent H} (he : e ∈ E) {x : H} (hx : e.Holds x) : (∃ i, s.table i = some x) ∨ x ∉ s.seen := by
  induction h generalizing e with
  | nothing => simp at he
  | execute _ _ hle =>
      rcases Multiset.mem_add.1 (Multiset.mem_of_le hle he) with he | he
      · rcases Multiset.mem_add.1 he with he | he
        · split at he
          · rw [Multiset.mem_singleton.1 he] at hx
            exact absurd hx id
          · simp at he
        · rw [Multiset.mem_singleton.1 he] at hx
          exact .inl hx
      · rw [Multiset.mem_singleton.1 he] at hx
        exact .inl hx
  | juxtaposition _ hlater _ ih ih' =>
      rcases Multiset.mem_add.1 he with he | he
      · exact ih he hx
      · rcases ih' he hx with hold | hnew
        · rw [hlater.table] at hold
          exact .inl hold
        · exact .inr fun hmem => hnew (hlater.seen hmem)
  | pipeBegun =>
      rw [Multiset.mem_singleton.1 he] at hx
      exact absurd hx id
  | @pipe _ _ _ s reader writer _ saved _ _ _ hreader hwriter _ _ _ _ _ _ _ _ hwaited ih ih' =>
      have hseen : x ∉ insert writer (insert reader s.seen) → x ∉ s.seen := fun h hmem =>
        h (Set.mem_insert_of_mem _ (Set.mem_insert_of_mem _ hmem))
      rcases Multiset.mem_add.1 he with he | he
      · rw [Multiset.mem_singleton.1 he] at hx
        exact absurd hx id
      · rcases Multiset.mem_add.1 he with he | he
        · rcases ih he hx with ⟨i, hi⟩ | hnew
          · have hentry : Function.update s.table STDOUT_FILENO (some writer) i = some x := hi
            rcases entry_update hentry with hend | hold
            · exact .inr (Option.some.inj hend ▸ hwriter)
            · exact .inl ⟨i, hold⟩
          · exact .inr (hseen hnew)
        · rcases Multiset.mem_add.1 he with he | he
          · rcases ih' he hx with ⟨i, hi⟩ | hnew
            · rcases saved_entry hi with hend | hold
              · exact .inr (hend ▸ hreader)
              · exact .inl hold
            · exact .inr (hseen hnew)
          · rw [Multiset.mem_singleton.1 (Multiset.mem_of_le hwaited he)] at hx
            exact .inl hx
  | @redirect _ _ _ s file saved _ hfile _ _ _ ih =>
      rcases Multiset.mem_add.1 he with he | he
      · rw [Multiset.mem_singleton.1 he] at hx
        exact absurd hx id
      · rcases ih he hx with ⟨i, hi⟩ | hnew
        · rcases saved_entry hi with hend | hold
          · exact .inr (hend ▸ hfile)
          · exact .inl hold
        · exact .inr fun hmem => hnew (Set.mem_insert_of_mem _ hmem)
  | background _ _ ih => exact ih he hx

/-! ### The calls -/

section Rules

variable {α : Type} {post : Multiset (ShEvent H) → Option (α × ShProcess H) → Prop}

/-- A call that records nothing. -/
theorem always_silent {c : ShCall} {next : c.Answer → Sh α} (hhere : post 0 none)
    (hnext : ∀ a E t, ShStep Ends s c a E t → E = 0 ∧ Always (shCalls Ends) (next a) t post) :
    Always (shCalls Ends) (.call c next) s post := by
  refine always_call.2 ⟨hhere, fun a E t hstep => ?_⟩
  obtain ⟨rfl, h⟩ := hnext a E t hstep
  simpa only [zero_add] using h

theorem always_dup2 {oldfd : ℤ} {newfd : ℕ} {h : H} {next : ℤ → Sh α} (hold : s.at oldfd = some h)
    (hnew : newfd < OPEN_MAX) (hhere : post 0 none)
    (hnext : Always (shCalls Ends) (next newfd) (s.put newfd (some h)) post) :
    Always (shCalls Ends) (.call (.dup2 oldfd newfd) next) s post := by
  refine always_silent hhere fun a E t hstep => ?_
  cases hstep with
  | dup2 hold' _ =>
      obtain rfl := Option.some.inj (hold.symm.trans hold')
      exact ⟨rfl, hnext⟩
  | dup2Fails hfails =>
      rcases hfails with hnone | hge
      · simp [hold] at hnone
      · omega

theorem always_close {fd : ℤ} {next : ℤ → Sh α} (hfd : s.at fd ≠ none) (hhere : post 0 none)
    (hnext : Always (shCalls Ends) (next 0) (s.put fd.toNat none) post) :
    Always (shCalls Ends) (.call (.close fd) next) s post := by
  refine always_silent hhere fun a E t hstep => ?_
  cases hstep with
  | close _ => exact ⟨rfl, hnext⟩
  | closeFails hnone => exact absurd hnone hfd

theorem always_dup {oldfd : ℤ} {h : H} {next : ℤ → Sh α} (hold : s.at oldfd = some h) (hroom : 0 < freeSlots s.table)
    (hhere : post 0 none)
    (hnext : ∀ i : ℕ, LowestFree s.table i → Always (shCalls Ends) (next i) (s.put i (some h)) post) :
    Always (shCalls Ends) (.call (.dup oldfd) next) s post := by
  refine always_silent hhere fun a E t hstep => ?_
  cases hstep with
  | dup hold' hfree =>
      obtain rfl := Option.some.inj (hold.symm.trans hold')
      exact ⟨rfl, hnext _ hfree⟩
  | dupFails hfails =>
      rcases hfails with hnone | hfull
      · simp [hold] at hnone
      · obtain ⟨i, hi, hfree⟩ := exists_free hroom
        exact absurd hfree (hfull i hi)

theorem always_getpid {next : ℕ → Sh α} (hhere : post 0 none) (hnext : Always (shCalls Ends) (next s.pid) s post) :
    Always (shCalls Ends) (.call .getpid next) s post := by
  refine always_silent hhere fun a E t hstep => ?_
  cases hstep with
  | getpid => exact ⟨rfl, hnext⟩

theorem always_reap {next : Unit → Sh α} (hhere : post 0 none) (hnext : Always (shCalls Ends) (next ()) s post) :
    Always (shCalls Ends) (.call .reap next) s post := by
  refine always_silent hhere fun a E t hstep => ?_
  cases hstep with
  | reap => exact ⟨rfl, hnext⟩

theorem always_chdir {path : CString} {next : ℤ → Sh α} (hhere : post 0 none)
    (hnext : ∀ ret, Always (shCalls Ends) (next ret) s post) :
    Always (shCalls Ends) (.call (.chdir path) next) s post := by
  refine always_silent hhere fun a E t hstep => ?_
  cases hstep with
  | chdir => exact ⟨rfl, hnext _⟩

theorem always_exit (status : ℕ) (hhere : post 0 none) : Always (shCalls Ends) (exit status) s post := by
  refine always_silent hhere fun a E t hstep => ?_
  cases hstep with
  | exit => exact ⟨rfl, always_stop.2 hhere⟩

theorem always_abort (hhere : post 0 none) : Always (shCalls Ends) abort s post := by
  refine always_silent hhere fun a E t hstep => ?_
  cases hstep with
  | abort => exact ⟨rfl, always_stop.2 hhere⟩

theorem always_waitpid {pid : ℕ} {next : ℤ × Bool → Sh α} (hhere : post 0 none)
    (hnext : ∀ ret, Always (shCalls Ends) (next ret) s fun E r => post ({.wait s.table} + E) r) :
    Always (shCalls Ends) (.call (.waitpid pid) next) s post := by
  refine always_call.2 ⟨hhere, fun a E t hstep => ?_⟩
  cases hstep with
  | waitpid => exact hnext _

theorem always_tcsetpgrp {pgid : ℕ} {next : ℤ → Sh α} (hhere : post 0 none)
    (hnext : ∀ ret, Always (shCalls Ends) (next ret) s fun E r => post ({.terminal pgid} + E) r) :
    Always (shCalls Ends) (.call (.tcsetpgrp pgid) next) s post := by
  refine always_call.2 ⟨hhere, fun a E t hstep => ?_⟩
  cases hstep with
  | tcsetpgrp => exact hnext _

/-- The group is that of the context, or the process itself. -/
theorem always_groupOfSelf {ctx : RunContext} {f : RunContext → Sh α} (hhere : post 0 none)
    (hnext : Always (shCalls Ends) (f (ctx.groupOf s.pid)) s post) :
    Always (shCalls Ends) ((groupOfSelf ctx).bind f) s post := by
  unfold groupOfSelf
  by_cases hzero : ctx.pgid = 0
  · rw [RunContext.groupOf, if_pos hzero] at hnext
    rw [if_pos hzero]
    exact always_getpid hhere hnext
  · rw [RunContext.groupOf, if_neg hzero] at hnext
    rw [if_neg hzero]
    exact hnext

/-- A standard descriptor is put back, and the slot it was kept in is free again. -/
theorem always_restore {saved fd : ℕ} {h : H} {f : Unit → Sh α} (hsaved : saved < OPEN_MAX) (hfd : fd < OPEN_MAX)
    (hne : saved ≠ fd) (hkept : s.table saved = some h) (hhere : post 0 none)
    (hnext : Always (shCalls Ends) (f ()) ((s.put fd (some h)).put saved none) post) :
    Always (shCalls Ends) ((restore saved fd).bind f) s post := by
  have hat : s.at (saved : ℤ) = some h := (at_natCast s hsaved).trans hkept
  refine always_dup2 hat hfd hhere (always_close ?_ hhere hnext)
  rw [at_natCast _ hsaved, table_put, Function.update_of_ne hne, hkept]
  simp

/-- Whatever the state is, `restore` records nothing. -/
theorem always_restore_any {saved : ℤ} {fd : ℕ} {f : Unit → Sh α} (hhere : post 0 none)
    (hnext : ∀ t, Always (shCalls Ends) (f ()) t post) :
    Always (shCalls Ends) ((restore saved fd).bind f) s post := by
  refine always_silent hhere fun a E t hstep => ⟨?_, always_silent hhere fun a' E' t' hstep' => ⟨?_, hnext t'⟩⟩
  · cases hstep <;> rfl
  · cases hstep' <;> rfl

end Rules

/-! ### The functions -/

/-- What is seen is the meaning of the command, and the shell is as it was unless there was an error. -/
def Outcome (Ends : H → H → Prop) (c : Command) (ctx : RunContext) (s : ShProcess H) (E : Multiset (ShEvent H))
    (r : Option (ℤ × ShProcess H)) : Prop :=
  Meaning Ends c ctx s E ∧ ∀ rc t, r = some (rc, t) → rc ≠ RUN_ERROR → s.Later t

/-- A function that runs the command as it should. -/
def Does (Ends : H → H → Prop) (run : RunContext → Sh ℤ) (c : Command) : Prop :=
  ∀ (s : ShProcess H) (ctx : RunContext), s.Ready c.slots → Always (shCalls Ends) (run ctx) s (Outcome Ends c ctx s)

variable {ctx : RunContext} {E : Multiset (ShEvent H)}

theorem outcome_none {c : Command} (h : Meaning Ends c ctx s E) : Outcome Ends c ctx s E none := ⟨h, by simp⟩

/-- The function returns from a state in which it has got through. -/
theorem outcome_pure {c : Command} {rc : ℤ} {t : ShProcess H} (h : Meaning Ends c ctx s E)
    (hlater : rc ≠ RUN_ERROR → s.Later t) :
    Always (shCalls Ends) (.pure rc : Sh ℤ) t fun E' r => Outcome Ends c ctx s (E + E') r := by
  refine always_pure.2 ⟨?_, ?_, ?_⟩
  · rw [add_zero]
    exact outcome_none h
  · rwa [add_zero]
  · rintro rc' t' ⟨⟩ hrc
    exact hlater hrc

theorem outcome_return {c : Command} {rc : ℤ} {t : ShProcess H} (h : Meaning Ends c ctx s 0)
    (hlater : rc ≠ RUN_ERROR → s.Later t) : Always (shCalls Ends) (.pure rc : Sh ℤ) t (Outcome Ends c ctx s) := by
  have := outcome_pure h hlater
  simpa only [zero_add] using this

/-- The child of a command puts itself into its group, takes the terminal, and becomes the program. -/
theorem always_executeChild {argv : List Word} (hpid : 0 < s.pid) :
    Always (shCalls Ends) (executeChild argv ctx) s fun E _ => E ≤ programEvents argv ctx s.pid s.table := by
  have hgroup : (if (ctx.groupOf s.pid).pgid = 0 then s.pid else (ctx.groupOf s.pid).pgid) = (ctx.groupOf s.pid).pgid := by
    unfold RunContext.groupOf
    by_cases hzero : ctx.pgid = 0
    · simp [hzero, hpid.ne']
    · simp [hzero]
  have hfore : (ctx.groupOf s.pid).foreground = ctx.foreground := by
    unfold RunContext.groupOf
    split <;> rfl
  have hzero := Multiset.zero_le (programEvents argv ctx s.pid s.table)
  refine always_groupOfSelf hzero ?_
  refine always_silent hzero fun ret E₁ t hstep => ?_
  cases hstep with
  | setpgidFails => exact ⟨rfl, always_abort hzero⟩
  | setpgid =>
      refine ⟨rfl, ?_⟩
      rw [hgroup]
      -- the terminal, where it is taken, and then the program
      have hprogram : ∀ E₀, E₀ = (if ctx.foreground then {.terminal (ctx.groupOf s.pid).pgid} else 0) →
          Always (shCalls Ends) (.call (.execvpe argv) fun ret : ℤ => if ret < 0 then abort else .stop : Sh Empty)
            { s with pgid := (ctx.groupOf s.pid).pgid } fun E _ => E₀ + E ≤ programEvents argv ctx s.pid s.table := by
        rintro E₀ rfl
        have hhere : (if ctx.foreground then {.terminal (ctx.groupOf s.pid).pgid} else 0) + 0 ≤
            programEvents argv ctx s.pid s.table := by
          rw [add_zero]
          exact Multiset.le_add_right _ _
        refine always_call.2 ⟨hhere, fun ret' E₂ t' hexec => ?_⟩
        cases hexec with
        | execvpe =>
            rw [if_neg (lt_irrefl _)]
            refine always_stop.2 ?_
            rw [add_zero]
            exact le_refl _
        | execvpeFails => exact always_abort hhere
      unfold takeTerminal
      rw [hfore]
      by_cases hfg : ctx.foreground = true
      · rw [if_pos hfg]
        refine always_tcsetpgrp hzero ?_
        exact fun _ => hprogram _ (by rw [if_pos hfg])
      · rw [if_neg hfg]
        refine (hprogram 0 (by rw [if_neg hfg])).mono fun E _ hle => ?_
        rwa [zero_add] at hle

theorem always_runCd {home : Option CString} {args : List Word} {c : Command} (h : Meaning Ends c ctx s 0) :
    Always (shCalls Ends) (runCd home args) s (Outcome Ends c ctx s) := by
  have hreturn : ∀ ret : ℤ, Always (shCalls Ends) (.pure ret : Sh ℤ) s (Outcome Ends c ctx s) :=
    fun _ => outcome_return h fun _ => .refl s
  cases args with
  | cons w args => exact always_chdir (outcome_none h) hreturn
  | nil =>
      cases home with
      | some path => exact always_chdir (outcome_none h) hreturn
      | none => exact hreturn 0

/-- One program begins, and the shell waits for it. -/
theorem does_runExecute (home : Option CString) (words : List Word) :
    Does Ends (runExecute home words) (.execute words) := by
  intro s ctx _
  have hnone : Outcome Ends (.execute words) ctx s 0 none := outcome_none (.nothing _ ctx s)
  cases words with
  | nil => exact always_stop.2 hnone
  | cons argv₀ args =>
      unfold runExecute
      dsimp only
      by_cases hexit : argv₀.Is ['e', 'x', 'i', 't']
      · rw [if_pos hexit]
        exact always_exit _ hnone
      rw [if_neg hexit]
      by_cases hcd : argv₀.Is ['c', 'd']
      · rw [if_pos hcd]
        exact always_runCd (.nothing _ ctx s)
      rw [if_neg hcd]
      have hprogram : ¬IsBuiltin (argv₀ :: args) := by
        rintro ⟨w, hw, his⟩
        obtain rfl : argv₀ = w := Option.some.inj hw
        rcases his with his | his
        · exact hexit his
        · exact hcd his
      refine always_fork.2 ⟨hnone, outcome_return (.nothing _ ctx s) fun hrc => absurd rfl hrc, ?_⟩
      rintro pid _ ⟨hpid, rfl⟩
      refine (always_executeChild hpid).mono fun E _ hle => ?_
      have hmeaning : Meaning Ends (.execute (argv₀ :: args)) ctx s E :=
        .execute hprogram hpid (hle.trans (Multiset.le_add_right _ _))
      have hwaited : Meaning Ends (.execute (argv₀ :: args)) ctx s (E + {.wait s.table}) :=
        .execute hprogram hpid (add_le_add_left hle _)
      refine always_waitpid ?_ fun ret => ?_
      · rw [add_zero]
        exact outcome_none hmeaning
      · simp only [← add_assoc]
        simp only [Proc.bind_pure]
        split_ifs
        · exact outcome_pure hwaited fun _ => .refl s
        · exact outcome_pure hwaited fun _ => .refl s
        · exact outcome_pure hwaited fun _ => .refl s

/-- The right command begins where the left one has ended, unless that reports an error. -/
theorem does_runJuxtaposition {run run' : RunContext → Sh ℤ} {left right : Command} (hleft : Does Ends run left)
    (hright : Does Ends run' right) : Does Ends (runJuxtaposition run run') (.juxtaposition left right) := by
  intro s ctx hs
  have hfirst : ∀ E, Meaning Ends left ctx s E → Meaning Ends (.juxtaposition left right) ctx s E := by
    intro E h
    rw [← add_zero E]
    exact .juxtaposition h (.refl s) (.nothing _ ctx s)
  refine always_bind (hleft s ctx (hs.mono (le_max_left _ _))) (fun E h => outcome_none (hfirst E h.1)) ?_
  rintro E rc t ⟨hmeaning, hlater⟩
  by_cases hneg : rc < 0
  · simp only [hneg, if_true]
    exact outcome_pure (hfirst E hmeaning) fun hrc => hlater rc t rfl hrc
  · simp only [hneg, if_false]
    have hst := hlater rc t rfl fun hrc => hneg (hrc ▸ by decide)
    refine (hright t ctx ((hs.mono (le_max_right _ _)).later hst)).mono ?_
    rintro E' r ⟨hmeaning', hlater'⟩
    exact ⟨.juxtaposition hmeaning hst hmeaning', fun rc' t' hr hrc => hst.trans (hlater' rc' t' hr hrc)⟩

/-- The command runs in a process of its own. -/
theorem does_runBackground {run : RunContext → Sh ℤ} {inner : Command} (hinner : Does Ends run inner) :
    Does Ends (fun _ => runBackground run) (.background inner) := by
  intro s ctx hs
  have hnone : Outcome Ends (.background inner) ctx s 0 none := outcome_none (.nothing _ ctx s)
  refine always_fork.2 ⟨hnone, outcome_return (.nothing _ ctx s) fun hrc => absurd rfl hrc, ?_⟩
  rintro pid _ ⟨hpid, rfl⟩
  have hchild : Always (shCalls Ends) (backgroundChild run) { s with pid := pid } fun E _ =>
      Meaning Ends inner { pgid := pid, foreground := false } { s with pid := pid } E := by
    refine always_getpid (.nothing _ _ _) ?_
    refine always_bind (p := run ⟨pid, false⟩) (hinner _ _ (hs.child pid)) (fun E h => h.1) ?_
    rintro E rc t ⟨hmeaning, -⟩
    have hhere : Meaning Ends inner { pgid := pid, foreground := false } { s with pid := pid } (E + 0) := by
      rwa [add_zero]
    split_ifs
    · exact always_abort hhere
    · exact always_exit 0 hhere
  refine hchild.mono fun E _ h => ?_
  exact outcome_pure (.background hpid h) fun _ => .refl s

/-! ### Pipes -/

/-- The two ends of a pipe that has just been made, and their slots. -/
structure PipeMade (Ends : H → H → Prop) (s : ShProcess H) (i j : ℕ) (reader writer : H) : Prop where
  first : LowestFree s.table i
  second : LowestFree (s.put i (some reader)).table j
  newReader : reader ∉ s.seen
  newWriter : writer ∉ s.seen
  distinct : reader ≠ writer
  ends : Ends reader writer

/-- The state in which a pipe has been made. -/
def withPipe (s : ShProcess H) (i j : ℕ) (reader writer : H) : ShProcess H :=
  ((((s.see reader).see writer).put i (some reader)).put j (some writer))

section Pipe

variable {i j n : ℕ} {reader writer : H} {left right : Command} {run run' : RunContext → Sh ℤ}

theorem PipeMade.ne (h : PipeMade Ends s i j reader writer) : j ≠ i := by
  rintro rfl
  have hfree := h.second.2.1
  simp at hfree

theorem PipeMade.second_free (h : PipeMade Ends s i j reader writer) : s.table j = none := by
  have hfree := h.second.2.1
  rwa [table_put, Function.update_of_ne h.ne] at hfree

/-- A slot that is not free is neither of the two. -/
theorem PipeMade.apart (h : PipeMade Ends s i j reader writer) {k : ℕ} (hk : s.table k ≠ none) : k ≠ i ∧ k ≠ j := by
  constructor
  · rintro rfl
    exact hk h.first.2.1
  · rintro rfl
    exact hk h.second_free

theorem table_withPipe (h : PipeMade Ends s i j reader writer) {k : ℕ} (hk : s.table k ≠ none) :
    (withPipe s i j reader writer).table k = s.table k := by
  obtain ⟨hki, hkj⟩ := h.apart hk
  change Function.update (Function.update s.table i (some reader)) j (some writer) k = s.table k
  rw [Function.update_of_ne hkj, Function.update_of_ne hki]

theorem table_withPipe_reader (h : PipeMade Ends s i j reader writer) :
    (withPipe s i j reader writer).table i = some reader := by
  change Function.update (Function.update s.table i (some reader)) j (some writer) i = some reader
  rw [Function.update_of_ne h.ne.symm, Function.update_self]

theorem table_withPipe_writer (s : ShProcess H) (i j : ℕ) (reader writer : H) :
    (withPipe s i j reader writer).table j = some writer :=
  Function.update_self ..

/-- The child hands the write end on as the standard output, and gives up the other slots. -/
theorem leftOf_eq (h : PipeMade Ends s i j reader writer) (hs : s.Ready n) (pid : ℕ) :
    (({ withPipe s i j reader writer with pid := pid }.put STDOUT_FILENO (some writer)).put i none).put j none =
      leftOf s reader writer pid := by
  obtain ⟨hi, hj⟩ := h.apart hs.stdout
  refine process_ext rfl rfl (fun k => ?_) rfl
  simp only [withPipe, leftOf, table_put, table_see, Function.update_apply]
  have hfi := h.first.2.1
  have hfj := h.second_free
  split_ifs <;> simp_all

/-- The shell hands the read end on as the standard input, and gives up the other slots. -/
theorem rightOf_eq (h : PipeMade Ends s i j reader writer) (hs : s.Ready n) {saved : ℕ}
    (hsaved : LowestFree (withPipe s i j reader writer).table saved) :
    (((((withPipe s i j reader writer).put saved (s.table STDIN_FILENO)).put STDIN_FILENO (some reader)).put i none).put j
      none) = rightOf s reader writer saved := by
  obtain ⟨hi, hj⟩ := h.apart hs.stdin
  have hfi := h.first.2.1
  have hfj := h.second_free
  have hki : saved ≠ i := by
    rintro rfl
    simpa [table_withPipe_reader h] using hsaved.2.1
  have hkj : saved ≠ j := by
    rintro rfl
    simpa [table_withPipe_writer] using hsaved.2.1
  refine process_ext rfl rfl (fun k => ?_) rfl
  simp only [withPipe, rightOf, table_put, table_see, Function.update_apply]
  split_ifs <;> simp_all

/-- The left command runs in the child, with the write end as its standard output. -/
theorem always_pipeChild (hleft : Does Ends run left) (h : PipeMade Ends s i j reader writer) (hs : s.Ready n)
    (hslots : left.slots ≤ n) (pid : ℕ) :
    Always (shCalls Ends) (pipeChild run i j ctx) { withPipe s i j reader writer with pid := pid } fun E _ =>
      Meaning Ends left (ctx.groupOf pid) (leftOf s reader writer pid) E := by
  have hnothing : Meaning Ends left (ctx.groupOf pid) (leftOf s reader writer pid) 0 := .nothing ..
  obtain ⟨hi, hj⟩ := h.apart hs.stdout
  unfold pipeChild
  refine always_dup2 (h := writer) ?_ (by decide) hnothing ?_
  · rw [at_natCast _ h.second.1]
    exact table_withPipe_writer s i j reader writer
  refine always_close ?_ hnothing ?_
  · rw [at_natCast _ h.first.1, table_put, Function.update_of_ne hi.symm]
    simp [table_withPipe_reader h]
  refine always_close ?_ hnothing ?_
  · rw [at_natCast _ h.second.1, Int.toNat_natCast, table_put, table_put, Function.update_of_ne h.ne,
      Function.update_of_ne hj.symm]
    simp [table_withPipe_writer]
  rw [Int.toNat_natCast, Int.toNat_natCast, leftOf_eq h hs pid]
  refine always_groupOfSelf hnothing ?_
  refine always_bind (p := run (ctx.groupOf pid)) (hleft _ _ ((hs.leftOf reader writer pid).mono hslots))
    (fun E h => h.1) ?_
  rintro E rc t ⟨hmeaning, -⟩
  have hhere : Meaning Ends left (ctx.groupOf pid) (leftOf s reader writer pid) (E + 0) := by rwa [add_zero]
  split_ifs
  · exact always_abort hhere
  · refine always_silent hhere fun a E' t' hstep => ⟨?_, always_exit 0 hhere⟩
    cases hstep <;> rfl

/-- What is seen of the shell while the right command runs, and when it waits for the left one. -/
def RightOutcome (Ends : H → H → Prop) (right : Command) (ctx : RunContext) (s : ShProcess H) (reader writer : H)
    (E : Multiset (ShEvent H)) (r : Option (ℤ × ShProcess H)) : Prop :=
  (∃ saved E' waited, saved < OPEN_MAX ∧ s.table saved = none ∧ E = E' + waited ∧
    Meaning Ends right ctx (rightOf s reader writer saved) E' ∧ waited ≤ {.wait s.table}) ∧
  ∀ rc t, r = some (rc, t) → rc ≠ RUN_ERROR → s.Later t

theorem always_pipeParent (hright : Does Ends run' right) (h : PipeMade Ends s i j reader writer)
    (hs : s.Ready n) (hslots : max 3 (right.slots + 1) ≤ n) (pid : ℕ) :
    Always (shCalls Ends) (pipeParent run' i j pid ctx) (withPipe s i j reader writer)
      (RightOutcome Ends right (ctx.groupOf pid) s reader writer) := by
  have hfour : 2 < freeSlots s.table := by
    have := hs.room
    omega
  obtain ⟨h₀, hstdin⟩ := Option.ne_none_iff_exists'.1 hs.stdin
  have hfree : freeSlots (withPipe s i j reader writer).table + 2 = freeSlots s.table := by
    have hfirst := freeSlots_put_free h.first.1 h.first.2.1 reader
    have hsecond := freeSlots_put_free h.second.1 h.second.2.1 writer
    rw [table_put] at hsecond
    change freeSlots (Function.update (Function.update s.table i (some reader)) j (some writer)) + 2 = freeSlots s.table
    omega
  have hhere : RightOutcome Ends right (ctx.groupOf pid) s reader writer 0 none := by
    obtain ⟨saved, hsaved, hnone⟩ := exists_free (Nat.lt_of_le_of_lt (Nat.zero_le 2) hfour)
    exact ⟨⟨saved, 0, 0, hsaved, hnone, rfl, .nothing _ _ _, Multiset.zero_le _⟩, by simp⟩
  unfold pipeParent
  refine always_dup (h := h₀) ?_ (by omega) hhere fun saved hsaved => ?_
  · rw [at_natCast _ (by decide), table_withPipe h hs.stdin, hstdin]
  have hki : saved ≠ i := by
    rintro rfl
    simpa [table_withPipe_reader h] using hsaved.2.1
  have hkj : saved ≠ j := by
    rintro rfl
    simpa [table_withPipe_writer] using hsaved.2.1
  have hnone : s.table saved = none := by
    by_contra hsome
    exact hsome (by rw [← table_withPipe h hsome, hsaved.2.1])
  obtain ⟨hi, hj⟩ := h.apart hs.stdin
  have hstd : saved ≠ STDIN_FILENO := by
    rintro rfl
    exact hs.stdin hnone
  refine always_dup2 (h := reader) ?_ (by decide) hhere ?_
  · rw [at_natCast _ h.first.1, table_put, Function.update_of_ne hki.symm, table_withPipe_reader h]
  refine always_close ?_ hhere ?_
  · rw [at_natCast _ h.first.1, table_put, table_put, Function.update_of_ne hi.symm, Function.update_of_ne hki.symm,
      table_withPipe_reader h]
    simp
  refine always_close ?_ hhere ?_
  · rw [at_natCast _ h.second.1, Int.toNat_natCast, table_put, table_put, table_put, Function.update_of_ne h.ne,
      Function.update_of_ne hj.symm, Function.update_of_ne hkj.symm, table_withPipe_writer]
    simp
  rw [Int.toNat_natCast, Int.toNat_natCast, ← hstdin, rightOf_eq h hs hsaved]
  have hready : (rightOf s reader writer saved).Ready right.slots := by
    refine ready_saved (hs.mono ((le_max_right _ _).trans hslots)) hstdin (.inl ⟨rfl, rfl⟩) hsaved.1 hnone ?_ ?_ ?_
      (x := reader)
    · rw [← hstdin]
      rfl
    · exact fun x hx => Set.mem_insert_of_mem _ (Set.mem_insert_of_mem _ hx)
    · exact Set.mem_insert_of_mem _ (Set.mem_insert _ _)
  have hseen : ∀ E, Meaning Ends right (ctx.groupOf pid) (rightOf s reader writer saved) E →
      RightOutcome Ends right (ctx.groupOf pid) s reader writer E none := fun E hE =>
    ⟨⟨saved, E, 0, hsaved.1, hnone, (add_zero E).symm, hE, Multiset.zero_le _⟩, by simp⟩
  refine always_bind (p := run' (ctx.groupOf pid)) (hright _ _ hready) (fun E h => hseen E h.1) ?_
  rintro E rc t ⟨hmeaning, hlater⟩
  have hhere' : RightOutcome Ends right (ctx.groupOf pid) s reader writer (E + 0) none := by
    rw [add_zero]
    exact hseen E hmeaning
  by_cases hrc : rc = RUN_ERROR
  · -- the shell gives up: its table does not matter any more
    subst hrc
    refine always_restore_any hhere' fun t' => ?_
    refine always_pure.2 ⟨hhere', ?_, fun rc' t'' hr hne => ?_⟩
    · rw [add_zero]
      exact (hseen E hmeaning).1
    · obtain ⟨rfl, -⟩ := Prod.mk.inj (Option.some.inj hr)
      exact absurd rfl hne
  · have hst := hlater rc t rfl hrc
    have htable : t.table = Function.update (Function.update s.table saved (some h₀)) STDIN_FILENO (some reader) := by
      rw [hst.table, ← hstdin]
      rfl
    refine always_restore (h := h₀) hsaved.1 (by decide) hstd ?_ hhere' ?_
    · rw [htable, Function.update_of_ne hstd, Function.update_self]
    have hback : s.Later ((t.put STDIN_FILENO (some h₀)).put saved none) := by
      refine ⟨hst.pid, hst.pgid, ?_, fun x hx => hst.seen ?_⟩
      · funext k
        simp only [table_put, htable, Function.update_apply]
        split_ifs <;> simp_all
      · exact Set.mem_insert_of_mem _ (Set.mem_insert_of_mem _ hx)
    split_ifs with hneg
    · refine always_pure.2 ⟨hhere', ?_, ?_⟩
      · rw [add_zero]
        exact (hseen E hmeaning).1
      · rintro rc' t' ⟨⟩ -
        exact hback
    · refine always_waitpid hhere' fun ret => ?_
      have hwaited : ∃ saved E' waited, saved < OPEN_MAX ∧ s.table saved = none ∧
          E + ({.wait s.table} + 0) = E' + waited ∧ Meaning Ends right (ctx.groupOf pid) (rightOf s reader writer saved) E' ∧
          waited ≤ {.wait s.table} :=
        ⟨saved, E, {.wait s.table}, hsaved.1, hnone, by rw [add_zero], hmeaning, le_refl _⟩
      rw [hback.table]
      refine always_pure.2 ⟨⟨hwaited, by simp⟩, hwaited, ?_⟩
      rintro rc' t' ⟨⟩ -
      exact hback

/-- The two commands run next to each other, each with its end of one pipe. -/
theorem does_runPipe (hleft : Does Ends run left) (hright : Does Ends run' right) :
    Does Ends (runPipe run run') (.pipe left right) := by
  intro s ctx hs
  have hnone : Outcome Ends (.pipe left right) ctx s 0 none := outcome_none (.nothing _ ctx s)
  have hparent : max 3 (right.slots + 1) ≤ (Command.pipe left right).slots :=
    max_le (le_max_left _ _) ((le_max_right _ _).trans (le_max_right _ _))
  have hchild : left.slots ≤ (Command.pipe left right).slots := (le_max_left _ _).trans (le_max_right _ _)
  refine always_call.2 ⟨hnone, fun a E t hstep => ?_⟩
  cases hstep with
  | pipeFails => exact outcome_pure (.nothing _ ctx s) fun hrc => absurd rfl hrc
  | @pipe i j reader writer hi hj hreader hwriter hne hends =>
      have hmade : PipeMade Ends s i j reader writer := ⟨hi, hj, hreader, hwriter, hne, hends⟩
      have hbegun : Meaning Ends (.pipe left right) ctx s {.pipes reader writer} := .pipeBegun hreader hwriter hne hends
      refine always_fork.2 ⟨?_, outcome_pure hbegun fun hrc => absurd rfl hrc, ?_⟩
      · rw [add_zero]
        exact outcome_none hbegun
      rintro pid _ ⟨hpid, rfl⟩
      refine (always_pipeChild hleft hmade hs hchild pid).mono fun E hE hleftE => ?_
      refine (always_pipeParent hright hmade hs hparent pid).mono ?_
      rintro E' r ⟨⟨saved, Er, waited, hsaved, hfree, rfl, hrightE, hwaited⟩, hlater⟩
      refine ⟨.pipe hreader hwriter hne hends hpid hsaved hfree hleftE hrightE (fun e he hholds => ?_) hwaited, hlater⟩
      -- the write end is known to the right command, and not in its table
      rcases hrightE.new_or_old he hholds with ⟨k, hk⟩ | hnew
      · rcases saved_entry hk with hend | ⟨k', hk'⟩
        · exact hne hend
        · exact hs.notMem hwriter k' hk'
      · exact hnew (Set.mem_insert _ _)

end Pipe

/-! ### Redirections -/

/-- The command runs with the file as its standard output. -/
theorem does_runRedirect {run : RunContext → Sh ℤ} {source : Command} (hsource : Does Ends run source) (target : Word) :
    Does Ends (runRedirect run target) (.redirect source target) := by
  intro s ctx hs
  have hnone : Outcome Ends (.redirect source target) ctx s 0 none := outcome_none (.nothing _ ctx s)
  have hslots : max 2 (source.slots + 1) ≤ freeSlots s.table := hs.room
  have hsourceSlots : source.slots + 1 ≤ (Command.redirect source target).slots := le_max_right _ _
  obtain ⟨h₀, hstdout⟩ := Option.ne_none_iff_exists'.1 hs.stdout
  refine always_call.2 ⟨hnone, fun a E t hstep => ?_⟩
  cases hstep with
  | openFileFails => exact outcome_pure (.nothing _ ctx s) fun hrc => absurd rfl hrc
  | @openFile _ _ i file hi hfile =>
      have hnot : ¬(i : ℤ) < 0 := by omega
      simp only [Proc.bind_pure, hnot, if_false]
      have hfree := freeSlots_put_free hi.1 hi.2.1 file
      have hseen : ∀ saved E, saved < OPEN_MAX → s.table saved = none →
          Meaning Ends source ctx (redirectedTo s file saved) E →
          Outcome Ends (.redirect source target) ctx s ({.opens target file} + E) none :=
        fun saved E hsaved hnone hE => outcome_none (.redirect hfile hsaved hnone hE)
      have hhere : Outcome Ends (.redirect source target) ctx s ({.opens target file} + 0) none := by
        obtain ⟨saved, hsaved, hfree⟩ := exists_free (show 0 < freeSlots s.table by omega)
        exact hseen saved 0 hsaved hfree (.nothing ..)
      have hstd : STDOUT_FILENO ≠ i := by
        rintro rfl
        exact hs.stdout hi.2.1
      refine always_dup (h := h₀) ?_ ?_ hhere fun saved hsaved => ?_
      · rw [at_natCast _ (by decide), table_put, Function.update_of_ne hstd, table_see, hstdout]
      · change 0 < freeSlots (Function.update s.table i (some file))
        omega
      have hki : saved ≠ i := by
        rintro rfl
        simpa using hsaved.2.1
      have hnone : s.table saved = none := by
        have hfreeSlot := hsaved.2.1
        rwa [table_put, Function.update_of_ne hki] at hfreeSlot
      have hkstd : saved ≠ STDOUT_FILENO := by
        rintro rfl
        exact hs.stdout hnone
      refine always_dup2 (h := file) ?_ (by decide) hhere ?_
      · rw [at_natCast _ hi.1, table_put, Function.update_of_ne hki.symm, table_put, Function.update_self]
      refine always_close ?_ hhere ?_
      · rw [at_natCast _ hi.1, table_put, table_put, Function.update_of_ne hstd.symm, Function.update_of_ne hki.symm,
          table_put, Function.update_self]
        simp
      have hstate : (((((s.see file).put i (some file)).put saved (some h₀)).put STDOUT_FILENO (some file)).put i none) =
          redirectedTo s file saved := by
        refine process_ext rfl rfl (fun k => ?_) rfl
        have hfi := hi.2.1
        simp only [redirectedTo, table_put, table_see, Function.update_apply, hstdout]
        split_ifs <;> simp_all
      rw [Int.toNat_natCast, hstate]
      have hready : (redirectedTo s file saved).Ready source.slots := by
        refine ready_saved (hs.mono hsourceSlots) hstdout (.inr ⟨rfl, rfl⟩) hsaved.1 hnone ?_ ?_ ?_ (x := file)
        · rw [← hstdout]
          rfl
        · exact fun x hx => Set.mem_insert_of_mem _ hx
        · exact Set.mem_insert _ _
      refine always_bind (p := run ctx) (hsource _ ctx hready) (fun E h => hseen saved E hsaved.1 hnone h.1) ?_
      rintro E rc t ⟨hmeaning, hlater⟩
      have hhere' : Outcome Ends (.redirect source target) ctx s ({.opens target file} + (E + 0)) none := by
        rw [add_zero]
        exact hseen saved E hsaved.1 hnone hmeaning
      by_cases hrc : rc = RUN_ERROR
      · subst hrc
        refine always_restore_any hhere' fun t' => always_pure.2 ⟨hhere', hhere'.1, ?_⟩
        rintro rc' t'' ⟨⟩ hne
        exact absurd rfl hne
      · have hst := hlater rc t rfl hrc
        have htable : t.table = Function.update (Function.update s.table saved (some h₀)) STDOUT_FILENO (some file) := by
          rw [hst.table, ← hstdout]
          rfl
        refine always_restore (h := h₀) hsaved.1 (by decide) hkstd ?_ hhere' ?_
        · rw [htable, Function.update_of_ne hkstd, Function.update_self]
        refine always_pure.2 ⟨hhere', hhere'.1, ?_⟩
        rintro rc' t' ⟨⟩ -
        refine ⟨hst.pid, hst.pgid, ?_, fun x hx => hst.seen ?_⟩
        · funext k
          simp only [table_put, htable, Function.update_apply]
          split_ifs <;> simp_all
        · exact Set.mem_insert_of_mem _ hx

/-! ### Commands and sessions -/

/-- What the shell does for a command is what the command means. -/
theorem does_runCommand (home : Option CString) (c : Command) : Does Ends (runCommand home c) c := by
  induction c with
  | execute words => exact does_runExecute home words
  | juxtaposition left right hleft hright => exact does_runJuxtaposition hleft hright
  | pipe left right hleft hright => exact does_runPipe hleft hright
  | redirect source target hsource => exact does_runRedirect hsource target
  | background inner hinner => exact does_runBackground hinner

/-- What the shell does for the lines of a session is what the lines mean. -/
theorem always_runLines (home : Option CString) (lines : List Command) (hs : ∀ c ∈ lines, s.Ready c.slots) :
    Always (shCalls Ends) (runLines home lines) s fun E _ => SessionMeaning Ends lines s E := by
  induction lines generalizing s with
  | nil => exact always_stop.2 (.nothing _ s)
  | cons line lines ih =>
      obtain ⟨hline, hlines⟩ := List.forall_mem_cons.1 hs
      refine always_reap (.nothing _ s) ?_
      have hseen : ∀ E, Meaning Ends line ⟨0, true⟩ s E → SessionMeaning Ends (line :: lines) s E := by
        intro E h
        have := SessionMeaning.line h (Multiset.zero_le _) (.refl s) (.nothing lines s)
        rwa [add_zero, add_zero] at this
      refine always_bind (p := runCommand home line ⟨0, true⟩) (does_runCommand home line s _ hline)
        (fun E h => hseen E h.1) ?_
      rintro E rc t ⟨hmeaning, hlater⟩
      have hhere : SessionMeaning Ends (line :: lines) s (E + 0) := by
        rw [add_zero]
        exact hseen E hmeaning
      split_ifs with hrc
      · exact always_exit 1 hhere
      · have hst := hlater rc t rfl hrc
        refine always_getpid hhere (always_tcsetpgrp hhere fun ret => ?_)
        rw [hst.pid]
        have hnext : ∀ E', SessionMeaning Ends lines t E' →
            SessionMeaning Ends (line :: lines) s (E + ({.terminal s.pid} + E')) :=
          fun E' h => .line hmeaning (le_refl _) hst h
        simp only [Proc.bind_pure]
        split_ifs
        · exact always_exit 1 (hnext 0 (.nothing _ t))
        · exact (ih fun c hc => (hlines c hc).later hst).mono fun E' _ h => hnext E' h

end Sh

end Chaotix
