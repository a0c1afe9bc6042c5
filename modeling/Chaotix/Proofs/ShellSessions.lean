/-
Module: Chaotix.Proofs.ShellSessions
Layer: Proofs
Purpose: The shell on the kernel, over whole sessions. Whatever the order of the steps and whatever the programs do, a
  step of the shell on the kernel's tables is a step of its code over the table of the one process; so what can be seen
  of a session is what its lines mean.
Imports: Mathlib.Tactic, Chaotix.Proofs.CommandMeaning, Chaotix.Proofs.TableEffects
Trusted boundary: none
Main exports: SessionEvent.Balanced, Keeps, follows_step, session_meaning
-/
import Mathlib.Tactic
import Chaotix.Proofs.CommandMeaning
import Chaotix.Proofs.TableEffects

namespace Chaotix

open Sh (LowestFree)

section Views

variable {P D N S : Type} {p : P} {f f' : Files P D N S}

/-- What the slots of a process lead to is live. -/
def Files.Live (f : Files P D N S) (p : P) : Prop := ∀ i d, i < OPEN_MAX → f.entries p i = some d → f.descLive d = true

/-- Slots with what they lead to. -/
def viewOf (opening : D → Opening D N S) (entries : ℕ → Option D) (fd : ℕ) : Option (Opening D N S) :=
  if fd < OPEN_MAX then (entries fd).map opening else none

theorem view_eq (f : Files P D N S) (p : P) : f.view p = viewOf f.opening (f.entries p) := rfl

theorem viewOf_update (opening : D → Opening D N S) (entries : ℕ → Option D) {i : ℕ} (hi : i < OPEN_MAX)
    (entry : Option D) :
    viewOf opening (Function.update entries i entry) = Function.update (viewOf opening entries) i (entry.map opening) := by
  funext j
  by_cases hj : j = i
  · subst hj
    simp [viewOf, hi]
  · simp [viewOf, hj]

theorem viewOf_none_iff (opening : D → Opening D N S) (entries : ℕ → Option D) {i : ℕ} (hi : i < OPEN_MAX) :
    viewOf opening entries i = none ↔ entries i = none := by
  rw [viewOf, if_pos hi, Option.map_eq_none_iff]

/-- An empty slot is one in the view. -/
theorem lowestFree_viewOf (opening : D → Opening D N S) {entries : ℕ → Option D} {i : ℕ} (h : LowestFree entries i) :
    LowestFree (viewOf opening entries) i :=
  ⟨h.1, (viewOf_none_iff opening entries h.1).2 h.2.1, fun j hj => by
    rw [Ne, viewOf_none_iff opening entries (hj.trans h.1)]
    exact h.2.2 j hj⟩

/-- What is live leads to the same afterwards. -/
theorem viewOf_congr (hlive : f.Live p) (hopening : ∀ d, f.descLive d = true → f'.opening d = f.opening d) :
    viewOf f'.opening (f.entries p) = f.view p := by
  funext i
  unfold Files.view viewOf
  split_ifs with hi
  · cases hd : f.entries p i with
    | none => rfl
    | some d => exact congrArg some (hopening d (hlive i d hi hd))
  · rfl

/-- What a descriptor stands for, in the view of its process. -/
theorem at_view {s : Sh.ShProcess (Opening D N S)} (htable : s.table = f.view p) (fd : ℤ) :
    s.at fd = ((processGetFileDescription f p fd).toOption).map f.opening := by
  unfold Sh.ShProcess.at processGetFileDescription
  split_ifs with hrange
  · rfl
  · rw [htable, Files.view, if_pos (by omega)]
    cases f.entries p fd.toNat <;> rfl

/-- What is opened for the next time is not in the past. -/
theorem not_past {d : D} {inode : InodeRef N S} : (⟨d, f.opened d + 1, inode⟩ : Opening D N S) ∉ f.past := by
  simp [Files.past]

theorem past_mono (h : ∀ d, f.opened d ≤ f'.opened d) : f.past ⊆ f'.past := fun x hx => le_trans hx (h x.desc)

theorem opening_past (f : Files P D N S) (d : D) : f.opening d ∈ f.past := le_refl (f.opened d)

end Views

namespace Sh

section Sessions

variable {P D N S : Type}

/-- The calls on descriptors of a session keep the counters of the descriptions right. -/
def SessionEvent.Balanced (s : ShSession P D N S) (e : SessionEvent P D N S) : Prop :=
  ∀ call, e.call = some call → call.Balanced s.files e.process

variable {p : P} {pid pgid : ℕ} {f f' : Files P D N S} {σ : ShProcess (Opening D N S)}

/-- A process of the shell, with the table of the kernel and names that have been used. -/
structure Sees (f : Files P D N S) (p : P) (pid pgid : ℕ) (σ : ShProcess (Opening D N S)) : Prop where
  pid : σ.pid = pid
  pgid : σ.pgid = pgid
  table : σ.table = f.view p
  seen : σ.seen ⊆ f.past

theorem at_ok {fd : ℤ} {d : D} (hsees : Sees f p pid pgid σ) (h : processGetFileDescription f p fd = .ok d) :
    σ.at fd = some (f.opening d) := by
  rw [at_view hsees.table, h]
  rfl

theorem at_error {fd : ℤ} (hsees : Sees f p pid pgid σ) (h : ∃ e, processGetFileDescription f p fd = .error e) :
    σ.at fd = none := by
  obtain ⟨e, he⟩ := h
  rw [at_view hsees.table, he]
  rfl

/-- A call that leaves the slots of the process alone. -/
theorem Sees.same (hsees : Sees f p pid pgid σ) (hlive : f.Live p) (hmoves : Moves p f f')
    (hentries : f'.entries p = f.entries p) : Sees f' p pid pgid σ := by
  refine ⟨hsees.pid, hsees.pgid, ?_, hsees.seen.trans (past_mono hmoves.opened)⟩
  rw [hsees.table, view_eq f', hentries, viewOf_congr hlive hmoves.opening]

/-- A call that writes one slot. -/
theorem Sees.put (hsees : Sees f p pid pgid σ) (hlive : f.Live p) (hmoves : Moves p f f') {i : ℕ} (hi : i < OPEN_MAX)
    {entry : Option D} (hentries : f'.entries p = Function.update (f.entries p) i entry) :
    Sees f' p pid pgid (σ.put i (entry.map f'.opening)) := by
  refine ⟨hsees.pid, hsees.pgid, ?_, hsees.seen.trans (past_mono hmoves.opened)⟩
  rw [table_put, hsees.table, view_eq f', hentries, viewOf_update _ _ hi, viewOf_congr hlive hmoves.opening]

/-- A name that has been used is come across. -/
theorem Sees.see (hsees : Sees f p pid pgid σ) (d : D) : Sees f p pid pgid (σ.see (f.opening d)) := by
  refine ⟨hsees.pid, hsees.pgid, hsees.table, fun x hx => ?_⟩
  rcases Set.mem_insert_iff.1 hx with rfl | hx
  · exact opening_past f d
  · exact hsees.seen hx

variable [DecidableEq P] [DecidableEq D] [DecidableEq N] [DecidableEq S]

theorem live_of_get {fd : ℤ} {d : D} (hlive : f.Live p) (h : processGetFileDescription f p fd = .ok d) :
    f.descLive d = true := by
  obtain ⟨-, hmax, hentry⟩ := processGetFileDescription_ok h
  exact hlive _ d hmax hentry

/-- A call on the kernel's tables is the call over the table of the process. -/
theorem shStep_of_kernelCall {c : ShCall} {a : c.Answer} {call : Option (FileCall P D N S)} (hlive : f.Live p)
    (hsees : Sees f p pid pgid σ) (hcall : KernelCall p pid f c a call f') (hfresh : ∀ k, call = some k → k.Fresh f) :
    f'.registered = f.registered ∧ Moves p f f' ∧
      ∃ σ', ShStep PipeEnds σ c a (recordOf (f.view p) (f'.view p) c a) σ' ∧
        Sees f' p pid (groupAfter pid pgid c a) σ' := by
  cases hcall with
  | @pipe fifo readerChoice writerChoice r _ hrun =>
      have hfreshPipe := hfresh _ rfl
      have hmoves : Moves p f f' := ensures_iff.1 (fileCall_moves hfreshPipe) _ _ (sysPipe_of_ends hrun)
      obtain ⟨hregistered, hcases⟩ := ensures_iff.1 (sysPipeEnds_table hfreshPipe.2.2.2 f) _ _ hrun
      refine ⟨hregistered, hmoves, ?_⟩
      obtain ⟨⟨e, rfl⟩, hentries⟩ | ⟨i, j, reader, writer, n, rfl, hreader, hwriter, hi, hj, hentries, hr, hw⟩ := hcases
      · exact ⟨σ, .pipeFails σ, hsees.same hlive hmoves hentries⟩
      · have hne : i ≠ j := by
          rintro rfl
          simpa using hj.2.1
        have hview : f'.view p = Function.update (Function.update (f.view p) i (some (f'.opening reader))) j
            (some (f'.opening writer)) := by
          rw [view_eq f', hentries, viewOf_update _ _ hj.1, viewOf_update _ _ hi.1, viewOf_congr hlive hmoves.opening]
          rfl
        have hrecord : recordOf (f.view p) (f'.view p) .pipe (some (i, j)) =
            {.pipes (f'.opening reader) (f'.opening writer)} := by
          simp only [recordOf, hview, Function.update_self, Function.update_of_ne hne]
        have hsecond : LowestFree (σ.put i (some (f'.opening reader))).table j := by
          have := lowestFree_viewOf f'.opening hj
          rwa [viewOf_update _ _ hi.1, viewOf_congr hlive hmoves.opening, ← hsees.table] at this
        have hstep : ShStep PipeEnds σ .pipe (some (i, j)) {.pipes (f'.opening reader) (f'.opening writer)}
            ((((σ.see (f'.opening reader)).see (f'.opening writer)).put i (some (f'.opening reader))).put j
              (some (f'.opening writer))) := by
          refine .pipe ?_ hsecond (fun hmem => ?_) (fun hmem => ?_) (fun heq => ?_) ⟨n, by rw [hr], by rw [hw]⟩
          · rw [hsees.table]
            exact lowestFree_viewOf f.opening hi
          · rw [hr] at hmem
            exact not_past (hsees.seen hmem)
          · rw [hw] at hmem
            exact not_past (hsees.seen hmem)
          · rw [hr, hw] at heq
            have hdesc : reader = writer := congrArg Opening.desc heq
            exact hfreshPipe.2.2.2 reader hreader (hdesc ▸ hwriter)
        change ∃ σ', ShStep PipeEnds σ .pipe (some (i, j)) (recordOf (f.view p) (f'.view p) .pipe (some (i, j))) σ' ∧ _
        rw [hrecord]
        refine ⟨_, hstep, hsees.pid, hsees.pgid, ?_, fun x hx => ?_⟩
        · rw [hview, ← hsees.table]
          rfl
        · rcases Set.mem_insert_iff.1 hx with rfl | hx
          · exact opening_past f' writer
          · rcases Set.mem_insert_iff.1 hx with rfl | hx
            · exact opening_past f' reader
            · exact past_mono hmoves.opened (hsees.seen hx)
  | @dup oldfd r _ hrun =>
      have hmoves : Moves p f f' := ensures_iff.1 (fileCall_moves (hfresh _ rfl)) _ _ hrun
      obtain ⟨hregistered, hcases⟩ := ensures_iff.1 (sysFcntl_table oldfd 0 f) _ _ hrun
      refine ⟨hregistered, hmoves, ?_⟩
      obtain ⟨⟨e, rfl⟩, hentries, hwhy⟩ | ⟨i, d, rfl, hget, hi, hentries⟩ := hcases
      · refine ⟨σ, .dupFails ?_, hsees.same hlive hmoves (by rw [hentries])⟩
        rcases hwhy with herror | hfull
        · exact .inl (at_error hsees herror)
        · refine .inr fun i hi => ?_
          rw [hsees.table, view_eq, Ne, viewOf_none_iff _ _ hi]
          exact hfull i hi
      · refine ⟨_, .dup (at_ok hsees hget) ?_, ?_⟩
        · rw [hsees.table]
          exact lowestFree_viewOf f.opening hi
        · rw [← hmoves.opening d (live_of_get hlive hget)]
          exact hsees.put hlive hmoves hi.1 hentries
  | @dup2 oldfd newfd r _ hrun =>
      have hmoves : Moves p f f' := ensures_iff.1 (fileCall_moves (hfresh _ rfl)) _ _ hrun
      obtain ⟨hregistered, hcases⟩ := ensures_iff.1 (sysDup2_table oldfd newfd f) _ _ hrun
      refine ⟨hregistered, hmoves, ?_⟩
      obtain ⟨⟨e, rfl⟩, hentries, hwhy⟩ | ⟨d, rfl, hget, hlt, hentries⟩ := hcases
      · exact ⟨σ, .dup2Fails (hwhy.imp_left (at_error hsees)), hsees.same hlive hmoves (by rw [hentries])⟩
      · refine ⟨_, .dup2 (at_ok hsees hget) hlt, ?_⟩
        rw [← hmoves.opening d (live_of_get hlive hget)]
        exact hsees.put hlive hmoves hlt hentries
  | @close fd r _ hrun =>
      have hmoves : Moves p f f' := ensures_iff.1 (fileCall_moves (hfresh _ rfl)) _ _ hrun
      obtain ⟨hregistered, hcases⟩ := ensures_iff.1 (sysClose_table fd f) _ _ hrun
      refine ⟨hregistered, hmoves, ?_⟩
      obtain ⟨⟨e, rfl⟩, herror, hentries⟩ | ⟨rfl, ⟨d, hget⟩, hentries⟩ := hcases
      · exact ⟨σ, .closeFails (at_error hsees herror), hsees.same hlive hmoves (by rw [hentries])⟩
      · refine ⟨_, .close (by simp [at_ok hsees hget]), ?_⟩
        exact hsees.put hlive hmoves (processGetFileDescription_ok hget).2.1 hentries
  | @openFile path flags outcome choice r _ hrun =>
      have hmoves : Moves p f f' := ensures_iff.1 (fileCall_moves (hfresh _ rfl)) _ _ hrun
      obtain ⟨hregistered, hcases⟩ := ensures_iff.1 (sysOpen_table outcome flags choice f) _ _ hrun
      refine ⟨hregistered, hmoves, ?_⟩
      obtain ⟨⟨e, rfl⟩, hentries⟩ | ⟨i, d, n, rfl, -, hi, hentries, hopening⟩ := hcases
      · exact ⟨σ, .openFileFails σ path flags, hsees.same hlive hmoves (by rw [hentries])⟩
      · have hview : f'.view p = Function.update (f.view p) i (some (f'.opening d)) := by
          rw [view_eq f', hentries, viewOf_update _ _ hi.1, viewOf_congr hlive hmoves.opening]
          rfl
        have hnot : ¬(i : ℤ) < 0 := by omega
        have hrecord : recordOf (f.view p) (f'.view p) (.openFile path flags) (i : ℤ) = {.opens path (f'.opening d)} := by
          simp only [recordOf, hview, hnot, if_false, Int.toNat_natCast, Function.update_self]
        change ∃ σ', ShStep PipeEnds σ (.openFile path flags) (i : ℤ)
          (recordOf (f.view p) (f'.view p) (.openFile path flags) (i : ℤ)) σ' ∧ _
        rw [hrecord]
        refine ⟨_, .openFile ?_ fun hmem => ?_, (hsees.put hlive hmoves hi.1 hentries).see d⟩
        · rw [hsees.table]
          exact lowestFree_viewOf f.opening hi
        · rw [hopening] at hmem
          exact not_past (hsees.seen hmem)
  | waitpid child answer =>
      refine ⟨rfl, .refl p f, σ, ?_, hsees⟩
      rw [← hsees.table]
      exact .waitpid σ child answer.1 answer.2
  | reap => exact ⟨rfl, .refl p f, σ, .reap σ, hsees⟩
  | chdir path ret => exact ⟨rfl, .refl p f, σ, .chdir σ path ret, hsees⟩
  | getpid =>
      refine ⟨rfl, .refl p f, σ, ?_, hsees⟩
      have hstep : ShStep PipeEnds σ .getpid σ.pid 0 σ := .getpid σ
      rwa [hsees.pid] at hstep
  | setpgid new =>
      refine ⟨rfl, .refl p f, _, .setpgid σ new, hsees.pid, ?_, hsees.table, hsees.seen⟩
      rw [hsees.pid]
      rfl
  | setpgidFails new => exact ⟨rfl, .refl p f, σ, .setpgidFails σ new, hsees⟩
  | tcsetpgrp new ret => exact ⟨rfl, .refl p f, σ, .tcsetpgrp σ new ret, hsees⟩

/-! ### Steps of a session -/

/-- The call on descriptors that is made. -/
theorem kernelCall_run {c : ShCall} {a : c.Answer} {call : FileCall P D N S}
    (h : KernelCall p pid f c a (some call) f') : ∃ r, call.run p f = .ok (r, f') := by
  cases h with
  | pipe hrun => exact ⟨_, sysPipe_of_ends hrun⟩
  | dup hrun => exact ⟨_, hrun⟩
  | dup2 hrun => exact ⟨_, hrun⟩
  | close hrun => exact ⟨_, hrun⟩
  | openFile hrun => exact ⟨_, hrun⟩

theorem kernelCall_same {c : ShCall} {a : c.Answer} (h : KernelCall p pid f c a none f') : f' = f := by
  cases h <;> rfl

theorem live_of_integrity (h : DescriptionIntegrity f) (hp : f.registered p = true) : f.Live p :=
  fun _ _ hi hd => h.live hp hi hd

omit [DecidableEq P] [DecidableEq D] [DecidableEq N] [DecidableEq S] in
/-- A call of another process. -/
theorem Sees.other {q : P} (hsees : Sees f q pid pgid σ) (hq : q ≠ p) (hreg : f.registered q = true)
    (hlive : f.Live q) (hmoves : Moves p f f') : Sees f' q pid pgid σ := by
  refine ⟨hsees.pid, hsees.pgid, ?_, hsees.seen.trans (past_mono hmoves.opened)⟩
  rw [hsees.table, view_eq f', hmoves.entries q hq hreg, viewOf_congr hlive hmoves.opening]

/-- A pool whose processes are those of the session that run the shell, each with its code and its table. -/
structure Keeps (s : ShSession P D N S) (pool : Pool P ShCall ShCall.Answer (ShProcess (Opening D N S))) : Prop where
  integrity : DescriptionIntegrity s.files
  programs : ∀ p, s.code p = none → pool p = none
  shell : ∀ p code, s.code p = some code →
    s.files.registered p = true ∧ ∃ σ, pool p = some (code, σ) ∧ Sees s.files p (s.pid p) (s.pgid p) σ

variable {s s' : ShSession P D N S} {pool : Pool P ShCall ShCall.Answer (ShProcess (Opening D N S))}

/-- The code of a process that goes on, and its state. -/
def Goes (s : ShSession P D N S) (p : P) (next : Option (Sh Empty × ShProcess (Opening D N S))) : Prop :=
  s.code p = next.map Prod.fst ∧
    ∀ code σ, next = some (code, σ) → s.files.registered p = true ∧ Sees s.files p (s.pid p) (s.pgid p) σ

/-- One process has gone on, and the others are as they were. -/
theorem Keeps.update {pid' pgid' : P → ℕ} {code' : P → Option (Sh Empty)} (h : Keeps s pool)
    (hs' : DescriptionIntegrity f') (hmoves : Moves p s.files f')
    (hothers : ∀ q, q ≠ p → code' q = s.code q ∧ (s.code q ≠ none → pid' q = s.pid q ∧ pgid' q = s.pgid q))
    {next : Option (Sh Empty × ShProcess (Opening D N S))} (hp : Goes ⟨f', pid', pgid', code'⟩ p next) :
    Keeps ⟨f', pid', pgid', code'⟩ (Function.update pool p next) := by
  refine ⟨hs', fun q hq => ?_, fun q code hq => ?_⟩
  · by_cases heq : q = p
    · subst heq
      rw [hp.1] at hq
      rw [Function.update_self]
      exact Option.map_eq_none_iff.1 hq
    · change code' q = none at hq
      rw [(hothers q heq).1] at hq
      rw [Function.update_of_ne heq]
      exact h.programs q hq
  · by_cases heq : q = p
    · subst heq
      rw [hp.1] at hq
      obtain ⟨⟨code', σ⟩, hnext, rfl⟩ := Option.map_eq_some_iff.1 hq
      obtain ⟨hreg, hsees⟩ := hp.2 code' σ hnext
      exact ⟨hreg, σ, by rw [Function.update_self, hnext], hsees⟩
    · obtain ⟨hcode, hids⟩ := hothers q heq
      change code' q = some code at hq
      rw [hcode] at hq
      obtain ⟨hreg, σ, hpool, hsees⟩ := h.shell q code hq
      obtain ⟨hpid, hpgid⟩ := hids (by rw [hq]; simp)
      refine ⟨hmoves.registered q heq hreg, σ, by rw [Function.update_of_ne heq, hpool], ?_⟩
      change Sees f' q (pid' q) (pgid' q) σ
      rw [hpid, hpgid]
      exact hsees.other heq hreg (live_of_integrity h.integrity hreg) hmoves

/-- A call on descriptors that is balanced keeps the counters right. -/
theorem integrity_of_run {call : FileCall P D N S} {r : Except Errno ℕ} (hs : DescriptionIntegrity f)
    (hp : f.registered p = true) (hfresh : call.Fresh f) (hbalanced : call.Balanced f p) (hrun : call.run p f = .ok (r, f')) :
    DescriptionIntegrity f' :=
  (fileCall_spec (e := ⟨p, call, r⟩) hs ⟨hp, hfresh, hrun⟩).2 hbalanced

/-- A step of the session is one of the processes that run the shell, or is not seen by them. -/
theorem follows_step {e : SessionEvent P D N S} (h : Keeps s pool) (hbalanced : e.Balanced s) (hstep : SessionStep s e s') :
    ∃ pool', PoolSteps (shCalls PipeEnds) pool e.seen pool' ∧ Keeps s' pool' := by
  have hone : ∀ {E : Multiset (ShEvent (Opening D N S))} {pool'}, PoolStep (shCalls PipeEnds) pool E pool' →
      PoolSteps (shCalls PipeEnds) pool E pool' := by
    intro E pool' hpool
    have := PoolSteps.cons hpool (.nil pool')
    rwa [add_zero] at this
  cases hstep with
  | @call p c next a call f' hcode hcall hfresh =>
      obtain ⟨hreg, σ, hpool, hsees⟩ := h.shell p _ hcode
      obtain ⟨hregistered, hmoves, σ', hshell, hsees'⟩ :=
        shStep_of_kernelCall (live_of_integrity h.integrity hreg) hsees hcall hfresh
      have hs' : DescriptionIntegrity f' := by
        cases call with
        | none => exact kernelCall_same hcall ▸ h.integrity
        | some call =>
            obtain ⟨r, hrun⟩ := kernelCall_run hcall
            exact integrity_of_run h.integrity hreg (hfresh call rfl) (hbalanced call rfl) hrun
      refine ⟨_, hone (.call hpool hshell), ?_⟩
      refine h.update hs' hmoves (fun q hq => ?_) ⟨?_, ?_⟩
      · exact ⟨Function.update_of_ne hq .., fun _ => ⟨rfl, Function.update_of_ne hq ..⟩⟩
      · exact Function.update_self ..
      · rintro code σ₁ ⟨⟩
        refine ⟨by rw [hregistered]; exact hreg, ?_⟩
        simpa using hsees'
  | @launches p argv next hcode =>
      obtain ⟨hreg, σ, hpool, hsees⟩ := h.shell p _ hcode
      have hlaunch : (shCalls PipeEnds).step σ (.execvpe argv) (0 : ℤ)
          {.launch (s.pid p) (s.pgid p) argv (s.files.view p)} σ := by
        rw [← hsees.pid, ← hsees.pgid, ← hsees.table]
        exact ShStep.execvpe σ argv
      have hsteps := PoolSteps.cons (.call hpool hlaunch) (PoolSteps.cons (.goes p) (.nil _))
      rw [add_zero, add_zero, Function.update_idem] at hsteps
      refine ⟨_, hsteps, ?_⟩
      refine h.update h.integrity (.refl p s.files) (fun q hq => ?_) ⟨?_, by simp⟩
      · exact ⟨Function.update_of_ne hq .., fun _ => ⟨rfl, rfl⟩⟩
      · exact Function.update_self ..
  | @execvpeFails p argv next hcode =>
      obtain ⟨hreg, σ, hpool, hsees⟩ := h.shell p _ hcode
      refine ⟨_, hone (.call hpool (.execvpeFails σ argv)), ?_⟩
      refine h.update h.integrity (.refl p s.files) (fun q hq => ?_) ⟨?_, ?_⟩
      · exact ⟨Function.update_of_ne hq .., fun _ => ⟨rfl, rfl⟩⟩
      · exact Function.update_self ..
      · rintro code σ₁ ⟨⟩
        exact ⟨hreg, hsees⟩
  | @forks p child next choice pid f' hcode hfresh hrun hpid =>
      obtain ⟨hreg, σ, hpool, hsees⟩ := h.shell p _ hcode
      have hnew : s.files.registered choice.child = false := hfresh
      have hne : p ≠ choice.child := by
        intro heq
        rw [← heq, hreg] at hnew
        cases hnew
      have hnone : s.code choice.child = none := by
        by_contra hsome
        obtain ⟨code, hchild⟩ := Option.ne_none_iff_exists'.1 hsome
        simp [(h.shell _ code hchild).1] at hnew
      have hmoves : Moves p s.files f' := ensures_iff.1 (fileCall_moves hfresh) _ _ hrun
      have hs' := integrity_of_run h.integrity hreg hfresh (hbalanced _ rfl) hrun
      obtain ⟨hentries, hregistered, hchild⟩ := ensures_iff.1 (sysFork_table hne s.files) _ _ hrun
      obtain ⟨hcopied, hthere⟩ := hchild pid rfl
      have hlive := live_of_integrity h.integrity hreg
      refine ⟨_, hone (.fork hpool (h.programs _ hnone) ⟨hpid, rfl⟩), ?_⟩
      -- first the parent goes on, and then the child is there
      have hparent : Keeps { s with files := f', code := Function.update s.code p (some (next (some pid))) }
          (Function.update pool p (some (next (some pid), σ))) := by
        refine h.update hs' hmoves (fun q hq => ⟨Function.update_of_ne hq .., fun _ => ⟨rfl, rfl⟩⟩)
          ⟨Function.update_self .., ?_⟩
        rintro code σ₁ ⟨⟩
        exact ⟨hregistered.trans hreg, hsees.same hlive hmoves hentries⟩
      refine hparent.update hs' (.refl choice.child f') (fun q hq => ?_) ⟨Function.update_self .., ?_⟩
      · exact ⟨Function.update_of_ne hq .., fun _ => ⟨Function.update_of_ne hq .., Function.update_of_ne hq ..⟩⟩
      · rintro code σ₁ ⟨⟩
        refine ⟨hthere, ?_, ?_, ?_, hsees.seen.trans (past_mono hmoves.opened)⟩
        · simp
        · simpa using hsees.pgid
        · rw [view_eq, hcopied, viewOf_congr hlive hmoves.opening]
          exact hsees.table
  | @forkFails p child next choice e f' hcode hfresh hrun =>
      obtain ⟨hreg, σ, hpool, hsees⟩ := h.shell p _ hcode
      have hnew : s.files.registered choice.child = false := hfresh
      have hne : p ≠ choice.child := by
        intro heq
        rw [← heq, hreg] at hnew
        cases hnew
      have hmoves : Moves p s.files f' := ensures_iff.1 (fileCall_moves hfresh) _ _ hrun
      have hs' := integrity_of_run h.integrity hreg hfresh (hbalanced _ rfl) hrun
      obtain ⟨hentries, hregistered, -⟩ := ensures_iff.1 (sysFork_table hne s.files) _ _ hrun
      refine ⟨_, hone (.forkFails hpool), ?_⟩
      refine h.update hs' hmoves (fun q hq => ?_) ⟨Function.update_self .., ?_⟩
      · exact ⟨Function.update_of_ne hq .., fun _ => ⟨rfl, rfl⟩⟩
      · rintro code σ₁ ⟨⟩
        exact ⟨hregistered.trans hreg, hsees.same (live_of_integrity h.integrity hreg) hmoves hentries⟩
  | @dies p r f' hreg hrun =>
      have hfresh : FileCall.Fresh s.files (.exit : FileCall P D N S) := trivial
      have hmoves : Moves p s.files f' := ensures_iff.1 (fileCall_moves hfresh) _ _ hrun
      have hs' := integrity_of_run h.integrity hreg hfresh (hbalanced _ rfl) hrun
      refine ⟨_, hone (.goes p), ?_⟩
      refine h.update hs' hmoves (fun q hq => ?_) ⟨Function.update_self .., by simp⟩
      exact ⟨Function.update_of_ne hq .., fun _ => ⟨rfl, rfl⟩⟩
  | @program p call r f' pid' pgid' hcode hreg hfresh hrun hids =>
      have hmoves : Moves p s.files f' := ensures_iff.1 (fileCall_moves hfresh) _ _ hrun
      have hs' := integrity_of_run h.integrity hreg hfresh (hbalanced _ rfl) hrun
      have hfollows : Keeps { s with files := f', pid := pid', pgid := pgid' } (Function.update pool p none) :=
        h.update hs' hmoves (fun q _ => ⟨rfl, hids q⟩) ⟨hcode, by simp⟩
      rw [Function.update_eq_self_iff.2 (h.programs p hcode).symm] at hfollows
      exact ⟨pool, .nil pool, hfollows⟩

omit [DecidableEq P] [DecidableEq D] [DecidableEq N] [DecidableEq S] in
theorem ready_of_view {n : ℕ} (hstdin : f.entries p STDIN_FILENO ≠ none) (hstdout : f.entries p STDOUT_FILENO ≠ none)
    (hroom : n ≤ freeSlots (f.view p)) : (⟨pid, pgid, f.view p, f.past⟩ : ShProcess (Opening D N S)).Ready n := by
  refine ⟨?_, ?_, hroom, fun i x hx => ?_⟩
  · rwa [Ne, view_eq, viewOf_none_iff _ _ (by decide)]
  · rwa [Ne, view_eq, viewOf_none_iff _ _ (by decide)]
  · change (if i < OPEN_MAX then (f.entries p i).map f.opening else none) = some x at hx
    split_ifs at hx
    · obtain ⟨d, -, rfl⟩ := Option.map_eq_some_iff.1 hx
      exact opening_past f d

/-- However the steps of its processes are interleaved, a session is an evaluation of the code of the shell. -/
theorem runs_of_session {home : Option CString} {lines : List Command} {t : ShSession P D N S}
    {xs : List (Transition (ShSession P D N S) (SessionEvent P D N S))} (hbegins : s.Begins home lines p)
    (hs : DescriptionIntegrity s.files) (run : (sessionSystem P D N S home lines).Run s xs t)
    (hbalanced : ∀ x ∈ xs, x.event.Balanced x.before) :
    Runs (shCalls PipeEnds) (runLines home lines) ⟨s.pid p, s.pgid p, s.files.view p, s.files.past⟩
      (xs.map fun x => x.event.seen).sum none := by
  obtain ⟨hreg, hcode⟩ := hbegins
  have hfollows : Keeps s (Pool.single p (runLines home lines) ⟨s.pid p, s.pgid p, s.files.view p, s.files.past⟩) := by
    refine ⟨hs, fun q hq => ?_, fun q code hq => ?_⟩
    · rw [hcode] at hq
      have hne : q ≠ p := by
        rintro rfl
        simp at hq
      exact Function.update_of_ne hne ..
    · rw [hcode] at hq
      by_cases heq : q = p
      · subst heq
        rw [Function.update_self] at hq
        obtain rfl := Option.some.inj hq
        exact ⟨hreg, _, Function.update_self .., rfl, rfl, rfl, subset_rfl⟩
      · rw [Function.update_of_ne heq] at hq
        cases hq
  have hstep : ∀ t e t' pool, Keeps t pool → SessionEvent.Balanced t e → (sessionSystem P D N S home lines).step t e t' →
      ∃ pool', PoolSteps (shCalls PipeEnds) pool e.seen pool' ∧ Keeps t' pool' :=
    fun _ _ _ _ hfollows hguard hstep => follows_step hfollows hguard hstep
  obtain ⟨L, hruns, htotal⟩ := poolRuns_of_simulation Keeps SessionEvent.seen hstep run hbalanced hfollows
  rw [← htotal]
  exact runs_of_single hruns

/-- What can be seen of a session is what its lines mean, however the steps of its processes are interleaved and whatever
    the programs do with their own descriptors. -/
theorem session_meaning {home : Option CString} {lines : List Command} {t : ShSession P D N S}
    {xs : List (Transition (ShSession P D N S) (SessionEvent P D N S))} (hbegins : s.Begins home lines p)
    (hs : DescriptionIntegrity s.files) (hstdin : s.files.entries p STDIN_FILENO ≠ none)
    (hstdout : s.files.entries p STDOUT_FILENO ≠ none) (hroom : ∀ c ∈ lines, c.slots ≤ freeSlots (s.files.view p))
    (run : (sessionSystem P D N S home lines).Run s xs t) (hbalanced : ∀ x ∈ xs, x.event.Balanced x.before) :
    SessionMeaning PipeEnds lines ⟨s.pid p, s.pgid p, s.files.view p, s.files.past⟩
      (xs.map fun x => x.event.seen).sum :=
  always_runLines home lines (fun c hc => ready_of_view hstdin hstdout (hroom c hc)) _ _
    (runs_of_session hbegins hs run hbalanced)

omit [DecidableEq N] [DecidableEq S] in
/-- A fork for which there is memory. -/
theorem sysFork_allocated (f : Files P D N S) (p child : P) (n : ℕ) :
    Yields (sysFork p ⟨child, n, true, none, true, true, true⟩ : Kernel (Files P D N S) _) f fun r _ => r = .ok n := by
  change Yields (fileDescriptorTableCloneFrom child p true >>= _) f _
  rw [yields_bind]
  have hclone : Yields (fileDescriptorTableCloneFrom child p true : Kernel (Files P D N S) _) f fun r _ => r = .ok () := by
    rw [fileDescriptorTableCloneFrom]
    simp only [Bool.not_true, Bool.false_eq_true, if_false]
    rw [yields_bind, yields_modify, yields_bind]
    refine Yields.mono (Yields.forRange (fun _ _ => True) trivial fun j g _ _ _ => ?_) fun _ _ _ => rfl
    rw [yields_bind, yields_get]
    cases g.entries p j with
    | none => trivial
    | some d => trivial
  refine hclone.mono ?_
  rintro _ g rfl
  exact rfl

/-- One process with a file at its standard descriptors. -/
theorem exists_standardFiles : ∃ f : Files ℕ ℕ ℕ ℕ, DescriptionIntegrity f ∧ f.registered 2 = true ∧
    f.registered 3 = false ∧ f.entries 2 0 = some 0 ∧ f.entries 2 1 = some 0 ∧ f.entries 2 2 = none ∧
    f.entries 2 3 = none := by
  have hcalls : ∃ f g : Files ℕ ℕ ℕ ℕ, Chaotix.openFile.run 2 oneProcess = .ok (.ok 0, f) ∧
      (FileCall.fcntl 0 .F_DUPFD 0 : FileCall ℕ ℕ ℕ ℕ).run 2 f = .ok (.ok 1, g) ∧ f.registered 2 = true ∧
      g.registered 2 = true ∧ g.registered 3 = false ∧ g.entries 2 0 = some 0 ∧ g.entries 2 1 = some 0 ∧
      g.entries 2 2 = none ∧ g.entries 2 3 = none :=
    ⟨_, _, rfl, rfl, rfl, rfl, rfl, rfl, rfl, rfl, rfl⟩
  obtain ⟨f, g, hopen, hdup, hf, hg, hentries⟩ := hcalls
  have hf' : DescriptionIntegrity f :=
    integrity_of_run (descriptionIntegrity_initial oneProcess_initial) rfl openFile_fresh (fun _ => ⟨0, by decide, rfl⟩) hopen
  have hfresh : FileCall.Fresh f (.fcntl 0 .F_DUPFD 0 : FileCall ℕ ℕ ℕ ℕ) := trivial
  have hbalanced : FileCall.Balanced f 2 (.fcntl 0 .F_DUPFD 0 : FileCall ℕ ℕ ℕ ℕ) := trivial
  exact ⟨g, integrity_of_run hf' hf hfresh hbalanced hdup, hg, hentries⟩

/-- A session with a line of one word, up to the program. -/
theorem exists_programSession : ∃ (w : Word) (s t : ShSession ℕ ℕ ℕ ℕ)
    (xs : List (Transition (ShSession ℕ ℕ ℕ ℕ) (SessionEvent ℕ ℕ ℕ ℕ))), s.Begins none [.execute [w]] 2 ∧
      DescriptionIntegrity s.files ∧ s.files.entries 2 STDIN_FILENO ≠ none ∧
      s.files.entries 2 STDOUT_FILENO ≠ none ∧ 2 ≤ freeSlots (s.files.view 2) ∧ (sessionSystem ℕ ℕ ℕ ℕ none [.execute [w]]).Run s xs t ∧
      (∀ x ∈ xs, x.event.Balanced x.before) ∧ ∃ table, .launch 3 3 [w] table ∈ (xs.map fun x => x.event.seen).sum := by
  obtain ⟨f, hf, hreg, hfree, hstdin, hstdout, h₂, h₃⟩ := exists_standardFiles
  let w : Word := ⟨['l'.toUInt8, 's'.toUInt8], by decide, List.all_eq_true.1 rfl⟩
  let s : ShSession ℕ ℕ ℕ ℕ :=
    ⟨f, fun _ => 2, fun _ => 2, Function.update (fun _ => none) 2 (some (runLines none [.execute [w]]))⟩
  obtain ⟨r, g, hfork, rfl⟩ := yields_iff.1 (sysFork_allocated f 2 3 3)
  have hfresh : FileCall.Fresh f (.fork ⟨3, 3, true, none, true, true, true⟩ : FileCall ℕ ℕ ℕ ℕ) := hfree
  have hroom : ({2, 3} : Finset ℕ).card ≤ freeSlots (f.view 2) := by
    refine Finset.card_le_card fun i hi => ?_
    simp only [Finset.mem_insert, Finset.mem_singleton] at hi
    rcases hi with rfl | rfl <;> simp [view_eq, viewOf, OPEN_MAX, h₂, h₃]
  refine ⟨w, s, _, _, ⟨hreg, rfl⟩, hf, by simp [s, hstdin], by simp [s, hstdout], hroom,
    .cons (.call (p := 2) rfl .reap (by simp)) <| .cons (.forks (p := 2) rfl hfresh hfork (by decide)) <|
    .cons (.call (p := 3) rfl .getpid (by simp)) <| .cons (.call (p := 3) rfl (.setpgid _) (by simp)) <|
    .cons (.call (p := 3) rfl (.tcsetpgrp _ 0) (by simp)) <| .cons (.launches (p := 3) rfl) (.nil _), ?_, ?_⟩
  · simp only [List.forall_mem_cons, List.not_mem_nil, false_implies, implies_true, and_true]
    refine ⟨by simp [SessionEvent.Balanced], ?_, by simp [SessionEvent.Balanced], by simp [SessionEvent.Balanced],
      by simp [SessionEvent.Balanced], by simp [SessionEvent.Balanced]⟩
    rintro call ⟨⟩
    exact fun _ _ _ _ hstack => absurd hstack (by decide)
  · simp [recordOf, groupAfter]

/-- A line with one word: the program begins in a group of its own. -/
theorem session_meaning_program : ∃ (w : Word) (s t : ShSession ℕ ℕ ℕ ℕ)
    (xs : List (Transition (ShSession ℕ ℕ ℕ ℕ) (SessionEvent ℕ ℕ ℕ ℕ))), s.Begins none [.execute [w]] 2 ∧
      (sessionSystem ℕ ℕ ℕ ℕ none [.execute [w]]).Run s xs t ∧
      (∃ table, .launch 3 3 [w] table ∈ (xs.map fun x => x.event.seen).sum) ∧
      SessionMeaning PipeEnds [.execute [w]] ⟨s.pid 2, s.pgid 2, s.files.view 2, s.files.past⟩
        (xs.map fun x => x.event.seen).sum := by
  obtain ⟨w, s, t, xs, hbegins, hs, hstdin, hstdout, -, run, hbalanced, hlaunch⟩ := exists_programSession
  refine ⟨w, s, t, xs, hbegins, run, hlaunch,
    session_meaning hbegins hs hstdin hstdout (fun c hc => ?_) run hbalanced⟩
  obtain rfl := List.mem_singleton.1 hc
  exact Nat.zero_le _

end Sessions

end Sh

end Chaotix
