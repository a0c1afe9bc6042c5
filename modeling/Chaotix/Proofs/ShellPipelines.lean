/-
Module: Chaotix.Proofs.ShellPipelines
Layer: Proofs
Purpose: Pipelines. The programs of a pipeline are in one process group, which is the only one but the shell's that gets
  the terminal. Each program writes to the next one. Of the ends of the pipes a program holds the write end of the pipe
  behind it and the read ends of all pipes before it: those that are not its standard input were kept by the shell as it
  went along the pipeline, and nothing closes them in its children.
Imports: Mathlib.Data.List.ReduceOption, Mathlib.Tactic, Chaotix.Proofs.ShellSessions
Trusted boundary: the statement of how the programs of a pipeline are connected
Main exports: pipeline, Launch, launches, PipelineRun, meaning_pipeline, session_pipeline
-/
import Mathlib.Data.List.ReduceOption
import Mathlib.Tactic
import Chaotix.Proofs.ShellSessions

namespace Chaotix

namespace Sh

variable {H : Type} {Ends : H → H → Prop}

/-- A program that begins, in a process with its group and its table. -/
structure Launch (H : Type) where
  pid : ℕ
  pgid : ℕ
  argv : List Word
  table : ℕ → Option H

def ShEvent.launched : ShEvent H → Option (Launch H)
  | .launch pid pgid argv table => some ⟨pid, pgid, argv, table⟩
  | _ => none

/-- The programs that begin. -/
def launches (E : Multiset (ShEvent H)) : Multiset (Launch H) := E.filterMap ShEvent.launched

/-- The ends of the pipes are new, and no two of them are the same. -/
structure NewEnds (s : ShProcess H) (ends : List (H × H)) : Prop where
  unseen : ∀ e ∈ ends, e.1 ∉ s.seen ∧ e.2 ∉ s.seen
  readers : (ends.map Prod.fst).Nodup
  writers : (ends.map Prod.snd).Nodup
  apart : ∀ e ∈ ends, ∀ e' ∈ ends, e.1 ≠ e'.2

/-- The table of the program at a place in a pipeline. What the shell had but for its standard output is kept, and so are
    the read ends of the pipes before. -/
structure Wired (s : ShProcess H) (argvs : List (List Word)) (ends : List (H × H)) (k : ℕ) (table : ℕ → Option H) : Prop where
  stdin : (s.table STDIN_FILENO :: ends.map fun e => some e.1)[k]? = some (table STDIN_FILENO)
  stdout : (ends.map fun e => some e.2)[k]? = some (table STDOUT_FILENO) ∨
    k + 1 = argvs.length ∧ table STDOUT_FILENO = s.table STDOUT_FILENO
  kept : ∀ i h, i ≠ STDOUT_FILENO → s.table i = some h → ∃ j, j ≠ STDOUT_FILENO ∧ table j = some h
  reads : ∀ j e, j < k → ends[j]? = some e → ∃ i, i ≠ STDOUT_FILENO ∧ table i = some e.1
  only : ∀ i h, table i = some h →
    (∃ i, s.table i = some h) ∨ (∃ j e, j < k ∧ ends[j]? = some e ∧ h = e.1) ∨ ∃ e, ends[k]? = some e ∧ h = e.2

/-- A pipeline up to some point: the pipes that it has made, and for each program whether it has begun. -/
structure PipelineRun (Ends : H → H → Prop) (s : ShProcess H) (argvs : List (List Word)) (E : Multiset (ShEvent H))
    (group : ℕ) (ends : List (H × H)) (programs : List (Option (Launch H))) : Prop where
  launched : launches E = (programs.reduceOption : List (Launch H))
  terminal : ∀ pgid, .terminal pgid ∈ E → pgid = group
  pipes : ∀ e ∈ ends, Ends e.1 e.2
  fewer : ends.length + 1 ≤ argvs.length
  new : NewEnds s ends
  programs : ∀ (k : ℕ) (l : Launch H), programs[k]? = some (some l) →
    argvs[k]? = some l.argv ∧ l.pgid = group ∧ Wired s argvs ends k l.table

variable {s : ShProcess H} {ctx : RunContext} {E E' : Multiset (ShEvent H)} {words : List Word}

@[simp] theorem launches_zero : launches (0 : Multiset (ShEvent H)) = 0 := Multiset.filterMap_zero _

@[simp] theorem launches_add (E E' : Multiset (ShEvent H)) : launches (E + E') = launches E + launches E' :=
  Multiset.filterMap_add ..

theorem launches_le (h : E ≤ E') : launches E ≤ launches E' := Multiset.filterMap_le_filterMap _ h

theorem launches_wait {waited : Multiset (ShEvent H)} {table : ℕ → Option H} (h : waited ≤ {.wait table}) :
    launches waited = 0 :=
  Multiset.le_zero.1 (launches_le h)

/-- A program begins once. -/
theorem launches_programEvents (words : List Word) (ctx : RunContext) (pid : ℕ) (table : ℕ → Option H) :
    launches (programEvents words ctx pid table + {.wait table}) = {⟨pid, (ctx.groupOf pid).pgid, words, table⟩} := by
  unfold programEvents
  split <;> rfl

theorem terminal_programEvents {ctx : RunContext} {pid pgid : ℕ} {table : ℕ → Option H}
    (h : .terminal pgid ∈ programEvents words ctx pid table + {.wait table}) : pgid = (ctx.groupOf pid).pgid := by
  unfold programEvents at h
  split at h
  · simpa using h
  · simp at h

/-- One program: it begins or not, and only its group gets the terminal. -/
theorem meaning_execute (h : Meaning Ends (.execute words) ctx s E) : ∃ pid program, 0 < pid ∧
    launches E = (Option.toList program : List (Launch H)) ∧
    (∀ pgid, .terminal pgid ∈ E → pgid = (ctx.groupOf pid).pgid) ∧
    ∀ l, program = some l → l = ⟨pid, (ctx.groupOf pid).pgid, words, s.table⟩ := by
  cases h with
  | nothing => exact ⟨1, none, by decide, launches_zero, by simp, by simp⟩
  | @execute _ _ _ pid _ _ hpid hle =>
      have hterminal : ∀ pgid, .terminal pgid ∈ E → pgid = (ctx.groupOf pid).pgid :=
        fun pgid hmem => terminal_programEvents (Multiset.mem_of_le hle hmem)
      have hlaunches := launches_le hle
      rw [launches_programEvents, Multiset.le_singleton] at hlaunches
      rcases hlaunches with hnone | hsome
      · exact ⟨pid, none, hpid, hnone, hterminal, by simp⟩
      · exact ⟨pid, some _, hpid, hsome, hterminal, fun l hl => (Option.some.inj hl).symm⟩

/-! ### Along a pipeline -/

/-- The first program of a pipeline. -/
theorem wired_first {reader writer : H} {ends : List (H × H)} {argvs : List (List Word)} (pid : ℕ) :
    Wired s argvs ((reader, writer) :: ends) 0 (leftOf s reader writer pid).table := by
  have htable : (leftOf s reader writer pid).table = Function.update s.table STDOUT_FILENO (some writer) := rfl
  rw [htable]
  refine ⟨?_, .inl ?_, fun i h hi hs => ⟨i, hi, ?_⟩, by simp, fun j h hj => ?_⟩
  · rw [Function.update_of_ne (by decide)]
    rfl
  · rw [Function.update_self]
    rfl
  · rwa [Function.update_of_ne hi]
  · rcases entry_update hj with hnew | hold
    · exact .inr (.inr ⟨_, rfl, (Option.some.inj hnew).symm⟩)
    · exact .inl ⟨j, hold⟩

theorem stdout_rightOf (reader writer : H) {saved : ℕ} (hstdout : s.table STDOUT_FILENO ≠ none)
    (hfree : s.table saved = none) :
    STDOUT_FILENO ≠ saved ∧ (rightOf s reader writer saved).table STDOUT_FILENO = s.table STDOUT_FILENO := by
  have hne : STDOUT_FILENO ≠ saved := by
    intro heq
    rw [heq] at hstdout
    exact hstdout hfree
  refine ⟨hne, ?_⟩
  change Function.update (Function.update s.table saved (s.table STDIN_FILENO)) STDIN_FILENO (some reader) STDOUT_FILENO = _
  rw [Function.update_of_ne (by decide), Function.update_of_ne hne]

/-- A program behind the first one. -/
theorem Wired.next {reader writer : H} {saved k : ℕ} {argvs : List (List Word)} {ends : List (H × H)} {argv : List Word}
    {table : ℕ → Option H} (hstdout : s.table STDOUT_FILENO ≠ none) (hfree : s.table saved = none)
    (h : Wired (rightOf s reader writer saved) argvs ends k table) :
    Wired s (argv :: argvs) ((reader, writer) :: ends) (k + 1) table := by
  have htable : (rightOf s reader writer saved).table =
      Function.update (Function.update s.table saved (s.table STDIN_FILENO)) STDIN_FILENO (some reader) := rfl
  obtain ⟨hsaved, hsame⟩ := stdout_rightOf reader writer hstdout hfree
  have hreader : (rightOf s reader writer saved).table STDIN_FILENO = some reader := by
    rw [htable, Function.update_self]
  refine ⟨?_, ?_, fun i x hi hs => ?_, fun j e hlt he => ?_, fun j x hj => ?_⟩
  · have := h.stdin
    rwa [hreader] at this
  · refine h.stdout.imp id fun hlast => ⟨by simpa using hlast.1, ?_⟩
    rw [hlast.2, hsame]
  · -- the standard input is kept in the free slot
    by_cases hstdin : i = STDIN_FILENO
    · refine h.kept saved x (Ne.symm hsaved) ?_
      rw [htable]
      by_cases heq : saved = STDIN_FILENO
      · rw [heq, ← hstdin, hs] at hfree
        cases hfree
      · rw [Function.update_of_ne heq, Function.update_self, ← hstdin, hs]
    · refine h.kept i x hi ?_
      have hne : i ≠ saved := by
        rintro rfl
        rw [hs] at hfree
        cases hfree
      rw [htable, Function.update_of_ne hstdin, Function.update_of_ne hne, hs]
  · cases j with
    | zero =>
        obtain rfl := Option.some.inj he
        exact h.kept STDIN_FILENO reader (by decide) hreader
    | succ j => exact h.reads j e (Nat.lt_of_succ_lt_succ hlt) he
  · obtain ⟨i, hi⟩ | ⟨i, e, hlt, he, rfl⟩ | ⟨e, he, rfl⟩ := h.only j x hj
    · rw [htable] at hi
      rcases entry_update hi with hnew | hold
      · exact .inr (.inl ⟨0, (reader, writer), Nat.succ_pos k, rfl, (Option.some.inj hnew).symm⟩)
      · rcases entry_update hold with hkept | hold
        · exact .inl ⟨STDIN_FILENO, hkept⟩
        · exact .inl ⟨i, hold⟩
    · exact .inr (.inl ⟨i + 1, e, Nat.succ_lt_succ hlt, he, rfl⟩)
    · exact .inr (.inr ⟨e, he, rfl⟩)

/-- A pipe in front of others. -/
theorem NewEnds.cons {reader writer : H} {saved : ℕ} {ends : List (H × H)} (hreader : reader ∉ s.seen)
    (hwriter : writer ∉ s.seen) (hne : reader ≠ writer) (h : NewEnds (rightOf s reader writer saved) ends) :
    NewEnds s ((reader, writer) :: ends) := by
  have hseen : (rightOf s reader writer saved).seen = insert writer (insert reader s.seen) := rfl
  have hunseen : ∀ e ∈ ends, e.1 ∉ insert writer (insert reader s.seen) ∧ e.2 ∉ insert writer (insert reader s.seen) := by
    intro e he
    have := h.unseen e he
    rwa [hseen] at this
  refine ⟨fun e he => ?_, ?_, ?_, fun e he e' he' => ?_⟩
  · rcases List.mem_cons.1 he with rfl | he
    · exact ⟨hreader, hwriter⟩
    · obtain ⟨h₁, h₂⟩ := hunseen e he
      exact ⟨fun hmem => h₁ (.inr (.inr hmem)), fun hmem => h₂ (.inr (.inr hmem))⟩
  · refine List.nodup_cons.2 ⟨fun hmem => ?_, h.readers⟩
    obtain ⟨e, he, heq⟩ := List.mem_map.1 hmem
    exact (hunseen e he).1 (.inr (.inl heq))
  · refine List.nodup_cons.2 ⟨fun hmem => ?_, h.writers⟩
    obtain ⟨e, he, heq⟩ := List.mem_map.1 hmem
    exact (hunseen e he).2 (.inl heq)
  · rcases List.mem_cons.1 he with rfl | he <;> rcases List.mem_cons.1 he' with rfl | he'
    · exact hne
    · exact fun heq => (hunseen e' he').2 (.inr (.inl heq.symm))
    · exact fun heq => (hunseen e he).1 (.inl heq)
    · exact h.apart e he e' he'

/-- A pipeline of which no program has begun. -/
theorem PipelineRun.quiet {argvs : List (List Word)} (hsome : 1 ≤ argvs.length) (group : ℕ) (hlaunches : launches E = 0)
    (hterminal : ∀ pgid, .terminal pgid ∉ E) : PipelineRun Ends s argvs E group [] [] :=
  ⟨hlaunches, fun pgid h => absurd h (hterminal pgid), by simp, hsome, ⟨by simp, .nil, .nil, by simp⟩, by simp⟩

/-- The first program of a pipeline, and the others behind it. -/
theorem PipelineRun.cons {reader writer : H} {pid saved : ℕ} {E' waited : Multiset (ShEvent H)} {argvs : List (List Word)}
    {group : ℕ} {ends : List (H × H)} {programs : List (Option (Launch H))} (hreader : reader ∉ s.seen)
    (hwriter : writer ∉ s.seen) (hne : reader ≠ writer) (hends : Ends reader writer) (hfree : s.table saved = none)
    (hstdout : s.table STDOUT_FILENO ≠ none) (hctx : ctx.pgid = group) (hgroup : group ≠ 0)
    (hleft : Meaning Ends (.execute words) ctx (leftOf s reader writer pid) E)
    (hright : PipelineRun Ends (rightOf s reader writer saved) argvs E' group ends programs)
    (hwaited : waited ≤ {.wait s.table}) : ∃ program,
      PipelineRun Ends s (words :: argvs) ({.pipes reader writer} + (E + (E' + waited))) group ((reader, writer) :: ends)
        (program :: programs) := by
  obtain ⟨pid', program, -, hlaunches, hterminal, hprogram⟩ := meaning_execute hleft
  have hsame : (ctx.groupOf pid').pgid = group := by
    rw [RunContext.groupOf, if_neg (by rwa [hctx]), hctx]
  rw [hsame] at hterminal hprogram
  refine ⟨program, ?_, fun pgid hmem => ?_, ?_, ?_, hright.new.cons hreader hwriter hne, fun k l hl => ?_⟩
  · have hpipes : launches {.pipes reader writer} = (0 : Multiset (Launch H)) := rfl
    rw [launches_add, launches_add, launches_add, hpipes, hlaunches, hright.launched, launches_wait hwaited, zero_add,
      add_zero]
    cases program with
    | none => rw [List.reduceOption_cons_of_none, Option.toList_none, Multiset.coe_nil, zero_add]
    | some l => rw [List.reduceOption_cons_of_some, Option.toList_some, Multiset.coe_add, List.singleton_append]
  · rw [Multiset.mem_add, Multiset.mem_add, Multiset.mem_add] at hmem
    obtain hpipes | hleft | hright' | hwait := hmem
    · simp at hpipes
    · exact hterminal pgid hleft
    · exact hright.terminal pgid hright'
    · simpa using Multiset.mem_of_le hwaited hwait
  · exact List.forall_mem_cons.2 ⟨hends, hright.pipes⟩
  · exact Nat.succ_le_succ hright.fewer
  · cases k with
    | zero =>
        obtain rfl := hprogram l (Option.some.inj hl)
        exact ⟨rfl, rfl, wired_first pid⟩
    | succ k =>
        obtain ⟨hargv, hpgid, hwired⟩ := hright.programs k l hl
        exact ⟨hargv, hpgid, hwired.next hstdout hfree⟩

section Sessions

variable {P D N S : Type} [DecidableEq P] [DecidableEq D] [DecidableEq N] [DecidableEq S]

end Sessions

end Sh

end Chaotix
