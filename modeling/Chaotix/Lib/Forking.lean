/-
Module: Chaotix.Lib.Forking
Layer: Lib
Purpose: Programs that make calls and fork, where each process has a state of its own. `Runs` evaluates a program with
  everything that it forks, up to any point, and collects what the calls record. `Always` is what holds of every
  evaluation, with one rule for each way to build a program. However the steps of the processes are interleaved, what
  they have recorded is one evaluation of the program that they have come from.
Imports: Mathlib.Tactic, Chaotix.Lib.Transition
Trusted boundary: none
Main exports: Proc, Calls, Runs, Always, always_call, always_fork, always_bind, Pool, PoolSteps,
  PoolRuns, poolRuns_of_simulation, runs_of_single
-/
import Mathlib.Tactic
import Chaotix.Lib.Transition

/-- A program: it makes a call and goes on with the answer, or forks, or is over. The code of a child does not come back
    to the one behind the fork; for the parent that goes on with the number of the child, or with none. -/
inductive Proc (C : Type) (A : C → Type) : Type → Type 1 where
  | pure {α : Type} (a : α) : Proc C A α
  | call {α : Type} (c : C) (next : A c → Proc C A α) : Proc C A α
  | fork {α : Type} (child : Proc C A Empty) (next : Option ℕ → Proc C A α) : Proc C A α
  | stop {α : Type} : Proc C A α

namespace Proc

variable {C : Type} {A : C → Type} {α β : Type}

/-- One program behind another. -/
def bind : {α : Type} → Proc C A α → (α → Proc C A β) → Proc C A β
  | _, .pure a, f => f a
  | _, .call c next, f => .call c fun a => (next a).bind f
  | _, .fork child next, f => .fork child fun pid => (next pid).bind f
  | _, .stop, _ => .stop

instance : Monad (Proc C A) where
  pure := Proc.pure
  bind := Proc.bind

@[simp] theorem bind_eq (p : Proc C A α) (f : α → Proc C A β) : p >>= f = p.bind f := rfl

@[simp] theorem pure_eq (a : α) : (Pure.pure a : Proc C A α) = .pure a := rfl

@[simp] theorem bind_pure (a : α) (f : α → Proc C A β) : (Proc.pure a : Proc C A α).bind f = f a := rfl

@[simp] theorem bind_stop (f : α → Proc C A β) : (Proc.stop : Proc C A α).bind f = .stop := rfl

@[simp] theorem bind_fork (child : Proc C A Empty) (next : Option ℕ → Proc C A α) (f : α → Proc C A β) :
    (Proc.fork child next).bind f = .fork child fun pid => (next pid).bind f := rfl

@[simp] theorem bind_call (c : C) (next : A c → Proc C A α) (f : α → Proc C A β) :
    (Proc.call c next).bind f = .call c fun a => (next a).bind f := rfl

end Proc

/-- What calls do: the answers that a process may get, what is recorded of the call, and its state afterwards; and the
    state of a child with its number. -/
structure Calls (C : Type) (A : C → Type) (σ ε : Type) where
  step : σ → (c : C) → A c → Multiset ε → σ → Prop
  child : σ → ℕ → σ → Prop

section Evaluation

variable {C : Type} {A : C → Type} {σ ε : Type} (M : Calls C A σ ε)

/-- An evaluation of a program with everything that it forks, up to any point in each of the processes: what is recorded,
    and the result if the program itself is through. -/
inductive Runs : {α : Type} → Proc C A α → σ → Multiset ε → Option (α × σ) → Prop where
  | here {α : Type} (p : Proc C A α) (s : σ) : Runs p s 0 none
  | pure {α : Type} (a : α) (s : σ) : Runs (.pure a) s 0 (some (a, s))
  | call {α : Type} {c s a E s' E' r} {next : A c → Proc C A α} : M.step s c a E s' → Runs (next a) s' E' r →
      Runs (.call c next) s (E + E') r
  | fork {α : Type} {s pid s' E E' r child} {next : Option ℕ → Proc C A α} : M.child s pid s' → Runs child s' E none →
      Runs (next (some pid)) s E' r → Runs (.fork child next) s (E + E') r
  | forkFails {α : Type} {s E r child} {next : Option ℕ → Proc C A α} : Runs (next none) s E r →
      Runs (.fork child next) s E r

variable {α β : Type}

/-- Something holds of what is recorded and of the result in every evaluation. -/
def Always (p : Proc C A α) (s : σ) (post : Multiset ε → Option (α × σ) → Prop) : Prop :=
  ∀ E r, Runs M p s E r → post E r

variable {M} {s : σ} {post post' : Multiset ε → Option (α × σ) → Prop}

theorem Always.mono {p : Proc C A α} (h : Always M p s post) (himp : ∀ E r, post E r → post' E r) :
    Always M p s post' :=
  fun E r hruns => himp E r (h E r hruns)

theorem always_pure {a : α} : Always M (.pure a) s post ↔ post 0 none ∧ post 0 (some (a, s)) := by
  constructor
  · intro h
    exact ⟨h _ _ (.here _ _), h _ _ (.pure a s)⟩
  · rintro ⟨hhere, hdone⟩ E r hruns
    cases hruns with
    | here => exact hhere
    | pure => exact hdone

theorem always_stop : Always M (.stop : Proc C A α) s post ↔ post 0 none := by
  constructor
  · exact fun h => h _ _ (.here _ _)
  · intro h E r hruns
    cases hruns with
    | here => exact h

theorem always_call {c : C} {next : A c → Proc C A α} :
    Always M (.call c next) s post ↔
      post 0 none ∧ ∀ a E s', M.step s c a E s' → Always M (next a) s' fun E' r => post (E + E') r := by
  constructor
  · intro h
    exact ⟨h _ _ (.here _ _), fun a E s' hstep E' r hruns => h _ _ (.call hstep hruns)⟩
  · rintro ⟨hhere, hnext⟩ E r hruns
    cases hruns with
    | here => exact hhere
    | call hstep hruns => exact hnext _ _ _ hstep _ _ hruns

theorem always_fork {child : Proc C A Empty} {next : Option ℕ → Proc C A α} :
    Always M (.fork child next) s post ↔
      post 0 none ∧ Always M (next none) s post ∧ ∀ pid s', M.child s pid s' →
        Always M child s' fun E _ => Always M (next (some pid)) s fun E' r => post (E + E') r := by
  constructor
  · intro h
    refine ⟨h _ _ (.here _ _), fun E r hruns => h _ _ (.forkFails hruns), ?_⟩
    intro pid s' hchild E r hruns E' r' hruns'
    rcases r with - | ⟨⟨⟩, -⟩
    exact h _ _ (.fork hchild hruns hruns')
  · rintro ⟨hhere, hfails, hforks⟩ E r hruns
    cases hruns with
    | here => exact hhere
    | fork hchild hruns hruns' => exact hforks _ _ hchild _ _ hruns _ _ hruns'
    | forkFails hruns => exact hfails _ _ hruns

/-- An evaluation of two programs is one of the first, and if that is through, one of the second. -/
theorem runs_bind {p : Proc C A α} {f : α → Proc C A β} {E : Multiset ε} {r : Option (β × σ)}
    (h : Runs M (p.bind f) s E r) :
    (r = none ∧ Runs M p s E none) ∨ ∃ a s' E₁ E₂, E = E₁ + E₂ ∧ Runs M p s E₁ (some (a, s')) ∧ Runs M (f a) s' E₂ r := by
  induction p generalizing s E r with
  | pure a => exact .inr ⟨a, s, 0, E, (zero_add E).symm, .pure a s, h⟩
  | stop =>
      cases h with
      | here => exact .inl ⟨rfl, .here _ s⟩
  | call c next ih =>
      cases h with
      | here => exact .inl ⟨rfl, .here _ s⟩
      | @call _ _ _ a E₀ s₁ E' _ _ hstep hruns =>
          obtain ⟨rfl, hfirst⟩ | ⟨b, s', E₁, E₂, rfl, hfirst, hsecond⟩ := ih a hruns
          · exact .inl ⟨rfl, .call hstep hfirst⟩
          · exact .inr ⟨b, s', E₀ + E₁, E₂, (add_assoc ..).symm, .call hstep hfirst, hsecond⟩
  | fork child next _ ih =>
      cases h with
      | here => exact .inl ⟨rfl, .here _ s⟩
      | @fork _ _ pid s₁ E₀ E' _ _ _ hchild hruns hruns' =>
          obtain ⟨rfl, hfirst⟩ | ⟨b, s', E₁, E₂, rfl, hfirst, hsecond⟩ := ih (some pid) hruns'
          · exact .inl ⟨rfl, .fork hchild hruns hfirst⟩
          · exact .inr ⟨b, s', E₀ + E₁, E₂, (add_assoc ..).symm, .fork hchild hruns hfirst, hsecond⟩
      | forkFails hruns =>
          obtain ⟨rfl, hfirst⟩ | ⟨b, s', E₁, E₂, rfl, hfirst, hsecond⟩ := ih none hruns
          · exact .inl ⟨rfl, .forkFails hfirst⟩
          · exact .inr ⟨b, s', E₁, E₂, rfl, .forkFails hfirst, hsecond⟩

/-- The rule for sequences. -/
theorem always_bind {p : Proc C A α} {f : α → Proc C A β} {post : Multiset ε → Option (β × σ) → Prop}
    {mid : Multiset ε → Option (α × σ) → Prop} (hp : Always M p s mid) (hstop : ∀ E, mid E none → post E none)
    (hf : ∀ E a s', mid E (some (a, s')) → Always M (f a) s' fun E' r => post (E + E') r) :
    Always M (p.bind f) s post := by
  intro E r hruns
  obtain ⟨rfl, hfirst⟩ | ⟨a, s', E₁, E₂, rfl, hfirst, hsecond⟩ := runs_bind hruns
  · exact hstop E (hp _ _ hfirst)
  · exact hf E₁ a s' (hp _ _ hfirst) E₂ r hsecond

end Evaluation

section Pools

variable {ι C : Type} {A : C → Type} {σ ε : Type} [DecidableEq ι]

/-- Processes with their programs and states. -/
abbrev Pool (ι C : Type) (A : C → Type) (σ : Type) := ι → Option (Proc C A Empty × σ)

/-- A pool of one process. -/
def Pool.single (i : ι) (p : Proc C A Empty) (s : σ) : Pool ι C A σ := Function.update (fun _ => none) i (some (p, s))

/-- One of the processes takes a step, with what that records. A process may go at any time. -/
inductive PoolStep (M : Calls C A σ ε) : Pool ι C A σ → Multiset ε → Pool ι C A σ → Prop where
  | call {pool i c next s a E s'} : pool i = some (.call c next, s) → M.step s c a E s' →
      PoolStep M pool E (Function.update pool i (some (next a, s')))
  | fork {pool i child next s j pid s'} : pool i = some (.fork child next, s) → pool j = none → M.child s pid s' →
      PoolStep M pool 0 (Function.update (Function.update pool i (some (next (some pid), s))) j (some (child, s')))
  | forkFails {pool i child next s} : pool i = some (.fork child next, s) →
      PoolStep M pool 0 (Function.update pool i (some (next none, s)))
  | goes {pool} (i : ι) : PoolStep M pool 0 (Function.update pool i none)

/-- Any number of steps. -/
inductive PoolSteps (M : Calls C A σ ε) : Pool ι C A σ → Multiset ε → Pool ι C A σ → Prop where
  | nil (pool) : PoolSteps M pool 0 pool
  | cons {pool pool' pool'' E E'} : PoolStep M pool E pool' → PoolSteps M pool' E' pool'' →
      PoolSteps M pool (E + E') pool''

/-- What the processes of a pool record, as one evaluation for each of them. -/
def PoolRuns (M : Calls C A σ ε) (pool : Pool ι C A σ) (L : ι →₀ Multiset ε) : Prop :=
  ∀ i, (pool i = none → L i = 0) ∧ ∀ p s, pool i = some (p, s) → Runs M p s (L i) none

/-- Everything that is recorded. -/
noncomputable def total (L : ι →₀ Multiset ε) : Multiset ε := L.sum fun _ E => E

omit [DecidableEq ι] in
theorem total_add (L L' : ι →₀ Multiset ε) : total (L + L') = total L + total L' :=
  Finsupp.sum_add_index' (fun _ => rfl) fun _ _ _ => rfl

omit [DecidableEq ι] in
theorem total_single (i : ι) (E : Multiset ε) : total (Finsupp.single i E) = E := Finsupp.sum_single_index rfl

variable {M : Calls C A σ ε} {pool pool' : Pool ι C A σ} {E : Multiset ε} {L' : ι →₀ Multiset ε}

/-- What a step records belongs to the process that takes it, and what a child records to its parent. -/
theorem poolRuns_step (h : PoolStep M pool E pool') (hruns : PoolRuns M pool' L') :
    ∃ L, PoolRuns M pool L ∧ total L = E + total L' := by
  cases h with
  | @call i c next s a _ s' hi hstep =>
      refine ⟨Finsupp.single i E + L', fun j => ?_, by rw [total_add, total_single]⟩
      obtain ⟨hnone, hsome⟩ := hruns j
      by_cases hj : j = i
      · subst hj
        rw [hi]
        refine ⟨by simp, ?_⟩
        rintro p t ⟨⟩
        rw [Finsupp.add_apply, Finsupp.single_eq_same]
        exact .call hstep (hsome _ _ (Function.update_self ..))
      · rw [Function.update_of_ne hj] at hnone hsome
        rw [Finsupp.add_apply, Finsupp.single_eq_of_ne hj, zero_add]
        exact ⟨hnone, hsome⟩
  | @fork i child next s j pid s' hi hj hchild =>
      have hne : i ≠ j := by
        rintro rfl
        simp [hi] at hj
      have herase : L' = L'.erase j + Finsupp.single j (L' j) := (Finsupp.erase_add_single j L').symm
      refine ⟨Finsupp.single i (L' j) + L'.erase j, fun k => ?_, ?_⟩
      · obtain ⟨hnone, hsome⟩ := hruns k
        by_cases hk : k = i
        · subst hk
          rw [hi]
          refine ⟨by simp, ?_⟩
          rintro p t ⟨⟩
          rw [Finsupp.add_apply, Finsupp.single_eq_same, Finsupp.erase_ne hne]
          have hparent := hsome _ _ (by rw [Function.update_of_ne hne, Function.update_self])
          exact .fork hchild ((hruns j).2 _ _ (Function.update_self ..)) hparent
        · rw [Finsupp.add_apply, Finsupp.single_eq_of_ne hk, zero_add]
          by_cases hkj : k = j
          · subst hkj
            rw [hj, Finsupp.erase_same]
            exact ⟨fun _ => rfl, by simp⟩
          · rw [Function.update_of_ne hkj, Function.update_of_ne hk] at hnone hsome
            rw [Finsupp.erase_ne hkj]
            exact ⟨hnone, hsome⟩
      · rw [zero_add, total_add, total_single]
        conv_rhs => rw [herase, total_add, total_single]
        exact add_comm _ _
  | @forkFails i child next s hi =>
      refine ⟨L', fun j => ?_, (zero_add _).symm⟩
      obtain ⟨hnone, hsome⟩ := hruns j
      by_cases hj : j = i
      · subst hj
        rw [hi]
        refine ⟨by simp, ?_⟩
        rintro p t ⟨⟩
        exact .forkFails (hsome _ _ (Function.update_self ..))
      · rw [Function.update_of_ne hj] at hnone hsome
        exact ⟨hnone, hsome⟩
  | goes i =>
      refine ⟨L', fun j => ?_, (zero_add _).symm⟩
      obtain ⟨hnone, hsome⟩ := hruns j
      by_cases hj : j = i
      · subst hj
        have hzero := hnone (Function.update_self ..)
        rw [hzero]
        exact ⟨fun _ => rfl, fun p t _ => .here p t⟩
      · rw [Function.update_of_ne hj] at hnone hsome
        exact ⟨hnone, hsome⟩

theorem poolRuns_steps (h : PoolSteps M pool E pool') (hruns : PoolRuns M pool' L') :
    ∃ L, PoolRuns M pool L ∧ total L = E + total L' := by
  induction h with
  | nil pool => exact ⟨L', hruns, (zero_add _).symm⟩
  | cons hstep _ ih =>
      obtain ⟨L₁, hruns₁, htotal₁⟩ := ih hruns
      obtain ⟨L, hruns', htotal⟩ := poolRuns_step hstep hruns₁
      exact ⟨L, hruns', by rw [htotal, htotal₁, add_assoc]⟩

/-- A system whose steps are steps of a pool: however they are interleaved, what a run records is one evaluation for each
    of the processes with which it begins. -/
theorem poolRuns_of_simulation {τ κ : Type*} {S : TransitionSystem τ κ} (R : τ → Pool ι C A σ → Prop)
    (record : κ → Multiset ε) {guard : τ → κ → Prop}
    (hstep : ∀ t e t' pool, R t pool → guard t e → S.step t e t' → ∃ pool', PoolSteps M pool (record e) pool' ∧ R t' pool')
    {t t' : τ} {xs : List (Transition τ κ)} (run : S.Run t xs t') (hguard : ∀ x ∈ xs, guard x.before x.event)
    (hR : R t pool) : ∃ L, PoolRuns M pool L ∧ total L = (xs.map fun x => record x.event).sum := by
  induction run generalizing pool with
  | nil t => exact ⟨0, fun _ => ⟨fun _ => rfl, fun p s _ => .here p s⟩, Finsupp.sum_zero_index⟩
  | cons hfirst _ ih =>
      obtain ⟨hguard₁, hguards⟩ := List.forall_mem_cons.1 hguard
      obtain ⟨pool₁, hsteps, hR₁⟩ := hstep _ _ _ _ hR hguard₁ hfirst
      obtain ⟨L₁, hruns₁, htotal₁⟩ := ih hguards hR₁
      obtain ⟨L, hruns, htotal⟩ := poolRuns_steps hsteps hruns₁
      exact ⟨L, hruns, by rw [htotal, htotal₁, List.map_cons, List.sum_cons]⟩

/-- What comes from one process is one evaluation of its program. -/
theorem runs_of_single {i : ι} {p : Proc C A Empty} {s : σ} {L : ι →₀ Multiset ε}
    (hruns : PoolRuns M (Pool.single i p s) L) : Runs M p s (total L) none := by
  have hsingle : L = Finsupp.single i (L i) := by
    ext1 j
    by_cases hj : j = i
    · rw [hj, Finsupp.single_eq_same]
    · rw [Finsupp.single_eq_of_ne hj]
      exact (hruns j).1 (Function.update_of_ne hj ..)
  rw [hsingle, total_single]
  exact (hruns i).2 p s (Function.update_self ..)

end Pools
