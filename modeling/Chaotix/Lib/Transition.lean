/-
Module: Chaotix.Lib.Transition
Layer: Lib
Purpose: Labelled transition systems and their finite runs. A run records every transition it takes, so
  a statement can speak about each step and about each state reached. The guarded invariant rule: an
  invariant that every guarded step keeps holds all along a run whose steps are guarded. The relation rule
  does the same for a relation between earlier and later states. The simulation rule turns such a run into
  a run of another system. The queue rule and the collection rule are about what
  the steps of a run put and take. The exact form of the invariant rule: when an
  unguarded step always breaks the step property, the runs that keep the property are exactly the
  guarded ones. A list of events can be played to obtain a run. A system can be observed by a function of
  its events, and every run has its observation.
Imports: none (Mathlib-free)
Trusted boundary: none
Main exports: TransitionSystem, Transition, TransitionSystem.Run, Run.step_of_mem, Run.suffix, Run.snoc,
  Run.guarded_queue, Run.queue, Run.guarded_collect, Run.guarded_invariant, Run.invariant,
  Run.guarded_invariant_mem, Run.guarded_relation, Run.simulates, Run.guarded_iff, Run.of_play, observed,
  Run.observe
-/

universe u v

/-- A labelled transition system: its initial states and its steps. -/
structure TransitionSystem (σ : Type u) (ε : Type v) where
  init : σ → Prop
  step : σ → ε → σ → Prop

/-- One transition of a run. -/
structure Transition (σ : Type u) (ε : Type v) where
  before : σ
  event : ε
  after : σ

namespace TransitionSystem

variable {σ : Type u} {ε : Type v} {M : TransitionSystem σ ε}

/-- A finite run from one state to another, with the transitions it takes in order. -/
inductive Run (M : TransitionSystem σ ε) : σ → List (Transition σ ε) → σ → Prop where
  | nil (s : σ) : Run M s [] s
  | cons {s e s' xs t} : M.step s e s' → Run M s' xs t → Run M s (⟨s, e, s'⟩ :: xs) t

namespace Run

/-- Every recorded transition is a step of the system. -/
theorem step_of_mem {s t : σ} {xs : List (Transition σ ε)} (run : Run M s xs t) :
    ∀ x ∈ xs, M.step x.before x.event x.after := by
  induction run with
  | nil s => simp
  | cons hstep _ ih =>
      intro x hx
      rcases List.mem_cons.1 hx with rfl | hx
      · exact hstep
      · exact ih x hx

/-- A run can be cut before each of its transitions. -/
theorem suffix {s t : σ} {xs : List (Transition σ ε)} (run : Run M s xs t) :
    ∀ x ∈ xs, ∃ ys, Run M x.before ys t := by
  induction run with
  | nil s => simp
  | cons hstep rest ih =>
      intro x hx
      rcases List.mem_cons.1 hx with rfl | hx
      · exact ⟨_, .cons hstep rest⟩
      · exact ih x hx

/-- A run and one more step. -/
theorem snoc {s t u : σ} {xs : List (Transition σ ε)} (run : Run M s xs t) {e : ε} (hstep : M.step t e u) :
    Run M s (xs ++ [⟨t, e, u⟩]) u := by
  induction run with
  | nil s => exact .cons hstep (.nil u)
  | cons hfirst _ ih => exact .cons hfirst (ih hstep)

/-- The queue rule: when every guarded step puts elements behind the contents and takes elements from their
    front, what a run has taken and what is left are what was there and what it has put, in order. -/
theorem guarded_queue {α : Type u} (contents : σ → List α → Prop) (put got : ε → List α)
    {guard : σ → ε → Prop}
    (keeps : ∀ s e s' q, contents s q → guard s e → M.step s e s' →
      ∃ q', contents s' q' ∧ q ++ put e = got e ++ q')
    {s t : σ} {xs : List (Transition σ ε)} (run : Run M s xs t) {q : List α} (hs : contents s q)
    (hguard : ∀ x ∈ xs, guard x.before x.event) :
    ∃ q', contents t q' ∧
      q ++ xs.flatMap (fun x => put x.event) = xs.flatMap (fun x => got x.event) ++ q' := by
  induction run generalizing q with
  | nil s => exact ⟨q, hs, by simp⟩
  | cons hstep _ ih =>
      obtain ⟨q1, hq1, hfirst⟩ := keeps _ _ _ q hs (hguard _ List.mem_cons_self) hstep
      obtain ⟨q2, hq2, hrest⟩ := ih hq1 fun x hx => hguard x (List.mem_cons_of_mem _ hx)
      refine ⟨q2, hq2, ?_⟩
      rw [List.flatMap_cons, List.flatMap_cons, ← List.append_assoc, hfirst, List.append_assoc, hrest,
        List.append_assoc]

/-- The queue rule for contents that are a function of the state. -/
theorem queue {α : Type u} (contents : σ → List α) (put got : ε → List α)
    (keeps : ∀ s e s', M.step s e s' → contents s ++ put e = got e ++ contents s') {s t : σ}
    {xs : List (Transition σ ε)} (run : Run M s xs t) :
    contents s ++ xs.flatMap (fun x => put x.event) = xs.flatMap (fun x => got x.event) ++ contents t := by
  obtain ⟨q, rfl, h⟩ := run.guarded_queue (fun s q => contents s = q) put got
    (fun s e s' q hq (_ : True) hstep => ⟨contents s', rfl, hq ▸ keeps s e s' hstep⟩) rfl fun _ _ => trivial
  exact h

/-- The collection rule: what the guarded steps of a run put, in order, has every property of a state and a
    list that each step keeps. -/
theorem guarded_collect {α : Type u} (collected : σ → List α → Prop) (put : ε → List α)
    {guard : σ → ε → Prop}
    (keeps : ∀ s e s' l, collected s l → guard s e → M.step s e s' → collected s' (l ++ put e))
    {s t : σ} {xs : List (Transition σ ε)} (run : Run M s xs t) (hs : collected s [])
    (hguard : ∀ x ∈ xs, guard x.before x.event) : collected t (xs.flatMap fun x => put x.event) := by
  obtain ⟨l, hl, heq⟩ := run.guarded_queue collected put (fun _ => [])
    (fun s e s' l hl hg hstep => ⟨l ++ put e, keeps s e s' l hl hg hstep, rfl⟩) hs hguard
  have hnil : xs.flatMap (fun _ => ([] : List α)) = [] := by simp
  rw [hnil, List.nil_append, List.nil_append] at heq
  exact heq ▸ hl

/-- The guarded invariant rule: an invariant kept by every guarded step holds at the end of every run
    whose steps are all guarded. -/
theorem guarded_invariant (Inv : σ → Prop) {guard : σ → ε → Prop}
    (keeps : ∀ s e s', Inv s → guard s e → M.step s e s' → Inv s')
    {s t : σ} {xs : List (Transition σ ε)} (run : Run M s xs t) (hs : Inv s)
    (hguard : ∀ x ∈ xs, guard x.before x.event) : Inv t := by
  induction run with
  | nil s => exact hs
  | cons hstep _ ih =>
      have hhead := hguard _ List.mem_cons_self
      exact ih (keeps _ _ _ hs hhead hstep) fun x hx => hguard x (List.mem_cons_of_mem _ hx)

/-- The invariant rule: an invariant kept by every step holds at the end of every run. -/
theorem invariant (Inv : σ → Prop) (keeps : ∀ s e s', Inv s → M.step s e s' → Inv s')
    {s t : σ} {xs : List (Transition σ ε)} (run : Run M s xs t) (hs : Inv s) : Inv t :=
  run.guarded_invariant Inv (fun s e s' inv (_ : True) => keeps s e s' inv) hs fun _ _ => trivial

/-- The invariant holds on both sides of every transition of a guarded run. -/
theorem guarded_invariant_mem (Inv : σ → Prop) {guard : σ → ε → Prop}
    (keeps : ∀ s e s', Inv s → guard s e → M.step s e s' → Inv s')
    {s t : σ} {xs : List (Transition σ ε)} (run : Run M s xs t) (hs : Inv s)
    (hguard : ∀ x ∈ xs, guard x.before x.event) :
    ∀ x ∈ xs, Inv x.before ∧ Inv x.after := by
  induction run with
  | nil s => simp
  | cons hstep _ ih =>
      have hnext := keeps _ _ _ hs (hguard _ List.mem_cons_self) hstep
      intro x hx
      rcases List.mem_cons.1 hx with rfl | hx
      · exact ⟨hs, hnext⟩
      · exact ih hnext (fun y hy => hguard y (List.mem_cons_of_mem _ hy)) x hx

/-- The relation rule: a reflexive and transitive relation that every guarded step satisfies relates the
    start of a guarded run, and the state after each of its transitions, to its end. -/
theorem guarded_relation (Inv : σ → Prop) (R : σ → σ → Prop) (refl : ∀ s, R s s)
    (trans : ∀ {s t u}, R s t → R t u → R s u) {guard : σ → ε → Prop}
    (keeps : ∀ s e s', Inv s → guard s e → M.step s e s' → Inv s' ∧ R s s')
    {s t : σ} {xs : List (Transition σ ε)} (run : Run M s xs t) (hs : Inv s)
    (hguard : ∀ x ∈ xs, guard x.before x.event) :
    R s t ∧ ∀ x ∈ xs, Inv x.before ∧ R x.after t := by
  induction run with
  | nil s => exact ⟨refl s, by simp⟩
  | cons hstep _ ih =>
      obtain ⟨hnext, hfirst⟩ := keeps _ _ _ hs (hguard _ List.mem_cons_self) hstep
      obtain ⟨hrest, hmem⟩ := ih hnext fun x hx => hguard x (List.mem_cons_of_mem _ hx)
      refine ⟨trans hfirst hrest, ?_⟩
      intro x hx
      rcases List.mem_cons.1 hx with rfl | hx
      · exact ⟨hs, hrest⟩
      · exact hmem x hx

/-- The exact form of the invariant rule. If, from states in the invariant, the guarded steps keep the
    invariant and satisfy the step property while the unguarded ones break the property, then a run
    satisfies the property at every step exactly when every step is guarded. -/
theorem guarded_iff {Inv : σ → Prop} {guard : σ → ε → Prop} (holds : σ → ε → σ → Prop)
    (keeps : ∀ s e s', Inv s → guard s e → M.step s e s' → Inv s')
    (sound : ∀ s e s', Inv s → guard s e → M.step s e s' → holds s e s')
    (exact' : ∀ s e s', Inv s → M.step s e s' → holds s e s' → guard s e)
    {s t : σ} {xs : List (Transition σ ε)} (run : Run M s xs t) (hs : Inv s) :
    (∀ x ∈ xs, holds x.before x.event x.after) ↔ ∀ x ∈ xs, guard x.before x.event := by
  constructor
  · intro hholds
    induction run with
    | nil s => simp
    | cons hstep _ ih =>
        have hhead := exact' _ _ _ hs hstep (hholds _ List.mem_cons_self)
        intro x hx
        rcases List.mem_cons.1 hx with rfl | hx
        · exact hhead
        · exact ih (keeps _ _ _ hs hhead hstep)
            (fun y hy => hholds y (List.mem_cons_of_mem _ hy)) x hx
  · intro hguard x hx
    exact sound _ _ _ (run.guarded_invariant_mem Inv keeps hs hguard x hx).1 (hguard x hx) (run.step_of_mem x hx)

/-- Playing a list of events with a function that only takes guarded steps gives a guarded run. -/
theorem of_play (guard : σ → ε → Prop) {next : σ → ε → Option σ}
    (hnext : ∀ s e s', next s e = some s' → M.step s e s' ∧ guard s e) {s t : σ} {es : List ε}
    (h : es.foldlM next s = some t) :
    ∃ xs, Run M s xs t ∧ xs.map Transition.event = es ∧ ∀ x ∈ xs, guard x.before x.event := by
  induction es generalizing s with
  | nil =>
      obtain rfl : s = t := Option.some.inj h
      exact ⟨[], .nil s, rfl, by simp⟩
  | cons e es ih =>
      rw [List.foldlM_cons] at h
      cases hfirst : next s e with
      | none => simp [hfirst] at h
      | some s' =>
          rw [hfirst] at h
          obtain ⟨hstep, hguard⟩ := hnext s e s' hfirst
          obtain ⟨xs, run, hevents, hguards⟩ := ih h
          refine ⟨⟨s, e, s'⟩ :: xs, .cons hstep run, by simp [hevents], ?_⟩
          intro x hx
          rcases List.mem_cons.1 hx with rfl | hx
          · exact hguard
          · exact hguards x hx

end Run

/-- The system beside an observer, which begins somewhere and follows the events. -/
def observed {τ : Type u} (M : TransitionSystem σ ε) (start : τ) (next : τ → ε → τ) : TransitionSystem (σ × τ) ε where
  init p := M.init p.1 ∧ p.2 = start
  step p e p' := M.step p.1 e p'.1 ∧ p'.2 = next p.2 e

/-- Every run can be observed, and what the observer has at its end comes from the events in their order. -/
theorem Run.observe {τ : Type u} {s t : σ} {xs : List (Transition σ ε)} (run : Run M s xs t) (start : τ)
    (next : τ → ε → τ) (o : τ) :
    ∃ ys, Run (M.observed start next) (s, o) ys (t, (xs.map Transition.event).foldl next o) ∧
      ys.map Transition.event = xs.map Transition.event := by
  induction run generalizing o with
  | nil s => exact ⟨[], .nil _, rfl⟩
  | cons hstep _ ih =>
      obtain ⟨ys, hrun, hevents⟩ := ih (next o _)
      refine ⟨_, .cons ⟨hstep, rfl⟩ hrun, ?_⟩
      rw [List.map_cons, List.map_cons, hevents]

end TransitionSystem
