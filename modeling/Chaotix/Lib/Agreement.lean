/-
Module: Chaotix.Lib.Agreement
Layer: Lib
Purpose: Two runs side by side. Programs agree from two states when they return the same value and related states, or stop
  with the same reason. There is one rule for each way of building a program, so a relation that the parts of a program
  respect is respected by the whole.
Imports: Chaotix.Lib.Program
Trusted boundary: none
Main exports: Agree, Agree.bind, Agree.get_bind, Agree.modify, Agree.forM, Respects, Respects.bind
-/
import Chaotix.Lib.Program

variable {σ ε α β : Type}

/-- From two states, the programs return the same value and related states, or stop with the same reason. -/
def Agree (R : σ → σ → Prop) (m : Program σ ε α) (s : σ) (m' : Program σ ε α) (s' : σ) : Prop :=
  match m s, m' s' with
  | .ok (a, t), .ok (a', t') => a = a' ∧ R t t'
  | .error e, .error e' => e = e'
  | _, _ => False

namespace Agree

variable {R : σ → σ → Prop} {m m' : Program σ ε α} {f f' : α → Program σ ε β} {s s' : σ}

/-- Both return, or both stop. -/
theorem cases (h : Agree R m s m' s') :
    (∃ a t t', m s = .ok (a, t) ∧ m' s' = .ok (a, t') ∧ R t t') ∨ ∃ e, m s = .error e ∧ m' s' = .error e := by
  unfold Agree at h
  cases hm : m s with
  | error e =>
      cases hm' : m' s' with
      | error e' =>
          rw [hm, hm'] at h
          obtain rfl : e = e' := h
          exact .inr ⟨e, rfl, rfl⟩
      | ok r' =>
          rw [hm, hm'] at h
          exact h.elim
  | ok r =>
      cases hm' : m' s' with
      | error e' =>
          rw [hm, hm'] at h
          exact h.elim
      | ok r' =>
          obtain ⟨a, t⟩ := r
          obtain ⟨a', t'⟩ := r'
          rw [hm, hm'] at h
          obtain ⟨rfl, hR⟩ : a = a' ∧ R t t' := h
          exact .inl ⟨a, t, t', rfl, rfl, hR⟩

theorem of_return {a : α} {t t' : σ} (hm : m s = .ok (a, t)) (hm' : m' s' = .ok (a, t')) (h : R t t') :
    Agree R m s m' s' := by
  unfold Agree
  rw [hm, hm']
  exact ⟨rfl, h⟩

theorem of_stop {e : ε} (hm : m s = .error e) (hm' : m' s' = .error e) : Agree R m s m' s' := by
  unfold Agree
  rw [hm, hm']

theorem pure (a : α) (h : R s s') : Agree R (pure a : Program σ ε α) s (pure a) s' := ⟨rfl, h⟩

theorem throw (e : ε) : Agree R (throw e : Program σ ε α) s (throw e) s' := rfl

theorem modify {g g' : σ → σ} (h : R (g s) (g' s')) :
    Agree R (modify g : Program σ ε PUnit) s (modify g') s' := ⟨rfl, h⟩

theorem get_bind {f f' : σ → Program σ ε β} (h : Agree R (f s) s (f' s') s') :
    Agree R (MonadState.get >>= f) s (MonadState.get >>= f') s' := h

theorem require (c : Prop) [Decidable c] (e : ε) (h : R s s') :
    Agree R (Program.require c e) s (Program.require c e) s' := by
  by_cases hc : c
  · exact of_return (a := ()) (by simp [hc]) (by simp [hc]) h
  · exact of_stop (e := e) (by simp [hc]) (by simp [hc])

theorem bind (hm : Agree R m s m' s') (hf : ∀ a t t', R t t' → Agree R (f a) t (f' a) t') :
    Agree R (m >>= f) s (m' >>= f') s' := by
  obtain ⟨a, t, t', hreturn, hreturn', hR⟩ | ⟨e, hstop, hstop'⟩ := hm.cases
  · have hrest := hf a t t' hR
    unfold Agree at hrest ⊢
    rw [Program.run_bind, Program.run_bind, hreturn, hreturn']
    exact hrest
  · refine of_stop (e := e) ?_ ?_
    · rw [Program.run_bind, hstop]
    · rw [Program.run_bind, hstop']

end Agree

/-- A program that agrees with itself from related states. -/
def Respects (R : σ → σ → Prop) (m : Program σ ε α) : Prop := ∀ s s', R s s' → Agree R m s m s'

namespace Respects

variable {R : σ → σ → Prop} {m : Program σ ε α} {f : α → Program σ ε β}

theorem pure (a : α) : Respects R (pure a : Program σ ε α) := fun _ _ h => Agree.pure a h

theorem throw (e : ε) : Respects R (throw e : Program σ ε α) := fun _ _ _ => Agree.throw e

theorem bind (hm : Respects R m) (hf : ∀ a, Respects R (f a)) : Respects R (m >>= f) := fun s s' h =>
  (hm s s' h).bind fun a t t' => hf a t t'

theorem require (c : Prop) [Decidable c] (e : ε) : Respects R (Program.require c e) := fun _ _ h =>
  Agree.require c e h

/-- A program that reads a part of the state on which related states agree. -/
theorem get_part {γ : Type} (part : σ → γ) (hpart : ∀ s s', R s s' → part s = part s') {f : γ → Program σ ε β}
    (hf : ∀ c, Respects R (f c)) : Respects R (MonadState.get >>= fun s => f (part s)) := by
  intro s s' h
  refine Agree.get_bind ?_
  rw [hpart s s' h]
  exact hf _ s s' h

theorem modify {g : σ → σ} (h : ∀ s s', R s s' → R (g s) (g s')) : Respects R (modify g : Program σ ε PUnit) :=
  fun s s' hR => Agree.modify (h s s' hR)

theorem forM {f : β → Program σ ε PUnit} {xs : List β} (h : ∀ x ∈ xs, Respects R (f x)) : Respects R (xs.forM f) := by
  induction xs with
  | nil => exact Respects.pure PUnit.unit
  | cons x xs ih =>
      change Respects R (f x >>= fun _ => xs.forM f)
      exact bind (h x List.mem_cons_self) fun _ => ih fun y hy => h y (List.mem_cons_of_mem x hy)

/-- A choice between programs. -/
theorem ite (c : Prop) [Decidable c] {m' : Program σ ε α} (hm : Respects R m) (hm' : Respects R m') :
    Respects R (if c then m else m') := by
  split
  · exact hm
  · exact hm'

end Respects
