/-
Module: Chaotix.Lib.ExactReturn
Layer: Lib
Purpose: Programs that return exactly under a condition. The condition of a sequence is the conjunction of the
  conditions of its parts, and the condition of a counting loop is that of all of its rounds. A loop with any step is a
  counting loop over its rounds.
Imports: Chaotix.Lib.Program
Trusted boundary: none
Main exports: Program.foldStep, Program.forStep, ReturnsIff, ReturnsIff.bind, ReturnsIff.require, ReturnsIff.foldStep,
  ReturnsIff.forStep, ReturnsIff.forRange
-/
import Chaotix.Lib.Program

variable {σ ε α β : Type}

namespace Program

/-- The number of rounds of `for (i = lo; i < hi; i += step)`. -/
def rounds (lo hi step : Nat) : Nat := (hi - lo + (step - 1)) / step

/-- `for (i = lo; i < hi; i += step) a = body(i, a)`. -/
def foldStep (lo hi step : Nat) (a : α) (body : Nat → α → Program σ ε α) : Program σ ε α :=
  foldCount (fun k => body (lo + step * k)) 0 (rounds lo hi step) a

/-- `for (i = lo; i < hi; i += step) body(i)`. -/
def forStep (lo hi step : Nat) (body : Nat → Program σ ε Unit) : Program σ ε Unit :=
  foldStep lo hi step () fun i _ => body i

/-- The rounds are those whose counter is below the end. -/
theorem lt_rounds_iff {lo hi step k : Nat} (hstep : 0 < step) : k < rounds lo hi step ↔ lo + step * k < hi := by
  unfold rounds
  rw [Nat.lt_iff_add_one_le, Nat.le_div_iff_mul_le hstep, Nat.succ_mul, Nat.mul_comm k step]
  omega

end Program

open Program

/-- The program returns exactly when the condition holds, and what it returns satisfies the postcondition. -/
def ReturnsIff (m : Program σ ε α) (s : σ) (c : Prop) (post : α → σ → Prop) : Prop :=
  (c → Yields m s post) ∧ Ensures m s fun _ _ => c

namespace ReturnsIff

variable {m : Program σ ε α} {f : α → Program σ ε β} {s : σ} {c d : Prop} {post mid : α → σ → Prop}

theorem iff (h : ReturnsIff m s c post) : (∃ a t, m s = .ok (a, t)) ↔ c := by
  constructor
  · rintro ⟨a, t, hreturn⟩
    exact ensures_iff.1 h.2 a t hreturn
  · intro hc
    obtain ⟨a, t, hreturn, -⟩ := yields_iff.1 (h.1 hc)
    exact ⟨a, t, hreturn⟩

/-- What is returned satisfies the postcondition, and the condition held. -/
theorem of_return (h : ReturnsIff m s c post) {a : α} {t : σ} (hreturn : m s = .ok (a, t)) : c ∧ post a t := by
  have hc : c := ensures_iff.1 h.2 a t hreturn
  exact ⟨hc, (h.1 hc).and_return hreturn⟩

theorem congr (h : ReturnsIff m s c post) (hiff : c ↔ d) : ReturnsIff m s d post := by
  rwa [← propext hiff]

theorem mono {post' : α → σ → Prop} (h : ReturnsIff m s c post) (himp : ∀ a t, post a t → post' a t) :
    ReturnsIff m s c post' :=
  ⟨fun hc => (h.1 hc).mono himp, h.2⟩

/-- The condition may be used for the postcondition. -/
theorem mono_of {post' : α → σ → Prop} (h : ReturnsIff m s c post) (himp : c → ∀ a t, post a t → post' a t) :
    ReturnsIff m s c post' :=
  ⟨fun hc => (h.1 hc).mono (himp hc), h.2⟩

theorem pure {a : α} (h : post a s) : ReturnsIff (pure a : Program σ ε α) s True post :=
  ⟨fun _ => h, trivial⟩

theorem get {post : σ → σ → Prop} (h : post s s) : ReturnsIff (get : Program σ ε σ) s True post :=
  ⟨fun _ => h, trivial⟩

theorem modify {g : σ → σ} {post : PUnit → σ → Prop} (h : post ⟨⟩ (g s)) :
    ReturnsIff (modify g : Program σ ε PUnit) s True post :=
  ⟨fun _ => h, trivial⟩

theorem require [Decidable c] (e : ε) : ReturnsIff (require c e : Program σ ε Unit) s c fun _ t => t = s :=
  ⟨fun hc => yields_require.2 ⟨hc, rfl⟩, ensures_require.2 id⟩

/-- A program that never returns. -/
theorem throw (e : ε) : ReturnsIff (throw e : Program σ ε α) s False post := ⟨False.elim, trivial⟩

theorem bind {post : β → σ → Prop} (hm : ReturnsIff m s c mid)
    (hf : ∀ a t, mid a t → ReturnsIff (f a) t d post) : ReturnsIff (m >>= f) s (c ∧ d) post := by
  constructor
  · rintro ⟨hc, hd⟩
    rw [yields_bind]
    exact (hm.1 hc).mono fun a t hmid => (hf a t hmid).1 hd
  · rw [ensures_bind, ensures_iff]
    intro a t hreturn
    obtain ⟨hc, hmid⟩ := hm.of_return hreturn
    exact (hf a t hmid).2.mono fun _ _ hd => ⟨hc, hd⟩

/-- A program that always returns may come first. -/
theorem bind_of_yields {post : β → σ → Prop} (hm : Yields m s mid)
    (hf : ∀ a t, mid a t → ReturnsIff (f a) t d post) : ReturnsIff (m >>= f) s d post := by
  have hall : ReturnsIff m s True mid := ⟨fun _ => hm, hm.ensures.mono fun _ _ _ => trivial⟩
  exact (hall.bind hf).congr ⟨And.right, fun hd => ⟨trivial, hd⟩⟩

theorem get_bind {f : σ → Program σ ε β} {post : β → σ → Prop} (h : ReturnsIff (f s) s d post) :
    ReturnsIff (MonadState.get >>= f) s d post := h

/-- A last part that always returns. -/
theorem bind_yields {post : β → σ → Prop} (hm : ReturnsIff m s c mid) (hf : ∀ a t, mid a t → Yields (f a) t post) :
    ReturnsIff (m >>= f) s c post := by
  have hboth := hm.bind fun a t hmid =>
    (⟨fun _ => hf a t hmid, (hf a t hmid).ensures.mono fun _ _ _ => trivial⟩ : ReturnsIff (f a) t True post)
  exact hboth.congr ⟨And.left, fun hc => ⟨hc, trivial⟩⟩

/-- A program that tests the condition and then always returns. -/
theorem require_bind [Decidable c] {e : ε} {f : Unit → Program σ ε β} {post : β → σ → Prop}
    (h : c → Yields (f ()) s post) : ReturnsIff (Program.require c e >>= f) s c post := by
  refine ⟨fun hc => yields_bind.2 (yields_require.2 ⟨hc, h hc⟩), ?_⟩
  rw [ensures_bind, ensures_require]
  exact fun hc => ensures_iff.2 fun _ _ _ => hc

/-- A counting loop returns when all of its rounds do. -/
theorem foldCount {body : Nat → α → Program σ ε α} (inv : Nat → α → σ → Prop) (cond : Nat → Prop) {n i : Nat} {a : α}
    (hinit : inv i a s)
    (hbody : ∀ j b t, i ≤ j → j < i + n → inv j b t → ReturnsIff (body j b) t (cond j) (inv (j + 1))) :
    ReturnsIff (Program.foldCount body i n a) s (∀ j, i ≤ j → j < i + n → cond j) (inv (i + n)) := by
  induction n generalizing i a s with
  | zero => exact (ReturnsIff.pure hinit).congr ⟨fun _ j hlo hhi => absurd hlo (Nat.not_le_of_lt hhi), fun _ => trivial⟩
  | succ n ih =>
      rw [Program.foldCount]
      have hfirst := hbody i a s (Nat.le_refl i) (Nat.lt_add_of_pos_right (Nat.succ_pos n)) hinit
      have hrest : ∀ b t, inv (i + 1) b t → ReturnsIff (Program.foldCount body (i + 1) n b) t
          (∀ j, i + 1 ≤ j → j < i + 1 + n → cond j) (inv (i + 1 + n)) := fun b t hb =>
        ih hb fun j b' t' hlo hhi => hbody j b' t' (by omega) (by omega)
      have hboth := hfirst.bind hrest
      rw [Nat.add_right_comm] at hboth
      refine hboth.congr ⟨?_, fun h => ⟨h i (Nat.le_refl i) (by omega), fun j hlo hhi => h j (by omega) (by omega)⟩⟩
      rintro ⟨hi, h⟩ j hlo hhi
      obtain rfl | hlt := Nat.eq_or_lt_of_le hlo
      · exact hi
      · exact h j hlt (by omega)

/-- `for (i = 0; i < n; ++i) body(i)`. -/
theorem forRange {body : Nat → Program σ ε Unit} (inv : Nat → σ → Prop) (cond : Nat → Prop) {n : Nat} (hinit : inv 0 s)
    (hbody : ∀ j t, j < n → inv j t → ReturnsIff (body j) t (cond j) fun _ t' => inv (j + 1) t') :
    ReturnsIff (Program.forRange 0 n body) s (∀ j, j < n → cond j) fun _ t => inv n t := by
  have hloop : ReturnsIff (Program.foldCount (fun j (_ : Unit) => body j) 0 n ()) s _ fun _ t => inv (0 + n) t :=
    foldCount (fun i _ t => inv i t) cond hinit fun j b t _ hhi hinv => hbody j t (by omega) hinv
  rw [Nat.zero_add] at hloop
  exact hloop.congr ⟨fun h j hj => h j (Nat.zero_le j) hj, fun h j _ hj => h j hj⟩

/-- A loop with a step returns when all of its rounds do. -/
theorem foldStep {body : Nat → α → Program σ ε α} (inv : Nat → α → σ → Prop) (cond : Nat → Prop) {lo hi step : Nat}
    {a : α} (hinit : inv 0 a s)
    (hbody : ∀ k b t, k < rounds lo hi step → inv k b t →
      ReturnsIff (body (lo + step * k) b) t (cond k) (inv (k + 1))) :
    ReturnsIff (Program.foldStep lo hi step a body) s (∀ k, k < rounds lo hi step → cond k)
      (inv (rounds lo hi step)) := by
  have hloop : ReturnsIff (Program.foldCount (fun k => body (lo + step * k)) 0 (rounds lo hi step) a) s _ _ :=
    foldCount inv cond hinit fun k b t _ hhi hinv => hbody k b t (by omega) hinv
  rw [Nat.zero_add] at hloop
  exact hloop.congr ⟨fun h j hj => h j (Nat.zero_le j) hj, fun h j _ hj => h j hj⟩

theorem forStep {body : Nat → Program σ ε Unit} (inv : Nat → σ → Prop) (cond : Nat → Prop) {lo hi step : Nat}
    (hinit : inv 0 s)
    (hbody : ∀ k t, k < rounds lo hi step → inv k t →
      ReturnsIff (body (lo + step * k)) t (cond k) fun _ t' => inv (k + 1) t') :
    ReturnsIff (Program.forStep lo hi step body) s (∀ k, k < rounds lo hi step → cond k)
      fun _ t => inv (rounds lo hi step) t :=
  foldStep (fun k _ t => inv k t) cond hinit fun k _ t hk hinv => hbody k t hk hinv

end ReturnsIff
