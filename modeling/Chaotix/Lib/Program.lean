/-
Module: Chaotix.Lib.Program
Layer: Lib
Purpose: Rules of pre- and postconditions for stateful programs that may stop for good. A program is
  `StateT σ (Except ε) α`: it returns a value and a state, or stops with some `ε`. `Yields` is total
  correctness (the program returns, and the postcondition holds), `Ensures` is partial correctness (if it
  returns, the postcondition holds). Both have one rule for each way of building a program, and a counting
  loop has an invariant rule, also when an error of a round ends it. `Keeps` says that a program leaves a
  part of the state alone.
Imports: none (Mathlib-free)
Trusted boundary: none
Main exports: Program, Program.run_bind, Program.require, Program.forRange, Program.tryRange, Program.focus, Yields, Ensures, yields_bind,
  ensures_bind, Yields.mono, Yields.and_return, Ensures.forRange, Ensures.tryRange, Preserves, Keeps
-/

universe u

/-- A program over states `σ` that returns an `α` or stops with an `ε`. -/
abbrev Program (σ ε α : Type) := StateT σ (Except ε) α

namespace Program

variable {σ τ ε α : Type}

/-- Stop with `e` unless the condition holds. -/
def require (c : Prop) [Decidable c] (e : ε) : Program σ ε Unit :=
  if c then pure () else throw e

/-- Run a program on a component of the state. -/
def focus (get : σ → τ) (set : τ → σ → σ) (m : Program τ ε α) : Program σ ε α := fun s =>
  match m (get s) with
  | .ok (a, t) => .ok (a, set t s)
  | .error e => .error e

/-- `n` rounds of a loop that carries a local value; its counter starts at `i`. -/
def foldCount (body : Nat → α → Program σ ε α) : Nat → Nat → α → Program σ ε α
  | _, 0, a => pure a
  | i, n + 1, a => do
      let a' ← body i a
      foldCount body (i + 1) n a'

/-- `for (i = lo; i < hi; ++i) a = body(i, a)`. -/
def foldRange (lo hi : Nat) (a : α) (body : Nat → α → Program σ ε α) : Program σ ε α :=
  foldCount body lo (hi - lo) a

/-- `for (i = lo; i < hi; ++i) body(i)`. -/
def forRange (lo hi : Nat) (body : Nat → Program σ ε Unit) : Program σ ε Unit :=
  foldRange lo hi () fun i _ => body i

/-- `n` rounds of a loop whose counter starts at `i`; a round that returns an error ends the loop. -/
def tryCount {ρ : Type} (body : Nat → Program σ ε (Except ρ Unit)) :
    Nat → Nat → Program σ ε (Except ρ Unit)
  | _, 0 => pure (.ok ())
  | i, n + 1 => do
      match ← body i with
      | .error e => pure (.error e)
      | .ok () => tryCount body (i + 1) n

/-- `for (i = lo; i < hi; ++i)` with the first error of `body(i)` returned. -/
def tryRange {ρ : Type} (lo hi : Nat) (body : Nat → Program σ ε (Except ρ Unit)) :
    Program σ ε (Except ρ Unit) :=
  tryCount body lo (hi - lo)

end Program

open Program

variable {σ τ ε α β : Type}

/-! ### Running a program -/

namespace Program

@[simp] theorem run_pure (a : α) (s : σ) : (pure a : Program σ ε α) s = .ok (a, s) := rfl

@[simp] theorem run_throw (e : ε) (s : σ) : (throw e : Program σ ε α) s = .error e := rfl

@[simp] theorem run_get (s : σ) : (get : Program σ ε σ) s = .ok (s, s) := rfl

@[simp] theorem run_set (t s : σ) : (set t : Program σ ε PUnit) s = .ok (⟨⟩, t) := rfl

@[simp] theorem run_modify (f : σ → σ) (s : σ) :
    (modify f : Program σ ε PUnit) s = .ok (⟨⟩, f s) := rfl

@[simp] theorem run_bind (m : Program σ ε α) (f : α → Program σ ε β) (s : σ) :
    (m >>= f) s = match m s with
      | .ok (a, t) => f a t
      | .error e => .error e := by
  simp only [bind, StateT.bind, Except.bind]
  cases m s with
  | error e => rfl
  | ok r => rfl

@[simp] theorem run_map (f : α → β) (m : Program σ ε α) (s : σ) :
    (f <$> m) s = match m s with
      | .ok (a, t) => .ok (f a, t)
      | .error e => .error e := by
  simp only [Functor.map, StateT.map, bind, Except.bind]
  cases m s with
  | error e => rfl
  | ok r => rfl

@[simp] theorem run_require (c : Prop) [Decidable c] (e : ε) (s : σ) :
    (require c e : Program σ ε Unit) s = if c then .ok ((), s) else .error e := by
  unfold require
  split <;> rfl

end Program

/-! ### Pre- and postconditions -/

/-- Total correctness: the program returns, and the postcondition holds of what it returns. -/
def Yields (m : Program σ ε α) (s : σ) (post : α → σ → Prop) : Prop :=
  match m s with
  | .ok (a, t) => post a t
  | .error _ => False

/-- Partial correctness: whatever the program returns satisfies the postcondition. -/
def Ensures (m : Program σ ε α) (s : σ) (post : α → σ → Prop) : Prop :=
  match m s with
  | .ok (a, t) => post a t
  | .error _ => True

/-- What a program yields at a concrete state can be computed. -/
instance {m : Program σ ε α} {s : σ} {post : α → σ → Prop} [∀ a t, Decidable (post a t)] :
    Decidable (Yields m s post) :=
  match h : m s with
  | .ok (a, t) => decidable_of_iff (post a t) (by simp only [Yields, h])
  | .error _ => isFalse (by simp only [Yields, h, not_false_eq_true])

/-! ### Total correctness -/

theorem yields_iff {m : Program σ ε α} {s : σ} {post : α → σ → Prop} :
    Yields m s post ↔ ∃ a t, m s = .ok (a, t) ∧ post a t := by
  unfold Yields
  cases h : m s with
  | error e => simp
  | ok r => exact ⟨fun hpost => ⟨r.1, r.2, rfl, hpost⟩, by rintro ⟨a, t, ⟨⟩, hpost⟩; exact hpost⟩

/-- The one value a program returns satisfies what the program yields. -/
theorem Yields.and_return {m : Program σ ε α} {s t : σ} {a : α} {post : α → σ → Prop}
    (h : Yields m s post) (hreturn : m s = .ok (a, t)) : post a t := by
  simpa [Yields, hreturn] using h

theorem yields_of_return {m : Program σ ε α} {s t : σ} {a : α} {post : α → σ → Prop}
    (hreturn : m s = .ok (a, t)) (h : post a t) : Yields m s post := by
  simpa [Yields, hreturn] using h

/-- A program without a result returns a state. -/
theorem Yields.state {m : Program σ ε Unit} {s : σ} {post : Unit → σ → Prop} (h : Yields m s post) :
    ∃ t, m s = .ok ((), t) ∧ post () t := by
  obtain ⟨_, t, hreturn, hpost⟩ := yields_iff.1 h
  exact ⟨t, hreturn, hpost⟩

theorem Yields.mono {m : Program σ ε α} {s : σ} {post post' : α → σ → Prop}
    (h : Yields m s post) (himp : ∀ a t, post a t → post' a t) : Yields m s post' := by
  obtain ⟨a, t, hreturn, hpost⟩ := yields_iff.1 h
  exact yields_of_return hreturn (himp a t hpost)

theorem yields_pure {a : α} {s : σ} {post : α → σ → Prop} :
    Yields (pure a : Program σ ε α) s post ↔ post a s := Iff.rfl

theorem yields_bind {m : Program σ ε α} {f : α → Program σ ε β} {s : σ} {post : β → σ → Prop} :
    Yields (m >>= f) s post ↔ Yields m s fun a t => Yields (f a) t post := by
  simp only [Yields, bind, StateT.bind, Except.bind]
  cases m s with
  | error e => exact Iff.rfl
  | ok r => exact Iff.rfl

/-- A program that starts with one whose return is known goes on from there. -/
theorem yields_bind_of_return {m : Program σ ε α} {f : α → Program σ ε β} {s t : σ} {a : α}
    {post : β → σ → Prop} (hreturn : m s = .ok (a, t)) : Yields (m >>= f) s post ↔ Yields (f a) t post := by
  rw [yields_bind, Yields, hreturn]

theorem yields_get {s : σ} {post : σ → σ → Prop} :
    Yields (get : Program σ ε σ) s post ↔ post s s := Iff.rfl

theorem yields_set {s t : σ} {post : PUnit → σ → Prop} :
    Yields (set t : Program σ ε PUnit) s post ↔ post ⟨⟩ t := Iff.rfl

theorem yields_modify {f : σ → σ} {s : σ} {post : PUnit → σ → Prop} :
    Yields (modify f : Program σ ε PUnit) s post ↔ post ⟨⟩ (f s) := Iff.rfl

theorem yields_throw {e : ε} {s : σ} {post : α → σ → Prop} :
    Yields (throw e : Program σ ε α) s post ↔ False := Iff.rfl

theorem yields_require {c : Prop} [Decidable c] {e : ε} {s : σ} {post : Unit → σ → Prop} :
    Yields (require c e : Program σ ε Unit) s post ↔ c ∧ post () s := by
  unfold require
  by_cases hc : c
  · simp only [hc, true_and]
    exact yields_pure
  · simp only [hc, false_and]
    exact yields_throw

theorem yields_focus {get : σ → τ} {set : τ → σ → σ} {m : Program τ ε α} {s : σ}
    {post : α → σ → Prop} :
    Yields (focus get set m) s post ↔ Yields m (get s) fun a t => post a (set t s) := by
  simp only [Yields, focus]
  cases m (get s) with
  | error e => exact Iff.rfl
  | ok r => exact Iff.rfl

/-! ### Partial correctness -/

theorem ensures_iff {m : Program σ ε α} {s : σ} {post : α → σ → Prop} :
    Ensures m s post ↔ ∀ a t, m s = .ok (a, t) → post a t := by
  unfold Ensures
  cases h : m s with
  | error e => simp
  | ok r => exact ⟨by rintro hpost a t ⟨⟩; exact hpost, fun hall => hall r.1 r.2 rfl⟩

theorem Ensures.mono {m : Program σ ε α} {s : σ} {post post' : α → σ → Prop}
    (h : Ensures m s post) (himp : ∀ a t, post a t → post' a t) : Ensures m s post' :=
  ensures_iff.2 fun a t hreturn => himp a t (ensures_iff.1 h a t hreturn)

/-- What a program yields is what it ensures. -/
theorem Yields.ensures {m : Program σ ε α} {s : σ} {post : α → σ → Prop} (h : Yields m s post) : Ensures m s post := by
  obtain ⟨a, t, hreturn, hpost⟩ := yields_iff.1 h
  rw [Ensures, hreturn]
  exact hpost

/-- Postconditions that agree on what the program returns. -/
theorem yields_congr_of_ensures {m : Program σ ε α} {s : σ} {post post' : α → σ → Prop}
    (h : Ensures m s fun a t => post a t ↔ post' a t) : Yields m s post ↔ Yields m s post' := by
  rw [yields_iff, yields_iff]
  constructor
  · rintro ⟨a, t, hreturn, hpost⟩
    exact ⟨a, t, hreturn, (ensures_iff.1 h a t hreturn).1 hpost⟩
  · rintro ⟨a, t, hreturn, hpost⟩
    exact ⟨a, t, hreturn, (ensures_iff.1 h a t hreturn).2 hpost⟩

theorem ensures_pure {a : α} {s : σ} {post : α → σ → Prop} :
    Ensures (pure a : Program σ ε α) s post ↔ post a s := Iff.rfl

theorem ensures_bind {m : Program σ ε α} {f : α → Program σ ε β} {s : σ} {post : β → σ → Prop} :
    Ensures (m >>= f) s post ↔ Ensures m s fun a t => Ensures (f a) t post := by
  simp only [Ensures, bind, StateT.bind, Except.bind]
  cases m s with
  | error e => exact Iff.rfl
  | ok r => exact Iff.rfl

/-- A program that starts with one whose return is known goes on from there. -/
theorem ensures_bind_of_return {m : Program σ ε α} {f : α → Program σ ε β} {s t : σ} {a : α}
    {post : β → σ → Prop} (hreturn : m s = .ok (a, t)) :
    Ensures (m >>= f) s post ↔ Ensures (f a) t post := by
  rw [ensures_bind, Ensures, hreturn]

theorem ensures_get {s : σ} {post : σ → σ → Prop} :
    Ensures (get : Program σ ε σ) s post ↔ post s s := Iff.rfl

theorem ensures_set {s t : σ} {post : PUnit → σ → Prop} :
    Ensures (set t : Program σ ε PUnit) s post ↔ post ⟨⟩ t := Iff.rfl

theorem ensures_modify {f : σ → σ} {s : σ} {post : PUnit → σ → Prop} :
    Ensures (modify f : Program σ ε PUnit) s post ↔ post ⟨⟩ (f s) := Iff.rfl

theorem ensures_require {c : Prop} [Decidable c] {e : ε} {s : σ} {post : Unit → σ → Prop} :
    Ensures (require c e : Program σ ε Unit) s post ↔ (c → post () s) := by
  unfold require
  by_cases hc : c
  · simp only [hc, true_implies]
    exact ensures_pure
  · simp only [hc, false_implies]
    exact Iff.rfl

theorem ensures_focus {get : σ → τ} {set : τ → σ → σ} {m : Program τ ε α} {s : σ}
    {post : α → σ → Prop} :
    Ensures (focus get set m) s post ↔ Ensures m (get s) fun a t => post a (set t s) := by
  simp only [Ensures, focus]
  cases m (get s) with
  | error e => exact Iff.rfl
  | ok r => exact Iff.rfl

/-! ### Loops -/

/-- The invariant rule of a counting loop. -/
theorem Ensures.foldCount {body : Nat → α → Program σ ε α} (inv : Nat → α → σ → Prop) :
    ∀ {n i : Nat} {a : α} {s : σ}, inv i a s →
      (∀ j b t, i ≤ j → j < i + n → inv j b t →
        Ensures (body j b) t fun b' t' => inv (j + 1) b' t') →
      Ensures (Program.foldCount body i n a) s fun b t => inv (i + n) b t
  | 0, _, _, _, hinit, _ => hinit
  | n + 1, i, a, s, hinit, hbody => by
      rw [Program.foldCount, ensures_bind]
      apply (hbody i a s (Nat.le_refl i) (by omega) hinit).mono
      intro b t ht
      have hrest := Ensures.foldCount inv (n := n) ht fun j b' t' hlo hhi =>
        hbody j b' t' (by omega) (by omega)
      rwa [Nat.add_right_comm] at hrest

/-- The invariant rule of `for (i = lo; i < hi; ++i) a = body(i, a)`. -/
theorem Ensures.foldRange {body : Nat → α → Program σ ε α} (inv : Nat → α → σ → Prop) {lo hi : Nat}
    {a : α} {s : σ} (hinit : inv lo a s)
    (hbody : ∀ j b t, lo ≤ j → j < hi → inv j b t →
      Ensures (body j b) t fun b' t' => inv (j + 1) b' t') :
    Ensures (Program.foldRange lo hi a body) s fun b t => inv (max lo hi) b t := by
  have hloop := Ensures.foldCount inv (n := hi - lo) hinit fun j b t hlo hhi =>
    hbody j b t hlo (by omega)
  rwa [show lo + (hi - lo) = max lo hi by omega] at hloop

/-- The invariant rule of `for (i = lo; i < hi; ++i) body(i)`. -/
theorem Ensures.forRange {body : Nat → Program σ ε Unit} (inv : Nat → σ → Prop) {lo hi : Nat}
    {s : σ} (hinit : inv lo s)
    (hbody : ∀ j t, lo ≤ j → j < hi → inv j t → Ensures (body j) t fun _ t' => inv (j + 1) t') :
    Ensures (Program.forRange lo hi body) s fun _ t => inv (max lo hi) t :=
  Ensures.foldRange (fun i _ t => inv i t) hinit fun j _ t hlo hhi hinv => hbody j t hlo hhi hinv

/-- The invariant rule of a counting loop, for total correctness. -/
theorem Yields.foldCount {body : Nat → α → Program σ ε α} (inv : Nat → α → σ → Prop) {n i : Nat} {a : α}
    {s : σ} (hinit : inv i a s)
    (hbody : ∀ j b t, i ≤ j → j < i + n → inv j b t → Yields (body j b) t fun b' t' => inv (j + 1) b' t') :
    Yields (Program.foldCount body i n a) s fun b t => inv (i + n) b t := by
  induction n generalizing i a s with
  | zero => exact hinit
  | succ n ih =>
      rw [Program.foldCount, yields_bind]
      apply (hbody i a s (Nat.le_refl i) (by omega) hinit).mono
      intro b t ht
      have hrest := ih ht fun j b' t' hlo hhi => hbody j b' t' (by omega) (by omega)
      rwa [Nat.add_assoc, Nat.add_comm 1 n] at hrest

/-- The invariant rule of `for (i = lo; i < hi; ++i) body(i)`, for total correctness. -/
theorem Yields.forRange {body : Nat → Program σ ε Unit} (inv : Nat → σ → Prop) {lo hi : Nat} {s : σ}
    (hinit : inv lo s)
    (hbody : ∀ j t, lo ≤ j → j < hi → inv j t → Yields (body j) t fun _ t' => inv (j + 1) t') :
    Yields (Program.forRange lo hi body) s fun _ t => inv (max lo hi) t := by
  have hloop : Yields (Program.foldCount (fun j (_ : Unit) => body j) lo (hi - lo) ()) s
      fun _ t => inv (lo + (hi - lo)) t :=
    Yields.foldCount (fun i _ t => inv i t) hinit fun j _ t hlo hhi hinv => hbody j t hlo (by omega) hinv
  rwa [show lo + (hi - lo) = max lo hi by omega] at hloop

/-- The invariant rule of a loop that an error ends. -/
theorem Ensures.tryCount {ρ : Type} {body : Nat → Program σ ε (Except ρ Unit)} (inv : Nat → σ → Prop)
    (failed : ρ → σ → Prop) {n i : Nat} {s : σ} (hinit : inv i s)
    (hbody : ∀ j t, i ≤ j → j < i + n → inv j t → Ensures (body j) t fun r t' =>
      (r = .ok () → inv (j + 1) t') ∧ ∀ e, r = .error e → failed e t') :
    Ensures (Program.tryCount body i n) s fun r t =>
      (r = .ok () → inv (i + n) t) ∧ ∀ e, r = .error e → failed e t := by
  induction n generalizing i s with
  | zero => exact ⟨fun _ => hinit, nofun⟩
  | succ n ih =>
      rw [Program.tryCount, ensures_bind]
      apply (hbody i s (Nat.le_refl i) (by omega) hinit).mono
      intro r t ht
      cases r with
      | error e => exact ⟨nofun, ht.2⟩
      | ok _ =>
          have hrest := ih (ht.1 rfl) fun j t' hlo hhi => hbody j t' (by omega) (by omega)
          rwa [Nat.add_assoc, Nat.add_comm 1 n] at hrest

/-- The invariant rule of `for (i = lo; i < hi; ++i)` with the first error returned. -/
theorem Ensures.tryRange {ρ : Type} {body : Nat → Program σ ε (Except ρ Unit)} (inv : Nat → σ → Prop)
    (failed : ρ → σ → Prop) {lo hi : Nat} {s : σ} (hinit : inv lo s)
    (hbody : ∀ j t, lo ≤ j → j < hi → inv j t → Ensures (body j) t fun r t' =>
      (r = .ok () → inv (j + 1) t') ∧ ∀ e, r = .error e → failed e t') :
    Ensures (Program.tryRange lo hi body) s fun r t =>
      (r = .ok () → inv (max lo hi) t) ∧ ∀ e, r = .error e → failed e t := by
  have hloop := Ensures.tryCount inv failed (n := hi - lo) hinit fun j t hlo hhi =>
    hbody j t hlo (by omega)
  rwa [show lo + (hi - lo) = max lo hi by omega] at hloop

/-- The invariant rule of a loop over a list. -/
theorem Ensures.forM {f : β → Program σ ε PUnit} (inv : σ → Prop) {xs : List β} {s : σ} (hinit : inv s)
    (hbody : ∀ x ∈ xs, ∀ t, inv t → Ensures (f x) t fun _ t' => inv t') :
    Ensures (xs.forM f) s fun _ t => inv t := by
  induction xs generalizing s with
  | nil => exact hinit
  | cons x xs ih =>
      change Ensures (f x >>= fun _ => xs.forM f) s _
      rw [ensures_bind]
      apply (hbody x List.mem_cons_self s hinit).mono
      intro _ t ht
      exact ih ht fun y hy => hbody y (List.mem_cons_of_mem x hy)

/-- The invariant rule of a loop over a list, for total correctness. -/
theorem Yields.forM {f : β → Program σ ε PUnit} (inv : σ → Prop) {xs : List β} {s : σ} (hinit : inv s)
    (hbody : ∀ x ∈ xs, ∀ t, inv t → Yields (f x) t fun _ t' => inv t') :
    Yields (xs.forM f) s fun _ t => inv t := by
  induction xs generalizing s with
  | nil => exact hinit
  | cons x xs ih =>
      change Yields (f x >>= fun _ => xs.forM f) s _
      rw [yields_bind]
      apply (hbody x List.mem_cons_self s hinit).mono
      intro _ t ht
      exact ih ht fun y hy => hbody y (List.mem_cons_of_mem x hy)

/-! ### Properties of the state that a program keeps -/

/-- A program that keeps a property of the state. -/
def Preserves (inv : σ → Prop) (m : Program σ ε α) : Prop :=
  ∀ s, inv s → Ensures m s fun _ t => inv t

namespace Preserves

variable {inv : σ → Prop}

theorem pure (a : α) : Preserves inv (pure a : Program σ ε α) := fun _ h => h

theorem get : Preserves inv (get : Program σ ε σ) := fun _ h => h

theorem throw (e : ε) : Preserves inv (throw e : Program σ ε α) := fun _ _ => trivial

theorem modify {f : σ → σ} (h : ∀ s, inv s → inv (f s)) : Preserves inv (modify f : Program σ ε PUnit) := h

theorem require (c : Prop) [Decidable c] (e : ε) : Preserves inv (require c e : Program σ ε Unit) := fun _ h =>
  ensures_require.2 fun _ => h

theorem bind {m : Program σ ε α} {f : α → Program σ ε β} (hm : Preserves inv m) (hf : ∀ a, Preserves inv (f a)) :
    Preserves inv (m >>= f) := by
  intro s h
  rw [ensures_bind]
  apply (hm s h).mono
  intro a t ht
  exact hf a t ht

/-- A program on a component keeps what does not depend on the component. -/
theorem focus {get : σ → τ} {set : τ → σ → σ} (h : ∀ s t, inv s → inv (set t s)) (m : Program τ ε α) :
    Preserves inv (focus get set m) := fun s hs =>
  ensures_focus.2 (ensures_iff.2 fun _ t _ => h s t hs)

end Preserves

/-! ### Parts of the state that a program leaves alone -/

/-- A program that never changes a part of the state. -/
def Keeps {ρ : Type} (part : σ → ρ) (m : Program σ ε α) : Prop :=
  ∀ s, Ensures m s fun _ t => part t = part s

namespace Keeps

variable {ρ : Type} {part : σ → ρ}

theorem pure (a : α) : Keeps part (pure a : Program σ ε α) := fun _ => rfl

theorem get : Keeps part (get : Program σ ε σ) := fun _ => rfl

theorem throw (e : ε) : Keeps part (throw e : Program σ ε α) := fun _ => trivial

theorem modify {f : σ → σ} (h : ∀ s, part (f s) = part s) : Keeps part (modify f : Program σ ε PUnit) := h

theorem require (c : Prop) [Decidable c] (e : ε) : Keeps part (require c e : Program σ ε Unit) := fun _ =>
  ensures_require.2 fun _ => rfl

theorem bind {m : Program σ ε α} {f : α → Program σ ε β} (hm : Keeps part m) (hf : ∀ a, Keeps part (f a)) :
    Keeps part (m >>= f) := by
  intro s
  rw [ensures_bind]
  apply (hm s).mono
  intro a t ht
  exact (hf a t).mono fun _ _ hu => hu.trans ht

/-- A program on a component of the state leaves the other parts alone. -/
theorem focus {get : σ → τ} {set : τ → σ → σ} (h : ∀ s t, part (set t s) = part s) (m : Program τ ε α) :
    Keeps part (focus get set m) := fun s =>
  ensures_focus.2 (ensures_iff.2 fun _ t _ => h s t)

/-- A program on a component leaves the parts of the component alone that it always leaves alone. -/
theorem focusPart {get : σ → τ} {set : τ → σ → σ} (hset : ∀ s t, get (set t s) = t) {part : τ → ρ}
    {m : Program τ ε α} (hm : Keeps part m) : Keeps (fun s => part (get s)) (Program.focus get set m) := by
  intro s
  rw [ensures_focus]
  apply (hm (get s)).mono
  intro a t ht
  change part (get (set t s)) = part (get s)
  rw [hset]
  exact ht

theorem forRange (lo hi : Nat) {body : Nat → Program σ ε Unit} (h : ∀ i, Keeps part (body i)) :
    Keeps part (Program.forRange lo hi body) := fun s =>
  Ensures.forRange (fun _ t => part t = part s) rfl fun j t _ _ ht => (h j t).mono fun _ _ hu => hu.trans ht

theorem tryRange {κ : Type} (lo hi : Nat) {body : Nat → Program σ ε (Except κ Unit)}
    (h : ∀ i, Keeps part (body i)) : Keeps part (Program.tryRange lo hi body) := by
  intro s
  apply (Ensures.tryRange (fun _ t => part t = part s) (fun _ t => part t = part s) rfl ?_).mono
  · intro r t ht
    cases r with
    | error e => exact ht.2 e rfl
    | ok _ => exact ht.1 rfl
  · intro j t _ _ ht
    exact (h j t).mono fun _ _ hu => ⟨fun _ => hu.trans ht, fun _ _ => hu.trans ht⟩

end Keeps
