/-
Module: Chaotix.Lib.RefCount
Layer: Lib
Purpose: Reference counting. Places hold objects, and each object that is live has a counter. The accounting
  says that the counter is the number of the places that hold the object, that only live objects are held,
  and that an object is live only as long as it is held. There is one rule for each way to change a place
  together with a counter.
Imports: Mathlib.Tactic, Chaotix.Lib.Count
Trusted boundary: none
Main exports: RefCounts, RefCounts.acquire, RefCounts.create, RefCounts.releaseShared, RefCounts.releaseLast,
  RefCounts.setUnused
-/
import Mathlib.Tactic
import Chaotix.Lib.Count

universe u v

variable {κ : Type u} {α : Type v}

/-- The accounting of references: the places, the counters and the objects in use agree. -/
structure RefCounts (held : κ → Option α) (count : α → ℕ) (live : α → Bool) : Prop where
  counted : ∀ a, live a = true → (count a : ℕ∞) = countWhere (· = some a) held
  holds : ∀ k a, held k = some a → live a = true
  isHeld : ∀ a, live a = true → ∃ k, held k = some a

namespace RefCounts

variable {held : κ → Option α} {count : α → ℕ} {live : α → Bool} {k : κ} {a : α}

/-- What is held is counted. -/
theorem count_pos (refs : RefCounts held count live) (hk : held k = some a) : 0 < count a := by
  have hpos := countWhere_pos (V := (· = some a)) hk
  rw [← refs.counted a (refs.holds k a hk)] at hpos
  exact_mod_cast hpos

/-- What is not live is nowhere. -/
theorem not_held (refs : RefCounts held count live) (hlive : live a = false) (k : κ) : held k ≠ some a := by
  intro hk
  simp [refs.holds k a hk] at hlive

/-- An object that is counted once is held in one place only. -/
theorem eq_of_count_eq_one (refs : RefCounts held count live) (hk : held k = some a) (hcount : count a = 1)
    {k' : κ} (hk' : held k' = some a) : k' = k := by
  have hcard := refs.counted a (refs.holds k a hk)
  rw [hcount, Nat.cast_one] at hcard
  exact Set.encard_le_one_iff.1 hcard.ge k' k hk' hk

variable [DecidableEq α]

/-- The counter of an object that is not live means nothing. -/
theorem setUnused (refs : RefCounts held count live) (hlive : live a = false) (n : ℕ) :
    RefCounts held (Function.update count a n) live := by
  refine ⟨?_, refs.holds, refs.isHeld⟩
  intro b hb
  have hne : b ≠ a := by
    rintro rfl
    simp [hlive] at hb
  rw [Function.update_of_ne hne]
  exact refs.counted b hb

section Place

variable [DecidableEq κ]

omit [DecidableEq α] in
/-- A place that was empty is one more. -/
theorem counted_hold (hk : held k = none) :
    countWhere (· = some a) (Function.update held k (some a)) = countWhere (· = some a) held + 1 := by
  apply countWhere_update_add
  · simp [hk]
  · rfl

omit [DecidableEq α] in
/-- The other objects are counted as before when a place changes from or to nothing. -/
theorem counted_of_ne {b : α} (hne : b ≠ a) {old new : Option α} (hk : held k = old)
    (hold : old = none ∨ old = some a) (hnew : new = none ∨ new = some a) :
    countWhere (· = some b) (Function.update held k new) = countWhere (· = some b) held := by
  apply countWhere_update_same
  rw [hk]
  rcases hold with rfl | rfl <;> rcases hnew with rfl | rfl <;> simp [Ne.symm hne]

/-- A further place takes a live object. -/
theorem acquire (refs : RefCounts held count live) (hk : held k = none) (hlive : live a = true) :
    RefCounts (Function.update held k (some a)) (Function.update count a (count a + 1)) live := by
  constructor
  case counted =>
    intro b hb
    by_cases heq : b = a
    · subst heq
      rw [Function.update_self, counted_hold hk, ← refs.counted b hb, Nat.cast_add_one]
    · rw [Function.update_of_ne heq, counted_of_ne heq hk (Or.inl rfl) (Or.inr rfl)]
      exact refs.counted b hb
  case holds =>
    intro k' b hb
    by_cases heq : k' = k
    · subst heq
      rw [Function.update_self] at hb
      exact Option.some.inj hb ▸ hlive
    · rw [Function.update_of_ne heq] at hb
      exact refs.holds k' b hb
  case isHeld =>
    intro b hb
    obtain ⟨k', hk'⟩ := refs.isHeld b hb
    have hne : k' ≠ k := by
      rintro rfl
      simp [hk] at hk'
    exact ⟨k', by rwa [Function.update_of_ne hne]⟩

/-- A new object is counted once, for its first place. -/
theorem create (refs : RefCounts held count live) (hk : held k = none) (hlive : live a = false) :
    RefCounts (Function.update held k (some a)) (Function.update count a 1) (Function.update live a true) := by
  constructor
  case counted =>
    intro b hb
    by_cases heq : b = a
    · subst heq
      have hnone : countWhere (· = some b) held = 0 := countWhere_of_forall_not (refs.not_held hlive)
      rw [Function.update_self, counted_hold hk, hnone, zero_add, Nat.cast_one]
    · rw [Function.update_of_ne heq] at hb
      rw [Function.update_of_ne heq, counted_of_ne heq hk (Or.inl rfl) (Or.inr rfl)]
      exact refs.counted b hb
  case holds =>
    intro k' b hb
    by_cases hb' : b = a
    · subst hb'
      exact Function.update_self ..
    · rw [Function.update_of_ne hb']
      by_cases heq : k' = k
      · subst heq
        rw [Function.update_self] at hb
        exact absurd (Option.some.inj hb).symm hb'
      · rw [Function.update_of_ne heq] at hb
        exact refs.holds k' b hb
  case isHeld =>
    intro b hb
    by_cases heq : b = a
    · subst heq
      exact ⟨k, Function.update_self ..⟩
    · rw [Function.update_of_ne heq] at hb
      obtain ⟨k', hk'⟩ := refs.isHeld b hb
      have hne : k' ≠ k := by
        rintro rfl
        simp [hk] at hk'
      exact ⟨k', by rwa [Function.update_of_ne hne]⟩

/-- One of several places lets go. -/
theorem releaseShared (refs : RefCounts held count live) (hk : held k = some a) (hcount : 1 < count a) :
    RefCounts (Function.update held k none) (Function.update count a (count a - 1)) live := by
  have hlive := refs.holds k a hk
  have hless : countWhere (· = some a) (Function.update held k none) + 1 = count a :=
    (countWhere_update_sub (V := (· = some a)) hk (by simp)).trans (refs.counted a hlive).symm
  obtain ⟨n, hn, hsucc⟩ := exists_of_add_one_eq hless
  constructor
  case counted =>
    intro b hb
    by_cases heq : b = a
    · subst heq
      rw [Function.update_self, hn, hsucc, Nat.add_sub_cancel]
    · rw [Function.update_of_ne heq, counted_of_ne heq hk (Or.inr rfl) (Or.inl rfl)]
      exact refs.counted b hb
  case holds =>
    intro k' b hb
    by_cases heq : k' = k
    · subst heq
      simp at hb
    · rw [Function.update_of_ne heq] at hb
      exact refs.holds k' b hb
  case isHeld =>
    intro b hb
    obtain ⟨k', hk'⟩ := refs.isHeld b hb
    by_cases heq : k' = k
    · subst heq
      obtain rfl : a = b := Option.some.inj (hk.symm.trans hk')
      have hpos : (0 : ℕ∞) < countWhere (· = some a) (Function.update held k' none) := by
        rw [hn]
        exact_mod_cast (by omega : 0 < n)
      obtain ⟨k'', hk''⟩ := Set.encard_pos.1 hpos
      exact ⟨k'', hk''⟩
    · exact ⟨k', by rwa [Function.update_of_ne heq]⟩

/-- The last place lets go, and the object is gone. -/
theorem releaseLast (refs : RefCounts held count live) (hk : held k = some a) (hcount : count a = 1) (n : ℕ) :
    RefCounts (Function.update held k none) (Function.update count a n) (Function.update live a false) := by
  constructor
  case counted =>
    intro b hb
    by_cases heq : b = a
    · subst heq
      simp at hb
    · rw [Function.update_of_ne heq] at hb
      rw [Function.update_of_ne heq, counted_of_ne heq hk (Or.inr rfl) (Or.inl rfl)]
      exact refs.counted b hb
  case holds =>
    intro k' b hb
    by_cases heq : k' = k
    · subst heq
      simp at hb
    · rw [Function.update_of_ne heq] at hb
      have hne : b ≠ a := by
        rintro rfl
        exact heq (refs.eq_of_count_eq_one hk hcount hb)
      rw [Function.update_of_ne hne]
      exact refs.holds k' b hb
  case isHeld =>
    intro b hb
    by_cases heq : b = a
    · subst heq
      simp at hb
    · rw [Function.update_of_ne heq] at hb
      obtain ⟨k', hk'⟩ := refs.isHeld b hb
      have hne : k' ≠ k := by
        rintro rfl
        exact heq (Option.some.inj (hk'.symm.trans hk))
      exact ⟨k', by rwa [Function.update_of_ne hne]⟩

/-- A place hands an object over to another one. -/
theorem move (refs : RefCounts held count live) (hk : held k = some a) {k' : κ} (hk' : held k' = none) :
    RefCounts (Function.update (Function.update held k none) k' (some a)) count live := by
  have hne : k' ≠ k := by
    rintro rfl
    simp [hk] at hk'
  have hempty : Function.update held k none k' = none := by rwa [Function.update_of_ne hne]
  have hswap : Function.update (Function.update held k none) k' (some a) k = none := by
    rw [Function.update_of_ne hne.symm, Function.update_self]
  constructor
  case counted =>
    intro b hb
    by_cases heq : b = a
    · subst heq
      have hless : countWhere (· = some b) (Function.update held k none) + 1 = countWhere (· = some b) held :=
        countWhere_update_sub (V := (· = some b)) hk (by simp)
      rw [counted_hold hempty, hless]
      exact refs.counted b hb
    · rw [counted_of_ne heq hempty (Or.inl rfl) (Or.inr rfl), counted_of_ne heq hk (Or.inr rfl) (Or.inl rfl)]
      exact refs.counted b hb
  case holds =>
    intro k'' b hb
    by_cases heq' : k'' = k'
    · subst heq'
      rw [Function.update_self] at hb
      exact Option.some.inj hb ▸ refs.holds k a hk
    · rw [Function.update_of_ne heq'] at hb
      by_cases heq : k'' = k
      · subst heq
        simp at hb
      · rw [Function.update_of_ne heq] at hb
        exact refs.holds k'' b hb
  case isHeld =>
    intro b hb
    by_cases heq : b = a
    · subst heq
      exact ⟨k', Function.update_self ..⟩
    · obtain ⟨k'', hk''⟩ := refs.isHeld b hb
      have hne' : k'' ≠ k' := by
        rintro rfl
        simp [hk'] at hk''
      have hne'' : k'' ≠ k := by
        rintro rfl
        exact heq (Option.some.inj (hk''.symm.trans hk))
      exact ⟨k'', by rwa [Function.update_of_ne hne', Function.update_of_ne hne'']⟩

end Place

omit [DecidableEq α] in
/-- Places that hold at least what is counted hold nothing more. -/
theorem held_of_counts {held' : κ → Option α} (refs : RefCounts held count live)
    (refs' : RefCounts held' count live) (hle : ∀ k a, held k = some a → held' k = some a) {k : κ} {a : α}
    (hk : held' k = some a) : held k = some a := by
  have hlive := refs'.holds k a hk
  have hcard : (count a : ℕ∞) = {k | held k = some a}.encard := refs.counted a hlive
  have hcard' : (count a : ℕ∞) = {k | held' k = some a}.encard := refs'.counted a hlive
  have hfinite : {k | held k = some a}.Finite := Set.encard_ne_top_iff.1 (hcard ▸ ENat.natCast_ne_top _)
  have hsubset : {k | held k = some a} ⊆ {k | held' k = some a} := fun k => hle k a
  have heq := hfinite.eq_of_subset_of_encard_le hsubset (hcard'.symm.trans hcard).le
  have hmem : k ∈ {k | held' k = some a} := hk
  rwa [← heq] at hmem

end RefCounts
