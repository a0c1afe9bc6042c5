/-
Module: Chaotix.Lib.Preorder
Layer: Lib
Purpose: The walk over everything below a list of starting points, in preorder and without a record of what has been
  visited. It ends exactly when nothing reachable lies below itself. It visits an element once for each way to come to
  it, so each one once exactly when nothing has two predecessors and no starting point has one.
Imports: Mathlib.Tactic
Trusted boundary: none
Main exports: visitAll, preorder, Below, ReachedFrom, walk_ends_iff, mem_walk_iff, count_walk, walk_nodup_iff
-/
import Mathlib.Tactic

universe u v

variable {α : Type u} {β : Type v}

/-- Visit one after the other. A visit that does not end does not let the whole end. -/
def visitAll (visit : α → Option (List β)) : List α → Option (List β)
  | [] => some []
  | a :: as =>
      match visit a, visitAll visit as with
      | some l, some ls => some (l ++ ls)
      | _, _ => none

/-- The element and everything below it, at most so deep. -/
def preorder (next : α → List α) : Nat → α → Option (List α)
  | 0, _ => none
  | n + 1, a => (visitAll (preorder next n) (next a)).map (List.cons a)

/-- One element lies below another, by one step or more. -/
def Below (next : α → List α) (a z : α) : Prop := Relation.TransGen (fun x y => y ∈ next x) a z

/-- An element is one of the starting points, or lies below one. -/
def ReachedFrom (next : α → List α) (as : List α) (z : α) : Prop :=
  ∃ a ∈ as, Relation.ReflTransGen (fun x y => y ∈ next x) a z

/-! ### Visits -/

section Visits

variable {visit visit' : α → Option (List β)} {a : α} {as : List α} {l : List β}

theorem visitAll_cons_eq_some :
    visitAll visit (a :: as) = some l ↔ ∃ l₁ l₂, visit a = some l₁ ∧ visitAll visit as = some l₂ ∧ l₁ ++ l₂ = l := by
  rw [visitAll]
  cases visit a with
  | none => simp
  | some l₁ =>
      cases visitAll visit as with
      | none => simp
      | some l₂ => simp

theorem visitAll_append_eq_some {bs : List α} :
    visitAll visit (as ++ bs) = some l ↔
      ∃ l₁ l₂, visitAll visit as = some l₁ ∧ visitAll visit bs = some l₂ ∧ l₁ ++ l₂ = l := by
  induction as generalizing l with
  | nil => simp [visitAll]
  | cons a as ih =>
      rw [List.cons_append, visitAll_cons_eq_some]
      constructor
      · rintro ⟨l₁, l₂, hfirst, hrest, rfl⟩
        obtain ⟨l₃, l₄, has, hbs, rfl⟩ := ih.1 hrest
        exact ⟨l₁ ++ l₃, l₄, visitAll_cons_eq_some.2 ⟨l₁, l₃, hfirst, has, rfl⟩, hbs, List.append_assoc l₁ l₃ l₄⟩
      · rintro ⟨l', l₄, hall, hbs, rfl⟩
        obtain ⟨l₁, l₃, hfirst, has, rfl⟩ := visitAll_cons_eq_some.1 hall
        exact ⟨l₁, l₃ ++ l₄, hfirst, ih.2 ⟨l₃, l₄, has, hbs, rfl⟩, (List.append_assoc l₁ l₃ l₄).symm⟩

/-- All visits end when each one does. -/
theorem visitAll_ends_iff : (∃ l, visitAll visit as = some l) ↔ ∀ a ∈ as, ∃ l, visit a = some l := by
  induction as with
  | nil => simp [visitAll]
  | cons a as ih =>
      rw [List.forall_mem_cons, ← ih]
      constructor
      · rintro ⟨l, hall⟩
        obtain ⟨l₁, l₂, hfirst, hrest, -⟩ := visitAll_cons_eq_some.1 hall
        exact ⟨⟨l₁, hfirst⟩, l₂, hrest⟩
      · rintro ⟨⟨l₁, hfirst⟩, l₂, hrest⟩
        exact ⟨l₁ ++ l₂, visitAll_cons_eq_some.2 ⟨l₁, l₂, hfirst, hrest, rfl⟩⟩

/-- Visits that do more. -/
theorem visitAll_mono (h : ∀ a l, visit a = some l → visit' a = some l) (hall : visitAll visit as = some l) :
    visitAll visit' as = some l := by
  induction as generalizing l with
  | nil => exact hall
  | cons a as ih =>
      obtain ⟨l₁, l₂, hfirst, hrest, rfl⟩ := visitAll_cons_eq_some.1 hall
      exact visitAll_cons_eq_some.2 ⟨l₁, l₂, h a l₁ hfirst, ih hrest, rfl⟩

theorem mem_visitAll {b : β} (hall : visitAll visit as = some l) : b ∈ l ↔ ∃ a ∈ as, ∃ l', visit a = some l' ∧ b ∈ l' := by
  induction as generalizing l with
  | nil =>
      obtain rfl : [] = l := Option.some.inj hall
      simp
  | cons a as ih =>
      obtain ⟨l₁, l₂, hfirst, hrest, rfl⟩ := visitAll_cons_eq_some.1 hall
      rw [List.mem_append, ih hrest, List.exists_mem_cons_iff]
      simp [hfirst]

theorem visitAll_singleton : visitAll visit [a] = visit a := by
  rw [visitAll]
  cases visit a with
  | none => rfl
  | some l => simp [visitAll]

/-- Visits of visits. -/
theorem visitAll_flatMap {γ : Type*} (f : γ → List α) (cs : List γ) :
    visitAll visit (cs.flatMap f) = visitAll (fun c => visitAll visit (f c)) cs := by
  refine Option.ext fun l => ?_
  induction cs generalizing l with
  | nil => rfl
  | cons c cs ih =>
      rw [List.flatMap_cons, visitAll_append_eq_some, visitAll_cons_eq_some]
      simp only [ih]

theorem visitAll_map {γ : Type*} (f : γ → α) (cs : List γ) :
    visitAll visit (cs.map f) = visitAll (fun c => visit (f c)) cs := by
  induction cs with
  | nil => rfl
  | cons c cs ih => rw [List.map_cons, visitAll, visitAll, ih]

/-- Visits that are left out. -/
theorem visitAll_filter (p : α → Bool) :
    visitAll visit (as.filter p) = visitAll (fun a => if p a then visit a else some []) as := by
  induction as with
  | nil => rfl
  | cons a as ih =>
      rw [visitAll, List.filter_cons, ← ih]
      split
      · rfl
      · cases visitAll visit (as.filter p) <;> rfl

/-- Visits that return what others do, element by element. -/
theorem visitAll_translate {γ : Type*} {visit' : α → Option (List γ)} {R : List β → List γ → Prop} (hnil : R [] [])
    (happend : ∀ l₁ l₂ k₁ k₂, R l₁ k₁ → R l₂ k₂ → R (l₁ ++ l₂) (k₁ ++ k₂))
    (h : ∀ a ∈ as, ∀ l, visit a = some l → ∃ k, visit' a = some k ∧ R l k) (hall : visitAll visit as = some l) :
    ∃ k, visitAll visit' as = some k ∧ R l k := by
  induction as generalizing l with
  | nil =>
      obtain rfl : [] = l := Option.some.inj hall
      exact ⟨[], rfl, hnil⟩
  | cons a as ih =>
      obtain ⟨l₁, l₂, hfirst, hrest, rfl⟩ := visitAll_cons_eq_some.1 hall
      obtain ⟨ha, has⟩ := List.forall_mem_cons.1 h
      obtain ⟨k₁, hk₁, h₁⟩ := ha l₁ hfirst
      obtain ⟨k₂, hk₂, h₂⟩ := ih has hrest
      exact ⟨k₁ ++ k₂, visitAll_cons_eq_some.2 ⟨k₁, k₂, hk₁, hk₂, rfl⟩, happend l₁ l₂ k₁ k₂ h₁ h₂⟩

end Visits

/-! ### The walk -/

section Walk

variable {next : α → List α} {a z : α} {as l l' : List α} {n m : Nat}

theorem preorder_succ_eq_some :
    preorder next (n + 1) a = some l ↔ ∃ l', visitAll (preorder next n) (next a) = some l' ∧ a :: l' = l := by
  rw [preorder, Option.map_eq_some_iff]

theorem preorder_mono (hle : n ≤ m) (h : preorder next n a = some l) : preorder next m a = some l := by
  induction n generalizing a l m with
  | zero => cases h
  | succ n ih =>
      obtain ⟨m, rfl⟩ := Nat.exists_eq_add_of_le' (Nat.lt_of_lt_of_le (Nat.succ_pos n) hle)
      obtain ⟨l', hnext, rfl⟩ := preorder_succ_eq_some.1 h
      refine preorder_succ_eq_some.2 ⟨l', visitAll_mono (fun b k hb => ih ?_ hb) hnext, rfl⟩
      exact Nat.le_of_succ_le_succ hle

theorem walk_mono (hle : n ≤ m) (h : visitAll (preorder next n) as = some l) :
    visitAll (preorder next m) as = some l :=
  visitAll_mono (fun _ _ hb => preorder_mono hle hb) h

/-- Two walks that end visit the same. -/
theorem walk_unique (h : visitAll (preorder next n) as = some l) (h' : visitAll (preorder next m) as = some l') :
    l = l' := by
  have hboth := (walk_mono (Nat.le_max_left n m) h).symm.trans (walk_mono (Nat.le_max_right n m) h')
  exact Option.some.inj hboth

/-- A walk ends when the elements cannot be followed downwards for ever. -/
theorem walk_ends_iff_acc :
    (∃ n l, visitAll (preorder next n) as = some l) ↔ ∀ a ∈ as, Acc (fun y x => y ∈ next x) a := by
  constructor
  · rintro ⟨n, hends⟩ a ha
    rw [visitAll_ends_iff] at hends
    obtain ⟨l, hl⟩ := hends a ha
    clear ha hends
    induction n generalizing a l with
    | zero => cases hl
    | succ n ih =>
        obtain ⟨l', hnext, -⟩ := preorder_succ_eq_some.1 hl
        refine ⟨a, fun b hb => ?_⟩
        obtain ⟨k, hk⟩ := visitAll_ends_iff.1 ⟨l', hnext⟩ b hb
        exact ih b k hk
  · intro hacc
    have hall : ∀ bs : List α, (∀ b ∈ bs, ∃ n l, preorder next n b = some l) →
        ∃ n l, visitAll (preorder next n) bs = some l := by
      intro bs hbs
      induction bs with
      | nil => exact ⟨0, [], rfl⟩
      | cons b bs ih =>
          obtain ⟨⟨n, l, hfirst⟩, hrest⟩ := List.forall_mem_cons.1 hbs
          obtain ⟨m, k, hk⟩ := ih hrest
          refine ⟨max n m, l ++ k, visitAll_cons_eq_some.2 ⟨l, k, ?_, ?_, rfl⟩⟩
          · exact preorder_mono (Nat.le_max_left n m) hfirst
          · exact walk_mono (Nat.le_max_right n m) hk
    have hone : ∀ a, Acc (fun y x => y ∈ next x) a → ∃ n l, preorder next n a = some l := by
      intro a ha
      induction ha with
      | intro a _ ih =>
          obtain ⟨n, l, hnext⟩ := hall (next a) ih
          exact ⟨n + 1, a :: l, preorder_succ_eq_some.2 ⟨l, hnext, rfl⟩⟩
    exact hall as fun a ha => hone a (hacc a ha)

theorem acc_not_below_self (hacc : Acc (fun y x => y ∈ next x) a) : ¬Below next a a := by
  have htrans : Acc (Relation.TransGen fun y x => y ∈ next x) a := hacc.transGen
  intro hself
  have hswap : Relation.TransGen (fun y x => y ∈ next x) a a := Relation.transGen_swap.1 hself
  clear hself hacc
  induction htrans with
  | intro a _ ih => exact ih a hswap hswap

/-- Among finitely many elements, one can be followed downwards for ever only around a circle. -/
theorem acc_iff_no_circle [Finite α] :
    Acc (fun y x => y ∈ next x) a ↔
      ∀ x, Relation.ReflTransGen (fun x y => y ∈ next x) a x → ¬Below next x x := by
  constructor
  · intro hacc x hx
    have hx' : Acc (fun y x => y ∈ next x) x := by
      induction hx with
      | refl => exact hacc
      | tail _ hstep ih => exact ih.inv hstep
    exact acc_not_below_self hx'
  · intro hcircle
    -- below what is reached, the steps go down in a relation without circles
    let R : α → α → Prop := fun y x => Relation.ReflTransGen (fun x y => y ∈ next x) a x ∧ Below next x y
    have htrans : IsTrans α R := ⟨fun x y z hxy hyz => ⟨hyz.1, hyz.2.trans hxy.2⟩⟩
    have hirrefl : Std.Irrefl R := ⟨fun x hx => hcircle x hx.1 hx.2⟩
    have hwf : WellFounded R := Finite.wellFounded_of_trans_of_irrefl R
    have hall : ∀ x, Relation.ReflTransGen (fun x y => y ∈ next x) a x → Acc (fun y x => y ∈ next x) x := by
      intro x
      induction x using hwf.induction with
      | _ x ih =>
          intro hx
          exact ⟨x, fun y hy => ih y ⟨hx, .single hy⟩ (hx.tail hy)⟩
    exact hall a .refl

/-- The walk ends exactly when nothing that is reached lies below itself. -/
theorem walk_ends_iff [Finite α] :
    (∃ n l, visitAll (preorder next n) as = some l) ↔ ∀ x, ReachedFrom next as x → ¬Below next x x := by
  rw [walk_ends_iff_acc]
  constructor
  · rintro hacc x ⟨a, ha, hx⟩
    exact acc_iff_no_circle.1 (hacc a ha) x hx
  · intro hcircle a ha
    exact acc_iff_no_circle.2 fun x hx => hcircle x ⟨a, ha, hx⟩

end Walk

/-! ### What is visited -/

section Visited

variable [DecidableEq α] {next : α → List α} {a z : α} {as l : List α} {n : Nat}

/-- An element is visited as often as it is a starting point or comes directly below something that is visited. -/
theorem count_walk (h : visitAll (preorder next n) as = some l) (z : α) :
    l.count z = as.count z + (l.map fun x => (next x).count z).sum := by
  induction n generalizing as l with
  | zero =>
      cases as with
      | nil =>
          obtain rfl : [] = l := Option.some.inj h
          rfl
      | cons a as =>
          obtain ⟨l₁, l₂, hfirst, -⟩ := visitAll_cons_eq_some.1 h
          cases hfirst
  | succ n ih =>
      induction as generalizing l with
      | nil =>
          obtain rfl : [] = l := Option.some.inj h
          rfl
      | cons a as ihs =>
          obtain ⟨l₁, l₂, hfirst, hrest, rfl⟩ := visitAll_cons_eq_some.1 h
          obtain ⟨l₃, hnext, rfl⟩ := preorder_succ_eq_some.1 hfirst
          have hbelow := ih hnext
          have hothers := ihs hrest
          rw [List.cons_append, List.count_cons, List.count_append, hbelow, hothers, List.count_cons, List.map_cons,
            List.sum_cons, List.map_append, List.sum_append]
          omega

theorem mem_walk_iff_step (h : visitAll (preorder next n) as = some l) :
    z ∈ l ↔ z ∈ as ∨ ∃ x ∈ l, z ∈ next x := by
  have hcount := count_walk h z
  have hsum : 0 < (l.map fun x => (next x).count z).sum ↔ ∃ x ∈ l, z ∈ next x := by
    rw [List.sum_pos_iff_exists_pos_nat]
    simp [List.count_pos_iff]
  rw [← hsum, ← List.count_pos_iff, ← List.count_pos_iff, hcount]
  exact Nat.add_pos_iff_pos_or_pos

omit [DecidableEq α] in
theorem reached_of_mem_preorder (h : preorder next n a = some l) (hz : z ∈ l) :
    Relation.ReflTransGen (fun x y => y ∈ next x) a z := by
  induction n generalizing a l with
  | zero => cases h
  | succ n ih =>
      obtain ⟨l', hnext, rfl⟩ := preorder_succ_eq_some.1 h
      obtain rfl | hz := List.mem_cons.1 hz
      · exact .refl
      · obtain ⟨b, hb, k, hk, hz⟩ := (mem_visitAll hnext).1 hz
        exact .head hb (ih hk hz)

/-- Exactly what is reached is visited. -/
theorem mem_walk_iff (h : visitAll (preorder next n) as = some l) : z ∈ l ↔ ReachedFrom next as z := by
  constructor
  · intro hz
    obtain ⟨a, ha, l', hl', hz⟩ := (mem_visitAll h).1 hz
    exact ⟨a, ha, reached_of_mem_preorder hl' hz⟩
  · rintro ⟨a, ha, hz⟩
    induction hz with
    | refl => exact (mem_walk_iff_step h).2 (.inl ha)
    | tail _ hstep ih => exact (mem_walk_iff_step h).2 (.inr ⟨_, ih, hstep⟩)

/-- A sum that has a part only at one element of the list. -/
theorem sum_le_count {f : α → Nat} {x : α} (h : ∀ y ∈ l, f y ≤ if y = x then 1 else 0) :
    (l.map f).sum ≤ l.count x := by
  induction l with
  | nil => exact Nat.le_refl 0
  | cons y l ih =>
      obtain ⟨hy, hl⟩ := List.forall_mem_cons.1 h
      rw [List.map_cons, List.sum_cons, List.count_cons]
      have hrest := ih hl
      have hhead : (if y = x then 1 else 0) = if y == x then 1 else 0 := by simp
      omega

/-- A sum with parts at two elements of the list. -/
theorem two_le_sum {f : α → Nat} {x y : α} (hx : x ∈ l) (hy : y ∈ l) (hne : x ≠ y) (hfx : 1 ≤ f x) (hfy : 1 ≤ f y) :
    2 ≤ (l.map f).sum := by
  have hperm := List.perm_cons_erase hx
  have hy' : y ∈ l.erase x := (List.mem_erase_of_ne hne.symm).2 hy
  have hrest : 0 < ((l.erase x).map f).sum := List.sum_pos_iff_exists_pos_nat.2 ⟨_, List.mem_map_of_mem hy', hfy⟩
  rw [(hperm.map f).sum_eq, List.map_cons, List.sum_cons]
  omega

/-- From starting points that are all different, each element is visited once exactly when nothing that is visited is a
    starting point or comes directly below two others. -/
theorem walk_nodup_iff (h : visitAll (preorder next n) as = some l) (hstart : as.Nodup) (hnext : ∀ x, (next x).Nodup) :
    l.Nodup ↔ (∀ x ∈ l, ∀ z ∈ next x, z ∉ as) ∧ ∀ x ∈ l, ∀ y ∈ l, ∀ z ∈ next x, z ∈ next y → x = y := by
  constructor
  · intro hnodup
    rw [List.nodup_iff_count_le_one] at hnodup
    constructor
    · intro x hx z hz hzas
      have hcount := count_walk h z
      have hfirst := List.count_pos_iff.2 hzas
      have hsum : 0 < (l.map fun x => (next x).count z).sum :=
        List.sum_pos_iff_exists_pos_nat.2 ⟨_, List.mem_map_of_mem hx, List.count_pos_iff.2 hz⟩
      have hle := hnodup z
      omega
    · intro x hx y hy z hzx hzy
      by_contra hne
      have hcount := count_walk h z
      have hsum : 2 ≤ (l.map fun x => (next x).count z).sum :=
        two_le_sum hx hy hne (List.count_pos_iff.2 hzx) (List.count_pos_iff.2 hzy)
      have hle := hnodup z
      omega
  · rintro ⟨hroots, hone⟩
    have hreached : ∀ z ∈ l, l.count z ≤ 1 := by
      intro z hz
      obtain ⟨a, ha, hz⟩ := (mem_walk_iff h).1 hz
      induction hz with
      | refl =>
          have hnone : (l.map fun x => (next x).count a).sum = 0 := by
            rw [List.sum_eq_zero_iff_forall_eq_nat]
            intro k hk
            obtain ⟨x, hx, rfl⟩ := List.mem_map.1 hk
            exact List.count_eq_zero.2 fun hmem => hroots x hx a hmem ha
          rw [count_walk h, hnone]
          exact List.nodup_iff_count_le_one.1 hstart a
      | @tail x z hx hstep ih =>
          have hxl : x ∈ l := (mem_walk_iff h).2 ⟨a, ha, hx⟩
          have hnone : as.count z = 0 := List.count_eq_zero.2 (hroots x hxl z hstep)
          have hsum : (l.map fun x => (next x).count z).sum ≤ l.count x := by
            refine sum_le_count fun y hy => ?_
            split
            · exact List.nodup_iff_count_le_one.1 (hnext y) z
            · rename_i hne
              exact Nat.le_of_eq (List.count_eq_zero.2 fun hmem => hne (hone y hy x hxl z hmem hstep))
          rw [count_walk h, hnone, Nat.zero_add]
          exact Nat.le_trans hsum (ih hxl)
    refine List.nodup_iff_count_le_one.2 fun z => ?_
    by_cases hz : z ∈ l
    · exact hreached z hz
    · rw [List.count_eq_zero.2 hz]
      exact Nat.zero_le 1

end Visited
