/-
Module: Chaotix.Proofs.SortedArrays
Layer: Proofs
Purpose: `qsort` beside its array as a sequence of elements. A swap of bytes is a swap of elements; a partition puts the
  pivot behind the smaller elements, and the two parts are sorted one after the other.
Imports: Mathlib.Tactic, Chaotix.Lib.Rearrangement, Chaotix.Kernel.Qsort
Trusted boundary: none
Main exports: memswap_apply, SortJob.elements, SortJob.swap_eq, SortJob.partition_spec, SortJob.qsort_spec, qsort_sorts
-/
import Mathlib.Tactic
import Chaotix.Lib.Rearrangement
import Chaotix.Kernel.Qsort

namespace Chaotix

open CString

/-- The bytes of two places that are the same or apart change places. -/
theorem memswap_apply {mem : Memory} {s1 s2 n : Nat} (hapart : s1 = s2 ∨ s1 + n ≤ s2 ∨ s2 + n ≤ s1) (x : Nat) :
    memswap mem s1 s2 n x =
      if s1 ≤ x ∧ x < s1 + n then mem (s2 + (x - s1))
      else if s2 ≤ x ∧ x < s2 + n then mem (s1 + (x - s2)) else mem x := by
  induction n generalizing mem s1 s2 with
  | zero =>
      rw [memswap, if_neg (by omega), if_neg (by omega)]
  | succ n ih =>
      rw [memswap, ih (by omega)]
      simp only [Function.update_apply]
      split_ifs <;> first | (exfalso; omega) | rfl | (congr 1; omega)

namespace SortJob

variable {job : SortJob} {mem mem' : Memory} {s n i j : Nat}

/-- The address of an element. -/
def place (job : SortJob) (k : Nat) : Nat := job.base + k * job.size

/-- The array as a sequence of elements, which goes on behind its end. -/
def elements (job : SortJob) (mem : Memory) (k : Nat) : Fin job.size → UInt8 := job.element mem (job.place k)

/-- Whether an element is smaller than another one. -/
def Less (job : SortJob) (a b : Fin job.size → UInt8) : Prop := job.compar a b < 0

/-- Nothing outside of the array has been changed. -/
def SameOutside (job : SortJob) (mem mem' : Memory) : Prop :=
  ∀ x, x < job.base ∨ job.base + job.nmemb * job.size ≤ x → mem' x = mem x

theorem place_add (k n : Nat) : job.place k + n * job.size = job.place (k + n) := by
  rw [place, place, Nat.add_mul, Nat.add_assoc]

/-- Two elements are apart. -/
theorem place_apart (job : SortJob) {k l : Nat} (hne : k ≠ l) :
    job.place k + job.size ≤ job.place l ∨ job.place l + job.size ≤ job.place k := by
  have hapart : ∀ k l, k < l → job.place k + job.size ≤ job.place l := by
    intro k l hkl
    have hle : (k + 1) * job.size ≤ l * job.size := Nat.mul_le_mul_right _ hkl
    rw [Nat.add_mul, Nat.one_mul] at hle
    rw [place, place]
    omega
  rcases Nat.lt_or_gt_of_ne hne with hlt | hgt
  · exact .inl (hapart k l hlt)
  · exact .inr (hapart l k hgt)

theorem inside_place {k : Nat} (hk : k < job.nmemb) : job.Inside (job.place k) := by
  refine ⟨Nat.le_add_right _ _, ?_⟩
  have hle : (k + 1) * job.size ≤ job.nmemb * job.size := Nat.mul_le_mul_right _ hk
  rw [Nat.add_mul, Nat.one_mul] at hle
  rw [place]
  omega

/-- Two elements that are swapped. -/
theorem swap_eq (mem : Memory) {a b : Nat} (ha : a < job.nmemb) (hb : b < job.nmemb) :
    ∃ mem', job.swap mem (job.place a) (job.place b) = .ok mem' ∧
      job.elements mem' = job.elements mem ∘ Equiv.swap a b ∧ job.SameOutside mem mem' := by
  have hinside := inside_place ha
  have hinside' := inside_place hb
  have hplaces : job.place a = job.place b ∨ job.place a + job.size ≤ job.place b ∨
      job.place b + job.size ≤ job.place a := by
    by_cases hab : a = b
    · exact .inl (congrArg job.place hab)
    · exact .inr (place_apart job hab)
  refine ⟨_, by rw [swap, if_pos ⟨hinside, hinside'⟩], ?_, ?_⟩
  · funext k n
    have hn := n.isLt
    rw [elements, element, memswap_apply hplaces, Function.comp_apply, Equiv.swap_apply_def, elements, element]
    by_cases hka : k = a
    · subst hka
      rw [if_pos (by omega), if_pos rfl, Nat.add_sub_cancel_left]
    · have hfirst := place_apart job hka
      rw [if_neg (by omega), if_neg hka]
      by_cases hkb : k = b
      · subst hkb
        rw [if_pos (by omega), if_pos rfl, Nat.add_sub_cancel_left]
      · have hsecond := place_apart job hkb
        rw [if_neg (by omega), if_neg hkb]
  · intro x hx
    unfold Inside at hinside hinside'
    rw [memswap_apply hplaces, if_neg (by omega), if_neg (by omega)]

theorem SameOutside.trans {mem1 mem2 : Memory} (h : job.SameOutside mem mem1) (h' : job.SameOutside mem1 mem2) :
    job.SameOutside mem mem2 := fun x hx => (h' x hx).trans (h x hx)

/-- The loop puts smaller elements in front of `i`, and leaves the pivot where it is. -/
theorem partitionLoop_spec (mem : Memory) (hi : 1 ≤ i) (hij : i ≤ j) (hj : j ≤ n) (hn : s + n ≤ job.nmemb)
    (hless : ∀ k, s + 1 ≤ k → k < s + i → job.Less (job.elements mem k) (job.elements mem s))
    (hnot : ∀ k, s + i ≤ k → k < s + j → ¬ job.Less (job.elements mem k) (job.elements mem s)) :
    ∃ mem' i', job.partitionLoop mem (job.place s) n i j = .ok (mem', i') ∧ 1 ≤ i' ∧ i' ≤ n ∧
      Rearranged (s + 1) (s + n) (job.elements mem) (job.elements mem') ∧ job.SameOutside mem mem' ∧
      (∀ k, s + 1 ≤ k → k < s + i' → job.Less (job.elements mem' k) (job.elements mem' s)) ∧
      ∀ k, s + i' ≤ k → k < s + n → ¬ job.Less (job.elements mem' k) (job.elements mem' s) := by
  induction hm : n - j generalizing mem i j with
  | zero =>
      obtain rfl : j = n := by omega
      refine ⟨mem, i, ?_, hi, hij, .refl _ _ _, fun x _ => rfl, hless, hnot⟩
      rw [partitionLoop, if_neg (Nat.lt_irrefl j)]
  | succ m ih =>
      have hlt : j < n := by omega
      rw [partitionLoop, if_pos hlt, place_add, place_add]
      by_cases hsmaller : job.Less (job.elements mem (s + j)) (job.elements mem s)
      · obtain ⟨mem1, hswap, helements, hsame⟩ := swap_eq mem (show s + j < job.nmemb by omega)
          (show s + i < job.nmemb by omega)
        have hat : ∀ k, job.elements mem1 k = job.elements mem (if k = s + j then s + i else if k = s + i then s + j
            else k) := by
          intro k
          rw [helements, Function.comp_apply, Equiv.swap_apply_def]
        have hpivot : job.elements mem1 s = job.elements mem s := by
          rw [hat, if_neg (by omega), if_neg (by omega)]
        have hless' : ∀ k, s + 1 ≤ k → k < s + (i + 1) → job.Less (job.elements mem1 k) (job.elements mem1 s) := by
          intro k hlo hhi
          rw [hpivot, hat]
          split_ifs with hkj hki
          · exact (show s + i = s + j by omega) ▸ hsmaller
          · exact hsmaller
          · exact hless k hlo (by omega)
        have hnot' : ∀ k, s + (i + 1) ≤ k → k < s + (j + 1) →
            ¬ job.Less (job.elements mem1 k) (job.elements mem1 s) := by
          intro k hlo hhi
          rw [hpivot, hat]
          split_ifs with hkj hki
          · exact hnot (s + i) (Nat.le_refl _) (by omega)
          · omega
          · exact hnot k (by omega) (by omega)
        obtain ⟨mem', i', hloop, hi', hn', hrearranged, hsame', hfront, hbehind⟩ :=
          ih mem1 (by omega) (by omega) (by omega) hless' hnot' (by omega)
        have hfirst : Rearranged (s + 1) (s + n) (job.elements mem) (job.elements mem1) := by
          rw [helements]
          exact .swap (by omega) (by omega) (by omega) (by omega) _
        refine ⟨mem', i', ?_, hi', hn', hfirst.trans hrearranged, hsame.trans hsame', hfront, hbehind⟩
        have hcompar : job.compar (job.element mem (job.place (s + j))) (job.element mem (job.place s)) < 0 := hsmaller
        rw [if_pos hcompar, hswap]
        exact hloop
      · have hcompar : ¬ job.compar (job.element mem (job.place (s + j))) (job.element mem (job.place s)) < 0 :=
          hsmaller
        have hnot' : ∀ k, s + i ≤ k → k < s + (j + 1) → ¬ job.Less (job.elements mem k) (job.elements mem s) := by
          intro k hlo hhi
          by_cases hkj : k = s + j
          · exact hkj ▸ hsmaller
          · exact hnot k hlo (by omega)
        rw [if_neg hcompar]
        exact ih mem hi (by omega) (by omega) hless hnot' (by omega)

/-- The pivot goes behind the smaller elements and in front of the others. -/
theorem partition_spec (mem : Memory) (hmany : 1 < n) (hn : s + n ≤ job.nmemb) :
    ∃ mem' i, job.partition mem (job.place s) n = .ok (mem', i) ∧ 1 ≤ i ∧ i ≤ n ∧
      Rearranged s (s + n) (job.elements mem) (job.elements mem') ∧ job.SameOutside mem mem' ∧
      (∀ k, s ≤ k → k < s + (i - 1) → job.Less (job.elements mem' k) (job.elements mem' (s + (i - 1)))) ∧
      ∀ k, s + (i - 1) < k → k < s + n → ¬ job.Less (job.elements mem' k) (job.elements mem' (s + (i - 1))) := by
  obtain ⟨mem1, hpivot, helements1, hsame1⟩ := swap_eq mem (show s + n / 2 < job.nmemb by omega)
    (show s < job.nmemb by omega)
  obtain ⟨mem2, i, hloop, hi, hin, hrearranged, hsame2, hfront, hbehind⟩ :=
    partitionLoop_spec mem1 (Nat.le_refl 1) (Nat.le_refl 1) (Nat.le_of_lt hmany) hn
      (fun k hlo hhi => absurd hhi (by omega)) fun k hlo hhi => absurd hhi (by omega)
  obtain ⟨mem3, hlast, helements3, hsame3⟩ := swap_eq mem2 (show s < job.nmemb by omega)
    (show s + (i - 1) < job.nmemb by omega)
  have hat : ∀ k, job.elements mem3 k = job.elements mem2 (if k = s then s + (i - 1) else if k = s + (i - 1) then s
      else k) := by
    intro k
    rw [helements3, Function.comp_apply, Equiv.swap_apply_def]
  have hplace : job.elements mem3 (s + (i - 1)) = job.elements mem2 s := by
    rw [hat]
    by_cases hfirst : s + (i - 1) = s
    · rw [if_pos hfirst, hfirst]
    · rw [if_neg hfirst, if_pos rfl]
  refine ⟨mem3, i, ?_, hi, hin, ?_, (hsame1.trans hsame2).trans hsame3, ?_, ?_⟩
  · dsimp only [partition]
    rw [if_pos (by omega), place_add, hpivot]
    simp only [hloop, place_add, hlast]
  · have h1 : Rearranged s (s + n) (job.elements mem) (job.elements mem1) := by
      rw [helements1]
      exact .swap (by omega) (by omega) (by omega) (by omega) _
    have h3 : Rearranged s (s + n) (job.elements mem2) (job.elements mem3) := by
      rw [helements3]
      exact .swap (by omega) (by omega) (by omega) (by omega) _
    exact (h1.trans (hrearranged.mono (Nat.le_succ s) (Nat.le_refl _))).trans h3
  · intro k hlo hhi
    rw [hplace, hat]
    split_ifs with hks
    · exact hfront _ (by omega) (by omega)
    · omega
    · exact hfront k (by omega) (by omega)
  · intro k hlo hhi
    rw [hplace, hat]
    split_ifs with hks
    · omega
    · omega
    · exact hbehind k (by omega) hhi

/-- A comparison under which no two elements are each smaller than the other, and smaller than smaller is smaller. -/
structure Consistent (job : SortJob) : Prop where
  trans : ∀ a b c, job.Less a b → job.Less b c → job.Less a c
  asymm : ∀ a b, job.Less a b → ¬ job.Less b a

/-- A part of the array is sorted, and nothing else is changed. -/
theorem qsort_spec (hconsistent : job.Consistent) (mem : Memory) (hn : s + n ≤ job.nmemb) :
    ∃ mem', job.qsort mem (job.place s) n = .ok mem' ∧
      Rearranged s (s + n) (job.elements mem) (job.elements mem') ∧ job.SameOutside mem mem' ∧
      SortedOn job.Less s (s + n) (job.elements mem') := by
  induction n using Nat.strongRecOn generalizing mem s with
  | ind n ih =>
      rw [qsort]
      by_cases hmany : 1 < n
      · obtain ⟨mem1, i, hpartition, hi, hin, hrearranged, hsame, hfront, hbehind⟩ := partition_spec mem hmany hn
        rw [dif_pos hmany]
        split
        · rename_i e hfails
          rw [hpartition] at hfails
          cases hfails
        · rename_i mem' i' hreturns
          rw [hpartition] at hreturns
          obtain ⟨rfl, rfl⟩ := Prod.mk.inj (Except.ok.inj hreturns)
          rw [place_add]
          split
          · -- the elements behind the pivot first
            obtain ⟨mem2, hcall2, hrearranged2, hsame2, hsorted2⟩ :=
              ih (n - i) (by omega) mem1 (show s + i + (n - i) ≤ job.nmemb by omega)
            obtain ⟨mem3, hcall3, hrearranged3, hsame3, hsorted3⟩ :=
              ih (i - 1) (by omega) mem2 (show s + (i - 1) ≤ job.nmemb by omega)
            refine ⟨mem3, by rw [hcall2]; exact hcall3, ?_, (hsame.trans hsame2).trans hsame3, ?_⟩
            · exact (hrearranged.trans (hrearranged2.mono (by omega) (by omega))).trans
                (hrearranged3.mono (Nat.le_refl s) (by omega))
            · have hpivot : job.elements mem3 (s + (i - 1)) = job.elements mem1 (s + (i - 1)) :=
                (hrearranged3.outside (by omega)).trans (hrearranged2.outside (by omega))
              refine .of_parts hconsistent.trans hconsistent.asymm hsorted3 (p := s + (i - 1)) ?_ ?_ ?_
              · refine (hsorted2.congr fun k hlo hhi => hrearranged3.outside (by omega)).mono (by omega) (by omega)
              · rw [hpivot]
                refine hrearranged3.forall_range (p := fun a => job.Less a _) fun k hlo hhi => ?_
                rw [hrearranged2.outside (by omega)]
                exact hfront k hlo hhi
              · intro k hlo hhi
                rw [hpivot, hrearranged3.outside (by omega)]
                refine hrearranged2.forall_range (p := fun a => ¬ job.Less a _) (fun k hlo hhi => ?_) k (by omega)
                  (by omega)
                exact hbehind k (by omega) (by omega)
          · -- the elements in front of the pivot first
            obtain ⟨mem2, hcall2, hrearranged2, hsame2, hsorted2⟩ :=
              ih (i - 1) (by omega) mem1 (show s + (i - 1) ≤ job.nmemb by omega)
            obtain ⟨mem3, hcall3, hrearranged3, hsame3, hsorted3⟩ :=
              ih (n - i) (by omega) mem2 (show s + i + (n - i) ≤ job.nmemb by omega)
            refine ⟨mem3, by rw [hcall2]; exact hcall3, ?_, (hsame.trans hsame2).trans hsame3, ?_⟩
            · exact (hrearranged.trans (hrearranged2.mono (Nat.le_refl s) (by omega))).trans
                (hrearranged3.mono (by omega) (by omega))
            · have hpivot : job.elements mem3 (s + (i - 1)) = job.elements mem1 (s + (i - 1)) :=
                (hrearranged3.outside (by omega)).trans (hrearranged2.outside (by omega))
              refine .of_parts hconsistent.trans hconsistent.asymm (p := s + (i - 1)) ?_ ?_ ?_ ?_
              · exact hsorted2.congr fun k hlo hhi => hrearranged3.outside (by omega)
              · exact hsorted3.mono (by omega) (by omega)
              · intro k hlo hhi
                rw [hpivot, hrearranged3.outside (by omega)]
                exact hrearranged2.forall_range (p := fun a => job.Less a _) hfront k hlo hhi
              · intro k hlo hhi
                rw [hpivot]
                refine hrearranged3.forall_range (p := fun a => ¬ job.Less a _) (fun k hlo hhi => ?_) k (by omega)
                  (by omega)
                rw [hrearranged2.outside (by omega)]
                exact hbehind k (by omega) (by omega)
      · rw [dif_neg hmany]
        exact ⟨mem, rfl, .refl _ _ _, fun x _ => rfl, .of_le_one (by omega)⟩

/-- The elements of the array, in their order. -/
def contents (job : SortJob) (mem : Memory) : List (Fin job.size → UInt8) :=
  (List.range job.nmemb).map (job.elements mem)

end SortJob

/-- `qsort` returns, with the elements of the array in non-decreasing order, and nothing outside of it changed. -/
theorem qsort_sorts {job : SortJob} (hconsistent : job.Consistent) (mem : Memory) :
    ∃ mem', job.qsort mem job.base job.nmemb = .ok mem' ∧ (job.contents mem').Perm (job.contents mem) ∧
      (job.contents mem').Pairwise (fun a b => ¬ job.Less b a) ∧ job.SameOutside mem mem' := by
  obtain ⟨mem', hcall, hrearranged, hsame, hsorted⟩ :=
    job.qsort_spec hconsistent mem (Nat.le_of_eq (Nat.zero_add job.nmemb))
  rw [Nat.zero_add] at hrearranged hsorted
  have hplace : job.place 0 = job.base := by rw [SortJob.place, Nat.zero_mul, Nat.add_zero]
  refine ⟨mem', hplace ▸ hcall, hrearranged.perm, ?_, hsame⟩
  rw [SortJob.contents, List.pairwise_map]
  refine List.pairwise_lt_range.imp_of_mem fun {a b} _ hb hab => ?_
  exact hsorted a b (Nat.zero_le a) hab (List.mem_range.1 hb)

/-- Four bytes, in the order of their values. -/
def fourBytes : SortJob := ⟨4096, 4, 1, fun a b => (a 0).toNat - (b 0).toNat⟩

theorem fourBytes_consistent : fourBytes.Consistent where
  trans a b c hab hbc := by
    unfold SortJob.Less fourBytes at *
    simp only at *
    omega
  asymm a b hab := by
    unfold SortJob.Less fourBytes at *
    simp only at *
    omega

/-- The bytes 3, 1, 2 and 1. -/
theorem qsort_sorts_fourBytes :
    ∃ mem', fourBytes.qsort (writeBytes (fun _ => 0) 4096 [3, 1, 2, 1]) 4096 4 = .ok mem' ∧
      (fourBytes.contents mem').Perm (fourBytes.contents (writeBytes (fun _ => 0) 4096 [3, 1, 2, 1])) ∧
      (fourBytes.contents mem').Pairwise (fun a b => ¬ fourBytes.Less b a) ∧
      fourBytes.SameOutside (writeBytes (fun _ => 0) 4096 [3, 1, 2, 1]) mem' :=
  qsort_sorts fourBytes_consistent _

end Chaotix
