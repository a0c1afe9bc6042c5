/-
Module: Chaotix.Proofs.Bystanders
Layer: Proofs
Purpose: Frame rules of the address space and of the range allocator. Some pages and some frames belong to bystanders:
  the frames are taken, and no other page is mapped to them. A function that works on other pages only leaves the
  mapping of these pages, and the contents and the counts of these frames, as they were.
Imports: Mathlib.Tactic, Chaotix.Proofs.RangeConservation, Chaotix.Proofs.MappingSpec, Chaotix.Proofs.DeviceMapping
Trusted boundary: none
Main exports: Leaves, rangeAllocatorAlloc_leaves, rangeAllocatorFree_leaves
-/
import Mathlib.Tactic
import Chaotix.Proofs.RangeConservation
import Chaotix.Proofs.MappingSpec
import Chaotix.Proofs.DeviceMapping

open Program

namespace Chaotix

/-! ### The relation -/

/-- The pages and the frames of the bystanders are as they were, and still apart from all others. Page tables stay. -/
structure Leaves (pages frames : Nat → Prop) (vm vm' : Vm) : Prop where
  frameOf : ∀ p, pages p → vm'.frameOf p = vm.frameOf p
  ram : ∀ f, frames f → vm'.ram f = vm.ram f
  counts : ∀ f, frames f → vm'.pages.refCounts f = vm.pages.refCounts f
  clear : ∀ f, frames f → vm'.pages.bitmap.mem f = false
  apart : ∀ p f, ¬pages p → vm'.frameOf p = some f → ¬frames f
  len : vm'.pages.bitmapLen = vm.pages.bitmapLen
  tables : ∀ i, vm.pde i ≠ none → vm'.pde i ≠ none

namespace Leaves

variable {pages frames : Nat → Prop} {vm₀ vm vm' : Vm}

theorem refl (hclear : ∀ f, frames f → vm.pages.bitmap.mem f = false)
    (hapart : ∀ p f, ¬pages p → vm.frameOf p = some f → ¬frames f) : Leaves pages frames vm vm :=
  ⟨fun _ _ => rfl, fun _ _ => rfl, fun _ _ => rfl, hclear, hapart, rfl, fun _ h => h⟩

/-- A change of the contents of other frames. -/
theorem setRam (h : Leaves pages frames vm₀ vm) {ram : Nat → Nat → UInt8} (hram : ∀ f, frames f → ram f = vm.ram f) :
    Leaves pages frames vm₀ { vm with ram := ram } :=
  ⟨h.frameOf, fun f hf => (hram f hf).trans (h.ram f hf), h.counts, h.clear, h.apart, h.len, h.tables⟩

/-- A change of the allocator that concerns other frames. -/
theorem setPages (h : Leaves pages frames vm₀ vm) {a : PageAllocator} (hlen : a.bitmapLen = vm.pages.bitmapLen)
    (hcounts : ∀ f, frames f → a.refCounts f = vm.pages.refCounts f)
    (hbits : ∀ f, frames f → a.bitmap.mem f = vm.pages.bitmap.mem f) :
    Leaves pages frames vm₀ { vm with pages := a } :=
  ⟨h.frameOf, h.ram, fun f hf => (hcounts f hf).trans (h.counts f hf), fun f hf => (hbits f hf).trans (h.clear f hf),
    h.apart, hlen.trans h.len, h.tables⟩

/-- A new entry for another page. -/
theorem setPte (h : Leaves pages frames vm₀ vm) {page : Nat} {entry : Option Pte} (hpage : ¬pages page)
    (hframe : ∀ pte, entry = some pte → ¬frames pte.frame) :
    Leaves pages frames vm₀ { vm with pte := Function.update vm.pte page entry } := by
  have hother : ∀ p, p ≠ page → Vm.frameOf { vm with pte := Function.update vm.pte page entry } p = vm.frameOf p := by
    intro p hne
    simp only [Vm.frameOf, Function.update_of_ne hne]
  refine ⟨fun p hp => ?_, h.ram, h.counts, h.clear, fun p f hp hf => ?_, h.len, h.tables⟩
  · have hne : p ≠ page := by
      rintro rfl
      exact hpage hp
    rw [hother p hne]
    exact h.frameOf p hp
  · by_cases heq : p = page
    · subst heq
      simp only [Vm.frameOf, Function.update_self] at hf
      split at hf
      · cases hf
      · obtain ⟨pte, hentry, rfl⟩ := Option.map_eq_some_iff.1 hf
        exact hframe pte hentry
    · rw [hother p heq] at hf
      exact h.apart p f hp hf

/-- The frame behind another page is nobody's. -/
theorem other (h : Leaves pages frames vm₀ vm) {page frame : Nat} (hpage : ¬pages page)
    (hframe : vm.frameOf page = some frame) {f : Nat} (hf : frames f) : f ≠ frame := by
  rintro rfl
  exact h.apart page f hpage hframe hf

/-- So is a frame that can be allocated. -/
theorem other_of_free (h : Leaves pages frames vm₀ vm) {frame : Nat} (hfree : vm.pages.Allocatable frame) {f : Nat}
    (hf : frames f) : f ≠ frame := by
  rintro rfl
  have hclear := h.clear f hf
  rw [hfree.2] at hclear
  exact Bool.noConfusion hclear

theorem take (h : Leaves pages frames vm₀ vm) {frame : Nat} (hfree : vm.pages.Allocatable frame) :
    Leaves pages frames vm₀ { vm with pages := vm.pages.take frame } := by
  have hbits : ∀ f, frames f → (vm.pages.take frame).bitmap.mem f = vm.pages.bitmap.mem f := by
    intro f hf
    have hne := h.other_of_free hfree hf
    simp [PageAllocator.take, BitSet.mem_erase (w := 32) (by decide), hne]
  exact h.setPages rfl (fun f hf => Function.update_of_ne (h.other_of_free hfree hf) _ _) hbits

/-- A new page table, for pages none of which was mapped. -/
theorem setTable (h : Leaves pages frames vm₀ vm) {idx frame : Nat} (hnone : vm.pde idx = none) :
    Leaves pages frames vm₀ { vm with
      pde := Function.update vm.pde idx (some frame)
      pte := fun page => if page / 1024 = idx then none else vm.pte page } := by
  have hsame : Vm.frameOf { vm with
      pde := Function.update vm.pde idx (some frame)
      pte := fun page => if page / 1024 = idx then none else vm.pte page } = vm.frameOf := by
    funext page
    by_cases hpage : page / 1024 = idx
    · simp [Vm.frameOf, hpage, hnone]
    · simp [Vm.frameOf, hpage]
  refine ⟨fun p hp => ?_, h.ram, h.counts, h.clear, fun p f hp hf => ?_, h.len, fun i hi => ?_⟩
  · rw [hsame]
    exact h.frameOf p hp
  · rw [hsame] at hf
    exact h.apart p f hp hf
  · by_cases heq : i = idx
    · simp [heq]
    · simp only [Function.update_of_ne heq]
      exact h.tables i hi

end Leaves

/-! ### Mapping -/

/-- A page is handed out that could be allocated, or there is none. -/
theorem pageAllocatorAlloc_takes (a : PageAllocator) :
    Ensures pageAllocatorAlloc a fun r a' =>
      (r = .error .ENOMEM ∧ a' = a ∧ a.bitmap.findFirst 0 a.bitmapLen = none) ∨
      ∃ frame, a.Allocatable frame ∧ r = .ok (frame * PAGE_SIZE) ∧ a' = a.take frame := by
  cases hfind : a.bitmap.findFirst 0 a.bitmapLen with
  | none =>
      refine ensures_iff.2 fun r a' hreturn => ?_
      rw [pageAllocatorAlloc_none hfind] at hreturn
      cases hreturn
      exact Or.inl ⟨rfl, rfl, rfl⟩
  | some i =>
      refine ensures_iff.2 fun r a' hreturn => Or.inr ?_
      cases r with
      | error e =>
          have hnone := (ensures_iff.1 (pageAllocatorAlloc_ensures a) _ _ hreturn).1 e rfl
          rw [hfind] at hnone
          cases hnone.2
      | ok paddr =>
          obtain ⟨frame, hfree, rfl, rfl⟩ := ensures_iff.1 (pageAllocatorAlloc_frame a) _ _ hreturn paddr rfl
          exact ⟨frame, hfree, rfl, rfl⟩

section Mapping

variable {pages frames : Nat → Prop} {vm₀ vm : Vm} {vaddr : Nat}

theorem getOrCreatePageTable_leaves (h : Leaves pages frames vm₀ vm) (vaddr : Nat) :
    Ensures (getOrCreatePageTable vaddr) vm fun r vm' => Leaves pages frames vm₀ vm' ∧
      (r = .ok () → vm'.pde (vaddr / PAGE_SIZE / 1024) ≠ none) := by
  rw [getOrCreatePageTable, pde_index, ensures_bind, ensures_get]
  cases hpde : vm.pde (vaddr / PAGE_SIZE / 1024) with
  | some frame => exact ⟨h, fun _ => by simp [hpde]⟩
  | none =>
      simp only [onPages, ensures_bind, ensures_focus]
      apply (pageAllocatorAlloc_takes vm.pages).mono
      rintro r a (⟨rfl, rfl, -⟩ | ⟨frame, hfree, rfl, rfl⟩)
      · exact ⟨h, by simp⟩
      · refine ⟨?_, fun _ => by simp⟩
        exact (h.take hfree).setTable hpde

theorem mapPageToFreePage_leaves (h : Leaves pages frames vm₀ vm) (hpage : ¬pages (vaddr / PAGE_SIZE)) (flags : Nat) :
    Ensures (mapPageToFreePage vaddr flags) vm fun _ vm' => Leaves pages frames vm₀ vm' := by
  rw [mapPageToFreePage, ensures_bind]
  apply (getOrCreatePageTable_leaves h vaddr).mono
  rintro r vm₁ ⟨h₁, -⟩
  cases r with
  | error e => exact h₁
  | ok _ =>
      simp only [assert, onPages, setPte, ensures_bind, ensures_get, ensures_require, ensures_focus]
      intro _
      apply (pageAllocatorAlloc_takes vm₁.pages).mono
      rintro r a (⟨rfl, rfl, -⟩ | ⟨frame, hfree, rfl, rfl⟩)
      · exact h₁
      · have h₂ := h₁.take hfree
        apply h₂.setPte hpage
        rintro pte ⟨⟩ hframe
        rw [Nat.mul_div_cancel _ (by decide)] at hframe
        exact h₁.other_of_free hfree hframe rfl

theorem pageAllocatorRefPage_leaves (h : Leaves pages frames vm₀ vm) {frame : Nat} (hframe : ¬frames frame) :
    Ensures (pageAllocatorRefPage (frame * PAGE_SIZE)) vm.pages fun _ a =>
      Leaves pages frames vm₀ { vm with pages := a } := by
  apply (pageAllocatorRefPage_counts (Nat.mul_mod_left frame PAGE_SIZE) vm.pages).mono
  rintro _ a ⟨same, -⟩
  rw [Nat.mul_div_cancel _ (by decide)] at same
  apply h.setPages same.len
  · intro f hf
    apply same.others
    rintro rfl
    exact hframe hf
  · intro f _
    rw [same.bitmap]

theorem copyPageMapping_leaves {toVaddr fromVaddr : Nat} (h : Leaves pages frames vm₀ vm)
    (hto : ¬pages (toVaddr / PAGE_SIZE)) (hfrom : ¬pages (fromVaddr / PAGE_SIZE)) (flags : Nat) :
    Ensures (copyPageMapping toVaddr fromVaddr flags) vm fun _ vm' => Leaves pages frames vm₀ vm' := by
  rw [copyPageMapping, ensures_bind, ensures_get]
  split
  · rename_i pte hpte
    have hnobody : ¬frames pte.frame := by
      rw [getPte, pde_index] at hpte
      split at hpte
      · cases hpte
      · rename_i frame hpde
        have hentry : vm.pte (fromVaddr / PAGE_SIZE) = some pte := Option.some.inj hpte
        exact h.apart _ _ hfrom (by simp only [Vm.frameOf, hpde, hentry, Option.map_some])
    rw [ensures_bind]
    apply (getOrCreatePageTable_leaves h toVaddr).mono
    rintro r vm₁ ⟨h₁, -⟩
    cases r with
    | error e => exact h₁
    | ok _ =>
        simp only [assert, onPages, setPte, ensures_bind, ensures_get, ensures_require, ensures_focus]
        intro _
        apply (pageAllocatorRefPage_leaves h₁ hnobody).mono
        rintro _ a h₂
        apply h₂.setPte hto
        rintro _ ⟨⟩
        exact hnobody
  · trivial

/-- The count of another frame is lowered. -/
theorem pageAllocatorUnrefPage_leaves (h : Leaves pages frames vm₀ vm) {frame : Nat} (hframe : ¬frames frame) :
    Ensures (pageAllocatorUnrefPage (frame * PAGE_SIZE)) vm.pages fun _ a =>
      Leaves pages frames vm₀ { vm with pages := a } := by
  have hne : ∀ f, frames f → f ≠ frame := by
    rintro f hf rfl
    exact hframe hf
  simp only [pageAllocatorUnrefPage, bitmapSet, assert, ensures_bind, ensures_require, ensures_get]
  rw [Nat.mul_div_cancel _ (by decide)]
  intro _ _
  split
  · rw [ensures_bind, ensures_set]
    have h₁ := h.setPages (a := { vm.pages with
      refCounts := Function.update vm.pages.refCounts frame (vm.pages.refCounts frame - 1) }) rfl
      (fun f hf => Function.update_of_ne (hne f hf) _ _) fun _ _ => rfl
    split
    · simp only [ensures_bind, ensures_get, ensures_require, ensures_set, ensures_modify]
      intro _
      refine h.setPages ?_ ?_ ?_
      · rfl
      · exact fun f hf => Function.update_of_ne (hne f hf) _ _
      · intro f hf
        simp [BitSet.mem_insert (w := 32) (by decide), hne f hf]
    · exact h₁
  · exact h

theorem unmapPage_leaves (h : Leaves pages frames vm₀ vm) (hpage : ¬pages (vaddr / PAGE_SIZE)) :
    Ensures (unmapPage vaddr) vm fun _ vm' => Leaves pages frames vm₀ vm' := by
  rw [unmapPage, ensures_bind, ensures_get]
  split
  · rename_i pte hpte
    have hnobody : ¬frames pte.frame := by
      rw [getPte, pde_index] at hpte
      split at hpte
      · cases hpte
      · rename_i frame hpde
        have hentry : vm.pte (vaddr / PAGE_SIZE) = some pte := Option.some.inj hpte
        exact h.apart _ _ hpage (by simp only [Vm.frameOf, hpde, hentry, Option.map_some])
    simp only [onPages, setPte, ensures_bind, ensures_focus, ensures_modify]
    apply (pageAllocatorUnrefPage_leaves h hnobody).mono
    intro _ a h₁
    exact h₁.setPte hpage (by simp)
  · trivial

/-- What `copy_page_mapping` fails for. -/
theorem copyPageMapping_fails (toVaddr fromVaddr flags : Nat) (vm : Vm) :
    Ensures (copyPageMapping toVaddr fromVaddr flags) vm fun r vm' => ∀ e, r = .error e →
      vm' = vm ∧ vm.pde (toVaddr / PAGE_SIZE / 1024) = none ∧ NoFreePage vm := by
  rw [copyPageMapping, ensures_bind, ensures_get]
  split
  · rw [ensures_bind]
    apply (getOrCreatePageTable_ensures toVaddr vm).mono
    rintro r vm₁ ⟨herror, -⟩
    cases r with
    | error e =>
        obtain ⟨rfl, hnone, hpde⟩ := herror e rfl
        exact fun _ _ => ⟨rfl, hpde, hnone⟩
    | ok _ =>
        simp only [assert, onPages, setPte, ensures_bind, ensures_get, ensures_require, ensures_focus]
        intro _
        refine ensures_iff.2 fun _ a _ => ?_
        rintro _ ⟨⟩
  · trivial

/-- What `map_page_to_free_page` fails for. -/
theorem mapPageToFreePage_fails (vaddr flags : Nat) (vm : Vm) :
    Ensures (mapPageToFreePage vaddr flags) vm fun r _ => ∀ e, r = .error e →
      vm.pde (vaddr / PAGE_SIZE / 1024) = none ∨ NoFreePage vm := by
  rw [mapPageToFreePage, ensures_bind]
  apply (getOrCreatePageTable_ensures vaddr vm).mono
  rintro r vm₁ ⟨herror, htable⟩
  cases r with
  | error e => exact fun _ _ => Or.inr (herror e rfl).2.1
  | ok _ =>
      simp only [assert, onPages, setPte, ensures_bind, ensures_get, ensures_require, ensures_focus]
      intro _
      apply (pageAllocatorAlloc_takes vm₁.pages).mono
      rintro r a (⟨rfl, rfl, hnone⟩ | ⟨frame, -, rfl, rfl⟩)
      · intro _ _
        by_cases hpde : vm.pde (vaddr / PAGE_SIZE / 1024) = none
        · exact Or.inl hpde
        · rw [(htable rfl).found hpde] at hnone
          exact Or.inr hnone
      · rintro _ ⟨⟩

theorem forPages_leaves {body : Nat → Kernel Vm (Except Errno Unit)} {n offset : Nat} (h : Leaves pages frames vm₀ vm)
    (hbody : ∀ j < n, ∀ vm, Leaves pages frames vm₀ vm →
      Ensures (body (offset + j * PAGE_SIZE)) vm fun _ vm' => Leaves pages frames vm₀ vm') :
    Ensures (forPages body offset n) vm fun _ vm' => Leaves pages frames vm₀ vm' := by
  induction n generalizing offset vm with
  | zero => exact h
  | succ n ih =>
      rw [forPages, ensures_bind]
      have hfirst := hbody 0 (Nat.zero_lt_succ n) vm h
      rw [Nat.zero_mul, Nat.add_zero] at hfirst
      apply hfirst.mono
      intro r vm₁ h₁
      cases r with
      | error e => exact h₁
      | ok _ =>
          apply ih h₁
          intro j hj vm hvm
          have hnext := hbody (j + 1) (Nat.succ_lt_succ hj) vm hvm
          rwa [Nat.succ_mul, Nat.add_comm (j * PAGE_SIZE), ← Nat.add_assoc] at hnext

/-- None of the pages of a range belongs to a bystander. -/
def Outside (pages : Nat → Prop) (vaddr size : Nat) : Prop :=
  ∀ i < roundUp size / PAGE_SIZE, ¬pages ((vaddr + i * PAGE_SIZE) % wordSize / PAGE_SIZE)

theorem pagingMapToFreePages_leaves {size : Nat} (h : Leaves pages frames vm₀ vm) (hout : Outside pages vaddr size)
    (flags : Nat) : Ensures (pagingMapToFreePages vaddr size flags) vm fun _ vm' => Leaves pages frames vm₀ vm' := by
  simp only [pagingMapToFreePages, assert, ensures_bind, ensures_require]
  intro _
  apply forPages_leaves h
  intro j hj vm hvm
  rw [Nat.zero_add]
  exact mapPageToFreePage_leaves hvm (hout j hj) flags

theorem pagingCopyMapping_leaves {toVaddr fromVaddr size : Nat} (h : Leaves pages frames vm₀ vm)
    (hto : Outside pages toVaddr size) (hfrom : Outside pages fromVaddr size) (flags : Nat) :
    Ensures (pagingCopyMapping toVaddr fromVaddr size flags) vm fun _ vm' => Leaves pages frames vm₀ vm' := by
  simp only [pagingCopyMapping, assert, ensures_bind, ensures_require]
  intro _ _
  apply forPages_leaves h
  intro j hj vm hvm
  rw [Nat.zero_add]
  exact copyPageMapping_leaves hvm (hto j hj) (hfrom j hj) flags

theorem pagingUnmap_leaves {size : Nat} (h : Leaves pages frames vm₀ vm) (hout : Outside pages vaddr size) :
    Ensures (pagingUnmap vaddr size) vm fun _ vm' => Leaves pages frames vm₀ vm' := by
  simp only [pagingUnmap, assert, ensures_bind, ensures_require]
  intro _
  apply Ensures.forRange (fun _ vm' => Leaves pages frames vm₀ vm') h
  intro j vm _ hj hvm
  exact unmapPage_leaves hvm (hout j hj)

end Mapping

/-! ### Memory -/

section Memory

variable {pages frames : Nat → Prop} {vm₀ vm : Vm} {vaddr : Nat}

theorem load8_same (vaddr : Nat) (vm : Vm) : Ensures (load8 vaddr) vm fun _ vm' => vm' = vm := by
  rw [load8, ensures_bind, ensures_get]
  split <;> trivial

theorem load32_same (vaddr : Nat) (vm : Vm) : Ensures (load32 vaddr) vm fun _ vm' => vm' = vm := by
  simp only [load32, ensures_bind]
  apply (load8_same _ vm).mono
  rintro _ _ rfl
  apply (load8_same _ _).mono
  rintro _ _ rfl
  apply (load8_same _ _).mono
  rintro _ _ rfl
  apply (load8_same _ _).mono
  rintro _ _ rfl
  rfl

theorem store8_leaves (h : Leaves pages frames vm₀ vm) (hpage : ¬pages (vaddr / PAGE_SIZE)) (value : UInt8) :
    Ensures (store8 vaddr value) vm fun _ vm' => Leaves pages frames vm₀ vm' := by
  rw [store8, ensures_bind, ensures_get]
  split
  · rename_i frame hframe
    rw [ensures_set]
    apply h.setRam
    intro f hf
    exact Function.update_of_ne (h.other hpage hframe hf) _ _
  · trivial

theorem storeBytes_leaves {bytes : List UInt8} (h : Leaves pages frames vm₀ vm) (hlt : vaddr < wordSize)
    (hout : ∀ i < bytes.length, ¬pages ((vaddr + i) % wordSize / PAGE_SIZE)) :
    Ensures (storeBytes vaddr bytes) vm fun _ vm' => Leaves pages frames vm₀ vm' := by
  induction bytes generalizing vaddr vm with
  | nil => exact h
  | cons byte bytes ih =>
      rw [storeBytes, ensures_bind]
      have hfirst := hout 0 (Nat.zero_lt_succ _)
      rw [Nat.add_zero, Nat.mod_eq_of_lt hlt] at hfirst
      apply (store8_leaves h hfirst byte).mono
      intro _ vm₁ h₁
      apply ih h₁ (Nat.mod_lt _ (by decide))
      intro i hi
      have hnext := hout (i + 1) (Nat.succ_lt_succ hi)
      rwa [Nat.mod_add_mod, Nat.add_right_comm, Nat.add_assoc]

/-- A word whose bytes lie in one page. -/
theorem store32_leaves (h : Leaves pages frames vm₀ vm) (hpage : ¬pages (vaddr / PAGE_SIZE)) (hlt : vaddr < wordSize)
    (hoff : vaddr % PAGE_SIZE + 4 ≤ PAGE_SIZE) (value : Nat) :
    Ensures (store32 vaddr value) vm fun _ vm' => Leaves pages frames vm₀ vm' := by
  have hbyte : ∀ k < 4, ¬pages ((vaddr + k) % wordSize / PAGE_SIZE) := by
    intro k hk
    rwa [(word_bytes hk hoff hlt).1]
  simp only [store32, ensures_bind]
  apply (store8_leaves h hpage _).mono
  intro _ _ h₁
  apply (store8_leaves h₁ (hbyte 1 (by decide)) _).mono
  intro _ _ h₂
  apply (store8_leaves h₂ (hbyte 2 (by decide)) _).mono
  intro _ _ h₃
  exact store8_leaves h₃ (hbyte 3 (by decide)) _

theorem store8_frameOf (vaddr : Nat) (value : UInt8) (vm : Vm) :
    Ensures (store8 vaddr value) vm fun _ vm' => vm'.frameOf = vm.frameOf := by
  rw [store8, ensures_bind, ensures_get]
  split <;> trivial

theorem store32_frameOf (vaddr value : Nat) (vm : Vm) :
    Ensures (store32 vaddr value) vm fun _ vm' => vm'.frameOf = vm.frameOf := by
  simp only [store32, ensures_bind]
  apply (store8_frameOf _ _ vm).mono
  intro _ _ h₁
  apply (store8_frameOf _ _ _).mono
  intro _ _ h₂
  apply (store8_frameOf _ _ _).mono
  intro _ _ h₃
  apply (store8_frameOf _ _ _).mono
  intro _ _ h₄
  rw [h₄, h₃, h₂, h₁]

end Memory

/-! ### The range allocator -/

section Ranges

variable {P : Type} {pages frames : Nat → Prop} {vm₀ : Vm} {s : RangeState P}

theorem ensures_onVm {α : Type} {m : Kernel Vm α} {post : α → RangeState P → Prop} :
    Ensures (onVm m) s post ↔ Ensures m s.vm fun a vm => post a { s with vm := vm } := ensures_focus

/-- The page at a page-aligned address. -/
def AtPage (pages : Nat → Prop) (a : Nat) : Prop := PageAddr a ∧ ¬pages (a / PAGE_SIZE)

theorem AtPage.outside {a : Nat} (h : AtPage pages a) : Outside pages a sizeofRange := by
  intro i hi
  have hone : roundUp sizeofRange / PAGE_SIZE = 1 := by decide
  rw [hone] at hi
  obtain rfl : i = 0 := by omega
  rw [Nat.zero_mul, Nat.add_zero, Nat.mod_eq_of_lt h.1.lt]
  exact h.2

theorem AtPage.store32 {vm : Vm} {a : Nat} (h : AtPage pages a) (hleaves : Leaves pages frames vm₀ vm) (value : Nat) :
    Ensures (Chaotix.store32 a value) vm fun _ vm' => Leaves pages frames vm₀ vm' := by
  apply store32_leaves hleaves h.2 h.1.lt
  rw [h.1.base]
  decide

theorem AtPage.store32_next {vm : Vm} {a : Nat} (h : AtPage pages a) (hleaves : Leaves pages frames vm₀ vm)
    (value : Nat) : Ensures (Chaotix.store32 (nextField a) value) vm fun _ vm' => Leaves pages frames vm₀ vm' := by
  obtain ⟨hnext, hdiv, hmod⟩ := h.1.next
  rw [hnext]
  apply store32_leaves hleaves
  · rw [hdiv]
    exact h.2
  · have hbase := h.1.base
    have hlt := h.1.lt
    simp only [wordSize, PAGE_SIZE] at hbase hlt ⊢
    omega
  · rw [hmod]
    decide

/-- The mutex is not in memory. -/
theorem unlockAndReturn_vm [DecidableEq P] {α : Type} (current : P) (r : α) (s : RangeState P) :
    Ensures (unlockAndReturn current r) s fun r' s' => r' = r ∧ s'.vm = s.vm := by
  refine ensures_iff.2 fun r' s' hreturn => ?_
  obtain ⟨hr, m, rfl, -⟩ := unlockAndReturn_ok hreturn
  exact ⟨hr, rfl⟩

theorem setLink_leaves {prev range : Nat} (h : Leaves pages frames vm₀ s.vm) (hprev : prev ≠ 0 → AtPage pages prev) :
    Ensures (setLink prev range) s fun _ s' => Leaves pages frames vm₀ s'.vm ∧ s'.vm.frameOf = s.vm.frameOf := by
  unfold setLink
  split
  · rename_i hne
    rw [ensures_onVm]
    refine ensures_iff.2 fun u vm' hreturn => ⟨?_, ?_⟩
    · exact ensures_iff.1 ((hprev hne).store32_next h range) u vm' hreturn
    · exact ensures_iff.1 (store32_frameOf _ _ _) u vm' hreturn
  · exact ⟨h, rfl⟩

theorem linkRange_leaves {prev it range : Nat} (h : Leaves pages frames vm₀ s.vm)
    (hprev : prev ≠ 0 → AtPage pages prev) :
    Ensures (linkRange prev it range) s fun _ s' => Leaves pages frames vm₀ s'.vm ∧ s'.vm.frameOf = s.vm.frameOf := by
  simp only [linkRange, assert, ensures_bind, ensures_get, ensures_require]
  intro _
  exact setLink_leaves h hprev

/-- After `unmap_page` the page is not mapped. -/
theorem unmapPage_unmaps (vaddr : Nat) (vm : Vm) :
    Ensures (unmapPage vaddr) vm fun _ vm' => vm'.frameOf (vaddr / PAGE_SIZE) = none := by
  rw [unmapPage, ensures_bind, ensures_get]
  split
  · simp only [onPages, setPte, ensures_bind, ensures_focus, ensures_modify]
    refine ensures_iff.2 fun _ a _ => ?_
    simp only [Vm.frameOf, Function.update_self, Option.map_none]
    split <;> rfl
  · trivial

/-- The page of a node is given up. -/
theorem AtPage.unmap {vm : Vm} {a : Nat} (h : AtPage pages a) (hleaves : Leaves pages frames vm₀ vm) :
    Ensures (pagingUnmap a sizeofRange) vm fun _ vm' => Leaves pages frames vm₀ vm' ∧
      vm'.frameOf (a / PAGE_SIZE) = none := by
  refine ensures_iff.2 fun _ vm' hreturn => ⟨?_, ?_⟩
  · exact ensures_iff.1 (pagingUnmap_leaves hleaves h.outside) _ _ hreturn
  · rw [pagingUnmap_small sizeofRange h.1.base h.1.lt (by decide) (by decide)] at hreturn
    exact ensures_iff.1 (unmapPage_unmaps a vm) _ _ hreturn

/-- The first page of a free range. -/
theorem RangeOk.atPage {free : List Segment} (h : RangeOk s free) {r : Segment} (hr : r ∈ free)
    (hpages : ¬pages (r.1 / PAGE_SIZE)) : AtPage pages r.1 :=
  ⟨(h.nodes r hr).pageAddr, hpages⟩

/-- What is before a place in the free list. -/
theorem RangeOk.atLast {free pre : List Segment} (h : RangeOk s free) (hsub : pre ⊆ free)
    (hpages : ∀ r ∈ free, ¬pages (r.1 / PAGE_SIZE)) : NodeSeg.last pre ≠ 0 → AtPage pages (NodeSeg.last pre) := by
  rcases List.eq_nil_or_concat pre with rfl | ⟨ys, r, rfl⟩
  · intro hne
    exact absurd NodeSeg.last_nil hne
  · intro _
    rw [List.concat_eq_append, NodeSeg.last_concat]
    have hr : r ∈ free := hsub (by simp)
    exact h.atPage hr (hpages r hr)

theorem rangeEnd_same (range : Nat) (s : RangeState P) : Ensures (rangeEnd range) s fun _ s' => s' = s := by
  simp only [rangeEnd, ensures_bind, ensures_onVm]
  apply (load32_same _ s.vm).mono
  rintro _ _ rfl
  rfl

theorem endsAt_same (range addr : Nat) (s : RangeState P) :
    Ensures (endsAt range addr) s fun r s' => s' = s ∧ (r = true → range ≠ 0) := by
  unfold endsAt
  split
  · exact ⟨rfl, nofun⟩
  · rename_i hne
    rw [ensures_bind]
    apply (rangeEnd_same range s).mono
    rintro _ _ rfl
    exact ⟨rfl, fun _ => hne⟩

theorem assertBefore_same (prev addr : Nat) (s : RangeState P) :
    Ensures (assertBefore prev addr) s fun _ s' => s' = s := by
  unfold assertBefore
  split
  · rw [ensures_bind]
    apply (rangeEnd_same prev s).mono
    rintro _ _ rfl
    simp only [assert, ensures_require]
    exact fun _ => trivial
  · rfl

theorem fillGap_leaves {prev it : Nat} (h : Leaves pages frames vm₀ s.vm) (hprev : AtPage pages prev)
    (hit : it ≠ 0 → AtPage pages it) : Ensures (fillGap prev it) s fun _ s' => Leaves pages frames vm₀ s'.vm := by
  rw [fillGap, ensures_bind]
  apply (rangeEnd_same prev s).mono
  rintro prevEnd s₁ rfl
  split
  · rename_i hgap
    simp only [ensures_bind, ensures_onVm]
    apply (load32_same _ s₁.vm).mono
    rintro _ _ rfl
    apply (load32_same _ s₁.vm).mono
    rintro _ _ rfl
    apply (hprev.store32 h _).mono
    intro _ vm₁ h₁
    apply (load32_same _ vm₁).mono
    rintro _ _ rfl
    apply (hprev.store32_next h₁ _).mono
    intro _ vm₂ h₂
    exact ((hit hgap.1).unmap h₂).mono fun _ _ hafter => hafter.1
  · exact h

variable [DecidableEq P] (current : P)

/-- What a call of the range allocator that may hand out the range at `it` does to the bystanders and to its page. -/
def HandsOut (pages frames : Nat → Prop) (vm₀ : Vm) (it : Nat) (r : Except Errno Nat) (s : RangeState P) : Prop :=
  Leaves pages frames vm₀ s.vm ∧ ∀ addr, r = .ok addr → addr = it ∧ s.vm.frameOf (it / PAGE_SIZE) = none

theorem handsOut_unlock {it : Nat} {r : Except Errno Nat} (h : HandsOut pages frames vm₀ it r s) :
    Ensures (unlockAndReturn current r) s (HandsOut pages frames vm₀ it) := by
  apply (unlockAndReturn_vm current r s).mono
  rintro _ s' ⟨rfl, hvm⟩
  rw [HandsOut, hvm]
  exact h

theorem allocWhole_leaves {prev it : Nat} (h : Leaves pages frames vm₀ s.vm) (hprev : prev ≠ 0 → AtPage pages prev)
    (hit : AtPage pages it) : Ensures (allocWhole current prev it) s (HandsOut pages frames vm₀ it) := by
  simp only [allocWhole, ensures_bind, ensures_onVm]
  apply (load32_same _ s.vm).mono
  rintro next _ rfl
  apply (linkRange_leaves h hprev).mono
  rintro _ s₁ ⟨h₁, -⟩
  apply (hit.unmap h₁).mono
  rintro _ vm₂ ⟨h₂, hnone⟩
  apply handsOut_unlock
  refine ⟨h₂, ?_⟩
  rintro _ ⟨⟩
  exact ⟨rfl, hnone⟩

theorem allocFront_leaves {size prev it : Nat} (h : Leaves pages frames vm₀ s.vm)
    (hprev : prev ≠ 0 → AtPage pages prev) (hit : AtPage pages it) (haddr : AtPage pages ((it + size) % wordSize)) :
    Ensures (allocFront current size prev it) s (HandsOut pages frames vm₀ it) := by
  simp only [allocFront, ensures_bind, ensures_onVm]
  apply (pagingCopyMapping_leaves h haddr.outside hit.outside PAGE_WRITE).mono
  intro r vm₁ h₁
  cases r with
  | error e => exact handsOut_unlock current ⟨h₁, by simp⟩
  | ok _ =>
      simp only [ensures_bind, ensures_onVm]
      apply (load32_same _ vm₁).mono
      rintro rangeSize _ rfl
      apply (haddr.store32 h₁ _).mono
      intro _ vm₂ h₂
      apply (hit.unmap h₂).mono
      rintro _ vm₃ ⟨h₃, hnone⟩
      apply (linkRange_leaves h₃ hprev).mono
      rintro _ s₄ ⟨h₄, hframeOf⟩
      apply handsOut_unlock
      refine ⟨h₄, ?_⟩
      rintro _ ⟨⟩
      rw [hframeOf]
      exact ⟨rfl, hnone⟩

/-- `range_allocator_alloc` leaves everything alone but the first page of a free range and the page where what is left
    of a range begins. The first page of what it hands out is not mapped any more. -/
theorem rangeAllocatorAlloc_leaves {free : List Segment} {size : Nat} (h : RangeOk s free)
    (hleaves : Leaves pages frames vm₀ s.vm) (hpages : ∀ r ∈ free, ¬pages (r.1 / PAGE_SIZE))
    (hrest : ∀ r ∈ free, roundUp size < r.2 → ¬pages ((r.1 + roundUp size) / PAGE_SIZE)) :
    Ensures (rangeAllocatorAlloc current size) s fun r s' => Leaves pages frames vm₀ s'.vm ∧
      ∀ addr, r = .ok addr → s'.vm.frameOf (addr / PAGE_SIZE) = none := by
  simp only [rangeAllocatorAlloc, assert, ensures_bind, ensures_get, ensures_require]
  intro _
  by_cases hlock : s.LockFree current
  · rw [ensures_iff]
    intro u s₁ hreturn
    rw [rangeLock_eq current hlock] at hreturn
    cases hreturn
    have ok : RangeOk (s.locked current) free := h.setLock _
    obtain ⟨ys, zs, it, hfind, rfl, hzs, -, hfit⟩ := findFit_eq (roundUp size) wordSize [] ok.list ok.nodes ok.length_lt
    rw [NodeSeg.last_nil, List.nil_append] at hfind
    have hprev := h.atLast (List.subset_append_left ys zs) hpages
    have hrun := run_onVm (findFit (roundUp size) wordSize 0 (s.locked current).allocator.ranges) (s.locked current)
    rw [hfind] at hrun
    rw [Ensures, hrun]
    cases zs with
    | nil =>
        obtain rfl : it = 0 := hzs
        exact ⟨hleaves, by simp⟩
    | cons r zs =>
        obtain rfl : it = r.1 := hzs.1
        have hr : r ∈ ys ++ r :: zs := by simp
        obtain ⟨hne, next, hnode⟩ := ok.list.exists_node hr
        have node := h.nodes r hr
        obtain ⟨f, hmapped, -⟩ := (ok.nodes r hr).mapped
        rw [header_of_mapped hmapped, Option.some.injEq, Prod.mk.injEq] at hnode
        have hload := load32_size node.pageAddr hmapped
        rw [hnode.1] at hload
        have hit := h.atPage hr (hpages r hr)
        have hle : roundUp size ≤ r.2 := hfit r rfl
        have hhanded : ∀ (r' : Except Errno Nat) (s' : RangeState P), HandsOut pages frames vm₀ r.1 r' s' →
            Leaves pages frames vm₀ s'.vm ∧ ∀ addr, r' = .ok addr → s'.vm.frameOf (addr / PAGE_SIZE) = none := by
          rintro r' s' ⟨hafter, hnone⟩
          refine ⟨hafter, fun addr haddr => ?_⟩
          obtain ⟨rfl, hnone⟩ := hnone addr haddr
          exact hnone
        simp only [hne, if_false, ensures_bind, ensures_onVm]
        rw [Ensures, hload]
        have hleaves' : Leaves pages frames vm₀ (s.locked current).vm := hleaves
        change Ensures (if r.2 = roundUp size then _ else _) (s.locked current) _
        split
        · exact (allocWhole_leaves current hleaves' hprev hit).mono hhanded
        · rename_i hwhole
          have haddr : AtPage pages ((r.1 + roundUp size) % wordSize) := by
            have hbase := node.base
            have hround := roundUp_mod size
            have hend := node.lt
            rw [Nat.mod_eq_of_lt (by omega)]
            refine ⟨⟨?_, by omega⟩, hrest r hr (by omega)⟩
            simp only [PAGE_SIZE] at hbase hround ⊢
            omega
          exact (allocFront_leaves current hleaves' hprev hit haddr).mono hhanded
  · rw [ensures_iff, rangeLock_hang current hlock]
    simp

/-! ### Giving a range back -/

/-- A page for a new node at an address is missing. -/
def NoNodePage (vm : Vm) (addr : Nat) : Prop := vm.pde (addr / PAGE_SIZE / 1024) = none ∨ NoFreePage vm

/-- What giving a block back does to the bystanders, and what it fails for. -/
def TakesBack (pages frames : Nat → Prop) (vm₀ vm : Vm) (addr : Nat) (r : Except Errno Unit) (s : RangeState P) :
    Prop :=
  Leaves pages frames vm₀ s.vm ∧ ∀ e, r = .error e → NoNodePage vm addr

theorem takesBack_unlock {vm : Vm} {addr : Nat} {r : Except Errno Unit} (h : TakesBack pages frames vm₀ vm addr r s) :
    Ensures (unlockAndReturn current r) s (TakesBack pages frames vm₀ vm addr) := by
  apply (unlockAndReturn_vm current r s).mono
  rintro _ s' ⟨rfl, hvm⟩
  rw [TakesBack, hvm]
  exact h

theorem freeAfter_leaves {addr size prev it : Nat} (h : Leaves pages frames vm₀ s.vm) (hprev : AtPage pages prev)
    (hit : it ≠ 0 → AtPage pages it) :
    Ensures (freeAfter current size prev it) s (TakesBack pages frames vm₀ s.vm addr) := by
  simp only [freeAfter, ensures_bind, ensures_onVm]
  refine (load32_same _ s.vm).mono fun prevSize vm₁ hsame => ?_
  subst hsame
  apply (hprev.store32 h _).mono
  intro _ vm₂ h₂
  apply (fillGap_leaves (s := { s with vm := vm₂ }) h₂ hprev hit).mono
  intro _ s₃ h₃
  exact takesBack_unlock current ⟨h₃, by simp⟩

theorem freeBefore_leaves {addr size prev it : Nat} (h : Leaves pages frames vm₀ s.vm)
    (hprev : prev ≠ 0 → AtPage pages prev) (hit : AtPage pages it) (haddr : AtPage pages addr) :
    Ensures (freeBefore current addr size prev it) s (TakesBack pages frames vm₀ s.vm addr) := by
  simp only [freeBefore, ensures_bind, ensures_onVm]
  refine ensures_iff.2 fun r vm₁ hreturn => ?_
  have h₁ := ensures_iff.1 (pagingCopyMapping_leaves h haddr.outside hit.outside PAGE_WRITE) _ _ hreturn
  rw [pagingCopyMapping_small haddr.1.base hit.1.base haddr.1.lt hit.1.lt (by decide) (by decide)] at hreturn
  cases r with
  | error e =>
      have hfails := ensures_iff.1 (copyPageMapping_fails addr it PAGE_WRITE s.vm) _ _ hreturn e rfl
      exact takesBack_unlock current ⟨h₁, fun _ _ => Or.inl hfails.2.1⟩
  | ok _ =>
      simp only [ensures_bind, ensures_onVm]
      apply (load32_same _ vm₁).mono
      rintro _ _ rfl
      apply (haddr.store32 h₁ _).mono
      intro _ vm₂ h₂
      apply (hit.unmap h₂).mono
      rintro _ vm₃ ⟨h₃, -⟩
      apply (linkRange_leaves h₃ hprev).mono
      rintro _ s₄ ⟨h₄, -⟩
      exact takesBack_unlock current ⟨h₄, by simp⟩

theorem freeAlone_leaves {addr size prev it : Nat} (h : Leaves pages frames vm₀ s.vm)
    (hprev : prev ≠ 0 → AtPage pages prev) (haddr : AtPage pages addr) :
    Ensures (freeAlone current addr size prev it) s (TakesBack pages frames vm₀ s.vm addr) := by
  simp only [freeAlone, assert, ensures_bind, ensures_require, ensures_onVm]
  apply (assertBefore_same prev addr s).mono
  rintro _ s₁ rfl _
  refine ensures_iff.2 fun r vm₁ hreturn => ?_
  have h₁ := ensures_iff.1 (pagingMapToFreePages_leaves h haddr.outside PAGE_WRITE) _ _ hreturn
  rw [pagingMapToFreePages_small s₁.vm sizeofRange haddr.1.base haddr.1.lt (by decide) (by decide)] at hreturn
  cases r with
  | error e =>
      have hfails := ensures_iff.1 (mapPageToFreePage_fails addr PAGE_WRITE s₁.vm) _ _ hreturn e rfl
      exact takesBack_unlock current ⟨h₁, fun _ _ => hfails⟩
  | ok _ =>
      simp only [ensures_bind, ensures_onVm]
      apply (haddr.store32 h₁ _).mono
      intro _ vm₂ h₂
      apply (haddr.store32_next h₂ _).mono
      intro _ vm₃ h₃
      apply (setLink_leaves (s := { s₁ with vm := vm₃ }) h₃ hprev).mono
      rintro _ s₄ ⟨h₄, -⟩
      exact takesBack_unlock current ⟨h₄, by simp⟩

/-- `range_allocator_free` leaves everything alone but the first pages of the free ranges and of the block, and it
    fails for a block that the allocator does not manage, or when there is no page for a node. -/
theorem rangeAllocatorFree_leaves {free : List Segment} {addr size : Nat} (h : RangeOk s free)
    (hleaves : Leaves pages frames vm₀ s.vm) (hpages : ∀ r ∈ free, ¬pages (r.1 / PAGE_SIZE))
    (haddr : AtPage pages addr) :
    Ensures (rangeAllocatorFree current addr size) s fun r s' => Leaves pages frames vm₀ s'.vm ∧
      ∀ e, r = .error e → (addr < s.allocator.start ∨ s.allocator.finish < (addr + roundUp size) % wordSize) ∨
        NoNodePage s.vm addr := by
  have hmono : ∀ (r : Except Errno Unit) (s' : RangeState P), TakesBack pages frames vm₀ s.vm addr r s' →
      Leaves pages frames vm₀ s'.vm ∧ ∀ e, r = .error e →
        (addr < s.allocator.start ∨ s.allocator.finish < (addr + roundUp size) % wordSize) ∨ NoNodePage s.vm addr :=
    fun r s' h => ⟨h.1, fun e he => Or.inr (h.2 e he)⟩
  simp only [rangeAllocatorFree, assert, ensures_bind, ensures_get, ensures_require]
  intro _ _
  split
  · rename_i hinvalid
    exact ⟨hleaves, fun _ _ => Or.inl hinvalid⟩
  · by_cases hlock : s.LockFree current
    · rw [ensures_bind, ensures_iff]
      intro u s₁ hreturn
      rw [rangeLock_eq current hlock] at hreturn
      cases hreturn
      have ok : RangeOk (s.locked current) free := h.setLock _
      obtain ⟨ys, zs, it, hfind, rfl, hzs, -⟩ := findGap_eq addr (roundUp size) wordSize [] ok.list ok.nodes
        ok.length_lt
      rw [NodeSeg.last_nil, List.nil_append] at hfind
      have hprev := h.atLast (List.subset_append_left ys zs) hpages
      have hit : it ≠ 0 → AtPage pages it := by
        cases zs with
        | nil =>
            obtain rfl : it = 0 := hzs
            exact fun hne => absurd rfl hne
        | cons r zs =>
            obtain rfl : it = r.1 := hzs.1
            exact fun _ => h.atPage (by simp) (hpages r (by simp))
      have hrun := run_onVm (findGap addr (roundUp size) wordSize 0 (s.locked current).allocator.ranges)
        (s.locked current)
      rw [hfind] at hrun
      rw [ensures_bind, ensures_get, ensures_bind, Ensures, hrun]
      have hleaves' : Leaves pages frames vm₀ (s.locked current).vm := hleaves
      change Ensures (_ >>= _) (s.locked current) _
      rw [ensures_bind]
      apply (endsAt_same _ _ _).mono
      rintro ends _ ⟨rfl, hends⟩
      split
      · rename_i hafter
        exact (freeAfter_leaves current hleaves' (hprev (hends hafter)) hit).mono hmono
      · split
        · rename_i hnext
          exact (freeBefore_leaves current hleaves' hprev (hit hnext.1) haddr).mono hmono
        · exact (freeAlone_leaves current hleaves' hprev haddr).mono hmono
    · rw [ensures_bind, ensures_iff, rangeLock_hang current hlock]
      simp

end Ranges

end Chaotix
