/-
Module: Chaotix.Proofs.DeviceMapping
Layer: Proofs
Purpose: Mapping a range of physical memory that nobody can allocate, and unmapping it again. The reference that the
  mapping takes is given back by `paging_unmap`, and with the last reference the page goes into the bitmap. So the pair
  is neutral just where every page of the range has another reference, and no page table is created on the way.
Imports: Mathlib.Tactic, Chaotix.Proofs.MappingFailure
Trusted boundary: none
Main exports: Neutral, Mapped, TablesTaken, Unmapping, unmap_of_device_memory_is_neutral_iff,
  reserved_page_is_referenced
-/
import Mathlib.Tactic
import Chaotix.Proofs.MappingFailure

open Program

namespace Chaotix

/-! ### The property -/

/-- The allocator can hand the page out. -/
def PageAllocator.Allocatable (a : PageAllocator) (frame : Nat) : Prop :=
  frame < a.bitmapLen * 32 ∧ a.bitmap.mem frame = true

/-- The allocator can hand out the same pages, and says so. -/
structure Neutral (a a' : PageAllocator) : Prop where
  bitmap : a'.bitmap = a.bitmap
  free : a'.free = a.free
  allocatable : ∀ frame, a'.Allocatable frame ↔ a.Allocatable frame

/-- The pages of a range are different pages. -/
theorem rangePage_inj {base i j : Nat} (halign : base % PAGE_SIZE = 0) (hi : i < 2 ^ 20) (hj : j < 2 ^ 20)
    (h : rangePage base i = rangePage base j) : i = j := by
  simp only [rangePage, PAGE_SIZE, wordSize] at halign h
  omega

theorem pages_lt (size : Nat) : roundUp size / PAGE_SIZE < 2 ^ 20 := by
  have := roundUp_lt size
  simp only [wordSize, PAGE_SIZE] at this ⊢
  omega

/-- The invariant rule of the loop over the pages of a range, as long as no page fails. -/
theorem Ensures.forPages {body : Nat → Kernel Vm (Except Errno Unit)} (inv : Nat → Vm → Prop) {n i : Nat}
    {vm : Vm} (hinit : inv i vm)
    (hbody : ∀ j vm, j < i + n → inv j vm →
      Ensures (body (j * PAGE_SIZE)) vm fun r vm' => r = .ok () → inv (j + 1) vm') :
    Ensures (Chaotix.forPages body (i * PAGE_SIZE) n) vm fun r vm' => r = .ok () → inv (i + n) vm' := by
  induction n generalizing i vm with
  | zero => exact fun _ => hinit
  | succ n ih =>
      rw [Chaotix.forPages, ensures_bind]
      apply (hbody i vm (by omega) hinit).mono
      intro r vm₁ hnext
      cases r with
      | error e => exact ensures_pure.2 (by simp)
      | ok _ =>
          have hrest := ih (hnext rfl) fun j vm hj hinv => hbody j vm (by omega) hinv
          rwa [Nat.succ_mul, Nat.add_assoc, Nat.add_comm 1 n] at hrest

/-! ### Mapping -/

/-- An allocation takes a page that was allocatable. -/
theorem pageAllocatorAlloc_frame (a : PageAllocator) :
    Ensures pageAllocatorAlloc a fun r a' => ∀ paddr, r = .ok paddr →
      ∃ frame, a.Allocatable frame ∧ paddr = frame * PAGE_SIZE ∧ a' = a.take frame := by
  cases hfind : a.bitmap.findFirst 0 a.bitmapLen with
  | none =>
      refine ensures_iff.2 fun r a' hreturn => ?_
      rw [pageAllocatorAlloc_none hfind] at hreturn
      cases hreturn
      exact nofun
  | some i =>
      simp only [pageAllocatorAlloc, bitmapFindFirstSet, bitmapClear, assert, ensures_bind, ensures_get, hfind,
        ensures_pure, ensures_require, ensures_set]
      intro hlen _ _ hpaddr
      cases hpaddr
      exact ⟨i, ⟨by omega, (BitSet.findFirst_eq_some hfind).1⟩, rfl, rfl⟩

theorem Allocatable_iff {a a' : PageAllocator} (hlen : a'.bitmapLen = a.bitmapLen) (hbits : a'.bitmap = a.bitmap)
    (frame : Nat) : a'.Allocatable frame ↔ a.Allocatable frame := by
  rw [PageAllocator.Allocatable, PageAllocator.Allocatable, hlen, hbits]

/-- A count after one more reference. -/
def countUp (count : Nat) : Nat := if count < UINT8_MAX then count + 1 else count

/-- The allocator with the same bits, where only the count of one page may be another. -/
structure SameBits (frame : Nat) (a a' : PageAllocator) : Prop where
  bitmap : a'.bitmap = a.bitmap
  len : a'.bitmapLen = a.bitmapLen
  free : a'.free = a.free
  others : ∀ g, g ≠ frame → a'.refCounts g = a.refCounts g

theorem SameBits.refl (frame : Nat) (a : PageAllocator) : SameBits frame a a := ⟨rfl, rfl, rfl, fun _ _ => rfl⟩

theorem SameBits.setCount (frame count : Nat) (a : PageAllocator) : SameBits frame a (a.setCount frame count) :=
  ⟨rfl, rfl, rfl, fun _ hg => Function.update_of_ne hg _ _⟩

theorem pageAllocatorRefPage_counts {addr : Nat} (h : addr % PAGE_SIZE = 0) (a : PageAllocator) :
    Ensures (pageAllocatorRefPage addr) a fun _ a' => SameBits (addr / PAGE_SIZE) a a' ∧
      a'.refCounts (addr / PAGE_SIZE) = countUp (a.refCounts (addr / PAGE_SIZE)) := by
  refine ensures_iff.2 fun _ a' href => ?_
  rw [pageAllocatorRefPage_eq h] at href
  cases href
  unfold countUp
  split
  · exact ⟨SameBits.setCount _ _ a, Function.update_self _ _ _⟩
  · exact ⟨SameBits.refl _ a, rfl⟩

theorem countUp_gt {count : Nat} (h : 0 < count) : 1 < countUp count := by
  simp only [countUp, UINT8_MAX]
  split <;> omega

section

variable (vaddr paddr flags n : Nat) (vm : Vm)

/-- The state after the first `i` of `n` pages have been mapped. -/
structure Mapped (i : Nat) (vm' : Vm) : Prop where
  entries : ∀ j < i, vm'.pde (rangePage vaddr j / 1024) ≠ none ∧
    vm'.pte (rangePage vaddr j) = some { frame := rangePage paddr j, flags := flags }
  counted : ∀ j < i, vm'.pages.refCounts (rangePage paddr j) = countUp (vm.pages.refCounts (rangePage paddr j))
  uncounted : ∀ j, i ≤ j → j < n →
    vm'.pages.refCounts (rangePage paddr j) = vm.pages.refCounts (rangePage paddr j)
  len : vm'.pages.bitmapLen = vm.pages.bitmapLen
  bits : ∀ frame, vm'.pages.bitmap.mem frame = true → vm.pages.bitmap.mem frame = true

/-- The page tables for the first `i` pages were there, or a page has been taken for one of them. -/
def TablesTaken (i : Nat) (vm' : Vm) : Prop :=
  (vm'.pde = vm.pde ∧ vm'.pages.bitmap = vm.pages.bitmap ∧ vm'.pages.free = vm.pages.free ∧
    ∀ j < i, vm.pde (rangePage vaddr j / 1024) ≠ none) ∨
  ((∃ j < i, vm.pde (rangePage vaddr j / 1024) = none) ∧
    ∃ frame, vm.pages.Allocatable frame ∧ vm'.pages.bitmap.mem frame = false)

end

variable {vaddr paddr flags n i : Nat} {vm vm₁ : Vm}

/-- A page table is found, or a page is taken for a new one. -/
theorem getOrCreatePageTable_takes (vaddr : Nat) (vm : Vm) :
    Ensures (getOrCreatePageTable vaddr) vm fun r vm' => r = .ok () →
      (vm.pde (vaddr / PAGE_SIZE / 1024) ≠ none ∧ vm' = vm) ∨
      (vm.pde (vaddr / PAGE_SIZE / 1024) = none ∧ ∃ frame, vm.pages.Allocatable frame ∧
        vm' = { vm with
          pde := Function.update vm.pde (vaddr / PAGE_SIZE / 1024) (some frame)
          pte := fun page => if page / 1024 = vaddr / PAGE_SIZE / 1024 then none else vm.pte page
          pages := vm.pages.take frame }) := by
  rw [getOrCreatePageTable, pde_index, ensures_bind, ensures_get]
  cases hpde : vm.pde (vaddr / PAGE_SIZE / 1024) with
  | some frame => exact fun _ => Or.inl ⟨by simp, rfl⟩
  | none =>
      simp only [onPages, ensures_bind, ensures_focus]
      apply (pageAllocatorAlloc_frame vm.pages).mono
      intro r pages htakes
      cases r with
      | error e => exact ensures_pure.2 (by simp)
      | ok paddr =>
          obtain ⟨frame, hfree, hpaddr, rfl⟩ := htakes paddr rfl
          refine fun _ => Or.inr ⟨trivial, frame, hfree, ?_⟩
          rw [hpaddr, Nat.mul_div_cancel _ (by decide)]

/-- A page that can be handed out while the range is being mapped is no page of the range. -/
theorem Mapped.ne_of_allocatable (hdevice : ∀ j < n, ¬ vm.pages.Allocatable (rangePage paddr j))
    (h : Mapped vaddr paddr flags n vm i vm₁) {frame : Nat} (hfree : vm₁.pages.Allocatable frame) :
    vm.pages.Allocatable frame ∧ ∀ j < n, rangePage paddr j ≠ frame := by
  have hbefore : vm.pages.Allocatable frame := ⟨h.len ▸ hfree.1, h.bits frame hfree.2⟩
  refine ⟨hbefore, fun j hj heq => hdevice j hj ?_⟩
  rwa [heq]

/-- Looking for a page table does not touch what has been mapped so far. -/
theorem Mapped.getOrCreatePageTable (hdevice : ∀ j < n, ¬ vm.pages.Allocatable (rangePage paddr j))
    (h : Mapped vaddr paddr flags n vm i vm₁) (htables : TablesTaken vaddr vm i vm₁) (hi : i < n) :
    Ensures (Chaotix.getOrCreatePageTable ((vaddr + i * PAGE_SIZE) % wordSize)) vm₁ fun r vm₂ => r = .ok () →
      Mapped vaddr paddr flags n vm i vm₂ ∧ TablesTaken vaddr vm (i + 1) vm₂ ∧
        vm₂.pde (rangePage vaddr i / 1024) ≠ none := by
  apply (getOrCreatePageTable_takes _ vm₁).mono
  intro r vm₂ htakes hr
  rcases htakes hr with ⟨hpresent, rfl⟩ | ⟨habsent, frame, hfree, rfl⟩
  · refine ⟨h, ?_, hpresent⟩
    rcases htables with ⟨hpde, hbits, hcount, hall⟩ | ⟨⟨j, hj, hnone⟩, hrest⟩
    · refine Or.inl ⟨hpde, hbits, hcount, fun j hj => ?_⟩
      rcases Nat.lt_succ_iff_lt_or_eq.1 hj with hlt | rfl
      · exact hall j hlt
      · rw [← hpde]
        exact hpresent
    · exact Or.inr ⟨⟨j, Nat.lt_succ_of_lt hj, hnone⟩, hrest⟩
  · obtain ⟨hbefore, hne⟩ := h.ne_of_allocatable hdevice hfree
    have herase : ∀ g, (vm₁.pages.take frame).bitmap.mem g = true → vm₁.pages.bitmap.mem g = true := by
      intro g hg
      simp only [PageAllocator.take, BitSet.mem_erase (w := 32) (by decide), Bool.and_eq_true] at hg
      exact hg.1
    refine ⟨⟨fun j hj => ?_, fun j hj => ?_, fun j hlo hj => ?_, h.len, ?_⟩, ?_, ?_⟩
    · obtain ⟨hpde, hpte⟩ := h.entries j hj
      have hother : rangePage vaddr j / 1024 ≠ (vaddr + i * PAGE_SIZE) % wordSize / PAGE_SIZE / 1024 := by
        intro heq
        rw [heq] at hpde
        exact hpde habsent
      simpa [Function.update_of_ne hother, hother] using h.entries j hj
    · rw [← h.counted j hj]
      exact Function.update_of_ne (hne j (Nat.lt_trans hj hi)) _ _
    · rw [← h.uncounted j hlo hj]
      exact Function.update_of_ne (hne j hj) _ _
    · exact fun g hg => h.bits g (herase g hg)
    · refine Or.inr ?_
      rcases htables with ⟨hpde, -, -, -⟩ | ⟨⟨j, hj, hnone⟩, g, hg, hgone⟩
      · refine ⟨⟨i, Nat.lt_succ_self i, ?_⟩, frame, hbefore, ?_⟩
        · rw [← hpde]
          exact habsent
        · simp [PageAllocator.take, BitSet.mem_erase (w := 32) (by decide)]
      · refine ⟨⟨j, Nat.lt_succ_of_lt hj, hnone⟩, g, hg, ?_⟩
        by_contra hmem
        rw [herase g (by simpa using hmem)] at hgone
        cases hgone
    · simp [rangePage]

/-- Mapping the next page. -/
theorem Mapped.step (hv : vaddr % PAGE_SIZE = 0) (hp : paddr % PAGE_SIZE = 0) (hn : n ≤ 2 ^ 20)
    (hdevice : ∀ j < n, ¬ vm.pages.Allocatable (rangePage paddr j))
    (h : Mapped vaddr paddr flags n vm i vm₁) (htables : TablesTaken vaddr vm i vm₁) (hi : i < n) :
    Ensures (mapPageToPhysicalAddr ((vaddr + i * PAGE_SIZE) % wordSize) ((paddr + i * PAGE_SIZE) % wordSize) flags)
      vm₁ fun r vm₂ => r = .ok () →
        Mapped vaddr paddr flags n vm (i + 1) vm₂ ∧ TablesTaken vaddr vm (i + 1) vm₂ := by
  rw [mapPageToPhysicalAddr, ensures_bind]
  apply (h.getOrCreatePageTable hdevice htables hi).mono
  intro r vm₂ htable
  cases r with
  | error e => exact ensures_pure.2 (by simp)
  | ok _ =>
      obtain ⟨hmapped, htables', hpde⟩ := htable rfl
      have haligned : (paddr + i * PAGE_SIZE) % wordSize % PAGE_SIZE = 0 := by
        simp only [wordSize, PAGE_SIZE] at hp ⊢
        omega
      simp only [assert, onPages, setPte, ensures_bind, ensures_get, ensures_require, ensures_focus]
      intro _
      apply (pageAllocatorRefPage_counts haligned vm₂.pages).mono
      rintro _ pages ⟨same, hcount⟩ _
      change SameBits (rangePage paddr i) vm₂.pages pages at same
      simp only [← rangePage.eq_1] at hcount ⊢
      have hother : ∀ j, j ≠ i → j < n → rangePage paddr j ≠ rangePage paddr i := fun j hne hj heq =>
        hne (rangePage_inj hp (by omega) (by omega) heq)
      refine ⟨⟨fun j hj => ?_, fun j hj => ?_, fun j hlo hj => ?_, same.len.trans hmapped.len, ?_⟩, ?_⟩
      · rcases Nat.lt_succ_iff_lt_or_eq.1 hj with hlt | rfl
        · have hne : rangePage vaddr j ≠ rangePage vaddr i := fun heq =>
            Nat.ne_of_lt hlt (rangePage_inj hv (by omega) (by omega) heq)
          obtain ⟨htable, hentry⟩ := hmapped.entries j hlt
          refine ⟨htable, ?_⟩
          simp only [Function.update_of_ne hne, hentry]
        · exact ⟨hpde, Function.update_self _ _ _⟩
      · rcases Nat.lt_succ_iff_lt_or_eq.1 hj with hlt | rfl
        · exact (same.others _ (hother j (Nat.ne_of_lt hlt) (Nat.lt_trans hlt hi))).trans (hmapped.counted j hlt)
        · exact hcount.trans (congrArg countUp (hmapped.uncounted j (Nat.le_refl j) hi))
      · exact (same.others _ (hother j (Nat.ne_of_gt hlo) hj)).trans (hmapped.uncounted j (Nat.le_of_lt hlo) hj)
      · intro frame hframe
        apply hmapped.bits frame
        rwa [← same.bitmap]
      · rcases htables' with ⟨hsame, hbits, hfree, hall⟩ | ⟨hnone, frame, halloc, hgone⟩
        · exact Or.inl ⟨hsame, same.bitmap.trans hbits, same.free.trans hfree, hall⟩
        · refine Or.inr ⟨hnone, frame, halloc, ?_⟩
          change pages.bitmap.mem frame = false
          rwa [same.bitmap]

/-- `paging_map_to_physical_range` that has succeeded. -/
theorem pagingMapToPhysicalRange_mapped (vm : Vm) {size : Nat}
    (hdevice : ∀ j < roundUp size / PAGE_SIZE, ¬ vm.pages.Allocatable (rangePage paddr j)) :
    Ensures (pagingMapToPhysicalRange vaddr paddr size flags) vm fun r vm' => r = .ok () →
      vaddr % PAGE_SIZE = 0 ∧ paddr % PAGE_SIZE = 0 ∧
      Mapped vaddr paddr flags (roundUp size / PAGE_SIZE) vm (roundUp size / PAGE_SIZE) vm' ∧
      TablesTaken vaddr vm (roundUp size / PAGE_SIZE) vm' := by
  simp only [pagingMapToPhysicalRange, assert, ensures_bind, ensures_require]
  intro hv hp
  have hinit : Mapped vaddr paddr flags (roundUp size / PAGE_SIZE) vm 0 vm ∧ TablesTaken vaddr vm 0 vm :=
    ⟨⟨by simp, by simp, fun _ _ _ => rfl, rfl, fun _ h => h⟩, Or.inl ⟨rfl, rfl, rfl, by simp⟩⟩
  rw [← Nat.zero_mul PAGE_SIZE]
  refine (Ensures.forPages (fun i vm' => Mapped vaddr paddr flags (roundUp size / PAGE_SIZE) vm i vm' ∧
    TablesTaken vaddr vm i vm') hinit ?_).mono ?_
  · rintro j vm' hj ⟨hmapped, htables⟩
    rw [Nat.zero_add] at hj
    exact hmapped.step hv hp (Nat.le_of_lt (pages_lt size)) hdevice htables hj
  · intro r vm' h hr
    rw [Nat.zero_add] at h
    exact ⟨hv, hp, h hr⟩

/-! ### Unmapping -/

/-- What a reference less does: the count goes down, and the last reference makes the page allocatable. -/
structure Unreferenced (frame : Nat) (a a' : PageAllocator) : Prop where
  len : a'.bitmapLen = a.bitmapLen
  others : ∀ g, g ≠ frame → a'.refCounts g = a.refCounts g ∧ a'.bitmap.mem g = a.bitmap.mem g
  last : a.refCounts frame = 1 → a'.Allocatable frame
  notLast : a.refCounts frame ≠ 1 → a'.bitmap = a.bitmap ∧ a'.free = a.free

theorem pageAllocatorUnrefPage_ensures (addr : Nat) (a : PageAllocator) :
    Ensures (pageAllocatorUnrefPage addr) a fun _ a' => Unreferenced (addr / PAGE_SIZE) a a' := by
  simp only [pageAllocatorUnrefPage, assert, ensures_bind, ensures_require, ensures_get]
  intro _ hpos
  split
  · rename_i hmax
    rw [ensures_bind, ensures_set]
    split
    · rename_i hlast
      simp only [bitmapSet, assert, ensures_bind, ensures_get, ensures_require, ensures_set]
      intro hinside
      refine ⟨rfl, fun g hg => ⟨Function.update_of_ne hg _ _, ?_⟩, fun _ => ⟨?_, ?_⟩, fun hne => ?_⟩
      · simp [BitSet.mem_insert (w := 32) (by decide), hg]
      · change addr / PAGE_SIZE < a.bitmapLen * 32
        omega
      · simp [BitSet.mem_insert (w := 32) (by decide)]
      · omega
    · rename_i hlast
      refine ⟨rfl, fun g hg => ⟨Function.update_of_ne hg _ _, rfl⟩, fun hone => ?_, fun _ => ⟨rfl, rfl⟩⟩
      omega
  · refine ⟨rfl, fun _ _ => ⟨rfl, rfl⟩, fun hone => ?_, fun _ => ⟨rfl, rfl⟩⟩
    simp only [UINT8_MAX] at *
    omega

/-- A page with another reference gives one back wherever it lies. -/
theorem pageAllocatorUnrefPage_returns {addr : Nat} (h : addr % PAGE_SIZE = 0) {a : PageAllocator}
    (hcount : 1 < a.refCounts (addr / PAGE_SIZE)) : Yields (pageAllocatorUnrefPage addr) a fun _ _ => True := by
  simp only [pageAllocatorUnrefPage, assert, yields_bind, yields_require, yields_get]
  refine ⟨h, Nat.zero_lt_of_lt hcount, ?_⟩
  split
  · rw [yields_bind, yields_set, if_neg (by omega)]
    trivial
  · trivial

section

variable (vaddr paddr flags n : Nat) (vm : Vm)

/-- The state after the first `i` of `n` pages have been unmapped. -/
structure Unmapping (i : Nat) (vm' : Vm) : Prop where
  entries : ∀ j, i ≤ j → j < n → vm'.pde (rangePage vaddr j / 1024) ≠ none ∧
    vm'.pte (rangePage vaddr j) = some { frame := rangePage paddr j, flags := flags }
  counts : ∀ j, i ≤ j → j < n → vm'.pages.refCounts (rangePage paddr j) = vm.pages.refCounts (rangePage paddr j)
  len : vm'.pages.bitmapLen = vm.pages.bitmapLen
  outside : ∀ frame, (∀ j < n, rangePage paddr j ≠ frame) →
    vm'.pages.bitmap.mem frame = vm.pages.bitmap.mem frame
  last : ∀ j < i, vm.pages.refCounts (rangePage paddr j) = 1 → vm'.pages.Allocatable (rangePage paddr j)
  notLast : (∀ j < n, vm.pages.refCounts (rangePage paddr j) ≠ 1) →
    vm'.pages.bitmap = vm.pages.bitmap ∧ vm'.pages.free = vm.pages.free

end

theorem Unmapping.getPte (h : Unmapping vaddr paddr flags n vm i vm₁) (hi : i < n) :
    Chaotix.getPte vm₁ ((vaddr + i * PAGE_SIZE) % wordSize) =
      some (some { frame := rangePage paddr i, flags := flags }) := by
  obtain ⟨hpde, hpte⟩ := h.entries i (Nat.le_refl i) hi
  obtain ⟨table, htable⟩ := Option.ne_none_iff_exists'.1 hpde
  rw [Chaotix.getPte, pde_index, ← rangePage.eq_1, htable, hpte]

/-- Unmapping the next page. -/
theorem Unmapping.step (hv : vaddr % PAGE_SIZE = 0) (hp : paddr % PAGE_SIZE = 0) (hn : n ≤ 2 ^ 20)
    (h : Unmapping vaddr paddr flags n vm i vm₁) (hi : i < n) :
    Ensures (unmapPage ((vaddr + i * PAGE_SIZE) % wordSize)) vm₁ fun _ vm₂ =>
      Unmapping vaddr paddr flags n vm (i + 1) vm₂ := by
  rw [unmapPage, ensures_bind, ensures_get, h.getPte hi]
  simp only [onPages, setPte, ensures_bind, ensures_focus]
  apply (pageAllocatorUnrefPage_ensures _ vm₁.pages).mono
  intro _ pages hunref
  rw [Nat.mul_div_cancel _ (by decide)] at hunref
  rw [ensures_modify, ← rangePage.eq_1]
  have hother : ∀ j, j ≠ i → j < n → rangePage paddr j ≠ rangePage paddr i := fun j hne hj heq =>
    hne (rangePage_inj hp (by omega) (by omega) heq)
  have hcount := h.counts i (Nat.le_refl i) hi
  refine ⟨fun j hlo hj => ?_, fun j hlo hj => ?_, hunref.len.trans h.len, fun frame hframe => ?_, fun j hj hone => ?_,
    fun hnone => ?_⟩
  · have hne : rangePage vaddr j ≠ rangePage vaddr i := fun heq =>
      Nat.ne_of_gt hlo (rangePage_inj hv (by omega) (by omega) heq)
    obtain ⟨htable, hentry⟩ := h.entries j (Nat.le_of_lt hlo) hj
    refine ⟨htable, ?_⟩
    simp only [Function.update_of_ne hne, hentry]
  · rw [← h.counts j (Nat.le_of_lt hlo) hj]
    exact (hunref.others _ (hother j (Nat.ne_of_gt hlo) hj)).1
  · rw [← h.outside frame hframe]
    exact (hunref.others frame fun heq => hframe i hi heq.symm).2
  · rcases Nat.lt_succ_iff_lt_or_eq.1 hj with hlt | rfl
    · obtain ⟨hinside, hmem⟩ := h.last j hlt hone
      refine ⟨hunref.len ▸ hinside, ?_⟩
      rw [← hmem]
      exact (hunref.others _ (hother j (Nat.ne_of_lt hlt) (Nat.lt_trans hlt hi))).2
    · exact hunref.last (hcount.trans hone)
  · obtain ⟨hbits, hfree⟩ := h.notLast hnone
    obtain ⟨hbits', hfree'⟩ := hunref.notLast (hcount ▸ hnone i hi)
    exact ⟨hbits'.trans hbits, hfree'.trans hfree⟩

/-- A page with another reference is unmapped without a failed assertion. -/
theorem Unmapping.returns (h : Unmapping vaddr paddr flags n vm i vm₁) (hi : i < n)
    (hcount : 1 < vm.pages.refCounts (rangePage paddr i)) :
    Yields (unmapPage ((vaddr + i * PAGE_SIZE) % wordSize)) vm₁ fun _ _ => True := by
  rw [unmapPage, yields_bind, yields_get, h.getPte hi]
  simp only [onPages, setPte, yields_bind, yields_focus]
  rw [← h.counts i (Nat.le_refl i) hi,
    ← Nat.mul_div_cancel (rangePage paddr i) (show 0 < PAGE_SIZE by decide)] at hcount
  exact (pageAllocatorUnrefPage_returns (Nat.mul_mod_left _ _) hcount).mono fun _ _ _ => trivial

/-- `paging_unmap` on a range that has been mapped. -/
theorem pagingUnmap_ensures {size : Nat} (hv : vaddr % PAGE_SIZE = 0) (hp : paddr % PAGE_SIZE = 0)
    (h : Unmapping vaddr paddr flags (roundUp size / PAGE_SIZE) vm 0 vm) :
    Ensures (pagingUnmap vaddr size) vm fun _ vm' =>
      Unmapping vaddr paddr flags (roundUp size / PAGE_SIZE) vm (roundUp size / PAGE_SIZE) vm' := by
  simp only [pagingUnmap, assert, ensures_bind, ensures_require]
  intro _
  refine (Ensures.forRange (Unmapping vaddr paddr flags (roundUp size / PAGE_SIZE) vm) h ?_).mono ?_
  · intro j vm' _ hj hinv
    exact hinv.step hv hp (Nat.le_of_lt (pages_lt size)) hj
  · intro _ vm' hall
    rwa [Nat.zero_max] at hall

theorem pagingUnmap_returns {size : Nat} (hv : vaddr % PAGE_SIZE = 0) (hp : paddr % PAGE_SIZE = 0)
    (h : Unmapping vaddr paddr flags (roundUp size / PAGE_SIZE) vm 0 vm)
    (hcounts : ∀ j < roundUp size / PAGE_SIZE, 1 < vm.pages.refCounts (rangePage paddr j)) :
    Yields (pagingUnmap vaddr size) vm fun _ _ => True := by
  simp only [pagingUnmap, assert, yields_bind, yields_require]
  refine ⟨hv, (Yields.forRange (Unmapping vaddr paddr flags (roundUp size / PAGE_SIZE) vm) h ?_).mono
    fun _ _ _ => trivial⟩
  intro j vm' _ hj hinv
  obtain ⟨_, vm'', hreturn, -⟩ := yields_iff.1 (hinv.returns hj (hcounts j hj))
  exact yields_of_return hreturn (ensures_iff.1 (hinv.step hv hp (Nat.le_of_lt (pages_lt size)) hj) _ _ hreturn)

/-! ### The pair -/

/-- What the mapping leaves is what `paging_unmap` begins with. -/
theorem Mapped.unmapping {vm' : Vm} (h : Mapped vaddr paddr flags n vm n vm') :
    Unmapping vaddr paddr flags n vm' 0 vm' :=
  ⟨fun j _ hj => h.entries j hj, fun _ _ _ => rfl, rfl, fun _ _ => rfl, nofun, fun _ => ⟨rfl, rfl⟩⟩

/-- Unmapping a range of physical memory that nobody could allocate when it was mapped succeeds and leaves the
    allocator as it was before the mapping exactly when every page of the range has had a reference before, and the page
    tables have been there. -/
theorem unmap_of_device_memory_is_neutral_iff {vaddr paddr size flags : Nat} {vm vm₁ : Vm}
    (hdevice : ∀ i < roundUp size / PAGE_SIZE, ¬ vm.pages.Allocatable (rangePage paddr i))
    (hmap : pagingMapToPhysicalRange vaddr paddr size flags vm = .ok (.ok (), vm₁)) :
    Yields (pagingUnmap vaddr size) vm₁ (fun _ vm₂ => Neutral vm.pages vm₂.pages) ↔
      ∀ i < roundUp size / PAGE_SIZE,
        0 < vm.pages.refCounts (rangePage paddr i) ∧ vm.pde (rangePage vaddr i / 1024) ≠ none := by
  obtain ⟨hv, hp, hmapped, htables⟩ :=
    ensures_iff.1 (pagingMapToPhysicalRange_mapped vm hdevice) _ _ hmap rfl
  have hunmap := pagingUnmap_ensures hv hp hmapped.unmapping
  constructor
  · intro hyields
    obtain ⟨_, vm₂, hreturn, neutral⟩ := yields_iff.1 hyields
    have hend := ensures_iff.1 hunmap _ _ hreturn
    intro i hi
    constructor
    · by_contra hzero
      have hone : vm₁.pages.refCounts (rangePage paddr i) = 1 := by
        rw [hmapped.counted i hi, Nat.eq_zero_of_not_pos hzero]
        rfl
      exact hdevice i hi ((neutral.allocatable _).1 (hend.last i hi hone))
    · rcases htables with ⟨_, _, _, hall⟩ | ⟨_, frame, halloc, hgone⟩
      · exact hall i hi
      · have hsame := hend.outside frame fun j hj heq => hdevice j hj (heq ▸ halloc)
        rw [neutral.bitmap, hgone, halloc.2] at hsame
        cases hsame
  · intro hall
    have hcounts : ∀ j < roundUp size / PAGE_SIZE, 1 < vm₁.pages.refCounts (rangePage paddr j) := by
      intro j hj
      rw [hmapped.counted j hj]
      exact countUp_gt (hall j hj).1
    obtain ⟨_, vm₂, hreturn, -⟩ := yields_iff.1 (pagingUnmap_returns hv hp hmapped.unmapping hcounts)
    have hend := ensures_iff.1 hunmap _ _ hreturn
    obtain ⟨hbits, hfree⟩ := hend.notLast fun j hj => Nat.ne_of_gt (hcounts j hj)
    refine yields_of_return hreturn ?_
    rcases htables with ⟨_, hbits', hfree', _⟩ | ⟨⟨j, hj, hnone⟩, _⟩
    · have halloc := Allocatable_iff (hend.len.trans hmapped.len) (hbits.trans hbits')
      exact ⟨hbits.trans hbits', hfree.trans hfree', halloc⟩
    · exact absurd hnone (hall j hj).2

/-- An address space whose bitmap covers 128 KiB, where a page table is there for the first 4 MiB. -/
def Vm.smallMemory : Vm where
  pde idx := if idx = 0 then some 6 else none
  pte _ := none
  ram _ _ := 0
  pages := {
    bitmapLen := 1
    bitmap := fun word => if word = 0 then 0x80#32 else 0#32
    refCounts := fun frame => if frame = 7 then 0 else if frame < 32 then UINT8_MAX else 0
    total := 4
    free := 4 }

theorem smallMemory_device {frame : Nat} (h : frame ≠ 7) : ¬ Vm.smallMemory.pages.Allocatable frame := by
  rintro ⟨hlt, hmem⟩
  have hall : ∀ f < 32, f ≠ 7 → Vm.smallMemory.pages.bitmap.mem f = false := by decide
  rw [hall frame hlt h] at hmem
  cases hmem

/-- A page of device memory above the end of the bitmap: it is mapped, and unmapping it fails an assertion. -/
theorem unmap_above_bitmap_panics :
    ∃ vm₁, pagingMapToPhysicalRange 0x1000 0xfd000000 0x1000 PAGE_SHARED Vm.smallMemory = .ok (.ok (), vm₁) ∧
      (∀ i < roundUp 0x1000 / PAGE_SIZE, ¬ Vm.smallMemory.pages.Allocatable (rangePage 0xfd000000 i)) ∧
      Vm.smallMemory.frameOf 1 = none ∧
      pagingUnmap 0x1000 0x1000 vm₁ = .error .panic ∧
      ¬ Yields (pagingUnmap 0x1000 0x1000) vm₁ (fun _ vm₂ => Neutral Vm.smallMemory.pages vm₂.pages) :=
  ⟨_, rfl, fun i hi => smallMemory_device (by simp only [rangePage, roundUp, PAGE_SIZE, wordSize] at hi ⊢; omega),
    rfl, rfl, fun h => h⟩

/-- A reserved page inside the bitmap, mapped and unmapped. -/
theorem unmap_of_device_memory_is_neutral_iff_reserved :
    ∃ vm₁, pagingMapToPhysicalRange 0x1000 0x8000 0x1000 PAGE_SHARED Vm.smallMemory = .ok (.ok (), vm₁) ∧
      Yields (pagingUnmap 0x1000 0x1000) vm₁ (fun _ vm₂ => Neutral Vm.smallMemory.pages vm₂.pages) := by
  have hpages : roundUp 0x1000 / PAGE_SIZE = 1 := by decide
  have hdevice : ∀ i < roundUp 0x1000 / PAGE_SIZE, ¬ Vm.smallMemory.pages.Allocatable (rangePage 0x8000 i) := by
    intro i hi
    rw [hpages, Nat.lt_one_iff] at hi
    exact smallMemory_device (hi ▸ by decide)
  refine ⟨_, rfl, (unmap_of_device_memory_is_neutral_iff hdevice rfl).2 ?_⟩
  intro i hi
  rw [hpages, Nat.lt_one_iff] at hi
  subst hi
  decide

/-- Inside the bitmap, a page that has been reserved at boot or is in use has a reference. -/
theorem reserved_page_is_referenced {s : PageState} (inv : PageInvariant s) {i : Nat}
    (hi : i < s.allocator.bitmapLen * 32) (h : s.reserved i = true ∨ 0 < s.outstanding i) :
    0 < s.allocator.refCounts i := by
  rcases h with hreserved | hout
  · rw [(inv.saturated_iff i).1 (inv.reserved_saturated i hi hreserved)]
    decide
  · exact inv.count_pos hi hout

end Chaotix
