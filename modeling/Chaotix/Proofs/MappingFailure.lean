/-
Module: Chaotix.Proofs.MappingFailure
Layer: Proofs
Purpose: What is left of a mapping of several pages when memory runs out. None of the three functions takes anything
  back: a page that has been mapped stays mapped, and a page table that has been created stays. So nothing is left just
  where the very first thing the function does fails.
Imports: Mathlib.Tactic, Chaotix.Proofs.PagingSpec
Trusted boundary: none
Main exports: RangeMapping, AtomicFailure, Accumulates, forPages_accumulates, failed_mapping_is_atomic_iff
-/
import Mathlib.Tactic
import Chaotix.Proofs.PagingSpec

open Program

namespace Chaotix

/-! ### The calls -/

/-- The number of the page at an index of a range that begins at an address. -/
def rangePage (base i : Nat) : Nat := (base + i * PAGE_SIZE) % wordSize / PAGE_SIZE

/-- A call of one of the three functions that map the pages of a range. -/
inductive RangeMapping where
  | mapToFreePages (vaddr size flags : Nat)
  | mapToPhysicalRange (vaddr paddr size flags : Nat)
  | copyMapping (toVaddr fromVaddr size flags : Nat)

namespace RangeMapping

/-- What the call runs. -/
def run : RangeMapping → Kernel Vm (Except Errno Unit)
  | .mapToFreePages vaddr size flags => pagingMapToFreePages vaddr size flags
  | .mapToPhysicalRange vaddr paddr size flags => pagingMapToPhysicalRange vaddr paddr size flags
  | .copyMapping toVaddr fromVaddr size flags => pagingCopyMapping toVaddr fromVaddr size flags

/-- Where the range begins. -/
def vaddr : RangeMapping → Nat
  | .mapToFreePages vaddr _ _ => vaddr
  | .mapToPhysicalRange vaddr _ _ _ => vaddr
  | .copyMapping toVaddr _ _ _ => toVaddr

/-- The size of the range. -/
def size : RangeMapping → Nat
  | .mapToFreePages _ size _ => size
  | .mapToPhysicalRange _ _ size _ => size
  | .copyMapping _ _ size _ => size

/-- The page is in the range. -/
def InRange (call : RangeMapping) (page : Nat) : Prop :=
  ∃ i < roundUp call.size / PAGE_SIZE, page = rangePage call.vaddr i

/-- The first thing the call needs a physical page for: `map_to_free_pages` needs one in any case, the other two need
    one for the page table of the first page. -/
def NeedsPageFirst (call : RangeMapping) (vm : Vm) : Prop :=
  match call with
  | .mapToFreePages _ _ _ => True
  | _ => vm.pde (call.vaddr / PAGE_SIZE / 1024) = none

end RangeMapping

/-- No physical page is free. -/
def NoFreePage (vm : Vm) : Prop := vm.pages.bitmap.findFirst 0 vm.pages.bitmapLen = none

/-- The call has left nothing behind. -/
structure AtomicFailure (call : RangeMapping) (vm vm' : Vm) : Prop where
  unmapped : ∀ page, call.InRange page → vm'.frameOf page = none
  counts : vm'.pages.refCounts = vm.pages.refCounts
  reachable : ∀ frame, vm.pages.bitmap.mem frame = true → vm'.pages.bitmap.mem frame = false →
    ∃ idx, vm'.pde idx = some frame

/-! ### Nothing is taken back -/

/-- What is mapped stays mapped, and no count is lowered. -/
structure Accumulates (vm vm' : Vm) : Prop where
  mapped : ∀ page frame, vm.frameOf page = some frame → vm'.frameOf page = some frame
  counts : ∀ frame, vm.pages.refCounts frame ≤ vm'.pages.refCounts frame

theorem Accumulates.refl (vm : Vm) : Accumulates vm vm := ⟨fun _ _ h => h, fun _ => Nat.le_refl _⟩

theorem Accumulates.trans {vm₁ vm₂ vm₃ : Vm} (h : Accumulates vm₁ vm₂) (h' : Accumulates vm₂ vm₃) :
    Accumulates vm₁ vm₃ :=
  ⟨fun page frame hpage => h'.mapped page frame (h.mapped page frame hpage),
    fun frame => Nat.le_trans (h.counts frame) (h'.counts frame)⟩

/-- A page is given out whose count is zero, or nothing changes. -/
theorem pageAllocatorAlloc_ensures (a : PageAllocator) :
    Ensures pageAllocatorAlloc a fun r a' =>
      (∀ e, r = .error e → a' = a ∧ a.bitmap.findFirst 0 a.bitmapLen = none) ∧
      ∀ paddr, r = .ok paddr → a.bitmap.findFirst 0 a.bitmapLen ≠ none ∧
        ∃ frame, a.refCounts frame = 0 ∧ a'.refCounts = Function.update a.refCounts frame 1 := by
  cases hfind : a.bitmap.findFirst 0 a.bitmapLen with
  | none =>
      refine ensures_iff.2 fun r a' hreturn => ?_
      rw [pageAllocatorAlloc_none hfind] at hreturn
      cases hreturn
      exact ⟨fun _ _ => ⟨rfl, rfl⟩, by simp⟩
  | some i =>
      simp only [pageAllocatorAlloc, bitmapFindFirstSet, bitmapClear, assert, ensures_bind, ensures_get, hfind,
        ensures_pure, ensures_require, ensures_set]
      intro _ hcount
      exact ⟨by simp, fun _ _ => ⟨by simp, i, hcount, rfl⟩⟩

/-- A reference is added, or the count is at its end. -/
theorem pageAllocatorRefPage_ensures (paddr : Nat) (a : PageAllocator) :
    Ensures (pageAllocatorRefPage paddr) a fun _ a' => ∀ frame, a.refCounts frame ≤ a'.refCounts frame := by
  simp only [pageAllocatorRefPage, assert, ensures_bind, ensures_require, ensures_get]
  intro _
  split
  · rw [ensures_set]
    intro frame
    by_cases hframe : frame = paddr / PAGE_SIZE
    · subst hframe
      simp
    · simp [Function.update_of_ne hframe]
  · exact fun _ => Nat.le_refl _

theorem update_count_ne {counts : Nat → Nat} {frame : Nat} (h : counts frame = 0) :
    Function.update counts frame 1 ≠ counts := by
  intro heq
  have := congrFun heq frame
  simp [h] at this

theorem le_update_count {counts : Nat → Nat} {frame : Nat} (h : counts frame = 0) (g : Nat) :
    counts g ≤ Function.update counts frame 1 g := by
  by_cases hg : g = frame
  · rw [hg, h]
    exact Nat.zero_le _
  · rw [Function.update_of_ne hg]

theorem Accumulates.ofPages {vm : Vm} {pages : PageAllocator}
    (h : ∀ frame, vm.pages.refCounts frame ≤ pages.refCounts frame) : Accumulates vm { vm with pages := pages } :=
  ⟨fun _ _ hpage => hpage, h⟩

/-- Writing the entry of a page that was not mapped. -/
theorem Accumulates.setPte (vm : Vm) {vaddr : Nat} (h : vm.pte (vaddr / PAGE_SIZE) = none) (entry : Option Pte) :
    Accumulates vm { vm with pte := Function.update vm.pte (vaddr / PAGE_SIZE) entry } := by
  refine ⟨fun page frame hpage => ?_, fun _ => Nat.le_refl _⟩
  have hne : page ≠ vaddr / PAGE_SIZE := by
    rintro rfl
    cases hpde : vm.pde (vaddr / PAGE_SIZE / 1024) <;> simp [Vm.frameOf, hpde, h] at hpage
  simpa [Vm.frameOf, Function.update_of_ne hne] using hpage

/-- A new page table covers pages that were not mapped. -/
theorem Accumulates.newTable (vm : Vm) {idx : Nat} (h : vm.pde idx = none) (frame : Nat) :
    Accumulates vm { vm with
      pde := Function.update vm.pde idx (some frame)
      pte := fun page => if page / 1024 = idx then none else vm.pte page } := by
  refine ⟨fun page frame' hpage => ?_, fun _ => Nat.le_refl _⟩
  have hne : page / 1024 ≠ idx := by
    rintro rfl
    simp [Vm.frameOf, h] at hpage
  simpa [Vm.frameOf, Function.update_of_ne hne, hne] using hpage

/-! ### One page -/

/-- What a function that maps one page does: it fails without a change when it needs a physical page and none is
    free; when it fails otherwise, it has already taken a page for a page table. -/
structure MapsPage (vm : Vm) (page : Nat) (needs : Prop) (r : Except Errno Unit) (vm' : Vm) : Prop where
  accumulates : Accumulates vm vm'
  mapped : r = .ok () → ∃ frame, vm'.frameOf page = some frame
  stuck : NoFreePage vm → needs → vm' = vm ∧ r ≠ .ok ()
  failed : r ≠ .ok () → (NoFreePage vm ∧ needs) ∨ vm'.pages.refCounts ≠ vm.pages.refCounts

/-- A page table is found or created. -/
structure HasPageTable (vm : Vm) (idx : Nat) (vm' : Vm) : Prop where
  accumulates : Accumulates vm vm'
  present : vm'.pde idx ≠ none
  free : vm.pde idx = none → ¬ NoFreePage vm ∧ vm'.pages.refCounts ≠ vm.pages.refCounts
  found : vm.pde idx ≠ none → vm' = vm

theorem getOrCreatePageTable_ensures (vaddr : Nat) (vm : Vm) :
    Ensures (getOrCreatePageTable vaddr) vm fun r vm' =>
      (∀ e, r = .error e → vm' = vm ∧ NoFreePage vm ∧ vm.pde (vaddr / PAGE_SIZE / 1024) = none) ∧
      (r = .ok () → HasPageTable vm (vaddr / PAGE_SIZE / 1024) vm') := by
  rw [getOrCreatePageTable, pde_index, ensures_bind, ensures_get]
  cases hpde : vm.pde (vaddr / PAGE_SIZE / 1024) with
  | some frame =>
      exact ensures_pure.2 ⟨by simp, fun _ =>
        ⟨Accumulates.refl vm, by simp [hpde], by simp [hpde], fun _ => rfl⟩⟩
  | none =>
      simp only [onPages, ensures_bind, ensures_focus]
      apply (pageAllocatorAlloc_ensures vm.pages).mono
      rintro r pages ⟨herror, hok⟩
      cases r with
      | error e =>
          obtain ⟨hsame, hnone⟩ := herror e rfl
          subst hsame
          exact ensures_pure.2 ⟨fun _ _ => ⟨rfl, hnone, trivial⟩, by simp⟩
      | ok paddr =>
          obtain ⟨hfree, frame, hzero, hcounts⟩ := hok paddr rfl
          have haccum : Accumulates vm { vm with pages := pages } :=
            Accumulates.ofPages fun g => by
              rw [hcounts]
              exact le_update_count hzero g
          have htable := haccum.trans
            (Accumulates.newTable { vm with pages := pages } hpde (paddr / PAGE_SIZE))
          refine ⟨by simp, fun _ => ⟨htable, by simp, fun _ => ⟨hfree, ?_⟩, ?_⟩⟩
          · change pages.refCounts ≠ vm.pages.refCounts
            rw [hcounts]
            exact update_count_ne hzero
          · simp [hpde]

theorem frameOf_setPte (vm : Vm) {vaddr : Nat} (hpde : vm.pde (vaddr / PAGE_SIZE / 1024) ≠ none) (pte : Pte) :
    Vm.frameOf { vm with pte := Function.update vm.pte (vaddr / PAGE_SIZE) (some pte) } (vaddr / PAGE_SIZE) =
      some pte.frame := by
  rw [frameOf_update vm hpde, Function.update_self]
  rfl

/-- `map_page_to_free_page`. -/
theorem mapPageToFreePage_maps (vaddr flags : Nat) (vm : Vm) :
    Ensures (mapPageToFreePage vaddr flags) vm (MapsPage vm (vaddr / PAGE_SIZE) True) := by
  rw [mapPageToFreePage, ensures_bind]
  apply (getOrCreatePageTable_ensures vaddr vm).mono
  rintro r vm₁ ⟨herror, htable⟩
  cases r with
  | error e =>
      obtain ⟨rfl, hnone, _⟩ := herror e rfl
      exact ensures_pure.2
        ⟨Accumulates.refl _, by simp, fun _ _ => ⟨rfl, by simp⟩, fun _ => Or.inl ⟨hnone, trivial⟩⟩
  | ok _ =>
      have table := htable rfl
      simp only [assert, onPages, setPte, ensures_bind, ensures_get, ensures_require, ensures_focus]
      intro hpte
      apply (pageAllocatorAlloc_ensures vm₁.pages).mono
      rintro r pages ⟨herror, hok⟩
      cases r with
      | error e =>
          obtain ⟨hsame, hnone⟩ := herror e rfl
          subst hsame
          refine ensures_pure.2 ⟨table.accumulates, by simp, fun hfree _ => ⟨?_, by simp⟩, fun _ => ?_⟩
          · exact table.found fun hpde => (table.free hpde).1 hfree
          · by_cases hpde : vm.pde (vaddr / PAGE_SIZE / 1024) = none
            · exact Or.inr (table.free hpde).2
            · exact Or.inl ⟨table.found hpde ▸ hnone, trivial⟩
      | ok paddr =>
          obtain ⟨hfree, frame, hzero, hcounts⟩ := hok paddr rfl
          have haccum : Accumulates vm₁ { vm₁ with pages := pages } :=
            Accumulates.ofPages fun g => by
              rw [hcounts]
              exact le_update_count hzero g
          have hentry := Accumulates.setPte { vm₁ with pages := pages } hpte
            (some { frame := paddr / PAGE_SIZE, flags := flags })
          refine ⟨(table.accumulates.trans haccum).trans hentry, ?_, ?_, by simp⟩
          · exact fun _ => ⟨_, frameOf_setPte { vm₁ with pages := pages } table.present _⟩
          · intro hnone _
            by_cases hpde : vm.pde (vaddr / PAGE_SIZE / 1024) = none
            · exact absurd hnone (table.free hpde).1
            · exact absurd (table.found hpde ▸ hnone) hfree

/-- What follows the page table in the two functions that map a page that is given. -/
theorem refAndSetPte_maps {vm vm₁ : Vm} {vaddr : Nat} (table : HasPageTable vm (vaddr / PAGE_SIZE / 1024) vm₁)
    (paddr : Nat) (pte : Pte) :
    Ensures (do
        assert ((← get).pte (vaddr / PAGE_SIZE) = none)
        onPages (pageAllocatorRefPage paddr)
        setPte vaddr (some pte)
        return .ok ()) vm₁ (MapsPage vm (vaddr / PAGE_SIZE) (vm.pde (vaddr / PAGE_SIZE / 1024) = none)) := by
  simp only [assert, onPages, setPte, ensures_bind, ensures_get, ensures_require, ensures_focus]
  intro hpte
  apply (pageAllocatorRefPage_ensures paddr vm₁.pages).mono
  intro _ pages hcounts
  have haccum := (table.accumulates.trans (Accumulates.ofPages hcounts)).trans
    (Accumulates.setPte { vm₁ with pages := pages } hpte (some pte))
  refine ⟨haccum, fun _ => ?_, fun hnone hpde => absurd hnone (table.free hpde).1, by simp⟩
  exact ⟨_, frameOf_setPte { vm₁ with pages := pages } table.present _⟩

/-- A function that looks for the page table first, and fails only if there is none. -/
theorem getOrCreatePageTable_maps {vaddr : Nat} {vm : Vm} {rest : Kernel Vm (Except Errno Unit)}
    (hrest : ∀ vm₁, HasPageTable vm (vaddr / PAGE_SIZE / 1024) vm₁ → Ensures rest vm₁
      (MapsPage vm (vaddr / PAGE_SIZE) (vm.pde (vaddr / PAGE_SIZE / 1024) = none))) :
    Ensures (do
        match ← getOrCreatePageTable vaddr with
        | .error e => return .error e
        | .ok () => rest) vm
      (MapsPage vm (vaddr / PAGE_SIZE) (vm.pde (vaddr / PAGE_SIZE / 1024) = none)) := by
  rw [ensures_bind]
  apply (getOrCreatePageTable_ensures vaddr vm).mono
  intro r vm₁ ⟨herror, htable⟩
  cases r with
  | error e =>
      obtain ⟨rfl, hnone, hpde⟩ := herror e rfl
      exact ensures_pure.2
        ⟨Accumulates.refl _, nofun, fun _ _ => ⟨rfl, nofun⟩, fun _ => Or.inl ⟨hnone, hpde⟩⟩
  | ok _ => exact hrest vm₁ (htable rfl)

/-- `map_page_to_physical_addr`. -/
theorem mapPageToPhysicalAddr_maps (vaddr paddr flags : Nat) (vm : Vm) :
    Ensures (mapPageToPhysicalAddr vaddr paddr flags) vm
      (MapsPage vm (vaddr / PAGE_SIZE) (vm.pde (vaddr / PAGE_SIZE / 1024) = none)) :=
  getOrCreatePageTable_maps fun _ table => refAndSetPte_maps table paddr _

/-- `copy_page_mapping`. -/
theorem copyPageMapping_maps (toVaddr fromVaddr flags : Nat) (vm : Vm) :
    Ensures (copyPageMapping toVaddr fromVaddr flags) vm
      (MapsPage vm (toVaddr / PAGE_SIZE) (vm.pde (toVaddr / PAGE_SIZE / 1024) = none)) := by
  rw [copyPageMapping, ensures_bind, ensures_get]
  split
  · exact getOrCreatePageTable_maps fun _ table => refAndSetPte_maps table _ _
  · trivial

/-! ### The range -/

/-- The pages of a range: what is mapped at one offset stays mapped while the rest is mapped. -/
theorem forPages_accumulates {body : Nat → Kernel Vm (Except Errno Unit)}
    (hbody : ∀ offset vm, Ensures (body offset) vm fun _ vm' => Accumulates vm vm') (offset n : Nat) (vm : Vm) :
    Ensures (forPages body offset n) vm fun _ vm' => Accumulates vm vm' := by
  induction n generalizing offset vm with
  | zero => exact Accumulates.refl vm
  | succ n ih =>
      rw [forPages, ensures_bind]
      apply (hbody offset vm).mono
      intro r vm₁ haccum
      cases r with
      | error e => exact haccum
      | ok _ => exact (ih (offset + PAGE_SIZE) vm₁).mono fun _ _ hrest => haccum.trans hrest

/-- The first page of a range that fails decides what is left. -/
theorem forPages_failed {body : Nat → Kernel Vm (Except Errno Unit)} {vm : Vm} {page : Nat} {needs : Prop}
    (hbody : ∀ offset vm, Ensures (body offset) vm fun _ vm' => Accumulates vm vm')
    (hfirst : Ensures (body 0) vm (MapsPage vm page needs)) (n : Nat) :
    Ensures (forPages body 0 (n + 1)) vm fun r vm' => r ≠ .ok () →
      (NoFreePage vm ∧ needs ∧ vm' = vm) ∨
      ((¬ NoFreePage vm ∨ ¬ needs) ∧
        ((∃ frame, vm'.frameOf page = some frame) ∨ vm'.pages.refCounts ≠ vm.pages.refCounts)) := by
  rw [forPages, ensures_bind]
  apply hfirst.mono
  intro r vm₁ hmaps
  by_cases hstuck : NoFreePage vm ∧ needs
  · obtain ⟨rfl, hr⟩ := hmaps.stuck hstuck.1 hstuck.2
    cases r with
    | error e => exact fun _ => Or.inl ⟨hstuck.1, hstuck.2, rfl⟩
    | ok _ => exact absurd rfl hr
  · have hcond : ¬ NoFreePage vm ∨ ¬ needs := not_and_or.1 hstuck
    cases r with
    | error e => exact fun hr => Or.inr ⟨hcond, Or.inr ((hmaps.failed hr).resolve_left hstuck)⟩
    | ok _ =>
        obtain ⟨frame, hframe⟩ := hmaps.mapped rfl
        apply (forPages_accumulates hbody (0 + PAGE_SIZE) n vm₁).mono
        exact fun _ vm' haccum _ => Or.inr ⟨hcond, Or.inl ⟨frame, haccum.mapped page frame hframe⟩⟩

namespace RangeMapping

variable {call : RangeMapping} {vm vm' : Vm}

/-- The page the call maps at an offset. -/
def body : RangeMapping → Nat → Kernel Vm (Except Errno Unit)
  | .mapToFreePages vaddr _ flags, offset => mapPageToFreePage ((vaddr + offset) % wordSize) flags
  | .mapToPhysicalRange vaddr paddr _ flags, offset =>
      mapPageToPhysicalAddr ((vaddr + offset) % wordSize) ((paddr + offset) % wordSize) flags
  | .copyMapping toVaddr fromVaddr _ flags, offset =>
      copyPageMapping ((toVaddr + offset) % wordSize) ((fromVaddr + offset) % wordSize) flags

theorem body_accumulates (call : RangeMapping) (offset : Nat) (vm : Vm) :
    Ensures (call.body offset) vm fun _ vm' => Accumulates vm vm' := by
  cases call with
  | mapToFreePages vaddr size flags => exact (mapPageToFreePage_maps _ flags vm).mono fun _ _ h => h.accumulates
  | mapToPhysicalRange vaddr paddr size flags =>
      exact (mapPageToPhysicalAddr_maps _ _ flags vm).mono fun _ _ h => h.accumulates
  | copyMapping toVaddr fromVaddr size flags =>
      exact (copyPageMapping_maps _ _ flags vm).mono fun _ _ h => h.accumulates

theorem body_first (call : RangeMapping) (hlt : call.vaddr < wordSize) (vm : Vm) :
    Ensures (call.body 0) vm (MapsPage vm (call.vaddr / PAGE_SIZE) (call.NeedsPageFirst vm)) := by
  cases call with
  | mapToFreePages vaddr size flags =>
      change vaddr < wordSize at hlt
      simp only [body, Nat.add_zero, Nat.mod_eq_of_lt hlt]
      exact mapPageToFreePage_maps vaddr flags vm
  | mapToPhysicalRange vaddr paddr size flags =>
      change vaddr < wordSize at hlt
      simp only [body, Nat.add_zero, Nat.mod_eq_of_lt hlt]
      exact mapPageToPhysicalAddr_maps vaddr _ flags vm
  | copyMapping toVaddr fromVaddr size flags =>
      change toVaddr < wordSize at hlt
      simp only [body, Nat.add_zero, Nat.mod_eq_of_lt hlt]
      exact copyPageMapping_maps toVaddr _ flags vm

/-- Every call that returns ran the loop over its pages. -/
theorem run_loop {r : Except Errno Unit} (hreturn : call.run vm = .ok (r, vm')) :
    forPages call.body 0 (roundUp call.size / PAGE_SIZE) vm = .ok (r, vm') := by
  have hloop : Ensures call.run vm fun r vm' =>
      forPages call.body 0 (roundUp call.size / PAGE_SIZE) vm = .ok (r, vm') := by
    cases call <;>
      simp only [run, pagingMapToFreePages, pagingMapToPhysicalRange, pagingCopyMapping, assert, ensures_bind,
        ensures_require] <;>
      intros <;>
      exact ensures_iff.2 fun _ _ hrun => hrun
  exact ensures_iff.1 hloop r vm' hreturn

/-- A call that fails has at least one page to map. -/
theorem pages_of_error {e : Errno} (hreturn : call.run vm = .ok (.error e, vm')) :
    0 < roundUp call.size / PAGE_SIZE := by
  have hloop := run_loop hreturn
  by_contra hzero
  rw [Nat.eq_zero_of_not_pos hzero] at hloop
  cases hloop

end RangeMapping

/-- A mapping that fails leaves nothing behind exactly when no physical page is free, and the call needs one before it
    maps its first page. In every other failure the first page stays mapped, or a page table has been taken. -/
theorem failed_mapping_is_atomic_iff {call : RangeMapping} {vm vm' : Vm} {e : Errno} (hlt : call.vaddr < wordSize)
    (hunmapped : ∀ page, call.InRange page → vm.frameOf page = none)
    (hreturn : call.run vm = .ok (.error e, vm')) :
    AtomicFailure call vm vm' ↔ NoFreePage vm ∧ call.NeedsPageFirst vm := by
  obtain ⟨n, hn⟩ := Nat.exists_eq_succ_of_ne_zero (Nat.ne_of_gt (RangeMapping.pages_of_error hreturn))
  have hloop := RangeMapping.run_loop hreturn
  have hfailed := forPages_failed call.body_accumulates (call.body_first hlt vm) n
  rw [hn] at hloop
  rcases ensures_iff.1 hfailed _ _ hloop nofun with ⟨hfree, hneeds, rfl⟩ | ⟨hcond, hleft⟩
  · refine ⟨fun _ => ⟨hfree, hneeds⟩, fun _ => ⟨hunmapped, rfl, ?_⟩⟩
    intro frame hmem hnotMem
    rw [hmem] at hnotMem
    cases hnotMem
  · refine ⟨fun atomic => ?_, fun ⟨hfree, hneeds⟩ => ?_⟩
    · rcases hleft with ⟨frame, hframe⟩ | hcounts
      · have hfirst : call.InRange (call.vaddr / PAGE_SIZE) :=
          ⟨0, hn ▸ Nat.succ_pos n, by rw [rangePage, Nat.zero_mul, Nat.add_zero, Nat.mod_eq_of_lt hlt]⟩
        rw [atomic.unmapped _ hfirst] at hframe
        cases hframe
      · exact absurd atomic.counts hcounts
    · rcases hcond with hno | hno
      · exact absurd hfree hno
      · exact absurd hneeds hno

/-- An address space with one page table and one free frame, number 7. -/
def Vm.oneFrame : Vm where
  pde idx := if idx = 0 then some 6 else none
  pte _ := none
  ram _ _ := 0
  pages := {
    bitmapLen := 1
    bitmap := fun word => if word = 0 then 0x80#32 else 0#32
    refCounts := fun frame => if frame = 7 then 0 else UINT8_MAX
    total := 4
    free := 4 }

/-- Two pages of which the second finds no frame. -/
theorem twoPages_run :
    Yields (RangeMapping.mapToFreePages 0x1000 0x2000 PAGE_WRITE).run Vm.oneFrame fun r vm' =>
      r = .error .ENOMEM ∧ vm'.frameOf 1 = some 7 ∧ vm'.pages.refCounts 7 = 1 := by
  decide

theorem twoPages_unmapped (page : Nat) : Vm.oneFrame.frameOf page = none := by
  unfold Vm.frameOf
  cases Vm.oneFrame.pde (page / 1024) <;> rfl

/-- A range of two pages with memory for one of them: the call fails and its first page stays mapped. -/
theorem failed_mapping_leaves_first_page :
    ∃ vm', (RangeMapping.mapToFreePages 0x1000 0x2000 PAGE_WRITE).run Vm.oneFrame = .ok (.error .ENOMEM, vm') ∧
      (∀ page, (RangeMapping.mapToFreePages 0x1000 0x2000 PAGE_WRITE).InRange page →
        Vm.oneFrame.frameOf page = none) ∧
      ¬ AtomicFailure (.mapToFreePages 0x1000 0x2000 PAGE_WRITE) Vm.oneFrame vm' := by
  obtain ⟨r, vm', hreturn, rfl, hmapped, -⟩ := yields_iff.1 twoPages_run
  refine ⟨vm', hreturn, fun page _ => twoPages_unmapped page, fun atomic => ?_⟩
  have hfirst := atomic.unmapped 1 ⟨0, by decide, by decide⟩
  rw [hmapped] at hfirst
  cases hfirst

theorem failed_mapping_is_atomic_iff_two_pages :
    ∃ vm', (RangeMapping.mapToFreePages 0x1000 0x2000 PAGE_WRITE).run Vm.oneFrame = .ok (.error .ENOMEM, vm') ∧
      (AtomicFailure (.mapToFreePages 0x1000 0x2000 PAGE_WRITE) Vm.oneFrame vm' ↔
        NoFreePage Vm.oneFrame ∧ True) := by
  obtain ⟨r, vm', hreturn, rfl, -⟩ := yields_iff.1 twoPages_run
  exact ⟨vm', hreturn, failed_mapping_is_atomic_iff (by decide) (fun page _ => twoPages_unmapped page) hreturn⟩

end Chaotix
