/-
Module: Chaotix.Proofs.KmallocSpec
Layer: Proofs
Purpose: The kernel heap as its callers see it. Every page of the heap that is mapped has a frame that no other page of
  the heap has, and the frames of a block have one reference each. Work on the pages of one block, or of the free
  ranges, leaves the other blocks as they are.
Imports: Mathlib.Tactic, Chaotix.Kernel.Kmalloc, Chaotix.Proofs.Bystanders
Trusted boundary: none
Main exports: PageAllocator.Sole, WorksOn, LiveBlock, HeapInvariant, HeapInvariant.rangeAllocatorAlloc, HeapInvariant.handedOut
-/
import Mathlib.Tactic
import Chaotix.Kernel.Kmalloc
import Chaotix.Proofs.Bystanders

open Program

namespace Chaotix

/-! ### Frames with one reference -/

/-- The frame is taken and has one reference. -/
structure PageAllocator.Sole (a : PageAllocator) (f : Nat) : Prop extends a.Held f 1 where
  one : a.refCounts f = 1

section Pages

variable {vm vm' : Vm} {vaddr q n : Nat}

theorem Leaves.sole {pages frames : Nat → Prop} (h : Leaves pages frames vm vm') {f : Nat} (hf : frames f)
    (hsole : vm.pages.Sole f) : vm'.pages.Sole f := by
  have hone : vm'.pages.refCounts f = 1 := (h.counts f hf).trans hsole.one
  refine ⟨⟨?_, h.clear f hf, ?_⟩, hone⟩
  · rw [h.len]
    exact hsole.inside
  · rw [hone]
    decide

/-- A page that is mapped to a free page gets a frame of its own. -/
theorem mapPageToFreePage_sole (vaddr flags : Nat) (vm : Vm) :
    Ensures (mapPageToFreePage vaddr flags) vm fun r vm' => r = .ok () →
      ∃ f, vm'.frameOf (vaddr / PAGE_SIZE) = some f ∧ vm'.pages.Sole f ∧ ¬vm.pages.Held f 1 := by
  rw [mapPageToFreePage, ensures_bind]
  refine ensures_iff.2 fun r vm₁ hreturn => ?_
  have htable := (ensures_iff.1 (getOrCreatePageTable_ensures vaddr vm) _ _ hreturn).2
  have htakes := ensures_iff.1 (getOrCreatePageTable_takes vaddr vm) _ _ hreturn
  cases r with
  | error e => exact ensures_pure.2 (by simp)
  | ok _ =>
      have hfresh : ∀ f, vm₁.pages.Allocatable f → ¬vm.pages.Held f 1 := by
        intro f hfree hheld
        have hset : vm.pages.bitmap.mem f = true := by
          rcases htakes rfl with ⟨-, rfl⟩ | ⟨-, frame, -, rfl⟩
          · exact hfree.2
          · have hmem := hfree.2
            simp only [PageAllocator.take, BitSet.mem_erase (w := 32) (by decide), Bool.and_eq_true] at hmem
            exact hmem.1
        rw [hheld.clear] at hset
        exact Bool.noConfusion hset
      simp only [assert, onPages, setPte, ensures_bind, ensures_get, ensures_require, ensures_focus]
      intro _
      apply (pageAllocatorAlloc_takes vm₁.pages).mono
      rintro r a (⟨rfl, rfl, -⟩ | ⟨frame, hfree, rfl, rfl⟩)
      · exact ensures_pure.2 (by simp)
      · intro _
        refine ⟨frame, ?_, ⟨⟨hfree.1, ?_, ?_⟩, ?_⟩, hfresh frame hfree⟩
        · have hpage := frameOf_setPte { vm₁ with pages := vm₁.pages.take frame } (htable rfl).present
            { frame := frame * PAGE_SIZE / PAGE_SIZE, flags := flags }
          rwa [Nat.mul_div_cancel _ (by decide)] at hpage ⊢
        · simp [PageAllocator.take, BitSet.mem_erase (w := 32) (by decide)]
        · simp [PageAllocator.take]
        · simp [PageAllocator.take]

theorem mapPageToFreePage_unmapped (hpage : vaddr / PAGE_SIZE = q) (hnone : vm.frameOf q = none) (flags : Nat) :
    Ensures (mapPageToFreePage vaddr flags) vm fun r vm' => ∀ e, r = .error e → vm'.frameOf q = none := by
  subst hpage
  rw [mapPageToFreePage, ensures_bind]
  refine ensures_iff.2 fun r vm₁ hreturn => ?_
  have herror := (ensures_iff.1 (getOrCreatePageTable_ensures vaddr vm) _ _ hreturn).1
  cases r with
  | error e =>
      obtain ⟨rfl, -⟩ := herror e rfl
      exact fun _ _ => hnone
  | ok _ =>
      simp only [assert, onPages, setPte, ensures_bind, ensures_get, ensures_require, ensures_focus]
      intro hpte
      refine ensures_iff.2 fun r a _ => ?_
      cases r with
      | error e =>
          intro _ _
          simp only [Vm.frameOf, hpte, Option.map_none]
          split <;> rfl
      | ok paddr => rintro _ ⟨⟩

/-- The pages of an object that have been mapped to free pages, all of them or those before memory ran out: each of
    them has a frame of its own. -/
structure SolePages (vm : Vm) (q n : Nat) (r : Except Errno Unit) (vm' : Vm) : Prop where
  outside : ∀ p, p < q ∨ q + n ≤ p → vm'.frameOf p = vm.frameOf p
  kept : ∀ f, vm.pages.Held f 1 → vm'.pages.Held f 1
  keptSole : ∀ f, vm.pages.Sole f → vm'.pages.Sole f
  sole : ∀ p f, q ≤ p → p < q + n → vm'.frameOf p = some f → vm'.pages.Sole f ∧ ¬vm.pages.Held f 1
  distinct : ∀ p p' f, q ≤ p → p < q + n → q ≤ p' → p' < q + n → vm'.frameOf p = some f → vm'.frameOf p' = some f →
    p = p'
  mapped : r = .ok () → ∀ p, q ≤ p → p < q + n → ∃ f, vm'.frameOf p = some f

theorem Leaves.held {pages frames : Nat → Prop} (h : Leaves pages frames vm vm') {f k : Nat} (hf : frames f)
    (hheld : vm.pages.Held f k) : vm'.pages.Held f k :=
  ⟨h.len ▸ hheld.inside, h.clear f hf, (h.counts f hf).symm ▸ hheld.count⟩

theorem forPages_sole {n q : Nat} (flags offset : Nat) (hbase : vaddr + offset = q * PAGE_SIZE)
    (hlt : (q + n) * PAGE_SIZE ≤ wordSize) (hfree : ∀ p, q ≤ p → p < q + n → vm.frameOf p = none) :
    Ensures (forPages (fun offset => mapPageToFreePage ((vaddr + offset) % wordSize) flags) offset n) vm
      (SolePages vm q n) := by
  induction n generalizing vm offset q with
  | zero =>
      refine ⟨fun _ _ => rfl, fun _ h => h, fun _ h => h, ?_, ?_, ?_⟩
      · exact fun p f hlo hhi => absurd hhi (by omega)
      · exact fun p p' f hlo hhi => absurd hhi (by omega)
      · exact fun _ p hlo hhi => absurd hhi (by omega)
  | succ n ih =>
      have hpage : (vaddr + offset) % wordSize / PAGE_SIZE = q := by
        rw [hbase, Nat.mod_eq_of_lt (by simp only [wordSize, PAGE_SIZE] at hlt ⊢; omega),
          Nat.mul_div_cancel q (by decide)]
      have hnone : vm.frameOf q = none := hfree q (Nat.le_refl q) (by omega)
      have hleaves : Leaves (fun p => p ≠ q) (fun f => vm.pages.Held f 1) vm vm := by
        refine .refl (fun f hf => hf.clear) fun p f hp hf => ?_
        rw [not_not.1 hp, hnone] at hf
        cases hf
      rw [forPages, ensures_bind]
      refine ensures_iff.2 fun r vm₁ hreturn => ?_
      have h₁ := ensures_iff.1 (mapPageToFreePage_leaves hleaves (by simp [hpage]) flags) _ _ hreturn
      have hsole := ensures_iff.1 (mapPageToFreePage_sole _ flags vm) _ _ hreturn
      rw [hpage] at hsole
      cases r with
      | error e =>
          -- the page itself is not mapped then, for the function fails before it writes the entry
          have hfirst : vm₁.frameOf q = none := by
            have hmaps := ensures_iff.1 (mapPageToFreePage_unmapped hpage hnone flags) _ _ hreturn
            exact hmaps e rfl
          have hall : ∀ p, q ≤ p → p < q + (n + 1) → vm₁.frameOf p = none := by
            intro p hlo hhi
            by_cases heq : p = q
            · rw [heq, hfirst]
            · exact (h₁.frameOf p heq).trans (hfree p hlo hhi)
          refine ⟨fun p hp => h₁.frameOf p (by omega), fun f hf => h₁.held hf hf, fun f hf => h₁.sole hf.toHeld hf,
            ?_, ?_, by simp⟩
          · intro p f hlo hhi hf
            rw [hall p hlo hhi] at hf
            cases hf
          · intro p p' f hlo hhi _ _ hf
            rw [hall p hlo hhi] at hf
            cases hf
      | ok _ =>
          obtain ⟨f, hframe, hone, hnew⟩ := hsole rfl
          have hfree₁ : ∀ p, q + 1 ≤ p → p < q + 1 + n → vm₁.frameOf p = none := fun p hlo hhi =>
            (h₁.frameOf p (by omega)).trans (hfree p (by omega) (by omega))
          apply (ih (offset + PAGE_SIZE) (by rw [← Nat.add_assoc, hbase, Nat.succ_mul])
            (by rwa [Nat.add_right_comm]) hfree₁).mono
          intro r vm₂ rest
          have hfirst : vm₂.frameOf q = some f := (rest.outside q (by omega)).trans hframe
          have hother : ∀ p, q + 1 ≤ p → p < q + 1 + n → vm₂.frameOf p ≠ some f := fun p hlo hhi hp =>
            (rest.sole p f hlo hhi hp).2 hone.toHeld
          refine ⟨fun p hp => ?_, fun g hg => rest.kept g (h₁.held hg hg),
            fun g hg => rest.keptSole g (h₁.sole hg.toHeld hg), fun p g hlo hhi hg => ?_, ?_, fun hr p hlo hhi => ?_⟩
          · exact (rest.outside p (by omega)).trans (h₁.frameOf p (by omega))
          · by_cases heq : p = q
            · subst heq
              obtain rfl : f = g := Option.some.inj (hfirst.symm.trans hg)
              exact ⟨rest.keptSole f hone, hnew⟩
            · obtain ⟨hsoleG, hnewG⟩ := rest.sole p g (by omega) (by omega) hg
              exact ⟨hsoleG, fun hheld => hnewG (h₁.held hheld hheld)⟩
          · intro p p' g hlo hhi hlo' hhi' hg hg'
            by_cases heq : p = q
            · by_cases heq' : p' = q
              · rw [heq, heq']
              · rw [heq, hfirst] at hg
                exact absurd (hg'.trans hg.symm) (hother p' (by omega) (by omega))
            · by_cases heq' : p' = q
              · rw [heq', hfirst] at hg'
                exact absurd (hg.trans hg'.symm) (hother p (by omega) (by omega))
              · exact rest.distinct p p' g (by omega) (by omega) (by omega) (by omega) hg hg'
          · by_cases heq : p = q
            · subst heq
              exact ⟨f, hfirst⟩
            · exact rest.mapped hr p (by omega) (by omega)

/-- `page_allocator_unref_page` of the one reference makes the frame free. -/
theorem pageAllocatorUnrefPage_sole {a : PageAllocator} {f : Nat} (ok : PagesOk a) (hsole : a.Sole f) :
    ∃ a', pageAllocatorUnrefPage (f * PAGE_SIZE) a = .ok ((), a') ∧ PagesOk a' ∧ a'.Allocatable f ∧
      (∀ g, a.Allocatable g → a'.Allocatable g) ∧ ∀ g, g ≠ f → a.Sole g → a'.Sole g := by
  obtain ⟨a', hreturn, hok, -⟩ := pageAllocatorUnrefPage_held ok hsole.toHeld
  have hlen : f / 32 < a.bitmapLen := Nat.div_lt_of_lt_mul (Nat.mul_comm _ 32 ▸ hsole.inside)
  have heq := pageAllocatorUnrefPage_eq (a := a) (Nat.mul_mod_left f PAGE_SIZE)
  rw [Nat.mul_div_cancel _ (by decide)] at heq
  specialize heq hlen (by rw [hsole.one]; decide)
  rw [hsole.one, if_pos (by decide), if_pos rfl, hreturn, Except.ok.injEq, Prod.mk.injEq] at heq
  obtain ⟨-, rfl⟩ := heq
  refine ⟨a.release f, hreturn, hok, ⟨hsole.inside, ?_⟩, fun g hg => ⟨hg.1, ?_⟩, fun g hne hg => ?_⟩
  · simp [PageAllocator.release, BitSet.mem_insert (w := 32) (by decide)]
  · simp [PageAllocator.release, BitSet.mem_insert (w := 32) (by decide), hg.2]
  · have hone : (a.release f).refCounts g = 1 := by
      simp [PageAllocator.release, Function.update_of_ne hne, hg.one]
    refine ⟨⟨hg.inside, ?_, ?_⟩, hone⟩
    · simp [PageAllocator.release, BitSet.mem_insert (w := 32) (by decide), hg.clear, hne]
    · rw [hone]
      decide

/-- `unmap_page` of a page that has a frame of its own. -/
theorem unmapPage_sole {f : Nat} (hpage : vaddr / PAGE_SIZE = q) (hf : vm.frameOf q = some f) (ok : PagesOk vm.pages)
    (hsole : vm.pages.Sole f) :
    ∃ vm', unmapPage vaddr vm = .ok ((), vm') ∧ vm'.frameOf = Function.update vm.frameOf q none ∧ vm'.ram = vm.ram ∧
      PagesOk vm'.pages ∧ vm'.pages.Allocatable f ∧ (∀ g, vm.pages.Allocatable g → vm'.pages.Allocatable g) ∧
      ∀ g, g ≠ f → vm.pages.Sole g → vm'.pages.Sole g := by
  subst hpage
  obtain ⟨pte, hpte, rfl⟩ := getPte_of_mapped hf
  obtain ⟨pages, hunref, hok, hfree, hkept, hothers⟩ := pageAllocatorUnrefPage_sole ok hsole
  refine ⟨{ vm with
    pte := Function.update vm.pte (vaddr / PAGE_SIZE) none
    pages := pages }, ?_, ?_, rfl, hok, hfree, hkept, hothers⟩
  · simp [unmapPage, hpte, onPages, Program.focus, hunref, setPte]
  · exact frameOf_update { vm with pages := pages } (pde_of_mapped hf) none

/-- The address space after the pages of an object have been unmapped whose frames have no other use. -/
structure ReleasedPages (vm vm' : Vm) (q n : Nat) : Prop where
  outside : ∀ p, p < q ∨ q + n ≤ p → vm'.frameOf p = vm.frameOf p
  ram : vm'.ram = vm.ram
  pages : PagesOk vm'.pages
  unmapped : ∀ p, q ≤ p → p < q + n → vm'.frameOf p = none
  kept : ∀ f, vm.pages.Allocatable f → vm'.pages.Allocatable f
  freed : ∀ p f, q ≤ p → p < q + n → vm.frameOf p = some f → vm'.pages.Allocatable f

theorem unmapPages_sole {i : Nat} (ok : PagesOk vm.pages) (hbase : vaddr + i * PAGE_SIZE = q * PAGE_SIZE)
    (hlt : (q + n) * PAGE_SIZE ≤ wordSize)
    (hsole : ∀ p, q ≤ p → p < q + n → ∃ f, vm.frameOf p = some f ∧ vm.pages.Sole f)
    (hdistinct : PagesDistinct vm q n) :
    ∃ vm', Program.foldCount (fun i (_ : Unit) => unmapPage ((vaddr + i * PAGE_SIZE) % wordSize)) i n ()
      vm = .ok ((), vm') ∧ ReleasedPages vm vm' q n := by
  induction n generalizing vm i q with
  | zero => exact ⟨vm, rfl, fun _ _ => rfl, rfl, ok, fun _ _ _ => by omega, fun _ h => h, fun _ _ _ _ => by omega⟩
  | succ n ih =>
      have hmod : (vaddr + i * PAGE_SIZE) % wordSize = q * PAGE_SIZE := by
        rw [hbase]
        apply Nat.mod_eq_of_lt
        simp only [wordSize, PAGE_SIZE] at hlt ⊢
        omega
      have hpage : q * PAGE_SIZE / PAGE_SIZE = q := Nat.mul_div_cancel q (by decide)
      obtain ⟨f, hf, hone⟩ := hsole q (Nat.le_refl q) (by omega)
      obtain ⟨vm₁, hunmap, hframeOf, hram, hok, hfree, hkept, hothers⟩ := unmapPage_sole hpage hf ok hone
      have hrest : ∀ p, q + 1 ≤ p → p < q + 1 + n → vm₁.frameOf p = vm.frameOf p := by
        intro p hlo _
        rw [hframeOf, Function.update_of_ne (by omega)]
      have hsole₁ : ∀ p, q + 1 ≤ p → p < q + 1 + n → ∃ g, vm₁.frameOf p = some g ∧ vm₁.pages.Sole g := by
        intro p hlo hhi
        obtain ⟨g, hg, hsoleG⟩ := hsole p (by omega) (by omega)
        refine ⟨g, (hrest p hlo hhi).trans hg, hothers g ?_ hsoleG⟩
        rintro rfl
        have heq := hdistinct q p (Nat.le_refl q) (by omega) (by omega) (by omega) (hf.trans hg.symm)
        omega
      have hdistinct₁ : PagesDistinct vm₁ (q + 1) n := by
        intro p p' hlo hhi hlo' hhi' heq
        rw [hrest p hlo hhi, hrest p' hlo' hhi'] at heq
        exact hdistinct p p' (by omega) (by omega) (by omega) (by omega) heq
      obtain ⟨vm₂, hloop, after⟩ := ih (i := i + 1) hok (by rw [Nat.succ_mul, ← Nat.add_assoc, hbase, Nat.succ_mul])
        (by rwa [Nat.add_right_comm]) hsole₁ hdistinct₁
      refine ⟨vm₂, ?_, ?_, after.ram.trans hram, after.pages, ?_, fun g hg => after.kept g (hkept g hg), ?_⟩
      · simp only [Program.foldCount, Program.run_bind, hmod, hunmap, hloop]
      · intro p hp
        rw [after.outside p (by omega), hframeOf, Function.update_of_ne (by omega)]
      · intro p hlo hhi
        by_cases hp : p = q
        · subst hp
          rw [after.outside p (by omega), hframeOf, Function.update_self]
        · exact after.unmapped p (by omega) (by omega)
      · intro p g hlo hhi hg
        by_cases hp : p = q
        · subst hp
          obtain rfl : f = g := Option.some.inj (hf.symm.trans hg)
          exact after.kept f hfree
        · exact after.freed p g (by omega) (by omega) ((hrest p (by omega) (by omega)).trans hg)

/-- `paging_unmap` of pages that have frames of their own. -/
theorem pagingUnmap_sole {size : Nat} (ok : PagesOk vm.pages) (haddr : PageAddr vaddr)
    (hq : vaddr / PAGE_SIZE = q) (hn : roundUp size / PAGE_SIZE = n) (hlt : vaddr + roundUp size < wordSize)
    (hsole : ∀ p, q ≤ p → p < q + n → ∃ f, vm.frameOf p = some f ∧ vm.pages.Sole f) (hdistinct : PagesDistinct vm q n) :
    ∃ vm', pagingUnmap vaddr size vm = .ok ((), vm') ∧ ReleasedPages vm vm' q n := by
  have hbase := haddr.base
  have hmod := roundUp_mod size
  have hstart : vaddr + 0 * PAGE_SIZE = q * PAGE_SIZE := by
    simp only [PAGE_SIZE] at hbase hq ⊢
    omega
  obtain ⟨vm', hloop, after⟩ := unmapPages_sole ok hstart
    (by simp only [PAGE_SIZE] at hbase hmod hq hn ⊢; omega) hsole hdistinct
  refine ⟨vm', ?_, after⟩
  simp only [pagingUnmap, assert, Program.run_bind, Program.run_require, hbase, if_true, hn, Program.forRange,
    Program.foldRange, Nat.sub_zero, hloop]

/-- `paging_map_to_free_pages` of pages that are not mapped. -/
theorem pagingMapToFreePages_sole {size : Nat} (flags : Nat) (ok : PagesOk vm.pages) (haddr : PageAddr vaddr)
    (hq : vaddr / PAGE_SIZE = q) (hn : roundUp size / PAGE_SIZE = n) (hlt : vaddr + roundUp size < wordSize)
    (hfree : ∀ p, q ≤ p → p < q + n → vm.frameOf p = none) :
    ∃ r vm', pagingMapToFreePages vaddr size flags vm = .ok (r, vm') ∧ PagesOk vm'.pages ∧ vm'.ram = vm.ram ∧
      SolePages vm q n r vm' := by
  have hbase := haddr.base
  have hmod := roundUp_mod size
  have hstart : vaddr + 0 = q * PAGE_SIZE := by
    simp only [PAGE_SIZE] at hbase hq ⊢
    omega
  have hend : (q + n) * PAGE_SIZE ≤ wordSize := by
    simp only [PAGE_SIZE] at hbase hmod hq hn ⊢
    omega
  obtain ⟨r, vm', hloop, fresh⟩ := forPages_map flags 0 ok hstart hend hfree
  have sole := ensures_iff.1 (forPages_sole flags 0 hstart hend hfree) _ _ hloop
  refine ⟨r, vm', ?_, fresh.pages, fresh.ram, sole⟩
  simp only [pagingMapToFreePages, assert, Program.run_bind, Program.run_require, hbase, if_true, hn, hloop]

end Pages

/-! ### The pages of the heap -/

/-- A page of the addresses of the heap. -/
def HeapPage (start finish page : Nat) : Prop := start ≤ page * PAGE_SIZE ∧ page * PAGE_SIZE < finish

/-- A page of one of some ranges. -/
def InRanges (ranges : List Segment) (page : Nat) : Prop := ∃ r ∈ ranges, InBlock r page

/-- A frame behind a page of the heap that lies in none of some ranges. -/
def FrameOutside (start finish : Nat) (ranges : List Segment) (vm : Vm) (f : Nat) : Prop :=
  ∃ page, HeapPage start finish page ∧ ¬InRanges ranges page ∧ vm.frameOf page = some f

/-- A function that works on the pages of some ranges of the heap. -/
def WorksOn (start finish : Nat) (ranges : List Segment) (vm vm' : Vm) : Prop :=
  Leaves (fun page => ¬InRanges ranges page) (FrameOutside start finish ranges vm) vm vm'

/-- Every page of the heap that is mapped has a frame that no other page of the heap has. -/
structure FramesApart (start finish : Nat) (vm : Vm) : Prop where
  held : ∀ p f, HeapPage start finish p → vm.frameOf p = some f → vm.pages.Held f 1
  inj : ∀ p p' f, HeapPage start finish p → HeapPage start finish p' → vm.frameOf p = some f →
    vm.frameOf p' = some f → p = p'

section Ownership

variable {start finish : Nat} {ranges : List Segment} {vm vm' vm'' : Vm}

theorem FramesApart.worksOn (h : FramesApart start finish vm)
    (hin : ∀ p, InRanges ranges p → HeapPage start finish p) : WorksOn start finish ranges vm vm := by
  refine .refl ?_ ?_
  · rintro f ⟨p, hp, -, hf⟩
    exact (h.held p f hp hf).clear
  · rintro p f hp hf ⟨p', hp', hout, hf'⟩
    have heq := h.inj p p' f (hin p (not_not.1 hp)) hp' hf hf'
    exact hout (heq ▸ not_not.1 hp)

/-- What is left apart is what has been mapped inside the ranges. -/
theorem FramesApart.after (h : FramesApart start finish vm) (works : WorksOn start finish ranges vm vm')
    (hheld : ∀ p f, InRanges ranges p → vm'.frameOf p = some f → vm'.pages.Held f 1)
    (hinj : ∀ p p' f, InRanges ranges p → InRanges ranges p' → vm'.frameOf p = some f → vm'.frameOf p' = some f →
      p = p') : FramesApart start finish vm' := by
  have hkept : ∀ p f, HeapPage start finish p → ¬InRanges ranges p → vm'.frameOf p = some f →
      vm.frameOf p = some f ∧ FrameOutside start finish ranges vm f := by
    intro p f hp hout hf
    rw [works.frameOf p hout] at hf
    exact ⟨hf, p, hp, hout, hf⟩
  refine ⟨fun p f hp hf => ?_, fun p p' f hp hp' hf hf' => ?_⟩
  · by_cases hin : InRanges ranges p
    · exact hheld p f hin hf
    · obtain ⟨hold, hframe⟩ := hkept p f hp hin hf
      exact works.held hframe (h.held p f hp hold)
  · by_cases hin : InRanges ranges p
    · by_cases hin' : InRanges ranges p'
      · exact hinj p p' f hin hin' hf hf'
      · exact absurd (hkept p' f hp' hin' hf').2 (works.apart p f (not_not.2 hin) hf)
    · by_cases hin' : InRanges ranges p'
      · exact absurd (hkept p f hp hin hf).2 (works.apart p' f (not_not.2 hin') hf')
      · exact h.inj p p' f hp hp' (hkept p f hp hin hf).1 (hkept p' f hp' hin' hf').1

/-- Work on some of the ranges after work on all of them. -/
theorem WorksOn.trans {ranges' : List Segment} (h : WorksOn start finish ranges vm vm')
    (h' : WorksOn start finish ranges' vm' vm'') (hsub : ∀ p, InRanges ranges' p → InRanges ranges p) :
    WorksOn start finish ranges vm vm'' := by
  have hpage : ∀ p, ¬InRanges ranges p → ¬InRanges ranges' p := fun p hp hin => hp (hsub p hin)
  have hframe : ∀ f, FrameOutside start finish ranges vm f → FrameOutside start finish ranges' vm' f := by
    rintro f ⟨p, hp, hout, hf⟩
    exact ⟨p, hp, hpage p hout, (h.frameOf p hout).trans hf⟩
  refine ⟨fun p hp => (h'.frameOf p (hpage p hp)).trans (h.frameOf p hp),
    fun f hf => (h'.ram f (hframe f hf)).trans (h.ram f hf),
    fun f hf => (h'.counts f (hframe f hf)).trans (h.counts f hf), fun f hf => h'.clear f (hframe f hf), ?_,
    h'.len.trans h.len, fun i hi => h'.tables i (h.tables i hi)⟩
  intro p f hp hf hout
  by_cases hin : InRanges ranges' p
  · exact h'.apart p f (not_not.2 hin) hf (hframe f hout)
  · rw [h'.frameOf p hin] at hf
    exact h.apart p f hp hf hout

/-- Work on fewer ranges is work on more. -/
theorem WorksOn.mono {ranges' : List Segment} (hrefl : WorksOn start finish ranges vm vm)
    (h : WorksOn start finish ranges' vm vm') (hsub : ∀ p, InRanges ranges' p → InRanges ranges p) :
    WorksOn start finish ranges vm vm' := hrefl.trans h hsub

/-- The bytes of pages outside the ranges are as they were. -/
theorem WorksOn.byteAt (h : WorksOn start finish ranges vm vm') {a : Nat}
    (hpage : HeapPage start finish (a / PAGE_SIZE)) (hout : ¬InRanges ranges (a / PAGE_SIZE)) :
    vm'.byteAt a = vm.byteAt a := by
  rw [Vm.byteAt, Vm.byteAt, h.frameOf _ hout]
  cases hf : vm.frameOf (a / PAGE_SIZE) with
  | none => rfl
  | some f =>
      rw [Option.map_some, Option.map_some, h.ram f ⟨_, hpage, hout, hf⟩]

variable {P : Type} {s : RangeState P} {free : List Segment}

/-- The first page of a free range lies in it. -/
theorem NodeOk.first_page {r : Segment} (node : NodeOk vm r) : InBlock r (r.1 / PAGE_SIZE) := by
  have hpos := node.pos
  rw [InBlock, node.page_mul]
  omega

/-- So does the page where the rest of it begins. -/
theorem NodeOk.rest_page {r : Segment} (node : NodeOk vm r) {size : Nat} (hlt : roundUp size < r.2) :
    (r.1 + roundUp size) / PAGE_SIZE * PAGE_SIZE = r.1 + roundUp size ∧
      InBlock r ((r.1 + roundUp size) / PAGE_SIZE) := by
  have hbase := node.base
  have hmod := roundUp_mod size
  simp only [InBlock, PAGE_SIZE] at hbase hmod ⊢
  omega

/-- Two free ranges that meet are one. -/
theorem Spaced.eq_of_covers {l : List Segment} (h : Spaced l) {r r' : Segment} (hr : r ∈ l) (hr' : r' ∈ l) {x : Nat}
    (hx : r.1 ≤ x ∧ x < r.1 + r.2) (hx' : r'.1 ≤ x ∧ x < r'.1 + r'.2) : r = r' := by
  obtain ⟨i, hi, rfl⟩ := List.getElem_of_mem hr
  obtain ⟨j, hj, rfl⟩ := List.getElem_of_mem hr'
  have hpair := List.pairwise_iff_getElem.1 h
  rcases Nat.lt_trichotomy i j with hlt | rfl | hgt
  · have := hpair i j hi hj hlt
    omega
  · rfl
  · have := hpair j i hj hi hgt
    omega

/-- A page of a free range that is mapped is the first one. -/
theorem RangeOk.node_of_mapped (h : RangeOk s free) {p f : Nat} (hp : InRanges free p) (hf : s.vm.frameOf p = some f) :
    ∃ r ∈ free, p = r.1 / PAGE_SIZE ∧ s.vm.pages.Held f 1 := by
  obtain ⟨r, hr, hlo, hhi⟩ := hp
  have node := h.nodes r hr
  have hfirst : p = r.1 / PAGE_SIZE := by
    by_contra hne
    have hlt : r.1 < p * PAGE_SIZE := by
      have hmul := node.page_mul
      simp only [PAGE_SIZE] at hlo hmul hne ⊢
      omega
    rw [node.rest p hlt hhi] at hf
    cases hf
  obtain ⟨g, hg, hheld⟩ := node.mapped
  subst hfirst
  obtain rfl : f = g := Option.some.inj (hf.symm.trans hg)
  exact ⟨r, hr, rfl, hheld⟩

theorem RangeOk.nodes_inj (h : RangeOk s free) {p p' f : Nat} (hp : InRanges free p) (hp' : InRanges free p')
    (hf : s.vm.frameOf p = some f) (hf' : s.vm.frameOf p' = some f) : p = p' := by
  obtain ⟨r, hr, rfl, -⟩ := h.node_of_mapped hp hf
  obtain ⟨r', hr', rfl, -⟩ := h.node_of_mapped hp' hf'
  have heq : r = r' := List.inj_on_of_nodup_map h.frames hr hr' (hf.trans hf'.symm)
  rw [heq]

variable [DecidableEq P]

/-- The free ranges are as they were after work on blocks. -/
theorem RangeInvariant.worksOn {H : RangeHistory P} (inv : RangeInvariant start finish H free)
    (hsub : ∀ r ∈ ranges, r ∈ H.blocks) (works : WorksOn start finish ranges H.state.vm vm')
    (hpages : PagesOk vm'.pages) :
    RangeInvariant start finish { H with state := { H.state with vm := vm' } } free := by
  have hown : ∀ page, H.OwnPage page → HeapPage start finish page ∧ ¬InRanges ranges page := by
    rintro page ⟨hlo, hhi, hcovered⟩
    rw [inv.starts] at hlo
    rw [inv.finishes] at hhi
    refine ⟨⟨hlo, hhi⟩, ?_⟩
    rintro ⟨r, hr, hin⟩
    have hpos : 0 < coverage H.blocks (page * PAGE_SIZE) := coverage_pos (hsub r hr) (Segment.covers_iff.2 hin)
    omega
  apply inv.client
  refine ⟨rfl, rfl, hpages, ?_, ?_, ?_⟩
  · exact fun page hpage => works.frameOf page (hown page hpage).2
  · exact fun page f hpage hf => works.ram f ⟨page, (hown page hpage).1, (hown page hpage).2, hf⟩
  · exact fun page f hpage hf hheld => works.held ⟨page, (hown page hpage).1, (hown page hpage).2, hf⟩ hheld

end Ownership

/-! ### Blocks -/

theorem dataOffset_bounds {k : Nat} (h : 2 ^ k ≤ PAGE_SIZE) :
    Machine.headerSize ≤ Machine.dataOffset (2 ^ k) ∧ Machine.dataOffset (2 ^ k) ≤ PAGE_SIZE ∧
      Machine.dataOffset (2 ^ k) % 2 ^ k = 0 := by
  refine ⟨?_, ?_, Nat.mul_mod_left _ _⟩
  · have hk : k ≤ 12 := (Nat.pow_le_pow_iff_right (by decide)).1 (h.trans (by decide : PAGE_SIZE ≤ 2 ^ 12))
    interval_cases k <;> decide
  · have hk : k ≤ 12 := (Nat.pow_le_pow_iff_right (by decide)).1 (h.trans (by decide : PAGE_SIZE ≤ 2 ^ 12))
    interval_cases k <;> decide

/-- What holds of a block that a caller has. -/
structure LiveBlock (vm : Vm) (b : HeapBlock) : Prop where
  aligned : ∃ k, b.alignment = 2 ^ k ∧ 2 ^ k ≤ PAGE_SIZE
  nonempty : 0 < b.size
  fits : b.realSize ≤ wordSize - PAGE_SIZE
  ptr : b.header + Machine.dataOffset b.alignment = b.ptr
  header : ∃ n, Machine.headerSize ≤ n ∧ n < wordSize ∧ vm.header b.header = some (MAGIC, n) ∧
    roundUp n = roundUp b.realSize
  sole : ∀ page, InBlock b.segment page → ∃ f, vm.frameOf page = some f ∧ vm.pages.Sole f

namespace LiveBlock

variable {vm vm' : Vm} {b : HeapBlock} {start finish : Nat} {ranges : List Segment}

theorem offset (h : LiveBlock vm b) : Machine.headerSize ≤ Machine.dataOffset b.alignment ∧
    Machine.dataOffset b.alignment ≤ PAGE_SIZE ∧ Machine.dataOffset b.alignment % b.alignment = 0 := by
  obtain ⟨k, hk, hle⟩ := h.aligned
  rw [hk]
  exact dataOffset_bounds hle

theorem realSize_le (h : LiveBlock vm b) : b.realSize ≤ b.segment.2 := le_roundUp h.fits

theorem segment_pos (h : LiveBlock vm b) : 0 < b.segment.2 := by
  have hle := h.realSize_le
  have hpos := h.nonempty
  simp only [HeapBlock.realSize] at hle
  omega

/-- A block is as it was after work on ranges that it does not meet. -/
theorem worksOn (h : LiveBlock vm b) (works : WorksOn start finish ranges vm vm')
    (hbase : b.header % PAGE_SIZE = 0)
    (hin : ∀ page, InBlock b.segment page → HeapPage start finish page ∧ ¬InRanges ranges page) :
    LiveBlock vm' b := by
  have hframes : ∀ page f, InBlock b.segment page → vm.frameOf page = some f → FrameOutside start finish ranges vm f :=
    fun page f hpage hf => ⟨page, (hin page hpage).1, (hin page hpage).2, hf⟩
  have hfirst : InBlock b.segment (b.header / PAGE_SIZE) := by
    have hpos := h.segment_pos
    simp only [InBlock, HeapBlock.segment, PAGE_SIZE] at hbase hpos ⊢
    omega
  obtain ⟨n, hsize, hn, hheader, hround⟩ := h.header
  refine ⟨h.aligned, h.nonempty, h.fits, h.ptr, ⟨n, hsize, hn, ?_, hround⟩, fun page hpage => ?_⟩
  · rw [← hheader]
    apply header_congr (works.frameOf _ (hin _ hfirst).2)
    exact fun f hf => works.ram f (hframes _ f hfirst hf)
  · obtain ⟨f, hf, hsole⟩ := h.sole page hpage
    exact ⟨f, (works.frameOf page (hin page hpage).2).trans hf, works.sole (hframes page f hpage hf) hsole⟩

end LiveBlock

/-- Which sizes the range allocator serves without using up the heap. -/
def HasRoom (free : List Segment) (size : Nat) : Prop :=
  size ≤ wordSize - PAGE_SIZE ∧ (∃ r ∈ free, roundUp size ≤ r.2) ∧ ∀ a, free ≠ [(a, roundUp size)]

/-- The heap between calls: the blocks that the callers have, `lost` ones that a call which ran out of memory has not
    given back, and the free ranges. -/
structure HeapInvariant (start finish : Nat) {P : Type} (s : HeapHistory P) (free lost : List Segment) : Prop where
  range : RangeInvariant start finish { state := s.heap.ranges, blocks := s.live.map HeapBlock.segment ++ lost } free
  blocks : ∀ b ∈ s.live, LiveBlock s.heap.vm b
  frames : FramesApart start finish s.heap.vm
  room : free ≠ []
  unlocked : s.heap.ranges.allocator.lock.holder = none

section Heap

variable {P : Type} {start finish : Nat} {s : HeapHistory P} {free lost : List Segment}

namespace HeapInvariant

theorem mem_blocks (lost : List Segment) {b : HeapBlock} (hb : b ∈ s.live) :
    b.segment ∈ s.live.map HeapBlock.segment ++ lost :=
  List.mem_append_left _ (List.mem_map_of_mem hb)

/-- Where a block lies. -/
theorem inside (inv : HeapInvariant start finish s free lost) {b : HeapBlock} (hb : b ∈ s.live) :
    b.header % PAGE_SIZE = 0 ∧ start ≤ b.header ∧ b.header + b.segment.2 ≤ finish := by
  obtain ⟨hbase, -, hpos⟩ := inv.range.blocks _ (mem_blocks lost hb)
  have hinside := inv.range.tiles.inside (List.mem_append_right free (mem_blocks lost hb)) hpos
  exact ⟨hbase, hinside⟩

theorem ptr_ne_zero (inv : HeapInvariant start finish s free lost) {b : HeapBlock} (hb : b ∈ s.live) : b.ptr ≠ 0 := by
  have hptr := (inv.blocks b hb).ptr
  have hstart := inv.range.start_pos
  obtain ⟨-, hlo, -⟩ := inv.inside hb
  omega

theorem heapPage (inv : HeapInvariant start finish s free lost) {b : HeapBlock} (hb : b ∈ s.live) {page : Nat}
    (hpage : InBlock b.segment page) : HeapPage start finish page := by
  obtain ⟨-, hlo, hhi⟩ := inv.inside hb
  obtain ⟨hlo', hhi'⟩ := hpage
  simp only [HeapBlock.segment] at hlo' hhi' hhi
  exact ⟨by omega, by omega⟩

theorem heapPage_of_free (inv : HeapInvariant start finish s free lost) {page : Nat} (hpage : InRanges free page) :
    HeapPage start finish page := by
  obtain ⟨r, hr, hlo, hhi⟩ := hpage
  have hinside := inv.range.inside hr
  exact ⟨by omega, by omega⟩

/-- A page lies in one range or block only. -/
theorem not_free (inv : HeapInvariant start finish s free lost) {b : HeapBlock} (hb : b ∈ s.live) {page : Nat}
    (hpage : InBlock b.segment page) : ¬InRanges free page := by
  rintro ⟨r, hr, hin⟩
  have hdisjoint := inv.range.tiles.disjoint hr (mem_blocks lost hb) (page * PAGE_SIZE)
  exact hdisjoint ⟨Segment.covers_iff.2 hin, Segment.covers_iff.2 hpage⟩

/-- Another block does not meet the pages of this one. -/
theorem not_other (inv : HeapInvariant start finish s free lost) {i j : Nat} (hi : i < s.live.length)
    (hj : j < s.live.length) (hne : i ≠ j) {page : Nat} (hpage : InBlock s.live[i].segment page) :
    ¬InBlock s.live[j].segment page := by
  intro hother
  have hdisjoint := (List.pairwise_append.1 (List.pairwise_append.1 inv.range.tiles.pairwise_disjoint).2.1).1
  rw [List.pairwise_map] at hdisjoint
  have hsymm : ∀ b c : HeapBlock, b.segment.Disjoint c.segment → c.segment.Disjoint b.segment :=
    fun b c h x hx => h x ⟨hx.2, hx.1⟩
  have hpair := List.pairwise_iff_getElem.1 hdisjoint
  rcases Nat.lt_or_gt_of_ne hne with hlt | hgt
  · exact hpair i j hi hj hlt (page * PAGE_SIZE) ⟨Segment.covers_iff.2 hpage, Segment.covers_iff.2 hother⟩
  · exact hpair j i hj hi hgt (page * PAGE_SIZE) ⟨Segment.covers_iff.2 hother, Segment.covers_iff.2 hpage⟩

variable {current : P}

theorem lockReady (inv : HeapInvariant start finish s free lost) : LockReady current s.heap.ranges.allocator.lock :=
  ⟨Or.inl inv.unlocked, inv.range.level_zero inv.unlocked⟩

variable [DecidableEq P]

/-- `range_allocator_alloc` of a size that it serves. -/
theorem rangeAllocatorAlloc (current : P) (inv : HeapInvariant start finish s free lost) {size : Nat}
    (hpos : 0 < size) (hroom : HasRoom free size) :
    ∃ r ranges, Chaotix.rangeAllocatorAlloc current size s.heap.ranges = .ok (r, ranges) ∧
      ranges.allocator.lock.holder = none ∧
      ((∃ e, r = .error e ∧ ranges.vm = s.heap.vm ∧ RangeInvariant start finish
        { state := ranges, blocks := s.live.map HeapBlock.segment ++ lost } free) ∨
      ∃ addr n free', r = .ok addr ∧ (addr, n) ∈ free ∧ roundUp size ≤ n ∧ free' ≠ [] ∧ RangeInvariant start finish
        { state := ranges, blocks := (addr, roundUp size) :: (s.live.map HeapBlock.segment ++ lost) } free') := by
  have hround : 0 < roundUp size := Nat.lt_of_lt_of_le hpos (le_roundUp hroom.1)
  have hready : LockReady current s.heap.ranges.allocator.lock := inv.lockReady
  obtain ⟨x, hx, hfit⟩ := hroom.2.1
  rcases rangeAllocatorAlloc_spec current inv.range.ok inv.room hready.1 hround with ⟨halloc, hsmall⟩ | ⟨halloc, -⟩ |
    ⟨state, pre, it, n, post, halloc, rfl, hle, ok, hallocator⟩
  · exact absurd hfit (Nat.not_le.2 (hsmall x hx))
  · rw [unlockAndReturn_ready hready rfl] at halloc
    obtain ⟨free', hinv⟩ := inv.range.alloc halloc
    obtain rfl : free = free' := inv.range.ok.list.unique hinv.ok.list
    exact ⟨_, _, halloc, rfl, Or.inl ⟨_, rfl, rfl, hinv⟩⟩
  · rw [unlockAndReturn_ready hready (by rw [hallocator]; rfl)] at halloc
    obtain ⟨free', hinv⟩ := inv.range.alloc halloc
    have heq := ok.list.unique hinv.ok.list
    rw [← heq] at hinv
    refine ⟨_, _, halloc, rfl, Or.inr ⟨it, n, _, rfl, by simp, hle, ?_, hinv⟩⟩
    intro hnil
    simp only [List.append_eq_nil_iff] at hnil
    obtain ⟨⟨rfl, hmiddle⟩, rfl⟩ := hnil
    split at hmiddle
    · rename_i hwhole
      exact hroom.2.2 it (by rw [hwhole]; rfl)
    · cases hmiddle

/-- What has become of the pages of the heap when the range allocator has handed out a block. -/
structure HandedOut (start finish : Nat) (free : List Segment) (vm vm' : Vm) (addr k : Nat) : Prop where
  works : WorksOn start finish free vm vm'
  frames : FramesApart start finish vm'
  unmapped : ∀ page, InBlock (addr, k) page → vm'.frameOf page = none
  inside : ∀ page, InBlock (addr, k) page → InRanges free page

/-- The pages of the free ranges are those that are still free and those of the block. -/
theorem inRanges_of_tiles {free free' blocks : List Segment} {blk : Segment} (h : Tiles (free ++ blocks) start finish)
    (h' : Tiles (free' ++ blk :: blocks) start finish) (page : Nat) :
    InRanges free page ↔ InRanges free' page ∨ InBlock blk page := by
  have hin : ∀ l, InRanges l page ↔ 0 < coverage l (page * PAGE_SIZE) := by
    intro l
    constructor
    · rintro ⟨r, hr, hpage⟩
      exact coverage_pos hr (Segment.covers_iff.2 hpage)
    · intro hpos
      obtain ⟨r, hr, hcovers⟩ := List.countP_pos_iff.1 hpos
      exact ⟨r, hr, Segment.covers_iff.1 hcovers⟩
  have hblk : InBlock blk page ↔ 0 < coverage [blk] (page * PAGE_SIZE) := by
    rw [← hin]
    exact ⟨fun hpage => ⟨blk, List.mem_singleton_self _, hpage⟩, fun ⟨r, hr, hpage⟩ => List.mem_singleton.1 hr ▸ hpage⟩
  have htaken := h.coverage_taken h' (page * PAGE_SIZE)
  rw [hin, hin, hblk]
  omega

theorem handedOut (inv : HeapInvariant start finish s free lost) {size addr n : Nat} {ranges : RangeState P}
    {free' : List Segment} (hreturn : Chaotix.rangeAllocatorAlloc current size s.heap.ranges = .ok (.ok addr, ranges))
    (hmem : (addr, n) ∈ free) (hle : roundUp size ≤ n)
    (hrange : RangeInvariant start finish
      { state := ranges, blocks := (addr, roundUp size) :: (s.live.map HeapBlock.segment ++ lost) } free') :
    HandedOut start finish free s.heap.vm ranges.vm addr (roundUp size) := by
  have hfirst : ∀ r ∈ free, InRanges free (r.1 / PAGE_SIZE) := fun r hr =>
    ⟨r, hr, (inv.range.ok.nodes r hr).first_page⟩
  have hrest : ∀ r ∈ free, roundUp size < r.2 → InRanges free ((r.1 + roundUp size) / PAGE_SIZE) := fun r hr hlt =>
    ⟨r, hr, ((inv.range.ok.nodes r hr).rest_page hlt).2⟩
  have hworks := ensures_iff.1 (rangeAllocatorAlloc_leaves current inv.range.ok
    (inv.frames.worksOn fun p hp => inv.heapPage_of_free hp) (fun r hr => not_not.2 (hfirst r hr))
    fun r hr hlt => not_not.2 (hrest r hr hlt)) _ _ hreturn
  have node := inv.range.ok.nodes _ hmem
  have hunmapped : ∀ page, InBlock (addr, roundUp size) page → ranges.vm.frameOf page = none := by
    rintro page ⟨hlo, hhi⟩
    by_cases heq : page = addr / PAGE_SIZE
    · rw [heq]
      exact hworks.2 addr rfl
    · -- the page lies inside the range, where nothing is mapped and the allocator maps nothing
      have hlt : addr < page * PAGE_SIZE := by
        have hmul := node.page_mul
        simp only [PAGE_SIZE] at hlo hmul heq ⊢
        omega
      have hin : addr ≤ page * PAGE_SIZE ∧ page * PAGE_SIZE < addr + n := by
        simp only at hhi
        omega
      have hnone := node.rest page hlt hin.2
      have hleaves : Leaves (fun p => p = page) (fun _ => False) s.heap.vm s.heap.vm :=
        .refl (fun _ hf => hf.elim) fun _ _ _ _ hf => hf
      have hsame := ensures_iff.1 (rangeAllocatorAlloc_leaves current inv.range.ok hleaves ?_ ?_) _ _
        hreturn
      · exact (hsame.1.frameOf page rfl).trans hnone
      · rintro r hr rfl
        obtain ⟨f, hf, -⟩ := (inv.range.ok.nodes r hr).mapped
        change s.heap.vm.frameOf _ = none at hnone
        change s.heap.vm.frameOf _ = some f at hf
        rw [hnone] at hf
        cases hf
      · rintro r hr hshort rfl
        obtain ⟨hmul, hpage⟩ := (inv.range.ok.nodes r hr).rest_page hshort
        have heqr := Spaced.eq_of_covers inv.range.ok.spaced hr hmem hpage hin
        rw [hmul, heqr] at hhi
        simp only at hhi
        omega
  have hsplit := inRanges_of_tiles inv.range.tiles hrange.tiles
  have hmapped : ∀ p f, InRanges free p → ranges.vm.frameOf p = some f → InRanges free' p := by
    intro p f hp hf
    rcases (hsplit p).1 hp with hfree | hblock
    · exact hfree
    · rw [hunmapped p hblock] at hf
      cases hf
  refine ⟨hworks.1, inv.frames.after hworks.1 ?_ ?_, hunmapped, fun p hp => (hsplit p).2 (Or.inr hp)⟩
  · intro p f hp hf
    obtain ⟨-, -, -, hheld⟩ := hrange.ok.node_of_mapped (hmapped p f hp hf) hf
    exact hheld
  · exact fun p p' f hp hp' hf hf' => hrange.ok.nodes_inj (hmapped p f hp hf) (hmapped p' f hp' hf') hf hf'

end HeapInvariant

end Heap

end Chaotix
