/-
Module: Chaotix.Proofs.PagingSpec
Layer: Proofs
Purpose: What each function of the address space does, in terms of the frame every page is mapped to,
  the contents of the frames, and the references that are held to them. A page table that is created on
  the way changes none of these. Every function is described in full: on success, on exhausted memory,
  and on a page that is already mapped.
Imports: Mathlib.Tactic, Chaotix.Kernel.Paging, Chaotix.Proofs.PageExclusivity
Trusted boundary: none
Main exports: VmKeeps, mapPageToFreePage_cases, copyPageMapping_cases,
  unmapPage_eq, Vm.word, load32_eq, store32_eq
-/
import Mathlib.Tactic
import Chaotix.Kernel.Paging
import Chaotix.Proofs.PageExclusivity

namespace Chaotix

/-! ### References held to a frame -/

variable {a : PageAllocator} {f : Nat}

theorem PageAllocator.Held.mono {k l : Nat} (h : a.Held f k) (hle : l ≤ k) : a.Held f l :=
  ⟨h.inside, h.clear, by have := h.count; omega⟩

/-- Handing out a page gives one reference to it and takes none away. -/
theorem PagesOk.take (ok : PagesOk a) (hfree : a.bitmap.mem f = true) :
    PagesOk (a.take f) ∧ (a.take f).Held f 1 ∧ ∀ g k, a.Held g k → (a.take f).Held g k := by
  refine ⟨?_, ⟨(ok f hfree).1, ?_, ?_⟩, ?_⟩
  · intro i hi
    simp only [PageAllocator.take, BitSet.mem_erase (w := 32) (by decide), Bool.and_eq_true,
      decide_eq_true_eq] at hi ⊢
    rw [Function.update_of_ne hi.2]
    exact ok i hi.1
  · simp [PageAllocator.take, BitSet.mem_erase (w := 32) (by decide)]
  · simp [PageAllocator.take]
  · intro g k hg
    have hne : g ≠ f := by
      rintro rfl
      simp [hg.clear] at hfree
    refine ⟨hg.inside, ?_, ?_⟩
    · simp [PageAllocator.take, BitSet.mem_erase (w := 32) (by decide), hg.clear]
    · simpa [PageAllocator.take, Function.update_of_ne hne] using hg.count

/-- Changing the count of a frame that is not free. -/
theorem PagesOk.setCount (ok : PagesOk a) (hclear : a.bitmap.mem f = false) (count : Nat) :
    PagesOk (a.setCount f count) ∧
      ∀ g k, g ≠ f → a.Held g k → (a.setCount f count).Held g k := by
  refine ⟨?_, ?_⟩
  · intro i hi
    have hne : i ≠ f := by
      rintro rfl
      simp [PageAllocator.setCount, hclear] at hi
    simpa [PageAllocator.setCount, Function.update_of_ne hne] using ok i hi
  · intro g k hne hg
    exact ⟨hg.inside, hg.clear, by simpa [PageAllocator.setCount, Function.update_of_ne hne] using hg.count⟩

/-- `page_allocator_ref_page` on a frame that is held. -/
theorem pageAllocatorRefPage_held (ok : PagesOk a) {k : Nat} (hf : a.Held f k) :
    ∃ a', pageAllocatorRefPage (f * PAGE_SIZE) a = .ok ((), a') ∧ PagesOk a' ∧
      a'.Held f (k + 1) ∧ ∀ g l, a.Held g l → a'.Held g l := by
  have heq := pageAllocatorRefPage_eq (a := a) (Nat.mul_mod_left f PAGE_SIZE)
  rw [Nat.mul_div_cancel _ (by decide)] at heq
  have hcount := hf.count
  by_cases hmax : a.refCounts f < UINT8_MAX
  · rw [if_pos hmax] at heq
    obtain ⟨hok, hother⟩ := ok.setCount hf.clear (a.refCounts f + 1)
    refine ⟨_, heq, hok, ⟨hf.inside, hf.clear, ?_⟩, ?_⟩
    · simp only [PageAllocator.setCount, Function.update_self]
      omega
    · intro g l hg
      by_cases hgf : g = f
      · subst hgf
        have := hg.count
        refine ⟨hg.inside, hg.clear, ?_⟩
        simp only [PageAllocator.setCount, Function.update_self]
        omega
      · exact hother g l hgf hg
  · rw [if_neg hmax] at heq
    exact ⟨a, heq, ok, ⟨hf.inside, hf.clear, by omega⟩, fun _ _ hg => hg⟩

/-- `page_allocator_unref_page` on a frame that is held. -/
theorem pageAllocatorUnrefPage_held (ok : PagesOk a) (hf : a.Held f 1) :
    ∃ a', pageAllocatorUnrefPage (f * PAGE_SIZE) a = .ok ((), a') ∧ PagesOk a' ∧
      (∀ k, 0 < k → a.Held f (k + 1) → a'.Held f k) ∧ ∀ g l, g ≠ f → a.Held g l → a'.Held g l := by
  have hpos : 0 < a.refCounts f := by
    have := hf.count
    simp only [UINT8_MAX] at this
    omega
  have hlen : f / 32 < a.bitmapLen := Nat.div_lt_of_lt_mul (Nat.mul_comm _ 32 ▸ hf.inside)
  have heq := pageAllocatorUnrefPage_eq (a := a) (Nat.mul_mod_left f PAGE_SIZE)
  rw [Nat.mul_div_cancel _ (by decide)] at heq
  specialize heq hlen hpos
  by_cases hmax : a.refCounts f < UINT8_MAX
  · rw [if_pos hmax] at heq
    by_cases hone : a.refCounts f = 1
    · rw [if_pos hone] at heq
      refine ⟨_, heq, ?_, ?_, ?_⟩
      · intro i hi
        simp only [PageAllocator.release, BitSet.mem_insert (w := 32) (by decide), Bool.or_eq_true,
          decide_eq_true_eq] at hi ⊢
        by_cases hif : i = f
        · subst hif
          simpa using hf.inside
        · rw [Function.update_of_ne hif]
          exact ok i (hi.resolve_right hif)
      · intro k hk hheld
        have := hheld.count
        simp only [UINT8_MAX] at this
        omega
      · intro g l hgf hg
        refine ⟨hg.inside, ?_, ?_⟩
        · simp [PageAllocator.release, BitSet.mem_insert (w := 32) (by decide), hg.clear, hgf]
        · simpa [PageAllocator.release, Function.update_of_ne hgf] using hg.count
    · rw [if_neg hone] at heq
      obtain ⟨hok, hother⟩ := ok.setCount hf.clear (a.refCounts f - 1)
      refine ⟨_, heq, hok, ?_, hother⟩
      intro k _ hheld
      have := hheld.count
      refine ⟨hf.inside, hf.clear, ?_⟩
      simp only [PageAllocator.setCount, Function.update_self]
      omega
  · rw [if_neg hmax] at heq
    refine ⟨a, heq, ok, ?_, fun _ _ _ hg => hg⟩
    intro k _ _
    exact ⟨hf.inside, hf.clear, by omega⟩

/-! ### Mapping one page -/

/-- A change of the address space that no access can see: the same mappings and contents, and no
    reference lost. -/
structure VmKeeps (vm vm' : Vm) : Prop where
  frameOf : vm'.frameOf = vm.frameOf
  ram : vm'.ram = vm.ram
  ok : PagesOk vm'.pages
  held : ∀ f k, vm.pages.Held f k → vm'.pages.Held f k
  free : ∀ f, vm'.pages.bitmap.mem f = true → vm.pages.bitmap.mem f = true

theorem VmKeeps.refl {vm : Vm} (ok : PagesOk vm.pages) : VmKeeps vm vm :=
  ⟨rfl, rfl, ok, fun _ _ h => h, fun _ h => h⟩

variable {vm : Vm} {vaddr : Nat}

theorem pde_index (vaddr : Nat) : vaddr / (1024 * PAGE_SIZE) = vaddr / PAGE_SIZE / 1024 := by
  rw [Nat.div_div_eq_div_mul, Nat.mul_comm]

/-- Writing an entry of a page table that is there changes the mapping of its page only. -/
theorem frameOf_update (vm : Vm) (hpde : vm.pde (vaddr / PAGE_SIZE / 1024) ≠ none) (entry : Option Pte) :
    Vm.frameOf { vm with pte := Function.update vm.pte (vaddr / PAGE_SIZE) entry } =
      Function.update vm.frameOf (vaddr / PAGE_SIZE) (entry.map Pte.frame) := by
  funext page
  by_cases heq : page = vaddr / PAGE_SIZE
  · subst heq
    obtain ⟨frame, hframe⟩ := Option.ne_none_iff_exists'.1 hpde
    simp [Vm.frameOf, hframe]
  · simp [Vm.frameOf, Function.update_of_ne heq]

/-- A page table is found, or created without any access noticing, or memory is exhausted. -/
theorem getOrCreatePageTable_cases (ok : PagesOk vm.pages) (vaddr : Nat) :
    getOrCreatePageTable vaddr vm = .ok (.error .ENOMEM, vm) ∨
    ∃ vm', getOrCreatePageTable vaddr vm = .ok (.ok (), vm') ∧
      vm'.pde (vaddr / PAGE_SIZE / 1024) ≠ none ∧ VmKeeps vm vm' := by
  have hidx := pde_index vaddr
  cases hpde : vm.pde (vaddr / PAGE_SIZE / 1024) with
  | some frame =>
      refine Or.inr ⟨vm, ?_, by simp [hpde], VmKeeps.refl ok⟩
      simp [getOrCreatePageTable, hidx, hpde]
  | none =>
      rcases ok.alloc_cases with hnone | ⟨i, hfree, hsome⟩
      · left
        simp [getOrCreatePageTable, hidx, hpde, onPages, Program.focus, hnone]
      · right
        obtain ⟨hok, -, hheld⟩ := ok.take hfree
        refine ⟨{ vm with
            pde := Function.update vm.pde (vaddr / PAGE_SIZE / 1024) (some i)
            pte := fun page => if page / 1024 = vaddr / PAGE_SIZE / 1024 then none else vm.pte page
            pages := vm.pages.take i }, ?_, by simp, ?_, rfl, hok, hheld, ?_⟩
        · simp [getOrCreatePageTable, hidx, hpde, onPages, Program.focus, hsome]
        · funext page
          by_cases heq : page / 1024 = vaddr / PAGE_SIZE / 1024
          · simp [Vm.frameOf, heq, hpde]
          · simp [Vm.frameOf, heq]
        · intro g hg
          simp only [PageAllocator.take, BitSet.mem_erase (w := 32) (by decide),
            Bool.and_eq_true] at hg
          exact hg.1

theorem pte_eq_none_iff (hpde : vm.pde (vaddr / PAGE_SIZE / 1024) ≠ none) :
    vm.pte (vaddr / PAGE_SIZE) = none ↔ vm.frameOf (vaddr / PAGE_SIZE) = none := by
  obtain ⟨frame, hframe⟩ := Option.ne_none_iff_exists'.1 hpde
  simp [Vm.frameOf, hframe]

/-- `map_page_to_free_page` on a page that is not mapped: memory is exhausted, or the page is mapped to
    a frame that was free. -/
theorem mapPageToFreePage_cases (ok : PagesOk vm.pages) (hpage : vm.frameOf (vaddr / PAGE_SIZE) = none)
    (flags : Nat) :
    (∃ vm', mapPageToFreePage vaddr flags vm = .ok (.error .ENOMEM, vm') ∧ VmKeeps vm vm') ∨
    ∃ f vm', mapPageToFreePage vaddr flags vm = .ok (.ok (), vm') ∧
      vm.pages.bitmap.mem f = true ∧
      vm'.frameOf = Function.update vm.frameOf (vaddr / PAGE_SIZE) (some f) ∧ vm'.ram = vm.ram ∧
      PagesOk vm'.pages ∧ vm'.pages.Held f 1 ∧ ∀ g k, vm.pages.Held g k → vm'.pages.Held g k := by
  rcases getOrCreatePageTable_cases ok vaddr with hnone | ⟨vm1, hsome, hpde, keeps⟩
  · exact Or.inl ⟨vm, by simp [mapPageToFreePage, hnone], VmKeeps.refl ok⟩
  · have hpte : vm1.pte (vaddr / PAGE_SIZE) = none := by
      rw [pte_eq_none_iff hpde, keeps.frameOf, hpage]
    rcases keeps.ok.alloc_cases with hfull | ⟨i, hfree, hpaddr⟩
    · refine Or.inl ⟨vm1, ?_, keeps⟩
      simp [mapPageToFreePage, hsome, hpte, assert, onPages, Program.focus, hfull]
    · obtain ⟨hok, hone, hheld⟩ := keeps.ok.take hfree
      refine Or.inr ⟨i, { vm1 with
          pte := Function.update vm1.pte (vaddr / PAGE_SIZE) (some { frame := i, flags := flags })
          pages := vm1.pages.take i }, ?_, keeps.free i hfree, ?_, ?_, hok, hone,
        fun g k hg => hheld g k (keeps.held g k hg)⟩
      · simp [mapPageToFreePage, hsome, hpte, assert, onPages, Program.focus, hpaddr, setPte]
      · have hupdate := frameOf_update { vm1 with pages := vm1.pages.take i } hpde
          (some { frame := i, flags := flags })
        exact hupdate.trans (congrArg (Function.update · _ _) keeps.frameOf)
      · exact keeps.ram

theorem getPte_of_mapped {frame : Nat} (h : vm.frameOf (vaddr / PAGE_SIZE) = some frame) :
    ∃ pte, getPte vm vaddr = some (some pte) ∧ pte.frame = frame := by
  rw [Vm.frameOf] at h
  rw [getPte, pde_index]
  cases hpde : vm.pde (vaddr / PAGE_SIZE / 1024) with
  | none => simp [hpde] at h
  | some table =>
      simp only [hpde, Option.map_eq_some_iff] at h
      obtain ⟨pte, hpte, hframe⟩ := h
      exact ⟨pte, by simp [hpte], hframe⟩

theorem pde_of_mapped {frame : Nat} (h : vm.frameOf (vaddr / PAGE_SIZE) = some frame) :
    vm.pde (vaddr / PAGE_SIZE / 1024) ≠ none := by
  intro hnone
  simp [Vm.frameOf, hnone] at h

/-- A page that is mapped already makes `copy_page_mapping` fail its `ASSERT`. -/
theorem copyPageMapping_mapped {toVaddr fromVaddr frame frame' : Nat}
    (hfrom : vm.frameOf (fromVaddr / PAGE_SIZE) = some frame)
    (hto : vm.frameOf (toVaddr / PAGE_SIZE) = some frame') (flags : Nat) :
    copyPageMapping toVaddr fromVaddr flags vm = .error .panic := by
  obtain ⟨pte, hpte, _⟩ := getPte_of_mapped hfrom
  have hpde := pde_of_mapped hto
  obtain ⟨table, htable⟩ := Option.ne_none_iff_exists'.1 hpde
  have hentry : vm.pte (toVaddr / PAGE_SIZE) ≠ none := by
    rw [ne_eq, pte_eq_none_iff hpde, hto]
    simp
  simp [copyPageMapping, hpte, getOrCreatePageTable, pde_index, htable, assert, hentry]

/-- `copy_page_mapping` to a page that is not mapped: memory is exhausted, or the page is mapped to the
    same frame, with one more reference held to it. -/
theorem copyPageMapping_cases (ok : PagesOk vm.pages) {toVaddr fromVaddr frame k : Nat}
    (hfrom : vm.frameOf (fromVaddr / PAGE_SIZE) = some frame) (hheld : vm.pages.Held frame k)
    (hto : vm.frameOf (toVaddr / PAGE_SIZE) = none) (flags : Nat) :
    copyPageMapping toVaddr fromVaddr flags vm = .ok (.error .ENOMEM, vm) ∨
    ∃ vm', copyPageMapping toVaddr fromVaddr flags vm = .ok (.ok (), vm') ∧
      vm'.frameOf = Function.update vm.frameOf (toVaddr / PAGE_SIZE) (some frame) ∧
      vm'.ram = vm.ram ∧ PagesOk vm'.pages ∧ vm'.pages.Held frame (k + 1) ∧
      ∀ g l, vm.pages.Held g l → vm'.pages.Held g l := by
  obtain ⟨pte, hpte, rfl⟩ := getPte_of_mapped hfrom
  rcases getOrCreatePageTable_cases ok toVaddr with hnone | ⟨vm1, hsome, hpde, keeps⟩
  · left
    simp [copyPageMapping, hpte, hnone]
  · right
    have hentry : vm1.pte (toVaddr / PAGE_SIZE) = none := by
      rw [pte_eq_none_iff hpde, keeps.frameOf, hto]
    obtain ⟨pages, href, hok, hone, hother⟩ :=
      pageAllocatorRefPage_held keeps.ok (keeps.held _ k hheld)
    refine ⟨{ vm1 with
      pte := Function.update vm1.pte (toVaddr / PAGE_SIZE)
        (some { frame := pte.frame, flags := flags })
      pages := pages }, ?_, ?_, keeps.ram, hok, hone, fun g l hg => hother g l (keeps.held g l hg)⟩
    · simp [copyPageMapping, hpte, hsome, hentry, assert, onPages, Program.focus, href, setPte]
    · have hupdate := frameOf_update { vm1 with pages := pages } hpde
        (some { frame := pte.frame, flags := flags })
      exact hupdate.trans (congrArg (Function.update · _ _) keeps.frameOf)

/-- `unmap_page` on a page that is mapped to a frame that is held. -/
theorem unmapPage_cases (vm : Vm) (ok : PagesOk vm.pages) {frame : Nat}
    (hpage : vm.frameOf (vaddr / PAGE_SIZE) = some frame) (hheld : vm.pages.Held frame 1) :
    ∃ vm', unmapPage vaddr vm = .ok ((), vm') ∧
      vm'.frameOf = Function.update vm.frameOf (vaddr / PAGE_SIZE) none ∧ vm'.ram = vm.ram ∧
      PagesOk vm'.pages ∧ (∀ k, 0 < k → vm.pages.Held frame (k + 1) → vm'.pages.Held frame k) ∧
      ∀ g l, g ≠ frame → vm.pages.Held g l → vm'.pages.Held g l := by
  obtain ⟨pte, hpte, rfl⟩ := getPte_of_mapped hpage
  obtain ⟨pages, hunref, hok, hsame, hother⟩ := pageAllocatorUnrefPage_held ok hheld
  refine ⟨{ vm with
    pte := Function.update vm.pte (vaddr / PAGE_SIZE) none
    pages := pages }, ?_, ?_, rfl, hok, hsame, hother⟩
  · simp [unmapPage, hpte, onPages, Program.focus, hunref, setPte]
  · exact frameOf_update { vm with pages := pages } (pde_of_mapped hpage) none

/-! ### Functions on objects of one page -/

theorem roundUp_small {size : Nat} (hpos : 0 < size) (hle : size ≤ PAGE_SIZE) :
    roundUp size / PAGE_SIZE = 1 := by
  simp only [roundUp, wordSize, PAGE_SIZE] at hle ⊢
  omega

/-- On an object that fits into one page, `paging_map_to_free_pages` maps one page. -/
theorem pagingMapToFreePages_small (vm : Vm) (size : Nat) (halign : vaddr % PAGE_SIZE = 0)
    (hlt : vaddr < wordSize) (hpos : 0 < size) (hle : size ≤ PAGE_SIZE) (flags : Nat) :
    pagingMapToFreePages vaddr size flags vm = mapPageToFreePage vaddr flags vm := by
  simp only [pagingMapToFreePages, assert, Program.run_bind, Program.run_require, halign, if_true,
    roundUp_small hpos hle, forPages, Nat.add_zero, Nat.mod_eq_of_lt hlt]
  cases mapPageToFreePage vaddr flags vm with
  | error e => rfl
  | ok r =>
      obtain ⟨result, vm'⟩ := r
      cases result <;> rfl

theorem pagingCopyMapping_small {toVaddr fromVaddr size : Nat} (hto : toVaddr % PAGE_SIZE = 0)
    (hfrom : fromVaddr % PAGE_SIZE = 0) (htoLt : toVaddr < wordSize) (hfromLt : fromVaddr < wordSize)
    (hpos : 0 < size) (hle : size ≤ PAGE_SIZE) (flags : Nat) :
    pagingCopyMapping toVaddr fromVaddr size flags vm = copyPageMapping toVaddr fromVaddr flags vm := by
  simp only [pagingCopyMapping, assert, Program.run_bind, Program.run_require, hto, hfrom, if_true,
    roundUp_small hpos hle, forPages, Nat.add_zero, Nat.mod_eq_of_lt htoLt, Nat.mod_eq_of_lt hfromLt]
  cases copyPageMapping toVaddr fromVaddr flags vm with
  | error e => rfl
  | ok r =>
      obtain ⟨result, vm'⟩ := r
      cases result <;> rfl

theorem pagingUnmap_small (size : Nat) (halign : vaddr % PAGE_SIZE = 0) (hlt : vaddr < wordSize)
    (hpos : 0 < size) (hle : size ≤ PAGE_SIZE) : pagingUnmap vaddr size vm = unmapPage vaddr vm := by
  simp only [pagingUnmap, assert, Program.run_bind, Program.run_require, halign, if_true,
    roundUp_small hpos hle, Program.forRange, Program.foldRange, Nat.sub_zero, Program.foldCount,
    Nat.zero_mul, Nat.add_zero, Nat.mod_eq_of_lt hlt]
  cases unmapPage vaddr vm with
  | error e => rfl
  | ok r => rfl

/-! ### Words in memory -/

/-- The little-endian word at an offset of a frame. -/
def Vm.word (vm : Vm) (frame off : Nat) : Nat :=
  (vm.ram frame off).toNat + 0x100 * (vm.ram frame (off + 1)).toNat +
    0x10000 * (vm.ram frame (off + 2)).toNat + 0x1000000 * (vm.ram frame (off + 3)).toNat

/-- The memory after a word has been written at an offset of a frame. -/
def Vm.putWord (vm : Vm) (frame off value : Nat) : Vm :=
  { vm with
    ram := Function.update vm.ram frame fun o =>
      if o = off then UInt8.ofNat value
      else if o = off + 1 then UInt8.ofNat (value / 0x100)
      else if o = off + 2 then UInt8.ofNat (value / 0x10000)
      else if o = off + 3 then UInt8.ofNat (value / 0x1000000)
      else vm.ram frame o }

theorem Vm.word_lt (vm : Vm) (frame off : Nat) : vm.word frame off < wordSize := by
  have h0 := (vm.ram frame off).toNat_lt
  have h1 := (vm.ram frame (off + 1)).toNat_lt
  have h2 := (vm.ram frame (off + 2)).toNat_lt
  have h3 := (vm.ram frame (off + 3)).toNat_lt
  simp only [Vm.word, wordSize]
  omega

@[simp] theorem Vm.putWord_frameOf (vm : Vm) (frame off value : Nat) :
    (vm.putWord frame off value).frameOf = vm.frameOf := rfl

@[simp] theorem Vm.putWord_pages (vm : Vm) (frame off value : Nat) :
    (vm.putWord frame off value).pages = vm.pages := rfl

/-- A word that has just been written. -/
theorem Vm.word_putWord (vm : Vm) (frame off : Nat) {value : Nat} (h : value < wordSize) :
    (vm.putWord frame off value).word frame off = value := by
  simp only [Vm.word, Vm.putWord, Function.update_self]
  simp
  simp only [wordSize] at h
  omega

/-- Writing a word leaves the words beside it as they are. -/
theorem Vm.word_putWord_of_ne (vm : Vm) {frame frame' : Nat} (off off' value : Nat)
    (h : frame' ≠ frame ∨ off' + 4 ≤ off ∨ off + 4 ≤ off') :
    (vm.putWord frame off value).word frame' off' = vm.word frame' off' := by
  by_cases hframe : frame' = frame
  · subst hframe
    have hoff : ∀ k, k < 4 → (vm.putWord frame' off value).ram frame' (off' + k) =
        vm.ram frame' (off' + k) := by
      intro k hk
      simp only [Vm.putWord, Function.update_self]
      rw [if_neg, if_neg, if_neg, if_neg] <;> omega
    simp only [Vm.word]
    rw [hoff 1 (by decide), hoff 2 (by decide), hoff 3 (by decide)]
    have hzero := hoff 0 (by decide)
    rw [Nat.add_zero] at hzero
    rw [hzero]
  · simp [Vm.word, Vm.putWord, Function.update_of_ne hframe]

/-- In one frame, two words that do not overlap. -/
theorem Vm.word_putWord_of_same (vm : Vm) (frame off off' value : Nat)
    (h : off' + 4 ≤ off ∨ off + 4 ≤ off') :
    (vm.putWord frame off value).word frame off' = vm.word frame off' :=
  vm.word_putWord_of_ne off off' value (Or.inr h)

theorem load8_eq {frame : Nat} (h : vm.frameOf (vaddr / PAGE_SIZE) = some frame) :
    load8 vaddr vm = .ok (vm.ram frame (vaddr % PAGE_SIZE), vm) := by
  simp [load8, h]

theorem store8_eq {frame : Nat} (h : vm.frameOf (vaddr / PAGE_SIZE) = some frame) (value : UInt8) :
    store8 vaddr value vm = .ok ((), { vm with
      ram := Function.update vm.ram frame
        (Function.update (vm.ram frame) (vaddr % PAGE_SIZE) value) }) := by
  simp [store8, h]

/-- The bytes of a word that does not cross a page boundary. -/
theorem word_bytes {k : Nat} (hk : k < 4) (hoff : vaddr % PAGE_SIZE + 4 ≤ PAGE_SIZE)
    (hlt : vaddr < wordSize) :
    (vaddr + k) % wordSize / PAGE_SIZE = vaddr / PAGE_SIZE ∧
      (vaddr + k) % wordSize % PAGE_SIZE = vaddr % PAGE_SIZE + k := by
  simp only [PAGE_SIZE, wordSize] at hoff hlt ⊢
  omega

theorem load32_eq {frame : Nat} (h : vm.frameOf (vaddr / PAGE_SIZE) = some frame)
    (hoff : vaddr % PAGE_SIZE + 4 ≤ PAGE_SIZE) (hlt : vaddr < wordSize) :
    load32 vaddr vm = .ok (vm.word frame (vaddr % PAGE_SIZE), vm) := by
  obtain ⟨hpage1, hoff1⟩ := word_bytes (k := 1) (by decide) hoff hlt
  obtain ⟨hpage2, hoff2⟩ := word_bytes (k := 2) (by decide) hoff hlt
  obtain ⟨hpage3, hoff3⟩ := word_bytes (k := 3) (by decide) hoff hlt
  have hmapped : ∀ page, page = vaddr / PAGE_SIZE → vm.frameOf page = some frame := by
    rintro page rfl
    exact h
  have h1 := load8_eq (hmapped _ hpage1)
  have h2 := load8_eq (hmapped _ hpage2)
  have h3 := load8_eq (hmapped _ hpage3)
  rw [hoff1] at h1
  rw [hoff2] at h2
  rw [hoff3] at h3
  simp only [load32, Program.run_bind, load8_eq h, h1, h2, h3, Program.run_pure, Vm.word]

theorem store32_eq {frame : Nat} (h : vm.frameOf (vaddr / PAGE_SIZE) = some frame)
    (hoff : vaddr % PAGE_SIZE + 4 ≤ PAGE_SIZE) (hlt : vaddr < wordSize) (value : Nat) :
    store32 vaddr value vm = .ok ((), vm.putWord frame (vaddr % PAGE_SIZE) value) := by
  obtain ⟨hpage1, hoff1⟩ := word_bytes (k := 1) (by decide) hoff hlt
  obtain ⟨hpage2, hoff2⟩ := word_bytes (k := 2) (by decide) hoff hlt
  obtain ⟨hpage3, hoff3⟩ := word_bytes (k := 3) (by decide) hoff hlt
  have hstore : ∀ (ram : Nat → Nat → UInt8) (k : Nat) (value : UInt8), k < 4 →
      (vaddr + k) % wordSize / PAGE_SIZE = vaddr / PAGE_SIZE →
      (vaddr + k) % wordSize % PAGE_SIZE = vaddr % PAGE_SIZE + k →
      store8 ((vaddr + k) % wordSize) value { vm with ram := ram } =
        .ok ((), { vm with
          ram := Function.update ram frame
            (Function.update (ram frame) (vaddr % PAGE_SIZE + k) value) }) := by
    intro ram k value _ hpage hoff
    have hmapped : Vm.frameOf { vm with ram := ram } ((vaddr + k) % wordSize / PAGE_SIZE) =
        some frame := hpage.symm ▸ h
    rw [store8_eq hmapped, hoff]
  have h0 := store8_eq h (UInt8.ofNat value)
  simp only [store32, Program.run_bind, h0, hstore _ 1 _ (by decide) hpage1 hoff1,
    hstore _ 2 _ (by decide) hpage2 hoff2, hstore _ 3 _ (by decide) hpage3 hoff3]
  simp only [Function.update_self, Function.update_idem, Vm.putWord, Except.ok.injEq, Prod.mk.injEq,
    true_and]
  have hframe : Function.update (Function.update (Function.update (Function.update (vm.ram frame)
        (vaddr % PAGE_SIZE) (UInt8.ofNat value))
        (vaddr % PAGE_SIZE + 1) (UInt8.ofNat (value / 0x100)))
        (vaddr % PAGE_SIZE + 2) (UInt8.ofNat (value / 0x10000)))
        (vaddr % PAGE_SIZE + 3) (UInt8.ofNat (value / 0x1000000)) = (vm.putWord frame
        (vaddr % PAGE_SIZE) value).ram frame := by
    funext o
    simp only [Vm.putWord, Function.update_self, Function.update_apply]
    split_ifs <;> first | rfl | omega
  rw [hframe]
  simp [Vm.putWord]

/-! ### An empty address space -/

/-- Nothing is mapped, and eight frames are free. -/
def Vm.bare : Vm where
  pde _ := none
  pte _ := none
  ram _ _ := 0
  pages := { bitmapLen := 1, bitmap := fun word => if word = 0 then 0xff#32 else 0#32 }

theorem Vm.bare_pagesOk : PagesOk Vm.bare.pages := by
  intro i hi
  refine ⟨?_, rfl⟩
  by_contra hout
  have hword : i / 32 ≠ 0 := by
    simp only [Vm.bare] at hout
    omega
  simp [Vm.bare, BitSet.mem, hword] at hi

end Chaotix
