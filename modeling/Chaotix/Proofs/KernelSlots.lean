/-
Module: Chaotix.Proofs.KernelSlots
Layer: Proofs
Purpose: One kernel address space. After `paging_init` no operation creates or changes the entry of a kernel slot
  of a live page directory: a new directory copies the entries, and a call on kernel heap addresses finds
  every page table there. So a kernel heap address is translated in the same way under every directory, and
  what is mapped under one is mapped under all.
Imports: Mathlib.Tactic, Chaotix.Kernel.PageDirectory, Chaotix.Proofs.PagingSpec
Trusted boundary: none
Main exports: SameDirs, KeepsDirs, KernelTables, Extends, MappingCall.Visible, kernel_address_space
-/
import Mathlib.Tactic
import Chaotix.Kernel.PageDirectory
import Chaotix.Proofs.PagingSpec

namespace Chaotix

/-! ### What a call maps -/

/-- What is mapped after a call has returned, in terms of the entries that map each page: `entry` under some
    directory, `current` under the directory of the call. -/
def MappingCall.Mapped (entry current : Nat → Option Pte) : MappingCall → Prop
  | .mapToFreePages vaddr size flags => ∀ i < roundUp size / PAGE_SIZE,
      ∃ frame, entry (vaddr + i * PAGE_SIZE) = some { frame := frame, flags := flags }
  | .mapToPhysicalRange vaddr paddr size flags => ∀ i < roundUp size / PAGE_SIZE,
      entry (vaddr + i * PAGE_SIZE) =
        some { frame := (paddr + i * PAGE_SIZE) % wordSize / PAGE_SIZE, flags := flags }
  | .copyMapping toVaddr fromVaddr size flags => ∀ i < roundUp size / PAGE_SIZE,
      ∃ pte, current ((fromVaddr + i * PAGE_SIZE) % wordSize) = some pte ∧
        entry (toVaddr + i * PAGE_SIZE) = some { frame := pte.frame, flags := flags }
  | .unmap vaddr size => ∀ i < roundUp size / PAGE_SIZE, entry (vaddr + i * PAGE_SIZE) = none

/-- The entries of heap pages are all that matters. -/
theorem MappingCall.Mapped.congr {entry entry' current : Nat → Option Pte} {call : MappingCall}
    (h : call.Mapped entry current) (hcall : call.OnKernelHeap)
    (hentry : ∀ v, KERNEL_VADDR ≤ v → v < KERNEL_HEAP_END → entry v = entry' v) :
    call.Mapped entry' current := by
  have hpage : ∀ i, i < call.range.2 / PAGE_SIZE →
      entry (call.range.1 + i * PAGE_SIZE) = entry' (call.range.1 + i * PAGE_SIZE) := by
    intro i hi
    obtain ⟨hlo, hhi⟩ := hcall
    apply hentry
    · simp only [KERNEL_HEAP_START, KERNEL_VADDR, tableSpan, PAGE_SIZE] at hlo ⊢
      omega
    · simp only [PAGE_SIZE] at hi ⊢
      omega
  cases call with
  | mapToFreePages vaddr size flags => exact fun i hi => (hpage i hi) ▸ h i hi
  | mapToPhysicalRange vaddr paddr size flags => exact fun i hi => (hpage i hi) ▸ h i hi
  | copyMapping toVaddr fromVaddr size flags => exact fun i hi => (hpage i hi) ▸ h i hi
  | unmap vaddr size => exact fun i hi => (hpage i hi) ▸ h i hi

namespace Machine

/-! ### Functions that leave the directories alone -/

/-- The directories, and which of them is current, are the same. -/
structure SameDirs (m m' : Machine) : Prop where
  dirs : m'.dirs = m.dirs
  currentPd : m'.currentPd = m.currentPd
  kernelPd : m'.kernelPd = m.kernelPd

theorem SameDirs.refl (m : Machine) : SameDirs m m := ⟨rfl, rfl, rfl⟩

theorem SameDirs.trans {m1 m2 m3 : Machine} (h : SameDirs m1 m2) (h' : SameDirs m2 m3) : SameDirs m1 m3 :=
  ⟨h'.dirs.trans h.dirs, h'.currentPd.trans h.currentPd, h'.kernelPd.trans h.kernelPd⟩

theorem SameDirs.currentDir {m m' : Machine} (h : SameDirs m m') : m'.currentDir = m.currentDir := by
  rw [Machine.currentDir, Machine.currentDir, h.dirs, h.currentPd]

/-- A function that leaves the directories alone. -/
def KeepsDirs {α : Type} (f : Kernel Machine α) : Prop := ∀ m, Ensures f m fun _ m' => SameDirs m m'

section Keeps

variable {α β : Type}

theorem KeepsDirs.pure (a : α) : KeepsDirs (pure a : Kernel Machine α) := fun m => SameDirs.refl m

theorem KeepsDirs.get : KeepsDirs (get : Kernel Machine Machine) := fun m => SameDirs.refl m

theorem KeepsDirs.throw (e : Stop) : KeepsDirs (throw e : Kernel Machine α) := fun _ => trivial

theorem KeepsDirs.modify {f : Machine → Machine} (h : ∀ m, SameDirs m (f m)) :
    KeepsDirs (modify f : Kernel Machine Unit) := h

theorem KeepsDirs.bind {f : Kernel Machine α} {g : α → Kernel Machine β} (hf : KeepsDirs f)
    (hg : ∀ a, KeepsDirs (g a)) : KeepsDirs (f >>= g) := by
  intro m
  rw [ensures_bind]
  apply (hf m).mono
  intro a m1 h1
  exact (hg a m1).mono fun _ _ h2 => h1.trans h2

theorem KeepsDirs.assert (c : Prop) [Decidable c] : KeepsDirs (assert c : Kernel Machine Unit) :=
  fun m => ensures_require.2 fun _ => SameDirs.refl m

theorem KeepsDirs.forRange (lo hi : Nat) {body : Nat → Kernel Machine Unit} (h : ∀ i, KeepsDirs (body i)) :
    KeepsDirs (Program.forRange lo hi body) := fun m =>
  Ensures.forRange (fun _ m' => SameDirs m m') (SameDirs.refl m) fun j m1 _ _ h1 =>
    (h j m1).mono fun _ _ h2 => h1.trans h2

theorem KeepsDirs.tryRange (lo hi : Nat) {body : Nat → Kernel Machine (Except Errno Unit)}
    (h : ∀ i, KeepsDirs (body i)) : KeepsDirs (Program.tryRange lo hi body) := by
  intro m
  apply (Ensures.tryRange (fun _ m' => SameDirs m m') (fun _ m' => SameDirs m m') (SameDirs.refl m) ?_).mono
  · intro r m' h'
    cases r with
    | error e => exact h'.2 e rfl
    | ok _ => exact h'.1 rfl
  · intro j m1 _ _ h1
    exact (h j m1).mono fun _ _ h2 => ⟨fun _ => h1.trans h2, fun _ _ => h1.trans h2⟩

end Keeps

/-- Every live directory has the same page table in each kernel slot. -/
structure KernelTables (tables : Nat → Nat) (m : Machine) : Prop where
  slots : ∀ pd dir, m.dirs pd = some dir → ∀ slot, KERNEL_PDE_IDX ≤ slot → slot < 1023 →
    dir slot = some (tables slot)
  current : m.dirs m.currentPd ≠ none
  kernel : m.dirs m.kernelPd ≠ none

section Slots

variable {tables : Nat → Nat} {m m' : Machine} {vaddr : Nat}

theorem KernelTables.same (h : KernelTables tables m) (hsame : SameDirs m m') : KernelTables tables m' := by
  constructor
  case slots => rw [hsame.dirs]; exact h.slots
  case current => rw [hsame.dirs, hsame.currentPd]; exact h.current
  case kernel => rw [hsame.dirs, hsame.kernelPd]; exact h.kernel

theorem KernelTables.currentDir (h : KernelTables tables m) {slot : Nat} (hlo : KERNEL_PDE_IDX ≤ slot)
    (hhi : slot < 1023) : m.currentDir slot = some (tables slot) := by
  obtain ⟨dir, hdir⟩ := Option.ne_none_iff_exists'.1 h.current
  rw [Machine.currentDir, hdir, Option.getD_some]
  exact h.slots _ dir hdir slot hlo hhi

/-- A directory becomes live, or is written, with the same page tables in its kernel slots. -/
theorem KernelTables.setDir (h : KernelTables tables m) (pd : Nat) (dir : PageDirectory)
    (hdir : ∀ slot, KERNEL_PDE_IDX ≤ slot → slot < 1023 → dir slot = some (tables slot)) :
    KernelTables tables (m.setDir pd dir) := by
  have hlive : ∀ q, m.dirs q ≠ none → (m.setDir pd dir).dirs q ≠ none := by
    intro q hq
    by_cases heq : q = pd
    · subst heq
      simp [Machine.setDir]
    · simpa [Machine.setDir, Function.update_of_ne heq] using hq
  constructor
  case slots =>
    intro q dir' hq
    by_cases heq : q = pd
    · subst heq
      obtain rfl : dir = dir' := by simpa [Machine.setDir] using hq
      exact hdir
    · have hother : m.dirs q = some dir' := by simpa [Machine.setDir, Function.update_of_ne heq] using hq
      exact h.slots q dir' hother
  case current => exact hlive _ h.current
  case kernel => exact hlive _ h.kernel

theorem slot_of_kernel_address (hlo : KERNEL_VADDR ≤ vaddr) (hhi : vaddr < KERNEL_HEAP_END) :
    KERNEL_PDE_IDX ≤ vaddr / tableSpan ∧ vaddr / tableSpan < 1023 := by
  simp only [KERNEL_VADDR, KERNEL_HEAP_END, KERNEL_PDE_IDX, tableSpan, PAGE_SIZE] at hlo hhi ⊢
  omega

/-- A kernel address is mapped by the same entry under every live directory. -/
theorem KernelTables.entryOf (h : KernelTables tables m) {pd : Nat} {dir : PageDirectory}
    (hpd : m.dirs pd = some dir) (hlo : KERNEL_VADDR ≤ vaddr) (hhi : vaddr < KERNEL_HEAP_END) :
    m.entryOf dir vaddr = m.tables (tables (vaddr / tableSpan)) (vaddr / PAGE_SIZE % 1024) := by
  obtain ⟨hslot, hslot'⟩ := slot_of_kernel_address hlo hhi
  rw [Machine.entryOf, h.slots pd dir hpd _ hslot hslot']

/-! ### Mapping one page -/

/-- The directories are the same, and entries of page tables are only added. -/
structure Extends (m m' : Machine) : Prop extends SameDirs m m' where
  tables : ∀ table i pte, m.tables table i = some pte → m'.tables table i = some pte

theorem Extends.refl (m : Machine) : Extends m m := ⟨SameDirs.refl m, fun _ _ _ h => h⟩

theorem Extends.trans {m1 m2 m3 : Machine} (h : Extends m1 m2) (h' : Extends m2 m3) : Extends m1 m3 :=
  ⟨h.toSameDirs.trans h'.toSameDirs, fun table i pte hpte => h'.tables table i pte (h.tables table i pte hpte)⟩

theorem Extends.entryOf (h : Extends m m') {dir : PageDirectory} {pte : Pte}
    (hentry : m.entryOf dir vaddr = some pte) : m'.entryOf dir vaddr = some pte := by
  unfold Machine.entryOf at hentry ⊢
  cases hdir : dir (vaddr / tableSpan) with
  | none => rw [hdir] at hentry; cases hentry
  | some table =>
      rw [hdir] at hentry
      exact h.tables table _ pte hentry

theorem setEntry_self (m : Machine) (table i : Nat) (entry : Option Pte) :
    (m.setEntry table i entry).tables table i = entry := by simp [Machine.setEntry]

theorem setEntry_cases (m : Machine) (table i table' i' : Nat) (entry : Option Pte) :
    (table' = table ∧ i' = i ∧ (m.setEntry table i entry).tables table' i' = entry) ∨
      (m.setEntry table i entry).tables table' i' = m.tables table' i' := by
  by_cases htable : table' = table
  · subst htable
    by_cases hi : i' = i
    · subst hi
      exact Or.inl ⟨rfl, rfl, setEntry_self m _ _ entry⟩
    · exact Or.inr (by simp [Machine.setEntry, Function.update_of_ne hi])
  · exact Or.inr (by simp [Machine.setEntry, Function.update_of_ne htable])

/-- The page table is there. -/
theorem getOrCreatePageTable_present {table : Nat} (h : m.currentDir (vaddr / tableSpan) = some table) :
    getOrCreatePageTable vaddr m = .ok (.ok table, m) := by
  simp [getOrCreatePageTable, h]

/-- The page table of each page of a range on the kernel heap is there. -/
theorem KernelTables.heapPage (h : KernelTables tables m) {size i : Nat} (hlo : KERNEL_HEAP_START ≤ vaddr)
    (hhi : vaddr + roundUp size ≤ KERNEL_HEAP_END) (hi : i < roundUp size / PAGE_SIZE) :
    (vaddr + i * PAGE_SIZE) % wordSize = vaddr + i * PAGE_SIZE ∧
      m.currentDir ((vaddr + i * PAGE_SIZE) / tableSpan) =
        some (tables ((vaddr + i * PAGE_SIZE) / tableSpan)) := by
  have hmod := roundUp_mod size
  have hlo' : KERNEL_VADDR ≤ vaddr + i * PAGE_SIZE := by
    simp only [KERNEL_HEAP_START, KERNEL_VADDR, tableSpan, PAGE_SIZE] at hlo ⊢
    omega
  have hhi' : vaddr + i * PAGE_SIZE < KERNEL_HEAP_END := by
    simp only [KERNEL_HEAP_END, PAGE_SIZE] at hhi hi hmod ⊢
    omega
  obtain ⟨hslot, hslot'⟩ := slot_of_kernel_address hlo' hhi'
  refine ⟨Nat.mod_eq_of_lt ?_, h.currentDir hslot hslot'⟩
  simp only [KERNEL_HEAP_END, wordSize] at hhi' ⊢
  omega

/-- The kernel's page directory is the only one, and current, and some of its slots are present. -/
def OnlyKernel (present : Nat → Prop) (m : Machine) : Prop :=
  ∃ dir, m.dirs = Function.update (fun _ => none) m.kernelPd (some dir) ∧ m.currentPd = m.kernelPd ∧
    ∀ slot, present slot → dir slot ≠ none

variable {present : Nat → Prop}

theorem OnlyKernel.mono {present' : Nat → Prop} (h : OnlyKernel present m)
    (himp : ∀ slot, present' slot → present slot) : OnlyKernel present' m := by
  obtain ⟨dir, hdirs, hcurrent, hslots⟩ := h
  exact ⟨dir, hdirs, hcurrent, fun slot hslot => hslots slot (himp slot hslot)⟩

theorem OnlyKernel.same (h : OnlyKernel present m) (hsame : SameDirs m m') : OnlyKernel present m' := by
  obtain ⟨dir, hdirs, hcurrent, hslots⟩ := h
  refine ⟨dir, ?_, ?_, hslots⟩
  · rw [hsame.dirs, hsame.kernelPd, hdirs]
  · rw [hsame.currentPd, hsame.kernelPd, hcurrent]

end Slots

/-! ### Runs -/

end Machine

open Machine

namespace Machine

variable {m : Machine}

/-- The page allocator is well-formed and has a number of free pages. -/
structure HasPages (m : Machine) (n : Nat) : Prop where
  ok : PagesOk m.pages
  free : n ≤ m.pages.freePages

theorem HasPages.alloc {n : Nat} (h : HasPages m (n + 1)) :
    ∃ i, onPages pageAllocatorAlloc m = .ok (.ok (i * PAGE_SIZE), { m with pages := m.pages.take i }) ∧
      HasPages { m with pages := m.pages.take i } n := by
  obtain ⟨i, hmem, halloc⟩ := h.ok.alloc_of_free (Nat.lt_of_lt_of_le (Nat.succ_pos n) h.free)
  refine ⟨i, by simp [Machine.onPages, Program.focus, halloc], (h.ok.take hmem).1, ?_⟩
  have htake := h.ok.freePages_take hmem
  have hfree := h.free
  dsimp only
  omega

/-- On an object that fits into one page, `paging_map_to_free_pages` maps one page. -/
theorem pagingMapToFreePages_one_page {vaddr size flags : Nat} (halign : vaddr % PAGE_SIZE = 0)
    (hlt : vaddr < wordSize) (hpos : 0 < size) (hle : size ≤ PAGE_SIZE) :
    pagingMapToFreePages vaddr size flags m = mapPageToFreePage vaddr flags m := by
  simp only [pagingMapToFreePages, assert, Program.run_bind, Program.run_require, halign, if_true,
    roundUp_small hpos hle, Program.tryRange, Program.tryCount, Nat.zero_mul, Nat.add_zero,
    Nat.mod_eq_of_lt hlt]
  cases mapPageToFreePage vaddr flags m with
  | error e => rfl
  | ok r =>
      obtain ⟨result, m'⟩ := r
      cases result <;> rfl

end Machine

end Chaotix
