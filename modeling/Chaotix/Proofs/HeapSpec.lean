/-
Module: Chaotix.Proofs.HeapSpec
Layer: Proofs
Purpose: What the functions of the kernel heap do to the headers of its blocks and to the counts of the physical
  pages. `HeapOk` says that the page tables of the heap are there and that each free range has its first page
  mapped, in a frame that is counted once.
Imports: Mathlib.Tactic, Chaotix.Kernel.KernelHeap, Chaotix.Proofs.KernelSlots
Trusted boundary: none
Main exports: HeapOk, NoRoom, HeapOk.kalignedAlloc_page
-/
import Mathlib.Tactic
import Chaotix.Kernel.KernelHeap
import Chaotix.Proofs.KernelSlots

namespace Chaotix

/-- The allocator after a page has lost one of its references. -/
def PageAllocator.unref (a : PageAllocator) (frame : Nat) : PageAllocator :=
  if a.refCounts frame = 1 then a.release frame else a.setCount frame (a.refCounts frame - 1)

namespace Machine

/-! ### Headers -/

/-- The functions of the page directories leave the headers of the blocks alone. -/
theorem onPages_headers {α : Type} (f : Kernel PageAllocator α) : Keeps Machine.headers (onPages f) := by
  apply Keeps.focus
  exact fun _ _ => rfl

theorem setEntry_headers (table i : Nat) (entry : Option Pte) :
    Keeps Machine.headers (modify (fun m => m.setEntry table i entry) : Kernel Machine Unit) :=
  Keeps.modify fun _ => rfl

theorem getOrCreatePageTable_headers (vaddr : Nat) : Keeps Machine.headers (getOrCreatePageTable vaddr) := by
  refine Keeps.get.bind fun m => ?_
  cases m.currentDir (vaddr / tableSpan) with
  | some table => exact Keeps.pure _
  | none =>
      refine (onPages_headers _).bind fun r => ?_
      cases r with
      | error e => exact Keeps.pure _
      | ok paddr =>
          refine Keeps.bind (Keeps.modify ?_) fun _ => Keeps.pure _
          exact fun _ => rfl

theorem mapPageToFreePage_headers (vaddr flags : Nat) : Keeps Machine.headers (mapPageToFreePage vaddr flags) := by
  refine (getOrCreatePageTable_headers vaddr).bind fun r => ?_
  cases r with
  | error e => exact Keeps.pure _
  | ok table =>
      refine Keeps.get.bind fun m => (Keeps.require _ _).bind fun _ => (onPages_headers _).bind fun r => ?_
      cases r with
      | error e => exact Keeps.pure _
      | ok paddr => exact (setEntry_headers _ _ _).bind fun _ => Keeps.pure _

theorem linkPage_headers (vaddr paddr flags : Nat) : Keeps Machine.headers (linkPage vaddr paddr flags) := by
  refine (getOrCreatePageTable_headers vaddr).bind fun r => ?_
  cases r with
  | error e => exact Keeps.pure _
  | ok table =>
      exact Keeps.get.bind fun m => (Keeps.require _ _).bind fun _ => (onPages_headers _).bind fun _ =>
        (setEntry_headers _ _ _).bind fun _ => Keeps.pure _

theorem copyPageMapping_headers (toVaddr fromVaddr flags : Nat) :
    Keeps Machine.headers (copyPageMapping toVaddr fromVaddr flags) := by
  refine Keeps.get.bind fun m => ?_
  cases m.entryOf m.currentDir fromVaddr with
  | none => exact Keeps.throw _
  | some pte => exact linkPage_headers _ _ _

theorem unmapPage_headers (vaddr : Nat) : Keeps Machine.headers (unmapPage vaddr) := by
  refine Keeps.get.bind fun m => ?_
  cases m.currentDir (vaddr / tableSpan) with
  | none => exact Keeps.throw _
  | some table =>
      dsimp only
      cases m.tables table (vaddr / PAGE_SIZE % 1024) with
      | none => exact Keeps.throw _
      | some pte => exact (onPages_headers _).bind fun _ => setEntry_headers _ _ _

theorem pagingMapToFreePages_headers (vaddr size flags : Nat) :
    Keeps Machine.headers (pagingMapToFreePages vaddr size flags) :=
  (Keeps.require _ _).bind fun _ => Keeps.tryRange _ _ fun _ => mapPageToFreePage_headers _ _

theorem pagingCopyMapping_headers (toVaddr fromVaddr size flags : Nat) :
    Keeps Machine.headers (pagingCopyMapping toVaddr fromVaddr size flags) :=
  (Keeps.require _ _).bind fun _ => (Keeps.require _ _).bind fun _ =>
    Keeps.tryRange _ _ fun _ => copyPageMapping_headers _ _ _

theorem pagingUnmap_headers (vaddr size : Nat) : Keeps Machine.headers (pagingUnmap vaddr size) :=
  (Keeps.require _ _).bind fun _ => Keeps.forRange _ _ fun _ => unmapPage_headers _

theorem pagingVirtualToPhysicalAddr_headers (vaddr : Nat) :
    Keeps Machine.headers (pagingVirtualToPhysicalAddr vaddr) := by
  refine Keeps.get.bind fun m => ?_
  cases m.translate m.currentDir vaddr with
  | none => exact Keeps.throw _
  | some paddr => exact Keeps.pure _

theorem quickmap_headers (which paddr flags : Nat) : Keeps Machine.headers (quickmap which paddr flags) := by
  refine Keeps.get.bind fun m => ?_
  cases m.currentDir KERNEL_PDE_IDX with
  | none => exact Keeps.throw _
  | some table => exact (Keeps.require _ _).bind fun _ => setEntry_headers _ _ _

theorem unquickmap_headers (which : Nat) : Keeps Machine.headers (unquickmap which) := by
  refine Keeps.get.bind fun m => ?_
  cases m.currentDir KERNEL_PDE_IDX with
  | none => exact Keeps.throw _
  | some table => exact (Keeps.require _ _).bind fun _ => setEntry_headers _ _ _

theorem clonePage_headers (src dest srcVaddr i : Nat) : Keeps Machine.headers (clonePage src dest srcVaddr i) := by
  refine Keeps.get.bind fun m => ?_
  cases m.tables src i with
  | none => exact (setEntry_headers _ _ _).bind fun _ => Keeps.pure _
  | some pte =>
      dsimp only
      split
      · exact (setEntry_headers _ _ _).bind fun _ => (onPages_headers _).bind fun _ => Keeps.pure _
      · refine (onPages_headers _).bind fun r => ?_
        cases r with
        | error e => exact (unquickmap_headers _).bind fun _ => Keeps.pure _
        | ok paddr =>
            refine (setEntry_headers _ _ _).bind fun _ => (quickmap_headers _ _ _).bind fun _ => ?_
            refine (pagingVirtualToPhysicalAddr_headers _).bind fun source => ?_
            refine Keeps.bind (Keeps.modify ?_) fun _ => (unquickmap_headers _).bind fun _ => Keeps.pure _
            exact fun _ => rfl

theorem clonePageTable_headers (src srcVaddr : Nat) : Keeps Machine.headers (clonePageTable src srcVaddr) := by
  refine (onPages_headers _).bind fun r => ?_
  cases r with
  | error e => exact Keeps.pure _
  | ok paddr =>
      refine (quickmap_headers _ _ _).bind fun _ => ?_
      refine (Keeps.tryRange _ _ fun i => clonePage_headers _ _ _ i).bind fun r => ?_
      cases r with
      | error e => exact Keeps.pure _
      | ok _ => exact (unquickmap_headers _).bind fun _ => Keeps.pure _

theorem cloneSlot_headers (dst i : Nat) : Keeps Machine.headers (cloneSlot dst i) := by
  refine Keeps.get.bind fun m => ?_
  cases m.currentDir i with
  | none => exact Keeps.pure _
  | some table =>
      refine (clonePageTable_headers _ _).bind fun r => ?_
      cases r with
      | error e => exact Keeps.pure _
      | ok copy =>
          refine Keeps.bind (Keeps.modify ?_) fun _ => Keeps.pure _
          exact fun _ => rfl

/-! ### Objects of one page -/

section OnePage

variable {m : Machine} {vaddr : Nat}

theorem pagingCopyMapping_one_page {fromVaddr size flags : Nat} (hto : vaddr % PAGE_SIZE = 0)
    (hfrom : fromVaddr % PAGE_SIZE = 0) (htoLt : vaddr < wordSize) (hfromLt : fromVaddr < wordSize)
    (hpos : 0 < size) (hle : size ≤ PAGE_SIZE) :
    pagingCopyMapping vaddr fromVaddr size flags m = copyPageMapping vaddr fromVaddr flags m := by
  simp only [pagingCopyMapping, assert, Program.run_bind, Program.run_require, hto, hfrom, if_true,
    roundUp_small hpos hle, Program.tryRange, Program.tryCount, Nat.zero_mul, Nat.add_zero,
    Nat.mod_eq_of_lt htoLt, Nat.mod_eq_of_lt hfromLt]
  cases copyPageMapping vaddr fromVaddr flags m with
  | error e => rfl
  | ok r =>
      obtain ⟨result, m'⟩ := r
      cases result <;> rfl

theorem pagingUnmap_one_page {size : Nat} (halign : vaddr % PAGE_SIZE = 0) (hlt : vaddr < wordSize)
    (hpos : 0 < size) (hle : size ≤ PAGE_SIZE) : pagingUnmap vaddr size m = unmapPage vaddr m := by
  simp only [pagingUnmap, assert, Program.run_bind, Program.run_require, halign, if_true,
    roundUp_small hpos hle, Program.forRange, Program.foldRange, Nat.sub_zero, Program.foldCount, Nat.zero_mul,
    Nat.add_zero, Nat.mod_eq_of_lt hlt]
  cases unmapPage vaddr m with
  | error e => rfl
  | ok r => rfl

/-- A frame is mapped once more. -/
theorem linkPage_counts {table frame : Nat} (h : m.currentDir (vaddr / tableSpan) = some table)
    (hcount : m.pages.refCounts frame < UINT8_MAX) (flags : Nat) :
    Ensures (linkPage vaddr (frame * PAGE_SIZE) flags) m fun r m' => r = .ok () ∧
      m.tables table (vaddr / PAGE_SIZE % 1024) = none ∧
      m' = Machine.setEntry { m with pages := m.pages.setCount frame (m.pages.refCounts frame + 1) } table
        (vaddr / PAGE_SIZE % 1024) (some { frame := frame, flags := flags }) := by
  have hframe : frame * PAGE_SIZE / PAGE_SIZE = frame := Nat.mul_div_cancel _ (by decide)
  rw [linkPage, ensures_bind_of_return (getOrCreatePageTable_present h)]
  simp only [ensures_bind, ensures_get, assert, ensures_require]
  intro habsent
  rw [onPages, ensures_focus, Ensures, pageAllocatorRefPage_eq (Nat.mul_mod_left _ _), hframe, if_pos hcount]
  exact ⟨rfl, habsent, rfl⟩

/-- A page is unmapped, and its frame loses a reference. -/
theorem unmapPage_counts {table : Nat} {pte : Pte} (h : m.currentDir (vaddr / tableSpan) = some table)
    (hpte : m.tables table (vaddr / PAGE_SIZE % 1024) = some pte) (hinside : pte.frame / 32 < m.pages.bitmapLen)
    (hpos : 0 < m.pages.refCounts pte.frame) (hmax : m.pages.refCounts pte.frame < UINT8_MAX) :
    Ensures (unmapPage vaddr) m fun _ m' =>
      m' = Machine.setEntry { m with pages := m.pages.unref pte.frame } table (vaddr / PAGE_SIZE % 1024) none := by
  have hframe : pte.frame * PAGE_SIZE / PAGE_SIZE = pte.frame := Nat.mul_div_cancel _ (by decide)
  rw [unmapPage, ensures_bind, ensures_get]
  simp only [h, hpte, ensures_bind]
  rw [onPages, ensures_focus, Ensures, pageAllocatorUnrefPage_eq (Nat.mul_mod_left _ _) (by rwa [hframe])
    (by rwa [hframe]), hframe, if_pos hmax]
  exact rfl

/-- A page is mapped to a free page when there is one. -/
theorem mapPageToFreePage_counts {table : Nat} (h : m.currentDir (vaddr / tableSpan) = some table) (flags : Nat) :
    Ensures (mapPageToFreePage vaddr flags) m fun r m' =>
      (r = .ok () ↔ m.pages.bitmap.findFirst 0 m.pages.bitmapLen ≠ none) ∧ (r ≠ .ok () → m' = m) := by
  rw [mapPageToFreePage, ensures_bind_of_return (getOrCreatePageTable_present h)]
  simp only [ensures_bind, ensures_get, assert, ensures_require]
  intro _
  cases hfirst : m.pages.bitmap.findFirst 0 m.pages.bitmapLen with
  | none =>
      rw [onPages, ensures_focus, Ensures, pageAllocatorAlloc_none hfirst]
      exact ⟨⟨by simp, fun hne => absurd rfl hne⟩, fun _ => rfl⟩
  | some i =>
      rw [onPages, ensures_focus]
      apply ensures_iff.2
      intro r pages halloc
      cases r with
      | ok paddr => exact ⟨⟨fun _ => Option.some_ne_none i, fun _ => rfl⟩, fun hne => absurd rfl hne⟩
      | error e =>
          simp only [pageAllocatorAlloc, bitmapFindFirstSet, Program.run_bind, Program.run_get, hfirst,
            Program.run_pure, bitmapClear, assert, Program.run_require, Program.run_set] at halloc
          split at halloc
          · split at halloc
            · simp at halloc
            · simp at halloc
          · simp at halloc

end OnePage

end Machine

namespace HeapState

/-! ### The walk of the allocator -/

theorem findFit_eq_some {size : Nat} {ranges before behind : List Segment} {it : Segment}
    (h : findFit size ranges = some (before, it, behind)) :
    ranges = before ++ it :: behind ∧ size ≤ it.2 := by
  induction ranges generalizing before with
  | nil => simp [findFit] at h
  | cons r rest ih =>
      rw [findFit] at h
      split_ifs at h with hsmall
      · rw [Option.map_eq_some_iff] at h
        obtain ⟨⟨before', it', behind'⟩, hrest, heq⟩ := h
        simp only [Prod.mk.injEq] at heq
        obtain ⟨rfl, rfl, rfl⟩ := heq
        obtain ⟨rfl, hfits⟩ := ih hrest
        exact ⟨rfl, hfits⟩
      · simp only [Option.some.injEq, Prod.mk.injEq] at h
        obtain ⟨rfl, rfl, rfl⟩ := h
        exact ⟨rfl, Nat.le_of_not_lt hsmall⟩

/-! ### A heap whose free ranges have their pages -/

/-- The page tables of the heap are there; each free range lies in the heap and has no block at its start; its first
    page is mapped to a frame that is counted once. -/
structure HeapOk (s : HeapState) : Prop where
  tables : ∀ slot, KERNEL_PDE_IDX ≤ slot → slot < 1023 → ∃ table, s.machine.currentDir slot = some table
  aligned : ∀ r ∈ s.ranges, r.1 % PAGE_SIZE = 0
  inside : ∀ r ∈ s.ranges, KERNEL_HEAP_START ≤ r.1 ∧ r.1 + r.2 ≤ KERNEL_HEAP_END
  nonempty : ∀ r ∈ s.ranges, 0 < r.2
  blocks : ∀ r ∈ s.ranges, s.machine.headers r.1 = none
  node : ∀ r ∈ s.ranges, ∃ pte, s.machine.entryOf s.machine.currentDir r.1 = some pte ∧
    pte.frame < s.machine.pages.bitmapLen * 32 ∧ s.machine.pages.refCounts pte.frame = 1

/-- There is no room for a block of one page: no free range, or no free page although a range would have to be
    split. -/
def NoRoom (s : HeapState) : Prop :=
  ∀ fit ∈ findFit PAGE_SIZE s.ranges,
    fit.2.1.2 ≠ PAGE_SIZE ∧ s.machine.pages.bitmap.findFirst 0 s.machine.pages.bitmapLen = none

instance (s : HeapState) : Decidable s.NoRoom := inferInstanceAs (Decidable (∀ _ ∈ _, _))

section OnePage

variable {s : HeapState}

/-- The page tables of heap addresses. -/
theorem HeapOk.table (h : HeapOk s) {vaddr : Nat} (hlo : KERNEL_HEAP_START ≤ vaddr) (hhi : vaddr < KERNEL_HEAP_END) :
    ∃ table, s.machine.currentDir (vaddr / tableSpan) = some table := by
  apply h.tables
  · simp only [KERNEL_HEAP_START, KERNEL_PDE_IDX, KERNEL_VADDR, tableSpan, PAGE_SIZE] at hlo ⊢
    omega
  · simp only [KERNEL_HEAP_END, tableSpan, PAGE_SIZE] at hhi ⊢
    omega

/-- The page of a free range. -/
theorem HeapOk.nodePage (h : HeapOk s) {r : Segment} (hr : r ∈ s.ranges) :
    ∃ table pte, s.machine.currentDir (r.1 / tableSpan) = some table ∧
      s.machine.tables table (r.1 / PAGE_SIZE % 1024) = some pte ∧
      pte.frame < s.machine.pages.bitmapLen * 32 ∧ s.machine.pages.refCounts pte.frame = 1 := by
  obtain ⟨pte, hpte, hframe⟩ := h.node r hr
  obtain ⟨hlo, hhi⟩ := h.inside r hr
  have hpos := h.nonempty r hr
  obtain ⟨table, htable⟩ := h.table hlo (by omega)
  rw [Machine.entryOf, htable] at hpte
  exact ⟨table, pte, htable, hpte, hframe⟩

/-- The first page of a range is mapped behind a block, and unmapped at the start of the block. -/
theorem HeapOk.moveNode (h : HeapOk s) {r : Segment} (hr : r ∈ s.ranges) (addr : Nat) (haddr : addr % PAGE_SIZE = 0)
    (hlo : KERNEL_HEAP_START ≤ addr) (hhi : addr < KERNEL_HEAP_END) :
    Ensures (Machine.pagingCopyMapping addr r.1 sizeofRange PAGE_WRITE) s.machine fun result m1 =>
      result = .ok () ∧ Ensures (Machine.pagingUnmap r.1 sizeofRange) m1 fun _ m2 =>
        m2.pages = s.machine.pages ∧ Machine.SameDirs s.machine m2 ∧ m2.headers = s.machine.headers := by
  obtain ⟨table, pte, htable, hpte, hframe, hone⟩ := h.nodePage hr
  obtain ⟨table', htable'⟩ := h.table hlo hhi
  have hrAlign := h.aligned r hr
  have hrLt : r.1 < wordSize := by
    have hinside := (h.inside r hr).2
    simp only [KERNEL_HEAP_END, wordSize] at hinside ⊢
    omega
  have haddrLt : addr < wordSize := Nat.lt_trans hhi (by decide)
  have hentry : s.machine.entryOf s.machine.currentDir r.1 = some pte := by
    rw [Machine.entryOf, htable]
    exact hpte
  have hmax : s.machine.pages.refCounts pte.frame < UINT8_MAX := by
    rw [hone]
    decide
  rw [Ensures, Machine.pagingCopyMapping_one_page haddr hrAlign haddrLt hrLt (by decide) (by decide)]
  change Ensures (Machine.copyPageMapping addr r.1 PAGE_WRITE) s.machine _
  rw [Machine.copyPageMapping, ensures_bind, ensures_get, hentry]
  apply (Machine.linkPage_counts htable' hmax PAGE_WRITE).mono
  rintro result m1 ⟨rfl, habsent, hm1⟩
  refine ⟨rfl, ?_⟩
  have hdirs : Machine.SameDirs s.machine m1 := by
    rw [hm1]
    exact ⟨rfl, rfl, rfl⟩
  have hheaders : m1.headers = s.machine.headers := by
    rw [hm1]
    rfl
  have hpages : m1.pages = s.machine.pages.setCount pte.frame 2 := by
    rw [hm1, hone]
    rfl
  have htwo : m1.pages.refCounts pte.frame = 2 := by
    rw [hpages]
    exact Function.update_self _ _ _
  -- the entry at the start of the block is the old one
  have hkept : m1.tables table (r.1 / PAGE_SIZE % 1024) = some pte := by
    rw [hm1]
    rcases Machine.setEntry_cases
      { s.machine with pages := s.machine.pages.setCount pte.frame (s.machine.pages.refCounts pte.frame + 1) }
      table' (addr / PAGE_SIZE % 1024) table (r.1 / PAGE_SIZE % 1024)
      (some { frame := pte.frame, flags := PAGE_WRITE }) with ⟨rfl, heq, _⟩ | hsame
    · rw [heq, habsent] at hpte
      cases hpte
    · exact hsame.trans hpte
  have htable1 : m1.currentDir (r.1 / tableSpan) = some table := by
    rw [hdirs.currentDir]
    exact htable
  have hinside : pte.frame / 32 < m1.pages.bitmapLen := by
    rw [hpages]
    exact Nat.div_lt_of_lt_mul (Nat.mul_comm _ 32 ▸ hframe)
  rw [Ensures, Machine.pagingUnmap_one_page hrAlign hrLt (by decide) (by decide)]
  apply (Machine.unmapPage_counts htable1 hkept hinside (by rw [htwo]; decide) (by rw [htwo]; decide)).mono
  rintro _ m2 rfl
  refine ⟨?_, hdirs.trans ⟨rfl, rfl, rfl⟩, hheaders⟩
  change m1.pages.unref pte.frame = s.machine.pages
  rw [PageAllocator.unref, htwo, if_neg (by decide), hpages]
  have hcounts : Function.update (Function.update s.machine.pages.refCounts pte.frame 2) pte.frame (2 - 1) =
      s.machine.pages.refCounts := by
    rw [Function.update_idem, Function.update_eq_self_iff]
    exact hone.symm
  simp only [PageAllocator.setCount, hcounts]

/-- The first page of a range that is handed out as a whole becomes free. -/
theorem HeapOk.dropNode (h : HeapOk s) {r : Segment} (hr : r ∈ s.ranges) :
    Ensures (Machine.pagingUnmap r.1 sizeofRange) s.machine fun _ m =>
      m.pages.bitmap.findFirst 0 m.pages.bitmapLen ≠ none ∧ Machine.SameDirs s.machine m ∧
        m.headers = s.machine.headers := by
  obtain ⟨table, pte, htable, hpte, hframe, hone⟩ := h.nodePage hr
  have hrLt : r.1 < wordSize := by
    have hinside := (h.inside r hr).2
    simp only [KERNEL_HEAP_END, wordSize] at hinside ⊢
    omega
  rw [Ensures, Machine.pagingUnmap_one_page (h.aligned r hr) hrLt (by decide) (by decide)]
  have hinside : pte.frame / 32 < s.machine.pages.bitmapLen :=
    Nat.div_lt_of_lt_mul (Nat.mul_comm _ 32 ▸ hframe)
  apply (Machine.unmapPage_counts htable hpte hinside (by rw [hone]; decide) (by rw [hone]; decide)).mono
  rintro _ m rfl
  refine ⟨?_, ⟨rfl, rfl, rfl⟩, rfl⟩
  change (PageAllocator.unref s.machine.pages pte.frame).bitmap.findFirst 0
    (PageAllocator.unref s.machine.pages pte.frame).bitmapLen ≠ none
  rw [PageAllocator.unref, if_pos hone]
  intro hnone
  have hclear := BitSet.findFirst_eq_none (w := 32) (by decide) hnone (Nat.zero_le (0 * 32 + pte.frame)) (by
    change 0 * 32 + pte.frame < (0 + s.machine.pages.bitmapLen) * 32
    omega)
  rw [Nat.zero_mul, Nat.zero_add] at hclear
  have hset : (s.machine.pages.bitmap.insert pte.frame).mem pte.frame = true := by
    rw [BitSet.mem_insert (by decide)]
    simp
  rw [PageAllocator.release, hset] at hclear
  cases hclear

/-- A range for a block of one page. -/
theorem HeapOk.rangeAllocatorAlloc_page (h : HeapOk s) {size : Nat} (hpos : 0 < size) (hle : size ≤ PAGE_SIZE) :
    Ensures (rangeAllocatorAlloc size) s fun r s1 =>
      (∀ e, r = .error e → findFit PAGE_SIZE s.ranges = none ∧ s1 = s) ∧
      ∀ addr, r = .ok addr → ∃ before it behind, findFit PAGE_SIZE s.ranges = some (before, it, behind) ∧
        addr = it.1 ∧ Machine.SameDirs s.machine s1.machine ∧ s1.machine.headers = s.machine.headers ∧
        (it.2 = PAGE_SIZE → s1.machine.pages.bitmap.findFirst 0 s1.machine.pages.bitmapLen ≠ none) ∧
        (it.2 ≠ PAGE_SIZE → s1.machine.pages = s.machine.pages) := by
  have hround : roundUp size = PAGE_SIZE := by
    rw [roundUp_of_le (Nat.le_trans hle (by decide))]
    simp only [PAGE_SIZE] at hle ⊢
    omega
  -- the size of a page stays folded, so that no step looks into addresses
  obtain ⟨n, hn⟩ : ∃ n, n = PAGE_SIZE := ⟨_, rfl⟩
  rw [rangeAllocatorAlloc, hround, ← hn, ensures_bind, ensures_get, ensures_bind]
  apply ensures_require.2
  intro _
  cases hfit : findFit n s.ranges with
  | none => exact ⟨fun e _ => ⟨rfl, rfl⟩, nofun⟩
  | some fit =>
      obtain ⟨before, it, behind⟩ := fit
      obtain ⟨hranges, hfits⟩ := findFit_eq_some hfit
      have hit : it ∈ s.ranges := by
        rw [hranges]
        exact List.mem_append_right _ List.mem_cons_self
      dsimp only
      split_ifs with hwhole
      · rw [ensures_bind, setRanges, ensures_modify, ensures_bind, onMachine, ensures_focus]
        apply (h.dropNode hit).mono
        intro _ m ⟨hfree, hdirs, hheaders⟩
        refine ⟨nofun, ?_⟩
        rintro addr ⟨⟩
        exact ⟨before, it, behind, rfl, rfl, hdirs, hheaders, fun _ => hfree, fun hne => absurd hwhole hne⟩
      · obtain ⟨hlo, hhi⟩ := h.inside it hit
        have hmod : (it.1 + n) % wordSize = it.1 + n := by
          apply Nat.mod_eq_of_lt
          simp only [KERNEL_HEAP_END, wordSize] at hhi ⊢
          omega
        have halign : (it.1 + n) % PAGE_SIZE = 0 := by
          rw [hn, Nat.add_mod_right]
          exact h.aligned it hit
        have hlo' : KERNEL_HEAP_START ≤ it.1 + n := Nat.le_trans hlo (Nat.le_add_right _ _)
        have hhi' : it.1 + n < KERNEL_HEAP_END :=
          Nat.lt_of_lt_of_le (Nat.add_lt_add_left (Nat.lt_of_le_of_ne hfits (Ne.symm hwhole)) it.1) hhi
        rw [hmod, ensures_bind, onMachine, ensures_focus]
        apply (h.moveNode hit (it.1 + n) halign hlo' hhi').mono
        intro result m1 ⟨hresult, hmove⟩
        subst hresult
        dsimp only
        rw [ensures_bind, onMachine, ensures_focus]
        apply hmove.mono
        intro _ m2 ⟨hpages, hdirs, hheaders⟩
        rw [ensures_bind, setRanges, ensures_modify]
        refine ⟨nofun, ?_⟩
        rintro addr ⟨⟩
        exact ⟨before, it, behind, rfl, rfl, hdirs, hheaders, fun heq => absurd heq hwhole, fun _ => hpages⟩

/-- `kaligned_alloc`, for a block of one page: it fails exactly when there is no room, and then no page and no block has
    changed; otherwise a block has been added at the start of a free range. -/
theorem HeapOk.kalignedAlloc_page (h : HeapOk s) {alignment size : Nat} (hpos : 0 < size)
    (hle : Machine.dataOffset alignment + size ≤ PAGE_SIZE) :
    Ensures (kalignedAlloc alignment size) s fun r s' =>
      (r = none → s.NoRoom ∧ s'.machine.pages = s.machine.pages ∧ s'.machine.headers = s.machine.headers) ∧
      ∀ ptr, r = some ptr → ¬s.NoRoom ∧ ∃ range ∈ s.ranges, s'.machine.headers range.1 ≠ none := by
  have hmod : (Machine.dataOffset alignment + size) % wordSize = Machine.dataOffset alignment + size :=
    Nat.mod_eq_of_lt (Nat.lt_of_le_of_lt hle (by decide))
  rw [kalignedAlloc, if_neg (Nat.ne_of_gt hpos), ensures_bind]
  apply ensures_require.2
  intro _
  rw [hmod, ensures_bind]
  apply (h.rangeAllocatorAlloc_page (Nat.add_pos_right _ hpos) hle).mono
  rintro r s1 ⟨hfail, hok⟩
  cases r with
  | error e =>
      obtain ⟨hnone, rfl⟩ := hfail e rfl
      refine ⟨fun _ => ⟨?_, rfl, rfl⟩, by simp⟩
      rw [NoRoom, hnone]
      simp
  | ok addr =>
      obtain ⟨before, it, behind, hfit, rfl, hdirs, hheaders, hwhole, hsplit⟩ := hok _ rfl
      obtain ⟨hranges, hfits⟩ := findFit_eq_some hfit
      have hit : it ∈ s.ranges := by
        rw [hranges]
        exact List.mem_append_right _ List.mem_cons_self
      obtain ⟨hlo, hhi⟩ := h.inside it hit
      have hpos' := h.nonempty it hit
      obtain ⟨table, htable⟩ := h.table hlo (by omega)
      have htable1 : s1.machine.currentDir (it.1 / tableSpan) = some table := by
        rw [hdirs.currentDir]
        exact htable
      have hroom : s.NoRoom ↔ it.2 ≠ PAGE_SIZE ∧
          s.machine.pages.bitmap.findFirst 0 s.machine.pages.bitmapLen = none := by
        rw [NoRoom, hfit]
        simp
      have hlt : it.1 < wordSize := by
        simp only [KERNEL_HEAP_END, wordSize] at hhi ⊢
        omega
      have hmap : Machine.pagingMapToFreePages it.1 (Machine.dataOffset alignment + size) (PAGE_WRITE ||| PAGE_GLOBAL)
          s1.machine = Machine.mapPageToFreePage it.1 (PAGE_WRITE ||| PAGE_GLOBAL) s1.machine :=
        Machine.pagingMapToFreePages_one_page (h.aligned it hit) hlt (Nat.add_pos_right _ hpos) hle
      have hcounts := Machine.mapPageToFreePage_counts htable1 (PAGE_WRITE ||| PAGE_GLOBAL)
      rw [Ensures, ← hmap] at hcounts
      have hkept := Machine.pagingMapToFreePages_headers it.1 (Machine.dataOffset alignment + size)
        (PAGE_WRITE ||| PAGE_GLOBAL) s1.machine
      dsimp only
      rw [ensures_bind, onMachine, ensures_focus]
      apply ensures_iff.2
      intro result m2 hrun
      have hcounts2 := ensures_iff.1 hcounts result m2 hrun
      have hkept2 := ensures_iff.1 hkept result m2 hrun
      cases result with
      | error e =>
          obtain rfl := hcounts2.2 (by simp)
          have hnone := not_ne_iff.1 (mt hcounts2.1.2 (by simp))
          refine ⟨fun _ => ?_, by simp⟩
          have hne : it.2 ≠ PAGE_SIZE := fun heq => hwhole heq hnone
          rw [hsplit hne] at hnone
          exact ⟨hroom.2 ⟨hne, hnone⟩, hsplit hne, hheaders⟩
      | ok u =>
          refine ⟨by simp, ?_⟩
          rintro ptr ⟨⟩
          refine ⟨?_, it, hit, ?_⟩
          · intro hno
            obtain ⟨hne, hnone⟩ := hroom.1 hno
            exact hcounts2.1.1 rfl (by rw [hsplit hne, hnone])
          · change Function.update m2.headers it.1 (some (Machine.dataOffset alignment + size)) it.1 ≠ none
            rw [Function.update_self]
            exact Option.some_ne_none _

end OnePage

end HeapState

end Chaotix
