/-
Module: Chaotix.Proofs.PageExclusivity
Layer: Proofs
Purpose: The bitmap, the saturating counts and the amount of free memory agree over every run of the
  page allocator from what `bitmap_init` leaves, as long as nobody takes a reference to a page that is
  free. `PageInvariant` is the inductive invariant. A reference to a free page is not refused, and the
  allocator then fails an `ASSERT` when it hands that page out.
Imports: Mathlib.Tactic, Chaotix.Kernel.PageAllocator
Trusted boundary: none
Main exports: PageExclusivity, PageGuard, PageInvariant, bitmapInit_ensures, pageInvariant_step,
  page_exclusivity, refPage_of_free_page_breaks_alloc
-/
import Mathlib.Tactic
import Chaotix.Kernel.PageAllocator

namespace Chaotix

/-! ### What each function returns -/

theorem bitmapGet_eq {a : PageAllocator} {i : Nat} (h : i / 32 < a.bitmapLen) :
    bitmapGet i a = .ok (a.bitmap.mem i, a) := by
  simp [bitmapGet, assert, h]

theorem bitmapSet_eq {a : PageAllocator} {i : Nat} (h : i / 32 < a.bitmapLen) :
    bitmapSet i a = .ok ((), { a with bitmap := a.bitmap.insert i }) := by
  simp [bitmapSet, assert, h]

theorem bitmapClear_eq {a : PageAllocator} {i : Nat} (h : i / 32 < a.bitmapLen) :
    bitmapClear i a = .ok ((), { a with bitmap := a.bitmap.erase i }) := by
  simp [bitmapClear, assert, h]

/-- The allocator after page `i` has been handed out. -/
def PageAllocator.take (a : PageAllocator) (i : Nat) : PageAllocator :=
  { a with
    bitmap := a.bitmap.erase i
    refCounts := Function.update a.refCounts i 1
    free := (a.free + wordSize - PAGE_SIZE / 1024) % wordSize }

/-- The allocator with another reference count for page `i`. -/
def PageAllocator.setCount (a : PageAllocator) (i count : Nat) : PageAllocator :=
  { a with refCounts := Function.update a.refCounts i count }

/-- The allocator after the last reference to page `i` is gone. -/
def PageAllocator.release (a : PageAllocator) (i : Nat) : PageAllocator :=
  { a with
    bitmap := a.bitmap.insert i
    refCounts := Function.update a.refCounts i 0
    free := (a.free + PAGE_SIZE / 1024) % wordSize }

theorem pageAllocatorAlloc_none {a : PageAllocator}
    (h : a.bitmap.findFirst 0 a.bitmapLen = none) :
    pageAllocatorAlloc a = .ok (.error .ENOMEM, a) := by
  simp [pageAllocatorAlloc, bitmapFindFirstSet, h]

theorem pageAllocatorAlloc_some {a : PageAllocator} {i : Nat}
    (h : a.bitmap.findFirst 0 a.bitmapLen = some i) (hi : i / 32 < a.bitmapLen)
    (hcount : a.refCounts i = 0) :
    pageAllocatorAlloc a = .ok (.ok (i * PAGE_SIZE), a.take i) := by
  simp [pageAllocatorAlloc, bitmapFindFirstSet, h, bitmapClear_eq hi, assert, hcount,
    PageAllocator.take]

/-- An allocation that finds a free page with a count stops. -/
theorem pageAllocatorAlloc_counted {a : PageAllocator} {i : Nat}
    (h : a.bitmap.findFirst 0 a.bitmapLen = some i) (hi : i / 32 < a.bitmapLen)
    (hcount : a.refCounts i ≠ 0) : pageAllocatorAlloc a = .error .panic := by
  simp [pageAllocatorAlloc, bitmapFindFirstSet, h, bitmapClear_eq hi, assert, hcount]

theorem pageAllocatorRefPage_eq {a : PageAllocator} {addr : Nat} (h : addr % PAGE_SIZE = 0) :
    pageAllocatorRefPage addr a =
      .ok ((), if a.refCounts (addr / PAGE_SIZE) < UINT8_MAX then
          a.setCount (addr / PAGE_SIZE) (a.refCounts (addr / PAGE_SIZE) + 1)
        else a) := by
  simp only [pageAllocatorRefPage, assert, Program.run_bind, Program.run_require, h, if_true,
    Program.run_get]
  split <;> rfl

theorem pageAllocatorUnrefPage_eq {a : PageAllocator} {addr : Nat} (h : addr % PAGE_SIZE = 0)
    (hinside : addr / PAGE_SIZE / 32 < a.bitmapLen) (hcount : 0 < a.refCounts (addr / PAGE_SIZE)) :
    pageAllocatorUnrefPage addr a =
      .ok ((), if a.refCounts (addr / PAGE_SIZE) < UINT8_MAX then
          if a.refCounts (addr / PAGE_SIZE) = 1 then a.release (addr / PAGE_SIZE)
          else a.setCount (addr / PAGE_SIZE) (a.refCounts (addr / PAGE_SIZE) - 1)
        else a) := by
  simp only [pageAllocatorUnrefPage, assert, Program.run_bind, Program.run_require, h, if_true,
    Program.run_get, gt_iff_lt, hcount]
  by_cases hmax : a.refCounts (addr / PAGE_SIZE) < UINT8_MAX
  · by_cases hone : a.refCounts (addr / PAGE_SIZE) = 1
    · simp [hone, bitmapSet, assert, hinside, PageAllocator.release]
    · have hne : a.refCounts (addr / PAGE_SIZE) - 1 ≠ 0 := by omega
      simp [hmax, hone, hne, PageAllocator.setCount]
  · simp [hmax]

/-- What an allocation does, in full. -/
theorem PagesOk.alloc_cases {a : PageAllocator} (ok : PagesOk a) :
    pageAllocatorAlloc a = .ok (.error .ENOMEM, a) ∨
    ∃ i, a.bitmap.mem i = true ∧ pageAllocatorAlloc a = .ok (.ok (i * PAGE_SIZE), a.take i) := by
  cases h : a.bitmap.findFirst 0 a.bitmapLen with
  | none => exact Or.inl (pageAllocatorAlloc_none h)
  | some i =>
      obtain ⟨hmem, _, _⟩ := BitSet.findFirst_eq_some h
      obtain ⟨hi, hcount⟩ := ok i hmem
      have hlen : i / 32 < a.bitmapLen := Nat.div_lt_of_lt_mul (Nat.mul_comm _ 32 ▸ hi)
      exact Or.inr ⟨i, hmem, pageAllocatorAlloc_some h hlen hcount⟩

/-- The number of free pages. -/
def PageAllocator.freePages (a : PageAllocator) : Nat := (a.bitmap.elements (a.bitmapLen * 32)).card

/-- An allocation succeeds while there is a free page. -/
theorem PagesOk.alloc_of_free {a : PageAllocator} (ok : PagesOk a) (hfree : 0 < a.freePages) :
    ∃ i, a.bitmap.mem i = true ∧ pageAllocatorAlloc a = .ok (.ok (i * PAGE_SIZE), a.take i) := by
  rcases ok.alloc_cases with hnone | hsome
  · obtain ⟨i, hi⟩ := Finset.card_pos.1 hfree
    obtain ⟨hlt, hmem⟩ := BitSet.mem_elements.1 hi
    cases hfirst : a.bitmap.findFirst 0 a.bitmapLen with
    | none =>
        have hclear := BitSet.findFirst_eq_none (w := 32) (by decide) hfirst (Nat.zero_le i) (by omega)
        rw [hmem] at hclear
        cases hclear
    | some j =>
        obtain ⟨hj, _, _⟩ := BitSet.findFirst_eq_some hfirst
        obtain ⟨hlt', hcount⟩ := ok j hj
        rw [pageAllocatorAlloc_some hfirst (Nat.div_lt_of_lt_mul (Nat.mul_comm _ 32 ▸ hlt')) hcount] at hnone
        cases hnone
  · exact hsome

theorem PagesOk.freePages_take {a : PageAllocator} (ok : PagesOk a) {i : Nat} (hfree : a.bitmap.mem i = true) :
    (a.take i).freePages + 1 = a.freePages :=
  BitSet.card_elements_erase (by decide) (ok i hfree).1 hfree

/-! ### What `bitmap_init` leaves -/

/-- The bits that may be set while the bitmap is being filled: the last page below 4 GiB is never among
    them, since a region ends at most there. -/
structure BitmapFilling (len : Nat) (a : PageAllocator) : Prop where
  len_eq : a.bitmapLen = len
  counts : a.refCounts = fun _ => 0
  bits : ∀ i, a.bitmap.mem i = true → i < len * 32 ∧ i + 1 < MAX_NUM_PAGES

theorem bitmapSet_ensures {len i : Nat} {a : PageAllocator} (inv : BitmapFilling len a)
    (hi : i + 1 < MAX_NUM_PAGES) : Ensures (bitmapSet i) a fun _ a' => BitmapFilling len a' := by
  simp only [bitmapSet, ensures_bind, ensures_get, assert, ensures_require, ensures_set]
  intro hlen
  refine ⟨inv.len_eq, inv.counts, ?_⟩
  intro j hj
  rw [BitSet.mem_insert (by decide)] at hj
  rcases Bool.or_eq_true_iff.1 hj with hj | hj
  · exact inv.bits j hj
  · obtain rfl : j = i := of_decide_eq_true hj
    have := inv.len_eq
    omega

theorem bitmapClear_ensures {len i : Nat} {a : PageAllocator} (inv : BitmapFilling len a) :
    Ensures (bitmapClear i) a fun _ a' => BitmapFilling len a' := by
  simp only [bitmapClear, ensures_bind, ensures_get, assert, ensures_require, ensures_set]
  intro hlen
  refine ⟨inv.len_eq, inv.counts, ?_⟩
  intro j hj
  rw [BitSet.mem_erase (by decide)] at hj
  exact inv.bits j (Bool.and_eq_true_iff.1 hj).1

theorem bitmapAddRegion_ensures {len lowerBound : Nat} {entry : MultibootMmapEntry}
    {a : PageAllocator} (inv : BitmapFilling len a) :
    Ensures (bitmapAddRegion lowerBound entry) a fun _ a' => BitmapFilling len a' := by
  have hend : (entry.addr + entry.len).toNat % wordSize / PAGE_SIZE < MAX_NUM_PAGES := by
    simp only [wordSize, PAGE_SIZE, MAX_NUM_PAGES]
    omega
  unfold bitmapAddRegion
  split
  · exact inv
  · extract_lets entryStart entryEnd
    split
    · exact inv
    · apply Ensures.forRange (fun _ => BitmapFilling len) inv
      intro j t _ hhi hinv
      apply bitmapSet_ensures hinv
      exact Nat.lt_of_le_of_lt (Nat.succ_le_of_lt hhi) hend

/-- What `bitmap_init` leaves: free pages count 0, every other page of the bitmap counts 255, and the
    free memory is that of the set bits. -/
structure BitmapReady (a : PageAllocator) : Prop where
  bits : ∀ i, a.bitmap.mem i = true → i < a.bitmapLen * 32 ∧ i + 1 < MAX_NUM_PAGES
  counts : ∀ i, a.refCounts i =
    if i < a.bitmapLen * 32 ∧ a.bitmap.mem i = false then UINT8_MAX else 0
  free_eq : a.free = 4 * (a.bitmap.elements (a.bitmapLen * 32)).card
  len_le : a.bitmapLen ≤ BITMAP_MAX_LEN

/-- Fewer than `MAX_NUM_PAGES` bits are set when the last one is clear. -/
theorem card_elements_lt {b : BitSet 32} {n : Nat}
    (h : ∀ i, b.mem i = true → i + 1 < MAX_NUM_PAGES) : (b.elements n).card < MAX_NUM_PAGES := by
  have hsub : b.elements n ⊆ Finset.range (MAX_NUM_PAGES - 1) := by
    intro i hi
    have := h i (BitSet.mem_elements.1 hi).2
    exact Finset.mem_range.2 (by omega)
  have hcard := Finset.card_le_card hsub
  rw [Finset.card_range] at hcard
  exact Nat.lt_of_le_of_lt hcard (by decide)

/-- The state in the middle of the last loop of `bitmap_init`: the pages below `i` are counted. -/
structure BitmapCounting (len i numPages : Nat) (a : PageAllocator) : Prop where
  len_eq : a.bitmapLen = len
  bits : ∀ i, a.bitmap.mem i = true → i < len * 32 ∧ i + 1 < MAX_NUM_PAGES
  counts : ∀ j, a.refCounts j = if j < i ∧ a.bitmap.mem j = false then UINT8_MAX else 0
  pages : numPages = (a.bitmap.elements i).card

theorem elements_succ (b : BitSet 32) (n : Nat) :
    (b.elements (n + 1)).card = (b.elements n).card + if b.mem n = true then 1 else 0 := by
  unfold BitSet.elements
  rw [Finset.range_add_one, Finset.filter_insert]
  split
  · rw [Finset.card_insert_of_notMem (by simp)]
  · rfl

theorem bitmapInitCount_ensures {len i numPages : Nat} {a : PageAllocator}
    (inv : BitmapCounting len i numPages a) :
    Ensures (bitmapInitCount i numPages) a fun n a' => BitmapCounting len (i + 1) n a' := by
  simp only [bitmapInitCount, bitmapGet, ensures_bind, ensures_get, assert, ensures_require,
    ensures_pure]
  intro _
  have hpages := inv.pages
  have hsucc := elements_succ a.bitmap i
  split
  · rename_i hmem
    refine ⟨inv.len_eq, inv.bits, ?_, ?_⟩
    · intro j
      rw [inv.counts j]
      apply if_congr _ rfl rfl
      constructor
      · rintro ⟨hj, hclear⟩
        exact ⟨by omega, hclear⟩
      · rintro ⟨hj, hclear⟩
        have : j ≠ i := by
          rintro rfl
          simp [hmem] at hclear
        exact ⟨by omega, hclear⟩
    · rw [hsucc, if_pos hmem, hpages]
  · rename_i hmem
    rw [ensures_bind, ensures_modify, ensures_pure]
    refine ⟨inv.len_eq, inv.bits, ?_, ?_⟩
    · intro j
      dsimp only
      by_cases hj : j = i
      · subst hj
        simp [hmem]
      · rw [Function.update_of_ne hj, inv.counts j]
        apply if_congr _ rfl rfl
        exact and_congr_left fun _ => by omega
    · rw [hsucc, if_neg hmem, hpages, Nat.add_zero]

theorem bitmapAddRegions_ensures {len lowerBound upperBound : Nat} (mbInfo : MultibootInfo)
    {a : PageAllocator} (hupper : upperBound < wordSize) (inv : BitmapFilling len a) :
    Ensures (bitmapAddRegions mbInfo lowerBound upperBound) a fun _ a' => BitmapFilling len a' := by
  unfold bitmapAddRegions
  split
  · apply Ensures.forM _ inv
    intro entry _ t ht
    exact bitmapAddRegion_ensures ht
  · apply Ensures.forRange (fun _ => BitmapFilling len) inv
    intro j t _ hhi hinv
    apply bitmapSet_ensures hinv
    simp only [PAGE_SIZE, MAX_NUM_PAGES, wordSize] at hhi hupper ⊢
    omega

theorem bitmapRemoveModules_ensures {len : Nat} (mbInfo : MultibootInfo) {a : PageAllocator}
    (inv : BitmapFilling len a) :
    Ensures (bitmapRemoveModules mbInfo) a fun _ a' => BitmapFilling len a' := by
  unfold bitmapRemoveModules
  split
  · apply Ensures.forM _ inv
    intro mod _ t ht
    apply Ensures.forRange (fun _ => BitmapFilling len) ht
    intro j t _ _ hinv
    exact bitmapClear_ensures hinv
  · exact inv

theorem bitmapInit_ensures (mbInfo : MultibootInfo) (lowerBound upperBound : UInt32) :
    Ensures (bitmapInit mbInfo lowerBound upperBound) {} fun _ a => BitmapReady a := by
  simp only [bitmapInit, ensures_bind, assert, ensures_require, ensures_modify]
  intro hmax
  have hstart : BitmapFilling (divCeil upperBound.toNat (PAGE_SIZE * 32))
      { bitmapLen := divCeil upperBound.toNat (PAGE_SIZE * 32) } := ⟨rfl, rfl, by simp [BitSet.mem]⟩
  generalize divCeil upperBound.toNat (PAGE_SIZE * 32) = len at hmax hstart ⊢
  apply (bitmapAddRegions_ensures mbInfo upperBound.toNat_lt hstart).mono
  intro _ a ha
  apply (bitmapRemoveModules_ensures mbInfo ha).mono
  intro _ b hb
  have hcount : Ensures (Program.foldRange 0 (len * 32) 0 bitmapInitCount) b fun n c =>
      BitmapCounting len (max 0 (len * 32)) n c := by
    apply Ensures.foldRange (BitmapCounting len)
    · exact ⟨hb.len_eq, hb.bits, by simp [hb.counts], by simp [BitSet.elements]⟩
    · intro j n t _ _ hinv
      exact bitmapInitCount_ensures hinv
  apply hcount.mono
  intro n c hc
  rw [Nat.zero_max] at hc
  have hcard := card_elements_lt (n := len * 32) fun i hi => (hc.bits i hi).2
  refine ⟨?_, ?_, ?_, ?_⟩
  · simpa only [hc.len_eq] using hc.bits
  · simpa only [hc.len_eq] using hc.counts
  · simp only [hc.len_eq, ← hc.pages] at hcard ⊢
    simp only [wordSize, PAGE_SIZE, MAX_NUM_PAGES] at hcard ⊢
    omega
  · exact hc.len_eq.trans_le hmax

/-! ### The property and the inductive invariant -/

/-- What holds in every state: an allocation gives out a page nobody refers to, no call stops, and the
    bitmap, the counts and the amount of free memory agree. -/
structure PageExclusivity (s : PageState) : Prop where
  alloc_fresh : ∀ addr a, pageAllocatorAlloc s.allocator = .ok (.ok addr, a) →
    s.outstanding (addr / PAGE_SIZE) = 0 ∧ s.reserved (addr / PAGE_SIZE) = false
  alloc_returns : Yields pageAllocatorAlloc s.allocator fun _ _ => True
  ref_returns : ∀ addr, s.Inside addr →
    Yields (pageAllocatorRefPage addr) s.allocator fun _ _ => True
  unref_returns : ∀ addr, s.Inside addr → 0 < s.outstanding (addr / PAGE_SIZE) →
    Yields (pageAllocatorUnrefPage addr) s.allocator fun _ _ => True
  bit_count : ∀ i, s.allocator.bitmap.mem i = true → s.allocator.refCounts i = 0
  count_eq : ∀ i, i < s.allocator.bitmapLen * 32 → s.saturated i = false →
    s.allocator.refCounts i = s.outstanding i
  free_eq : s.allocator.free = 4 * (s.allocator.bitmap.elements (s.allocator.bitmapLen * 32)).card

/-- References are taken only to pages that are not free. -/
def PageGuard (s : PageState) : PageEvent → Prop
  | .refPage addr => s.allocator.bitmap.mem (addr / PAGE_SIZE) = false
  | _ => True

/-- The inductive invariant. A saturated count stays at its largest value, and a reserved page has one
    from the start, so neither comes back to the bitmap. -/
structure PageInvariant (s : PageState) : Prop where
  bits : ∀ i, s.allocator.bitmap.mem i = true →
    i < s.allocator.bitmapLen * 32 ∧ i + 1 < MAX_NUM_PAGES ∧ s.reserved i = false
  bit_count : ∀ i, s.allocator.bitmap.mem i = true → s.allocator.refCounts i = 0
  saturated_iff : ∀ i, s.saturated i = true ↔ s.allocator.refCounts i = UINT8_MAX
  count_le : ∀ i, s.allocator.refCounts i ≤ UINT8_MAX
  reserved_saturated : ∀ i, i < s.allocator.bitmapLen * 32 → s.reserved i = true →
    s.saturated i = true
  count_eq : ∀ i, i < s.allocator.bitmapLen * 32 → s.saturated i = false →
    s.allocator.refCounts i = s.outstanding i
  free_eq : s.allocator.free = 4 * (s.allocator.bitmap.elements (s.allocator.bitmapLen * 32)).card
  last_reserved : s.reserved (MAX_NUM_PAGES - 1) = true
  len_le : s.allocator.bitmapLen ≤ BITMAP_MAX_LEN

namespace PageInvariant

variable {s : PageState}

theorem unsaturated_of_lt (inv : PageInvariant s) {i : Nat}
    (h : s.allocator.refCounts i < UINT8_MAX) : s.saturated i = false := by
  rw [Bool.eq_false_iff]
  intro hsat
  have := (inv.saturated_iff i).1 hsat
  omega

/-- A free page has no outstanding references. -/
theorem outstanding_of_free (inv : PageInvariant s) {i : Nat}
    (hfree : s.allocator.bitmap.mem i = true) : s.outstanding i = 0 := by
  have hcount := inv.bit_count i hfree
  have hunsaturated := inv.unsaturated_of_lt (i := i) (by rw [hcount]; decide)
  rw [← inv.count_eq i (inv.bits i hfree).1 hunsaturated, hcount]

/-- A page with outstanding references has a positive count. -/
theorem count_pos (inv : PageInvariant s) {i : Nat} (hi : i < s.allocator.bitmapLen * 32)
    (hout : 0 < s.outstanding i) : 0 < s.allocator.refCounts i := by
  cases hsat : s.saturated i with
  | true =>
      rw [(inv.saturated_iff i).1 hsat]
      decide
  | false => rwa [inv.count_eq i hi hsat]

/-- What an allocation needs of the bitmap and the counts. -/
theorem pagesOk (inv : PageInvariant s) : PagesOk s.allocator :=
  fun i hi => ⟨(inv.bits i hi).1, inv.bit_count i hi⟩

/-- The invariant contains the property. -/
theorem exclusivity (inv : PageInvariant s) : PageExclusivity s where
  alloc_fresh := by
    intro addr a halloc
    rcases inv.pagesOk.alloc_cases with hnone | ⟨i, hfree, hsome⟩
    · simp [hnone] at halloc
    · rw [hsome] at halloc
      simp only [Except.ok.injEq, Prod.mk.injEq] at halloc
      rw [← halloc.1, Nat.mul_div_cancel _ (by decide)]
      exact ⟨inv.outstanding_of_free hfree, (inv.bits i hfree).2.2⟩
  alloc_returns := by
    rcases inv.pagesOk.alloc_cases with hnone | ⟨i, _, hsome⟩
    · exact yields_of_return hnone trivial
    · exact yields_of_return hsome trivial
  ref_returns := by
    intro addr hinside
    exact yields_of_return (pageAllocatorRefPage_eq hinside.1) trivial
  unref_returns := by
    intro addr hinside hout
    have hcount := inv.count_pos hinside.2 hout
    have hlen := Nat.div_lt_of_lt_mul (Nat.mul_comm _ 32 ▸ hinside.2)
    exact yields_of_return (pageAllocatorUnrefPage_eq hinside.1 hlen hcount) trivial
  bit_count := inv.bit_count
  count_eq := inv.count_eq
  free_eq := inv.free_eq

/-- The amount of free memory is far from wrapping. -/
theorem free_lt (inv : PageInvariant s) : s.allocator.free < 4 * MAX_NUM_PAGES := by
  have hcard := card_elements_lt (n := s.allocator.bitmapLen * 32) fun i hi => (inv.bits i hi).2.1
  rw [inv.free_eq]
  omega

end PageInvariant

theorem pageInvariant_initial {a : PageAllocator} (ready : BitmapReady a) :
    PageInvariant (PageState.initial a) where
  bits := by
    intro i hi
    have := ready.bits i hi
    exact ⟨this.1, this.2, by simpa [PageState.initial] using hi⟩
  bit_count := by
    intro i hi
    simp only [PageState.initial] at hi ⊢
    simp [ready.counts i, hi]
  saturated_iff := by simp [PageState.initial]
  count_le := by
    intro i
    simp only [PageState.initial]
    rw [ready.counts i]
    split <;> decide
  reserved_saturated := by
    intro i hi hreserved
    simp only [PageState.initial, Bool.not_eq_true', beq_iff_eq] at hi hreserved ⊢
    rw [ready.counts i, if_pos ⟨hi, hreserved⟩]
  count_eq := by
    intro i hi hunsaturated
    simp only [PageState.initial, beq_eq_false_iff_ne] at hi hunsaturated ⊢
    rw [ready.counts i] at hunsaturated ⊢
    split_ifs at hunsaturated ⊢ with h
    · exact absurd rfl hunsaturated
    · rfl
  free_eq := ready.free_eq
  last_reserved := by
    simp only [PageState.initial, Bool.not_eq_true']
    rw [Bool.eq_false_iff]
    intro hmem
    have := (ready.bits _ hmem).2
    simp [MAX_NUM_PAGES] at this
  len_le := ready.len_le

/-! ### Every step keeps the invariant -/

section Steps

variable {s : PageState}

/-- A call that gives page `i` a count that agrees with its references, and leaves the bitmap alone,
    keeps the invariant. -/
theorem pageInvariant_setCount (inv : PageInvariant s) {i count out : Nat}
    (hclear : s.allocator.bitmap.mem i = false) (hold : s.saturated i = false)
    (hle : count ≤ UINT8_MAX) (hcount : i < s.allocator.bitmapLen * 32 → count = out) :
    PageInvariant
      (s.after (s.allocator.setCount i count) (Function.update s.outstanding i out)) where
  bits := inv.bits
  bit_count := by
    intro j hj
    have hji : j ≠ i := by
      rintro rfl
      simp [PageState.after, PageAllocator.setCount, hclear] at hj
    simpa [PageState.after, PageAllocator.setCount, hji] using inv.bit_count j hj
  saturated_iff := by
    intro j
    by_cases hji : j = i
    · subst hji
      simp [PageState.after, PageAllocator.setCount, hold]
    · simp [PageState.after, PageAllocator.setCount, hji, inv.saturated_iff j]
  count_le := by
    intro j
    by_cases hji : j = i
    · subst hji
      simpa [PageState.after, PageAllocator.setCount] using hle
    · simpa [PageState.after, PageAllocator.setCount, hji] using inv.count_le j
  reserved_saturated := by
    intro j hj hreserved
    simp [PageState.after, inv.reserved_saturated j hj hreserved]
  count_eq := by
    intro j hj hsat
    simp only [PageState.after, Bool.or_eq_false_iff] at hsat
    by_cases hji : j = i
    · subst hji
      simpa [PageState.after, PageAllocator.setCount] using hcount hj
    · simpa [PageState.after, PageAllocator.setCount, hji] using inv.count_eq j hj hsat.1
  free_eq := inv.free_eq
  last_reserved := inv.last_reserved
  len_le := inv.len_le

/-- A call that leaves the allocator as it is keeps the invariant, when the references it changes are
    those of a saturated page. -/
theorem pageInvariant_unchanged (inv : PageInvariant s) {out : Nat → Nat}
    (hout : ∀ i, s.saturated i = false → out i = s.outstanding i) :
    PageInvariant (s.after s.allocator out) where
  bits := inv.bits
  bit_count := inv.bit_count
  saturated_iff := by
    intro i
    simp [PageState.after, inv.saturated_iff i]
  count_le := inv.count_le
  reserved_saturated := by
    intro i hi hreserved
    simp [PageState.after, inv.reserved_saturated i hi hreserved]
  count_eq := by
    intro i hi hsat
    simp only [PageState.after, Bool.or_eq_false_iff] at hi hsat ⊢
    rw [hout i hsat.1]
    exact inv.count_eq i hi hsat.1
  free_eq := inv.free_eq
  last_reserved := inv.last_reserved
  len_le := inv.len_le

/-- The count of a saturated page stays, so its references may change. -/
theorem pageInvariant_saturated (inv : PageInvariant s) {i out : Nat}
    (hmax : ¬s.allocator.refCounts i < UINT8_MAX) :
    PageInvariant (s.after s.allocator (Function.update s.outstanding i out)) := by
  apply pageInvariant_unchanged inv
  intro j hsat
  have hji : j ≠ i := by
    rintro rfl
    have hmax' := Nat.le_antisymm (inv.count_le j) (Nat.le_of_not_lt hmax)
    simp [(inv.saturated_iff j).2 hmax'] at hsat
  exact Function.update_of_ne hji _ _

theorem pageInvariant_alloc (inv : PageInvariant s) {i : Nat}
    (hfree : s.allocator.bitmap.mem i = true) :
    PageInvariant
      (s.after (s.allocator.take i) (Function.update s.outstanding i (s.outstanding i + 1))) := by
  have hi := (inv.bits i hfree).1
  have hzero := inv.outstanding_of_free hfree
  have hunsaturated : s.saturated i = false :=
    inv.unsaturated_of_lt (by rw [inv.bit_count i hfree]; decide)
  have hcard := BitSet.card_elements_erase (by decide) hi hfree
  refine ⟨?_, ?_, ?_, ?_, ?_, ?_, ?_, inv.last_reserved, inv.len_le⟩
  · intro j hj
    simp only [PageState.after, PageAllocator.take, BitSet.mem_erase (w := 32) (by decide),
      Bool.and_eq_true] at hj
    exact inv.bits j hj.1
  · intro j hj
    simp only [PageState.after, PageAllocator.take, BitSet.mem_erase (w := 32) (by decide),
      Bool.and_eq_true, decide_eq_true_eq] at hj ⊢
    rw [Function.update_of_ne hj.2]
    exact inv.bit_count j hj.1
  · intro j
    by_cases hji : j = i
    · subst hji
      simp [PageState.after, PageAllocator.take, hunsaturated]
    · simp [PageState.after, PageAllocator.take, hji, inv.saturated_iff j]
  · intro j
    by_cases hji : j = i
    · subst hji
      simp [PageState.after, PageAllocator.take]
    · simpa [PageState.after, PageAllocator.take, hji] using inv.count_le j
  · intro j hj hreserved
    simp [PageState.after, inv.reserved_saturated j hj hreserved]
  · intro j hj hsat
    simp only [PageState.after, Bool.or_eq_false_iff] at hsat
    by_cases hji : j = i
    · subst hji
      simp [PageState.after, PageAllocator.take, hzero]
    · simpa [PageState.after, PageAllocator.take, hji] using inv.count_eq j hj hsat.1
  · have hlt := inv.free_lt
    have heq := inv.free_eq
    simp only [PageState.after, PageAllocator.take]
    simp only [MAX_NUM_PAGES, wordSize, PAGE_SIZE] at hlt ⊢
    omega

theorem pageInvariant_release (inv : PageInvariant s) {i : Nat}
    (hi : i < s.allocator.bitmapLen * 32) (hone : s.allocator.refCounts i = 1)
    (hout : s.outstanding i = 1) :
    PageInvariant (s.after (s.allocator.release i) (Function.update s.outstanding i 0)) := by
  have hunsaturated := inv.unsaturated_of_lt (i := i) (by rw [hone]; decide)
  have hunreserved : s.reserved i = false := by
    rw [Bool.eq_false_iff]
    intro hreserved
    simp [inv.reserved_saturated i hi hreserved] at hunsaturated
  have hclear : s.allocator.bitmap.mem i = false := by
    rw [Bool.eq_false_iff]
    intro hmem
    have := inv.bit_count i hmem
    omega
  have hlast : i + 1 < MAX_NUM_PAGES := by
    have hlen := inv.len_le
    have hne : i ≠ MAX_NUM_PAGES - 1 := by
      rintro rfl
      exact Bool.false_ne_true (hunreserved.symm.trans inv.last_reserved)
    simp only [BITMAP_MAX_LEN, MAX_NUM_PAGES] at hlen hne ⊢
    omega
  have hcard := BitSet.card_elements_insert (by decide) hi hclear
  refine ⟨?_, ?_, ?_, ?_, ?_, ?_, ?_, inv.last_reserved, inv.len_le⟩
  · intro j hj
    simp only [PageState.after, PageAllocator.release, BitSet.mem_insert (w := 32) (by decide),
      Bool.or_eq_true, decide_eq_true_eq] at hj
    rcases hj with hj | rfl
    · exact inv.bits j hj
    · exact ⟨hi, hlast, hunreserved⟩
  · intro j hj
    simp only [PageState.after, PageAllocator.release, BitSet.mem_insert (w := 32) (by decide),
      Bool.or_eq_true, decide_eq_true_eq] at hj ⊢
    by_cases hji : j = i
    · subst hji
      simp
    · rw [Function.update_of_ne hji]
      exact inv.bit_count j (hj.resolve_right hji)
  · intro j
    by_cases hji : j = i
    · subst hji
      simp [PageState.after, PageAllocator.release, hunsaturated]
    · simp [PageState.after, PageAllocator.release, hji, inv.saturated_iff j]
  · intro j
    by_cases hji : j = i
    · subst hji
      simp [PageState.after, PageAllocator.release]
    · simpa [PageState.after, PageAllocator.release, hji] using inv.count_le j
  · intro j hj hreserved
    simp [PageState.after, inv.reserved_saturated j hj hreserved]
  · intro j hj hsat
    simp only [PageState.after, Bool.or_eq_false_iff] at hsat
    by_cases hji : j = i
    · subst hji
      simp [PageState.after, PageAllocator.release]
    · simpa [PageState.after, PageAllocator.release, hji] using inv.count_eq j hj hsat.1
  · have hlt := inv.free_lt
    have heq := inv.free_eq
    simp only [PageState.after, PageAllocator.release]
    simp only [MAX_NUM_PAGES, wordSize, PAGE_SIZE] at hlt ⊢
    omega

end Steps

/-- Every guarded step keeps the invariant. -/
theorem pageInvariant_step {s s' : PageState} {e : PageEvent} (inv : PageInvariant s)
    (guard : PageGuard s e) (step : PageStep s e s') : PageInvariant s' := by
  cases step with
  | alloc addr a halloc =>
      rcases inv.pagesOk.alloc_cases with hnone | ⟨i, hfree, hsome⟩
      · simp [hnone] at halloc
      · rw [hsome] at halloc
        simp only [Except.ok.injEq, Prod.mk.injEq] at halloc
        obtain ⟨rfl, rfl⟩ := halloc
        rw [Nat.mul_div_cancel _ (by decide)]
        exact pageInvariant_alloc inv hfree
  | allocFails e a halloc =>
      rcases inv.pagesOk.alloc_cases with hnone | ⟨i, _, hsome⟩
      · rw [hnone] at halloc
        simp only [Except.ok.injEq, Prod.mk.injEq] at halloc
        obtain ⟨_, rfl⟩ := halloc
        exact pageInvariant_unchanged inv fun _ _ => rfl
      · simp [hsome] at halloc
  | refPage addr a hinside href =>
      rw [pageAllocatorRefPage_eq hinside.1] at href
      simp only [Except.ok.injEq, Prod.mk.injEq, true_and] at href
      subst href
      split_ifs with hlt
      · apply pageInvariant_setCount inv guard (inv.unsaturated_of_lt hlt) hlt
        intro hi
        rw [inv.count_eq _ hi (inv.unsaturated_of_lt hlt)]
      · exact pageInvariant_saturated inv hlt
  | unrefPage addr a hinside hout hunref =>
      have hcount := inv.count_pos hinside.2 hout
      have hlen := Nat.div_lt_of_lt_mul (Nat.mul_comm _ 32 ▸ hinside.2)
      rw [pageAllocatorUnrefPage_eq hinside.1 hlen hcount] at hunref
      simp only [Except.ok.injEq, Prod.mk.injEq, true_and] at hunref
      subst hunref
      split_ifs with hlt hone
      · have heq := inv.count_eq _ hinside.2 (inv.unsaturated_of_lt hlt)
        rw [hone] at heq
        rw [← heq]
        exact pageInvariant_release inv hinside.2 hone heq.symm
      · have heq := inv.count_eq _ hinside.2 (inv.unsaturated_of_lt hlt)
        apply pageInvariant_setCount inv _ (inv.unsaturated_of_lt hlt) (by omega)
        · intro _
          rw [heq]
        · rw [Bool.eq_false_iff]
          intro hmem
          have := inv.bit_count _ hmem
          omega
      · exact pageInvariant_saturated inv hlt

/-! ### Runs -/

/-- Exclusivity over runs. From whatever `bitmap_init` leaves, as long as references are taken only to
    pages that are not free, every state reached has the property. -/
theorem page_exclusivity {s t : PageState} {xs : List (Transition PageState PageEvent)}
    (hinit : pageSystem.init s) (run : pageSystem.Run s xs t)
    (guard : ∀ x ∈ xs, PageGuard x.before x.event) : PageExclusivity t := by
  obtain ⟨mbInfo, lowerBound, upperBound, a, hreturn, rfl⟩ := hinit
  have ready := ensures_iff.1 (bitmapInit_ensures mbInfo lowerBound upperBound) _ _ hreturn
  apply PageInvariant.exclusivity
  exact run.guarded_invariant PageInvariant
    (fun _ _ _ inv guard step => pageInvariant_step inv guard step)
    (pageInvariant_initial ready) guard

/-- One page of memory, at address 0. -/
theorem bitmapInit_one_page :
    Yields (bitmapInit { mmap := none, mods := none } 0 4096) {} fun _ a =>
      a.bitmapLen = 1 ∧ a.bitmap.findFirst 0 a.bitmapLen = some 0 ∧ a.refCounts 0 = 0 := by
  decide +kernel

/-- The one page is handed out, and its owner shares it. -/
theorem page_exclusivity_after_alloc_and_ref :
    ∃ s xs t, pageSystem.init s ∧ pageSystem.Run s xs t ∧
      xs.map Transition.event = [.alloc (.ok 0), .refPage 0] ∧ PageExclusivity t := by
  obtain ⟨_, a, hreturn, hlen, hfind, hcount⟩ := yields_iff.1 bitmapInit_one_page
  have halloc := pageAllocatorAlloc_some hfind (by rw [hlen]; decide) hcount
  have hinit : pageSystem.init (PageState.initial a) := ⟨_, _, _, a, hreturn, rfl⟩
  have run : pageSystem.Run (PageState.initial a) _ _ :=
    .cons (.alloc 0 (a.take 0) halloc) <|
    .cons (.refPage 0 _ ⟨rfl, by simp [PageState.after, PageAllocator.take, hlen]⟩
      (pageAllocatorRefPage_eq rfl)) <| .nil _
  refine ⟨_, _, _, hinit, run, rfl, page_exclusivity hinit run ?_⟩
  simp [PageGuard, PageState.after, PageAllocator.take, BitSet.mem_erase (w := 32)]

/-- Somebody takes a reference to the one page while it is free, and the next allocation stops. -/
theorem refPage_of_free_page_breaks_alloc :
    ¬ ∀ s xs t, pageSystem.init s → pageSystem.Run s xs t → PageExclusivity t := by
  intro h
  obtain ⟨_, a, hreturn, hlen, hfind, hcount⟩ := yields_iff.1 bitmapInit_one_page
  have hinit : pageSystem.init (PageState.initial a) := ⟨_, _, _, a, hreturn, rfl⟩
  have href : pageAllocatorRefPage 0 a = .ok ((), a.setCount 0 1) := by
    rw [pageAllocatorRefPage_eq rfl, Nat.zero_div, hcount]
    rfl
  have run : pageSystem.Run (PageState.initial a) _ _ :=
    .cons (.refPage 0 _ ⟨rfl, by simp [PageState.initial, hlen]⟩ href) <| .nil _
  obtain ⟨_, _, halloc, _⟩ := yields_iff.1 (h _ _ _ hinit run).alloc_returns
  have hpanic : pageAllocatorAlloc (a.setCount 0 1) = .error .panic := by
    apply pageAllocatorAlloc_counted (a := a.setCount 0 1) hfind
    · simp [PageAllocator.setCount, hlen]
    · simp [PageAllocator.setCount]
  exact absurd (hpanic.symm.trans halloc) (by simp)

end Chaotix
