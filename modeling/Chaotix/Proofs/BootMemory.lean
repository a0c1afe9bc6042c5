/-
Module: Chaotix.Proofs.BootMemory
Layer: Proofs
Purpose: Which pages `page_allocator_init` makes allocatable, for any memory map and any modules. The code works with
  the bounds of a region in 32 bits; the map is honoured exactly when the loops stay inside the bitmap and no
  region that reaches 4 GiB, and no degenerate module, makes a difference.
Imports: Mathlib.Tactic, Chaotix.Proofs.PageExclusivity
Trusted boundary: none
Main exports: MultibootMmapEntry.Inside, MultibootModule.Overlaps, MapHonoured, MapPreserved,
  yields_bitmapInit, map_honoured_iff
-/
import Mathlib.Tactic
import Chaotix.Proofs.PageExclusivity

namespace Chaotix

/-! ### What the claim is about -/

namespace MultibootMmapEntry

/-- The type of the entry is `MULTIBOOT_MEMORY_AVAILABLE`. -/
def Available (entry : MultibootMmapEntry) : Prop := entry.type = MULTIBOOT_MEMORY_AVAILABLE

/-- A page lies inside the 64-bit interval of an entry. -/
def Inside (entry : MultibootMmapEntry) (p : Nat) : Prop :=
  entry.addr.toNat ≤ p * PAGE_SIZE ∧ (p + 1) * PAGE_SIZE ≤ entry.addr.toNat + entry.len.toNat

/-- The interval of the entry reaches 4 GiB. -/
def Wide (entry : MultibootMmapEntry) : Prop := wordSize ≤ entry.addr.toNat + entry.len.toNat

/-- The values of `entry_start` and `entry_end` in the loop of `bitmap_init`. -/
def start (entry : MultibootMmapEntry) (lowerBound : Nat) : Nat := max (entry.addr.toNat % wordSize) lowerBound

def finish (entry : MultibootMmapEntry) : Nat := (entry.addr + entry.len).toNat % wordSize

/-- The loop of `bitmap_init` sets the bit of a page for an entry. -/
structure InLoop (entry : MultibootMmapEntry) (lowerBound p : Nat) : Prop where
  available : entry.Available
  nonempty : entry.start lowerBound < entry.finish
  ge : divCeil (entry.start lowerBound) PAGE_SIZE ≤ p
  lt : p < entry.finish / PAGE_SIZE

end MultibootMmapEntry

namespace MultibootModule

/-- A page has a byte of the module. -/
def Overlaps (mod : MultibootModule) (p : Nat) : Prop :=
  mod.modStart.toNat < mod.modEnd.toNat ∧ mod.modStart.toNat < (p + 1) * PAGE_SIZE ∧ p * PAGE_SIZE < mod.modEnd.toNat

/-- The loop of `bitmap_init` clears the bit of a page for a module. -/
def InLoop (mod : MultibootModule) (p : Nat) : Prop :=
  mod.modStart.toNat / PAGE_SIZE ≤ p ∧ p < divCeil mod.modEnd.toNat PAGE_SIZE

/-- The module has no byte, or its end is in the last page below 4 GiB. -/
def Degenerate (mod : MultibootModule) : Prop :=
  mod.modEnd.toNat ≤ mod.modStart.toNat ∨ wordSize - PAGE_SIZE < mod.modEnd.toNat

end MultibootModule

/-- A page is free by the memory map: it lies inside an available entry and behind the kernel, and no module is on
    it. -/
structure FreeByMap (entries : List MultibootMmapEntry) (mods : List MultibootModule) (lowerBound p : Nat) :
    Prop where
  inside : ∃ entry ∈ entries, entry.Available ∧ entry.Inside p
  behind : lowerBound ≤ p * PAGE_SIZE
  outside : ∀ mod ∈ mods, ¬mod.Overlaps p

/-- The pages of the bitmap that are free by the memory map are allocatable, and every other one counts 255. -/
def MapHonoured (entries : List MultibootMmapEntry) (mods : List MultibootModule) (lowerBound : Nat)
    (a : PageAllocator) : Prop :=
  ∀ p, p < a.bitmapLen * 32 → (a.bitmap.mem p = true ↔ FreeByMap entries mods lowerBound p) ∧
    (a.bitmap.mem p = false → a.refCounts p = UINT8_MAX)

/-- The kernel image fits, the loops over the pages of regions and modules stay inside the bitmap, and what a region
    that reaches 4 GiB or a degenerate module does to a page in 32 bits makes no difference: `phantom` is a page
    that such a region adds, `lost` one that it misses. -/
structure MapPreserved (entries : List MultibootMmapEntry) (mods : List MultibootModule) (kernelEnd : UInt32)
    (lowerBound len : Nat) : Prop where
  kernel : kernelEnd.toNat ≤ KERNEL_VADDR + 1022 * PAGE_SIZE
  regions : ∀ entry ∈ entries, ∀ p, entry.InLoop lowerBound p → p < len * 32
  modules : ∀ mod ∈ mods, ∀ p, mod.InLoop p → p < len * 32
  phantom : ∀ entry ∈ entries, entry.Wide → ∀ p, entry.InLoop lowerBound p → (∀ mod ∈ mods, ¬mod.InLoop p) →
    ∃ other ∈ entries, other.Available ∧ other.Inside p
  lost : ∀ entry ∈ entries, entry.Available → entry.Wide → ∀ p, p < len * 32 → entry.Inside p →
    lowerBound ≤ p * PAGE_SIZE → (∀ mod ∈ mods, ¬mod.Overlaps p) → ∃ other ∈ entries, other.InLoop lowerBound p
  cleared : ∀ mod ∈ mods, mod.Degenerate → ∀ p, p < len * 32 → mod.InLoop p →
    (∃ entry ∈ entries, entry.Available ∧ entry.Inside p) → lowerBound ≤ p * PAGE_SIZE →
    ∃ other ∈ mods, other.Overlaps p
  kept : ∀ mod ∈ mods, mod.Degenerate → ∀ p, mod.Overlaps p → (∃ entry ∈ entries, entry.InLoop lowerBound p) →
    ∃ other ∈ mods, other.InLoop p

/-! ### The loops -/

section Loops

variable {a : PageAllocator} {post : Unit → PageAllocator → Prop}

theorem yields_bitmapSet {i : Nat} :
    Yields (bitmapSet i) a post ↔ i < a.bitmapLen * 32 ∧ post () { a with bitmap := a.bitmap.insert i } := by
  rw [bitmapSet, yields_bind, yields_get, yields_bind, assert, yields_require, yields_set]
  exact and_congr_left fun _ => by omega

theorem yields_bitmapClear {i : Nat} :
    Yields (bitmapClear i) a post ↔ i < a.bitmapLen * 32 ∧ post () { a with bitmap := a.bitmap.erase i } := by
  rw [bitmapClear, yields_bind, yields_get, yields_bind, assert, yields_require, yields_set]
  exact and_congr_left fun _ => by omega

/-- A loop that sets bits returns exactly when all of them are inside the bitmap. -/
theorem yields_setRange {lo hi : Nat} :
    Yields (Program.forRange lo hi bitmapSet) a post ↔ (∀ p, lo ≤ p → p < hi → p < a.bitmapLen * 32) ∧
      post () { a with bitmap := a.bitmap.insertRange lo (hi - lo) } := by
  rw [Program.forRange, Program.foldRange]
  generalize hn : hi - lo = n
  induction n generalizing lo a with
  | zero =>
      rw [Program.foldCount, yields_pure, BitSet.insertRange]
      exact (and_iff_right fun p _ _ => by omega).symm
  | succ n ih =>
      rw [Program.foldCount, yields_bind, yields_bitmapSet, ih (by omega), BitSet.insertRange, ← and_assoc]
      apply and_congr_left
      intro _
      constructor
      · rintro ⟨hlo, hrest⟩ p hp hhi
        by_cases heq : p = lo
        · exact heq ▸ hlo
        · exact hrest p (by omega) hhi
      · exact fun h => ⟨h lo (le_refl lo) (by omega), fun p hp hhi => h p (by omega) hhi⟩

/-- A loop that clears bits returns exactly when all of them are inside the bitmap. -/
theorem yields_clearRange {lo hi : Nat} :
    Yields (Program.forRange lo hi bitmapClear) a post ↔ (∀ p, lo ≤ p → p < hi → p < a.bitmapLen * 32) ∧
      post () { a with bitmap := a.bitmap.eraseRange lo (hi - lo) } := by
  rw [Program.forRange, Program.foldRange]
  generalize hn : hi - lo = n
  induction n generalizing lo a with
  | zero =>
      rw [Program.foldCount, yields_pure, BitSet.eraseRange]
      exact (and_iff_right fun p _ _ => by omega).symm
  | succ n ih =>
      rw [Program.foldCount, yields_bind, yields_bitmapClear, ih (by omega), BitSet.eraseRange, ← and_assoc]
      apply and_congr_left
      intro _
      constructor
      · rintro ⟨hlo, hrest⟩ p hp hhi
        by_cases heq : p = lo
        · exact heq ▸ hlo
        · exact hrest p (by omega) hhi
      · exact fun h => ⟨h lo (le_refl lo) (by omega), fun p hp hhi => h p (by omega) hhi⟩

/-- The bitmap when the pages of an entry have been added. -/
def regionBits (lowerBound : Nat) (b : BitSet 32) (entry : MultibootMmapEntry) : BitSet 32 :=
  if entry.type ≠ MULTIBOOT_MEMORY_AVAILABLE then b
  else if entry.finish ≤ entry.start lowerBound then b
  else
    b.insertRange (divCeil (entry.start lowerBound) PAGE_SIZE)
      (entry.finish / PAGE_SIZE - divCeil (entry.start lowerBound) PAGE_SIZE)

theorem mem_regionBits (lowerBound : Nat) (b : BitSet 32) (entry : MultibootMmapEntry) (p : Nat) :
    (regionBits lowerBound b entry).mem p = true ↔ b.mem p = true ∨ entry.InLoop lowerBound p := by
  unfold regionBits
  split_ifs with htype hempty
  · exact ⟨Or.inl, fun h => h.resolve_right fun hloop => htype hloop.available⟩
  · exact ⟨Or.inl, fun h => h.resolve_right fun hloop => absurd hloop.nonempty (Nat.not_lt.2 hempty)⟩
  · rw [BitSet.mem_insertRange (by decide)]
    apply or_congr_right
    constructor
    · exact fun ⟨hge, hlt⟩ => ⟨not_not.1 htype, Nat.lt_of_not_le hempty, hge, by omega⟩
    · exact fun h => ⟨h.ge, by have := h.lt; have := h.ge; omega⟩

theorem yields_bitmapAddRegion {lowerBound : Nat} {entry : MultibootMmapEntry} :
    Yields (bitmapAddRegion lowerBound entry) a post ↔
      (∀ p, entry.InLoop lowerBound p → p < a.bitmapLen * 32) ∧
        post () { a with bitmap := regionBits lowerBound a.bitmap entry } := by
  unfold bitmapAddRegion regionBits
  change Yields (if entry.type ≠ MULTIBOOT_MEMORY_AVAILABLE then pure () else
    if entry.finish ≤ entry.start lowerBound then pure () else
      Program.forRange (divCeil (entry.start lowerBound) PAGE_SIZE) (entry.finish / PAGE_SIZE) bitmapSet) a post ↔ _
  split_ifs with htype hempty
  · rw [yields_pure]
    exact (and_iff_right fun p h => absurd h.available htype).symm
  · rw [yields_pure]
    exact (and_iff_right fun p h => absurd h.nonempty (Nat.not_lt.2 hempty)).symm
  · rw [yields_setRange]
    apply and_congr_left
    intro _
    constructor
    · exact fun h p hp => h p hp.ge hp.lt
    · exact fun h p hge hlt => h p ⟨not_not.1 htype, Nat.lt_of_not_le hempty, hge, hlt⟩

theorem yields_addRegions {lowerBound : Nat} {entries : List MultibootMmapEntry} :
    Yields (entries.forM (bitmapAddRegion lowerBound)) a post ↔
      (∀ entry ∈ entries, ∀ p, entry.InLoop lowerBound p → p < a.bitmapLen * 32) ∧
        post () { a with bitmap := entries.foldl (regionBits lowerBound) a.bitmap } := by
  induction entries generalizing a with
  | nil => simp [yields_pure]
  | cons entry entries ih =>
      change Yields (bitmapAddRegion lowerBound entry >>= fun _ => entries.forM (bitmapAddRegion lowerBound)) a post ↔ _
      rw [yields_bind, yields_bitmapAddRegion, ih, List.forall_mem_cons, List.foldl_cons, and_assoc]

theorem mem_foldl_regionBits (lowerBound : Nat) (entries : List MultibootMmapEntry) (b : BitSet 32) (p : Nat) :
    (entries.foldl (regionBits lowerBound) b).mem p = true ↔
      b.mem p = true ∨ ∃ entry ∈ entries, entry.InLoop lowerBound p := by
  induction entries generalizing b with
  | nil => simp
  | cons entry entries ih =>
      rw [List.foldl_cons, ih, mem_regionBits, List.exists_mem_cons_iff, or_assoc]

/-- The bitmap when the pages of a module have been removed. -/
def moduleBits (b : BitSet 32) (mod : MultibootModule) : BitSet 32 :=
  b.eraseRange (mod.modStart.toNat / PAGE_SIZE)
    (divCeil mod.modEnd.toNat PAGE_SIZE - mod.modStart.toNat / PAGE_SIZE)

theorem mem_moduleBits (b : BitSet 32) (mod : MultibootModule) (p : Nat) :
    (moduleBits b mod).mem p = true ↔ b.mem p = true ∧ ¬mod.InLoop p := by
  rw [moduleBits, BitSet.mem_eraseRange (by decide), MultibootModule.InLoop]
  apply and_congr_right
  intro _
  omega

theorem yields_removeModules {mods : List MultibootModule} :
    Yields (mods.forM bitmapRemoveModule) a post ↔
      (∀ mod ∈ mods, ∀ p, mod.InLoop p → p < a.bitmapLen * 32) ∧
        post () { a with bitmap := mods.foldl moduleBits a.bitmap } := by
  induction mods generalizing a with
  | nil => simp [yields_pure]
  | cons mod mods ih =>
      change Yields (bitmapRemoveModule mod >>= fun _ => mods.forM bitmapRemoveModule) a post ↔ _
      rw [yields_bind, bitmapRemoveModule, yields_clearRange, ih, List.forall_mem_cons, List.foldl_cons, and_assoc]
      simp only [MultibootModule.InLoop, and_imp, moduleBits]

theorem mem_foldl_moduleBits (mods : List MultibootModule) (b : BitSet 32) (p : Nat) :
    (mods.foldl moduleBits b).mem p = true ↔ b.mem p = true ∧ ∀ mod ∈ mods, ¬mod.InLoop p := by
  induction mods generalizing b with
  | nil => simp
  | cons mod mods ih => rw [List.foldl_cons, ih, mem_moduleBits, List.forall_mem_cons, and_assoc]

end Loops

/-! ### The arithmetic of the bounds -/

section Bounds

variable {entries : List MultibootMmapEntry} {mods : List MultibootModule}

/-- The upper bound of `get_available_physical_addr_bounds`. -/
def highestEnd (entries : List MultibootMmapEntry) (lowerBound : Nat) : Nat :=
  entries.foldl (fun upperBound entry =>
    if entry.type ≠ MULTIBOOT_MEMORY_AVAILABLE then upperBound else max upperBound entry.finish) lowerBound

theorem le_highestEnd (entries : List MultibootMmapEntry) (lowerBound : Nat) :
    lowerBound ≤ highestEnd entries lowerBound := by
  induction entries generalizing lowerBound with
  | nil => exact le_refl lowerBound
  | cons entry entries ih =>
      rw [highestEnd, List.foldl_cons]
      refine le_trans ?_ (ih _)
      split_ifs
      · exact le_refl _
      · exact le_max_left _ _

theorem finish_le_highestEnd {entry : MultibootMmapEntry} (hmem : entry ∈ entries) (havailable : entry.Available)
    (lowerBound : Nat) : entry.finish ≤ highestEnd entries lowerBound := by
  induction entries generalizing lowerBound with
  | nil => cases hmem
  | cons head entries ih =>
      rw [highestEnd, List.foldl_cons]
      rcases List.mem_cons.1 hmem with rfl | hmem
      · refine le_trans ?_ (le_highestEnd entries _)
        have htype : ¬entry.type ≠ MULTIBOOT_MEMORY_AVAILABLE := not_not.2 havailable
        rw [if_neg htype]
        exact le_max_right _ _
      · exact ih hmem _

theorem highestEnd_lt (entries : List MultibootMmapEntry) {lowerBound : Nat} (h : lowerBound < wordSize) :
    highestEnd entries lowerBound < wordSize := by
  induction entries generalizing lowerBound with
  | nil => exact h
  | cons entry entries ih =>
      rw [highestEnd, List.foldl_cons]
      apply ih
      split_ifs
      · exact h
      · exact max_lt h (Nat.mod_lt _ (by decide))

/-- A bitmap whose pages reach the last page below 4 GiB has a length that wraps to zero. -/
theorem divCeil_eq_zero {upperBound : Nat} (hlo : wordSize - PAGE_SIZE < upperBound) (hhi : upperBound < wordSize) :
    divCeil upperBound (PAGE_SIZE * 32) = 0 := by
  simp only [divCeil, wordSize, PAGE_SIZE] at hlo hhi ⊢
  omega

theorem divCeil_le_iff {x p : Nat} (hx : x ≤ wordSize - PAGE_SIZE) : divCeil x PAGE_SIZE ≤ p ↔ x ≤ p * PAGE_SIZE := by
  simp only [divCeil, wordSize, PAGE_SIZE] at hx ⊢
  omega

/-- The bits of a region that stay inside the bitmap start where the region does. -/
theorem start_le_of_fits {entry : MultibootMmapEntry} {lowerBound : Nat} (hmem : entry ∈ entries)
    (hlower : lowerBound < wordSize)
    (hfits : ∀ p, entry.InLoop lowerBound p → p < divCeil (highestEnd entries lowerBound) (PAGE_SIZE * 32) * 32)
    (havailable : entry.Available) (hnonempty : entry.start lowerBound < entry.finish) :
    entry.start lowerBound ≤ wordSize - PAGE_SIZE := by
  by_contra hlast
  have hlast := Nat.lt_of_not_le hlast
  have hfinish : entry.finish < wordSize := Nat.mod_lt _ (by decide)
  have hupper := finish_le_highestEnd hmem havailable lowerBound
  have hzero := divCeil_eq_zero (lt_of_lt_of_le (hlast.trans hnonempty) hupper) (highestEnd_lt entries hlower)
  have hfirst : entry.InLoop lowerBound (divCeil (entry.start lowerBound) PAGE_SIZE) := by
    refine ⟨havailable, hnonempty, le_refl _, ?_⟩
    simp only [divCeil, wordSize, PAGE_SIZE] at hlast hnonempty hfinish ⊢
    omega
  have hbad := hfits _ hfirst
  rw [hzero] at hbad
  omega

/-- The loop for a region below 4 GiB takes the pages inside the region and behind the kernel. -/
theorem inLoop_iff_inside {entry : MultibootMmapEntry} {lowerBound p : Nat} (hmem : entry ∈ entries)
    (hlower : lowerBound < wordSize)
    (hfits : ∀ p, entry.InLoop lowerBound p → p < divCeil (highestEnd entries lowerBound) (PAGE_SIZE * 32) * 32)
    (hnarrow : ¬entry.Wide) :
    entry.InLoop lowerBound p ↔ entry.Available ∧ entry.Inside p ∧ lowerBound ≤ p * PAGE_SIZE := by
  have hend : entry.addr.toNat + entry.len.toNat < wordSize := Nat.lt_of_not_le hnarrow
  have hstart : entry.start lowerBound = max entry.addr.toNat lowerBound := by
    rw [MultibootMmapEntry.start, Nat.mod_eq_of_lt (by omega)]
  have hfinish : entry.finish = entry.addr.toNat + entry.len.toNat := by
    have hword : entry.addr.toNat + entry.len.toNat < 2 ^ 64 := hend.trans (by decide)
    rw [MultibootMmapEntry.finish, UInt64.toNat_add, Nat.mod_eq_of_lt hword, Nat.mod_eq_of_lt hend]
  constructor
  · intro h
    have hle := start_le_of_fits hmem hlower hfits h.available h.nonempty
    have hge := (divCeil_le_iff hle).1 h.ge
    have hlt := h.lt
    rw [hstart] at hge
    rw [hfinish] at hlt
    refine ⟨h.available, ⟨le_trans (le_max_left _ _) hge, ?_⟩, le_trans (le_max_right _ _) hge⟩
    simp only [PAGE_SIZE] at hlt ⊢
    omega
  · rintro ⟨havailable, ⟨hge, hlt⟩, hbehind⟩
    have hnonempty : entry.start lowerBound < entry.finish := by
      rw [hstart, hfinish]
      apply max_lt
      · simp only [PAGE_SIZE] at hge hlt
        omega
      · simp only [PAGE_SIZE] at hbehind hlt
        omega
    refine ⟨havailable, hnonempty, ?_, ?_⟩
    · apply (divCeil_le_iff (start_le_of_fits hmem hlower hfits havailable hnonempty)).2
      rw [hstart]
      exact max_le hge hbehind
    · rw [hfinish]
      simp only [PAGE_SIZE] at hlt ⊢
      omega

/-- The loop of a region takes pages behind the kernel. -/
theorem behind_of_inLoop {entry : MultibootMmapEntry} {lowerBound p : Nat} (hmem : entry ∈ entries)
    (hlower : lowerBound < wordSize)
    (hfits : ∀ p, entry.InLoop lowerBound p → p < divCeil (highestEnd entries lowerBound) (PAGE_SIZE * 32) * 32)
    (h : entry.InLoop lowerBound p) : lowerBound ≤ p * PAGE_SIZE := by
  have hle := start_le_of_fits hmem hlower hfits h.available h.nonempty
  exact le_trans (le_max_right _ _) ((divCeil_le_iff hle).1 h.ge)

/-- The loop for a module takes the pages that the module is on. -/
theorem inLoop_iff_overlaps {mod : MultibootModule} (h : ¬mod.Degenerate) (p : Nat) :
    mod.InLoop p ↔ mod.Overlaps p := by
  obtain ⟨hbyte, hend⟩ := not_or.1 h
  rw [MultibootModule.InLoop, MultibootModule.Overlaps]
  simp only [divCeil, wordSize, PAGE_SIZE] at hend ⊢
  omega

end Bounds

/-! ### What `page_allocator_init` leaves -/

section Init

variable {entries : List MultibootMmapEntry} {mods : List MultibootModule}

/-- The bitmap when regions and modules have been gone through. -/
def bootBits (entries : List MultibootMmapEntry) (mods : List MultibootModule) (lowerBound : Nat) : BitSet 32 :=
  mods.foldl moduleBits (entries.foldl (regionBits lowerBound) fun _ => 0#32)

theorem mem_bootBits (lowerBound p : Nat) :
    (bootBits entries mods lowerBound).mem p = true ↔
      (∃ entry ∈ entries, entry.InLoop lowerBound p) ∧ ∀ mod ∈ mods, ¬mod.InLoop p := by
  have hempty : BitSet.mem (fun _ => 0#32 : BitSet 32) p = false := by simp [BitSet.mem]
  rw [bootBits, mem_foldl_moduleBits, mem_foldl_regionBits, hempty]
  simp

/-- The last loop of `bitmap_init` returns, and leaves the bitmap alone. -/
theorem yields_bitmapInitCounts (a : PageAllocator) :
    Yields (Program.foldRange 0 (a.bitmapLen * 32) 0 bitmapInitCount) a fun _ t =>
      t.bitmapLen = a.bitmapLen ∧ t.bitmap = a.bitmap := by
  rw [Program.foldRange, Nat.sub_zero]
  apply Yields.foldCount (fun _ _ (t : PageAllocator) => t.bitmapLen = a.bitmapLen ∧ t.bitmap = a.bitmap)
  · exact ⟨rfl, rfl⟩
  · rintro i _ t _ hi ⟨hlen, hbits⟩
    rw [bitmapInitCount, yields_bind, bitmapGet, yields_bind, yields_get, yields_bind, assert, yields_require,
      yields_pure]
    refine ⟨by omega, ?_⟩
    split_ifs
    · exact ⟨hlen, hbits⟩
    · exact ⟨hlen, hbits⟩

/-- `bitmap_init` returns exactly when its loops stay inside the bitmap. -/
theorem yields_bitmapInit (mbInfo : MultibootInfo) (hmmap : mbInfo.mmap = some entries)
    (hmods : mods = mbInfo.mods.getD []) (lowerBound upperBound : UInt32) (q : Nat → BitSet 32 → Prop) :
    Yields (bitmapInit mbInfo lowerBound upperBound) {} (fun _ a => q a.bitmapLen a.bitmap) ↔
      (∀ entry ∈ entries, ∀ p, entry.InLoop lowerBound.toNat p →
        p < divCeil upperBound.toNat (PAGE_SIZE * 32) * 32) ∧
      (∀ mod ∈ mods, ∀ p, mod.InLoop p → p < divCeil upperBound.toNat (PAGE_SIZE * 32) * 32) ∧
      q (divCeil upperBound.toNat (PAGE_SIZE * 32)) (bootBits entries mods lowerBound.toNat) := by
  have hmax : divCeil upperBound.toNat (PAGE_SIZE * 32) ≤ BITMAP_MAX_LEN := by
    simp only [divCeil, wordSize, PAGE_SIZE, BITMAP_MAX_LEN, MAX_NUM_PAGES]
    omega
  rw [bitmapInit, bitmapAddRegions, hmmap]
  generalize divCeil upperBound.toNat (PAGE_SIZE * 32) = len at hmax ⊢
  dsimp only
  rw [yields_bind, assert, yields_require, yields_bind, yields_modify, yields_bind, yields_addRegions,
    and_iff_right hmax]
  apply and_congr_right
  intro _
  have hremove : bitmapRemoveModules mbInfo = mods.forM bitmapRemoveModule := by
    rw [hmods, bitmapRemoveModules]
    cases mbInfo.mods with
    | none => rfl
    | some mods => rfl
  rw [yields_bind, hremove, yields_removeModules]
  apply and_congr_right
  intro _
  have hcounts := yields_bitmapInitCounts { bitmapLen := len, bitmap := bootBits entries mods lowerBound.toNat }
  obtain ⟨numPages, t, hreturn, hlen, hbits⟩ := yields_iff.1 hcounts
  refine (yields_bind_of_return hreturn).trans ?_
  rw [yields_modify, hlen, hbits]

/-- The bits are the free pages of the map exactly when regions that reach 4 GiB and degenerate modules make no
    difference. -/
theorem bootBits_iff {lowerBound len : Nat} {kernelEnd : UInt32} (hlower : lowerBound < wordSize)
    (hlen : len = divCeil (highestEnd entries lowerBound) (PAGE_SIZE * 32))
    (hkernel : kernelEnd.toNat ≤ KERNEL_VADDR + 1022 * PAGE_SIZE)
    (hregions : ∀ entry ∈ entries, ∀ p, entry.InLoop lowerBound p → p < len * 32)
    (hmodules : ∀ mod ∈ mods, ∀ p, mod.InLoop p → p < len * 32) :
    (∀ p, p < len * 32 → ((bootBits entries mods lowerBound).mem p = true ↔ FreeByMap entries mods lowerBound p)) ↔
      MapPreserved entries mods kernelEnd lowerBound len := by
  have hfits : ∀ entry ∈ entries, ∀ p, entry.InLoop lowerBound p →
      p < divCeil (highestEnd entries lowerBound) (PAGE_SIZE * 32) * 32 := hlen ▸ hregions
  have hnarrow : ∀ entry ∈ entries, ¬entry.Wide → ∀ p, entry.InLoop lowerBound p ↔
      entry.Available ∧ entry.Inside p ∧ lowerBound ≤ p * PAGE_SIZE :=
    fun entry hmem h p => inLoop_iff_inside hmem hlower (hfits entry hmem) h
  have hbehind : ∀ p, (∃ entry ∈ entries, entry.InLoop lowerBound p) → lowerBound ≤ p * PAGE_SIZE :=
    fun p ⟨entry, hmem, h⟩ => behind_of_inLoop hmem hlower (hfits entry hmem) h
  simp only [mem_bootBits]
  constructor
  · intro h
    refine ⟨hkernel, hregions, hmodules, ?phantom, ?lost, ?cleared, ?kept⟩
    case phantom =>
      intro entry hmem _ p hloop hclear
      exact ((h p (hregions entry hmem p hloop)).1 ⟨⟨entry, hmem, hloop⟩, hclear⟩).inside
    case lost =>
      intro entry hmem havailable _ p hp hinside hge hclear
      exact ((h p hp).2 ⟨⟨entry, hmem, havailable, hinside⟩, hge, hclear⟩).1
    case cleared =>
      intro mod hmem _ p hp hloop hinside hge
      by_contra hnone
      have hfree := (h p hp).2 ⟨hinside, hge, fun other hother hover => hnone ⟨other, hother, hover⟩⟩
      exact hfree.2 mod hmem hloop
    case kept =>
      intro mod hmem _ p hover hregion
      by_contra hnone
      obtain ⟨entry, hentry, hloop⟩ := hregion
      have hp := hregions entry hentry p hloop
      have hfree := (h p hp).1 ⟨⟨entry, hentry, hloop⟩, fun other hother hin => hnone ⟨other, hother, hin⟩⟩
      exact hfree.outside mod hmem hover
  · intro h p hp
    constructor
    · rintro ⟨⟨entry, hmem, hloop⟩, hclear⟩
      refine ⟨?_, hbehind p ⟨entry, hmem, hloop⟩, fun mod hmod hover => ?_⟩
      · by_cases hwide : entry.Wide
        · exact h.phantom entry hmem hwide p hloop hclear
        · have hinside := (hnarrow entry hmem hwide p).1 hloop
          exact ⟨entry, hmem, hinside.1, hinside.2.1⟩
      · by_cases hdegenerate : mod.Degenerate
        · obtain ⟨other, hother, hin⟩ := h.kept mod hmod hdegenerate p hover ⟨entry, hmem, hloop⟩
          exact hclear other hother hin
        · exact hclear mod hmod ((inLoop_iff_overlaps hdegenerate p).2 hover)
    · intro hfree
      obtain ⟨entry, hmem, havailable, hinside⟩ := hfree.inside
      refine ⟨?_, fun mod hmod hloop => ?_⟩
      · by_cases hwide : entry.Wide
        · exact h.lost entry hmem havailable hwide p hp hinside hfree.behind hfree.outside
        · exact ⟨entry, hmem, (hnarrow entry hmem hwide p).2 ⟨havailable, hinside, hfree.behind⟩⟩
      · by_cases hdegenerate : mod.Degenerate
        · obtain ⟨other, hother, hover⟩ := h.cleared mod hmod hdegenerate p hp hloop hfree.inside hfree.behind
          exact hfree.outside other hother hover
        · exact hfree.outside mod hmod ((inLoop_iff_overlaps hdegenerate p).1 hloop)

/-- For what `bitmap_init` leaves, the map is honoured when the bits are right. -/
theorem mapHonoured_iff {lowerBound : Nat} {a : PageAllocator} (ready : BitmapReady a) :
    MapHonoured entries mods lowerBound a ↔
      ∀ p, p < a.bitmapLen * 32 → (a.bitmap.mem p = true ↔ FreeByMap entries mods lowerBound p) := by
  refine forall₂_congr fun p hp => and_iff_left ?_
  intro hclear
  rw [ready.counts, if_pos ⟨hp, hclear⟩]

/-- The memory map at boot: `page_allocator_init` returns with exactly the pages allocatable that are free by the
    map, for the maps, modules and kernel images that `MapPreserved` describes and no others. -/
theorem map_honoured_iff (entries : List MultibootMmapEntry) (mods : Option (List MultibootModule))
    (memUpper kernelEnd : UInt32) :
    Yields (pageAllocatorInit { mmap := some entries, mods := mods, memUpper := memUpper } kernelEnd) {}
        (fun _ a => MapHonoured entries (mods.getD []) (wordSub kernelEnd.toNat KERNEL_VADDR) a) ↔
      MapPreserved entries (mods.getD []) kernelEnd (wordSub kernelEnd.toNat KERNEL_VADDR)
        (divCeil (highestEnd entries (wordSub kernelEnd.toNat KERNEL_VADDR)) (PAGE_SIZE * 32)) := by
  have hlower : wordSub kernelEnd.toNat KERNEL_VADDR < wordSize := Nat.mod_lt _ (by decide)
  rw [pageAllocatorInit, yields_bind, assert, yields_require]
  have hbounds : getAvailablePhysicalAddrBounds { mmap := some entries, mods := mods, memUpper := memUpper } kernelEnd =
      (wordSub kernelEnd.toNat KERNEL_VADDR, highestEnd entries (wordSub kernelEnd.toNat KERNEL_VADDR)) := rfl
  rw [hbounds]
  generalize wordSub kernelEnd.toNat KERNEL_VADDR = lowerBound at hlower ⊢
  dsimp only
  have hupper := highestEnd_lt entries hlower
  have hlowerWord : (UInt32.ofNat lowerBound).toNat = lowerBound := UInt32.toNat_ofNat_of_lt' hlower
  have hupperWord : (UInt32.ofNat (highestEnd entries lowerBound)).toNat = highestEnd entries lowerBound :=
    UInt32.toNat_ofNat_of_lt' hupper
  have hready := bitmapInit_ensures { mmap := some entries, mods := mods, memUpper := memUpper }
    (.ofNat lowerBound) (.ofNat (highestEnd entries lowerBound))
  have hinit := yields_bitmapInit { mmap := some entries, mods := mods, memUpper := memUpper } rfl rfl
    (.ofNat lowerBound) (.ofNat (highestEnd entries lowerBound))
    fun len bits => ∀ p, p < len * 32 → (bits.mem p = true ↔ FreeByMap entries (mods.getD []) lowerBound p)
  rw [hlowerWord, hupperWord] at hinit
  rw [yields_congr_of_ensures (hready.mono fun _ a ready => mapHonoured_iff ready), hinit]
  constructor
  · rintro ⟨hkernel, hregions, hmodules, hbits⟩
    exact (bootBits_iff hlower rfl hkernel hregions hmodules).1 hbits
  · intro h
    exact ⟨h.kernel, h.regions, h.modules, (bootBits_iff hlower rfl h.kernel h.regions h.modules).2 h⟩

/-- A region of three pages that starts at 4 GiB. -/
def highRegion : MultibootMmapEntry := { addr := 0x100000000, len := 0x3000, type := 1 }

/-- The pages below 4 GiB that the region has in 32 bits become allocatable. -/
theorem highRegion_is_not_honoured :
    ∃ a, pageAllocatorInit { mmap := some [highRegion], mods := none } 0xc0001000 {} = .ok ((), a) ∧
      ¬MapHonoured [highRegion] [] (wordSub 0xc0001000 KERNEL_VADDR) a := by
  have hrun : Yields (pageAllocatorInit { mmap := some [highRegion], mods := none } 0xc0001000) {} fun _ a =>
      1 < a.bitmapLen * 32 ∧ a.bitmap.mem 1 = true := by decide +kernel
  obtain ⟨_, a, hreturn, hp, hmem⟩ := yields_iff.1 hrun
  refine ⟨a, hreturn, fun h => ?_⟩
  obtain ⟨entry, hentry, _, hinside⟩ := ((h 1 hp).1.1 hmem).inside
  obtain rfl := List.mem_singleton.1 hentry
  exact absurd hinside.1 (by decide)

end Init

end Chaotix
