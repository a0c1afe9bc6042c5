/-
Module: Chaotix.Proofs.RangeConservation
Layer: Proofs
Purpose: The range allocator over runs. From a `range_allocator_init` of a non-empty interval that starts
  above address 0 and has no page mapped, the free ranges and the outstanding blocks tile the interval in
  every state reached, whatever the callers and the rest of the kernel do; and in each such state it is
  said exactly when an allocation and a release return with the mutex released.
Imports: Mathlib.Tactic, Chaotix.Proofs.RangeSpec
Trusted boundary: none
Main exports: RangeInvariant, RangeConservation, range_conservation, AllocMeets, FreeMeets,
  range_allocator_totality
-/
import Mathlib.Tactic
import Chaotix.Proofs.RangeSpec

namespace Chaotix

variable {P : Type} {start finish : Nat} {vm : Vm}

/-! ### The invariant -/

/-- The free list in memory and the outstanding blocks tile the interval. -/
structure RangeInvariant (start finish : Nat) (s : RangeHistory P) (free : List Segment) : Prop where
  starts : s.state.allocator.start = start
  finishes : s.state.allocator.finish = finish
  start_pos : 0 < start
  finish_lt : finish < wordSize
  ok : RangeOk s.state free
  tiles : Tiles (free ++ s.blocks) start finish
  blocks : ∀ b ∈ s.blocks, b.1 % PAGE_SIZE = 0 ∧ b.2 % PAGE_SIZE = 0 ∧ 0 < b.2
  level_lt : s.state.allocator.lock.level < 2 ^ 32
  level_zero : s.state.allocator.lock.holder = none → s.state.allocator.lock.level = 0

namespace RangeInvariant

variable {s : RangeHistory P} {free : List Segment}

theorem inside (inv : RangeInvariant start finish s free) {r : Segment} (hr : r ∈ free) :
    start ≤ r.1 ∧ r.1 + r.2 ≤ finish :=
  inv.tiles.inside (List.mem_append_left s.blocks hr) (inv.ok.nodes r hr).pos

/-- A page of a free range belongs to the allocator. -/
theorem ownPage (inv : RangeInvariant start finish s free) {r : Segment} (hr : r ∈ free) {page : Nat}
    (hlo : r.1 ≤ page * PAGE_SIZE) (hhi : page * PAGE_SIZE < r.1 + r.2) : s.OwnPage page := by
  have hinside := inv.inside hr
  refine ⟨by rw [inv.starts]; omega, by rw [inv.finishes]; omega, ?_⟩
  have hone := inv.tiles.coverage_le_one (page * PAGE_SIZE)
  have hcovered : 0 < coverage free (page * PAGE_SIZE) := coverage_pos hr (by simp [hlo, hhi])
  rw [coverage_append] at hone
  omega

/-- A block that comes back lies between the free ranges. -/
theorem block (inv : RangeInvariant start finish s free) {addr size : Nat}
    (h : s.Returns addr size) :
    BlockOk s.state.vm [] [] addr (roundUp size) ∧ start ≤ addr ∧ addr + roundUp size ≤ finish ∧
      ∀ r ∈ free, r.1 + r.2 ≤ addr ∨ addr + roundUp size ≤ r.1 := by
  obtain ⟨hsize, hmem, hunmapped⟩ := h
  obtain ⟨hbase, haligned, hpos⟩ := inv.blocks _ hmem
  obtain ⟨hlo, hhi⟩ := inv.tiles.inside (List.mem_append_right free hmem) hpos
  have hstart := inv.start_pos
  have hfinish := inv.finish_lt
  simp only at hlo hhi hpos
  refine ⟨⟨hbase, haligned, hpos, by omega, by omega, by simp, by simp, hunmapped⟩, hlo, hhi, ?_⟩
  intro r hr
  have hdisjoint := inv.tiles.disjoint hr hmem
  have hrpos := (inv.ok.nodes r hr).pos
  by_contra hoverlap
  apply hdisjoint (max r.1 addr)
  simp only [Segment.covers_iff]
  omega

end RangeInvariant

theorem free_eq_nil_iff {s : RangeState P} {free : List Segment} (h : RangeOk s free) :
    free = [] ↔ s.allocator.ranges = 0 :=
  h.list.eq_nil_iff

/-! ### The lock -/

variable [DecidableEq P]

/-- A process gets the mutex at once, and nobody holds it when the process has released it. -/
def LockReady (current : P) (m : Mutex P) : Prop :=
  (m.holder = none ∨ m.holder = some current) ∧ m.level = 0

/-- What `mutex_unlock` leaves behind when it returns. -/
theorem unlockAndReturn_ok {α : Type} {current : P} {r r' : α} {s s' : RangeState P}
    (h : unlockAndReturn current r s = .ok (r', s')) :
    r' = r ∧ ∃ m, s' = { s with allocator := { s.allocator with lock := m } } ∧
      m.level + 1 = s.allocator.lock.level ∧ (m.holder = none ↔ m.level = 0) := by
  simp only [unlockAndReturn, rangeUnlock, Program.run_bind, Program.run_get,
    mutexUnlockSection] at h
  by_cases hholder : s.allocator.lock.holder = some current
  · by_cases hpos : 0 < s.allocator.lock.level
    · by_cases hone : s.allocator.lock.level - 1 = 0
      · simp only [hholder, ne_eq, not_true_eq_false, if_false, hpos, hone, if_true, modifyAllocator,
          Program.run_modify, Program.run_pure, Except.ok.injEq, Prod.mk.injEq] at h
        obtain ⟨rfl, rfl⟩ := h
        exact ⟨rfl, _, rfl, by simp only; omega, by simp⟩
      · simp only [hholder, ne_eq, not_true_eq_false, if_false, hpos, hone, modifyAllocator,
          Program.run_modify, Program.run_pure, Except.ok.injEq, Prod.mk.injEq] at h
        obtain ⟨rfl, rfl⟩ := h
        exact ⟨rfl, _, rfl, by simp only; omega, by simp [hone]⟩
    · simp [hholder, hpos] at h
  · simp [hholder] at h

/-- When the mutex was ready, `mutex_unlock` after `mutex_lock` returns. -/
theorem unlockAndReturn_ready {α : Type} {current : P} {r : α} {s s' : RangeState P}
    (hready : LockReady current s.allocator.lock)
    (hlock : s'.allocator.lock = (mutexLockSection current s.allocator.lock).1) :
    unlockAndReturn current r s' = .ok (r, { s' with allocator := { s'.allocator with lock := {} } }) := by
  have hlocked : (mutexLockSection current s.allocator.lock).1 =
      { holder := some current, level := 1, lock := false } := by
    simp [mutexLockSection, hready.1, hready.2]
  rw [hlocked] at hlock
  simp [unlockAndReturn, rangeUnlock, mutexUnlockSection, hlock, modifyAllocator]

theorem locked_level {current : P} {s : RangeState P} (h : s.LockFree current) :
    (s.locked current).allocator.lock =
      { holder := some current, level := (s.allocator.lock.level + 1) % 2 ^ 32, lock := false } := by
  rw [RangeState.LockFree] at h
  simp [RangeState.locked, mutexLockSection, h]

/-! ### Calls that return -/

section Returns

variable {current : P} {s : RangeState P} {free : List Segment}

/-- An allocator without a free range stops the kernel. -/
theorem rangeAllocatorAlloc_empty (size : Nat) (h : s.allocator.ranges = 0) :
    rangeAllocatorAlloc current size s = .error .panic := by
  simp [rangeAllocatorAlloc, assert, h]

/-- So does a size that `round_up` wraps to 0. -/
theorem rangeAllocatorAlloc_wrapped {size : Nat} (h : RangeOk s free) (hranges : free ≠ [])
    (hlock : s.LockFree current) (hsize : roundUp size = 0) :
    rangeAllocatorAlloc current size s = .error .panic := by
  have hok : RangeOk (s.locked current) free := h.setLock _
  have hne : s.allocator.ranges ≠ 0 := fun heq => hranges ((free_eq_nil_iff h).2 heq)
  cases free with
  | nil => exact absurd rfl hranges
  | cons x post =>
      have hx := hok.nodes x List.mem_cons_self
      obtain ⟨f, hmapped, _⟩ := hx.mapped
      obtain ⟨hhead, _, _, hnode, _⟩ := hok.list
      rw [header_of_mapped hmapped, Option.some.injEq, Prod.mk.injEq] at hnode
      have hload := load32_size hx.pageAddr hmapped
      rw [hnode.1] at hload
      have hpos := hx.pos
      have hx0 : x.1 ≠ 0 := (hok.list.exists_node List.mem_cons_self).1
      have hfind : findFit 0 wordSize 0 x.1 (s.locked current).vm =
          .ok ((0, x.1), (s.locked current).vm) := by
        rw [show wordSize = (wordSize - 1) + 1 from rfl, findFit]
        simp [hx0, hload]
      have hcopy : pagingCopyMapping x.1 x.1 sizeofRange PAGE_WRITE (s.locked current).vm =
          .error .panic := by
        rw [pagingCopyMapping_small hx.base hx.base hx.pageAddr.lt hx.pageAddr.lt (by decide)
          (by decide)]
        exact copyPageMapping_mapped hmapped hmapped PAGE_WRITE
      have hmod := Nat.mod_eq_of_lt hx.pageAddr.lt
      simp only [rangeAllocatorAlloc, Program.run_bind, Program.run_get, assert, Program.run_require,
        ne_eq, hne, not_false_eq_true, if_true, rangeLock_eq current hlock, run_onVm, hhead, hsize, hfind,
        if_neg hx0, hload, if_neg (Nat.ne_of_gt hpos), allocFront, Nat.add_zero, hmod, hcopy]

/-- What holds of an allocation that returns. -/
theorem rangeAllocatorAlloc_returns {size : Nat} {r : Except Errno Nat} {s' : RangeState P}
    (h : RangeOk s free) (hreturn : rangeAllocatorAlloc current size s = .ok (r, s')) :
    free ≠ [] ∧ s.LockFree current ∧ 0 < roundUp size := by
  have hranges : s.allocator.ranges ≠ 0 := by
    intro hzero
    rw [rangeAllocatorAlloc_empty size hzero] at hreturn
    simp at hreturn
  have hfree : free ≠ [] := fun hnil => hranges ((free_eq_nil_iff h).1 hnil)
  have hlock : s.LockFree current := by
    by_contra hheld
    simp [rangeAllocatorAlloc, assert, hranges, rangeLock_hang current hheld] at hreturn
  refine ⟨hfree, hlock, ?_⟩
  by_contra hzero
  rw [rangeAllocatorAlloc_wrapped h hfree hlock (by omega)] at hreturn
  simp at hreturn

/-- What holds of a release that returns. -/
theorem rangeAllocatorFree_returns {addr size : Nat} {r : Except Errno Unit} {s' : RangeState P}
    (h : RangeOk s free) (hbase : addr % PAGE_SIZE = 0) (hstart : s.allocator.start ≤ addr)
    (hfinish : addr + roundUp size ≤ s.allocator.finish) (hlt : s.allocator.finish < wordSize)
    (hreturn : rangeAllocatorFree current addr size s = .ok (r, s')) :
    free ≠ [] ∧ s.LockFree current := by
  have hranges : s.allocator.ranges ≠ 0 := by
    intro hzero
    simp [rangeAllocatorFree, assert, hbase, hzero] at hreturn
  refine ⟨fun hnil => hranges ((free_eq_nil_iff h).1 hnil), ?_⟩
  by_contra hheld
  have hmod : (addr + roundUp size) % wordSize = addr + roundUp size :=
    Nat.mod_eq_of_lt (by omega)
  have hinside : ¬(addr < s.allocator.start ∨ s.allocator.finish < addr + roundUp size) := by omega
  simp [rangeAllocatorFree, assert, hbase, hranges, hmod, hinside, rangeLock_hang current hheld] at hreturn

end Returns

/-! ### Steps -/

namespace RangeInvariant

variable {s : RangeHistory P} {free free' : List Segment} {current : P}

/-- The invariant after a call that has left the list `free'` and given the mutex a new value. -/
theorem after {state : RangeState P} {blocks : List Segment} {m : Mutex P}
    (inv : RangeInvariant start finish s free) (ok : RangeOk state free')
    (hallocator : state.allocator =
      { (s.state.locked current).allocator with ranges := state.allocator.ranges })
    (htiles : Tiles (free' ++ blocks) start finish)
    (hblocks : ∀ b ∈ blocks, b.1 % PAGE_SIZE = 0 ∧ b.2 % PAGE_SIZE = 0 ∧ 0 < b.2)
    (hlevel : m.level < 2 ^ 32) (hzero : m.holder = none → m.level = 0) :
    RangeInvariant start finish
      { state := { state with allocator := { state.allocator with lock := m } }, blocks := blocks }
      free' := by
  refine ⟨?_, ?_, inv.start_pos, inv.finish_lt, ok.setLock m, htiles, hblocks, hlevel, hzero⟩
  · rw [← inv.starts, hallocator]
    rfl
  · rw [← inv.finishes, hallocator]
    rfl

/-- The invariant after a call that has released the mutex and returned. -/
theorem after_unlock {α : Type} {r r' : α} {state state' : RangeState P} {blocks : List Segment}
    (inv : RangeInvariant start finish s free) (hlock : s.state.LockFree current)
    (hreturn : unlockAndReturn current r state = .ok (r', state')) (ok : RangeOk state free')
    (hallocator : state.allocator =
      { (s.state.locked current).allocator with ranges := state.allocator.ranges })
    (htiles : Tiles (free' ++ blocks) start finish)
    (hblocks : ∀ b ∈ blocks, b.1 % PAGE_SIZE = 0 ∧ b.2 % PAGE_SIZE = 0 ∧ 0 < b.2) :
    r' = r ∧ RangeInvariant start finish { state := state', blocks := blocks } free' := by
  obtain ⟨hr, m, rfl, hlevel, hzero⟩ := unlockAndReturn_ok hreturn
  refine ⟨hr, inv.after ok hallocator htiles hblocks ?_ hzero.1⟩
  rw [hallocator, locked_level hlock] at hlevel
  have := Nat.mod_lt (s.state.allocator.lock.level + 1) (show 0 < 2 ^ 32 by decide)
  simp only at hlevel
  omega

/-- An allocation keeps the invariant. -/
theorem alloc {size : Nat} {r : Except Errno Nat} {state : RangeState P}
    (inv : RangeInvariant start finish s free)
    (hreturn : rangeAllocatorAlloc current size s.state = .ok (r, state)) :
    ∃ free', RangeInvariant start finish
      { state := state
        blocks := match r with
          | .ok addr => (addr, roundUp size) :: s.blocks
          | .error _ => s.blocks } free' := by
  obtain ⟨hfree, hlock, hpos⟩ := rangeAllocatorAlloc_returns inv.ok hreturn
  rcases rangeAllocatorAlloc_spec current inv.ok hfree hlock hpos with ⟨halloc, _⟩ | ⟨halloc, _⟩ |
    ⟨s', pre, it, n, post, halloc, rfl, hfit, ok, hallocator⟩
  · rw [halloc, Except.ok.injEq, Prod.mk.injEq] at hreturn
    obtain ⟨rfl, rfl⟩ := hreturn
    have hlevel : (s.state.locked current).allocator.lock.level < 2 ^ 32 := by
      rw [locked_level hlock]
      exact Nat.mod_lt _ (by decide)
    have hzero : (s.state.locked current).allocator.lock.holder = none →
        (s.state.locked current).allocator.lock.level = 0 := by
      rw [locked_level hlock]
      simp
    have ok : RangeOk (s.state.locked current) free := inv.ok.setLock _
    have hafter := inv.after ok rfl inv.tiles inv.blocks hlevel hzero
    exact ⟨free, hafter⟩
  · rw [halloc] at hreturn
    obtain ⟨rfl, hinv⟩ := inv.after_unlock hlock hreturn (inv.ok.setLock _) rfl inv.tiles inv.blocks
    exact ⟨free, hinv⟩
  · have hx := inv.ok.nodes (it, n) (by simp)
    have htiles : Tiles (pre ++ (if n = roundUp size then [] else
        [(it + roundUp size, n - roundUp size)]) ++ post ++ (it, roundUp size) :: s.blocks)
        start finish := by
      intro x
      rw [← inv.tiles x]
      have hsplit : coverage [(it, n)] x = coverage [(it, roundUp size)] x +
          coverage (if n = roundUp size then [] else [(it + roundUp size, n - roundUp size)]) x := by
        by_cases hwhole : n = roundUp size
        · simp [hwhole]
        · rw [if_neg hwhole, ← coverage_split, Nat.add_sub_cancel' hfit]
      simp only [coverage_append]
      rw [coverage_cons (it, roundUp size), coverage_cons (it, n), hsplit]
      omega
    rw [halloc] at hreturn
    obtain ⟨rfl, hinv⟩ := inv.after_unlock hlock hreturn ok hallocator htiles (by
      intro b hb
      rcases List.mem_cons.1 hb with rfl | hb
      · exact ⟨hx.base, roundUp_mod size, hpos⟩
      · exact inv.blocks b hb)
    exact ⟨_, hinv⟩

/-- A release keeps the invariant. -/
theorem release {addr size : Nat} {r : Except Errno Unit} {state : RangeState P}
    (inv : RangeInvariant start finish s free) (hblock : s.Returns addr size)
    (hreturn : rangeAllocatorFree current addr size s.state = .ok (r, state)) :
    ∃ free', RangeInvariant start finish
      { state := state
        blocks := match r with
          | .ok () => s.blocks.erase (addr, roundUp size)
          | .error _ => s.blocks } free' := by
  obtain ⟨block, hstart, hfinish, hapart⟩ := inv.block hblock
  have hlt := inv.finish_lt
  rw [← inv.starts] at hstart
  rw [← inv.finishes] at hfinish hlt
  obtain ⟨hfree, hlock⟩ := rangeAllocatorFree_returns inv.ok block.base hstart hfinish hlt hreturn
  obtain ⟨r0, s', hcall, hallocator, hcases⟩ :=
    rangeAllocatorFree_spec inv.ok hfree hlock hstart hfinish block hapart
  rw [hcall] at hreturn
  rcases hcases with ⟨rfl, ok⟩ | ⟨rfl, free', ok, hcoverage⟩
  · obtain ⟨rfl, hinv⟩ := inv.after_unlock hlock hreturn ok hallocator inv.tiles inv.blocks
    exact ⟨free, hinv⟩
  · have htiles : Tiles (free' ++ s.blocks.erase (addr, roundUp size)) start finish := by
      intro x
      have hblocks := coverage_perm (List.perm_cons_erase hblock.2.1) x
      rw [coverage_cons] at hblocks
      rw [← inv.tiles x, coverage_append, coverage_append, hcoverage, hblocks]
      omega
    obtain ⟨rfl, hinv⟩ := inv.after_unlock hlock hreturn ok hallocator htiles
      fun b hb => inv.blocks b (List.mem_of_mem_erase hb)
    exact ⟨free', hinv⟩

/-- The rest of the kernel keeps the invariant. -/
theorem client {s' : RangeHistory P} (inv : RangeInvariant start finish s free)
    (keeps : ClientKeeps s s') : RangeInvariant start finish s' free := by
  have hown : ∀ r ∈ free, ∀ page, r.1 ≤ page * PAGE_SIZE → page * PAGE_SIZE < r.1 + r.2 →
      s.OwnPage page := fun r hr page hlo hhi => inv.ownPage hr hlo hhi
  have hownNode : ∀ r ∈ free, s.OwnPage (r.1 / PAGE_SIZE) := by
    intro r hr
    have node := inv.ok.nodes r hr
    have hpos := node.pos
    apply hown r hr
    · rw [node.page_mul]
    · rw [node.page_mul]
      omega
  have hkeeps : ∀ r ∈ free, KeepsNode s.state.vm s'.state.vm r := fun r hr =>
    ⟨fun page hlo hhi => keeps.frameOf page (hown r hr page hlo hhi),
      fun f hf hheld => keeps.held _ f (hownNode r hr) hf hheld⟩
  refine ⟨?_, ?_, inv.start_pos, inv.finish_lt, ⟨?_, ?_, inv.ok.spaced, ?_, keeps.pages⟩, ?_, ?_, ?_,
    ?_⟩
  · rw [keeps.allocator, inv.starts]
  · rw [keeps.allocator, inv.finishes]
  · rw [keeps.allocator]
    apply inv.ok.list.congr
    intro r hr
    apply header_congr (keeps.frameOf _ (hownNode r hr))
    exact fun f hf => keeps.ram _ f (hownNode r hr) hf
  · exact fun r hr => (inv.ok.nodes r hr).congr (hkeeps r hr)
  · have hsame : free.map s'.state.vm.nodeFrame = free.map s.state.vm.nodeFrame :=
      List.map_congr_left fun r hr => keeps.frameOf _ (hownNode r hr)
    rw [hsame]
    exact inv.ok.frames
  · rw [keeps.blocks]
    exact inv.tiles
  · rw [keeps.blocks]
    exact inv.blocks
  · rw [keeps.allocator]
    exact inv.level_lt
  · rw [keeps.allocator]
    exact inv.level_zero

end RangeInvariant

/-- Every step keeps the invariant. -/
theorem rangeInvariant_step {s s' : RangeHistory P} {e : RangeEvent P}
    (inv : ∃ free, RangeInvariant start finish s free) (step : RangeStep s e s') :
    ∃ free, RangeInvariant start finish s' free := by
  obtain ⟨free, inv⟩ := inv
  cases step with
  | alloc current size addr state _ halloc => exact inv.alloc halloc
  | allocFails current size e state _ halloc => exact inv.alloc halloc
  | free current addr size state hblock hfree => exact inv.release hblock hfree
  | freeFails current addr size e state hblock hfree => exact inv.release hblock hfree
  | client keeps => exact ⟨free, inv.client keeps⟩

/-! ### Runs -/

/-- An interval that `range_allocator_init` can be given: it is not empty, it starts above address 0, and
    none of its pages is mapped. -/
structure Fresh (start finish : Nat) (vm : Vm) : Prop where
  start_pos : 0 < start
  start_lt : start < finish
  finish_lt : finish < wordSize
  pages : PagesOk vm.pages
  unmapped : ∀ page, start ≤ page * PAGE_SIZE → page * PAGE_SIZE < finish → vm.frameOf page = none

/-- `range_allocator_init` puts the whole interval on the list. -/
theorem rangeInvariant_init {s : RangeHistory P} (fresh : Fresh start finish vm)
    (hinit : (rangeSystem P start finish vm).init s) :
    RangeInvariant start finish s [(start, finish - start)] := by
  obtain ⟨allocator, hblocks, hreturn⟩ := hinit
  have hstart := fresh.start_pos
  have hlt := fresh.start_lt
  have hfinish := fresh.finish_lt
  by_cases hbase : start % PAGE_SIZE = 0
  · by_cases hend : finish % PAGE_SIZE = 0
    · have haddr : PageAddr start := ⟨hbase, by omega⟩
      have hmul : start / PAGE_SIZE * PAGE_SIZE = start :=
        Nat.div_mul_cancel (Nat.dvd_of_mod_eq_zero hbase)
      have hmap := pagingMapToFreePages_small vm sizeofRange haddr.base haddr.lt
        (by decide) (by decide) PAGE_WRITE
      have hfree : vm.frameOf (start / PAGE_SIZE) = none :=
        fresh.unmapped _ (by rw [hmul]) (by rw [hmul]; omega)
      have hsize : (finish + wordSize - start) % wordSize = finish - start := by
        simp only [wordSize] at hfinish ⊢
        omega
      rcases mapPageToFreePage_cases fresh.pages hfree PAGE_WRITE with ⟨vm1, hnone, _⟩ |
        ⟨f, vm1, hsome, _, hframeOf, _, hok, hone, _⟩
      · simp [rangeAllocatorInit, assert, hbase, hend, modifyAllocator, run_onVm, hmap, hnone] at hreturn
      · have hmapped : vm1.frameOf (start / PAGE_SIZE) = some f := by
          rw [hframeOf, Function.update_self]
        have hstore := store32_size haddr hmapped (finish - start)
        have hmapped' : (vm1.putWord f 0 (finish - start)).frameOf (start / PAGE_SIZE) = some f :=
          hmapped
        have hlink := store32_next haddr hmapped' 0
        simp only [rangeAllocatorInit, assert, Program.run_bind, Program.run_require, hbase, hend,
          if_true, modifyAllocator, Program.run_modify, run_onVm, hmap, hsome, hsize, hstore, hlink,
          Program.run_pure, Except.ok.injEq, Prod.mk.injEq, true_and] at hreturn
        have hsize' := (vm1.putWord f 0 (finish - start)).word_putWord_of_same f 4 0 0 (Or.inl (by decide))
        rw [Vm.word_putWord _ _ _ (by omega)] at hsize'
        have hlink' := (vm1.putWord f 0 (finish - start)).word_putWord f 4 (show 0 < wordSize by decide)
        have node : NodeOk s.state.vm (start, finish - start) := by
          rw [← hreturn]
          refine ⟨hbase, ?_, by simp only; omega, by simp only; omega, ⟨f, hmapped, hone⟩, ?_⟩
          · simp only [PAGE_SIZE] at hbase hend ⊢
            omega
          · intro page hlo hhi
            simp only at hlo hhi
            rw [Vm.putWord_frameOf, Vm.putWord_frameOf, hframeOf, Function.update_of_ne]
            · exact fresh.unmapped page (Nat.le_of_lt hlo) (by omega)
            · rintro rfl
              omega
        refine ⟨?_, ?_, hstart, hfinish, ⟨?_, by simpa using node, by simp [Spaced], by simp, ?_⟩, ?_,
          by simp [hblocks], ?_, ?_⟩
        · rw [← hreturn]
        · rw [← hreturn]
        · rw [← hreturn]
          refine ⟨rfl, Nat.ne_of_gt hstart, 0, ?_, rfl⟩
          have hmapped'' : ((vm1.putWord f 0 (finish - start)).putWord f 4 0).frameOf
              (start / PAGE_SIZE) = some f := hmapped
          rw [header_of_mapped hmapped'', hsize', hlink']
        · rw [← hreturn]
          exact hok
        · intro x
          rw [hblocks, List.append_nil, coverage_singleton, Nat.add_sub_cancel' (Nat.le_of_lt hlt)]
        · rw [← hreturn]
          exact Nat.two_pow_pos 32
        · rw [← hreturn]
          exact fun _ => rfl
    · simp [rangeAllocatorInit, assert, hbase, hend] at hreturn
  · simp [rangeAllocatorInit, assert, hbase] at hreturn

theorem Vm.bare_fresh : Fresh 4096 16384 Vm.bare :=
  ⟨by decide, by decide, by decide, Vm.bare_pagesOk, fun _ _ _ => rfl⟩

/-- The list `free` in the memory of an allocator. -/
def RangeState.Holds (s : RangeState P) (free : List Segment) : Prop :=
  NodeSeg s.vm.header s.allocator.ranges free 0

/-- What an allocation is to do: it returns with the mutex released, and has either taken an aligned
    block from the front of one free range or left the free list as it was. -/
def AllocMeets (current : P) (size : Nat) (s : RangeState P) : Prop :=
  Yields (rangeAllocatorAlloc current size) s fun r s' =>
    s'.allocator.lock.holder = none ∧ ∃ free free', s.Holds free ∧ s'.Holds free' ∧
      match r with
      | .ok addr => addr % PAGE_SIZE = 0 ∧ ∃ pre n post k, free = pre ++ (addr, n) :: post ∧
          size ≤ k ∧ k ≤ n ∧ free' = pre ++ (if n = k then [] else [(addr + k, n - k)]) ++ post
      | .error _ => free' = free

/-- What a release is to do: it returns with the mutex released. -/
def FreeMeets (current : P) (addr size : Nat) (s : RangeState P) : Prop :=
  Yields (rangeAllocatorFree current addr size) s fun _ s' => s'.allocator.lock.holder = none

namespace RangeInvariant

variable {s : RangeHistory P} {free : List Segment} {current : P}

/-- A mutex that is not ready when a call takes it is not released by the call. -/
theorem unlock_not_ready {α : Type} {r r' : α} {state state' : RangeState P}
    (inv : RangeInvariant start finish s free) (hlock : s.state.LockFree current)
    (hready : s.state.allocator.lock.level ≠ 0)
    (hallocator : state.allocator.lock = (s.state.locked current).allocator.lock)
    (hreturn : unlockAndReturn current r state = .ok (r', state')) :
    state'.allocator.lock.holder ≠ none := by
  obtain ⟨_, m, rfl, hlevel, hzero⟩ := unlockAndReturn_ok hreturn
  rw [hallocator, locked_level hlock] at hlevel
  have hlt := inv.level_lt
  simp only at hlevel ⊢
  rw [ne_eq, hzero]
  omega

theorem allocMeets_iff {size : Nat} (inv : RangeInvariant start finish s free) (hpos : 0 < size)
    (hsize : size < wordSize) :
    AllocMeets current size s.state ↔
      LockReady current s.state.allocator.lock ∧ ∃ r ∈ free, size ≤ r.2 := by
  constructor
  · intro h
    obtain ⟨r, s', hreturn, hholder, _⟩ := yields_iff.1 h
    obtain ⟨hfree, hlock, hround⟩ := rangeAllocatorAlloc_returns inv.ok hreturn
    have hle : size ≤ roundUp size := by
      apply le_roundUp
      by_contra hgt
      rw [roundUp_of_gt (Nat.lt_of_not_le hgt) hsize] at hround
      exact Nat.lt_irrefl 0 hround
    rcases rangeAllocatorAlloc_spec current inv.ok hfree hlock hround with ⟨halloc, _⟩ |
      ⟨halloc, x, hx, hfit⟩ | ⟨state, pre, it, n, post, halloc, rfl, hfit, _, hallocator⟩
    · rw [halloc, Except.ok.injEq, Prod.mk.injEq] at hreturn
      rw [← hreturn.2, locked_level hlock] at hholder
      simp at hholder
    · rw [halloc] at hreturn
      refine ⟨⟨hlock, ?_⟩, x, hx, hle.trans hfit⟩
      by_contra hready
      exact inv.unlock_not_ready hlock hready rfl hreturn hholder
    · rw [halloc] at hreturn
      refine ⟨⟨hlock, ?_⟩, (it, n), by simp, hle.trans hfit⟩
      by_contra hready
      exact inv.unlock_not_ready hlock hready (by rw [hallocator]) hreturn hholder
  · rintro ⟨hready, x, hx, hfits⟩
    have node := inv.ok.nodes x hx
    have hlt := node.lt
    have hxsize := node.size
    have hle : size ≤ roundUp size := by
      apply le_roundUp
      simp only [wordSize, PAGE_SIZE] at hlt hxsize ⊢
      omega
    have hround : roundUp size ≤ x.2 := roundUp_le hfits hxsize
    have hfree : free ≠ [] := List.ne_nil_of_mem hx
    rcases rangeAllocatorAlloc_spec current inv.ok hfree hready.1 (hpos.trans_le hle) with ⟨_, hsmall⟩ |
      ⟨halloc, _⟩ | ⟨state, pre, it, n, post, halloc, rfl, hfit, ok, hallocator⟩
    · have := hsmall x hx
      omega
    · rw [unlockAndReturn_ready hready rfl] at halloc
      exact yields_of_return halloc ⟨rfl, free, free, inv.ok.list, inv.ok.list, rfl⟩
    · rw [unlockAndReturn_ready hready (by rw [hallocator]; rfl)] at halloc
      have hnode := inv.ok.nodes (it, n) (by simp)
      exact yields_of_return halloc ⟨rfl, _, _, inv.ok.list, ok.list, hnode.base, pre, n, post,
        roundUp size, rfl, hle, hfit, rfl⟩

theorem freeMeets_iff {addr size : Nat} (inv : RangeInvariant start finish s free)
    (hblock : s.Returns addr size) :
    FreeMeets current addr size s.state ↔
      LockReady current s.state.allocator.lock ∧ s.state.allocator.ranges ≠ 0 := by
  obtain ⟨block, hstart, hfinish, hapart⟩ := inv.block hblock
  have hlt := inv.finish_lt
  rw [← inv.starts] at hstart
  rw [← inv.finishes] at hfinish hlt
  rw [ne_eq, ← free_eq_nil_iff inv.ok]
  constructor
  · intro h
    obtain ⟨r, s', hreturn, hholder⟩ := yields_iff.1 h
    obtain ⟨hfree, hlock⟩ := rangeAllocatorFree_returns inv.ok block.base hstart hfinish hlt hreturn
    obtain ⟨r0, state, hcall, hallocator, _⟩ :=
      rangeAllocatorFree_spec inv.ok hfree hlock hstart hfinish block hapart
    rw [hcall] at hreturn
    refine ⟨⟨hlock, ?_⟩, hfree⟩
    by_contra hready
    exact inv.unlock_not_ready hlock hready (by rw [hallocator]) hreturn hholder
  · rintro ⟨hready, hfree⟩
    obtain ⟨r0, state, hcall, hallocator, _⟩ :=
      rangeAllocatorFree_spec inv.ok hfree hready.1 hstart hfinish block hapart
    rw [unlockAndReturn_ready hready (by rw [hallocator]; rfl)] at hcall
    exact yields_of_return hcall rfl

end RangeInvariant

/-- In every state reached, an allocation does what it is to do exactly when the mutex is ready for the
    caller and some free range is large enough, and a release exactly when the mutex is ready and some
    range is free. -/
theorem range_allocator_totality {s t : RangeHistory P}
    {xs : List (Transition (RangeHistory P) (RangeEvent P))} (fresh : Fresh start finish vm)
    (hinit : (rangeSystem P start finish vm).init s)
    (run : (rangeSystem P start finish vm).Run s xs t) :
    (∀ current size, 0 < size → size < wordSize →
      (AllocMeets current size t.state ↔ LockReady current t.state.allocator.lock ∧
        ∃ free, t.state.Holds free ∧ ∃ r ∈ free, size ≤ r.2)) ∧
    ∀ current addr size, t.Returns addr size →
      (FreeMeets current addr size t.state ↔
        LockReady current t.state.allocator.lock ∧ t.state.allocator.ranges ≠ 0) := by
  have hfirst : ∃ free, RangeInvariant start finish s free := ⟨_, rangeInvariant_init fresh hinit⟩
  obtain ⟨free, inv⟩ := run.invariant (fun s => ∃ free, RangeInvariant start finish s free)
    (fun _ _ _ inv step => rangeInvariant_step inv step) hfirst
  refine ⟨?_, fun current addr size hblock => inv.freeMeets_iff hblock⟩
  intro current size hpos hsize
  rw [inv.allocMeets_iff hpos hsize]
  apply and_congr_right
  intro _
  constructor
  · exact fun hfit => ⟨free, inv.ok.list, hfit⟩
  · rintro ⟨free', hholds, hfit⟩
    rwa [← hholds.unique inv.ok.list]

set_option synthInstance.maxSize 256 in
/-- After one page has been handed out, the rest is served as well. -/
theorem range_allocator_totality_after_alloc :
    ∃ s xs t, (rangeSystem Unit 4096 16384 Vm.bare).init s ∧
      (rangeSystem Unit 4096 16384 Vm.bare).Run s xs t ∧
      xs.map Transition.event = [.alloc () 100 (.ok 4096)] ∧ AllocMeets () 8192 t.state := by
  have hserves : Yields (rangeAllocatorInit 4096 16384)
      ({ allocator := {}, vm := Vm.bare } : RangeState Unit)
      fun r s => r = .ok () ∧ Yields (rangeAllocatorAlloc () 100) s
        fun r s => r = .ok 4096 ∧ s.allocator.ranges = 8192 ∧ s.vm.header 8192 = some (8192, 0) ∧
          s.allocator.lock.holder = none ∧ s.allocator.lock.level = 0 := by decide +kernel
  obtain ⟨_, s0, hinit, rfl, halloc⟩ := yields_iff.1 hserves
  obtain ⟨_, s1, halloc, rfl, hranges, hheader, hholder, hlevel⟩ := yields_iff.1 halloc
  have hsystem : (rangeSystem Unit 4096 16384 Vm.bare).init { state := s0, blocks := [] } :=
    ⟨{}, rfl, hinit⟩
  have run : (rangeSystem Unit 4096 16384 Vm.bare).Run { state := s0, blocks := [] } _ _ :=
    .cons (.alloc () 100 4096 s1 (by decide) halloc) <| .nil _
  have hholds : s1.Holds [(8192, 8192)] := ⟨hranges, by decide, 0, hheader, rfl⟩
  refine ⟨_, _, _, hsystem, run, rfl, ?_⟩
  apply ((range_allocator_totality Vm.bare_fresh hsystem run).1 () 8192 (by decide) (by decide)).2
  exact ⟨⟨Or.inl hholder, hlevel⟩, _, hholds, _, List.mem_singleton_self _, Nat.le_refl _⟩

/-- A size that does not fit returns with the mutex held, and a size near `2 ^ 32` or an allocator
    without a free range stops the kernel. -/
theorem rangeAllocatorAlloc_breaks_totality :
    ∃ s, (rangeSystem Unit 4096 16384 Vm.bare).init s ∧ ¬AllocMeets () 16384 s.state ∧
      ¬AllocMeets () (2 ^ 32 - 1) s.state ∧
      ∃ xs t, (rangeSystem Unit 4096 16384 Vm.bare).Run s xs t ∧ ¬AllocMeets () 1 t.state := by
  have hbreaks : Yields (rangeAllocatorInit 4096 16384)
      ({ allocator := {}, vm := Vm.bare } : RangeState Unit)
      fun r s => r = .ok () ∧
        ¬Yields (rangeAllocatorAlloc () 16384) s (fun _ s => s.allocator.lock.holder = none) ∧
        ¬Yields (rangeAllocatorAlloc () (2 ^ 32 - 1)) s (fun _ s => s.allocator.lock.holder = none) ∧
        Yields (rangeAllocatorAlloc () 12288) s fun r s => r = .ok 4096 ∧
          ¬Yields (rangeAllocatorAlloc () 1) s (fun _ s => s.allocator.lock.holder = none) := by
    decide +kernel
  have hreleased : ∀ (size : Nat) (s : RangeState Unit), AllocMeets () size s →
      Yields (rangeAllocatorAlloc () size) s fun _ s => s.allocator.lock.holder = none :=
    fun size s h => h.mono fun _ _ hpost => hpost.1
  obtain ⟨_, s0, hinit, rfl, hlarge, hwraps, halloc⟩ := yields_iff.1 hbreaks
  obtain ⟨_, s1, halloc, rfl, hempty⟩ := yields_iff.1 halloc
  have run : (rangeSystem Unit 4096 16384 Vm.bare).Run { state := s0, blocks := [] } _ _ :=
    .cons (.alloc () 12288 4096 s1 (by decide) halloc) <| .nil _
  exact ⟨{ state := s0, blocks := [] }, ⟨{}, rfl, hinit⟩, fun h => hlarge (hreleased _ _ h),
    fun h => hwraps (hreleased _ _ h), _, _, run, fun h => hempty (hreleased _ _ h)⟩

end Chaotix
