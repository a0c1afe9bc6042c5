/-
Module: Chaotix.Proofs.BufferBounds
Layer: Proofs
Purpose: The bounds of the growable buffer over runs. As long as the arithmetic of no call wraps and the
  old block can be given back whenever the buffer grows, the size of the buffer stays within its
  capacity, its block stays mapped, and no `memcpy` or `memset` leaves the block it was meant for,
  whatever the arguments of the calls.
Imports: Mathlib.Tactic, Chaotix.Proofs.BufferSpec
Trusted boundary: none
Main exports: BufBounds, BufGuard, bufOk_step, buffer_bounds
-/
import Mathlib.Tactic
import Chaotix.Proofs.BufferSpec

namespace Chaotix

/-! ### The property -/

/-- The bounds of a buffer. -/
structure BufBounds (s : BufState) : Prop where
  size_le : s.buf.size ≤ s.buf.capacity
  aligned : s.buf.capacity % PAGE_SIZE = 0
  /-- The capacity is the size of the block at `addr`, all of whose pages are mapped. -/
  owned : s.buf.capacity ≠ 0 → s.buf.block ∈ s.blocks
  mapped : ∀ page, InBlock s.buf.block page → (s.vm.frameOf page).isSome
  /-- Every byte that a `memcpy` or `memset` has touched lies in the block it was meant for. -/
  accesses : ∀ x ∈ s.accesses, x.Inside

theorem BufOk.bounds {s : BufState} {q n : Nat} (h : BufOk s q n) : BufBounds s := by
  refine ⟨h.size_le, ?_, ?_, ?_, h.accesses⟩
  · rw [h.capacity]
    exact Nat.mul_mod_left _ _
  · intro hne
    apply h.owned
    rintro rfl
    rw [h.capacity, Nat.zero_mul] at hne
    exact hne rfl
  · intro page hpage
    obtain ⟨hlo, hhi⟩ := h.inBlock.1 hpage
    exact h.isSome hlo hhi

/-- The calls whose arithmetic does not wrap: the end of a read is not wrapped to before the size, the
    end of a write and the new length are not among the last 4095 words; and a buffer that has to grow
    can give its old block back. -/
def BufGuard (s : BufState) : BufEvent → Prop
  | .pread count offset _ =>
      s.buf.size ≤ offset ∨ offset + count < wordSize ∨ s.buf.size ≤ (offset + count) % wordSize
  | .pwrite c bytes offset _ =>
      offset + bytes.length ≤ wordSize - PAGE_SIZE ∧ GrowGuard s c (offset + bytes.length)
  | .truncate c length _ => toSize length ≤ wordSize - PAGE_SIZE ∧ GrowGuard s c (toSize length)
  | .mmap .. => True
  | .client => True

/-! ### Mapping the buffer elsewhere -/

/-- Mapping a page that is held at an address that is not mapped leaves the other pages alone; at an
    address that is mapped it does not return. -/
theorem copyPageMapping_keeps {vm : Vm} {own : Nat → Prop} {toVaddr fromVaddr flags frame : Nat}
    (ok : PagesOk vm.pages) (hfrom : vm.frameOf (fromVaddr / PAGE_SIZE) = some frame)
    (hheld : vm.pages.Held frame 1) (hown : ∀ p, own p → (vm.frameOf p).isSome) :
    Ensures (copyPageMapping toVaddr fromVaddr flags) vm fun result vm' => KeepsPages own vm vm' ∧
      (result = .ok () → vm'.frameOf (toVaddr / PAGE_SIZE) = some frame ∧ vm'.pages.Held frame 1) := by
  apply ensures_iff.2
  intro result vm' hreturn
  cases hto : vm.frameOf (toVaddr / PAGE_SIZE) with
  | some frame' =>
      rw [copyPageMapping_mapped hfrom hto] at hreturn
      simp at hreturn
  | none =>
      rcases copyPageMapping_cases ok hfrom hheld hto flags with hnone |
        ⟨vm1, hsome, hframeOf, _, hok, htwice, hothers⟩
      · rw [hnone, Except.ok.injEq, Prod.mk.injEq] at hreturn
        obtain ⟨rfl, rfl⟩ := hreturn
        exact ⟨⟨fun _ _ => rfl, fun _ _ _ _ _ h => h, ok⟩, nofun⟩
      · rw [hsome, Except.ok.injEq, Prod.mk.injEq] at hreturn
        obtain ⟨_, rfl⟩ := hreturn
        refine ⟨⟨?_, fun _ f k _ _ h => hothers f k h, hok⟩, fun _ => ⟨?_, htwice.mono (by decide)⟩⟩
        · intro p hp
          rw [hframeOf, Function.update_of_ne]
          rintro rfl
          have hsome := hown _ hp
          rw [hto] at hsome
          simp at hsome
        · rw [hframeOf, Function.update_self]

/-- Mapping pages that are held, one after the other, keeps the mapped pages, and each target page ends up
    in the frame of its source. -/
theorem forPages_copy_keeps {own : Nat → Prop} {toVaddr fromVaddr flags n offset : Nat} {vm : Vm}
    (ok : PagesOk vm.pages) (hheld : ∀ p, own p → ∃ f, vm.frameOf p = some f ∧ vm.pages.Held f 1)
    (hfrom : ∀ i, i < n → own ((fromVaddr + (offset + i * PAGE_SIZE)) % wordSize / PAGE_SIZE)) :
    Ensures (forPages (fun offset => copyPageMapping ((toVaddr + offset) % wordSize)
        ((fromVaddr + offset) % wordSize) flags) offset n) vm fun result vm' =>
      KeepsPages own vm vm' ∧ (result = .ok () → ∀ i, i < n →
        vm'.frameOf ((toVaddr + (offset + i * PAGE_SIZE)) % wordSize / PAGE_SIZE) =
          vm.frameOf ((fromVaddr + (offset + i * PAGE_SIZE)) % wordSize / PAGE_SIZE)) := by
  induction n generalizing own offset vm with
  | zero =>
      exact ⟨⟨fun _ _ => rfl, fun _ _ _ _ _ h => h, ok⟩, fun _ i hi => absurd hi (Nat.not_lt_zero i)⟩
  | succ n ih =>
      have hfirst := hfrom 0 (Nat.zero_lt_succ n)
      rw [Nat.zero_mul, Nat.add_zero] at hfirst
      obtain ⟨frame, hframe, hone⟩ := hheld _ hfirst
      have hown : ∀ p, own p → (vm.frameOf p).isSome := by
        intro p hp
        obtain ⟨f, hf, _⟩ := hheld p hp
        rw [hf]
        rfl
      rw [forPages, ensures_bind]
      apply (copyPageMapping_keeps ok hframe hone hown).mono
      rintro result vm1 ⟨keeps, htarget⟩
      cases result with
      | error e => exact ⟨keeps, by simp⟩
      | ok u =>
          obtain ⟨hto, htoHeld⟩ := htarget rfl
          -- from here on the page that has just been mapped is kept as well
          let kept := fun p => own p ∨ p = (toVaddr + offset) % wordSize / PAGE_SIZE
          have hheld1 : ∀ p, kept p → ∃ f, vm1.frameOf p = some f ∧ vm1.pages.Held f 1 := by
            rintro p (hp | rfl)
            · obtain ⟨f, hf, hfheld⟩ := hheld p hp
              exact ⟨f, (keeps.frameOf p hp).trans hf, keeps.held p f 1 hp hf hfheld⟩
            · exact ⟨frame, hto, htoHeld⟩
          have hindex : ∀ i, offset + PAGE_SIZE + i * PAGE_SIZE = offset + (i + 1) * PAGE_SIZE := by
            intro i
            rw [Nat.succ_mul, Nat.add_comm (i * PAGE_SIZE), Nat.add_assoc]
          have hrest : ∀ i, i < n →
              own ((fromVaddr + (offset + PAGE_SIZE + i * PAGE_SIZE)) % wordSize / PAGE_SIZE) := by
            intro i hi
            rw [hindex]
            exact hfrom (i + 1) (Nat.succ_lt_succ hi)
          apply (ih keeps.pages hheld1 fun i hi => Or.inl (hrest i hi)).mono
          rintro result vm2 ⟨keeps', hshared⟩
          have keepsOwn : KeepsPages own vm1 vm2 := keeps'.mono fun _ hp => Or.inl hp
          refine ⟨keeps.trans keepsOwn, ?_⟩
          intro hresult i hi
          cases i with
          | zero =>
              rw [Nat.zero_mul, Nat.add_zero, keeps'.frameOf _ (Or.inr rfl), hto, hframe]
          | succ i =>
              have hi' := Nat.lt_of_succ_lt_succ hi
              have hsource := keeps.frameOf _ (hrest i hi')
              have hshared' := hshared hresult i hi'
              rw [hindex] at hshared' hsource
              rw [hshared', hsource]

/-- The pages that `growable_buf_mmap` maps are pages of the buffer. -/
theorem BufOk.mmap_page {s : BufState} {q n length i : Nat} (h : BufOk s q n) (hle : length ≤ s.buf.size)
    (hi : i < roundUp length / PAGE_SIZE) :
    i < n ∧ (s.buf.addr + (0 + i * PAGE_SIZE)) % wordSize / PAGE_SIZE = q + i := by
  have hcapacity : length ≤ n * PAGE_SIZE := by
    rw [← h.capacity]
    exact Nat.le_trans hle h.size_le
  have hround := Nat.div_le_div_right (c := PAGE_SIZE) (roundUp_le hcapacity (Nat.mul_mod_left _ _))
  rw [Nat.mul_div_cancel n (by decide)] at hround
  have hin : i < n := Nat.lt_of_lt_of_le hi hround
  refine ⟨hin, ?_⟩
  have hlt : (q + i) * PAGE_SIZE < wordSize :=
    Nat.lt_of_le_of_lt (Nat.mul_le_mul_right PAGE_SIZE (by omega)) h.lt
  rw [Nat.zero_add, h.addr, ← Nat.add_mul, Nat.mod_eq_of_lt hlt, Nat.mul_div_cancel _ (by decide)]

/-- `growable_buf_mmap` changes nothing but the mapping of the pages it maps. -/
structure Mmaps (s s' : BufState) (addr length : Nat) (result : Except Errno Nat) : Prop where
  onlyVm : s' = { s with vm := s'.vm }
  keeps : KeepsPages (InBlock s.buf.block) s.vm s'.vm
  target : ∀ paddr, result = .ok paddr → paddr = addr
  length_le : ∀ paddr, result = .ok paddr → length ≤ s.buf.size
  shared : ∀ paddr, result = .ok paddr → ∀ i, i < roundUp length / PAGE_SIZE →
    s'.vm.frameOf ((addr + i * PAGE_SIZE) % wordSize / PAGE_SIZE) = s.pageFrame i

/-- `growable_buf_mmap`, at any address. -/
theorem growableBufMmap_spec {s : BufState} {q n addr length pageFlags : Nat} {offset : Int}
    (h : BufOk s q n) :
    Ensures (growableBufMmap addr length offset pageFlags) s fun result s' => Mmaps s s' addr length result := by
  have hsame : ∀ e, Mmaps s s addr length (.error e) := fun e =>
    ⟨rfl, ⟨fun _ _ => rfl, fun _ _ _ _ _ h => h, h.pages⟩, by simp, by simp, by simp⟩
  rw [growableBufMmap, ensures_bind, ensures_get]
  dsimp only
  split_ifs with hflags hlength
  · exact hsame .ENOTSUP
  · exact hsame .EINVAL
  · have hle : length ≤ s.buf.size := Nat.le_of_not_lt hlength
    rw [ensures_bind, onBufVm, ensures_focus, pagingCopyMapping, ensures_bind]
    apply ensures_require.2
    intro _
    rw [ensures_bind]
    apply ensures_require.2
    intro _
    have hheld : ∀ p, InBlock s.buf.block p → ∃ f, s.vm.frameOf p = some f ∧ s.vm.pages.Held f 1 :=
      fun p hp => h.mapped p (h.inBlock.1 hp).1 (h.inBlock.1 hp).2
    have hfrom : ∀ i, i < roundUp length / PAGE_SIZE →
        InBlock s.buf.block ((s.buf.addr + (0 + i * PAGE_SIZE)) % wordSize / PAGE_SIZE) := by
      intro i hi
      obtain ⟨hin, hpage⟩ := h.mmap_page hle hi
      rw [hpage]
      exact h.inBlock.2 ⟨Nat.le_add_right q i, Nat.add_lt_add_left hin q⟩
    apply (forPages_copy_keeps h.pages hheld hfrom).mono
    rintro result vm ⟨keeps, hshared⟩
    cases result with
    | error e => exact ⟨rfl, keeps, by simp, by simp, by simp⟩
    | ok u =>
        refine ⟨rfl, keeps, ?_, fun _ _ => hle, ?_⟩
        · rintro paddr ⟨⟩
          rfl
        · intro _ _ i hi
          have hsame := hshared rfl i hi
          rw [(h.mmap_page hle hi).2, Nat.zero_add] at hsame
          rw [BufState.pageFrame, h.addr, Nat.mul_div_cancel _ (by decide)]
          exact hsame

theorem BufOk.mmaps {s s' : BufState} {q n addr length : Nat} {result : Except Errno Nat} (h : BufOk s q n)
    (mmaps : Mmaps s s' addr length result) : BufOk s' q n := by
  have hbuf : s'.buf = s.buf := by rw [mmaps.onlyVm]
  have hblocks : s'.blocks = s.blocks := by rw [mmaps.onlyVm]
  have haccesses : s'.accesses = s.accesses := by rw [mmaps.onlyVm]
  exact h.keeps hbuf (by rw [hblocks]; exact fun _ hb => hb) (by rw [haccesses]; exact h.accesses)
    mmaps.keeps

/-! ### The zero buffer -/

/-- The zero buffer. -/
theorem bufOk_zero {s : BufState} (hinit : bufSystem.init s) : BufOk s 0 0 := by
  obtain ⟨hbuf, hblocks, haccesses, ok⟩ := hinit
  refine ⟨by rw [hbuf]; rfl, by rw [hbuf]; rfl, by rw [hbuf], Iff.rfl, by decide,
    ?_, ?_, ok, fun h => absurd rfl h, ?_⟩
  · intro p hlo hhi
    omega
  · intro p p' hlo hhi
    omega
  · rw [haccesses]
    simp

/-- The range allocator hands out the second page, and gives everything back. -/
def growAtPage : GrowChoice where
  alloc := .ok PAGE_SIZE
  afterAlloc vm := vm
  free := .ok ()
  afterFree vm := vm

/-- The zero buffer where nothing is mapped. -/
def zeroBuf : BufState := { vm := Vm.bare }

theorem zeroBuf_init : bufSystem.init zeroBuf := ⟨rfl, rfl, rfl, Vm.bare_pagesOk⟩

theorem growAtPage_sound : growAtPage.Sound zeroBuf PAGE_SIZE := by
  refine ⟨⟨⟨fun _ _ => rfl, fun _ _ _ _ _ h => h, Vm.bare_pagesOk⟩, fun _ _ _ _ => rfl⟩, ?_, ?_, ?_, ?_⟩
  · rintro addr ⟨⟩
    rfl
  · rintro addr ⟨⟩
    decide
  · intro addr page _ _
    rfl
  · intro addr vm _ ok
    exact ⟨⟨fun _ _ => rfl, fun _ _ _ _ _ h => h, ok⟩, fun _ _ _ _ => rfl⟩

/-- The address space once page 1 is mapped: frame 0 is the page table, and frame 1 is mapped. -/
def pageVm : Vm where
  pde := Function.update Vm.bare.pde 0 (some 0)
  pte := Function.update (fun page => if page / 1024 = 0 then none else Vm.bare.pte page) 1
    (some { frame := 1, flags := bufPageFlags })
  ram := Vm.bare.ram
  pages := (Vm.bare.pages.take 0).take 1

theorem pageVm_map :
    pagingMapToFreePages PAGE_SIZE PAGE_SIZE bufPageFlags Vm.bare = .ok (.ok (), pageVm) := by
  have hfirst : Vm.bare.pages.bitmap.findFirst 0 Vm.bare.pages.bitmapLen = some 0 := by decide
  have hsecond : (Vm.bare.pages.take 0).bitmap.findFirst 0 (Vm.bare.pages.take 0).bitmapLen = some 1 := by
    decide
  have halloc := pageAllocatorAlloc_some hfirst (by decide) rfl
  have halloc' := pageAllocatorAlloc_some hsecond (by decide) rfl
  rw [pagingMapToFreePages_small Vm.bare PAGE_SIZE (by decide) (by decide) (by decide) (by decide)]
  have hpde : Vm.bare.pde 0 = none := rfl
  have hidx : PAGE_SIZE / (1024 * PAGE_SIZE) = 0 := rfl
  have hpage : PAGE_SIZE / PAGE_SIZE = 1 := rfl
  simp only [mapPageToFreePage, getOrCreatePageTable, Program.run_bind, Program.run_get, hidx, hpde,
    onPages, Program.focus, halloc, Program.run_modify, Program.run_pure, assert, Program.run_require,
    hpage, if_true, halloc', setPte]
  rfl

/-- One page is mapped for the new block of the zero buffer. -/
theorem zeroBuf_mapBlock : mapBlock {} PAGE_SIZE PAGE_SIZE { zeroBuf with blocks := [(PAGE_SIZE, PAGE_SIZE)] } =
      .ok (.ok (), { zeroBuf with
        vm := pageVm
        blocks := [(PAGE_SIZE, PAGE_SIZE)] }) := by
  have haddr : (PAGE_SIZE + 0) % wordSize = PAGE_SIZE := rfl
  have hsize : (PAGE_SIZE + wordSize - 0) % wordSize = PAGE_SIZE := rfl
  simp only [mapBlock, shareOld, ne_eq, not_true_eq_false, if_false, assert, Program.run_bind,
    Program.run_require, if_true, Program.run_pure, run_onBufVm, haddr, hsize, zeroBuf, pageVm_map]

theorem zeroBuf_growBuf {requestedSize : Nat} (hm : growCapacity 0 requestedSize = PAGE_SIZE) :
    ∃ q s', growBuf growAtPage requestedSize zeroBuf = .ok (.ok (), s') ∧ Grows zeroBuf s' q 1 := by
  have hcapacity : growCapacity zeroBuf.buf.capacity requestedSize = 1 * PAGE_SIZE := hm
  rcases growBuf_cases (bufOk_zero zeroBuf_init) hcapacity (by decide) (by decide) growAtPage_sound with
    ⟨e, s', _, _, hfail⟩ | ⟨q, s', hgrow, grows, _⟩ | ⟨_, _, _, _, hzero, _⟩
  · obtain ⟨t, hfail⟩ := hfail PAGE_SIZE rfl
    have hsame := zeroBuf_mapBlock.symm.trans hfail
    simp at hsame
  · exact ⟨q, s', hgrow, grows⟩
  · exact absurd rfl hzero

/-! ### Steps and runs -/

/-- Every guarded step keeps the buffer. -/
theorem bufOk_step {s s' : BufState} {e : BufEvent} (inv : ∃ q n, BufOk s q n) (guard : BufGuard s e)
    (step : BufStep s e s') : ∃ q n, BufOk s' q n := by
  obtain ⟨q, n, h⟩ := inv
  cases step with
  | pread count offset result _ _ hread =>
      obtain ⟨bytes, s1, hreturn, ok, _⟩ := growableBufPread_spec count offset h guard
      rw [hread, Except.ok.injEq, Prod.mk.injEq] at hreturn
      exact ⟨q, n, hreturn.2 ▸ ok⟩
  | pwrite c bytes offset result _ _ sound hwrite =>
      rcases growableBufPwrite_spec h guard.1 sound guard.2 with ⟨e, s1, hreturn, ok, _⟩ |
        ⟨s1, q', m, hreturn, ok, _⟩
      · rw [hwrite, Except.ok.injEq, Prod.mk.injEq] at hreturn
        exact ⟨q, n, hreturn.2 ▸ ok⟩
      · rw [hwrite, Except.ok.injEq, Prod.mk.injEq] at hreturn
        exact ⟨q', m, hreturn.2 ▸ ok⟩
  | truncate c length result _ _ sound htruncate =>
      rcases growableBufTruncate_spec h guard.1 sound guard.2 with ⟨e, s1, hreturn, ok, _⟩ |
        ⟨s1, q', m, hreturn, ok, _⟩
      · rw [htruncate, Except.ok.injEq, Prod.mk.injEq] at hreturn
        exact ⟨q, n, hreturn.2 ▸ ok⟩
      · rw [htruncate, Except.ok.injEq, Prod.mk.injEq] at hreturn
        exact ⟨q', m, hreturn.2 ▸ ok⟩
  | mmap addr length offset pageFlags result _ _ hmmap =>
      exact ⟨q, n, h.mmaps (ensures_iff.1 (growableBufMmap_spec h) _ _ hmmap)⟩
  | client vm keeps => exact ⟨q, n, h.keeps rfl (fun _ hb => hb) h.accesses keeps⟩

/-- The bounds over runs. -/
theorem buffer_bounds {s t : BufState} {xs : List (Transition BufState BufEvent)}
    (hinit : bufSystem.init s) (run : bufSystem.Run s xs t)
    (guard : ∀ x ∈ xs, BufGuard x.before x.event) : BufBounds t := by
  obtain ⟨q, n, h⟩ := run.guarded_invariant (fun s => ∃ q n, BufOk s q n)
    (fun _ _ _ inv guard step => bufOk_step inv guard step) ⟨0, 0, bufOk_zero hinit⟩ guard
  exact h.bounds

/-- A buffer that has been written once. -/
theorem buffer_bounds_after_pwrite : ∃ t, bufSystem.Run zeroBuf
    [⟨zeroBuf, .pwrite growAtPage [1, 2, 3] 5 (.ok 3), t⟩] t ∧ BufBounds t := by
  have hm : growCapacity 0 8 = PAGE_SIZE := by decide
  obtain ⟨q, s', hgrow, grows⟩ := zeroBuf_growBuf hm
  obtain ⟨t, hwrite, _⟩ := writeAt_spec [1, 2, 3] 5 grows.ok (by decide)
  have hrun : growableBufPwrite growAtPage [1, 2, 3] 5 zeroBuf = .ok (.ok 3, t) :=
    growableBufPwrite_grow [1, 2, 3] 5 (Nat.mod_eq_of_lt (by decide)) (by decide) hgrow hwrite
  have run : bufSystem.Run zeroBuf [⟨zeroBuf, .pwrite growAtPage [1, 2, 3] 5 (.ok 3), t⟩] t :=
    .cons (.pwrite growAtPage [1, 2, 3] 5 _ (by decide) (by decide) (hm ▸ growAtPage_sound) hrun) (.nil t)
  refine ⟨t, run, buffer_bounds zeroBuf_init run ?_⟩
  intro x hx
  obtain rfl := List.mem_singleton.1 hx
  exact ⟨by decide, fun _ _ => rfl⟩

/-- A new length of -1 is the length of the whole address space, whose last page boundary is zero. -/
theorem growableBufTruncate_breaks_bounds : ∃ s xs t, bufSystem.init s ∧ bufSystem.Run s xs t ∧
    ¬BufBounds t := by
  have hm : growCapacity 0 (toSize (-1)) = PAGE_SIZE := by decide
  obtain ⟨q, s', hgrow, grows⟩ := zeroBuf_growBuf hm
  have hrun := growableBufTruncate_grow (s := zeroBuf) (by decide) (by decide) hgrow
  refine ⟨zeroBuf, _, _, zeroBuf_init, .cons (.truncate growAtPage (-1) _ (by decide) (by decide)
    (hm ▸ growAtPage_sound) hrun) (.nil _), ?_⟩
  intro bounds
  have hle : toSize (-1) ≤ s'.buf.capacity := bounds.size_le
  rw [grows.ok.capacity] at hle
  exact absurd hle (by decide)

end Chaotix
