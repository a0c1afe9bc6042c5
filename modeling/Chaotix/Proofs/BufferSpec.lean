/-
Module: Chaotix.Proofs.BufferSpec
Layer: Proofs
Purpose: What the functions of the growable buffer do to its memory. `BufOk s q n` says that the buffer
  of `s` has the `n` pages from page `q` on, each mapped to a frame of its own. Growing moves it to a new
  block with the same bytes and zeroes behind them, or fails and leaves it alone; it is described for
  every new capacity of at least the old one, whatever the calls it makes return, except for a failure
  to give the old block back.
Imports: Mathlib.Tactic, Chaotix.Kernel.GrowableBuf, Chaotix.Proofs.MappingSpec
Trusted boundary: none
Main exports: BufOk, BufState.byte, growBuf_spec, memcpyTo_eq, memcpyFrom_eq
-/
import Mathlib.Tactic
import Chaotix.Kernel.GrowableBuf
import Chaotix.Proofs.MappingSpec

namespace Chaotix

/-! ### Other code -/

theorem KeepsPages.trans {own : Nat → Prop} {vm vm' vm'' : Vm} (h : KeepsPages own vm vm')
    (h' : KeepsPages own vm' vm'') : KeepsPages own vm vm'' := by
  refine ⟨?_, ?_, h'.pages⟩
  · intro page hown
    rw [h'.frameOf page hown, h.frameOf page hown]
  · intro page frame k hown hframe hheld
    have hframe' := (h.frameOf page hown).trans hframe
    exact h'.held page frame k hown hframe' (h.held page frame k hown hframe hheld)

theorem KeepsPages.mono {own own' : Nat → Prop} {vm vm' : Vm} (h : KeepsPages own' vm vm')
    (hsub : ∀ page, own page → own' page) : KeepsPages own vm vm' :=
  ⟨fun page hown => h.frameOf page (hsub page hown),
    fun page frame k hown => h.held page frame k (hsub page hown), h.pages⟩

namespace KeepsBytes

variable {own : Nat → Prop} {vm vm' vm'' : Vm}

theorem trans (h : KeepsBytes own vm vm') (h' : KeepsBytes own vm' vm'') : KeepsBytes own vm vm'' := by
  refine ⟨h.toKeepsPages.trans h'.toKeepsPages, ?_⟩
  intro page frame hown hframe
  have hframe' := (h.frameOf page hown).trans hframe
  rw [h'.ram page frame hown hframe', h.ram page frame hown hframe]

theorem byteAt (h : KeepsBytes own vm vm') {a : Nat} (hown : own (a / PAGE_SIZE)) :
    vm'.byteAt a = vm.byteAt a := by
  rw [Vm.byteAt, Vm.byteAt, h.frameOf _ hown]
  cases hframe : vm.frameOf (a / PAGE_SIZE) with
  | none => rfl
  | some frame => simp [h.ram _ frame hown hframe]

end KeepsBytes

theorem byteAt_congr {vm vm' : Vm} {a : Nat}
    (hframe : vm'.frameOf (a / PAGE_SIZE) = vm.frameOf (a / PAGE_SIZE)) (hram : vm'.ram = vm.ram) :
    vm'.byteAt a = vm.byteAt a := by
  rw [Vm.byteAt, Vm.byteAt, hframe, hram]

/-- A function that changes the mapping of pages which are not mapped leaves the others alone. -/
theorem keepsBytes_of_outside {own : Nat → Prop} {vm vm' : Vm} {q n : Nat}
    (houtside : ∀ p, p < q ∨ q + n ≤ p → vm'.frameOf p = vm.frameOf p) (hram : vm'.ram = vm.ram)
    (hpages : PagesOk vm'.pages) (hheld : ∀ f k, vm.pages.Held f k → vm'.pages.Held f k)
    (hfree : ∀ p, q ≤ p → p < q + n → vm.frameOf p = none)
    (hown : ∀ p, own p → (vm.frameOf p).isSome) : KeepsBytes own vm vm' := by
  refine ⟨⟨?_, fun _ f k _ _ => hheld f k, hpages⟩, fun _ _ _ _ => by rw [hram]⟩
  intro p hp
  apply houtside
  by_contra hin
  have hsome := hown p hp
  rw [hfree p (by omega) (by omega)] at hsome
  simp at hsome

theorem inBlock_iff {q n p : Nat} :
    InBlock (q * PAGE_SIZE, n * PAGE_SIZE) p ↔ q ≤ p ∧ p < q + n := by
  simp only [InBlock, PAGE_SIZE]
  omega

/-! ### The buffer -/

/-- The buffer has the `n` pages from page `q` on, each in a frame of its own, and no access has left
    its block. -/
structure BufOk (s : BufState) (q n : Nat) : Prop where
  addr : s.buf.addr = q * PAGE_SIZE
  capacity : s.buf.capacity = n * PAGE_SIZE
  size_le : s.buf.size ≤ s.buf.capacity
  null_iff : q = 0 ↔ n = 0
  lt : (q + n) * PAGE_SIZE < wordSize
  mapped : PagesHeld s.vm q n 1
  distinct : PagesDistinct s.vm q n
  pages : PagesOk s.vm.pages
  owned : n ≠ 0 → s.buf.block ∈ s.blocks
  accesses : ∀ x ∈ s.accesses, x.Inside

/-- The frame behind a page of the buffer. -/
def BufState.pageFrame (s : BufState) (k : Nat) : Option Nat := s.vm.frameOf (s.buf.addr / PAGE_SIZE + k)

/-- The byte of the buffer at an offset. -/
def BufState.byte (s : BufState) (i : Nat) : Option UInt8 := s.vm.byteAt (s.buf.addr + i)

namespace BufOk

variable {s s' : BufState} {q n : Nat}

theorem block_eq (h : BufOk s q n) : s.buf.block = (q * PAGE_SIZE, n * PAGE_SIZE) := by
  rw [GrowableBuf.block, h.addr, h.capacity]

theorem inBlock (h : BufOk s q n) {p : Nat} : InBlock s.buf.block p ↔ q ≤ p ∧ p < q + n := by
  rw [h.block_eq, inBlock_iff]

theorem isSome (h : BufOk s q n) {p : Nat} (hlo : q ≤ p) (hhi : p < q + n) :
    (s.vm.frameOf p).isSome := by
  obtain ⟨f, hf, _⟩ := h.mapped p hlo hhi
  rw [hf]
  rfl

/-- The page of an offset. -/
theorem page (h : BufOk s q n) {i : Nat} (hi : i < s.buf.capacity) :
    q ≤ (s.buf.addr + i) / PAGE_SIZE ∧ (s.buf.addr + i) / PAGE_SIZE < q + n := by
  have haddr := h.addr
  have hcapacity := h.capacity
  simp only [PAGE_SIZE] at haddr hcapacity ⊢
  omega

theorem byte_isSome (h : BufOk s q n) {i : Nat} (hi : i < s.buf.capacity) : (s.byte i).isSome := by
  obtain ⟨hlo, hhi⟩ := h.page hi
  rw [BufState.byte, Vm.byteAt, Option.isSome_map]
  exact h.isSome hlo hhi

/-- The rest of the kernel keeps the buffer. -/
theorem keeps (h : BufOk s q n) (hbuf : s'.buf = s.buf) (hblocks : s.blocks ⊆ s'.blocks)
    (haccesses : ∀ x ∈ s'.accesses, x.Inside)
    (keeps : KeepsPages (InBlock s.buf.block) s.vm s'.vm) : BufOk s' q n := by
  have hframe : ∀ p, q ≤ p → p < q + n → s'.vm.frameOf p = s.vm.frameOf p := fun p hlo hhi =>
    keeps.frameOf p (h.inBlock.2 ⟨hlo, hhi⟩)
  refine ⟨hbuf ▸ h.addr, hbuf ▸ h.capacity, hbuf ▸ h.size_le, h.null_iff, h.lt, ?_, ?_, keeps.pages,
    fun hn => hbuf ▸ hblocks (h.owned hn), haccesses⟩
  · intro p hlo hhi
    obtain ⟨f, hf, hheld⟩ := h.mapped p hlo hhi
    exact ⟨f, (hframe p hlo hhi).trans hf, keeps.held p f 1 (h.inBlock.2 ⟨hlo, hhi⟩) hf hheld⟩
  · intro p p' hlo hhi hlo' hhi' heq
    rw [hframe p hlo hhi, hframe p' hlo' hhi'] at heq
    exact h.distinct p p' hlo hhi hlo' hhi' heq

/-- Nor do its bytes change. -/
theorem byte_keeps (h : BufOk s q n) (hbuf : s'.buf = s.buf)
    (keeps : KeepsBytes (InBlock s.buf.block) s.vm s'.vm) {i : Nat} (hi : i < s.buf.capacity) :
    s'.byte i = s.byte i := by
  rw [BufState.byte, BufState.byte, hbuf]
  exact keeps.byteAt (h.inBlock.2 (h.page hi))

end BufOk

/-! ### Reading and writing a block -/

theorem run_onBufVm {α : Type} (m : Kernel Vm α) (s : BufState) :
    onBufVm m s = match m s.vm with
      | .ok (a, vm) => .ok (a, { s with vm := vm })
      | .error e => .error e := by
  simp only [onBufVm, Program.focus]
  cases m s.vm with
  | ok r => rfl
  | error e => rfl

/-- A block of mapped pages, each in a frame of its own. -/
structure BlockMapped (vm : Vm) (q n : Nat) : Prop where
  lt : (q + n) * PAGE_SIZE < wordSize
  mapped : ∀ p, q ≤ p → p < q + n → (vm.frameOf p).isSome
  distinct : PagesDistinct vm q n

theorem BufOk.blockMapped {s : BufState} {q n : Nat} (h : BufOk s q n) : BlockMapped s.vm q n :=
  ⟨h.lt, fun _ hlo hhi => h.isSome hlo hhi, h.distinct⟩

/-- The state after bytes have been written to a block at an offset. -/
structure Written (s s' : BufState) (q n offset : Nat) (bytes : List UInt8) : Prop where
  buf : s'.buf = s.buf
  blocks : s'.blocks = s.blocks
  onlyRam : s'.vm = { s.vm with ram := s'.vm.ram }
  accesses : (∀ x ∈ s.accesses, x.Inside) → ∀ x ∈ s'.accesses, x.Inside
  inside : ∀ i, i < bytes.length → s'.vm.byteAt (q * PAGE_SIZE + offset + i) = bytes[i]?
  outside : ∀ i, i < n * PAGE_SIZE → i < offset ∨ offset + bytes.length ≤ i →
    s'.vm.byteAt (q * PAGE_SIZE + i) = s.vm.byteAt (q * PAGE_SIZE + i)

namespace Written

variable {s s' : BufState} {q n offset : Nat} {bytes : List UInt8}

theorem frameOf (h : Written s s' q n offset bytes) : s'.vm.frameOf = s.vm.frameOf :=
  frameOf_of_ram h.onlyRam

theorem pages (h : Written s s' q n offset bytes) : s'.vm.pages = s.vm.pages := by
  rw [h.onlyRam]

end Written

section Blocks

variable {s : BufState} {q n : Nat}

theorem access_inside (q n offset len : Nat) (h : offset + len ≤ n * PAGE_SIZE) :
    Access.Inside ⟨q * PAGE_SIZE + offset, len, (q * PAGE_SIZE, n * PAGE_SIZE)⟩ := by
  right
  simp only
  omega

theorem memcpyTo_eq (offset : Nat) (bytes : List UInt8) (block : BlockMapped s.vm q n)
    (h : offset + bytes.length ≤ n * PAGE_SIZE) :
    ∃ s', memcpyTo (q * PAGE_SIZE, n * PAGE_SIZE) (q * PAGE_SIZE + offset) bytes s = .ok ((), s') ∧
      Written s s' q n offset bytes := by
  have hlt := block.lt
  obtain ⟨vm', hstore, stored⟩ := storeBytes_eq (q * PAGE_SIZE + offset) bytes
    (by simp only [wordSize, PAGE_SIZE] at hlt h ⊢; omega)
    (by intro i hi; simp only [PAGE_SIZE] at h ⊢; omega) block.mapped block.distinct
  refine ⟨{ s with
      vm := vm'
      accesses :=
        ⟨q * PAGE_SIZE + offset, bytes.length, (q * PAGE_SIZE, n * PAGE_SIZE)⟩ :: s.accesses },
    ?_, rfl, rfl, stored.onlyRam, ?_, stored.inside, ?_⟩
  · simp only [memcpyTo, Program.run_bind, touch, Program.run_modify, run_onBufVm, hstore]
  · exact fun hinside => List.forall_mem_cons.2 ⟨access_inside q n offset _ h, hinside⟩
  · intro i hi hout
    apply stored.outside
    · simp only [PAGE_SIZE]
      omega
    · simp only [PAGE_SIZE] at hi ⊢
      omega
    · omega

theorem memsetZero_eq (offset count : Nat) (block : BlockMapped s.vm q n)
    (h : offset + count ≤ n * PAGE_SIZE) :
    ∃ s', memsetZero (q * PAGE_SIZE, n * PAGE_SIZE) (q * PAGE_SIZE + offset) count s = .ok ((), s') ∧
      Written s s' q n offset (List.replicate count 0) := by
  have hlength : (List.replicate count (0 : UInt8)).length = count := List.length_replicate
  obtain ⟨s', hwrite, written⟩ := memcpyTo_eq offset (List.replicate count 0) block (by rw [hlength]; exact h)
  rw [memcpyTo, hlength] at hwrite
  exact ⟨s', hwrite, written⟩

/-- Reading a block records the access and returns its bytes. -/
theorem memcpyFrom_eq (offset count : Nat) (block : BlockMapped s.vm q n)
    (h : offset + count ≤ n * PAGE_SIZE) :
    ∃ bytes, memcpyFrom (q * PAGE_SIZE, n * PAGE_SIZE) (q * PAGE_SIZE + offset) count s =
        .ok (bytes, { s with accesses :=
          ⟨q * PAGE_SIZE + offset, count, (q * PAGE_SIZE, n * PAGE_SIZE)⟩ :: s.accesses }) ∧
      bytes.length = count ∧
      ∀ i, i < count → bytes[i]? = s.vm.byteAt (q * PAGE_SIZE + offset + i) := by
  have hlt := block.lt
  obtain ⟨bytes, hload, hlength, hget⟩ := loadBytes_eq s.vm (q * PAGE_SIZE + offset) count
    (by simp only [wordSize, PAGE_SIZE] at hlt h ⊢; omega) (by
      intro i hi
      rw [Vm.byteAt, Option.isSome_map]
      apply block.mapped
      · simp only [PAGE_SIZE]
        omega
      · simp only [PAGE_SIZE] at h ⊢
        omega)
  refine ⟨bytes, ?_, hlength, hget⟩
  simp only [memcpyFrom, Program.run_bind, touch, Program.run_modify, run_onBufVm, hload]

end Blocks

/-! ### Growing -/

/-- A call of `grow_buf` that fails leaves the buffer alone. -/
structure GrowFails (s s' : BufState) : Prop where
  buf : s'.buf = s.buf
  blocks : s.blocks ⊆ s'.blocks
  accesses : s'.accesses = s.accesses
  keeps : KeepsBytes (InBlock s.buf.block) s.vm s'.vm

/-- A call of `grow_buf` that succeeds moves the bytes of the buffer to a larger block, with zeroes
    behind them. -/
structure Grows (s s' : BufState) (q m : Nat) : Prop where
  ok : BufOk s' q m
  size : s'.buf.size = s.buf.size
  same : ∀ i, i < s.buf.size → s'.byte i = s.byte i
  zero : ∀ i, s.buf.size ≤ i → i < m * PAGE_SIZE → s'.byte i = some 0
  /-- The old pages are in their old frames. -/
  capacity_le : s.buf.capacity ≤ s'.buf.capacity
  frames : ∀ k, k * PAGE_SIZE < s.buf.capacity → s'.pageFrame k = s.pageFrame k

/-- A call of `grow_buf` that cannot give the old block back fails with the buffer still at the old
    address, but its pages are no longer mapped there. -/
structure GrowLoses (c : GrowChoice) (s s' : BufState) (q n : Nat) : Prop where
  buf : s'.buf = s.buf
  lost : ∃ vm, s'.vm = c.afterFree vm ∧ ∀ p, q ≤ p → p < q + n → vm.frameOf p = none

section Grow

variable {s : BufState} {q n : Nat}

/-- The old pages at the new address. -/
theorem shareOld_eq {newPage : Nat} (h : BufOk s q n) (hlt : (newPage + n) * PAGE_SIZE < wordSize)
    (hfree : ∀ p, newPage ≤ p → p < newPage + n → s.vm.frameOf p = none) :
    ∃ result vm', shareOld s.buf (newPage * PAGE_SIZE) s = .ok (result, { s with vm := vm' }) ∧
      SharedPages s.vm vm' newPage q n result := by
  by_cases hq : q = 0
  · obtain rfl : n = 0 := h.null_iff.1 hq
    refine ⟨.ok (), s.vm, ?_, fun _ _ => rfl, rfl, h.pages, fun _ _ hf => hf, nofun, nofun⟩
    simp [shareOld, h.addr, h.capacity, hq, assert]
  · obtain ⟨result, vm', hcopy, shared⟩ :=
      pagingCopyMapping_eq bufPageFlags h.pages hlt h.lt hfree h.mapped
    refine ⟨result, vm', ?_, shared⟩
    have hne : q * PAGE_SIZE ≠ 0 := Nat.mul_ne_zero hq (by decide)
    simp only [shareOld, h.addr, h.capacity, ne_eq, hne, not_false_eq_true, if_true, run_onBufVm, hcopy]

/-- The bytes of the buffer, written over themselves at the new address. -/
theorem copyOld_eq {t : BufState} {buf : GrowableBuf} {newPage m : Nat}
    (haddr : buf.addr = q * PAGE_SIZE) (hcapacity : buf.capacity = n * PAGE_SIZE)
    (hsize : buf.size ≤ buf.capacity) (hle : n ≤ m) (hnull : q = 0 → n = 0)
    (old : BlockMapped t.vm q n) (new : BlockMapped t.vm newPage m) :
    ∃ t', copyOld buf (newPage * PAGE_SIZE) (m * PAGE_SIZE) t = .ok ((), t') ∧ t'.buf = t.buf ∧
      t'.blocks = t.blocks ∧ t'.vm = { t.vm with ram := t'.vm.ram } ∧
      ((∀ x ∈ t.accesses, x.Inside) → ∀ x ∈ t'.accesses, x.Inside) ∧
      ∀ i, i < buf.size →
        t'.vm.byteAt (newPage * PAGE_SIZE + i) = t.vm.byteAt (buf.addr + i) := by
  by_cases hq : q = 0
  · have hn := hnull hq
    refine ⟨t, ?_, rfl, rfl, rfl, fun h => h, ?_⟩
    · simp [copyOld, haddr, hq]
    · intro i hi
      rw [hcapacity, hn] at hsize
      omega
  · have hne : q * PAGE_SIZE ≠ 0 := Nat.mul_ne_zero hq (by decide)
    have hcap : n * PAGE_SIZE ≤ m * PAGE_SIZE := Nat.mul_le_mul_right PAGE_SIZE hle
    obtain ⟨bytes, hread, hlength, hget⟩ := memcpyFrom_eq 0 buf.size old (by omega)
    simp only [Nat.add_zero] at hread hget
    obtain ⟨t', hwrite, written⟩ := memcpyTo_eq 0 bytes
      (s := { t with accesses :=
        ⟨q * PAGE_SIZE, buf.size, (q * PAGE_SIZE, n * PAGE_SIZE)⟩ :: t.accesses }) new (by omega)
    rw [Nat.add_zero] at hwrite
    refine ⟨t', ?_, written.buf, written.blocks, written.onlyRam, ?_, ?_⟩
    · simp only [copyOld, haddr, ne_eq, hne, not_false_eq_true, if_true, Program.run_bind,
        GrowableBuf.block, hcapacity, hread, hwrite]
    · intro hinside
      have hread := access_inside q n 0 buf.size (by omega)
      rw [Nat.add_zero] at hread
      exact written.accesses (List.forall_mem_cons.2 ⟨hread, hinside⟩)
    · intro i hi
      have hbyte := written.inside i (by omega)
      rw [Nat.add_zero] at hbyte
      rw [hbyte, hget i hi, haddr]

/-- The old block, whose frames are all mapped at the new address, is unmapped and given back. -/
theorem releaseOld_eq {t : BufState} {c : GrowChoice} {buf : GrowableBuf} {newAddr newSize : Nat}
    (haddr : buf.addr = q * PAGE_SIZE) (hcapacity : buf.capacity = n * PAGE_SIZE)
    (hnull : q = 0 ↔ n = 0) (ok : PagesOk t.vm.pages) (hlt : (q + n) * PAGE_SIZE < wordSize)
    (hmapped : PagesHeld t.vm q n 2) (hdistinct : PagesDistinct t.vm q n)
    (hfree : q ≠ 0 → c.free = .ok ())
    (hkeeps : ∀ vm, PagesOk vm.pages → KeepsBytes (InBlock (newAddr, newSize)) vm (c.afterFree vm)) :
    ∃ t', releaseOld c buf t = .ok (.ok (), t') ∧ t'.buf = t.buf ∧ t'.accesses = t.accesses ∧
      (t'.blocks = t.blocks ∨ t'.blocks = t.blocks.erase buf.block) ∧
      ∃ vm, UnmappedPages t.vm vm q n ∧ KeepsBytes (InBlock (newAddr, newSize)) vm t'.vm := by
  by_cases hq : q = 0
  · obtain rfl : n = 0 := hnull.1 hq
    refine ⟨t, ?_, rfl, rfl, Or.inl rfl, t.vm, ?_, ?_⟩
    · simp [releaseOld, haddr, hq]
    · exact ⟨fun _ _ => rfl, rfl, ok, fun _ hf => hf, fun _ hlo hhi => absurd hlo (by omega)⟩
    · exact ⟨⟨fun _ _ => rfl, fun _ _ _ _ _ hf => hf, ok⟩, fun _ _ _ _ => rfl⟩
  · obtain ⟨vm', hunmap, unmapped⟩ := pagingUnmap_eq ok hlt hmapped hdistinct
    have hne : q * PAGE_SIZE ≠ 0 := Nat.mul_ne_zero hq (by decide)
    refine ⟨{ t with vm := c.afterFree vm', blocks := t.blocks.erase (buf.addr, buf.capacity) }, ?_, rfl,
      rfl, Or.inr rfl, vm', unmapped, hkeeps vm' unmapped.pages⟩
    simp only [releaseOld, haddr, hcapacity, ne_eq, hne, not_false_eq_true, if_true, Program.run_bind,
      run_onBufVm, hunmap, bufRangeFree, Program.run_modify, hfree hq, Program.run_pure]

/-- The old block is unmapped but cannot be given back. -/
theorem releaseOld_fails {t : BufState} {c : GrowChoice} {buf : GrowableBuf} {e : Errno}
    (haddr : buf.addr = q * PAGE_SIZE) (hcapacity : buf.capacity = n * PAGE_SIZE)
    (ok : PagesOk t.vm.pages) (hlt : (q + n) * PAGE_SIZE < wordSize) (hmapped : PagesHeld t.vm q n 2)
    (hdistinct : PagesDistinct t.vm q n) (hq : q ≠ 0) (hfree : c.free = .error e) :
    ∃ t', releaseOld c buf t = .ok (.error e, t') ∧ GrowLoses c t t' q n := by
  obtain ⟨vm', hunmap, unmapped⟩ := pagingUnmap_eq ok hlt hmapped hdistinct
  have hne : q * PAGE_SIZE ≠ 0 := Nat.mul_ne_zero hq (by decide)
  refine ⟨{ t with vm := c.afterFree vm' }, ?_, rfl, vm', rfl, unmapped.unmapped⟩
  simp only [releaseOld, haddr, hcapacity, ne_eq, hne, not_false_eq_true, if_true, Program.run_bind,
    run_onBufVm, hunmap, bufRangeFree, Program.run_modify, hfree, Program.run_pure]

/-- The pages of the new block once the old pages have been mapped at its front and free frames behind
    them. -/
theorem newBlock_mapped {vm1 vm2 vm3 : Vm} {newPage m : Nat} (hle : n ≤ m)
    (hmapped : PagesHeld vm1 q n 1) (hdistinct : PagesDistinct vm1 q n)
    (shared : SharedPages vm1 vm2 newPage q n (.ok ()))
    (fresh : FreshPages vm2 vm3 (newPage + n) (m - n) (.ok ())) :
    (∀ i, i < n → vm3.frameOf (newPage + i) = vm1.frameOf (q + i)) ∧ PagesHeld vm3 newPage m 1 ∧
      PagesDistinct vm3 newPage m := by
  have hshared : ∀ i, i < n → vm3.frameOf (newPage + i) = vm1.frameOf (q + i) := by
    intro i hi
    rw [fresh.outside _ (Or.inl (by omega)), shared.shared rfl i hi]
  have hfront : ∀ i, i < n → ∃ f, vm3.frameOf (newPage + i) = some f ∧ vm2.pages.Held f 2 := by
    intro i hi
    obtain ⟨f, hf, _⟩ := hmapped (q + i) (by omega) (by omega)
    exact ⟨f, (hshared i hi).trans hf, shared.twice rfl i f hi hf⟩
  have hcross : ∀ i p, i < n → newPage + n ≤ p → p < newPage + m →
      vm3.frameOf p ≠ vm3.frameOf (newPage + i) := by
    intro i p hi hlo hhi heq
    obtain ⟨f, hf, hheld⟩ := hfront i hi
    rw [hf] at heq
    exact fresh.fresh rfl p f 2 hlo (by omega) heq hheld
  refine ⟨hshared, ?_, ?_⟩
  · intro p hlo hhi
    by_cases hp : p < newPage + n
    · obtain ⟨f, hf, hheld⟩ := hfront (p - newPage) (by omega)
      rw [Nat.add_sub_cancel' hlo] at hf
      exact ⟨f, hf, fresh.held f 1 (hheld.mono (by decide))⟩
    · exact fresh.mapped rfl p (by omega) (by omega)
  · intro p p' hlo hhi hlo' hhi' heq
    by_cases hp : p < newPage + n
    · have hpi := hshared (p - newPage) (by omega)
      rw [Nat.add_sub_cancel' hlo] at hpi
      by_cases hp' : p' < newPage + n
      · have hpi' := hshared (p' - newPage) (by omega)
        rw [Nat.add_sub_cancel' hlo'] at hpi'
        have hsame := hdistinct (q + (p - newPage)) (q + (p' - newPage)) (by omega) (by omega)
          (by omega) (by omega) (hpi.symm.trans (heq.trans hpi'))
        omega
      · have hne := hcross (p - newPage) p' (by omega) (by omega) hhi'
        rw [Nat.add_sub_cancel' hlo] at hne
        exact absurd heq.symm hne
    · by_cases hp' : p' < newPage + n
      · have hne := hcross (p' - newPage) p (by omega) (by omega) hhi
        rw [Nat.add_sub_cancel' hlo'] at hne
        exact absurd heq hne
      · exact fresh.distinct rfl p p' (by omega) (by omega) (by omega) (by omega) heq

/-- The state of `grow_buf` once all pages of the new block are mapped: the old pages at its front, and
    free frames behind them. -/
structure GrowReady (t : BufState) (q n newPage m : Nat) : Prop where
  ok : BufOk t q n
  le : n ≤ m
  pos : 0 < m
  ne_zero : newPage ≠ 0
  twice : PagesHeld t.vm q n 2
  held : PagesHeld t.vm newPage m 1
  block : BlockMapped t.vm newPage m
  apart : ∀ p, newPage ≤ p → p < newPage + m → p < q ∨ q + n ≤ p
  shared : ∀ i, i < n → t.vm.frameOf (newPage + i) = t.vm.frameOf (q + i)
  owned : (newPage * PAGE_SIZE, m * PAGE_SIZE) ∈ t.blocks.erase t.buf.block

section Ready

variable {t : BufState} {c : GrowChoice} {newPage m : Nat}

/-- The bytes of the buffer are copied to the new block, and the rest of it is zeroed. -/
theorem GrowReady.fill (ready : GrowReady t q n newPage m) :
    ∃ t1 t2, copyOld t.buf (newPage * PAGE_SIZE) (m * PAGE_SIZE) t = .ok ((), t1) ∧
      memsetZero (newPage * PAGE_SIZE, m * PAGE_SIZE) (newPage * PAGE_SIZE + t.buf.size)
        (m * PAGE_SIZE - t.buf.size) t1 = .ok ((), t2) ∧
      t2.buf = t.buf ∧ t2.blocks = t.blocks ∧ t2.vm = { t.vm with ram := t2.vm.ram } ∧
      (∀ x ∈ t2.accesses, x.Inside) ∧
      (∀ i, i < t.buf.size → t2.vm.byteAt (newPage * PAGE_SIZE + i) = t.byte i) ∧
      ∀ i, t.buf.size ≤ i → i < m * PAGE_SIZE → t2.vm.byteAt (newPage * PAGE_SIZE + i) = some 0 := by
  have h := ready.ok
  have hcap : n * PAGE_SIZE ≤ m * PAGE_SIZE := Nat.mul_le_mul_right PAGE_SIZE ready.le
  have hsize := h.size_le
  rw [h.capacity] at hsize
  obtain ⟨t1, hcopy, hbuf1, hblocks1, hram1, haccess1, hbytes1⟩ :=
    copyOld_eq h.addr h.capacity h.size_le ready.le h.null_iff.1 h.blockMapped ready.block
  have hframe1 : t1.vm.frameOf = t.vm.frameOf := frameOf_of_ram hram1
  have block1 : BlockMapped t1.vm newPage m :=
    ⟨ready.block.lt, by rw [hframe1]; exact ready.block.mapped,
      by rw [PagesDistinct, hframe1]; exact ready.block.distinct⟩
  obtain ⟨t2, hzero, zeroed⟩ := memsetZero_eq t.buf.size (m * PAGE_SIZE - t.buf.size) block1 (by omega)
  refine ⟨t1, t2, hcopy, hzero, zeroed.buf.trans hbuf1, zeroed.blocks.trans hblocks1, ?_,
    zeroed.accesses (haccess1 h.accesses), ?_, ?_⟩
  · rw [zeroed.onlyRam, hram1]
  · intro i hi
    rw [zeroed.outside i (by omega) (Or.inl hi), hbytes1 i hi]
    rfl
  · intro i hlo hhi
    have hlength : i - t.buf.size < (List.replicate (m * PAGE_SIZE - t.buf.size) (0 : UInt8)).length := by
      rw [List.length_replicate]
      omega
    have hwritten := zeroed.inside (i - t.buf.size) hlength
    rw [Nat.add_assoc, Nat.add_sub_cancel' hlo] at hwritten
    rw [hwritten, List.getElem?_eq_getElem hlength, List.getElem_replicate]

/-- The end of `grow_buf` when the old block can be given back. -/
theorem GrowReady.release {t2 : BufState} (ready : GrowReady t q n newPage m) (hbuf : t2.buf = t.buf)
    (hblocks : t2.blocks = t.blocks) (hram : t2.vm = { t.vm with ram := t2.vm.ram })
    (haccesses : ∀ x ∈ t2.accesses, x.Inside)
    (hsame : ∀ i, i < t.buf.size → t2.vm.byteAt (newPage * PAGE_SIZE + i) = t.byte i)
    (hzero : ∀ i, t.buf.size ≤ i → i < m * PAGE_SIZE →
      t2.vm.byteAt (newPage * PAGE_SIZE + i) = some 0)
    (hfree : q ≠ 0 → c.free = .ok ())
    (hkeeps : ∀ vm, PagesOk vm.pages →
      KeepsBytes (InBlock (newPage * PAGE_SIZE, m * PAGE_SIZE)) vm (c.afterFree vm)) :
    ∃ t3, releaseOld c t.buf t2 = .ok (.ok (), t3) ∧
      Grows t { t3 with
        buf := { t3.buf with addr := newPage * PAGE_SIZE, capacity := m * PAGE_SIZE } } newPage m := by
  have h := ready.ok
  have hcap : n * PAGE_SIZE ≤ m * PAGE_SIZE := Nat.mul_le_mul_right PAGE_SIZE ready.le
  have hsize := h.size_le
  rw [h.capacity] at hsize
  have hframe2 : t2.vm.frameOf = t.vm.frameOf := frameOf_of_ram hram
  have hpages2 : t2.vm.pages = t.vm.pages := by rw [hram]
  have htwice2 : PagesHeld t2.vm q n 2 := by
    rw [PagesHeld, hframe2, hpages2]
    exact ready.twice
  have hdistinct2 : PagesDistinct t2.vm q n := by
    rw [PagesDistinct, hframe2]
    exact h.distinct
  obtain ⟨t3, hrelease, hbuf3, haccess3, hblocks3, vm, unmapped, keeps⟩ :=
    releaseOld_eq h.addr h.capacity h.null_iff (hpages2 ▸ h.pages) h.lt htwice2 hdistinct2 hfree hkeeps
  have hframe : ∀ p, newPage ≤ p → p < newPage + m → t3.vm.frameOf p = t.vm.frameOf p := by
    intro p hlo hhi
    rw [keeps.frameOf p (inBlock_iff.2 ⟨hlo, hhi⟩), unmapped.outside p (ready.apart p hlo hhi), hframe2]
  have hbyte : ∀ i, i < m * PAGE_SIZE →
      t3.vm.byteAt (newPage * PAGE_SIZE + i) = t2.vm.byteAt (newPage * PAGE_SIZE + i) := by
    intro i hi
    have hpage : newPage ≤ (newPage * PAGE_SIZE + i) / PAGE_SIZE ∧
        (newPage * PAGE_SIZE + i) / PAGE_SIZE < newPage + m := by
      simp only [PAGE_SIZE] at hi ⊢
      omega
    rw [keeps.byteAt (inBlock_iff.2 hpage)]
    exact byteAt_congr (unmapped.outside _ (ready.apart _ hpage.1 hpage.2)) unmapped.ram
  refine ⟨t3, hrelease, ⟨rfl, rfl, ?_, ?_, ready.block.lt, ?_, ?_, keeps.pages, ?_, ?_⟩, ?_, ?_, ?_, ?_, ?_⟩
  · change t3.buf.size ≤ m * PAGE_SIZE
    rw [hbuf3, hbuf]
    exact Nat.le_trans hsize hcap
  · exact iff_of_false ready.ne_zero (Nat.ne_of_gt ready.pos)
  · intro p hlo hhi
    obtain ⟨f, hf, hheld⟩ := ready.held p hlo hhi
    have hf' : vm.frameOf p = some f := by
      rw [unmapped.outside p (ready.apart p hlo hhi), hframe2, hf]
    refine ⟨f, (hframe p hlo hhi).trans hf, ?_⟩
    exact keeps.held p f 1 (inBlock_iff.2 ⟨hlo, hhi⟩) hf' (unmapped.held f (hpages2 ▸ hheld))
  · intro p p' hlo hhi hlo' hhi' heq
    have heq' : t3.vm.frameOf p = t3.vm.frameOf p' := heq
    rw [hframe p hlo hhi, hframe p' hlo' hhi'] at heq'
    exact ready.block.distinct p p' hlo hhi hlo' hhi' heq'
  · intro _
    change (newPage * PAGE_SIZE, m * PAGE_SIZE) ∈ t3.blocks
    have howned := ready.owned
    rcases hblocks3 with hblocks3 | hblocks3
    · rw [hblocks3, hblocks]
      exact List.mem_of_mem_erase howned
    · rw [hblocks3, hblocks]
      exact howned
  · change ∀ x ∈ t3.accesses, x.Inside
    rw [haccess3]
    exact haccesses
  · change t3.buf.size = t.buf.size
    rw [hbuf3, hbuf]
  · intro i hi
    change t3.vm.byteAt (newPage * PAGE_SIZE + i) = t.byte i
    rw [hbyte i (by omega), hsame i hi]
  · intro i hlo hhi
    change t3.vm.byteAt (newPage * PAGE_SIZE + i) = some 0
    rw [hbyte i hhi, hzero i hlo hhi]
  · rw [h.capacity]
    exact hcap
  · intro k hk
    rw [h.capacity] at hk
    have hkn : k < n := Nat.lt_of_mul_lt_mul_right hk
    have hle := ready.le
    change t3.vm.frameOf (newPage * PAGE_SIZE / PAGE_SIZE + k) = t.vm.frameOf (t.buf.addr / PAGE_SIZE + k)
    rw [h.addr, Nat.mul_div_cancel _ (by decide), Nat.mul_div_cancel _ (by decide), hframe _ (by omega) (by omega),
      ready.shared k hkn]

end Ready

/-- A difference of words that does not wrap. -/
theorem sub_wrap {a b : Nat} (hle : b ≤ a) (hlt : a < wordSize) : (a + wordSize - b) % wordSize = a - b := by
  rw [Nat.sub_add_comm hle, Nat.add_mod_right, Nat.mod_eq_of_lt (Nat.lt_of_le_of_lt (Nat.sub_le a b) hlt)]

/-- The first two parts of `grow_buf`: the old pages at the front of a block that is not mapped, and free
    frames behind them. -/
theorem mapBlock_spec {newPage m : Nat} (h : BufOk s q n) (hle : n ≤ m) (hpos : 0 < m)
    (hne : newPage ≠ 0) (hlt : (newPage + m) * PAGE_SIZE < wordSize)
    (hunmapped : ∀ p, newPage ≤ p → p < newPage + m → s.vm.frameOf p = none)
    (howned : (newPage * PAGE_SIZE, m * PAGE_SIZE) ∈ s.blocks.erase s.buf.block) :
    ∃ result vm, mapBlock s.buf (newPage * PAGE_SIZE) (m * PAGE_SIZE) s =
        .ok (result, { s with vm := vm }) ∧
      KeepsBytes (InBlock s.buf.block) s.vm vm ∧
      (result = .ok () → GrowReady { s with vm := vm } q n newPage m) := by
  have hown : ∀ p, InBlock s.buf.block p → (s.vm.frameOf p).isSome := fun p hp =>
    h.isSome (h.inBlock.1 hp).1 (h.inBlock.1 hp).2
  have hcap : n * PAGE_SIZE ≤ m * PAGE_SIZE := Nat.mul_le_mul_right PAGE_SIZE hle
  have hmLt : m * PAGE_SIZE < wordSize :=
    Nat.lt_of_le_of_lt (Nat.mul_le_mul_right PAGE_SIZE (Nat.le_add_left m newPage)) hlt
  have hfrontLt : (newPage + n) * PAGE_SIZE < wordSize :=
    Nat.lt_of_le_of_lt (Nat.mul_le_mul_right PAGE_SIZE (by omega)) hlt
  have hfront : ∀ p, newPage ≤ p → p < newPage + n → s.vm.frameOf p = none :=
    fun p hlo hhi => hunmapped p hlo (by omega)
  obtain ⟨r1, vm2, hshare, shared⟩ := shareOld_eq h hfrontLt hfront
  have hkeeps2 := keepsBytes_of_outside shared.outside shared.ram shared.pages shared.held hfront hown
  cases r1 with
  | error e =>
      refine ⟨.error e, vm2, ?_, hkeeps2, nofun⟩
      simp only [mapBlock, Program.run_bind, hshare, Program.run_pure]
  | ok u =>
      have hbackLt : (newPage + n + (m - n)) * PAGE_SIZE < wordSize := by
        rw [Nat.add_assoc, Nat.add_sub_cancel' hle]
        exact hlt
      have hback : ∀ p, newPage + n ≤ p → p < newPage + n + (m - n) → vm2.frameOf p = none := by
        intro p hlo hhi
        rw [shared.outside p (Or.inr hlo)]
        exact hunmapped p (by omega) (by omega)
      obtain ⟨r2, vm3, hmap, fresh⟩ := pagingMapToFreePages_eq bufPageFlags shared.pages hbackLt hback
      have hown2 : ∀ p, InBlock s.buf.block p → (vm2.frameOf p).isSome := by
        intro p hp
        rw [hkeeps2.frameOf p hp]
        exact hown p hp
      have hkeeps3 := hkeeps2.trans (keepsBytes_of_outside fresh.outside fresh.ram fresh.pages
        fresh.held hback hown2)
      have haddr : (newPage * PAGE_SIZE + s.buf.capacity) % wordSize = (newPage + n) * PAGE_SIZE := by
        rw [h.capacity, ← Nat.add_mul, Nat.mod_eq_of_lt hfrontLt]
      have hcount : (m * PAGE_SIZE + wordSize - s.buf.capacity) % wordSize = (m - n) * PAGE_SIZE := by
        rw [h.capacity, sub_wrap hcap hmLt, Nat.sub_mul]
      refine ⟨r2, vm3, ?_, hkeeps3, ?_⟩
      · simp only [mapBlock, Program.run_bind, hshare, haddr, hcount, run_onBufVm, hmap]
      · rintro rfl
        obtain ⟨hshared, hnew, hdistinct⟩ := newBlock_mapped hle h.mapped h.distinct shared fresh
        have ht : BufOk { s with vm := vm3 } q n :=
          h.keeps rfl (fun _ hb => hb) h.accesses hkeeps3.toKeepsPages
        refine ⟨ht, hle, hpos, hne, ?_, hnew, ⟨hlt, ?_, hdistinct⟩, ?_, ?_, howned⟩
        · intro p hlo hhi
          obtain ⟨f, hf, _⟩ := h.mapped p hlo hhi
          refine ⟨f, (hkeeps3.frameOf p (h.inBlock.2 ⟨hlo, hhi⟩)).trans hf, fresh.held f 2 ?_⟩
          apply shared.twice rfl (p - q) f (by omega)
          rw [Nat.add_sub_cancel' hlo]
          exact hf
        · intro p hlo hhi
          obtain ⟨f, hf, _⟩ := hnew p hlo hhi
          rw [hf]
          rfl
        · intro p hlo hhi
          by_contra hin
          have hsome := h.isSome (p := p) (by omega) (by omega)
          rw [hunmapped p hlo hhi] at hsome
          simp at hsome
        · intro i hi
          exact (hshared i hi).trans (hkeeps3.frameOf (q + i) (h.inBlock.2 ⟨by omega, by omega⟩)).symm

/-- `grow_buf`, for a new capacity of at least the old one. It fails when it gets no block or cannot map
    it, and it fails in another way when it cannot give the old block back. -/
theorem growBuf_cases {c : GrowChoice} {requestedSize m : Nat} (h : BufOk s q n)
    (hm : growCapacity s.buf.capacity requestedSize = m * PAGE_SIZE) (hle : n ≤ m) (hpos : 0 < m)
    (sound : c.Sound s (m * PAGE_SIZE)) :
    (∃ e s', growBuf c requestedSize s = .ok (.error e, s') ∧ GrowFails s s' ∧
      ∀ addr, c.alloc = .ok addr → ∃ t, mapBlock s.buf addr (m * PAGE_SIZE)
        { s with
          vm := c.afterAlloc s.vm
          blocks := (addr, m * PAGE_SIZE) :: s.blocks } = .ok (.error e, t)) ∨
    (∃ newPage s', growBuf c requestedSize s = .ok (.ok (), s') ∧ Grows s s' newPage m ∧
      (q ≠ 0 → c.free = .ok ())) ∨
    ∃ e s', growBuf c requestedSize s = .ok (.error e, s') ∧ GrowLoses c s s' q n ∧ q ≠ 0 ∧
      c.free = .error e := by
  cases halloc : c.alloc with
  | error e =>
      refine Or.inl ⟨e, { s with vm := c.afterAlloc s.vm }, ?_, ⟨rfl, fun _ hb => hb, rfl,
        sound.keepsOld⟩, nofun⟩
      simp only [growBuf, Program.run_bind, Program.run_get, bufRangeAlloc, Program.run_modify, halloc,
        Program.run_pure]
  | ok addr =>
      obtain ⟨newPage, rfl⟩ : ∃ p, addr = p * PAGE_SIZE :=
        ⟨addr / PAGE_SIZE, (Nat.div_mul_cancel (Nat.dvd_of_mod_eq_zero (sound.aligned addr halloc))).symm⟩
      obtain ⟨hne, hinside⟩ := sound.inside _ halloc
      rw [← Nat.add_mul] at hinside
      have hunmapped : ∀ p, newPage ≤ p → p < newPage + m → (c.afterAlloc s.vm).frameOf p = none :=
        fun p hlo hhi => sound.unmapped _ p halloc (inBlock_iff.2 ⟨hlo, hhi⟩)
      have hnewPage : newPage ≠ 0 := by
        rintro rfl
        rw [Nat.zero_mul] at hne
        exact Nat.lt_irrefl 0 hne
      have h1 : BufOk { s with
          vm := c.afterAlloc s.vm
          blocks := (newPage * PAGE_SIZE, m * PAGE_SIZE) :: s.blocks } q n :=
        h.keeps rfl (List.subset_cons_self _ _) h.accesses sound.keepsOld.toKeepsPages
      have howned : (newPage * PAGE_SIZE, m * PAGE_SIZE) ∈
          ((newPage * PAGE_SIZE, m * PAGE_SIZE) :: s.blocks).erase s.buf.block := by
        rw [List.erase_cons_tail]
        · exact List.mem_cons_self
        · rw [beq_iff_eq, h.block_eq, Prod.mk.injEq]
          rintro ⟨haddr, hsame⟩
          have hpage := Nat.eq_of_mul_eq_mul_right (by decide) haddr
          have hcount := Nat.eq_of_mul_eq_mul_right (by decide) hsame
          have hsome := h1.isSome (p := newPage) (by omega) (by omega)
          rw [hunmapped newPage (Nat.le_refl _) (by omega)] at hsome
          simp at hsome
      obtain ⟨result, vm3, hblock, hkeeps3, hready⟩ :=
        mapBlock_spec h1 hle hpos hnewPage hinside hunmapped howned
      have hkeeps : KeepsBytes (InBlock s.buf.block) s.vm vm3 := sound.keepsOld.trans hkeeps3
      cases result with
      | error e =>
          refine Or.inl ⟨e, { s with
            vm := vm3
            blocks := (newPage * PAGE_SIZE, m * PAGE_SIZE) :: s.blocks }, ?_,
            ⟨rfl, List.subset_cons_self _ _, rfl, hkeeps⟩, ?_⟩
          · simp only [growBuf, Program.run_bind, Program.run_get, bufRangeAlloc, Program.run_modify,
              halloc, hm, Program.run_pure, hblock]
          · rintro addr ⟨⟩
            exact ⟨_, hblock⟩
      | ok u =>
          right
          have ready := hready rfl
          have hsize := h.size_le
          rw [h.capacity] at hsize
          have hcap : n * PAGE_SIZE ≤ m * PAGE_SIZE := Nat.mul_le_mul_right PAGE_SIZE hle
          have hmLt : m * PAGE_SIZE < wordSize :=
            Nat.lt_of_le_of_lt (Nat.mul_le_mul_right PAGE_SIZE (Nat.le_add_left m newPage)) hinside
          have hoffset : (newPage * PAGE_SIZE + s.buf.size) % wordSize =
              newPage * PAGE_SIZE + s.buf.size := by
            apply Nat.mod_eq_of_lt
            rw [Nat.add_mul] at hinside
            exact Nat.lt_of_le_of_lt (Nat.add_le_add_left (Nat.le_trans hsize hcap) _) hinside
          have hlength : (m * PAGE_SIZE + wordSize - s.buf.size) % wordSize =
              m * PAGE_SIZE - s.buf.size := sub_wrap (Nat.le_trans hsize hcap) hmLt
          obtain ⟨t1, t2, hcopy, hzero, hbuf2, hblocks2, hram2, haccesses2, hsame2, hzero2⟩ := ready.fill
          -- what is left is to give the old block back
          by_cases hfree : q ≠ 0 → c.free = .ok ()
          · left
            obtain ⟨t3, hrelease, grows⟩ := ready.release hbuf2 hblocks2 hram2 haccesses2 hsame2 hzero2
              hfree fun vm hvm => sound.keepsNew _ vm halloc hvm
            refine ⟨newPage, { t3 with
              buf := { t3.buf with addr := newPage * PAGE_SIZE, capacity := m * PAGE_SIZE } }, ?_,
              ⟨grows.ok, grows.size, ?_, grows.zero, grows.capacity_le, ?_⟩, hfree⟩
            · simp only [growBuf, Program.run_bind, Program.run_get, bufRangeAlloc, Program.run_modify,
                halloc, hm, Program.run_pure, hblock, hcopy, hoffset, hlength, hzero, hrelease]
            · intro i hi
              refine (grows.same i hi).trans ?_
              refine h.byte_keeps ?_ hkeeps (Nat.lt_of_lt_of_le hi h.size_le)
              rfl
            · intro k hk
              refine (grows.frames k hk).trans (hkeeps.frameOf _ (h.inBlock.2 ?_))
              rw [h.addr, Nat.mul_div_cancel _ (by decide)]
              rw [h.capacity] at hk
              exact ⟨Nat.le_add_right q k, Nat.add_lt_add_left (Nat.lt_of_mul_lt_mul_right hk) q⟩
          · right
            rw [Classical.not_imp] at hfree
            obtain ⟨hq, hfree⟩ := hfree
            cases hfreed : c.free with
            | ok u => exact absurd hfreed hfree
            | error e =>
                have hframe2 := frameOf_of_ram hram2
                have hpages2 : t2.vm.pages = vm3.pages := by rw [hram2]
                have htwice2 : PagesHeld t2.vm q n 2 := by
                  rw [PagesHeld, hframe2, hpages2]
                  exact ready.twice
                have hdistinct2 : PagesDistinct t2.vm q n := by
                  rw [PagesDistinct, hframe2]
                  exact ready.ok.distinct
                obtain ⟨t3, hrelease, loses⟩ := releaseOld_fails h.addr h.capacity
                  (hpages2 ▸ ready.ok.pages) h.lt htwice2 hdistinct2 hq hfreed
                refine ⟨e, t3, ?_, ⟨loses.buf.trans hbuf2, loses.lost⟩, hq, rfl⟩
                simp only [growBuf, Program.run_bind, Program.run_get, bufRangeAlloc, Program.run_modify,
                  halloc, hm, Program.run_pure, hblock, hcopy, hoffset, hlength, hzero, hrelease]

/-- `grow_buf`, for a new capacity of at least the old one, when the old block can be given back. -/
theorem growBuf_spec {c : GrowChoice} {requestedSize m : Nat} (h : BufOk s q n)
    (hm : growCapacity s.buf.capacity requestedSize = m * PAGE_SIZE) (hle : n ≤ m) (hpos : 0 < m)
    (sound : c.Sound s (m * PAGE_SIZE)) (hfree : q ≠ 0 → c.free = .ok ()) :
    (∃ e s', growBuf c requestedSize s = .ok (.error e, s') ∧ GrowFails s s') ∨
    ∃ newPage s', growBuf c requestedSize s = .ok (.ok (), s') ∧ Grows s s' newPage m := by
  rcases growBuf_cases h hm hle hpos sound with ⟨e, s', hrun, fails, _⟩ | ⟨newPage, s', hrun, grows, _⟩ |
    ⟨e, s', _, _, hq, hlost⟩
  · exact Or.inl ⟨e, s', hrun, fails⟩
  · exact Or.inr ⟨newPage, s', hrun, grows⟩
  · rw [hfree hq] at hlost
    simp at hlost

end Grow

/-! ### The functions -/

/-- The new capacity is large enough unless the requested size lies above the last page boundary. -/
theorem growCapacity_eq {capacity n requestedSize : Nat} (hcapacity : capacity = n * PAGE_SIZE)
    (hgrow : capacity < requestedSize) (hle : requestedSize ≤ wordSize - PAGE_SIZE) :
    ∃ m, growCapacity capacity requestedSize = m * PAGE_SIZE ∧ n ≤ m ∧ 0 < m ∧
      requestedSize ≤ m * PAGE_SIZE := by
  have hmax : max (capacity * 2 % wordSize) requestedSize ≤ wordSize - PAGE_SIZE := by
    apply max_le _ hle
    rw [hcapacity]
    simp only [wordSize, PAGE_SIZE]
    omega
  have hround := le_roundUp hmax
  have hreq : requestedSize ≤ roundUp (max (capacity * 2 % wordSize) requestedSize) :=
    Nat.le_trans (Nat.le_max_right _ _) hround
  have hmod := roundUp_mod (max (capacity * 2 % wordSize) requestedSize)
  obtain ⟨m, hm⟩ : ∃ m, roundUp (max (capacity * 2 % wordSize) requestedSize) = m * PAGE_SIZE :=
    ⟨_, (Nat.div_mul_cancel (Nat.dvd_of_mod_eq_zero hmod)).symm⟩
  rw [hm] at hreq
  have hlt : n * PAGE_SIZE < m * PAGE_SIZE := by
    rw [← hcapacity]
    exact Nat.lt_of_lt_of_le hgrow hreq
  have hnm : n < m := Nat.lt_of_mul_lt_mul_right hlt
  refine ⟨m, ?_, Nat.le_of_lt hnm, Nat.zero_lt_of_lt hnm, hreq⟩
  have hne : m * PAGE_SIZE ≠ 0 := Nat.mul_ne_zero (Nat.ne_zero_of_lt hnm) (by decide)
  simp only [growCapacity, hm, if_neg hne]

/-- The bytes behind the size of a buffer are zero. -/
def ZeroTail (s : BufState) : Prop :=
  ∀ i, s.buf.size ≤ i → i < s.buf.capacity → s.byte i = some 0

section Functions

variable {s : BufState} {q n : Nat}

theorem BufOk.addr_offset (h : BufOk s q n) {offset : Nat} (hle : offset ≤ n * PAGE_SIZE) :
    (s.buf.addr + offset) % wordSize = q * PAGE_SIZE + offset := by
  have hlt := h.lt
  rw [Nat.add_mul] at hlt
  rw [h.addr, Nat.mod_eq_of_lt (Nat.lt_of_le_of_lt (Nat.add_le_add_left hle _) hlt)]

/-- Writing to a block of the buffer keeps the buffer. -/
theorem BufOk.written {s' : BufState} {offset : Nat} {bytes : List UInt8} (h : BufOk s q n)
    (written : Written s s' q n offset bytes) : BufOk s' q n := by
  apply h.keeps written.buf (by rw [written.blocks]; exact fun _ hb => hb) (written.accesses h.accesses)
  refine ⟨fun p _ => congrFun written.frameOf p, fun p f k _ _ hf => ?_, ?_⟩
  · rw [written.pages]
    exact hf
  · rw [written.pages]
    exact h.pages

/-- Only the record of accesses changes. -/
theorem BufOk.setAccesses (h : BufOk s q n) {accesses : List Access}
    (hinside : ∀ x ∈ accesses, x.Inside) : BufOk { s with accesses := accesses } q n :=
  ⟨h.addr, h.capacity, h.size_le, h.null_iff, h.lt, h.mapped, h.distinct, h.pages, h.owned, hinside⟩

/-- Only the size of the buffer changes. -/
theorem BufOk.setSize (h : BufOk s q n) {length : Nat} (hle : length ≤ n * PAGE_SIZE) :
    BufOk { s with buf := { s.buf with size := length } } q n :=
  ⟨h.addr, h.capacity, by simp only; rw [h.capacity]; exact hle, h.null_iff, h.lt, h.mapped, h.distinct,
    h.pages, h.owned, h.accesses⟩

/-- `growable_buf_pread`, when the clamping of the count does not wrap. -/
theorem growableBufPread_spec (count offset : Nat) (h : BufOk s q n)
    (hguard : s.buf.size ≤ offset ∨ offset + count < wordSize ∨
      s.buf.size ≤ (offset + count) % wordSize) :
    ∃ bytes s', growableBufPread count offset s = .ok (bytes, s') ∧ BufOk s' q n ∧ s'.buf = s.buf ∧
      s'.vm = s.vm ∧ bytes.length = min count (s.buf.size - offset) ∧
      ∀ i, i < bytes.length → bytes[i]? = s.byte (offset + i) := by
  by_cases hoff : s.buf.size ≤ offset
  · refine ⟨[], s, ?_, h, rfl, rfl, ?_, fun i hi => absurd hi (Nat.not_lt_zero i)⟩
    · simp [growableBufPread, hoff]
    · rw [Nat.sub_eq_zero_of_le hoff]
      simp
  · have hsize := h.size_le
    rw [h.capacity] at hsize
    -- the count that is copied
    have hcount : (if (offset + count) % wordSize ≥ s.buf.size then s.buf.size - offset else count) =
        min count (s.buf.size - offset) := by
      have hlt := h.lt
      by_cases hwrap : offset + count < wordSize
      · rw [Nat.mod_eq_of_lt hwrap]
        split <;> omega
      · have hclamp := hguard.resolve_left hoff |>.resolve_left hwrap
        rw [if_pos hclamp]
        have hsizeLt : s.buf.size < wordSize := by
          refine Nat.lt_of_le_of_lt hsize (Nat.lt_of_le_of_lt ?_ hlt)
          exact Nat.mul_le_mul_right PAGE_SIZE (Nat.le_add_left n q)
        omega
    obtain ⟨bytes, hread, hlength, hget⟩ := memcpyFrom_eq offset (min count (s.buf.size - offset))
      h.blockMapped (by omega)
    refine ⟨bytes, { s with accesses := ⟨q * PAGE_SIZE + offset, min count (s.buf.size - offset),
      (q * PAGE_SIZE, n * PAGE_SIZE)⟩ :: s.accesses }, ?_, ?_, rfl, rfl, hlength, ?_⟩
    · simp only [growableBufPread, Program.run_bind, Program.run_get, ge_iff_le, if_neg hoff]
      rw [hcount, h.addr_offset (by omega), h.block_eq]
      exact hread
    · apply h.setAccesses
      exact List.forall_mem_cons.2 ⟨access_inside q n offset _ (by omega), h.accesses⟩
    · intro i hi
      rw [hget i (by omega), BufState.byte, h.addr, Nat.add_assoc]

/-- The end of `growable_buf_pwrite`. -/
theorem writeAt_spec (bytes : List UInt8) (offset : Nat) (h : BufOk s q n)
    (hle : offset + bytes.length ≤ n * PAGE_SIZE) :
    ∃ s', writeAt bytes offset (offset + bytes.length) s = .ok ((), s') ∧ BufOk s' q n ∧
      s'.buf.size = max s.buf.size (offset + bytes.length) ∧ s'.buf.capacity = s.buf.capacity ∧
      (∀ i, i < bytes.length → s'.byte (offset + i) = bytes[i]?) ∧
      ∀ i, i < n * PAGE_SIZE → i < offset ∨ offset + bytes.length ≤ i → s'.byte i = s.byte i := by
  obtain ⟨t, hwrite, written⟩ := memcpyTo_eq offset bytes h.blockMapped hle
  have ht := h.written written
  have hsize := h.size_le
  rw [h.capacity] at hsize
  refine ⟨{ t with buf := { t.buf with size := max t.buf.size (offset + bytes.length) } }, ?_,
    ht.setSize (max_le (by rw [written.buf]; exact hsize) hle), ?_, ?_, ?_, ?_⟩
  · simp only [writeAt, Program.run_bind, Program.run_get, h.addr_offset (by omega : offset ≤ n * PAGE_SIZE),
      h.block_eq, hwrite, Program.run_modify]
  · simp only [written.buf]
  · simp only [written.buf]
  · intro i hi
    rw [BufState.byte]
    simp only [written.buf]
    rw [h.addr, ← Nat.add_assoc, written.inside i hi]
  · intro i hi hout
    rw [BufState.byte, BufState.byte]
    simp only [written.buf]
    rw [h.addr, written.outside i hi hout]

/-- What a call that grows may rely on: the old block can be given back. -/
def GrowGuard (s : BufState) (c : GrowChoice) (requestedSize : Nat) : Prop :=
  s.buf.capacity < requestedSize → s.buf.addr ≠ 0 → c.free = .ok ()

theorem GrowGuard.free_ok {c : GrowChoice} {requestedSize : Nat} (h : BufOk s q n)
    (guard : GrowGuard s c requestedSize) (hgrow : s.buf.capacity < requestedSize) :
    q ≠ 0 → c.free = .ok () := fun hq =>
  guard hgrow (by rw [h.addr]; exact Nat.mul_ne_zero hq (by decide))

/-- A function that fails leaves the buffer and its bytes alone. -/
structure SameBuf (s s' : BufState) : Prop where
  buf : s'.buf = s.buf
  same : ∀ i, i < s.buf.capacity → s'.byte i = s.byte i

theorem GrowFails.sameBuf {s' : BufState} (h : BufOk s q n) (fails : GrowFails s s') :
    BufOk s' q n ∧ SameBuf s s' := by
  refine ⟨h.keeps fails.buf fails.blocks ?_ fails.keeps.toKeepsPages, fails.buf, fun i hi => ?_⟩
  · rw [fails.accesses]
    exact h.accesses
  · exact h.byte_keeps fails.buf fails.keeps hi

/-- `growable_buf_pwrite`, when the end of the write does not wrap. -/
theorem growableBufPwrite_spec {c : GrowChoice} {bytes : List UInt8} {offset : Nat} (h : BufOk s q n)
    (hle : offset + bytes.length ≤ wordSize - PAGE_SIZE)
    (sound : c.Sound s (growCapacity s.buf.capacity ((offset + bytes.length) % wordSize)))
    (guard : GrowGuard s c (offset + bytes.length)) :
    (∃ e s', growableBufPwrite c bytes offset s = .ok (.error e, s') ∧ BufOk s' q n ∧ SameBuf s s') ∨
    ∃ s' q' m, growableBufPwrite c bytes offset s = .ok (.ok bytes.length, s') ∧ BufOk s' q' m ∧
      s'.buf.size = max s.buf.size (offset + bytes.length) ∧
      (∀ i, i < bytes.length → s'.byte (offset + i) = bytes[i]?) ∧
      (∀ i, i < s.buf.size → i < offset ∨ offset + bytes.length ≤ i → s'.byte i = s.byte i) ∧
      (ZeroTail s → ∀ i, s.buf.size ≤ i → i < s'.buf.capacity →
        i < offset ∨ offset + bytes.length ≤ i → s'.byte i = some 0) := by
  have hmod : (offset + bytes.length) % wordSize = offset + bytes.length :=
    Nat.mod_eq_of_lt (Nat.lt_of_le_of_lt hle (by decide))
  rw [hmod] at sound
  have hsize := h.size_le
  by_cases hgrow : s.buf.capacity < offset + bytes.length
  · obtain ⟨m, hm, hnm, hpos, hfits⟩ := growCapacity_eq h.capacity hgrow hle
    rw [hm] at sound
    rcases growBuf_spec h hm hnm hpos sound (guard.free_ok h hgrow) with ⟨e, s1, hfail, fails⟩ |
      ⟨q', s1, hok, grows⟩
    · left
      refine ⟨e, s1, ?_, fails.sameBuf h⟩
      simp only [growableBufPwrite, hmod, Program.run_bind, Program.run_get, gt_iff_lt, hgrow, if_true,
        hfail, Program.run_pure]
    · right
      obtain ⟨s', hwrite, hs', hsize', hcapacity', hinside, houtside⟩ := writeAt_spec bytes offset grows.ok hfits
      refine ⟨s', q', m, ?_, hs', ?_, hinside, ?_, ?_⟩
      · simp only [growableBufPwrite, hmod, Program.run_bind, Program.run_get, gt_iff_lt, hgrow, if_true,
          hok, hwrite, Program.run_pure]
      · rw [hsize', grows.size]
      · intro i hi hout
        have hcap : i < m * PAGE_SIZE := by
          have hle := grows.ok.size_le
          rw [grows.size, grows.ok.capacity] at hle
          exact Nat.lt_of_lt_of_le hi hle
        rw [houtside i hcap hout, grows.same i hi]
      · intro _ i hlo hhi hout
        rw [hcapacity', grows.ok.capacity] at hhi
        rw [houtside i hhi hout, grows.zero i hlo hhi]
  · right
    have hfits : offset + bytes.length ≤ n * PAGE_SIZE := by
      rw [← h.capacity]
      exact Nat.le_of_not_lt hgrow
    obtain ⟨s', hwrite, hs', hsize', hcapacity', hinside, houtside⟩ := writeAt_spec bytes offset h hfits
    refine ⟨s', q, n, ?_, hs', hsize', hinside, ?_, ?_⟩
    · simp only [growableBufPwrite, hmod, Program.run_bind, Program.run_get, gt_iff_lt, hgrow, if_false,
        hwrite, Program.run_pure]
    · intro i hi hout
      apply houtside i _ hout
      rw [← h.capacity]
      exact Nat.lt_of_lt_of_le hi hsize
    · intro htail i hlo hhi hout
      rw [hcapacity'] at hhi
      rw [houtside i (h.capacity ▸ hhi) hout, htail i hlo hhi]

/-- Zeroing bytes of the buffer and setting its size. -/
theorem memsetSize_spec (offset count length : Nat) (h : BufOk s q n)
    (hle : offset + count ≤ n * PAGE_SIZE) (hlength : length ≤ n * PAGE_SIZE) :
    ∃ s', (do
        memsetZero s.buf.block ((s.buf.addr + offset) % wordSize) count
        setSize length
        return .ok () : Kernel BufState (Except Errno Unit)) s = .ok (.ok (), s') ∧
      BufOk s' q n ∧ s'.buf.size = length ∧ s'.buf.capacity = s.buf.capacity ∧
      ∀ i, i < n * PAGE_SIZE →
        s'.byte i = if offset ≤ i ∧ i < offset + count then some 0 else s.byte i := by
  obtain ⟨t, hzero, written⟩ := memsetZero_eq offset count h.blockMapped hle
  have ht := h.written written
  refine ⟨{ t with buf := { t.buf with size := length } }, ?_, ht.setSize hlength, rfl, ?_, ?_⟩
  · rw [h.addr_offset (by omega : offset ≤ n * PAGE_SIZE), h.block_eq]
    simp only [Program.run_bind, hzero, Chaotix.setSize, Program.run_modify, Program.run_pure]
  · simp only [written.buf]
  · intro i hi
    rw [BufState.byte, BufState.byte]
    simp only [written.buf]
    rw [h.addr]
    split_ifs with hin
    · have hlen : i - offset < (List.replicate count (0 : UInt8)).length := by
        rw [List.length_replicate]
        omega
      have hbyte := written.inside (i - offset) hlen
      rw [Nat.add_assoc, Nat.add_sub_cancel' hin.1] at hbyte
      rw [hbyte, List.getElem?_eq_getElem hlen, List.getElem_replicate]
    · apply written.outside i hi
      rw [List.length_replicate]
      omega

/-- `growable_buf_truncate`, when the length is not one of the last 4095 words. -/
theorem growableBufTruncate_spec {c : GrowChoice} {length : Int} (h : BufOk s q n)
    (hle : toSize length ≤ wordSize - PAGE_SIZE)
    (sound : c.Sound s (growCapacity s.buf.capacity (toSize length)))
    (guard : GrowGuard s c (toSize length)) :
    (∃ e s', growableBufTruncate c length s = .ok (.error e, s') ∧ BufOk s' q n ∧ SameBuf s s') ∨
    ∃ s' q' m, growableBufTruncate c length s = .ok (.ok (), s') ∧ BufOk s' q' m ∧
      s'.buf.size = toSize length ∧
      (∀ i, i < s.buf.size → i < toSize length → s'.byte i = s.byte i) ∧
      (ZeroTail s → ∀ i, s.buf.size ≤ i ∨ toSize length ≤ i → i < s'.buf.capacity →
        s'.byte i = some 0) := by
  have hsize := h.size_le
  have hcapacity := h.capacity
  by_cases hcut : toSize length ≤ s.buf.size
  · right
    obtain ⟨s', hrun, hs', hsize', hcapacity', hbyte⟩ := memsetSize_spec (toSize length)
      (s.buf.size - toSize length) (toSize length) h (by omega) (by omega)
    refine ⟨s', q, n, ?_, hs', hsize', ?_, ?_⟩
    · simp only [growableBufTruncate, Program.run_bind, Program.run_get, if_pos hcut] at hrun ⊢
      exact hrun
    · intro i hi hlen
      rw [hbyte i (by omega), if_neg (by omega)]
    · intro htail i hi hcap
      rw [hcapacity'] at hcap
      rw [hbyte i (by omega)]
      split_ifs with hin
      · rfl
      · exact htail i (by omega) hcap
  · by_cases hwithin : toSize length ≤ s.buf.capacity
    · right
      obtain ⟨s', hrun, hs', hsize', hcapacity', hbyte⟩ := memsetSize_spec s.buf.size
        (toSize length - s.buf.size) (toSize length) h (by omega) (by omega)
      refine ⟨s', q, n, ?_, hs', hsize', ?_, ?_⟩
      · simp only [growableBufTruncate, Program.run_bind, Program.run_get, if_neg hcut,
          if_pos hwithin] at hrun ⊢
        exact hrun
      · intro i hi hlen
        rw [hbyte i (by omega), if_neg (by omega)]
      · intro htail i hi hcap
        rw [hcapacity'] at hcap
        rw [hbyte i (by omega)]
        split_ifs with hin
        · rfl
        · exact htail i (by omega) hcap
    · have hgrow : s.buf.capacity < toSize length := by omega
      obtain ⟨m, hm, hnm, hpos, hfits⟩ := growCapacity_eq h.capacity hgrow hle
      rw [hm] at sound
      rcases growBuf_spec h hm hnm hpos sound (guard.free_ok h hgrow) with ⟨e, s1, hfail, fails⟩ |
        ⟨q', s1, hok, grows⟩
      · left
        refine ⟨e, s1, ?_, fails.sameBuf h⟩
        simp only [growableBufTruncate, Program.run_bind, Program.run_get, if_neg hcut, if_neg hwithin,
          hfail, Program.run_pure]
      · right
        refine ⟨{ s1 with buf := { s1.buf with size := toSize length } }, q', m, ?_,
          grows.ok.setSize hfits, rfl, ?_, ?_⟩
        · simp only [growableBufTruncate, Program.run_bind, Program.run_get, if_neg hcut,
            if_neg hwithin, hok, Chaotix.setSize, Program.run_modify, Program.run_pure]
        · intro i hi _
          exact grows.same i hi
        · intro _ i hi hcap
          have hcap' : i < m * PAGE_SIZE := by
            rw [← grows.ok.capacity]
            exact hcap
          exact grows.zero i (by omega) hcap'

end Functions

/-! ### Calls in which the buffer grows -/

/-- A call of `grow_buf` in which nothing fails, step by step. -/
theorem growBuf_run {s s1 s2 s3 s4 s5 : BufState} {c : GrowChoice}
    {requestedSize newAddr newCapacity start len : Nat}
    (hcapacity : growCapacity s.buf.capacity requestedSize = newCapacity)
    (halloc : bufRangeAlloc c newCapacity s = .ok (.ok newAddr, s1))
    (hblock : mapBlock s.buf newAddr newCapacity s1 = .ok (.ok (), s2))
    (hcopy : copyOld s.buf newAddr newCapacity s2 = .ok ((), s3))
    (hstart : (newAddr + s.buf.size) % wordSize = start)
    (hlen : (newCapacity + wordSize - s.buf.size) % wordSize = len)
    (hzero : memsetZero (newAddr, newCapacity) start len s3 = .ok ((), s4))
    (hrelease : releaseOld c s.buf s4 = .ok (.ok (), s5)) :
    growBuf c requestedSize s = .ok (.ok (),
      { s5 with buf := { s5.buf with addr := newAddr, capacity := newCapacity } }) := by
  simp only [growBuf, Program.run_bind, Program.run_get, hcapacity, halloc, hblock, hcopy, hstart, hlen,
    hzero, hrelease, Program.run_modify, Program.run_pure]

/-- A write that makes the buffer grow. -/
theorem growableBufPwrite_grow {s s' s'' : BufState} {c : GrowChoice} {finish : Nat}
    (bytes : List UInt8) (offset : Nat) (hfinish : (offset + bytes.length) % wordSize = finish)
    (hsmall : s.buf.capacity < finish) (hgrow : growBuf c finish s = .ok (.ok (), s'))
    (hwrite : writeAt bytes offset finish s' = .ok ((), s'')) :
    growableBufPwrite c bytes offset s = .ok (.ok bytes.length, s'') := by
  simp only [growableBufPwrite, Program.run_bind, Program.run_get, hfinish, gt_iff_lt, if_pos hsmall,
    hgrow, hwrite, Program.run_pure]

/-- A truncation that makes the buffer grow. -/
theorem growableBufTruncate_grow {s s' : BufState} {c : GrowChoice} {length : Int}
    (hsize : s.buf.size < toSize length) (hcapacity : s.buf.capacity < toSize length)
    (hgrow : growBuf c (toSize length) s = .ok (.ok (), s')) :
    growableBufTruncate c length s =
      .ok (.ok (), { s' with buf := { s'.buf with size := toSize length } }) := by
  simp only [growableBufTruncate, Program.run_bind, Program.run_get, if_neg (Nat.not_le.2 hsize),
    if_neg (Nat.not_le.2 hcapacity), hgrow, Chaotix.setSize, Program.run_modify, Program.run_pure]

end Chaotix
