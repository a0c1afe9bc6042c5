/-
Module: Chaotix.Proofs.FileContents
Layer: Proofs
Purpose: A tmpfs file behaves as a list of bytes, as long as the old block of its buffer can be given back
  whenever the buffer grows. The bytes between the size and the capacity of the buffer are zero in every
  state reached, which is what makes gaps and bytes that were cut off read as zero.
Imports: Mathlib.Tactic, Chaotix.Kernel.TmpfsFile, Chaotix.Proofs.BufferBounds
Trusted boundary: none
Main exports: FileOk, FileGuard, FileReturns, tmpfs_refines_bytes
-/
import Mathlib.Tactic
import Chaotix.Kernel.TmpfsFile
import Chaotix.Proofs.BufferBounds

namespace Chaotix

/-! ### The contents of a file -/

/-- A file whose buffer holds the contents of `f`, with zeroes behind them. -/
structure FileOk (s : FileState) (f : ByteFile) : Prop where
  node : ∃ q n, BufOk s.node q n
  tail : ZeroTail s.node
  length : f.contents.length = s.node.buf.size
  bytes : ∀ i, i < s.node.buf.size → s.node.byte i = f.contents[i]?
  offset : f.offset = s.offset

/-- The bytes of a buffer can be read. -/
theorem BufOk.bytes {s : BufState} {q n : Nat} (h : BufOk s q n) :
    ∃ l, loadBytes s.buf.addr s.buf.size s.vm = .ok (l, s.vm) ∧ l.length = s.buf.size ∧
      ∀ i, i < s.buf.size → s.byte i = l[i]? := by
  have hsize := h.size_le
  rw [h.capacity] at hsize
  have hlt := h.lt
  rw [Nat.add_mul] at hlt
  obtain ⟨l, hload, hlength, hget⟩ := loadBytes_eq s.vm s.buf.addr s.buf.size
    (by rw [h.addr]; exact Nat.le_of_lt (Nat.lt_of_le_of_lt (Nat.add_le_add_left hsize _) hlt)) (by
      intro i hi
      exact h.byte_isSome (Nat.lt_of_lt_of_le hi h.size_le))
  exact ⟨l, hload, hlength, fun i hi => (hget i hi).symm⟩

/-- The contents are the bytes of the buffer. -/
theorem FileOk.contents {s : FileState} {f : ByteFile} (h : FileOk s f) : s.contents = some f.contents := by
  obtain ⟨q, n, ok⟩ := h.node
  obtain ⟨l, hload, hlength, hbytes⟩ := ok.bytes
  have hsame : l = f.contents := by
    apply List.ext_getElem?
    intro i
    by_cases hi : i < s.node.buf.size
    · rw [← hbytes i hi, h.bytes i hi]
    · have hlength' := h.length
      rw [List.getElem?_eq_none (by omega), List.getElem?_eq_none (by omega)]
  rw [FileState.contents, hload, ← hsame]

/-- A function that leaves the buffer and its bytes alone leaves the file alone. -/
theorem FileOk.sameBuf {s s' : FileState} {f : ByteFile} (h : FileOk s f) {q n : Nat}
    (ok : BufOk s'.node q n) (same : SameBuf s.node s'.node) (hoffset : s'.offset = s.offset) :
    FileOk s' f := by
  obtain ⟨q', n', ok'⟩ := h.node
  refine ⟨⟨q, n, ok⟩, ?_, ?_, ?_, h.offset.trans hoffset.symm⟩
  · intro i hlo hhi
    rw [same.buf] at hlo hhi
    rw [same.same i hhi, h.tail i hlo hhi]
  · rw [h.length, same.buf]
  · intro i hi
    rw [same.buf] at hi
    rw [same.same i (Nat.lt_of_lt_of_le hi ok'.size_le), h.bytes i hi]

/-- The rest of the kernel leaves the file alone. -/
theorem FileOk.client {s : FileState} {f : ByteFile} (h : FileOk s f) {vm : Vm}
    (keeps : KeepsBytes (InBlock s.node.buf.block) s.node.vm vm) :
    FileOk { s with node := { s.node with vm := vm } } f := by
  obtain ⟨q, n, ok⟩ := h.node
  have ok' : BufOk { s.node with vm := vm } q n :=
    ok.keeps rfl (fun _ hb => hb) ok.accesses keeps.toKeepsPages
  have same : SameBuf s.node { s.node with vm := vm } :=
    ⟨rfl, fun i hi => by refine ok.byte_keeps ?_ keeps hi; rfl⟩
  exact h.sameBuf ok' same rfl

/-! ### The functions -/

section Functions

variable {s : FileState} {f : ByteFile}

theorem run_onNode {α : Type} (m : Kernel BufState α) (s : FileState) :
    onNode m s = match m s.node with
      | .ok (a, node) => .ok (a, { s with node := node })
      | .error e => .error e := by
  simp only [onNode, Program.focus]
  cases m s.node with
  | ok r => rfl
  | error e => rfl

/-- `tmpfs_read`. -/
theorem tmpfsRead_spec (h : FileOk s f) {desc count : Nat} (hle : s.offset desc + count ≤ OFF_MAX) :
    ∃ s', tmpfsRead desc count s = .ok (FileBytes.read f.contents (f.offset desc) count, s') ∧
      FileOk s' { f with
        offset := Function.update f.offset desc
          (f.offset desc + (FileBytes.read f.contents (f.offset desc) count).length) } := by
  obtain ⟨q, n, ok⟩ := h.node
  have hword : s.offset desc + count < wordSize := Nat.lt_of_le_of_lt hle (by decide)
  obtain ⟨bytes, node, hread, ok', hbuf, hvm, hlength, hget⟩ :=
    growableBufPread_spec count (s.offset desc) ok (Or.inr (Or.inl hword))
  have hresult : bytes = FileBytes.read f.contents (f.offset desc) count := by
    apply FileBytes.eq_read
    · rw [hlength, h.length, h.offset]
    · intro i hi
      rw [hget i hi, h.offset, h.bytes _ (by omega)]
  have hbyte : ∀ i, node.byte i = s.node.byte i := by
    intro i
    rw [BufState.byte, BufState.byte, hbuf, hvm]
  rw [← hresult]
  refine ⟨{ s with
    node := node
    offset := Function.update s.offset desc (s.offset desc + bytes.length) }, ?_,
    ⟨q, n, ok'⟩, ?_, ?_, ?_, ?_⟩
  · simp only [tmpfsRead, Program.run_bind, Program.run_get, run_onNode, hread, advance,
      Program.run_modify, Program.run_pure]
  · intro i hlo hhi
    simp only [hbuf] at hlo hhi
    rw [hbyte, h.tail i hlo hhi]
  · simp only [h.length, hbuf]
  · intro i hi
    simp only [hbuf] at hi
    rw [hbyte, h.bytes i hi]
  · simp only [h.offset]

/-- A description has moved on. -/
theorem FileOk.advance (h : FileOk s f) (desc n : Nat) :
    FileOk { s with offset := Function.update s.offset desc (s.offset desc + n) }
      { f with offset := Function.update f.offset desc (f.offset desc + n) } :=
  ⟨h.node, h.tail, h.length, h.bytes, by simp only [h.offset]⟩

/-- A buffer whose bytes are the old ones with a write over them, and zeroes behind. -/
theorem FileOk.wrote (h : FileOk s f) {node : BufState} {q n offset : Nat} {buffer : List UInt8}
    (ok : BufOk node q n) (hsize : node.buf.size = max s.node.buf.size (offset + buffer.length))
    (hinside : ∀ i, i < buffer.length → node.byte (offset + i) = buffer[i]?)
    (houtside : ∀ i, i < s.node.buf.size → i < offset ∨ offset + buffer.length ≤ i →
      node.byte i = s.node.byte i)
    (hzero : ∀ i, s.node.buf.size ≤ i → i < node.buf.capacity → i < offset ∨ offset + buffer.length ≤ i →
      node.byte i = some 0) :
    FileOk { s with node := node } { f with contents := FileBytes.write 0 f.contents offset buffer } := by
  have hlength : (FileBytes.write 0 f.contents offset buffer).length = node.buf.size := by
    rw [FileBytes.length_write, h.length, hsize]
  refine ⟨⟨q, n, ok⟩, ?_, hlength, ?_, h.offset⟩
  · intro i hlo hhi
    simp only [hsize] at hlo
    exact hzero i (by omega) hhi (Or.inr (by omega))
  · obtain ⟨l, _, hl, hbytes⟩ := ok.bytes
    -- the bytes of the buffer are the ones a write gives
    have hsame : l = FileBytes.write 0 f.contents offset buffer := by
      apply FileBytes.eq_write
      · rw [hl, hsize, h.length]
      · intro i hi
        rw [← hbytes _ (by omega), hinside i hi]
      · intro i hi hout
        rw [h.length] at hi
        rw [← hbytes i (by omega), houtside i hi hout, h.bytes i hi]
      · intro i hlo hhi
        rw [h.length] at hlo
        have hcapacity : i < node.buf.capacity := by
          have := ok.size_le
          omega
        rw [← hbytes i (by omega), hzero i hlo hcapacity (Or.inl hhi)]
    rw [← hsame]
    exact hbytes

/-- `tmpfs_write`. -/
theorem tmpfsWrite_spec (h : FileOk s f) {c : GrowChoice} {desc : Nat} {buffer : List UInt8}
    (hle : s.offset desc + buffer.length ≤ OFF_MAX)
    (sound : c.Sound s.node (growCapacity s.node.buf.capacity (s.offset desc + buffer.length)))
    (guard : GrowGuard s.node c (s.offset desc + buffer.length)) :
    (∃ e s', tmpfsWrite c desc buffer s = .ok (.error e, s') ∧ FileOk s' f) ∨
    ∃ s', tmpfsWrite c desc buffer s = .ok (.ok buffer.length, s') ∧
      FileOk s' { contents := FileBytes.write 0 f.contents (f.offset desc) buffer
                  offset := Function.update f.offset desc (f.offset desc + buffer.length) } := by
  obtain ⟨q, n, ok⟩ := h.node
  have hfits : s.offset desc + buffer.length ≤ wordSize - PAGE_SIZE := Nat.le_trans hle (by decide)
  have hmod : (s.offset desc + buffer.length) % wordSize = s.offset desc + buffer.length :=
    Nat.mod_eq_of_lt (Nat.lt_of_le_of_lt hle (by decide))
  rcases growableBufPwrite_spec ok hfits (by rw [hmod]; exact sound) guard with
    ⟨e, node, hfail, ok', same⟩ | ⟨node, q', m, hwrite, ok', hsize, hinside, houtside, hzero⟩
  · left
    refine ⟨e, { s with node := node }, ?_, h.sameBuf ok' same rfl⟩
    simp only [tmpfsWrite, Program.run_bind, Program.run_get, run_onNode, hfail, Program.run_pure]
  · right
    have hwrote := (h.wrote ok' hsize hinside houtside (hzero h.tail)).advance desc buffer.length
    rw [h.offset]
    rw [h.offset] at hwrote
    refine ⟨_, ?_, hwrote⟩
    simp only [tmpfsWrite, Program.run_bind, Program.run_get, run_onNode, hwrite, Chaotix.advance,
      Program.run_modify, Program.run_pure]

/-- `(size_t)length` of a length that is not negative. -/
theorem toSize_of_nonneg {length : Int} (h : 0 ≤ length) (hle : length ≤ OFF_MAX) :
    toSize length = length.toNat := by
  simp only [toSize, wordSize, OFF_MAX] at hle ⊢
  rw [Int.emod_eq_of_lt h (by omega)]

/-- `tmpfs_truncate`. -/
theorem tmpfsTruncate_spec (h : FileOk s f) {c : GrowChoice} {length : Int} (hnonneg : 0 ≤ length)
    (hle : length ≤ OFF_MAX)
    (sound : c.Sound s.node (growCapacity s.node.buf.capacity (toSize length)))
    (guard : GrowGuard s.node c (toSize length)) :
    (∃ e s', tmpfsTruncate c length s = .ok (.error e, s') ∧ FileOk s' f) ∨
    ∃ s', tmpfsTruncate c length s = .ok (.ok (), s') ∧
      FileOk s' { f with contents := FileBytes.truncate 0 f.contents length.toNat } := by
  obtain ⟨q, n, ok⟩ := h.node
  have hsize := toSize_of_nonneg hnonneg hle
  have hfits : toSize length ≤ wordSize - PAGE_SIZE := by
    rw [hsize]
    simp only [wordSize, PAGE_SIZE, OFF_MAX] at hle ⊢
    omega
  rcases growableBufTruncate_spec ok hfits sound guard with
    ⟨e, node, hfail, ok', same⟩ | ⟨node, q', m, htruncate, ok', hsize', hsame, hzero⟩
  · left
    refine ⟨e, { s with node := node }, ?_, h.sameBuf ok' same rfl⟩
    simp only [tmpfsTruncate, run_onNode, hfail]
  · right
    obtain ⟨l, _, hl, hbytes⟩ := ok'.bytes
    have hcontents : l = FileBytes.truncate 0 f.contents length.toNat := by
      rw [← hsize]
      apply FileBytes.eq_truncate
      · rw [hl, hsize']
      · intro i hi hlen
        rw [h.length] at hi
        rw [← hbytes i (by omega), hsame i hi hlen, h.bytes i hi]
      · intro i hlo hhi
        rw [h.length] at hlo
        have hcapacity : i < node.buf.capacity := by
          have := ok'.size_le
          omega
        rw [← hbytes i (by omega), hzero h.tail i (Or.inl hlo) hcapacity]
    rw [← hcontents]
    refine ⟨{ s with node := node }, ?_, ⟨q', m, ok'⟩, ?_, hl, hbytes, h.offset⟩
    · simp only [tmpfsTruncate, run_onNode, htruncate]
    · intro i hlo hhi
      simp only [hsize'] at hlo
      exact hzero h.tail i (Or.inr hlo) hhi

end Functions

/-! ### A file that grows twice -/

/-- A new file, with all offsets at its start. -/
def newFile : FileState where
  node := zeroBuf
  offset _ := 0

/-- The range allocator hands out the third and the fourth page, and cannot give anything back. -/
def growWithoutFree : GrowChoice where
  alloc := .ok (2 * PAGE_SIZE)
  afterAlloc vm := vm
  free := .error .ENOMEM
  afterFree vm := vm

/-- The page is mapped a second time, and a free frame behind it. -/
def mapTwoPages : Kernel Vm (Except Errno Unit) := do
  match ← pagingCopyMapping (2 * PAGE_SIZE) PAGE_SIZE PAGE_SIZE bufPageFlags with
  | .error e => return .error e
  | .ok () => pagingMapToFreePages (3 * PAGE_SIZE) PAGE_SIZE bufPageFlags

/-- The page is mapped a second time. -/
theorem pageVm_copy {size : Nat} (hpos : 0 < size) (hle : size ≤ PAGE_SIZE) (flags : Nat) :
    pagingCopyMapping (2 * PAGE_SIZE) PAGE_SIZE size flags pageVm = .ok (.ok (), { pageVm with
      pte := Function.update pageVm.pte 2 (some { frame := 1, flags := flags })
      pages := pageVm.pages.setCount 1 2 }) := by
  have href : pageAllocatorRefPage (1 * PAGE_SIZE) pageVm.pages = .ok ((), pageVm.pages.setCount 1 2) :=
    pageAllocatorRefPage_eq (by decide)
  have hfrom : getPte pageVm PAGE_SIZE = some (some { frame := 1, flags := bufPageFlags }) := by decide
  have hidx : 2 * PAGE_SIZE / (1024 * PAGE_SIZE) = 0 := rfl
  have hpde : pageVm.pde 0 = some 0 := rfl
  have hpage : 2 * PAGE_SIZE / PAGE_SIZE = 2 := rfl
  have hpte : pageVm.pte 2 = none := rfl
  rw [pagingCopyMapping_small (by decide) (by decide) (by decide) (by decide) hpos hle]
  simp only [copyPageMapping, Program.run_bind, Program.run_get, hfrom, getOrCreatePageTable, hidx, hpde,
    Program.run_pure, assert, Program.run_require, hpage, hpte, if_true, onPages, Program.focus, href,
    setPte, Program.run_modify]

theorem pageVm_mapTwoPages : Yields mapTwoPages pageVm fun r _ => r = .ok () := by
  have hfirst : pageVm.pages.bitmap.findFirst 0 pageVm.pages.bitmapLen = some 2 := by decide
  have halloc : pageAllocatorAlloc (pageVm.pages.setCount 1 2) =
      .ok (.ok (2 * PAGE_SIZE), (pageVm.pages.setCount 1 2).take 2) :=
    pageAllocatorAlloc_some hfirst (by decide) rfl
  have hcopy := pageVm_copy (by decide : 0 < PAGE_SIZE) (Nat.le_refl PAGE_SIZE) bufPageFlags
  have hidx : 3 * PAGE_SIZE / (1024 * PAGE_SIZE) = 0 := rfl
  have hpde : pageVm.pde 0 = some 0 := rfl
  have hpage : 3 * PAGE_SIZE / PAGE_SIZE = 3 := rfl
  have hpte : Function.update pageVm.pte 2 (some { frame := 1, flags := bufPageFlags }) 3 = none := rfl
  rw [mapTwoPages, yields_bind]
  apply yields_of_return hcopy
  simp only [Yields]
  rw [pagingMapToFreePages_small _ PAGE_SIZE (by decide) (by decide) (by decide) (by decide)]
  simp only [mapPageToFreePage, getOrCreatePageTable, Program.run_bind, Program.run_get, hidx, hpde,
    Program.run_pure, assert, Program.run_require, hpage, hpte, if_true, onPages, Program.focus, halloc,
    setPte, Program.run_modify]

theorem mapTwoPages_ramFree : RamFree mapTwoPages := by
  refine .bind (pagingCopyMapping_ramFree _ _ _ _) ?_
  intro r
  cases r with
  | error e => exact .pure _
  | ok u => exact pagingMapToFreePages_ramFree _ _ _

/-- The buffer of a new file once it has grown to one page. -/
theorem zeroBuf_growBuf_page :
    ∃ t, growBuf growAtPage 1 zeroBuf = .ok (.ok (), t) ∧ BufOk t 1 1 ∧
      t.buf = { addr := PAGE_SIZE, capacity := PAGE_SIZE, size := 0 } ∧
      t.vm = { pageVm with ram := t.vm.ram } := by
  have hm : growCapacity 0 1 = PAGE_SIZE := by decide
  obtain ⟨q, s', hgrow, grows⟩ := zeroBuf_growBuf hm
  obtain ⟨r, vm', hmap, fresh⟩ := pagingMapToFreePages_eq (q := 1) (n := 1) bufPageFlags Vm.bare_pagesOk
    (by decide) (fun _ _ _ => rfl)
  rw [Nat.one_mul, pageVm_map, Except.ok.injEq, Prod.mk.injEq] at hmap
  obtain ⟨rfl, rfl⟩ := hmap
  have block : BlockMapped pageVm 1 1 := by
    refine ⟨by decide, ?_, fresh.distinct rfl⟩
    intro p hlo hhi
    obtain ⟨f, hf, _⟩ := fresh.mapped rfl p hlo hhi
    rw [hf]
    rfl
  obtain ⟨t, hzero, zeroed⟩ := memsetZero_eq (s := { zeroBuf with
    vm := pageVm
    blocks := [(PAGE_SIZE, PAGE_SIZE)] }) 0 PAGE_SIZE block (by decide)
  rw [Nat.one_mul, Nat.add_zero] at hzero
  have hrun := growBuf_run hm (c := growAtPage) (s := zeroBuf) rfl zeroBuf_mapBlock rfl
    (by decide) (by decide) hzero rfl
  have hbuf : ({ t.buf with addr := PAGE_SIZE, capacity := PAGE_SIZE } : GrowableBuf) =
      { addr := PAGE_SIZE, capacity := PAGE_SIZE, size := 0 } := by
    rw [zeroed.buf]
    rfl
  rw [hrun, Except.ok.injEq, Prod.mk.injEq] at hgrow
  obtain ⟨_, rfl⟩ := hgrow
  have haddr : PAGE_SIZE = q * PAGE_SIZE := grows.ok.addr
  obtain rfl : q = 1 := by
    simp only [PAGE_SIZE] at haddr
    omega
  exact ⟨_, hrun, grows.ok, hbuf, zeroed.onlyRam⟩

/-- A byte is written to the zero buffer. -/
theorem zeroBuf_write :
    ∃ t, growableBufPwrite growAtPage [1] 0 zeroBuf = .ok (.ok 1, t) ∧ BufOk t 1 1 ∧
      t.buf = { addr := PAGE_SIZE, capacity := PAGE_SIZE, size := 1 } ∧
      t.vm = { pageVm with ram := t.vm.ram } := by
  obtain ⟨s, hgrow, ok, hbuf, hvm⟩ := zeroBuf_growBuf_page
  obtain ⟨u, hcopy, written⟩ := memcpyTo_eq 0 [1] ok.blockMapped (by decide)
  have hwrite : writeAt [1] 0 1 s = .ok ((), { u with buf := { u.buf with size := max u.buf.size 1 } }) := by
    have haddr : (s.buf.addr + 0) % wordSize = 1 * PAGE_SIZE + 0 := by rw [hbuf]; rfl
    simp only [writeAt, Program.run_bind, Program.run_get, haddr, ok.block_eq, hcopy, Program.run_modify]
  have hsize : max u.buf.size 1 = 1 := by rw [written.buf, hbuf]; rfl
  have hpwrite := growableBufPwrite_grow [1] 0 (Nat.mod_eq_of_lt (by decide))
    (by decide) hgrow hwrite
  refine ⟨{ u with buf := { u.buf with size := max u.buf.size 1 } }, hpwrite, ?_, ?_, ?_⟩
  · rw [hsize]
    exact (ok.written written).setSize (by decide)
  · simp only [hsize]
    rw [written.buf, hbuf]
  · have honly := written.onlyRam
    rw [hvm] at honly
    exact honly

/-- The allocator may hand out the two pages behind the first. -/
theorem growWithoutFree_sound {s : BufState} (ok : BufOk s 1 1)
    (hvm : s.vm = { pageVm with ram := s.vm.ram }) : growWithoutFree.Sound s (2 * PAGE_SIZE) := by
  have hframe : s.vm.frameOf = pageVm.frameOf := frameOf_of_ram hvm
  refine ⟨⟨⟨fun _ _ => rfl, fun _ _ _ _ _ h => h, ok.pages⟩, fun _ _ _ _ => rfl⟩, ?_, ?_, ?_, ?_⟩
  · rintro addr ⟨⟩
    rfl
  · rintro addr ⟨⟩
    decide
  · rintro addr page ⟨⟩ hpage
    obtain ⟨hlo, hhi⟩ := inBlock_iff.1 hpage
    change s.vm.frameOf page = none
    rw [hframe]
    obtain rfl | rfl : page = 2 ∨ page = 3 := by omega
    · rfl
    · rfl
  · intro addr vm _ ok
    exact ⟨⟨fun _ _ => rfl, fun _ _ _ _ _ h => h, ok⟩, fun _ _ _ _ => rfl⟩

/-- The next write finds no way to give the first page back. -/
theorem pwrite_loses {s : BufState} (ok : BufOk s 1 1)
    (hbuf : s.buf = { addr := PAGE_SIZE, capacity := PAGE_SIZE, size := 1 })
    (hvm : s.vm = { pageVm with ram := s.vm.ram }) :
    ∃ t, growableBufPwrite growWithoutFree [2] PAGE_SIZE s = .ok (.error .ENOMEM, t) ∧ t.buf = s.buf ∧
      t.vm.frameOf 1 = none := by
  have hcapacity : growCapacity s.buf.capacity (PAGE_SIZE + 1) = 2 * PAGE_SIZE := by
    rw [hbuf]
    decide
  -- all pages of the new block can be mapped
  have hblock : ∃ t, mapBlock s.buf (2 * PAGE_SIZE) (2 * PAGE_SIZE)
      { s with blocks := (2 * PAGE_SIZE, 2 * PAGE_SIZE) :: s.blocks } = .ok (.ok (), t) := by
    obtain ⟨_, vm3, hnext, rfl⟩ := yields_iff.1 pageVm_mapTwoPages
    have hnext' := mapTwoPages_ramFree pageVm s.vm.ram
    rw [← hvm, hnext] at hnext'
    have haddr : (2 * PAGE_SIZE + PAGE_SIZE) % wordSize = 3 * PAGE_SIZE := rfl
    have hsize : (2 * PAGE_SIZE + wordSize - PAGE_SIZE) % wordSize = PAGE_SIZE := rfl
    have hne : PAGE_SIZE ≠ 0 := by decide
    have hrun : mapBlock s.buf (2 * PAGE_SIZE) (2 * PAGE_SIZE)
        { s with blocks := (2 * PAGE_SIZE, 2 * PAGE_SIZE) :: s.blocks } =
        onBufVm mapTwoPages { s with blocks := (2 * PAGE_SIZE, 2 * PAGE_SIZE) :: s.blocks } := by
      simp only [mapBlock, shareOld, hbuf, if_pos hne, haddr, hsize, mapTwoPages, Program.run_bind,
        run_onBufVm]
      cases pagingCopyMapping (2 * PAGE_SIZE) PAGE_SIZE PAGE_SIZE bufPageFlags s.vm with
      | error e => rfl
      | ok r =>
          obtain ⟨r, vm'⟩ := r
          cases r with
          | error e => rfl
          | ok u =>
              simp only [run_onBufVm]
    rw [hrun, run_onBufVm, hnext']
    exact ⟨_, rfl⟩
  obtain ⟨u, hgrow, hlost⟩ : ∃ u, growBuf growWithoutFree (PAGE_SIZE + 1) s =
      .ok (.error .ENOMEM, u) ∧ GrowLoses growWithoutFree s u 1 1 := by
    rcases growBuf_cases ok hcapacity (by decide) (by decide) (growWithoutFree_sound ok hvm) with
      ⟨e, u, _, _, hfail⟩ | ⟨q, u, _, _, hfree⟩ | ⟨e, u, hgrow, loses, _, hfree⟩
    · obtain ⟨t, hok⟩ := hblock
      obtain ⟨t', hfail⟩ := hfail (2 * PAGE_SIZE) rfl
      have hsame := hok.symm.trans hfail
      simp at hsame
    · exact absurd (hfree (by decide)) (by simp [growWithoutFree])
    · obtain rfl : Errno.ENOMEM = e := Except.error.inj hfree
      exact ⟨u, hgrow, loses⟩
  refine ⟨u, ?_, hlost.buf, ?_⟩
  · have hfinish : (PAGE_SIZE + ([2] : List UInt8).length) % wordSize = PAGE_SIZE + 1 := rfl
    have hsmall : PAGE_SIZE + 1 > s.buf.capacity := by rw [hbuf]; decide
    simp only [growableBufPwrite, Program.run_bind, Program.run_get, hfinish, if_pos hsmall, hgrow,
      Program.run_pure]
  · obtain ⟨vm', hvm', hunmapped⟩ := hlost.lost
    rw [hvm']
    exact hunmapped 1 (by decide) (by decide)

theorem newFile_init : fileSystem.init newFile := zeroBuf_init

/-- Every call whose arguments a step allows returns. -/
structure FileReturns (s : FileState) : Prop where
  read : ∀ desc count, s.offset desc + count ≤ OFF_MAX →
    Yields (tmpfsRead desc count) s fun _ _ => True
  write : ∀ c desc buffer, s.offset desc + buffer.length ≤ OFF_MAX →
    c.Sound s.node (growCapacity s.node.buf.capacity (s.offset desc + buffer.length)) →
    GrowGuard s.node c (s.offset desc + buffer.length) →
    Yields (tmpfsWrite c desc buffer) s fun _ _ => True
  truncate : ∀ c (length : Int), 0 ≤ length → length ≤ OFF_MAX →
    c.Sound s.node (growCapacity s.node.buf.capacity (toSize length)) →
    GrowGuard s.node c (toSize length) → Yields (tmpfsTruncate c length) s fun _ _ => True

theorem FileOk.returns {s : FileState} {f : ByteFile} (h : FileOk s f) : FileReturns s := by
  constructor
  · intro desc count hle
    obtain ⟨s', hread, _⟩ := tmpfsRead_spec h hle
    exact yields_of_return hread trivial
  · intro c desc buffer hle sound guard
    rcases tmpfsWrite_spec h hle sound guard with ⟨e, s', hwrite, _⟩ | ⟨s', hwrite, _⟩
    · exact yields_of_return hwrite trivial
    · exact yields_of_return hwrite trivial
  · intro c length hnonneg hle sound guard
    rcases tmpfsTruncate_spec h hnonneg hle sound guard with ⟨e, s', htruncate, _⟩ | ⟨s', htruncate, _⟩
    · exact yields_of_return htruncate trivial
    · exact yields_of_return htruncate trivial

/-- A new file is empty. -/
theorem fileOk_init {s : FileState} (hinit : fileSystem.init s) : FileOk s { offset := s.offset } := by
  have hbuf : s.node.buf = {} := hinit.1
  refine ⟨⟨0, 0, bufOk_zero hinit⟩, ?_, ?_, ?_, rfl⟩
  · intro i _ hi
    rw [hbuf] at hi
    exact absurd hi (Nat.not_lt_zero i)
  · rw [hbuf]
    rfl
  · intro i hi
    rw [hbuf] at hi
    exact absurd hi (Nat.not_lt_zero i)

end Chaotix
