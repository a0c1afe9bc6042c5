/-
Module: Chaotix.Proofs.SharedMappings
Layer: Proofs
Purpose: Mappings of a tmpfs file stay coherent, as long as the old block of its buffer can be given back
  whenever the buffer grows. Growing moves the pages of the file to other addresses, but each page keeps
  its frame, and that frame is the one behind every mapping of the page. The record of accesses plays no
  part in it, so that reads of any kind may occur.
Imports: Mathlib.Tactic, Chaotix.Proofs.FileContents
Trusted boundary: none
Main exports: SamePages, Coherent, SharingGuard, coherent_mappings
-/
import Mathlib.Tactic
import Chaotix.Proofs.FileContents

namespace Chaotix

/-! ### The record of accesses -/

/-- A function that returns the same value and makes the same changes whatever accesses have been
    recorded. -/
def AccessFree {α : Type} (m : Kernel BufState α) : Prop :=
  ∀ s accesses, Ensures m s fun a s' =>
    ∃ accesses', m { s with accesses := accesses } = .ok (a, { s' with accesses := accesses' })

namespace AccessFree

variable {α β : Type}

theorem pure (a : α) : AccessFree (pure a : Kernel BufState α) := fun _ accesses => ⟨accesses, rfl⟩

theorem bind {m : Kernel BufState α} {f : α → Kernel BufState β} (hm : AccessFree m)
    (hf : ∀ a, AccessFree (f a)) : AccessFree (m >>= f) := by
  intro s accesses
  rw [ensures_bind]
  apply (hm s accesses).mono
  intro a t ⟨accesses', hrun⟩
  apply (hf a t accesses').mono
  intro b u ⟨accesses'', hrest⟩
  refine ⟨accesses'', ?_⟩
  rw [Program.run_bind, hrun]
  exact hrest

theorem get {f : BufState → Kernel BufState α} (hf : ∀ s, AccessFree (f s))
    (hsame : ∀ s accesses, f { s with accesses := accesses } = f s) : AccessFree (get >>= f) := by
  intro s accesses
  rw [ensures_bind, ensures_get]
  apply (hf s s accesses).mono
  intro a t ⟨accesses', hrun⟩
  refine ⟨accesses', ?_⟩
  rw [Program.run_bind, Program.run_get]
  simp only [hsame]
  exact hrun

theorem modify {f : BufState → BufState}
    (hf : ∀ s accesses, ∃ accesses', f { s with accesses := accesses } = { f s with accesses := accesses' }) :
    AccessFree (modify f) := by
  intro s accesses
  obtain ⟨accesses', hsame⟩ := hf s accesses
  refine ⟨accesses', ?_⟩
  rw [Program.run_modify, hsame]

theorem require (c : Prop) [Decidable c] (e : Stop) :
    AccessFree (Program.require c e : Kernel BufState Unit) := by
  intro s accesses
  apply ensures_require.2
  intro hc
  refine ⟨accesses, ?_⟩
  rw [Program.run_require, if_pos hc]

theorem onBufVm (m : Kernel Vm α) : AccessFree (onBufVm m) := by
  intro s accesses
  rw [Chaotix.onBufVm, ensures_focus]
  apply ensures_iff.2
  intro a vm hrun
  exact ⟨accesses, by simp only [Program.focus, hrun]⟩

theorem touch (block : Segment) (vaddr len : Nat) : AccessFree (touch block vaddr len) :=
  .modify fun _ _ => ⟨_, rfl⟩

theorem memcpyFrom (block : Segment) (vaddr count : Nat) : AccessFree (memcpyFrom block vaddr count) :=
  .bind (.touch _ _ _) fun _ => .onBufVm _

theorem memcpyTo (block : Segment) (vaddr : Nat) (bytes : List UInt8) :
    AccessFree (memcpyTo block vaddr bytes) :=
  .bind (.touch _ _ _) fun _ => .onBufVm _

theorem memsetZero (block : Segment) (vaddr count : Nat) : AccessFree (memsetZero block vaddr count) :=
  .bind (.touch _ _ _) fun _ => .onBufVm _

/-- A call after another one that may fail. -/
theorem andThen {m : Kernel BufState (Except Errno Unit)} {next : Kernel BufState (Except Errno β)}
    (hm : AccessFree m) (hnext : AccessFree next) :
    AccessFree (do match ← m with
      | .error e => return .error e
      | .ok () => next : Kernel BufState (Except Errno β)) := by
  apply hm.bind
  intro r
  cases r with
  | error e => exact .pure _
  | ok u => exact hnext

theorem bufRangeAlloc (c : GrowChoice) (size : Nat) : AccessFree (bufRangeAlloc c size) := by
  apply AccessFree.bind (.modify fun _ accesses => ⟨accesses, rfl⟩)
  intro _
  cases c.alloc with
  | error e => exact .pure _
  | ok addr => exact .bind (.modify fun _ accesses => ⟨accesses, rfl⟩) fun _ => .pure _

theorem bufRangeFree (c : GrowChoice) (addr size : Nat) : AccessFree (bufRangeFree c addr size) := by
  apply AccessFree.bind (.modify fun _ accesses => ⟨accesses, rfl⟩)
  intro _
  cases c.free with
  | error e => exact .pure _
  | ok u => exact .bind (.modify fun _ accesses => ⟨accesses, rfl⟩) fun _ => .pure _

theorem mapBlock (buf : GrowableBuf) (newAddr newCapacity : Nat) :
    AccessFree (mapBlock buf newAddr newCapacity) := by
  have hshare : AccessFree (shareOld buf newAddr) := by
    unfold shareOld
    split_ifs
    · exact .onBufVm _
    · exact .bind (.require _ _) fun _ => .pure _
  exact hshare.andThen (.onBufVm _)

theorem copyOld (buf : GrowableBuf) (newAddr newCapacity : Nat) :
    AccessFree (copyOld buf newAddr newCapacity) := by
  unfold Chaotix.copyOld
  split_ifs
  · exact .bind (.memcpyFrom _ _ _) fun _ => .memcpyTo _ _ _
  · exact .pure _

theorem releaseOld (c : GrowChoice) (buf : GrowableBuf) : AccessFree (releaseOld c buf) := by
  unfold Chaotix.releaseOld
  split_ifs
  · exact .bind (.onBufVm _) fun _ => .bufRangeFree _ _ _
  · exact .pure _

theorem growBuf (c : GrowChoice) (requestedSize : Nat) : AccessFree (growBuf c requestedSize) := by
  refine .get (fun s => ?_) fun s accesses => rfl
  apply AccessFree.bind (.bufRangeAlloc _ _)
  intro r
  cases r with
  | error e => exact .pure _
  | ok newAddr =>
      apply (AccessFree.mapBlock _ _ _).andThen
      refine .bind (.copyOld _ _ _) fun _ => .bind (.memsetZero _ _ _) fun _ => ?_
      apply (AccessFree.releaseOld _ _).andThen
      exact .bind (.modify fun _ accesses => ⟨accesses, rfl⟩) fun _ => .pure _

theorem growableBufPread (count offset : Nat) : AccessFree (growableBufPread count offset) := by
  refine .get (fun s => ?_) fun s accesses => rfl
  dsimp only
  split
  · exact .pure _
  · exact .memcpyFrom _ _ _

theorem writeAt (bytes : List UInt8) (offset finish : Nat) : AccessFree (writeAt bytes offset finish) :=
  .get (fun _ => .bind (.memcpyTo _ _ _) fun _ => .modify fun _ accesses => ⟨accesses, rfl⟩) fun _ _ => rfl

theorem growableBufPwrite (c : GrowChoice) (bytes : List UInt8) (offset : Nat) :
    AccessFree (growableBufPwrite c bytes offset) := by
  have hwrite : ∀ finish, AccessFree (do
      Chaotix.writeAt bytes offset finish
      return .ok bytes.length : Kernel BufState (Except Errno Nat)) := fun finish =>
    .bind (.writeAt _ _ _) fun _ => .pure _
  refine .get (fun s => ?_) fun s accesses => rfl
  split_ifs
  · exact (AccessFree.growBuf _ _).andThen (hwrite _)
  · exact hwrite _

theorem setSize (length : Nat) : AccessFree (setSize length) :=
  .modify fun _ accesses => ⟨accesses, rfl⟩

theorem growableBufTruncate (c : GrowChoice) (length : Int) : AccessFree (growableBufTruncate c length) := by
  refine .get (fun s => ?_) fun s accesses => rfl
  dsimp only
  split_ifs
  · exact .bind (.memsetZero _ _ _) fun _ => .bind (.setSize _) fun _ => .pure _
  · exact .bind (.memsetZero _ _ _) fun _ => .bind (.setSize _) fun _ => .pure _
  · exact (AccessFree.growBuf _ _).andThen (.bind (.setSize _) fun _ => .pure _)

theorem growableBufMmap (addr length : Nat) (offset : Int) (pageFlags : Nat) :
    AccessFree (growableBufMmap addr length offset pageFlags) := by
  refine .get (fun s => ?_) fun s accesses => rfl
  dsimp only
  split_ifs
  · exact .pure _
  · exact .pure _
  · exact AccessFree.andThen (.onBufVm _) (.pure _)

end AccessFree

/-! ### Pages and their frames -/

/-- The pages of a buffer are still there, in the same frames. -/
structure SamePages (s s' : BufState) : Prop where
  capacity_le : s.buf.capacity ≤ s'.buf.capacity
  frames : ∀ k, k * PAGE_SIZE < s.buf.capacity → s'.pageFrame k = s.pageFrame k

namespace SamePages

variable {s s' s'' : BufState}

theorem refl (s : BufState) : SamePages s s := ⟨Nat.le_refl _, fun _ _ => rfl⟩

theorem trans (h : SamePages s s') (h' : SamePages s' s'') : SamePages s s'' := by
  refine ⟨Nat.le_trans h.capacity_le h'.capacity_le, ?_⟩
  intro k hk
  rw [h'.frames k (Nat.lt_of_lt_of_le hk h.capacity_le), h.frames k hk]

/-- Bytes may change, and so may the size. -/
theorem of_frameOf (haddr : s'.buf.addr = s.buf.addr) (hcapacity : s'.buf.capacity = s.buf.capacity)
    (hframe : s'.vm.frameOf = s.vm.frameOf) : SamePages s s' := by
  refine ⟨Nat.le_of_eq hcapacity.symm, ?_⟩
  intro k _
  rw [BufState.pageFrame, BufState.pageFrame, haddr, hframe]

end SamePages

theorem BufOk.pageFrame {s : BufState} {q n : Nat} (h : BufOk s q n) (k : Nat) :
    s.pageFrame k = s.vm.frameOf (q + k) := by
  rw [BufState.pageFrame, h.addr, Nat.mul_div_cancel q (by decide)]

/-- The pages of a buffer lie in its block. -/
theorem BufOk.page_lt {s : BufState} {q n k : Nat} (h : BufOk s q n) (hk : k * PAGE_SIZE < s.buf.capacity) :
    k < n := by
  rw [h.capacity] at hk
  exact Nat.lt_of_mul_lt_mul_right hk

/-- Code that leaves the block of the buffer alone keeps its pages. -/
theorem BufOk.samePages {s s' : BufState} {q n : Nat} (h : BufOk s q n) (hbuf : s'.buf = s.buf)
    (keeps : KeepsPages (InBlock s.buf.block) s.vm s'.vm) : SamePages s s' := by
  refine ⟨by rw [hbuf], ?_⟩
  intro k hk
  have hkn := h.page_lt hk
  rw [BufState.pageFrame, hbuf]
  apply keeps.frameOf
  rw [h.addr, Nat.mul_div_cancel q (by decide)]
  exact h.inBlock.2 ⟨Nat.le_add_right q k, Nat.add_lt_add_left hkn q⟩

/-- The byte behind a page of a mapping is the byte of the page of the buffer in the same frame. -/
theorem BufOk.byteAt_mapping {s : BufState} {q n page i : Nat} (h : BufOk s q n)
    (hpage : s.vm.frameOf page = s.pageFrame (i / PAGE_SIZE)) :
    s.vm.byteAt (page * PAGE_SIZE + i % PAGE_SIZE) = s.byte i := by
  have hlt : i % PAGE_SIZE < PAGE_SIZE := Nat.mod_lt i (by decide)
  have hdiv : (page * PAGE_SIZE + i % PAGE_SIZE) / PAGE_SIZE = page := by
    rw [Nat.mul_comm, Nat.mul_add_div (by decide), Nat.div_eq_of_lt hlt, Nat.add_zero]
  have hmod : (page * PAGE_SIZE + i % PAGE_SIZE) % PAGE_SIZE = i % PAGE_SIZE := by
    rw [Nat.mul_comm, Nat.mul_add_mod, Nat.mod_mod]
  have haddr : (s.buf.addr + i) / PAGE_SIZE = q + i / PAGE_SIZE := by
    rw [h.addr, Nat.mul_comm, Nat.mul_add_div (by decide)]
  have hoffset : (s.buf.addr + i) % PAGE_SIZE = i % PAGE_SIZE := by
    rw [h.addr, Nat.mul_comm, Nat.mul_add_mod]
  rw [Vm.byteAt, BufState.byte, Vm.byteAt, hdiv, hmod, haddr, hoffset, hpage, h.pageFrame]

/-! ### The functions -/

theorem storeBytes_frameOf (vaddr : Nat) (bytes : List UInt8) (vm : Vm) :
    Ensures (storeBytes vaddr bytes) vm fun _ vm' => vm'.frameOf = vm.frameOf := by
  induction bytes generalizing vaddr vm with
  | nil => exact rfl
  | cons byte bytes ih =>
      rw [storeBytes, ensures_bind]
      have hstore : Ensures (store8 vaddr byte) vm fun _ vm' => vm'.frameOf = vm.frameOf := by
        rw [store8, ensures_bind, ensures_get]
        cases vm.frameOf (vaddr / PAGE_SIZE) with
        | none => exact trivial
        | some frame => exact rfl
      apply hstore.mono
      intro _ vm' hsame
      apply (ih _ vm').mono
      intro _ vm'' hrest
      rw [hrest, hsame]

theorem loadBytes_state (vaddr n : Nat) (vm : Vm) :
    Ensures (loadBytes vaddr n) vm fun _ vm' => vm' = vm := by
  induction n generalizing vaddr with
  | zero => exact rfl
  | succ n ih =>
      rw [loadBytes, ensures_bind]
      have hload : Ensures (load8 vaddr) vm fun _ vm' => vm' = vm := by
        rw [load8, ensures_bind, ensures_get]
        cases vm.frameOf (vaddr / PAGE_SIZE) with
        | none => exact trivial
        | some frame => exact rfl
      apply hload.mono
      intro byte vm' hsame
      rw [hsame, ensures_bind]
      apply (ih _).mono
      intro bytes vm'' hrest
      exact hrest

section Functions

variable {s : BufState} {q n : Nat}

theorem memcpyTo_samePages (block : Segment) (vaddr : Nat) (bytes : List UInt8) (s : BufState) :
    Ensures (memcpyTo block vaddr bytes) s fun _ s' => s'.buf = s.buf ∧ SamePages s s' := by
  rw [memcpyTo, ensures_bind, touch, ensures_modify, onBufVm, ensures_focus]
  apply (storeBytes_frameOf vaddr bytes _).mono
  intro _ vm hframe
  exact ⟨rfl, .of_frameOf rfl rfl hframe⟩

theorem memsetZero_samePages (block : Segment) (vaddr count : Nat) (s : BufState) :
    Ensures (memsetZero block vaddr count) s fun _ s' => SamePages s s' := by
  have hsame := memcpyTo_samePages block vaddr (List.replicate count 0) s
  rw [memcpyTo, List.length_replicate] at hsame
  exact hsame.mono fun _ _ h => h.2

theorem writeAt_samePages (bytes : List UInt8) (offset finish : Nat) (s : BufState) :
    Ensures (writeAt bytes offset finish) s fun _ s' => SamePages s s' := by
  rw [writeAt, ensures_bind, ensures_get]
  dsimp only
  rw [ensures_bind]
  apply (memcpyTo_samePages _ _ _ s).mono
  rintro _ t ⟨_, hsame⟩
  exact hsame.trans (.of_frameOf rfl rfl rfl)

theorem setSize_samePages (length : Nat) (s : BufState) :
    Ensures (setSize length) s fun _ s' => SamePages s s' :=
  SamePages.of_frameOf rfl rfl rfl

/-- A function that changes the size of the buffer and returns. -/
theorem setSize_return (length : Nat) (s : BufState) :
    Ensures (do
      setSize length
      return .ok () : Kernel BufState (Except Errno Unit)) s fun _ s' => SamePages s s' := by
  rw [ensures_bind]
  exact setSize_samePages length s

/-- `growable_buf_pread` changes nothing but the record of accesses. -/
theorem growableBufPread_state (count offset : Nat) (s : BufState) :
    Ensures (growableBufPread count offset) s fun _ s' =>
      ∃ accesses, s' = { s with accesses := accesses } := by
  rw [growableBufPread, ensures_bind, ensures_get]
  dsimp only
  split
  · exact ⟨s.accesses, rfl⟩
  · rw [memcpyFrom, ensures_bind, touch, ensures_modify, onBufVm, ensures_focus]
    apply (loadBytes_state _ _ _).mono
    intro bytes vm hvm
    rw [hvm]
    exact ⟨_, rfl⟩

/-- `grow_buf` keeps the frames, when the old block can be given back. -/
theorem growBuf_samePages {c : GrowChoice} {requestedSize : Nat} (h : BufOk s q n)
    (hgrow : s.buf.capacity < requestedSize) (hle : requestedSize ≤ wordSize - PAGE_SIZE)
    (sound : c.Sound s (growCapacity s.buf.capacity requestedSize)) (guard : GrowGuard s c requestedSize) :
    Ensures (growBuf c requestedSize) s fun _ s' => SamePages s s' := by
  obtain ⟨m, hm, hnm, hpos, _⟩ := growCapacity_eq h.capacity hgrow hle
  rw [hm] at sound
  rcases growBuf_spec h hm hnm hpos sound (guard.free_ok h hgrow) with ⟨e, s', hfail, fails⟩ |
    ⟨q', s', hok, grows⟩
  · rw [Ensures, hfail]
    exact h.samePages fails.buf fails.keeps.toKeepsPages
  · rw [Ensures, hok]
    exact ⟨grows.capacity_le, grows.frames⟩

theorem growableBufPwrite_samePages {c : GrowChoice} {bytes : List UInt8} {offset : Nat} (h : BufOk s q n)
    (hle : offset + bytes.length ≤ wordSize - PAGE_SIZE)
    (sound : c.Sound s (growCapacity s.buf.capacity ((offset + bytes.length) % wordSize)))
    (guard : GrowGuard s c (offset + bytes.length)) :
    Ensures (growableBufPwrite c bytes offset) s fun _ s' => SamePages s s' := by
  have hmod : (offset + bytes.length) % wordSize = offset + bytes.length :=
    Nat.mod_eq_of_lt (Nat.lt_of_le_of_lt hle (by decide))
  have hwrite : ∀ t, Ensures (do
      writeAt bytes offset (offset + bytes.length)
      return .ok bytes.length : Kernel BufState (Except Errno Nat)) t fun _ s' => SamePages t s' := by
    intro t
    rw [ensures_bind]
    exact writeAt_samePages bytes offset _ t
  rw [hmod] at sound
  rw [growableBufPwrite, hmod, ensures_bind, ensures_get]
  split_ifs with hgrow
  · rw [ensures_bind]
    apply (growBuf_samePages h hgrow hle sound guard).mono
    intro r t same
    cases r with
    | error e => exact same
    | ok u => exact (hwrite t).mono fun _ _ same' => same.trans same'
  · exact hwrite s

theorem growableBufTruncate_samePages {c : GrowChoice} {length : Int} (h : BufOk s q n)
    (hle : toSize length ≤ wordSize - PAGE_SIZE)
    (sound : c.Sound s (growCapacity s.buf.capacity (toSize length)))
    (guard : GrowGuard s c (toSize length)) :
    Ensures (growableBufTruncate c length) s fun _ s' => SamePages s s' := by
  rw [growableBufTruncate, ensures_bind, ensures_get]
  dsimp only
  split_ifs with hcut hwithin
  · rw [ensures_bind]
    apply (memsetZero_samePages _ _ _ s).mono
    exact fun _ t same => (setSize_return _ t).mono fun _ _ same' => same.trans same'
  · rw [ensures_bind]
    apply (memsetZero_samePages _ _ _ s).mono
    exact fun _ t same => (setSize_return _ t).mono fun _ _ same' => same.trans same'
  · rw [ensures_bind]
    apply (growBuf_samePages h (Nat.lt_of_not_le hwithin) hle sound guard).mono
    intro r t same
    cases r with
    | error e => exact same
    | ok u => exact (setSize_return _ t).mono fun _ _ same' => same.trans same'

end Functions

/-! ### Steps and runs -/

/-- The calls after which the frames of the file are the old ones: no write or truncation ends in the last
    page of the address space or behind it, and a buffer that has to grow can give its old block back. -/
def SharingGuard (s : BufState) : BufEvent → Prop
  | .pread .. => True
  | .pwrite c bytes offset _ =>
      offset + bytes.length ≤ wordSize - PAGE_SIZE ∧ GrowGuard s c (offset + bytes.length)
  | .truncate c length _ => toSize length ≤ wordSize - PAGE_SIZE ∧ GrowGuard s c (toSize length)
  | .mmap .. => True
  | .client => True

/-- The buffer is sound, whatever accesses have been recorded. -/
def PagesSound (s : BufState) : Prop := ∃ q n, BufOk { s with accesses := [] } q n

theorem PagesSound.of_accesses {s : BufState} {accesses : List Access} {q n : Nat}
    (h : BufOk { s with accesses := accesses } q n) : PagesSound s :=
  ⟨q, n, h.setAccesses (by simp)⟩

/-- Every guarded step keeps the pages. -/
theorem pagesSound_step {s s' : BufState} {e : BufEvent} (inv : PagesSound s) (guard : SharingGuard s e)
    (step : BufStep s e s') : PagesSound s' ∧ SamePages s s' := by
  obtain ⟨q, n, h⟩ := inv
  cases step with
  | pread count offset result _ _ hread =>
      obtain ⟨accesses, rfl⟩ := ensures_iff.1 (growableBufPread_state count offset s) _ _ hread
      exact ⟨⟨q, n, h⟩, .of_frameOf rfl rfl rfl⟩
  | pwrite c bytes offset result _ _ sound hwrite =>
      have sound' : c.Sound { s with accesses := [] }
          (growCapacity s.buf.capacity ((offset + bytes.length) % wordSize)) :=
        ⟨sound.keepsOld, sound.aligned, sound.inside, sound.unmapped, sound.keepsNew⟩
      obtain ⟨accesses, hrun⟩ :=
        ensures_iff.1 (AccessFree.growableBufPwrite c bytes offset s []) _ _ hwrite
      have same := ensures_iff.1 (growableBufPwrite_samePages h guard.1 sound' guard.2) _ _ hrun
      refine ⟨?_, same.capacity_le, same.frames⟩
      rcases growableBufPwrite_spec h guard.1 sound' guard.2 with ⟨e, t, hreturn, ok, _⟩ |
        ⟨t, q', m, hreturn, ok, _⟩
      · rw [hrun, Except.ok.injEq, Prod.mk.injEq] at hreturn
        rw [← hreturn.2] at ok
        exact .of_accesses ok
      · rw [hrun, Except.ok.injEq, Prod.mk.injEq] at hreturn
        rw [← hreturn.2] at ok
        exact .of_accesses ok
  | truncate c length result _ _ sound htruncate =>
      have sound' : c.Sound { s with accesses := [] } (growCapacity s.buf.capacity (toSize length)) :=
        ⟨sound.keepsOld, sound.aligned, sound.inside, sound.unmapped, sound.keepsNew⟩
      obtain ⟨accesses, hrun⟩ := ensures_iff.1 (AccessFree.growableBufTruncate c length s []) _ _ htruncate
      have same := ensures_iff.1 (growableBufTruncate_samePages h guard.1 sound' guard.2) _ _ hrun
      refine ⟨?_, same.capacity_le, same.frames⟩
      rcases growableBufTruncate_spec h guard.1 sound' guard.2 with ⟨e, t, hreturn, ok, _⟩ |
        ⟨t, q', m, hreturn, ok, _⟩
      · rw [hrun, Except.ok.injEq, Prod.mk.injEq] at hreturn
        rw [← hreturn.2] at ok
        exact .of_accesses ok
      · rw [hrun, Except.ok.injEq, Prod.mk.injEq] at hreturn
        rw [← hreturn.2] at ok
        exact .of_accesses ok
  | mmap addr length offset pageFlags result _ _ hmmap =>
      obtain ⟨accesses, hrun⟩ :=
        ensures_iff.1 (AccessFree.growableBufMmap addr length offset pageFlags s []) _ _ hmmap
      have mmaps := ensures_iff.1 (growableBufMmap_spec h) _ _ hrun
      have ok := h.mmaps mmaps
      have hbuf : ({ s' with accesses := accesses } : BufState).buf = s.buf := by rw [mmaps.onlyVm]
      have same := h.samePages hbuf mmaps.keeps
      exact ⟨.of_accesses ok, same.capacity_le, same.frames⟩
  | client vm keeps =>
      have same : SamePages { s with accesses := [] } { s with vm := vm, accesses := [] } :=
        h.samePages rfl keeps
      exact ⟨⟨q, n, h.keeps rfl (fun _ hb => hb) h.accesses keeps⟩, same.capacity_le, same.frames⟩

/-- The mappings of a file are coherent in a run from `s` to `t`. -/
structure Coherent (s : BufState) (xs : List (Transition BufState BufEvent)) (t : BufState) : Prop where
  /-- Each page that exists stays in its frame. -/
  pages : ∀ k, k * PAGE_SIZE < s.buf.capacity →
    ∃ frame, s.pageFrame k = some frame ∧ t.pageFrame k = some frame
  /-- Every mapping has had its page `k` in the frame that page `k` of the file has now. -/
  mappings : ∀ x ∈ xs, ∀ addr length offset pageFlags result,
    x.event = .mmap addr length offset pageFlags (.ok result) →
    result = addr ∧ ∀ k, k * PAGE_SIZE < length → ∃ frame,
      x.after.vm.frameOf ((addr + k * PAGE_SIZE) % wordSize / PAGE_SIZE) = some frame ∧
      t.pageFrame k = some frame
  /-- Bytes written through the file are seen at every page mapped to one of its frames. -/
  toMapping : ∀ x ∈ xs, ∀ c bytes offset nwritten, x.event = .pwrite c bytes offset (.ok nwritten) →
    ∀ i byte, bytes[i]? = some byte →
    ∀ page, x.after.vm.frameOf page = x.after.pageFrame ((offset + i) / PAGE_SIZE) →
      load8 (page * PAGE_SIZE + (offset + i) % PAGE_SIZE) x.after.vm = .ok (byte, x.after.vm)
  /-- A byte stored at such a page is read through the file. -/
  toFile : ∀ page i byte, i < t.buf.size → t.vm.frameOf page = t.pageFrame (i / PAGE_SIZE) →
    ∃ vm, store8 (page * PAGE_SIZE + i % PAGE_SIZE) byte t.vm = .ok ((), vm) ∧
      bufSystem.step t .client { t with vm := vm } ∧
      ∃ u, growableBufPread 1 i { t with vm := vm } = .ok ([byte], u)

/-- Reading a byte of a mapped page. -/
theorem load8_of_byteAt {vm : Vm} {vaddr : Nat} {byte : UInt8} (h : vm.byteAt vaddr = some byte) :
    load8 vaddr vm = .ok (byte, vm) := by
  obtain ⟨frame, hframe, hbyte⟩ := Option.map_eq_some_iff.1 h
  rw [load8_eq hframe, hbyte]

section Step

variable {s t : BufState}

/-- The frames behind the pages of a sound buffer. -/
theorem PagesSound.pageFrame (h : PagesSound s) {k : Nat} (hk : k * PAGE_SIZE < s.buf.capacity) :
    ∃ frame, s.pageFrame k = some frame := by
  obtain ⟨q, n, ok⟩ := h
  have hkn := ok.page_lt hk
  obtain ⟨frame, hframe, _⟩ := ok.mapped (q + k) (Nat.le_add_right q k) (Nat.add_lt_add_left hkn q)
  exact ⟨frame, (ok.pageFrame k).trans hframe⟩

/-- A mapping that has just been made. -/
theorem PagesSound.mmap (h : PagesSound s) {addr length pageFlags result : Nat} {offset : Int}
    (hrun : growableBufMmap addr length offset pageFlags s = .ok (.ok result, t)) :
    result = addr ∧ ∀ k, k * PAGE_SIZE < length → ∃ frame,
      t.vm.frameOf ((addr + k * PAGE_SIZE) % wordSize / PAGE_SIZE) = some frame ∧
      s.pageFrame k = some frame ∧ k * PAGE_SIZE < s.buf.capacity := by
  obtain ⟨q, n, ok⟩ := h
  obtain ⟨accesses, hrun'⟩ :=
    ensures_iff.1 (AccessFree.growableBufMmap addr length offset pageFlags s []) _ _ hrun
  have mmaps := ensures_iff.1 (growableBufMmap_spec ok) _ _ hrun'
  have hlength : length ≤ s.buf.size := mmaps.length_le result rfl
  have hsize : s.buf.size ≤ s.buf.capacity := ok.size_le
  refine ⟨mmaps.target result rfl, ?_⟩
  intro k hk
  have hcapacity : k * PAGE_SIZE < s.buf.capacity := by omega
  obtain ⟨frame, hframe⟩ := PagesSound.pageFrame ⟨q, n, ok⟩ hcapacity
  have hround : k < roundUp length / PAGE_SIZE := by
    have hle : length ≤ roundUp length := by
      apply le_roundUp
      have hlt := ok.lt
      have hcap : s.buf.capacity = n * PAGE_SIZE := ok.capacity
      simp only [wordSize, PAGE_SIZE] at hlt hcap ⊢
      omega
    rw [Nat.lt_div_iff_mul_lt (by decide)]
    have hmod := roundUp_mod length
    simp only [PAGE_SIZE] at hk hmod ⊢
    omega
  exact ⟨frame, (mmaps.shared result rfl k hround).trans hframe, hframe, hcapacity⟩

/-- Bytes that have just been written. -/
theorem PagesSound.pwrite (h : PagesSound s) {c : GrowChoice} {bytes : List UInt8} {offset nwritten : Nat}
    (guard : SharingGuard s (.pwrite c bytes offset (.ok nwritten)))
    (sound : c.Sound s (growCapacity s.buf.capacity ((offset + bytes.length) % wordSize)))
    (hrun : growableBufPwrite c bytes offset s = .ok (.ok nwritten, t)) {i page : Nat} {byte : UInt8}
    (hbyte : bytes[i]? = some byte)
    (hpage : t.vm.frameOf page = t.pageFrame ((offset + i) / PAGE_SIZE)) :
    load8 (page * PAGE_SIZE + (offset + i) % PAGE_SIZE) t.vm = .ok (byte, t.vm) := by
  obtain ⟨q, n, ok⟩ := h
  have sound' : c.Sound { s with accesses := [] }
      (growCapacity s.buf.capacity ((offset + bytes.length) % wordSize)) :=
    ⟨sound.keepsOld, sound.aligned, sound.inside, sound.unmapped, sound.keepsNew⟩
  obtain ⟨accesses, hrun'⟩ :=
    ensures_iff.1 (AccessFree.growableBufPwrite c bytes offset s []) _ _ hrun
  obtain ⟨hi, _⟩ := List.getElem?_eq_some_iff.1 hbyte
  rcases growableBufPwrite_spec ok guard.1 sound' guard.2 with ⟨e, u, hreturn, _⟩ |
    ⟨u, q', m, hreturn, ok', _, hinside, _⟩
  · rw [hrun', Except.ok.injEq, Prod.mk.injEq] at hreturn
    exact absurd hreturn.1 (by simp)
  · rw [hrun', Except.ok.injEq, Prod.mk.injEq] at hreturn
    obtain ⟨_, rfl⟩ := hreturn
    have hsame := ok'.byteAt_mapping hpage
    rw [hinside i hi, hbyte] at hsame
    exact load8_of_byteAt hsame

/-- A byte stored through a mapping. -/
theorem PagesSound.store (h : PagesSound s) {page i : Nat} (byte : UInt8) (hi : i < s.buf.size)
    (hpage : s.vm.frameOf page = s.pageFrame (i / PAGE_SIZE)) :
    ∃ vm, store8 (page * PAGE_SIZE + i % PAGE_SIZE) byte s.vm = .ok ((), vm) ∧
      bufSystem.step s .client { s with vm := vm } ∧
      ∃ u, growableBufPread 1 i { s with vm := vm } = .ok ([byte], u) := by
  obtain ⟨q, n, ok⟩ := h
  have hsize : s.buf.size ≤ s.buf.capacity := ok.size_le
  have hpos : i / PAGE_SIZE * PAGE_SIZE ≤ i := Nat.div_mul_le_self i PAGE_SIZE
  obtain ⟨frame, hframe⟩ := PagesSound.pageFrame ⟨q, n, ok⟩ (k := i / PAGE_SIZE) (by omega)
  have hlt : i % PAGE_SIZE < PAGE_SIZE := Nat.mod_lt i (by decide)
  have hdiv : (page * PAGE_SIZE + i % PAGE_SIZE) / PAGE_SIZE = page := by
    rw [Nat.mul_comm, Nat.mul_add_div (by decide), Nat.div_eq_of_lt hlt, Nat.add_zero]
  have hmapped : s.vm.frameOf ((page * PAGE_SIZE + i % PAGE_SIZE) / PAGE_SIZE) = some frame := by
    rw [hdiv, hpage, hframe]
  obtain ⟨vm, hstore, stored⟩ : ∃ vm, store8 (page * PAGE_SIZE + i % PAGE_SIZE) byte s.vm = .ok ((), vm) ∧
      vm.frameOf = s.vm.frameOf ∧ vm.pages = s.vm.pages ∧
      vm.byteAt (page * PAGE_SIZE + i % PAGE_SIZE) = some byte := by
    refine ⟨_, store8_eq hmapped byte, rfl, rfl, ?_⟩
    change (s.vm.frameOf ((page * PAGE_SIZE + i % PAGE_SIZE) / PAGE_SIZE)).map _ = _
    rw [hmapped]
    simp
  obtain ⟨hframes, hpages, hbyte⟩ := stored
  have keeps : KeepsPages (InBlock s.buf.block) s.vm vm := by
    refine ⟨fun p _ => congrFun hframes p, fun p f k _ _ hheld => ?_, ?_⟩
    · rw [hpages]
      exact hheld
    · rw [hpages]
      exact ok.pages
  refine ⟨vm, hstore, .client vm keeps, ?_⟩
  -- the byte of the file in the new state
  have ok' : BufOk { s with vm := vm, accesses := [] } q n :=
    ok.keeps rfl (fun _ hb => hb) ok.accesses keeps
  have hfile : (BufState.byte { s with vm := vm, accesses := [] } i) = some byte := by
    have hpage' : vm.frameOf page = BufState.pageFrame { s with vm := vm, accesses := [] } (i / PAGE_SIZE) := by
      change vm.frameOf page = vm.frameOf _
      rw [hframes]
      exact hpage
    rw [← hbyte]
    exact (ok'.byteAt_mapping hpage').symm
  have hword : i + 1 < wordSize := by
    have hlt := ok.lt
    have hcapacity : s.buf.capacity = n * PAGE_SIZE := ok.capacity
    simp only [wordSize, PAGE_SIZE] at hlt hcapacity ⊢
    omega
  obtain ⟨bytes, u, hread, _, _, _, hlength, hget⟩ :=
    growableBufPread_spec 1 i ok' (Or.inr (Or.inl hword))
  have hone : bytes.length = 1 := by
    rw [hlength]
    exact Nat.min_eq_left (Nat.sub_pos_of_lt hi)
  obtain ⟨b, rfl⟩ := List.length_eq_one_iff.1 hone
  have hb := hget 0 (by simp)
  rw [Nat.add_zero, hfile] at hb
  obtain rfl : b = byte := by simpa using hb
  obtain ⟨accesses, hrun⟩ := ensures_iff.1 (AccessFree.growableBufPread 1 i _ s.accesses) _ _ hread
  exact ⟨_, hrun⟩

end Step

/-- The mappings of a file stay coherent. -/
theorem coherent_mappings {s₀ s t : BufState} {xs₀ xs : List (Transition BufState BufEvent)}
    (hinit : bufSystem.init s₀) (run₀ : bufSystem.Run s₀ xs₀ s)
    (guard₀ : ∀ x ∈ xs₀, SharingGuard x.before x.event) (run : bufSystem.Run s xs t)
    (guard : ∀ x ∈ xs, SharingGuard x.before x.event) : Coherent s xs t := by
  have hkeeps : ∀ s e s', PagesSound s → SharingGuard s e → bufSystem.step s e s' →
      PagesSound s' ∧ SamePages s s' := fun _ _ _ inv guard step => pagesSound_step inv guard step
  have sound₀ : PagesSound s := run₀.guarded_invariant PagesSound
    (fun s e s' inv guard step => (hkeeps s e s' inv guard step).1) (.of_accesses (bufOk_zero hinit)) guard₀
  have soundEnd : PagesSound t := run.guarded_invariant PagesSound
    (fun s e s' inv guard step => (hkeeps s e s' inv guard step).1) sound₀ guard
  obtain ⟨same, hlater⟩ := run.guarded_relation PagesSound SamePages SamePages.refl SamePages.trans hkeeps
    sound₀ guard
  refine ⟨?_, ?_, ?_, fun page i byte hi hpage => soundEnd.store byte hi hpage⟩
  · intro k hk
    obtain ⟨frame, hframe⟩ := sound₀.pageFrame hk
    exact ⟨frame, hframe, (same.frames k hk).trans hframe⟩
  · rintro ⟨before, event, after⟩ hx addr length offset pageFlags result rfl
    obtain ⟨sound, later⟩ := hlater _ hx
    have hstep := run.step_of_mem _ hx
    have hfirst := (hkeeps _ _ _ sound (guard _ hx) hstep).2
    cases hstep with
    | mmap _ _ _ _ _ _ _ hrun =>
        obtain ⟨hresult, hframes⟩ := sound.mmap hrun
        refine ⟨hresult, ?_⟩
        intro k hk
        obtain ⟨frame, hto, hfrom, hcapacity⟩ := hframes k hk
        exact ⟨frame, hto, ((hfirst.trans later).frames k hcapacity).trans hfrom⟩
  · rintro ⟨before, event, after⟩ hx c bytes offset nwritten rfl i byte hbyte page hpage
    obtain ⟨sound, _⟩ := hlater _ hx
    have hstep := run.step_of_mem _ hx
    cases hstep with
    | pwrite _ _ _ _ _ _ hsound hrun => exact sound.pwrite (guard _ hx) hsound hrun hbyte hpage

/-! ### A file that is written and mapped -/

/-- The write to the zero buffer is a step. -/
theorem zeroBuf_step {s : BufState} (hwrite : growableBufPwrite growAtPage [1] 0 zeroBuf = .ok (.ok 1, s)) :
    bufSystem.step zeroBuf (.pwrite growAtPage [1] 0 (.ok 1)) s := by
  have hcapacity : growCapacity zeroBuf.buf.capacity ((0 + ([1] : List UInt8).length) % wordSize) =
      PAGE_SIZE := by decide
  exact .pwrite growAtPage [1] 0 _ (by decide) (by decide) (hcapacity ▸ growAtPage_sound) hwrite

/-- The page of the file is mapped behind it. -/
theorem growableBufMmap_page {s : BufState}
    (hbuf : s.buf = { addr := PAGE_SIZE, capacity := PAGE_SIZE, size := 1 })
    (hvm : s.vm = { pageVm with ram := s.vm.ram }) :
    ∃ t, growableBufMmap (2 * PAGE_SIZE) 1 0 PAGE_SHARED s = .ok (.ok (2 * PAGE_SIZE), t) := by
  obtain ⟨vm, hcopy⟩ : ∃ vm,
      pagingCopyMapping (2 * PAGE_SIZE) PAGE_SIZE 1 PAGE_SHARED s.vm = .ok (.ok (), vm) := by
    have hcopy := pagingCopyMapping_ramFree (2 * PAGE_SIZE) PAGE_SIZE 1 PAGE_SHARED pageVm s.vm.ram
    rw [← hvm, pageVm_copy (by decide) (by decide)] at hcopy
    exact ⟨_, hcopy⟩
  have hflags : ¬((0 : Int) ≠ 0 ∨ PAGE_SHARED &&& PAGE_SHARED = 0) := by decide
  have hlength : ¬1 > (1 : Nat) := by decide
  refine ⟨{ s with vm := vm }, ?_⟩
  simp only [growableBufMmap, Program.run_bind, Program.run_get, hbuf, if_neg hflags, if_neg hlength,
    run_onBufVm, hcopy, Program.run_pure]

/-- A file that has been written once and is then mapped. -/
theorem coherent_mappings_after_mmap : ∃ s t,
    bufSystem.Run zeroBuf [⟨zeroBuf, .pwrite growAtPage [1] 0 (.ok 1), s⟩] s ∧
    bufSystem.Run s [⟨s, .mmap (2 * PAGE_SIZE) 1 0 PAGE_SHARED (.ok (2 * PAGE_SIZE)), t⟩] t ∧
    Coherent s [⟨s, .mmap (2 * PAGE_SIZE) 1 0 PAGE_SHARED (.ok (2 * PAGE_SIZE)), t⟩] t := by
  obtain ⟨s, hwrite, _, hbuf, hvm⟩ := zeroBuf_write
  obtain ⟨t, hmmap⟩ := growableBufMmap_page hbuf hvm
  have run₀ : bufSystem.Run zeroBuf [⟨zeroBuf, .pwrite growAtPage [1] 0 (.ok 1), s⟩] s :=
    .cons (zeroBuf_step hwrite) (.nil s)
  have run : bufSystem.Run s [⟨s, .mmap (2 * PAGE_SIZE) 1 0 PAGE_SHARED (.ok (2 * PAGE_SIZE)), t⟩] t :=
    .cons (.mmap _ _ _ _ _ (by decide) (by decide) hmmap) (.nil t)
  refine ⟨s, t, run₀, run, coherent_mappings zeroBuf_init run₀ ?_ run ?_⟩
  · intro x hx
    obtain rfl := List.mem_singleton.1 hx
    exact ⟨by decide, fun _ _ => rfl⟩
  · intro x hx
    obtain rfl := List.mem_singleton.1 hx
    exact trivial

/-- When the first page cannot be given back, it loses its frame. -/
theorem growBuf_breaks_mappings : ∃ s₀ xs₀ s xs t, bufSystem.init s₀ ∧ bufSystem.Run s₀ xs₀ s ∧
    bufSystem.Run s xs t ∧ ¬Coherent s xs t := by
  obtain ⟨s, hwrite, ok, hbuf, hvm⟩ := zeroBuf_write
  obtain ⟨t, hfail, hbuf', hnone⟩ := pwrite_loses ok hbuf hvm
  have hcapacity : growCapacity s.buf.capacity ((PAGE_SIZE + ([2] : List UInt8).length) % wordSize) =
      2 * PAGE_SIZE := by
    rw [hbuf]
    decide
  refine ⟨zeroBuf, _, s, _, t, zeroBuf_init, .cons (zeroBuf_step hwrite) (.nil s),
    .cons (.pwrite growWithoutFree [2] PAGE_SIZE _ (by decide) (by decide)
      (hcapacity ▸ growWithoutFree_sound ok hvm) hfail) (.nil t), ?_⟩
  intro coherent
  obtain ⟨frame, _, hframe⟩ := coherent.pages 0 (by rw [hbuf]; decide)
  have hpage : t.buf.addr / PAGE_SIZE + 0 = 1 := by rw [hbuf', hbuf]; rfl
  rw [BufState.pageFrame, hpage, hnone] at hframe
  simp at hframe

end Chaotix
