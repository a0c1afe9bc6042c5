/-
Module: Chaotix.Proofs.BufferPrinting
Layer: Proofs
Purpose: `growable_buf_vsprintf` appends the text of its format. An attempt whose text does not fit leaves the buffer as
  it was, but for the bytes behind its size, which growing wipes. There is one exception: when a prefix `0x` starts at
  the last byte of the spare room, the attempt stores past the block of the buffer.
Imports: Mathlib.Tactic, Chaotix.Kernel.PageDirectory, Chaotix.Kernel.BufPrintf, Chaotix.Proofs.BufferBounds,
  Chaotix.Proofs.PrintfBounds
Trusted boundary: none
Main exports: Attempt, GrowthSucceeds, Appended, growableBufVsprintf_iff, growableBufVsprintf_breaks
-/
import Mathlib.Tactic
import Chaotix.Kernel.PageDirectory
import Chaotix.Kernel.BufPrintf
import Chaotix.Proofs.BufferBounds
import Chaotix.Proofs.PrintfBounds

open Program Chaotix.Stdio

namespace Chaotix

/-! ### The property -/

/-- The text is appended: it stands behind the old bytes, the rest of the buffer is zero, and nothing outside the block
    of the buffer has been touched. -/
structure Appended (s : BufState) (out : List UInt8) (result : Except Errno Nat) (t : BufState) : Prop where
  result : result = .ok out.length
  ok : ∃ q n, BufOk t q n
  size : t.buf.size = s.buf.size + out.length
  same : ∀ i < s.buf.size, t.byte i = s.byte i
  text : ∀ i < out.length, t.byte (s.buf.size + i) = out[i]?
  zero : ZeroTail t

/-- The state before an attempt of the loop. -/
inductive Attempt (choices : Nat → GrowChoice) (format : List UInt8) (args : List Arg) (s : BufState) :
    Nat → BufState → Prop where
  | first : Attempt choices format args s 0 s
  | next {k : Nat} {t t' u : BufState} : Attempt choices format args s k t →
      printAttempt format args t = .ok (none, t') → growBuf (choices k) 0 t' = .ok (.ok (), u) →
      Attempt choices format args s (k + 1) u

/-- Whenever the text does not fit, the buffer gets a larger block of the kernel heap. -/
structure GrowthSucceeds (choices : Nat → GrowChoice) (format : List UInt8) (args : List Arg) (s : BufState) :
    Prop where
  inHeap : ∀ k t, Attempt choices format args s k t → t.buf.capacity ≠ 0 → KERNEL_HEAP_START ≤ t.buf.addr
  sound : ∀ k t t', Attempt choices format args s k t → printAttempt format args t = .ok (none, t') →
    (choices k).Sound t' (growCapacity t'.buf.capacity 0)
  grows : ∀ k t t', Attempt choices format args s k t → printAttempt format args t = .ok (none, t') →
    ∃ u, growBuf (choices k) 0 t' = .ok (.ok (), u)

/-- The capacity of the buffer before an attempt. -/
def capacityBefore (capacity : Nat) : Nat → Nat
  | 0 => capacity
  | k + 1 => max (capacityBefore capacity k * 2) PAGE_SIZE

/-- The spare room of the buffer in an attempt. -/
def roomOf (buf : GrowableBuf) (k : Nat) : Nat := capacityBefore buf.capacity k - buf.size

/-- In no attempt does a prefix `0x` start at the last byte of the spare room. -/
def NoSplitPrefix (format : List UInt8) (args : List Arg) (buf : GrowableBuf) : Prop :=
  ∀ k, 0 < roomOf buf k → ¬Overruns (roomOf buf k) format args

/-! ### Storing a text in a block -/

section Storing

variable {s t u : BufState} {q n offset : Nat}

/-- A block is mapped as before when only memory has changed. -/
theorem BlockMapped.written {bytes : List UInt8} (block : BlockMapped s.vm q n)
    (written : Written s t q n offset bytes) : BlockMapped t.vm q n := by
  have hframe := written.frameOf
  constructor
  · exact block.lt
  · rw [hframe]
    exact block.mapped
  · rw [PagesDistinct, hframe]
    exact block.distinct

/-- Two writes, one behind the other. -/
theorem Written.append {xs ys : List UInt8} (first : Written s t q n offset xs)
    (second : Written t u q n (offset + xs.length) ys) (hle : offset + xs.length + ys.length ≤ n * PAGE_SIZE) :
    Written s u q n offset (xs ++ ys) := by
  constructor
  · exact second.buf.trans first.buf
  · exact second.blocks.trans first.blocks
  · rw [second.onlyRam, first.onlyRam]
  · exact fun hinside => second.accesses (first.accesses hinside)
  · intro i hi
    by_cases hfirst : i < xs.length
    · have hkept := second.outside (offset + i) (by omega) (.inl (by omega))
      rw [← Nat.add_assoc] at hkept
      rw [hkept, first.inside i hfirst, List.getElem?_append_left hfirst]
    · have hle' := Nat.le_of_not_lt hfirst
      rw [List.length_append] at hi
      have hnew := second.inside (i - xs.length) (by omega)
      rw [← Nat.add_assoc, Nat.add_assoc, Nat.add_sub_cancel' hle'] at hnew
      rw [hnew, List.getElem?_append_right hle']
  · intro i hi hout
    rw [List.length_append] at hout
    rw [second.outside i hi (by omega), first.outside i hi (by omega)]

/-- The bytes of a text, one store after the other. -/
theorem storeAll_bufStore (idx : Nat) (text : List UInt8) (block : BlockMapped s.vm q n)
    (hle : offset + idx + text.length ≤ n * PAGE_SIZE) :
    ∃ t, storeAll (bufStore (q * PAGE_SIZE, n * PAGE_SIZE) (q * PAGE_SIZE + offset)) idx text s = .ok ((), t) ∧
      Written s t q n (offset + idx) text := by
  induction text generalizing s idx with
  | nil =>
      refine ⟨s, rfl, rfl, rfl, rfl, id, ?_, fun _ _ _ => rfl⟩
      exact fun i hi => absurd hi (Nat.not_lt_zero i)
  | cons ch text ih =>
      rw [List.length_cons] at hle
      have hlt := block.lt
      rw [Nat.add_mul] at hlt
      have haddr : (q * PAGE_SIZE + offset + idx) % wordSize = q * PAGE_SIZE + (offset + idx) := by
        rw [Nat.add_assoc, Nat.mod_eq_of_lt (by omega)]
      obtain ⟨t, hfirst, first⟩ := memcpyTo_eq (offset + idx) [ch] block (by rw [List.length_singleton]; omega)
      obtain ⟨u, hrest, rest⟩ := ih (idx + 1) (block.written first) (by omega)
      refine ⟨u, ?_, first.append rest (by rw [List.length_singleton]; omega)⟩
      rw [storeAll, run_bind, bufStore, haddr, hfirst]
      exact hrest

end Storing

/-! ### One attempt -/

section Attempts

variable {s : BufState} {q n : Nat} {format : List UInt8} {args : List Arg} {out : List UInt8}

/-- The spare room of a buffer. -/
theorem BufOk.maxLen (h : BufOk s q n) :
    (s.buf.capacity + wordSize - s.buf.size) % wordSize = s.buf.capacity - s.buf.size := by
  apply sub_wrap h.size_le
  rw [h.capacity]
  exact Nat.lt_of_le_of_lt (Nat.mul_le_mul_right PAGE_SIZE (Nat.le_add_left n q)) h.lt

/-- Only bytes behind the size have been written. -/
theorem Written.same_byte {t : BufState} {offset : Nat} {bytes : List UInt8} (h : BufOk s q n)
    (written : Written s t q n offset bytes) {i : Nat} (hi : i < n * PAGE_SIZE)
    (hout : i < offset ∨ offset + bytes.length ≤ i) : t.byte i = s.byte i := by
  rw [BufState.byte, BufState.byte, written.buf, h.addr, written.outside i hi hout]

/-- The text goes to the spare room, as far as it fits. -/
theorem vsnprintf_bufStore (h : BufOk s q n) (hpos : 0 < s.buf.capacity - s.buf.size)
    (hout : outputOf (directives format) args = some out) (hcut : ¬CutOff format)
    (hroom : ¬Overruns (s.buf.capacity - s.buf.size) format args) :
    ∃ t, vsnprintf (bufStore s.buf.block (q * PAGE_SIZE + s.buf.size)) (s.buf.capacity - s.buf.size) format args s =
        .ok (min out.length (s.buf.capacity - s.buf.size), t) ∧
      BufOk t q n ∧ t.buf = s.buf ∧ (∀ i < s.buf.size, t.byte i = s.byte i) ∧
      (out.length < s.buf.capacity - s.buf.size → Written s t q n s.buf.size (out ++ [0])) := by
  have hcapacity := h.capacity
  generalize hroomEq : s.buf.capacity - s.buf.size = room at hpos hroom ⊢
  have hlength : s.buf.size + 0 + (out.take room).length ≤ n * PAGE_SIZE := by
    rw [List.length_take]
    omega
  obtain ⟨t, hstore, stored⟩ := storeAll_bufStore 0 (out.take room) h.blockMapped hlength
  have ht := h.written stored
  have hlt := h.lt
  rw [Nat.add_mul] at hlt
  have haddr : (q * PAGE_SIZE + s.buf.size + min out.length (room - 1)) % wordSize =
      q * PAGE_SIZE + (s.buf.size + min out.length (room - 1)) := by
    rw [Nat.add_assoc, Nat.mod_eq_of_lt (by omega)]
  obtain ⟨u, hend, ended⟩ := memcpyTo_eq (s.buf.size + min out.length (room - 1)) [0] ht.blockMapped
    (by rw [List.length_singleton]; omega)
  rw [Nat.add_zero] at stored
  refine ⟨u, ?_, ht.written ended, ended.buf.trans stored.buf, ?_, ?_⟩
  · rw [vsnprintf_inside hpos hout hroom fun hcut' => absurd hcut' hcut, h.block_eq, run_bind, hstore]
    simp only [run_bind, bufStore, haddr, hend, run_pure]
  · intro i hi
    rw [ended.same_byte ht (by omega) (.inl (by omega)), stored.same_byte h (by omega) (.inl hi)]
  · intro hfits
    rw [List.take_of_length_le (Nat.le_of_lt hfits)] at stored
    rw [show min out.length (room - 1) = out.length by omega] at ended
    exact stored.append ended (by rw [List.length_singleton]; omega)

/-- An attempt whose text fits. -/
theorem printAttempt_fits (h : BufOk s q n) (htail : ZeroTail s) (hout : outputOf (directives format) args = some out)
    (hcut : ¬CutOff format) (hfits : out.length < s.buf.capacity - s.buf.size)
    (hroom : ¬Overruns (s.buf.capacity - s.buf.size) format args) :
    ∃ t, printAttempt format args s = .ok (some out.length, t) ∧ Appended s out (.ok out.length) t := by
  have hcapacity := h.capacity
  have hlt := h.lt
  rw [Nat.add_mul] at hlt
  have hpos : 0 < s.buf.capacity - s.buf.size := Nat.zero_lt_of_lt hfits
  obtain ⟨t, hprint, ht, hbuf, hsame, hwritten⟩ := vsnprintf_bufStore h hpos hout hcut hroom
  have written := hwritten hfits
  have hsize : (t.buf.size + out.length) % wordSize = s.buf.size + out.length := by
    rw [hbuf, Nat.mod_eq_of_lt (by omega)]
  have hdest := h.addr_offset (by omega : s.buf.size ≤ n * PAGE_SIZE)
  refine ⟨{ t with buf := { t.buf with size := s.buf.size + out.length } }, ?_, rfl,
    ⟨q, n, ht.setSize (by omega)⟩, rfl, hsame, ?_, ?_⟩
  · simp only [printAttempt, run_bind, run_get, h.maxLen, gt_iff_lt, if_pos hpos, hdest, hprint,
      Nat.min_eq_left (Nat.le_of_lt hfits), if_pos hfits, run_modify, run_pure, hsize]
  · intro i hi
    have hbyte := written.inside i (by rw [List.length_append]; omega)
    rw [List.getElem?_append_left hi, Nat.add_assoc] at hbyte
    rw [BufState.byte]
    simp only [hbuf]
    rw [h.addr, hbyte]
  · intro i hlo hhi
    simp only [hbuf] at hlo hhi
    rw [BufState.byte]
    simp only [hbuf]
    by_cases hlast : i = s.buf.size + out.length
    · -- the terminator
      have hbyte := written.inside out.length (by rw [List.length_append]; simp)
      rw [List.getElem?_append_right (Nat.le_refl _), Nat.sub_self, Nat.add_assoc] at hbyte
      rw [hlast, h.addr, hbyte]
      rfl
    · have hbehind : s.buf.size + (out ++ [0]).length ≤ i := by
        rw [List.length_append, List.length_singleton]
        omega
      have hbyte := written.outside i (by omega) (.inr hbehind)
      rw [h.addr, hbyte, ← h.addr]
      exact htail i (by omega) hhi

/-- An attempt whose text does not fit. -/
theorem printAttempt_full (h : BufOk s q n) (hout : outputOf (directives format) args = some out)
    (hcut : ¬CutOff format) (hfull : s.buf.capacity - s.buf.size ≤ out.length)
    (hroom : 0 < s.buf.capacity - s.buf.size → ¬Overruns (s.buf.capacity - s.buf.size) format args) :
    ∃ t, printAttempt format args s = .ok (none, t) ∧ BufOk t q n ∧ t.buf = s.buf ∧
      ∀ i < s.buf.size, t.byte i = s.byte i := by
  by_cases hpos : 0 < s.buf.capacity - s.buf.size
  · have hcapacity := h.capacity
    obtain ⟨t, hprint, ht, hbuf, hsame, -⟩ := vsnprintf_bufStore h hpos hout hcut (hroom hpos)
    have hdest := h.addr_offset (by omega : s.buf.size ≤ n * PAGE_SIZE)
    refine ⟨t, ?_, ht, hbuf, hsame⟩
    simp only [printAttempt, run_bind, run_get, h.maxLen, gt_iff_lt, if_pos hpos, hdest, hprint,
      Nat.min_eq_right hfull, Nat.lt_irrefl, if_false, run_pure]
  · refine ⟨s, ?_, h, rfl, fun _ _ => rfl⟩
    simp only [printAttempt, run_bind, run_get, h.maxLen, gt_iff_lt, if_neg hpos, run_pure]

end Attempts

/-! ### A prefix at the last byte -/

/-- An access that has been recorded. -/
def Logged (x : Access) (s : BufState) : Prop := x ∈ s.accesses

section Records

variable {x : Access}

theorem touch_logged (block : Segment) (vaddr len : Nat) : Preserves (Logged x) (touch block vaddr len) :=
  .modify fun _ h => List.mem_cons_of_mem _ h

theorem modify_logged {f : BufState → BufState} (h : ∀ s, (f s).accesses = s.accesses) :
    Preserves (Logged x) (modify f : Kernel BufState PUnit) := by
  intro s hs
  rw [ensures_modify, Logged, h]
  exact hs

theorem onBufVm_logged {α : Type} (m : Kernel Vm α) : Preserves (Logged x) (onBufVm m) := by
  apply Preserves.focus
  intro s vm h
  exact h

theorem memcpyFrom_logged (block : Segment) (vaddr count : Nat) :
    Preserves (Logged x) (memcpyFrom block vaddr count) :=
  .bind (touch_logged _ _ _) fun _ => onBufVm_logged _

theorem memcpyTo_logged (block : Segment) (vaddr : Nat) (bytes : List UInt8) :
    Preserves (Logged x) (memcpyTo block vaddr bytes) :=
  .bind (touch_logged _ _ _) fun _ => onBufVm_logged _

theorem memsetZero_logged (block : Segment) (vaddr count : Nat) :
    Preserves (Logged x) (memsetZero block vaddr count) :=
  .bind (touch_logged _ _ _) fun _ => onBufVm_logged _

/-- A call after another one that may fail. -/
theorem andThen_logged {β : Type} {m : Kernel BufState (Except Errno Unit)} {next : Kernel BufState (Except Errno β)}
    (hm : Preserves (Logged x) m) (hnext : Preserves (Logged x) next) :
    Preserves (Logged x) (do match ← m with
      | .error e => return .error e
      | .ok () => next : Kernel BufState (Except Errno β)) := by
  apply hm.bind
  intro r
  cases r with
  | error e => exact .pure _
  | ok u => exact hnext

theorem mapBlock_logged (buf : GrowableBuf) (newAddr newCapacity : Nat) :
    Preserves (Logged x) (mapBlock buf newAddr newCapacity) := by
  have hshare : Preserves (Logged x) (shareOld buf newAddr) := by
    unfold shareOld
    split_ifs
    · exact onBufVm_logged _
    · exact .bind (.require _ _) fun _ => .pure _
  exact andThen_logged hshare (onBufVm_logged _)

theorem copyOld_logged (buf : GrowableBuf) (newAddr newCapacity : Nat) :
    Preserves (Logged x) (copyOld buf newAddr newCapacity) := by
  unfold copyOld
  split_ifs
  · exact .bind (memcpyFrom_logged _ _ _) fun _ => memcpyTo_logged _ _ _
  · exact .pure _

theorem releaseOld_logged (c : GrowChoice) (buf : GrowableBuf) : Preserves (Logged x) (releaseOld c buf) := by
  unfold releaseOld
  split_ifs
  · apply (onBufVm_logged _).bind
    intro _
    refine Preserves.bind (modify_logged ?_) fun _ => ?_
    · exact fun _ => rfl
    cases c.free with
    | error e => exact .pure _
    | ok u => exact .bind (modify_logged fun _ => rfl) fun _ => .pure _
  · exact .pure _

/-- Growing does not forget an access. -/
theorem growBuf_logged (c : GrowChoice) (requestedSize : Nat) : Preserves (Logged x) (growBuf c requestedSize) := by
  have halloc : ∀ size, Preserves (Logged x) (bufRangeAlloc c size) := by
    intro size
    refine Preserves.bind (modify_logged ?_) fun _ => ?_
    · exact fun _ => rfl
    cases c.alloc with
    | error e => exact .pure _
    | ok addr => exact .bind (modify_logged fun _ => rfl) fun _ => .pure _
  apply Preserves.get.bind
  intro s
  apply (halloc _).bind
  intro r
  cases r with
  | error e => exact .pure _
  | ok newAddr =>
      apply andThen_logged (mapBlock_logged _ _ _)
      refine .bind (copyOld_logged _ _ _) fun _ => .bind (memsetZero_logged _ _ _) fun _ => ?_
      apply andThen_logged (releaseOld_logged _ _)
      exact .bind (modify_logged fun _ => rfl) fun _ => .pure _

theorem storeAll_logged (block : Segment) (dest idx : Nat) (text : List UInt8) :
    Preserves (Logged x) (storeAll (bufStore block dest) idx text) := by
  induction text generalizing idx with
  | nil => exact .pure _
  | cons ch text ih => exact .bind (memcpyTo_logged _ _ _) fun _ => ih (idx + 1)

variable {format : List UInt8} {args : List Arg} {out : List UInt8}

/-- What `vsnprintf` does after a part of the text. -/
theorem vsnprintf_logged (block : Segment) (dest : Nat) {size : Nat} (hsize : 1 ≤ size)
    (hout : outputOf (directives format) args = some out) :
    Preserves (Logged x) (vsnprintf (bufStore block dest) size format args) := by
  rw [vsnprintf_eq hsize hout]
  dsimp only
  apply (storeAll_logged _ _ _ _).bind
  intro _
  split
  · exact .throw _
  · exact .bind (memcpyTo_logged _ _ _) fun _ => .pure _

theorem printAttempt_logged (hout : outputOf (directives format) args = some out) :
    Preserves (Logged x) (printAttempt format args) := by
  apply Preserves.get.bind
  intro s
  dsimp only
  split_ifs with hpos
  · apply (vsnprintf_logged _ _ hpos hout).bind
    intro len
    split_ifs
    · exact .bind (modify_logged fun _ => rfl) fun _ => .pure _
    · exact .pure _
  · exact .pure _

/-- The loop does not forget an access. -/
theorem growableBufVsprintf_logged (choices : Nat → GrowChoice) (hout : outputOf (directives format) args = some out)
    (rounds k : Nat) : Preserves (Logged x) (growableBufVsprintf choices format args rounds k) := by
  induction rounds generalizing k with
  | zero => exact .throw _
  | succ rounds ih =>
      apply (printAttempt_logged hout).bind
      intro r
      cases r with
      | some len => exact .pure _
      | none => exact andThen_logged (growBuf_logged _ _) (ih (k + 1))

end Records

section Overrun

variable {s : BufState} {q n : Nat} {format : List UInt8} {args : List Arg} {out : List UInt8}

/-- The byte behind the block of the buffer. -/
def strayAccess (buf : GrowableBuf) : Access := ⟨buf.addr + buf.capacity, 1, buf.block⟩

theorem strayAccess_not_inside (buf : GrowableBuf) : ¬(strayAccess buf).Inside := by
  rintro (hlen | ⟨-, hend⟩)
  · exact absurd hlen Nat.one_ne_zero
  · exact absurd hend (Nat.not_succ_le_self _)

/-- The second character of such a prefix is stored behind the block. -/
theorem printAttempt_overruns (h : BufOk s q n) (hpos : 0 < s.buf.capacity - s.buf.size)
    (hout : outputOf (directives format) args = some out)
    (hover : Overruns (s.buf.capacity - s.buf.size) format args) :
    Ensures (printAttempt format args) s fun _ t => Logged (strayAccess s.buf) t := by
  have hlong := hover.size_lt hpos hout
  have hsize := h.size_le
  have hlt := h.lt
  have hcapacity := h.capacity
  have haddr := h.addr
  rw [Nat.add_mul] at hlt
  have hstored : out.take (s.buf.capacity - s.buf.size + 1) =
      out.take (s.buf.capacity - s.buf.size) ++ [out[s.buf.capacity - s.buf.size]] :=
    (List.take_concat_get' out _ hlong).symm
  have hplace : (s.buf.addr + s.buf.size + (0 + (out.take (s.buf.capacity - s.buf.size)).length)) % wordSize =
      s.buf.addr + s.buf.capacity := by
    rw [List.length_take, Nat.mod_eq_of_lt (by omega)]
    omega
  have hdest : (s.buf.addr + s.buf.size) % wordSize = s.buf.addr + s.buf.size := Nat.mod_eq_of_lt (by omega)
  -- the store that leaves the block is logged, and nothing after it forgets it
  have hlast : ∀ t, Ensures (storeAll (bufStore s.buf.block (s.buf.addr + s.buf.size))
      (0 + (out.take (s.buf.capacity - s.buf.size)).length) [out[s.buf.capacity - s.buf.size]]) t
      fun _ u => Logged (strayAccess s.buf) u := by
    intro t
    rw [storeAll, ensures_bind, bufStore, hplace, memcpyTo, ensures_bind, touch, ensures_modify]
    apply (onBufVm_logged _ _ List.mem_cons_self).mono
    intro _ u hu
    exact hu
  rw [printAttempt, ensures_bind, ensures_get]
  dsimp only
  rw [h.maxLen, if_pos hpos, hdest, vsnprintf_eq hpos hout, if_pos hover]
  dsimp only
  rw [hstored, storeAll_append]
  simp only [bind_assoc]
  rw [ensures_bind]
  refine ensures_iff.2 fun _ t _ => ?_
  rw [ensures_bind]
  apply (hlast t).mono
  intro _ u hu
  split
  · exact ensures_bind.2 trivial
  · rw [ensures_bind, ensures_bind]
    apply (memcpyTo_logged _ _ _ u hu).mono
    intro _ v hv
    rw [ensures_pure]
    split
    · exact hv
    · exact hv

end Overrun

/-! ### The loop -/

/-- The capacity that `grow_buf` chooses on its own. -/
theorem growCapacity_zero {n : Nat} (h : n * PAGE_SIZE < 2 ^ 31) :
    growCapacity (n * PAGE_SIZE) 0 = max (n * PAGE_SIZE * 2) PAGE_SIZE := by
  have hwrap : n * PAGE_SIZE * 2 % wordSize = n * PAGE_SIZE * 2 := Nat.mod_eq_of_lt (by simp only [wordSize]; omega)
  have hround : roundUp (n * PAGE_SIZE * 2) = n * PAGE_SIZE * 2 := by
    apply roundUp_of_mod
    · rw [Nat.mul_right_comm, Nat.mul_mod_left]
    · simp only [wordSize]
      omega
  rw [growCapacity, hwrap, Nat.max_zero, hround]
  simp only [PAGE_SIZE]
  split
  · omega
  · omega

theorem le_capacityBefore (capacity k : Nat) : 2 ^ k * PAGE_SIZE ≤ capacityBefore capacity (k + 1) := by
  induction k with
  | zero => exact Nat.le_trans (Nat.one_mul _).le (Nat.le_max_right _ _)
  | succ k ih =>
      calc 2 ^ (k + 1) * PAGE_SIZE = 2 ^ k * PAGE_SIZE * 2 := by rw [Nat.pow_succ, Nat.mul_right_comm]
        _ ≤ capacityBefore capacity (k + 1) * 2 := Nat.mul_le_mul_right 2 ih
        _ ≤ capacityBefore capacity (k + 1 + 1) := Nat.le_max_left _ _

theorem capacityBefore_mono (capacity : Nat) {j k : Nat} (h : j ≤ k) :
    capacityBefore capacity j ≤ capacityBefore capacity k := by
  induction h with
  | refl => exact Nat.le_refl _
  | step _ ih =>
      rw [capacityBefore]
      omega

theorem roomOf_mono (buf : GrowableBuf) {j k : Nat} (h : j ≤ k) : roomOf buf j ≤ roomOf buf k :=
  Nat.sub_le_sub_right (capacityBefore_mono buf.capacity h) buf.size

/-- The state before an attempt: the old text is there, with zeroes behind it. -/
structure PrintReady (s : BufState) (k : Nat) (t : BufState) (q n : Nat) : Prop where
  ok : BufOk t q n
  size : t.buf.size = s.buf.size
  same : ∀ i < s.buf.size, t.byte i = s.byte i
  zero : ZeroTail t
  capacity : t.buf.capacity = capacityBefore s.buf.capacity k

namespace PrintReady

variable {s t : BufState} {k q n : Nat} {choices : Nat → GrowChoice} {format : List UInt8} {args : List Arg}
  {out : List UInt8}

theorem room (ready : PrintReady s k t q n) : t.buf.capacity - t.buf.size = roomOf s.buf k := by
  rw [roomOf, ready.size, ready.capacity]

/-- A buffer in the kernel heap is smaller than the heap. -/
theorem capacity_lt (ready : PrintReady s k t q n) (hheap : t.buf.capacity ≠ 0 → KERNEL_HEAP_START ≤ t.buf.addr) :
    n * PAGE_SIZE < 2 ^ 30 := by
  have hlt := ready.ok.lt
  have haddr := ready.ok.addr
  have hcapacity := ready.ok.capacity
  rw [Nat.add_mul, ← haddr, ← hcapacity] at hlt
  rw [← hcapacity]
  by_cases hzero : t.buf.capacity = 0
  · rw [hzero]
    decide
  · have hstart := hheap hzero
    simp only [KERNEL_HEAP_START, KERNEL_VADDR, tableSpan, PAGE_SIZE, wordSize] at hlt hstart
    omega

/-- A text that is appended to what was there before the last attempt is appended. -/
theorem appended (ready : PrintReady s k t q n) {result : Except Errno Nat} {u : BufState}
    (appended : Appended t out result u) : Appended s out result u := by
  constructor
  · exact appended.result
  · exact appended.ok
  · rw [appended.size, ready.size]
  · intro i hi
    rw [appended.same i (ready.size.symm ▸ hi), ready.same i hi]
  · intro i hi
    rw [← ready.size]
    exact appended.text i hi
  · exact appended.zero

/-- When the text does not fit, the next attempt has more room. -/
theorem next (ready : PrintReady s k t q n) (attempt : Attempt choices format args s k t)
    (succeeds : GrowthSucceeds choices format args s) (hout : outputOf (directives format) args = some out)
    (hcut : ¬CutOff format) (hfull : roomOf s.buf k ≤ out.length)
    (hroom : 0 < roomOf s.buf k → ¬Overruns (roomOf s.buf k) format args) :
    ∃ t' u q' n', printAttempt format args t = .ok (none, t') ∧ growBuf (choices k) 0 t' = .ok (.ok (), u) ∧
      PrintReady s (k + 1) u q' n' := by
  obtain ⟨t', hprint, ht', hbuf, hsame⟩ := printAttempt_full ready.ok hout hcut (ready.room.symm ▸ hfull)
    (ready.room.symm ▸ hroom)
  obtain ⟨u, hgrow⟩ := succeeds.grows k t t' attempt hprint
  have hlt := ready.capacity_lt (succeeds.inHeap k t attempt)
  have hcapacity : growCapacity t'.buf.capacity 0 = max (2 * n) 1 * PAGE_SIZE := by
    rw [hbuf, ready.ok.capacity, growCapacity_zero (by omega)]
    simp only [PAGE_SIZE]
    omega
  have sound := succeeds.sound k t t' attempt hprint
  rw [hcapacity] at sound
  have grows : ∃ q', Grows t' u q' (max (2 * n) 1) := by
    rcases growBuf_cases ht' hcapacity (by omega) (by omega) sound with ⟨e, u', hfail, _⟩ |
      ⟨q', u', hok, grows, _⟩ | ⟨e, u', hfail, _⟩
    · rw [hgrow] at hfail
      cases hfail
    · rw [hgrow] at hok
      obtain ⟨-, rfl⟩ := Prod.mk.inj (Except.ok.inj hok)
      exact ⟨q', grows⟩
    · rw [hgrow] at hfail
      cases hfail
  obtain ⟨q', grows⟩ := grows
  refine ⟨t', u, q', _, hprint, hgrow, grows.ok, ?_, ?_, ?_, ?_⟩
  · rw [grows.size, hbuf, ready.size]
  · intro i hi
    have hsize : i < t.buf.size := ready.size.symm ▸ hi
    rw [grows.same i (hbuf.symm ▸ hsize), hsame i hsize, ready.same i hi]
  · intro i hlo hhi
    rw [grows.size] at hlo
    exact grows.zero i hlo (grows.ok.capacity ▸ hhi)
  · rw [grows.ok.capacity, capacityBefore, ← ready.capacity, ready.ok.capacity]
    simp only [PAGE_SIZE]
    omega

end PrintReady

section Loop

variable {s t : BufState} {k rounds q n : Nat} {choices : Nat → GrowChoice} {format : List UInt8} {args : List Arg}
  {out : List UInt8}

/-- The kernel heap is full long before the rounds end. -/
theorem attempt_lt (ready : PrintReady s k t q n) (hheap : t.buf.capacity ≠ 0 → KERNEL_HEAP_START ≤ t.buf.addr) :
    k < 20 := by
  have hlt := ready.capacity_lt hheap
  rw [← ready.ok.capacity, ready.capacity] at hlt
  by_contra hlong
  have hle := capacityBefore_mono s.buf.capacity (Nat.le_of_not_lt hlong)
  have hbig : 2 ^ 19 * PAGE_SIZE ≤ capacityBefore s.buf.capacity 20 := le_capacityBefore s.buf.capacity 19
  simp only [PAGE_SIZE] at hbig
  omega

/-- An attempt with such a prefix breaks the property. -/
theorem not_appended_of_overruns (ready : PrintReady s k t q n) (hout : outputOf (directives format) args = some out)
    (hpos : 0 < roomOf s.buf k) (hover : Overruns (roomOf s.buf k) format args) :
    ¬Yields (growableBufVsprintf choices format args rounds k) t (Appended s out) := by
  have hroom := ready.room
  have hstray : Ensures (growableBufVsprintf choices format args rounds k) t
      fun _ u => Logged (strayAccess t.buf) u := by
    cases rounds with
    | zero => trivial
    | succ rounds =>
        rw [growableBufVsprintf, ensures_bind]
        apply (printAttempt_overruns ready.ok (hroom.symm ▸ hpos) hout (hroom.symm ▸ hover)).mono
        intro r u hu
        cases r with
        | some len => exact hu
        | none =>
            exact andThen_logged (growBuf_logged _ _) (growableBufVsprintf_logged choices hout rounds (k + 1)) u hu
  intro hyields
  obtain ⟨result, u, hreturn, appended⟩ := yields_iff.1 hyields
  obtain ⟨q', n', ok⟩ := appended.ok
  exact strayAccess_not_inside t.buf (ok.accesses _ (ensures_iff.1 hstray result u hreturn))

/-- From any attempt on, the text is appended exactly when no later attempt has such a prefix. -/
theorem growableBufVsprintf_loop (succeeds : GrowthSucceeds choices format args s)
    (hout : outputOf (directives format) args = some out) (hcut : ¬CutOff format) (hrounds : 20 ≤ rounds + k)
    (attempt : Attempt choices format args s k t) (ready : PrintReady s k t q n) :
    Yields (growableBufVsprintf choices format args rounds k) t (Appended s out) ↔
      ∀ j, k ≤ j → 0 < roomOf s.buf j → ¬Overruns (roomOf s.buf j) format args := by
  induction rounds generalizing k t q n with
  | zero =>
      have hlt := attempt_lt ready (succeeds.inHeap k t attempt)
      omega
  | succ rounds ih =>
      by_cases hover : 0 < roomOf s.buf k ∧ Overruns (roomOf s.buf k) format args
      · exact iff_of_false (not_appended_of_overruns ready hout hover.1 hover.2)
          fun hall => hall k (Nat.le_refl k) hover.1 hover.2
      · have hroom : 0 < roomOf s.buf k → ¬Overruns (roomOf s.buf k) format args := not_and.1 hover
        by_cases hfits : out.length < roomOf s.buf k
        · -- the text fits, and with more room no prefix would start at the last byte either
          obtain ⟨u, hprint, appended⟩ := printAttempt_fits ready.ok ready.zero hout hcut
            (ready.room.symm ▸ hfits) (ready.room.symm ▸ hroom (Nat.zero_lt_of_lt hfits))
          refine iff_of_true ?_ ?_
          · rw [growableBufVsprintf, yields_bind_of_return hprint]
            exact ready.appended appended
          · intro j hj hpos hbad
            have hshort := hbad.size_lt hpos hout
            have hle := roomOf_mono s.buf hj
            omega
        · obtain ⟨t', u, q', n', hprint, hgrow, hnext⟩ :=
            ready.next attempt succeeds hout hcut (Nat.le_of_not_lt hfits) hroom
          rw [growableBufVsprintf, yields_bind_of_return hprint]
          dsimp only
          rw [yields_bind_of_return hgrow]
          dsimp only
          rw [ih (by omega) (.next attempt hprint hgrow) hnext]
          constructor
          · intro hall j hj
            rcases Nat.eq_or_lt_of_le hj with rfl | hlt
            · exact hroom
            · exact hall j hlt
          · exact fun hall j hj => hall j (Nat.le_of_succ_le hj)

end Loop

/-! ### A buffer of one page -/

/-- The address space once the first page of the kernel heap is mapped: frame 0 is the page table, and frame 1 is
    mapped. -/
def heapVm : Vm where
  pde := Function.update Vm.bare.pde 769 (some 0)
  pte := Function.update (fun page => if page / 1024 = 769 then none else Vm.bare.pte page) 0xc0400
    (some { frame := 1, flags := bufPageFlags })
  ram := Vm.bare.ram
  pages := (Vm.bare.pages.take 0).take 1

theorem heapVm_map :
    pagingMapToFreePages KERNEL_HEAP_START PAGE_SIZE bufPageFlags Vm.bare = .ok (.ok (), heapVm) := by
  have hfirst : Vm.bare.pages.bitmap.findFirst 0 Vm.bare.pages.bitmapLen = some 0 := by decide
  have hsecond : (Vm.bare.pages.take 0).bitmap.findFirst 0 (Vm.bare.pages.take 0).bitmapLen = some 1 := by
    decide
  have halloc := pageAllocatorAlloc_some hfirst (by decide) rfl
  have halloc' := pageAllocatorAlloc_some hsecond (by decide) rfl
  have hidx : KERNEL_HEAP_START / (1024 * PAGE_SIZE) = 769 := rfl
  have hpde : Vm.bare.pde 769 = none := rfl
  have hpage : KERNEL_HEAP_START / PAGE_SIZE = 0xc0400 := rfl
  rw [pagingMapToFreePages_small Vm.bare PAGE_SIZE (by decide) (by decide) (by decide) (by decide)]
  simp only [mapPageToFreePage, getOrCreatePageTable, run_bind, run_get, hidx, hpde, onPages, Program.focus, halloc,
    run_modify, run_pure, assert, run_require, hpage, if_true, halloc', setPte]
  rfl

/-- A buffer of one page that is zero, and some of its bytes in use. -/
def heapBuf (size : Nat) : BufState where
  buf := { addr := KERNEL_HEAP_START, capacity := PAGE_SIZE, size := size }
  vm := heapVm
  blocks := [(KERNEL_HEAP_START, PAGE_SIZE)]

theorem heapBuf_addr (size : Nat) : (heapBuf size).buf.addr = KERNEL_HEAP_START := rfl

theorem heapBuf_ok {size : Nat} (h : size ≤ PAGE_SIZE) : BufOk (heapBuf size) 0xc0400 1 := by
  obtain ⟨r, vm, hmap, fresh⟩ := pagingMapToFreePages_eq (q := 0xc0400) (n := 1) bufPageFlags Vm.bare_pagesOk
    (by decide) (fun _ _ _ => rfl)
  rw [Nat.one_mul, show 0xc0400 * PAGE_SIZE = KERNEL_HEAP_START from rfl, heapVm_map] at hmap
  obtain ⟨rfl, rfl⟩ := Prod.mk.inj (Except.ok.inj hmap)
  exact ⟨rfl, rfl, h, by decide, by decide, fresh.mapped rfl, fresh.distinct rfl, fresh.pages,
    fun _ => List.mem_singleton.2 rfl, fun _ hx => absurd hx List.not_mem_nil⟩

theorem heapBuf_zeroTail (size : Nat) : ZeroTail (heapBuf size) := by
  intro i _ hi
  have hpage : (KERNEL_HEAP_START + i) / PAGE_SIZE = 0xc0400 := by
    change i < 4096 at hi
    simp only [KERNEL_HEAP_START, KERNEL_VADDR, tableSpan, PAGE_SIZE]
    omega
  change (heapVm.frameOf ((KERNEL_HEAP_START + i) / PAGE_SIZE)).map _ = some 0
  rw [hpage]
  rfl

/-- The arguments -7 and `ab`. -/
def someArgs : List Arg := [.int (-7), .str (some someName)]

/-- The range allocator hands out the two pages behind the first, and gives the first page back. -/
def growBehind : GrowChoice where
  alloc := .ok (KERNEL_HEAP_START + PAGE_SIZE)
  afterAlloc vm := vm
  free := .ok ()
  afterFree vm := vm

/-- With two bytes of spare room, the text `-7:ab` is cut. -/
theorem heapBuf_cut :
    Yields (printAttempt (formatBytes someFormat) someArgs) (heapBuf 4094) fun r t =>
      r = none ∧ t.buf = (heapBuf 4094).buf ∧
        (growBehind.afterAlloc t.vm).frameOf 0xc0401 = none ∧ (growBehind.afterAlloc t.vm).frameOf 0xc0402 = none ∧
        Yields (mapBlock t.buf (KERNEL_HEAP_START + PAGE_SIZE) (2 * PAGE_SIZE))
          { t with blocks := (KERNEL_HEAP_START + PAGE_SIZE, 2 * PAGE_SIZE) :: t.blocks } fun r _ => r = .ok () := by
  decide

theorem growBehind_sound {s : BufState} (ok : PagesOk s.vm.pages) (hfirst : s.vm.frameOf 0xc0401 = none)
    (hsecond : s.vm.frameOf 0xc0402 = none) : growBehind.Sound s (2 * PAGE_SIZE) := by
  refine ⟨⟨⟨fun _ _ => rfl, fun _ _ _ _ _ h => h, ok⟩, fun _ _ _ _ => rfl⟩, ?_, ?_, ?_, ?_⟩
  · rintro addr ⟨⟩
    rfl
  · rintro addr ⟨⟩
    decide
  · rintro addr page ⟨⟩ ⟨hlo, hhi⟩
    simp only [KERNEL_HEAP_START, KERNEL_VADDR, tableSpan, PAGE_SIZE] at hlo hhi
    obtain rfl | rfl : page = 0xc0401 ∨ page = 0xc0402 := by omega
    · exact hfirst
    · exact hsecond
  · intro addr vm _ ok
    exact ⟨⟨fun _ _ => rfl, fun _ _ _ _ _ h => h, ok⟩, fun _ _ _ _ => rfl⟩

/-- A buffer that has grown is where the range allocator has put it. -/
theorem growBuf_addr (c : GrowChoice) (requestedSize : Nat) (s : BufState) :
    Ensures (growBuf c requestedSize) s fun r t => r = .ok () → c.alloc = .ok t.buf.addr := by
  rw [growBuf, ensures_bind, ensures_get]
  dsimp only
  rw [bufRangeAlloc, bind_assoc, ensures_bind, ensures_modify]
  cases c.alloc with
  | error e => exact ensures_pure.2 (by simp)
  | ok addr =>
      dsimp only
      rw [bind_assoc, ensures_bind, ensures_modify, pure_bind]
      dsimp only
      refine ensures_bind.2 (ensures_iff.2 fun r t _ => ?_)
      cases r with
      | error e => exact ensures_pure.2 (by simp)
      | ok _ =>
          dsimp only
          refine ensures_bind.2 (ensures_iff.2 fun _ t _ => ?_)
          refine ensures_bind.2 (ensures_iff.2 fun _ t _ => ?_)
          refine ensures_bind.2 (ensures_iff.2 fun r t _ => ?_)
          cases r with
          | error e => exact ensures_pure.2 (by simp)
          | ok _ => exact fun _ => rfl

/-- The buffer with two bytes of spare room grows once. -/
theorem heapBuf_grows : ∃ t u q, printAttempt (formatBytes someFormat) someArgs (heapBuf 4094) =
      .ok (none, t) ∧
    growBehind.Sound t (growCapacity t.buf.capacity 0) ∧ growBuf growBehind 0 t = .ok (.ok (), u) ∧
    Grows t u q 2 ∧ u.buf.addr = KERNEL_HEAP_START + PAGE_SIZE := by
  obtain ⟨r, t, hprint, rfl, hbuf, hfirst, hsecond, hmap⟩ := yields_iff.1 heapBuf_cut
  have hout : outputOf (directives (formatBytes someFormat)) someArgs =
      some [45, 55, 58, 97, 98] := by decide
  have ok : BufOk (heapBuf 4094) 0xc0400 1 := heapBuf_ok (by decide)
  obtain ⟨t', hprint', ht, -⟩ := printAttempt_full ok hout (by decide) (by decide) fun _ => by decide
  rw [hprint] at hprint'
  obtain ⟨-, rfl⟩ := Prod.mk.inj (Except.ok.inj hprint')
  have hcapacity : growCapacity t.buf.capacity 0 = 2 * PAGE_SIZE := by
    rw [hbuf]
    decide
  have sound := growBehind_sound ht.pages hfirst hsecond
  rcases growBuf_cases ht hcapacity (by decide) (by decide) sound with ⟨e, u, _, _, hfail⟩ |
    ⟨q, u, hgrow, grows, _⟩ | ⟨e, u, _, _, _, hfree⟩
  · obtain ⟨v, hfail⟩ := hfail _ rfl
    exact absurd (hmap.and_return hfail) nofun
  · refine ⟨t, u, q, hprint, hcapacity.symm ▸ sound, hgrow, grows, ?_⟩
    exact (Except.ok.inj (ensures_iff.1 (growBuf_addr growBehind 0 t) _ _ hgrow rfl)).symm
  · cases hfree

/-- The attempts that are made. -/
theorem heapBuf_attempts {t u v : BufState} {k len : Nat}
    (hprint : printAttempt (formatBytes someFormat) someArgs (heapBuf 4094) = .ok (none, t))
    (hgrow : growBuf growBehind 0 t = .ok (.ok (), u))
    (hfits : ∃ w, printAttempt (formatBytes someFormat) someArgs u = .ok (some len, w))
    (attempt : Attempt (fun _ => growBehind) (formatBytes someFormat) someArgs (heapBuf 4094) k v) :
    (k = 0 ∧ v = heapBuf 4094) ∨ (k = 1 ∧ v = u) := by
  induction attempt with
  | first => exact .inl ⟨rfl, rfl⟩
  | next _ hprint' hgrow' ih =>
      rcases ih with ⟨rfl, rfl⟩ | ⟨rfl, rfl⟩
      · rw [hprint] at hprint'
        obtain ⟨-, rfl⟩ := Prod.mk.inj (Except.ok.inj hprint')
        rw [hgrow] at hgrow'
        obtain ⟨-, rfl⟩ := Prod.mk.inj (Except.ok.inj hgrow')
        exact .inr ⟨rfl, rfl⟩
      · obtain ⟨w, hfits⟩ := hfits
        rw [hfits] at hprint'
        cases hprint'

theorem heapBuf_growthSucceeds :
    GrowthSucceeds (fun _ => growBehind) (formatBytes someFormat) someArgs (heapBuf 4094) := by
  obtain ⟨t, u, q, hprint, sound, hgrow, grows, haddr⟩ := heapBuf_grows
  have hbuf : t.buf = (heapBuf 4094).buf := (heapBuf_cut.and_return hprint).2.1
  have hsize : u.buf.size = 4094 := by
    rw [grows.size, hbuf]
    rfl
  have hroom : u.buf.capacity - u.buf.size = 4098 := by
    rw [grows.ok.capacity, hsize]
    rfl
  have htail : ZeroTail u := by
    intro i hlo hhi
    rw [grows.size] at hlo
    exact grows.zero i hlo (grows.ok.capacity ▸ hhi)
  have hout : outputOf (directives (formatBytes someFormat)) someArgs =
      some [45, 55, 58, 97, 98] := by decide
  have hfits : ∃ w, printAttempt (formatBytes someFormat) someArgs u = .ok (some 5, w) := by
    obtain ⟨w, hfits, -⟩ := printAttempt_fits grows.ok htail hout (by decide) (by rw [hroom]; decide)
      (by rw [hroom]; decide)
    exact ⟨w, hfits⟩
  have attempts := fun k v => heapBuf_attempts (k := k) (v := v) hprint hgrow hfits
  constructor
  · intro k v attempt _
    rcases attempts k v attempt with ⟨-, rfl⟩ | ⟨-, rfl⟩
    · exact Nat.le_refl _
    · rw [haddr]
      exact Nat.le_add_right _ _
  · intro k v v' attempt hprint'
    rcases attempts k v attempt with ⟨-, rfl⟩ | ⟨-, rfl⟩
    · rw [hprint] at hprint'
      obtain ⟨-, rfl⟩ := Prod.mk.inj (Except.ok.inj hprint')
      exact sound
    · obtain ⟨w, hfits⟩ := hfits
      rw [hfits] at hprint'
      cases hprint'
  · intro k v v' attempt hprint'
    rcases attempts k v attempt with ⟨-, rfl⟩ | ⟨-, rfl⟩
    · rw [hprint] at hprint'
      obtain ⟨-, rfl⟩ := Prod.mk.inj (Except.ok.inj hprint')
      exact ⟨u, hgrow⟩
    · obtain ⟨w, hfits⟩ := hfits
      rw [hfits] at hprint'
      cases hprint'

/-- The format `%dx`. -/
def hexFormat : CString := ⟨[37, 100, 120], List.forall_iff_forall_mem.1 (by decide)⟩

theorem heapBuf_stops : ¬Yields (printAttempt (formatBytes hexFormat) [.int 1]) (heapBuf 4095) fun _ _ => True := by
  decide

-- what follows reasons about whole runs and does not evaluate them
attribute [local irreducible] growableBufVsprintf

/-! ### All buffers and formats -/

/-- `growable_buf_vsprintf` returns with its text appended, and stores nothing past its block, exactly when in no
    attempt a prefix `0x` starts at the last byte of the spare room. -/
theorem growableBufVsprintf_iff (rounds : Nat) (choices : Nat → GrowChoice) (format : CString) (args : List Arg)
    (out : List UInt8) (s : BufState) (hbuf : ∃ q n, BufOk s q n) (htail : ZeroTail s)
    (hout : outputOf (directives (formatBytes format)) args = some out) (hcut : ¬CutOff (formatBytes format))
    (succeeds : GrowthSucceeds choices (formatBytes format) args s) (hrounds : 20 ≤ rounds) :
    Yields (growableBufVsprintf choices (formatBytes format) args rounds 0) s (Appended s out) ↔
      NoSplitPrefix (formatBytes format) args s.buf := by
  obtain ⟨q, n, ok⟩ := hbuf
  have ready : PrintReady s 0 s q n := ⟨ok, rfl, fun _ _ => rfl, htail, rfl⟩
  rw [growableBufVsprintf_loop succeeds hout hcut hrounds .first ready]
  constructor
  · exact fun hall k => hall k (Nat.zero_le k)
  · exact fun hall k _ => hall k

/-- A text that is cut at the end of the first page, and stored again in two. -/
theorem growableBufVsprintf_grows :
    ∃ result t, growableBufVsprintf (fun _ => growBehind) (formatBytes someFormat) someArgs 20 0
        (heapBuf 4094) = .ok (result, t) ∧ Appended (heapBuf 4094) [45, 55, 58, 97, 98] result t := by
  have hout : outputOf (directives (formatBytes someFormat)) someArgs =
      some [45, 55, 58, 97, 98] := by decide
  have hnone : prefixPositions (directives (formatBytes someFormat)) someArgs 0 = [] := by decide
  have hroom : NoSplitPrefix (formatBytes someFormat) someArgs (heapBuf 4094).buf := by
    intro k _ hover
    rw [Overruns, hnone] at hover
    cases hover
  exact yields_iff.1 ((growableBufVsprintf_iff 20 _ someFormat _ _ (heapBuf 4094) ⟨_, _, heapBuf_ok (by decide)⟩
    (heapBuf_zeroTail 4094) hout (by decide) heapBuf_growthSucceeds (Nat.le_refl 20)).2 hroom)

/-- With one byte of spare room, the `x` of the text `0x1` is stored to a page that is not mapped. -/
theorem growableBufVsprintf_breaks :
    (∃ q n, BufOk (heapBuf 4095) q n) ∧ ZeroTail (heapBuf 4095) ∧
      outputOf (directives (formatBytes hexFormat)) [.int 1] = some [48, 120, 49] ∧
      ¬CutOff (formatBytes hexFormat) ∧
      GrowthSucceeds (fun _ => growBehind) (formatBytes hexFormat) [.int 1] (heapBuf 4095) ∧
      ∀ rounds, ¬Yields (growableBufVsprintf (fun _ => growBehind) (formatBytes hexFormat) [.int 1] rounds 0)
        (heapBuf 4095) fun _ _ => True := by
  have hstops : ∀ r t, printAttempt (formatBytes hexFormat) [.int 1] (heapBuf 4095) ≠ .ok (r, t) := by
    intro r t hreturn
    exact heapBuf_stops (yields_of_return hreturn trivial)
  have hattempts : ∀ k v, Attempt (fun _ => growBehind) (formatBytes hexFormat) [.int 1] (heapBuf 4095) k v →
      v = heapBuf 4095 := by
    intro k v attempt
    induction attempt with
    | first => rfl
    | next _ hprint _ ih => exact absurd (ih ▸ hprint) (hstops _ _)
  refine ⟨⟨_, _, heapBuf_ok (by decide)⟩, heapBuf_zeroTail 4095, by decide, by decide, ⟨?_, ?_, ?_⟩, ?_⟩
  · intro k v attempt _
    rw [hattempts k v attempt, heapBuf_addr]
  · intro k v v' attempt hprint
    exact absurd (hattempts k v attempt ▸ hprint) (hstops _ _)
  · intro k v v' attempt hprint
    exact absurd (hattempts k v attempt ▸ hprint) (hstops _ _)
  · intro rounds
    cases rounds with
    | zero =>
        rw [growableBufVsprintf]
        exact id
    | succ rounds =>
        rw [growableBufVsprintf, yields_bind]
        exact fun hyields => heapBuf_stops (hyields.mono fun _ _ _ => trivial)

end Chaotix
