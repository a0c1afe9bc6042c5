/-
Module: Chaotix.Proofs.SharedAppend
Layer: Proofs
Purpose: Successful writes through one description are atomic appends, whatever the interleaving: the
  `offset_lock` is held from the look at the offset to its update, and the lock of the buffer around the part
  that touches the buffer. The order of the appends is the order in which the processes update the offset.
Imports: Mathlib.Tactic, Chaotix.Kernel.SharedWrite, Chaotix.Proofs.FileContents
Trusted boundary: none
Main exports: Guarded, AppendInvariant, appendInvariant_step, shared_writes_append
-/
import Mathlib.Tactic
import Chaotix.Kernel.SharedWrite
import Chaotix.Proofs.FileContents

namespace Chaotix

/-! ### A mutex that is locked once -/

section Locks

variable {P : Type} {m : Mutex P} {inside inside' : P → Prop} {p : P}

/-- The mutex is free and nobody is inside, or it is held by the one process that is inside. -/
def Guarded (m : Mutex P) (inside : P → Prop) : Prop :=
  (m = {} ∧ ∀ p, ¬inside p) ∨ ∃ p, m = { holder := some p, level := 1 } ∧ ∀ q, inside q ↔ q = p

theorem Guarded.congr (h : Guarded m inside) (hsame : ∀ q, inside' q ↔ inside q) : Guarded m inside' := by
  rcases h with ⟨rfl, hnone⟩ | ⟨p, rfl, hone⟩
  · exact Or.inl ⟨rfl, fun q hq => hnone q ((hsame q).1 hq)⟩
  · exact Or.inr ⟨p, rfl, fun q => (hsame q).trans (hone q)⟩

theorem Guarded.holder (h : Guarded m inside) (hin : inside p) : m.holder = some p := by
  rcases h with ⟨_, hnone⟩ | ⟨r, rfl, hone⟩
  · exact absurd hin (hnone p)
  · rw [(hone p).1 hin]

theorem Guarded.inside_of_holder (h : Guarded m inside) (hholder : m.holder = some p) : inside p := by
  rcases h with ⟨rfl, _⟩ | ⟨r, rfl, hone⟩
  · cases hholder
  · obtain rfl := Option.some.inj hholder
    exact (hone r).2 rfl

/-- The process that comes inside is the only one. -/
theorem Guarded.entered (hnone : ∀ q, ¬inside q) (hsame : ∀ q, q ≠ p → (inside' q ↔ inside q))
    (hin : inside' p) : Guarded ({ holder := some p, level := 1 } : Mutex P) inside' := by
  refine Or.inr ⟨p, rfl, fun q => ⟨fun hq => ?_, fun hq => hq ▸ hin⟩⟩
  by_contra hne
  exact hnone q ((hsame q hne).1 hq)

variable [DecidableEq P]

/-- A process that is outside gets the mutex, or finds it held. -/
theorem Guarded.lock (h : Guarded m inside) (hout : ¬inside p) :
    ((mutexLockSection p m).2 = .returns ∧ m = {} ∧ (∀ q, ¬inside q) ∧
      (mutexLockSection p m).1 = { holder := some p, level := 1 }) ∨
    ((mutexLockSection p m).2 = .retries ∧ (mutexLockSection p m).1 = m) := by
  rcases h with ⟨rfl, hnone⟩ | ⟨r, rfl, hone⟩
  · exact Or.inl ⟨rfl, rfl, hnone, rfl⟩
  · right
    have hne : r ≠ p := fun heq => hout ((hone p).2 heq.symm)
    simp [mutexLockSection, hne]

/-- The process that is inside gives the mutex back. -/
theorem Guarded.unlock (h : Guarded m inside) (hin : inside p) :
    mutexUnlockSection p m = ({}, .returns) ∧ ∀ q, inside q → q = p := by
  rcases h with ⟨_, hnone⟩ | ⟨r, rfl, hone⟩
  · exact absurd hin (hnone p)
  · obtain rfl := (hone p).1 hin
    refine ⟨?_, fun q hq => (hone q).1 hq⟩
    simp [mutexUnlockSection]

end Locks

/-! ### The invariant -/

/-- The process holds the `offset_lock`. -/
def WritePc.holdsOffset : WritePc → Prop
  | .outside => False
  | .lockOffset _ => False
  | _ => True

/-- The process holds the lock of the buffer. -/
def WritePc.holdsBuf : WritePc → Prop
  | .grow _ => True
  | .copy .. => True
  | .setSize .. => True
  | .unlockBuf .. => True
  | _ => False

/-- The write of the process has failed. -/
def WritePc.fails : WritePc → Prop
  | .unlockBuf _ (.error _) => True
  | .advance _ (.error _) => True
  | .unlockOffset (.error _) => True
  | _ => False

/-- What the holder of the `offset_lock` has made of a file that was `f` before its write. -/
def WritePc.FileIs (desc : Nat) (s : FileState) (f : ByteFile) : WritePc → Prop
  | .copy buffer offset =>
      offset = f.offset desc ∧ FileOk s f ∧ offset + buffer.length ≤ s.node.buf.capacity ∧
        offset + buffer.length ≤ OFF_MAX
  | .setSize buffer offset =>
      offset = f.offset desc ∧ offset + buffer.length ≤ OFF_MAX ∧
        FileOk { s with node := s.node.setEnd (offset + buffer.length) }
          { f with contents := FileBytes.write 0 f.contents offset buffer }
  | .unlockBuf buffer (.ok n) =>
      n = buffer.length ∧
        FileOk s { f with contents := FileBytes.write 0 f.contents (f.offset desc) buffer }
  | .advance buffer (.ok n) =>
      n = buffer.length ∧
        FileOk s { f with contents := FileBytes.write 0 f.contents (f.offset desc) buffer }
  | _ => FileOk s f

section Invariant

variable {P : Type}

/-- The write that the process has called and that is not in the file yet. -/
def WritePc.pending (p : P) : WritePc → List (P × List UInt8)
  | .outside => []
  | .lockOffset buffer => [(p, buffer)]
  | .lockBuf buffer => [(p, buffer)]
  | .grow buffer => [(p, buffer)]
  | .copy buffer _ => [(p, buffer)]
  | .setSize buffer _ => [(p, buffer)]
  | .unlockBuf buffer _ => [(p, buffer)]
  | .advance buffer _ => [(p, buffer)]
  | .unlockOffset _ => []

/-- The write that a step calls. -/
def WriteEvent.called : WriteEvent P → List (P × List UInt8)
  | .call p buffer => [(p, buffer)]
  | _ => []

/-- The write that a step adds to the file. -/
def WriteEvent.appended : WriteEvent P → List (P × List UInt8)
  | .advance p buffer _ => [(p, buffer)]
  | _ => []

/-- The file of a state: what its writer has made of `f`, or `f` when there is none. -/
def WriteState.FileIs (desc : Nat) (s : WriteState P) (f : ByteFile) : Prop :=
  match s.offsetLock.holder with
  | none => FileOk s.file f
  | some p => (s.pc p).FileIs desc s.file f

/-- The bytes of some writes, in order. -/
def bytesOf (writes : List (P × List UInt8)) : List UInt8 := writes.flatMap Prod.snd

theorem mem_pending {p : P} {pc : WritePc} {x : P × List UInt8} (h : x ∈ pc.pending p) : x.1 = p := by
  cases pc <;> simp_all [WritePc.pending]

variable [DecidableEq P]

/-- The writes of one process. -/
def writesBy (p : P) (writes : List (P × List UInt8)) : List (P × List UInt8) :=
  writes.filter fun x => x.1 = p

/-- After the events of a run from a file with the bytes `before` and the offset `start`, the locks are held by
    those who should, each process has one write that is not in the file yet or none, and the others have
    been appended. -/
structure AppendInvariant (desc start : Nat) (before : List UInt8) (s : WriteState P)
    (events : List (WriteEvent P)) : Prop where
  offsetLock : Guarded s.offsetLock fun p => (s.pc p).holdsOffset
  bufLock : Guarded s.bufLock fun p => (s.pc p).holdsBuf
  succeeds : ∀ p, ¬(s.pc p).fails
  order : ∀ p, writesBy p (events.flatMap WriteEvent.called) =
    writesBy p (events.flatMap WriteEvent.appended) ++ (s.pc p).pending p
  file : ∃ f, s.FileIs desc f ∧ f.offset desc = start + (bytesOf (events.flatMap WriteEvent.appended)).length ∧
    FileBytes.Appended 0 before start (bytesOf (events.flatMap WriteEvent.appended)) f.contents

/-! ### Who has called what -/

theorem writesBy_eq {p : P} {writes : List (P × List UInt8)} (h : ∀ x ∈ writes, x.1 = p) :
    writesBy p writes = writes := by
  rw [writesBy, List.filter_eq_self]
  exact fun x hx => decide_eq_true (h x hx)

theorem writesBy_ne {p q : P} {writes : List (P × List UInt8)} (h : ∀ x ∈ writes, x.1 = p) (hne : q ≠ p) :
    writesBy q writes = [] := by
  rw [writesBy, List.filter_eq_nil_iff]
  intro x hx
  rw [decide_eq_true_eq, h x hx]
  exact hne.symm

theorem count_writesBy (x : P × List UInt8) (writes : List (P × List UInt8)) :
    (writesBy x.1 writes).count x = writes.count x :=
  List.count_filter (decide_eq_true rfl)

/-- A step of one process moves its write along. -/
theorem order_step {pc : P → WritePc} {called appended : List (P × List UInt8)}
    (order : ∀ q, writesBy q called = writesBy q appended ++ (pc q).pending q) {p : P} {pc' : WritePc}
    {e : WriteEvent P} (hkeeps : (pc p).pending p ++ e.called = e.appended ++ pc'.pending p)
    (hcalled : ∀ x ∈ e.called, x.1 = p) (happended : ∀ x ∈ e.appended, x.1 = p) (q : P) :
    writesBy q (called ++ e.called) =
      writesBy q (appended ++ e.appended) ++ (Function.update pc p pc' q).pending q := by
  have hcalls : writesBy q (called ++ e.called) = writesBy q called ++ writesBy q e.called := List.filter_append ..
  have happends : writesBy q (appended ++ e.appended) = writesBy q appended ++ writesBy q e.appended :=
    List.filter_append ..
  rw [hcalls, happends, order q]
  by_cases hq : q = p
  · subst hq
    rw [Function.update_self, writesBy_eq hcalled, writesBy_eq happended, List.append_assoc, hkeeps,
      List.append_assoc]
  · rw [Function.update_of_ne hq, writesBy_ne hcalled hq, writesBy_ne happended hq, List.append_nil,
      List.append_nil]

/-- What has been appended and what a process is about to append are among what has been called. -/
theorem bytes_fit {pc : P → WritePc} {called appended : List (P × List UInt8)}
    (order : ∀ q, writesBy q called = writesBy q appended ++ (pc q).pending q) (p : P) :
    (bytesOf appended).length + (bytesOf ((pc p).pending p)).length ≤ (bytesOf called).length := by
  have hsub : (appended ++ (pc p).pending p).Subperm called := by
    rw [List.subperm_ext_iff]
    intro x _
    rw [← count_writesBy x called, order x.1, List.count_append, List.count_append, count_writesBy]
    by_cases hx : x.1 = p
    · rw [hx]
    · rw [List.count_eq_zero_of_not_mem fun hmem => hx (mem_pending hmem)]
      omega
  obtain ⟨l, hperm, hsublist⟩ := hsub
  have hsame : (bytesOf l).length = (bytesOf (appended ++ (pc p).pending p)).length :=
    (hperm.flatMap_right Prod.snd).length_eq
  have hle : (bytesOf l).length ≤ (bytesOf called).length :=
    (hsublist.flatMap Prod.snd).length_le
  rw [hsame, bytesOf, List.flatMap_append, List.length_append] at hle
  exact hle

end Invariant

/-! ### The parts of a write -/

section Parts

variable {s : FileState} {f : ByteFile}

/-- Growing leaves the contents alone. -/
theorem FileOk.grows (h : FileOk s f) {node : BufState} {q m : Nat} (grows : Grows s.node node q m) :
    FileOk { s with node := node } f := by
  refine ⟨⟨q, m, grows.ok⟩, ?_, h.length.trans grows.size.symm, ?_, h.offset⟩
  · intro i hlo hhi
    simp only at hlo hhi
    rw [grows.size] at hlo
    rw [grows.ok.capacity] at hhi
    exact grows.zero i hlo hhi
  · intro i hi
    simp only [grows.size] at hi
    simp only [grows.same i hi, h.bytes i hi]

/-- When growing succeeds, there is room up to the end of the write. -/
theorem growFor_ok (h : FileOk s f) {c : GrowChoice} {finish : Nat} {node : BufState} (hle : finish ≤ OFF_MAX)
    (sound : c.Sound s.node (growCapacity s.node.buf.capacity finish))
    (hrun : growFor c finish s.node = .ok (.ok (), node)) :
    FileOk { s with node := node } f ∧ finish ≤ node.buf.capacity := by
  obtain ⟨q, n, ok⟩ := h.node
  simp only [growFor, Program.run_bind, Program.run_get] at hrun
  split_ifs at hrun with hgrow
  · obtain ⟨m, hm, hnm, hpos, hfits⟩ := growCapacity_eq ok.capacity hgrow (Nat.le_trans hle (by decide))
    rw [hm] at sound
    rcases growBuf_cases ok hm hnm hpos sound with ⟨e, s', hfail, _, _⟩ | ⟨q', s', hok, grows, _⟩ |
      ⟨e, s', hfail, _, _, _⟩
    · rw [hrun] at hfail
      simp at hfail
    · rw [hrun, Except.ok.injEq, Prod.mk.injEq] at hok
      obtain ⟨_, rfl⟩ := hok
      refine ⟨h.grows grows, ?_⟩
      rw [grows.ok.capacity]
      exact hfits
    · rw [hrun] at hfail
      simp at hfail
  · rw [Program.run_pure, Except.ok.injEq, Prod.mk.injEq] at hrun
    obtain ⟨_, rfl⟩ := hrun
    exact ⟨h, Nat.le_of_not_lt hgrow⟩

/-- The bytes are there once they have been copied and the size has been set. -/
theorem copyTo_ok (h : FileOk s f) {buffer : List UInt8} {offset : Nat} {node : BufState}
    (hfits : offset + buffer.length ≤ s.node.buf.capacity)
    (hrun : copyTo buffer offset s.node = .ok ((), node)) :
    FileOk { s with node := node.setEnd (offset + buffer.length) }
      { f with contents := FileBytes.write 0 f.contents offset buffer } := by
  obtain ⟨q, n, ok⟩ := h.node
  rw [ok.capacity] at hfits
  obtain ⟨node', hwrite, ok', hsize, hcapacity, hinside, houtside⟩ := writeAt_spec buffer offset ok hfits
  rw [writeAt_eq, Program.run_bind, hrun] at hwrite
  obtain rfl : node.setEnd (offset + buffer.length) = node' := congrArg Prod.snd (Except.ok.inj hwrite)
  apply h.wrote ok' hsize hinside
  · intro i hi hout
    have hle := ok.size_le
    rw [ok.capacity] at hle
    exact houtside i (Nat.lt_of_lt_of_le hi hle) hout
  · intro i hlo hhi hout
    rw [hcapacity] at hhi
    rw [houtside i (ok.capacity ▸ hhi) hout]
    exact h.tail i hlo hhi

/-- The rest of the kernel leaves the file alone, wherever its writer is. -/
theorem WritePc.FileIs.client {desc : Nat} {pc : WritePc} {vm : Vm} (h : pc.FileIs desc s f)
    (keeps : KeepsBytes (InBlock s.node.buf.block) s.node.vm vm) :
    pc.FileIs desc { s with node := { s.node with vm := vm } } f := by
  cases pc with
  | copy buffer offset => exact ⟨h.1, h.2.1.client keeps, h.2.2⟩
  | setSize buffer offset => exact ⟨h.1, h.2.1, h.2.2.client keeps⟩
  | unlockBuf buffer nwritten =>
      cases nwritten with
      | error e => exact FileOk.client h keeps
      | ok n => exact ⟨h.1, h.2.client keeps⟩
  | advance buffer nwritten =>
      cases nwritten with
      | error e => exact FileOk.client h keeps
      | ok n => exact ⟨h.1, h.2.client keeps⟩
  | outside => exact FileOk.client h keeps
  | lockOffset buffer => exact FileOk.client h keeps
  | lockBuf buffer => exact FileOk.client h keeps
  | grow buffer => exact FileOk.client h keeps
  | unlockOffset nwritten => exact FileOk.client h keeps

end Parts

/-! ### Steps -/

section Steps

variable {P : Type} {desc start : Nat} {before : List UInt8} {s s' : WriteState P}
  {events : List (WriteEvent P)} {e : WriteEvent P} {p : P} {pc' : WritePc}

theorem fileIs_of_holder {f : ByteFile} (hholder : s.offsetLock.holder = some p) :
    s.FileIs desc f ↔ (s.pc p).FileIs desc s.file f := by
  rw [WriteState.FileIs, hholder]

theorem fileIs_of_free {f : ByteFile} (hfree : s.offsetLock = {}) : s.FileIs desc f ↔ FileOk s.file f := by
  rw [WriteState.FileIs, hfree]

/-- A step that appends nothing leaves the file where it is. -/
theorem file_snoc (happended : e.appended = []) {f : ByteFile}
    (hoffset : f.offset desc = start + (bytesOf (events.flatMap WriteEvent.appended)).length)
    (hbytes : FileBytes.Appended 0 before start (bytesOf (events.flatMap WriteEvent.appended)) f.contents) :
    f.offset desc = start + (bytesOf ((events ++ [e]).flatMap WriteEvent.appended)).length ∧
      FileBytes.Appended 0 before start (bytesOf ((events ++ [e]).flatMap WriteEvent.appended)) f.contents := by
  have happends : (events ++ [e]).flatMap WriteEvent.appended = events.flatMap WriteEvent.appended := by
    simp [happended]
  rw [happends]
  exact ⟨hoffset, hbytes⟩

variable [DecidableEq P]

/-- Only one process moves. -/
theorem update_congr {pc : P → WritePc} (F : WritePc → Prop) (h : F pc' ↔ F (pc p)) (q : P) :
    F (Function.update pc p pc' q) ↔ F (pc q) := by
  by_cases hq : q = p
  · rw [hq, Function.update_self]
    exact h
  · rw [Function.update_of_ne hq]

theorem update_not {pc : P → WritePc} (F : WritePc → Prop) (h : ∀ q, ¬F (pc q)) (h' : ¬F pc') (q : P) :
    ¬F (Function.update pc p pc' q) := by
  by_cases hq : q = p
  · rw [hq, Function.update_self]
    exact h'
  · rw [Function.update_of_ne hq]
    exact h q

/-- What the holder has made of the file does not depend on the others. -/
theorem fileIs_of_ne {f : ByteFile} (hfile : s.FileIs desc f) (hne : s.offsetLock.holder ≠ some p) :
    (s.setPc p pc').FileIs desc f := by
  rw [WriteState.FileIs] at hfile ⊢
  simp only [WriteState.setPc]
  cases hholder : s.offsetLock.holder with
  | none =>
      rw [hholder] at hfile
      exact hfile
  | some q =>
      rw [hholder] at hfile hne
      have hq : q ≠ p := fun heq => hne (congrArg some heq)
      simp only
      rw [Function.update_of_ne hq]
      exact hfile

namespace AppendInvariant

/-- The order after a step that neither calls nor appends a write. -/
theorem order_of_none (h : AppendInvariant desc start before s events) (hcalled : e.called = [])
    (happended : e.appended = []) (hpending : (s.pc p).pending p = pc'.pending p) (q : P) :
    writesBy q ((events ++ [e]).flatMap WriteEvent.called) =
      writesBy q ((events ++ [e]).flatMap WriteEvent.appended) ++ (Function.update s.pc p pc' q).pending q := by
  simp only [List.flatMap_append, List.flatMap_cons, List.flatMap_nil, List.append_nil]
  apply order_step h.order
  · rw [hcalled, happended, hpending]
    simp
  · simp [hcalled]
  · simp [happended]

/-- A step that leaves everything as it is. -/
theorem stays (h : AppendInvariant desc start before s events) (hcalled : e.called = [])
    (happended : e.appended = []) : AppendInvariant desc start before s (events ++ [e]) := by
  have hcalls : (events ++ [e]).flatMap WriteEvent.called = events.flatMap WriteEvent.called := by
    simp [hcalled]
  have happends : (events ++ [e]).flatMap WriteEvent.appended = events.flatMap WriteEvent.appended := by
    simp [happended]
  refine ⟨h.offsetLock, h.bufLock, h.succeeds, ?_, ?_⟩
  · rw [hcalls, happends]
    exact h.order
  · rw [happends]
    exact h.file

/-- A step of the holder of the `offset_lock`. -/
theorem holderStep (h : AppendInvariant desc start before s events) {file : FileState} {bufLock : Mutex P}
    (hcalled : e.called = []) (happended : e.appended = []) (hin : (s.pc p).holdsOffset)
    (hin' : pc'.holdsOffset)
    (hbuf : Guarded bufLock fun q => (Function.update s.pc p pc' q).holdsBuf) (hsucceeds : ¬pc'.fails)
    (hpending : (s.pc p).pending p = pc'.pending p)
    (hfile : ∀ f, f.offset desc + (bytesOf ((s.pc p).pending p)).length ≤
        start + (bytesOf (events.flatMap WriteEvent.called)).length →
      (s.pc p).FileIs desc s.file f → pc'.FileIs desc file f) :
    AppendInvariant desc start before
      ({ s with file := file, bufLock := bufLock }.setPc p pc') (events ++ [e]) := by
  have hholder := h.offsetLock.holder hin
  obtain ⟨f, hf, hoffset, hbytes⟩ := h.file
  refine ⟨?_, hbuf, update_not _ h.succeeds hsucceeds, h.order_of_none hcalled happended hpending, f, ?_,
    file_snoc happended hoffset hbytes⟩
  · exact h.offsetLock.congr (update_congr WritePc.holdsOffset (iff_of_true hin' hin))
  · have hholder' : ({ s with file := file, bufLock := bufLock }.setPc p pc').offsetLock.holder = some p := hholder
    rw [fileIs_of_holder hholder']
    simp only [WriteState.setPc, Function.update_self]
    apply hfile f _ ((fileIs_of_holder hholder).1 hf)
    have hfit := bytes_fit h.order p
    omega

end AppendInvariant

/-- Every step of a write that succeeds keeps the invariant. -/
theorem appendInvariant_step (h : AppendInvariant desc start before s events)
    (hbound : start + (bytesOf (events.flatMap WriteEvent.called)).length ≤ OFF_MAX)
    (hsuccess : ∀ p c err, e ≠ .grow p c (.error err)) (step : WriteStep desc s e s') :
    AppendInvariant desc start before s' (events ++ [e]) := by
  cases step with
  | call p buffer hpc =>
      have hout : ¬(s.pc p).holdsOffset := by rw [hpc]; exact id
      obtain ⟨f, hf, hoffset, hbytes⟩ := h.file
      refine ⟨?_, ?_, update_not _ h.succeeds id, ?_, f, ?_, file_snoc rfl hoffset hbytes⟩
      · exact h.offsetLock.congr (update_congr WritePc.holdsOffset (by rw [hpc]; exact Iff.rfl))
      · exact h.bufLock.congr (update_congr WritePc.holdsBuf (by rw [hpc]; exact Iff.rfl))
      · intro q
        simp only [List.flatMap_append, List.flatMap_cons, List.flatMap_nil, List.append_nil]
        exact order_step h.order (by rw [hpc]; rfl) (by simp [WriteEvent.called]) (by simp [WriteEvent.appended]) q
      · exact fileIs_of_ne hf fun hholder => hout (h.offsetLock.inside_of_holder hholder)
  | lockOffset p buffer hpc =>
      have hout : ¬(s.pc p).holdsOffset := by rw [hpc]; exact id
      rcases h.offsetLock.lock hout with ⟨hreturns, hfree, hnone, hheld⟩ | ⟨hretries, hsame⟩
      · obtain ⟨f, hf, hoffset, hbytes⟩ := h.file
        rw [hreturns, if_pos rfl, hheld]
        refine ⟨?_, ?_, update_not _ h.succeeds id, h.order_of_none rfl rfl (by rw [hpc]; rfl), f, ?_, file_snoc rfl hoffset hbytes⟩
        · apply Guarded.entered hnone
          · intro q hq
            simp only [WriteState.setPc, Function.update_of_ne hq]
          · simp only [WriteState.setPc, Function.update_self]
            trivial
        · exact h.bufLock.congr (update_congr WritePc.holdsBuf (by rw [hpc]; exact Iff.rfl))
        · rw [fileIs_of_holder (p := p) rfl]
          simp only [WriteState.setPc, Function.update_self]
          exact (fileIs_of_free hfree).1 hf
      · rw [hretries, if_neg (by decide), hsame, WriteState.setPc, ← hpc, Function.update_eq_self]
        exact h.stays rfl rfl
  | lockBuf p buffer hpc =>
      have hin : (s.pc p).holdsOffset := by rw [hpc]; trivial
      have hout : ¬(s.pc p).holdsBuf := by rw [hpc]; exact id
      rcases h.bufLock.lock hout with ⟨hreturns, hfree, hnone, hheld⟩ | ⟨hretries, hsame⟩
      · rw [hreturns, if_pos rfl, hheld]
        refine h.holderStep rfl rfl hin (by trivial) ?_ (by exact id) (by rw [hpc]; rfl) ?_
        · apply Guarded.entered hnone
          · intro q hq
            rw [Function.update_of_ne hq]
          · rw [Function.update_self]
            trivial
        · intro f _ hf
          rw [hpc] at hf
          exact hf
      · rw [hretries, if_neg (by decide), hsame, WriteState.setPc, ← hpc, Function.update_eq_self]
        exact h.stays rfl rfl
  | grow p buffer c node hpc sound hrun =>
      have hin : (s.pc p).holdsOffset := by rw [hpc]; trivial
      refine h.holderStep rfl rfl hin (by trivial) ?_ (by exact id) (by rw [hpc]; rfl) ?_
      · exact h.bufLock.congr (update_congr WritePc.holdsBuf (by rw [hpc]; exact Iff.rfl))
      · intro f hle hf
        rw [hpc] at hle hf
        have hf : FileOk s.file f := hf
        have hlength : bytesOf (WritePc.pending p (.grow buffer)) = buffer := by simp [bytesOf, WritePc.pending]
        rw [hlength] at hle
        have hmax : s.file.offset desc + buffer.length ≤ OFF_MAX := by
          rw [← hf.offset]
          omega
        rw [Nat.mod_eq_of_lt (Nat.lt_of_le_of_lt hmax (by decide))] at sound hrun
        obtain ⟨hok, hfits⟩ := growFor_ok hf hmax sound hrun
        exact ⟨congrFun hf.offset.symm desc, hok, hfits, hmax⟩
  | growFails p buffer c err node hpc _ _ => exact absurd rfl (hsuccess p c err)
  | copy p buffer offset node hpc hrun =>
      have hin : (s.pc p).holdsOffset := by rw [hpc]; trivial
      refine h.holderStep rfl rfl hin (by trivial) ?_ (by exact id) (by rw [hpc]; rfl) ?_
      · exact h.bufLock.congr (update_congr WritePc.holdsBuf (by rw [hpc]; exact Iff.rfl))
      · intro f _ hf
        rw [hpc] at hf
        obtain ⟨hoffset, hok, hfits, hmax⟩ := hf
        exact ⟨hoffset, hmax, copyTo_ok hok hfits hrun⟩
  | setSize p buffer offset hpc =>
      have hin : (s.pc p).holdsOffset := by rw [hpc]; trivial
      refine h.holderStep rfl rfl hin (by trivial) ?_ (by exact id) (by rw [hpc]; rfl) ?_
      · exact h.bufLock.congr (update_congr WritePc.holdsBuf (by rw [hpc]; exact Iff.rfl))
      · intro f _ hf
        rw [hpc] at hf
        obtain ⟨rfl, hmax, hok⟩ := hf
        rw [Nat.mod_eq_of_lt (Nat.lt_of_le_of_lt hmax (by decide))]
        exact ⟨rfl, hok⟩
  | unlockBuf p buffer nwritten hpc _ =>
      have hin : (s.pc p).holdsOffset := by rw [hpc]; trivial
      have hinBuf : (s.pc p).holdsBuf := by rw [hpc]; trivial
      obtain ⟨hunlock, hone⟩ := h.bufLock.unlock hinBuf
      have hsucceeds := h.succeeds p
      rw [hunlock]
      cases nwritten with
      | error err =>
          rw [hpc] at hsucceeds
          exact absurd trivial hsucceeds
      | ok n =>
          refine h.holderStep rfl rfl hin (by trivial) ?_ (by exact id) (by rw [hpc]; rfl) ?_
          · refine Or.inl ⟨rfl, fun q hq => ?_⟩
            by_cases hqp : q = p
            · simp only [hqp, Function.update_self] at hq
              exact hq
            · simp only [Function.update_of_ne hqp] at hq
              exact hqp (hone q hq)
          · intro f _ hf
            rw [hpc] at hf
            exact hf
  | advance p buffer nwritten hpc =>
      have hin : (s.pc p).holdsOffset := by rw [hpc]; trivial
      have hsucceeds := h.succeeds p
      cases nwritten with
      | error err =>
          rw [hpc] at hsucceeds
          exact absurd trivial hsucceeds
      | ok n =>
          have hholder := h.offsetLock.holder hin
          obtain ⟨f, hf, hoffset, hbytes⟩ := h.file
          rw [fileIs_of_holder hholder, hpc] at hf
          obtain ⟨rfl, hok⟩ := hf
          have hbytesOf : bytesOf ((events ++ [WriteEvent.advance p buffer (.ok buffer.length)]).flatMap WriteEvent.appended) =
              bytesOf (events.flatMap WriteEvent.appended) ++ buffer := by
            simp [bytesOf, WriteEvent.appended]
          refine ⟨?_, ?_, update_not _ h.succeeds id, ?_,
            { contents := FileBytes.write 0 f.contents (f.offset desc) buffer
              offset := Function.update f.offset desc (f.offset desc + buffer.length) }, ?_, ?_, ?_⟩
          · exact h.offsetLock.congr (@update_congr _ _ _ _ s.pc WritePc.holdsOffset (by rw [hpc]; exact Iff.rfl))
          · exact h.bufLock.congr (@update_congr _ _ _ _ s.pc WritePc.holdsBuf (by rw [hpc]; exact Iff.rfl))
          · intro q
            simp only [List.flatMap_append, List.flatMap_cons, List.flatMap_nil, List.append_nil]
            exact order_step h.order (by rw [hpc]; rfl) (by simp [WriteEvent.called])
              (by simp [WriteEvent.appended]) q
          · have hholder' : ((s.advanced desc (.ok buffer.length)).setPc p
                (.unlockOffset (.ok buffer.length))).offsetLock.holder = some p := hholder
            rw [fileIs_of_holder hholder']
            simp only [WriteState.setPc, Function.update_self]
            exact hok.advance desc buffer.length
          · simp only [Function.update_self]
            rw [hbytesOf, List.length_append, hoffset]
            omega
          · rw [hbytesOf, hoffset]
            exact hbytes.write buffer
  | unlockOffset p nwritten hpc _ =>
      have hin : (s.pc p).holdsOffset := by rw [hpc]; trivial
      obtain ⟨hunlock, hone⟩ := h.offsetLock.unlock hin
      obtain ⟨f, hf, hoffset, hbytes⟩ := h.file
      rw [hunlock]
      refine ⟨?_, ?_, update_not _ h.succeeds id, h.order_of_none rfl rfl (by rw [hpc]; rfl), f, ?_, file_snoc rfl hoffset hbytes⟩
      · refine Or.inl ⟨rfl, fun q hq => ?_⟩
        by_cases hqp : q = p
        · simp only [WriteState.setPc, hqp, Function.update_self] at hq
          exact hq
        · simp only [WriteState.setPc, Function.update_of_ne hqp] at hq
          exact hqp (hone q hq)
      · exact h.bufLock.congr (update_congr WritePc.holdsBuf (by rw [hpc]; exact Iff.rfl))
      · rw [fileIs_of_free rfl]
        rw [fileIs_of_holder (h.offsetLock.holder hin), hpc] at hf
        exact hf
  | client vm keeps =>
      obtain ⟨f, hf, hoffset, hbytes⟩ := h.file
      obtain ⟨hoffsetLock, hbufLock, hsucceeds, horder, _⟩ := h.stays (e := .client) rfl rfl
      refine ⟨hoffsetLock, hbufLock, hsucceeds, horder, f, ?_, file_snoc rfl hoffset hbytes⟩
      · rw [WriteState.FileIs] at hf ⊢
        simp only [WriteState.setNode]
        cases hholder : s.offsetLock.holder with
        | none =>
            rw [hholder] at hf
            exact hf.client keeps
        | some q =>
            rw [hholder] at hf
            exact WritePc.FileIs.client hf keeps

end Steps

/-! ### Runs -/

section Runs

variable {P : Type} [DecidableEq P] {desc : Nat} {s t : WriteState P}
  {xs : List (Transition (WriteState P) (WriteEvent P))}

/-- The writes that are called in a run, in the order of the calls. -/
def calledWrites (xs : List (Transition (WriteState P) (WriteEvent P))) : List (P × List UInt8) :=
  xs.flatMap fun x => x.event.called

/-- No write of the run returns an error. -/
def AllSucceed (xs : List (Transition (WriteState P) (WriteEvent P))) : Prop :=
  ∀ x ∈ xs, ∀ p e, x.event ≠ .returns p (.error e)

/-- A write that fails stays on its way out until it returns the error. -/
theorem fails_step {s s' : WriteState P} {e : WriteEvent P} {p : P} (hfails : (s.pc p).fails)
    (step : WriteStep desc s e s') : (∃ err, e = .returns p (.error err)) ∨ (s'.pc p).fails := by
  have hother : ∀ {q : P} {pc' : WritePc}, (q = p → pc'.fails) → (Function.update s.pc q pc' p).fails := by
    intro q pc' hsame
    by_cases hq : p = q
    · rw [hq, Function.update_self]
      exact hsame hq.symm
    · rw [Function.update_of_ne hq]
      exact hfails
  cases step with
  | call q buffer hpc => exact Or.inr (hother fun hq => by subst hq; rw [hpc] at hfails; exact hfails)
  | lockOffset q buffer hpc =>
      exact Or.inr (hother fun hq => by subst hq; rw [hpc] at hfails; exact absurd hfails id)
  | lockBuf q buffer hpc =>
      exact Or.inr (hother fun hq => by subst hq; rw [hpc] at hfails; exact absurd hfails id)
  | grow q buffer c node hpc _ _ =>
      exact Or.inr (hother fun hq => by subst hq; rw [hpc] at hfails; exact hfails)
  | growFails q buffer c err node hpc _ _ => exact Or.inr (hother fun _ => trivial)
  | copy q buffer offset node hpc _ =>
      exact Or.inr (hother fun hq => by subst hq; rw [hpc] at hfails; exact hfails)
  | setSize q buffer offset hpc =>
      exact Or.inr (hother fun hq => by subst hq; rw [hpc] at hfails; exact hfails)
  | unlockBuf q buffer nwritten hpc _ =>
      exact Or.inr (hother fun hq => by subst hq; rw [hpc] at hfails; cases nwritten <;> exact hfails)
  | advance q buffer nwritten hpc =>
      refine Or.inr ?_
      cases nwritten <;> exact hother fun hq => by subst hq; rw [hpc] at hfails; exact hfails
  | unlockOffset q nwritten hpc _ =>
      by_cases hq : q = p
      · subst hq
        rw [hpc] at hfails
        cases nwritten with
        | error err => exact Or.inl ⟨err, rfl⟩
        | ok n => exact absurd hfails id
      · exact Or.inr (hother fun heq => absurd heq hq)
  | client vm _ => exact Or.inr hfails

theorem fails_run {p : P} (run : (sharedWriteSystem P desc).Run s xs t) (hfails : (s.pc p).fails)
    (hdone : t.pc p = .outside) : ¬AllSucceed xs := by
  induction run with
  | nil s =>
      rw [hdone] at hfails
      exact absurd hfails id
  | cons hstep _ ih =>
      intro hall
      rcases fails_step hfails hstep with ⟨err, he⟩ | hfails'
      · exact hall _ List.mem_cons_self p err he
      · exact ih hfails' hdone fun x hx => hall x (List.mem_cons_of_mem _ hx)

/-- When no write returns an error and all have returned, no write has failed. -/
theorem grow_succeeds (run : (sharedWriteSystem P desc).Run s xs t) (hdone : ∀ p, t.pc p = .outside)
    (hall : AllSucceed xs) : ∀ x ∈ xs, ∀ p c err, x.event ≠ .grow p c (.error err) := by
  induction run with
  | nil s => simp
  | cons hstep rest ih =>
      have hall' : AllSucceed _ := fun x hx => hall x (List.mem_cons_of_mem _ hx)
      intro x hx
      rcases List.mem_cons.1 hx with rfl | hx
      · rintro p c err ⟨⟩
        cases hstep with
        | growFails _ buffer _ _ node _ _ _ =>
            apply fails_run rest _ (hdone p) hall'
            simp only [WriteState.setPc, Function.update_self]
            trivial
      · exact ih hdone hall' x hx

theorem appendInvariant_initial {f : ByteFile} (hfile : FileOk s.file f)
    (hinit : (sharedWriteSystem P desc).init s) :
    AppendInvariant desc (s.file.offset desc) f.contents s [] := by
  obtain ⟨hoffset, hbuf, hout⟩ := hinit
  refine ⟨Or.inl ⟨hoffset, fun p => ?_⟩, Or.inl ⟨hbuf, fun p => ?_⟩, fun p => ?_, fun p => ?_, f, ?_, ?_, ?_⟩
  · simp only [hout p]
    exact id
  · simp only [hout p]
    exact id
  · rw [hout p]
    exact id
  · rw [hout p]
    rfl
  · exact (fileIs_of_free hoffset).2 hfile
  · rw [hfile.offset]
    rfl
  · exact FileBytes.Appended.nil 0 f.contents _

/-- Appends over runs: when processes have written through one description and no write has failed, the bytes of
    all writes stand behind the offset in an order that keeps the order of each process, nothing else has
    changed, and the offset has moved behind them. -/
theorem shared_writes_append {f : ByteFile} (hfile : FileOk s.file f) (hinit : (sharedWriteSystem P desc).init s)
    (run : (sharedWriteSystem P desc).Run s xs t) (hdone : ∀ p, t.pc p = .outside) (hall : AllSucceed xs)
    (hlength : s.file.offset desc + (bytesOf (calledWrites xs)).length ≤ OFF_MAX) :
    ∃ order, order.Perm (calledWrites xs) ∧ (∀ p, writesBy p order = writesBy p (calledWrites xs)) ∧
      (∃ after, t.file.contents = some after ∧
        FileBytes.Appended 0 f.contents (s.file.offset desc) (bytesOf order) after) ∧
      t.file.offset desc = s.file.offset desc + (bytesOf order).length := by
  -- what has been called so far is bounded by what is called in the whole run
  have hinv := run.guarded_collect
    (fun s' events => s.file.offset desc + (bytesOf (events.flatMap WriteEvent.called)).length ≤ OFF_MAX →
      AppendInvariant desc (s.file.offset desc) f.contents s' events) (fun e => [e])
    (fun s' e s'' events h hguard hstep hbound => by
      rw [List.flatMap_append, bytesOf, List.flatMap_append, List.length_append] at hbound
      have hbound' : s.file.offset desc + (bytesOf (events.flatMap WriteEvent.called)).length ≤ OFF_MAX := by
        rw [bytesOf]
        omega
      exact appendInvariant_step (h hbound') hbound' hguard hstep)
    (fun _ => appendInvariant_initial hfile hinit) (grow_succeeds run hdone hall)
  have hcalled : (xs.flatMap fun x => [x.event]).flatMap WriteEvent.called = calledWrites xs := by
    rw [List.flatMap_assoc]
    simp [calledWrites]
  rw [hcalled] at hinv
  obtain ⟨hoffsetLock, _, _, horder, f', hf, hoffset, hbytes⟩ := hinv hlength
  generalize (xs.flatMap fun x => [x.event]).flatMap WriteEvent.appended = order at horder hoffset hbytes
  have hsame : ∀ p, writesBy p order = writesBy p (calledWrites xs) := by
    intro p
    have hp := horder p
    rw [hcalled, hdone p, WritePc.pending, List.append_nil] at hp
    exact hp.symm
  have hfree : t.offsetLock = {} := by
    rcases hoffsetLock with ⟨hfree, _⟩ | ⟨p, _, hone⟩
    · exact hfree
    · have hin := (hone p).2 rfl
      simp only [hdone p] at hin
      exact absurd hin id
  have hok := (fileIs_of_free hfree).1 hf
  refine ⟨order, ?_, hsame, ⟨f'.contents, hok.contents, hbytes⟩, ?_⟩
  · rw [List.perm_iff_count]
    intro x
    rw [← count_writesBy, hsame, count_writesBy]
  · rw [← hok.offset]
    exact hoffset

end Runs

/-- One process is about to write to a new file. -/
def newWriter : WriteState Unit := { file := newFile, offsetLock := {}, bufLock := {}, pc := fun _ => .outside }

/-- The process has written one byte. -/
theorem shared_writes_append_after_write : ∃ xs t, (sharedWriteSystem Unit 0).Run newWriter xs t ∧
    calledWrites xs = [((), [1])] ∧ ∃ order, order.Perm (calledWrites xs) ∧
      (∀ p, writesBy p order = writesBy p (calledWrites xs)) ∧
      (∃ after, t.file.contents = some after ∧ FileBytes.Appended 0 [] 0 (bytesOf order) after) ∧
      t.file.offset 0 = 0 + (bytesOf order).length := by
  obtain ⟨node, hgrow, ok, _, _⟩ := zeroBuf_growBuf_page
  have hgrowFor : growFor growAtPage 1 zeroBuf = .ok (.ok (), node) := by
    simp only [growFor, Program.run_bind, Program.run_get]
    exact hgrow
  have hcapacity : growCapacity newFile.node.buf.capacity ((newFile.offset 0 + ([1] : List UInt8).length) % wordSize) =
      PAGE_SIZE := by decide
  obtain ⟨node', hcopy⟩ : ∃ node', copyTo [1] 0 node = .ok ((), node') := by
    obtain ⟨_, hwrite, _⟩ := writeAt_spec [1] 0 ok (by decide)
    rw [writeAt_eq, Program.run_bind] at hwrite
    cases hcopy : copyTo [1] 0 node with
    | error e => simp [hcopy] at hwrite
    | ok r => exact ⟨r.2, rfl⟩
  have hfile : FileOk newWriter.file { offset := newFile.offset } := fileOk_init newFile_init
  have hreturns : SectionOutcome.returns ≠ .asserts := by decide
  have hlength : newFile.offset 0 + (bytesOf [((), [1])]).length ≤ OFF_MAX := by decide
  have run : (sharedWriteSystem Unit 0).Run newWriter _ _ := .cons (.call () [1] rfl)
    (.cons (.lockOffset () [1] rfl) (.cons (.lockBuf () [1] rfl)
      (.cons (.grow () [1] growAtPage node rfl (hcapacity ▸ growAtPage_sound) hgrowFor)
        (.cons (.copy () [1] 0 node' rfl hcopy) (.cons (.setSize () [1] 0 rfl)
          (.cons (.unlockBuf () [1] (.ok 1) rfl hreturns) (.cons (.advance () [1] (.ok 1) rfl)
            (.cons (.unlockOffset () (.ok 1) rfl hreturns) (.nil _)))))))))
  refine ⟨_, _, run, rfl, shared_writes_append hfile ⟨rfl, rfl, fun _ => rfl⟩ run (fun _ => rfl) ?_ hlength⟩
  intro x hx p e
  simp only [List.mem_cons, List.not_mem_nil, or_false] at hx
  rcases hx with rfl | rfl | rfl | rfl | rfl | rfl | rfl | rfl | rfl <;> simp

end Chaotix
