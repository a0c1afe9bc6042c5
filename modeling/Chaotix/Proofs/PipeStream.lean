/-
Module: Chaotix.Proofs.PipeStream
Layer: Proofs
Purpose: A pipe is a lossless stream of bytes. Every section under the lock keeps the order of the bytes, so
  what a run has read and what the buffer holds are what it has written. A reader is told the end of the
  stream only behind the last byte and once the write description is closed, and a writer is refused only
  once the read description is closed: the numbers of readers and writers fall to zero only in
  `fifo_close`, which runs when no slot of any process holds a counted reference.
Imports: Mathlib.Tactic, Mathlib.Data.Set.Card, Chaotix.Kernel.Fifo
Trusted boundary: none
Main exports: PipeInvariant, pipeInvariant_step, PipeState.Closed, pipe_is_lossless_fifo
-/
import Mathlib.Tactic
import Mathlib.Data.Set.Card
import Chaotix.Kernel.Fifo

namespace Chaotix

/-! ### The bytes -/

section Bytes

variable {P : Type} [DecidableEq P]

/-- The bytes that a section of `fifo_write` accepts: as many as it returns. -/
def acceptedBytes (bytes : List UInt8) : Option (Except Errno Nat) → List UInt8
  | some (.ok nwritten) => bytes.take nwritten
  | _ => []

/-- The bytes a step returns to a reader. -/
def PipeEvent.bytesRead : PipeEvent P → List UInt8
  | .readSection _ _ outcome => outcome.getD []
  | _ => []

/-- The bytes a step accepts from a writer. -/
def PipeEvent.bytesWritten : PipeEvent P → List UInt8
  | .writeSection _ bytes outcome => acceptedBytes bytes outcome
  | _ => []

/-- The bytes returned by the reads of a run, in the order of their sections. -/
def pipeRead (xs : List (Transition (PipeState P) (PipeEvent P))) : List UInt8 :=
  xs.flatMap fun x => x.event.bytesRead

/-- The bytes accepted by the writes of a run, in the order of their sections. -/
def pipeWritten (xs : List (Transition (PipeState P) (PipeEvent P))) : List UInt8 :=
  xs.flatMap fun x => x.event.bytesWritten

/-- A section of `fifo_read` takes what it returns from the front of the buffer. -/
theorem fifoReadSection_contents (fifo : Fifo) (count : Nat) :
    fifo.buf.contents =
      (fifoReadSection fifo count).1.getD [] ++ (fifoReadSection fifo count).2.buf.contents := by
  unfold fifoReadSection
  split_ifs with hempty hwriters
  · rfl
  · rfl
  · exact (ringBufRead_spec hempty count).1

/-- A section of `fifo_write` appends what it accepts. -/
theorem fifoWriteSection_contents (fifo : Fifo) (bytes : List UInt8) :
    (fifoWriteSection fifo bytes).2.buf.contents =
      fifo.buf.contents ++ acceptedBytes bytes (fifoWriteSection fifo bytes).1 := by
  unfold fifoWriteSection
  split_ifs with hreaders hfull
  · exact (List.append_nil _).symm
  · exact (List.append_nil _).symm
  · exact (ringBufWrite_spec hfull bytes).1

/-- What a section of `fifo_write` returns is at most the count it was called with. -/
theorem fifoWriteSection_le {fifo : Fifo} {bytes : List UInt8} {nwritten : Nat}
    (h : (fifoWriteSection fifo bytes).1 = some (.ok nwritten)) : nwritten ≤ bytes.length := by
  unfold fifoWriteSection at h
  split_ifs at h with hreaders hfull
  · simp at h
  · simp only [Option.some.injEq, Except.ok.injEq] at h
    exact h ▸ (ringBufWrite_spec hfull bytes).2

/-- A section of `fifo_read` that returns nothing for a positive count found the buffer empty and no
    writer. -/
theorem fifoReadSection_eof {fifo : Fifo} {count : Nat} (hcount : 0 < count)
    (h : (fifoReadSection fifo count).1 = some []) : fifo.buf.contents = [] ∧ fifo.numWriters = 0 := by
  unfold fifoReadSection at h
  split_ifs at h with hempty hwriters
  · exact ⟨(CellRing.isEmpty_iff_contents _).1 hempty, hwriters⟩
  · exact absurd (Option.some.inj h) ((ringBufRead_spec hempty count).2 hcount)

/-- A section of `fifo_write` that returns `-EPIPE` found no reader. -/
theorem fifoWriteSection_epipe {fifo : Fifo} {bytes : List UInt8}
    (h : (fifoWriteSection fifo bytes).1 = some (.error .EPIPE)) : fifo.numReaders = 0 := by
  unfold fifoWriteSection at h
  split_ifs at h with hreaders hfull
  · exact hreaders
  · simp at h

@[simp] theorem PipeState.afterClose_fifo (s : PipeState P) (p : P) (fd : Nat) (exiting : Bool) :
    (s.afterClose p fd exiting).fifo = s.fifo := by
  unfold PipeState.afterClose
  split <;> rfl

@[simp] theorem PipeState.dropRef_fifo (s : PipeState P) (p : P) (fd : Nat) (e : PipeEnd)
    (exiting : Bool) : (s.dropRef p fd e exiting).fifo = s.fifo := by
  unfold PipeState.dropRef
  split
  · exact PipeState.afterClose_fifo _ p fd exiting
  · rfl

/-- A step puts what it accepts behind the contents and takes what it returns from their front. -/
theorem pipeStep_contents {s s' : PipeState P} {e : PipeEvent P} (hstep : PipeStep s e s') :
    s.fifo.buf.contents ++ e.bytesWritten = e.bytesRead ++ s'.fifo.buf.contents := by
  cases hstep with
  | @readSection p count _ =>
      simpa [PipeEvent.bytesRead, PipeEvent.bytesWritten, PipeState.setPc] using
        fifoReadSection_contents s.fifo count
  | @writeSection p bytes _ =>
      simpa [PipeEvent.bytesRead, PipeEvent.bytesWritten, PipeState.setPc] using
        (fifoWriteSection_contents s.fifo bytes).symm
  | @forkEntry p child counted _ _ _ =>
      cases hslot : s.table p counted with
      | none => simp [PipeEvent.bytesRead, PipeEvent.bytesWritten, PipeState.setPc]
      | some e => simp [PipeEvent.bytesRead, PipeEvent.bytesWritten, PipeState.setPc, PipeState.addRef]
  | _ => simp [PipeEvent.bytesRead, PipeEvent.bytesWritten, PipeState.setPc, PipeState.setSlot,
      PipeState.addRef, fifoClose]

end Bytes

/-! ### The references -/

section References

variable {P : Type}

/-- The reference of a slot is in the count of its description: it has been added, and not yet been
    dropped. -/
def PipePc.Counted (fd : Nat) : PipePc P → Prop
  | .unborn | .dead => False
  | .embryo counted => fd < counted
  | .duplicating _ newfd _ => fd ≠ newfd
  | .closing _ closed _ true => closed < fd
  | .closing _ closed _ false => fd ≠ closed
  | .exiting next => next ≤ fd
  | .outside | .reading _ _ | .writing _ _ | .forking _ => True

/-- The process will not use the slot again. -/
def PipePc.Released (fd : Nat) : PipePc P → Prop
  | .unborn | .dead => True
  | .closing _ closed _ true => fd ≤ closed
  | .closing _ closed _ false => fd = closed
  | .exiting next => fd < next
  | _ => False

/-- The process is making a child, or is a child that is being made. -/
def PipePc.Forks : PipePc P → Prop
  | .forking _ | .embryo _ => True
  | _ => False

/-- The slots that hold a counted reference to a description. -/
def PipeState.counted (s : PipeState P) (e : PipeEnd) : Set (P × Nat) :=
  {x | s.table x.1 x.2 = some e ∧ (s.pc x.1).Counted x.2}

/-- The number of readers or of writers. -/
def Fifo.opened (fifo : Fifo) : PipeEnd → Nat
  | .reader => fifo.numReaders
  | .writer => fifo.numWriters

/-- A description is closed: no reference is left, and a slot that still names it is not used again. -/
def PipeState.Closed (s : PipeState P) (e : PipeEnd) : Prop :=
  s.refCount e = 0 ∧ ∀ p fd, s.table p fd = some e → (s.pc p).Released fd

/-- A description has at least as many references as slots that are counted, and counts as a reader or a
    writer while it has any. -/
structure PipeInvariant (s : PipeState P) : Prop where
  counted : ∀ e, (s.counted e).encard ≤ s.refCount e
  bounded : ∀ p fd e, s.table p fd = some e → fd < OPEN_MAX
  duplicating : ∀ p fd newfd e, s.pc p = .duplicating fd newfd e → s.table p fd = some e ∧ fd ≠ newfd ∧
    s.table p newfd = some e
  embryo : ∀ c n, s.pc c = .embryo n → ∃ p, s.pc p = .forking c
  forking : ∀ p c, s.pc p = .forking c → (∃ n, s.pc c = .embryo n) ∧ s.table c = s.table p
  parent : ∀ p q c, s.pc p = .forking c → s.pc q = .forking c → p = q
  closing : ∀ p point fd e exiting, s.pc p = .closing point fd e exiting → s.refCount e = 0
  opened : ∀ e, 0 < s.refCount e → s.fifo.opened e ≠ 0

/-- A description with a counted slot has a reference. -/
theorem PipeInvariant.refCount_pos {s : PipeState P} (inv : PipeInvariant s) {e : PipeEnd} {x : P × Nat}
    (h : x ∈ s.counted e) : 0 < s.refCount e := by
  by_contra hzero
  have hempty : (s.counted e).encard = 0 := by
    simpa [Nat.eq_zero_of_not_pos hzero] using inv.counted e
  rw [Set.encard_eq_zero.1 hempty] at h
  exact h

/-- Without references there is no counted slot, so a description is closed once it has left the numbers
    of readers and writers. -/
theorem PipeInvariant.closed {s : PipeState P} (inv : PipeInvariant s) {e : PipeEnd}
    (h : s.fifo.opened e = 0) : s.Closed e := by
  have hzero : s.refCount e = 0 := by
    by_contra hpos
    exact inv.opened e (Nat.pos_of_ne_zero hpos) h
  have huncounted : ∀ p fd, s.table p fd = some e → ¬(s.pc p).Counted fd := by
    intro p fd hslot hcounted
    have hmem : (p, fd) ∈ s.counted e := ⟨hslot, hcounted⟩
    exact absurd hzero (Nat.ne_of_gt (inv.refCount_pos hmem))
  refine ⟨hzero, ?_⟩
  intro p fd hslot
  have hnot := huncounted p fd hslot
  cases hpc : s.pc p with
  | unborn => exact trivial
  | dead => exact trivial
  | embryo n =>
      -- the parent holds a counted reference
      obtain ⟨parent, hparent⟩ := inv.embryo p n hpc
      rw [(inv.forking parent p hparent).2] at hslot
      exact absurd (by simp [hparent, PipePc.Counted]) (huncounted parent fd hslot)
  | duplicating fd' newfd e' =>
      obtain ⟨hold, hne, hnew⟩ := inv.duplicating p fd' newfd e' hpc
      rw [hpc] at hnot
      obtain rfl : fd = newfd := not_not.1 hnot
      obtain rfl : e' = e := Option.some.inj (hnew.symm.trans hslot)
      exact absurd (by simpa [hpc, PipePc.Counted] using hne) (huncounted p fd' hold)
  | closing point closed e' exiting =>
      rw [hpc] at hnot
      cases exiting with
      | true => exact not_lt.1 hnot
      | false => exact not_not.1 hnot
  | exiting next =>
      rw [hpc] at hnot
      exact not_le.1 hnot
  | outside => simp [hpc, PipePc.Counted] at hnot
  | reading point count => simp [hpc, PipePc.Counted] at hnot
  | writing point count => simp [hpc, PipePc.Counted] at hnot
  | forking child => simp [hpc, PipePc.Counted] at hnot

/-- All but one process are as they were. -/
structure OnlyMoves (p : P) (s s' : PipeState P) : Prop where
  table : ∀ q, q ≠ p → s'.table q = s.table q
  pc : ∀ q, q ≠ p → s'.pc q = s.pc q

theorem OnlyMoves.trans {s s' s'' : PipeState P} {p : P} (h : OnlyMoves p s s') (h' : OnlyMoves p s' s'') :
    OnlyMoves p s s'' :=
  ⟨fun q hne => (h'.table q hne).trans (h.table q hne), fun q hne => (h'.pc q hne).trans (h.pc q hne)⟩

/-- The invariant after a step of a process that is not forking. What is left to show is about that
    process and about the counts. -/
theorem PipeInvariant.of_moves {s s' : PipeState P} {p : P} (inv : PipeInvariant s)
    (frame : OnlyMoves p s s') (hbefore : ¬(s.pc p).Forks) (hafter : ¬(s'.pc p).Forks) (hcounted : ∀ e, (s'.counted e).encard ≤ s'.refCount e)
    (hbounded : ∀ fd e, s'.table p fd = some e → fd < OPEN_MAX)
    (hduplicating : ∀ fd newfd e, s'.pc p = .duplicating fd newfd e → s'.table p fd = some e ∧
      fd ≠ newfd ∧ s'.table p newfd = some e)
    (hclosing : ∀ point fd e exiting, s'.pc p = .closing point fd e exiting → s'.refCount e = 0)
    (hzero : ∀ e, s.refCount e = 0 → s'.refCount e = 0)
    (hopened : ∀ e, 0 < s'.refCount e → s'.fifo.opened e ≠ 0) : PipeInvariant s' := by
  have hforks : ∀ q, (s'.pc q).Forks → q ≠ p ∧ s'.pc q = s.pc q := by
    intro q hq
    have hne : q ≠ p := fun heq => hafter (heq ▸ hq)
    exact ⟨hne, frame.pc q hne⟩
  have hold : ∀ q, (s.pc q).Forks → q ≠ p ∧ s'.pc q = s.pc q := by
    intro q hq
    have hne : q ≠ p := fun heq => hbefore (heq ▸ hq)
    exact ⟨hne, frame.pc q hne⟩
  refine ⟨hcounted, ?_, ?_, ?_, ?_, ?_, ?_, hopened⟩
  · intro q fd e hslot
    by_cases heq : q = p
    · exact hbounded fd e (heq ▸ hslot)
    · exact inv.bounded q fd e (frame.table q heq ▸ hslot)
  · intro q fd newfd e hpc
    by_cases heq : q = p
    · subst heq
      exact hduplicating fd newfd e hpc
    · rw [frame.table q heq]
      exact inv.duplicating q fd newfd e (frame.pc q heq ▸ hpc)
  · intro c n hpc
    obtain ⟨_, hsame⟩ := hforks c (by simp [hpc, PipePc.Forks])
    obtain ⟨parent, hparent⟩ := inv.embryo c n (hsame ▸ hpc)
    exact ⟨parent, (hold parent (by simp [hparent, PipePc.Forks])).2.trans hparent⟩
  · intro q c hpc
    obtain ⟨hne, hsame⟩ := hforks q (by simp [hpc, PipePc.Forks])
    obtain ⟨⟨n, hchild⟩, htable⟩ := inv.forking q c (hsame ▸ hpc)
    obtain ⟨hneChild, hsameChild⟩ := hold c (by simp [hchild, PipePc.Forks])
    rw [frame.table c hneChild, frame.table q hne]
    exact ⟨⟨n, hsameChild.trans hchild⟩, htable⟩
  · intro q q' c hpc hpc'
    obtain ⟨_, hsame⟩ := hforks q (by simp [hpc, PipePc.Forks])
    obtain ⟨_, hsame'⟩ := hforks q' (by simp [hpc', PipePc.Forks])
    exact inv.parent q q' c (hsame ▸ hpc) (hsame' ▸ hpc')
  · intro q point fd e exiting hpc
    by_cases heq : q = p
    · exact hclosing point fd e exiting (heq ▸ hpc)
    · exact hzero e (inv.closing q point fd e exiting (frame.pc q heq ▸ hpc))

/-- Fewer slots are counted when the slots that the moving process has counted were counted before. -/
theorem OnlyMoves.counted_subset {s s' : PipeState P} {p : P} {e : PipeEnd} (frame : OnlyMoves p s s')
    (h : ∀ fd, s'.table p fd = some e → (s'.pc p).Counted fd →
      s.table p fd = some e ∧ (s.pc p).Counted fd) : s'.counted e ⊆ s.counted e := by
  rintro ⟨q, fd⟩ ⟨hslot, hcounted⟩
  by_cases heq : q = p
  · subst heq
    exact h fd hslot hcounted
  · exact ⟨frame.table q heq ▸ hslot, frame.pc q heq ▸ hcounted⟩

/-- Closing a slot: its reference leaves the counted ones. -/
theorem PipeInvariant.drop {s s' : PipeState P} {p : P} {fd : Nat} {e : PipeEnd} (inv : PipeInvariant s)
    (frame : OnlyMoves p s s') (hslot : s.table p fd = some e) (hcounted : (s.pc p).Counted fd)
    (hrest : ∀ f e', s'.table p f = some e' → s.table p f = some e' ∧
      ((s'.pc p).Counted f → (s.pc p).Counted f ∧ f ≠ fd))
    (hcount : s'.refCount = Function.update s.refCount e (s.refCount e - 1)) (hfifo : s'.fifo = s.fifo)
    (hbefore : ¬(s.pc p).Forks) (hafter : ¬(s'.pc p).Forks)
    (hduplicating : ∀ f newfd e', s'.pc p ≠ .duplicating f newfd e')
    (hclosing : ∀ point f e' exiting, s'.pc p = .closing point f e' exiting → s'.refCount e' = 0) :
    PipeInvariant s' := by
  have hzero : ∀ e', s.refCount e' = 0 → s'.refCount e' = 0 := by
    intro e' h
    rw [hcount]
    by_cases heq : e' = e
    · simp [heq, heq ▸ h]
    · simpa [Function.update_of_ne heq] using h
  apply inv.of_moves frame hbefore hafter
  · intro e'
    have hsubset : s'.counted e' ⊆ s.counted e' :=
      frame.counted_subset fun f h hc => ⟨(hrest f e' h).1, ((hrest f e' h).2 hc).1⟩
    by_cases heq : e' = e
    · subst heq
      have hmem : (p, fd) ∈ s.counted e' := ⟨hslot, hcounted⟩
      have hnot : (p, fd) ∉ s'.counted e' := fun h => ((hrest fd e' h.1).2 h.2).2 rfl
      have hcard : (s'.counted e').encard + 1 ≤ s.refCount e' := by
        rw [← Set.encard_insert_of_notMem hnot]
        exact (Set.encard_le_encard (Set.insert_subset hmem hsubset)).trans (inv.counted e')
      rw [hcount, Function.update_self, ENat.natCast_sub]
      exact ENat.le_sub_of_add_le_right (by simp) hcard
    · rw [hcount, Function.update_of_ne heq]
      exact (Set.encard_le_encard hsubset).trans (inv.counted e')
  · exact fun f e' h => inv.bounded p f e' (hrest f e' h).1
  · exact fun f newfd e' h => absurd h (hduplicating f newfd e')
  · exact hclosing
  · exact hzero
  · intro e' h
    rw [hfifo]
    apply inv.opened e'
    by_contra hpos
    rw [hzero e' (Nat.eq_zero_of_not_pos hpos)] at h
    exact absurd h (lt_irrefl 0)

/-- Taking references does not hide a counted slot, when at most one more slot is counted. -/
theorem PipeInvariant.addRef_encard {s s' : PipeState P} (inv : PipeInvariant s) {e : PipeEnd} {x : P × Nat}
    (hcount : s'.refCount = Function.update s.refCount e (s.refCount e + 1))
    (hsubset : ∀ e', s'.counted e' ⊆ insert x (s.counted e'))
    (hsame : ∀ e', e' ≠ e → x ∉ s'.counted e') (e' : PipeEnd) :
    (s'.counted e').encard ≤ s'.refCount e' := by
  by_cases heq : e' = e
  · subst heq
    rw [hcount, Function.update_self, Nat.cast_add, Nat.cast_one]
    exact (Set.encard_le_encard (hsubset e')).trans
      ((Set.encard_insert_le _ x).trans (add_le_add_left (inv.counted e') 1))
  · rw [hcount, Function.update_of_ne heq]
    have hsub : s'.counted e' ⊆ s.counted e' := by
      intro y hy
      rcases hsubset e' hy with rfl | h
      · exact absurd hy (hsame e' heq)
      · exact h
    exact (Set.encard_le_encard hsub).trans (inv.counted e')

/-- Taking one more reference to a description that has one. -/
theorem PipeInvariant.addRef_counts {s : PipeState P} (inv : PipeInvariant s) {e : PipeEnd}
    (hpos : 0 < s.refCount e) (e' : PipeEnd) :
    (s.refCount e' = 0 → (s.addRef e).refCount e' = 0) ∧
      (0 < (s.addRef e).refCount e' → s.fifo.opened e' ≠ 0) := by
  by_cases heq : e' = e
  · subst heq
    exact ⟨fun h => absurd h (Nat.ne_of_gt hpos), fun _ => inv.opened e' hpos⟩
  · simpa [PipeState.addRef, Function.update_of_ne heq] using inv.opened e'

theorem PipeInvariant.setFifo {s : PipeState P} (inv : PipeInvariant s) (fifo : Fifo)
    (hopened : ∀ e, 0 < s.refCount e → fifo.opened e ≠ 0) : PipeInvariant { s with fifo := fifo } :=
  ⟨inv.counted, inv.bounded, inv.duplicating, inv.embryo, inv.forking, inv.parent, inv.closing, hopened⟩

variable [DecidableEq P]

theorem OnlyMoves.setPc (s : PipeState P) (p : P) (pc : PipePc P) : OnlyMoves p s (s.setPc p pc) :=
  ⟨fun _ _ => rfl, fun _ hne => Function.update_of_ne hne _ _⟩

theorem OnlyMoves.setSlot (s : PipeState P) (p : P) (fd : Nat) (slot : Option PipeEnd) :
    OnlyMoves p s (s.setSlot p fd slot) :=
  ⟨fun _ hne => Function.update_of_ne hne _ _, fun _ _ => rfl⟩

@[simp] theorem PipeState.setPc_pc (s : PipeState P) (p : P) (pc : PipePc P) : (s.setPc p pc).pc p = pc :=
  Function.update_self _ _ _

@[simp] theorem PipeState.setPc_table (s : PipeState P) (p : P) (pc : PipePc P) :
    (s.setPc p pc).table = s.table := rfl

@[simp] theorem PipeState.setPc_refCount (s : PipeState P) (p : P) (pc : PipePc P) :
    (s.setPc p pc).refCount = s.refCount := rfl

@[simp] theorem PipeState.setPc_fifo (s : PipeState P) (p : P) (pc : PipePc P) :
    (s.setPc p pc).fifo = s.fifo := rfl

@[simp] theorem PipeState.setSlot_table (s : PipeState P) (p : P) (fd : Nat) (slot : Option PipeEnd) :
    (s.setSlot p fd slot).table p = Function.update (s.table p) fd slot :=
  Function.update_self _ _ _

/-- A process that keeps its table and counts no further slot. -/
theorem PipeInvariant.setPc {s : PipeState P} (inv : PipeInvariant s) {p : P} (pc : PipePc P)
    (hbefore : ¬(s.pc p).Forks) (hafter : ¬pc.Forks) (hduplicating : ∀ fd newfd e, pc ≠ .duplicating fd newfd e)
    (hclosing : ∀ point fd e exiting, pc = .closing point fd e exiting → s.refCount e = 0)
    (hcounted : ∀ fd, pc.Counted fd → (s.pc p).Counted fd) : PipeInvariant (s.setPc p pc) := by
  apply inv.of_moves (.setPc s p pc) hbefore
  · simpa using hafter
  · intro e
    have hsubset : (s.setPc p pc).counted e ⊆ s.counted e := by
      apply (OnlyMoves.setPc s p pc).counted_subset
      intro fd hslot h
      exact ⟨hslot, hcounted fd (by simpa using h)⟩
    exact (Set.encard_le_encard hsubset).trans (inv.counted e)
  · exact inv.bounded p
  · intro fd newfd e hpc
    exact absurd (by simpa using hpc) (hduplicating fd newfd e)
  · simpa using hclosing
  · exact fun _ h => h
  · exact inv.opened

section AfterClose

variable (s : PipeState P) (p : P) (fd : Nat) (exiting : Bool)

theorem OnlyMoves.afterClose : OnlyMoves p s (s.afterClose p fd exiting) := by
  cases exiting with
  | true => exact .setPc s p (.exiting (fd + 1))
  | false => exact (OnlyMoves.setSlot s p fd none).trans (.setPc _ p .outside)

theorem PipeState.afterClose_pc :
    (s.afterClose p fd exiting).pc p = if exiting then .exiting (fd + 1) else .outside := by
  cases exiting <;> simp [afterClose]

@[simp] theorem PipeState.afterClose_refCount : (s.afterClose p fd exiting).refCount = s.refCount := by
  cases exiting <;> rfl

variable {s p fd exiting}

theorem PipeState.slot_of_afterClose {f : Nat} {e : PipeEnd}
    (h : (s.afterClose p fd exiting).table p f = some e) :
    s.table p f = some e ∧ (exiting = false → f ≠ fd) := by
  cases exiting with
  | true => exact ⟨h, nofun⟩
  | false =>
      by_cases heq : f = fd
      · simp [afterClose, heq] at h
      · exact ⟨by simpa [afterClose, Function.update_of_ne heq] using h, fun _ => heq⟩

/-- The slots behind a closed one are counted in the same way as while it was being closed. -/
theorem PipeState.counted_of_afterClose {f : Nat} {e : PipeEnd}
    (h : (s.afterClose p fd exiting).table p f = some e)
    (hcounted : ((s.afterClose p fd exiting).pc p).Counted f) (point : ClosePoint) (e' : PipeEnd) :
    (PipePc.closing (P := P) point fd e' exiting).Counted f := by
  rw [afterClose_pc] at hcounted
  cases exiting with
  | true => exact hcounted
  | false => exact (slot_of_afterClose h).2 rfl

end AfterClose

/-- The start of `file_description_close`, for a slot that `sys_close` or an exit has looked up. -/
theorem PipeInvariant.dropRef {s : PipeState P} {p : P} {fd : Nat} {e : PipeEnd} {exiting : Bool}
    (inv : PipeInvariant s) (hslot : s.table p fd = some e)
    (hpc : s.pc p = if exiting then .exiting fd else .outside) :
    PipeInvariant (s.dropRef p fd e exiting) := by
  have hbefore : ¬(s.pc p).Forks := by
    cases exiting <;> simp [hpc, PipePc.Forks]
  have hcounted : (s.pc p).Counted fd := by
    cases exiting <;> simp [hpc, PipePc.Counted]
  have hrest : ∀ f, (PipePc.closing (P := P) .fopsClose fd e exiting).Counted f →
      (s.pc p).Counted f ∧ f ≠ fd := by
    intro f hf
    cases exiting with
    | true => exact ⟨by simpa [hpc, PipePc.Counted] using Nat.le_of_lt hf, Nat.ne_of_gt hf⟩
    | false => exact ⟨by simp [hpc, PipePc.Counted], hf⟩
  unfold PipeState.dropRef
  split_ifs with hmore
  · have hpcAfter := PipeState.afterClose_pc
      { s with refCount := Function.update s.refCount e (s.refCount e - 1) } p fd exiting
    have hframe := OnlyMoves.afterClose
      { s with refCount := Function.update s.refCount e (s.refCount e - 1) } p fd exiting
    refine inv.drop ⟨hframe.table, hframe.pc⟩ hslot hcounted ?_ (by simp) (by simp) hbefore ?_ ?_ ?_
    · intro f e' h
      exact ⟨(PipeState.slot_of_afterClose h).1,
        fun hc => hrest f (PipeState.counted_of_afterClose h hc .fopsClose e)⟩
    · cases exiting <;> simp [hpcAfter, PipePc.Forks]
    · intro f newfd e'
      cases exiting <;> simp [hpcAfter]
    · intro point f e' ex
      cases exiting <;> simp [hpcAfter]
  · refine inv.drop ⟨fun _ _ => rfl, fun q hne => Function.update_of_ne hne _ _⟩ hslot hcounted ?_ rfl rfl
      hbefore (by simp [PipePc.Forks]) (by simp) ?_
    · exact fun f e' h => ⟨h, fun hc => hrest f (by simpa using hc)⟩
    · intro point f e' ex h
      simp only [PipeState.setPc_pc, PipePc.closing.injEq] at h
      obtain ⟨_, _, rfl, _⟩ := h
      simpa using Nat.eq_zero_of_not_pos hmore

/-- The end of `file_description_close`, when the description has been freed. -/
theorem PipeInvariant.afterClose {s : PipeState P} {p : P} {fd : Nat} {e : PipeEnd} {point : ClosePoint}
    {exiting : Bool} (inv : PipeInvariant s) (hpc : s.pc p = .closing point fd e exiting) :
    PipeInvariant (s.afterClose p fd exiting) := by
  have hpcAfter := PipeState.afterClose_pc s p fd exiting
  have hframe := OnlyMoves.afterClose s p fd exiting
  apply inv.of_moves hframe (by simp [hpc, PipePc.Forks])
  · cases exiting <;> simp [hpcAfter, PipePc.Forks]
  · intro e'
    have hsubset : (s.afterClose p fd exiting).counted e' ⊆ s.counted e' := by
      apply hframe.counted_subset
      intro f h hc
      rw [hpc]
      exact ⟨(PipeState.slot_of_afterClose h).1, PipeState.counted_of_afterClose h hc point e⟩
    simpa using (Set.encard_le_encard hsubset).trans (inv.counted e')
  · exact fun f e' h => inv.bounded p f e' (PipeState.slot_of_afterClose h).1
  · intro f newfd e'
    cases exiting <;> simp [hpcAfter]
  · intro point' f e' ex
    cases exiting <;> simp [hpcAfter]
  · simp
  · simpa using inv.opened

/-- `F_DUPFD` fills a slot before it takes the reference. -/
theorem PipeInvariant.dup {s : PipeState P} {p : P} {fd newfd : Nat} {e : PipeEnd} (inv : PipeInvariant s)
    (hpc : s.pc p = .outside) (hslot : s.table p fd = some e) (hfree : s.table p newfd = none)
    (hnewfd : newfd < OPEN_MAX) :
    PipeInvariant ((s.setSlot p newfd (some e)).setPc p (.duplicating fd newfd e)) := by
  have hne : fd ≠ newfd := by
    rintro rfl
    simp [hfree] at hslot
  have hframe := (OnlyMoves.setSlot s p newfd (some e)).trans (.setPc _ p (.duplicating fd newfd e))
  apply inv.of_moves hframe
  · simp [hpc, PipePc.Forks]
  · simp [PipePc.Forks]
  · intro e'
    have hsubset : ((s.setSlot p newfd (some e)).setPc p (.duplicating fd newfd e)).counted e' ⊆
        s.counted e' := by
      apply hframe.counted_subset
      intro f h hc
      rw [PipeState.setPc_pc] at hc
      have hold : f ≠ newfd := hc
      exact ⟨by simpa [Function.update_of_ne hold] using h, by simp [hpc, PipePc.Counted]⟩
    exact (Set.encard_le_encard hsubset).trans (inv.counted e')
  · intro f e' h
    by_cases heq : f = newfd
    · exact heq ▸ hnewfd
    · exact inv.bounded p f e' (by simpa [Function.update_of_ne heq] using h)
  · intro f newfd' e' h
    simp only [PipeState.setPc_pc, PipePc.duplicating.injEq] at h
    obtain ⟨rfl, rfl, rfl⟩ := h
    simpa [Function.update_of_ne hne, hne] using hslot
  · simp
  · exact fun _ h => h
  · exact inv.opened

theorem PipeInvariant.dupRef {s : PipeState P} {p : P} {fd newfd : Nat} {e : PipeEnd}
    (inv : PipeInvariant s) (hpc : s.pc p = .duplicating fd newfd e) :
    PipeInvariant ((s.addRef e).setPc p .outside) := by
  obtain ⟨hslot, hne, hnew⟩ := inv.duplicating p fd newfd e hpc
  have hmem : (p, fd) ∈ s.counted e := ⟨hslot, by simpa [hpc, PipePc.Counted] using hne⟩
  have hcounts := inv.addRef_counts (inv.refCount_pos hmem)
  have hframe : OnlyMoves p s ((s.addRef e).setPc p .outside) :=
    ⟨fun _ _ => rfl, fun q hq => Function.update_of_ne hq _ _⟩
  apply inv.of_moves hframe
  · simp [hpc, PipePc.Forks]
  · simp [PipePc.Forks]
  · apply inv.addRef_encard (x := (p, newfd)) rfl
    · rintro e' ⟨q, f⟩ ⟨hheld, hc⟩
      by_cases heq : q = p
      · subst heq
        by_cases hf : f = newfd
        · exact Or.inl (by rw [hf])
        · exact Or.inr ⟨hheld, by simpa [hpc, PipePc.Counted] using hf⟩
      · exact Or.inr ⟨hheld, hframe.pc q heq ▸ hc⟩
    · rintro e' hne' ⟨hheld, _⟩
      have hheld' : s.table p newfd = some e' := hheld
      exact hne' (Option.some.inj (hheld'.symm.trans hnew))
  · exact inv.bounded p
  · simp
  · simp
  · exact fun e' => (hcounts e').1
  · exact fun e' => (hcounts e').2

theorem PipeInvariant.fork {s : PipeState P} {p child : P} (inv : PipeInvariant s)
    (hpc : s.pc p = .outside) (hchild : s.pc child = .unborn) :
    PipeInvariant (({ s with table := Function.update s.table child (s.table p) }.setPc child
      (.embryo 0)).setPc p (.forking child)) := by
  have hne : p ≠ child := by
    rintro rfl
    simp [hpc] at hchild
  generalize hnext : ({ s with table := Function.update s.table child (s.table p) }.setPc child
    (.embryo 0)).setPc p (.forking child) = s'
  have hpcAt : ∀ q, s'.pc q = if q = p then .forking child else if q = child then .embryo 0 else s.pc q := by
    intro q
    subst hnext
    simp [PipeState.setPc, Function.update_apply]
  have htableAt : ∀ q, s'.table q = if q = child then s.table p else s.table q := by
    intro q
    subst hnext
    simp [PipeState.setPc, Function.update_apply]
  have hrefs : s'.refCount = s.refCount ∧ s'.fifo = s.fifo := by
    subst hnext
    exact ⟨rfl, rfl⟩
  have hold : ∀ q, (s.pc q).Forks → q ≠ p ∧ q ≠ child := by
    intro q hq
    constructor
    · rintro rfl
      simp [hpc, PipePc.Forks] at hq
    · rintro rfl
      simp [hchild, PipePc.Forks] at hq
  refine ⟨?_, ?_, ?_, ?_, ?_, ?_, ?_, ?_⟩
  · intro e
    have hsubset : s'.counted e ⊆ s.counted e := by
      rintro ⟨q, fd⟩ ⟨hslot, hc⟩
      simp only [hpcAt, htableAt] at hslot hc
      split_ifs at hslot hc with h1 h2 h3
      · exact absurd (h2.symm.trans h1) hne
      · simp [PipePc.Counted] at hc
      · subst h3
        exact ⟨hslot, by simp [hpc, PipePc.Counted]⟩
      · exact ⟨hslot, hc⟩
    rw [hrefs.1]
    exact (Set.encard_le_encard hsubset).trans (inv.counted e)
  · intro q fd e hslot
    rw [htableAt] at hslot
    split_ifs at hslot with h
    · exact inv.bounded p fd e hslot
    · exact inv.bounded q fd e hslot
  · intro q fd newfd e hq
    rw [hpcAt] at hq
    split_ifs at hq with h1 h2
    rw [htableAt, if_neg h2]
    exact inv.duplicating q fd newfd e hq
  · intro c n hc
    rw [hpcAt] at hc
    split_ifs at hc with h1 h2
    · exact ⟨p, by simp [hpcAt, h2]⟩
    · obtain ⟨parent, hparent⟩ := inv.embryo c n hc
      obtain ⟨h3, h4⟩ := hold parent (by simp [hparent, PipePc.Forks])
      exact ⟨parent, by rw [hpcAt, if_neg h3, if_neg h4, hparent]⟩
  · intro q c hq
    rw [hpcAt] at hq
    split_ifs at hq with h1 h2
    · obtain rfl := PipePc.forking.inj hq
      refine ⟨⟨0, ?_⟩, ?_⟩
      · rw [hpcAt, if_neg hne.symm, if_pos rfl]
      · rw [htableAt, if_pos rfl, htableAt, h1, if_neg hne]
    · obtain ⟨⟨n, hc⟩, htable⟩ := inv.forking q c hq
      obtain ⟨h3, h4⟩ := hold c (by simp [hc, PipePc.Forks])
      rw [htableAt, if_neg h4, htableAt, if_neg h2]
      exact ⟨⟨n, by rw [hpcAt, if_neg h3, if_neg h4, hc]⟩, htable⟩
  · intro q q' c hq hq'
    rw [hpcAt] at hq hq'
    have hfree : ∀ r, s.pc r ≠ .forking child := by
      intro r hr
      obtain ⟨⟨n, hn⟩, _⟩ := inv.forking r child hr
      simp [hchild] at hn
    split_ifs at hq hq' with h1 h2 h3 h4
    · rw [h1, h2]
    · obtain rfl := PipePc.forking.inj hq
      exact absurd hq' (hfree q')
    · obtain rfl := PipePc.forking.inj hq'
      exact absurd hq (hfree q)
    · exact inv.parent q q' c hq hq'
  · intro q point fd e exiting hq
    rw [hpcAt] at hq
    split_ifs at hq
    rw [hrefs.1]
    exact inv.closing q point fd e exiting hq
  · rw [hrefs.1, hrefs.2]
    exact inv.opened

/-- The end of a `fork`: the child starts, or is given up and the references counted for it stay. -/
theorem PipeInvariant.forkEnd {s : PipeState P} {p child : P} {counted : Nat} (inv : PipeInvariant s)
    (hpc : s.pc p = .forking child) (hchild : s.pc child = .embryo counted) {pc : PipePc P}
    (hend : pc = .unborn ∨ counted = OPEN_MAX ∧ pc = .outside) :
    PipeInvariant ((s.setPc child pc).setPc p .outside) := by
  generalize hnext : (s.setPc child pc).setPc p .outside = s'
  have hpcAt : ∀ q, s'.pc q = if q = p then .outside else if q = child then pc else s.pc q := by
    intro q
    subst hnext
    simp [PipeState.setPc, Function.update_apply]
  obtain ⟨htable, hrefs, hfifo⟩ : s'.table = s.table ∧ s'.refCount = s.refCount ∧ s'.fifo = s.fifo := by
    subst hnext
    exact ⟨rfl, rfl, rfl⟩
  have hends : ¬pc.Forks := by
    rcases hend with rfl | ⟨_, rfl⟩ <;> simp [PipePc.Forks]
  have hnew : ∀ q, (s'.pc q).Forks → q ≠ p ∧ q ≠ child ∧ s'.pc q = s.pc q := by
    intro q hq
    rw [hpcAt] at hq ⊢
    split_ifs at hq with h1 h2
    · simp [PipePc.Forks] at hq
    · exact absurd hq hends
    · exact ⟨h1, h2, by rw [if_neg h1, if_neg h2]⟩
  refine ⟨?_, ?_, ?_, ?_, ?_, ?_, ?_, ?_⟩
  · intro e
    have hsubset : s'.counted e ⊆ s.counted e := by
      rintro ⟨q, fd⟩ ⟨hslot, hc⟩
      simp only [hpcAt, htable] at hslot hc
      refine ⟨hslot, ?_⟩
      split_ifs at hc with h1 h2
      · simp [h1, hpc, PipePc.Counted]
      · rcases hend with rfl | ⟨rfl, rfl⟩
        · simp [PipePc.Counted] at hc
        · simpa [h2, hchild, PipePc.Counted] using inv.bounded q fd e hslot
      · exact hc
    rw [hrefs]
    exact (Set.encard_le_encard hsubset).trans (inv.counted e)
  · rw [htable]
    exact inv.bounded
  · intro q fd newfd e hq
    rw [htable]
    rw [hpcAt] at hq
    split_ifs at hq with h1 h2
    · rcases hend with rfl | ⟨_, rfl⟩ <;> simp at hq
    · exact inv.duplicating q fd newfd e hq
  · intro c n hc
    obtain ⟨_, h2, h3⟩ := hnew c (by simp [hc, PipePc.Forks])
    obtain ⟨parent, hparent⟩ := inv.embryo c n (h3 ▸ hc)
    have h4 : parent ≠ p := by
      rintro rfl
      exact h2 (PipePc.forking.inj (hparent.symm.trans hpc))
    have h5 : parent ≠ child := by
      rintro rfl
      simp [hchild] at hparent
    exact ⟨parent, by rw [hpcAt, if_neg h4, if_neg h5, hparent]⟩
  · intro q c hq
    obtain ⟨h1, h2, h3⟩ := hnew q (by simp [hq, PipePc.Forks])
    have hq' : s.pc q = .forking c := h3 ▸ hq
    obtain ⟨⟨n, hc⟩, hsame⟩ := inv.forking q c hq'
    have h4 : c ≠ p := by
      rintro rfl
      simp [hpc] at hc
    have h5 : c ≠ child := by
      rintro rfl
      exact h1 (inv.parent q p c hq' hpc)
    rw [htable]
    exact ⟨⟨n, by rw [hpcAt, if_neg h4, if_neg h5, hc]⟩, hsame⟩
  · intro q q' c hq hq'
    obtain ⟨_, _, h3⟩ := hnew q (by simp [hq, PipePc.Forks])
    obtain ⟨_, _, h3'⟩ := hnew q' (by simp [hq', PipePc.Forks])
    exact inv.parent q q' c (h3 ▸ hq) (h3' ▸ hq')
  · intro q point fd e exiting hq
    rw [hrefs]
    rw [hpcAt] at hq
    split_ifs at hq with h1 h2
    · rcases hend with rfl | ⟨_, rfl⟩ <;> simp at hq
    · exact inv.closing q point fd e exiting hq
  · rw [hrefs, hfifo]
    exact inv.opened

/-- One more entry of the table of a child is counted, with any change of the counts that covers it. -/
theorem PipeInvariant.advance {s : PipeState P} {child : P} {counted : Nat} (inv : PipeInvariant s)
    (s' : PipeState P) (hchild : s.pc child = .embryo counted)
    (hpc : s'.pc = Function.update s.pc child (.embryo (counted + 1))) (htable : s'.table = s.table)
    (hcounted : ∀ e, (s'.counted e).encard ≤ s'.refCount e)
    (hcounts : ∀ e, (s.refCount e = 0 → s'.refCount e = 0) ∧ (0 < s'.refCount e → s'.fifo.opened e ≠ 0)) :
    PipeInvariant s' := by
  have hne : ∀ q, q ≠ child → s'.pc q = s.pc q := by
    intro q h
    rw [hpc, Function.update_of_ne h]
  have hself : s'.pc child = .embryo (counted + 1) := by
    rw [hpc, Function.update_self]
  have hold : ∀ q, (∀ n, s'.pc q ≠ .embryo n) → s'.pc q = s.pc q := by
    intro q hq
    apply hne
    rintro rfl
    exact hq _ hself
  refine ⟨hcounted, ?_, ?_, ?_, ?_, ?_, ?_, fun e => (hcounts e).2⟩
  · rw [htable]
    exact inv.bounded
  · intro q fd newfd e hq
    rw [htable]
    exact inv.duplicating q fd newfd e (hold q (by simp [hq]) ▸ hq)
  · intro c n hc
    have hembryo : ∃ m, s.pc c = .embryo m := by
      by_cases heq : c = child
      · exact ⟨counted, heq ▸ hchild⟩
      · exact ⟨n, hne c heq ▸ hc⟩
    obtain ⟨m, hm⟩ := hembryo
    obtain ⟨parent, hparent⟩ := inv.embryo c m hm
    refine ⟨parent, ?_⟩
    rw [hne parent, hparent]
    rintro rfl
    simp [hchild] at hparent
  · intro q c hq
    obtain ⟨⟨n, hc⟩, hsame⟩ := inv.forking q c (hold q (by simp [hq]) ▸ hq)
    rw [htable]
    refine ⟨?_, hsame⟩
    by_cases heq : c = child
    · exact ⟨counted + 1, heq ▸ hself⟩
    · exact ⟨n, (hne c heq).trans hc⟩
  · intro q q' c hq hq'
    exact inv.parent q q' c (hold q (by simp [hq]) ▸ hq) (hold q' (by simp [hq']) ▸ hq')
  · intro q point fd e exiting hq
    exact (hcounts e).1 (inv.closing q point fd e exiting (hold q (by simp [hq]) ▸ hq))

theorem PipeInvariant.forkEntry {s : PipeState P} {p child : P} {counted : Nat} (inv : PipeInvariant s)
    (hpc : s.pc p = .forking child) (hchild : s.pc child = .embryo counted) :
    PipeInvariant ((match s.table p counted with
      | some e => s.addRef e
      | none => s).setPc child (.embryo (counted + 1))) := by
  have htable := (inv.forking p child hpc).2
  have hslots : ∀ (t : PipeState P), t.table = s.table → t.pc = s.pc → ∀ e,
      (t.setPc child (.embryo (counted + 1))).counted e ⊆ insert (child, counted) (s.counted e) := by
    rintro t ht hpcs e ⟨q, fd⟩ ⟨hslot, hc⟩
    simp only [PipeState.setPc_table, ht] at hslot
    by_cases heq : q = child
    · subst heq
      simp only [PipeState.setPc_pc, PipePc.Counted] at hc
      rcases Nat.lt_succ_iff_lt_or_eq.1 hc with h | rfl
      · exact Or.inr ⟨hslot, by simpa [hchild, PipePc.Counted] using h⟩
      · exact Or.inl rfl
    · simp only [PipeState.setPc, Function.update_of_ne heq, hpcs] at hc
      exact Or.inr ⟨hslot, hc⟩
  cases hentry : s.table p counted with
  | none =>
      apply inv.advance (s.setPc child (.embryo (counted + 1))) hchild rfl rfl
      · intro e
        have hsubset : (s.setPc child (.embryo (counted + 1))).counted e ⊆ s.counted e := by
          intro x hx
          rcases hslots s rfl rfl e hx with rfl | h
          · have hheld : s.table child counted = some e := hx.1
            simp [htable, hentry] at hheld
          · exact h
        exact (Set.encard_le_encard hsubset).trans (inv.counted e)
      · exact fun e => ⟨id, inv.opened e⟩
  | some e =>
      have hmem : (p, counted) ∈ s.counted e := ⟨hentry, by simp [hpc, PipePc.Counted]⟩
      apply inv.advance ((s.addRef e).setPc child (.embryo (counted + 1))) hchild rfl rfl
      · apply inv.addRef_encard rfl (hslots (s.addRef e) rfl rfl)
        rintro e' hne ⟨hheld, _⟩
        have hheld' : s.table child counted = some e' := hheld
        rw [htable, hentry] at hheld'
        exact hne (Option.some.inj hheld').symm
      · exact inv.addRef_counts (inv.refCount_pos hmem)

/-- The process is in user mode, or waits in a call. -/
def PipePc.Plain : PipePc P → Prop
  | .outside | .reading _ _ | .writing _ _ => True
  | _ => False

theorem PipeInvariant.setPlain {s : PipeState P} (inv : PipeInvariant s) {p : P} {pc : PipePc P}
    (hbefore : (s.pc p).Plain) (hafter : pc.Plain) : PipeInvariant (s.setPc p pc) := by
  apply inv.setPc pc
  · cases hpc : s.pc p <;> simp [hpc, PipePc.Plain, PipePc.Forks] at hbefore ⊢
  · cases pc <;> simp [PipePc.Plain, PipePc.Forks] at hafter ⊢
  · rintro fd newfd e rfl
    exact hafter
  · rintro point fd e exiting rfl
    exact absurd hafter id
  · intro fd _
    cases hpc : s.pc p <;> simp [hpc, PipePc.Plain, PipePc.Counted] at hbefore ⊢

/-! ### Steps and runs -/

theorem opened_fifoReadSection (fifo : Fifo) (count : Nat) (e : PipeEnd) :
    (fifoReadSection fifo count).2.opened e = fifo.opened e := by
  unfold fifoReadSection
  split_ifs <;> cases e <;> rfl

theorem opened_fifoWriteSection (fifo : Fifo) (bytes : List UInt8) (e : PipeEnd) :
    (fifoWriteSection fifo bytes).2.opened e = fifo.opened e := by
  unfold fifoWriteSection
  split_ifs <;> cases e <;> rfl

/-- `fifo_close` leaves the number that the other description counts in. -/
theorem opened_fifoClose {e e' : PipeEnd} (hne : e' ≠ e) (fifo : Fifo) :
    (fifoClose fifo e.flags).opened e' = fifo.opened e' := by
  cases e <;> cases e' <;> first | exact absurd rfl hne | rfl

theorem pipeInvariant_step {s s' : PipeState P} {e : PipeEvent P} (inv : PipeInvariant s)
    (hstep : PipeStep s e s') : PipeInvariant s' := by
  cases hstep with
  | readCall count hpc _ _ => exact inv.setPlain (by simp [hpc, PipePc.Plain]) trivial
  | writeCall count hpc _ _ => exact inv.setPlain (by simp [hpc, PipePc.Plain]) trivial
  | readUnblocked hpc _ => exact inv.setPlain (by simp [hpc, PipePc.Plain]) trivial
  | writeUnblocked hpc _ => exact inv.setPlain (by simp [hpc, PipePc.Plain]) trivial
  | readInterrupted hpc => exact inv.setPlain (by simp [hpc, PipePc.Plain]) trivial
  | writeInterrupted hpc => exact inv.setPlain (by simp [hpc, PipePc.Plain]) trivial
  | @readSection p count hpc =>
      have inv' := inv.setFifo (fifoReadSection s.fifo count).2 fun e h =>
        opened_fifoReadSection s.fifo count e ▸ inv.opened e h
      apply inv'.setPlain (by simp [hpc, PipePc.Plain])
      split <;> exact trivial
  | @writeSection p bytes hpc =>
      have inv' := inv.setFifo (fifoWriteSection s.fifo bytes).2 fun e h =>
        opened_fifoWriteSection s.fifo bytes e ▸ inv.opened e h
      apply inv'.setPlain (by simp [hpc, PipePc.Plain])
      split <;> exact trivial
  | dup hpc hslot hfree hnewfd => exact inv.dup hpc hslot hfree hnewfd
  | dupRef hpc => exact inv.dupRef hpc
  | close hpc hslot _ => exact inv.dropRef hslot hpc
  | @closeFops p fd e exiting hpc =>
      have hzero := inv.closing p .fopsClose fd e exiting hpc
      have inv' := inv.setFifo (fifoClose s.fifo e.flags) fun e' h => by
        have hne : e' ≠ e := by
          rintro rfl
          exact Nat.ne_of_gt h hzero
        rw [opened_fifoClose hne]
        exact inv.opened e' h
      apply inv'.setPc _ (by simp [hpc, PipePc.Forks]) (by simp [PipePc.Forks]) (by simp)
      · rintro point fd' e' ex ⟨⟩
        exact hzero
      · cases exiting <;> simp [hpc, PipePc.Counted]
  | closeRelease hpc => exact inv.afterClose hpc
  | fork hpc hchild => exact inv.fork hpc hchild
  | forkEntry hpc hchild _ => exact inv.forkEntry hpc hchild
  | forkReturn hpc hchild => exact inv.forkEnd hpc hchild (Or.inr ⟨rfl, rfl⟩)
  | forkFail hpc hchild _ => exact inv.forkEnd hpc hchild (Or.inl rfl)
  | exit hpc =>
      exact inv.setPc _ (by simp [hpc, PipePc.Forks]) (by simp [PipePc.Forks]) (by simp) (by simp)
        (by simp [hpc, PipePc.Counted])
  | exitSlot hpc _ hslot _ => exact inv.dropRef hslot hpc
  | exitEmptySlot hpc _ _ =>
      apply inv.setPc _ (by simp [hpc, PipePc.Forks]) (by simp [PipePc.Forks]) (by simp) (by simp)
      intro f hf
      simpa [hpc, PipePc.Counted] using Nat.le_of_lt hf
  | exitReturn hpc =>
      exact inv.setPc _ (by simp [hpc, PipePc.Forks]) (by simp [PipePc.Forks]) (by simp) (by simp)
        (by simp [PipePc.Counted])

theorem pipeInvariant_sysPipe {innerBuf : Nat → UInt8} {p : P} {readerFd writerFd : Nat}
    (hreader : readerFd < OPEN_MAX) (hwriter : writerFd < OPEN_MAX) :
    PipeInvariant (PipeState.sysPipe innerBuf p readerFd writerFd) := by
  have hpcAt : ∀ q, (PipeState.sysPipe innerBuf p readerFd writerFd).pc q =
      if q = p then .outside else .unborn := by
    intro q
    simp [PipeState.sysPipe, Function.update_apply]
  have hslot : ∀ q fd e, (PipeState.sysPipe innerBuf p readerFd writerFd).table q fd = some e →
      (q, fd) = (p, if e = .reader then readerFd else writerFd) := by
    intro q fd e h
    by_cases heq : q = p
    · subst heq
      simp only [PipeState.sysPipe, Function.update_self, Function.update_apply] at h
      split_ifs at h with h1 h2
      · obtain rfl := Option.some.inj h
        simp [h1]
      · obtain rfl := Option.some.inj h
        simp [h2]
    · simp [PipeState.sysPipe, Function.update_of_ne heq] at h
  refine ⟨?_, ?_, ?_, ?_, ?_, ?_, ?_, ?_⟩
  · intro e
    have hsubset : (PipeState.sysPipe innerBuf p readerFd writerFd).counted e ⊆
        {(p, if e = .reader then readerFd else writerFd)} := fun x hx => hslot x.1 x.2 e hx.1
    exact (Set.encard_le_encard hsubset).trans (by simp [PipeState.sysPipe])
  · intro q fd e h
    have := congrArg Prod.snd (hslot q fd e h)
    simp only at this
    rw [this]
    split_ifs
    · exact hreader
    · exact hwriter
  · intro q fd newfd e h
    rw [hpcAt] at h
    split_ifs at h
  · intro c n h
    rw [hpcAt] at h
    split_ifs at h
  · intro q c h
    rw [hpcAt] at h
    split_ifs at h
  · intro q q' c h
    rw [hpcAt] at h
    split_ifs at h
  · intro q point fd e exiting h
    rw [hpcAt] at h
    split_ifs at h
  · intro e _
    cases e <;> simp [PipeState.sysPipe, Fifo.opened, fifoOpen, fifoCreate, HasFlag, PipeEnd.flags]

end References

/-! ### The stream -/

section Streams

variable {P : Type} [DecidableEq P]

theorem pipeInvariant_run {s t : PipeState P} {xs : List (Transition (PipeState P) (PipeEvent P))}
    (hinit : (pipeSystem P).init s) (run : (pipeSystem P).Run s xs t) : PipeInvariant t := by
  obtain ⟨innerBuf, p, readerFd, writerFd, hreader, hwriter, _, rfl⟩ := hinit
  exact run.invariant PipeInvariant (fun _ _ _ inv hstep => pipeInvariant_step inv hstep)
    (pipeInvariant_sysPipe hreader hwriter)

/-- What has been read and what is in the buffer are what has been written. -/
theorem pipe_stream {s t : PipeState P} {xs : List (Transition (PipeState P) (PipeEvent P))}
    (hinit : (pipeSystem P).init s) (run : (pipeSystem P).Run s xs t) :
    pipeWritten xs = pipeRead xs ++ t.fifo.buf.contents := by
  obtain ⟨innerBuf, p, readerFd, writerFd, _, _, _, rfl⟩ := hinit
  have hqueue := run.queue (fun s => s.fifo.buf.contents) PipeEvent.bytesWritten PipeEvent.bytesRead
    fun _ _ _ hstep => pipeStep_contents hstep
  simpa [pipeWritten, pipeRead, PipeState.sysPipe, fifoOpen, fifoCreate, contents_ringBufInit] using hqueue

/-- Pipes over runs. What reads have returned is a prefix of what writes have accepted, at most 1023 bytes
    behind. Whatever section comes next: a write appends as many bytes as it returns; a read of a positive
    count returns nothing only when the write description is closed and everything has been read; a write
    is refused only when the read description is closed. -/
theorem pipe_is_lossless_fifo {s t : PipeState P} {xs : List (Transition (PipeState P) (PipeEvent P))}
    (hinit : (pipeSystem P).init s) (run : (pipeSystem P).Run s xs t) :
    pipeRead xs <+: pipeWritten xs ∧ (pipeWritten xs).length ≤ (pipeRead xs).length + 1023 ∧
      (∀ p bytes nwritten u, (pipeSystem P).step t (.writeSection p bytes (some (.ok nwritten))) u →
        nwritten ≤ bytes.length ∧
          u.fifo.buf.contents = t.fifo.buf.contents ++ bytes.take nwritten) ∧
      (∀ p count u, (pipeSystem P).step t (.readSection p count (some [])) u → 0 < count →
        t.Closed .writer ∧ pipeRead xs = pipeWritten xs) ∧
      ∀ p bytes u, (pipeSystem P).step t (.writeSection p bytes (some (.error .EPIPE))) u →
        t.Closed .reader := by
  have inv := pipeInvariant_run hinit run
  have hstream := pipe_stream hinit run
  refine ⟨⟨_, hstream.symm⟩, ?_, ?_, ?_, ?_⟩
  · rw [hstream, List.length_append]
    exact Nat.add_le_add_left (length_contents_le t.fifo.buf) _
  · intro p bytes nwritten u hstep
    generalize houtcome : some (Except.ok nwritten) = outcome at hstep
    cases hstep with
    | writeSection _ _ =>
        have hcontents := fifoWriteSection_contents t.fifo bytes
        rw [← houtcome] at hcontents
        exact ⟨fifoWriteSection_le houtcome.symm, hcontents⟩
  · intro p count u hstep hcount
    generalize houtcome : some [] = outcome at hstep
    cases hstep with
    | readSection _ =>
        obtain ⟨hempty, hwriters⟩ := fifoReadSection_eof hcount houtcome.symm
        refine ⟨inv.closed hwriters, ?_⟩
        rw [hstream, hempty, List.append_nil]
  · intro p bytes u hstep
    generalize houtcome : some (Except.error Errno.EPIPE) = outcome at hstep
    cases hstep with
    | writeSection _ _ => exact inv.closed (fifoWriteSection_epipe houtcome.symm)

/-- A process writes a byte into its pipe. -/
theorem pipe_is_lossless_fifo_after_write :
    ∃ s xs t, (pipeSystem Nat).init s ∧ (pipeSystem Nat).Run s xs t ∧ pipeWritten xs = [7] ∧
      pipeRead xs <+: pipeWritten xs := by
  have hinit : (pipeSystem Nat).init (PipeState.sysPipe (fun _ => 0) 0 3 4) :=
    ⟨fun _ => 0, 0, 3, 4, by decide, by decide, by decide, rfl⟩
  let s := PipeState.sysPipe (fun _ => 0) 0 3 4
  let s1 := s.setPc 0 (.writing .blocks 1)
  have hcall : (pipeSystem Nat).step s (.writeCall 0 4 1) s1 :=
    .writeCall (e := .writer) 1 rfl rfl (by decide)
  have hunblocked : (pipeSystem Nat).step s1 (.unblocked 0) (s1.setPc 0 (.writing .atSection 1)) :=
    .writeUnblocked rfl (Or.inr (by decide))
  have hsection := PipeStep.writeSection (s := s1.setPc 0 (.writing .atSection 1)) (p := 0) [7] rfl
  have run : (pipeSystem Nat).Run s _ _ := .cons hcall (.cons hunblocked (.cons hsection (.nil _)))
  exact ⟨s, _, _, hinit, run, rfl, (pipe_is_lossless_fifo hinit run).1⟩

end Streams

end Chaotix
