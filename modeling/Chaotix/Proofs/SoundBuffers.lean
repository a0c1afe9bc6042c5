/-
Module: Chaotix.Proofs.SoundBuffers
Layer: Proofs
Purpose: The ring of buffer descriptors of the sound device. The index is advanced modulo the size of the ring, but when
  a round takes it over from the device it is not: behind the last descriptor it leaves the ring, and the next write
  goes past its end.
Imports: Mathlib.Tactic, Chaotix.Kernel.Ac97
Trusted boundary: none
Main exports: Ac97Round.LeavesRing, InRing, sound_indices_iff
-/
import Mathlib.Tactic
import Chaotix.Kernel.Ac97

namespace Chaotix

local instance neZeroEntries : NeZero 32 := ⟨by decide⟩

/-- The round takes over the position of a device that is at the last descriptor. -/
def Ac97Round.LeavesRing (r : Ac97Round) : Prop := OUTPUT_BUF_NUM_PAGES < headDistance r ∧ r.currentIdx = 31

/-- The event is no round that leaves the ring. -/
def Ac97Event.StaysInRing (e : Ac97Event) : Prop := ∀ r, e = .round r → ¬r.LeavesRing

/-- What a transition writes lies in the ring, and the page index is one of the buffer on both sides of it. -/
structure InRing (x : Transition Ac97 Ac97Event) : Prop where
  before : x.before.outputBufPageIdx < OUTPUT_BUF_NUM_PAGES
  after : x.after.outputBufPageIdx < OUTPUT_BUF_NUM_PAGES
  entry : ∀ w, x.event = .store w → w.entryIdx < BUFFER_DESCRIPTOR_LIST_MAX_NUM_ENTRIES
  lastValid : ∀ w, x.event = .store w → w.lastValidIdx < BUFFER_DESCRIPTOR_LIST_MAX_NUM_ENTRIES

/-- Both indices are in range. -/
structure Ac97.Bounded (s : Ac97) : Prop where
  page : s.outputBufPageIdx < OUTPUT_BUF_NUM_PAGES
  entry : s.bufferDescriptorListIdx < BUFFER_DESCRIPTOR_LIST_MAX_NUM_ENTRIES

section Steps

variable {physicalAddr : Nat → Nat} {s s' t : Ac97} {e : Ac97Event} {src : List UInt8} {nwritten : Nat} {r : Ac97Round}

/-- A round leaves the indices alone, or takes over the position of the device. -/
theorem Ac97.round_cases (s : Ac97) (src : List UInt8) (nwritten : Nat) (r : Ac97Round) :
    (s.round src nwritten r).outputBufPageIdx = s.outputBufPageIdx ∧
      (OUTPUT_BUF_NUM_PAGES < headDistance r ∧ (s.round src nwritten r).pc = .behindLoop src nwritten ∧
          (s.round src nwritten r).bufferDescriptorListIdx = r.currentIdx.val + 1 ∨
        ¬OUTPUT_BUF_NUM_PAGES < headDistance r ∧
          (s.round src nwritten r).bufferDescriptorListIdx = s.bufferDescriptorListIdx) := by
  unfold Ac97.round
  by_cases hfar : (OUTPUT_BUF_NUM_PAGES : Int) < headDistance r
  · rw [if_pos hfar]
    exact ⟨rfl, .inl ⟨hfar, rfl, rfl⟩⟩
  · rw [if_neg hfar]
    split
    · exact ⟨rfl, .inr ⟨hfar, rfl⟩⟩
    · split
      · exact ⟨rfl, .inr ⟨hfar, rfl⟩⟩
      · exact ⟨rfl, .inr ⟨hfar, rfl⟩⟩

theorem Ac97.irqHandler_eq (s : Ac97) (status : Nat) :
    s.irqHandler status = { s with bufferDescriptorListIsFull := (s.irqHandler status).bufferDescriptorListIsFull } := by
  unfold Ac97.irqHandler
  split
  · rfl
  · rfl

/-- The page index is in range whatever the device says. -/
theorem page_step (h : s.outputBufPageIdx < OUTPUT_BUF_NUM_PAGES) (hstep : (ac97System physicalAddr).step s e s') :
    s'.outputBufPageIdx < OUTPUT_BUF_NUM_PAGES := by
  cases e with
  | call buffer =>
      obtain ⟨-, rfl⟩ := hstep
      exact h
  | round r =>
      obtain ⟨src, nwritten, -, rfl⟩ := hstep
      rw [(s.round_cases src nwritten r).1]
      exact h
  | store w =>
      obtain ⟨src, nwritten, -, hw⟩ := hstep
      obtain ⟨-, rfl⟩ := Prod.mk.inj hw
      exact Nat.mod_lt _ (by decide)
  | irq status =>
      obtain rfl := hstep
      rw [s.irqHandler_eq]
      exact h

/-- A round that does not leave the ring, and every other step, keeps the indices in range. -/
theorem bounded_step (h : s.Bounded) (he : e.StaysInRing) (hstep : (ac97System physicalAddr).step s e s') :
    s'.Bounded := by
  refine ⟨page_step h.page hstep, ?_⟩
  cases e with
  | call buffer =>
      obtain ⟨-, rfl⟩ := hstep
      exact h.entry
  | round r =>
      obtain ⟨src, nwritten, -, rfl⟩ := hstep
      obtain ⟨hfar, -, hidx⟩ | ⟨-, hidx⟩ := (s.round_cases src nwritten r).2
      · have hlast : r.currentIdx ≠ 31 := fun hlast => he r rfl ⟨hfar, hlast⟩
        have hval : r.currentIdx.val ≠ 31 := fun hval => hlast (Fin.ext hval)
        have hlt := r.currentIdx.isLt
        rw [hidx]
        exact Nat.succ_lt_succ (Nat.lt_of_le_of_ne (Nat.le_of_lt_succ hlt) hval)
      · rw [hidx]
        exact h.entry
  | store w =>
      obtain ⟨src, nwritten, -, hw⟩ := hstep
      obtain ⟨-, rfl⟩ := Prod.mk.inj hw
      exact Nat.mod_lt _ (by decide)
  | irq status =>
      obtain rfl := hstep
      rw [s.irqHandler_eq]
      exact h.entry

/-- What is stored goes to the index. -/
theorem store_indices {w : Ac97Store} (hstep : (ac97System physicalAddr).step s (.store w) s') :
    w.entryIdx = s.bufferDescriptorListIdx ∧ w.lastValidIdx = s.bufferDescriptorListIdx := by
  obtain ⟨src, nwritten, -, hw⟩ := hstep
  obtain ⟨rfl, -⟩ := Prod.mk.inj hw
  exact ⟨rfl, rfl⟩

theorem InRing.of_bounded (h : s.Bounded) (h' : s'.Bounded) (hstep : (ac97System physicalAddr).step s e s') :
    InRing ⟨s, e, s'⟩ where
  before := h.page
  after := h'.page
  entry w hw := by
    obtain rfl : e = .store w := hw
    rw [(store_indices hstep).1]
    exact h.entry
  lastValid w hw := by
    obtain rfl : e = .store w := hw
    rw [(store_indices hstep).2]
    exact h.entry

end Steps

section Runs

variable {physicalAddr : Nat → Nat} {s t : Ac97} {xs : List (Transition Ac97 Ac97Event)}

/-- While a buffer waits to be stored, only interrupts come before the store. So a run that stores everything in the ring
    has the index in range then, and no round of it has left the ring. -/
theorem stays_of_inRing (run : (ac97System physicalAddr).Run s xs t) (hdone : ∃ result, t.pc = .outside result)
    (h : ∀ x ∈ xs, InRing x) :
    (∀ x ∈ xs, x.event.StaysInRing) ∧
      ∀ src nwritten, s.pc = .behindLoop src nwritten →
        s.bufferDescriptorListIdx < BUFFER_DESCRIPTOR_LIST_MAX_NUM_ENTRIES := by
  induction run with
  | nil s =>
      obtain ⟨result, hpc⟩ := hdone
      refine ⟨by simp, fun src nwritten hloop => ?_⟩
      rw [hpc] at hloop
      cases hloop
  | @cons s e s' xs t hstep _ ih =>
      have hhead := h _ List.mem_cons_self
      obtain ⟨hstays, hidx⟩ := ih hdone fun x hx => h x (List.mem_cons_of_mem _ hx)
      cases e with
      | call buffer =>
          obtain ⟨⟨result, hpc⟩, -⟩ := hstep
          refine ⟨List.forall_mem_cons.2 ⟨fun r hr => (by cases hr), hstays⟩, fun src nwritten hloop => ?_⟩
          rw [hpc] at hloop
          cases hloop
      | round r =>
          obtain ⟨src, nwritten, hpc, rfl⟩ := hstep
          refine ⟨List.forall_mem_cons.2 ⟨?_, hstays⟩, fun src' nwritten' hloop => ?_⟩
          · rintro _ ⟨⟩ ⟨hfar, hlast⟩
            obtain ⟨-, hloop, hnew⟩ | ⟨hnear, -⟩ := (s.round_cases src nwritten r).2
            · have hlt := hidx src nwritten hloop
              rw [hnew, hlast] at hlt
              exact absurd hlt (by decide)
            · exact hnear hfar
          · rw [hpc] at hloop
            cases hloop
      | store w =>
          refine ⟨List.forall_mem_cons.2 ⟨fun r hr => (by cases hr), hstays⟩, fun src nwritten _ => ?_⟩
          rw [← (store_indices hstep).1]
          exact hhead.entry w rfl
      | irq status =>
          obtain rfl := hstep
          rw [s.irqHandler_eq] at hidx
          exact ⟨List.forall_mem_cons.2 ⟨fun r hr => (by cases hr), hstays⟩, hidx⟩

/-- Without a round that leaves the ring, everything is written inside of it. Where the calls of a run have returned,
    that is the only way. -/
theorem sound_indices_iff (hinit : (ac97System physicalAddr).init s) (run : (ac97System physicalAddr).Run s xs t) :
    ((∀ x ∈ xs, x.event.StaysInRing) → ∀ x ∈ xs, InRing x) ∧
      ((∃ result, t.pc = .outside result) → (∀ x ∈ xs, InRing x) → ∀ x ∈ xs, x.event.StaysInRing) := by
  have hstart : s.Bounded := by
    obtain rfl := hinit
    exact ⟨by decide, by decide⟩
  constructor
  · intro hstays x hx
    have keeps : ∀ s e s', s.Bounded → e.StaysInRing → (ac97System physicalAddr).step s e s' → s'.Bounded :=
      fun s e s' h he hstep => bounded_step h he hstep
    have hbounds := run.guarded_invariant_mem Ac97.Bounded keeps hstart hstays x hx
    exact .of_bounded hbounds.1 hbounds.2 (run.step_of_mem x hx)
  · intro hdone h
    exact (stays_of_inRing run hdone h).1

end Runs

/-! ### One byte -/

section OneByte

/-- The device before the first call. -/
def freshAc97 : Ac97 := ⟨0, 0, false, .outside none⟩

/-- In the call that writes one byte, before the loop, behind it, and at its end. -/
def oneByteCalled : Ac97 := { freshAc97 with pc := ac97DeviceWrite [0] 0 }

def oneByteLooped (r : Ac97Round) : Ac97 := oneByteCalled.round [0] 0 r

def oneByteWrite (r : Ac97Round) : List (Transition Ac97 Ac97Event) :=
  [⟨freshAc97, .call [0], oneByteCalled⟩, ⟨oneByteCalled, .round r, oneByteLooped r⟩,
    ⟨oneByteLooped r, .store ((oneByteLooped r).store id [0] 0).1, ((oneByteLooped r).store id [0] 0).2⟩]

theorem oneByteWrite_run {r : Ac97Round} (h : (oneByteLooped r).pc = .behindLoop [0] 0) :
    (ac97System id).Run freshAc97 (oneByteWrite r) ((oneByteLooped r).store id [0] 0).2 := by
  have hcall : (ac97System id).step freshAc97 (.call [0]) oneByteCalled := ⟨⟨none, rfl⟩, rfl⟩
  have hround : (ac97System id).step oneByteCalled (.round r) (oneByteLooped r) := ⟨[0], 0, rfl, rfl⟩
  exact .cons hcall (.cons hround (.cons ⟨[0], 0, h, rfl⟩ (.nil _)))

/-- The device begins at its first descriptor. -/
def firstDescriptor : Ac97Round := ⟨0, 0, false, .ok (), false⟩

/-- The device is at its last descriptor, and far ahead of what has been written. -/
def lastDescriptor : Ac97Round := ⟨31, 4, false, .ok (), false⟩

theorem sound_indices_firstDescriptor :
    (oneByteLooped firstDescriptor).pc = .behindLoop [0] 0 ∧ ∀ x ∈ oneByteWrite firstDescriptor, InRing x := by
  have hinit : (ac97System id).init freshAc97 := rfl
  refine ⟨rfl, (sound_indices_iff hinit (oneByteWrite_run rfl)).1 ?_⟩
  intro x hx
  rintro r hr ⟨-, hlast⟩
  rw [oneByteWrite, List.mem_cons, List.mem_cons, List.mem_singleton] at hx
  obtain rfl | rfl | rfl := hx
  · cases hr
  · cases hr
    exact absurd hlast (by decide)
  · cases hr

/-- The entry behind the ring is written, and its number goes to the device. -/
theorem sound_indices_lastDescriptor :
    (ac97System id).init freshAc97 ∧
      (ac97System id).Run freshAc97 (oneByteWrite lastDescriptor) ((oneByteLooped lastDescriptor).store id [0] 0).2 ∧
      ¬∀ x ∈ oneByteWrite lastDescriptor, InRing x := by
  refine ⟨rfl, oneByteWrite_run rfl, fun h => ?_⟩
  have hlast := (h _ (List.mem_cons_of_mem _ (List.mem_cons_of_mem _ List.mem_cons_self))).entry _ rfl
  exact absurd hlast (by decide)

end OneByte

end Chaotix
