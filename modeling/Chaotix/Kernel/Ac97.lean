/-
Module: Chaotix.Kernel.Ac97
Layer: Kernel
Purpose: Writing to the AC97 sound device. A call of `ac97_device_write` goes through its data one page at a time: the
  rounds of the loop in `write_single_buffer`, then the page, its descriptor and the last valid index of the device.
  What the device and `dma_is_running` say in a round is an input.
Imports: Chaotix.Lib.Transition, Chaotix.Kernel.Base
Trusted boundary: human-reviewed model of `write_single_buffer`, `ac97_device_write` and `irq_handler` of `kernel/ac97.c`
Main exports: Ac97, Ac97Round, headDistance, Ac97.round, Ac97.store, ac97DeviceWrite, ac97System
-/
import Chaotix.Lib.Transition
import Chaotix.Kernel.Base

namespace Chaotix

abbrev OUTPUT_BUF_NUM_PAGES : Nat := 4

abbrev BUFFER_DESCRIPTOR_LIST_MAX_NUM_ENTRIES : Nat := 32

abbrev BUFFER_DESCRIPTOR_LIST_INTERRUPT_ON_COMPLETION : Nat := 0x8000

abbrev TRANSFER_STATUS_IOC : Nat := 0x8

/-- `struct buffer_descriptor_list_entry`. -/
structure BufferDescriptorListEntry where
  paddr : Nat
  numSamples : Nat
  control : Nat
deriving DecidableEq, Repr

/-- Where `ac97_device_write` is, with the data that is left and `nwritten`: outside of a call, with what the last one
    has returned, before a round of the loop in `write_single_buffer`, or behind the loop. -/
inductive Ac97Pc where
  | outside (result : Option (Except Errno Nat))
  | atRound (src : List UInt8) (nwritten : Nat)
  | behindLoop (src : List UInt8) (nwritten : Nat)

/-- The variables of the driver. -/
structure Ac97 where
  outputBufPageIdx : Nat
  bufferDescriptorListIdx : Nat
  bufferDescriptorListIsFull : Bool
  pc : Ac97Pc

/-- What a round of the loop reads: the two index registers, `dma_is_running`, what `file_description_block` returns,
    and `dma_is_running` in the condition of the loop. -/
structure Ac97Round where
  currentIdx : Fin 32
  lastValidIdx : Fin 32
  dmaIsRunning : Bool
  block : Except Errno Unit
  dmaStillRunning : Bool

/-- `head_distance`. -/
def headDistance (r : Ac97Round) : Int :=
  let distance : Int := (r.lastValidIdx.val : Int) - r.currentIdx.val
  let distance := if distance < 0 then distance + BUFFER_DESCRIPTOR_LIST_MAX_NUM_ENTRIES else distance
  if r.dmaIsRunning then distance + 1 else distance

/-- What `write_single_buffer` writes behind its loop: the data at `dest` in `output_buf`, an entry of
    `buffer_descriptor_list`, and `CHANNEL_LAST_VALID_INDEX`. -/
structure Ac97Store where
  dest : Nat
  data : List UInt8
  entryIdx : Nat
  entry : BufferDescriptorListEntry
  lastValidIdx : Nat

namespace Ac97

/-- One round of the loop in `write_single_buffer`. -/
def round (s : Ac97) (src : List UInt8) (nwritten : Nat) (r : Ac97Round) : Ac97 :=
  if OUTPUT_BUF_NUM_PAGES < headDistance r then
    { s with bufferDescriptorListIdx := r.currentIdx.val + 1, pc := .behindLoop src nwritten }
  else if headDistance r < OUTPUT_BUF_NUM_PAGES then { s with pc := .behindLoop src nwritten }
  else
    match r.block with
    | .error rc => { s with bufferDescriptorListIsFull := true, pc := .outside (some (.error rc)) }
    | .ok () =>
        { s with
          bufferDescriptorListIsFull := true
          pc := if r.dmaStillRunning then .atRound src nwritten else .behindLoop src nwritten }

end Ac97

/-- The loop of `ac97_device_write`. -/
def ac97DeviceWrite (src : List UInt8) (nwritten : Nat) : Ac97Pc :=
  if 0 < src.length then .atRound src nwritten else .outside (some (.ok nwritten))

namespace Ac97

/-- The end of `write_single_buffer` and of a round of `ac97_device_write`. `physicalAddr` is the physical address of
    an offset in `output_buf`. -/
def store (physicalAddr : Nat → Nat) (s : Ac97) (src : List UInt8) (nwritten : Nat) : Ac97Store × Ac97 :=
  let size := min PAGE_SIZE src.length
  let dest := PAGE_SIZE * s.outputBufPageIdx
  ({ dest := dest
     data := src.take size
     entryIdx := s.bufferDescriptorListIdx
     entry := ⟨physicalAddr dest, size / 2, BUFFER_DESCRIPTOR_LIST_INTERRUPT_ON_COMPLETION⟩
     lastValidIdx := s.bufferDescriptorListIdx },
   { s with
     outputBufPageIdx := (s.outputBufPageIdx + 1) % OUTPUT_BUF_NUM_PAGES
     bufferDescriptorListIdx := (s.bufferDescriptorListIdx + 1) % BUFFER_DESCRIPTOR_LIST_MAX_NUM_ENTRIES
     pc := ac97DeviceWrite (src.drop size) (nwritten + size) })

/-- `irq_handler`. The status that it tests for the DMA controller is the one it has written itself, so it leaves
    `dma_is_running` alone. -/
def irqHandler (s : Ac97) (status : Nat) : Ac97 :=
  if ¬HasFlag status TRANSFER_STATUS_IOC then s else { s with bufferDescriptorListIsFull := false }

end Ac97

inductive Ac97Event where
  | call (buffer : List UInt8)
  | round (r : Ac97Round)
  | store (written : Ac97Store)
  | irq (status : Nat)

/-- Calls of `ac97_device_write`, one after the other, with interrupts in between. -/
def ac97System (physicalAddr : Nat → Nat) : TransitionSystem Ac97 Ac97Event where
  init s := s = ⟨0, 0, false, .outside none⟩
  step s e s' :=
    match e with
    | .call buffer => (∃ result, s.pc = .outside result) ∧ s' = { s with pc := ac97DeviceWrite buffer 0 }
    | .round r => ∃ src nwritten, s.pc = .atRound src nwritten ∧ s' = s.round src nwritten r
    | .store written => ∃ src nwritten, s.pc = .behindLoop src nwritten ∧
        (written, s') = s.store physicalAddr src nwritten
    | .irq status => s' = s.irqHandler status

end Chaotix
