/-
Module: Chaotix.Userland.Play
Layer: Userland
Purpose: How `play` decodes a QOA file that it has read: the checks of the header, and the loop over the frames with their
  slices. The file is a list of bytes, and an access outside of it or of the buffer of samples is a fault. An `int` is
  a word of 32 bits that wraps. The frame loop has a fuel, which is no part of the code.
Imports: Chaotix.Lib.ExactReturn, Chaotix.Kernel.Base
Trusted boundary: human-reviewed model of `userland/play.c` from the check of the magic on up to the device
Main exports: QoaLms, QoaHeader, readQoaHeader, QoaDecoder, readU64, decodeSlice, decodeFrame, decodeFrames
-/
import Chaotix.Lib.ExactReturn
import Chaotix.Kernel.Base

namespace Chaotix

namespace Play

abbrev NUM_CHANNELS : Nat := 2

abbrev QOA_MIN_FILESIZE : Nat := 16

abbrev QOA_LMS_LEN : Nat := 4

abbrev QOA_SLICE_LEN : Nat := 20

/-- `qoa_lms_t`. -/
structure QoaLms where
  history : List (BitVec 32)
  weights : List (BitVec 32)

/-- `qoa_dequant_tab`. -/
def qoaDequantTab : List (List Int) :=
  [[1, -1, 3, -3, 5, -5, 7, -7],
    [5, -5, 18, -18, 32, -32, 49, -49],
    [16, -16, 53, -53, 95, -95, 147, -147],
    [34, -34, 113, -113, 203, -203, 315, -315],
    [63, -63, 210, -210, 378, -378, 588, -588],
    [104, -104, 345, -345, 621, -621, 966, -966],
    [158, -158, 528, -528, 950, -950, 1477, -1477],
    [228, -228, 760, -760, 1368, -1368, 2128, -2128],
    [316, -316, 1053, -1053, 1895, -1895, 2947, -2947],
    [422, -422, 1405, -1405, 2529, -2529, 3934, -3934],
    [548, -548, 1828, -1828, 3290, -3290, 5117, -5117],
    [696, -696, 2320, -2320, 4176, -4176, 6496, -6496],
    [868, -868, 2893, -2893, 5207, -5207, 8099, -8099],
    [1064, -1064, 3548, -3548, 6386, -6386, 9933, -9933],
    [1286, -1286, 4288, -4288, 7718, -7718, 12005, -12005],
    [1536, -1536, 5120, -5120, 9216, -9216, 14336, -14336]]

/-- `qoa_lms_predict`. -/
def qoaLmsPredict (lms : QoaLms) : BitVec 32 :=
  ((List.zipWith (fun w x => w * x) lms.weights lms.history).foldl (fun p x => p + x) 0).sshiftRight 13

/-- `qoa_lms_update`. -/
def qoaLmsUpdate (lms : QoaLms) (sample residual : BitVec 32) : QoaLms :=
  let delta := residual.sshiftRight 4
  { weights := List.zipWith (fun w x => if x.slt 0 then w - delta else w + delta) lms.weights lms.history
    history := lms.history.tail ++ [sample] }

/-- `clamp`. -/
def clamp (v min max : Int) : Int := if v < min then min else if max < v then max else v

/-- The eight bytes at a position of the file, the first one highest. -/
def u64At (bytes : List UInt8) (p : Nat) : BitVec 64 :=
  (List.range 8).foldl (fun v k => v <<< 8 ||| BitVec.ofNat 64 (bytes.getD (p + k) 0).toNat) 0

/-! ### The header of the file -/

/-- What the header says. -/
structure QoaHeader where
  numSamples : Nat
  numChannels : Nat
  sampleRate : Nat
deriving DecidableEq, Repr

/-- The checks that end `main`. -/
inductive PlayError where
  | notQoa
  | invalidFormat
  | unsupported
deriving DecidableEq, Repr

/-- The checks of `main` on the file. The magic has no zero byte, so `strncmp` compares all four. -/
def readQoaHeader (bytes : List UInt8) : Except PlayError QoaHeader :=
  if bytes.length < QOA_MIN_FILESIZE then .error .notQoa
  else if bytes.take 4 ≠ [0x71, 0x6f, 0x61, 0x66] then .error .notQoa
  else
    let numSamples := (u64At bytes 0 &&& 0xffffffff).toNat
    let firstHeader := u64At bytes 8
    let numChannels := (firstHeader >>> 56).toNat
    let sampleRate := (firstHeader >>> 32 &&& 0xffffff).toNat
    if numSamples = 0 ∨ numChannels = 0 ∨ sampleRate = 0 then .error .invalidFormat
    else if numChannels ≠ NUM_CHANNELS ∨ 2 ^ 16 - 1 < sampleRate then .error .unsupported
    else .ok ⟨numSamples, numChannels, sampleRate⟩

/-- `total_samples`. -/
def QoaHeader.totalSamples (h : QoaHeader) : Nat := h.numSamples * h.numChannels % wordSize

/-- `num_sample_bytes`, the size of the buffer of samples. -/
def QoaHeader.numSampleBytes (h : QoaHeader) : Nat := h.totalSamples * 2 % wordSize

/-! ### The frames -/

/-- The variables of the loop over the frames. -/
structure QoaDecoder where
  pos : Nat
  sampleIdx : Nat
  samples : Nat → Int
  lms : Nat → QoaLms

/-- Before the first frame. `malloc` leaves anything in the buffer. -/
def QoaDecoder.start (samples : Nat → Int) (lms : Nat → QoaLms) : QoaDecoder := ⟨8, 0, samples, lms⟩

/-- `read_u64`. -/
def readU64 (bytes : List UInt8) : Kernel QoaDecoder (BitVec 64) := do
  let s ← get
  Program.require (∀ k ∈ List.range 8, (s.pos + k) % wordSize < bytes.length) .fault
  modify fun s => { s with pos := (s.pos + 8) % wordSize }
  pure (u64At bytes s.pos)

/-- `samples[sample_idx + si] = value`. -/
def writeSample (h : QoaHeader) (si : Nat) (value : Int) : Kernel QoaDecoder Unit := do
  let s ← get
  Program.require ((s.sampleIdx + si) % wordSize * 2 + 2 ≤ h.numSampleBytes) .fault
  modify fun s => { s with samples := fun k => if k = (s.sampleIdx + si) % wordSize then value else s.samples k }

/-- The four fields of 16 bits of a word, which are signed. -/
def fourFields (v : BitVec 64) : List (BitVec 32) :=
  (List.range QOA_LMS_LEN).map fun i => ((v <<< (16 * i)) >>> 48).setWidth 16 |>.signExtend 32

/-- Channel `c` of the frame starts with its history and its weights. -/
def readLms (bytes : List UInt8) (c : Nat) : Kernel QoaDecoder Unit := do
  let history ← readU64 bytes
  let weights ← readU64 bytes
  modify fun s => { s with lms := fun c' => if c' = c then ⟨fourFields history, fourFields weights⟩ else s.lms c' }

/-- One sample of channel `c`: what is left of the slice. -/
def decodeSample (h : QoaHeader) (c scale si : Nat) (slice : BitVec 64) : Kernel QoaDecoder (BitVec 64) := do
  let s ← get
  let predicted := qoaLmsPredict (s.lms c)
  let quantized := (slice >>> 57 &&& 0x7).toNat
  let dequantized : BitVec 32 := BitVec.ofInt 32 ((qoaDequantTab.getD scale []).getD quantized 0)
  let reconstructed := clamp (predicted + dequantized).toInt (-32768) 32767
  writeSample h si reconstructed
  modify fun s => { s with
    lms := fun c' =>
      if c' = c then qoaLmsUpdate (s.lms c) (BitVec.ofInt 32 reconstructed) dequantized else s.lms c' }
  pure (slice <<< 3)

/-- The slice of channel `c` for the samples from `i` on. -/
def decodeSlice (bytes : List UInt8) (h : QoaHeader) (numSamplesInFrame i c : Nat) : Kernel QoaDecoder Unit := do
  let slice ← readU64 bytes
  let scale := (slice >>> 60 &&& 0xf).toNat
  let start := h.numChannels * i + c
  let stop := h.numChannels * (clamp (i + QOA_SLICE_LEN : Nat) 0 numSamplesInFrame).toNat + c
  let _ ← Program.foldStep start stop h.numChannels slice (decodeSample h c scale)
  pure ()

/-- `num_samples_in_frame`. -/
def samplesInFrame (header : BitVec 64) : Nat := (header >>> 16 &&& 0xffff).toNat

/-- The header of the frame is that of the file. -/
def SameFormat (h : QoaHeader) (header : BitVec 64) : Prop :=
  (header >>> 56 &&& 0xff).toNat = h.numChannels ∧ (header >>> 32 &&& 0xffffff).toNat = h.sampleRate

instance (h : QoaHeader) (header : BitVec 64) : Decidable (SameFormat h header) := inferInstanceAs (Decidable (_ ∧ _))

/-- One round of the loop over the frames. The format error ends `main`. -/
def decodeFrame (bytes : List UInt8) (h : QoaHeader) : Kernel QoaDecoder (Except PlayError Unit) := do
  let header ← readU64 bytes
  if ¬SameFormat h header then pure (.error .invalidFormat)
  else do
    Program.forRange 0 h.numChannels (readLms bytes)
    Program.forStep 0 (samplesInFrame header) QOA_SLICE_LEN fun i =>
      Program.forRange 0 h.numChannels (decodeSlice bytes h (samplesInFrame header) i)
    modify fun s => { s with sampleIdx := (s.sampleIdx + samplesInFrame header * h.numChannels) % wordSize }
    pure (.ok ())

/-- The loop over the frames. -/
def decodeFrames (bytes : List UInt8) (h : QoaHeader) : Nat → Kernel QoaDecoder (Except PlayError Unit)
  | 0 => throw .hang
  | fuel + 1 => do
      let s ← get
      if s.sampleIdx < h.totalSamples then
        match ← decodeFrame bytes h with
        | .error e => pure (.error e)
        | .ok () => decodeFrames bytes h fuel
      else pure (.ok ())

end Play

end Chaotix
