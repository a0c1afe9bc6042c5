/-
Module: Chaotix.Proofs.QoaFrames
Layer: Proofs
Purpose: Which QOA files `play` decodes without leaving the file or the buffer of samples. Each frame says in its header
  how many samples it has, and nothing holds this against the length of the file or the number of samples in the header
  of the file. The files that are safe are those whose frames, one behind the other, lie in the file and in the buffer,
  up to one that the code rejects or that fills the buffer.
Imports: Mathlib.Tactic, Chaotix.Userland.Play
Trusted boundary: none
Main exports: QoaDecoder.At, decodeSlice_spec, decodeFrame_spec, frameBytes, Playable, qoa_frames_iff
-/
import Mathlib.Tactic
import Chaotix.Userland.Play

namespace Chaotix

namespace Play

/-- The decoder is at a position of the file and has so many samples. -/
structure QoaDecoder.At (bytes : List UInt8) (p idx : Nat) (s : QoaDecoder) : Prop where
  pos : s.pos = p
  sampleIdx : s.sampleIdx = idx
  inFile : p ≤ bytes.length

section Steps

variable {bytes : List UInt8} {h : QoaHeader} {s : QoaDecoder} {p idx : Nat}

theorem readU64_spec (hfile : bytes.length < wordSize) (hs : s.At bytes p idx) :
    ReturnsIff (readU64 bytes) s (p + 8 ≤ bytes.length) fun v t => v = u64At bytes p ∧ t.At bytes (p + 8) idx := by
  have hrange : (∀ k ∈ List.range 8, (s.pos + k) % wordSize < bytes.length) ↔ p + 8 ≤ bytes.length := by
    rw [hs.pos]
    constructor
    · intro hall
      have hlen := hs.inFile
      by_contra hover
      -- the first byte behind the file
      have hk := hall (bytes.length - p) (List.mem_range.2 (by omega))
      rw [Nat.add_sub_cancel' hlen, Nat.mod_eq_of_lt hfile] at hk
      exact Nat.lt_irrefl _ hk
    · intro hle k hk
      have hlt := List.mem_range.1 hk
      rw [Nat.mod_eq_of_lt (by omega)]
      omega
  refine .get_bind ((ReturnsIff.require_bind fun hall => ?_).congr hrange)
  have hle := hrange.1 hall
  have hpos : (s.pos + 8) % wordSize = p + 8 := by
    rw [hs.pos]
    exact Nat.mod_eq_of_lt (Nat.lt_of_le_of_lt hle hfile)
  exact ⟨congrArg (u64At bytes) hs.pos, hpos, hs.sampleIdx, hle⟩

/-- A sample is written where it fits into the buffer. -/
theorem writeSample_spec {si : Nat} (value : Int) (hs : s.At bytes p idx) (hidx : idx + si < wordSize) :
    ReturnsIff (writeSample h si value) s ((idx + si) * 2 + 2 ≤ h.numSampleBytes) fun _ t => t.At bytes p idx := by
  have hfits : (s.sampleIdx + si) % wordSize * 2 + 2 ≤ h.numSampleBytes ↔ (idx + si) * 2 + 2 ≤ h.numSampleBytes := by
    rw [hs.sampleIdx, Nat.mod_eq_of_lt hidx]
  refine .get_bind ((ReturnsIff.require_bind fun _ => ?_).congr hfits)
  exact yields_modify.2 ⟨hs.pos, hs.sampleIdx, hs.inFile⟩

theorem decodeSample_spec {c scale si : Nat} (slice : BitVec 64) (hs : s.At bytes p idx) (hidx : idx + si < wordSize) :
    ReturnsIff (decodeSample h c scale si slice) s ((idx + si) * 2 + 2 ≤ h.numSampleBytes)
      fun _ t => t.At bytes p idx := by
  refine .get_bind ((writeSample_spec _ hs hidx).bind_yields fun _ t ht => ?_)
  exact ⟨ht.pos, ht.sampleIdx, ht.inFile⟩

theorem readLms_spec (hfile : bytes.length < wordSize) (c : Nat) (hs : s.At bytes p idx) :
    ReturnsIff (readLms bytes c) s (p + 16 ≤ bytes.length) fun _ t => t.At bytes (p + 16) idx := by
  have hboth : ReturnsIff (readLms bytes c) s (p + 8 ≤ bytes.length ∧ p + 8 + 8 ≤ bytes.length)
      fun _ t => t.At bytes (p + 8 + 8) idx := by
    refine (readU64_spec hfile hs).bind fun history t ht => ?_
    refine (readU64_spec hfile ht.2).bind_yields fun weights u hu => ?_
    exact ⟨hu.2.pos, hu.2.sampleIdx, hu.2.inFile⟩
  exact hboth.congr (by omega)

/-- The slice of a channel takes eight bytes, and its samples are every second one from the first one on. -/
theorem decodeSlice_spec {n i c : Nat} (hfile : bytes.length < wordSize) (hchannels : h.numChannels = 2)
    (hn : n < 2 ^ 16) (hi : i < n) (hc : c < 2) (hidx : idx < 2 ^ 31) (hs : s.At bytes p idx) :
    ReturnsIff (decodeSlice bytes h n i c) s
      (p + 8 ≤ bytes.length ∧
        ∀ j, i ≤ j → j < i + 20 → j < n → (idx + (2 * j + c)) * 2 + 2 ≤ h.numSampleBytes)
      fun _ t => t.At bytes (p + 8) idx := by
  have hstop : (clamp (i + QOA_SLICE_LEN : Nat) 0 n).toNat = min (i + 20) n := by
    change (clamp ((i + 20 : Nat) : Int) 0 n).toNat = min (i + 20) n
    unfold clamp
    split
    · omega
    · split
      · omega
      · omega
  have hrounds : ∀ k, k < Program.rounds (2 * i + c) (2 * min (i + 20) n + c) 2 ↔ i + k < min (i + 20) n := by
    intro k
    rw [Program.lt_rounds_iff (by decide)]
    omega
  refine (readU64_spec hfile hs).bind fun slice t ht => ?_
  rw [hchannels, hstop]
  dsimp only
  have hround : ∀ k (b : BitVec 64) (u : QoaDecoder), k < Program.rounds (2 * i + c) (2 * min (i + 20) n + c) 2 →
      u.At bytes (p + 8) idx →
      ReturnsIff (decodeSample h c (slice >>> 60 &&& 0xf).toNat (2 * i + c + 2 * k) b) u
        ((idx + (2 * i + c + 2 * k)) * 2 + 2 ≤ h.numSampleBytes) fun _ v => v.At bytes (p + 8) idx := by
    intro k b u hk hu
    have hlt := (hrounds k).1 hk
    have hword : wordSize = 2 ^ 32 := rfl
    exact decodeSample_spec b hu (by omega)
  have hloop : ReturnsIff (Program.foldStep (2 * i + c) (2 * min (i + 20) n + c) 2 slice
      (decodeSample h c (slice >>> 60 &&& 0xf).toNat)) t _ _ :=
    ReturnsIff.foldStep (fun _ (_ : BitVec 64) u => QoaDecoder.At bytes (p + 8) idx u) _ ht.2 hround
  refine ReturnsIff.congr (ReturnsIff.bind_yields hloop ?_) ?_
  · exact fun _ u hu => hu
  constructor
  · intro hall j hij hjs hjn
    have hj := hall (j - i) ((hrounds (j - i)).2 (by omega))
    have hsum : 2 * i + c + 2 * (j - i) = 2 * j + c := by omega
    rwa [hsum] at hj
  · intro hall k hk
    have hlt := (hrounds k).1 hk
    have hj := hall (i + k) (by omega) (by omega) (by omega)
    have hsum : 2 * i + c + 2 * k = 2 * (i + k) + c := by omega
    rwa [hsum]

/-- The number of bytes of a frame with `n` samples for each channel. -/
def frameBytes (n : Nat) : Nat := 8 + 32 + 16 * ((n + 19) / 20)

/-- The slices of a frame lie one behind the other in the file, and its samples in the buffer. -/
theorem frameSlices_spec {n : Nat} (hfile : bytes.length < wordSize) (hchannels : h.numChannels = 2) (hn : n < 2 ^ 16)
    (hidx : idx * 2 ≤ h.numSampleBytes) (hbuf : h.numSampleBytes < wordSize) (hs : s.At bytes p idx) :
    ReturnsIff (Program.forStep 0 n QOA_SLICE_LEN fun i => Program.forRange 0 h.numChannels (decodeSlice bytes h n i)) s
      (p + 16 * ((n + 19) / 20) ≤ bytes.length ∧ (idx + 2 * n) * 2 ≤ h.numSampleBytes)
      fun _ t => t.At bytes (p + 16 * ((n + 19) / 20)) idx ∧ (idx + 2 * n) * 2 ≤ h.numSampleBytes := by
  have hrounds : ∀ r, r < Program.rounds 0 n QOA_SLICE_LEN ↔ 20 * r < n := by
    intro r
    rw [Program.lt_rounds_iff (by decide), Nat.zero_add]
  rw [hchannels]
  have hloop : ReturnsIff (Program.forStep 0 n QOA_SLICE_LEN fun i => Program.forRange 0 2 (decodeSlice bytes h n i)) s
      (∀ r, r < Program.rounds 0 n QOA_SLICE_LEN → ∀ c, c < 2 → p + 16 * r + 8 * c + 8 ≤ bytes.length ∧
        ∀ j, 0 + 20 * r ≤ j → j < 0 + 20 * r + 20 → j < n → (idx + (2 * j + c)) * 2 + 2 ≤ h.numSampleBytes)
      fun _ t => t.At bytes (p + 16 * Program.rounds 0 n QOA_SLICE_LEN) idx := by
    have hword : wordSize = 2 ^ 32 := rfl
    refine ReturnsIff.forStep (fun r t => QoaDecoder.At bytes (p + 16 * r) idx t) _ hs fun r t hr ht => ?_
    have hlt : 0 + QOA_SLICE_LEN * r < n := by
      rw [Nat.zero_add]
      exact (hrounds r).1 hr
    refine ReturnsIff.forRange (fun c u => QoaDecoder.At bytes (p + 16 * r + 8 * c) idx u) _ ht fun c u hc hu => ?_
    exact decodeSlice_spec hfile hchannels hn hlt hc (by omega) hu
  have hcount : Program.rounds 0 n QOA_SLICE_LEN = (n + 19) / 20 := rfl
  rw [hcount] at hloop
  refine (hloop.congr ⟨?_, ?_⟩).mono_of fun hfits _ t ht => ⟨ht, hfits.2⟩
  · intro hall
    by_cases hn0 : n = 0
    · subst hn0
      exact ⟨hs.inFile, hidx⟩
    · -- the last slice of the second channel, and its last sample
      obtain ⟨hlast, hsamples⟩ := hall ((n + 19) / 20 - 1) (by omega) 1 (by omega)
      have hsample := hsamples (n - 1) (by omega) (by omega) (by omega)
      exact ⟨by omega, by omega⟩
  · rintro ⟨hend, hbuffer⟩ r hr c hc
    exact ⟨by omega, fun j _ _ hj => by omega⟩

theorem samplesInFrame_lt (header : BitVec 64) : samplesInFrame header < 2 ^ 16 := by
  unfold samplesInFrame
  rw [BitVec.toNat_and]
  exact Nat.lt_of_le_of_lt Nat.and_le_right (by decide)

/-- A frame lies in the file and in the buffer, unless the code rejects it. -/
theorem decodeFrame_spec (hfile : bytes.length < wordSize) (hchannels : h.numChannels = 2)
    (hidx : idx * 2 ≤ h.numSampleBytes) (hbuf : h.numSampleBytes < wordSize) (hs : s.At bytes p idx) :
    ReturnsIff (decodeFrame bytes h) s
      (p + 8 ≤ bytes.length ∧
        (SameFormat h (u64At bytes p) →
          p + frameBytes (samplesInFrame (u64At bytes p)) ≤ bytes.length ∧
            (idx + 2 * samplesInFrame (u64At bytes p)) * 2 ≤ h.numSampleBytes))
      fun r t =>
        (¬SameFormat h (u64At bytes p) ∧ r = .error .invalidFormat) ∨
          (SameFormat h (u64At bytes p) ∧ r = .ok () ∧
            t.At bytes (p + frameBytes (samplesInFrame (u64At bytes p)))
              (idx + 2 * samplesInFrame (u64At bytes p))) := by
  refine (readU64_spec hfile hs).bind fun header t ht => ?_
  obtain ⟨rfl, ht⟩ := ht
  have hn := samplesInFrame_lt (u64At bytes p)
  by_cases hsame : SameFormat h (u64At bytes p)
  · rw [if_neg (not_not.2 hsame)]
    have hlms : ReturnsIff (Program.forRange 0 h.numChannels (readLms bytes)) t
        (∀ c, c < 2 → p + 8 + 16 * c + 16 ≤ bytes.length) fun _ u => u.At bytes (p + 8 + 32) idx := by
      rw [hchannels]
      refine ReturnsIff.forRange (fun c u => QoaDecoder.At bytes (p + 8 + 16 * c) idx u) _ ht fun c u _ hu => ?_
      exact readLms_spec hfile c hu
    refine ReturnsIff.congr (ReturnsIff.bind hlms fun _ u hu =>
      ReturnsIff.bind_yields (frameSlices_spec hfile hchannels hn hidx hbuf hu) fun _ v hv => ?_) ?_
    · obtain ⟨hv, hfits⟩ := hv
      have hend : p + 8 + 32 + 16 * ((samplesInFrame (u64At bytes p) + 19) / 20) =
          p + frameBytes (samplesInFrame (u64At bytes p)) := by
        unfold frameBytes
        omega
      refine .inr ⟨hsame, rfl, hv.pos.trans hend, ?_, hend ▸ hv.inFile⟩
      have hsum : (v.sampleIdx + samplesInFrame (u64At bytes p) * h.numChannels) % wordSize =
          idx + 2 * samplesInFrame (u64At bytes p) := by
        rw [hv.sampleIdx, hchannels, Nat.mul_comm]
        exact Nat.mod_eq_of_lt (by omega)
      exact hsum
    · unfold frameBytes
      constructor
      · rintro ⟨-, hend, hfits⟩ -
        exact ⟨by omega, hfits⟩
      · intro hall
        obtain ⟨hend, hfits⟩ := hall hsame
        exact ⟨fun c hc => by omega, by omega, hfits⟩
  · rw [if_pos hsame]
    exact (ReturnsIff.pure (.inl ⟨hsame, rfl⟩)).congr ⟨fun _ h => absurd h hsame, fun _ => trivial⟩

end Steps

/-! ### Files -/

/-- From a position on, with so many samples already there, the frames lie in the file and in the buffer, up to one that
    the code rejects or up to the number of samples that the header of the file says. -/
inductive Playable (bytes : List UInt8) (h : QoaHeader) : Nat → Nat → Prop where
  | complete {p idx : Nat} : h.totalSamples ≤ idx → Playable bytes h p idx
  | rejected {p idx : Nat} : p + 8 ≤ bytes.length → ¬SameFormat h (u64At bytes p) → Playable bytes h p idx
  | frame {p idx : Nat} :
      p + frameBytes (samplesInFrame (u64At bytes p)) ≤ bytes.length →
      (idx + 2 * samplesInFrame (u64At bytes p)) * 2 ≤ h.numSampleBytes →
      Playable bytes h (p + frameBytes (samplesInFrame (u64At bytes p))) (idx + 2 * samplesInFrame (u64At bytes p)) →
      Playable bytes h p idx

section Runs

variable {bytes : List UInt8} {h : QoaHeader} {s : QoaDecoder} {p idx : Nat}

/-- Some number of rounds of the loop over the frames ends it. -/
def Decodes (bytes : List UInt8) (h : QoaHeader) (s : QoaDecoder) : Prop :=
  ∃ fuel r t, decodeFrames bytes h fuel s = .ok (r, t)

theorem decodeFrames_complete (fuel : Nat) (hs : s.At bytes p idx) (hidx : h.totalSamples ≤ idx) :
    decodeFrames bytes h (fuel + 1) s = .ok (.ok (), s) := by
  have hend : ¬s.sampleIdx < h.totalSamples := by
    rw [hs.sampleIdx]
    exact Nat.not_lt_of_le hidx
  simp only [decodeFrames, Program.run_bind, Program.run_get, if_neg hend, Program.run_pure]

theorem decodeFrames_round (fuel : Nat) (hs : s.At bytes p idx) (hidx : idx < h.totalSamples) :
    decodeFrames bytes h (fuel + 1) s =
      match decodeFrame bytes h s with
      | .ok (.error e, t) => .ok (.error e, t)
      | .ok (.ok _, t) => decodeFrames bytes h fuel t
      | .error e => .error e := by
  have hround : s.sampleIdx < h.totalSamples := by
    rw [hs.sampleIdx]
    exact hidx
  simp only [decodeFrames, Program.run_bind, Program.run_get, if_pos hround]
  cases decodeFrame bytes h s with
  | error e => rfl
  | ok result =>
      obtain ⟨r, t⟩ := result
      cases r with
      | error e => rfl
      | ok _ => rfl

/-- A loop that ends has gone through frames that lie in the file and in the buffer. -/
theorem playable_of_decodes (hfile : bytes.length < wordSize) (hchannels : h.numChannels = 2)
    (hbuf : h.numSampleBytes < wordSize) (hs : s.At bytes p idx) (hidx : idx * 2 ≤ h.numSampleBytes)
    (hdecodes : Decodes bytes h s) : Playable bytes h p idx := by
  obtain ⟨fuel, r, t, hloop⟩ := hdecodes
  induction fuel generalizing s p idx with
  | zero => cases hloop
  | succ fuel ih =>
      by_cases hmore : idx < h.totalSamples
      · rw [decodeFrames_round fuel hs hmore] at hloop
        cases hframe : decodeFrame bytes h s with
        | error e =>
            rw [hframe] at hloop
            cases hloop
        | ok result =>
            obtain ⟨r', u⟩ := result
            obtain ⟨⟨hheader, hfits⟩, hafter⟩ := (decodeFrame_spec hfile hchannels hidx hbuf hs).of_return hframe
            obtain ⟨hsame, -⟩ | ⟨hsame, rfl, hu⟩ := hafter
            · exact .rejected hheader hsame
            · rw [hframe] at hloop
              obtain ⟨hend, hsamples⟩ := hfits hsame
              exact .frame hend hsamples (ih hu hsamples hloop)
      · exact .complete (Nat.le_of_not_lt hmore)

/-- Frames that lie in the file and in the buffer are decoded. -/
theorem decodes_of_playable (hfile : bytes.length < wordSize) (hchannels : h.numChannels = 2)
    (hbuf : h.numSampleBytes < wordSize) (hplayable : Playable bytes h p idx) (hs : s.At bytes p idx)
    (hidx : idx * 2 ≤ h.numSampleBytes) : Decodes bytes h s := by
  induction hplayable generalizing s with
  | complete hall => exact ⟨1, _, _, decodeFrames_complete 0 hs hall⟩
  | @rejected p idx hheader hformat =>
      by_cases hmore : idx < h.totalSamples
      · have hspec := decodeFrame_spec hfile hchannels hidx hbuf hs
        obtain ⟨r, t, hframe⟩ := hspec.iff.2 ⟨hheader, fun hsame => absurd hsame hformat⟩
        obtain ⟨-, rfl⟩ | ⟨hsame, -⟩ := (hspec.of_return hframe).2
        · exact ⟨1, .error .invalidFormat, t, by rw [decodeFrames_round 0 hs hmore, hframe]⟩
        · exact absurd hsame hformat
      · exact ⟨1, _, _, decodeFrames_complete 0 hs (Nat.le_of_not_lt hmore)⟩
  | @frame p idx hend hsamples _ ih =>
      by_cases hmore : idx < h.totalSamples
      · have hspec := decodeFrame_spec hfile hchannels hidx hbuf hs
        have hheader : p + 8 ≤ bytes.length := by
          refine Nat.le_trans ?_ hend
          unfold frameBytes
          omega
        obtain ⟨r, t, hframe⟩ := hspec.iff.2 ⟨hheader, fun _ => ⟨hend, hsamples⟩⟩
        obtain ⟨-, rfl⟩ | ⟨-, rfl, ht⟩ := (hspec.of_return hframe).2
        · exact ⟨1, .error .invalidFormat, t, by rw [decodeFrames_round 0 hs hmore, hframe]⟩
        · obtain ⟨fuel, r, u, hrest⟩ := ih ht hsamples
          exact ⟨fuel + 1, r, u, by rw [decodeFrames_round fuel hs hmore, hframe]; exact hrest⟩
      · exact ⟨1, _, _, decodeFrames_complete 0 hs (Nat.le_of_not_lt hmore)⟩

theorem numSampleBytes_lt (h : QoaHeader) : h.numSampleBytes < wordSize := Nat.mod_lt _ (Nat.two_pow_pos 32)

/-- A header that passes the checks is in the file, and says two channels. -/
theorem readQoaHeader_ok (hheader : readQoaHeader bytes = .ok h) : 16 ≤ bytes.length ∧ h.numChannels = 2 := by
  unfold readQoaHeader at hheader
  split at hheader
  · cases hheader
  · rename_i hlen
    split at hheader
    · cases hheader
    · dsimp only at hheader
      split at hheader
      · cases hheader
      · split at hheader
        · cases hheader
        · rename_i hchannels
          cases hheader
          exact ⟨Nat.le_of_not_lt hlen, Classical.byContradiction fun hne => hchannels (.inl hne)⟩

/-- On a file whose header passes the checks, the loop over the frames ends without leaving the file or the buffer of
    samples exactly when the frames lie in them. -/
theorem qoa_frames_iff (hfile : bytes.length < wordSize) (hheader : readQoaHeader bytes = .ok h) (samples : Nat → Int)
    (lms : Nat → QoaLms) : Decodes bytes h (.start samples lms) ↔ Playable bytes h 8 0 := by
  obtain ⟨hlen, hchannels⟩ := readQoaHeader_ok hheader
  have hbuf := numSampleBytes_lt h
  have hstart : (QoaDecoder.start samples lms).At bytes 8 0 := ⟨rfl, rfl, Nat.le_trans (by decide) hlen⟩
  have hnone : 0 * 2 ≤ h.numSampleBytes := Nat.zero_le _
  constructor
  · exact playable_of_decodes hfile hchannels hbuf hstart hnone
  · exact fun hplayable => decodes_of_playable hfile hchannels hbuf hplayable hstart hnone

end Runs

/-! ### One sample -/

section OneSample

/-- A file with one sample for each channel. -/
def oneSampleFile : List UInt8 :=
  [0x71, 0x6f, 0x61, 0x66, 0, 0, 0, 1] ++ [2, 0, 0, 1, 0, 1, 0, 64] ++ List.replicate 48 0

def oneSampleHeader : QoaHeader := ⟨1, 2, 1⟩

theorem qoa_frames_oneSample : Decodes oneSampleFile oneSampleHeader (.start (fun _ => 0) fun _ => ⟨[], []⟩) := by
  have hplayable : Playable oneSampleFile oneSampleHeader 8 0 :=
    .frame (by decide) (by decide) (.complete (by decide))
  exact (qoa_frames_iff (by decide) (by decide) _ _).2 hplayable

end OneSample

end Play

end Chaotix
