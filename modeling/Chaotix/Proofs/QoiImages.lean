/-
Module: Chaotix.Proofs.QoiImages
Layer: Proofs
Purpose: What `imgview` shows of a QOI file: the pixels of its chunks, row by row and cut to the size of the frame buffer.
  So a picture that is encoded is the picture that is shown, and no byte behind the frame buffer is written.
Imports: Mathlib.Tactic, Chaotix.Lib.QoiFormat, Chaotix.Userland.ImgView
Trusted boundary: none
Main exports: Decoder.Yet, nextPixel_yet, imagePaints, qoiFile, imgview_shows, imgview_encode
-/
import Mathlib.Tactic
import Chaotix.Lib.QoiFormat
import Chaotix.Userland.ImgView

namespace Chaotix

namespace ImgView

/-- The decoder is in the state of the format. -/
structure Decoder.Agrees (d : Decoder) (s : QoiState) : Prop where
  seen : ∀ i : Fin 64, d.index i = s.seen i
  px : d.px = s.px

/-- The pixels that are yet to come, from the run and from the chunks in the file. -/
def Decoder.Yet (d : Decoder) (ps : List Rgba) : Prop :=
  ∃ s cs rest, d.Agrees s ∧ d.file = cs.flatMap QoiChunk.bytes ++ rest ∧ ps = List.replicate d.run d.px ++ qoiPixels s cs

section Pixels

variable {d : Decoder} {s : QoiState} {file : List UInt8}

theorem hash_eq_place (p : Rgba) : hash p = p.place := rfl

/-- The decoder has seen a pixel as the format has. -/
theorem Decoder.Agrees.update (h : d.Agrees s) (c : QoiChunk) (run : Nat) (file : List UInt8) :
    Decoder.Agrees ⟨Function.update d.index (hash (c.apply s)) (c.apply s), c.apply s, run, file⟩ (s.after c) where
  seen i := by
    change Function.update d.index (hash (c.apply s)) (c.apply s) i =
      Function.update s.seen (c.apply s).place (c.apply s) i
    by_cases hi : i = (c.apply s).place
    · subst hi
      rw [hash_eq_place, Function.update_self, Function.update_self]
    · have hne : i.val ≠ hash (c.apply s) := fun heq => hi (Fin.ext heq)
      rw [Function.update_of_ne hne, Function.update_of_ne hi]
      exact h.seen i
  px := rfl

theorem diff_bits : ∀ dr dg db : Fin 4,
    let b1 := (0x40 : UInt8) ||| UInt8.ofNat dr <<< 4 ||| UInt8.ofNat dg <<< 2 ||| UInt8.ofNat db
    b1 ≠ QOI_OP_RGB ∧ b1 ≠ QOI_OP_RGBA ∧ b1 &&& QOI_MASK_2 = QOI_OP_DIFF ∧
      b1 >>> 4 &&& 0x03 = UInt8.ofNat dr ∧ b1 >>> 2 &&& 0x03 = UInt8.ofNat dg ∧ b1 &&& 0x03 = UInt8.ofNat db := by
  decide

theorem luma_bits : ∀ dg : Fin 64, let b1 := (0x80 : UInt8) ||| UInt8.ofNat dg
    b1 ≠ QOI_OP_RGB ∧ b1 ≠ QOI_OP_RGBA ∧ b1 &&& QOI_MASK_2 = QOI_OP_LUMA ∧ b1 &&& 0x3f = UInt8.ofNat dg := by
  decide

theorem luma_bits' : ∀ dr db : Fin 16, let b2 := UInt8.ofNat dr <<< 4 ||| UInt8.ofNat db
    b2 >>> 4 &&& 0x0f = UInt8.ofNat dr ∧ b2 &&& 0x0f = UInt8.ofNat db := by
  decide

theorem index_bits : ∀ i : Fin 64, let b1 := UInt8.ofNat i
    b1 ≠ QOI_OP_RGB ∧ b1 ≠ QOI_OP_RGBA ∧ b1 &&& QOI_MASK_2 = QOI_OP_INDEX ∧ b1.toNat = i := by
  decide

theorem run_bits : ∀ more : Fin 62, let b1 := (0xc0 : UInt8) ||| UInt8.ofNat more
    b1 ≠ QOI_OP_RGB ∧ b1 ≠ QOI_OP_RGBA ∧ b1 &&& QOI_MASK_2 = QOI_OP_RUN ∧ (b1 &&& 0x3f).toNat = more := by
  decide

/-- Where no run goes on, the decoder reads a chunk and gives its pixel. -/
theorem nextPixel_chunk (h : d.Agrees s) (hrun : d.run = 0) (c : QoiChunk) (hfile : d.file = c.bytes ++ file) :
    nextPixel d =
      some ⟨Function.update d.index (hash (c.apply s)) (c.apply s), c.apply s, c.count - 1, file⟩ := by
  unfold nextPixel
  rw [if_neg (by omega), hfile]
  cases c with
  | rgb r g b => simp [QoiChunk.bytes, QoiChunk.apply, QoiChunk.count, h.px]
  | rgba p =>
      have hrgb : (0xff : UInt8) ≠ QOI_OP_RGB := by decide
      simp [QoiChunk.bytes, QoiChunk.apply, QoiChunk.count, hrgb]
  | index i =>
      obtain ⟨hrgb, hrgba, htag, hval⟩ := index_bits i
      simp only [QoiChunk.bytes, List.cons_append, List.nil_append, if_neg hrgb, if_neg hrgba, if_pos htag, hval, h.seen,
        QoiChunk.apply, QoiChunk.count]
      rfl
  | diff dr dg db =>
      obtain ⟨hrgb, hrgba, htag, hr, hg, hb⟩ := diff_bits dr dg db
      simp only [QoiChunk.bytes, List.cons_append, List.nil_append, if_neg hrgb, if_neg hrgba, htag, hr, hg, hb, h.px,
        QoiChunk.apply, QoiChunk.count]
      rfl
  | luma dg dr db =>
      obtain ⟨hrgb, hrgba, htag, hg⟩ := luma_bits dg
      obtain ⟨hr, hb⟩ := luma_bits' dr db
      simp only [QoiChunk.bytes, List.cons_append, List.nil_append, if_neg hrgb, if_neg hrgba, htag, hr, hg, hb, h.px,
        QoiChunk.apply, QoiChunk.count]
      rfl
  | run more =>
      obtain ⟨hrgb, hrgba, htag, hrun⟩ := run_bits more
      simp only [QoiChunk.bytes, List.cons_append, List.nil_append, if_neg hrgb, if_neg hrgba, htag, hrun, h.px,
        QoiChunk.apply, QoiChunk.count]
      rfl

/-- The next pixel is the first of those that are yet to come. -/
theorem nextPixel_yet {p : Rgba} {ps : List Rgba} (h : d.Yet (p :: ps)) :
    ∃ d', nextPixel d = some d' ∧ d'.px = p ∧ d'.Yet ps := by
  obtain ⟨s, cs, rest, hagrees, hfile, hps⟩ := h
  cases hrun : d.run with
  | succ run =>
      have hnext : nextPixel d = some { d with run := run } := by
        rw [nextPixel, if_pos (by omega), hrun]
        rfl
      rw [hrun, List.replicate_succ, List.cons_append] at hps
      obtain ⟨rfl, rfl⟩ := List.cons.inj hps
      exact ⟨_, hnext, rfl, s, cs, rest, ⟨hagrees.seen, hagrees.px⟩, hfile, rfl⟩
  | zero =>
      rw [hrun, List.replicate_zero, List.nil_append] at hps
      cases cs with
      | nil => cases hps
      | cons c cs =>
          obtain ⟨n, hcount⟩ := Nat.exists_eq_succ_of_ne_zero (Nat.ne_of_gt c.count_pos)
          rw [qoiPixels, hcount, List.replicate_succ, List.cons_append] at hps
          obtain ⟨rfl, rfl⟩ := List.cons.inj hps
          rw [List.flatMap_cons, List.append_assoc] at hfile
          refine ⟨_, nextPixel_chunk hagrees hrun c hfile, rfl, s.after c, cs, rest, hagrees.update c _ _, rfl, ?_⟩
          rw [hcount]
          rfl

end Pixels

/-! ### Pictures -/

/-- What a row of pixels paints, from its column `x` on. -/
def rowPaints (visibleWidth rowAddr x : Nat) (row : List Rgba) : List Paint :=
  ((row.take (visibleWidth - x)).zipIdx x).map fun p => ⟨rowAddr + 4 * p.2, color p.1⟩

/-- What a picture paints: row by row, cut to the columns and the rows that are visible. -/
def imagePaints (fbInfo : FbInfo) (width : Nat) : Nat → Nat → List Rgba → List Paint
  | _, 0, _ => []
  | y, n + 1, image =>
      rowPaints (min width fbInfo.width) (fbInfo.pitch * y) 0 (image.take width) ++
        imagePaints fbInfo width (y + 1) n (image.drop width)

section Pictures

variable {d : Decoder} {fbInfo : FbInfo} {visibleWidth rowAddr : Nat} {ps : List Rgba}

theorem drawRow_yet {row : List Rgba} (x : Nat) (h : d.Yet (row ++ ps)) :
    ∃ d', drawRow visibleWidth rowAddr x row.length d = some (rowPaints visibleWidth rowAddr x row, d') ∧ d'.Yet ps := by
  induction row generalizing x d with
  | nil => exact ⟨d, by simp [drawRow, rowPaints], h⟩
  | cons p row ih =>
      obtain ⟨d₁, hnext, rfl, hrest⟩ := nextPixel_yet h
      obtain ⟨d₂, hrow, hps⟩ := ih (x + 1) hrest
      refine ⟨d₂, ?_, hps⟩
      rw [List.length_cons, drawRow, hnext]
      simp only [Option.bind_eq_bind, Option.bind_some, hrow]
      congr 2
      unfold rowPaints
      by_cases hx : x < visibleWidth
      · obtain ⟨k, hk⟩ := Nat.exists_eq_add_of_lt hx
        have hsub : visibleWidth - x = visibleWidth - (x + 1) + 1 := by omega
        rw [if_pos hx, hsub, List.take_succ_cons, List.zipIdx_cons, List.map_cons]
        rfl
      · have hsub : visibleWidth - x = 0 := by omega
        have hsub' : visibleWidth - (x + 1) = 0 := by omega
        rw [if_neg hx, hsub, hsub']
        rfl

theorem drawRows_yet {width n : Nat} {image : List Rgba} (y : Nat) (hlen : width * n ≤ image.length)
    (h : d.Yet image) :
    drawRows fbInfo width (min width fbInfo.width) (fbInfo.pitch * y) n d = some (imagePaints fbInfo width y n image) := by
  induction n generalizing y image d with
  | zero => rfl
  | succ n ih =>
      rw [Nat.mul_succ] at hlen
      have hrow : (image.take width).length = width := by
        rw [List.length_take]
        omega
      have hrest : width * n ≤ (image.drop width).length := by
        rw [List.length_drop]
        omega
      rw [← List.take_append_drop width image] at h
      obtain ⟨d', hdraw, hd'⟩ := drawRow_yet 0 h
      rw [hrow] at hdraw
      have hbelow := ih (y + 1) hrest hd'
      rw [Nat.mul_succ] at hbelow
      rw [drawRows, imagePaints, hdraw]
      simp only [Option.bind_eq_bind, Option.bind_some, hbelow]

/-- What a picture paints lies in its rows of the frame buffer. -/
theorem imagePaints_inside {width y n : Nat} {image : List Rgba} (hpitch : 4 * fbInfo.width ≤ fbInfo.pitch)
    (hrows : y + n ≤ fbInfo.height) :
    ∀ p ∈ imagePaints fbInfo width y n image, p.offset + 4 ≤ fbInfo.pitch * fbInfo.height := by
  induction n generalizing y image with
  | zero => simp [imagePaints]
  | succ n ih =>
      intro p hp
      obtain hp | hp := List.mem_append.1 hp
      · obtain ⟨⟨px, x⟩, hx, rfl⟩ := List.mem_map.1 hp
        have hvisible : x < min width fbInfo.width := by
          have hlt := (List.mem_zipIdx hx).2.1
          rw [List.length_take] at hlt
          omega
        have hx4 : 4 * x + 4 ≤ fbInfo.pitch := by omega
        have hrow : fbInfo.pitch * y + fbInfo.pitch ≤ fbInfo.pitch * fbInfo.height := by
          rw [← Nat.mul_succ]
          exact Nat.mul_le_mul_left _ (by omega)
        change fbInfo.pitch * y + 4 * x + 4 ≤ fbInfo.pitch * fbInfo.height
        omega
      · exact ih (by omega) p hp

end Pictures

/-! ### Files -/

section Files

/-- A word of the header, highest byte first. -/
def bigEndian (w : BitVec 32) : List UInt8 :=
  [.ofBitVec ((w >>> 24).setWidth 8), .ofBitVec ((w >>> 16).setWidth 8), .ofBitVec ((w >>> 8).setWidth 8),
    .ofBitVec (w.setWidth 8)]

/-- `swap_bytes` turns around what the processor has read the wrong way. -/
theorem swapBytes_word (w : BitVec 32) :
    swapBytes (word (.ofBitVec ((w >>> 24).setWidth 8)) (.ofBitVec ((w >>> 16).setWidth 8))
      (.ofBitVec ((w >>> 8).setWidth 8)) (.ofBitVec (w.setWidth 8))) = w := by
  unfold swapBytes word
  ext i hi
  interval_cases i <;> simp

/-- A QOI file: the magic, the size of the picture, two bytes that are not used, the chunks, and anything behind them. -/
def qoiFile (width height : BitVec 32) (channels colorspace : UInt8) (cs : List QoiChunk) (rest : List UInt8) :
    List UInt8 :=
  ['q'.toUInt8, 'o'.toUInt8, 'i'.toUInt8, 'f'.toUInt8] ++ bigEndian width ++ bigEndian height ++ [channels, colorspace] ++
    (cs.flatMap QoiChunk.bytes ++ rest)

/-- The rows of the file are drawn from its chunks. -/
theorem imgview_qoiFile {fbInfo : FbInfo} {width height : BitVec 32} {cs : List QoiChunk}
    (hlen : width.toNat * min height.toNat fbInfo.height ≤ (qoiPixels .start cs).length) (channels colorspace : UInt8)
    (rest : List UInt8) :
    imgview fbInfo (qoiFile width height channels colorspace cs rest) =
      some (imagePaints fbInfo width.toNat 0 (min height.toNat fbInfo.height) (qoiPixels .start cs)) := by
  have hyet : Decoder.Yet ⟨fun _ => ⟨0, 0, 0, 0⟩, ⟨0, 0, 0, 255⟩, 0, cs.flatMap QoiChunk.bytes ++ rest⟩
      (qoiPixels .start cs) :=
    ⟨.start, cs, rest, ⟨fun _ => rfl, rfl⟩, rfl, rfl⟩
  have hrows : drawRows fbInfo width.toNat (min width.toNat fbInfo.width) (fbInfo.pitch * 0) _ _ = _ :=
    drawRows_yet 0 hlen hyet
  rw [← hrows, Nat.mul_zero]
  simp only [qoiFile, bigEndian, List.cons_append, List.nil_append, imgview, swapBytes_word]
  rfl

/-- `imgview` paints the pixels that the chunks of the file stand for, row by row and cut to the frame buffer, and nothing
    behind the frame buffer. -/
theorem imgview_shows {fbInfo : FbInfo} (hpitch : 4 * fbInfo.width ≤ fbInfo.pitch) {width height : BitVec 32}
    {cs : List QoiChunk} (hlen : width.toNat * min height.toNat fbInfo.height ≤ (qoiPixels .start cs).length)
    (channels colorspace : UInt8) (rest : List UInt8) :
    ∃ paints, imgview fbInfo (qoiFile width height channels colorspace cs rest) = some paints ∧
      paints = imagePaints fbInfo width.toNat 0 (min height.toNat fbInfo.height) (qoiPixels .start cs) ∧
      ∀ p ∈ paints, p.offset + 4 ≤ fbInfo.pitch * fbInfo.height :=
  ⟨_, imgview_qoiFile hlen channels colorspace rest, rfl, imagePaints_inside hpitch (by omega)⟩

/-- A run and a difference on a frame buffer of one column. -/
theorem imgview_shows_run :
    ∃ paints, imgview ⟨1, 1, 4⟩ (qoiFile 2 1 4 0 [.run 0, .diff 3 3 3] []) = some paints ∧
      paints = imagePaints ⟨1, 1, 4⟩ 2 0 1 (qoiPixels .start [.run 0, .diff 3 3 3]) ∧
      ∀ p ∈ paints, p.offset + 4 ≤ 4 * 1 := by
  have hpitch : 4 * (FbInfo.mk 1 1 4).width ≤ (FbInfo.mk 1 1 4).pitch := by decide
  have hlen : (2 : BitVec 32).toNat * min (1 : BitVec 32).toNat (FbInfo.mk 1 1 4).height ≤
      (qoiPixels .start [.run 0, .diff 3 3 3]).length := by decide
  exact imgview_shows hpitch hlen 4 0 []

/-- A picture that is encoded is shown as it is, whatever its size. -/
theorem imgview_encode (fbInfo : FbInfo) {width height : BitVec 32} {image : List Rgba}
    (hlen : image.length = width.toNat * height.toNat) (channels colorspace : UInt8) (rest : List UInt8) :
    imgview fbInfo (qoiFile width height channels colorspace (qoiEncode image) rest) =
      some (imagePaints fbInfo width.toNat 0 (min height.toNat fbInfo.height) image) := by
  have henough : width.toNat * min height.toNat fbInfo.height ≤ (qoiPixels .start (qoiEncode image)).length := by
    rw [qoiPixels_encode, hlen]
    exact Nat.mul_le_mul_left _ (Nat.min_le_left _ _)
  rw [imgview_qoiFile henough, qoiPixels_encode]

/-- A picture of two pixels on a frame buffer of one column. -/
def twoPixels : List Rgba := [⟨0, 0, 0, 255⟩, ⟨1, 2, 3, 255⟩]

theorem imgview_encode_twoPixels :
    imgview ⟨1, 1, 4⟩ (qoiFile 2 1 4 0 (qoiEncode twoPixels) []) = some (imagePaints ⟨1, 1, 4⟩ 2 0 1 twoPixels) := by
  have hlen : twoPixels.length = (2 : BitVec 32).toNat * (1 : BitVec 32).toNat := rfl
  exact imgview_encode ⟨1, 1, 4⟩ hlen 4 0 []

end Files

end ImgView

end Chaotix
