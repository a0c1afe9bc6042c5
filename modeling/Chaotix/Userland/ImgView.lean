/-
Module: Chaotix.Userland.ImgView
Layer: Userland
Purpose: How `imgview` shows a QOI file on the frame buffer: the header with its swapped words, the decoder that reads the
  file byte by byte, and the loop over the rows. What is written to the frame buffer is recorded with its offset. The
  code does not look whether a `read` has got anything, so behind the end of the file there is no value here.
Imports: Mathlib.Logic.Function.Basic, Chaotix.Lib.QoiFormat
Trusted boundary: human-reviewed model of `userland/imgview.c` from the header on; `Rgba` is its `qoi_rgba_t`
Main exports: hash, swapBytes, FbInfo, QoiDecoder, nextPixel, Paint, drawRow, drawRows, imgview
-/
import Mathlib.Logic.Function.Basic
import Chaotix.Lib.QoiFormat

namespace Chaotix

namespace ImgView

abbrev QOI_OP_INDEX : UInt8 := 0x00

abbrev QOI_OP_DIFF : UInt8 := 0x40

abbrev QOI_OP_LUMA : UInt8 := 0x80

abbrev QOI_OP_RUN : UInt8 := 0xc0

abbrev QOI_OP_RGB : UInt8 := 0xfe

abbrev QOI_OP_RGBA : UInt8 := 0xff

abbrev QOI_MASK_2 : UInt8 := 0xc0

/-- `hash`. -/
def hash (c : Rgba) : Nat := (c.r.toNat * 3 + c.g.toNat * 5 + c.b.toNat * 7 + c.a.toNat * 11) % 64

/-- `swap_bytes`. -/
def swapBytes (x : BitVec 32) : BitVec 32 :=
  x >>> 24 &&& 0xff ||| x <<< 8 &&& 0xff0000 ||| x >>> 8 &&& 0xff00 ||| x <<< 24 &&& 0xff000000

/-- `struct fb_info`, for 32 bits per pixel. -/
structure FbInfo where
  width : Nat
  height : Nat
  pitch : Nat

/-- The variables of the decoder, with what is left of the file. -/
structure Decoder where
  index : Nat → Rgba
  px : Rgba
  run : Nat
  file : List UInt8

/-- The next pixel. Arithmetic on a channel wraps, so it is the same before and after an `int` is cut to a byte. -/
def nextPixel (d : Decoder) : Option Decoder :=
  if 0 < d.run then some { d with run := d.run - 1 }
  else
    let px := d.px
    let read : Option (Rgba × Nat × List UInt8) :=
      match d.file with
      | [] => none
      | b1 :: file =>
          if b1 = QOI_OP_RGB then
            match file with
            | r :: g :: b :: file => some (⟨r, g, b, px.a⟩, 0, file)
            | _ => none
          else if b1 = QOI_OP_RGBA then
            match file with
            | r :: g :: b :: a :: file => some (⟨r, g, b, a⟩, 0, file)
            | _ => none
          else if b1 &&& QOI_MASK_2 = QOI_OP_INDEX then some (d.index b1.toNat, 0, file)
          else if b1 &&& QOI_MASK_2 = QOI_OP_DIFF then
            let dr : UInt8 := b1 >>> 4 &&& 0x03
            let dg : UInt8 := b1 >>> 2 &&& 0x03
            let db : UInt8 := b1 &&& 0x03
            some (⟨px.r + (dr - 2), px.g + (dg - 2), px.b + (db - 2), px.a⟩, 0, file)
          else if b1 &&& QOI_MASK_2 = QOI_OP_LUMA then
            match file with
            | b2 :: file =>
                let vg : UInt8 := (b1 &&& 0x3f) - 32
                let vr : UInt8 := b2 >>> 4 &&& 0x0f
                let vb : UInt8 := b2 &&& 0x0f
                some (⟨px.r + (vg - 8 + vr), px.g + vg, px.b + (vg - 8 + vb), px.a⟩, 0, file)
            | [] => none
          else some (px, (b1 &&& 0x3f).toNat, file)
    read.map fun (px, run, file) => ⟨Function.update d.index (hash px) px, px, run, file⟩

/-- A pixel that is written to the frame buffer. -/
structure Paint where
  offset : Nat
  value : BitVec 32
deriving DecidableEq, Repr

/-- `(px.rgba.r << 16) | (px.rgba.g << 8) | px.rgba.b`. -/
def color (px : Rgba) : BitVec 32 :=
  px.r.toBitVec.setWidth 32 <<< 16 ||| px.g.toBitVec.setWidth 32 <<< 8 ||| px.b.toBitVec.setWidth 32

/-- The loop over the pixels of a row, from `x` on. -/
def drawRow (visibleWidth rowAddr : Nat) : Nat → Nat → Decoder → Option (List Paint × Decoder)
  | _, 0, d => some ([], d)
  | x, n + 1, d => do
      let d ← nextPixel d
      let (paints, d') ← drawRow visibleWidth rowAddr (x + 1) n d
      some ((if x < visibleWidth then [⟨rowAddr + 4 * x, color d.px⟩] else []) ++ paints, d')

/-- The loop over the rows. -/
def drawRows (fbInfo : FbInfo) (width visibleWidth : Nat) : Nat → Nat → Decoder → Option (List Paint)
  | _, 0, _ => some []
  | rowAddr, n + 1, d => do
      let (paints, d) ← drawRow visibleWidth rowAddr 0 width d
      let rest ← drawRows fbInfo width visibleWidth (rowAddr + fbInfo.pitch) n d
      some (paints ++ rest)

/-- A word of the file, lowest byte first. -/
def word (b0 b1 b2 b3 : UInt8) : BitVec 32 :=
  b3.toBitVec.setWidth 32 <<< 24 ||| b2.toBitVec.setWidth 32 <<< 16 ||| b1.toBitVec.setWidth 32 <<< 8 |||
    b0.toBitVec.setWidth 32

/-- `main` from the header on: what is drawn, or nothing for a file that is no QOI file. -/
def imgview (fbInfo : FbInfo) (file : List UInt8) : Option (List Paint) :=
  match file with
  | m0 :: m1 :: m2 :: m3 :: w0 :: w1 :: w2 :: w3 :: h0 :: h1 :: h2 :: h3 :: _channels :: _colorspace :: file =>
      if [m0, m1, m2, m3] ≠ ['q'.toUInt8, 'o'.toUInt8, 'i'.toUInt8, 'f'.toUInt8] then none
      else
        let width := (swapBytes (word w0 w1 w2 w3)).toNat
        let height := (swapBytes (word h0 h1 h2 h3)).toNat
        drawRows fbInfo width (min width fbInfo.width) 0 (min height fbInfo.height)
          ⟨fun _ => ⟨0, 0, 0, 0⟩, ⟨0, 0, 0, 255⟩, 0, file⟩
  | _ => none

end ImgView

end Chaotix
