/-
Module: Chaotix.Lib.QoiFormat
Layer: Lib
Purpose: The QOI image format: the chunks of a picture, the bytes of a chunk, the pixels that chunks stand for, and an
  encoder. A chunk gives the next pixel as itself, as a difference, as one of the 64 pixels seen last in their places,
  or as a run of the last one.
Imports: Mathlib.Logic.Function.Basic
Trusted boundary: the statement of the format
Main exports: Rgba, Rgba.place, QoiChunk, QoiChunk.bytes, QoiState, QoiChunk.apply, qoiPixels, qoiEncode, qoiPixels_encode
-/
import Mathlib.Logic.Function.Basic

/-- A pixel. -/
structure Rgba where
  r : UInt8
  g : UInt8
  b : UInt8
  a : UInt8
deriving DecidableEq, Repr

/-- The place of a pixel among those seen last. -/
def Rgba.place (p : Rgba) : Fin 64 :=
  Fin.ofNat 64 (p.r.toNat * 3 + p.g.toNat * 5 + p.b.toNat * 7 + p.a.toNat * 11)

/-- A chunk. The differences are stored with a bias, and a run goes on for one pixel more than it says. -/
inductive QoiChunk where
  | rgb (r g b : UInt8)
  | rgba (p : Rgba)
  | index (i : Fin 64)
  | diff (dr dg db : Fin 4)
  | luma (dg : Fin 64) (dr db : Fin 16)
  | run (more : Fin 62)
deriving DecidableEq, Repr

/-- How a chunk is written. -/
def QoiChunk.bytes : QoiChunk → List UInt8
  | .rgb r g b => [0xfe, r, g, b]
  | .rgba p => [0xff, p.r, p.g, p.b, p.a]
  | .index i => [UInt8.ofNat i]
  | .diff dr dg db => [(0x40 : UInt8) ||| UInt8.ofNat dr <<< 4 ||| UInt8.ofNat dg <<< 2 ||| UInt8.ofNat db]
  | .luma dg dr db => [(0x80 : UInt8) ||| UInt8.ofNat dg, UInt8.ofNat dr <<< 4 ||| UInt8.ofNat db]
  | .run more => [(0xc0 : UInt8) ||| UInt8.ofNat more]

/-- What a chunk depends on. -/
structure QoiState where
  seen : Fin 64 → Rgba
  px : Rgba

/-- Before the first chunk. -/
def QoiState.start : QoiState := ⟨fun _ => ⟨0, 0, 0, 0⟩, ⟨0, 0, 0, 255⟩⟩

/-- The pixel of a chunk. -/
def QoiChunk.apply (c : QoiChunk) (s : QoiState) : Rgba :=
  match c with
  | .rgb r g b => ⟨r, g, b, s.px.a⟩
  | .rgba p => p
  | .index i => s.seen i
  | .diff dr dg db =>
      ⟨s.px.r + (UInt8.ofNat dr - 2), s.px.g + (UInt8.ofNat dg - 2), s.px.b + (UInt8.ofNat db - 2), s.px.a⟩
  | .luma dg dr db =>
      ⟨s.px.r + (UInt8.ofNat dg - 32 - 8 + UInt8.ofNat dr), s.px.g + (UInt8.ofNat dg - 32),
        s.px.b + (UInt8.ofNat dg - 32 - 8 + UInt8.ofNat db), s.px.a⟩
  | .run _ => s.px

/-- How often the pixel of a chunk comes. -/
def QoiChunk.count : QoiChunk → Nat
  | .run more => more.val + 1
  | _ => 1

/-- Behind a chunk. -/
def QoiState.after (s : QoiState) (c : QoiChunk) : QoiState :=
  ⟨Function.update s.seen (c.apply s).place (c.apply s), c.apply s⟩

/-- The pixels of a list of chunks. -/
def qoiPixels : QoiState → List QoiChunk → List Rgba
  | _, [] => []
  | s, c :: cs => List.replicate c.count (c.apply s) ++ qoiPixels (s.after c) cs

theorem QoiChunk.count_pos (c : QoiChunk) : 0 < c.count := by
  cases c <;> exact Nat.succ_pos _

/-! ### Encoding -/

/-- The chunk for a pixel that is not the last one. -/
def chunkFor (s : QoiState) (p : Rgba) : QoiChunk :=
  if s.seen p.place = p then .index p.place
  else if p.a ≠ s.px.a then .rgba p
  else if h : (p.r - s.px.r + 2).toNat < 4 ∧ (p.g - s.px.g + 2).toNat < 4 ∧ (p.b - s.px.b + 2).toNat < 4 then
    .diff ⟨(p.r - s.px.r + 2).toNat, h.1⟩ ⟨(p.g - s.px.g + 2).toNat, h.2.1⟩ ⟨(p.b - s.px.b + 2).toNat, h.2.2⟩
  else if h : (p.g - s.px.g + 32).toNat < 64 ∧ (p.r - s.px.r - (p.g - s.px.g) + 8).toNat < 16 ∧
      (p.b - s.px.b - (p.g - s.px.g) + 8).toNat < 16 then
    .luma ⟨(p.g - s.px.g + 32).toNat, h.1⟩ ⟨(p.r - s.px.r - (p.g - s.px.g) + 8).toNat, h.2.1⟩
      ⟨(p.b - s.px.b - (p.g - s.px.g) + 8).toNat, h.2.2⟩
  else .rgb p.r p.g p.b

/-- The chunk gives the pixel. -/
theorem chunkFor_apply (s : QoiState) (p : Rgba) : (chunkFor s p).apply s = p := by
  unfold chunkFor
  split
  · assumption
  · split
    · rfl
    · rename_i halpha
      have halpha : s.px.a = p.a := (not_not.1 halpha).symm
      split
      · simp only [QoiChunk.apply, halpha, UInt8.ofNat_toNat]
        congr 1
        · grind
        · grind
        · grind
      · split
        · simp only [QoiChunk.apply, halpha, UInt8.ofNat_toNat]
          congr 1
          · grind
          · grind
          · grind
        · simp only [QoiChunk.apply, halpha]

/-- A run that has been counted. -/
def flushRun : Nat → List QoiChunk
  | 0 => []
  | n + 1 => [.run (Fin.ofNat 62 n)]

/-- The chunks for pixels behind so many that are the same as the last one. -/
def qoiEncodeRun (s : QoiState) (n : Nat) : List Rgba → List QoiChunk
  | [] => flushRun n
  | p :: ps =>
      if p = s.px then
        if n = 61 then .run 61 :: qoiEncodeRun (s.after (.run 61)) 0 ps
        else qoiEncodeRun s (n + 1) ps
      else
        match n with
        | 0 => chunkFor s p :: qoiEncodeRun (s.after (chunkFor s p)) 0 ps
        | n + 1 =>
            let s' := s.after (.run (Fin.ofNat 62 n))
            .run (Fin.ofNat 62 n) :: chunkFor s' p :: qoiEncodeRun (s'.after (chunkFor s' p)) 0 ps

/-- The chunks for the pixels of a picture. -/
def qoiEncode (ps : List Rgba) : List QoiChunk := qoiEncodeRun .start 0 ps

theorem qoiPixels_flushRun {n : Nat} (hn : n ≤ 62) (s : QoiState) : qoiPixels s (flushRun n) = List.replicate n s.px := by
  cases n with
  | zero => rfl
  | succ n =>
      have hval : (Fin.ofNat 62 n).val = n := Nat.mod_eq_of_lt hn
      rw [flushRun, qoiPixels, QoiChunk.count, hval]
      simp [qoiPixels, QoiChunk.apply]

theorem count_chunkFor (s : QoiState) (p : Rgba) : (chunkFor s p).count = 1 := by
  unfold chunkFor
  split
  · rfl
  · split
    · rfl
    · split
      · rfl
      · split
        · rfl
        · rfl

theorem qoiPixels_chunkFor (s : QoiState) (p : Rgba) (cs : List QoiChunk) :
    qoiPixels s (chunkFor s p :: cs) = p :: qoiPixels (s.after (chunkFor s p)) cs := by
  rw [qoiPixels, count_chunkFor, chunkFor_apply]
  rfl

theorem after_px (s : QoiState) (c : QoiChunk) : (s.after c).px = c.apply s := rfl

theorem qoiPixels_encodeRun {n : Nat} (hn : n ≤ 61) (s : QoiState) (ps : List Rgba) :
    qoiPixels s (qoiEncodeRun s n ps) = List.replicate n s.px ++ ps := by
  induction ps generalizing s n with
  | nil =>
      rw [qoiEncodeRun, qoiPixels_flushRun (Nat.le_succ_of_le hn), List.append_nil]
  | cons p ps ih =>
      unfold qoiEncodeRun
      split
      · rename_i hsame
        subst hsame
        split
        · rename_i hfull
          subst hfull
          rw [qoiPixels, ih (Nat.zero_le 61)]
          rfl
        · rename_i hmore
          rw [ih (Nat.lt_of_le_of_ne hn hmore), List.replicate_succ', List.append_assoc]
          rfl
      · split
        · rw [qoiPixels_chunkFor, ih (Nat.zero_le 61)]
          rfl
        · rename_i n
          have hval : (Fin.ofNat 62 n).val = n := Nat.mod_eq_of_lt (Nat.lt_of_lt_of_le hn (by decide))
          dsimp only
          rw [qoiPixels, qoiPixels_chunkFor, ih (Nat.zero_le 61), QoiChunk.count, hval]
          rfl

/-- The encoder loses nothing. -/
theorem qoiPixels_encode (ps : List Rgba) : qoiPixels .start (qoiEncode ps) = ps :=
  qoiPixels_encodeRun (Nat.zero_le 61) .start ps
