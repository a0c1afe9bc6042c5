/-
Module: Chaotix.Proofs.ConsoleBounds
Layer: Proofs
Purpose: Which bytes make the console use an index outside its arrays. Two things can: a step to the line below the
  last one, which marks that line before the screen scrolls, and parameters of an escape sequence beyond the end of
  `param_buf`. Without these every index is inside.
Imports: Mathlib.Data.List.TakeWhile, Chaotix.Proofs.ConsoleRedraw
Trusted boundary: none
Main exports: FbConsole.Contained, FbConsole.Sound, console_indices_inside_iff
-/
import Mathlib.Data.List.TakeWhile
import Chaotix.Proofs.ConsoleRedraw

namespace Chaotix

namespace FbConsole

variable {scr : Screen} {s t : FbConsole}

/-- `handle_ground` writes the character to a cell. -/
def IsWritten (c : UInt8) : Prop :=
  c ∉ ['\x1b'.toUInt8, '\r'.toUInt8, '\n'.toUInt8, '\x08'.toUInt8, '\t'.toUInt8] ∧ charWord c ≤ 127

/-- The character begins a new line: it is a newline, or it is written while a line end waits. -/
def BeginsLine (s : FbConsole) (c : UInt8) : Prop := c = '\n'.toUInt8 ∨ IsWritten c ∧ s.stomp = true

/-- The byte finds room: a new line is begun only above the last one, and a byte of an escape sequence comes while
    `param_buf` is not full. -/
def Contained (scr : Screen) (s : FbConsole) (c : UInt8) : Prop :=
  match s.state with
  | .ground => BeginsLine s c → wordSucc s.cursorY < scr.consoleHeight
  | .esc => c ≠ '['.toUInt8 → BeginsLine s c → wordSucc s.cursorY < scr.consoleHeight
  | .csi => s.paramBufIdx < PARAM_BUF_SIZE

/-- All bytes of a write find room, each in the state that it meets. -/
def WriteContained (scr : Screen) : FbConsole → List UInt8 → Prop
  | _, [] => True
  | s, c :: buffer => Contained scr s c ∧ WriteContained scr (s.onChar scr c) buffer

/-- All bytes of all writes find room. -/
def WritesContained (scr : Screen) : FbConsole → List (List UInt8) → Prop
  | _, [] => True
  | s, buffer :: writes => WriteContained scr s buffer ∧ WritesContained scr (fbConsoleDeviceWrite scr s buffer) writes

/-- A cell that is drawn with indices inside `palette` and `ascii_to_glyph`. -/
structure CellSound (c : Cell) : Prop where
  ch : charWord c.ch < 128
  fgColor : c.fgColor < 16
  bgColor : c.bgColor < 16

/-- The cursor is in a line, the colors are colors, the cells of some indices are sound, and every index used so
    far was inside. -/
structure Sound (scr : Screen) (P : Nat → Prop) (s : FbConsole) : Prop where
  cursorY : s.cursorY < scr.consoleHeight
  fgColor : s.fgColor < 16
  bgColor : s.bgColor < 16
  cells : ∀ i, P i → CellSound (s.cells.getD i default)
  paramBuf : s.paramBuf.length = PARAM_BUF_SIZE
  accesses : ∀ a ∈ s.accesses, a.Within scr

/-! ### Cells and lines -/

section Lines

variable {P Q : Nat → Prop}

theorem Sound.mono (h : Sound scr P s) (hle : ∀ i, Q i → P i) : Sound scr Q s :=
  { h with cells := fun i hi => h.cells i (hle i hi) }

theorem Sound.access (h : Sound scr P s) {is : List ConsoleIndex} (his : ∀ a ∈ is, a.Within scr) :
    Sound scr P (s.access is) := by
  refine { h with accesses := fun a ha => ?_ }
  rcases List.mem_append.1 ha with hnew | hold
  · exact his a hnew
  · exact h.accesses a hold

theorem Sound.setLineIsDirty (h : Sound scr P s) {y : Nat} (hy : y < scr.consoleHeight) (dirty : Bool) :
    Sound scr P (s.setLineIsDirty y dirty) := by
  refine { h with accesses := fun a ha => ?_ }
  rcases List.mem_cons.1 ha with rfl | hold
  · exact hy
  · exact h.accesses a hold

theorem Sound.setCursor (h : Sound scr P s) (x : Nat) {y : Nat} (hy : y < scr.consoleHeight) :
    Sound scr P (s.setCursor x y) := by
  have hstart : Sound scr P { s with stomp := false } := { h with }
  exact { (hstart.setLineIsDirty h.cursorY true).setLineIsDirty hy true with cursorY := hy }

theorem cellSound_default : CellSound default := ⟨by decide, by decide, by decide⟩

/-- The cell that is written is sound. -/
theorem Sound.setCell (h : Sound scr P s) {i : Nat} {c : UInt8} (hi : i < scr.consoleWidth * scr.consoleHeight)
    (hc : charWord c < 128) : Sound scr (fun j => P j ∨ j = i) (s.setCell i c) := by
  have hcell : ∀ j, P j ∨ j = i → CellSound ((s.setCell i c).cells.getD j default) := by
    intro j hj
    simp only [FbConsole.setCell, FbConsole.access, List.getD_eq_getElem?_getD, List.getElem?_set]
    split
    · split
      · exact ⟨hc, h.fgColor, h.bgColor⟩
      · exact cellSound_default
    · rename_i hne
      rw [← List.getD_eq_getElem?_getD]
      exact h.cells j (hj.resolve_right fun heq => hne heq.symm)
  refine { h with cells := hcell, accesses := fun a ha => ?_ }
  rcases List.mem_cons.1 ha with rfl | hold
  · exact hi
  · exact h.accesses a hold

theorem Sound.foldl {ι : Type} {f : FbConsole → ι → FbConsole} {l : List ι} (h : Sound scr P s)
    (hstep : ∀ i ∈ l, ∀ t, Sound scr P t → Sound scr P (f t i)) : Sound scr P (l.foldl f s) := by
  induction l generalizing s with
  | nil => exact h
  | cons i l ih =>
      exact ih (hstep i List.mem_cons_self s h) fun j hj => hstep j (List.mem_cons_of_mem i hj)

/-- The index of a cell in a line. -/
theorem index_lt {x y w n : Nat} (hx : x < w) (hy : y < n) : x + y * w < w * n := by
  have hmul : (y + 1) * w ≤ n * w := Nat.mul_le_mul_right w hy
  rw [Nat.add_mul, Nat.one_mul] at hmul
  rw [Nat.mul_comm w n]
  omega

theorem charWord_space : charWord ' '.toUInt8 < 128 := by decide

/-- The cells that are cleared are sound. -/
theorem Sound.clearLineAt_cells (h : Sound scr P s) {x y length : Nat} (hx : x + length ≤ scr.consoleWidth)
    (hy : y < scr.consoleHeight) :
    Sound scr (fun j => P j ∨ x + y * scr.consoleWidth ≤ j ∧ j < x + y * scr.consoleWidth + length)
      (s.clearLineAt scr x y length) := by
  refine Sound.setLineIsDirty ?_ hy true
  refine foldl_range_induction (fun n t => Sound scr
    (fun j => P j ∨ x + y * scr.consoleWidth ≤ j ∧ j < x + y * scr.consoleWidth + n) t) ?_ ?_
  · exact h.mono fun j hj => hj.resolve_right (by omega)
  · intro i hi t ht
    have hindex : x + y * scr.consoleWidth + i < scr.consoleWidth * scr.consoleHeight := by
      rw [Nat.add_right_comm]
      exact index_lt (by omega) hy
    refine (ht.setCell hindex charWord_space).mono fun j hj => ?_
    rcases hj with hj | hj
    · exact Or.inl (Or.inl hj)
    · rcases Nat.lt_or_ge j (x + y * scr.consoleWidth + i) with hlt | hge
      · exact Or.inl (Or.inr ⟨hj.1, hlt⟩)
      · exact Or.inr (by omega)

theorem Sound.clearLineAt (h : Sound scr P s) {x y length : Nat} (hx : x + length ≤ scr.consoleWidth)
    (hy : y < scr.consoleHeight) : Sound scr P (s.clearLineAt scr x y length) :=
  (h.clearLineAt_cells hx hy).mono fun _ => Or.inl

theorem Sound.clearLine (h : Sound scr P s) {y : Nat} (hy : y < scr.consoleHeight) :
    Sound scr P (s.clearLineAt scr 0 y scr.consoleWidth) :=
  h.clearLineAt (Nat.zero_add scr.consoleWidth).le hy

/-- A cleared screen has only sound cells. -/
theorem Sound.clearScreen (h : Sound scr P s) :
    Sound scr (fun j => P j ∨ j < scr.consoleHeight * scr.consoleWidth) (s.clearScreen scr) := by
  have hloop : Sound scr (fun j => P j ∨ j < scr.consoleHeight * scr.consoleWidth)
      ((List.range scr.consoleHeight).foldl (fun s y => s.clearLineAt scr 0 y scr.consoleWidth) s) := by
    refine foldl_range_induction (fun n t => Sound scr (fun j => P j ∨ j < n * scr.consoleWidth) t) ?_ ?_
    · exact h.mono fun j hj => hj.resolve_right (by omega)
    · intro y hy t ht
      refine (ht.clearLineAt_cells (Nat.zero_add scr.consoleWidth).le hy).mono fun j hj => ?_
      rcases hj with hj | hj
      · exact Or.inl (Or.inl hj)
      · rw [Nat.add_mul, Nat.one_mul] at hj
        omega
  exact { hloop with }

theorem Sound.writeCharAt (h : Sound scr P s) {x y : Nat} {c : UInt8} (hx : x < scr.consoleWidth)
    (hy : y < scr.consoleHeight) (hc : charWord c < 128) : Sound scr P (s.writeCharAt scr x y c) :=
  ((h.setCell (index_lt hx hy) hc).mono fun _ => Or.inl).setLineIsDirty hy true

theorem Sound.stopAtRightEnd (h : Sound scr P s) : Sound scr P (s.stopAtRightEnd scr) := by
  unfold FbConsole.stopAtRightEnd
  split
  · exact { h.setCursor (wordPred scr.consoleWidth) h.cursorY with }
  · exact h

end Lines

/-! ### Drawing -/

theorem Sound.flushLine (h : Sound scr (fun _ => True) s) {y : Nat} (hy : y < scr.consoleHeight) :
    Sound scr (fun _ => True) (s.flushLine scr y) := by
  refine h.foldl fun x hx t ht => ?_
  have hcell := ht.cells (y * scr.consoleWidth + x) trivial
  have hindex : y * scr.consoleWidth + x < scr.consoleWidth * scr.consoleHeight :=
    Nat.add_comm x _ ▸ index_lt (List.mem_range.1 hx) hy
  have hread : Sound scr (fun _ => True) (t.access [.cell (y * scr.consoleWidth + x)]) := by
    refine ht.access fun a ha => ?_
    rw [List.mem_singleton.1 ha]
    exact hindex
  have hdraw : Sound scr (fun _ => True) { t.access [.cell (y * scr.consoleWidth + x)] with
      fb := drawCell scr t.fb x y (t.cells.getD (y * scr.consoleWidth + x) default) (t.isCursorAt x y) } :=
    { hread with }
  refine hdraw.access fun a ha => ?_
  simp only [List.mem_cons, List.not_mem_nil, or_false] at ha
  rcases ha with rfl | rfl | rfl
  · exact hcell.ch
  · exact hcell.bgColor
  · exact hcell.fgColor

theorem Sound.flush (h : Sound scr (fun _ => True) s) : Sound scr (fun _ => True) (s.flush scr) := by
  have hclear : ∀ fb, Sound scr (fun _ => True) { s with fb := fb, wholeScreenShouldBeCleared := false } :=
    fun fb => { h with }
  unfold FbConsole.flush
  refine Sound.foldl ?_ fun y hy t ht => ?_
  · split
    · refine (hclear _).access fun a ha => ?_
      rw [List.mem_singleton.1 ha]
      exact h.bgColor
    · exact h
  · have hline : Sound scr (fun _ => True) (t.access [.line y]) := by
      refine ht.access fun a ha => ?_
      rw [List.mem_singleton.1 ha]
      exact List.mem_range.1 hy
    simp only
    split
    · exact (hline.flushLine (List.mem_range.1 hy)).setLineIsDirty (List.mem_range.1 hy) false
    · exact hline

/-! ### Escape sequences -/

variable {P : Nat → Prop}

theorem Sound.readParams (h : Sound scr P s) (hparams : s.params.length < PARAM_BUF_SIZE) :
    Sound scr P s.readParams := by
  refine h.access fun a ha => ?_
  obtain ⟨i, hi, rfl⟩ := List.mem_map.1 ha
  exact Nat.lt_of_le_of_lt (Nat.le_of_lt_succ (List.mem_range.1 hi)) hparams

theorem MovesCursor.sound (hmove : MovesCursor scr s t) (h : Sound scr P s)
    (hparams : s.params.length < PARAM_BUF_SIZE) : Sound scr P t := by
  obtain ⟨x, y, rfl, _, hy⟩ := hmove
  exact (h.readParams hparams).setCursor x (hy h.cursorY)

theorem Sound.handleCsiEd (h : Sound scr P s) (hx : s.cursorX < scr.consoleWidth)
    (hparams : s.params.length < PARAM_BUF_SIZE) : Sound scr P (s.handleCsiEd scr) := by
  have hread := h.readParams hparams
  have hright : s.cursorX + wordSub scr.consoleWidth s.cursorX ≤ scr.consoleWidth := by
    rw [wordSub_of_le hx.le scr.consoleWidth_lt]
    omega
  have hleft : 0 + wordSucc s.cursorX ≤ scr.consoleWidth := by
    rw [wordSucc_of_lt hx scr.consoleWidth_lt]
    omega
  unfold FbConsole.handleCsiEd
  simp only
  split
  · refine (hread.clearLineAt hright h.cursorY).foldl fun y hy t ht => ht.clearLine ?_
    have hrange := List.mem_range'_1.1 hy
    omega
  · have hcursor : ((List.range s.readParams.cursorY).foldl
        (fun s y => s.clearLineAt scr 0 y scr.consoleWidth) s.readParams).control = s.readParams.control :=
      control_foldl (fun t y => control_clearLineAt t 0 y scr.consoleWidth) _ _
    have habove := hread.foldl fun y hy t (ht : Sound scr P t) =>
      ht.clearLine ((List.mem_range.1 hy).trans h.cursorY)
    refine habove.clearLineAt ?_ habove.cursorY
    rw [cursorX_eq hcursor]
    exact hleft
  · exact hread.clearScreen.mono fun _ => Or.inl
  · exact hread

theorem Sound.handleCsiEl (h : Sound scr P s) (hx : s.cursorX < scr.consoleWidth)
    (hparams : s.params.length < PARAM_BUF_SIZE) : Sound scr P (s.handleCsiEl scr) := by
  have hread := h.readParams hparams
  have hright : s.cursorX + wordSub scr.consoleWidth s.cursorX ≤ scr.consoleWidth := by
    rw [wordSub_of_le hx.le scr.consoleWidth_lt]
    omega
  have hleft : 0 + wordSucc s.cursorX ≤ scr.consoleWidth := by
    rw [wordSucc_of_lt hx scr.consoleWidth_lt]
    omega
  unfold FbConsole.handleCsiEl
  simp only
  split
  · exact hread.clearLineAt hright h.cursorY
  · exact hread.clearLineAt hleft h.cursorY
  · exact hread.clearLine h.cursorY
  · exact hread

/-- Colors stay colors. -/
theorem selectRendition_lt {r : Nat × Nat × Bool} (num : Nat) (h : r.1 < 16 ∧ r.2.1 < 16) :
    (selectRendition r num).1 < 16 ∧ (selectRendition r num).2.1 < 16 := by
  obtain ⟨fg, bg, bold⟩ := r
  obtain ⟨hfg, hbg⟩ := h
  simp only at hfg hbg
  have hbold : (if bold then 8 else 0) ≤ 8 := by
    split <;> decide
  simp only [selectRendition, DEFAULT_FG_COLOR, DEFAULT_BG_COLOR]
  split_ifs <;> simp only <;> omega

theorem Sound.handleCsiSgr (h : Sound scr P s) (hparams : s.params.length < PARAM_BUF_SIZE) :
    Sound scr P s.handleCsiSgr := by
  have hread := h.readParams hparams
  unfold FbConsole.handleCsiSgr
  simp only
  split
  · have hdefault : DEFAULT_FG_COLOR < 16 ∧ DEFAULT_BG_COLOR < 16 := by decide
    exact { hread with fgColor := hdefault.1, bgColor := hdefault.2 }
  · have hcolors : ∀ (nums : List Nat) (r : Nat × Nat × Bool), r.1 < 16 ∧ r.2.1 < 16 →
        (nums.foldl selectRendition r).1 < 16 ∧ (nums.foldl selectRendition r).2.1 < 16 := by
      intro nums
      induction nums with
      | nil => exact fun r hr => hr
      | cons num nums ih => exact fun r hr => ih _ (selectRendition_lt num hr)
    obtain ⟨hfg, hbg⟩ := hcolors ((tokens s.readParams.params).map atoi)
      (s.readParams.fgColor, s.readParams.bgColor, false) ⟨h.fgColor, h.bgColor⟩
    exact { hread with fgColor := hfg, bgColor := hbg }

theorem Sound.handleCsiDectcem (h : Sound scr P s) (c : UInt8) (hparams : s.params.length < PARAM_BUF_SIZE) :
    Sound scr P (s.handleCsiDectcem c) := by
  have hread := h.readParams hparams
  have hvisible : ∀ visible, Sound scr P { s.readParams with isCursorVisible := visible } := fun _ => { hread with }
  unfold FbConsole.handleCsiDectcem
  simp only
  split
  · exact hread
  split
  · exact (hvisible true).setLineIsDirty h.cursorY true
  split
  · exact (hvisible false).setLineIsDirty h.cursorY true
  · exact hread

theorem Sound.handleCsi (h : Sound scr P s) (c : UInt8) (hx : s.cursorX < scr.consoleWidth)
    (hparams : s.params.length < PARAM_BUF_SIZE) : Sound scr P (s.handleCsi scr c) := by
  unfold FbConsole.handleCsi
  split
  · exact (movesCursor_handleCsiCuu s).sound h hparams
  split
  · exact (movesCursor_handleCsiCud s).sound h hparams
  split
  · exact (movesCursor_handleCsiCuf s).sound h hparams
  split
  · exact (movesCursor_handleCsiCub s).sound h hparams
  split
  · exact (movesCursor_handleCsiCha s).sound h hparams
  split
  · exact (movesCursor_handleCsiCup s).sound h hparams
  split
  · exact h.handleCsiEd hx hparams
  split
  · exact h.handleCsiEl hx hparams
  split
  · exact h.handleCsiSgr hparams
  split
  · exact h.handleCsiDectcem c hparams
  · exact h

theorem Sound.setParam (h : Sound scr P s) (c : UInt8) (hidx : s.paramBufIdx < PARAM_BUF_SIZE) :
    Sound scr P (s.setParam c) := by
  refine { h with paramBuf := List.length_set.trans h.paramBuf, accesses := fun a ha => ?_ }
  rcases List.mem_cons.1 ha with rfl | hold
  · exact hidx
  · exact h.accesses a hold

/-- The string ends at the terminator that is put behind the parameters. -/
theorem length_params_setParam (s : FbConsole) :
    (s.setParam 0).params.length ≤ s.paramBufIdx := by
  by_contra hlt
  have hlt := Nat.lt_of_not_le hlt
  have hmem : (s.setParam 0).params[s.paramBufIdx] = 0 :=
    ((List.takeWhile_prefix _).getElem hlt).trans (List.getElem_set_self _)
  have hne := List.mem_takeWhile_imp (List.getElem_mem hlt)
  rw [hmem] at hne
  simp at hne

theorem Sound.handleStateCsi (h : Sound scr P s) (c : UInt8) (hx : s.cursorX < scr.consoleWidth)
    (hidx : s.paramBufIdx < PARAM_BUF_SIZE) : Sound scr P (s.handleStateCsi scr c) := by
  unfold FbConsole.handleStateCsi
  split
  · exact { h.setParam c hidx with }
  · have hparams := length_params_setParam s
    exact { (h.setParam 0 hidx).handleCsi c hx (Nat.lt_of_le_of_lt hparams hidx) with }

/-! ### Characters -/

theorem Sound.makeRoom (h : Sound scr P s) (hroom : s.stomp = true → wordSucc s.cursorY < scr.consoleHeight) :
    Sound scr P (s.makeRoom scr) := by
  have hwrap : Sound scr P (if s.stomp then s.setCursor 0 (wordSucc s.cursorY) else s) := by
    split
    · exact h.setCursor 0 (hroom ‹_›)
    · exact h
  unfold FbConsole.makeRoom
  generalize (if s.stomp then s.setCursor 0 (wordSucc s.cursorY) else s) = t at hwrap ⊢
  simp only
  rw [if_neg (Nat.not_le_of_gt hwrap.cursorY)]
  exact hwrap

theorem Sound.handleGround (h : Sound scr P s) (c : UInt8) (hx : s.cursorX < scr.consoleWidth)
    (hroom : BeginsLine s c → wordSucc s.cursorY < scr.consoleHeight) : Sound scr P (s.handleGround scr c) := by
  unfold FbConsole.handleGround
  split
  · exact { h with }
  split
  · exact (h.setCursor 0 h.cursorY).stopAtRightEnd
  split
  · exact (h.setCursor 0 (hroom (Or.inl ‹_›))).stopAtRightEnd
  split
  · refine Sound.stopAtRightEnd ?_
    split
    · exact h.setCursor _ h.cursorY
    · exact h
  split
  · exact (h.setCursor _ h.cursorY).stopAtRightEnd
  split
  · exact h
  · rename_i hesc hcr hnl hbs htab hascii
    have hwritten : IsWritten c := ⟨by simp [hesc, hcr, hnl, hbs, htab], Nat.le_of_not_lt hascii⟩
    have hmade := h.makeRoom fun hstomp => hroom (Or.inr ⟨hwritten, hstomp⟩)
    have hwrite := hmade.writeCharAt (cursorX_makeRoom s hx) hmade.cursorY (Nat.lt_succ_of_le hwritten.2)
    exact (hwrite.setCursor _ hmade.cursorY).stopAtRightEnd

/-- A byte that finds room uses no index outside. -/
theorem Sound.onChar (h : Sound scr P s) {c : UInt8} (hx : s.cursorX < scr.consoleWidth)
    (hroom : Contained scr s c) : Sound scr P (s.onChar scr c) := by
  unfold FbConsole.onChar
  cases hstate : s.state with
  | ground =>
      rw [Contained, hstate] at hroom
      exact h.handleGround c hx hroom
  | esc =>
      rw [Contained, hstate] at hroom
      simp only [FbConsole.handleStateEsc]
      split
      · exact { h with }
      · rename_i hne
        have hground : Sound scr P { s with state := .ground } := { h with }
        exact hground.handleGround c hx (hroom hne)
  | csi =>
      rw [Contained, hstate] at hroom
      exact h.handleStateCsi c hx hroom

/-! ### Bytes without room -/

/-- The line after the last one is marked before the screen scrolls. -/
theorem line_mem_makeRoom (hlength : s.lineIsDirty.length = scr.consoleHeight) (hstomp : s.stomp = true) :
    ConsoleIndex.line (wordSucc s.cursorY) ∈ (s.makeRoom scr).accesses := by
  unfold FbConsole.makeRoom
  simp only [hstomp, if_true]
  split
  · have hmove : Changes scr s (s.setCursor 0 (wordSucc s.cursorY)) := changes_setCursor s _ _
    have hscroll := (changes_scrollUp _ (hmove.length.trans hlength)).trans (changes_setCursor _
      ((s.setCursor 0 (wordSucc s.cursorY)).scrollUp scr).cursorX (wordPred scr.consoleHeight))
    exact hscroll.accesses List.mem_cons_self
  · exact List.mem_cons_self

theorem line_mem_handleGround {c : UInt8} (hlength : s.lineIsDirty.length = scr.consoleHeight)
    (hx : s.cursorX < scr.consoleWidth) (hbegins : BeginsLine s c) :
    ConsoleIndex.line (wordSucc s.cursorY) ∈ (s.handleGround scr c).accesses := by
  unfold FbConsole.handleGround
  rcases hbegins with rfl | ⟨⟨hplain, hascii⟩, hstomp⟩
  · rw [if_neg (by decide), if_neg (by decide), if_pos rfl]
    exact (changes_stopAtRightEnd (s.setCursor 0 (wordSucc s.cursorY))).accesses List.mem_cons_self
  · simp only [List.mem_cons, List.not_mem_nil, or_false, not_or] at hplain
    obtain ⟨hesc, hcr, hnl, hbs, htab⟩ := hplain
    rw [if_neg hesc, if_neg hcr, if_neg hnl, if_neg hbs, if_neg htab, if_neg (Nat.not_lt_of_le hascii)]
    exact (changes_write (s.makeRoom scr) c (cursorX_makeRoom s hx)).accesses (line_mem_makeRoom hlength hstomp)

/-- A byte that finds no room uses an index outside. -/
theorem exists_outside_onChar {c : UInt8} (hlength : s.lineIsDirty.length = scr.consoleHeight)
    (hx : s.cursorX < scr.consoleWidth) (hroom : ¬Contained scr s c) :
    ∃ a ∈ (s.onChar scr c).accesses, ¬a.Within scr := by
  unfold FbConsole.onChar
  cases hstate : s.state with
  | ground =>
      rw [Contained, hstate] at hroom
      obtain ⟨hbegins, hout⟩ := Classical.not_imp.1 hroom
      exact ⟨_, line_mem_handleGround hlength hx hbegins, hout⟩
  | esc =>
      rw [Contained, hstate] at hroom
      obtain ⟨hne, hroom⟩ := Classical.not_imp.1 hroom
      obtain ⟨hbegins, hout⟩ := Classical.not_imp.1 hroom
      simp only [handleStateEsc, if_neg hne]
      exact ⟨_, line_mem_handleGround (s := { s with state := .ground }) hlength hx hbegins, hout⟩
  | csi =>
      rw [Contained, hstate] at hroom
      simp only [handleStateCsi]
      refine ⟨.param s.paramBufIdx, ?_, hroom⟩
      split
      · exact List.mem_cons_self
      · exact (changes_handleCsi (s.setParam 0) c hlength hx).accesses List.mem_cons_self

/-! ### Whole runs -/

theorem sound_fbConsoleInit (cells : Nat → Cell) (lineIsDirty : Nat → Bool) (fb : Nat → UInt8)
    (hpos : 0 < scr.consoleHeight) : Sound scr (fun _ => True) (fbConsoleInit scr cells lineIsDirty fb) := by
  unfold fbConsoleInit
  simp only
  generalize hs : ({
    cells := (List.range (scr.consoleWidth * scr.consoleHeight)).map cells
    lineIsDirty := (List.range scr.consoleHeight).map lineIsDirty
    fb := fb } : FbConsole) = s
  -- what is not cleared is beyond the cells
  have hstart : Sound scr (fun j => scr.consoleHeight * scr.consoleWidth ≤ j) s := by
    subst hs
    have hdefault : DEFAULT_FG_COLOR < 16 ∧ DEFAULT_BG_COLOR < 16 := by decide
    refine ⟨hpos, hdefault.1, hdefault.2, fun j hj => ?_, List.length_replicate, by simp⟩
    rw [List.getD_eq_getElem?_getD, List.getElem?_eq_none]
    · exact cellSound_default
    · rw [List.length_map, List.length_range, Nat.mul_comm]
      exact hj
  exact (hstart.clearScreen.mono fun j _ => le_or_gt _ j).flush

/-- Within one write, the indices stay inside exactly as long as every byte finds room. -/
theorem write_contained_or_outside (hsound : Sound scr (fun _ => True) s)
    (hlength : s.lineIsDirty.length = scr.consoleHeight) (hx : s.cursorX < scr.consoleWidth) (buffer : List UInt8) :
    (WriteContained scr s buffer ∧ Sound scr (fun _ => True) (buffer.foldl (fun s c => s.onChar scr c) s)) ∨
      (¬WriteContained scr s buffer ∧
        ∃ a ∈ (buffer.foldl (fun s c => s.onChar scr c) s).accesses, ¬a.Within scr) := by
  induction buffer generalizing s with
  | nil => exact Or.inl ⟨trivial, hsound⟩
  | cons c buffer ih =>
      have hlength' := (changes_onChar s c hlength hx).length.trans hlength
      have hx' := cursorX_onChar s c hx
      by_cases hroom : Contained scr s c
      · rcases ih (hsound.onChar hx hroom) hlength' hx' with ⟨hrest, hsound'⟩ | ⟨hrest, hout⟩
        · exact Or.inl ⟨⟨hroom, hrest⟩, hsound'⟩
        · exact Or.inr ⟨fun h => hrest h.2, hout⟩
      · obtain ⟨a, ha, hout⟩ := exists_outside_onChar hlength hx hroom
        exact Or.inr ⟨fun h => hroom h.1, a, (changes_foldl_onChar buffer hlength' hx').1.accesses ha, hout⟩

theorem accesses_flush (h : Settled scr s) (hchange : Changes scr s t) : t.accesses ⊆ (t.flush scr).accesses :=
  (flush_spec (hchange.length.trans h.length) (h.all_dirty hchange) (h.upToDate hchange)).2.2.2.2.1

theorem accesses_fbConsoleDeviceWrite (h : Settled scr s) (buffer : List UInt8) :
    s.accesses ⊆ (fbConsoleDeviceWrite scr s buffer).accesses := by
  have hchange := (changes_foldl_onChar buffer h.length h.cursorX_lt).1
  exact List.Subset.trans hchange.accesses (accesses_flush h hchange)

theorem accesses_writes (h : Settled scr s) (writes : List (List UInt8)) :
    s.accesses ⊆ (writes.foldl (fbConsoleDeviceWrite scr) s).accesses := by
  induction writes generalizing s with
  | nil => exact List.Subset.refl _
  | cons buffer writes ih =>
      exact List.Subset.trans (accesses_fbConsoleDeviceWrite h buffer) (ih (h.fbConsoleDeviceWrite buffer))

theorem indices_inside_writes_iff (hsound : Sound scr (fun _ => True) s) (h : Settled scr s)
    (writes : List (List UInt8)) :
    (∀ a ∈ (writes.foldl (fbConsoleDeviceWrite scr) s).accesses, a.Within scr) ↔ WritesContained scr s writes := by
  induction writes generalizing s with
  | nil => exact ⟨fun _ => trivial, fun _ => hsound.accesses⟩
  | cons buffer writes ih =>
      have hsettled := h.fbConsoleDeviceWrite buffer
      rcases write_contained_or_outside hsound h.length h.cursorX_lt buffer with ⟨hroom, hsound'⟩ | ⟨hroom, a, ha, hout⟩
      · have hrest := ih (s := fbConsoleDeviceWrite scr s buffer) hsound'.flush hsettled
        exact ⟨fun hall => ⟨hroom, hrest.1 hall⟩, fun hall => hrest.2 hall.2⟩
      · have hchange := (changes_foldl_onChar buffer h.length h.cursorX_lt).1
        have hlast := accesses_writes hsettled writes (accesses_flush h hchange ha)
        exact ⟨fun hall => absurd (hall a hlast) hout, fun hrest => absurd hrest.1 hroom⟩

end FbConsole

open FbConsole in
/-- Every index the console uses is inside its array exactly as long as no byte begins a line below the last one or
    comes to a full `param_buf`. -/
theorem console_indices_inside_iff (scr : Screen) (hwidth : 1 ≤ scr.consoleWidth) (hheight : 1 ≤ scr.consoleHeight)
    (cells : Nat → Cell) (lineIsDirty : Nat → Bool) (fb : Nat → UInt8) (writes : List (List UInt8)) :
    (∀ a ∈ (afterWrites scr cells lineIsDirty fb writes).accesses, a.Within scr) ↔
      WritesContained scr (fbConsoleInit scr cells lineIsDirty fb) writes :=
  indices_inside_writes_iff (sound_fbConsoleInit cells lineIsDirty fb hheight)
    (settled_fbConsoleInit cells lineIsDirty fb hwidth) writes

/-- A screen with some lines of one cell of one pixel. -/
def narrowScreen (lines : Fin 8) : Screen where
  font := { glyphs := fun _ => 0, glyphWidth := 1, glyphHeight := 1, bytesPerGlyph := 1, asciiToGlyph := id }
  fbInfo :=
    { width := 1
      height := lines
      pitch := 4
      width_lt := by decide
      height_lt := Nat.lt_trans lines.isLt (by decide)
      pitch_ge := le_refl 4 }
  fbAddr := 0

open FbConsole in
/-- One newline on two lines stays inside. -/
theorem console_indices_inside_two_lines :
    (narrowScreen 2).consoleHeight = 2 ∧ ∀ a ∈ (afterWrites (narrowScreen 2) (fun _ => default) (fun _ => false)
      (fun _ => 0) [['\n'.toUInt8]]).accesses, a.Within (narrowScreen 2) :=
  ⟨by decide, (console_indices_inside_iff (narrowScreen 2) (by decide) (by decide) _ _ _ _).2
    ⟨⟨fun _ => by decide, trivial⟩, trivial⟩⟩

open FbConsole in
/-- A newline on the last line marks the line after it. -/
theorem newline_on_last_line_is_outside :
    ¬∀ (scr : Screen), 1 ≤ scr.consoleWidth → 1 ≤ scr.consoleHeight → ∀ cells lineIsDirty fb writes,
      ∀ a ∈ (afterWrites scr cells lineIsDirty fb writes).accesses, a.Within scr := by
  intro hall
  have hmem : ConsoleIndex.line 1 ∈ (afterWrites (narrowScreen 1) (fun _ => default) (fun _ => false) (fun _ => 0)
      [['\n'.toUInt8]]).accesses := by decide
  have hwithin : 1 < (narrowScreen 1).consoleHeight :=
    hall (narrowScreen 1) (by decide) (by decide) (fun _ => default) (fun _ => false) (fun _ => 0) _ _ hmem
  exact absurd hwithin (by decide)

end Chaotix
