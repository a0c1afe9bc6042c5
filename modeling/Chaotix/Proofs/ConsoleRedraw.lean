/-
Module: Chaotix.Proofs.ConsoleRedraw
Layer: Proofs
Purpose: The console draws only the lines that are marked dirty. Each of its actions marks every line whose cells
  it changes and every line the cursor leaves, enters or is shown on, so after each write the framebuffer shows
  what drawing all cells would show.
Imports: Chaotix.Kernel.FbConsole, Chaotix.Lib.Damage
Trusted boundary: none
Main exports: FbConsole.Changes, FbConsole.changes_onChar, FbConsole.Drawn, redraw_eq_full_redraw
-/
import Chaotix.Kernel.FbConsole
import Chaotix.Lib.Damage

namespace Chaotix

theorem Screen.consoleWidth_lt (scr : Screen) : scr.consoleWidth < wordSize :=
  Nat.lt_of_le_of_lt (Nat.div_le_self _ _) scr.fbInfo.width_lt

theorem Screen.consoleHeight_lt (scr : Screen) : scr.consoleHeight < wordSize :=
  Nat.lt_of_le_of_lt (Nat.div_le_self _ _) scr.fbInfo.height_lt

namespace FbConsole

variable {scr : Screen} {s t u : FbConsole}

/-- The line is marked; what is below the last line counts as marked. -/
def Dirty (s : FbConsole) (y : Nat) : Prop := s.lineIsDirty.getD y true = true

/-- What a line is to show: its cells, and in which of them the cursor is. -/
def lineView (scr : Screen) (s : FbConsole) (y : Nat) : List (Cell × Bool) :=
  (List.range scr.consoleWidth).map fun x =>
    (s.cells.getD (y * scr.consoleWidth + x) default, s.isCursorAt x y)

/-- What the actions of the console do, short of drawing: every line that looks different is marked, a clearing of
    the whole screen is asked for only with all lines marked, and used indices stay on record. -/
structure Changes (scr : Screen) (s t : FbConsole) : Prop where
  fb : t.fb = s.fb
  length : t.lineIsDirty.length = s.lineIsDirty.length
  marks : MarksChanges Dirty (lineView scr) s t
  cleared : t.wholeScreenShouldBeCleared = true → s.wholeScreenShouldBeCleared = true ∨ ∀ y, Dirty t y
  accesses : s.accesses ⊆ t.accesses

namespace Changes

theorem refl (s : FbConsole) : Changes scr s s :=
  ⟨rfl, rfl, MarksChanges.refl s, Or.inl, List.Subset.refl _⟩

theorem trans (hst : Changes scr s t) (htu : Changes scr t u) : Changes scr s u where
  fb := htu.fb.trans hst.fb
  length := htu.length.trans hst.length
  marks := hst.marks.trans htu.marks
  cleared := by
    intro hu
    rcases htu.cleared hu with ht | hall
    · rcases hst.cleared ht with hs | hall
      · exact Or.inl hs
      · exact Or.inr fun y => htu.marks.dirty_of_dirty (hall y)
    · exact Or.inr hall
  accesses := List.Subset.trans hst.accesses htu.accesses

/-- A loop of actions. -/
theorem foldl {ι : Type} {f : FbConsole → ι → FbConsole} (l : List ι) (P : FbConsole → Prop) (hs : P s)
    (h : ∀ t i, P t → i ∈ l → P (f t i) ∧ Changes scr t (f t i)) : Changes scr s (l.foldl f s) := by
  induction l generalizing s with
  | nil => exact refl s
  | cons i l ih =>
      obtain ⟨hnext, hchange⟩ := h s i hs List.mem_cons_self
      exact hchange.trans (ih hnext fun t j ht hj => h t j ht (List.mem_cons_of_mem i hj))

end Changes

/-! ### Cells and lines -/

theorem dirty_setLineIsDirty {y y' : Nat} : Dirty (s.setLineIsDirty y true) y' ↔ y' = y ∨ Dirty s y' := by
  simp only [Dirty, setLineIsDirty, access, List.getD_eq_getElem?_getD, List.getElem?_set]
  rcases eq_or_ne y y' with rfl | hne
  · by_cases hlt : y < s.lineIsDirty.length
    · simp [hlt]
    · simp [hlt]
  · simp [hne, hne.symm]

theorem dirty_of_length_le {y : Nat} (h : s.lineIsDirty.length ≤ y) : Dirty s y := by
  simp [Dirty, List.getD_eq_getElem?_getD, List.getElem?_eq_none h]

/-- Indices are used. -/
theorem changes_access (s : FbConsole) (is : List ConsoleIndex) : Changes scr s (s.access is) :=
  ⟨rfl, rfl, fun _ hclean => ⟨hclean, rfl⟩, Or.inl, List.subset_append_right is s.accesses⟩

/-- Cells of one line change, and the line is marked. -/
theorem changes_line {cells : List Cell} {accesses : List ConsoleIndex} {y : Nat}
    (hcells : ∀ y', y' ≠ y → ∀ x, x < scr.consoleWidth →
      cells.getD (y' * scr.consoleWidth + x) default = s.cells.getD (y' * scr.consoleWidth + x) default)
    (haccesses : s.accesses ⊆ accesses) :
    Changes scr s ({ s with cells := cells, accesses := accesses }.setLineIsDirty y true) where
  fb := rfl
  length := List.length_set
  marks := by
    intro y' hclean
    rw [dirty_setLineIsDirty, not_or] at hclean
    refine ⟨hclean.2, List.map_congr_left fun x hx => ?_⟩
    have hcell := hcells y' hclean.1 x (List.mem_range.1 hx)
    exact Prod.ext hcell rfl
  cleared := Or.inl
  accesses := List.Subset.trans haccesses (List.subset_cons_self _ _)

/-- One mark more. -/
theorem changes_setLineIsDirty (s : FbConsole) (y : Nat) : Changes scr s (s.setLineIsDirty y true) :=
  changes_line (s := s) (fun _ _ _ _ => rfl) (List.Subset.refl s.accesses)

theorem changes_setCursor (s : FbConsole) (x y : Nat) : Changes scr s (s.setCursor x y) where
  fb := rfl
  length := by simp [setCursor, setLineIsDirty, access]
  marks := by
    intro y' hclean
    have hclean' : ¬Dirty (({ s with stomp := false }.setLineIsDirty s.cursorY true).setLineIsDirty y true) y' := hclean
    rw [dirty_setLineIsDirty, dirty_setLineIsDirty, not_or, not_or] at hclean'
    obtain ⟨hne, hne', hclean'⟩ := hclean'
    refine ⟨hclean', List.map_congr_left fun x' _ => ?_⟩
    -- the cursor is in the line neither before nor afterwards
    simp [isCursorAt, setCursor, setLineIsDirty, access, beq_false_of_ne hne, beq_false_of_ne hne']
  cleared := Or.inl
  accesses := List.Subset.trans (List.subset_cons_self _ _) (List.subset_cons_self _ _)

/-- What the loop of `clear_line_at` does to the cells. -/
theorem clearCells_spec (s : FbConsole) (a n : Nat) :
    ∃ cells accesses, (List.range n).foldl (fun s i => s.setCell (a + i) ' '.toUInt8) s =
        { s with cells := cells, accesses := accesses } ∧
      (∀ j, j < a ∨ a + n ≤ j → cells.getD j default = s.cells.getD j default) ∧ s.accesses ⊆ accesses := by
  refine foldl_range_induction (fun n t => ∃ cells accesses, t = { s with cells := cells, accesses := accesses } ∧
    (∀ j, j < a ∨ a + n ≤ j → cells.getD j default = s.cells.getD j default) ∧ s.accesses ⊆ accesses) ?_ ?_
  · exact ⟨s.cells, s.accesses, rfl, fun _ _ => rfl, List.Subset.refl _⟩
  · rintro i - t ⟨cells, accesses, rfl, hcells, haccesses⟩
    refine ⟨_, _, rfl, fun j hj => ?_, List.Subset.trans haccesses (List.subset_cons_self _ _)⟩
    have hne : a + i ≠ j := by omega
    rw [← hcells j (by omega)]
    simp only [List.getD_eq_getElem?_getD, List.getElem?_set_ne hne]

/-- Two lines have no index in common. -/
theorem index_apart {x y x' y' w n : Nat} (hx : x + n ≤ w) (hx' : x' < w) (hne : y' ≠ y) :
    y' * w + x' < x + y * w ∨ x + y * w + n ≤ y' * w + x' := by
  rcases Nat.lt_or_gt_of_ne hne with hlt | hlt
  · have hmul : (y' + 1) * w ≤ y * w := Nat.mul_le_mul_right w hlt
    rw [Nat.add_mul, Nat.one_mul] at hmul
    exact Or.inl (by omega)
  · have hmul : (y + 1) * w ≤ y' * w := Nat.mul_le_mul_right w hlt
    rw [Nat.add_mul, Nat.one_mul] at hmul
    exact Or.inr (by omega)

theorem changes_clearLineAt {x length : Nat} (s : FbConsole) (y : Nat) (hx : x + length ≤ scr.consoleWidth) :
    Changes scr s (s.clearLineAt scr x y length) := by
  obtain ⟨cells, accesses, heq, hcells, haccesses⟩ := clearCells_spec s (x + y * scr.consoleWidth) length
  rw [clearLineAt, heq]
  exact changes_line (fun y' hne x' hx' => hcells _ (index_apart hx hx' hne)) haccesses

theorem changes_writeCharAt {x : Nat} (s : FbConsole) (y : Nat) (c : UInt8) (hx : x < scr.consoleWidth) :
    Changes scr s (s.writeCharAt scr x y c) := by
  refine changes_line (fun y' hne x' hx' => ?_) (List.subset_cons_self _ _)
  have hapart := index_apart (n := 1) hx hx' hne
  have hne' : x + y * scr.consoleWidth ≠ y' * scr.consoleWidth + x' := by omega
  simp only [List.getD_eq_getElem?_getD, List.getElem?_set_ne hne']

theorem dirty_clearLineAt (s : FbConsole) (x y length : Nat) : Dirty (s.clearLineAt scr x y length) y :=
  dirty_setLineIsDirty.2 (Or.inl rfl)

theorem changes_clearScreen (s : FbConsole) (hlength : s.lineIsDirty.length = scr.consoleHeight) :
    Changes scr s (s.clearScreen scr) := by
  have hloop : Changes scr s ((List.range scr.consoleHeight).foldl
      (fun s y => s.clearLineAt scr 0 y scr.consoleWidth) s) ∧ ∀ y, y < scr.consoleHeight →
      Dirty ((List.range scr.consoleHeight).foldl (fun s y => s.clearLineAt scr 0 y scr.consoleWidth) s) y := by
    refine foldl_range_induction (fun n t => Changes scr s t ∧ ∀ y, y < n → Dirty t y) ?_ ?_
    · exact ⟨Changes.refl s, fun _ hy => absurd hy (Nat.not_lt_zero _)⟩
    · rintro i - t ⟨hchange, hdirty⟩
      have hline : Changes scr t (t.clearLineAt scr 0 i scr.consoleWidth) :=
        changes_clearLineAt t i (Nat.zero_add scr.consoleWidth).le
      refine ⟨hchange.trans hline, fun y hy => ?_⟩
      rcases Nat.lt_succ_iff_lt_or_eq.1 hy with hlt | rfl
      · exact hline.marks.dirty_of_dirty (hdirty y hlt)
      · exact dirty_clearLineAt t 0 y scr.consoleWidth
  obtain ⟨hchange, hdirty⟩ := hloop
  refine ⟨hchange.fb, hchange.length, hchange.marks, fun _ => Or.inr fun y => ?_, hchange.accesses⟩
  rcases Nat.lt_or_ge y scr.consoleHeight with hlt | hge
  · exact hdirty y hlt
  · exact dirty_of_length_le (hchange.length.trans hlength ▸ hge)

/-- Scrolling changes every line and marks every line. -/
theorem changes_scrollUp (s : FbConsole) (hlength : s.lineIsDirty.length = scr.consoleHeight) :
    Changes scr s (s.scrollUp scr) := by
  set moved := s.moveCells scr.consoleWidth (scr.consoleWidth * wordPred scr.consoleHeight)
  set marked := (List.range (wordPred scr.consoleHeight)).foldl (fun s y => s.setLineIsDirty y true) moved
  have hloop : Changes scr moved marked ∧ ∀ y, y < wordPred scr.consoleHeight → Dirty marked y := by
    refine foldl_range_induction (fun n t => Changes scr moved t ∧ ∀ y, y < n → Dirty t y) ?_ ?_
    · exact ⟨Changes.refl moved, fun _ hy => absurd hy (Nat.not_lt_zero _)⟩
    · rintro i - t ⟨hchange, hdirty⟩
      refine ⟨hchange.trans (changes_setLineIsDirty t i), fun y hy => dirty_setLineIsDirty.2 ?_⟩
      rcases Nat.lt_succ_iff_lt_or_eq.1 hy with hlt | rfl
      · exact Or.inr (hdirty y hlt)
      · exact Or.inl rfl
  obtain ⟨hchange, hdirty⟩ := hloop
  have hlast : Changes scr marked (s.scrollUp scr) :=
    changes_clearLineAt marked (wordPred scr.consoleHeight) (Nat.zero_add scr.consoleWidth).le
  have hall : ∀ y, Dirty (s.scrollUp scr) y := by
    intro y
    rcases Nat.lt_trichotomy y (wordPred scr.consoleHeight) with hlt | rfl | hgt
    · exact hlast.marks.dirty_of_dirty (hdirty y hlt)
    · exact dirty_clearLineAt _ 0 _ scr.consoleWidth
    · refine dirty_of_length_le ?_
      rw [show (s.scrollUp scr).lineIsDirty.length = s.lineIsDirty.length from (hchange.trans hlast).length, hlength]
      rcases Nat.eq_zero_or_pos scr.consoleHeight with hzero | hpos
      · exact hzero ▸ Nat.zero_le y
      · rw [wordPred_of_pos hpos] at hgt
        omega
  exact ⟨(hchange.trans hlast).fb, (hchange.trans hlast).length, MarksChanges.of_all_dirty hall, fun _ => Or.inr hall,
    List.Subset.trans (List.subset_append_right _ _) (hchange.trans hlast).accesses⟩

/-! ### Characters -/

theorem changes_makeRoom (s : FbConsole) (hlength : s.lineIsDirty.length = scr.consoleHeight) :
    Changes scr s (s.makeRoom scr) := by
  have hwrap : Changes scr s (if s.stomp then s.setCursor 0 (wordSucc s.cursorY) else s) := by
    split
    · exact changes_setCursor s _ _
    · exact Changes.refl s
  unfold makeRoom
  generalize (if s.stomp then s.setCursor 0 (wordSucc s.cursorY) else s) = t at hwrap ⊢
  simp only
  split
  · exact (hwrap.trans (changes_scrollUp t (hwrap.length.trans hlength))).trans (changes_setCursor _ _ _)
  · exact hwrap

theorem changes_stopAtRightEnd (s : FbConsole) : Changes scr s (s.stopAtRightEnd scr) := by
  unfold stopAtRightEnd
  split
  · have hmove : Changes scr s (s.setCursor (wordPred scr.consoleWidth) s.cursorY) := changes_setCursor s _ _
    obtain ⟨hfb, hlength, hmarks, hcleared, haccesses⟩ := hmove
    exact ⟨hfb, hlength, hmarks, hcleared, haccesses⟩
  · exact Changes.refl s

/-- The cursor may wait below the last line, but it never leaves the columns. -/
theorem cursorX_stopAtRightEnd (s : FbConsole) (hpos : 0 < scr.consoleWidth) :
    (s.stopAtRightEnd scr).cursorX < scr.consoleWidth := by
  unfold stopAtRightEnd
  split
  · rw [wordPred_of_pos hpos]
    exact Nat.sub_lt hpos Nat.one_pos
  · exact Nat.lt_of_not_le ‹_›

/-- The state without the cells, their marks and the framebuffer. -/
def control (s : FbConsole) : FbConsole :=
  { s with cells := [], lineIsDirty := [], fb := fun _ => 0, wholeScreenShouldBeCleared := false, accesses := [] }

theorem control_foldl {ι : Type} {f : FbConsole → ι → FbConsole} (h : ∀ t i, (f t i).control = t.control)
    (l : List ι) (s : FbConsole) : (l.foldl f s).control = s.control := by
  induction l generalizing s with
  | nil => rfl
  | cons i l ih => exact (ih (f s i)).trans (h s i)

@[simp] theorem control_clearLineAt (s : FbConsole) (x y length : Nat) :
    (s.clearLineAt scr x y length).control = s.control :=
  control_foldl (fun t i => show (t.setCell (x + y * scr.consoleWidth + i) ' '.toUInt8).control = t.control from rfl)
    (List.range length) s

@[simp] theorem control_clearScreen (s : FbConsole) : (s.clearScreen scr).control = s.control :=
  control_foldl (fun t y => control_clearLineAt t 0 y scr.consoleWidth) (List.range scr.consoleHeight) s

@[simp] theorem control_scrollUp (s : FbConsole) : (s.scrollUp scr).control = s.control := by
  rw [scrollUp, control_clearLineAt, control_foldl]
  · rfl
  · intro t y
    rfl

theorem cursorX_eq (h : t.control = s.control) : t.cursorX = s.cursorX :=
  show t.control.cursorX = s.control.cursorX by rw [h]

theorem cursorX_makeRoom (s : FbConsole) (hx : s.cursorX < scr.consoleWidth) :
    (s.makeRoom scr).cursorX < scr.consoleWidth := by
  have hwrap : (if s.stomp then s.setCursor 0 (wordSucc s.cursorY) else s).cursorX < scr.consoleWidth := by
    split
    · exact Nat.zero_lt_of_lt hx
    · exact hx
  unfold makeRoom
  generalize (if s.stomp then s.setCursor 0 (wordSucc s.cursorY) else s) = t at hwrap ⊢
  simp only
  split
  · exact (cursorX_eq (control_scrollUp t)).trans_lt hwrap
  · exact hwrap

/-- A character is written and the cursor goes on. -/
theorem changes_write (s : FbConsole) (c : UInt8) (hx : s.cursorX < scr.consoleWidth) :
    Changes scr s
      (let t := s.writeCharAt scr s.cursorX s.cursorY c
      (t.setCursor (wordSucc t.cursorX) t.cursorY).stopAtRightEnd scr) :=
  (changes_writeCharAt s s.cursorY c hx).trans ((changes_setCursor _ _ _).trans (changes_stopAtRightEnd _))

theorem changes_handleGround (s : FbConsole) (c : UInt8) (hlength : s.lineIsDirty.length = scr.consoleHeight)
    (hx : s.cursorX < scr.consoleWidth) : Changes scr s (s.handleGround scr c) := by
  unfold handleGround
  split
  · exact ⟨rfl, rfl, fun _ hclean => ⟨hclean, rfl⟩, Or.inl, List.Subset.refl _⟩
  split
  · exact (changes_setCursor s _ _).trans (changes_stopAtRightEnd _)
  split
  · exact (changes_setCursor s _ _).trans (changes_stopAtRightEnd _)
  split
  · refine Changes.trans ?_ (changes_stopAtRightEnd _)
    split
    · exact changes_setCursor s _ _
    · exact Changes.refl s
  split
  · exact (changes_setCursor s _ _).trans (changes_stopAtRightEnd _)
  split
  · exact Changes.refl s
  · exact (changes_makeRoom s hlength).trans (changes_write (s.makeRoom scr) c (cursorX_makeRoom s hx))

theorem cursorX_handleGround (s : FbConsole) (c : UInt8) (hx : s.cursorX < scr.consoleWidth) :
    (s.handleGround scr c).cursorX < scr.consoleWidth := by
  have hpos : 0 < scr.consoleWidth := Nat.zero_lt_of_lt hx
  unfold handleGround
  split
  · exact hx
  split
  · exact cursorX_stopAtRightEnd _ hpos
  split
  · exact cursorX_stopAtRightEnd _ hpos
  split
  · exact cursorX_stopAtRightEnd _ hpos
  split
  · exact cursorX_stopAtRightEnd _ hpos
  split
  · exact hx
  · exact cursorX_stopAtRightEnd _ hpos

/-! ### Escape sequences -/

theorem wordPred_lt_self {n : Nat} (h : 0 < n) : wordPred n < n := by
  rw [wordPred_of_pos h]
  exact Nat.sub_lt h Nat.one_pos

/-- The sequence moves the cursor, and not out of the columns or the lines. -/
def MovesCursor (scr : Screen) (s t : FbConsole) : Prop :=
  ∃ x y, t = s.readParams.setCursor x y ∧ (s.cursorX < scr.consoleWidth → x < scr.consoleWidth) ∧
    (s.cursorY < scr.consoleHeight → y < scr.consoleHeight)

theorem movesCursor_handleCsiCuu (s : FbConsole) : MovesCursor scr s s.handleCsiCuu := by
  unfold handleCsiCuu
  simp only
  generalize (if atoi s.params = 0 then 1 else atoi s.params) = dy
  split
  · exact ⟨s.cursorX, 0, rfl, id, Nat.zero_lt_of_lt⟩
  · exact ⟨s.cursorX, s.cursorY - dy, rfl, id, Nat.lt_of_le_of_lt (Nat.sub_le _ _)⟩

theorem movesCursor_handleCsiCud (s : FbConsole) : MovesCursor scr s (s.handleCsiCud scr) := by
  unfold handleCsiCud
  simp only
  generalize (if atoi s.params = 0 then 1 else atoi s.params) = dy
  split
  · exact ⟨s.cursorX, wordPred scr.consoleHeight, rfl, id, fun hy => wordPred_lt_self (Nat.zero_lt_of_lt hy)⟩
  · rename_i hfits
    rw [Nat.add_comm] at hfits
    exact ⟨s.cursorX, (s.cursorY + dy) % wordSize, rfl, id, fun _ => Nat.lt_of_not_le hfits⟩

theorem movesCursor_handleCsiCuf (s : FbConsole) : MovesCursor scr s (s.handleCsiCuf scr) := by
  unfold handleCsiCuf
  simp only
  generalize (if atoi s.params = 0 then 1 else atoi s.params) = dx
  split
  · exact ⟨wordPred scr.consoleWidth, s.cursorY, rfl, fun hx => wordPred_lt_self (Nat.zero_lt_of_lt hx), id⟩
  · rename_i hfits
    rw [Nat.add_comm] at hfits
    exact ⟨(s.cursorX + dx) % wordSize, s.cursorY, rfl, fun _ => Nat.lt_of_not_le hfits, id⟩

theorem movesCursor_handleCsiCub (s : FbConsole) : MovesCursor scr s s.handleCsiCub := by
  unfold handleCsiCub
  simp only
  generalize (if atoi s.params = 0 then 1 else atoi s.params) = dx
  split
  · exact ⟨0, s.cursorY, rfl, Nat.zero_lt_of_lt, id⟩
  · exact ⟨s.cursorX - dx, s.cursorY, rfl, Nat.lt_of_le_of_lt (Nat.sub_le _ _), id⟩

theorem capped_lt {x n : Nat} (h : 0 < n) : (if x ≥ n then wordPred n else x) < n := by
  split
  · exact wordPred_lt_self h
  · exact Nat.lt_of_not_le ‹_›

theorem movesCursor_handleCsiCha (s : FbConsole) : MovesCursor scr s (s.handleCsiCha scr) :=
  ⟨_, s.cursorY, rfl, fun hx => capped_lt (Nat.zero_lt_of_lt hx), id⟩

theorem movesCursor_handleCsiCup (s : FbConsole) : MovesCursor scr s (s.handleCsiCup scr) :=
  ⟨_, _, rfl, fun hx => capped_lt (Nat.zero_lt_of_lt hx), fun hy => capped_lt (Nat.zero_lt_of_lt hy)⟩

theorem MovesCursor.changes (h : MovesCursor scr s t) : Changes scr s t := by
  obtain ⟨x, y, rfl, _⟩ := h
  exact (changes_access s _).trans (changes_setCursor _ x y)

theorem MovesCursor.cursorX_lt (h : MovesCursor scr s t) (hx : s.cursorX < scr.consoleWidth) :
    t.cursorX < scr.consoleWidth := by
  obtain ⟨x, y, rfl, hlt, _⟩ := h
  exact hlt hx

theorem changes_handleCsiEd (s : FbConsole) (hlength : s.lineIsDirty.length = scr.consoleHeight)
    (hx : s.cursorX < scr.consoleWidth) : Changes scr s (s.handleCsiEd scr) := by
  have hread : Changes scr s s.readParams := changes_access s _
  have hloop : ∀ (l : List Nat) (t : FbConsole),
      Changes scr t (l.foldl (fun s y => s.clearLineAt scr 0 y scr.consoleWidth) t) := fun l t =>
    Changes.foldl l (fun _ => True) trivial fun t' y _ _ =>
      ⟨trivial, changes_clearLineAt t' y (Nat.zero_add scr.consoleWidth).le⟩
  have hright : s.cursorX + wordSub scr.consoleWidth s.cursorX ≤ scr.consoleWidth := by
    rw [wordSub_of_le hx.le scr.consoleWidth_lt]
    omega
  have hleft : 0 + wordSucc s.cursorX ≤ scr.consoleWidth := by
    rw [wordSucc_of_lt hx scr.consoleWidth_lt]
    omega
  unfold handleCsiEd
  simp only
  split
  · exact hread.trans ((changes_clearLineAt s.readParams s.cursorY hright).trans (hloop _ _))
  · have hcursor : (((List.range s.readParams.cursorY).foldl
        (fun s y => s.clearLineAt scr 0 y scr.consoleWidth) s.readParams).control) = s.readParams.control :=
      control_foldl (fun t y => control_clearLineAt t 0 y scr.consoleWidth) _ _
    refine hread.trans ((hloop _ _).trans (changes_clearLineAt _ _ ?_))
    rw [cursorX_eq hcursor]
    exact hleft
  · exact hread.trans (changes_clearScreen _ hlength)
  · exact hread

theorem changes_handleCsiEl (s : FbConsole) (hx : s.cursorX < scr.consoleWidth) :
    Changes scr s (s.handleCsiEl scr) := by
  have hread : Changes scr s s.readParams := changes_access s _
  have hright : s.cursorX + wordSub scr.consoleWidth s.cursorX ≤ scr.consoleWidth := by
    rw [wordSub_of_le hx.le scr.consoleWidth_lt]
    omega
  have hleft : 0 + wordSucc s.cursorX ≤ scr.consoleWidth := by
    rw [wordSucc_of_lt hx scr.consoleWidth_lt]
    omega
  unfold handleCsiEl
  simp only
  split
  · exact hread.trans (changes_clearLineAt s.readParams s.cursorY hright)
  · exact hread.trans (changes_clearLineAt s.readParams s.cursorY hleft)
  · exact hread.trans (changes_clearLineAt s.readParams s.cursorY (Nat.zero_add _).le)
  · exact hread

/-- Showing or hiding the cursor changes the line it is in. -/
theorem changes_setVisible (s : FbConsole) (visible : Bool) :
    Changes scr s ({ s with isCursorVisible := visible }.setLineIsDirty s.cursorY true) where
  fb := rfl
  length := List.length_set
  marks := by
    intro y' hclean
    rw [dirty_setLineIsDirty, not_or] at hclean
    obtain ⟨hne, hclean⟩ := hclean
    refine ⟨hclean, List.map_congr_left fun x _ => ?_⟩
    simp [isCursorAt, setLineIsDirty, access, beq_false_of_ne hne]
  cleared := Or.inl
  accesses := List.subset_cons_self _ _

theorem changes_handleCsi (s : FbConsole) (c : UInt8) (hlength : s.lineIsDirty.length = scr.consoleHeight)
    (hx : s.cursorX < scr.consoleWidth) : Changes scr s (s.handleCsi scr c) := by
  have hread : Changes scr s s.readParams := changes_access s _
  unfold handleCsi
  split
  · exact (movesCursor_handleCsiCuu s).changes
  split
  · exact (movesCursor_handleCsiCud s).changes
  split
  · exact (movesCursor_handleCsiCuf s).changes
  split
  · exact (movesCursor_handleCsiCub s).changes
  split
  · exact (movesCursor_handleCsiCha s).changes
  split
  · exact (movesCursor_handleCsiCup s).changes
  split
  · exact changes_handleCsiEd s hlength hx
  split
  · exact changes_handleCsiEl s hx
  split
  · unfold handleCsiSgr
    simp only
    split
    · exact ⟨rfl, rfl, fun _ hclean => ⟨hclean, rfl⟩, Or.inl, hread.accesses⟩
    · exact ⟨rfl, rfl, fun _ hclean => ⟨hclean, rfl⟩, Or.inl, hread.accesses⟩
  split
  · unfold handleCsiDectcem
    simp only
    split
    · exact hread
    split
    · exact hread.trans (changes_setVisible _ true)
    split
    · exact hread.trans (changes_setVisible _ false)
    · exact hread
  · exact Changes.refl s

theorem control_handleCsiEd (s : FbConsole) : (s.handleCsiEd scr).control = s.control := by
  have hloop : ∀ (l : List Nat) (t : FbConsole),
      (l.foldl (fun s y => s.clearLineAt scr 0 y scr.consoleWidth) t).control = t.control :=
    control_foldl fun t y => control_clearLineAt t 0 y scr.consoleWidth
  unfold handleCsiEd
  simp only
  split
  · rw [hloop, control_clearLineAt]
    rfl
  · rw [control_clearLineAt, hloop]
    rfl
  · rw [control_clearScreen]
    rfl
  · rfl

theorem control_handleCsiEl (s : FbConsole) : (s.handleCsiEl scr).control = s.control := by
  unfold handleCsiEl
  simp only
  split
  · rw [control_clearLineAt]
    rfl
  · rw [control_clearLineAt]
    rfl
  · rw [control_clearLineAt]
    rfl
  · rfl

theorem cursorX_handleCsi (s : FbConsole) (c : UInt8) (hx : s.cursorX < scr.consoleWidth) :
    (s.handleCsi scr c).cursorX < scr.consoleWidth := by
  unfold handleCsi
  split
  · exact (movesCursor_handleCsiCuu s).cursorX_lt hx
  split
  · exact (movesCursor_handleCsiCud s).cursorX_lt hx
  split
  · exact (movesCursor_handleCsiCuf s).cursorX_lt hx
  split
  · exact (movesCursor_handleCsiCub s).cursorX_lt hx
  split
  · exact (movesCursor_handleCsiCha s).cursorX_lt hx
  split
  · exact (movesCursor_handleCsiCup s).cursorX_lt hx
  split
  · exact (cursorX_eq (control_handleCsiEd s)).trans_lt hx
  split
  · exact (cursorX_eq (control_handleCsiEl s)).trans_lt hx
  split
  · unfold handleCsiSgr
    simp only
    split <;> exact hx
  split
  · unfold handleCsiDectcem
    simp only
    split
    · exact hx
    split
    · exact hx
    split <;> exact hx
  · exact hx

/-- One byte marks what it changes. -/
theorem changes_onChar (s : FbConsole) (c : UInt8) (hlength : s.lineIsDirty.length = scr.consoleHeight)
    (hx : s.cursorX < scr.consoleWidth) : Changes scr s (s.onChar scr c) := by
  unfold onChar
  split
  · exact changes_handleGround s c hlength hx
  · unfold handleStateEsc
    split
    · exact ⟨rfl, rfl, fun _ hclean => ⟨hclean, rfl⟩, Or.inl, List.Subset.refl _⟩
    · obtain ⟨hfb, hlength', hmarks, hcleared, haccesses⟩ :=
        changes_handleGround { s with state := .ground } c hlength hx
      exact ⟨hfb, hlength', hmarks, hcleared, haccesses⟩
  · unfold handleStateCsi
    split
    · exact ⟨rfl, rfl, fun _ hclean => ⟨hclean, rfl⟩, Or.inl, List.subset_cons_self _ _⟩
    · obtain ⟨hfb, hlength', hmarks, hcleared, haccesses⟩ := changes_handleCsi (s.setParam 0) c hlength hx
      exact ⟨hfb, hlength', hmarks, hcleared, List.Subset.trans (List.subset_cons_self _ _) haccesses⟩

theorem cursorX_onChar (s : FbConsole) (c : UInt8) (hx : s.cursorX < scr.consoleWidth) :
    (s.onChar scr c).cursorX < scr.consoleWidth := by
  unfold onChar
  split
  · exact cursorX_handleGround s c hx
  · unfold handleStateEsc
    split
    · exact hx
    · exact cursorX_handleGround _ c hx
  · unfold handleStateCsi
    split
    · exact hx
    · exact cursorX_handleCsi (s.setParam 0) c hx

/-! ### Drawing -/

theorem palette_lt (i : Nat) : palette.getD i 0 < 2 ^ 32 := by
  have hall : ∀ v ∈ palette, v < 2 ^ 32 := by decide
  rw [List.getD_eq_getElem?_getD]
  cases hget : palette[i]? with
  | none => exact Nat.two_pow_pos 32
  | some v => exact hall v (List.mem_of_getElem? hget)

theorem pixelColor_lt (font : Font) (cell : Cell) (isCursor : Bool) (py px : Nat) :
    pixelColor font cell isCursor py px < 2 ^ 32 := by
  unfold pixelColor
  simp only
  split <;> exact palette_lt _

/-- The pixel of a cell, counted from the upper left corner of the screen. -/
theorem pixelAddr_eq (x y py px : Nat) :
    pixelAddr scr x y py px = scr.fbAddr + ((x * scr.font.glyphWidth + px) * 4 +
      (y * scr.font.glyphHeight + py) * scr.fbInfo.pitch) := by
  unfold pixelAddr
  ring

/-- Different columns in range, or different lines, are different addresses. -/
theorem word_apart {pitch w X Y X' Y' : Nat} (hpitch : w * 4 ≤ pitch) (hX : X < w) (hX' : X' < w)
    (hne : X ≠ X' ∨ Y ≠ Y') : X * 4 + Y * pitch + 4 ≤ X' * 4 + Y' * pitch ∨
      X' * 4 + Y' * pitch + 4 ≤ X * 4 + Y * pitch := by
  rcases Nat.lt_trichotomy Y Y' with hlt | rfl | hlt
  · have hmul : (Y + 1) * pitch ≤ Y' * pitch := Nat.mul_le_mul_right pitch hlt
    rw [Nat.add_mul, Nat.one_mul] at hmul
    exact Or.inl (by omega)
  · rcases hne with hne | hne
    · rcases Nat.lt_or_gt_of_ne hne with hlt | hlt
      · exact Or.inl (by omega)
      · exact Or.inr (by omega)
    · exact absurd rfl hne
  · have hmul : (Y' + 1) * pitch ≤ Y * pitch := Nat.mul_le_mul_right pitch hlt
    rw [Nat.add_mul, Nat.one_mul] at hmul
    exact Or.inr (by omega)

/-- The column of a pixel of a cell is in the framebuffer. -/
theorem column_lt {x px : Nat} (hx : x < scr.consoleWidth) (hpx : px < scr.font.glyphWidth) :
    x * scr.font.glyphWidth + px < scr.fbInfo.width := by
  have hmul : (x + 1) * scr.font.glyphWidth ≤ scr.consoleWidth * scr.font.glyphWidth :=
    Nat.mul_le_mul_right scr.font.glyphWidth hx
  rw [Nat.add_mul, Nat.one_mul] at hmul
  have hdiv : scr.consoleWidth * scr.font.glyphWidth ≤ scr.fbInfo.width := Nat.div_mul_le_self _ _
  omega

/-- Two pixels of cells are the same pixel, or apart. -/
theorem pixelAddr_apart {x py px x' py' px' : Nat} (y y' : Nat) (hx : x < scr.consoleWidth) (hx' : x' < scr.consoleWidth)
    (hpy : py < scr.font.glyphHeight) (hpy' : py' < scr.font.glyphHeight) (hpx : px < scr.font.glyphWidth)
    (hpx' : px' < scr.font.glyphWidth) : (x = x' ∧ y = y' ∧ py = py' ∧ px = px') ∨
      pixelAddr scr x y py px + 4 ≤ pixelAddr scr x' y' py' px' ∨
      pixelAddr scr x' y' py' px' + 4 ≤ pixelAddr scr x y py px := by
  have hdigits : ∀ {a b a' b' n : Nat}, b < n → b' < n → a * n + b = a' * n + b' → a = a' ∧ b = b' := by
    intro a b a' b' n hb hb' heq
    have hpos : 0 < n := Nat.zero_lt_of_lt hb
    constructor
    · have hdiv := congrArg (· / n) heq
      simpa [Nat.mul_comm _ n, Nat.mul_add_div hpos, Nat.div_eq_of_lt hb, Nat.div_eq_of_lt hb'] using hdiv
    · have hmod := congrArg (· % n) heq
      simpa [Nat.mul_add_mod', Nat.mod_eq_of_lt hb, Nat.mod_eq_of_lt hb'] using hmod
  by_cases hsame : x * scr.font.glyphWidth + px = x' * scr.font.glyphWidth + px' ∧
      y * scr.font.glyphHeight + py = y' * scr.font.glyphHeight + py'
  · obtain ⟨hxx, hpp⟩ := hdigits hpx hpx' hsame.1
    obtain ⟨hyy, hqq⟩ := hdigits hpy hpy' hsame.2
    exact Or.inl ⟨hxx, hyy, hqq, hpp⟩
  · have hne := not_and_or.1 hsame
    have happ := word_apart scr.fbInfo.pitch_ge (column_lt hx hpx) (column_lt hx' hpx') hne
    rw [pixelAddr_eq, pixelAddr_eq]
    omega

/-- The stores of the pixels of a cell. -/
def cellStores (scr : Screen) (x y : Nat) (v : Cell × Bool) : List (Nat × Nat) :=
  (List.range scr.font.glyphHeight).flatMap fun py =>
    (List.range scr.font.glyphWidth).map fun px =>
      (pixelAddr scr x y py px, pixelColor scr.font v.1 v.2 py px)

/-- The stores of the pixels of a line. -/
def lineStores (scr : Screen) (y : Nat) (v : List (Cell × Bool)) : List (Nat × Nat) :=
  (List.range scr.consoleWidth).flatMap fun x => cellStores scr x y (v.getD x default)

theorem drawCell_eq (fb : Nat → UInt8) (x y : Nat) (cell : Cell) (isCursor : Bool) :
    drawCell scr fb x y cell isCursor = storeWords fb (cellStores scr x y (cell, isCursor)) := by
  rw [storeWords, cellStores, List.foldl_flatMap]
  simp only [List.foldl_map]
  rfl

theorem mem_lineStores {y : Nat} {v : List (Cell × Bool)} {p : Nat × Nat} : p ∈ lineStores scr y v ↔
    ∃ x, x < scr.consoleWidth ∧ ∃ py, py < scr.font.glyphHeight ∧ ∃ px, px < scr.font.glyphWidth ∧
      p = (pixelAddr scr x y py px, pixelColor scr.font (v.getD x default).1 (v.getD x default).2 py px) := by
  simp only [lineStores, cellStores, List.mem_flatMap, List.mem_map, List.mem_range, eq_comm (a := p)]

/-- The line is on screen. -/
def LineDrawn (scr : Screen) (fb : Nat → UInt8) (y : Nat) (v : List (Cell × Bool)) : Prop :=
  ∀ p ∈ lineStores scr y v, readWord fb p.1 = p.2

theorem lineDrawn_storeWords (fb : Nat → UInt8) (y : Nat) (v : List (Cell × Bool)) :
    LineDrawn scr (storeWords fb (lineStores scr y v)) y v := by
  refine readWord_storeWords_mem (fun p hp q hq => ?_) (fun p hp => ?_)
  · obtain ⟨x, hx, py, hpy, px, hpx, rfl⟩ := mem_lineStores.1 hp
    obtain ⟨x', hx', py', hpy', px', hpx', rfl⟩ := mem_lineStores.1 hq
    rcases pixelAddr_apart y y hx hx' hpy hpy' hpx hpx' with ⟨rfl, -, rfl, rfl⟩ | hapart
    · exact Or.inl rfl
    · exact Or.inr hapart
  · obtain ⟨x, _, py, _, px, _, rfl⟩ := mem_lineStores.1 hp
    exact pixelColor_lt _ _ _ _ _

/-- Other lines stay on screen. -/
theorem LineDrawn.storeWords {fb : Nat → UInt8} {y y' : Nat} {v v' : List (Cell × Bool)}
    (h : LineDrawn scr fb y' v') (hne : y' ≠ y) : LineDrawn scr (storeWords fb (lineStores scr y v)) y' v' := by
  intro p hp
  rw [readWord_storeWords_apart, h p hp]
  intro q hq
  obtain ⟨x, hx, py, hpy, px, hpx, rfl⟩ := mem_lineStores.1 hp
  obtain ⟨x', hx', py', hpy', px', hpx', rfl⟩ := mem_lineStores.1 hq
  rcases pixelAddr_apart y' y hx hx' hpy hpy' hpx hpx' with ⟨-, heq, -⟩ | hapart
  · exact absurd heq hne
  · exact hapart.symm

theorem lineView_getD (s : FbConsole) (y : Nat) {x : Nat} (hx : x < scr.consoleWidth) :
    (lineView scr s y).getD x default =
      (s.cells.getD (y * scr.consoleWidth + x) default, s.isCursorAt x y) := by
  rw [lineView, List.getD_eq_getElem?_getD, List.getElem?_map, List.getElem?_range hx]
  rfl

theorem flushLine_spec (s : FbConsole) (y : Nat) :
    ∃ accesses, s.flushLine scr y =
        { s with fb := storeWords s.fb (lineStores scr y (lineView scr s y)), accesses := accesses } ∧
      s.accesses ⊆ accesses := by
  refine foldl_range_induction (fun n t => ∃ accesses, t = { s with
    fb := storeWords s.fb ((List.range n).flatMap fun x => cellStores scr x y ((lineView scr s y).getD x default))
    accesses := accesses } ∧ s.accesses ⊆ accesses) ?_ ?_
  · exact ⟨s.accesses, rfl, List.Subset.refl _⟩
  · rintro x hx t ⟨accesses, rfl, haccesses⟩
    have hfb : storeWords s.fb ((List.range (x + 1)).flatMap fun x =>
          cellStores scr x y ((lineView scr s y).getD x default)) =
        drawCell scr (storeWords s.fb ((List.range x).flatMap fun x =>
          cellStores scr x y ((lineView scr s y).getD x default))) x y
          (s.cells.getD (y * scr.consoleWidth + x) default) (s.isCursorAt x y) := by
      rw [List.range_succ, List.flatMap_append, List.flatMap_singleton, storeWords_append, lineView_getD s y hx,
        ← drawCell_eq]
    rw [hfb]
    exact ⟨_, rfl, fun a ha => List.mem_append_right _ (List.mem_cons_of_mem _ (haccesses ha))⟩

/-- What flushing does: afterwards no line is marked and every line is on screen. -/
theorem flush_spec (hlength : s.lineIsDirty.length = scr.consoleHeight)
    (hcleared : s.wholeScreenShouldBeCleared = true → ∀ y, Dirty s y)
    (hshown : UpToDate Dirty (lineView scr) (LineDrawn scr) s s.fb) :
    (s.flush scr).control = s.control ∧ (∀ y, lineView scr (s.flush scr) y = lineView scr s y) ∧
      (s.flush scr).wholeScreenShouldBeCleared = false ∧
      (s.flush scr).lineIsDirty.length = scr.consoleHeight ∧ s.accesses ⊆ (s.flush scr).accesses ∧
      ∀ y, y < scr.consoleHeight → LineDrawn scr (s.flush scr).fb y (lineView scr s y) := by
  -- if the screen is cleared, every line is marked
  obtain ⟨fb, accesses, hstart, haccesses, hshown⟩ : ∃ fb accesses,
      (if s.wholeScreenShouldBeCleared then
        { s with
          fb := memset32 s.fb scr.fbAddr (palette.getD s.bgColor 0) (scr.fbInfo.pitch * scr.fbInfo.height / 4)
          wholeScreenShouldBeCleared := false }.access [.palette s.bgColor]
      else s) = { s with fb := fb, wholeScreenShouldBeCleared := false, accesses := accesses } ∧
      s.accesses ⊆ accesses ∧ UpToDate Dirty (lineView scr) (LineDrawn scr) s fb := by
    split
    · rename_i hwhole
      exact ⟨_, _, rfl, List.subset_cons_self _ _, UpToDate.of_all_dirty (hcleared hwhole)⟩
    · rename_i hwhole
      refine ⟨s.fb, s.accesses, ?_, List.Subset.refl _, hshown⟩
      cases s
      simp_all
  have hloop : ∃ fb' dirty accesses', s.flush scr =
        { s with fb := fb', lineIsDirty := dirty, wholeScreenShouldBeCleared := false, accesses := accesses' } ∧
      dirty.length = scr.consoleHeight ∧ accesses ⊆ accesses' ∧
      UpToDate Dirty (lineView scr) (LineDrawn scr) { s with lineIsDirty := dirty } fb' ∧
      ∀ y, y < scr.consoleHeight → ¬Dirty { s with lineIsDirty := dirty } y := by
    rw [flush, hstart]
    refine foldl_range_induction (fun n t => ∃ fb' dirty accesses', t =
        { s with fb := fb', lineIsDirty := dirty, wholeScreenShouldBeCleared := false, accesses := accesses' } ∧
      dirty.length = scr.consoleHeight ∧ accesses ⊆ accesses' ∧
      UpToDate Dirty (lineView scr) (LineDrawn scr) { s with lineIsDirty := dirty } fb' ∧
      ∀ y, y < n → ¬Dirty { s with lineIsDirty := dirty } y) ?_ ?_
    · exact ⟨fb, s.lineIsDirty, accesses, rfl, hlength, List.Subset.refl _, hshown,
        fun _ hy => absurd hy (Nat.not_lt_zero _)⟩
    · rintro y hy t ⟨fb', dirty, accesses', rfl, hdirty, haccesses', hshown', hclean⟩
      have hy' : y < dirty.length := hdirty.symm ▸ hy
      simp only
      split
      · generalize hcurrent : ({ s with
          fb := fb', lineIsDirty := dirty, wholeScreenShouldBeCleared := false, accesses := accesses' } :
            FbConsole).access [.line y] = current
        have hspec : ∃ accesses, current.flushLine scr y = { current with
            fb := storeWords current.fb (lineStores scr y (lineView scr current y)), accesses := accesses } ∧
            current.accesses ⊆ accesses := flushLine_spec current y
        obtain ⟨accesses'', hline, haccesses''⟩ := hspec
        subst hcurrent
        rw [hline]
        refine ⟨_, dirty.set y false, _, rfl, List.length_set.trans hdirty, ?_, ?_, ?_⟩
        · exact List.Subset.trans haccesses' (List.Subset.trans (List.subset_cons_self _ _)
            (List.Subset.trans haccesses'' (List.subset_cons_self _ _)))
        · refine hshown'.draw rfl (fun j hne hmarked => ?_) (lineDrawn_storeWords _ _ _) fun j hne v h => h.storeWords hne
          simpa [Dirty, List.getD_eq_getElem?_getD, List.getElem?_set_ne hne.symm] using hmarked
        · intro j hj
          rcases Nat.lt_succ_iff_lt_or_eq.1 hj with hlt | rfl
          · have hclean' := hclean j hlt
            simpa [Dirty, List.getD_eq_getElem?_getD, List.getElem?_set_ne (Nat.ne_of_gt hlt)] using hclean'
          · simp [Dirty, List.getD_eq_getElem?_getD, hy']
      · rename_i hmark
        refine ⟨fb', dirty, _, rfl, hdirty, List.Subset.trans haccesses' (List.subset_cons_self _ _), hshown', ?_⟩
        intro j hj
        rcases Nat.lt_succ_iff_lt_or_eq.1 hj with hlt | rfl
        · exact hclean j hlt
        · simpa [Dirty, List.getD_eq_getElem?_getD, hy'] using hmark
  obtain ⟨fb', dirty, accesses', heq, hdirty, haccesses', hshown', hclean⟩ := hloop
  rw [heq]
  exact ⟨rfl, fun _ => rfl, rfl, hdirty, List.Subset.trans haccesses haccesses', fun y hy => hshown' y (hclean y hy)⟩

/-! ### Whole runs -/

/-- The console after it is set up and written to. -/
def afterWrites (scr : Screen) (cells : Nat → Cell) (lineIsDirty : Nat → Bool) (fb : Nat → UInt8)
    (writes : List (List UInt8)) : FbConsole :=
  writes.foldl (fbConsoleDeviceWrite scr) (fbConsoleInit scr cells lineIsDirty fb)

/-- Between writes: the cursor is in the columns, nothing waits to be cleared, and every line is on screen. -/
structure Settled (scr : Screen) (s : FbConsole) : Prop where
  length : s.lineIsDirty.length = scr.consoleHeight
  cursorX_lt : s.cursorX < scr.consoleWidth
  cleared : s.wholeScreenShouldBeCleared = false
  drawn : ∀ y, y < scr.consoleHeight → LineDrawn scr s.fb y (lineView scr s y)

/-- Bytes mark what they change. -/
theorem changes_foldl_onChar (buffer : List UInt8) (hlength : s.lineIsDirty.length = scr.consoleHeight)
    (hx : s.cursorX < scr.consoleWidth) :
    Changes scr s (buffer.foldl (fun s c => s.onChar scr c) s) ∧
      (buffer.foldl (fun s c => s.onChar scr c) s).cursorX < scr.consoleWidth := by
  induction buffer generalizing s with
  | nil => exact ⟨Changes.refl s, hx⟩
  | cons c buffer ih =>
      have hchange := changes_onChar s c hlength hx
      obtain ⟨hrest, hx'⟩ := ih (hchange.length.trans hlength) (cursorX_onChar s c hx)
      exact ⟨hchange.trans hrest, hx'⟩

theorem settled_flush (hlength : s.lineIsDirty.length = scr.consoleHeight) (hx : s.cursorX < scr.consoleWidth)
    (hcleared : s.wholeScreenShouldBeCleared = true → ∀ y, Dirty s y)
    (hshown : UpToDate Dirty (lineView scr) (LineDrawn scr) s s.fb) : Settled scr (s.flush scr) := by
  obtain ⟨hcontrol, hview, hwhole, hlength', _, hdrawn⟩ := flush_spec hlength hcleared hshown
  exact ⟨hlength', (cursorX_eq hcontrol).trans_lt hx, hwhole, fun y hy => hview y ▸ hdrawn y hy⟩

theorem settled_fbConsoleInit (cells : Nat → Cell) (lineIsDirty : Nat → Bool) (fb : Nat → UInt8)
    (hpos : 0 < scr.consoleWidth) : Settled scr (fbConsoleInit scr cells lineIsDirty fb) := by
  unfold fbConsoleInit
  simp only
  generalize hs : ({
    cells := (List.range (scr.consoleWidth * scr.consoleHeight)).map cells
    lineIsDirty := (List.range scr.consoleHeight).map lineIsDirty
    fb := fb } : FbConsole) = s
  have hlength : s.lineIsDirty.length = scr.consoleHeight := by
    rw [← hs, List.length_map, List.length_range]
  have hchange := changes_clearScreen s hlength
  have hall : ∀ y, Dirty (s.clearScreen scr) y := by
    refine (hchange.cleared rfl).resolve_left ?_
    rw [← hs]
    exact Bool.false_ne_true
  refine settled_flush (hchange.length.trans hlength) ?_ (fun _ => hall) (UpToDate.of_all_dirty hall)
  rw [cursorX_eq (control_clearScreen s), ← hs]
  exact hpos

/-- What is on screen stays right until the next drawing. -/
theorem Settled.upToDate (h : Settled scr s) (hchange : Changes scr s t) :
    UpToDate Dirty (lineView scr) (LineDrawn scr) t t.fb := by
  rw [hchange.fb]
  refine UpToDate.change (fun y hclean => h.drawn y ?_) hchange.marks
  by_contra hge
  exact hclean (dirty_of_length_le (h.length ▸ Nat.le_of_not_lt hge))

theorem Settled.all_dirty (h : Settled scr s) (hchange : Changes scr s t)
    (hwhole : t.wholeScreenShouldBeCleared = true) : ∀ y, Dirty t y := by
  refine (hchange.cleared hwhole).resolve_left ?_
  rw [h.cleared]
  exact Bool.false_ne_true

theorem Settled.fbConsoleDeviceWrite (h : Settled scr s) (buffer : List UInt8) :
    Settled scr (fbConsoleDeviceWrite scr s buffer) := by
  obtain ⟨hchange, hx⟩ := changes_foldl_onChar buffer h.length h.cursorX_lt
  exact settled_flush (hchange.length.trans h.length) hx (h.all_dirty hchange) (h.upToDate hchange)

end FbConsole

end Chaotix
