/-
Module: Chaotix.Proofs.PromptRedraw
Layer: Proofs
Purpose: The part of the line that the shell redraws. Where the prompt is narrower than the terminal, all of what is
  written is the line, also when it is scrolled. A prompt that is as wide as the terminal leaves no column for the line,
  and the differences of the code wrap: then only some lines are safe.
Imports: Chaotix.Userland.LineEditor
Trusted boundary: none
Main exports: ShowsLine, PromptFits, redraw_shows_line_iff
-/
import Chaotix.Userland.LineEditor

namespace Chaotix

namespace Sh

/-- Every byte of `input_buf` that is written belongs to the line. -/
def ShowsLine (ed : LineEditor) (outputs : List EditorOutput) : Prop :=
  ∀ start count, EditorOutput.input start count ∈ outputs → ∀ i, start ≤ i → i < start + count → i < ed.inputLen

/-- The prompt is narrower than the terminal. If it is as wide, the cursor is before the end of the line; if it is wider
    by two columns or more, nothing is left of a line of one byte with the cursor before it, or of two bytes with the
    cursor behind them. -/
def PromptFits (ed : LineEditor) (promptLen terminalWidth : Nat) : Prop :=
  promptLen < terminalWidth ∨
    promptLen = terminalWidth ∧ ed.cursor < ed.inputLen ∨
    terminalWidth + 1 < promptLen ∧ (ed.inputLen = 1 ∧ ed.cursor = 0 ∨ ed.inputLen = 2 ∧ ed.cursor = 2)

section Slices

variable {ed : LineEditor} {cwd : List UInt8} {promptLen terminalWidth start count : Nat}

/-- How many bytes of a scrolled line are written. -/
def scrolledLen (ed : LineEditor) (promptLen terminalWidth : Nat) : Nat :=
  let len := wordPred (min ed.inputLen (wordSucc (wordSub terminalWidth promptLen)))
  if ed.cursor = ed.inputLen ∧ promptLen + ed.cursor > terminalWidth then wordPred len else len

/-- A range is in the line when it is empty or ends in it. -/
theorem range_inside_iff {n : Nat} :
    (∀ i, start ≤ i → i < start + count → i < n) ↔ count = 0 ∨ start + count ≤ n := by
  constructor
  · intro h
    by_contra hnot
    have hlast := h (start + count - 1) (by omega) (by omega)
    omega
  · omega

/-- The one range that is written. -/
theorem mem_redraw (hwidth : terminalWidth < wordSize) (hprompt : cwd.length < BUF_SIZE)
    (hcursor : ed.cursor ≤ ed.inputLen) (hlen : ed.inputLen ≤ BUF_SIZE - 1) :
    EditorOutput.input start count ∈ (ed.redraw cwd terminalWidth).1 ↔
      if cwd.length + 3 + ed.cursor < terminalWidth then
        start = 0 ∧ count = min ed.inputLen (terminalWidth - (cwd.length + 3))
      else
        start = cwd.length + 3 + ed.cursor - terminalWidth + 1 ∧
          count = scrolledLen ed (cwd.length + 3) terminalWidth := by
  have hword : 2 * BUF_SIZE + 3 < wordSize := by decide
  have hpromptLen : (cwd.length + 3) % wordSize = cwd.length + 3 := Nat.mod_eq_of_lt (by omega)
  have hcursorX : (cwd.length + 3 + ed.cursor) % wordSize = cwd.length + 3 + ed.cursor := Nat.mod_eq_of_lt (by omega)
  simp only [LineEditor.redraw, hpromptLen, hcursorX]
  split
  · rename_i hshort
    rw [wordSub_of_le (by omega) hwidth]
    simp
  · rename_i hscrolled
    rw [wordSub_of_le (x := cwd.length + 3 + ed.cursor) (by omega) (by omega),
      wordSucc_of_lt (n := cwd.length + 3 + ed.cursor + 1) (by omega) (by omega)]
    unfold scrolledLen
    split
    · rename_i hedge
      simp [hedge]
    · rename_i hedge
      simp

/-- The columns that the prompt leaves, and one more. A prompt that is wider by one column leaves none, and a wider one
    leaves very many. -/
theorem room_eq (hpos : 0 < promptLen) (hprompt : promptLen < BUF_SIZE + 3) (hwidth : terminalWidth < wordSize) :
    wordSucc (wordSub terminalWidth promptLen) =
      if promptLen ≤ terminalWidth then terminalWidth - promptLen + 1
      else if promptLen = terminalWidth + 1 then 0
      else wordSize - (promptLen - terminalWidth) + 1 := by
  have hword : 2 * BUF_SIZE + 3 < wordSize := by decide
  split
  · rename_i hle
    rw [wordSub_of_le hle hwidth, wordSucc_of_lt (n := terminalWidth) (by omega) hwidth]
  · rename_i hgt
    have hdiff : wordSub terminalWidth promptLen = wordSize - (promptLen - terminalWidth) := by
      rw [wordSub, Nat.mod_eq_of_lt (by omega)]
      omega
    rw [hdiff, wordSucc]
    split
    · rw [if_pos (by omega)]
    · rw [if_neg (by omega)]

theorem wordPred_cases (x : Nat) : x = 0 ∧ wordPred x = wordSize - 1 ∨ 0 < x ∧ wordPred x = x - 1 := by
  unfold wordPred
  split
  · exact .inl ⟨‹_›, rfl⟩
  · exact .inr ⟨Nat.pos_of_ne_zero ‹_›, rfl⟩

/-- A scrolled line is written without harm exactly where the prompt fits. -/
theorem scrolled_inside_iff (hpos : 0 < promptLen) (hprompt : promptLen < BUF_SIZE + 3)
    (hwidth : terminalWidth < wordSize) (hcursor : ed.cursor ≤ ed.inputLen) (hlen : ed.inputLen ≤ BUF_SIZE - 1)
    (hscrolled : ¬promptLen + ed.cursor < terminalWidth) :
    scrolledLen ed promptLen terminalWidth = 0 ∨
        promptLen + ed.cursor - terminalWidth + 1 + scrolledLen ed promptLen terminalWidth ≤ ed.inputLen ↔
      PromptFits ed promptLen terminalWidth := by
  have hword : 2 * BUF_SIZE + 3 < wordSize := by decide
  simp only [scrolledLen, PromptFits, room_eq hpos hprompt hwidth]
  -- the room behind the prompt, and what is left of it at the right edge
  generalize hroom : min ed.inputLen _ = room
  have hfirst := wordPred_cases room
  have hsecond := wordPred_cases (wordPred room)
  by_cases hnarrow : promptLen ≤ terminalWidth
  · rw [if_pos hnarrow] at hroom
    split <;> omega
  rw [if_neg hnarrow] at hroom
  by_cases hone : promptLen = terminalWidth + 1
  · rw [if_pos hone] at hroom
    split <;> omega
  · rw [if_neg hone] at hroom
    split <;> omega

end Slices

/-- All that the redraw writes of `input_buf` is the line exactly when the prompt fits. -/
theorem redraw_shows_line_iff {ed : LineEditor} {cwd : List UInt8} {terminalWidth : Nat}
    (hwidth : terminalWidth < wordSize) (hcwd : cwd.length < BUF_SIZE) (hcursor : ed.cursor ≤ ed.inputLen)
    (hlen : ed.inputLen ≤ BUF_SIZE - 1) :
    ShowsLine ed (ed.redraw cwd terminalWidth).1 ↔ PromptFits ed (cwd.length + 3) terminalWidth := by
  by_cases hshort : cwd.length + 3 + ed.cursor < terminalWidth
  · have hfits : PromptFits ed (cwd.length + 3) terminalWidth := .inl (by omega)
    simp only [hfits, iff_true]
    intro start count hmem
    rw [mem_redraw hwidth hcwd hcursor hlen, if_pos hshort] at hmem
    obtain ⟨rfl, rfl⟩ := hmem
    rw [range_inside_iff]
    omega
  · rw [← scrolled_inside_iff (Nat.succ_pos _) (Nat.add_lt_add_right hcwd 3) hwidth hcursor hlen hshort,
      ← range_inside_iff]
    constructor
    · intro h
      refine h _ _ ?_
      rw [mem_redraw hwidth hcwd hcursor hlen, if_neg hshort]
      exact ⟨rfl, rfl⟩
    · intro h start count hmem
      rw [mem_redraw hwidth hcwd hcursor hlen, if_neg hshort] at hmem
      obtain ⟨rfl, rfl⟩ := hmem
      exact h

/-- A line of two bytes with the cursor behind them. -/
def shortLine : LineEditor := { inputLen := 2, cursor := 2 }

/-- A short prompt and a short line. -/
theorem redraw_shows_shortLine : ShowsLine shortLine (shortLine.redraw (stringBytes "/") 80).1 :=
  (redraw_shows_line_iff (by decide) (by decide) (by decide) (by decide)).2 (.inl (by decide))

/-- A prompt that is as wide as the terminal, and an empty line: the length wraps. -/
theorem redraw_exceeds_line : ¬ShowsLine {} (LineEditor.redraw {} (List.replicate 77 'd'.toUInt8) 80).1 := by
  intro h
  have hwritten : EditorOutput.input 1 (wordSize - 1) ∈
      (LineEditor.redraw {} (List.replicate 77 'd'.toUInt8) 80).1 := by
    rw [mem_redraw (by decide) (by rw [List.length_replicate]; decide) (by decide) (by decide), List.length_replicate,
      if_neg (by decide)]
    exact ⟨rfl, by decide⟩
  exact absurd (h _ _ hwritten 1 (by decide) (by decide)) (by decide)

end Sh

end Chaotix
