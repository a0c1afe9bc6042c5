/-
Module: Chaotix.Userland.LineEditor
Layer: Userland
Purpose: The line editor of the shell: a machine that reads one byte at a time, edits the line in `input_buf` at the
  cursor and collects the parameters of an escape sequence in `param_buf`. A buffer is the memory from its start on, and
  a store beyond its end changes nothing else here; every range of bytes that the code reads or writes is recorded in
  `touches`, so whether all of them were inside can be told afterwards. `memmove` copies byte by byte: the path with
  words of `memcpy` is for two aligned addresses, and here they are one apart. The redraw of the prompt and the line is
  a list of what is handed to `dprintf` and `write`.
Imports: Mathlib.Logic.Function.Basic, Chaotix.Lib.ByteMem, Chaotix.Lib.Numeral, Chaotix.Lib.Transition,
  Chaotix.Kernel.FbConsole
Trusted boundary: human-reviewed model of `on_char` and the functions it calls and of `read_input` of `userland/sh.c`,
  and of `memmove` and `strcpy` of `common/string.c`
Main exports: LineEditor, Touch, handleGround, handleStateEsc, handleCsiVt, handleStateCsi, onChar, readInput,
  lineEditing, EditorOutput, redraw
-/
import Mathlib.Logic.Function.Basic
import Chaotix.Lib.ByteMem
import Chaotix.Lib.Numeral
import Chaotix.Lib.Transition
import Chaotix.Kernel.FbConsole

namespace Chaotix

namespace Sh

/-- `BUF_SIZE`. -/
abbrev BUF_SIZE : Nat := 1024

/-- The state of the editor. -/
inductive EditorState where
  | STATE_GROUND
  | STATE_ESC
  | STATE_CSI
  | STATE_ACCEPTED
deriving DecidableEq, Repr

/-- The two buffers of the editor. -/
inductive EditorBuf where
  | input
  | param
deriving DecidableEq, Repr

/-- A range of bytes that is read or written. -/
structure Touch where
  buf : EditorBuf
  start : Nat
  count : Nat
deriving DecidableEq, Repr

/-- The range is in its buffer, which has `BUF_SIZE` bytes. -/
def Touch.Inside (t : Touch) : Prop := t.count = 0 ∨ t.start + t.count ≤ BUF_SIZE

instance (t : Touch) : Decidable t.Inside := inferInstanceAs (Decidable (_ ∨ _))

/-- `struct line_editor`, the ranges it has touched, and what it has written to `STDERR_FILENO`. -/
structure LineEditor where
  inputBuf : Nat → UInt8 := fun _ => 0
  inputLen : Nat := 0
  cursor : Nat := 0
  state : EditorState := .STATE_GROUND
  dirty : Bool := false
  paramBuf : Nat → UInt8 := fun _ => 0
  paramLen : Nat := 0
  touches : List Touch := []
  stderr : List UInt8 := []

/-- `isprint`. -/
def isprint (c : UInt8) : Prop := 0x20 ≤ charValue c ∧ charValue c ≤ 0x7e

instance (c : UInt8) : Decidable (isprint c) := inferInstanceAs (Decidable (_ ∧ _))

/-- `memmove` inside a buffer. The difference of the two addresses wraps. -/
def memmove (buf : Nat → UInt8) (dest src n : Nat) : Nat → UInt8 :=
  if n ≤ wordSub dest src then copyForward n buf dest src else copyBackward n buf dest src

/-- What `read_input` hands to `dprintf`, or a range of `input_buf` that it hands to `write`. -/
inductive EditorOutput where
  | text (bytes : List UInt8)
  | input (start count : Nat)
deriving DecidableEq, Repr

/-- The bytes of a string. -/
def stringBytes (s : String) : List UInt8 := s.toList.map Char.toUInt8

namespace LineEditor

/-- The ranges are used. -/
def touch (ed : LineEditor) (ts : List Touch) : LineEditor := { ed with touches := ts ++ ed.touches }

/-- `memmove(ed->input_buf + dest, ed->input_buf + src, n)`. -/
def moveInput (ed : LineEditor) (dest src n : Nat) : LineEditor :=
  { ed with inputBuf := memmove ed.inputBuf dest src n }.touch [⟨.input, dest, n⟩, ⟨.input, src, n⟩]

/-- `ed->input_buf[i] = c`. -/
def storeInput (ed : LineEditor) (i : Nat) (c : UInt8) : LineEditor :=
  { ed with inputBuf := Function.update ed.inputBuf i c }.touch [⟨.input, i, 1⟩]

/-- `ed->param_buf[i] = c`. -/
def storeParam (ed : LineEditor) (i : Nat) (c : UInt8) : LineEditor :=
  { ed with paramBuf := Function.update ed.paramBuf i c }.touch [⟨.param, i, 1⟩]

/-- `memset(ed->input_buf, 0, n)`. -/
def clearInput (ed : LineEditor) (n : Nat) : LineEditor :=
  { ed with inputBuf := writeBytes ed.inputBuf 0 (List.replicate n 0) }.touch [⟨.input, 0, n⟩]

/-- `strcpy(ed->input_buf, src)`, which copies the bytes before the zero and not the zero. -/
def copyToInput (ed : LineEditor) (src : List UInt8) : LineEditor :=
  { ed with inputBuf := writeBytes ed.inputBuf 0 src }.touch [⟨.input, 0, src.length⟩]

/-- The string in `param_buf`. -/
def params (ed : LineEditor) : List UInt8 := ((List.range BUF_SIZE).map ed.paramBuf).takeWhile (· ≠ 0)

/-- `"exit"`. -/
def exitLine : List UInt8 := ['e'.toUInt8, 'x'.toUInt8, 'i'.toUInt8, 't'.toUInt8]

/-- `"\x1b[H\x1b[2J"`. -/
def clearScreen : List UInt8 :=
  ['\x1b'.toUInt8, '['.toUInt8, 'H'.toUInt8, '\x1b'.toUInt8, '['.toUInt8, '2'.toUInt8, 'J'.toUInt8]

/-- `handle_ground`. -/
def handleGround (ed : LineEditor) (c : UInt8) : LineEditor :=
  if isprint c then
    let ed := ed.moveInput (ed.cursor + 1) ed.cursor (wordSub ed.inputLen ed.cursor)
    let ed := ed.storeInput ed.cursor c
    { ed with cursor := wordSucc ed.cursor, inputLen := wordSucc ed.inputLen, dirty := true }
  else if c = '\x1b'.toUInt8 then { ed with state := .STATE_ESC }
  else if c = '\r'.toUInt8 ∨ c = '\n'.toUInt8 then { ed with state := .STATE_ACCEPTED }
  else if c = '\x08'.toUInt8 ∨ c = '\x7f'.toUInt8 then
    if ed.cursor = 0 then ed
    else
      let ed := ed.moveInput (ed.cursor - 1) ed.cursor (wordSub ed.inputLen ed.cursor)
      let ed := { ed with inputLen := wordPred ed.inputLen }
      let ed := ed.storeInput ed.inputLen 0
      { ed with cursor := wordPred ed.cursor, dirty := true }
  else if c = 'U'.toUInt8 - '@'.toUInt8 then
    let ed := ed.clearInput ed.inputLen
    { ed with inputLen := 0, cursor := 0, dirty := true }
  else if c = 'D'.toUInt8 - '@'.toUInt8 then
    if ed.inputLen = 0 then
      let ed := ed.copyToInput exitLine
      { ed with state := .STATE_ACCEPTED, dirty := true }
    else ed
  else if c = 'L'.toUInt8 - '@'.toUInt8 then
    { ed with stderr := ed.stderr ++ clearScreen, dirty := true }
  else ed

/-- `handle_state_esc`. -/
def handleStateEsc (ed : LineEditor) (c : UInt8) : LineEditor :=
  if c = '['.toUInt8 then { ed with paramLen := 0, state := .STATE_CSI }
  else { ed with state := .STATE_GROUND }.handleGround c

/-- `on_home`. -/
def onHome (ed : LineEditor) : LineEditor := { ed with cursor := 0, dirty := true }

/-- `on_end`. -/
def onEnd (ed : LineEditor) : LineEditor := { ed with cursor := ed.inputLen, dirty := true }

/-- `handle_csi_vt`. `atoi` uses `param_buf` up to the end of the string. -/
def handleCsiVt (ed : LineEditor) : LineEditor :=
  let code := FbConsole.atoi ed.params
  let ed := ed.touch [⟨.param, 0, ed.params.length + 1⟩]
  if code = 1 ∨ code = 7 then ed.onHome
  else if code = 4 ∨ code = 8 then ed.onEnd
  else if code = 3 then
    if ed.cursor < ed.inputLen then
      let ed := ed.moveInput ed.cursor (ed.cursor + 1) (wordPred (wordSub ed.inputLen ed.cursor))
      let ed := { ed with inputLen := wordPred ed.inputLen }
      let ed := ed.storeInput ed.inputLen 0
      { ed with dirty := true }
    else ed
  else ed

/-- `handle_state_csi`. -/
def handleStateCsi (ed : LineEditor) (c : UInt8) : LineEditor :=
  if charValue c < 0x40 then
    let ed := ed.storeParam ed.paramLen c
    { ed with paramLen := wordSucc ed.paramLen }
  else
    let ed := ed.storeParam ed.paramLen 0
    let ed :=
      if c = 'C'.toUInt8 then
        if ed.cursor < ed.inputLen then { ed with cursor := wordSucc ed.cursor, dirty := true } else ed
      else if c = 'D'.toUInt8 then
        if ed.cursor > 0 then { ed with cursor := wordPred ed.cursor, dirty := true } else ed
      else if c = 'H'.toUInt8 then ed.onHome
      else if c = 'F'.toUInt8 then ed.onEnd
      else if c = '~'.toUInt8 then ed.handleCsiVt
      else ed
    { ed with state := .STATE_GROUND }

/-- `on_char`. There is no result where the code is `UNREACHABLE`. -/
def onChar (ed : LineEditor) (c : UInt8) : Option LineEditor :=
  match ed.state with
  | .STATE_GROUND => some (ed.handleGround c)
  | .STATE_ESC => some (ed.handleStateEsc c)
  | .STATE_CSI => some (ed.handleStateCsi c)
  | .STATE_ACCEPTED => none

/-- `read_input`, up to its loop. -/
def readInput (ed : LineEditor) : LineEditor :=
  let ed := { ed with state := .STATE_GROUND }.clearInput BUF_SIZE
  { ed with inputLen := 0, cursor := 0, dirty := true }

/-- The redraw of `read_input`, for an editor that is dirty. `cwd` is the string in `cwd_buf`, and unsigned differences
    wrap. -/
def redraw (ed : LineEditor) (cwd : List UInt8) (terminalWidth : Nat) : List EditorOutput × LineEditor :=
  let promptLen := (cwd.length + 3) % wordSize
  let prompt := stringBytes "\x1b[?25l\x1b[G\x1b[36m" ++ cwd ++ stringBytes "\x1b[m $ "
  let clearNeeded := (promptLen + ed.inputLen) % wordSize < terminalWidth
  let cursorX := (promptLen + ed.cursor) % wordSize
  let (start, len, clearNeeded, cursorX) : Nat × Nat × Bool × Nat :=
    if cursorX < terminalWidth then
      (0, min ed.inputLen (wordSub terminalWidth promptLen), clearNeeded, cursorX)
    else
      let start := wordSucc (wordSub cursorX terminalWidth)
      let len := wordPred (min ed.inputLen (wordSucc (wordSub terminalWidth promptLen)))
      if ed.cursor = ed.inputLen ∧ cursorX > terminalWidth then (start, wordPred len, true, terminalWidth)
      else (start, len, clearNeeded, terminalWidth)
  let clear := if clearNeeded then [EditorOutput.text (stringBytes "\x1b[J")] else []
  let place := stringBytes "\x1b[" ++ numeral 10 (wordSucc cursorX) ++ stringBytes "G\x1b[?25h"
  ([.text prompt, .input start len] ++ clear ++ [.text place], { ed with dirty := false })

end LineEditor

/-- What happens to the editor: `main` calls `read_input` for the next line, or a byte has been read. -/
inductive EditorEvent where
  | readInput
  | onChar (c : UInt8)
deriving DecidableEq, Repr

/-- The editor of `main`. It is static, so all of it is zero before the first line; `read_input` returns, and is called
    again, when a line is accepted. -/
def lineEditing : TransitionSystem LineEditor EditorEvent where
  init ed := ed = LineEditor.readInput {}
  step
    | ed, .readInput, ed' => ed.state = .STATE_ACCEPTED ∧ ed' = ed.readInput
    | ed, .onChar c, ed' => ed.onChar c = some ed'

end Sh

end Chaotix
