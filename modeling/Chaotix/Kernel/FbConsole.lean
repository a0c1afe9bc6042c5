/-
Module: Chaotix.Kernel.FbConsole
Layer: Kernel
Purpose: The framebuffer console of `console/fb_console.c`: the machine that reads escape sequences, the cells and
  the cursor it moves, and the drawing of the lines that are marked dirty. All state is behind the one lock that
  `fb_console_device_write` holds. Arrays are lists, and a store beyond the end of one changes nothing here; every
  index the code uses is recorded in `accesses`, so whether a store was inside can be told afterwards.
Imports: Chaotix.Lib.ByteMem, Chaotix.Kernel.Base
Trusted boundary: human-reviewed model of `console/fb_console.c`, of `atoi` of `common/stdlib.c` and of `strtok_r` of
  `common/string.c`
Main exports: Font, FbInfo, Screen, ConsoleIndex, FbConsole, onChar, flush, fbConsoleInit, fbConsoleDeviceWrite
-/
import Chaotix.Lib.ByteMem
import Chaotix.Kernel.Base

namespace Chaotix

/-- `struct font`: `glyphs` is the memory at the pointer. -/
structure Font where
  glyphs : Nat → UInt8
  glyphWidth : Nat
  glyphHeight : Nat
  bytesPerGlyph : Nat
  asciiToGlyph : Nat → Nat

/-- `struct fb_info`, where a pixel has 32 bits. The pixels of a line do not reach into the next one. -/
structure FbInfo where
  width : Nat
  height : Nat
  pitch : Nat
  width_lt : width < wordSize
  height_lt : height < wordSize
  pitch_ge : width * 4 ≤ pitch

/-- What `fb_console_init` finds and never changes: the font and the framebuffer with its address. -/
structure Screen where
  font : Font
  fbInfo : FbInfo
  fbAddr : Nat

/-- `console_width`. -/
def Screen.consoleWidth (scr : Screen) : Nat := scr.fbInfo.width / scr.font.glyphWidth

/-- `console_height`. -/
def Screen.consoleHeight (scr : Screen) : Nat := scr.fbInfo.height / scr.font.glyphHeight

/-- `TAB_STOP`. -/
abbrev TAB_STOP : Nat := 8

/-- `DEFAULT_FG_COLOR`. -/
abbrev DEFAULT_FG_COLOR : Nat := 7

/-- `DEFAULT_BG_COLOR`. -/
abbrev DEFAULT_BG_COLOR : Nat := 0

/-- `sizeof(param_buf)`. -/
abbrev PARAM_BUF_SIZE : Nat := 1024

/-- `palette`. -/
def palette : List Nat :=
  [0x000000, 0xcc0000, 0x4e9a06, 0xc4a000, 0x3465a4, 0x75507b,
   0xff7300, 0xFFFFFF, 0x555753, 0xef2929, 0x8ae234, 0xfce94f,
   0x729fcf, 0xad7fa8, 0x34e2e2, 0xeeeeec]

/-- `struct cell`. -/
structure Cell where
  ch : UInt8
  fgColor : Nat
  bgColor : Nat
deriving DecidableEq, Inhabited

/-- An index the console uses: into `cells`, `line_is_dirty`, `param_buf`, `palette` or `ascii_to_glyph`. -/
inductive ConsoleIndex where
  | cell (i : Nat)
  | line (y : Nat)
  | param (i : Nat)
  | palette (i : Nat)
  | glyph (i : Nat)
deriving DecidableEq

/-- The index is inside the array. -/
def ConsoleIndex.Within (scr : Screen) : ConsoleIndex → Prop
  | cell i => i < scr.consoleWidth * scr.consoleHeight
  | line y => y < scr.consoleHeight
  | param i => i < PARAM_BUF_SIZE
  | palette i => i < 16
  | glyph i => i < 128

/-- `state`. -/
inductive ConsoleState where
  | ground
  | esc
  | csi
deriving DecidableEq

/-- The variables of the console and the framebuffer. `accesses` is not in the code: it holds the indices used so
    far, the newest first. -/
structure FbConsole where
  cells : List Cell
  lineIsDirty : List Bool
  fb : Nat → UInt8
  cursorX : Nat := 0
  cursorY : Nat := 0
  isCursorVisible : Bool := true
  state : ConsoleState := .ground
  fgColor : Nat := DEFAULT_FG_COLOR
  bgColor : Nat := DEFAULT_BG_COLOR
  wholeScreenShouldBeCleared : Bool := false
  stomp : Bool := false
  paramBuf : List UInt8 := List.replicate PARAM_BUF_SIZE 0
  paramBufIdx : Nat := 0
  accesses : List ConsoleIndex := []

/-- A `char` as a `size_t` or an `unsigned`. -/
def charWord (c : UInt8) : Nat := (charValue c % (wordSize : Int)).toNat

namespace FbConsole

/-! ### Cells and lines -/

/-- The indices are used. -/
def access (s : FbConsole) (is : List ConsoleIndex) : FbConsole := { s with accesses := is ++ s.accesses }

/-- `line_is_dirty[y] = dirty`. -/
def setLineIsDirty (s : FbConsole) (y : Nat) (dirty : Bool) : FbConsole :=
  { s with lineIsDirty := s.lineIsDirty.set y dirty }.access [.line y]

/-- `set_cursor`. -/
def setCursor (s : FbConsole) (x y : Nat) : FbConsole :=
  let s := { s with stomp := false }
  let s := s.setLineIsDirty s.cursorY true
  let s := s.setLineIsDirty y true
  { s with cursorX := x, cursorY := y }

/-- The stores to `cells[i]` with the current colors. -/
def setCell (s : FbConsole) (i : Nat) (c : UInt8) : FbConsole :=
  { s with cells := s.cells.set i { ch := c, fgColor := s.fgColor, bgColor := s.bgColor } }.access [.cell i]

/-- `clear_line_at`. -/
def clearLineAt (scr : Screen) (s : FbConsole) (x y length : Nat) : FbConsole :=
  let s := (List.range length).foldl (fun s i => s.setCell (x + y * scr.consoleWidth + i) ' '.toUInt8) s
  s.setLineIsDirty y true

/-- `clear_screen`. -/
def clearScreen (scr : Screen) (s : FbConsole) : FbConsole :=
  let s := (List.range scr.consoleHeight).foldl (fun s y => s.clearLineAt scr 0 y scr.consoleWidth) s
  { s with wholeScreenShouldBeCleared := true }

/-- `write_char_at`. -/
def writeCharAt (scr : Screen) (s : FbConsole) (x y : Nat) (c : UInt8) : FbConsole :=
  let s := s.setCell (x + y * scr.consoleWidth) c
  s.setLineIsDirty y true

/-- `memmove(cells, cells + from, count * sizeof(struct cell))`. -/
def moveCells (s : FbConsole) (source count : Nat) : FbConsole :=
  { s with cells := (s.cells.drop source).take count ++ s.cells.drop count }.access
    ((List.range count).map (fun i => ConsoleIndex.cell (source + i)) ++ (List.range count).map ConsoleIndex.cell)

/-- `scroll_up`. -/
def scrollUp (scr : Screen) (s : FbConsole) : FbConsole :=
  let s := s.moveCells scr.consoleWidth (scr.consoleWidth * wordPred scr.consoleHeight)
  let s := (List.range (wordPred scr.consoleHeight)).foldl (fun s y => s.setLineIsDirty y true) s
  s.clearLineAt scr 0 (wordPred scr.consoleHeight) scr.consoleWidth

/-! ### Drawing -/

/-- Is the cursor shown in the cell. -/
def isCursorAt (s : FbConsole) (x y : Nat) : Bool :=
  s.isCursorVisible && x == s.cursorX && y == s.cursorY

/-- `swapped & (1 << (32 - px - 1))`: is the pixel of the glyph set. The bytes of a row of a glyph are read as one
    word, with the first byte as the highest. -/
def glyphBit (font : Font) (ch py px : Nat) : Bool :=
  let glyph := font.asciiToGlyph ch * font.bytesPerGlyph + py * (font.bytesPerGlyph / font.glyphHeight)
  let val := UInt32.ofNat (readWord font.glyphs glyph)
  let swapped : UInt32 :=
    (val >>> 24 &&& (0xff : UInt32)) ||| (val <<< 8 &&& (0xff0000 : UInt32)) |||
      (val >>> 8 &&& (0xff00 : UInt32)) ||| (val <<< 24 &&& (0xff000000 : UInt32))
  swapped &&& (1 : UInt32) <<< (32 - UInt32.ofNat px - 1) ≠ 0

/-- The color of one pixel of a cell. -/
def pixelColor (font : Font) (cell : Cell) (isCursor : Bool) (py px : Nat) : Nat :=
  let fg := palette.getD (if isCursor then cell.bgColor else cell.fgColor) 0
  let bg := palette.getD (if isCursor then cell.fgColor else cell.bgColor) 0
  if glyphBit font (charWord cell.ch) py px then fg else bg

/-- The address of one pixel of a cell: `row_addr` after `py` lines, and `pixel` after `px` steps. -/
def pixelAddr (scr : Screen) (x y py px : Nat) : Nat :=
  scr.fbAddr + x * scr.font.glyphWidth * 4 + y * scr.font.glyphHeight * scr.fbInfo.pitch +
    py * scr.fbInfo.pitch + px * 4

/-- The pixels of a cell, line by line. -/
def drawCell (scr : Screen) (fb : Nat → UInt8) (x y : Nat) (cell : Cell) (isCursor : Bool) : Nat → UInt8 :=
  (List.range scr.font.glyphHeight).foldl (fun fb py =>
    (List.range scr.font.glyphWidth).foldl (fun fb px =>
      writeBytes fb (pixelAddr scr x y py px) (wordBytes (pixelColor scr.font cell isCursor py px))) fb) fb

/-- `flush_cell_at`. -/
def flushCellAt (scr : Screen) (s : FbConsole) (x y : Nat) (cell : Cell) : FbConsole :=
  { s with fb := drawCell scr s.fb x y cell (s.isCursorAt x y) }.access
    [.glyph (charWord cell.ch), .palette cell.bgColor, .palette cell.fgColor]

/-- `memset32`. -/
def memset32 (fb : Nat → UInt8) (a v n : Nat) : Nat → UInt8 :=
  (List.range n).foldl (fun fb i => writeBytes fb (a + i * 4) (wordBytes v)) fb

/-- The cells of one line are drawn. -/
def flushLine (scr : Screen) (s : FbConsole) (y : Nat) : FbConsole :=
  (List.range scr.consoleWidth).foldl (fun s x =>
    let i := y * scr.consoleWidth + x
    (s.access [.cell i]).flushCellAt scr x y (s.cells.getD i default)) s

/-- `flush`. -/
def flush (scr : Screen) (s : FbConsole) : FbConsole :=
  let s := if s.wholeScreenShouldBeCleared then
    { s with
      fb := memset32 s.fb scr.fbAddr (palette.getD s.bgColor 0) (scr.fbInfo.pitch * scr.fbInfo.height / 4)
      wholeScreenShouldBeCleared := false }.access [.palette s.bgColor]
  else s
  (List.range scr.consoleHeight).foldl (fun s y =>
    let s' := s.access [.line y]
    if s.lineIsDirty.getD y false then (s'.flushLine scr y).setLineIsDirty y false else s') s

/-! ### Characters outside escape sequences -/

/-- `round_up(x, TAB_STOP)`, where the sum wraps. -/
def roundUpTab (x : Nat) : Nat := (x + (TAB_STOP - 1)) % wordSize / TAB_STOP * TAB_STOP

/-- What `handle_ground` does before the character: a line end that waits is taken now, and below the last line
    the screen scrolls. -/
def makeRoom (scr : Screen) (s : FbConsole) : FbConsole :=
  let s := if s.stomp then s.setCursor 0 (wordSucc s.cursorY) else s
  if s.cursorY ≥ scr.consoleHeight then
    let s := s.scrollUp scr
    s.setCursor s.cursorX (wordPred scr.consoleHeight)
  else s

/-- The end of `handle_ground`: at the right end of the screen the next line is not begun until the next character
    is written. -/
def stopAtRightEnd (scr : Screen) (s : FbConsole) : FbConsole :=
  if s.cursorX ≥ scr.consoleWidth then
    let s := s.setCursor (wordPred scr.consoleWidth) s.cursorY
    { s with stomp := true }
  else s

/-- `handle_ground`. -/
def handleGround (scr : Screen) (s : FbConsole) (c : UInt8) : FbConsole :=
  if c = '\x1b'.toUInt8 then { s with state := .esc }
  else if c = '\r'.toUInt8 then (s.setCursor 0 s.cursorY).stopAtRightEnd scr
  else if c = '\n'.toUInt8 then (s.setCursor 0 (wordSucc s.cursorY)).stopAtRightEnd scr
  else if c = '\x08'.toUInt8 then
    (if s.cursorX > 0 then s.setCursor (s.cursorX - 1) s.cursorY else s).stopAtRightEnd scr
  else if c = '\t'.toUInt8 then (s.setCursor (roundUpTab (wordSucc s.cursorX)) s.cursorY).stopAtRightEnd scr
  else if charWord c > 127 then s
  else
    let s := s.makeRoom scr
    let s := s.writeCharAt scr s.cursorX s.cursorY c
    (s.setCursor (wordSucc s.cursorX) s.cursorY).stopAtRightEnd scr

/-! ### Parameters of escape sequences -/

/-- `isspace`. -/
def isSpace (c : UInt8) : Bool := c.toNat ∈ [9, 10, 11, 12, 13, 32]

/-- `atoi`, as a word: `res` wraps. -/
def atoi (str : List UInt8) : Nat :=
  ((str.dropWhile isSpace).takeWhile fun c => '0'.toNat ≤ c.toNat && c.toNat ≤ '9'.toNat).foldl
    (fun res c => (res * 10 + (c.toNat - '0'.toNat)) % wordSize) 0

/-- The strings that `strtok_r` with `";"` returns one after the other: what is between the separators, where it
    is not empty. -/
def tokens (str : List UInt8) : List (List UInt8) :=
  (str.splitOnP (· = ';'.toUInt8)).filter (· ≠ [])

/-- The string in `param_buf`. -/
def params (s : FbConsole) : List UInt8 := s.paramBuf.takeWhile (· ≠ 0)

/-- `atoi`, `strtok_r` and `strcmp` use `param_buf` up to the end of the string. -/
def readParams (s : FbConsole) : FbConsole := s.access ((List.range (s.params.length + 1)).map ConsoleIndex.param)

/-- `x > 0 ? x - 1 : x`. -/
def oneBased (x : Nat) : Nat := if x > 0 then x - 1 else x

/-! ### Escape sequences -/

/-- `handle_csi_cuu`: cursor up. -/
def handleCsiCuu (s : FbConsole) : FbConsole :=
  let dy := atoi s.params
  let dy := if dy = 0 then 1 else dy
  let s := s.readParams
  if dy > s.cursorY then s.setCursor s.cursorX 0 else s.setCursor s.cursorX (s.cursorY - dy)

/-- `handle_csi_cud`: cursor down. The sum wraps. -/
def handleCsiCud (scr : Screen) (s : FbConsole) : FbConsole :=
  let dy := atoi s.params
  let dy := if dy = 0 then 1 else dy
  let s := s.readParams
  if (dy + s.cursorY) % wordSize ≥ scr.consoleHeight then s.setCursor s.cursorX (wordPred scr.consoleHeight)
  else s.setCursor s.cursorX ((s.cursorY + dy) % wordSize)

/-- `handle_csi_cuf`: cursor forward. The sum wraps. -/
def handleCsiCuf (scr : Screen) (s : FbConsole) : FbConsole :=
  let dx := atoi s.params
  let dx := if dx = 0 then 1 else dx
  let s := s.readParams
  if (dx + s.cursorX) % wordSize ≥ scr.consoleWidth then s.setCursor (wordPred scr.consoleWidth) s.cursorY
  else s.setCursor ((s.cursorX + dx) % wordSize) s.cursorY

/-- `handle_csi_cub`: cursor back. -/
def handleCsiCub (s : FbConsole) : FbConsole :=
  let dx := atoi s.params
  let dx := if dx = 0 then 1 else dx
  let s := s.readParams
  if dx > s.cursorX then s.setCursor 0 s.cursorY else s.setCursor (s.cursorX - dx) s.cursorY

/-- `handle_csi_cha`: cursor horizontal absolute. -/
def handleCsiCha (scr : Screen) (s : FbConsole) : FbConsole :=
  let x := oneBased (atoi s.params)
  let x := if x ≥ scr.consoleWidth then wordPred scr.consoleWidth else x
  s.readParams.setCursor x s.cursorY

/-- `handle_csi_cup`: cursor position. -/
def handleCsiCup (scr : Screen) (s : FbConsole) : FbConsole :=
  let y := match tokens s.params with
    | param :: _ => oneBased (atoi param)
    | [] => 0
  let x := match tokens s.params with
    | _ :: param :: _ => oneBased (atoi param)
    | _ => 0
  let x := if x ≥ scr.consoleWidth then wordPred scr.consoleWidth else x
  let y := if y ≥ scr.consoleHeight then wordPred scr.consoleHeight else y
  s.readParams.setCursor x y

/-- `handle_csi_ed`: erase in display. -/
def handleCsiEd (scr : Screen) (s : FbConsole) : FbConsole :=
  let s := s.readParams
  match atoi s.params with
  | 0 =>
      let s := s.clearLineAt scr s.cursorX s.cursorY (wordSub scr.consoleWidth s.cursorX)
      let below := wordSucc s.cursorY
      (List.range' below (scr.consoleHeight - below)).foldl (fun s y => s.clearLineAt scr 0 y scr.consoleWidth) s
  | 1 =>
      let s := (List.range s.cursorY).foldl (fun s y => s.clearLineAt scr 0 y scr.consoleWidth) s
      s.clearLineAt scr 0 s.cursorY (wordSucc s.cursorX)
  | 2 => s.clearScreen scr
  | _ => s

/-- `handle_csi_el`: erase in line. -/
def handleCsiEl (scr : Screen) (s : FbConsole) : FbConsole :=
  let s := s.readParams
  match atoi s.params with
  | 0 => s.clearLineAt scr s.cursorX s.cursorY (wordSub scr.consoleWidth s.cursorX)
  | 1 => s.clearLineAt scr 0 s.cursorY (wordSucc s.cursorX)
  | 2 => s.clearLineAt scr 0 s.cursorY scr.consoleWidth
  | _ => s

/-- The loop of `handle_csi_sgr` on `fg_color`, `bg_color` and `bold`, at one parameter. -/
def selectRendition : Nat × Nat × Bool → Nat → Nat × Nat × Bool
  | (fg, bg, bold), num =>
      if num = 0 then (DEFAULT_FG_COLOR, DEFAULT_BG_COLOR, false)
      else if num = 1 then (fg, bg, true)
      else if num = 7 then (bg, fg, bold)
      else if num = 22 then (DEFAULT_FG_COLOR, bg, false)
      else if 30 ≤ num ∧ num ≤ 37 then (num - 30 + (if bold then 8 else 0), bg, bold)
      else if num = 38 then (DEFAULT_FG_COLOR, bg, bold)
      else if 40 ≤ num ∧ num ≤ 47 then (fg, num - 40 + (if bold then 8 else 0), bold)
      else if num = 48 then (fg, DEFAULT_BG_COLOR, bold)
      else if 90 ≤ num ∧ num ≤ 97 then (num - 90 + 8, bg, bold)
      else if 100 ≤ num ∧ num ≤ 107 then (fg, num - 100 + 8, bold)
      else (fg, bg, bold)

/-- `handle_csi_sgr`: select graphic rendition. -/
def handleCsiSgr (s : FbConsole) : FbConsole :=
  let s := s.readParams
  if s.params = [] then { s with fgColor := DEFAULT_FG_COLOR, bgColor := DEFAULT_BG_COLOR }
  else
    let (fg, bg, _) := ((tokens s.params).map atoi).foldl selectRendition (s.fgColor, s.bgColor, false)
    { s with fgColor := fg, bgColor := bg }

/-- `handle_csi_dectcem`: text cursor enable mode. -/
def handleCsiDectcem (s : FbConsole) (c : UInt8) : FbConsole :=
  let s := s.readParams
  if s.params ≠ ['?'.toUInt8, '2'.toUInt8, '5'.toUInt8] then s
  else if c = 'h'.toUInt8 then { s with isCursorVisible := true }.setLineIsDirty s.cursorY true
  else if c = 'l'.toUInt8 then { s with isCursorVisible := false }.setLineIsDirty s.cursorY true
  else s

/-- `param_buf[param_buf_idx] = c`. -/
def setParam (s : FbConsole) (c : UInt8) : FbConsole :=
  { s with paramBuf := s.paramBuf.set s.paramBufIdx c }.access [.param s.paramBufIdx]

/-- The `switch` of `handle_state_csi`. -/
def handleCsi (scr : Screen) (s : FbConsole) (c : UInt8) : FbConsole :=
  if c = 'A'.toUInt8 then s.handleCsiCuu
  else if c = 'B'.toUInt8 then s.handleCsiCud scr
  else if c = 'C'.toUInt8 then s.handleCsiCuf scr
  else if c = 'D'.toUInt8 then s.handleCsiCub
  else if c = 'G'.toUInt8 then s.handleCsiCha scr
  else if c = 'H'.toUInt8 then s.handleCsiCup scr
  else if c = 'J'.toUInt8 then s.handleCsiEd scr
  else if c = 'K'.toUInt8 then s.handleCsiEl scr
  else if c = 'm'.toUInt8 then s.handleCsiSgr
  else if c = 'h'.toUInt8 ∨ c = 'l'.toUInt8 then s.handleCsiDectcem c
  else s

/-- `handle_state_csi`. -/
def handleStateCsi (scr : Screen) (s : FbConsole) (c : UInt8) : FbConsole :=
  if charValue c < 0x40 then
    let s := s.setParam c
    { s with paramBufIdx := wordSucc s.paramBufIdx }
  else
    let s := s.setParam 0
    let s := s.handleCsi scr c
    { s with state := .ground }

/-- `handle_state_esc`. -/
def handleStateEsc (scr : Screen) (s : FbConsole) (c : UInt8) : FbConsole :=
  if c = '['.toUInt8 then { s with paramBufIdx := 0, state := .csi }
  else { s with state := .ground }.handleGround scr c

/-- `on_char`. -/
def onChar (scr : Screen) (s : FbConsole) (c : UInt8) : FbConsole :=
  match s.state with
  | .ground => s.handleGround scr c
  | .esc => s.handleStateEsc scr c
  | .csi => s.handleStateCsi scr c

/-! ### The device -/

/-- `fb_console_init`, with the memory that `kmalloc` returned for `cells` and `line_is_dirty`. -/
def fbConsoleInit (scr : Screen) (cells : Nat → Cell) (lineIsDirty : Nat → Bool) (fb : Nat → UInt8) : FbConsole :=
  let s : FbConsole :=
    { cells := (List.range (scr.consoleWidth * scr.consoleHeight)).map cells
      lineIsDirty := (List.range scr.consoleHeight).map lineIsDirty
      fb := fb }
  (s.clearScreen scr).flush scr

/-- `fb_console_device_write`. -/
def fbConsoleDeviceWrite (scr : Screen) (s : FbConsole) (buffer : List UInt8) : FbConsole :=
  (buffer.foldl (fun s c => s.onChar scr c) s).flush scr

end FbConsole

end Chaotix
