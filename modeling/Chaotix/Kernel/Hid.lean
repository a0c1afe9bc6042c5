/-
Module: Chaotix.Kernel.Hid
Layer: Kernel
Purpose: The PS/2 keyboard and mouse. An interrupt brings one byte; the handler puts an event into the queue of the
  device when the byte completes one. The queues are rings of `QUEUE_SIZE` cells, and the handlers write the next cell
  whether the queue is full or not. What `fb_console_on_key` does with a key event belongs to the console.
Imports: Mathlib.Logic.Function.Basic, Chaotix.Lib.CellRing, Chaotix.Kernel.Base
Trusted boundary: human-reviewed model of `hid/keyboard.c` and `hid/mouse.c` and of the key codes of `api/hid.h`
Main exports: Keycode, KeyEvent, Ps2Keyboard, Ps2Keyboard.irqHandler, ps2KeyboardDeviceRead, MouseEvent, Ps2Mouse,
  Ps2Mouse.irqHandler, ps2MouseDeviceRead
-/
import Mathlib.Logic.Function.Basic
import Chaotix.Lib.CellRing
import Chaotix.Kernel.Base

namespace Chaotix

/-- `QUEUE_SIZE`, of both queues. -/
abbrev QUEUE_SIZE : Nat := 128

/-- The key codes of `api/hid.h`. -/
inductive Keycode where
  | KEYCODE_NONE | KEYCODE_BACKSPACE | KEYCODE_DELETE | KEYCODE_TAB | KEYCODE_RETURN | KEYCODE_ESCAPE
  | KEYCODE_SPACE | KEYCODE_UP | KEYCODE_DOWN | KEYCODE_RIGHT | KEYCODE_LEFT | KEYCODE_INSERT | KEYCODE_HOME
  | KEYCODE_END | KEYCODE_PAGE_UP | KEYCODE_PAGE_DOWN | KEYCODE_F1 | KEYCODE_F2 | KEYCODE_F3 | KEYCODE_F4
  | KEYCODE_F5 | KEYCODE_F6 | KEYCODE_F7 | KEYCODE_F8 | KEYCODE_F9 | KEYCODE_F10 | KEYCODE_F11 | KEYCODE_F12
  | KEYCODE_0 | KEYCODE_1 | KEYCODE_2 | KEYCODE_3 | KEYCODE_4 | KEYCODE_5 | KEYCODE_6 | KEYCODE_7 | KEYCODE_8
  | KEYCODE_9 | KEYCODE_EXCLAIM | KEYCODE_DOUBLE_QUOTE | KEYCODE_HASH | KEYCODE_DOLLAR | KEYCODE_PERCENT
  | KEYCODE_AMPERSAND | KEYCODE_QUOTE | KEYCODE_LEFT_PAREN | KEYCODE_RIGHT_PAREN | KEYCODE_ASTERISK
  | KEYCODE_PLUS | KEYCODE_COMMA | KEYCODE_MINUS | KEYCODE_PERIOD | KEYCODE_SLASH | KEYCODE_COLON
  | KEYCODE_SEMICOLON | KEYCODE_LESS | KEYCODE_EQUALS | KEYCODE_GREATER | KEYCODE_QUESTION | KEYCODE_AT
  | KEYCODE_LEFT_BRACKET | KEYCODE_BACKSLASH | KEYCODE_RIGHT_BRACKET | KEYCODE_CARET | KEYCODE_UNDERSCORE
  | KEYCODE_BACK_QUOTE | KEYCODE_A | KEYCODE_B | KEYCODE_C | KEYCODE_D | KEYCODE_E | KEYCODE_F | KEYCODE_G
  | KEYCODE_H | KEYCODE_I | KEYCODE_J | KEYCODE_K | KEYCODE_L | KEYCODE_M | KEYCODE_N | KEYCODE_O | KEYCODE_P
  | KEYCODE_Q | KEYCODE_R | KEYCODE_S | KEYCODE_T | KEYCODE_U | KEYCODE_V | KEYCODE_W | KEYCODE_X | KEYCODE_Y
  | KEYCODE_Z | KEYCODE_LEFT_CURLY_BRACKET | KEYCODE_PIPE | KEYCODE_RIGHT_CURLY_BRACKET | KEYCODE_TILDE
  | KEYCODE_NUMLOCK | KEYCODE_CAPS_LOCK | KEYCODE_SCROLL_LOCK | KEYCODE_RIGHT_SHIFT | KEYCODE_LEFT_SHIFT
  | KEYCODE_CONTROL | KEYCODE_ALT | KEYCODE_SUPER | KEYCODE_PRINT | KEYCODE_SYS_REQ | KEYCODE_MENU
deriving DecidableEq, Repr

/-! ### Keys -/

/-- `scancode_to_key`, without the zeros at its end. -/
def scancodeToKey : List UInt8 :=
  ("\x00\x1b1234567890-=\x08\tqwertyuiop[]\n\x00asdfghjkl;'`\x00\\zxcvbnm,./\x00*\x00 " ++
    "\x00\x00\x00\x00\x00\x00\x00\x00\x00\x00\x00\x00\x00789-456+1230.\x00\x00\\").toList.map Char.toUInt8

/-- `scancode_to_shifted_key`. -/
def scancodeToShiftedKey : List UInt8 :=
  ("\x00\x1b!@#$%^&*()_+\x08\tQWERTYUIOP\x7b\x7d\n\x00ASDFGHJKL:\"~\x00|ZXCVBNM<>?\x00*\x00 " ++
    "\x00\x00\x00\x00\x00\x00\x00\x00\x00\x00\x00\x00\x00789-456+1230.\x00\x00|").toList.map Char.toUInt8

/-- `scancode_to_keycode`, without the `KEYCODE_NONE` at its end. -/
def scancodeToKeycode : List Keycode := [
  .KEYCODE_NONE, .KEYCODE_ESCAPE, .KEYCODE_1, .KEYCODE_2, .KEYCODE_3, .KEYCODE_4, .KEYCODE_5, .KEYCODE_6, .KEYCODE_7,
  .KEYCODE_8, .KEYCODE_9, .KEYCODE_0, .KEYCODE_MINUS, .KEYCODE_EQUALS, .KEYCODE_BACKSPACE, .KEYCODE_TAB, .KEYCODE_Q,
  .KEYCODE_W, .KEYCODE_E, .KEYCODE_R, .KEYCODE_T, .KEYCODE_Y, .KEYCODE_U, .KEYCODE_I, .KEYCODE_O, .KEYCODE_P,
  .KEYCODE_LEFT_BRACKET, .KEYCODE_RIGHT_BRACKET, .KEYCODE_RETURN, .KEYCODE_CONTROL, .KEYCODE_A, .KEYCODE_S,
  .KEYCODE_D, .KEYCODE_F, .KEYCODE_G, .KEYCODE_H, .KEYCODE_J, .KEYCODE_K, .KEYCODE_L, .KEYCODE_SEMICOLON,
  .KEYCODE_QUOTE, .KEYCODE_BACK_QUOTE, .KEYCODE_LEFT_SHIFT, .KEYCODE_BACKSLASH, .KEYCODE_Z, .KEYCODE_X, .KEYCODE_C,
  .KEYCODE_V, .KEYCODE_B, .KEYCODE_N, .KEYCODE_M, .KEYCODE_COMMA, .KEYCODE_PERIOD, .KEYCODE_SLASH,
  .KEYCODE_RIGHT_SHIFT, .KEYCODE_ASTERISK, .KEYCODE_ALT, .KEYCODE_SPACE, .KEYCODE_CAPS_LOCK, .KEYCODE_F1, .KEYCODE_F2,
  .KEYCODE_F3, .KEYCODE_F4, .KEYCODE_F5, .KEYCODE_F6, .KEYCODE_F7, .KEYCODE_F8, .KEYCODE_F9, .KEYCODE_F10,
  .KEYCODE_NUMLOCK, .KEYCODE_NONE, .KEYCODE_HOME, .KEYCODE_UP, .KEYCODE_PAGE_UP, .KEYCODE_MINUS, .KEYCODE_LEFT,
  .KEYCODE_NONE, .KEYCODE_RIGHT, .KEYCODE_PLUS, .KEYCODE_END, .KEYCODE_DOWN, .KEYCODE_PAGE_DOWN, .KEYCODE_NONE,
  .KEYCODE_DELETE, .KEYCODE_NONE, .KEYCODE_NONE, .KEYCODE_BACKSLASH, .KEYCODE_F11, .KEYCODE_F12, .KEYCODE_NONE,
  .KEYCODE_NONE, .KEYCODE_SUPER, .KEYCODE_NONE, .KEYCODE_MENU]

/-- `scancode_to_shifted_keycode`. -/
def scancodeToShiftedKeycode : List Keycode := [
  .KEYCODE_NONE, .KEYCODE_ESCAPE, .KEYCODE_EXCLAIM, .KEYCODE_AT, .KEYCODE_HASH, .KEYCODE_DOLLAR, .KEYCODE_PERCENT,
  .KEYCODE_CARET, .KEYCODE_AMPERSAND, .KEYCODE_ASTERISK, .KEYCODE_LEFT_PAREN, .KEYCODE_RIGHT_PAREN,
  .KEYCODE_UNDERSCORE, .KEYCODE_PLUS, .KEYCODE_BACKSPACE, .KEYCODE_TAB, .KEYCODE_Q, .KEYCODE_W, .KEYCODE_E,
  .KEYCODE_R, .KEYCODE_T, .KEYCODE_Y, .KEYCODE_U, .KEYCODE_I, .KEYCODE_O, .KEYCODE_P, .KEYCODE_LEFT_CURLY_BRACKET,
  .KEYCODE_RIGHT_CURLY_BRACKET, .KEYCODE_RETURN, .KEYCODE_CONTROL, .KEYCODE_A, .KEYCODE_S, .KEYCODE_D, .KEYCODE_F,
  .KEYCODE_G, .KEYCODE_H, .KEYCODE_J, .KEYCODE_K, .KEYCODE_L, .KEYCODE_COLON, .KEYCODE_DOUBLE_QUOTE, .KEYCODE_TILDE,
  .KEYCODE_LEFT_SHIFT, .KEYCODE_PIPE, .KEYCODE_Z, .KEYCODE_X, .KEYCODE_C, .KEYCODE_V, .KEYCODE_B, .KEYCODE_N,
  .KEYCODE_M, .KEYCODE_LESS, .KEYCODE_GREATER, .KEYCODE_QUESTION, .KEYCODE_RIGHT_SHIFT, .KEYCODE_ASTERISK,
  .KEYCODE_ALT, .KEYCODE_SPACE, .KEYCODE_CAPS_LOCK, .KEYCODE_F1, .KEYCODE_F2, .KEYCODE_F3, .KEYCODE_F4, .KEYCODE_F5,
  .KEYCODE_F6, .KEYCODE_F7, .KEYCODE_F8, .KEYCODE_F9, .KEYCODE_F10, .KEYCODE_NUMLOCK, .KEYCODE_NONE, .KEYCODE_HOME,
  .KEYCODE_UP, .KEYCODE_PAGE_UP, .KEYCODE_MINUS, .KEYCODE_LEFT, .KEYCODE_NONE, .KEYCODE_RIGHT, .KEYCODE_PLUS,
  .KEYCODE_END, .KEYCODE_DOWN, .KEYCODE_PAGE_DOWN, .KEYCODE_NONE, .KEYCODE_DELETE, .KEYCODE_NONE, .KEYCODE_NONE,
  .KEYCODE_PIPE, .KEYCODE_F11, .KEYCODE_F12, .KEYCODE_NONE, .KEYCODE_NONE, .KEYCODE_SUPER, .KEYCODE_NONE,
  .KEYCODE_MENU]

/-- The modifiers of `api/hid.h`. -/
abbrev KEY_MODIFIER_ALT : BitVec 8 := 0x1

abbrev KEY_MODIFIER_CTRL : BitVec 8 := 0x2

abbrev KEY_MODIFIER_SHIFT : BitVec 8 := 0x4

abbrev KEY_MODIFIER_SUPER : BitVec 8 := 0x8

abbrev KEY_MODIFIER_ALTGR : BitVec 8 := 0x10

/-- `key_event`. -/
structure KeyEvent where
  scancode : BitVec 16
  modifiers : BitVec 8
  keycode : Keycode
  key : UInt8
  pressed : Bool
deriving DecidableEq, Repr

/-- `sizeof(key_event)`. -/
abbrev sizeofKeyEvent : Nat := 6

/-! ### The keyboard -/

/-- The bits of `state`. -/
abbrev STATE_ALT : BitVec 8 := 0x1

abbrev STATE_CTRL : BitVec 8 := 0x2

abbrev STATE_LEFT_SHIFT : BitVec 8 := 0x4

abbrev STATE_RIGHT_SHIFT : BitVec 8 := 0x8

abbrev STATE_LEFT_SUPER : BitVec 8 := 0x10

abbrev STATE_RIGHT_SUPER : BitVec 8 := 0x20

abbrev STATE_ALTGR : BitVec 8 := 0x40

/-- The static variables of the keyboard. -/
structure Ps2Keyboard where
  receivedE0 : Bool := false
  state : BitVec 8 := 0
  queue : CellRing KeyEvent QUEUE_SIZE

/-- `set_state`. -/
def setState (state which : BitVec 8) (pressed : Bool) : BitVec 8 :=
  if pressed then state ||| which else state &&& ~~~which

namespace Ps2Keyboard

/-- The `switch` of `irq_handler`: the state after a key. -/
def nextState (state : BitVec 8) (receivedE0 : Bool) (ch : BitVec 8) (pressed : Bool) : BitVec 8 :=
  if ch = 0x38 then setState state (if receivedE0 then STATE_ALTGR else STATE_ALT) pressed
  else if ch = 0x1d then setState state STATE_CTRL pressed
  else if ch = 0x5b then setState state STATE_LEFT_SUPER pressed
  else if ch = 0x5c then setState state STATE_RIGHT_SUPER pressed
  else if ch = 0x2a then setState state STATE_LEFT_SHIFT pressed
  else if ch = 0x36 then setState state STATE_RIGHT_SHIFT pressed
  else state

/-- `modifiers` of `irq_handler`. -/
def modifiersOf (state : BitVec 8) : BitVec 8 :=
  (if state &&& STATE_ALT ≠ 0 then KEY_MODIFIER_ALT else 0) |||
    (if state &&& STATE_CTRL ≠ 0 then KEY_MODIFIER_CTRL else 0) |||
    (if state &&& (STATE_LEFT_SHIFT ||| STATE_RIGHT_SHIFT) ≠ 0 then KEY_MODIFIER_SHIFT else 0) |||
    (if state &&& (STATE_LEFT_SUPER ||| STATE_RIGHT_SUPER) ≠ 0 then KEY_MODIFIER_SUPER else 0) |||
    (if state &&& STATE_ALTGR ≠ 0 then KEY_MODIFIER_ALTGR else 0)

/-- `irq_handler`, for the byte that it reads from the port: the event that it puts into the queue and hands to
    `fb_console_on_key`. -/
def irqHandler (kbd : Ps2Keyboard) (data : BitVec 8) : Option KeyEvent × Ps2Keyboard :=
  if data = 0xe0 then (none, { kbd with receivedE0 := true })
  else
    let ch := data &&& 0x7f
    let pressed := decide (data &&& 0x80 = 0)
    let state := nextState kbd.state kbd.receivedE0 ch pressed
    let modifiers := modifiersOf state
    let shifted := modifiers &&& KEY_MODIFIER_SHIFT ≠ 0
    let toKey := if shifted then scancodeToShiftedKey else scancodeToKey
    let toKeycode := if shifted then scancodeToShiftedKeycode else scancodeToKeycode
    let scancode := ch.setWidth 16
    let event : KeyEvent :=
      { scancode := if kbd.receivedE0 then scancode ||| 0xe000 else scancode
        modifiers := modifiers
        keycode := toKeycode.getD ch.toNat .KEYCODE_NONE
        key := toKey.getD ch.toNat 0
        pressed := pressed }
    (some event, { receivedE0 := false, state := state, queue := kbd.queue.push event })

end Ps2Keyboard

/-- `ps2_keyboard_device_read`, on a queue that is not empty: the events it stores in a buffer of `count` bytes. -/
def ps2KeyboardDeviceRead (kbd : Ps2Keyboard) (count : Nat) : List KeyEvent × Ps2Keyboard :=
  let (events, queue) := kbd.queue.popUntil (count / sizeofKeyEvent)
  (events, { kbd with queue := queue })

/-! ### The mouse -/

/-- `mouse_event`. -/
structure MouseEvent where
  dx : Int
  dy : Int
  buttons : BitVec 8
deriving DecidableEq, Repr

/-- `sizeof(mouse_event)`. -/
abbrev sizeofMouseEvent : Nat := 6

/-- The static variables of the mouse. -/
structure Ps2Mouse where
  buf : Nat → BitVec 8 := fun _ => 0
  state : Nat := 0
  queue : CellRing MouseEvent QUEUE_SIZE

namespace Ps2Mouse

/-- The event of the three bytes in `buf`. -/
def eventOf (buf : Nat → BitVec 8) : MouseEvent :=
  let dx : Int := (buf 1).toNat
  let dy : Int := (buf 2).toNat
  let dx := if dx ≠ 0 ∧ buf 0 &&& 0x10 ≠ 0 then dx - 0x100 else dx
  let dy := if dy ≠ 0 ∧ buf 0 &&& 0x20 ≠ 0 then dy - 0x100 else dy
  let dx := if buf 0 &&& 0xc0 ≠ 0 then 0 else dx
  let dy := if buf 0 &&& 0xc0 ≠ 0 then 0 else dy
  { dx := dx, dy := -dy, buttons := buf 0 &&& 7 }

/-- `irq_handler`, for the byte that it reads from the port: the event that it puts into the queue. There is no result
    where an assertion fails or the code is `UNREACHABLE`. -/
def irqHandler (mouse : Ps2Mouse) (data : BitVec 8) : Option (Option MouseEvent × Ps2Mouse) :=
  let buf := Function.update mouse.buf mouse.state data
  match mouse.state with
  | 0 => if data &&& 8 ≠ 0 then some (none, { mouse with buf := buf, state := 1 }) else none
  | 1 => some (none, { mouse with buf := buf, state := 2 })
  | 2 => some (some (eventOf buf), { buf := buf, state := 0, queue := mouse.queue.push (eventOf buf) })
  | _ => none

end Ps2Mouse

/-- `ps2_mouse_device_read`, on a queue that is not empty. -/
def ps2MouseDeviceRead (mouse : Ps2Mouse) (count : Nat) : List MouseEvent × Ps2Mouse :=
  let (events, queue) := mouse.queue.popUntil (count / sizeofMouseEvent)
  (events, { mouse with queue := queue })

end Chaotix
