/-
Module: Chaotix.Proofs.KeyModifiers
Layer: Proofs
Purpose: The modifiers that key events report, beside the set of keys that are held. The keyboard keeps one bit for both
  Ctrl keys, so the bit is gone when one of them is released, and it looks only at the last byte of most keys, so a key
  that is no modifier may have the code of one. A key event is right as long as neither matters.
Imports: Mathlib.Data.Set.Insert, Chaotix.Lib.Transition, Chaotix.Kernel.Hid
Trusted boundary: none
Main exports: Key, ModifierKind, KeyStroke, typing, Reports, BitsAgree, OwnCode, ReleasesLast,
  CodeBits, key_modifiers_iff
-/
import Mathlib.Data.Set.Insert
import Chaotix.Lib.Transition
import Chaotix.Kernel.Hid

namespace Chaotix

namespace Ps2Keyboard

/-! ### Keys that are held -/

/-- A key of scancode set 1: its code, and whether the byte `0xe0` comes first. No key has the code `0x60`, whose
    release would be that byte. -/
structure Key where
  extended : Bool
  code : BitVec 8
  code_lt : code < 0x80
  code_ne : code ≠ 0x60
deriving DecidableEq

/-- The bytes of a press or a release. -/
def Key.bytes (k : Key) (pressed : Bool) : List (BitVec 8) :=
  (if k.extended then [0xe0] else []) ++ [if pressed then k.code else k.code ||| 0x80]

/-- The scancode by which an event names a key. -/
def Key.scancode (k : Key) : BitVec 16 := if k.extended then k.code.setWidth 16 ||| 0xe000 else k.code.setWidth 16

/-- The kinds of modifiers. -/
inductive ModifierKind where
  | alt
  | ctrl
  | shift
  | super
  | altgr
deriving DecidableEq, Repr

/-- The bit of an event. -/
def ModifierKind.mask : ModifierKind → BitVec 8
  | .alt => KEY_MODIFIER_ALT
  | .ctrl => KEY_MODIFIER_CTRL
  | .shift => KEY_MODIFIER_SHIFT
  | .super => KEY_MODIFIER_SUPER
  | .altgr => KEY_MODIFIER_ALTGR

/-- The kind of a modifier key: the left and the right Shift, Ctrl and Super, Alt and AltGr. -/
def Key.kind (k : Key) : Option ModifierKind :=
  if k.code = 0x38 then some (if k.extended then .altgr else .alt)
  else if k.code = 0x1d then some .ctrl
  else if k.code = 0x2a ∨ k.code = 0x36 then if k.extended then none else some .shift
  else if k.code = 0x5b ∨ k.code = 0x5c then if k.extended then some .super else none
  else none

/-- A key of the kind is held. -/
def Held (held : Set Key) (m : ModifierKind) : Prop := ∃ k ∈ held, k.kind = some m

/-- A press or a release, and the events that come of its bytes. -/
structure KeyStroke where
  key : Key
  pressed : Bool
  events : List KeyEvent

/-- The keys that are held after a press or a release. -/
def after (held : Set Key) (k : Key) (pressed : Bool) : Set Key := if pressed then insert k held else held \ {k}

/-- The keyboard takes bytes. -/
def take (kbd : Ps2Keyboard) : List (BitVec 8) → List KeyEvent × Ps2Keyboard
  | [] => ([], kbd)
  | data :: bytes =>
      let rest := take (kbd.irqHandler data).2 bytes
      ((kbd.irqHandler data).1.toList ++ rest.1, rest.2)

/-- Typing: a key that is not held is pressed, or one that is held is released. -/
def typing : TransitionSystem (Ps2Keyboard × Set Key) KeyStroke where
  init p := p.1.receivedE0 = false ∧ p.1.state = 0 ∧ p.2 = ∅
  step p stroke p' :=
    (stroke.pressed = true ↔ stroke.key ∉ p.2) ∧
      (stroke.events, p'.1) = p.1.take (stroke.key.bytes stroke.pressed) ∧
      p'.2 = after p.2 stroke.key stroke.pressed

/-! ### The theorem's terms -/

/-- The event names the key and the direction, and its modifiers are the kinds that are held. -/
structure EventReports (event : KeyEvent) (held : Set Key) (k : Key) (pressed : Bool) : Prop where
  scancode : event.scancode = k.scancode
  pressed : event.pressed = pressed
  modifiers : ∀ m : ModifierKind, event.modifiers &&& m.mask ≠ 0 ↔ Held held m
  others : event.modifiers &&& 0xe0 = 0

/-- The stroke makes one event, which reports what is held after it. -/
def Reports (x : Transition (Ps2Keyboard × Set Key) KeyStroke) : Prop :=
  ∃ event, x.event.events = [event] ∧ EventReports event x.after.2 x.event.key x.event.pressed

/-- The kind whose bits the code of a key changes. -/
def Key.touched (k : Key) : Option ModifierKind :=
  if k.code = 0x38 then some (if k.extended then .altgr else .alt)
  else if k.code = 0x1d then some .ctrl
  else if k.code = 0x5b then some .super
  else if k.code = 0x5c then some .super
  else if k.code = 0x2a then some .shift
  else if k.code = 0x36 then some .shift
  else none

/-- The bit that the code of a key changes. -/
def Key.ownBit (k : Key) : BitVec 8 :=
  if k.code = 0x38 then if k.extended then STATE_ALTGR else STATE_ALT
  else if k.code = 0x1d then STATE_CTRL
  else if k.code = 0x5b then STATE_LEFT_SUPER
  else if k.code = 0x5c then STATE_RIGHT_SUPER
  else if k.code = 0x2a then STATE_LEFT_SHIFT
  else if k.code = 0x36 then STATE_RIGHT_SHIFT
  else 0

/-- The bit of the other code of the kind. -/
def Key.otherBit (k : Key) : BitVec 8 :=
  if k.code = 0x5b then STATE_RIGHT_SUPER
  else if k.code = 0x5c then STATE_LEFT_SUPER
  else if k.code = 0x2a then STATE_RIGHT_SHIFT
  else if k.code = 0x36 then STATE_LEFT_SHIFT
  else 0

/-- Where the code of the key is the code of a modifier: after the stroke this modifier is held exactly if the stroke is
    a press, or the bit of the other code is set. -/
def BitsAgree (p : Ps2Keyboard × Set Key) (stroke : KeyStroke) : Prop :=
  ∀ m, stroke.key.touched = some m →
    (stroke.pressed = true ∨ p.1.state &&& stroke.key.otherBit ≠ 0 ↔ Held (after p.2 stroke.key stroke.pressed) m)

/-- A key that is no modifier has not the code of one. -/
def OwnCode (stroke : KeyStroke) : Prop := stroke.key.touched = stroke.key.kind

/-- No other Ctrl key is held when one is released. -/
def ReleasesLast (held : Set Key) (stroke : KeyStroke) : Prop :=
  stroke.pressed = false → stroke.key.kind = some .ctrl → ∀ k ∈ held, k.kind = some .ctrl → k = stroke.key

/-! ### Bits -/

section Bits

variable {state which bit : BitVec 8} {pressed : Bool}

/-- The bit that is set or cleared. -/
theorem setState_self (hwhich : which ≠ 0) : setState state which pressed &&& which ≠ 0 ↔ pressed = true := by
  cases pressed with
  | true =>
      have hself : (state ||| which) &&& which = which := by
        ext i hi
        simp only [BitVec.getElem_or, BitVec.getElem_and]
        cases which[i] <;> simp
      change (state ||| which) &&& which ≠ 0 ↔ _
      rw [hself]
      exact iff_of_true hwhich rfl
  | false =>
      have hself : (state &&& ~~~which) &&& which = 0 := by
        ext i hi
        simp
      change (state &&& ~~~which) &&& which ≠ 0 ↔ _
      rw [hself]
      simp

/-- The other bits stay. -/
theorem setState_other (h : which &&& bit = 0) : setState state which pressed &&& bit = state &&& bit := by
  cases pressed with
  | true =>
      change (state ||| which) &&& bit = _
      rw [BitVec.and_or_distrib_right, h]
      exact BitVec.or_zero
  | false =>
      change (state &&& ~~~which) &&& bit = _
      have hkeeps : ~~~which &&& bit = bit := by
        have hdistrib : bit = (which &&& bit) ||| (~~~which &&& bit) := by
          ext i hi
          simp only [BitVec.getElem_or, BitVec.getElem_and, BitVec.getElem_not]
          cases which[i] <;> simp
        rw [h] at hdistrib
        exact (hdistrib.trans BitVec.zero_or).symm
      rw [BitVec.and_assoc, hkeeps]

/-- One of two bits. -/
theorem and_or_ne_zero (state a b : BitVec 8) : state &&& (a ||| b) ≠ 0 ↔ state &&& a ≠ 0 ∨ state &&& b ≠ 0 := by
  grind

/-- The bits of a kind. -/
def ModifierKind.bits : ModifierKind → BitVec 8
  | .alt => STATE_ALT
  | .ctrl => STATE_CTRL
  | .shift => STATE_LEFT_SHIFT ||| STATE_RIGHT_SHIFT
  | .super => STATE_LEFT_SUPER ||| STATE_RIGHT_SUPER
  | .altgr => STATE_ALTGR

/-- A kind is reported where one of its bits is set. -/
theorem modifiersOf_mask (state : BitVec 8) (m : ModifierKind) :
    modifiersOf state &&& m.mask ≠ 0 ↔ state &&& m.bits ≠ 0 := by
  revert state
  cases m <;> decide

theorem modifiersOf_others (state : BitVec 8) : modifiersOf state &&& 0xe0 = 0 := by
  unfold modifiersOf
  split_ifs <;> decide

/-- What the bits of a key have to do with its kind, and with the others. -/
theorem Key.touched_bits {k : Key} {m : ModifierKind} (h : k.touched = some m) :
    k.ownBit ≠ 0 ∧ k.ownBit &&& k.otherBit = 0 ∧ m.bits = k.ownBit ||| k.otherBit ∧
      ∀ m', m' ≠ m → k.ownBit &&& m'.bits = 0 := by
  have hall : ∀ m m' : ModifierKind, m' ≠ m → m.bits &&& m'.bits = 0 := by
    intro m m' hne
    cases m <;> cases m' <;> first | exact absurd rfl hne | decide
  have htable : ∀ (own other : BitVec 8) (m : ModifierKind), own ≠ 0 → own &&& other = 0 → m.bits = own ||| other →
      k.ownBit = own → k.otherBit = other →
      k.ownBit ≠ 0 ∧ k.ownBit &&& k.otherBit = 0 ∧ m.bits = k.ownBit ||| k.otherBit ∧
        ∀ m', m' ≠ m → k.ownBit &&& m'.bits = 0 := by
    rintro own other m hnonzero hdisjoint hbits rfl rfl
    refine ⟨hnonzero, hdisjoint, hbits, fun m' hne => ?_⟩
    have hzero := hall m m' hne
    rw [hbits, BitVec.and_or_distrib_right] at hzero
    exact (BitVec.or_eq_zero_iff.1 hzero).1
  unfold Key.touched at h
  split_ifs at h with h38 hext h1d h5b h5c h2a h36 <;> obtain rfl := Option.some.inj h
  · exact htable STATE_ALTGR 0 .altgr (by decide) (by decide) rfl (by simp [Key.ownBit, h38, hext])
      (by simp [Key.otherBit, h38])
  · exact htable STATE_ALT 0 .alt (by decide) (by decide) rfl (by simp [Key.ownBit, h38, hext])
      (by simp [Key.otherBit, h38])
  · exact htable STATE_CTRL 0 .ctrl (by decide) (by decide) rfl (by simp [Key.ownBit, h1d])
      (by simp [Key.otherBit, h1d])
  · exact htable STATE_LEFT_SUPER STATE_RIGHT_SUPER .super (by decide) (by decide) rfl (by simp [Key.ownBit, h5b])
      (by simp [Key.otherBit, h5b])
  · exact htable STATE_RIGHT_SUPER STATE_LEFT_SUPER .super (by decide) (by decide) rfl (by simp [Key.ownBit, h5c])
      (by simp [Key.otherBit, h5c])
  · exact htable STATE_LEFT_SHIFT STATE_RIGHT_SHIFT .shift (by decide) (by decide) rfl (by simp [Key.ownBit, h2a])
      (by simp [Key.otherBit, h2a])
  · exact htable STATE_RIGHT_SHIFT STATE_LEFT_SHIFT .shift (by decide) (by decide) rfl (by simp [Key.ownBit, h36])
      (by simp [Key.otherBit, h36])

/-- The state after a key, by its bit. -/
theorem nextState_eq (state : BitVec 8) (k : Key) (pressed : Bool) :
    nextState state k.extended k.code pressed =
      if k.touched = none then state else setState state k.ownBit pressed := by
  unfold nextState Key.touched Key.ownBit
  split_ifs <;> simp_all

/-- The bits of a kind after a key: those of another kind stay. -/
theorem nextState_bits (state : BitVec 8) (k : Key) (pressed : Bool) (m : ModifierKind) :
    nextState state k.extended k.code pressed &&& m.bits ≠ 0 ↔
      if k.touched = some m then pressed = true ∨ state &&& k.otherBit ≠ 0 else state &&& m.bits ≠ 0 := by
  rw [nextState_eq]
  cases h : k.touched with
  | none => simp
  | some m' =>
      obtain ⟨hnonzero, hdisjoint, hbits, hothers⟩ := k.touched_bits h
      simp only [reduceCtorEq, if_false, Option.some.injEq]
      split
      · rename_i heq
        rw [← heq, hbits, and_or_ne_zero, setState_self hnonzero, setState_other hdisjoint]
      · rename_i hne
        rw [setState_other (hothers m (Ne.symm hne))]

end Bits

/-! ### Strokes -/

section Strokes

variable {kbd kbd' : Ps2Keyboard} {held held' : Set Key} {k : Key} {pressed : Bool} {stroke : KeyStroke}

/-- A byte that is not the prefix makes an event. -/
theorem irqHandler_code {data : BitVec 8} (hdata : data ≠ 0xe0) (hcode : data &&& 0x7f = k.code)
    (hpressed : decide (data &&& 0x80 = 0) = pressed) (hprefixed : kbd.receivedE0 = k.extended) :
    ∃ event queue, kbd.irqHandler data =
        (some event, ⟨false, nextState kbd.state k.extended k.code pressed, queue⟩) ∧
      event.scancode = k.scancode ∧ event.pressed = pressed ∧
      event.modifiers = modifiersOf (nextState kbd.state k.extended k.code pressed) := by
  rw [irqHandler, if_neg hdata]
  simp only [hcode, hpressed, hprefixed]
  exact ⟨_, _, rfl, rfl, rfl, rfl⟩

/-- The bytes of a stroke make one event, and end without a prefix. -/
theorem take_bytes (hprefixed : kbd.receivedE0 = false) (k : Key) (pressed : Bool) :
    ∃ event queue, kbd.take (k.bytes pressed) =
        ([event], ⟨false, nextState kbd.state k.extended k.code pressed, queue⟩) ∧
      event.scancode = k.scancode ∧ event.pressed = pressed ∧
      event.modifiers = modifiersOf (nextState kbd.state k.extended k.code pressed) := by
  have hbyte : ∀ c : BitVec 8, c < 0x80 → c ≠ 0x60 →
      c ≠ 0xe0 ∧ c &&& 0x7f = c ∧ c &&& 0x80 = 0 ∧
        (c ||| 0x80) ≠ 0xe0 ∧ (c ||| 0x80) &&& 0x7f = c ∧ (c ||| 0x80) &&& 0x80 ≠ 0 := by decide
  obtain ⟨hne, hcode, hdown, hne', hcode', hup⟩ := hbyte k.code k.code_lt k.code_ne
  have hlast : ∀ kbd : Ps2Keyboard, kbd.receivedE0 = k.extended →
      ∃ event queue, kbd.take [if pressed then k.code else k.code ||| 0x80] =
          ([event], ⟨false, nextState kbd.state k.extended k.code pressed, queue⟩) ∧
        event.scancode = k.scancode ∧ event.pressed = pressed ∧
        event.modifiers = modifiersOf (nextState kbd.state k.extended k.code pressed) := by
    intro kbd hkbd
    obtain ⟨event, queue, hirq, hreports⟩ : ∃ event queue,
        kbd.irqHandler (if pressed then k.code else k.code ||| 0x80) =
          (some event, ⟨false, nextState kbd.state k.extended k.code pressed, queue⟩) ∧
        event.scancode = k.scancode ∧ event.pressed = pressed ∧
        event.modifiers = modifiersOf (nextState kbd.state k.extended k.code pressed) := by
      cases pressed with
      | true => exact irqHandler_code hne hcode (decide_eq_true hdown) hkbd
      | false => exact irqHandler_code hne' hcode' (decide_eq_false hup) hkbd
    refine ⟨event, queue, ?_, hreports⟩
    simp only [take, hirq]
    rfl
  unfold Key.bytes
  cases hextended : k.extended with
  | false =>
      rw [hextended] at hlast
      exact hlast kbd hprefixed
  | true =>
      rw [hextended] at hlast
      exact hlast { kbd with receivedE0 := true } rfl

/-- What is reported after a stroke. -/
theorem reports_iff (hprefixed : kbd.receivedE0 = false)
    (hstep : typing.step (kbd, held) stroke (kbd', held')) :
    kbd'.receivedE0 = false ∧ kbd'.state = nextState kbd.state stroke.key.extended stroke.key.code stroke.pressed ∧
      (Reports ⟨(kbd, held), stroke, (kbd', held')⟩ ↔
        ∀ m : ModifierKind, kbd'.state &&& m.bits ≠ 0 ↔ Held held' m) := by
  obtain ⟨-, htake, -⟩ := hstep
  obtain ⟨event, queue, hbytes, hscancode, hpressed, hmodifiers⟩ := take_bytes hprefixed stroke.key stroke.pressed
  simp only at htake
  rw [hbytes] at htake
  obtain ⟨hevents, rfl⟩ := Prod.mk.inj htake
  refine ⟨rfl, rfl, ?_⟩
  constructor
  · rintro ⟨event', hevents', hreports⟩ m
    obtain rfl : event = event' := List.singleton_inj.1 (hevents.symm.trans hevents')
    rw [← hreports.modifiers m, hmodifiers, modifiersOf_mask]
  · intro hheld
    refine ⟨event, hevents, hscancode, hpressed, fun m => ?_, ?_⟩
    · rw [hmodifiers, modifiersOf_mask]
      exact hheld m
    · rw [hmodifiers, modifiersOf_others]

/-- A stroke of a key of another kind does not change whether a kind is held. -/
theorem held_after_of_ne {m : ModifierKind} (hne : k.kind ≠ some m) : Held (after held k pressed) m ↔ Held held m := by
  unfold Held after
  constructor
  · rintro ⟨k', hk', hkind⟩
    cases pressed with
    | true =>
        rcases Set.mem_insert_iff.1 hk' with rfl | hmem
        · exact absurd hkind hne
        · exact ⟨k', hmem, hkind⟩
    | false => exact ⟨k', hk'.1, hkind⟩
  · rintro ⟨k', hk', hkind⟩
    have hother : k' ≠ k := by
      rintro rfl
      exact hne hkind
    cases pressed with
    | true => exact ⟨k', Set.mem_insert_of_mem k hk', hkind⟩
    | false => exact ⟨k', ⟨hk', hother⟩, hkind⟩

theorem Key.touched_of_kind {m : ModifierKind} (h : k.kind = some m) : k.touched = some m := by
  unfold Key.kind at h
  unfold Key.touched
  split_ifs at h ⊢ <;> simp_all

/-- Between two strokes, no prefix has come, and the bits of each kind say whether it is held. -/
def BitsHeld (p : Ps2Keyboard × Set Key) : Prop :=
  p.1.receivedE0 = false ∧ ∀ m : ModifierKind, p.1.state &&& m.bits ≠ 0 ↔ Held p.2 m

/-- A stroke is reported as it should be exactly when the bits agree. -/
theorem reports_iff_bitsAgree (h : BitsHeld (kbd, held)) (hstep : typing.step (kbd, held) stroke (kbd', held')) :
    (Reports ⟨(kbd, held), stroke, (kbd', held')⟩ ↔ BitsAgree (kbd, held) stroke) ∧
      (BitsAgree (kbd, held) stroke → BitsHeld (kbd', held')) := by
  obtain ⟨hprefixed, hbits⟩ := h
  obtain ⟨hprefixed', hstate, hreports⟩ := reports_iff hprefixed hstep
  have hheld : held' = after held stroke.key stroke.pressed := hstep.2.2
  have hagree : (∀ m : ModifierKind, kbd'.state &&& m.bits ≠ 0 ↔ Held held' m) ↔ BitsAgree (kbd, held) stroke := by
    rw [hstate, hheld]
    constructor
    · intro hall m htouched
      have hm := hall m
      rw [nextState_bits, if_pos htouched] at hm
      exact hm
    · intro hagree m
      rw [nextState_bits]
      split
      · rename_i htouched
        exact hagree m htouched
      · rename_i hother
        rw [held_after_of_ne fun hkind => hother (Key.touched_of_kind hkind)]
        exact hbits m
  exact ⟨hreports.trans hagree, fun h => ⟨hprefixed', hagree.2 h⟩⟩

end Strokes

/-! ### Keys with a code of their own -/

section OwnCodes

variable {kbd kbd' : Ps2Keyboard} {held held' : Set Key} {k k' : Key} {m : ModifierKind} {stroke : KeyStroke}

/-- The codes of the keys of a kind. -/
def ModifierKind.codes : ModifierKind → List (BitVec 8)
  | .alt => [0x38]
  | .ctrl => [0x1d]
  | .shift => [0x2a, 0x36]
  | .super => [0x5b, 0x5c]
  | .altgr => [0x38]

/-- The bit of a code of a kind. -/
def ModifierKind.bitOf (m : ModifierKind) (c : BitVec 8) : BitVec 8 :=
  match m with
  | .alt => STATE_ALT
  | .ctrl => STATE_CTRL
  | .shift => if c = 0x2a then STATE_LEFT_SHIFT else STATE_RIGHT_SHIFT
  | .super => if c = 0x5b then STATE_LEFT_SUPER else STATE_RIGHT_SUPER
  | .altgr => STATE_ALTGR

/-- The bit of each code of a kind says whether a key of the kind with this code is held. -/
def CodeBits (p : Ps2Keyboard × Set Key) : Prop :=
  p.1.receivedE0 = false ∧
    ∀ (m : ModifierKind), ∀ c ∈ m.codes, p.1.state &&& m.bitOf c ≠ 0 ↔ ∃ k ∈ p.2, Key.kind k = some m ∧ k.code = c

/-- A kind has the bits of its codes. -/
theorem bits_iff (state : BitVec 8) (m : ModifierKind) :
    state &&& m.bits ≠ 0 ↔ ∃ c ∈ m.codes, state &&& m.bitOf c ≠ 0 := by
  cases m with
  | shift => exact (and_or_ne_zero state STATE_LEFT_SHIFT STATE_RIGHT_SHIFT).trans (by
      simp [ModifierKind.codes, ModifierKind.bitOf])
  | super => exact (and_or_ne_zero state STATE_LEFT_SUPER STATE_RIGHT_SUPER).trans (by
      simp [ModifierKind.codes, ModifierKind.bitOf])
  | _ => simp [ModifierKind.bits, ModifierKind.codes, ModifierKind.bitOf]

/-- Another kind, or another code of the kind, has another bit. -/
theorem bitOf_disjoint {m m' : ModifierKind} {c c' : BitVec 8} (hc : c ∈ m.codes) (hc' : c' ∈ m'.codes)
    (hne : ¬(m = m' ∧ c = c')) : m.bitOf c &&& m'.bitOf c' = 0 := by
  cases m <;> cases m' <;>
    simp only [ModifierKind.codes, List.mem_cons, List.not_mem_nil, or_false] at hc hc' <;>
    (try rcases hc with rfl | rfl) <;> (try rcases hc' with rfl | rfl) <;>
    first
    | rfl
    | exact absurd ⟨rfl, by simp_all⟩ hne

/-- A key that changes a bit changes the bit of its code. -/
theorem Key.touched_code (h : k.touched = some m) : k.code ∈ m.codes ∧ k.ownBit = m.bitOf k.code := by
  unfold Key.touched at h
  split_ifs at h with h38 hext h1d h5b h5c h2a h36 <;> obtain rfl := Option.some.inj h <;>
    simp [Key.ownBit, ModifierKind.codes, ModifierKind.bitOf, *]

/-- The bit of a code after a stroke. -/
theorem nextState_bitOf (state : BitVec 8) (k : Key) (pressed : Bool) {c : BitVec 8} (hc : c ∈ m.codes) :
    nextState state k.extended k.code pressed &&& m.bitOf c ≠ 0 ↔
      if k.touched = some m ∧ k.code = c then pressed = true else state &&& m.bitOf c ≠ 0 := by
  rw [nextState_eq]
  cases h : k.touched with
  | none => simp
  | some m' =>
      obtain ⟨hcode, hbit⟩ := k.touched_code h
      obtain ⟨hnonzero, -, -, -⟩ := k.touched_bits h
      simp only [reduceCtorEq, if_false, Option.some.injEq]
      split
      · rename_i hsame
        obtain ⟨rfl, rfl⟩ := hsame
        rw [← hbit, setState_self hnonzero]
      · rename_i hne
        rw [setState_other (hbit ▸ bitOf_disjoint hcode hc hne)]

/-- Whether a key of a kind with a code is held, after a stroke of a key that has another kind or code. -/
theorem code_held_after_of_ne {c : BitVec 8} {pressed : Bool} (hne : ¬(k.kind = some m ∧ k.code = c)) :
    (∃ k' ∈ after held k pressed, k'.kind = some m ∧ k'.code = c) ↔ ∃ k' ∈ held, k'.kind = some m ∧ k'.code = c := by
  unfold after
  constructor
  · rintro ⟨k', hk', hkind⟩
    cases pressed with
    | true =>
        rcases Set.mem_insert_iff.1 hk' with rfl | hmem
        · exact absurd hkind hne
        · exact ⟨k', hmem, hkind⟩
    | false => exact ⟨k', hk'.1, hkind⟩
  · rintro ⟨k', hk', hkind⟩
    have hother : k' ≠ k := by
      rintro rfl
      exact hne hkind
    cases pressed with
    | true => exact ⟨k', Set.mem_insert_of_mem k hk', hkind⟩
    | false => exact ⟨k', ⟨hk', hother⟩, hkind⟩

/-- Two keys of a kind with one code are the two Ctrl keys. -/
theorem Key.eq_of_code (h : k.kind = some m) (h' : k'.kind = some m) (hcode : k.code = k'.code) (hctrl : m ≠ .ctrl) :
    k = k' := by
  have hextended : k.extended = k'.extended := by
    unfold Key.kind at h h'
    rw [← hcode] at h'
    split_ifs at h h' <;> obtain rfl := Option.some.inj h <;> simp_all
  cases k
  cases k'
  simp_all

/-- The bits say which kinds are held. -/
theorem CodeBits.bitsHeld {p : Ps2Keyboard × Set Key} (h : CodeBits p) : BitsHeld p := by
  refine ⟨h.1, fun m => ?_⟩
  rw [bits_iff]
  constructor
  · rintro ⟨c, hc, hbit⟩
    obtain ⟨k, hk, hkind, -⟩ := (h.2 m c hc).1 hbit
    exact ⟨k, hk, hkind⟩
  · rintro ⟨k, hk, hkind⟩
    have hc := (Key.touched_code (Key.touched_of_kind hkind)).1
    exact ⟨k.code, hc, (h.2 m k.code hc).2 ⟨k, hk, hkind, rfl⟩⟩

/-- A stroke of a key with a code of its own keeps the bits, where no other Ctrl key is held at a release. -/
theorem CodeBits.step (h : CodeBits (kbd, held)) (hown : OwnCode stroke) (hlast : ReleasesLast held stroke)
    (hstep : typing.step (kbd, held) stroke (kbd', held')) : CodeBits (kbd', held') := by
  obtain ⟨hprefixed', hstate, -⟩ := reports_iff h.1 hstep
  have hheld : held' = after held stroke.key stroke.pressed := hstep.2.2
  refine ⟨hprefixed', fun m c hc => ?_⟩
  change kbd'.state &&& m.bitOf c ≠ 0 ↔ ∃ k ∈ held', k.kind = some m ∧ k.code = c
  rw [hstate, nextState_bitOf kbd.state stroke.key stroke.pressed hc, hheld]
  split
  · rename_i hsame
    obtain ⟨htouched, rfl⟩ := hsame
    have hkind : stroke.key.kind = some m := hown.symm.trans htouched
    cases hpressed : stroke.pressed with
    | true => exact iff_of_true rfl ⟨stroke.key, Set.mem_insert _ _, hkind, rfl⟩
    | false =>
        refine iff_of_false Bool.false_ne_true ?_
        rintro ⟨k, ⟨hk, hne⟩, hkind', hcode⟩
        refine hne ?_
        by_cases hctrl : m = .ctrl
        · subst hctrl
          exact hlast hpressed hkind k hk hkind'
        · exact Key.eq_of_code hkind' hkind hcode hctrl
  · rename_i hother
    rw [code_held_after_of_ne (hown ▸ hother)]
    exact h.2 m c hc

/-- Where another Ctrl key is held at a release, the event does not report it. -/
theorem releasesLast_of_reports (h : CodeBits (kbd, held))
    (hstep : typing.step (kbd, held) stroke (kbd', held')) (hreports : Reports ⟨(kbd, held), stroke, (kbd', held')⟩) :
    ReleasesLast held stroke := by
  intro hpressed hkind k hk hkind'
  by_contra hne
  obtain ⟨-, hstate, hiff⟩ := reports_iff h.1 hstep
  have hheld : held' = after held stroke.key stroke.pressed := hstep.2.2
  have hbit := (hiff.1 hreports .ctrl).2 ⟨k, by
    rw [hheld, hpressed]
    exact ⟨hk, hne⟩, hkind'⟩
  have htouched := Key.touched_of_kind hkind
  have hother : stroke.key.otherBit = 0 := by
    have hcode : stroke.key.code = 0x1d := by simpa [ModifierKind.codes] using (Key.touched_code htouched).1
    simp [Key.otherBit, hcode]
  rw [hstate, nextState_bits, if_pos htouched, hpressed, hother] at hbit
  simp at hbit

end OwnCodes

/-! ### The theorem -/

theorem typing_init {p : Ps2Keyboard × Set Key} (h : typing.init p) : CodeBits p := by
  obtain ⟨hprefixed, hstate, hheld⟩ := h
  refine ⟨hprefixed, fun m c _ => ?_⟩
  rw [hstate, hheld]
  simp

/-- While keys are typed, every event reports its key, its direction and the kinds of modifiers that are held, exactly
    as long as the bits that its code changes agree with the keys of its kind. Where every key has a code of its own,
    this is so exactly as long as no Ctrl key is released while the other one is held. -/
theorem key_modifiers_iff {p p' : Ps2Keyboard × Set Key} {xs : List (Transition (Ps2Keyboard × Set Key) KeyStroke)}
    (hinit : typing.init p) (run : typing.Run p xs p') :
    ((∀ x ∈ xs, Reports x) ↔ ∀ x ∈ xs, BitsAgree x.before x.event) ∧
      ((∀ x ∈ xs, OwnCode x.event) → ((∀ x ∈ xs, Reports x) ↔ ∀ x ∈ xs, ReleasesLast x.before.2 x.event)) := by
  have hcodes := typing_init hinit
  refine ⟨?_, fun hown => ?_⟩
  · exact run.guarded_iff (fun p stroke p' => Reports ⟨p, stroke, p'⟩)
      (fun p stroke p' hp hagree hstep => (reports_iff_bitsAgree hp hstep).2 hagree)
      (fun p stroke p' hp hagree hstep => (reports_iff_bitsAgree hp hstep).1.2 hagree)
      (fun p stroke p' hp hstep hreports => (reports_iff_bitsAgree hp hstep).1.1 hreports) hcodes.bitsHeld
  · have hsound : ∀ p stroke p', CodeBits p → OwnCode stroke ∧ ReleasesLast p.2 stroke → typing.step p stroke p' →
        OwnCode stroke ∧ Reports ⟨p, stroke, p'⟩ := by
      intro p stroke p' hp hguard hstep
      obtain ⟨hprefixed, hstate, hiff⟩ := reports_iff hp.1 hstep
      exact ⟨hguard.1, hiff.2 (hp.step hguard.1 hguard.2 hstep).bitsHeld.2⟩
    have hiff := run.guarded_iff (fun p stroke p' => OwnCode stroke ∧ Reports ⟨p, stroke, p'⟩)
      (fun p stroke p' hp hguard hstep => hp.step hguard.1 hguard.2 hstep) hsound
      (fun p stroke p' hp hstep hholds => ⟨hholds.1, releasesLast_of_reports hp hstep hholds.2⟩) hcodes
    constructor
    · intro hreports x hx
      exact (hiff.1 (fun x hx => ⟨hown x hx, hreports x hx⟩) x hx).2
    · intro hlast x hx
      exact (hiff.2 (fun x hx => ⟨hown x hx, hlast x hx⟩) x hx).2

/-! ### Two Ctrl keys -/

section CtrlKeys

/-- The keyboard before the first key. -/
def idle : Ps2Keyboard :=
  { queue := { cells := fun _ => ⟨0, 0, .KEYCODE_NONE, 0, false⟩, writeIdx := 0, readIdx := 0,
               writeIdx_lt := by decide, readIdx_lt := by decide } }

def leftCtrl : Key := ⟨false, 0x1d, by decide, by decide⟩

def rightCtrl : Key := ⟨true, 0x1d, by decide, by decide⟩

/-- The transition of a press or a release. -/
def strokeOf (p : Ps2Keyboard × Set Key) (k : Key) (pressed : Bool) :
    Transition (Ps2Keyboard × Set Key) KeyStroke :=
  ⟨p, ⟨k, pressed, (p.1.take (k.bytes pressed)).1⟩, ((p.1.take (k.bytes pressed)).2, after p.2 k pressed)⟩

theorem strokeOf_step {p : Ps2Keyboard × Set Key} {k : Key} {pressed : Bool} (h : pressed = true ↔ k ∉ p.2) :
    typing.step p (strokeOf p k pressed).event (strokeOf p k pressed).after := ⟨h, rfl, rfl⟩

/-- Both Ctrl keys are pressed, one after the other. -/
def bothCtrls : Transition (Ps2Keyboard × Set Key) KeyStroke :=
  strokeOf (strokeOf (idle, ∅) leftCtrl true).after rightCtrl true

theorem bothCtrls_run : typing.Run (idle, ∅) [strokeOf (idle, ∅) leftCtrl true, bothCtrls] bothCtrls.after := by
  refine .cons (strokeOf_step ?_) (.cons (strokeOf_step ?_) (.nil _))
  · simp
  · have hne : rightCtrl ≠ leftCtrl := by decide
    simp [after, hne]

/-- While the Ctrl keys are pressed, Ctrl is reported. -/
theorem key_modifiers_pressed :
    typing.Run (idle, ∅) [strokeOf (idle, ∅) leftCtrl true, bothCtrls] bothCtrls.after ∧
      ∀ x ∈ [strokeOf (idle, ∅) leftCtrl true, bothCtrls], Reports x := by
  refine ⟨bothCtrls_run, ((key_modifiers_iff ⟨rfl, rfl, rfl⟩ bothCtrls_run).2 ?_).2 ?_⟩
  · simp only [List.forall_mem_cons, List.not_mem_nil, false_imp_iff, implies_true, and_true]
    exact ⟨(by decide : leftCtrl.touched = leftCtrl.kind), (by decide : rightCtrl.touched = rightCtrl.kind)⟩
  · simp only [List.forall_mem_cons, List.not_mem_nil, false_imp_iff, implies_true, and_true]
    exact ⟨fun h => absurd h Bool.noConfusion, fun h => absurd h Bool.noConfusion⟩

/-- When one of the Ctrl keys is released, its event reports no Ctrl, though the other one is held. -/
theorem key_modifiers_second_ctrl :
    ∃ xs p, typing.Run (idle, ∅) xs p ∧ typing.init (idle, ∅) ∧ ¬∀ x ∈ xs, Reports x := by
  have hne : leftCtrl ≠ rightCtrl := by decide
  have hheld : bothCtrls.after.2 = {rightCtrl, leftCtrl} := by
    simp [bothCtrls, strokeOf, after]
  have hrelease : typing.step bothCtrls.after (strokeOf bothCtrls.after rightCtrl false).event
      (strokeOf bothCtrls.after rightCtrl false).after := by
    refine strokeOf_step ?_
    rw [hheld]
    simp
  refine ⟨_, _, bothCtrls_run.snoc hrelease, ⟨rfl, rfl, rfl⟩, ?_⟩
  intro hreports
  obtain ⟨event, hevents, hreport⟩ := hreports _ (List.mem_append_right _ (List.mem_singleton_self _))
  have hmodifiers : [event.modifiers] = [0] := by
    have hmap := congrArg (List.map KeyEvent.modifiers) hevents
    exact hmap.symm.trans (by decide)
  have hctrl : Held (after bothCtrls.after.2 rightCtrl false) .ctrl := by
    rw [hheld]
    exact ⟨leftCtrl, ⟨.inr rfl, hne⟩, by decide⟩
  have hbit := (hreport.modifiers .ctrl).2 hctrl
  rw [List.singleton_inj.1 hmodifiers] at hbit
  exact hbit rfl

end CtrlKeys

end Ps2Keyboard

end Chaotix
