/-
Module: Chaotix.Proofs.LineEditing
Layer: Proofs
Purpose: The line editor of the shell edits a text with a cursor. A session says what each byte means for the text: a
  byte that stands for itself is inserted, control bytes and escape sequences are edits and moves. The editor follows
  the session, and uses no byte outside its buffers, exactly as long as no byte is inserted into a line, or collected
  as a parameter, that fills its buffer up to the last byte: the code does not look at the size.
Imports: Chaotix.Lib.Numeral, Chaotix.Lib.Zipper, Chaotix.Userland.LineEditor
Trusted boundary: none
Main exports: Edit, Session, Mirrors, HasRoom, line_editing_iff
-/
import Chaotix.Lib.Numeral
import Chaotix.Lib.Zipper
import Chaotix.Userland.LineEditor

namespace Chaotix

namespace Sh

/-! ### Sessions -/

/-- What can be done to a line. -/
inductive Edit where
  | insert (c : UInt8)
  | backspace
  | delete
  | clear
  | goRight
  | goLeft
  | goHome
  | goEnd
deriving DecidableEq, Repr

/-- The line after an edit. -/
def Edit.apply : Edit → Zipper UInt8 → Zipper UInt8
  | .insert c, z => z.insert c
  | .backspace, z => z.backspace
  | .delete, z => z.delete
  | .clear, _ => .empty
  | .goRight, z => z.goRight
  | .goLeft, z => z.goLeft
  | .goHome, z => z.goHome
  | .goEnd, z => z.goEnd

/-- Bytes that stand for themselves: the graphic characters of ASCII and the blank. -/
def Printable (c : UInt8) : Prop := 32 ≤ c.toNat ∧ c.toNat ≤ 126

instance (c : UInt8) : Decidable (Printable c) := inferInstanceAs (Decidable (_ ∧ _))

/-- The edit of a byte that is not part of an escape sequence: `^H` and the delete key take back a byte, `^U` the whole
    line. -/
def byteEdit (c : UInt8) : Option Edit :=
  if Printable c then some (.insert c)
  else if c.toNat = 8 ∨ c.toNat = 127 then some .backspace
  else if c.toNat = 21 then some .clear
  else none

/-- The edit of a sequence that ends with `~`. -/
def numberedEdit : Nat → Option Edit
  | 1 | 7 => some .goHome
  | 4 | 8 => some .goEnd
  | 3 => some .delete
  | _ => none

/-- The number at the start of the parameters, behind blanks. The parameters end at a zero byte, and a number has 32
    bits. -/
def leadingNumber (params : List UInt8) : Nat :=
  decimalValue (((params.takeWhile (· ≠ 0)).dropWhile FbConsole.isSpace).takeWhile
    fun c => 48 ≤ c.toNat ∧ c.toNat ≤ 57) % wordSize

/-- The edit of the sequence `ESC [ params c`. -/
def sequenceEdit (params : List UInt8) (c : UInt8) : Option Edit :=
  if c = 'C'.toUInt8 then some .goRight
  else if c = 'D'.toUInt8 then some .goLeft
  else if c = 'H'.toUInt8 then some .goHome
  else if c = 'F'.toUInt8 then some .goEnd
  else if c = '~'.toUInt8 then numberedEdit (leadingNumber params)
  else none

/-- The line after an edit, if there is one. -/
def editLine (z : Zipper UInt8) (edit : Option Edit) : Zipper UInt8 := edit.elim z fun edit => edit.apply z

/-- What has been read of an escape sequence, or the line that is accepted. -/
inductive Pending where
  | nothing
  | escape
  | sequence (params : List UInt8)
  | accepted (line : List UInt8)
deriving DecidableEq, Repr

/-- A line that is being edited. -/
structure Session where
  line : Zipper UInt8 := .empty
  pending : Pending := .nothing

namespace Session

/-- A byte that is not part of an escape sequence. The carriage return and the line feed accept the line, and `^D`
    accepts an empty line as `exit`. -/
def byte (z : Zipper UInt8) (c : UInt8) : Session :=
  if c.toNat = 27 then ⟨z, .escape⟩
  else if c.toNat = 13 ∨ c.toNat = 10 then ⟨z, .accepted z.text⟩
  else if c.toNat = 4 ∧ z.text = [] then ⟨z, .accepted LineEditor.exitLine⟩
  else ⟨editLine z (byteEdit c), .nothing⟩

/-- The next byte. In an escape sequence, the bytes below `@` and those that are not ASCII are parameters. -/
def char (s : Session) (c : UInt8) : Session :=
  match s.pending with
  | .nothing => byte s.line c
  | .escape => if c = '['.toUInt8 then ⟨s.line, .sequence []⟩ else byte s.line c
  | .sequence params =>
      if c.toNat < 64 ∨ 128 ≤ c.toNat then ⟨s.line, .sequence (params ++ [c])⟩
      else ⟨editLine s.line (sequenceEdit params c), .nothing⟩
  | .accepted _ => s

/-- A session follows the events. -/
def next (s : Session) : EditorEvent → Session
  | .readInput => {}
  | .onChar c => s.char c

/-- The line that has been accepted, and before that the one that is edited. -/
def string (s : Session) : List UInt8 :=
  match s.pending with
  | .accepted line => line
  | _ => s.line.text

end Session

/-! ### The theorem's terms -/

/-- The editor follows the session: the line and the parameters are inside their buffers, nothing outside has been
    touched, the line ends with a zero, and its text and cursor are those of the session. -/
structure Mirrors (ed : LineEditor) (s : Session) : Prop where
  cursor_le : ed.cursor ≤ ed.inputLen
  inputLen_le : ed.inputLen ≤ BUF_SIZE - 1
  paramLen_le : ed.paramLen ≤ BUF_SIZE - 1
  inside : ∀ t ∈ ed.touches, t.Inside
  terminated : BytesAt ed.inputBuf 0 (s.string ++ [0])
  text : BytesAt ed.inputBuf 0 s.line.text
  inputLen : ed.inputLen = s.line.text.length
  cursor : ed.cursor = s.line.cursor
  accepted : ed.state = .STATE_ACCEPTED ↔ ∃ line, s.pending = .accepted line

/-- The event does not fill up a buffer: where a byte is inserted or collected, the buffer has another byte left. -/
def HasRoom (ed : LineEditor) : EditorEvent → Prop
  | .readInput => True
  | .onChar c =>
      match ed.state with
      | .STATE_GROUND => isprint c → ed.inputLen < BUF_SIZE - 1
      | .STATE_ESC => isprint c → c ≠ '['.toUInt8 → ed.inputLen < BUF_SIZE - 1
      | .STATE_CSI => charValue c < 0x40 → ed.paramLen < BUF_SIZE - 1
      | .STATE_ACCEPTED => True

/-- The editor beside its session. -/
def lineSession : TransitionSystem (LineEditor × Session) EditorEvent := lineEditing.observed {} Session.next

/-! ### Bytes -/

section Bytes

variable {c : UInt8}

theorem isprint_iff : isprint c ↔ Printable c := by
  have hbyte : c.toNat < 256 := c.toNat_lt
  unfold isprint Printable charValue
  split <;> omega

theorem charValue_lt_iff : charValue c < 0x40 ↔ c.toNat < 64 ∨ 128 ≤ c.toNat := by
  have hbyte : c.toNat < 256 := c.toNat_lt
  unfold charValue
  split <;> omega

theorem byte_eq_iff {n : Nat} (hn : n < 256) : c = UInt8.ofNat n ↔ c.toNat = n := by
  rw [← UInt8.toNat_inj, UInt8.toNat_ofNat', Nat.mod_eq_of_lt hn]

/-- A byte that stands for itself is inserted. -/
theorem byte_of_isprint (z : Zipper UInt8) (hprint : isprint c) : Session.byte z c = ⟨z.insert c, .nothing⟩ := by
  have hgraphic := isprint_iff.1 hprint
  have hlow : 32 ≤ c.toNat := hgraphic.1
  rw [Session.byte, if_neg (by omega), if_neg (by omega), if_neg (by omega), byteEdit, if_pos hgraphic]
  rfl

/-- `atoi` of the string in the parameters. -/
theorem atoi_params (params : List UInt8) : FbConsole.atoi (params.takeWhile (· ≠ 0)) = leadingNumber params := by
  rw [leadingNumber, ← foldl_decimal_wrap]
  unfold FbConsole.atoi
  congr 2
  funext c
  simp

end Bytes

/-! ### Text in a buffer -/

/-- A text at the start of a buffer, with zeros up to the end of it. -/
structure TextAt (buf : Nat → UInt8) (text : List UInt8) : Prop where
  bytes : BytesAt buf 0 text
  blank : ∀ i, text.length ≤ i → i < BUF_SIZE → buf i = 0

section Texts

variable {buf : Nat → UInt8} {left right bs : List UInt8} {c : UInt8}

/-- `memmove` moves the bytes, also where the two ranges overlap. -/
theorem memmove_eq (dest : Nat) {src : Nat} (hsrc : src + bs.length ≤ wordSize) (h : BytesAt buf src bs) :
    memmove buf dest src bs.length = writeBytes buf dest bs := by
  unfold memmove wordSub
  by_cases hup : src ≤ dest
  · rw [show (dest + (wordSize - src)) = dest - src + wordSize by omega, Nat.add_mod_right]
    split
    · rename_i hfar
      have hdiff := Nat.mod_le (dest - src) wordSize
      exact copyForward_eq (.inr (by omega)) h
    · exact copyBackward_eq (.inl hup) h
  · rw [Nat.mod_eq_of_lt (by omega), if_pos (by omega)]
    exact copyForward_eq (.inl (by omega)) h

/-- The text ends with a zero. -/
theorem TextAt.terminated (h : TextAt buf bs) (hfits : bs.length < BUF_SIZE) : BytesAt buf 0 (bs ++ [0]) := by
  refine bytesAt_append.2 ⟨h.bytes, bytesAt_cons ?_ (bytesAt_nil _ _)⟩
  rw [Nat.zero_add]
  exact h.blank bs.length (Nat.le_refl _) hfits

/-- A byte is put between two parts of a text. -/
theorem TextAt.insert (h : TextAt buf (left ++ right)) (c : UInt8) :
    TextAt (Function.update (writeBytes buf (left.length + 1) right) left.length c) (left ++ c :: right) := by
  obtain ⟨hleft, -⟩ := bytesAt_append.1 h.bytes
  constructor
  case bytes =>
    refine bytesAt_append.2 ⟨hleft.congr fun x _ hx => ?_, ?_⟩
    · rw [Function.update_of_ne (by omega), writeBytes_outside (by omega)]
    · rw [Nat.zero_add]
      refine bytesAt_cons (Function.update_self ..) ((bytesAt_writeBytes buf (left.length + 1) right).congr ?_)
      intro x hx _
      rw [Function.update_of_ne (by omega)]
  case blank =>
    intro i hi hlt
    rw [List.length_append, List.length_cons] at hi
    rw [Function.update_of_ne (by omega), writeBytes_outside (by omega)]
    exact h.blank i (by rw [List.length_append]; omega) hlt

/-- A byte is taken from between two parts of a text. -/
theorem TextAt.erase (h : TextAt buf (left ++ c :: right)) :
    TextAt (Function.update (writeBytes buf left.length right) (left.length + right.length) 0) (left ++ right) := by
  obtain ⟨hleft, -⟩ := bytesAt_append.1 h.bytes
  constructor
  case bytes =>
    refine bytesAt_append.2 ⟨hleft.congr fun x _ hx => ?_, ?_⟩
    · rw [Function.update_of_ne (by omega), writeBytes_outside (by omega)]
    · rw [Nat.zero_add]
      refine (bytesAt_writeBytes buf left.length right).congr fun x _ hx => ?_
      rw [Function.update_of_ne (by omega)]
  case blank =>
    intro i hi hlt
    rw [List.length_append] at hi
    by_cases hend : i = left.length + right.length
    · rw [hend, Function.update_self]
    · rw [Function.update_of_ne hend, writeBytes_outside (by omega)]
      exact h.blank i (by rw [List.length_append, List.length_cons]; omega) hlt

/-- The text is overwritten with zeros. -/
theorem TextAt.clear (h : TextAt buf bs) : TextAt (writeBytes buf 0 (List.replicate bs.length 0)) [] := by
  refine ⟨bytesAt_nil _ _, fun i _ hlt => ?_⟩
  by_cases hinside : i < bs.length
  · have hzero := bytesAt_writeBytes buf 0 (List.replicate bs.length 0) i (by rw [List.length_replicate]; exact hinside)
    rw [Nat.zero_add, List.getElem_replicate] at hzero
    exact hzero
  · rw [writeBytes_outside (by rw [List.length_replicate]; omega)]
    exact h.blank i (by omega) hlt

end Texts

/-! ### Lines in an editor -/

/-- The line of an editor that has not accepted it. -/
structure HasLine (ed : LineEditor) (z : Zipper UInt8) : Prop where
  text : TextAt ed.inputBuf z.text
  inputLen : ed.inputLen = z.text.length
  cursor : ed.cursor = z.cursor
  inputLen_le : ed.inputLen ≤ BUF_SIZE - 1
  paramLen_le : ed.paramLen ≤ BUF_SIZE - 1
  inside : ∀ t ∈ ed.touches, t.Inside

/-- The editor and its session, between two events. -/
inductive Tracks : LineEditor → Session → Prop where
  | nothing {ed z} (line : HasLine ed z) (state : ed.state = .STATE_GROUND) : Tracks ed ⟨z, .nothing⟩
  | escape {ed z} (line : HasLine ed z) (state : ed.state = .STATE_ESC) : Tracks ed ⟨z, .escape⟩
  | sequence {ed z params} (line : HasLine ed z) (state : ed.state = .STATE_CSI)
      (paramBuf : BytesAt ed.paramBuf 0 params) (paramLen : ed.paramLen = params.length) :
      Tracks ed ⟨z, .sequence params⟩
  | accepted {ed z line} (mirrors : Mirrors ed ⟨z, .accepted line⟩) : Tracks ed ⟨z, .accepted line⟩

section Lines

variable {ed : LineEditor} {z : Zipper UInt8} {left right : List UInt8} {c a : UInt8}

/-- More ranges are used. -/
theorem HasLine.touched (h : HasLine ed z) {ts : List Touch} (hts : ∀ t ∈ ts, t.Inside) : HasLine (ed.touch ts) z :=
  { h with
    inside := fun t ht => (List.mem_append.1 ht).elim (hts t) (h.inside t) }

theorem HasLine.cursor_le (h : HasLine ed z) : ed.cursor ≤ ed.inputLen := by
  rw [h.cursor, h.inputLen]
  exact z.cursor_le

theorem HasLine.terminated (h : HasLine ed z) : BytesAt ed.inputBuf 0 (z.text ++ [0]) :=
  h.text.terminated (h.inputLen ▸ Nat.lt_of_le_of_lt h.inputLen_le (by decide))

/-- An editor with a line mirrors it, accepted or not. -/
theorem HasLine.mirrors (h : HasLine ed z) {p : Pending} (hstring : (⟨z, p⟩ : Session).string = z.text)
    (haccepted : ed.state = .STATE_ACCEPTED ↔ ∃ line, p = .accepted line) : Mirrors ed ⟨z, p⟩ where
  cursor_le := h.cursor_le
  inputLen_le := h.inputLen_le
  paramLen_le := h.paramLen_le
  inside := h.inside
  terminated := hstring.symm ▸ h.terminated
  text := h.text.bytes
  inputLen := h.inputLen
  cursor := h.cursor
  accepted := haccepted

theorem Tracks.mirrors {s : Session} (h : Tracks ed s) : Mirrors ed s := by
  cases h with
  | nothing line state => exact line.mirrors rfl (by simp [state])
  | escape line state => exact line.mirrors rfl (by simp [state])
  | sequence line state _ _ => exact line.mirrors rfl (by simp [state])
  | accepted mirrors => exact mirrors

/-! ### Edits -/

/-- The byte at an index of the line is taken away, with `n` bytes behind it. -/
def LineEditor.eraseAt (ed : LineEditor) (i n : Nat) : LineEditor :=
  let ed := ed.moveInput i (i + 1) n
  let ed := { ed with inputLen := wordPred ed.inputLen }
  ed.storeInput ed.inputLen 0

/-- Everything but the cursor is as after an edit of the line. -/
structure HasText (ed : LineEditor) (str : List UInt8) : Prop where
  text : TextAt ed.inputBuf str
  inputLen : ed.inputLen = str.length
  inputLen_le : ed.inputLen ≤ BUF_SIZE - 1
  inside : ∀ t ∈ ed.touches, t.Inside

theorem HasLine.hasText (h : HasLine ed z) : HasText ed z.text := ⟨h.text, h.inputLen, h.inputLen_le, h.inside⟩

/-- A line with a cursor in it. -/
theorem HasText.hasLine (h : HasText ed z.text) (hcursor : ed.cursor = z.cursor)
    (hparamLen : ed.paramLen ≤ BUF_SIZE - 1) : HasLine ed z :=
  ⟨h.text, h.inputLen, hcursor, h.inputLen_le, hparamLen, h.inside⟩

/-- The bytes behind a part of the text. -/
theorem TextAt.behind {buf : Nat → UInt8} (h : TextAt buf (left ++ right)) : BytesAt buf left.length right := by
  have hright := (bytesAt_append.1 h.bytes).2
  rw [Nat.zero_add] at hright
  exact hright

theorem HasText.insert (h : HasText ed (left ++ right)) (hroom : ed.inputLen < BUF_SIZE - 1) :
    HasText
      { (ed.moveInput (left.length + 1) left.length right.length).storeInput left.length c with
        inputLen := wordSucc ed.inputLen }
      (left ++ c :: right) := by
  have hlength : ed.inputLen = left.length + right.length := by rw [h.inputLen, List.length_append]
  have hbuf : BUF_SIZE < wordSize := by decide
  have hsucc : wordSucc ed.inputLen = ed.inputLen + 1 := wordSucc_of_lt (n := BUF_SIZE) (by omega) hbuf
  have hmove := memmove_eq (left.length + 1) (by omega) h.text.behind
  constructor
  case text =>
    change TextAt (Function.update (memmove ed.inputBuf (left.length + 1) left.length right.length) left.length c) _
    rw [hmove]
    exact h.text.insert c
  case inputLen =>
    change wordSucc ed.inputLen = _
    rw [hsucc, List.length_append, List.length_cons]
    omega
  case inputLen_le =>
    change wordSucc ed.inputLen ≤ _
    omega
  case inside =>
    intro t ht
    simp only [LineEditor.storeInput, LineEditor.moveInput, LineEditor.touch, List.cons_append, List.nil_append,
      List.mem_cons] at ht
    rcases ht with rfl | rfl | rfl | hold
    · exact .inr (by simp only; omega)
    · exact .inr (by simp only; omega)
    · exact .inr (by simp only; omega)
    · exact h.inside t hold

theorem HasText.erase (h : HasText ed (left ++ a :: right)) :
    HasText (ed.eraseAt left.length right.length) (left ++ right) := by
  have hlength : ed.inputLen = left.length + right.length + 1 := by
    rw [h.inputLen, List.length_append, List.length_cons, Nat.add_assoc]
  have hle := h.inputLen_le
  have hbuf : BUF_SIZE < wordSize := by decide
  have hpred : wordPred ed.inputLen = left.length + right.length := by
    rw [wordPred_of_pos (by omega), hlength, Nat.add_sub_cancel]
  have hbehind : BytesAt ed.inputBuf (left.length + 1) right :=
    (bytesAt_append.1 (show BytesAt ed.inputBuf left.length ([a] ++ right) from h.text.behind)).2
  have hmove := memmove_eq left.length (by omega) hbehind
  constructor
  case text =>
    change TextAt (Function.update (memmove ed.inputBuf left.length (left.length + 1) right.length)
      (wordPred ed.inputLen) 0) _
    rw [hmove, hpred]
    exact h.text.erase
  case inputLen =>
    change wordPred ed.inputLen = _
    rw [hpred, List.length_append]
  case inputLen_le =>
    change wordPred ed.inputLen ≤ _
    omega
  case inside =>
    intro t ht
    simp only [LineEditor.eraseAt, LineEditor.storeInput, LineEditor.moveInput, LineEditor.touch, List.cons_append,
      List.nil_append, List.mem_cons] at ht
    rcases ht with rfl | rfl | rfl | hold
    · exact .inr (by simp only; omega)
    · exact .inr (by simp only; omega)
    · exact .inr (by simp only; omega)
    · exact h.inside t hold

/-- What is behind the cursor. -/
theorem HasLine.behind (h : HasLine ed z) : wordSub ed.inputLen ed.cursor = z.right.length := by
  rw [wordSub_of_le h.cursor_le (Nat.lt_of_le_of_lt h.inputLen_le (by decide)), h.cursor, h.inputLen, z.length_right]

/-- A byte that stands for itself is inserted at the cursor. -/
theorem HasLine.insert (h : HasLine ed z) (hroom : ed.inputLen < BUF_SIZE - 1) (hprint : isprint c) :
    HasLine (ed.handleGround c) (z.insert c) ∧ (ed.handleGround c).state = ed.state := by
  have hlt : ed.cursor < BUF_SIZE := by
    have hle := z.cursor_le
    rw [← h.inputLen, ← h.cursor] at hle
    omega
  have htext : HasText ed (z.left.reverse ++ z.right) := h.hasText
  have hinsert := htext.insert (c := c) hroom
  have hleft : z.left.length = ed.cursor := h.cursor.symm
  rw [List.length_reverse, hleft] at hinsert
  rw [LineEditor.handleGround, if_pos hprint, h.behind]
  refine ⟨HasText.hasLine ?_ ?_ h.paramLen_le, rfl⟩
  · rw [z.text_insert]
    exact ⟨hinsert.text, hinsert.inputLen, hinsert.inputLen_le, hinsert.inside⟩
  · change wordSucc ed.cursor = z.cursor + 1
    rw [wordSucc_of_lt hlt (by decide), h.cursor]

/-- A backspace takes away the byte before the cursor. -/
theorem HasLine.backspace (h : HasLine ed z) (hc : c = '\x08'.toUInt8 ∨ c = '\x7f'.toUInt8) :
    HasLine (ed.handleGround c) z.backspace ∧ (ed.handleGround c).state = ed.state := by
  have hprint : ¬isprint c := by rcases hc with rfl | rfl <;> decide
  have hesc : c ≠ '\x1b'.toUInt8 := by rcases hc with rfl | rfl <;> decide
  have haccept : ¬(c = '\r'.toUInt8 ∨ c = '\n'.toUInt8) := by rcases hc with rfl | rfl <;> decide
  rw [LineEditor.handleGround, if_neg hprint, if_neg hesc, if_neg haccept, if_pos hc]
  obtain ⟨left, right⟩ := z
  cases left with
  | nil =>
      have hstart : ed.cursor = 0 := h.cursor
      rw [if_pos hstart]
      exact ⟨h, rfl⟩
  | cons a left =>
      have hcursor : ed.cursor = left.length + 1 := h.cursor
      have htext : HasText ed (left.reverse ++ a :: right) := by
        have hsame : left.reverse ++ a :: right = (⟨a :: left, right⟩ : Zipper UInt8).text := by simp [Zipper.text]
        rw [hsame]
        exact h.hasText
      have herase := htext.erase
      rw [List.length_reverse] at herase
      have hbehind := h.behind
      rw [if_neg (by omega), hbehind, hcursor]
      refine ⟨HasText.hasLine ⟨herase.text, herase.inputLen, herase.inputLen_le, herase.inside⟩ ?_ h.paramLen_le, rfl⟩
      change wordPred ed.cursor = left.length
      rw [hcursor, wordPred_of_pos (Nat.succ_pos _)]
      rfl

/-- `^U` takes away the whole line. -/
theorem HasLine.clear (h : HasLine ed z) :
    HasLine (ed.handleGround ('U'.toUInt8 - '@'.toUInt8)) .empty ∧
      (ed.handleGround ('U'.toUInt8 - '@'.toUInt8)).state = ed.state := by
  rw [LineEditor.handleGround, if_neg (by decide), if_neg (by decide), if_neg (by decide), if_neg (by decide),
    if_pos rfl]
  refine ⟨?_, rfl⟩
  constructor
  case text =>
    change TextAt (writeBytes ed.inputBuf 0 (List.replicate ed.inputLen 0)) []
    rw [h.inputLen]
    exact h.text.clear
  case inputLen => rfl
  case cursor => rfl
  case inputLen_le => exact Nat.zero_le _
  case paramLen_le => exact h.paramLen_le
  case inside =>
    intro t ht
    rcases List.mem_cons.1 ht with rfl | hold
    · exact .inr (by rw [Nat.zero_add]; exact Nat.le_trans h.inputLen_le (Nat.sub_le _ _))
    · exact h.inside t hold

/-- `^D` accepts an empty line as another one. The code copies no zero behind it, but there is one. -/
theorem HasLine.endOfInput (h : HasLine ed z) (hstate : ed.state = .STATE_GROUND) :
    Tracks (ed.handleGround ('D'.toUInt8 - '@'.toUInt8)) (Session.byte z ('D'.toUInt8 - '@'.toUInt8)) := by
  rw [LineEditor.handleGround, if_neg (by decide), if_neg (by decide), if_neg (by decide), if_neg (by decide),
    if_neg (by decide), if_pos rfl]
  by_cases hempty : ed.inputLen = 0
  · have hnil : z.text = [] := List.eq_nil_of_length_eq_zero (h.inputLen.symm.trans hempty)
    have hbyte : Session.byte z ('D'.toUInt8 - '@'.toUInt8) = ⟨z, .accepted LineEditor.exitLine⟩ := by
      rw [Session.byte, if_neg (by decide), if_neg (by decide), if_pos ⟨by decide, hnil⟩]
    have hzero : ed.inputBuf 4 = 0 := h.text.blank 4 (by rw [hnil]; exact Nat.zero_le 4) (by decide)
    rw [if_pos hempty, hbyte]
    refine .accepted ?_
    constructor
    case cursor_le => exact h.cursor_le
    case inputLen_le => exact h.inputLen_le
    case paramLen_le => exact h.paramLen_le
    case inside =>
      intro t ht
      rcases List.mem_cons.1 ht with rfl | hold
      · decide
      · exact h.inside t hold
    case terminated =>
      change BytesAt (writeBytes ed.inputBuf 0 LineEditor.exitLine) 0 (LineEditor.exitLine ++ [0])
      refine bytesAt_append.2 ⟨bytesAt_writeBytes _ _ _, bytesAt_cons ?_ (bytesAt_nil _ _)⟩
      rw [writeBytes_outside (.inr (Nat.le_refl _))]
      exact hzero
    case text =>
      change BytesAt _ 0 z.text
      rw [hnil]
      exact bytesAt_nil _ _
    case inputLen => exact h.inputLen
    case cursor => exact h.cursor
    case accepted => simp
  · have hbyte : Session.byte z ('D'.toUInt8 - '@'.toUInt8) = ⟨z, .nothing⟩ := by
      have hne : z.text ≠ [] := fun hnil => hempty (by rw [h.inputLen, hnil]; rfl)
      rw [Session.byte, if_neg (by decide), if_neg (by decide), if_neg (fun hand => hne hand.2)]
      rfl
    rw [if_neg hempty, hbyte]
    exact .nothing h hstate

/-- A byte outside of escape sequences. -/
theorem HasLine.byte (h : HasLine ed z) (hstate : ed.state = .STATE_GROUND)
    (hroom : isprint c → ed.inputLen < BUF_SIZE - 1) : Tracks (ed.handleGround c) (Session.byte z c) := by
  by_cases hprint : isprint c
  · obtain ⟨hline, hsame⟩ := h.insert (hroom hprint) hprint
    rw [byte_of_isprint z hprint]
    exact .nothing hline (hsame.trans hstate)
  by_cases hesc : c = '\x1b'.toUInt8
  · subst hesc
    exact .escape { h with } rfl
  by_cases haccept : c = '\r'.toUInt8 ∨ c = '\n'.toUInt8
  · have hground : ed.handleGround c = { ed with state := .STATE_ACCEPTED } := by
      rw [LineEditor.handleGround, if_neg hprint, if_neg hesc, if_pos haccept]
    have hbyte : Session.byte z c = ⟨z, .accepted z.text⟩ := by rcases haccept with rfl | rfl <;> rfl
    have hline : HasLine { ed with state := .STATE_ACCEPTED } z := { h with }
    rw [hground, hbyte]
    exact .accepted (hline.mirrors rfl (by simp))
  by_cases hback : c = '\x08'.toUInt8 ∨ c = '\x7f'.toUInt8
  · obtain ⟨hline, hsame⟩ := h.backspace hback
    have hbyte : Session.byte z c = ⟨z.backspace, .nothing⟩ := by rcases hback with rfl | rfl <;> rfl
    rw [hbyte]
    exact .nothing hline (hsame.trans hstate)
  by_cases hclear : c = 'U'.toUInt8 - '@'.toUInt8
  · subst hclear
    obtain ⟨hline, hsame⟩ := h.clear
    exact .nothing hline (hsame.trans hstate)
  by_cases hend : c = 'D'.toUInt8 - '@'.toUInt8
  · subst hend
    exact h.endOfInput hstate
  -- the other control bytes do not change the line
  have hbyte : Session.byte z c = ⟨z, .nothing⟩ := by
    have hnot : ∀ n < 256, c ≠ UInt8.ofNat n → c.toNat ≠ n := fun n hn hne heq => hne ((byte_eq_iff hn).2 heq)
    rw [not_or] at haccept hback
    have h27 := hnot 27 (by decide) hesc
    have h13 := hnot 13 (by decide) haccept.1
    have h10 := hnot 10 (by decide) haccept.2
    have h4 := hnot 4 (by decide) hend
    have h8 := hnot 8 (by decide) hback.1
    have h127 := hnot 127 (by decide) hback.2
    have h21 := hnot 21 (by decide) hclear
    rw [Session.byte, if_neg h27, if_neg (by omega), if_neg (by omega), byteEdit, if_neg (isprint_iff.not.1 hprint),
      if_neg (by omega), if_neg h21]
    rfl
  rw [hbyte, LineEditor.handleGround, if_neg hprint, if_neg hesc, if_neg haccept, if_neg hback, if_neg hclear,
    if_neg hend]
  split
  · exact .nothing { h with } hstate
  · exact .nothing h hstate

/-- A byte behind `ESC`. -/
theorem HasLine.escape (h : HasLine ed z) (hroom : isprint c → c ≠ '['.toUInt8 → ed.inputLen < BUF_SIZE - 1) :
    Tracks (ed.handleStateEsc c) (Session.char ⟨z, .escape⟩ c) := by
  simp only [LineEditor.handleStateEsc, Session.char]
  split
  · exact .sequence { h with paramLen_le := Nat.zero_le _ } rfl (bytesAt_nil _ _) rfl
  · rename_i hother
    have hline : HasLine { ed with state := .STATE_GROUND } z := { h with }
    exact hline.byte rfl fun hprint => hroom hprint hother

end Lines

/-! ### Escape sequences -/

section Sequences

variable {ed : LineEditor} {z : Zipper UInt8} {params : List UInt8} {c : UInt8}

/-- A parameter byte is collected. -/
theorem HasLine.collect (h : HasLine ed z) (hstate : ed.state = .STATE_CSI) (hbuf : BytesAt ed.paramBuf 0 params)
    (hlen : ed.paramLen = params.length) (hroom : ed.paramLen < BUF_SIZE - 1) (hlow : charValue c < 0x40) :
    Tracks (ed.handleStateCsi c) ⟨z, .sequence (params ++ [c])⟩ := by
  have hsucc : wordSucc ed.paramLen = ed.paramLen + 1 :=
    wordSucc_of_lt (n := BUF_SIZE) (Nat.lt_of_lt_of_le hroom (Nat.sub_le _ _)) (by decide)
  rw [LineEditor.handleStateCsi, if_pos hlow]
  refine .sequence ?_ hstate ?_ ?_
  · constructor
    case text => exact h.text
    case inputLen => exact h.inputLen
    case cursor => exact h.cursor
    case inputLen_le => exact h.inputLen_le
    case paramLen_le =>
      change wordSucc ed.paramLen ≤ BUF_SIZE - 1
      omega
    case inside =>
      intro t ht
      rcases List.mem_cons.1 ht with rfl | hold
      · exact .inr (by simp only; omega)
      · exact h.inside t hold
  · change BytesAt (Function.update ed.paramBuf ed.paramLen c) 0 (params ++ [c])
    refine bytesAt_append.2 ⟨hbuf.congr fun x _ hx => ?_, bytesAt_cons ?_ (bytesAt_nil _ _)⟩
    · rw [Function.update_of_ne (by omega)]
    · rw [hlen, Nat.zero_add, Function.update_self]
  · change wordSucc ed.paramLen = _
    rw [hsucc, hlen, List.length_append, List.length_singleton]

/-- The string in `param_buf`, once it has its zero. -/
theorem params_of_bytesAt (h : BytesAt ed.paramBuf 0 (params ++ [0])) (hfits : params.length < BUF_SIZE) :
    ed.params = params.takeWhile (· ≠ 0) := by
  have hlength : (params ++ [0]).length = params.length + 1 := List.length_append
  have hrange : List.range BUF_SIZE =
      List.range (params ++ [0]).length ++
        (List.range (BUF_SIZE - (params ++ [0]).length)).map ((params ++ [0]).length + ·) := by
    rw [← List.range_add, Nat.add_sub_cancel' (by omega)]
  rw [LineEditor.params, hrange, List.map_append, map_range_of_bytesAt h, List.append_assoc]
  generalize List.map ed.paramBuf _ = rest
  clear hrange hlength hfits h
  induction params with
  | nil => simp
  | cons d params ih =>
      rw [List.cons_append, List.takeWhile_cons, List.takeWhile_cons]
      split
      · rw [ih]
      · rfl

/-- `ESC [ 3 ~` takes away the byte at the cursor. -/
theorem HasLine.delete (h : HasLine ed z) (hcode : FbConsole.atoi ed.params = 3)
    (hparams : ed.params.length < BUF_SIZE) : HasLine ed.handleCsiVt z.delete := by
  have hread : (Touch.mk .param 0 (ed.params.length + 1)).Inside := .inr (by simp only; omega)
  have htouched := h.touched (List.forall_mem_singleton.2 hread)
  simp only [LineEditor.handleCsiVt]
  rw [hcode, if_neg (by decide), if_neg (by decide), if_pos rfl]
  revert htouched
  generalize ed.touch [⟨.param, 0, ed.params.length + 1⟩] = u
  intro htouched
  have hbehind := htouched.behind
  have hle := htouched.cursor_le
  have hcount := z.length_right
  rw [← htouched.inputLen, ← htouched.cursor] at hcount
  obtain ⟨left, right⟩ := z
  cases right with
  | nil =>
      rw [List.length_nil] at hcount
      rw [if_neg (by omega)]
      exact htouched
  | cons a right =>
      have hcursor : u.cursor = left.length := htouched.cursor
      have htext : HasText u (left.reverse ++ a :: right) := htouched.hasText
      have herase := htext.erase
      rw [List.length_reverse, ← hcursor] at herase
      rw [List.length_cons] at hcount
      have hpred : wordPred (wordSub u.inputLen u.cursor) = right.length := by
        rw [hbehind, List.length_cons, wordPred_of_pos (Nat.succ_pos _)]
        rfl
      rw [if_pos (by omega), hpred]
      exact HasText.hasLine ⟨herase.text, herase.inputLen, herase.inputLen_le, herase.inside⟩ hcursor
        htouched.paramLen_le

theorem HasLine.home (h : HasLine ed z) : HasLine ed.onHome z.goHome :=
  HasText.hasLine ⟨h.text, h.inputLen, h.inputLen_le, h.inside⟩ rfl h.paramLen_le

theorem HasLine.end (h : HasLine ed z) : HasLine ed.onEnd z.goEnd := by
  refine HasText.hasLine ?_ ?_ h.paramLen_le
  · rw [z.text_goEnd]
    exact ⟨h.text, h.inputLen, h.inputLen_le, h.inside⟩
  · rw [z.cursor_goEnd]
    exact h.inputLen

theorem HasLine.right (h : HasLine ed z) :
    HasLine (if ed.cursor < ed.inputLen then { ed with cursor := wordSucc ed.cursor, dirty := true } else ed)
      z.goRight := by
  have hlt : ed.inputLen < wordSize := Nat.lt_of_le_of_lt h.inputLen_le (by decide)
  have hmoved : HasText ed z.goRight.text := z.text_goRight.symm ▸ h.hasText
  split
  · rename_i hinside
    refine HasText.hasLine ⟨hmoved.text, hmoved.inputLen, hmoved.inputLen_le, hmoved.inside⟩ ?_ h.paramLen_le
    change wordSucc ed.cursor = _
    rw [wordSucc_of_lt hinside hlt, z.cursor_goRight, ← h.inputLen, ← h.cursor, if_pos hinside]
  · rename_i hatend
    refine hmoved.hasLine ?_ h.paramLen_le
    rw [z.cursor_goRight, ← h.inputLen, ← h.cursor, if_neg hatend]

theorem HasLine.left (h : HasLine ed z) :
    HasLine (if ed.cursor > 0 then { ed with cursor := wordPred ed.cursor, dirty := true } else ed) z.goLeft := by
  have hmoved : HasText ed z.goLeft.text := z.text_goLeft.symm ▸ h.hasText
  split
  · rename_i hpos
    refine HasText.hasLine ⟨hmoved.text, hmoved.inputLen, hmoved.inputLen_le, hmoved.inside⟩ ?_ h.paramLen_le
    change wordPred ed.cursor = _
    rw [wordPred_of_pos hpos, z.cursor_goLeft, h.cursor]
  · rename_i hatstart
    refine hmoved.hasLine ?_ h.paramLen_le
    rw [z.cursor_goLeft, ← h.cursor]
    omega

/-- The edit of a sequence with a number. -/
theorem HasLine.numbered (h : HasLine ed z) (hparams : ed.params.length < BUF_SIZE) :
    HasLine ed.handleCsiVt (editLine z (numberedEdit (FbConsole.atoi ed.params))) := by
  by_cases hdelete : FbConsole.atoi ed.params = 3
  · have hline := h.delete hdelete hparams
    rw [hdelete]
    exact hline
  have hread : (Touch.mk .param 0 (ed.params.length + 1)).Inside := .inr (by simp only; omega)
  have htouched := h.touched (List.forall_mem_singleton.2 hread)
  simp only [LineEditor.handleCsiVt]
  split
  · rename_i hcode
    rcases hcode with hcode | hcode <;> rw [hcode] <;> exact htouched.home
  · rename_i hnothome
    split
    · rename_i hcode
      rcases hcode with hcode | hcode <;> rw [hcode] <;> exact htouched.end
    · rename_i hnotend
      have hnone : numberedEdit (FbConsole.atoi ed.params) = none := by
        rw [not_or] at hnothome hnotend
        unfold numberedEdit
        split
        · exact absurd ‹_› hnothome.1
        · exact absurd ‹_› hnothome.2
        · exact absurd ‹_› hnotend.1
        · exact absurd ‹_› hnotend.2
        · exact absurd ‹_› hdelete
        · rfl
      rw [hnone]
      exact htouched

/-- The last byte of a sequence. -/
theorem HasLine.sequenceEnd (h : HasLine ed z) (hbuf : BytesAt ed.paramBuf 0 params)
    (hlen : ed.paramLen = params.length) (hhigh : ¬charValue c < 0x40) :
    Tracks (ed.handleStateCsi c) ⟨editLine z (sequenceEdit params c), .nothing⟩ := by
  have hlt : ed.paramLen < BUF_SIZE := Nat.lt_of_le_of_lt h.paramLen_le (by decide)
  have hread : (Touch.mk .param ed.paramLen 1).Inside := .inr (by simp only; omega)
  have hstored : BytesAt (ed.storeParam ed.paramLen 0).paramBuf 0 (params ++ [0]) := by
    change BytesAt (Function.update ed.paramBuf ed.paramLen 0) 0 _
    refine bytesAt_append.2 ⟨hbuf.congr fun x _ hx => ?_, bytesAt_cons ?_ (bytesAt_nil _ _)⟩
    · rw [Function.update_of_ne (by omega)]
    · rw [hlen, Nat.zero_add, Function.update_self]
  have hline : HasLine (ed.storeParam ed.paramLen 0) z :=
    { h with inside := (h.touched (List.forall_mem_singleton.2 hread)).inside }
  have hparams := params_of_bytesAt hstored (by omega)
  rw [LineEditor.handleStateCsi, if_neg hhigh]
  revert hline hparams
  generalize ed.storeParam ed.paramLen 0 = u
  intro hline hparams
  -- the state is the only other thing that changes
  suffices hedit : ∀ u' : LineEditor, HasLine u' (editLine z (sequenceEdit params c)) →
      Tracks { u' with state := .STATE_GROUND } ⟨editLine z (sequenceEdit params c), .nothing⟩ by
    refine hedit _ ?_
    unfold sequenceEdit
    by_cases hright : c = 'C'.toUInt8
    · rw [if_pos hright, if_pos hright]
      exact hline.right
    by_cases hleft : c = 'D'.toUInt8
    · rw [if_neg hright, if_neg hright, if_pos hleft, if_pos hleft]
      exact hline.left
    by_cases hhome : c = 'H'.toUInt8
    · rw [if_neg hright, if_neg hright, if_neg hleft, if_neg hleft, if_pos hhome, if_pos hhome]
      exact hline.home
    by_cases hend : c = 'F'.toUInt8
    · rw [if_neg hright, if_neg hright, if_neg hleft, if_neg hleft, if_neg hhome, if_neg hhome, if_pos hend,
        if_pos hend]
      exact hline.end
    rw [if_neg hright, if_neg hright, if_neg hleft, if_neg hleft, if_neg hhome, if_neg hhome, if_neg hend, if_neg hend]
    split
    · rw [← atoi_params, ← hparams]
      refine hline.numbered ?_
      rw [hparams]
      exact Nat.lt_of_le_of_lt (List.takeWhile_sublist _).length_le (hlen ▸ hlt)
    · exact hline
  intro u' hu'
  exact .nothing { hu' with } rfl

/-- A byte inside a sequence. -/
theorem HasLine.sequence (h : HasLine ed z) (hstate : ed.state = .STATE_CSI) (hbuf : BytesAt ed.paramBuf 0 params)
    (hlen : ed.paramLen = params.length) (hroom : charValue c < 0x40 → ed.paramLen < BUF_SIZE - 1) :
    Tracks (ed.handleStateCsi c) (Session.char ⟨z, .sequence params⟩ c) := by
  simp only [Session.char]
  split
  · rename_i hlow
    have hlow' := charValue_lt_iff.2 hlow
    exact h.collect hstate hbuf hlen (hroom hlow') hlow'
  · rename_i hhigh
    exact h.sequenceEnd hbuf hlen (charValue_lt_iff.not.2 hhigh)

end Sequences

/-! ### Runs -/

section Runs

variable {ed ed' : LineEditor} {s : Session} {e : EditorEvent}

/-- A buffer that has been cleared holds an empty line. -/
theorem hasLine_clearInput (ed : LineEditor) {n : Nat} (hn : n = BUF_SIZE) (hparamLen : ed.paramLen ≤ BUF_SIZE - 1)
    (hinside : ∀ t ∈ ed.touches, t.Inside) :
    HasLine { ed.clearInput n with inputLen := 0, cursor := 0, dirty := true } .empty := by
  constructor
  case text =>
    refine ⟨bytesAt_nil _ _, fun i _ hlt => ?_⟩
    have hzero := bytesAt_writeBytes ed.inputBuf 0 (List.replicate n 0) i (by rw [List.length_replicate, hn]; exact hlt)
    rw [Nat.zero_add, List.getElem_replicate] at hzero
    exact hzero
  case inputLen => rfl
  case cursor => rfl
  case inputLen_le => exact Nat.zero_le _
  case paramLen_le => exact hparamLen
  case inside =>
    intro t ht
    rcases List.mem_cons.1 ht with rfl | hold
    · exact .inr (by rw [Nat.zero_add, hn])
    · exact hinside t hold

/-- `read_input` starts with an empty line. -/
theorem tracks_readInput (hparamLen : ed.paramLen ≤ BUF_SIZE - 1) (hinside : ∀ t ∈ ed.touches, t.Inside) :
    Tracks ed.readInput {} := by
  have hline : HasLine ed.readInput .empty :=
    hasLine_clearInput { ed with state := .STATE_GROUND } rfl hparamLen hinside
  exact .nothing hline rfl

/-- An event with room keeps the editor and its session together. -/
theorem tracks_step (h : Tracks ed s) (hroom : HasRoom ed e) (hstep : lineEditing.step ed e ed') :
    Tracks ed' (s.next e) := by
  cases e with
  | readInput =>
      obtain ⟨-, rfl⟩ := hstep
      exact tracks_readInput h.mirrors.paramLen_le h.mirrors.inside
  | onChar c =>
      have hchar : ed.onChar c = some ed' := hstep
      cases h with
      | nothing line state =>
          simp only [LineEditor.onChar, state, Option.some.injEq] at hchar
          simp only [HasRoom, state] at hroom
          exact hchar ▸ line.byte state hroom
      | escape line state =>
          simp only [LineEditor.onChar, state, Option.some.injEq] at hchar
          simp only [HasRoom, state] at hroom
          exact hchar ▸ line.escape hroom
      | sequence line state paramBuf paramLen =>
          simp only [LineEditor.onChar, state, Option.some.injEq] at hchar
          simp only [HasRoom, state] at hroom
          exact hchar ▸ line.sequence state paramBuf paramLen hroom
      | accepted mirrors =>
          have state := mirrors.accepted.2 ⟨_, rfl⟩
          simp [LineEditor.onChar, state] at hchar

/-- A length that is still inside after it has been increased. -/
theorem lt_of_wordSucc_le {len : Nat} (hle : len ≤ BUF_SIZE - 1) (hsucc : wordSucc len ≤ BUF_SIZE - 1) :
    len < BUF_SIZE - 1 := by
  have hlt : len < BUF_SIZE := Nat.lt_of_le_of_lt hle (by decide)
  rw [wordSucc_of_lt hlt (by decide)] at hsucc
  exact hsucc

theorem inputLen_handleGround {c : UInt8} (hprint : isprint c) :
    (ed.handleGround c).inputLen = wordSucc ed.inputLen := by
  rw [LineEditor.handleGround, if_pos hprint]
  rfl

/-- After an event without room, the line or the parameters fill up their buffer. -/
theorem hasRoom_of_mirrors {s' : Session} (h : Mirrors ed s) (hstep : lineEditing.step ed e ed')
    (hafter : Mirrors ed' s') : HasRoom ed e := by
  cases e with
  | readInput => trivial
  | onChar c =>
      have hchar : ed.onChar c = some ed' := hstep
      have hinput := hafter.inputLen_le
      have hparam := hafter.paramLen_le
      cases hstate : ed.state with
      | STATE_GROUND =>
          simp only [LineEditor.onChar, hstate, Option.some.injEq] at hchar
          simp only [HasRoom, hstate]
          intro hprint
          rw [← hchar, inputLen_handleGround hprint] at hinput
          exact lt_of_wordSucc_le h.inputLen_le hinput
      | STATE_ESC =>
          simp only [LineEditor.onChar, hstate, Option.some.injEq] at hchar
          simp only [HasRoom, hstate]
          intro hprint hother
          rw [← hchar, LineEditor.handleStateEsc, if_neg hother, inputLen_handleGround hprint] at hinput
          exact lt_of_wordSucc_le h.inputLen_le hinput
      | STATE_CSI =>
          simp only [LineEditor.onChar, hstate, Option.some.injEq] at hchar
          simp only [HasRoom, hstate]
          intro hlow
          rw [← hchar, LineEditor.handleStateCsi, if_pos hlow] at hparam
          exact lt_of_wordSucc_le h.paramLen_le hparam
      | STATE_ACCEPTED => simp only [HasRoom, hstate]

theorem tracks_init {p : LineEditor × Session} (hinit : lineSession.init p) : Tracks p.1 p.2 := by
  obtain ⟨hed, hs⟩ := hinit
  have hstart : p.1 = LineEditor.readInput {} := hed
  rw [hstart, hs]
  exact tracks_readInput (Nat.zero_le _) (by simp)

/-- In every run from the first line on, the editor mirrors its session in all states exactly when no event fills up a
    buffer. -/
theorem line_editing_iff {p q : LineEditor × Session} {xs : List (Transition (LineEditor × Session) EditorEvent)}
    (hinit : lineSession.init p) (run : lineSession.Run p xs q) :
    (Mirrors p.1 p.2 ∧ ∀ x ∈ xs, Mirrors x.after.1 x.after.2) ↔ ∀ x ∈ xs, HasRoom x.before.1 x.event := by
  have keeps : ∀ p e p', Tracks p.1 p.2 → HasRoom p.1 e → lineSession.step p e p' → Tracks p'.1 p'.2 := by
    intro p e p' h hroom hstep
    rw [hstep.2]
    exact tracks_step h hroom hstep.1
  have hstart := tracks_init hinit
  have hrun := run.guarded_iff (fun _ _ p' => Mirrors p'.1 p'.2) keeps
    (fun p e p' h hroom hstep => (keeps p e p' h hroom hstep).mirrors)
    (fun p e p' h hstep hafter => hasRoom_of_mirrors h.mirrors hstep.1 hafter) hstart
  exact ⟨fun h => hrun.1 h.2, fun h => ⟨hstart.mirrors, hrun.2 h⟩⟩

end Runs

/-! ### Typed lines -/

section Typed

/-- The editor and its session before the first byte. -/
def blankLine : LineEditor × Session := (LineEditor.readInput {}, {})

theorem lineSession_init : lineSession.init blankLine := ⟨rfl, rfl⟩

/-- One more byte that stands for itself, at the end of the line. -/
theorem types_byte {ed : LineEditor} {z : Zipper UInt8} {c : UInt8} (h : HasLine ed z)
    (hstate : ed.state = .STATE_GROUND) (hroom : ed.inputLen < BUF_SIZE - 1) (hprint : isprint c) :
    ∃ ed', lineSession.step (ed, ⟨z, .nothing⟩) (.onChar c) (ed', ⟨z.insert c, .nothing⟩) ∧ HasLine ed' (z.insert c) ∧
      ed'.state = .STATE_GROUND := by
  obtain ⟨hline, hsame⟩ := h.insert hroom hprint
  have hchar : ed.onChar c = some (ed.handleGround c) := by rw [LineEditor.onChar, hstate]
  exact ⟨ed.handleGround c, ⟨hchar, (byte_of_isprint z hprint).symm⟩, hline, hsame.trans hstate⟩

/-- A line that fits can be typed. -/
theorem types_line {cs : List UInt8} (hprint : ∀ c ∈ cs, isprint c) (hfits : cs.length ≤ BUF_SIZE - 1) :
    ∃ xs ed, lineSession.Run blankLine xs (ed, ⟨⟨cs.reverse, []⟩, .nothing⟩) ∧
      xs.map Transition.event = cs.map EditorEvent.onChar ∧ (∀ x ∈ xs, HasRoom x.before.1 x.event) ∧
      HasLine ed ⟨cs.reverse, []⟩ ∧ ed.state = .STATE_GROUND := by
  induction cs using List.reverseRecOn with
  | nil =>
      have hline : HasLine (LineEditor.readInput {}) ⟨[], []⟩ :=
        hasLine_clearInput {} rfl (Nat.zero_le _) (by simp)
      exact ⟨[], LineEditor.readInput {}, .nil _, rfl, by simp, hline, rfl⟩
  | append_singleton cs c ih =>
      rw [List.length_append, List.length_singleton] at hfits
      obtain ⟨xs, ed, run, hevents, hroom, hline, hstate⟩ :=
        ih (fun c hc => hprint c (List.mem_append_left _ hc)) (by omega)
      have hlength : ed.inputLen = cs.length := by
        rw [hline.inputLen, Zipper.length_text, List.length_reverse]
        rfl
      obtain ⟨ed', hstep, hline', hstate'⟩ := types_byte hline hstate (by omega) (hprint c (by simp))
      have hsame : (⟨cs.reverse, []⟩ : Zipper UInt8).insert c = ⟨(cs ++ [c]).reverse, []⟩ := by
        simp [Zipper.insert]
      rw [hsame] at hstep hline'
      refine ⟨_, ed', run.snoc hstep, by simp [hevents], ?_, hline', hstate'⟩
      intro x hx
      rcases List.mem_append.1 hx with hx | hx
      · exact hroom x hx
      · obtain rfl := List.mem_singleton.1 hx
        simp only [HasRoom, hstate]
        intro _
        omega

/-- A short line is edited as it should be. -/
theorem line_editing_short :
    ∃ xs q, lineSession.Run blankLine xs q ∧
      xs.map Transition.event = ['l'.toUInt8, 's'.toUInt8].map EditorEvent.onChar ∧
      (Mirrors blankLine.1 blankLine.2 ∧ ∀ x ∈ xs, Mirrors x.after.1 x.after.2) := by
  have hprint : ∀ c ∈ ['l'.toUInt8, 's'.toUInt8], isprint c := List.forall_iff_forall_mem.1 (by decide)
  obtain ⟨xs, ed, run, hevents, hroom, -⟩ := types_line hprint (by decide)
  exact ⟨xs, _, run, hevents, (line_editing_iff lineSession_init run).2 hroom⟩

/-- The byte that fills up the buffer is inserted. -/
theorem line_editing_overfills :
    ∃ xs q, lineSession.Run blankLine xs q ∧
      xs.map Transition.event = List.replicate BUF_SIZE (EditorEvent.onChar 'a'.toUInt8) ∧
      ¬(Mirrors blankLine.1 blankLine.2 ∧ ∀ x ∈ xs, Mirrors x.after.1 x.after.2) := by
  have hletter : isprint 'a'.toUInt8 := by decide
  have hprint : ∀ c ∈ List.replicate (BUF_SIZE - 1) 'a'.toUInt8, isprint c := by
    intro c hc
    rw [List.eq_of_mem_replicate hc]
    exact hletter
  obtain ⟨xs, ed, run, hevents, -, hline, hstate⟩ := types_line hprint (List.length_replicate ..).le
  have hchar : ed.onChar 'a'.toUInt8 = some (ed.handleGround 'a'.toUInt8) := by rw [LineEditor.onChar, hstate]
  have hlength : ed.inputLen = BUF_SIZE - 1 := by
    rw [hline.inputLen, Zipper.length_text, List.length_reverse, List.length_replicate]
    rfl
  have hstep : lineSession.step (ed, ⟨⟨(List.replicate (BUF_SIZE - 1) 'a'.toUInt8).reverse, []⟩, .nothing⟩)
      (.onChar 'a'.toUInt8) (ed.handleGround 'a'.toUInt8, _) := ⟨hchar, rfl⟩
  refine ⟨_, _, run.snoc hstep, ?_, ?_⟩
  · have hone : BUF_SIZE = BUF_SIZE - 1 + 1 := rfl
    rw [hone, List.replicate_succ', List.map_append, hevents, List.map_replicate]
    rfl
  · rintro ⟨-, hmirrors⟩
    have hlast := List.forall_mem_singleton.1 (List.forall_mem_append.1 hmirrors).2
    have hroom := hasRoom_of_mirrors (Tracks.nothing hline hstate).mirrors hstep.1 hlast
    simp only [HasRoom, hstate] at hroom
    exact absurd (hroom hletter) (hlength ▸ Nat.lt_irrefl _)

end Typed

end Sh

end Chaotix
