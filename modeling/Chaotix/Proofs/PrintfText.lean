/-
Module: Chaotix.Proofs.PrintfText
Layer: Proofs
Purpose: `vsnprintf` prints what the standard says, for formats of literal characters and the conversions `%%`, `%c`,
  `%s`, `%d`, `%i`, `%u` and `%x`, numbers with an optional flag `0` and a width of one digit. There are three
  exceptions: an unsigned number with its highest bit set is printed as a negative one, the zeros of a flag stand before the sign of a negative
  number, and a letter `x` behind a number turns into a prefix of it. Where one of them occurs in a format, its output
  is a different one, whatever follows.
Imports: Chaotix.Proofs.PrintfBounds
Trusted boundary: human-reviewed statement of the standard output of the conversions
Main exports: Piece, Piece.standardText, standardText, StandardPieces, standardText_eq_iff, vsnprintf_standard_iff,
  vsnprintf_standard_breaks
-/
import Chaotix.Proofs.PrintfBounds

open Program

namespace Chaotix

namespace Stdio

/-! ### Formats and their standard output -/

/-- The conversions of numbers. -/
inductive NumberKind where
  | d
  | i
  | u
  | x
deriving DecidableEq, Repr

/-- The last character of a conversion. -/
def NumberKind.ch : NumberKind → UInt8
  | .d => 100
  | .i => 105
  | .u => 117
  | .x => 120

/-- The pieces of a format, with their arguments. The width 0 stands for none. -/
inductive Piece where
  | literal (ch : UInt8) (plain : ch ≠ 0 ∧ ch ≠ 37)
  | percent
  | character (value : BitVec 32)
  | string (str : CString)
  | number (flag0 : Bool) (width : Fin 10) (kind : NumberKind) (value : BitVec 32)

/-- What a piece looks like in a format. -/
def Piece.spelling : Piece → List UInt8
  | .literal ch _ => [ch]
  | .percent => [37, 37]
  | .character _ => [37, 99]
  | .string _ => [37, 115]
  | .number flag0 width kind _ =>
      37 :: ((if flag0 then [48] else []) ++ (if width = 0 then [] else [UInt8.ofNat (48 + width.val)]) ++ [kind.ch])

/-- The argument of a piece. -/
def Piece.args : Piece → List Arg
  | .literal _ _ => []
  | .percent => []
  | .character value => [.int value]
  | .string str => [.str (some str)]
  | .number _ _ _ value => [.int value]

/-- The sign of a number in a conversion. -/
def NumberKind.sign (kind : NumberKind) (value : BitVec 32) : List UInt8 :=
  match kind with
  | .d | .i => if value.toInt < 0 then [45] else []
  | .u | .x => []

/-- The digits of a number in a conversion. -/
def NumberKind.digits (kind : NumberKind) (value : BitVec 32) : List UInt8 :=
  match kind with
  | .d | .i => numeral 10 value.toInt.natAbs
  | .u => numeral 10 value.toNat
  | .x => numeral 16 value.toNat

/-- What the standard says that a piece prints. Numbers are padded on the left to the width, with zeros between the sign
    and the digits or with spaces before the sign. -/
def Piece.standardText : Piece → List UInt8
  | .literal ch _ => [ch]
  | .percent => [37]
  | .character value => [UInt8.ofNat (value.toNat % 256)]
  | .string str => str.chars
  | .number flag0 width kind value =>
      let fill := width.val - ((kind.sign value).length + (kind.digits value).length)
      if flag0 then kind.sign value ++ List.replicate fill 48 ++ kind.digits value
      else List.replicate fill 32 ++ kind.sign value ++ kind.digits value

def standardText (pieces : List Piece) : List UInt8 := pieces.flatMap Piece.standardText

theorem Piece.spelling_noNul (p : Piece) : ∀ c ∈ p.spelling, c ≠ 0 := by
  cases p with
  | literal ch plain =>
      intro c hc
      rw [List.mem_singleton.1 hc]
      exact plain.1
  | percent => exact List.forall_iff_forall_mem.1 (by decide : [37, 37].Forall (· ≠ (0 : UInt8)))
  | character value => exact List.forall_iff_forall_mem.1 (by decide : [37, 99].Forall (· ≠ (0 : UInt8)))
  | string str => exact List.forall_iff_forall_mem.1 (by decide : [37, 115].Forall (· ≠ (0 : UInt8)))
  | number flag0 width kind value =>
      have hall : ∀ (flag0 : Bool) (width : Fin 10) (kind : NumberKind),
          (Piece.number flag0 width kind value).spelling.all (· ≠ 0) = true := by
        intro flag0 width kind
        cases kind <;> revert flag0 width <;> simp only [Piece.spelling, NumberKind.ch] <;> decide
      intro c hc
      simpa using List.all_eq_true.1 (hall flag0 width kind) c hc

/-- The format of some pieces. -/
def formatOf (pieces : List Piece) : CString where
  chars := pieces.flatMap Piece.spelling
  noNul c hc := by
    obtain ⟨p, -, hp⟩ := List.mem_flatMap.1 hc
    exact p.spelling_noNul c hp

/-- The arguments of some pieces. -/
def argsOf (pieces : List Piece) : List Arg := pieces.flatMap Piece.args

/-! ### What the code prints -/

/-- The piece behind a conversion is the letter `x`. -/
def beforeX : List Piece → Bool
  | .literal ch _ :: _ => ch = 120
  | _ => false

def Piece.isNumber : Piece → Bool
  | .number _ _ _ _ => true
  | _ => false

/-- The directive of a piece, which can be followed by the letter `x`. -/
def Piece.directive : Piece → Bool → Directive
  | .literal ch _, _ => .char ch
  | .percent, _ => .char 37
  | .character _, _ => .character
  | .string _, _ => .string
  | .number flag0 width kind _, next => .number flag0 width.val kind.ch next

/-- The directives that are read, where the first piece can have been read with the one before it. -/
def pieceDirectives : Bool → List Piece → List Directive
  | _, [] => []
  | true, _ :: rest => pieceDirectives false rest
  | false, p :: rest => p.directive (beforeX rest) :: pieceDirectives (p.isNumber && beforeX rest) rest

/-- What the code prints for a piece. -/
def Piece.codeText : Piece → Bool → List UInt8
  | .literal ch _, _ => [ch]
  | .percent, _ => [37]
  | .character value, _ => [UInt8.ofNat (value.toNat % 256)]
  | .string str, _ => str.chars
  | .number flag0 width _ value, true => 48 :: 120 :: padded flag0 width.val (itoaText value 16)
  | .number flag0 width kind value, false =>
      padded flag0 width.val (itoaText value (if kind.ch = 120 then 16 else 10))

/-- What the code prints, where the first piece can have been read with the one before it. -/
def codeText : Bool → List Piece → List UInt8
  | _, [] => []
  | true, _ :: rest => codeText false rest
  | false, p :: rest => p.codeText (beforeX rest) ++ codeText (p.isNumber && beforeX rest) rest

/-- The pieces that are left when the first one can have been read with the one before it. -/
def unread : Bool → List Piece → List Piece
  | true, pieces => pieces.tail
  | false, pieces => pieces

section Reading

/-- The bytes of a format behind a piece. -/
def bytesOf (pieces : List Piece) : List UInt8 := pieces.flatMap Piece.spelling ++ [0]

theorem bytesOf_cons (p : Piece) (rest : List Piece) : bytesOf (p :: rest) = p.spelling ++ bytesOf rest := by
  rw [bytesOf, List.flatMap_cons, List.append_assoc]
  rfl

/-- The letter `x` is there exactly when the next piece is. -/
theorem readChar_bytesOf (pieces : List Piece) :
    ∃ next rest, readChar (bytesOf pieces) = .ok (next, rest) ∧ bytesOf pieces = next :: rest ∧
      (next = 120 ↔ beforeX pieces = true) ∧ (beforeX pieces = true → rest = bytesOf pieces.tail) := by
  cases pieces with
  | nil => exact ⟨0, [], rfl, rfl, by decide, nofun⟩
  | cons p rest =>
      rw [bytesOf_cons]
      cases p with
      | literal ch plain => exact ⟨ch, _, rfl, rfl, by simp [beforeX], fun _ => rfl⟩
      | percent => exact ⟨37, _, rfl, rfl, by simp [beforeX], nofun⟩
      | character value => exact ⟨37, _, rfl, rfl, by simp [beforeX], nofun⟩
      | string str => exact ⟨37, _, rfl, rfl, by simp [beforeX], nofun⟩
      | number flag0 width kind value => exact ⟨37, _, rfl, rfl, by simp [beforeX], nofun⟩

/-- A conversion of a number reads the letter `x` behind it as well. -/
theorem readConversion_number (pad0 : Bool) (padLen : Nat) (kind : NumberKind) (rest : List Piece) :
    readConversion pad0 padLen kind.ch (bytesOf rest) =
      .ok (.number pad0 padLen kind.ch (beforeX rest), bytesOf (unread (beforeX rest) rest)) := by
  obtain ⟨next, left, hread, -, hx, hleft⟩ := readChar_bytesOf rest
  have hkind : kind.ch ≠ 99 ∧ (kind.ch = 100 ∨ kind.ch = 105 ∨ kind.ch = 117 ∨ kind.ch = 120 ∨ kind.ch = 35) := by
    cases kind <;> decide
  rw [readConversion, if_neg hkind.1, if_pos hkind.2, hread]
  dsimp only
  cases hbefore : beforeX rest with
  | true => rw [if_pos (hx.2 hbefore), hleft hbefore, unread]
  | false => rw [if_neg (fun hnext => by rw [hx.1 hnext] at hbefore; cases hbefore), unread]

/-- The digit of a width. -/
theorem widthDigit : ∀ width : Fin 10, width ≠ 0 →
    48 ≤ UInt8.ofNat (48 + width.val) ∧ UInt8.ofNat (48 + width.val) ≤ 57 ∧ UInt8.ofNat (48 + width.val) ≠ 37 ∧
      UInt8.ofNat (48 + width.val) ≠ 48 ∧ (UInt8.ofNat (48 + width.val)).toNat - 48 = width.val := by
  decide

/-- Behind the flag, the width and the last character of a conversion are read. -/
theorem readWidth_number (pad0 : Bool) (width : Fin 10) (kind : NumberKind) (rest : List Piece) :
    ∃ ch left, (if width = 0 then [] else [UInt8.ofNat (48 + width.val)]) ++ [kind.ch] ++ bytesOf rest = ch :: left ∧
      ch ≠ 37 ∧ ch ≠ 48 ∧
      readWidth pad0 ch left =
        .ok (.number pad0 width.val kind.ch (beforeX rest), bytesOf (unread (beforeX rest) rest)) := by
  have hkind : kind.ch ≠ 37 ∧ kind.ch ≠ 48 ∧ ¬(48 ≤ kind.ch ∧ kind.ch ≤ 57) := by
    cases kind <;> decide
  by_cases hwidth : width = 0
  · refine ⟨kind.ch, bytesOf rest, ?_, hkind.1, hkind.2.1, ?_⟩
    · rw [if_pos hwidth]
      rfl
    · rw [readWidth, if_neg hkind.2.2, readConversion_number, hwidth]
      rfl
  · obtain ⟨hlow, hhigh, hpercent, hzero, hvalue⟩ := widthDigit width hwidth
    refine ⟨_, kind.ch :: bytesOf rest, ?_, hpercent, hzero, ?_⟩
    · rw [if_neg hwidth]
      rfl
    · rw [readWidth, if_pos ⟨hlow, hhigh⟩, hvalue]
      exact readConversion_number pad0 width.val kind rest

/-- Reading a piece gives its directive. -/
theorem readDirective_piece (p : Piece) (rest : List Piece) :
    readDirective (p.spelling ++ bytesOf rest) =
      .ok (p.directive (beforeX rest), bytesOf (unread (p.isNumber && beforeX rest) rest)) := by
  cases p with
  | literal ch plain => simp [readDirective, readChar, Piece.spelling, plain, Piece.directive, Piece.isNumber, unread]
  | percent => rfl
  | character value => rfl
  | string str => rfl
  | number flag0 width kind value =>
      obtain ⟨ch, left, hbytes, hpercent, hzero, hwidth⟩ := readWidth_number flag0 width kind rest
      cases flag0 with
      | false =>
          have hspelling : (Piece.number false width kind value).spelling ++ bytesOf rest = 37 :: ch :: left := by
            rw [← hbytes]
            rfl
          rw [hspelling]
          refine Eq.trans ?_ hwidth
          simp [readDirective, readChar, hpercent, hzero]
      | true =>
          have hspelling : (Piece.number true width kind value).spelling ++ bytesOf rest = 37 :: 48 :: ch :: left := by
            rw [← hbytes]
            rfl
          rw [hspelling]
          refine Eq.trans ?_ hwidth
          simp [readDirective, readChar]

theorem directive_ne_finish (p : Piece) (next : Bool) : p.directive next ≠ .finish := by
  cases p <;> exact nofun

/-- A format of pieces is read as their directives, up to its terminator. -/
theorem readAll_bytesOf {fuel : Nat} (skip : Bool) (pieces : List Piece)
    (hfuel : (bytesOf (unread skip pieces)).length < fuel) :
    readAll fuel (bytesOf (unread skip pieces)) = (pieceDirectives skip pieces, false) := by
  induction pieces generalizing skip fuel with
  | nil =>
      obtain ⟨fuel, rfl⟩ := Nat.exists_eq_succ_of_ne_zero (Nat.ne_of_gt (Nat.zero_lt_of_lt hfuel))
      cases skip <;> exact readAll_finish rfl
  | cons p rest ih =>
      cases skip with
      | true => exact ih false hfuel
      | false =>
          obtain ⟨fuel, rfl⟩ := Nat.exists_eq_succ_of_ne_zero (Nat.ne_of_gt (Nat.zero_lt_of_lt hfuel))
          rw [unread, bytesOf_cons] at hfuel ⊢
          have hread := readDirective_piece p rest
          have hless := readDirective_length hread
          rw [readAll_cons hread (directive_ne_finish p _), ih _ (by omega)]
          rfl

/-- The letter that is read with a number has no argument. -/
theorem argsOf_unread (isNumber : Bool) (rest : List Piece) :
    argsOf (unread (isNumber && beforeX rest) rest) = argsOf rest := by
  cases hskip : isNumber && beforeX rest with
  | false => rfl
  | true =>
      cases rest with
      | nil => rfl
      | cons p rest =>
          cases p with
          | literal ch plain => rfl
          | _ => simp [beforeX] at hskip

theorem text_piece (p : Piece) (next : Bool) (args : List Arg) :
    (p.directive next).text (p.args ++ args) = some (p.codeText next, args) := by
  cases p with
  | number flag0 width kind value => cases next <;> rfl
  | _ => rfl

/-- The output of the directives is what the code prints. -/
theorem outputOf_pieces (skip : Bool) (pieces : List Piece) :
    outputOf (pieceDirectives skip pieces) (argsOf (unread skip pieces)) = some (codeText skip pieces) := by
  induction pieces generalizing skip with
  | nil => cases skip <;> rfl
  | cons p rest ih =>
      cases skip with
      | true => exact ih false
      | false =>
          have hargs : argsOf (unread false (p :: rest)) = p.args ++ argsOf rest := List.flatMap_cons
          rw [pieceDirectives, hargs, outputOf, text_piece, ← argsOf_unread p.isNumber rest]
          dsimp only
          rw [ih]
          rfl

end Reading

/-! ### Where the code differs -/

/-- Numbers that the code prints as the standard says: no unsigned one with its highest bit set, and no negative one that
    is padded with zeros. -/
def Piece.Standard : Piece → Prop
  | .number flag0 width kind value =>
      match kind with
      | .d | .i => flag0 = true → value.toInt < 0 → width.val ≤ 1 + (numeral 10 value.toInt.natAbs).length
      | .u => value.toNat < 2 ^ 31
      | .x => True
  | _ => True

/-- Pieces that the code prints as the standard says: no number is followed by the letter `x` either. -/
def StandardPieces : List Piece → Prop
  | [] => True
  | p :: rest => p.Standard ∧ (p.isNumber && beforeX rest) = false ∧ StandardPieces rest

instance : (p : Piece) → Decidable p.Standard
  | .number flag0 width .d value =>
      inferInstanceAs (Decidable (flag0 = true → value.toInt < 0 → width.val ≤ 1 + (numeral 10 value.toInt.natAbs).length))
  | .number flag0 width .i value =>
      inferInstanceAs (Decidable (flag0 = true → value.toInt < 0 → width.val ≤ 1 + (numeral 10 value.toInt.natAbs).length))
  | .number _ _ .u value => inferInstanceAs (Decidable (value.toNat < 2 ^ 31))
  | .number _ _ .x _ => isTrue trivial
  | .literal _ _ => isTrue trivial
  | .percent => isTrue trivial
  | .character _ => isTrue trivial
  | .string _ => isTrue trivial

instance : (pieces : List Piece) → Decidable (StandardPieces pieces)
  | [] => isTrue trivial
  | p :: rest =>
      have : Decidable (StandardPieces rest) := instDecidableStandardPieces rest
      inferInstanceAs (Decidable (p.Standard ∧ (p.isNumber && beforeX rest) = false ∧ StandardPieces rest))

section Compare

/-- The magnitude of a negative number. -/
theorem toNat_neg_of_toInt_neg {value : BitVec 32} (h : value.toInt < 0) : (-value).toNat = value.toInt.natAbs := by
  rw [BitVec.toInt_eq_toNat_cond] at h ⊢
  rw [BitVec.toNat_neg]
  have hlt := value.isLt
  split at h
  · omega
  · rename_i hhalf
    rw [if_neg hhalf]
    omega

theorem natAbs_of_toInt_nonneg {value : BitVec 32} (h : ¬value.toInt < 0) : value.toInt.natAbs = value.toNat := by
  rw [BitVec.toInt_eq_toNat_cond] at h ⊢
  have hlt := value.isLt
  split at h
  · rename_i hhalf
    rw [if_pos hhalf]
    rfl
  · omega

theorem toInt_neg_iff (value : BitVec 32) : value.toInt < 0 ↔ 2 ^ 31 ≤ value.toNat := by
  rw [BitVec.toInt_eq_toNat_cond]
  have hlt := value.isLt
  split <;> omega

/-- The number that the code prints without a prefix. -/
theorem itoaText_kind (kind : NumberKind) (value : BitVec 32) :
    itoaText value (if kind.ch = 120 then 16 else 10) =
      match kind with
      | .x => numeral 16 value.toNat
      | _ => if value.toInt < 0 then 45 :: numeral 10 value.toInt.natAbs else numeral 10 value.toInt.natAbs := by
  have hdecimal : itoaText value 10 =
      if value.toInt < 0 then 45 :: numeral 10 value.toInt.natAbs else numeral 10 value.toInt.natAbs := by
    rw [itoaText_eq value (.inl rfl)]
    by_cases hneg : value.toInt < 0
    · rw [if_pos ⟨rfl, hneg⟩, if_pos hneg, toNat_neg_of_toInt_neg hneg]
    · rw [if_neg (fun h => hneg h.2), if_neg hneg, natAbs_of_toInt_nonneg hneg]
  cases kind with
  | d => exact hdecimal
  | i => exact hdecimal
  | u => exact hdecimal
  | x =>
      change itoaText value 16 = _
      rw [itoaText_eq value (.inr rfl), if_neg (fun h => absurd h.1 (by decide))]

/-- Without its highest bit, an unsigned number has its sign and its digits as the others have. -/
theorem itoaText_standard {kind : NumberKind} {value : BitVec 32} (h : kind = .u → value.toNat < 2 ^ 31) :
    itoaText value (if kind.ch = 120 then 16 else 10) = kind.sign value ++ kind.digits value := by
  rw [itoaText_kind]
  cases kind with
  | d =>
      simp only [NumberKind.sign, NumberKind.digits]
      split <;> rfl
  | i =>
      simp only [NumberKind.sign, NumberKind.digits]
      split <;> rfl
  | u =>
      have hpos : ¬value.toInt < 0 := by
        rw [toInt_neg_iff, Nat.not_le]
        exact h rfl
      simp only [if_neg hpos, natAbs_of_toInt_nonneg hpos]
      rfl
  | x => rfl

/-- A piece that is not followed by the letter `x` is printed as the standard says. -/
theorem codeText_of_standard {p : Piece} (h : p.Standard) : p.codeText false = p.standardText := by
  cases p with
  | number flag0 width kind value =>
      have hunsigned : kind = .u → value.toNat < 2 ^ 31 := by
        rintro rfl
        exact h
      simp only [Piece.codeText, Piece.standardText, padded]
      rw [itoaText_standard hunsigned, List.length_append]
      cases flag0 with
      | false => simp
      | true =>
          -- there is no sign, or there are no zeros
          have hsign : kind.sign value = [] ∨ width.val - ((kind.sign value).length + (kind.digits value).length) = 0 := by
            cases kind with
            | d =>
                by_cases hneg : value.toInt < 0
                · have hle := h rfl hneg
                  right
                  simp only [NumberKind.sign, NumberKind.digits, if_pos hneg, List.length_singleton]
                  omega
                · exact .inl (if_neg hneg)
            | i =>
                by_cases hneg : value.toInt < 0
                · have hle := h rfl hneg
                  right
                  simp only [NumberKind.sign, NumberKind.digits, if_pos hneg, List.length_singleton]
                  omega
                · exact .inl (if_neg hneg)
            | u => exact .inl rfl
            | x => exact .inl rfl
          rcases hsign with hsign | hfill
          · simp [hsign]
          · simp [hfill]
  | _ => rfl

/-- What the code prints first for a negative number, also behind zeros: a zero, a space or the sign, and a zero when it
    pads with zeros. -/
theorem head_negative (k : Nat) (pad0 : Bool) (padLen : Nat) (digits rest : List UInt8) :
    ∃ c cs, List.replicate k 48 ++ (padded pad0 padLen (45 :: digits) ++ rest) = c :: cs ∧ (c = 48 ∨ c = 32 ∨ c = 45) ∧
      (pad0 = true → (45 :: digits).length < padLen → c = 48) := by
  cases k with
  | succ k => exact ⟨48, _, rfl, .inl rfl, fun _ _ => rfl⟩
  | zero =>
      unfold padded
      cases hfill : padLen - (45 :: digits).length with
      | zero => exact ⟨45, _, rfl, .inr (.inr rfl), fun _ hlt => by omega⟩
      | succ fill =>
          cases pad0 with
          | true => exact ⟨48, _, rfl, .inl rfl, fun _ _ => rfl⟩
          | false => exact ⟨32, _, rfl, .inr (.inl rfl), nofun⟩

/-- A negative number that is padded with zeros: the standard begins with the sign, and the code with a zero. -/
theorem ne_of_padded_sign {width : Nat} {digits rest rest' : List UInt8} (hwidth : 1 + digits.length < width) (k n : Nat) :
    [45] ++ List.replicate n 48 ++ digits ++ rest ≠
      List.replicate k 48 ++ (padded true width (45 :: digits) ++ rest') := by
  obtain ⟨c, cs, hcons, -, hzero⟩ := head_negative k true width digits rest'
  rw [hcons, hzero rfl (by rw [List.length_cons]; omega)]
  intro heq
  have hhead := (List.cons.inj heq).1
  revert hhead
  decide

/-- An unsigned number with its highest bit set: the standard begins with a digit above zero. -/
theorem ne_of_unsigned {value : BitVec 32} (hvalue : 2 ^ 31 ≤ value.toNat) (k : Nat) (pad0 : Bool) (padLen : Nat)
    (digits rest rest' : List UInt8) :
    numeral 10 value.toNat ++ rest ≠ List.replicate k 48 ++ (padded pad0 padLen (45 :: digits) ++ rest') := by
  obtain ⟨d, ds, hpos, hlt, hnumeral⟩ := head_numeral (by decide : 1 < 10) (by omega : 0 < value.toNat)
  obtain ⟨c, cs, hcons, hc, -⟩ := head_negative k pad0 padLen digits rest'
  rw [hcons, hnumeral]
  intro heq
  have hhead := congrArg UInt8.toNat (List.cons.inj heq).1
  rw [toNat_digitByte (by omega), if_pos hlt] at hhead
  rcases hc with rfl | rfl | rfl
  · simp at hhead
    omega
  · simp at hhead
  · simp at hhead

/-- A piece that is printed in another way starts with another character than the standard says, also behind zeros. -/
theorem ne_of_not_standard {p : Piece} (h : ¬p.Standard) (k : Nat) (rest rest' : List UInt8) :
    p.standardText ++ rest ≠ List.replicate k 48 ++ (p.codeText false ++ rest') := by
  cases p with
  | number flag0 width kind value =>
      have hsigned : ∀ kind : NumberKind, (kind = .d ∨ kind = .i) →
          ¬(flag0 = true → value.toInt < 0 → width.val ≤ 1 + (numeral 10 value.toInt.natAbs).length) →
          (Piece.number flag0 width kind value).standardText ++ rest ≠
            List.replicate k 48 ++ ((Piece.number flag0 width kind value).codeText false ++ rest') := by
        intro kind hkind hnot
        have hnot : flag0 = true ∧ value.toInt < 0 ∧ 1 + (numeral 10 value.toInt.natAbs).length < width.val := by
          refine ⟨?_, ?_, ?_⟩
          · by_contra hflag
            exact hnot fun hflag' => absurd hflag' hflag
          · by_contra hneg
            exact hnot fun _ hneg' => absurd hneg' hneg
          · by_contra hle
            exact hnot fun _ _ => Nat.le_of_not_lt hle
        obtain ⟨rfl, hneg, hwidth⟩ := hnot
        simp only [Piece.standardText, Piece.codeText]
        rw [itoaText_kind]
        rcases hkind with rfl | rfl
        · simp only [NumberKind.sign, NumberKind.digits, if_pos hneg]
          exact ne_of_padded_sign hwidth k _
        · simp only [NumberKind.sign, NumberKind.digits, if_pos hneg]
          exact ne_of_padded_sign hwidth k _
      cases kind with
      | d => exact hsigned .d (.inl rfl) h
      | i => exact hsigned .i (.inr rfl) h
      | u =>
          have hvalue : 2 ^ 31 ≤ value.toNat := Nat.le_of_not_lt h
          have hlength : 9 < (numeral 10 value.toNat).length := length_numeral_gt (by decide) (by omega)
          have hfill : width.val - (([] : List UInt8).length + (numeral 10 value.toNat).length) = 0 := by
            have hwidth := width.isLt
            rw [List.length_nil]
            omega
          have hstandard : (Piece.number flag0 width .u value).standardText = numeral 10 value.toNat := by
            simp only [Piece.standardText, NumberKind.sign, NumberKind.digits, hfill]
            cases flag0 <;> rfl
          rw [hstandard, Piece.codeText, itoaText_kind]
          simp only [if_pos ((toInt_neg_iff value).2 hvalue)]
          exact ne_of_unsigned hvalue k flag0 width.val _ rest rest'
      | x => exact absurd trivial h
  | _ => exact absurd trivial h

/-- Common text in front does not change how many zeros there are. -/
theorem shift_zeros {w rest rest' : List UInt8} {k : Nat} (h : w ++ rest = List.replicate k 48 ++ (w ++ rest')) :
    rest = List.replicate k 48 ++ rest' := by
  induction w generalizing k with
  | nil => exact h
  | cons c w ih =>
      cases k with
      | zero =>
          apply ih (k := 0)
          exact (List.cons.inj h).2
      | succ k =>
          obtain ⟨rfl, htail⟩ := List.cons.inj h
          have htail : w ++ rest = List.replicate k 48 ++ (48 :: (w ++ rest')) := htail
          apply ih (k := k + 1)
          rw [htail, List.replicate_succ', List.append_assoc]
          rfl

/-- The letter `x` is no digit. -/
theorem notMem_digits (kind : NumberKind) (value : BitVec 32) : (120 : UInt8) ∉ kind.digits value := by
  have hnumeral : ∀ radix n, 1 < radix → radix ≤ 16 → (120 : UInt8) ∉ numeral radix n := by
    intro radix n hradix hle hmem
    obtain ⟨d, hd, heq⟩ := mem_numeral hradix hmem
    have hbyte := congrArg UInt8.toNat heq
    rw [toNat_digitByte (Nat.lt_of_lt_of_le hd hle)] at hbyte
    split at hbyte
    · simp at hbyte
      omega
    · simp at hbyte
      omega
  cases kind with
  | d => exact hnumeral 10 _ (by decide) (by decide)
  | i => exact hnumeral 10 _ (by decide) (by decide)
  | u => exact hnumeral 10 _ (by decide) (by decide)
  | x => exact hnumeral 16 _ (by decide) (by decide)

theorem notMem_standardText (flag0 : Bool) (width : Fin 10) (kind : NumberKind) (value : BitVec 32) :
    (120 : UInt8) ∉ (Piece.number flag0 width kind value).standardText := by
  have hdigits := notMem_digits kind value
  have hsign : (120 : UInt8) ∉ kind.sign value := by
    cases kind <;> simp only [NumberKind.sign] <;> first | exact List.not_mem_nil | (split <;> decide)
  simp only [Piece.standardText]
  split <;> simp [hdigits, hsign, List.mem_replicate]

/-- A number that is printed as zeros is zero. -/
theorem eq_zero_of_zeros {flag0 : Bool} {width : Fin 10} {kind : NumberKind} {value : BitVec 32} {k : Nat}
    (h : (Piece.number flag0 width kind value).standardText = List.replicate k 48) : value = 0 := by
  have hzeros : ∀ c ∈ kind.digits value, c = 48 := by
    intro c hc
    refine List.eq_of_mem_replicate (h ▸ ?_ : c ∈ List.replicate k 48)
    simp only [Piece.standardText]
    split <;> simp [hc]
  have hnumeral : ∀ radix n, 1 < radix → radix ≤ 16 → (∀ c ∈ numeral radix n, c = 48) → n = 0 := by
    intro radix n hradix hle hall
    exact numeral_eq_replicate hradix hle (List.eq_replicate_iff.2 ⟨rfl, hall⟩)
  have hword : value.toNat = 0 → value = 0 := fun hzero => BitVec.eq_of_toNat_eq hzero
  have hint : value.toInt.natAbs = 0 → value = 0 := fun hzero => BitVec.eq_of_toInt_eq (Int.natAbs_eq_zero.1 hzero)
  cases kind with
  | d => exact hint (hnumeral 10 _ (by decide) (by decide) hzeros)
  | i => exact hint (hnumeral 10 _ (by decide) (by decide) hzeros)
  | u => exact hword (hnumeral 10 _ (by decide) (by decide) hzeros)
  | x => exact hword (hnumeral 16 _ (by decide) (by decide) hzeros)

/-- Zero is printed with its padding by the standard as it is by the code behind a prefix. -/
theorem standardText_zero (flag0 : Bool) (width : Fin 10) (kind : NumberKind) :
    (Piece.number flag0 width kind 0).codeText true = 48 :: 120 :: (Piece.number flag0 width kind 0).standardText := by
  have hitoa : itoaText 0 16 = [48] := by
    rw [itoaText_eq 0 (.inr rfl), if_neg (by decide)]
    rfl
  have hzero : kind.sign 0 = [] ∧ kind.digits 0 = [48] := by
    cases kind <;> exact ⟨rfl, rfl⟩
  simp only [Piece.codeText, Piece.standardText, padded, hitoa, hzero]
  cases flag0 <;> simp

/-- Two texts are cut in one way in front of the first letter of a kind. -/
theorem eq_of_cut {ch : UInt8} {w w' rest rest' : List UInt8} (hw : ch ∉ w) (hw' : ch ∉ w')
    (h : w ++ ch :: rest = w' ++ ch :: rest') : w = w' ∧ rest = rest' := by
  induction w generalizing w' with
  | nil =>
      cases w' with
      | nil => exact ⟨rfl, (List.cons.inj h).2⟩
      | cons c w' => exact absurd ((List.cons.inj h).1 ▸ List.mem_cons_self) hw'
  | cons c w ih =>
      cases w' with
      | nil => exact absurd ((List.cons.inj h).1 ▸ List.mem_cons_self) hw
      | cons c' w' =>
          obtain ⟨rfl, htail⟩ := List.cons.inj h
          obtain ⟨rfl, hrest⟩ := ih (fun hmem => hw (List.mem_cons_of_mem c hmem))
            (fun hmem => hw' (List.mem_cons_of_mem c hmem)) htail
          exact ⟨rfl, hrest⟩

/-- A number in front of the letter `x` that looks like a prefix is zero, so that its padding and its digit come again
    behind the prefix. -/
theorem zeros_of_prefix {flag0 : Bool} {width : Fin 10} {kind : NumberKind} {value : BitVec 32} {k : Nat}
    {rest rest' : List UInt8}
    (h : (Piece.number flag0 width kind value).standardText ++ 120 :: rest =
      List.replicate k 48 ++ ((Piece.number flag0 width kind value).codeText true ++ rest')) :
    rest = List.replicate (k + 1) 48 ++ rest' := by
  have hbehind : List.replicate k 48 ++ ((Piece.number flag0 width kind value).codeText true ++ rest') =
      List.replicate (k + 1) 48 ++ 120 :: (padded flag0 width.val (itoaText value 16) ++ rest') := by
    rw [List.replicate_succ', List.append_assoc]
    rfl
  rw [hbehind] at h
  have hnot : (120 : UInt8) ∉ List.replicate (k + 1) (48 : UInt8) := by
    rw [List.mem_replicate]
    rintro ⟨-, heq⟩
    revert heq
    decide
  obtain ⟨hzeros, hrest⟩ := eq_of_cut (notMem_standardText flag0 width kind value) hnot h
  obtain rfl := eq_zero_of_zeros hzeros
  have hagain : padded flag0 width.val (itoaText 0 16) = (Piece.number flag0 width kind 0).standardText :=
    (List.cons.inj (List.cons.inj (standardText_zero flag0 width kind)).2).2
  rw [hrest, hagain, hzeros]

/-- Only a number looks at the piece behind it. -/
theorem codeText_alone {p : Piece} {rest : List Piece} (h : (p.isNumber && beforeX rest) = false) :
    codeText false (p :: rest) = p.codeText false ++ codeText false rest := by
  rw [codeText, h]
  cases p with
  | number flag0 width kind value =>
      have hbefore : beforeX rest = false := by simpa [Piece.isNumber] using h
      rw [hbefore]
  | _ => rfl

/-- The number and the letter that are read together. -/
theorem exists_of_beforeX {p : Piece} {rest : List Piece} (h : (p.isNumber && beforeX rest) = true) :
    ∃ flag0 width kind value plain rest', p = .number flag0 width kind value ∧ rest = .literal 120 plain :: rest' := by
  rw [Bool.and_eq_true] at h
  cases p with
  | number flag0 width kind value =>
      cases rest with
      | nil => exact absurd h.2 (by decide)
      | cons q rest' =>
          cases q with
          | literal ch plain =>
              obtain rfl : ch = 120 := of_decide_eq_true h.2
              exact ⟨flag0, width, kind, value, plain, rest', rfl, rfl⟩
          | _ => exact absurd h.2 Bool.false_ne_true
  | _ => exact absurd h.1 Bool.false_ne_true

theorem codeText_of_standardPieces {pieces : List Piece} (h : StandardPieces pieces) :
    codeText false pieces = standardText pieces := by
  induction pieces with
  | nil => rfl
  | cons p rest ih =>
      obtain ⟨hp, hx, hrest⟩ := h
      rw [codeText_alone hx, codeText_of_standard hp, ih hrest]
      rfl

/-- If the output is the standard one, also behind zeros, then there are no zeros, and no piece is printed in another
    way. -/
theorem standardPieces_of_zeros {pieces : List Piece} {k : Nat}
    (h : standardText pieces = List.replicate k 48 ++ codeText false pieces) : k = 0 ∧ StandardPieces pieces := by
  induction hlength : pieces.length using Nat.strong_induction_on generalizing pieces k with
  | _ n ih =>
      cases pieces with
      | nil =>
          have hnil : List.replicate k (48 : UInt8) = [] := (List.append_eq_nil_iff.1 h.symm).1
          exact ⟨by simpa using hnil, trivial⟩
      | cons p rest =>
          rw [List.length_cons] at hlength
          have hcons : standardText (p :: rest) = p.standardText ++ standardText rest := List.flatMap_cons
          rw [hcons] at h
          cases hx : p.isNumber && beforeX rest with
          | true =>
              obtain ⟨flag0, width, kind, value, plain, rest', rfl, rfl⟩ := exists_of_beforeX hx
              have hzeros := zeros_of_prefix h
              have hnone := (ih rest'.length (by rw [List.length_cons] at hlength; omega) hzeros rfl).1
              exact absurd hnone (Nat.succ_ne_zero k)
          | false =>
              rw [codeText_alone hx] at h
              by_cases hp : p.Standard
              · rw [codeText_of_standard hp] at h
                obtain ⟨hk, hrest⟩ := ih rest.length (by omega) (shift_zeros h) rfl
                exact ⟨hk, hp, hx, hrest⟩
              · exact absurd h (ne_of_not_standard hp k _ _)

/-- The output is the standard one exactly when every piece is printed as the standard says. -/
theorem standardText_eq_iff (pieces : List Piece) : standardText pieces = codeText false pieces ↔ StandardPieces pieces :=
  ⟨fun h => (standardPieces_of_zeros (k := 0) h).2, fun h => (codeText_of_standardPieces h).symm⟩

end Compare

/-! ### The theorem -/

theorem bytesOf_eq (pieces : List Piece) : formatBytes (formatOf pieces) = bytesOf pieces := rfl

/-- The call prints the standard output, with a terminator, and returns its length. -/
def PrintsStandard (pieces : List Piece) (value : Nat) (b : PrintBuffer) : Prop :=
  value = (standardText pieces).length ∧ BytesAt b.mem 0 (standardText pieces ++ [0])

section Printing

variable {pieces : List Piece} {size : Nat} {b : PrintBuffer}

/-- A format of pieces is not cut off. -/
theorem not_cutOff_formatOf (pieces : List Piece) : ¬CutOff (formatBytes (formatOf pieces)) := by
  have hread : readAll ((formatBytes (formatOf pieces)).length + 1) (formatBytes (formatOf pieces)) =
      (pieceDirectives false pieces, false) := readAll_bytesOf false pieces (Nat.lt_succ_self _)
  rw [CutOff, hread]
  exact Bool.false_ne_true

/-- What is printed for a format of pieces. -/
theorem outputOf_formatOf (pieces : List Piece) :
    outputOf (directives (formatBytes (formatOf pieces))) (argsOf pieces) = some (codeText false pieces) := by
  have hread : readAll ((formatBytes (formatOf pieces)).length + 1) (formatBytes (formatOf pieces)) =
      (pieceDirectives false pieces, false) := readAll_bytesOf false pieces (Nat.lt_succ_self _)
  rw [directives, hread]
  exact outputOf_pieces false pieces

theorem standardPieces_of_prints (hsize : (standardText pieces).length < size) (hwritten : b.written = [])
    (hprints : Yields (vsnprintf storeAt size (formatBytes (formatOf pieces)) (argsOf pieces)) b (PrintsStandard pieces)) :
    StandardPieces pieces := by
  have hpos : 1 ≤ size := by omega
  have hout := outputOf_formatOf pieces
  rw [← standardText_eq_iff]
  by_cases hover : Overruns size (formatBytes (formatOf pieces)) (argsOf pieces)
  · obtain ⟨value, b', hreturn, hvalue, -⟩ := yields_iff.1 (vsnprintf_overruns (b := b) hpos hout hover)
    have hlength := (hprints.and_return hreturn).1
    omega
  · obtain ⟨value, b', hreturn, hlaw, -⟩ := yields_iff.1
      (vsnprintf_law hpos hout hover (fun h => absurd h (not_cutOff_formatOf pieces)) hwritten)
    obtain ⟨hvalue, hbytes⟩ := hprints.and_return hreturn
    have hlt : value < size := by omega
    have hlength := hlaw.length hlt
    have hsame := eq_of_bytesAt hbytes (hlaw.stored.1 hlt).2 (by rw [List.length_append, List.length_append]; omega)
    exact List.append_cancel_right hsame

theorem prints_of_standardPieces (hsize : (standardText pieces).length < size) (hwritten : b.written = [])
    (h : StandardPieces pieces) :
    Yields (vsnprintf storeAt size (formatBytes (formatOf pieces)) (argsOf pieces)) b (PrintsStandard pieces) := by
  have hpos : 1 ≤ size := by omega
  have hout := outputOf_formatOf pieces
  rw [codeText_of_standardPieces h] at hout
  have hroom : ¬Overruns size (formatBytes (formatOf pieces)) (argsOf pieces) := fun hover => by
    have hlt := hover.size_lt hpos hout
    omega
  apply (vsnprintf_law hpos hout hroom (fun h => absurd h (not_cutOff_formatOf pieces)) hwritten).mono
  rintro value b' ⟨hlaw, hvalue⟩
  have hlt : value < size := by omega
  exact ⟨hlaw.length hlt, (hlaw.stored.1 hlt).2⟩

end Printing

/-- In a buffer that is large enough, the standard output is printed exactly when no unsigned number has its highest bit
    set, no negative number is padded with zeros, and no number is followed by the letter `x`. -/
theorem vsnprintf_standard_iff (pieces : List Piece) (size : Nat) (b : PrintBuffer)
    (hsize : (standardText pieces).length < size) (hwritten : b.written = []) :
    Yields (vsnprintf storeAt size (formatBytes (formatOf pieces)) (argsOf pieces)) b (PrintsStandard pieces) ↔
      StandardPieces pieces :=
  ⟨standardPieces_of_prints hsize hwritten, prints_of_standardPieces hsize hwritten⟩

/-- The format `[%05d|%x]` with the largest number and 255. -/
def somePieces : List Piece :=
  [.literal 91 (by decide), .number true 5 .d 2147483647, .literal 124 (by decide), .number false 0 .x 255,
    .literal 93 (by decide)]

theorem vsnprintf_standard_some :
    Yields (vsnprintf storeAt 32 (formatBytes (formatOf somePieces)) (argsOf somePieces)) someBuffer
      (PrintsStandard somePieces) :=
  (vsnprintf_standard_iff somePieces 32 someBuffer (by decide) rfl).2 (by decide)

/-- `%u` prints 4294967295 as -1, `%05d` prints -7 as 000-7, and `%dx` prints 5 as 0x5. -/
theorem vsnprintf_standard_breaks :
    (¬Yields (vsnprintf storeAt 64 (formatBytes (formatOf [.number false 0 .u 4294967295])) [.int 4294967295]) someBuffer
        (PrintsStandard [.number false 0 .u 4294967295])) ∧
      codeText false [.number false 0 .u 4294967295] = [45, 49] ∧
      codeText false [.number true 5 .d (-7)] = [48, 48, 48, 45, 55] ∧
      codeText false [.number false 0 .d 5, .literal 120 (by decide)] = [48, 120, 53] := by
  refine ⟨fun hprints => ?_, rfl, rfl, rfl⟩
  have hstandard := standardPieces_of_prints (by decide) rfl hprints
  revert hstandard
  decide

end Stdio

end Chaotix
