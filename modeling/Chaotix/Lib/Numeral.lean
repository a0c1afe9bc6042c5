/-
Module: Chaotix.Lib.Numeral
Layer: Lib
Purpose: Numerals in a radix up to sixteen, as bytes: the digits of a number from the highest to the lowest, without
  leading zeros. A loop that divides by the radix finds the digits from the lowest on, and exchanging bytes from both
  ends inwards turns a text around in place. Reading digits from the highest on may wrap in each step or at the end.
Imports: Mathlib.Data.Nat.Digits.Defs, Mathlib.Data.Nat.Digits.Lemmas, Chaotix.Lib.ByteMem
Trusted boundary: none
Main exports: digitByte, numeral, lowFirst, lowFirst_step, numeral_ne_nil, mem_numeral, head_numeral, length_numeral_gt,
  decimalValue, foldl_decimal_wrap, reverseLoop, bytesAt_reverseLoop
-/
import Mathlib.Data.Nat.Digits.Defs
import Mathlib.Data.Nat.Digits.Lemmas
import Chaotix.Lib.ByteMem

/-! ### Digits -/

/-- The digits `0123456789abcdef`. -/
def digitByte (d : Nat) : UInt8 := if d < 10 then UInt8.ofNat (d + 48) else UInt8.ofNat (d - 10 + 97)

/-- The digits of a number from the lowest on. -/
def lowFirst (radix n : Nat) : List UInt8 := if n = 0 then [digitByte 0] else (Nat.digits radix n).map digitByte

/-- The numeral of a number. -/
def numeral (radix n : Nat) : List UInt8 := (lowFirst radix n).reverse

section Digits

variable {radix n d : Nat}

/-- A digit as a natural number. -/
theorem toNat_digitByte (h : d < 16) : (digitByte d).toNat = if d < 10 then d + 48 else d + 87 := by
  unfold digitByte
  split
  · rw [UInt8.toNat_ofNat']
    omega
  · rw [UInt8.toNat_ofNat']
    omega

/-- The lowest digit, and the digits of the rest. -/
theorem lowFirst_step (hradix : 1 < radix) (n : Nat) :
    lowFirst radix n = digitByte (n % radix) :: if n / radix = 0 then [] else lowFirst radix (n / radix) := by
  unfold lowFirst
  by_cases hn : n = 0
  · simp [hn]
  · rw [if_neg hn, Nat.digits_def' hradix (Nat.pos_of_ne_zero hn), List.map_cons]
    split
    · rename_i hzero
      rw [hzero, Nat.digits_zero, List.map_nil]
    · rfl

theorem lowFirst_ne_nil (hradix : 1 < radix) (n : Nat) : lowFirst radix n ≠ [] := by
  rw [lowFirst_step hradix]
  exact List.cons_ne_nil _ _

theorem numeral_ne_nil (hradix : 1 < radix) (n : Nat) : numeral radix n ≠ [] := by
  rw [numeral, ne_eq, List.reverse_eq_nil_iff]
  exact lowFirst_ne_nil hradix n

/-- A numeral consists of digits. -/
theorem mem_numeral (hradix : 1 < radix) {c : UInt8} (h : c ∈ numeral radix n) : ∃ d < radix, c = digitByte d := by
  rw [numeral, List.mem_reverse] at h
  unfold lowFirst at h
  split at h
  · exact ⟨0, by omega, List.mem_singleton.1 h⟩
  · obtain ⟨d, hd, rfl⟩ := List.mem_map.1 h
    exact ⟨d, Nat.digits_lt_base hradix hd, rfl⟩

/-- The numeral of a number above zero starts with a digit above zero. -/
theorem head_numeral (hradix : 1 < radix) (hn : 0 < n) :
    ∃ d rest, 0 < d ∧ d < radix ∧ numeral radix n = digitByte d :: rest := by
  have hne : Nat.digits radix n ≠ [] := Nat.digits_ne_nil_iff_ne_zero.2 (Nat.ne_of_gt hn)
  refine ⟨(Nat.digits radix n).getLast hne, ((Nat.digits radix n).dropLast.map digitByte).reverse, ?_, ?_, ?_⟩
  · exact Nat.pos_of_ne_zero (Nat.getLast_digit_ne_zero radix (Nat.ne_of_gt hn))
  · exact Nat.digits_lt_base hradix (List.getLast_mem hne)
  · rw [numeral, lowFirst, if_neg (Nat.ne_of_gt hn)]
    conv_lhs => rw [← List.dropLast_append_getLast hne]
    rw [List.map_append, List.map_singleton, List.reverse_append, List.reverse_singleton, List.singleton_append]

theorem length_numeral_gt (hradix : 1 < radix) {k : Nat} (h : radix ^ k ≤ n) : k < (numeral radix n).length := by
  have hpos : n ≠ 0 := Nat.ne_of_gt (Nat.lt_of_lt_of_le (Nat.pow_pos (by omega)) h)
  rw [numeral, List.length_reverse, lowFirst, if_neg hpos, List.length_map]
  by_contra hle
  exact absurd (Nat.lt_of_lt_of_le (Nat.lt_base_pow_length_digits hradix)
    (Nat.pow_le_pow_right (by omega) (Nat.le_of_not_lt hle))) (Nat.not_lt_of_le h)

theorem length_lowFirst_le (hradix : 1 < radix) {k : Nat} (hk : 0 < k) (h : n < radix ^ k) :
    (lowFirst radix n).length ≤ k := by
  unfold lowFirst
  split
  · exact hk
  · rw [List.length_map]
    exact (Nat.digits_length_le_iff hradix n).2 h

/-- A numeral without a digit above zero is the one of zero. -/
theorem numeral_eq_replicate (hradix : 1 < radix) (hle : radix ≤ 16) {k : Nat}
    (h : numeral radix n = List.replicate k (digitByte 0)) : n = 0 := by
  by_contra hn
  obtain ⟨d, rest, hd, hlt, heq⟩ := head_numeral hradix (Nat.pos_of_ne_zero hn)
  have hmem : digitByte d ∈ List.replicate k (digitByte 0) := by
    rw [← h, heq]
    exact List.mem_cons_self
  have hsame := congrArg UInt8.toNat (List.eq_of_mem_replicate hmem)
  rw [toNat_digitByte (by omega), toNat_digitByte (by decide)] at hsame
  split at hsame <;> simp at hsame
  omega

end Digits

/-! ### Reading digits -/

/-- The number that decimal digits stand for; no digits stand for zero. -/
def decimalValue (digits : List UInt8) : Nat := digits.foldl (fun value d => value * 10 + (d.toNat - 48)) 0

/-- A number that wraps at each digit is the number that wraps at the end. -/
theorem foldl_decimal_wrap (w : Nat) (digits : List UInt8) :
    digits.foldl (fun value d => (value * 10 + (d.toNat - 48)) % w) 0 = decimalValue digits % w := by
  have hwrap : ∀ value, digits.foldl (fun value d => (value * 10 + (d.toNat - 48)) % w) (value % w) =
      digits.foldl (fun value d => value * 10 + (d.toNat - 48)) value % w := by
    induction digits with
    | nil => exact fun _ => rfl
    | cons d digits ih =>
        intro value
        rw [List.foldl_cons, List.foldl_cons, ← ih, Nat.add_mod, Nat.mod_mul_mod, ← Nat.add_mod]
  have hzero := hwrap 0
  rw [Nat.zero_mod] at hzero
  exact hzero

/-! ### Turning a text around -/

/-- Exchange the ends of a range of memory, and go inwards. -/
def reverseLoop : Nat → Nat → Nat → (Nat → UInt8) → Nat → UInt8
  | 0, _, _, str => str
  | fuel + 1, p1, p2, str =>
      if p1 < p2 then
        reverseLoop fuel (p1 + 1) (p2 - 1) (Function.update (Function.update str p1 (str p2)) p2 (str p1))
      else str

/-- Every byte of the range is read from the other end of it. -/
theorem reverseLoop_apply {fuel p1 p2 : Nat} (str : Nat → UInt8) (hfuel : p2 ≤ p1 + fuel) (x : Nat) :
    reverseLoop fuel p1 p2 str x = if p1 ≤ x ∧ x ≤ p2 then str (p1 + p2 - x) else str x := by
  induction fuel generalizing p1 p2 str with
  | zero =>
      rw [reverseLoop]
      split
      · rw [show p1 + p2 - x = x by omega]
      · rfl
  | succ fuel ih =>
      rw [reverseLoop]
      split
      · rename_i hlt
        rw [ih _ (by omega)]
        by_cases hlow : x = p1
        · rw [if_neg (by omega), if_pos (by omega), Function.update_of_ne (by omega), hlow, Function.update_self]
          congr 1
          omega
        · by_cases hhigh : x = p2
          · rw [if_neg (by omega), if_pos (by omega), hhigh, Function.update_self]
            congr 1
            omega
          · split
            · rw [if_pos (by omega), Function.update_of_ne (by omega), Function.update_of_ne (by omega)]
              congr 1
              omega
            · rw [if_neg (by omega), Function.update_of_ne hhigh, Function.update_of_ne hlow]
      · split
        · congr 1
          omega
        · rfl

/-- A text that lies in the range is turned around. -/
theorem bytesAt_reverseLoop {fuel p : Nat} {str : Nat → UInt8} {cs : List UInt8} (h : BytesAt str p cs)
    (hfuel : cs.length ≤ fuel) : BytesAt (reverseLoop fuel p (p + cs.length - 1) str) p cs.reverse := by
  intro i hi
  rw [List.length_reverse] at hi
  rw [reverseLoop_apply str (by omega), if_pos (by omega), List.getElem_reverse,
    show p + (p + cs.length - 1) - (p + i) = p + (cs.length - 1 - i) by omega]
  exact h _ (by omega)

/-- Bytes before the range stay. -/
theorem reverseLoop_before {fuel p1 p2 x : Nat} {str : Nat → UInt8} (hfuel : p2 ≤ p1 + fuel) (hx : x < p1) :
    reverseLoop fuel p1 p2 str x = str x := by
  rw [reverseLoop_apply str hfuel, if_neg (by omega)]
