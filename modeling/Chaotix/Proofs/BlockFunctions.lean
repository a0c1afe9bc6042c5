/-
Module: Chaotix.Proofs.BlockFunctions
Layer: Proofs
Purpose: `memset` and `memmove`, with their fast paths for aligned words. The word that `memset` stores is made of an
  `int` whose upper bytes are not cut off, so its four bytes need not be equal. `memmove` is right wherever its ranges
  lie: it goes forward only where the destination begins below the source, or behind its end.
Imports: Mathlib.Tactic, Chaotix.Kernel.CString
Trusted boundary: none
Main exports: filled, UpperBitsInLow, memset_iff, memmove_moves
-/
import Mathlib.Tactic
import Chaotix.Kernel.CString

namespace Chaotix

namespace CString

/-! ### `memset` -/

/-- Memory with a byte in each of the `n` addresses from `s` on, which may wrap. -/
def filled (mem : Memory) (s : Nat) (b : UInt8) (n : Nat) : Memory := fun x =>
  if x < wordSize ∧ wordSub x s < n then b else mem x

/-- The low byte of the value has every bit that one of the three other bytes has. -/
def UpperBitsInLow (c : BitVec 32) : Prop :=
  c.setWidth 8 ||| (c >>> 8).setWidth 8 ||| (c >>> 16).setWidth 8 ||| (c >>> 24).setWidth 8 = c.setWidth 8

instance (c : BitVec 32) : Decidable (UpperBitsInLow c) := inferInstanceAs (Decidable (_ = _))

section Fill

variable {mem : Memory} {s n : Nat} {a : UInt8}

theorem repStosb_eq (hs : s < wordSize) (hn : n ≤ wordSize) : repStosb mem s a n = filled mem s a n := by
  induction n generalizing mem s with
  | zero =>
      funext x
      simp [repStosb, filled]
  | succ n ih =>
      rw [repStosb, ih (Nat.mod_lt _ (Nat.two_pow_pos 32)) (Nat.le_of_succ_le hn)]
      funext x
      unfold filled
      by_cases hx : x = s
      · subst hx
        have hself : wordSub x x < n + 1 := by
          rw [wordSub_of_le (Nat.le_refl x) hs, Nat.sub_self]
          exact Nat.succ_pos n
        rw [Function.update_self, ite_self, if_pos ⟨hs, hself⟩]
      · rw [Function.update_of_ne hx]
        refine if_congr (and_congr_right fun hlt => ?_) rfl rfl
        simp only [wordSub, wordSize] at hs hn hlt ⊢
        omega

/-- Aligned words that are stored repeat their four bytes. -/
theorem repStosl_eq {d : BitVec 32} (haligned : s % 4 = 0) (hs : s < wordSize) (hn : 4 * n ≤ wordSize) :
    repStosl mem s d n = fun x =>
      if x < wordSize ∧ wordSub x s < 4 * n then (wordBytes d.toNat).getD (x % 4) 0 else mem x := by
  induction n generalizing mem s with
  | zero =>
      funext x
      simp [repStosl]
  | succ n ih =>
      have hmod : (s + 4) % wordSize % 4 = 0 := by
        simp only [wordSize]
        omega
      rw [repStosl, ih hmod (Nat.mod_lt _ (Nat.two_pow_pos 32)) (by omega)]
      funext x
      by_cases hx : s ≤ x ∧ x < s + 4
      · have hword : x < wordSize ∧ wordSub x s < 4 * (n + 1) := by
          simp only [wordSub, wordSize] at hs ⊢
          omega
        have hindex : x - s = x % 4 := by omega
        have hlater : ¬(x < wordSize ∧ wordSub x ((s + sizeofWord) % wordSize) < 4 * n) := by
          simp only [wordSub, wordSize, sizeofWord] at hs hn ⊢
          omega
        have hlength : x % 4 < (wordBytes d.toNat).length := Nat.mod_lt x (by decide)
        rw [if_pos hword, if_neg hlater, writeBytes, dif_pos (by rw [length_wordBytes]; exact hx),
          List.getD_eq_getElem?_getD, List.getElem?_eq_getElem hlength, Option.getD_some]
        simp only [hindex]
      · rw [writeBytes_outside (by rw [length_wordBytes]; omega)]
        refine if_congr (and_congr_right fun hlt => ?_) rfl rfl
        simp only [wordSub, wordSize] at hs hn hlt ⊢
        omega

theorem or_absorb {b x y : BitVec 8} (h : b ||| x ||| y = b) : b ||| x = b := by
  ext i hi
  have hbit := congrArg (fun v : BitVec 8 => v[i]) h
  simp only [BitVec.getElem_or] at hbit ⊢
  cases hb : b[i] <;> cases hx : x[i] <;> simp_all

/-- The bytes of the word that `memset` stores. -/
theorem pattern_bytes (c : BitVec 32) :
    wordBytes (c <<< 24 ||| c <<< 16 ||| c <<< 8 ||| c).toNat =
      [⟨c.setWidth 8⟩, ⟨c.setWidth 8 ||| (c >>> 8).setWidth 8⟩,
        ⟨c.setWidth 8 ||| (c >>> 8).setWidth 8 ||| (c >>> 16).setWidth 8⟩,
        ⟨c.setWidth 8 ||| (c >>> 8).setWidth 8 ||| (c >>> 16).setWidth 8 ||| (c >>> 24).setWidth 8⟩] := by
  have hbyte : ∀ (d : BitVec 32) (k : Nat), UInt8.ofNat (d.toNat / 2 ^ k) = ⟨(d >>> k).setWidth 8⟩ := by
    intro d k
    apply UInt8.eq_of_toBitVec_eq
    apply BitVec.eq_of_toNat_eq
    simp [Nat.shiftRight_eq_div_pow]
  have h0 : ((c <<< 24 ||| c <<< 16 ||| c <<< 8 ||| c) >>> 0).setWidth 8 = c.setWidth 8 := by
    ext i hi
    simp
  have h8 : ((c <<< 24 ||| c <<< 16 ||| c <<< 8 ||| c) >>> 8).setWidth 8 = c.setWidth 8 ||| (c >>> 8).setWidth 8 := by
    ext i hi
    simp [BitVec.getLsbD_ushiftRight, BitVec.getLsbD_shiftLeft]
    interval_cases i <;> simp
  have h16 : ((c <<< 24 ||| c <<< 16 ||| c <<< 8 ||| c) >>> 16).setWidth 8 =
      c.setWidth 8 ||| (c >>> 8).setWidth 8 ||| (c >>> 16).setWidth 8 := by
    ext i hi
    simp [BitVec.getLsbD_ushiftRight, BitVec.getLsbD_shiftLeft]
    interval_cases i <;> simp
  have h24 : ((c <<< 24 ||| c <<< 16 ||| c <<< 8 ||| c) >>> 24).setWidth 8 =
      c.setWidth 8 ||| (c >>> 8).setWidth 8 ||| (c >>> 16).setWidth 8 ||| (c >>> 24).setWidth 8 := by
    ext i hi
    simp [BitVec.getLsbD_ushiftRight, BitVec.getLsbD_shiftLeft]
    interval_cases i <;> simp
  have hfirst := hbyte (c <<< 24 ||| c <<< 16 ||| c <<< 8 ||| c) 0
  rw [Nat.pow_zero, Nat.div_one] at hfirst
  rw [wordBytes, hfirst, hbyte, hbyte, hbyte, h0, h8, h16, h24]

/-- The four bytes are equal exactly where the upper ones add no bit. -/
theorem pattern_iff (c : BitVec 32) :
    (∀ k < 4, (wordBytes (c <<< 24 ||| c <<< 16 ||| c <<< 8 ||| c).toNat).getD k 0 = UInt8.ofNat c.toNat) ↔
      UpperBitsInLow c := by
  have hlow : UInt8.ofNat c.toNat = ⟨c.setWidth 8⟩ := by
    apply UInt8.eq_of_toBitVec_eq
    apply BitVec.eq_of_toNat_eq
    simp
  rw [pattern_bytes, hlow, UpperBitsInLow]
  generalize c.setWidth 8 = b, (c >>> 8).setWidth 8 = b1, (c >>> 16).setWidth 8 = b2, (c >>> 24).setWidth 8 = b3
  constructor
  · intro h
    exact congrArg UInt8.toBitVec (h 3 (by decide))
  · intro h k hk
    have h2 : b ||| b1 ||| b2 = b := by
      rw [BitVec.or_assoc]
      exact or_absorb (BitVec.or_assoc b b1 b2 ▸ h)
    have h1 := or_absorb h2
    interval_cases k
    · rfl
    · exact congrArg UInt8.ofBitVec h1
    · exact congrArg UInt8.ofBitVec h2
    · exact congrArg UInt8.ofBitVec h

end Fill

/-- What `memset` leaves where it stores words. -/
theorem memset_words {mem : Memory} {s n : Nat} (c : BitVec 32) (hs : s < wordSize) (hn : n < wordSize)
    (haligned : s % 4 = 0) (hlong : 4 ≤ n) :
    memset mem s c n = fun x =>
      if x < wordSize ∧ wordSub x s < 4 * (n / 4) then
        (wordBytes (c <<< 24 ||| c <<< 16 ||| c <<< 8 ||| c).toNat).getD (x % 4) 0
      else filled mem s (UInt8.ofNat c.toNat) n x := by
  have hand : s &&& (sizeofWord - 1) = 0 := by
    rw [show sizeofWord - 1 = 2 ^ 2 - 1 from rfl, Nat.and_two_pow_sub_one_eq_mod]
    exact haligned
  have hwords : 4 * (n / 4) ≤ n := Nat.mul_div_le n 4
  rw [memset, if_pos ⟨hand, hlong⟩]
  simp only [repStosl_eq haligned hs (Nat.le_trans hwords (Nat.le_of_lt hn))]
  split
  · -- there are no bytes left
    rename_i hrest
    have hrest' : n - 4 * (n / 4) = 0 := hrest
    funext x
    refine ite_congr rfl (fun _ => rfl) fun hnot => ?_
    have hall : 4 * (n / 4) = n := by omega
    rw [hall] at hnot
    exact (if_neg hnot).symm
  · rename_i hrest
    have hn' : n - sizeofWord * (n / sizeofWord) ≤ wordSize := Nat.le_trans (Nat.sub_le _ _) (Nat.le_of_lt hn)
    rw [repStosb_eq (Nat.mod_lt _ (Nat.two_pow_pos 32)) hn']
    funext x
    unfold filled
    change (if x < wordSize ∧ wordSub x ((s + 4 * (n / 4)) % wordSize) < n - 4 * (n / 4) then _ else
      if x < wordSize ∧ wordSub x s < 4 * (n / 4) then _ else _) = _
    generalize 4 * (n / 4) = m at hwords hrest ⊢
    have hrange : wordSub x ((s + m) % wordSize) < n - m ↔ m ≤ wordSub x s ∧ wordSub x s < n := by
      simp only [wordSub, wordSize] at hs hn ⊢
      omega
    by_cases hx : x < wordSize
    · by_cases hword : wordSub x s < m
      · rw [if_neg (by omega), if_pos ⟨hx, hword⟩, if_pos ⟨hx, hword⟩]
      · have hnot : ¬(x < wordSize ∧ wordSub x s < m) := fun h => hword h.2
        rw [if_neg hnot, if_neg hnot]
        exact if_congr (by omega) rfl rfl
    · rw [if_neg (by omega), if_neg (by omega), if_neg (by omega), if_neg (by omega)]

/-- `memset` sets the bytes of its range to the low byte of its value, and nothing else, exactly where it does not store
    words, or where the upper bytes of the value add no bit to the low one. -/
theorem memset_iff (mem : Memory) {s n : Nat} (c : BitVec 32) (hs : s < wordSize) (hn : n < wordSize) :
    memset mem s c n = filled mem s (UInt8.ofNat c.toNat) n ↔ s % 4 ≠ 0 ∨ n < 4 ∨ UpperBitsInLow c := by
  have hand : s &&& (sizeofWord - 1) = s % 4 := Nat.and_two_pow_sub_one_eq_mod s 2
  by_cases hwords : s % 4 = 0 ∧ 4 ≤ n
  · obtain ⟨haligned, hlong⟩ := hwords
    rw [memset_words c hs hn haligned hlong, ← pattern_iff]
    constructor
    · -- the first word has all four bytes
      intro hfilled
      refine .inr (.inr fun k hk => ?_)
      have hrange : (s + k < wordSize ∧ wordSub (s + k) s < 4 * (n / 4)) ∧ wordSub (s + k) s < n := by
        simp only [wordSub, wordSize] at hs ⊢
        omega
      have hbyte := congrFun hfilled (s + k)
      simp only [filled] at hbyte
      rw [if_pos hrange.1, if_pos ⟨hrange.1.1, hrange.2⟩, show (s + k) % 4 = k by omega] at hbyte
      exact hbyte
    · intro hsame
      have hpattern := (hsame.resolve_left (by omega)).resolve_left (by omega)
      funext x
      split
      · rename_i hword
        rw [hpattern (x % 4) (Nat.mod_lt x (by decide)), filled, if_pos ⟨hword.1, by omega⟩]
      · rfl
  · have hbytes : memset mem s c n = repStosb mem s (UInt8.ofNat c.toNat) n := by
      rw [memset, hand, if_neg hwords]
    rw [hbytes, repStosb_eq hs (Nat.le_of_lt hn)]
    exact iff_of_true rfl (by omega)

/-- A page is cleared. -/
theorem memset_page :
    memset (fun _ => 0xff) 4096 0 4096 = filled (fun _ => 0xff) 4096 (UInt8.ofNat (0 : BitVec 32).toNat) 4096 :=
  (memset_iff (fun _ => 0xff) 0 (by decide) (by decide)).2 (.inr (.inr (by decide)))

/-- The bytes of a negative `char` are not all its low byte. -/
theorem memset_negative_char :
    memset (fun _ => 0) 4096 0xffffff80 4 ≠
      filled (fun _ => 0) 4096 (UInt8.ofNat (0xffffff80 : BitVec 32).toNat) 4 := by
  intro h
  have hbyte := congrFun h 4097
  revert hbyte
  decide

/-! ### `memmove` -/

section Moves

variable {mem : Memory} {dest src n : Nat} {bs : List UInt8}

/-- The bytes from an address on. -/
def bytesFrom (mem : Memory) (src n : Nat) : List UInt8 := (List.range n).map fun i => mem (src + i)

@[simp] theorem length_bytesFrom (mem : Memory) (src n : Nat) : (bytesFrom mem src n).length = n := by
  simp [bytesFrom]

theorem bytesAt_bytesFrom (mem : Memory) (src n : Nat) : BytesAt mem src (bytesFrom mem src n) := by
  intro i hi
  simp [bytesFrom]

/-- Moves of bytes whose addresses do not wrap. -/
theorem repMovsb_eq (hdest : dest + n ≤ wordSize) (hsrc : src + n ≤ wordSize) :
    repMovsb mem dest src n = copyForward n mem dest src := by
  induction n generalizing mem dest src with
  | zero => rfl
  | succ n ih =>
      rw [repMovsb, copyForward]
      cases n with
      | zero => rfl
      | succ n =>
          rw [Nat.mod_eq_of_lt (by omega), Nat.mod_eq_of_lt (by omega)]
          exact ih (by omega) (by omega)

/-- Moves of words, where each is read before it is overwritten. -/
theorem repMovsl_eq (hdest : dest + 4 * n ≤ wordSize) (hsrc : src + 4 * n ≤ wordSize)
    (hapart : dest + 4 ≤ src ∨ src + 4 * n ≤ dest) (hlength : bs.length = 4 * n) (h : BytesAt mem src bs) :
    repMovsl mem dest src n = writeBytes mem dest bs := by
  induction n generalizing mem dest src bs with
  | zero =>
      obtain rfl := List.eq_nil_of_length_eq_zero hlength
      exact writeBytes_nil.symm
  | succ n ih =>
      have hsplit : bs = bs.take 4 ++ bs.drop 4 := (List.take_append_drop 4 bs).symm
      have hfour : (bs.take 4).length = 4 := List.length_take_of_le (by omega)
      have hbytes : BytesAt mem src (bs.take 4 ++ bs.drop 4) := hsplit ▸ h
      obtain ⟨hword, hrest⟩ := bytesAt_append.1 hbytes
      have hread : bytesFrom mem src sizeofWord = bs.take 4 :=
        eq_of_bytesAt (bytesAt_bytesFrom mem src 4) hword (by rw [length_bytesFrom, hfour])
      have hrest' : BytesAt (writeBytes mem dest (bs.take 4)) (src + 4) (bs.drop 4) := by
        rw [hfour] at hrest
        refine hrest.congr fun x hx hlt => writeBytes_outside ?_
        rw [List.length_drop] at hlt
        rw [hfour]
        omega
      have hlater : ∀ dest' src', (0 < n → dest' = dest + 4 ∧ src' = src + 4) →
          repMovsl (writeBytes mem dest (bs.take 4)) dest' src' n = writeBytes mem dest bs := by
        intro dest' src' hnext
        rw [hsplit, writeBytes_append_front, ← hsplit, hfour]
        cases n with
        | zero =>
            rw [List.drop_of_length_le (by omega), writeBytes_nil]
            rfl
        | succ n =>
            obtain ⟨rfl, rfl⟩ := hnext (Nat.succ_pos n)
            exact ih (by omega) (by omega) (by omega) (by rw [List.length_drop]; omega) hrest'
      rw [repMovsl]
      change repMovsl (writeBytes mem dest (bytesFrom mem src sizeofWord)) _ _ n = _
      rw [hread]
      refine hlater _ _ fun hpos => ⟨Nat.mod_eq_of_lt ?_, Nat.mod_eq_of_lt ?_⟩
      · change dest + 4 < wordSize
        omega
      · change src + 4 < wordSize
        omega

/-- `memcpy` where the destination begins below the source, or behind its end. -/
theorem memcpy_eq (hdest : dest + n ≤ wordSize) (hsrc : src + n ≤ wordSize) (hapart : dest < src ∨ src + n ≤ dest) :
    memcpy mem dest src n = writeBytes mem dest (bytesFrom mem src n) := by
  have hbytes := bytesAt_bytesFrom mem src n
  have hlength := length_bytesFrom mem src n
  generalize bytesFrom mem src n = bs at hbytes hlength ⊢
  have hdest4 : dest &&& (sizeofWord - 1) = dest % 4 := Nat.and_two_pow_sub_one_eq_mod dest 2
  have hsrc4 : src &&& (sizeofWord - 1) = src % 4 := Nat.and_two_pow_sub_one_eq_mod src 2
  rw [memcpy, hdest4, hsrc4]
  by_cases hwords : (dest % 4 = 0 ∧ src % 4 = 0) ∧ 4 ≤ n
  · rw [if_pos hwords]
    change (if n - 4 * (n / 4) = 0 then repMovsl mem dest src (n / 4) else
      repMovsb (repMovsl mem dest src (n / 4)) ((dest + 4 * (n / 4)) % wordSize) ((src + 4 * (n / 4)) % wordSize)
        (n - 4 * (n / 4))) = _
    have hle : 4 * (n / 4) ≤ n := Nat.mul_div_le n 4
    have hsplit : bs = bs.take (4 * (n / 4)) ++ bs.drop (4 * (n / 4)) := (List.take_append_drop _ bs).symm
    have hfront : (bs.take (4 * (n / 4))).length = 4 * (n / 4) := List.length_take_of_le (by omega)
    obtain ⟨hfirst, hlast⟩ := bytesAt_append.1 (hsplit ▸ hbytes)
    have hcopied : repMovsl mem dest src (n / 4) = writeBytes mem dest (bs.take (4 * (n / 4))) :=
      repMovsl_eq (by omega) (by omega) (by omega) hfront hfirst
    rw [hcopied]
    split
    · rename_i hnone
      rw [List.take_of_length_le (by omega)]
    · rename_i hsome
      rw [Nat.mod_eq_of_lt (by omega), Nat.mod_eq_of_lt (by omega), repMovsb_eq (by omega) (by omega)]
      have hback : (bs.drop (4 * (n / 4))).length = n - 4 * (n / 4) := by rw [List.length_drop, hlength]
      have hlast' : BytesAt (writeBytes mem dest (bs.take (4 * (n / 4)))) (src + 4 * (n / 4))
          (bs.drop (4 * (n / 4))) := by
        rw [hfront] at hlast
        refine hlast.congr fun x hx hlt => writeBytes_outside ?_
        rw [hback] at hlt
        rw [hfront]
        omega
      have hcopy : copyForward _ _ (dest + 4 * (n / 4)) _ = _ := copyForward_eq (by omega) hlast'
      rw [hback] at hcopy
      rw [hcopy]
      have hboth := writeBytes_append_front mem dest (bs.take (4 * (n / 4))) (bs.drop (4 * (n / 4)))
      rw [← hsplit, hfront] at hboth
      exact hboth.symm
  · rw [if_neg hwords, repMovsb_eq hdest hsrc, ← hlength]
    exact copyForward_eq (by omega) hbytes

end Moves

/-- `memmove` moves the bytes that were in the source before, and changes no other byte. -/
theorem memmove_moves (mem : Memory) {dest src n : Nat} (hdest : dest + n ≤ wordSize) (hsrc : src + n ≤ wordSize) :
    (∀ i < n, memmove mem dest src n (dest + i) = mem (src + i)) ∧
      ∀ x, x < dest ∨ dest + n ≤ x → memmove mem dest src n x = mem x := by
  have hmoved : memmove mem dest src n = writeBytes mem dest (bytesFrom mem src n) := by
    unfold memmove
    split
    · rename_i hforward
      by_cases hnone : n = 0
      · subst hnone
        rw [memcpy, if_neg (fun h => absurd h.2 (by decide))]
        exact writeBytes_nil.symm
      · refine memcpy_eq hdest hsrc ?_
        simp only [wordSub, wordSize] at hforward hdest hsrc
        omega
    · rename_i hbackward
      have hle : src ≤ dest := by
        simp only [wordSub, wordSize] at hbackward hdest hsrc
        omega
      have hbytes := bytesAt_bytesFrom mem src n
      have hcopy := copyBackward_eq (.inl hle) hbytes
      rwa [length_bytesFrom] at hcopy
  rw [hmoved]
  constructor
  · intro i hi
    rw [bytesAt_writeBytes mem dest (bytesFrom mem src n) i (by rw [length_bytesFrom]; exact hi)]
    simp [bytesFrom]
  · intro x hx
    exact writeBytes_outside (by rw [length_bytesFrom]; exact hx)

/-- Sixteen bytes that move up by one word, over themselves. -/
theorem memmove_one_word :
    (∀ i < 16, memmove UInt8.ofNat 4100 4096 16 (4100 + i) = UInt8.ofNat (4096 + i)) ∧
      ∀ x, x < 4100 ∨ 4100 + 16 ≤ x → memmove UInt8.ofNat 4100 4096 16 x = UInt8.ofNat x :=
  memmove_moves UInt8.ofNat (by decide) (by decide)

end CString

end Chaotix
