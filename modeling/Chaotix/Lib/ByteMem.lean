/-
Module: Chaotix.Lib.ByteMem
Layer: Lib
Purpose: Byte memory, and objects that are laid out in it from a high address downwards. Each new object is
  written below all older ones, so the older ones keep their bytes and all objects stay apart. Words are four
  bytes, the lowest first. A copy byte by byte whose two ranges overlap is right from the one end or from the other.
Imports: Mathlib.Tactic
Trusted boundary: none
Main exports: writeBytes, BytesAt, copyForward_eq, copyBackward_eq, wordBytes, readWord, readWord_of_bytesAt,
  storeWords, Stacked, Stacked.push, Stacked.extend, Stacked.lower, Stacked.total_le
-/
import Mathlib.Tactic

/-- Memory with the bytes written from an address on. -/
def writeBytes (mem : Nat → UInt8) (a : Nat) (bs : List UInt8) : Nat → UInt8 := fun x =>
  if h : a ≤ x ∧ x < a + bs.length then bs[x - a] else mem x

/-- The bytes are in memory from an address on. -/
def BytesAt (mem : Nat → UInt8) (a : Nat) (bs : List UInt8) : Prop :=
  ∀ i (hi : i < bs.length), mem (a + i) = bs[i]

section Bytes

variable {mem : Nat → UInt8} {a b : Nat} {bs cs : List UInt8}

theorem writeBytes_outside {x : Nat} (h : x < a ∨ a + bs.length ≤ x) : writeBytes mem a bs x = mem x :=
  dif_neg (by omega)

theorem bytesAt_writeBytes (mem : Nat → UInt8) (a : Nat) (bs : List UInt8) : BytesAt (writeBytes mem a bs) a bs := by
  intro i hi
  have hinside : a ≤ a + i ∧ a + i < a + bs.length := ⟨Nat.le_add_right a i, by omega⟩
  rw [writeBytes, dif_pos hinside]
  simp only [Nat.add_sub_cancel_left]

theorem writeBytes_nil : writeBytes mem a [] = mem := by
  funext x
  exact writeBytes_outside (by simp only [List.length_nil]; omega)

/-- The first byte is written before the others. -/
theorem writeBytes_cons (mem : Nat → UInt8) (a : Nat) (byte : UInt8) (bs : List UInt8) :
    writeBytes mem a (byte :: bs) = writeBytes (Function.update mem a byte) (a + 1) bs := by
  funext x
  have hlength : (byte :: bs).length = bs.length + 1 := List.length_cons
  unfold writeBytes
  by_cases hfirst : x = a
  · subst hfirst
    rw [dif_pos (by omega), dif_neg (by omega), Function.update_self]
    simp
  · by_cases hinside : a ≤ x ∧ x < a + (byte :: bs).length
    · rw [dif_pos hinside, dif_pos (by omega)]
      simp only [show x - a = x - (a + 1) + 1 by omega, List.getElem_cons_succ]
    · rw [dif_neg hinside, dif_neg (by omega), Function.update_of_ne hfirst]

/-- Bytes elsewhere stay. -/
theorem BytesAt.write (h : BytesAt mem b cs) (hapart : a + bs.length ≤ b) : BytesAt (writeBytes mem a bs) b cs := by
  intro i hi
  rw [writeBytes_outside (by omega)]
  exact h i hi

theorem bytesAt_append : BytesAt mem a (bs ++ cs) ↔ BytesAt mem a bs ∧ BytesAt mem (a + bs.length) cs := by
  constructor
  · intro h
    constructor
    · intro i hi
      rw [h i (by rw [List.length_append]; omega), List.getElem_append_left hi]
    · intro i hi
      rw [Nat.add_assoc, h (bs.length + i) (by rw [List.length_append]; omega),
        List.getElem_append_right (Nat.le_add_right _ _)]
      simp only [Nat.add_sub_cancel_left]
  · rintro ⟨hleft, hright⟩ i hi
    rw [List.length_append] at hi
    by_cases hlt : i < bs.length
    · rw [hleft i hlt, List.getElem_append_left hlt]
    · have hi' := hright (i - bs.length) (by omega)
      rw [Nat.add_assoc, Nat.add_sub_cancel' (by omega)] at hi'
      rw [hi', List.getElem_append_right (by omega)]

/-- The bytes that are written later are the ones in front. -/
theorem writeBytes_append (mem : Nat → UInt8) (a : Nat) (bs cs : List UInt8) :
    writeBytes mem a (bs ++ cs) = writeBytes (writeBytes mem (a + bs.length) cs) a bs := by
  funext x
  have hlength : (bs ++ cs).length = bs.length + cs.length := List.length_append
  by_cases hleft : a ≤ x ∧ x < a + bs.length
  · have hleft' := bytesAt_writeBytes (writeBytes mem (a + bs.length) cs) a bs (x - a) (by omega)
    have hboth := bytesAt_writeBytes mem a (bs ++ cs) (x - a) (by omega)
    rw [Nat.add_sub_cancel' hleft.1] at hleft' hboth
    rw [hboth, hleft', List.getElem_append_left]
  · rw [writeBytes_outside (show x < a ∨ a + bs.length ≤ x by omega)]
    by_cases hright : a + bs.length ≤ x ∧ x < a + bs.length + cs.length
    · have hright' := bytesAt_writeBytes mem (a + bs.length) cs (x - (a + bs.length)) (by omega)
      have hboth := bytesAt_writeBytes mem a (bs ++ cs) (x - a) (by omega)
      rw [Nat.add_sub_cancel' (by omega)] at hright' hboth
      rw [hboth, hright', List.getElem_append_right (by omega)]
      simp only [Nat.sub_sub]
    · rw [writeBytes_outside (by omega), writeBytes_outside (by omega)]

/-- The bytes that are written first are the ones in front. -/
theorem writeBytes_append_front (mem : Nat → UInt8) (a : Nat) (bs cs : List UInt8) :
    writeBytes mem a (bs ++ cs) = writeBytes (writeBytes mem a bs) (a + bs.length) cs := by
  induction bs generalizing mem a with
  | nil => rw [List.nil_append, writeBytes_nil, List.length_nil, Nat.add_zero]
  | cons b bs ih =>
      rw [List.cons_append, writeBytes_cons, ih, writeBytes_cons, List.length_cons, Nat.add_right_comm, Nat.add_assoc a]

/-- The bytes in front are written before the last one. -/
theorem writeBytes_concat (mem : Nat → UInt8) (a : Nat) (bs : List UInt8) (byte : UInt8) :
    writeBytes mem a (bs ++ [byte]) = Function.update (writeBytes mem a bs) (a + bs.length) byte := by
  rw [writeBytes_append_front, writeBytes_cons, writeBytes_nil]

/-- Bytes that a memory agrees with are in it. -/
theorem BytesAt.congr {mem' : Nat → UInt8} (h : BytesAt mem a bs)
    (hsame : ∀ x, a ≤ x → x < a + bs.length → mem' x = mem x) : BytesAt mem' a bs := by
  intro i hi
  rw [hsame (a + i) (Nat.le_add_right a i) (by omega)]
  exact h i hi

theorem bytesAt_nil (mem : Nat → UInt8) (a : Nat) : BytesAt mem a [] := by
  intro i hi
  simp at hi

/-- A byte and the bytes behind it. -/
theorem bytesAt_cons {byte : UInt8} (hbyte : mem a = byte) (h : BytesAt mem (a + 1) bs) :
    BytesAt mem a (byte :: bs) := by
  intro i hi
  cases i with
  | zero => exact hbyte
  | succ i =>
      have hrest := h i (Nat.lt_of_succ_lt_succ hi)
      rw [Nat.add_assoc, Nat.add_comm 1 i] at hrest
      exact hrest

/-- Bytes at one address are read back. -/
theorem map_range_of_bytesAt (h : BytesAt mem 0 bs) : (List.range bs.length).map mem = bs := by
  apply List.ext_getElem
  · simp
  · intro i hi hi'
    rw [List.getElem_map, List.getElem_range, ← h i hi', Nat.zero_add]

/-- There is one text of a length in a memory. -/
theorem eq_of_bytesAt (h : BytesAt mem a bs) (h' : BytesAt mem a cs) (hlength : bs.length = cs.length) : bs = cs :=
  List.ext_getElem hlength fun i hi hi' => (h i hi).symm.trans (h' i hi')

end Bytes

/-! ### Copies byte by byte -/

/-- `n` bytes copied from `src` to `dest`, the first one first. -/
def copyForward : Nat → (Nat → UInt8) → Nat → Nat → Nat → UInt8
  | 0, mem, _, _ => mem
  | n + 1, mem, dest, src => copyForward n (Function.update mem dest (mem src)) (dest + 1) (src + 1)

/-- `n` bytes copied from `src` to `dest`, the last one first. -/
def copyBackward : Nat → (Nat → UInt8) → Nat → Nat → Nat → UInt8
  | 0, mem, _, _ => mem
  | n + 1, mem, dest, src => copyBackward n (Function.update mem (dest + n) (mem (src + n))) dest src

section Copies

variable {mem : Nat → UInt8} {dest src : Nat} {bs : List UInt8}

/-- A copy to a lower address may begin with the first byte: what it overwrites has been read. -/
theorem copyForward_eq (hle : dest ≤ src ∨ src + bs.length ≤ dest) (h : BytesAt mem src bs) :
    copyForward bs.length mem dest src = writeBytes mem dest bs := by
  induction bs generalizing mem dest src with
  | nil => exact writeBytes_nil.symm
  | cons byte bs ih =>
      rw [List.length_cons] at hle
      have hfirst : mem src = byte := h 0 (Nat.zero_lt_succ _)
      have hrest : BytesAt (Function.update mem dest byte) (src + 1) bs := by
        intro i hi
        rw [Function.update_of_ne (by omega), Nat.add_assoc, Nat.add_comm 1 i]
        exact h (i + 1) (Nat.succ_lt_succ hi)
      rw [List.length_cons, copyForward, hfirst, writeBytes_cons]
      exact ih (by omega) hrest

/-- A copy to a higher address may begin with the last byte. -/
theorem copyBackward_eq (hle : src ≤ dest ∨ dest + bs.length ≤ src) (h : BytesAt mem src bs) :
    copyBackward bs.length mem dest src = writeBytes mem dest bs := by
  induction bs using List.reverseRecOn generalizing mem with
  | nil => exact writeBytes_nil.symm
  | append_singleton bs byte ih =>
      rw [List.length_append, List.length_singleton] at hle
      obtain ⟨hinit, hlast⟩ := bytesAt_append.1 h
      have hbyte : mem (src + bs.length) = byte := hlast 0 Nat.zero_lt_one
      have hrest : BytesAt (Function.update mem (dest + bs.length) byte) src bs := by
        refine hinit.congr fun x hx hlt => ?_
        rw [Function.update_of_ne (by omega)]
      rw [List.length_append, List.length_singleton, copyBackward, hbyte, writeBytes_append, writeBytes_cons,
        writeBytes_nil]
      exact ih (by omega) hrest

end Copies

/-! ### Words -/

/-- The four bytes of a word, the lowest first. -/
def wordBytes (v : Nat) : List UInt8 :=
  [UInt8.ofNat v, UInt8.ofNat (v / 2 ^ 8), UInt8.ofNat (v / 2 ^ 16), UInt8.ofNat (v / 2 ^ 24)]

/-- The word at an address. -/
def readWord (mem : Nat → UInt8) (a : Nat) : Nat :=
  (mem a).toNat + (mem (a + 1)).toNat * 2 ^ 8 + (mem (a + 2)).toNat * 2 ^ 16 + (mem (a + 3)).toNat * 2 ^ 24

/-- The bytes of a sequence of words. -/
def wordsBytes (vs : List Nat) : List UInt8 := vs.flatMap wordBytes

@[simp] theorem length_wordBytes (v : Nat) : (wordBytes v).length = 4 := rfl

@[simp] theorem length_wordsBytes (vs : List Nat) : (wordsBytes vs).length = 4 * vs.length := by
  induction vs with
  | nil => rfl
  | cons v vs ih =>
      rw [wordsBytes, List.flatMap_cons, List.length_append, ← wordsBytes, ih, length_wordBytes, List.length_cons]
      omega

theorem readWord_of_bytesAt {mem : Nat → UInt8} {a v : Nat} (h : BytesAt mem a (wordBytes v)) (hv : v < 2 ^ 32) :
    readWord mem a = v := by
  have h0 := h 0 (by simp)
  have h1 := h 1 (by simp)
  have h2 := h 2 (by simp)
  have h3 := h 3 (by simp)
  simp only [wordBytes, List.getElem_cons_zero, List.getElem_cons_succ, Nat.add_zero] at h0 h1 h2 h3
  simp only [readWord, h0, h1, h2, h3, UInt8.toNat_ofNat']
  omega

/-- A word that is stored is read back. -/
theorem readWord_writeBytes_self {mem : Nat → UInt8} {a v : Nat} (hv : v < 2 ^ 32) :
    readWord (writeBytes mem a (wordBytes v)) a = v :=
  readWord_of_bytesAt (bytesAt_writeBytes mem a (wordBytes v)) hv

/-- A word elsewhere stays. -/
theorem readWord_writeBytes_apart {mem : Nat → UInt8} {a b v : Nat} (h : a + 4 ≤ b ∨ b + 4 ≤ a) :
    readWord (writeBytes mem a (wordBytes v)) b = readWord mem b := by
  have hstay : ∀ i, i < 4 → writeBytes mem a (wordBytes v) (b + i) = mem (b + i) := by
    intro i hi
    exact writeBytes_outside (by rw [length_wordBytes]; omega)
  have h0 := hstay 0 (by decide)
  rw [Nat.add_zero] at h0
  simp only [readWord, h0, hstay 1 (by decide), hstay 2 (by decide), hstay 3 (by decide)]

/-- The words are stored one after the other, each at its own address. -/
def storeWords (mem : Nat → UInt8) (stores : List (Nat × Nat)) : Nat → UInt8 :=
  stores.foldl (fun mem p => writeBytes mem p.1 (wordBytes p.2)) mem

theorem storeWords_cons (mem : Nat → UInt8) (p : Nat × Nat) (stores : List (Nat × Nat)) :
    storeWords mem (p :: stores) = storeWords (writeBytes mem p.1 (wordBytes p.2)) stores := rfl

theorem storeWords_append (mem : Nat → UInt8) (stores stores' : List (Nat × Nat)) :
    storeWords mem (stores ++ stores') = storeWords (storeWords mem stores) stores' := List.foldl_append

/-- A word away from all stores stays. -/
theorem readWord_storeWords_apart {mem : Nat → UInt8} {stores : List (Nat × Nat)} {b : Nat}
    (h : ∀ p ∈ stores, p.1 + 4 ≤ b ∨ b + 4 ≤ p.1) : readWord (storeWords mem stores) b = readWord mem b := by
  induction stores generalizing mem with
  | nil => rfl
  | cons p stores ih =>
      rw [storeWords_cons, ih fun q hq => h q (List.mem_cons_of_mem p hq)]
      exact readWord_writeBytes_apart (h p List.mem_cons_self)

/-- Stores that do not overlap are all read back. -/
theorem readWord_storeWords_mem {mem : Nat → UInt8} {stores : List (Nat × Nat)}
    (hapart : ∀ p ∈ stores, ∀ q ∈ stores, p = q ∨ p.1 + 4 ≤ q.1 ∨ q.1 + 4 ≤ p.1)
    (hword : ∀ p ∈ stores, p.2 < 2 ^ 32) : ∀ p ∈ stores, readWord (storeWords mem stores) p.1 = p.2 := by
  induction stores generalizing mem with
  | nil => simp
  | cons q stores ih =>
      intro p hp
      by_cases hmem : p ∈ stores
      · exact ih (fun p hp q hq => hapart p (List.mem_cons_of_mem _ hp) q (List.mem_cons_of_mem _ hq))
          (fun p hp => hword p (List.mem_cons_of_mem _ hp)) p hmem
      · -- the first store, which no later one touches
        obtain rfl : p = q := (List.mem_cons.1 hp).resolve_right hmem
        have hlater : ∀ r ∈ stores, r.1 + 4 ≤ p.1 ∨ p.1 + 4 ≤ r.1 := by
          intro r hr
          rcases hapart r (List.mem_cons_of_mem _ hr) p hp with rfl | hdistinct
          · exact absurd hr hmem
          · exact hdistinct
        rw [storeWords_cons, readWord_storeWords_apart hlater]
        exact readWord_writeBytes_self (hword p hp)

/-- The words of a sequence are in memory one after the other. -/
theorem readWord_of_wordsAt {mem : Nat → UInt8} {a : Nat} {vs : List Nat} (h : BytesAt mem a (wordsBytes vs))
    (hvs : ∀ v ∈ vs, v < 2 ^ 32) {i : Nat} (hi : i < vs.length) : readWord mem (a + 4 * i) = vs[i] := by
  induction vs generalizing a i with
  | nil => simp at hi
  | cons v vs ih =>
      rw [wordsBytes, List.flatMap_cons, bytesAt_append, ← wordsBytes, length_wordBytes] at h
      cases i with
      | zero => exact readWord_of_bytesAt h.1 (hvs v List.mem_cons_self)
      | succ i =>
          have hrest := ih h.2 (fun w hw => hvs w (List.mem_cons_of_mem v hw)) (Nat.lt_of_succ_lt_succ hi)
          rw [show a + 4 * (i + 1) = a + 4 + 4 * i by omega]
          exact hrest

/-! ### Objects below each other -/

/-- Objects in memory between two addresses, the newest and lowest first. -/
structure Stacked (mem : Nat → UInt8) (lo hi : Nat) (objs : List (Nat × List UInt8)) : Prop where
  inside : ∀ o ∈ objs, lo ≤ o.1 ∧ o.1 + o.2.length ≤ hi
  bytes : ∀ o ∈ objs, BytesAt mem o.1 o.2
  apart : objs.Pairwise fun o o' => o.1 + o.2.length ≤ o'.1

namespace Stacked

variable {mem : Nat → UInt8} {lo hi a : Nat} {objs : List (Nat × List UInt8)} {bs cs : List UInt8}

theorem nil (mem : Nat → UInt8) (lo hi : Nat) : Stacked mem lo hi [] :=
  ⟨by simp, by simp, List.Pairwise.nil⟩

/-- The lower end may move down. -/
theorem lower (h : Stacked mem lo hi objs) {lo' : Nat} (hle : lo' ≤ lo) : Stacked mem lo' hi objs :=
  ⟨fun o ho => ⟨hle.trans (h.inside o ho).1, (h.inside o ho).2⟩, h.bytes, h.apart⟩

/-- A new object is written below the others. -/
theorem push (h : Stacked mem lo hi objs) (hlo : lo ≤ hi) (hfits : a + bs.length ≤ lo) :
    Stacked (writeBytes mem a bs) a hi ((a, bs) :: objs) := by
  constructor
  case inside =>
    intro o ho
    rcases List.mem_cons.1 ho with rfl | ho
    · exact ⟨le_refl a, hfits.trans hlo⟩
    · have hin := h.inside o ho
      exact ⟨by omega, hin.2⟩
  case bytes =>
    intro o ho
    rcases List.mem_cons.1 ho with rfl | ho
    · exact bytesAt_writeBytes mem a bs
    · exact (h.bytes o ho).write (hfits.trans (h.inside o ho).1)
  case apart =>
    exact List.pairwise_cons.2 ⟨fun o ho => hfits.trans (h.inside o ho).1, h.apart⟩

/-- The lowest object grows downwards. -/
theorem extend (h : Stacked mem lo hi ((lo, cs) :: objs)) (ha : a + bs.length = lo) :
    Stacked (writeBytes mem a bs) a hi ((a, bs ++ cs) :: objs) := by
  obtain ⟨hbelow, hapart⟩ := List.pairwise_cons.1 h.apart
  have hhead := h.inside (lo, cs) List.mem_cons_self
  have hlength : a + (bs ++ cs).length = lo + cs.length := by
    rw [List.length_append]
    omega
  constructor
  case inside =>
    intro o ho
    rcases List.mem_cons.1 ho with rfl | ho
    · exact ⟨le_refl a, hlength.le.trans hhead.2⟩
    · have hin := h.inside o (List.mem_cons_of_mem _ ho)
      exact ⟨by omega, hin.2⟩
  case bytes =>
    intro o ho
    rcases List.mem_cons.1 ho with rfl | ho
    · refine bytesAt_append.2 ⟨bytesAt_writeBytes mem a bs, ?_⟩
      rw [ha]
      exact (h.bytes (lo, cs) List.mem_cons_self).write ha.le
    · have hin := h.inside o (List.mem_cons_of_mem _ ho)
      exact (h.bytes o (List.mem_cons_of_mem _ ho)).write (ha.le.trans hin.1)
  case apart =>
    refine List.pairwise_cons.2 ⟨fun o ho => ?_, hapart⟩
    have hbelow' := hbelow o ho
    simp only at hbelow' ⊢
    omega

/-- An object without bytes may start anywhere. -/
theorem empty (h : Stacked mem lo hi objs) (hlo : lo ≤ hi) : Stacked mem lo hi ((lo, []) :: objs) := by
  constructor
  case inside =>
    intro o ho
    rcases List.mem_cons.1 ho with rfl | ho
    · exact ⟨le_refl lo, hlo⟩
    · exact h.inside o ho
  case bytes =>
    intro o ho
    rcases List.mem_cons.1 ho with rfl | ho
    · intro i hi
      simp at hi
    · exact h.bytes o ho
  case apart => exact List.pairwise_cons.2 ⟨fun o ho => (h.inside o ho).1, h.apart⟩

/-- The objects are not longer than the space between the two addresses. -/
theorem total_le (h : Stacked mem lo hi objs) (hlo : lo ≤ hi) : lo + (objs.map (·.2.length)).sum ≤ hi := by
  induction objs generalizing lo with
  | nil => simpa using hlo
  | cons o objs ih =>
      obtain ⟨hbelow, hapart⟩ := List.pairwise_cons.1 h.apart
      have hin := h.inside o List.mem_cons_self
      have hrest : Stacked mem (o.1 + o.2.length) hi objs :=
        ⟨fun o' ho' => ⟨hbelow o' ho', (h.inside o' (List.mem_cons_of_mem o ho')).2⟩,
          fun o' ho' => h.bytes o' (List.mem_cons_of_mem o ho'), hapart⟩
      have hle := ih hrest hin.2
      rw [List.map_cons, List.sum_cons]
      omega

end Stacked
