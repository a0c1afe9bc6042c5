/-
Module: Chaotix.Proofs.StringFunctions
Layer: Proofs
Purpose: The string functions of `common/string.c` beside what the C library promises. `strcpy` does not store the zero,
  `strchr` and `strrchr` stop before it and compare the `char` with an `int`, and `strstr` compares to the end of both
  strings; `strcat`, `strncat` and `strlcpy` keep their promise.
Imports: Mathlib.Tactic, Chaotix.Proofs.StringTokens
Trusted boundary: none
Main exports: strcpy_eq, strcat_eq, strncat_eq, strlcpy_eq, lastIdx?, strrchr_eq, strstr_eq, string_functions_iff
-/
import Mathlib.Tactic
import Chaotix.Proofs.StringTokens

namespace Chaotix

namespace CString

/-! ### Functions that store a string -/

section Storing

variable {mem : Memory} {dest src size : Nat} {s d : List UInt8}

/-- `strcpy` stores the characters, and no zero. -/
theorem strcpy_eq (hs : Holds mem src s) (hapart : Apart dest s.length src s.length) :
    strcpy mem dest src = .ok (writeBytes mem dest s) := by
  unfold Apart at hapart
  induction s generalizing mem dest src with
  | nil =>
      obtain ⟨hzero, hlt⟩ := Holds.nil_iff.1 hs
      rw [strcpy, if_pos hlt, if_pos hzero, writeBytes_nil]
  | cons c s ih =>
      obtain ⟨hc, hne, hrest⟩ := Holds.cons_iff.1 hs
      rw [List.length_cons] at hapart
      rw [strcpy, if_pos hs.lt, if_neg (hc ▸ hne), hc, writeBytes_cons]
      exact ih (hrest.update (by omega) c) (by omega)

/-- The characters that a loop with a bound on its counter stores. -/
def upTo (n : Option Nat) (i : Nat) (s : List UInt8) : List UInt8 :=
  match n with
  | none => s
  | some n => s.take (n - i)

/-- The loop of `strcat` and `strncat`. -/
theorem appendLoop_eq {n : Option Nat} {i : Nat} (hi : ∀ m, n = some m → i ≤ m) (hs : Holds mem (src + i) s)
    (hapart : Apart (dest + i) (upTo n i s).length (src + i) s.length) :
    appendLoop mem dest src n i = .ok (writeBytes mem (dest + i) (upTo n i s), i + (upTo n i s).length) := by
  unfold Apart at hapart
  induction s generalizing mem i with
  | nil =>
      obtain ⟨hzero, hlt⟩ := Holds.nil_iff.1 hs
      have hnil : upTo n i [] = [] := by
        cases n with
        | none => rfl
        | some n => exact List.take_nil
      rw [appendLoop, hnil, writeBytes_nil, if_pos hlt, if_pos hzero, ite_self]
      rfl
  | cons c s ih =>
      obtain ⟨hc, hne, hrest⟩ := Holds.cons_iff.1 hs
      rw [appendLoop]
      by_cases hn : n = some i
      · have hnil : upTo n i (c :: s) = [] := by
          subst hn
          rw [upTo, Nat.sub_self, List.take_zero]
        rw [if_pos hn, hnil, writeBytes_nil]
        rfl
      · have hcons : upTo n i (c :: s) = c :: upTo n (i + 1) s := by
          cases n with
          | none => rfl
          | some m =>
              have hlt : i < m := Nat.lt_of_le_of_ne (hi m rfl) fun h => hn (h ▸ rfl)
              rw [upTo, upTo, show m - i = m - (i + 1) + 1 by omega, List.take_succ_cons]
        rw [hcons, List.length_cons, List.length_cons] at hapart
        rw [if_neg hn, if_pos hs.lt, if_neg (hc ▸ hne), hc, hcons, writeBytes_cons, List.length_cons]
        have hnext : appendLoop (Function.update mem (dest + i) c) dest src n (i + 1) = _ :=
          ih (fun m hm => Nat.lt_of_le_of_ne (hi m hm) fun h => hn (h ▸ hm)) (hrest.update (by omega) c) (by omega)
        rw [Nat.add_assoc dest, hnext, Nat.add_right_comm i]
        rfl

/-- A string, and another one behind it in the place of its zero. -/
theorem Holds.appendBytes {t : List UInt8} (hd : Holds mem dest d) (ht : ∀ c ∈ t, c ≠ 0) :
    StringAt (writeBytes mem (dest + d.length) (t ++ [0])) dest (d ++ t) := by
  refine stringAt_append.2 ⟨?_, hd.stringAt.ne_zero, stringAt_writeBytes mem (dest + d.length) ht⟩
  exact hd.stringAt.bytesAt.congr fun x hx hlt => writeBytes_outside (.inl hlt)

/-- `strcat` and `strncat` store as many characters as they may, and the zero. -/
theorem append_eq {n : Option Nat} (hd : Holds mem dest d) (hs : Holds mem src s)
    (hapart : Apart dest (d.length + (upTo n 0 s).length) src s.length) :
    (do
      let destLen ← strlen mem dest
      let (mem, i) ← appendLoop mem (dest + destLen) src n 0
      return Function.update mem (dest + destLen + i) 0 : Except Stop Memory) =
      .ok (writeBytes mem (dest + d.length) (upTo n 0 s ++ [0])) := by
  unfold Apart at hapart
  have hloop : appendLoop mem (dest + d.length) src n 0 = _ :=
    appendLoop_eq (fun m _ => Nat.zero_le m) hs (by unfold Apart; omega)
  rw [strlen_eq hd]
  simp only [bind, Except.bind, hloop]
  rw [writeBytes_concat, Nat.zero_add]
  rfl

theorem strcat_eq (hd : Holds mem dest d) (hs : Holds mem src s)
    (hapart : Apart dest (d.length + s.length) src s.length) :
    strcat mem dest src = .ok (writeBytes mem (dest + d.length) (s ++ [0])) :=
  append_eq hd hs hapart

theorem strncat_eq {n : Nat} (hd : Holds mem dest d) (hs : Holds mem src s)
    (hapart : Apart dest (d.length + (s.take n).length) src s.length) :
    strncat mem dest src n = .ok (writeBytes mem (dest + d.length) (s.take n ++ [0])) :=
  append_eq hd hs hapart

/-- The first loop of `strlcpy`. -/
theorem strlcpyLoop_eq {len : Nat} (hs : Holds mem src s)
    (hapart : Apart dest (s.take (size - 1 - len)).length src s.length) :
    strlcpyLoop mem dest src size len =
      .ok (writeBytes mem dest (s.take (size - 1 - len)), dest + (s.take (size - 1 - len)).length,
        src + (s.take (size - 1 - len)).length, len + (s.take (size - 1 - len)).length) := by
  unfold Apart at hapart
  induction s generalizing mem dest src len with
  | nil =>
      obtain ⟨hzero, hlt⟩ := Holds.nil_iff.1 hs
      rw [strlcpyLoop, List.take_nil, writeBytes_nil, if_pos hlt, if_pos hzero, ite_self]
      rfl
  | cons c s ih =>
      obtain ⟨hc, hne, hrest⟩ := Holds.cons_iff.1 hs
      rw [strlcpyLoop]
      by_cases hroom : len + 1 < size
      · have hmore : size - 1 - len = size - 1 - (len + 1) + 1 := by omega
        rw [hmore, List.take_succ_cons, List.length_cons, List.length_cons] at hapart
        have hnext : strlcpyLoop (Function.update mem dest c) (dest + 1) (src + 1) size (len + 1) = _ :=
          ih (hrest.update (by omega) c) (by omega)
        rw [if_pos hroom, if_pos hs.lt, if_neg (hc ▸ hne), hc, hnext, hmore, List.take_succ_cons, writeBytes_cons,
          List.length_cons]
        simp only [Nat.add_assoc, Nat.add_comm 1]
      · rw [if_neg hroom, show size - 1 - len = 0 by omega, List.take_zero, writeBytes_nil]
        rfl

/-- `strlcpy` returns the length of its source, and stores as many characters as there is room for, and the zero. -/
theorem strlcpy_eq (hs : Holds mem src s) (hsize : 1 ≤ size)
    (hapart : Apart dest (s.take (size - 1)).length src s.length) :
    strlcpy mem dest src size = .ok (s.length, writeBytes mem dest (s.take (size - 1) ++ [0])) := by
  have hloop : strlcpyLoop mem dest src size 0 = _ := strlcpyLoop_eq hs hapart
  have hle : (s.take (size - 1)).length ≤ s.length := (List.take_sublist _ _).length_le
  unfold Apart at hapart
  -- the rest of the source, of which only the length counts
  have hrest : Holds (writeBytes mem dest (s.take (size - 1) ++ [0])) (src + (s.take (size - 1)).length)
      (s.drop (s.take (size - 1)).length) := by
    refine (hs.drop hle).congr fun x hx hle' => writeBytes_outside ?_
    rw [List.length_drop] at hle'
    rw [List.length_append, List.length_singleton]
    omega
  have hcount := countFrom_eq hrest (s.take (size - 1)).length
  rw [List.length_drop, Nat.add_sub_cancel' hle] at hcount
  rw [Nat.sub_zero] at hloop
  rw [strlcpy, hloop]
  simp only [bind, Except.bind, Nat.zero_add, if_pos (Nat.lt_of_lt_of_le Nat.zero_lt_one hsize), ← writeBytes_concat,
    hcount]
  rfl

end Storing

/-! ### Functions that look for something -/

section Searching

variable {mem : Memory} {a b : Nat} {s t : List UInt8}

/-- The last place where the condition holds. -/
def lastIdx? (p : UInt8 → Bool) : List UInt8 → Option Nat
  | [] => none
  | c :: s => ((lastIdx? p s).map (· + 1)).or (if p c then some 0 else none)

theorem lastIdx?_congr {p q : UInt8 → Bool} (h : ∀ c ∈ s, p c = q c) : lastIdx? p s = lastIdx? q s := by
  induction s with
  | nil => rfl
  | cons c s ih =>
      obtain ⟨hc, hrest⟩ := List.forall_mem_cons.1 h
      rw [lastIdx?, lastIdx?, ih hrest, hc]

theorem lastIdx?_eq_none_iff {p : UInt8 → Bool} : lastIdx? p s = none ↔ ∀ c ∈ s, p c = false := by
  induction s with
  | nil => simp [lastIdx?]
  | cons c s ih =>
      rw [lastIdx?, Option.or_eq_none_iff, Option.map_eq_none_iff, ih, List.forall_mem_cons, and_comm]
      cases p c <;> simp

theorem lastIdx?_concat {p : UInt8 → Bool} (c : UInt8) (h : p c = false) : lastIdx? p (s ++ [c]) = lastIdx? p s := by
  induction s with
  | nil => simp [lastIdx?, h]
  | cons d s ih => rw [List.cons_append, lastIdx?, ih, lastIdx?]

theorem lastIdx?_concat_self {p : UInt8 → Bool} (c : UInt8) (h : p c = true) :
    lastIdx? p (s ++ [c]) = some s.length := by
  induction s with
  | nil => simp [lastIdx?, h]
  | cons d s ih =>
      rw [List.cons_append, lastIdx?, ih, List.length_cons]
      rfl

/-- The last place of a character that is not zero. -/
theorem strrchr_eq (h : Holds mem a s) (ch : Int) :
    strrchr mem a ch = .ok ((lastIdx? (fun c => charValue c = ch) s).map (a + ·)) := by
  have hloop : ∀ last, strrchrLoop mem a ch last =
      .ok (((lastIdx? (fun c => charValue c = ch) s).map (a + ·)).or last) := by
    induction s generalizing a with
    | nil =>
        intro last
        obtain ⟨hzero, hlt⟩ := Holds.nil_iff.1 h
        rw [strrchrLoop, if_pos hlt, if_pos hzero]
        rfl
    | cons c s ih =>
        intro last
        obtain ⟨hc, hne, hrest⟩ := Holds.cons_iff.1 h
        rw [strrchrLoop, if_pos h.lt, if_neg (hc ▸ hne), hc, ih hrest, lastIdx?]
        cases lastIdx? (fun c => decide (charValue c = ch)) s with
        | none => by_cases hch : charValue c = ch <;> simp [hch]
        | some i =>
            simp only [Option.map_some, Option.some_or]
            congr 2
            omega
  rw [strrchr, hloop none, Option.or_none]

/-- The first place from which on the string is the other one. -/
theorem strstr_eq (hs : Holds mem a s) (ht : Holds mem b t) :
    strstr mem a b = .ok ((s.tails.dropLast.findIdx? fun r => r = t).map (a + ·)) := by
  induction s generalizing a with
  | nil =>
      obtain ⟨hzero, hlt⟩ := Holds.nil_iff.1 hs
      rw [strstr, if_pos hlt, if_pos hzero]
      rfl
  | cons c s ih =>
      obtain ⟨hc, hne, hrest⟩ := Holds.cons_iff.1 hs
      obtain ⟨order, horder, hiff⟩ := strcmp_eq hs ht
      have htails : (c :: s).tails.dropLast = (c :: s) :: s.tails.dropLast := by
        rw [List.tails_cons, List.dropLast_cons_of_ne_nil (by cases s <;> simp)]
      rw [strstr, if_pos hs.lt, if_neg (hc ▸ hne), horder, htails, List.findIdx?_cons]
      by_cases heq : c :: s = t
      · simp [hiff.2 heq, heq]
      · simp only [mt hiff.1 heq, if_false, heq, decide_false, Bool.false_eq_true, ih hrest, Option.map_map]
        congr 2
        funext i
        simp only [Function.comp_apply]
        omega

end Searching

/-! ### What the C library promises -/

section Promises

variable {s t : List UInt8} {ch : Int}

/-- An `int`, converted to `char`. -/
def toChar (ch : Int) : UInt8 := UInt8.ofNat (ch % 256).toNat

/-- The first place of a character, where the zero at the end is one too. -/
def firstPlace (s : List UInt8) (ch : Int) : Option Nat := (s ++ [0]).findIdx? fun c => c = toChar ch

/-- The last place of a character, where the zero at the end is one too. -/
def lastPlace (s : List UInt8) (ch : Int) : Option Nat := lastIdx? (fun c => c = toChar ch) (s ++ [0])

/-- The first place at which a string goes on with another one. -/
def firstOccurrence (s t : List UInt8) : Option Nat := s.tails.findIdx? t.isPrefixOf

/-- The character is not zero, and the `int` is its value, or it does not occur. -/
def ValueOrAbsent (s : List UInt8) (ch : Int) : Prop :=
  toChar ch ≠ 0 ∧ (charValue (toChar ch) = ch ∨ toChar ch ∉ s)

/-- If the other string occurs, it is not empty, and its first occurrence is at the end. -/
def OccursAtEnd (s t : List UInt8) : Prop := ∀ i, firstOccurrence s t = some i → s.drop i = t ∧ t ≠ []

theorem toChar_charValue (c : UInt8) : toChar (charValue c) = c := by
  have hlt := c.toNat_lt
  have hmod : (charValue c % 256).toNat = c.toNat := by
    unfold charValue
    split <;> omega
  rw [toChar, hmod, UInt8.ofNat_toNat]

/-- The characters that compare equal to an `int`. -/
theorem charValue_eq_iff {c : UInt8} : charValue c = ch ↔ c = toChar ch ∧ charValue (toChar ch) = ch := by
  constructor
  · rintro rfl
    rw [toChar_charValue]
    exact ⟨rfl, rfl⟩
  · rintro ⟨rfl, h⟩
    exact h

/-- A search that can only find characters, beside one that also finds the zero. -/
theorem place_iff {find : (UInt8 → Bool) → List UInt8 → Option Nat} (hs : ∀ c ∈ s, c ≠ 0)
    (hcongr : ∀ p q : UInt8 → Bool, (∀ c ∈ s, p c = q c) → find p s = find q s)
    (hnone : ∀ p : UInt8 → Bool, find p s = none ↔ ∀ c ∈ s, p c = false)
    (hother : ∀ p : UInt8 → Bool, p 0 = false → find p (s ++ [0]) = find p s)
    (hzero : ∀ p : UInt8 → Bool, p 0 = true → find p (s ++ [0]) ≠ none) :
    find (fun c => charValue c = ch) s = find (fun c => c = toChar ch) (s ++ [0]) ↔ ValueOrAbsent s ch := by
  have hvalue : charValue (toChar ch) ≠ ch → find (fun c => decide (charValue c = ch)) s = none := by
    intro hne
    rw [hnone]
    intro c _
    exact decide_eq_false fun h => hne (charValue_eq_iff.1 h).2
  by_cases hch : toChar ch = 0
  · -- the zero is found, or it is not
    have hnot : find (fun c => decide (charValue c = ch)) s = none := by
      rw [hnone]
      intro c hc
      exact decide_eq_false fun h => hs c hc ((charValue_eq_iff.1 h).1.trans hch)
    rw [hnot]
    refine iff_of_false (fun h => hzero _ ?_ h.symm) fun h => h.1 hch
    exact decide_eq_true hch.symm
  · rw [hother _ (decide_eq_false (Ne.symm hch))]
    by_cases hval : charValue (toChar ch) = ch
    · refine iff_of_true (hcongr _ _ fun c _ => ?_) ⟨hch, .inl hval⟩
      rw [decide_eq_decide, charValue_eq_iff]
      exact and_iff_left hval
    · rw [hvalue hval, eq_comm, hnone, ValueOrAbsent]
      simp only [decide_eq_false_iff_not, hch, ne_eq, not_false_eq_true, true_and, hval, false_or]
      constructor
      · intro h hmem
        exact h _ hmem rfl
      · rintro h c hc rfl
        exact h hc

theorem strchr_iff (hs : ∀ c ∈ s, c ≠ 0) :
    (s.findIdx? fun c => charValue c = ch) = firstPlace s ch ↔ ValueOrAbsent s ch := by
  have hcongr : ∀ p q : UInt8 → Bool, (∀ c ∈ s, p c = q c) → s.findIdx? p = s.findIdx? q := by
    intro p q h
    clear hs
    induction s with
    | nil => rfl
    | cons c s ih =>
        obtain ⟨hc, hrest⟩ := List.forall_mem_cons.1 h
        rw [List.findIdx?_cons, List.findIdx?_cons, hc, ih hrest]
  have hother : ∀ p : UInt8 → Bool, p 0 = false → (s ++ [0]).findIdx? p = s.findIdx? p := by
    intro p h
    simp [List.findIdx?_append, h]
  have hzero : ∀ p : UInt8 → Bool, p 0 = true → (s ++ [0]).findIdx? p ≠ none := by
    intro p h hnone
    exact absurd (List.findIdx?_eq_none_iff.1 hnone 0 (List.mem_append_right s List.mem_cons_self)) (by simp [h])
  have hplace : (fun (p : UInt8 → Bool) (s : List UInt8) => s.findIdx? p) (fun c => charValue c = ch) s = _ ↔ _ :=
    place_iff hs hcongr (fun p => List.findIdx?_eq_none_iff) hother hzero
  exact hplace

theorem strrchr_iff (hs : ∀ c ∈ s, c ≠ 0) :
    lastIdx? (fun c => charValue c = ch) s = lastPlace s ch ↔ ValueOrAbsent s ch := by
  refine place_iff hs (fun p q h => lastIdx?_congr h) (fun p => lastIdx?_eq_none_iff)
    (fun p h => lastIdx?_concat 0 h) ?_
  intro p h
  rw [lastIdx?_concat_self 0 h]
  exact Option.some_ne_none _

theorem strstr_iff : (s.tails.dropLast.findIdx? fun r => r = t) = firstOccurrence s t ↔ OccursAtEnd s t := by
  induction s with
  | nil =>
      cases t with
      | nil => simp [firstOccurrence, OccursAtEnd]
      | cons d t => simp [firstOccurrence, OccursAtEnd]
  | cons c s ih =>
      have htails : (c :: s).tails.dropLast = (c :: s) :: s.tails.dropLast := by
        rw [List.tails_cons, List.dropLast_cons_of_ne_nil (by cases s <;> simp)]
      have hfirst : firstOccurrence (c :: s) t =
          if t.isPrefixOf (c :: s) then some 0 else (firstOccurrence s t).map (· + 1) := by
        rw [firstOccurrence, List.tails_cons, List.findIdx?_cons]
        rfl
      unfold OccursAtEnd
      rw [htails, hfirst, List.findIdx?_cons]
      by_cases hprefix : t.isPrefixOf (c :: s) = true
      · rw [if_pos hprefix]
        by_cases heq : c :: s = t
        · subst heq
          simp
        · simp [heq]
      · have hne : c :: s ≠ t := by
          rintro rfl
          simp at hprefix
        rw [if_neg hprefix]
        simp only [hne, decide_false, Bool.false_eq_true, if_false]
        rw [(Option.map_injective (Nat.succ_injective)).eq_iff, ih]
        constructor
        · intro h i hi
          obtain ⟨j, hj, rfl⟩ := Option.map_eq_some_iff.1 hi
          exact h j hj
        · intro h j hj
          exact h (j + 1) (by rw [hj]; rfl)

end Promises

/-! ### The theorem -/

theorem map_add_inj {x y : Option Nat} (a : Nat) : x.map (a + ·) = y.map (a + ·) ↔ x = y :=
  (Option.map_injective (add_right_injective a)).eq_iff

/-- What the string functions leave and return, where nothing overlaps. `strcpy` is right exactly where there is a zero
    behind the copy already. `strcat`, `strncat` and `strlcpy` are always right. `strstr` is right exactly where the
    other string does not occur, or its first occurrence is at the end, and `strchr` and `strrchr` where the character
    is not zero, and is given as the value of a `char`, or does not occur. -/
theorem string_functions_iff (mem : Memory) :
    (∀ dest src s, Holds mem src s → Apart dest s.length src s.length →
      ∃ mem', strcpy mem dest src = .ok mem' ∧ (StringAt mem' dest s ↔ mem (dest + s.length) = 0)) ∧
    (∀ dest src d s, Holds mem dest d → Holds mem src s → Apart dest (d.length + s.length) src s.length →
      ∃ mem', strcat mem dest src = .ok mem' ∧ StringAt mem' dest (d ++ s)) ∧
    (∀ dest src d s n, Holds mem dest d → Holds mem src s →
      Apart dest (d.length + (s.take n).length) src s.length →
      ∃ mem', strncat mem dest src n = .ok mem' ∧ StringAt mem' dest (d ++ s.take n)) ∧
    (∀ dest src s size, Holds mem src s → 1 ≤ size → Apart dest (s.take (size - 1)).length src s.length →
      ∃ mem', strlcpy mem dest src size = .ok (s.length, mem') ∧ StringAt mem' dest (s.take (size - 1))) ∧
    (∀ str sub s t, Holds mem str s → Holds mem sub t →
      ∃ found, strstr mem str sub = .ok found ∧ (found = (firstOccurrence s t).map (str + ·) ↔ OccursAtEnd s t)) ∧
    ∀ str s ch, Holds mem str s →
      (∃ found, strchr mem str ch = .ok found ∧ (found = (firstPlace s ch).map (str + ·) ↔ ValueOrAbsent s ch)) ∧
      ∃ found, strrchr mem str ch = .ok found ∧ (found = (lastPlace s ch).map (str + ·) ↔ ValueOrAbsent s ch) := by
  refine ⟨?_, ?_, ?_, ?_, ?_, ?_⟩
  · intro dest src s hs hapart
    refine ⟨_, strcpy_eq hs hapart, ?_⟩
    rw [stringAt_iff, writeBytes_outside (.inr (Nat.le_refl _))]
    exact ⟨fun h => h.2.2, fun h => ⟨bytesAt_writeBytes mem dest s, hs.stringAt.ne_zero, h⟩⟩
  · intro dest src d s hd hs hapart
    exact ⟨_, strcat_eq hd hs hapart, hd.appendBytes hs.stringAt.ne_zero⟩
  · intro dest src d s n hd hs hapart
    refine ⟨_, strncat_eq hd hs hapart, hd.appendBytes fun c hc => ?_⟩
    exact hs.stringAt.ne_zero c (List.mem_of_mem_take hc)
  · intro dest src s size hs hsize hapart
    refine ⟨_, strlcpy_eq hs hsize hapart, stringAt_writeBytes mem dest fun c hc => ?_⟩
    exact hs.stringAt.ne_zero c (List.mem_of_mem_take hc)
  · intro str sub s t hs ht
    exact ⟨_, strstr_eq hs ht, (map_add_inj str).trans strstr_iff⟩
  · intro str s ch hs
    exact ⟨⟨_, strchr_eq hs ch, (map_add_inj str).trans (strchr_iff hs.stringAt.ne_zero)⟩,
      ⟨_, strrchr_eq hs ch, (map_add_inj str).trans (strrchr_iff hs.stringAt.ne_zero)⟩⟩

/-- The strings `a`, `bca` and `aa`. -/
def staleMemory : Memory :=
  writeBytes (writeBytes (writeBytes (fun _ => 0) 4096 [0x61]) 8192 [0x62, 0x63, 0x61]) 12288 [0x61, 0x61]

theorem staleMemory_holds :
    Holds staleMemory 4096 [0x61] ∧ Holds staleMemory 8192 [0x62, 0x63, 0x61] ∧
      Holds staleMemory 12288 [0x61, 0x61] := by
  decide

/-- Each function on these strings. The destination of `strcpy` and `strlcpy` is empty. -/
theorem string_functions_stale :
    (∃ mem', strcpy staleMemory 16384 4096 = .ok mem' ∧ StringAt mem' 16384 [0x61]) ∧
    (∃ mem', strcat staleMemory 8192 4096 = .ok mem' ∧ StringAt mem' 8192 [0x62, 0x63, 0x61, 0x61]) ∧
    (∃ mem', strncat staleMemory 4096 8192 2 = .ok mem' ∧ StringAt mem' 4096 [0x61, 0x62, 0x63]) ∧
    (∃ mem', strlcpy staleMemory 16384 8192 3 = .ok (3, mem') ∧ StringAt mem' 16384 [0x62, 0x63]) ∧
    (∃ found, strstr staleMemory 8192 4096 = .ok found ∧ found = some 8194) ∧
    ∃ found, strchr staleMemory 8192 0x63 = .ok found ∧ found = some 8193 := by
  obtain ⟨hs, hd, -⟩ := staleMemory_holds
  obtain ⟨hstrcpy, hstrcat, hstrncat, hstrlcpy, hstrstr, hplaces⟩ := string_functions_iff staleMemory
  refine ⟨?_, hstrcat 8192 4096 _ _ hd hs (by decide), hstrncat 4096 8192 _ _ 2 hs hd (by decide),
    hstrlcpy 16384 8192 _ 3 hd (by decide) (by decide), ?_, ?_⟩
  · obtain ⟨mem', hcall, hiff⟩ := hstrcpy 16384 4096 _ hs (by decide)
    exact ⟨mem', hcall, hiff.2 (by decide)⟩
  · obtain ⟨found, hcall, hiff⟩ := hstrstr 8192 4096 _ _ hd hs
    refine ⟨found, hcall, hiff.2 fun i hi => ?_⟩
    obtain rfl : 2 = i := Option.some.inj hi
    decide
  · obtain ⟨found, hcall, hiff⟩ := (hplaces 8192 _ 0x63 hd).1
    exact ⟨found, hcall, hiff.2 ⟨by decide, .inl (by decide)⟩⟩

/-- `strcpy` leaves `aca`, `strstr` finds `a` in `aa` behind its first place only, and `strchr` does not find the
    zero. -/
theorem string_functions_unterminated :
    (∃ mem', strcpy staleMemory 8192 4096 = .ok mem' ∧ ¬ StringAt mem' 8192 [0x61]) ∧
    (strstr staleMemory 12288 4096 = .ok (some 12289) ∧ firstOccurrence [0x61, 0x61] [0x61] = some 0) ∧
    strchr staleMemory 4096 0 = .ok none ∧ firstPlace [0x61] 0 = some 1 := by
  obtain ⟨ha, -, haa⟩ := staleMemory_holds
  refine ⟨⟨_, strcpy_eq ha (by decide), by decide⟩, ⟨?_, by decide⟩, ?_, by decide⟩
  · rw [strstr_eq haa ha]
    decide
  · rw [strchr_eq ha]
    decide

end CString

end Chaotix
