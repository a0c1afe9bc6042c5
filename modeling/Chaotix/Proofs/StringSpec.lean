/-
Module: Chaotix.Proofs.StringSpec
Layer: Proofs
Purpose: What the functions that read a string return, for a string of characters in memory: its length, the order of
  two strings, and the places of a character. Texts with an equals sign have a key in front of it and a value behind.
Imports: Mathlib.Tactic, Chaotix.Lib.TerminatedString, Chaotix.Kernel.CString
Trusted boundary: none
Main exports: Holds, countFrom_eq, strlen_eq, strcmp_eq, strncmp_eq, strchr_eq, strchr_isSome, keyOf, valueOf,
  assignment_split, strchr_equal
-/
import Mathlib.Tactic
import Chaotix.Lib.TerminatedString
import Chaotix.Kernel.CString

namespace Chaotix

namespace CString

/-- The string is in memory, and its zero before the end of the address space. -/
structure Holds (mem : Memory) (a : Nat) (s : List UInt8) : Prop where
  stringAt : StringAt mem a s
  bound : a + s.length < wordSize

instance (mem : Memory) (a : Nat) (s : List UInt8) : Decidable (Holds mem a s) :=
  decidable_of_iff (StringAt mem a s ∧ a + s.length < wordSize) ⟨fun h => ⟨h.1, h.2⟩, fun h => ⟨h.1, h.2⟩⟩

section Holding

variable {mem mem' : Memory} {a b n : Nat} {c : UInt8} {s t : List UInt8}

theorem Holds.nil_iff : Holds mem a [] ↔ mem a = 0 ∧ a < wordSize :=
  ⟨fun h => ⟨h.stringAt, h.bound⟩, fun h => ⟨h.1, h.2⟩⟩

theorem Holds.cons_iff : Holds mem a (c :: s) ↔ mem a = c ∧ c ≠ 0 ∧ Holds mem (a + 1) s := by
  constructor
  · rintro ⟨⟨hc, hne, hs⟩, hbound⟩
    rw [List.length_cons] at hbound
    exact ⟨hc, hne, hs, by omega⟩
  · rintro ⟨hc, hne, hs, hbound⟩
    refine ⟨⟨hc, hne, hs⟩, ?_⟩
    rw [List.length_cons]
    omega

theorem Holds.lt (h : Holds mem a s) : a < wordSize := Nat.lt_of_le_of_lt (Nat.le_add_right a _) h.bound

theorem Holds.drop (h : Holds mem a s) (hn : n ≤ s.length) : Holds mem (a + n) (s.drop n) := by
  refine ⟨h.stringAt.drop hn, ?_⟩
  have hbound := h.bound
  rw [List.length_drop]
  omega

/-- The characters in front of a part of the string. -/
theorem Holds.append (h : Holds mem a (s ++ t)) : BytesAt mem a s ∧ Holds mem (a + s.length) t := by
  obtain ⟨hbytes, -, hrest⟩ := stringAt_append.1 h.stringAt
  have hbound := h.bound
  rw [List.length_append] at hbound
  exact ⟨hbytes, hrest, by omega⟩

/-- A string is there as long as its bytes are. -/
theorem Holds.congr (h : Holds mem a s) (hsame : ∀ x, a ≤ x → x ≤ a + s.length → mem' x = mem x) : Holds mem' a s :=
  ⟨h.stringAt.congr hsame, h.bound⟩

/-- A store elsewhere. -/
theorem Holds.update {x : Nat} (h : Holds mem a s) (hx : x < a ∨ a + s.length < x) (v : UInt8) :
    Holds (Function.update mem x v) a s :=
  h.congr fun y hy hle => Function.update_of_ne (by omega) _ _

/-- A zero that is stored into a string ends it. -/
theorem Holds.cut (h : Holds mem a s) (hn : n ≤ s.length) : Holds (Function.update mem (a + n) 0) a (s.take n) := by
  refine ⟨h.stringAt.cut hn, ?_⟩
  have hbound := h.bound
  rw [List.length_take_of_le hn]
  omega

end Holding

section Reading

variable {mem : Memory} {a b : Nat} {s t : List UInt8}

theorem countFrom_eq (h : Holds mem a s) (len : Nat) : countFrom mem a len = .ok (len + s.length) := by
  induction s generalizing a len with
  | nil =>
      obtain ⟨hzero, hlt⟩ := Holds.nil_iff.1 h
      rw [countFrom, if_pos hlt, if_pos hzero]
      rfl
  | cons c s ih =>
      obtain ⟨hc, hne, hrest⟩ := Holds.cons_iff.1 h
      rw [countFrom, if_pos h.lt, if_neg (hc ▸ hne), ih hrest, List.length_cons, Nat.add_right_comm, Nat.add_assoc]

theorem strlen_eq (h : Holds mem a s) : strlen mem a = .ok s.length := by
  rw [strlen, countFrom_eq h, Nat.zero_add]

theorem charValue_inj {c d : UInt8} : charValue c = charValue d ↔ c = d := by
  constructor
  · intro h
    have hc := c.toNat_lt
    have hd := d.toNat_lt
    apply UInt8.toNat_inj.1
    unfold charValue at h
    split_ifs at h <;> omega
  · rintro rfl
    rfl

/-- Two strings have no order when they are equal. -/
theorem strcmp_eq (hs : Holds mem a s) (ht : Holds mem b t) :
    ∃ order, strcmp mem a b = .ok order ∧ (order = 0 ↔ s = t) := by
  induction s generalizing a b t with
  | nil =>
      obtain ⟨hzero, hlt⟩ := Holds.nil_iff.1 hs
      rw [strcmp, if_pos ⟨hlt, ht.lt⟩]
      cases t with
      | nil =>
          rw [if_pos (hzero.trans (Holds.nil_iff.1 ht).1.symm), if_pos hzero]
          exact ⟨0, rfl, by simp⟩
      | cons d t =>
          obtain ⟨hd, hne, -⟩ := Holds.cons_iff.1 ht
          rw [if_neg (by rw [hzero, hd]; exact hne.symm)]
          refine ⟨_, rfl, ?_⟩
          split_ifs <;> simp
  | cons c s ih =>
      obtain ⟨hc, hne, hrest⟩ := Holds.cons_iff.1 hs
      rw [strcmp, if_pos ⟨hs.lt, ht.lt⟩]
      cases t with
      | nil =>
          rw [if_neg (by rw [hc, (Holds.nil_iff.1 ht).1]; exact hne)]
          refine ⟨_, rfl, ?_⟩
          split_ifs <;> simp
      | cons d t =>
          obtain ⟨hd, -, hrest'⟩ := Holds.cons_iff.1 ht
          by_cases hcd : c = d
          · rw [if_pos (hc.trans (hcd.trans hd.symm)), if_neg (hc ▸ hne)]
            obtain ⟨order, horder, hiff⟩ := ih hrest hrest'
            refine ⟨order, horder, hiff.trans ?_⟩
            simp [hcd]
          · rw [if_neg (by rw [hc, hd]; exact hcd)]
            refine ⟨_, rfl, ?_⟩
            split_ifs <;> simp [hcd]

/-- Two strings whose first characters are compared. -/
theorem strncmp_eq (hs : Holds mem a s) (ht : Holds mem b t) (n : Nat) :
    ∃ order, strncmp mem a b n = .ok order ∧ (order = 0 ↔ s.take n = t.take n) := by
  induction n generalizing a b s t with
  | zero => exact ⟨0, rfl, by simp⟩
  | succ n ih =>
      rw [strncmp, if_pos ⟨hs.lt, ht.lt⟩]
      by_cases hsame : mem a = mem b
      · rw [if_neg (not_not_intro hsame)]
        cases s with
        | nil =>
            have hzero := (Holds.nil_iff.1 hs).1
            cases t with
            | nil => exact ⟨0, by rw [if_pos hzero], by simp⟩
            | cons d t =>
                obtain ⟨hd, hne, -⟩ := Holds.cons_iff.1 ht
                exact absurd (hd.symm.trans (hsame.symm.trans hzero)) hne
        | cons c s =>
            obtain ⟨hc, hne, hrest⟩ := Holds.cons_iff.1 hs
            cases t with
            | nil => exact absurd (hc.symm.trans (hsame.trans (Holds.nil_iff.1 ht).1)) hne
            | cons d t =>
                obtain ⟨hd, -, hrest'⟩ := Holds.cons_iff.1 ht
                obtain rfl : c = d := hc.symm.trans (hsame.trans hd)
                obtain ⟨order, horder, hiff⟩ := ih hrest hrest'
                refine ⟨order, by rw [if_neg (hc ▸ hne), horder], hiff.trans ?_⟩
                simp
      · rw [if_pos hsame]
        have hdiffer : ((mem a).toNat : Int) - (mem b).toNat ≠ 0 := by
          intro h
          exact hsame (UInt8.toNat_inj.1 (by omega))
        refine ⟨_, rfl, iff_of_false hdiffer ?_⟩
        cases s with
        | nil =>
            cases t with
            | nil => exact absurd ((Holds.nil_iff.1 hs).1.trans (Holds.nil_iff.1 ht).1.symm) hsame
            | cons d t => simp
        | cons c s =>
            cases t with
            | nil => simp
            | cons d t =>
                intro h
                have hhead : c = d := (List.cons.inj h).1
                exact hsame ((Holds.cons_iff.1 hs).1.trans (hhead.trans (Holds.cons_iff.1 ht).1.symm))

/-- The first place of a character that is not zero. -/
theorem strchr_eq (h : Holds mem a s) (ch : Int) :
    strchr mem a ch = .ok ((s.findIdx? fun c => charValue c = ch).map (a + ·)) := by
  induction s generalizing a with
  | nil =>
      obtain ⟨hzero, hlt⟩ := Holds.nil_iff.1 h
      rw [strchr, if_pos hlt, if_pos hzero]
      rfl
  | cons c s ih =>
      obtain ⟨hc, hne, hrest⟩ := Holds.cons_iff.1 h
      rw [strchr, if_pos h.lt, if_neg (hc ▸ hne), List.findIdx?_cons, hc]
      by_cases hch : charValue c = ch
      · rw [if_pos hch]
        simp [hch]
      · rw [if_neg hch, ih hrest]
        simp only [hch, decide_false, Bool.false_eq_true, if_false, Option.map_map]
        congr 2
        funext i
        simp only [Function.comp_apply]
        omega

/-- A character is found in the strings it is in. -/
theorem strchr_isSome (h : Holds mem a s) (c : UInt8) :
    ∃ found, strchr mem a (charValue c) = .ok found ∧ (found.isSome = true ↔ c ∈ s) := by
  refine ⟨_, strchr_eq h (charValue c), ?_⟩
  rw [Option.isSome_map, List.findIdx?_isSome, List.any_eq_true]
  simp [charValue_inj]

end Reading

/-! ### Keys and values -/

section Assignments

variable {mem : Memory} {p : Nat}

/-- The key of a text: what is in front of its first equals sign. -/
def keyOf (text : List UInt8) : List UInt8 := text.takeWhile fun c => c ≠ 0x3d

/-- The value of a text: what is behind its first equals sign, if it has one. -/
def valueOf (text : List UInt8) : Option (List UInt8) := (text.dropWhile fun c => c ≠ 0x3d).tail?

/-- A text is its key, or its key, an equals sign and its value. -/
theorem assignment_split (text : List UInt8) :
    valueOf text = none ∧ keyOf text = text ∨
      ∃ value, valueOf text = some value ∧ text = keyOf text ++ 0x3d :: value := by
  induction text with
  | nil => exact .inl ⟨rfl, rfl⟩
  | cons c cs ih =>
      unfold valueOf keyOf at ih ⊢
      by_cases hc : c = 0x3d
      · subst hc
        exact .inr ⟨cs, rfl, rfl⟩
      · rw [List.dropWhile_cons_of_pos (by simpa using hc), List.takeWhile_cons_of_pos (by simpa using hc)]
        rcases ih with ⟨hvalue, hkey⟩ | ⟨value, hvalue, htext⟩
        · exact .inl ⟨hvalue, by rw [hkey]⟩
        · exact .inr ⟨value, hvalue, by rw [List.cons_append, ← htext]⟩

theorem keyOf_length_le (text : List UInt8) : (keyOf text).length ≤ text.length :=
  (List.takeWhile_sublist _).length_le

/-- The first place of the equals sign. -/
theorem findIdx?_equal (text : List UInt8) :
    (text.findIdx? fun c => charValue c = 0x3d) = (valueOf text).map fun _ => (keyOf text).length := by
  have hvalue : ∀ c : UInt8, charValue c = 0x3d ↔ c = 0x3d := fun c => charValue_inj (d := 0x3d)
  induction text with
  | nil => rfl
  | cons c cs ih =>
      rw [List.findIdx?_cons, ih]
      by_cases hc : c = 0x3d
      · subst hc
        rfl
      · unfold valueOf keyOf
        rw [List.dropWhile_cons_of_pos (by simpa using hc), List.takeWhile_cons_of_pos (by simpa using hc)]
        simp only [hvalue, hc, decide_false, Bool.false_eq_true, if_false, Option.map_map, List.length_cons]
        rfl

/-- `strchr` finds the equals sign between key and value. -/
theorem strchr_equal {text : List UInt8} (h : Holds mem p text) :
    strchr mem p 0x3d = .ok ((valueOf text).map fun _ => p + (keyOf text).length) := by
  rw [strchr_eq h, findIdx?_equal, Option.map_map]
  rfl

end Assignments

end CString

end Chaotix
