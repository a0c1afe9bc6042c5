/-
Module: Chaotix.Lib.TerminatedString
Layer: Lib
Purpose: Strings in byte memory, each with a zero behind its last character and none before. An address determines the
  string; a string keeps the ones behind it, is cut by a zero that is stored into it, and depends on its own bytes only.
Imports: Chaotix.Lib.ByteMem
Trusted boundary: none
Main exports: StringAt, StringAt.unique, StringAt.congr, StringAt.drop, StringAt.cut, stringAt_iff, stringAt_writeBytes
-/
import Chaotix.Lib.ByteMem

/-- The string stands in memory from an address on, with a zero behind it. -/
def StringAt (mem : Nat → UInt8) : Nat → List UInt8 → Prop
  | a, [] => mem a = 0
  | a, c :: s => mem a = c ∧ c ≠ 0 ∧ StringAt mem (a + 1) s

/-- Whether a string stands at an address can be computed. -/
instance StringAt.decidable (mem : Nat → UInt8) : ∀ a s, Decidable (StringAt mem a s)
  | a, [] => inferInstanceAs (Decidable (mem a = 0))
  | a, c :: s =>
      have := StringAt.decidable mem (a + 1) s
      inferInstanceAs (Decidable (mem a = c ∧ c ≠ 0 ∧ StringAt mem (a + 1) s))

section Strings

variable {mem mem' : Nat → UInt8} {a n : Nat} {s t : List UInt8}

/-- There is one string at an address. -/
theorem StringAt.unique (hs : StringAt mem a s) (ht : StringAt mem a t) : s = t := by
  induction s generalizing a t with
  | nil =>
      cases t with
      | nil => rfl
      | cons d t => exact absurd (ht.1.symm.trans hs) ht.2.1
  | cons c s ih =>
      cases t with
      | nil => exact absurd (hs.1.symm.trans ht) hs.2.1
      | cons d t =>
          obtain rfl : c = d := hs.1.symm.trans ht.1
          rw [ih hs.2.2 ht.2.2]

/-- A string is there as long as its bytes are. -/
theorem StringAt.congr (h : StringAt mem a s) (hsame : ∀ x, a ≤ x → x ≤ a + s.length → mem' x = mem x) :
    StringAt mem' a s := by
  induction s generalizing a with
  | nil => exact (hsame a (Nat.le_refl a) (Nat.le_add_right a _)).trans h
  | cons c s ih =>
      rw [List.length_cons] at hsame
      refine ⟨(hsame a (Nat.le_refl a) (Nat.le_add_right a _)).trans h.1, h.2.1, ih h.2.2 fun x hx hle => ?_⟩
      exact hsame x (by omega) (by omega)

theorem stringAt_append : StringAt mem a (s ++ t) ↔
    BytesAt mem a s ∧ (∀ c ∈ s, c ≠ 0) ∧ StringAt mem (a + s.length) t := by
  induction s generalizing a with
  | nil => simp [bytesAt_nil]
  | cons c s ih =>
      rw [List.cons_append, StringAt, ih, List.forall_mem_cons, List.length_cons, Nat.add_right_comm, ← Nat.add_assoc]
      constructor
      · rintro ⟨hc, hne, hs, hnonzero, ht⟩
        exact ⟨bytesAt_cons hc hs, ⟨hne, hnonzero⟩, ht⟩
      · rintro ⟨hbytes, ⟨hne, hnonzero⟩, ht⟩
        refine ⟨hbytes 0 (Nat.zero_lt_succ _), hne, ?_, hnonzero, ht⟩
        exact (bytesAt_append.1 (show BytesAt mem a ([c] ++ s) from hbytes)).2

/-- The characters of a string, none of which is zero, and the zero. -/
theorem stringAt_iff : StringAt mem a s ↔ BytesAt mem a s ∧ (∀ c ∈ s, c ≠ 0) ∧ mem (a + s.length) = 0 := by
  have h : StringAt mem a (s ++ []) ↔ _ := stringAt_append
  rwa [List.append_nil] at h

/-- A string begins at each of its characters. -/
theorem StringAt.drop (h : StringAt mem a s) (hn : n ≤ s.length) : StringAt mem (a + n) (s.drop n) := by
  have hsplit : StringAt mem a (s.take n ++ s.drop n) := (List.take_append_drop n s).symm ▸ h
  have hdrop := (stringAt_append.1 hsplit).2.2
  rwa [List.length_take_of_le hn] at hdrop

/-- A zero that is stored into a string ends it. -/
theorem StringAt.cut (h : StringAt mem a s) (hn : n ≤ s.length) :
    StringAt (Function.update mem (a + n) 0) a (s.take n) := by
  have hsplit : StringAt mem a (s.take n ++ s.drop n) := (List.take_append_drop n s).symm ▸ h
  obtain ⟨hbytes, hnonzero, -⟩ := stringAt_append.1 hsplit
  refine stringAt_iff.2 ⟨hbytes.congr fun x hx hlt => ?_, hnonzero, ?_⟩
  · rw [List.length_take_of_le hn] at hlt
    exact Function.update_of_ne (Nat.ne_of_lt hlt) _ _
  · rw [List.length_take_of_le hn]
    exact Function.update_self _ _ _

/-- A string that is written with its zero. -/
theorem stringAt_writeBytes (mem : Nat → UInt8) (a : Nat) (hs : ∀ c ∈ s, c ≠ 0) :
    StringAt (writeBytes mem a (s ++ [0])) a s := by
  obtain ⟨hbytes, hzero⟩ := bytesAt_append.1 (bytesAt_writeBytes mem a (s ++ [0]))
  exact stringAt_iff.2 ⟨hbytes, hs, hzero 0 Nat.zero_lt_one⟩

theorem StringAt.ne_zero (h : StringAt mem a s) : ∀ c ∈ s, c ≠ 0 := (stringAt_iff.1 h).2.1

theorem StringAt.bytesAt (h : StringAt mem a s) : BytesAt mem a s := (stringAt_iff.1 h).1

theorem StringAt.zero (h : StringAt mem a s) : mem (a + s.length) = 0 := (stringAt_iff.1 h).2.2

end Strings
