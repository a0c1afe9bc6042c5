/-
Module: Chaotix.Proofs.EnvironmentLookup
Layer: Proofs
Purpose: `getenv` beside the entry that is meant. The comparison is as long as the entry's key, so an entry whose key is
  only the beginning of the name is taken for it, and an empty name is never found.
Imports: Mathlib.Tactic, Chaotix.Userland.Environment, Chaotix.Proofs.StringSpec, Chaotix.Proofs.StringTokens
Trusted boundary: none
Main exports: Assigns, Shadows, Unshadowed, getenv_eq, getenv_iff
-/
import Mathlib.Tactic
import Chaotix.Userland.Environment
import Chaotix.Proofs.StringSpec
import Chaotix.Proofs.StringTokens

namespace Chaotix

open CString

/-! ### Entries -/

section Entries

variable {entry name : Chars} {entries : List Chars}

/-- The entry is an assignment to the name. -/
def Assigns (entry name : Chars) : Prop := valueOf entry ≠ none ∧ keyOf entry = name

instance (entry name : Chars) : Decidable (Assigns entry name) := inferInstanceAs (Decidable (_ ∧ _))

/-- The entry is an assignment to a part of the name, from its beginning on, that is neither empty nor the name. -/
def Shadows (entry name : Chars) : Prop :=
  valueOf entry ≠ none ∧ keyOf entry ≠ [] ∧ keyOf entry <+: name ∧ keyOf entry ≠ name

instance (entry name : Chars) : Decidable (Shadows entry name) := inferInstanceAs (Decidable (_ ∧ _))

/-- The text of a variable: the value of the first assignment to it. -/
def variableText (entries : List Chars) (name : Chars) : Option Chars :=
  (entries.find? fun entry => Assigns entry name).bind valueOf

/-- The first entry that is an assignment to the name, or to a beginning of it, is one to the name, and the name is not
    empty; or it has the same text as the variable. -/
def Unshadowed (name : Chars) : List Chars → Prop
  | [] => True
  | entry :: entries =>
      if Assigns entry name then name ≠ []
      else if Shadows entry name then valueOf entry = variableText entries name
      else Unshadowed name entries

/-- The entry at which `getenv` stops. -/
def Matches (entry name : Chars) : Prop := valueOf entry ≠ none ∧ keyOf entry ≠ [] ∧ keyOf entry <+: name

instance (entry name : Chars) : Decidable (Matches entry name) := inferInstanceAs (Decidable (_ ∧ _))

theorem matches_iff : Matches entry name ↔ Assigns entry name ∧ name ≠ [] ∨ Shadows entry name := by
  constructor
  · rintro ⟨hvalue, hne, hprefix⟩
    by_cases hkey : keyOf entry = name
    · exact .inl ⟨⟨hvalue, hkey⟩, hkey ▸ hne⟩
    · exact .inr ⟨hvalue, hne, hprefix, hkey⟩
  · rintro (⟨⟨hvalue, rfl⟩, hne⟩ | ⟨hvalue, hne, hprefix, -⟩)
    · exact ⟨hvalue, hne, List.prefix_rfl⟩
    · exact ⟨hvalue, hne, hprefix⟩

/-- No entry matches the empty name. -/
theorem find_matches_nil (entries : List Chars) : (entries.find? fun entry => Matches entry []) = none := by
  rw [List.find?_eq_none]
  rintro entry - hmatches
  obtain ⟨-, hne, hprefix⟩ := of_decide_eq_true hmatches
  exact hne (List.prefix_nil.1 hprefix)

/-- The first match is as good as the variable exactly where it is not shadowed. -/
theorem first_match_iff :
    ((entries.find? fun entry => Matches entry name).bind valueOf) = variableText entries name ↔
      Unshadowed name entries := by
  induction entries with
  | nil => exact iff_of_true rfl trivial
  | cons entry entries ih =>
      rw [Unshadowed]
      by_cases hassigns : Assigns entry name
      · have htext : variableText (entry :: entries) name = valueOf entry := by
          simp [variableText, hassigns]
        rw [if_pos hassigns, htext]
        by_cases hname : name = []
        · subst hname
          rw [find_matches_nil]
          exact iff_of_false hassigns.1.symm (not_not_intro rfl)
        · have hmatches : Matches entry name := matches_iff.2 (.inl ⟨hassigns, hname⟩)
          refine iff_of_true ?_ hname
          simp [hmatches]
      · have htext : variableText (entry :: entries) name = variableText entries name := by
          simp [variableText, hassigns]
        rw [if_neg hassigns, htext]
        by_cases hshadows : Shadows entry name
        · have hmatches : Matches entry name := matches_iff.2 (.inr hshadows)
          rw [if_pos hshadows]
          simp [hmatches]
        · have hmatches : ¬ Matches entry name := by
            rw [matches_iff]
            rintro (⟨h, -⟩ | h)
            · exact hassigns h
            · exact hshadows h
          rw [if_neg hshadows, ← ih]
          simp [hmatches]

end Entries

/-! ### The loop -/

section Loop

variable {mem : Memory} {environ : List Nat} {entries : List Chars} {nameAddr : Nat} {name : Chars}

/-- `getenv` returns the text of the first entry that matches. -/
theorem getenv_eq (henviron : List.Forall₂ (Holds mem) environ entries) (hname : Holds mem nameAddr name) :
    ∃ found, getenv mem nameAddr environ = .ok found ∧
      Points mem found ((entries.find? fun entry => Matches entry name).bind valueOf) := by
  induction henviron with
  | nil => exact ⟨none, rfl, trivial⟩
  | @cons env entry environ entries hentry _ ih =>
      obtain ⟨found, hrest, hpoints⟩ := ih
      rw [getenv, strchr_equal hentry]
      rcases assignment_split entry with ⟨hvalue, -⟩ | ⟨value, hvalue, hsplit⟩
      · have hmatches : ¬ Matches entry name := fun h => h.1 hvalue
        refine ⟨found, ?_, ?_⟩
        · rw [hvalue]
          exact hrest
        · rwa [List.find?_cons_of_neg (by simpa using hmatches)]
      · have hlen : env + (keyOf entry).length - env = (keyOf entry).length := Nat.add_sub_cancel_left _ _
        obtain ⟨order, horder, hiff⟩ := strncmp_eq hentry hname (keyOf entry).length
        have htake : entry.take (keyOf entry).length = keyOf entry :=
          (congrArg (List.take _) hsplit).trans List.take_left
        rw [htake, ← List.prefix_iff_eq_take] at hiff
        simp only [bind, Except.bind, hvalue, Option.map_some, hlen, horder]
        by_cases hkey : keyOf entry = []
        · have hmatches : ¬ Matches entry name := fun h => h.2.1 hkey
          refine ⟨found, ?_, ?_⟩
          · simpa [hkey] using hrest
          · rwa [List.find?_cons_of_neg (by simpa using hmatches)]
        · rw [if_pos (List.length_pos_iff.2 hkey)]
          by_cases hprefix : keyOf entry <+: name
          · have hmatches : Matches entry name := ⟨by simp [hvalue], hkey, hprefix⟩
            refine ⟨_, by rw [if_pos (hiff.2 hprefix)]; rfl, ?_⟩
            rw [List.find?_cons_of_pos (by simpa using hmatches), Option.bind_some, hvalue]
            exact (Holds.cons_iff.1 (Holds.append (hsplit ▸ hentry)).2).2.2
          · have hmatches : ¬ Matches entry name := fun h => hprefix h.2.2
            refine ⟨found, by rw [if_neg (mt hiff.1 hprefix)]; exact hrest, ?_⟩
            rwa [List.find?_cons_of_neg (by simpa using hmatches)]

/-- A pointer has one text. -/
theorem points_unique {found : Option Nat} {s t : Option Chars} (hs : Points mem found s) (ht : Points mem found t) :
    s = t := by
  cases found with
  | none =>
      cases s with
      | none =>
          cases t with
          | none => rfl
          | some t => exact absurd ht id
      | some s => exact absurd hs id
  | some a =>
      cases s with
      | none => exact absurd hs id
      | some s =>
          cases t with
          | none => exact absurd ht id
          | some t => rw [StringAt.unique hs.stringAt ht.stringAt]

/-- `getenv` returns the text of the variable exactly where no assignment to a beginning of its name comes first, or one
    that does has the same text, and the variable has a name. -/
theorem getenv_iff (henviron : List.Forall₂ (Holds mem) environ entries) (hname : Holds mem nameAddr name) :
    ∃ found, getenv mem nameAddr environ = .ok found ∧
      (Points mem found (variableText entries name) ↔ Unshadowed name entries) := by
  obtain ⟨found, hcall, hpoints⟩ := getenv_eq henviron hname
  refine ⟨found, hcall, ?_⟩
  rw [← first_match_iff]
  constructor
  · intro h
    exact points_unique hpoints h
  · intro h
    exact h ▸ hpoints

end Loop

/-- The entries `A=1` and `AB=2`, and the name `AB`. -/
def shadowedMemory : Memory :=
  writeBytes (writeBytes (writeBytes (fun _ => 0) 4096 [0x41, 0x3d, 0x31]) 4112 [0x41, 0x42, 0x3d, 0x32]) 8192
    [0x41, 0x42]

theorem shadowedMemory_name : Holds shadowedMemory 8192 [0x41, 0x42] := by decide

theorem shadowedMemory_entries :
    Holds shadowedMemory 4096 [0x41, 0x3d, 0x31] ∧ Holds shadowedMemory 4112 [0x41, 0x42, 0x3d, 0x32] := by decide

/-- With `AB=2` in front of `A=1`, the text of `AB` is found. -/
theorem getenv_name_first :
    ∃ found, getenv shadowedMemory 8192 [4112, 4096] = .ok found ∧
      (Points shadowedMemory found (variableText [[0x41, 0x42, 0x3d, 0x32], [0x41, 0x3d, 0x31]] [0x41, 0x42]) ↔
        Unshadowed [0x41, 0x42] [[0x41, 0x42, 0x3d, 0x32], [0x41, 0x3d, 0x31]]) :=
  getenv_iff (.cons shadowedMemory_entries.2 (.cons shadowedMemory_entries.1 .nil)) shadowedMemory_name

/-- With `A=1` in front of `AB=2`, the text of `A` is returned for `AB`. -/
theorem getenv_shadowed :
    Holds shadowedMemory 8192 [0x41, 0x42] ∧
    List.Forall₂ (Holds shadowedMemory) [4096, 4112] [[0x41, 0x3d, 0x31], [0x41, 0x42, 0x3d, 0x32]] ∧
    variableText [[0x41, 0x3d, 0x31], [0x41, 0x42, 0x3d, 0x32]] [0x41, 0x42] = some [0x32] ∧
      ∃ found, getenv shadowedMemory 8192 [4096, 4112] = .ok found ∧ Points shadowedMemory found (some [0x31]) := by
  have hentries : List.Forall₂ (Holds shadowedMemory) [4096, 4112] [[0x41, 0x3d, 0x31], [0x41, 0x42, 0x3d, 0x32]] :=
    .cons shadowedMemory_entries.1 (.cons shadowedMemory_entries.2 .nil)
  obtain ⟨found, hcall, hpoints⟩ := getenv_eq hentries shadowedMemory_name
  exact ⟨shadowedMemory_name, hentries, by decide, found, hcall, hpoints⟩

end Chaotix
