/-
Module: Chaotix.Lib.FileBytes
Layer: Lib
Purpose: A file as a list of values. Writing at an offset replaces the values there and fills the gap
  before them, truncating cuts the list or fills it up, and reading takes what there is. Each operation
  is determined by its length and its values, position by position. Writes that follow one another append
  their values.
Imports: none (Mathlib-free)
Trusted boundary: none
Main exports: FileBytes.write, FileBytes.truncate, FileBytes.read, FileBytes.eq_write,
  FileBytes.eq_truncate, FileBytes.eq_read, FileBytes.Appended, FileBytes.Appended.write
-/

universe u

namespace FileBytes

variable {α : Type u}

/-- Fill a list up to a length. -/
def extend (zero : α) (l : List α) (n : Nat) : List α := l ++ List.replicate (n - l.length) zero

/-- Replace the values from the offset on, after filling the list up to the offset. -/
def write (zero : α) (l : List α) (offset : Nat) (values : List α) : List α :=
  (extend zero l offset).take offset ++ values ++ l.drop (offset + values.length)

/-- Cut a list or fill it up. -/
def truncate (zero : α) (l : List α) (n : Nat) : List α := (extend zero l n).take n

/-- The longest part of the request that there is. -/
def read (l : List α) (offset count : Nat) : List α := (l.drop offset).take count

variable {zero : α} {l l' values : List α} {offset n : Nat}

theorem length_extend (zero : α) (l : List α) (n : Nat) : (extend zero l n).length = max l.length n := by
  rw [extend, List.length_append, List.length_replicate]
  omega

theorem getElem?_extend_lt {i : Nat} (h : i < l.length) : (extend zero l n)[i]? = l[i]? := by
  rw [extend, List.getElem?_append_left h]

theorem getElem?_extend_ge {i : Nat} (h : l.length ≤ i) (hn : i < n) :
    (extend zero l n)[i]? = some zero := by
  rw [extend, List.getElem?_append_right h, List.getElem?_replicate, if_pos (by omega)]

theorem length_write : (write zero l offset values).length = max l.length (offset + values.length) := by
  rw [write, List.length_append, List.length_append, List.length_take, length_extend, List.length_drop]
  omega

theorem length_take_extend (zero : α) (l : List α) (n : Nat) : ((extend zero l n).take n).length = n := by
  rw [List.length_take, length_extend]
  omega

/-- What a write gives, position by position. -/
theorem eq_write (hlength : l'.length = max l.length (offset + values.length))
    (hinside : ∀ i, i < values.length → l'[offset + i]? = values[i]?)
    (houtside : ∀ i, i < l.length → i < offset ∨ offset + values.length ≤ i → l'[i]? = l[i]?)
    (hgap : ∀ i, l.length ≤ i → i < offset → l'[i]? = some zero) :
    l' = write zero l offset values := by
  have htake := length_take_extend zero l offset
  apply List.ext_getElem?
  intro i
  by_cases hi : i < l'.length
  · rw [write, List.append_assoc]
    by_cases hlo : i < offset
    · rw [List.getElem?_append_left (by omega), List.getElem?_take_of_lt hlo]
      by_cases hold : i < l.length
      · rw [houtside i hold (Or.inl hlo), getElem?_extend_lt hold]
      · rw [hgap i (by omega) hlo, getElem?_extend_ge (by omega) hlo]
    · rw [List.getElem?_append_right (by omega), htake]
      by_cases hhi : i < offset + values.length
      · have hvalue := hinside (i - offset) (by omega)
        rw [Nat.add_sub_cancel' (by omega)] at hvalue
        rw [hvalue, List.getElem?_append_left (by omega)]
      · rw [List.getElem?_append_right (by omega), List.getElem?_drop,
          houtside i (by omega) (Or.inr (by omega))]
        congr 1
        omega
  · rw [List.getElem?_eq_none (by omega), List.getElem?_eq_none (by rw [length_write]; omega)]

theorem getElem?_write_inside {i : Nat} (h : i < values.length) :
    (write zero l offset values)[offset + i]? = values[i]? := by
  have htake := length_take_extend zero l offset
  rw [write, List.append_assoc, List.getElem?_append_right (by omega), htake, Nat.add_sub_cancel_left,
    List.getElem?_append_left h]

theorem getElem?_write_before {i : Nat} (h : i < offset) :
    (write zero l offset values)[i]? = (extend zero l offset)[i]? := by
  have htake := length_take_extend zero l offset
  rw [write, List.append_assoc, List.getElem?_append_left (by omega), List.getElem?_take_of_lt h]

theorem getElem?_write_after {i : Nat} (h : offset + values.length ≤ i) :
    (write zero l offset values)[i]? = l[i]? := by
  have htake := length_take_extend zero l offset
  rw [write, List.getElem?_append_right (by rw [List.length_append]; omega), List.length_append, htake,
    List.getElem?_drop, Nat.add_sub_cancel' h]

/-- What a truncation gives, position by position. -/
theorem eq_truncate (hlength : l'.length = n)
    (hsame : ∀ i, i < l.length → i < n → l'[i]? = l[i]?)
    (hzero : ∀ i, l.length ≤ i → i < n → l'[i]? = some zero) : l' = truncate zero l n := by
  have htake := length_take_extend zero l n
  apply List.ext_getElem?
  intro i
  rw [truncate]
  by_cases hi : i < n
  · rw [List.getElem?_take_of_lt hi]
    by_cases hold : i < l.length
    · rw [hsame i hold hi, getElem?_extend_lt hold]
    · rw [hzero i (by omega) hi, getElem?_extend_ge (by omega) hi]
  · rw [List.getElem?_eq_none (by omega), List.getElem?_eq_none (by omega)]

/-- What a read gives, position by position. -/
theorem eq_read {count : Nat} (hlength : l'.length = min count (l.length - offset))
    (hsame : ∀ i, i < l'.length → l'[i]? = l[offset + i]?) : l' = read l offset count := by
  apply List.ext_getElem?
  intro i
  rw [read]
  by_cases hi : i < l'.length
  · rw [hsame i hi, List.getElem?_take_of_lt (by omega), List.getElem?_drop]
  · rw [List.getElem?_eq_none (by omega), List.getElem?_eq_none]
    rw [List.length_take, List.length_drop]
    omega

/-! ### One write after the other -/

/-- The values stand in the list from a position on, and nothing else has changed but a gap before them that
    has been filled. -/
structure Appended (zero : α) (before : List α) (start : Nat) (written after : List α) : Prop where
  stretch : ∀ i, i < written.length → after[start + i]? = written[i]?
  outside : ∀ i, i < before.length → i < start ∨ start + written.length ≤ i → after[i]? = before[i]?
  gap : ∀ i, before.length ≤ i → i < start → i < after.length → after[i]? = some zero
  grown : before.length ≤ after.length
  bounded : after.length ≤ max before.length (start + written.length)

namespace Appended

variable {before written after : List α} {start : Nat}

/-- Nothing has been written. -/
theorem nil (zero : α) (before : List α) (start : Nat) : Appended zero before start [] before := by
  refine ⟨?_, fun i _ _ => rfl, ?_, Nat.le_refl _, Nat.le_max_left _ _⟩
  · intro i hi
    exact absurd hi (Nat.not_lt_zero i)
  · intro i hlo _ hhi
    omega

/-- The next write goes where the last one has stopped. -/
theorem write (h : Appended zero before start written after) (values : List α) :
    Appended zero before start (written ++ values)
      (FileBytes.write zero after (start + written.length) values) := by
  have hgrown := h.grown
  have hbounded := h.bounded
  -- what has been written so far is inside the list
  have hlast : written.length ≠ 0 → start + written.length ≤ after.length := by
    intro hne
    have hstretch := h.stretch (written.length - 1) (by omega)
    rw [List.getElem?_eq_getElem (by omega : written.length - 1 < written.length)] at hstretch
    obtain ⟨hlt, _⟩ := List.getElem?_eq_some_iff.1 hstretch
    omega
  constructor
  case stretch =>
    intro i hi
    rw [List.length_append] at hi
    by_cases hold : i < written.length
    · rw [getElem?_write_before (by omega), getElem?_extend_lt (by omega), h.stretch i hold,
        List.getElem?_append_left hold]
    · have hinside := @getElem?_write_inside _ zero after values (start + written.length)
        (i - written.length) (by omega)
      rw [show start + written.length + (i - written.length) = start + i by omega] at hinside
      rw [hinside, List.getElem?_append_right (by omega)]
  case outside =>
    intro i hi hout
    rw [List.length_append] at hout
    rcases hout with hlo | hhi
    · rw [getElem?_write_before (by omega), getElem?_extend_lt (by omega), h.outside i hi (Or.inl hlo)]
    · rw [getElem?_write_after (by omega), h.outside i hi (Or.inr (by omega))]
  case gap =>
    intro i hlo hhi _
    by_cases hold : i < after.length
    · rw [getElem?_write_before (by omega), getElem?_extend_lt hold, h.gap i hlo hhi hold]
    · rw [getElem?_write_before (by omega), getElem?_extend_ge (by omega) (by omega)]
  case grown =>
    rw [length_write]
    omega
  case bounded =>
    rw [length_write, List.length_append]
    omega

end Appended

end FileBytes
