/-
Module: Chaotix.Lib.Fields
Layer: Lib
Purpose: Lists cut into fields at separators. A field is what stands between two separators, or before the first or
  behind the last one; empty fields do not count. The lemmas say how the fields of a list are found from the left, and
  that fields joined by separators are read back.
Imports: none (Mathlib-free)
Trusted boundary: none
Main exports: fields, fields_nil, fields_cons_sep, fields_cons, fields_append_sep, of_mem_splitOnP, mem_fields,
  length_fields_le, fields_flatMap
-/
variable {α : Type} {sep : α → Bool}

/-- The fields of a list that are not empty. -/
def fields (sep : α → Bool) (xs : List α) : List (List α) := (xs.splitOnP sep).filter fun field => !field.isEmpty

@[simp] theorem fields_nil : fields sep [] = [] := by
  simp [fields]

/-- A list up to its first separator, and what is split behind it. -/
theorem splitOnP_eq_takeWhile (xs : List α) :
    xs.splitOnP sep = xs.takeWhile (fun x => !sep x) ::
      match xs.dropWhile (fun x => !sep x) with
      | [] => []
      | _ :: rest => rest.splitOnP sep := by
  induction xs with
  | nil => simp
  | cons x xs ih =>
      rw [List.splitOnP_cons_eq_if_modifyHead]
      cases h : sep x with
      | true => simp [h]
      | false => simp [h, ih]

/-- What stands between separators comes from the list and has no separator in it. -/
theorem of_mem_splitOnP {xs field : List α} (h : field ∈ xs.splitOnP sep) : ∀ x ∈ field, x ∈ xs ∧ sep x = false := by
  induction xs generalizing field with
  | nil =>
      rw [List.splitOnP_nil, List.mem_singleton] at h
      simp [h]
  | cons y xs ih =>
      intro x hx
      have hrest : ∀ {rest : List α}, rest ∈ xs.splitOnP sep → x ∈ rest → x ∈ y :: xs ∧ sep x = false := by
        intro rest hrest hmem
        exact ⟨List.mem_cons_of_mem y (ih hrest x hmem).1, (ih hrest x hmem).2⟩
      rw [List.splitOnP_cons_eq_if_modifyHead] at h
      cases hy : sep y with
      | true =>
          rw [hy, if_pos rfl, List.mem_cons] at h
          cases h with
          | inl hnil => simp [hnil] at hx
          | inr htail => exact hrest htail hx
      | false =>
          rw [hy, if_neg Bool.false_ne_true] at h
          cases hsplit : xs.splitOnP sep with
          | nil => simp [hsplit] at h
          | cons first tail =>
              rw [hsplit, List.modifyHead_cons, List.mem_cons] at h
              cases h with
              | inl hfirst =>
                  rw [hfirst, List.mem_cons] at hx
                  cases hx with
                  | inl hhead => exact ⟨hhead ▸ List.mem_cons_self, hhead ▸ hy⟩
                  | inr hmem => exact hrest (hsplit ▸ List.mem_cons_self) hmem
              | inr htail => exact hrest (hsplit ▸ List.mem_cons_of_mem first htail) hx

/-- A separator in front adds no field. -/
theorem fields_cons_sep {x : α} (h : sep x = true) (xs : List α) : fields sep (x :: xs) = fields sep xs := by
  simp [fields, List.splitOnP_cons_eq_if_modifyHead, h]

/-- An element that is no separator begins the first field. -/
theorem fields_cons {x : α} (h : sep x = false) (xs : List α) :
    fields sep (x :: xs) =
      (x :: xs.takeWhile (fun y => !sep y)) :: fields sep (xs.dropWhile fun y => !sep y) := by
  have hrest : ((match xs.dropWhile (fun y => !sep y) with
      | [] => []
      | _ :: rest => rest.splitOnP sep).filter fun field => !field.isEmpty) =
        fields sep (xs.dropWhile fun y => !sep y) := by
    cases hdrop : xs.dropWhile (fun y => !sep y) with
    | nil => simp
    | cons y rest =>
        have hy : sep y = true := by
          have hhead := List.head?_dropWhile_not (fun y => !sep y) xs
          simpa [hdrop] using hhead
        rw [fields_cons_sep hy]
        rfl
  rw [fields, splitOnP_eq_takeWhile]
  simp only [List.takeWhile_cons, List.dropWhile_cons, h, Bool.not_false, if_true, List.filter_cons, List.isEmpty_cons]
  rw [hrest]

/-- Separators in front add no field. -/
theorem fields_dropWhile_sep (xs : List α) : fields sep (xs.dropWhile sep) = fields sep xs := by
  induction xs with
  | nil => rfl
  | cons x xs ih =>
      cases h : sep x with
      | true => rw [List.dropWhile_cons_of_pos h, fields_cons_sep h, ih]
      | false => rw [List.dropWhile_cons_of_neg (by simp [h])]

/-- The fields before a separator and the ones behind it. -/
theorem fields_append_sep {x : α} (h : sep x = true) (xs ys : List α) :
    fields sep (xs ++ x :: ys) = fields sep xs ++ fields sep ys := by
  rw [fields, List.splitOnP_append_cons xs ys h, List.filter_append]
  rfl

/-- A field is not empty and has no separator in it. -/
theorem mem_fields {xs field : List α} (h : field ∈ fields sep xs) : field ≠ [] ∧ ∀ x ∈ field, sep x = false := by
  induction hn : xs.length using Nat.strongRecOn generalizing xs with
  | ind n ih =>
      cases xs with
      | nil => simp at h
      | cons x xs =>
          cases hx : sep x with
          | true =>
              rw [fields_cons_sep hx] at h
              exact ih xs.length (by simp [← hn]) h rfl
          | false =>
              rw [fields_cons hx, List.mem_cons] at h
              cases h with
              | inl hfirst =>
                  subst hfirst
                  refine ⟨List.cons_ne_nil _ _, fun y hy => ?_⟩
                  cases List.mem_cons.1 hy with
                  | inl hhead => exact hhead ▸ hx
                  | inr htail => simpa using List.all_eq_true.1 List.all_takeWhile y htail
              | inr hrest =>
                  have hshorter := (List.dropWhile_sublist (fun y => !sep y) (l := xs)).length_le
                  exact ih _ (by simp only [← hn, List.length_cons]; omega) hrest rfl

/-- There are no more fields than elements. -/
theorem length_fields_le (xs : List α) : (fields sep xs).length ≤ xs.length := by
  induction hn : xs.length using Nat.strongRecOn generalizing xs with
  | ind n ih =>
      cases xs with
      | nil => simp
      | cons x xs =>
          cases hx : sep x with
          | true =>
              have hrest := ih xs.length (by simp [← hn]) xs rfl
              rw [fields_cons_sep hx, ← hn, List.length_cons]
              omega
          | false =>
              have hshorter := (List.dropWhile_sublist (fun y => !sep y) (l := xs)).length_le
              have hrest := ih _ (by simp only [← hn, List.length_cons]; omega) (xs.dropWhile fun y => !sep y) rfl
              rw [fields_cons hx, ← hn, List.length_cons, List.length_cons]
              omega

/-- A list without separators is its only field. -/
theorem fields_of_not_sep {xs : List α} (hne : xs ≠ []) (h : ∀ x ∈ xs, sep x = false) : fields sep xs = [xs] := by
  cases xs with
  | nil => exact absurd rfl hne
  | cons x xs => rw [fields, List.splitOnP_eq_singleton h]; rfl

/-- Fields that are written with a separator in front of each are read back. -/
theorem fields_flatMap {x : α} (hx : sep x = true) {parts : List (List α)}
    (h : ∀ part ∈ parts, part ≠ [] ∧ ∀ y ∈ part, sep y = false) :
    fields sep (parts.flatMap fun part => x :: part) = parts := by
  induction parts with
  | nil => simp
  | cons part parts ih =>
      obtain ⟨hne, hpart⟩ := h part List.mem_cons_self
      have hrest := ih fun q hq => h q (List.mem_cons_of_mem part hq)
      rw [List.flatMap_cons, List.cons_append, fields_cons_sep hx]
      cases parts with
      | nil => simp [fields_of_not_sep hne hpart]
      | cons q qs =>
          rw [List.flatMap_cons, List.cons_append, fields_cons_sep hx] at hrest
          rw [List.flatMap_cons, List.cons_append, fields_append_sep hx, hrest, fields_of_not_sep hne hpart]
          rfl
