/-
Module: Chaotix.Proofs.CanonicalPaths
Layer: Proofs
Purpose: Canonical paths. The two loops of `create_path_component_list` keep a list of components as the lexical rules
  for `.` and `..` say, and `vfs_canonicalize_path` writes that list, so what it returns is canonical and is left alone
  when it is canonicalized again; the working directory of a process has a canonical path after any calls of
  `sys_chdir`.
Imports: Chaotix.Lib.Fields, Chaotix.Kernel.Vfs
Trusted boundary: none
Main exports: keep, normalComponents, IsComponent, Canonical, normalForm, createPathComponentList_spec,
  vfsCanonicalizePath_spec, canonical_paths
-/
import Chaotix.Lib.Fields
import Chaotix.Kernel.Vfs

open Program

namespace Chaotix

namespace Pathname

/-! ### Lexical normal forms -/

/-- One component after the components that have been kept: `.` is skipped, and `..` removes the last one kept. -/
def keep (kept : List Chars) (component : Chars) : List Chars :=
  if component = dot then kept else if component = dotDot then kept.dropLast else kept ++ [component]

/-- The components that are kept of a pathname, taken relative to `cwdPath` unless it is absolute. -/
def normalComponents (cwdPath pathname : Chars) : List Chars :=
  ((if isAbsolutePath pathname then [] else fields isSeparator cwdPath) ++ fields isSeparator pathname).foldl keep []

/-- What may stand between two separators of a canonical path. -/
def IsComponent (component : Chars) : Prop :=
  component ≠ [] ∧ component ≠ dot ∧ component ≠ dotDot ∧ ∀ c ∈ component, isSeparator c = false

/-- The components with a separator in front of each, or `/` if there is none. -/
def written (components : List Chars) : Chars :=
  if components = [] then ROOT_DIR else components.flatMap fun component => PATH_SEPARATOR :: component

/-- `/`, or components with a separator in front of each. -/
def Canonical (path : Chars) : Prop := ∃ components, (∀ component ∈ components, IsComponent component) ∧
  path = written components

/-- The lexical normal form of a pathname. -/
def normalForm (cwdPath pathname : Chars) : Chars := written (normalComponents cwdPath pathname)

theorem isComponent_keep {kept : List Chars} {component : Chars} (hkept : ∀ c ∈ kept, IsComponent c)
    (hne : component ≠ []) (hsep : ∀ c ∈ component, isSeparator c = false) :
    ∀ c ∈ keep kept component, IsComponent c := by
  unfold keep
  split
  · exact hkept
  · rename_i hdot
    split
    · exact fun c hc => hkept c (List.mem_of_mem_dropLast hc)
    · rename_i hdotDot
      intro c hc
      cases List.mem_append.1 hc with
      | inl hold => exact hkept c hold
      | inr hnew => exact List.mem_singleton.1 hnew ▸ ⟨hne, hdot, hdotDot, hsep⟩

/-- What is kept of the fields of a path are components. -/
theorem isComponent_foldl {components kept : List Chars} (hkept : ∀ c ∈ kept, IsComponent c)
    (h : ∀ c ∈ components, c ≠ [] ∧ ∀ x ∈ c, isSeparator x = false) :
    ∀ c ∈ components.foldl keep kept, IsComponent c := by
  induction components generalizing kept with
  | nil => exact hkept
  | cons component rest ih =>
      obtain ⟨hne, hsep⟩ := h component List.mem_cons_self
      exact ih (isComponent_keep hkept hne hsep) fun c hc => h c (List.mem_cons_of_mem component hc)

theorem isComponent_normalComponents (cwdPath pathname : Chars) :
    ∀ c ∈ normalComponents cwdPath pathname, IsComponent c := by
  apply isComponent_foldl (by simp)
  intro c hc
  cases List.mem_append.1 hc with
  | inl hcwd =>
      split at hcwd
      · simp at hcwd
      · exact mem_fields hcwd
  | inr hpath => exact mem_fields hpath

/-- A normal form is canonical. -/
theorem canonical_normalForm (cwdPath pathname : Chars) : Canonical (normalForm cwdPath pathname) :=
  ⟨normalComponents cwdPath pathname, isComponent_normalComponents cwdPath pathname, rfl⟩

/-- Components are kept as they are. -/
theorem foldl_keep_of_isComponent {components : List Chars} (h : ∀ c ∈ components, IsComponent c)
    (kept : List Chars) : components.foldl keep kept = kept ++ components := by
  induction components generalizing kept with
  | nil => simp
  | cons component rest ih =>
      obtain ⟨-, hdot, hdotDot, -⟩ := h component List.mem_cons_self
      rw [List.foldl_cons, keep, if_neg hdot, if_neg hdotDot, ih fun c hc => h c (List.mem_cons_of_mem component hc)]
      simp

/-- The fields of a path that is written from components are the components. -/
theorem fields_written {components : List Chars} (h : ∀ c ∈ components, IsComponent c) :
    fields isSeparator (written components) = components := by
  unfold written
  split
  · rename_i hnil
    rw [hnil]
    rfl
  · exact fields_flatMap rfl fun c hc => ⟨(h c hc).1, (h c hc).2.2.2⟩

theorem isAbsolutePath_written (components : List Chars) : isAbsolutePath (written components) = true := by
  unfold written
  split
  · rfl
  · rename_i hne
    cases components with
    | nil => exact absurd rfl hne
    | cons component rest => rfl

/-- A canonical path is its own normal form. -/
theorem normalForm_of_canonical {path : Chars} (h : Canonical path) (cwdPath : Chars) :
    normalForm cwdPath path = path := by
  obtain ⟨components, hcomponents, rfl⟩ := h
  rw [normalForm, normalComponents, isAbsolutePath_written, if_pos rfl, List.nil_append, fields_written hcomponents,
    foldl_keep_of_isComponent hcomponents, List.nil_append]

/-- With a canonical working directory, the normal form keeps its components and goes on with those of the path. -/
theorem normalComponents_of_relative {cwdPath pathname : Chars} (hcwd : Canonical cwdPath)
    (h : isAbsolutePath pathname = false) :
    normalComponents cwdPath pathname =
      (fields isSeparator pathname).foldl keep (fields isSeparator cwdPath) := by
  obtain ⟨components, hcomponents, rfl⟩ := hcwd
  rw [normalComponents, h, if_neg Bool.false_ne_true, List.foldl_append, fields_written hcomponents,
    foldl_keep_of_isComponent hcomponents, List.nil_append]

theorem normalComponents_of_absolute {cwdPath pathname : Chars} (h : isAbsolutePath pathname = true) :
    normalComponents cwdPath pathname = (fields isSeparator pathname).foldl keep [] := by
  rw [normalComponents, h, if_pos rfl, List.nil_append]

/-! ### Tokens -/

/-- `strtok_r` finds the first field, and goes on with the fields behind it; what is left is shorter. -/
theorem strtokR_cases (sep : UInt8 → Bool) (str : Option Chars) :
    strtokR sep str = none ∧ fields sep (str.getD []) = [] ∨
      ∃ token last, strtokR sep str = some (token, last) ∧
        fields sep (str.getD []) = token :: fields sep (last.getD []) ∧
        (last.getD []).length < (str.getD []).length := by
  cases str with
  | none => exact .inl ⟨rfl, fields_nil⟩
  | some str =>
      have hshorter := (List.dropWhile_sublist sep (l := str)).length_le
      rw [Option.getD_some, ← fields_dropWhile_sep, strtokR]
      cases hstr : str.dropWhile sep with
      | nil => exact .inl ⟨rfl, fields_nil⟩
      | cons c cs =>
          have hc : sep c = false := by
            have hhead := List.head?_dropWhile_not sep str
            simpa [hstr] using hhead
          have hrest := (List.dropWhile_sublist (fun y => !sep y) (l := cs)).length_le
          rw [hstr, List.length_cons] at hshorter
          simp only [List.takeWhile_cons, List.dropWhile_cons, hc, Bool.not_false, if_true]
          refine .inr ?_
          cases hdrop : cs.dropWhile (fun y => !sep y) with
          | nil =>
              refine ⟨_, none, rfl, ?_, ?_⟩
              · rw [fields_cons hc, hdrop, Option.getD_none, fields_nil]
              · rw [Option.getD_none, List.length_nil]
                omega
          | cons d rest =>
              have hd : sep d = true := by
                have hhead := List.head?_dropWhile_not (fun y => !sep y) cs
                simpa [hdrop] using hhead
              rw [hdrop, List.length_cons] at hrest
              refine ⟨_, some rest, rfl, ?_, ?_⟩
              · rw [fields_cons hc, hdrop, fields_cons_sep hd, Option.getD_some]
              · rw [Option.getD_some]
                omega

/-! ### Building the list -/

/-- Every call of `kmalloc` returns memory. -/
def Allocations.Succeed (s : Allocations) : Prop := ∀ n, s.answers n = true

/-- A function that allocates returns a value, or it returns an error because a call of `kmalloc` failed. -/
structure Allocates {α : Type} (s : Allocations) (value : α) (r : Except Errno α) (t : Allocations) : Prop where
  answers : t.answers = s.answers
  result : r = .ok value ∨ r = .error .ENOMEM ∧ ¬s.Succeed

theorem Allocations.succeed_congr {s t : Allocations} (h : t.answers = s.answers) : t.Succeed ↔ s.Succeed := by
  rw [Succeed, Succeed, h]

theorem Allocates.ok {α : Type} {s t : Allocations} {value : α} {r : Except Errno α} (h : Allocates s value r t)
    (hsucceed : s.Succeed) : r = .ok value ∧ t.Succeed := by
  refine ⟨?_, (Allocations.succeed_congr h.answers).2 hsucceed⟩
  cases h.result with
  | inl hvalue => exact hvalue
  | inr hfails => exact absurd hsucceed hfails.2

/-- A call of `kmalloc` that has returned changes nothing for what comes after it. -/
theorem Allocates.of_answers {α : Type} {s t u : Allocations} {value : α} {r : Except Errno α}
    (h : Allocates t value r u) (hanswers : t.answers = s.answers) : Allocates s value r u := by
  refine ⟨h.answers.trans hanswers, ?_⟩
  cases h.result with
  | inl hvalue => exact .inl hvalue
  | inr hfails => exact .inr ⟨hfails.1, fun hsucceed => hfails.2 ((Allocations.succeed_congr hanswers).2 hsucceed)⟩

theorem kmallocAnswer_spec (s : Allocations) :
    Yields kmallocAnswer s fun r t => t.answers = s.answers ∧ (r = false → ¬s.Succeed) := by
  refine ⟨rfl, fun hfalse hsucceed => ?_⟩
  rw [hsucceed s.calls] at hfalse
  cases hfalse

theorem kstrdup_spec (src : Chars) (s : Allocations) :
    Yields (kstrdup src) s fun r t => t.answers = s.answers ∧ (r = some src ∨ r = none ∧ ¬s.Succeed) := by
  rw [kstrdup, yields_bind]
  apply (kmallocAnswer_spec s).mono
  rintro r t ⟨hanswers, hfails⟩
  cases r with
  | true => exact ⟨hanswers, .inl rfl⟩
  | false => exact ⟨hanswers, .inr ⟨rfl, hfails rfl⟩⟩

theorem listPush_spec (list : List Chars) (value : Chars) (s : Allocations) :
    Yields (listPush list value) s (Allocates s (list ++ [value])) := by
  rw [listPush, yields_bind]
  apply (kmallocAnswer_spec s).mono
  rintro r t ⟨hanswers, hfails⟩
  cases r with
  | false => exact ⟨hanswers, .inr ⟨rfl, hfails rfl⟩⟩
  | true =>
      rw [Bool.not_true, if_neg Bool.false_ne_true, yields_bind]
      apply (kstrdup_spec value t).mono
      rintro r' u ⟨hanswers', hresult⟩
      cases hresult with
      | inl hvalue => exact hvalue ▸ ⟨hanswers'.trans hanswers, .inl rfl⟩
      | inr hnone =>
          obtain ⟨rfl, hfails'⟩ := hnone
          exact ⟨hanswers'.trans hanswers, .inr ⟨rfl, mt (Allocations.succeed_congr hanswers).2 hfails'⟩⟩

/-- A list with its counter. -/
def ComponentList.of (list : List Chars) : ComponentList := { list := list, numComponents := list.length }

theorem pushComponent_spec (component : Chars) (list : List Chars) (s : Allocations) :
    Yields (pushComponent component (.of list)) s (Allocates s (.of (list ++ [component]))) := by
  rw [pushComponent, yields_bind]
  apply (listPush_spec list component s).mono
  rintro r t ⟨hanswers, hresult⟩
  cases hresult with
  | inl hvalue =>
      subst hvalue
      refine ⟨hanswers, .inl ?_⟩
      simp [ComponentList.of]
  | inr hfails =>
      obtain ⟨rfl, hfails⟩ := hfails
      exact ⟨hanswers, .inr ⟨rfl, hfails⟩⟩

theorem takeComponent_spec (component : Chars) (list : List Chars) (s : Allocations) :
    Yields (takeComponent component (.of list)) s (Allocates s (.of (keep list component))) := by
  unfold takeComponent keep
  split
  · exact ⟨rfl, .inl rfl⟩
  · split
    · -- the counter is zero only when there is nothing left that `..` could remove
      split
      · refine ⟨rfl, .inl ?_⟩
        simp [ComponentList.of, listPop]
      · rename_i hzero
        have hnil : list = [] := List.length_eq_zero_iff.1 (Nat.eq_zero_of_not_pos hzero)
        subst hnil
        exact ⟨rfl, .inl rfl⟩
    · exact pushComponent_spec component list s

/-- The loop over the tokens of a string takes its fields from the left. -/
theorem forTokens_spec {body : Chars → ComponentList → Kernel Allocations (Except Errno ComponentList)}
    {step : List Chars → Chars → List Chars}
    (hbody : ∀ component list s, Yields (body component (.of list)) s (Allocates s (.of (step list component))))
    {n : Nat} (str : Option Chars) (list : List Chars) (s : Allocations) (hn : (str.getD []).length < n) :
    Yields (forTokens body n str (.of list)) s
      (Allocates s (.of ((fields isSeparator (str.getD [])).foldl step list))) := by
  induction n generalizing str list s with
  | zero => exact absurd hn (Nat.not_lt_zero _)
  | succ n ih =>
      rw [forTokens]
      cases strtokR_cases isSeparator str with
      | inl hend =>
          rw [hend.1, hend.2]
          exact ⟨rfl, .inl rfl⟩
      | inr hnext =>
          obtain ⟨token, last, htoken, hfields, hshorter⟩ := hnext
          simp only [htoken, hfields, List.foldl_cons]
          rw [yields_bind]
          apply (hbody token list s).mono
          intro r t ht
          cases ht.result with
          | inr hfails =>
              obtain ⟨rfl, hfails⟩ := hfails
              exact ⟨ht.answers, .inr ⟨rfl, hfails⟩⟩
          | inl hvalue =>
              subst hvalue
              exact (ih last _ t (by omega)).mono fun _ _ hu => hu.of_answers ht.answers

theorem addComponents_spec {body : Chars → ComponentList → Kernel Allocations (Except Errno ComponentList)}
    (step : List Chars → Chars → List Chars)
    (hbody : ∀ component list s, Yields (body component (.of list)) s (Allocates s (.of (step list component))))
    (str : Chars) (list : List Chars) (s : Allocations) :
    Yields (addComponents body str (.of list)) s (Allocates s (.of ((fields isSeparator str).foldl step list))) := by
  rw [addComponents, yields_bind]
  apply (kstrdup_spec str s).mono
  rintro r t ⟨hanswers, hresult⟩
  cases hresult with
  | inr hnone =>
      obtain ⟨rfl, hfails⟩ := hnone
      exact ⟨hanswers, .inr ⟨rfl, hfails⟩⟩
  | inl hdup =>
      subst hdup
      exact (forTokens_spec hbody (some str) list t (Nat.lt_succ_self _)).mono fun _ _ hu => hu.of_answers hanswers

theorem foldl_append_singleton (xs list : List Chars) : xs.foldl (fun kept c => kept ++ [c]) list = list ++ xs := by
  induction xs generalizing list with
  | nil => simp
  | cons x xs ih => rw [List.foldl_cons, ih, List.append_assoc, List.singleton_append]

/-- `create_path_component_list` keeps the components that the lexical rules keep. -/
theorem createPathComponentList_spec {cwdPath : Chars} (hcwd : Canonical cwdPath) (pathname : Chars) (s : Allocations) :
    Yields (createPathComponentList cwdPath pathname) s
      (Allocates s (.of (normalComponents cwdPath pathname))) := by
  unfold createPathComponentList
  split
  · rename_i hroot
    subst hroot
    exact ⟨rfl, .inl rfl⟩
  · split
    · rename_i habsolute
      rw [normalComponents_of_absolute habsolute]
      exact addComponents_spec keep takeComponent_spec pathname [] s
    · rename_i hrelative
      rw [normalComponents_of_relative hcwd (Bool.eq_false_iff.2 hrelative), yields_bind]
      apply (addComponents_spec (fun kept c => kept ++ [c]) pushComponent_spec cwdPath [] s).mono
      intro r t ht
      cases ht.result with
      | inr hfails =>
          obtain ⟨rfl, hfails⟩ := hfails
          exact ⟨ht.answers, .inr ⟨rfl, hfails⟩⟩
      | inl hvalue =>
          rw [foldl_append_singleton, List.nil_append] at hvalue
          subst hvalue
          exact (addComponents_spec keep takeComponent_spec pathname _ t).mono fun _ _ hu => hu.of_answers ht.answers

/-! ### Writing the list -/

/-- A block with room for all components and the zero is written without a store behind it. -/
theorem writeComponents_spec {size : Nat} {components : List Chars} {out : Chars} (s : Allocations)
    (h : out.length + (components.map fun component => component.length + 1).sum < size) :
    Yields (writeComponents size components out) s fun r t =>
      r = out ++ components.flatMap (fun component => PATH_SEPARATOR :: component) ∧ t = s := by
  induction components generalizing out with
  | nil =>
      rw [writeComponents, yields_bind, checkStore, yields_require]
      exact ⟨h, by simp [yields_pure]⟩
  | cons component rest ih =>
      rw [List.map_cons, List.sum_cons] at h
      rw [writeComponents, yields_bind, checkStore, yields_require]
      refine ⟨by omega, ?_⟩
      rw [yields_bind, checkStore, yields_require]
      refine ⟨by rw [List.length_append, List.length_singleton]; omega, ?_⟩
      apply (ih ?_).mono
      · rintro r t ⟨rfl, rfl⟩
        exact ⟨by simp, rfl⟩
      · rw [List.length_append, List.length_append, List.length_singleton]
        omega

/-- `vfs_canonicalize_path` returns the normal form, unless a call of `kmalloc` fails. -/
theorem vfsCanonicalizePath_spec {cwdPath : Chars} (hcwd : Canonical cwdPath) (pathname : Chars) (s : Allocations) :
    Yields (vfsCanonicalizePath cwdPath pathname) s (Allocates s (normalForm cwdPath pathname)) := by
  rw [vfsCanonicalizePath, yields_bind]
  apply (createPathComponentList_spec hcwd pathname s).mono
  intro r t ht
  cases ht.result with
  | inr hfails =>
      obtain ⟨rfl, hfails⟩ := hfails
      exact ⟨ht.answers, .inr ⟨rfl, hfails⟩⟩
  | inl hvalue =>
      subst hvalue
      have hfails : ∀ u : Allocations, ¬t.Succeed → u.answers = t.answers →
          Allocates s (normalForm cwdPath pathname) (.error .ENOMEM) u := fun u hnot hanswers =>
        ⟨hanswers.trans ht.answers, .inr ⟨rfl, mt (Allocations.succeed_congr ht.answers).2 hnot⟩⟩
      generalize hcs : normalComponents cwdPath pathname = components at *
      have hform : normalForm cwdPath pathname = written components := by rw [normalForm, hcs]
      dsimp only
      split
      · rename_i hzero
        have hnil : components = [] := List.length_eq_zero_iff.1 hzero
        rw [yields_bind]
        apply (kstrdup_spec ROOT_DIR t).mono
        rintro r u ⟨hanswers, hresult⟩
        cases hresult with
        | inl hdup => exact hdup ▸ ⟨hanswers.trans ht.answers, .inl (by rw [hform, written, if_pos hnil])⟩
        | inr hnone =>
            obtain ⟨rfl, hnot⟩ := hnone
            exact hfails u hnot hanswers
      · rename_i hne
        have hne' : components ≠ [] := fun hnil => hne (by rw [hnil]; rfl)
        rw [yields_bind]
        apply (kmallocAnswer_spec t).mono
        rintro r u ⟨hanswers, hnot⟩
        cases r with
        | false => exact hfails u (hnot rfl) hanswers
        | true =>
            rw [if_pos rfl, yields_bind]
            apply (writeComponents_spec u (by simp [ComponentList.of])).mono
            rintro out v ⟨rfl, rfl⟩
            exact ⟨hanswers.trans ht.answers, .inl (by rw [hform, written, if_neg hne', List.nil_append]; rfl)⟩

/-! ### Working directories -/

theorem canonical_root : Canonical ROOT_DIR := ⟨[], by simp, rfl⟩

end Pathname

namespace Vfs

open Pathname

variable {P : Type} [DecidableEq P]

/-- `sys_chdir` changes nothing but the working directory of the caller, and only to a normal form. -/
theorem sysChdir_cwd {current : P} {path : Chars} {s : Processes P}
    (hcanonical : ∀ cwd, s.cwd current = some cwd → Canonical cwd.path) :
    Ensures (sysChdir current path) s fun r t =>
      r ≠ .ok () ∧ t.cwd = s.cwd ∨ r = .ok () ∧ ∃ cwd i, s.cwd current = some cwd ∧
        t.cwd = Function.update s.cwd current (some { path := normalForm cwd.path path, inode := i }) := by
  have hkeeps : ∀ {α : Type} (m : Kernel State α), Keeps (Processes.cwd (P := P)) (onVfs m) := by
    intro α m
    refine Keeps.focus ?_ m
    exact fun _ _ => rfl
  rw [sysChdir, ensures_bind, ensures_get]
  cases hcwd : s.cwd current with
  | none => trivial
  | some cwd =>
      rw [ensures_bind, onVfs, ensures_focus, onAllocations, ensures_focus]
      apply (vfsCanonicalizePath_spec (hcanonical cwd hcwd) path s.vfs.allocations).ensures.mono
      intro r t hr
      cases hr.result with
      | inr hfails => exact hfails.1 ▸ .inl ⟨nofun, rfl⟩
      | inl hvalue =>
          subst hvalue
          rw [ensures_bind]
          apply (hkeeps _ _).mono
          intro resolved s₁ h₁
          change s₁.cwd = s.cwd at h₁
          cases resolved.inode with
          | error e => exact .inl ⟨nofun, h₁⟩
          | ok i =>
              rw [ensures_bind]
              apply (hkeeps _ _).mono
              intro inode s₂ h₂
              split
              · rw [ensures_bind]
                apply (hkeeps _ _).mono
                exact fun _ s₃ h₃ => .inl ⟨nofun, (h₃.trans h₂).trans h₁⟩
              · rw [ensures_bind]
                apply (hkeeps _ _).mono
                intro _ s₃ h₃
                refine .inr ⟨rfl, cwd, i, rfl, ?_⟩
                change Function.update s₃.cwd current _ = _
                rw [(h₃.trans h₂).trans h₁]

/-- The working directory of every process has a canonical path. -/
def CanonicalCwds (s : Processes P) : Prop := ∀ p cwd, s.cwd p = some cwd → Canonical cwd.path

theorem canonicalCwds_update {s : Processes P} (h : CanonicalCwds s) (p : P) {new : Option Cwd}
    (hnew : ∀ cwd, new = some cwd → Canonical cwd.path) (vfs : State) :
    CanonicalCwds { vfs := vfs, cwd := Function.update s.cwd p new } := by
  intro q cwd hq
  by_cases hqp : q = p
  · subst hqp
    exact hnew cwd ((Function.update_self q new s.cwd).symm.trans hq)
  · exact h q cwd ((Function.update_of_ne hqp new s.cwd).symm.trans hq)

theorem canonicalCwds_step {s s' : Processes P} {e : CwdEvent P} (h : CanonicalCwds s) (hstep : CwdStep s e s') :
    CanonicalCwds s' := by
  cases hstep with
  | create p vfs _ =>
      refine canonicalCwds_update h p (fun cwd hcwd => ?_) vfs
      exact Option.some.inj hcwd ▸ canonical_root
  | fork parent child cwd vfs hparent _ =>
      refine canonicalCwds_update h child (fun cwd' hcwd => ?_) vfs
      exact Option.some.inj hcwd ▸ h parent cwd hparent
  | chdir p path result hreturn =>
      cases ensures_iff.1 (sysChdir_cwd fun cwd hcwd => h p cwd hcwd) result s' hreturn with
      | inl hsame => exact fun q cwd hq => h q cwd (hsame.2 ▸ hq)
      | inr hnew =>
          obtain ⟨-, cwd, i, -, hupdate⟩ := hnew
          have hnew : ∀ c, some { path := normalForm cwd.path path, inode := i : Cwd } = some c → Canonical c.path := by
            intro c hc
            exact Option.some.inj hc ▸ canonical_normalForm cwd.path path
          exact fun q cwd' hq => canonicalCwds_update h p hnew s.vfs q cwd' (hupdate ▸ hq)
  | exit p vfs =>
      have hnone : ∀ c, (none : Option Cwd) = some c → Canonical c.path := nofun
      exact canonicalCwds_update h p hnone vfs
  | other vfs => exact h

/-- `vfs_canonicalize_path` returns the lexical normal form of a pathname, which is canonical and is returned again when
    it is canonicalized, from wherever that is; and in every run the working directory of every process has a canonical
    path. -/
theorem canonical_paths :
    (∀ cwdPath pathname allocations, Canonical cwdPath → allocations.Succeed →
      Canonical (normalForm cwdPath pathname) ∧
      Yields (vfsCanonicalizePath cwdPath pathname) allocations (fun r _ => r = .ok (normalForm cwdPath pathname)) ∧
      ∀ cwdPath' allocations', Canonical cwdPath' → allocations'.Succeed →
        Yields (vfsCanonicalizePath cwdPath' (normalForm cwdPath pathname)) allocations'
          fun r _ => r = .ok (normalForm cwdPath pathname)) ∧
    ∀ s xs t, (cwdSystem P).init s → (cwdSystem P).Run s xs t → CanonicalCwds t := by
  constructor
  · intro cwdPath pathname allocations hcwd hsucceed
    have hform := canonical_normalForm cwdPath pathname
    refine ⟨hform, ?_, fun cwdPath' allocations' hcwd' hsucceed' => ?_⟩
    · exact (vfsCanonicalizePath_spec hcwd pathname allocations).mono fun _ _ h => (h.ok hsucceed).1
    · have hspec := vfsCanonicalizePath_spec hcwd' (normalForm cwdPath pathname) allocations'
      rw [normalForm_of_canonical hform] at hspec
      exact hspec.mono fun _ _ h => (h.ok hsucceed').1
  · intro s xs t hinit run
    refine run.invariant CanonicalCwds (fun _ _ _ inv hstep => canonicalCwds_step inv hstep) ?_
    intro p cwd hcwd
    rw [hinit p] at hcwd
    cases hcwd

/-- `../d` in `/a/b`, with memory. -/
theorem canonical_paths_parent :
    Yields (vfsCanonicalizePath ("/a/b".toList.map Char.toUInt8) ("../d".toList.map Char.toUInt8))
      { answers := fun _ => true } (fun r _ => r = .ok ("/a/d".toList.map Char.toUInt8)) := by
  have hcwd : Canonical ("/a/b".toList.map Char.toUInt8) :=
    ⟨["a".toList.map Char.toUInt8, "b".toList.map Char.toUInt8],
      List.forall_iff_forall_mem.1 ⟨⟨by decide, by decide, by decide, List.forall_iff_forall_mem.1 (by decide)⟩,
        by decide, by decide, by decide, List.forall_iff_forall_mem.1 (by decide)⟩, by decide⟩
  have hyields :=
    ((canonical_paths (P := Unit)).1 _ ("../d".toList.map Char.toUInt8) { answers := fun _ => true } hcwd fun _ => rfl).2.1
  have hform : normalForm ("/a/b".toList.map Char.toUInt8) ("../d".toList.map Char.toUInt8) =
      "/a/d".toList.map Char.toUInt8 := by decide
  rwa [hform] at hyields

end Vfs

end Chaotix
