/-
Module: Chaotix.Proofs.StringTokens
Layer: Proofs
Purpose: `strtok_r` in memory, beside the tokens of a string as a list of characters. A call cuts the next token off
  with a zero and saves where the rest begins, so the tokens of earlier calls stay, and calls on another string change
  nothing.
Imports: Mathlib.Tactic, Chaotix.Lib.Fields, Chaotix.Kernel.Path, Chaotix.Proofs.CanonicalPaths,
  Chaotix.Proofs.StringSpec
Trusted boundary: none
Main exports: Points, strtokR_spec, Progress, Progress.call, Tokenisation, strtok_r_splits
-/
import Mathlib.Tactic
import Chaotix.Lib.Fields
import Chaotix.Kernel.Path
import Chaotix.Proofs.CanonicalPaths
import Chaotix.Proofs.StringSpec

namespace Chaotix

namespace CString

/-! ### One call -/

section Call

variable {mem : Memory} {a sep : Nat} {s seps : List UInt8} {str last : Option Nat} {rest : Option Chars}

/-- A pointer to a string, or `NULL`. -/
def Points (mem : Memory) : Option Nat → Option Chars → Prop
  | none, none => True
  | some a, some s => Holds mem a s
  | _, _ => False

theorem strtokLoop_eq (h : Holds mem a s) (hsep : Holds mem sep seps) (separator : Bool) :
    strtokLoop mem sep separator a =
      .ok (a + (s.takeWhile fun c => decide (c ∈ seps) != separator).length) := by
  induction s generalizing a with
  | nil =>
      obtain ⟨hzero, hlt⟩ := Holds.nil_iff.1 h
      rw [strtokLoop, if_pos hlt, if_pos hzero]
      rfl
  | cons c s ih =>
      obtain ⟨hc, hne, hrest⟩ := Holds.cons_iff.1 h
      obtain ⟨found, hfound, hmem⟩ := strchr_isSome hsep c
      have hsome : found.isSome = decide (c ∈ seps) := by
        rw [Bool.eq_iff_iff, decide_eq_true_iff]
        exact hmem
      rw [strtokLoop, if_pos h.lt, if_neg (hc ▸ hne), hc, hfound, List.takeWhile_cons]
      simp only [hsome]
      by_cases hstop : decide (c ∈ seps) = separator
      · simp [hstop]
      · have hgo : (decide (c ∈ seps) != separator) = true := by simpa using hstop
        rw [if_neg hstop, ih hrest, hgo, if_pos rfl, List.length_cons, Nat.add_right_comm, Nat.add_assoc]

/-- The token of a string that does not only have separators, and what is left of it. -/
theorem strtokR_of_cons {isSep : UInt8 → Bool} {c : UInt8} {cs token tail : Chars} (h : s.dropWhile isSep = c :: cs)
    (htoken : (c :: cs).takeWhile (fun c => !isSep c) = token)
    (htail : (c :: cs).dropWhile (fun c => !isSep c) = tail) :
    Pathname.strtokR isSep (some s) = some (token, match tail with | [] => none | _ :: rest => some rest) := by
  rw [Pathname.strtokR, h]
  simp only [htoken, htail]
  cases tail <;> rfl

/-- One call: there is no token, or it stands behind the separators in front, and is cut off from what is left. -/
theorem strtokR_spec (hpoints : Points mem (str.or last) rest) (hsep : Holds mem sep seps) :
    (Pathname.strtokR (fun c => decide (c ∈ seps)) rest = none ∧ strtokR mem str sep last = .ok ⟨none, none, mem⟩) ∨
      ∃ a s p token rest' last', str.or last = some a ∧ rest = some s ∧
        Pathname.strtokR (fun c => decide (c ∈ seps)) rest = some (token, rest') ∧
        strtokR mem str sep last = .ok ⟨some p, last', Function.update mem (p + token.length) 0⟩ ∧
        a ≤ p ∧ p + token.length ≤ a + s.length ∧ BytesAt mem p token ∧
        Holds (Function.update mem (p + token.length) 0) p token ∧
        Points (Function.update mem (p + token.length) 0) last' rest' ∧
        ∀ b s', last' = some b → rest' = some s' → b = p + token.length + 1 ∧ b + s'.length = a + s.length ∧
          BytesAt mem b s' := by
  cases hor : str.or last with
  | none =>
      rw [hor] at hpoints
      cases rest with
      | none =>
          obtain ⟨-, hlast⟩ := Option.or_eq_none_iff.1 hor
          refine .inl ⟨rfl, ?_⟩
          rw [strtokR, hor, hlast]
      | some s => exact absurd hpoints id
  | some a =>
      rw [hor] at hpoints
      cases rest with
      | none => exact absurd hpoints id
      | some s =>
          have hs : Holds mem a s := hpoints
          have hskip := strtokLoop_eq hs hsep false
          simp only [Bool.bne_false] at hskip
          have hsplit := List.takeWhile_append_dropWhile (p := fun c => decide (c ∈ seps)) (l := s)
          have hlength := congrArg List.length hsplit
          have hrest := (Holds.append (hsplit.symm ▸ hs)).2
          rw [List.length_append] at hlength
          generalize (s.takeWhile fun c => decide (c ∈ seps)).length = k at hskip hlength hrest
          cases hchars : s.dropWhile fun c => decide (c ∈ seps) with
          | nil =>
              rw [hchars] at hrest
              refine .inl ⟨?_, ?_⟩
              · rw [Pathname.strtokR, hchars]
              · rw [strtokR, hor]
                simp only [hskip]
                change (if mem (a + k) = 0 then _ else _) = _
                rw [if_pos (Holds.nil_iff.1 hrest).1]
                rfl
          | cons c cs =>
              rw [hchars] at hrest hlength
              obtain ⟨hc, hne, -⟩ := Holds.cons_iff.1 hrest
              have hstop := strtokLoop_eq hrest hsep true
              simp only [Bool.bne_true] at hstop
              have hparts := List.takeWhile_append_dropWhile (p := fun c => !decide (c ∈ seps)) (l := c :: cs)
              generalize htoken : (c :: cs).takeWhile (fun c => !decide (c ∈ seps)) = token at hstop hparts
              generalize htail : (c :: cs).dropWhile (fun c => !decide (c ∈ seps)) = tail at hparts
              obtain ⟨hbytes, hbehind⟩ := Holds.append (hparts.symm ▸ hrest)
              have hlengths := congrArg List.length hparts
              rw [List.length_append] at hlengths
              have hcut := hrest.cut (n := token.length) (by omega)
              rw [← hparts, List.take_left] at hcut
              have hcall : strtokR mem str sep last = .ok ⟨some (a + k),
                  if mem (a + k + token.length) ≠ 0 then some (a + k + token.length + 1) else none,
                  Function.update mem (a + k + token.length) 0⟩ := by
                rw [strtokR, hor]
                simp only [hskip]
                change (if mem (a + k) = 0 then _ else _) = _
                rw [if_neg (hc ▸ hne), hstop]
                rfl
              refine .inr ⟨a, s, a + k, token, _, _, rfl, rfl, strtokR_of_cons hchars htoken htail, hcall, by omega,
                by omega, hbytes, hcut, ?_, ?_⟩
              · cases tail with
                | nil =>
                    rw [if_neg (not_not_intro (Holds.nil_iff.1 hbehind).1)]
                    trivial
                | cons d rest' =>
                    obtain ⟨hd, hdne, hlast⟩ := Holds.cons_iff.1 hbehind
                    rw [if_pos (hd ▸ hdne)]
                    exact hlast.update (.inl (Nat.lt_succ_self _)) 0
              · intro b s' hb hs'
                cases tail with
                | nil => exact absurd hs' (by simp)
                | cons d rest' =>
                    obtain ⟨hd, hdne, hlast⟩ := Holds.cons_iff.1 hbehind
                    rw [if_pos (hd ▸ hdne)] at hb
                    obtain rfl := Option.some.inj hb
                    obtain rfl := Option.some.inj hs'
                    refine ⟨rfl, ?_, hlast.stringAt.bytesAt⟩
                    rw [List.length_cons] at hlengths hlength
                    rw [List.length_cons] at hlengths
                    omega

end Call

/-! ### Calls on one string -/

section Strings

variable {mem0 mem mem' : Memory} {lo hi sep : Nat} {seps : List UInt8} {str last ptr : Option Nat}
  {rest : Option Chars} {done : List (Nat × Chars)}

/-- What has been made of the string between two addresses: the tokens of earlier calls, in their order, which are
    strings now and were in its characters before, and the rest, which lies behind them. -/
structure Progress (mem0 mem : Memory) (lo hi : Nat) (ptr : Option Nat) (rest : Option Chars)
    (done : List (Nat × Chars)) : Prop where
  points : Points mem ptr rest
  inside : ∀ a s, ptr = some a → rest = some s → lo ≤ a ∧ a + s.length = hi ∧ BytesAt mem0 a s
  tokens : ∀ d ∈ done, Holds mem d.1 d.2 ∧ BytesAt mem0 d.1 d.2 ∧ lo ≤ d.1 ∧ d.1 + d.2.length ≤ hi
  behind : ∀ d ∈ done, ∀ a, ptr = some a → d.1 + d.2.length < a
  ordered : done.Pairwise fun d e => d.1 + d.2.length < e.1

/-- The whole string, before the first call. -/
theorem Progress.start {s : Chars} (h : Holds mem lo s) :
    Progress mem mem lo (lo + s.length) (some lo) (some s) [] where
  points := h
  inside := by
    rintro a s' ⟨⟩ ⟨⟩
    exact ⟨Nat.le_refl _, rfl, h.stringAt.bytesAt⟩
  tokens := by simp
  behind := by simp
  ordered := .nil

/-- Only the bytes of the string matter. -/
theorem Progress.frame (h : Progress mem0 mem lo hi ptr rest done) (hsame : ∀ x, lo ≤ x → x ≤ hi → mem' x = mem x) :
    Progress mem0 mem' lo hi ptr rest done where
  points := by
    have hpoints := h.points
    cases ptr with
    | none => cases rest <;> exact hpoints
    | some a =>
        cases rest with
        | none => exact hpoints
        | some s =>
            obtain ⟨hlo, hhi, -⟩ := h.inside a s rfl rfl
            exact Holds.congr hpoints fun x hx hle => hsame x (by omega) (by omega)
  inside := h.inside
  tokens := by
    intro d hd
    obtain ⟨hholds, hbytes, hlo, hhi⟩ := h.tokens d hd
    exact ⟨hholds.congr fun x hx hle => hsame x (by omega) (by omega), hbytes, hlo, hhi⟩
  behind := h.behind
  ordered := h.ordered

/-- A call returns the next token, or `NULL` where there is none; it stores into the string only. -/
theorem Progress.call (h : Progress mem0 mem lo hi (str.or last) rest done) (hsep : Holds mem sep seps) :
    ∃ r, strtokR mem str sep last = .ok r ∧ (∀ x, x < lo ∨ hi < x → r.mem x = mem x) ∧
      (r.token = none ∧ fields (fun c => decide (c ∈ seps)) (rest.getD []) = [] ∧
          Progress mem0 r.mem lo hi r.last none done ∨
        ∃ p token rest', r.token = some p ∧
          fields (fun c => decide (c ∈ seps)) (rest.getD []) =
            token :: fields (fun c => decide (c ∈ seps)) (rest'.getD []) ∧
          Progress mem0 r.mem lo hi r.last rest' (done ++ [(p, token)])) := by
  have hfields := Pathname.strtokR_cases (fun c => decide (c ∈ seps)) rest
  rcases strtokR_spec h.points hsep with ⟨htoken, hcall⟩ |
    ⟨a, s, p, token, rest', last', hptr, hrest, htoken, hcall, hbegin, hend, hbytes, hcut, hpoints, hlast⟩
  · -- there is no token
    refine ⟨_, hcall, fun x _ => rfl, .inl ⟨rfl, ?_, trivial, by simp, h.tokens, by simp, h.ordered⟩⟩
    rcases hfields with ⟨-, hnil⟩ | ⟨token, last, hsome, -⟩
    · exact hnil
    · rw [htoken] at hsome
      exact absurd hsome (by simp)
  · obtain ⟨hlo, hhi, hold⟩ := h.inside a s hptr hrest
    have hcons : fields (fun c => decide (c ∈ seps)) (rest.getD []) =
        token :: fields (fun c => decide (c ∈ seps)) (rest'.getD []) := by
      rcases hfields with ⟨hnone, -⟩ | ⟨token', last'', hsome, hcons, -⟩
      · rw [htoken] at hnone
        exact absurd hnone (by simp)
      · rw [htoken] at hsome
        obtain ⟨rfl, rfl⟩ := Prod.mk.inj (Option.some.inj hsome)
        exact hcons
    have hs : Holds mem a s := by
      have hpoints := h.points
      rw [hptr, hrest] at hpoints
      exact hpoints
    -- the characters of the rest are those the string had in the beginning
    have hagree : ∀ x, a ≤ x → x < a + s.length → mem0 x = mem x := by
      intro x hx hlt
      have hnew := hs.stringAt.bytesAt (x - a) (by omega)
      have hold' := hold (x - a) (by omega)
      rw [Nat.add_sub_cancel' hx] at hnew hold'
      exact hold'.trans hnew.symm
    refine ⟨_, hcall, fun x hx => Function.update_of_ne (by omega) _ _, .inr ⟨p, token, rest', rfl, hcons, ?_⟩⟩
    refine ⟨hpoints, ?_, ?_, ?_, ?_⟩
    · intro b s' hb hs'
      obtain ⟨rfl, hlength, hbytes'⟩ := hlast b s' hb hs'
      exact ⟨by omega, by omega, hbytes'.congr fun x hx hlt => hagree x (by omega) (by omega)⟩
    · intro d hd
      rcases List.mem_append.1 hd with hd | hd
      · obtain ⟨hholds, hbytes', hlo', hhi'⟩ := h.tokens d hd
        have hbehind := h.behind d hd a hptr
        exact ⟨hholds.update (.inr (by omega)) 0, hbytes', hlo', hhi'⟩
      · obtain rfl := List.mem_singleton.1 hd
        have hnow : BytesAt mem0 p token := hbytes.congr fun x hx hlt => hagree x (by omega) (by omega)
        exact ⟨hcut, hnow, Nat.le_trans hlo hbegin, hhi ▸ hend⟩
    · intro d hd b hb
      have hb' : b = p + token.length + 1 := by
        cases rest' with
        | none =>
            change last' = some b at hb
            rw [hb] at hpoints
            exact absurd hpoints id
        | some s' => exact (hlast b s' hb rfl).1
      rcases List.mem_append.1 hd with hd | hd
      · have hbehind := h.behind d hd a hptr
        omega
      · obtain rfl := List.mem_singleton.1 hd
        simp only
        omega
    · refine List.pairwise_append.2 ⟨h.ordered, List.pairwise_singleton _ _, fun d hd e he => ?_⟩
      obtain rfl := List.mem_singleton.1 he
      exact Nat.lt_of_lt_of_le (h.behind d hd a hptr) hbegin

end Strings

/-! ### Two strings -/

/-- A string that is to be split at separators, which are a string themselves. -/
structure Tokenisation where
  str : Nat
  text : Chars
  sep : Nat
  seps : Chars

/-- The tokens of the string: what stands between the separators, where it is not empty. -/
def Tokenisation.tokens (job : Tokenisation) : List Chars := fields (fun c => decide (c ∈ job.seps)) job.text

/-- The memory, the variable for `last` of each string, and whether there has been a call for it. -/
structure StrtokState where
  mem : Memory
  last : Bool → Option Nat
  begun : Bool → Bool

/-- The next call on one of two strings: the first time with the string, and then with `NULL`. -/
def StrtokState.call (jobs : Bool → Tokenisation) (s : StrtokState) (w : Bool) :
    Except Stop (Option Nat × StrtokState) := do
  let r ← strtokR s.mem (if s.begun w then none else some (jobs w).str) (jobs w).sep (s.last w)
  return (r.token, ⟨r.mem, Function.update s.last w r.last, Function.update s.begun w true⟩)

/-- Calls in any order, and what each returns. -/
def StrtokState.calls (jobs : Bool → Tokenisation) (s : StrtokState) :
    List Bool → Except Stop (List (Bool × Option Nat) × StrtokState)
  | [] => .ok ([], s)
  | w :: ws => do
      let (token, s) ← s.call jobs w
      let (results, s) ← s.calls jobs ws
      return ((w, token) :: results, s)

/-- What the calls on one string return, in their order. -/
def resultsOf (w : Bool) (results : List (Bool × Option Nat)) : List (Option Nat) :=
  (results.filter fun r => r.1 = w).map Prod.snd

/-- Two ranges of memory have no byte in common. -/
def Apart (a n b m : Nat) : Prop := a + n < b ∨ b + m < a

instance (a n b m : Nat) : Decidable (Apart a n b m) := inferInstanceAs (Decidable (_ ∨ _))

/-- The two strings, and the separators of each, are in memory, and no call stores into the other's string or into
    separators. -/
structure Separate (mem : Memory) (jobs : Bool → Tokenisation) : Prop where
  text : ∀ w, Holds mem (jobs w).str (jobs w).text
  seps : ∀ w, Holds mem (jobs w).sep (jobs w).seps
  strings : Apart (jobs true).str (jobs true).text.length (jobs false).str (jobs false).text.length
  separators : ∀ w w', Apart (jobs w).str (jobs w).text.length (jobs w').sep (jobs w').seps.length

section Two

variable {mem0 : Memory} {jobs : Bool → Tokenisation} {s : StrtokState}

/-- Between two calls: how far each string has been split. -/
structure Splitting (mem0 : Memory) (jobs : Bool → Tokenisation) (s : StrtokState) (rest : Bool → Option Chars)
    (done : Bool → List (Nat × Chars)) : Prop where
  seps : ∀ w, Holds s.mem (jobs w).sep (jobs w).seps
  progress : ∀ w, Progress mem0 s.mem (jobs w).str ((jobs w).str + (jobs w).text.length)
    ((if s.begun w then none else some (jobs w).str).or (s.last w)) (rest w) (done w)

/-- What is left of a string to be split. -/
def left (jobs : Bool → Tokenisation) (rest : Bool → Option Chars) (w : Bool) : List Chars :=
  fields (fun c => decide (c ∈ (jobs w).seps)) ((rest w).getD [])

/-- A call returns the next token of its string, and does nothing to the other one. -/
theorem Splitting.call {rest : Bool → Option Chars} {done : Bool → List (Nat × Chars)} (hseparate : Separate mem0 jobs)
    (h : Splitting mem0 jobs s rest done) (w : Bool) :
    ∃ token t rest' new, s.call jobs w = .ok (token, t) ∧
      Splitting mem0 jobs t (Function.update rest w rest') (Function.update done w (done w ++ new)) ∧
      (token = none ∧ new = [] ∧ left jobs rest w = [] ∧ rest' = none ∨
        ∃ p chars, token = some p ∧ new = [(p, chars)] ∧
          left jobs rest w = chars :: fields (fun c => decide (c ∈ (jobs w).seps)) (rest'.getD [])) := by
  obtain ⟨r, hcall, houtside, hresult⟩ := (h.progress w).call (h.seps w)
  have hstate : s.call jobs w =
      .ok (r.token, ⟨r.mem, Function.update s.last w r.last, Function.update s.begun w true⟩) := by
    rw [StrtokState.call, hcall]
    rfl
  have hseps : ∀ w', Holds r.mem (jobs w').sep (jobs w').seps := by
    intro w'
    refine (h.seps w').congr fun x hx hle => houtside x ?_
    have hapart := hseparate.separators w w'
    unfold Apart at hapart
    omega
  have hother : ∀ w', w' ≠ w → ∀ x, (jobs w').str ≤ x → x ≤ (jobs w').str + (jobs w').text.length →
      r.mem x = s.mem x := by
    intro w' hne x hx hle
    refine houtside x ?_
    have hapart := hseparate.strings
    unfold Apart at hapart
    cases w <;> cases w' <;> first | exact absurd rfl hne | omega
  -- the string of the call, and the other one
  have hsplitting : ∀ rest' new, Progress mem0 r.mem (jobs w).str ((jobs w).str + (jobs w).text.length) r.last rest'
        (done w ++ new) →
      Splitting mem0 jobs ⟨r.mem, Function.update s.last w r.last, Function.update s.begun w true⟩
        (Function.update rest w rest') (Function.update done w (done w ++ new)) := by
    intro rest' new hprogress
    refine ⟨hseps, fun w' => ?_⟩
    by_cases hw : w' = w
    · subst hw
      simp only [Function.update_self, if_true, Option.none_or]
      exact hprogress
    · simp only [Function.update_of_ne hw]
      exact (h.progress w').frame (hother w' hw)
  rcases hresult with ⟨htoken, hnil, hprogress⟩ | ⟨p, chars, rest', htoken, hcons, hprogress⟩
  · exact ⟨_, _, none, [], hstate, hsplitting none [] (by rwa [List.append_nil]), .inl ⟨htoken, rfl, hnil, rfl⟩⟩
  · exact ⟨_, _, rest', [(p, chars)], hstate, hsplitting rest' _ hprogress, .inr ⟨p, chars, htoken, rfl, hcons⟩⟩

/-- Any number of calls: the tokens of each string in order, and then `NULL`. -/
theorem Splitting.calls {rest : Bool → Option Chars} {done : Bool → List (Nat × Chars)} (hseparate : Separate mem0 jobs)
    (h : Splitting mem0 jobs s rest done) (schedule : List Bool) :
    ∃ results t rest' done', s.calls jobs schedule = .ok (results, t) ∧ Splitting mem0 jobs t rest' done' ∧
      ∀ w, ∃ new n, done' w = done w ++ new ∧
        resultsOf w results = new.map (fun d => some d.1) ++ List.replicate n none ∧
        new.length + n = schedule.count w ∧ left jobs rest w = new.map Prod.snd ++ left jobs rest' w ∧
        (n ≠ 0 → left jobs rest' w = []) := by
  induction schedule generalizing s rest done with
  | nil =>
      refine ⟨[], s, rest, done, rfl, h, fun w => ⟨[], 0, ?_, rfl, rfl, rfl, fun hn => absurd rfl hn⟩⟩
      rw [List.append_nil]
  | cons w ws ih =>
      obtain ⟨token, t, restw, neww, hcall, hnext, hresult⟩ := h.call hseparate w
      obtain ⟨results, u, rest', done', hcalls, hend, hall⟩ := ih hnext
      have hstate : s.calls jobs (w :: ws) = .ok ((w, token) :: results, u) := by
        rw [StrtokState.calls, hcall]
        simp only [bind, Except.bind, hcalls]
        rfl
      refine ⟨_, u, rest', done', hstate, hend, fun w' => ?_⟩
      obtain ⟨new, n, hdone, hresults, hcount, hleft, hnone⟩ := hall w'
      by_cases hw : w' = w
      · subst hw
        have hfirst : resultsOf w' ((w', token) :: results) = token :: resultsOf w' results := by simp [resultsOf]
        rw [hfirst, hresults, List.count_cons_self]
        rw [Function.update_self] at hdone
        rw [left, Function.update_self] at hleft
        rcases hresult with ⟨rfl, rfl, hnil, rfl⟩ | ⟨p, chars, rfl, rfl, hcons⟩
        · -- there was no token, and there is none later
          rw [Option.getD_none, fields_nil, eq_comm, List.append_eq_nil_iff, List.map_eq_nil_iff] at hleft
          obtain ⟨rfl, hrest⟩ := hleft
          rw [List.append_nil] at hdone
          refine ⟨[], n + 1, hdone, rfl, ?_, ?_, fun _ => hrest⟩
          · rw [← hcount, List.length_nil]
            omega
          · rw [hnil, hrest]
            rfl
        · refine ⟨(p, chars) :: new, n, ?_, rfl, ?_, ?_, hnone⟩
          · rw [hdone, List.append_assoc]
            rfl
          · rw [← hcount, List.length_cons]
            omega
          · rw [hcons, hleft]
            rfl
      · have hskip : resultsOf w' ((w, token) :: results) = resultsOf w' results := by
          simp [resultsOf, Ne.symm hw]
        rw [Function.update_of_ne hw] at hdone
        rw [left, Function.update_of_ne hw] at hleft
        refine ⟨new, n, hdone, hskip.trans hresults, ?_, hleft, hnone⟩
        rw [hcount, List.count_cons_of_ne (Ne.symm hw)]

end Two

/-! ### The theorem -/

/-- What the `i`-th call on a string returns, in the memory after all calls: the `i`-th token, which is a string now and
    stands where it stood before, or `NULL` if there are not so many. -/
def Returns (mem0 mem : Memory) (job : Tokenisation) (i : Nat) (result : Option Nat) : Prop :=
  match job.tokens[i]? with
  | some token => ∃ p, result = some p ∧ job.str ≤ p ∧ p + token.length ≤ job.str + job.text.length ∧
      BytesAt mem0 p token ∧ Holds mem p token
  | none => result = none

/-- Calls of `strtok_r` on two strings, in any order, all return, and give the tokens of each string in order and then
    `NULL`. -/
theorem strtok_r_splits {jobs : Bool → Tokenisation} {s : StrtokState} (hbegun : ∀ w, s.begun w = false)
    (hseparate : Separate s.mem jobs) (schedule : List Bool) :
    ∃ results t, s.calls jobs schedule = .ok (results, t) ∧
      ∀ w, (resultsOf w results).length = schedule.count w ∧
        ∀ i result, (resultsOf w results)[i]? = some result → Returns s.mem t.mem (jobs w) i result := by
  have hstart : Splitting s.mem jobs s (fun w => some (jobs w).text) fun _ => [] := by
    refine ⟨hseparate.seps, fun w => ?_⟩
    rw [hbegun w]
    exact Progress.start (hseparate.text w)
  obtain ⟨results, t, rest, done, hcalls, hend, hall⟩ := hstart.calls hseparate schedule
  refine ⟨results, t, hcalls, fun w => ?_⟩
  obtain ⟨new, n, hdone, hresults, hcount, hleft, hnone⟩ := hall w
  rw [List.nil_append] at hdone
  have htokens : (jobs w).tokens = new.map Prod.snd ++ left jobs rest w := hleft
  refine ⟨by rw [hresults, List.length_append, List.length_map, List.length_replicate, hcount], ?_⟩
  intro i result hi
  rw [hresults] at hi
  unfold Returns
  rw [htokens]
  by_cases hlt : i < new.length
  · rw [List.getElem?_append_left (by rwa [List.length_map]), List.getElem?_map, List.getElem?_eq_getElem hlt] at hi ⊢
    obtain rfl := Option.some.inj hi
    have hmem : new[i] ∈ done w := hdone ▸ List.getElem_mem hlt
    obtain ⟨hholds, hbytes, hlo, hhi⟩ := (hend.progress w).tokens _ hmem
    exact ⟨_, rfl, hlo, hhi, hbytes, hholds⟩
  · have hlength : (new.map fun d => some d.1).length ≤ i := by rw [List.length_map]; omega
    rw [List.getElem?_append_right hlength, List.getElem?_replicate] at hi
    split at hi
    · rename_i hn
      obtain rfl := Option.some.inj hi
      rw [hnone (by omega), List.append_nil, List.getElem?_eq_none (by rw [List.length_map]; omega)]
    · exact absurd hi (by simp)

/-- The strings `a b` and `c;;d`, with a blank and with a semicolon as the separator. -/
def twoStrings (w : Bool) : Tokenisation :=
  if w then ⟨4096, [0x61, 0x20, 0x62], 8192, [0x20]⟩ else ⟨4112, [0x63, 0x3b, 0x3b, 0x64], 8208, [0x3b]⟩

/-- Memory with these strings. -/
def twoStringsMemory : Memory :=
  writeBytes (writeBytes (writeBytes (writeBytes (fun _ => 0) 4096 (twoStrings true).text)
    4112 (twoStrings false).text) 8192 (twoStrings true).seps) 8208 (twoStrings false).seps

theorem twoStrings_separate : Separate twoStringsMemory twoStrings where
  text := by decide
  seps := by decide
  strings := by decide
  separators := by decide

/-- Three calls on each of the two strings, taking turns. -/
theorem strtok_r_splits_two :
    ∃ results t, StrtokState.calls twoStrings ⟨twoStringsMemory, fun _ => none, fun _ => false⟩
        [true, false, true, false, true, false] = .ok (results, t) ∧
      ∀ w, (resultsOf w results).length = [true, false, true, false, true, false].count w ∧
        ∀ i result, (resultsOf w results)[i]? = some result → Returns twoStringsMemory t.mem (twoStrings w) i result :=
  strtok_r_splits (fun _ => rfl) twoStrings_separate _

end CString

end Chaotix
