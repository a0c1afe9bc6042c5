/-
Module: Chaotix.Proofs.CommandLine
Layer: Proofs
Purpose: The kernel command line beside its tokens. The buffer is split twice, first at the blanks and then at the first
  equals sign of each token, so that a key is the string at its pointer; a lookup finds the first token with the key.
Imports: Mathlib.Tactic, Chaotix.Lib.Fields, Chaotix.Kernel.CommandLine, Chaotix.Proofs.StringTokens,
  Chaotix.Proofs.StringFunctions
Trusted boundary: none
Main exports: tokensOf, Entry, tokenLoop_spec, terminateLoop_spec, cmdline_lookup_eq
-/
import Mathlib.Tactic
import Chaotix.Lib.Fields
import Chaotix.Kernel.CommandLine
import Chaotix.Proofs.StringTokens
import Chaotix.Proofs.StringFunctions

namespace Chaotix

namespace Cmdline

open CString

/-! ### Tokens -/

/-- The tokens of a command line, between blanks. -/
def tokensOf (text : Chars) : List Chars := fields (fun c => decide (c ∈ [0x20])) text

section Token

variable {mem mem' : Memory} {p : Nat} {token : Chars}

/-- `strchr` finds no blank. -/
theorem strchr_blank (h : Holds mem p token) (hblank : (0x20 : UInt8) ∉ token) : strchr mem p 0x20 = .ok none := by
  have hnone : (token.findIdx? fun c => charValue c = 0x20) = none := by
    rw [List.findIdx?_eq_none_iff]
    intro c hc
    have hiff : charValue c = 0x20 ↔ c = 0x20 := charValue_inj (d := 0x20)
    exact decide_eq_false fun heq => hblank (hiff.1 heq ▸ hc)
  rw [strchr_eq h, hnone]
  rfl

/-- The pointer to the value of a token. -/
def valuePointer (p : Nat) (token : Chars) : Option Nat :=
  (valueOf token).map fun _ => p + (keyOf token).length + 1

/-- A token after the equals sign has been overwritten: its key is a string, and so is its value. -/
structure Entry (mem : Memory) (p : Nat) (token : Chars) : Prop where
  key : Holds mem p (keyOf token)
  value : ∀ value, valueOf token = some value → Holds mem (p + (keyOf token).length + 1) value

theorem Entry.congr (h : Entry mem p token) (hsame : ∀ x, p ≤ x → x ≤ p + token.length → mem' x = mem x) :
    Entry mem' p token where
  key := by
    have hle := keyOf_length_le token
    exact h.key.congr fun x hx hle' => hsame x hx (by omega)
  value := by
    intro value hvalue
    rcases assignment_split token with ⟨hnone, -⟩ | ⟨value', hsome, htoken⟩
    · rw [hnone] at hvalue
      exact absurd hvalue (by simp)
    · obtain rfl : value' = value := Option.some.inj (hsome.symm.trans hvalue)
      have hlength := congrArg List.length htoken
      rw [List.length_append, List.length_cons] at hlength
      exact (h.value value' hvalue).congr fun x hx hle => hsame x (by omega) (by omega)

/-- The value of a token is found where there is no blank in it. -/
theorem readValue_eq (h : Holds mem p token) (hblank : (0x20 : UInt8) ∉ token) :
    readValue mem p none = .ok (valuePointer p token) := by
  rw [readValue, strchr_equal h, strchr_blank h hblank, valuePointer]
  cases valueOf token <;> rfl

/-- A key is terminated in place of its equals sign. -/
theorem terminateKey_spec (h : Holds mem p token) (hblank : (0x20 : UInt8) ∉ token) :
    ∃ mem', terminateKey mem p (valuePointer p token) = .ok mem' ∧ Entry mem' p token ∧
      ∀ x, x < p ∨ p + token.length < x → mem' x = mem x := by
  have hequal := strchr_equal h
  rw [terminateKey, strchr_blank h hblank]
  rcases assignment_split token with ⟨hvalue, hkey⟩ | ⟨value, hvalue, htoken⟩
  · have hnone : valuePointer p token = none := by rw [valuePointer, hvalue]; rfl
    rw [hnone]
    refine ⟨mem, rfl, ⟨hkey.symm ▸ h, fun v hv => ?_⟩, fun x _ => rfl⟩
    rw [hvalue] at hv
    exact absurd hv (by simp)
  · have hsome : valuePointer p token = some (p + (keyOf token).length + 1) := by rw [valuePointer, hvalue]; rfl
    rw [hvalue] at hequal
    rw [hsome]
    have hlength := congrArg List.length htoken
    rw [List.length_append, List.length_cons] at hlength
    refine ⟨Function.update mem (p + (keyOf token).length) 0, ?_, ⟨?_, fun v hv => ?_⟩, fun x hx => ?_⟩
    · simp only [bind, Except.bind, Option.isSome_some, if_true, terminate, hequal]
      rfl
    · have hcut := h.cut (n := (keyOf token).length) (by omega)
      have htake : token.take (keyOf token).length = keyOf token :=
        (congrArg (List.take _) htoken).trans List.take_left
      rwa [htake] at hcut
    · obtain rfl : value = v := Option.some.inj (hvalue.symm.trans hv)
      have hbehind := (Holds.append (htoken ▸ h)).2
      exact (Holds.cons_iff.1 hbehind).2.2.update (.inl (Nat.lt_succ_self _)) 0
    · exact Function.update_of_ne (by omega) _ _

end Token

/-! ### The loops -/

section Loops

variable {mem0 mem : Memory} {lo hi sep : Nat} {t : Table} {token saved : Option Nat} {tokens : List Chars}
  {done : List (Nat × Chars)}

/-- The tokens whose pointers are in the table. -/
structure Recorded (t : Table) (done : List (Nat × Chars)) : Prop where
  numKeys : t.numKeys = done.length
  entry : ∀ i d, done[i]? = some d → t.keys i = d.1 ∧ t.values i = valuePointer d.1 d.2
  unused : ∀ i, done.length ≤ i → t.values i = none

theorem Recorded.push (h : Recorded t done) (d : Nat × Chars) :
    Recorded
      { numKeys := t.numKeys + 1
        keys := Function.update t.keys t.numKeys d.1
        values := Function.update t.values t.numKeys (valuePointer d.1 d.2) } (done ++ [d]) where
  numKeys := by rw [List.length_append, h.numKeys, List.length_singleton]
  entry := by
    intro i e he
    rcases Nat.lt_trichotomy i done.length with hlt | heq | hgt
    · have hne : i ≠ t.numKeys := by rw [h.numKeys]; omega
      rw [List.getElem?_append_left hlt] at he
      simp only [Function.update_of_ne hne]
      exact h.entry i e he
    · rw [heq, List.getElem?_concat_length] at he
      obtain rfl := Option.some.inj he
      rw [heq, ← h.numKeys]
      simp only [Function.update_self, and_self]
    · have hlong : (done ++ [d]).length ≤ i := by rw [List.length_append, List.length_singleton]; omega
      rw [List.getElem?_eq_none hlong] at he
      exact absurd he (by simp)
  unused := by
    intro i hi
    rw [List.length_append, List.length_singleton] at hi
    have hne : i ≠ t.numKeys := by rw [h.numKeys]; omega
    simp only [Function.update_of_ne hne]
    exact h.unused i (by omega)

/-- What a call of `strtok_r` has left: the tokens from its own on, of which it has cut off the first. -/
def Cut (mem0 mem : Memory) (lo hi : Nat) (token saved : Option Nat) (tokens : List Chars)
    (done : List (Nat × Chars)) : Prop :=
  token = none ∧ tokens = [] ∧ Progress mem0 mem lo hi saved none done ∨
    ∃ p chars rest, token = some p ∧
      tokens = chars :: fields (fun c => decide (c ∈ [0x20])) (rest.getD []) ∧
      Progress mem0 mem lo hi saved rest (done ++ [(p, chars)])

/-- The loop over the tokens records all of them. -/
theorem tokenLoop_spec (hcut : Cut mem0 mem lo hi token saved tokens done) (hsep : Holds mem sep [0x20])
    (hapart : Apart lo (hi - lo) sep 1) (hrecorded : Recorded t done)
    (hroom : done.length + tokens.length ≤ MAX_NUM_KEYS) (hblank : ∀ chars ∈ tokens, (0x20 : UInt8) ∉ chars) :
    ∃ mem' t' all ptr rest, tokenLoop sep mem t token saved = .ok (mem', t') ∧ Recorded t' all ∧
      all.map Prod.snd = done.map Prod.snd ++ tokens ∧ Progress mem0 mem' lo hi ptr rest all ∧
      ∀ x, x < lo ∨ hi < x → mem' x = mem x := by
  induction tokens generalizing mem t token saved done with
  | nil =>
      rcases hcut with ⟨rfl, -, hprogress⟩ | ⟨p, chars, rest, -, hnil, -⟩
      · refine ⟨mem, t, done, saved, none, ?_, hrecorded, by simp, hprogress, fun x _ => rfl⟩
        rw [tokenLoop]
      · exact absurd hnil (by simp)
  | cons chars tokens ih =>
      rcases hcut with ⟨-, hnil, -⟩ | ⟨p, chars', rest, rfl, hcons, hprogress⟩
      · exact absurd hnil (by simp)
      · obtain ⟨rfl, rfl⟩ := List.cons.inj hcons
        rw [List.length_cons] at hroom
        have hfull : t.numKeys < MAX_NUM_KEYS := by rw [hrecorded.numKeys]; omega
        have hholds := (hprogress.tokens (p, chars) (List.mem_append_right _ List.mem_cons_self)).1
        have hvalue : readValue mem p (t.values t.numKeys) = .ok (valuePointer p chars) := by
          rw [hrecorded.unused _ (Nat.le_of_eq hrecorded.numKeys.symm)]
          exact readValue_eq hholds (hblank chars List.mem_cons_self)
        have hsaved : Progress mem0 mem lo hi ((none : Option Nat).or saved) rest (done ++ [(p, chars)]) := hprogress
        obtain ⟨r, hcall, houtside, hresult⟩ := hsaved.call hsep
        have hsep' : Holds r.mem sep [0x20] := by
          refine hsep.congr fun x hx hle => houtside x ?_
          unfold Apart at hapart
          simp only [List.length_singleton] at hle
          omega
        have hnext := hrecorded.push (p, chars)
        have hlength : (done ++ [(p, chars)]).length = done.length + 1 := by simp
        obtain ⟨mem', t', all, ptr, rest', hloop, hrecorded', hall, hprogress', houtside'⟩ :=
          ih hresult hsep' hnext (by omega) fun c hc => hblank c (List.mem_cons_of_mem _ hc)
        refine ⟨mem', t', all, ptr, rest', ?_, hrecorded', ?_, hprogress', fun x hx => ?_⟩
        · rw [tokenLoop, if_pos hfull, hvalue]
          simp only [bind, Except.bind, hcall]
          exact hloop
        · rw [hall, List.map_append, List.append_assoc]
          rfl
        · exact (houtside' x hx).trans (houtside x hx)

/-- The second loop terminates every key. -/
theorem terminateLoop_spec {earlier later : List (Nat × Chars)} (hrecorded : Recorded t (earlier ++ later))
    (hordered : (earlier ++ later).Pairwise fun d e => d.1 + d.2.length < e.1)
    (hentries : ∀ d ∈ earlier, Entry mem d.1 d.2) (hholds : ∀ d ∈ later, Holds mem d.1 d.2)
    (hblank : ∀ d ∈ later, (0x20 : UInt8) ∉ d.2) :
    ∃ mem', terminateLoop t earlier.length mem = .ok mem' ∧ ∀ d ∈ earlier ++ later, Entry mem' d.1 d.2 := by
  induction later generalizing earlier mem with
  | nil =>
      rw [List.append_nil] at hrecorded ⊢
      refine ⟨mem, ?_, hentries⟩
      rw [terminateLoop, if_neg (by rw [hrecorded.numKeys]; omega)]
  | cons d later ih =>
      obtain ⟨hd, hlater⟩ := List.forall_mem_cons.1 hholds
      obtain ⟨hdblank, hlaterblank⟩ := List.forall_mem_cons.1 hblank
      obtain ⟨hkey, hvalue⟩ := hrecorded.entry earlier.length d (by simp)
      obtain ⟨-, hbehind, hbefore⟩ := List.pairwise_append.1 hordered
      obtain ⟨hafter, -⟩ := List.pairwise_cons.1 hbehind
      obtain ⟨mem', hstep, hentry, hother⟩ := terminateKey_spec hd hdblank
      have hsplit : earlier ++ d :: later = (earlier ++ [d]) ++ later := by simp
      rw [hsplit] at hrecorded hordered
      have hearlier : ∀ e ∈ earlier ++ [d], Entry mem' e.1 e.2 := by
        intro e he
        rcases List.mem_append.1 he with he | he
        · have hlt := hbefore e he d List.mem_cons_self
          exact (hentries e he).congr fun x _ hle => hother x (by omega)
        · obtain rfl := List.mem_singleton.1 he
          exact hentry
      have hrest : ∀ e ∈ later, Holds mem' e.1 e.2 := by
        intro e he
        have hlt := hafter e he
        exact (hlater e he).congr fun x hx _ => hother x (by omega)
      obtain ⟨mem'', hloop, hall⟩ := ih hrecorded hordered hearlier hrest hlaterblank
      refine ⟨mem'', ?_, hsplit ▸ hall⟩
      have hlt : earlier.length < t.numKeys := by rw [hrecorded.numKeys]; simp
      rw [terminateLoop, if_pos hlt, hkey, hvalue, hstep]
      rw [List.length_append, List.length_singleton] at hloop
      exact hloop

end Loops

/-! ### Looking a key up -/

section Lookup

variable {m : Memory} {t : Table} {key : Nat} {k : Chars}

/-- The loop stops at the first token with the key. -/
theorem keyLoop_eq {α : Type} (found : Nat → α) (missing : α) {earlier later : List (Nat × Chars)}
    (hrecorded : Recorded t (earlier ++ later)) (hentries : ∀ d ∈ later, Entry m d.1 d.2) (hkey : Holds m key k) :
    keyLoop m t key found missing earlier.length =
      .ok (((later.findIdx? fun d => keyOf d.2 = k).map fun j => found (earlier.length + j)).getD missing) := by
  induction later generalizing earlier with
  | nil =>
      rw [List.append_nil] at hrecorded
      rw [keyLoop, if_neg (by rw [hrecorded.numKeys]; omega)]
      rfl
  | cons d later ih =>
      obtain ⟨hd, hlater⟩ := List.forall_mem_cons.1 hentries
      have hpointer := (hrecorded.entry earlier.length d (by simp)).1
      have hlt : earlier.length < t.numKeys := by rw [hrecorded.numKeys]; simp
      obtain ⟨order, horder, hiff⟩ := strcmp_eq hd.key hkey
      rw [keyLoop, if_pos hlt, hpointer, horder, List.findIdx?_cons]
      by_cases heq : keyOf d.2 = k
      · simp only [bind, Except.bind, hiff.2 heq, heq, if_true, decide_true, Option.map_some, Option.getD_some]
        rfl
      · have hsplit : earlier ++ d :: later = (earlier ++ [d]) ++ later := by simp
        have hloop := ih (hsplit ▸ hrecorded) hlater
        rw [List.length_append, List.length_singleton] at hloop
        simp only [bind, Except.bind, mt hiff.1 heq, heq, if_false, decide_false, Bool.false_eq_true, Option.map_map,
          hloop]
        congr 3
        funext j
        simp only [Function.comp_apply]
        congr 1
        omega

variable {all : List (Nat × Chars)}

theorem cmdlineContains_eq (hrecorded : Recorded t all) (hentries : ∀ d ∈ all, Entry m d.1 d.2)
    (hkey : Holds m key k) :
    ∃ b, cmdlineContains m t key = .ok b ∧ (b = true ↔ ∃ token ∈ all.map Prod.snd, keyOf token = k) := by
  have hfirst : Recorded t ([] ++ all) := hrecorded
  have hloop : keyLoop m t key (fun _ => true) false 0 = _ := keyLoop_eq (fun _ => true) false hfirst hentries hkey
  refine ⟨(all.findIdx? fun d => keyOf d.2 = k).isSome, ?_, ?_⟩
  · rw [cmdlineContains]
    by_cases hzero : t.numKeys = 0
    · rw [if_pos hzero, List.length_eq_zero_iff.1 (hrecorded.numKeys.symm.trans hzero)]
      rfl
    · rw [if_neg hzero, hloop]
      cases all.findIdx? fun d => decide (keyOf d.2 = k) <;> rfl
  · rw [List.findIdx?_isSome, List.any_eq_true]
    constructor
    · rintro ⟨d, hd, heq⟩
      exact ⟨d.2, List.mem_map_of_mem hd, of_decide_eq_true heq⟩
    · rintro ⟨token, htoken, heq⟩
      obtain ⟨d, hd, rfl⟩ := List.mem_map.1 htoken
      exact ⟨d, hd, decide_eq_true heq⟩

theorem cmdlineLookup_eq (hrecorded : Recorded t all) (hentries : ∀ d ∈ all, Entry m d.1 d.2) (hkey : Holds m key k) :
    ∃ value, cmdlineLookup m t key = .ok value ∧
      Points m value (((all.map Prod.snd).find? fun token => keyOf token = k).bind valueOf) := by
  have hfirst : Recorded t ([] ++ all) := hrecorded
  have hloop : keyLoop m t key t.values none 0 = _ := keyLoop_eq t.values none hfirst hentries hkey
  refine ⟨((all.findIdx? fun d => keyOf d.2 = k).map t.values).getD none, ?_, ?_⟩
  · rw [cmdlineLookup]
    by_cases hzero : t.numKeys = 0
    · rw [if_pos hzero, List.length_eq_zero_iff.1 (hrecorded.numKeys.symm.trans hzero)]
      rfl
    · rw [if_neg hzero, hloop]
      simp
  · rw [List.find?_map, List.find?_eq_bind_findIdx?_getElem?]
    change Points m _ ((((all.findIdx? fun d => keyOf d.2 = k).bind fun i => all[i]?).map Prod.snd).bind valueOf)
    cases hfind : all.findIdx? fun d => decide (keyOf d.2 = k) with
    | none => trivial
    | some j =>
        obtain ⟨hj, -⟩ := List.findIdx?_eq_some_iff_getElem.1 hfind
        have hget := List.getElem?_eq_getElem hj
        have hvalue := (hentries _ (List.getElem_mem hj)).value
        simp only [Option.map_some, Option.getD_some, Option.bind_some, hget, (hrecorded.entry j _ hget).2,
          valuePointer]
        cases htoken : valueOf all[j].2 with
        | none => trivial
        | some value => exact hvalue value htoken

end Lookup

/-! ### The theorem -/

/-- The command line of the boot loader is shorter than the buffers, which are apart from it and from the separator. -/
structure Placed (st : Statics) (mem : Memory) (str : Nat) (text : Chars) : Prop where
  string : Holds mem str text
  sep : Holds mem st.sep [0x20]
  short : text.length < MAX_CMDLINE_LEN
  inSpace : st.buf + MAX_CMDLINE_LEN ≤ wordSize
  rawText : Apart st.raw (MAX_CMDLINE_LEN - 1) str text.length
  bufText : Apart st.buf (MAX_CMDLINE_LEN - 1) str text.length
  rawSep : Apart st.raw (MAX_CMDLINE_LEN - 1) st.sep 1
  bufSep : Apart st.buf (MAX_CMDLINE_LEN - 1) st.sep 1

section Init

variable {st : Statics} {mem : Memory} {str : Nat} {text : Chars}

/-- The buffer is copied, split, and each token split again. -/
theorem cmdlineRead_eq (h : Placed st mem str text) :
    ∃ mem' t all, cmdlineRead st str mem {} = .ok (mem', t) ∧ Recorded t all ∧
      all.map Prod.snd = tokensOf text ∧
      ∀ d ∈ all, Entry mem' d.1 d.2 ∧ st.buf ≤ d.1 ∧ d.1 + d.2.length < st.buf + MAX_CMDLINE_LEN := by
  obtain ⟨hstring, hsep, hshort, hspace, hrawText, hbufText, hrawSep, hbufSep⟩ := h
  simp only [MAX_CMDLINE_LEN, Apart] at hshort hspace hrawText hbufText hrawSep hbufSep ⊢
  have htake : text.take (MAX_CMDLINE_LEN - 1) = text := List.take_of_length_le (Nat.le_sub_one_of_lt hshort)
  -- both copies are complete, and the second leaves the buffer and the separator
  have hraw : strlcpy mem st.raw str MAX_CMDLINE_LEN = _ :=
    strlcpy_eq hstring (by decide) (by rw [htake]; unfold Apart; omega)
  have hstring' : Holds (writeBytes mem st.raw (text ++ [0])) str text :=
    hstring.congr fun x hx hle => writeBytes_outside (by rw [List.length_append, List.length_singleton]; omega)
  have hbuf : strlcpy (writeBytes mem st.raw (text ++ [0])) st.buf str MAX_CMDLINE_LEN = _ :=
    strlcpy_eq hstring' (by decide) (by rw [htake]; unfold Apart; omega)
  rw [htake] at hraw hbuf
  have hsep' : Holds (writeBytes (writeBytes mem st.raw (text ++ [0])) st.buf (text ++ [0])) st.sep [0x20] := by
    refine hsep.congr fun x hx hle => (writeBytes_outside ?_).trans (writeBytes_outside ?_) <;>
      rw [List.length_append, List.length_singleton] <;> simp only [List.length_singleton] at hle <;> omega
  generalize hmem : writeBytes (writeBytes mem st.raw (text ++ [0])) st.buf (text ++ [0]) = mem2 at hbuf hsep'
  have hstart : Holds mem2 st.buf text :=
    ⟨hmem ▸ stringAt_writeBytes _ st.buf hstring.stringAt.ne_zero, by simp only [wordSize] at hspace ⊢; omega⟩
  -- the first call, the loop over the tokens, and the loop over the keys
  have hwhole : Progress mem2 mem2 st.buf (st.buf + text.length) ((some st.buf).or none) (some text) [] :=
    Progress.start hstart
  obtain ⟨r, hcall, houtside, hresult⟩ := hwhole.call hsep'
  have hsep2 : Holds r.mem st.sep [0x20] := by
    refine hsep'.congr fun x hx hle => houtside x ?_
    simp only [List.length_singleton] at hle
    omega
  have hblank : ∀ chars ∈ tokensOf text, (0x20 : UInt8) ∉ chars := by
    intro chars hchars hmem'
    have hnot := (mem_fields hchars).2 _ hmem'
    simp at hnot
  have hcount : (tokensOf text).length ≤ text.length := length_fields_le text
  have hempty : Recorded {} [] := ⟨rfl, by simp, fun i _ => rfl⟩
  have hapart : Apart st.buf (st.buf + text.length - st.buf) st.sep 1 := by unfold Apart; omega
  have hroom : ([] : List (Nat × Chars)).length + (tokensOf text).length ≤ MAX_NUM_KEYS := by
    simp only [List.length_nil, MAX_NUM_KEYS]
    omega
  obtain ⟨mem3, t, all, ptr, rest, hloop, hrecorded, htokens, hprogress, -⟩ :=
    tokenLoop_spec hresult hsep2 hapart hempty hroom hblank
  replace htokens : all.map Prod.snd = tokensOf text := htokens
  have hholds : ∀ d ∈ all, Holds mem3 d.1 d.2 := fun d hd => (hprogress.tokens d hd).1
  have hblank' : ∀ d ∈ all, (0x20 : UInt8) ∉ d.2 :=
    fun d hd => hblank d.2 (htokens ▸ List.mem_map_of_mem hd)
  have hfirst : Recorded t ([] ++ all) := hrecorded
  obtain ⟨mem4, hterminate, hentries⟩ := terminateLoop_spec hfirst hprogress.ordered (by simp) hholds hblank'
  refine ⟨mem4, t, all, ?_, hrecorded, htokens, fun d hd => ?_⟩
  · rw [List.length_nil] at hterminate
    rw [cmdlineRead]
    simp only [bind, Except.bind, hraw, hbuf, hcall, hloop, hterminate]
    rfl
  · obtain ⟨-, -, hlo, hhi⟩ := hprogress.tokens d hd
    exact ⟨hentries d hd, hlo, by omega⟩

end Init

/-- After `cmdline_init`, and for as long as the buffer is left alone, `cmdline_contains` tells whether a token has the
    key, and `cmdline_lookup` returns the value of the first token that has it, or `NULL`. -/
theorem cmdline_lookup_eq {st : Statics} {mem : Memory} {cmdline : Nat} {text : Chars}
    (h : Placed st mem ((cmdline + KERNEL_VADDR) % wordSize) text) :
    ∃ mem' t, cmdlineInit st (some cmdline) mem {} = .ok (mem', t) ∧
      ∀ m key k, (∀ x, st.buf ≤ x → x < st.buf + MAX_CMDLINE_LEN → m x = mem' x) → Holds m key k →
        (∃ b, cmdlineContains m t key = .ok b ∧ (b = true ↔ ∃ token ∈ tokensOf text, keyOf token = k)) ∧
        ∃ value, cmdlineLookup m t key = .ok value ∧
          Points m value (((tokensOf text).find? fun token => keyOf token = k).bind valueOf) := by
  obtain ⟨mem', t, all, hinit, hrecorded, htokens, hall⟩ := cmdlineRead_eq h
  refine ⟨mem', t, hinit, fun m key k hsame hkey => ?_⟩
  have hentries : ∀ d ∈ all, Entry m d.1 d.2 := by
    intro d hd
    obtain ⟨hentry, hlo, hhi⟩ := hall d hd
    exact hentry.congr fun x hx hle => hsame x (by omega) (by omega)
  rw [← htokens]
  exact ⟨cmdlineContains_eq hrecorded hentries hkey, cmdlineLookup_eq hrecorded hentries hkey⟩

/-- The statics in the kernel's image, and the boot loader's string in its first megabyte. -/
def bootStatics : Statics := ⟨0xc0110000, 0xc0120000, 0xc0130000⟩

/-- The command line `a=1 b a`. -/
def bootText : Chars := [0x61, 0x3d, 0x31, 0x20, 0x62, 0x20, 0x61]

def bootMemory : Memory :=
  writeBytes (writeBytes (fun _ => 0) 0xc0001000 bootText) 0xc0130000 [0x20]

theorem bootMemory_placed : Placed bootStatics bootMemory ((0x1000 + KERNEL_VADDR) % wordSize) bootText where
  string := by decide
  sep := by decide
  short := by decide
  inSpace := by decide
  rawText := by decide
  bufText := by decide
  rawSep := by decide
  bufSep := by decide

/-- The lookups after this command line. -/
theorem cmdline_lookup_boot :
    ∃ mem' t, cmdlineInit bootStatics (some 0x1000) bootMemory {} = .ok (mem', t) ∧
      ∀ m key k, (∀ x, bootStatics.buf ≤ x → x < bootStatics.buf + MAX_CMDLINE_LEN → m x = mem' x) → Holds m key k →
        (∃ b, cmdlineContains m t key = .ok b ∧ (b = true ↔ ∃ token ∈ tokensOf bootText, keyOf token = k)) ∧
        ∃ value, cmdlineLookup m t key = .ok value ∧
          Points m value (((tokensOf bootText).find? fun token => keyOf token = k).bind valueOf) :=
  cmdline_lookup_eq bootMemory_placed

end Cmdline

end Chaotix
