/-
Module: Chaotix.Proofs.StdioSpec
Layer: Proofs
Purpose: What `vsnprintf` stores, in terms of the text that its directives print. It stores the text up to the size of
  the buffer, with one exception: the two characters of a prefix `0x` are stored behind one check, so a prefix that starts at the last
  place of the buffer is stored past its end. When the format ends inside a conversion and there is still room, the
  loop reads on behind the terminator.
Imports: Chaotix.Kernel.Stdio
Trusted boundary: none
Main exports: Directive.text, directives, outputOf, prefixPositions, storeAll, vsnprintf_eq, itoaText_eq
-/
import Chaotix.Kernel.Stdio

open Program

namespace Chaotix

namespace Stdio

/-! ### The text of a format -/

/-- The padding and the digits of a number. -/
def padded (pad0 : Bool) (padLen : Nat) (numBuf : List UInt8) : List UInt8 :=
  List.replicate (padLen - numBuf.length) (if pad0 then 48 else 32) ++ numBuf

/-- What a directive prints when there is room, and the arguments it leaves. -/
def Directive.text : Directive → List Arg → Option (List UInt8 × List Arg)
  | .finish, args => some ([], args)
  | .char ch, args => some ([ch], args)
  | .character, .int value :: args => some ([UInt8.ofNat (value.toNat % 256)], args)
  | .number pad0 padLen _ true, .int value :: args => some (48 :: 120 :: padded pad0 padLen (itoaText value 16), args)
  | .number pad0 padLen ch false, .int value :: args =>
      some (padded pad0 padLen (itoaText value (if ch = 120 then 16 else 10)), args)
  | .string, .str none :: args => some (nullText, args)
  | .string, .str (some str) :: args => some (str.chars, args)
  | .unknown, args => some ([63], args)
  | _, _ => none

/-- The directive prints the prefix `0x`. -/
def Directive.prefixed : Directive → Bool
  | .number _ _ _ prefixed => prefixed
  | _ => false

/-- The directives of a format, and whether it is read on behind its terminator. -/
def readAll : Nat → List UInt8 → List Directive × Bool
  | 0, _ => ([], true)
  | fuel + 1, format =>
      match readDirective format with
      | .error _ => ([], true)
      | .ok (.finish, _) => ([], false)
      | .ok (directive, format) => (directive :: (readAll fuel format).1, (readAll fuel format).2)

def directives (format : List UInt8) : List Directive := (readAll (format.length + 1) format).1

/-- The format ends inside a conversion. -/
def CutOff (format : List UInt8) : Prop := (readAll (format.length + 1) format).2 = true

instance (format : List UInt8) : Decidable (CutOff format) := inferInstanceAs (Decidable (_ = true))

/-- The whole output; there is none when the arguments do not match. -/
def outputOf : List Directive → List Arg → Option (List UInt8)
  | [], _ => some []
  | directive :: rest, args =>
      match directive.text args with
      | none => none
      | some (text, args) => (outputOf rest args).map (text ++ ·)

/-- The places of the output at which a prefix `0x` starts; the output starts at a place as well. -/
def prefixPositions : List Directive → List Arg → Nat → List Nat
  | [], _, _ => []
  | directive :: rest, args, idx =>
      match directive.text args with
      | none => []
      | some (text, args) =>
          (if directive.prefixed then [idx] else []) ++ prefixPositions rest args (idx + text.length)

theorem outputOf_cons {d : Directive} {ds : List Directive} {args : List Arg} {out : List UInt8}
    (h : outputOf (d :: ds) args = some out) :
    ∃ text args' out', d.text args = some (text, args') ∧ outputOf ds args' = some out' ∧ out = text ++ out' := by
  rw [outputOf] at h
  split at h
  · cases h
  · rename_i text args' htext
    obtain ⟨out', hout', heq⟩ := Option.map_eq_some_iff.1 h
    exact ⟨text, args', out', htext, hout', heq.symm⟩

theorem prefixPositions_cons {d : Directive} {ds : List Directive} {args args' : List Arg} {text : List UInt8} {idx : Nat}
    (h : d.text args = some (text, args')) :
    prefixPositions (d :: ds) args idx =
      (if d.prefixed then [idx] else []) ++ prefixPositions ds args' (idx + text.length) := by
  rw [prefixPositions, h]

/-- A text with a prefix has the two characters of the prefix. -/
theorem two_le_of_prefixed {d : Directive} {args args' : List Arg} {text : List UInt8}
    (h : d.text args = some (text, args')) (hprefixed : d.prefixed = true) : 2 ≤ text.length := by
  cases d with
  | number pad0 padLen ch prefixed =>
      obtain rfl : prefixed = true := hprefixed
      cases args with
      | nil => cases h
      | cons arg args =>
          cases arg with
          | str str => cases h
          | int value =>
              obtain ⟨rfl, rfl⟩ := Prod.mk.inj (Option.some.inj h)
              simp
  | _ => cases hprefixed

theorem le_of_mem_prefixPositions {ds : List Directive} {args : List Arg} {idx i : Nat}
    (h : i ∈ prefixPositions ds args idx) : idx ≤ i := by
  induction ds generalizing args idx with
  | nil => cases h
  | cons d ds ih =>
      rw [prefixPositions] at h
      split at h
      · cases h
      · rename_i text args' htext
        rcases List.mem_append.1 h with h | h
        · split at h
          · rw [List.mem_singleton.1 h]
          · cases h
        · exact Nat.le_trans (Nat.le_add_right _ _) (ih h)

/-! ### Storing a text -/

section Output

variable {σ : Type} {store : Nat → UInt8 → Kernel σ Unit} {size : Nat}

/-- Store a text from a place on. -/
def storeAll (store : Nat → UInt8 → Kernel σ Unit) : Nat → List UInt8 → Kernel σ Unit
  | _, [] => return ()
  | idx, ch :: chs => do
      store idx ch
      storeAll store (idx + 1) chs

theorem storeAll_append (idx : Nat) (text rest : List UInt8) :
    storeAll store idx (text ++ rest) = storeAll store idx text >>= fun _ =>
      storeAll store (idx + text.length) rest := by
  induction text generalizing idx with
  | nil => simp [storeAll]
  | cons ch text ih =>
      rw [List.cons_append, storeAll, storeAll, bind_assoc]
      congr 1
      funext _
      rw [ih, List.length_cons, Nat.add_assoc, Nat.add_comm 1]

/-- A loop stores its text up to the end of the buffer. -/
theorem putChars_eq {idx : Nat} (h : idx < size) (text : List UInt8) :
    putChars store size idx text = do
      storeAll store idx (text.take (size - idx))
      return (idx + min text.length (size - idx), decide (size ≤ idx + text.length)) := by
  induction text generalizing idx with
  | nil => simp [putChars, storeAll, Nat.not_le.2 h]
  | cons ch text ih =>
      rw [putChars, putChar, show size - idx = size - (idx + 1) + 1 by omega, List.take_succ_cons, storeAll]
      simp only [bind_assoc, pure_bind]
      congr 1
      funext _
      by_cases hend : size ≤ idx + 1
      · have hall : size ≤ idx + (ch :: text).length := by
          rw [List.length_cons]
          omega
        rw [decide_eq_true hend, decide_eq_true hall, show size - (idx + 1) = 0 by omega, List.length_cons]
        simp [storeAll]
      · rw [decide_eq_false hend, List.length_cons]
        dsimp only
        rw [ih (Nat.lt_of_not_le hend)]
        congr 1
        funext _
        rw [show idx + 1 + min text.length (size - (idx + 1)) = idx + min (text.length + 1) (size - (idx + 1) + 1) by omega,
          Nat.add_assoc, Nat.add_comm 1]

theorem putChar_eq {idx : Nat} (h : idx < size) (ch : UInt8) :
    putChar store size idx ch = do
      storeAll store idx ([ch].take (size - idx))
      return (idx + min [ch].length (size - idx), decide (size ≤ idx + [ch].length)) := by
  rw [← putChars_eq h]
  simp only [putChars, putChar, bind_assoc, pure_bind]
  congr 1
  funext _
  by_cases hend : size ≤ idx + 1
  · rw [decide_eq_true hend]
  · rw [decide_eq_false hend]

theorem putNumber_eq {idx : Nat} (h : idx < size) (pad0 : Bool) (padLen : Nat) (numBuf : List UInt8) :
    putNumber store size idx pad0 padLen numBuf = do
      storeAll store idx ((padded pad0 padLen numBuf).take (size - idx))
      return (idx + min (padded pad0 padLen numBuf).length (size - idx),
        decide (size ≤ idx + (padded pad0 padLen numBuf).length)) := by
  unfold putNumber padded
  generalize List.replicate (padLen - numBuf.length) (if pad0 then (48 : UInt8) else 32) = pad
  rw [putChars_eq h]
  simp only [bind_assoc, pure_bind]
  by_cases hend : size ≤ idx + pad.length
  · have hall : size ≤ idx + (pad ++ numBuf).length := by
      rw [List.length_append]
      omega
    rw [decide_eq_true hend, decide_eq_true hall, List.take_append_of_le_length (by omega),
      show min pad.length (size - idx) = min (pad ++ numBuf).length (size - idx) by rw [List.length_append]; omega]
  · rw [decide_eq_false hend]
    dsimp only
    have hpad : pad.take (size - idx) = pad := List.take_of_length_le (by omega)
    rw [Nat.min_eq_left (by omega), putChars_eq (Nat.lt_of_not_le hend), List.take_append, hpad, storeAll_append,
      List.length_append]
    simp only [bind_assoc]
    congr 1
    funext _
    rw [show size - idx - pad.length = size - (idx + pad.length) by omega]
    congr 1
    funext _
    rw [Nat.add_assoc, Nat.add_assoc, show pad.length + min numBuf.length (size - (idx + pad.length)) =
      min (pad.length + numBuf.length) (size - idx) by omega]

/-- A prefix that starts at the last place is stored past the end of the buffer. -/
theorem perform_overruns {d : Directive} {args args' : List Arg} {text : List UInt8} {idx : Nat} (h : idx + 1 = size)
    (htext : d.text args = some (text, args')) (hprefixed : d.prefixed = true) :
    perform store size d args idx = do
      storeAll store idx (text.take (size - idx + 1))
      return ((size + 1, true), args) := by
  cases d with
  | number pad0 padLen ch prefixed =>
      obtain rfl : prefixed = true := hprefixed
      cases args with
      | nil => cases htext
      | cons arg args =>
          cases arg with
          | str str => cases htext
          | int value =>
              obtain ⟨rfl, rfl⟩ := Prod.mk.inj (Option.some.inj htext)
              rw [show size - idx + 1 = 2 by omega, show size + 1 = idx + 2 by omega]
              simp [perform, storeAll, show size ≤ idx + 2 by omega]
  | _ => cases hprefixed

/-- Any other directive stores its text up to the end of the buffer. -/
theorem perform_eq (store : Nat → UInt8 → Kernel σ Unit) {d : Directive} {args args' : List Arg} {text : List UInt8} {idx : Nat} (h : idx < size)
    (hfinish : d ≠ .finish) (htext : d.text args = some (text, args')) (hroom : d.prefixed = true → idx + 1 ≠ size) :
    ∃ left, (idx + text.length < size → left = args') ∧
      perform store size d args idx = do
        storeAll store idx (text.take (size - idx))
        return ((idx + min text.length (size - idx), decide (size ≤ idx + text.length)), left) := by
  cases d with
  | finish => exact absurd rfl hfinish
  | char ch =>
      obtain ⟨rfl, rfl⟩ := Prod.mk.inj (Option.some.inj htext)
      refine ⟨args, fun _ => rfl, ?_⟩
      rw [perform, putChar_eq h]
      simp only [bind_assoc, pure_bind]
  | unknown =>
      obtain ⟨rfl, rfl⟩ := Prod.mk.inj (Option.some.inj htext)
      refine ⟨args, fun _ => rfl, ?_⟩
      rw [perform, putChar_eq h]
      simp only [bind_assoc, pure_bind]
  | character =>
      cases args with
      | nil => cases htext
      | cons arg args =>
          cases arg with
          | str str => cases htext
          | int value =>
              obtain ⟨rfl, rfl⟩ := Prod.mk.inj (Option.some.inj htext)
              refine ⟨args, fun _ => rfl, ?_⟩
              simp only [perform, vaArgInt, pure_bind]
              rw [putChar_eq h]
              simp only [bind_assoc, pure_bind]
  | string =>
      cases args with
      | nil => cases htext
      | cons arg args =>
          cases arg with
          | int value => cases htext
          | str str =>
              refine ⟨args, fun _ => ?_, ?_⟩
              · cases str with
                | none => exact (Prod.mk.inj (Option.some.inj htext)).2
                | some str => exact (Prod.mk.inj (Option.some.inj htext)).2
              · cases str with
                | none =>
                    obtain ⟨rfl, rfl⟩ := Prod.mk.inj (Option.some.inj htext)
                    simp only [perform, vaArgStr, pure_bind]
                    rw [putChars_eq h]
                    simp only [bind_assoc, pure_bind]
                | some str =>
                    obtain ⟨rfl, rfl⟩ := Prod.mk.inj (Option.some.inj htext)
                    simp only [perform, vaArgStr, pure_bind]
                    rw [putChars_eq h]
                    simp only [bind_assoc, pure_bind]
  | number pad0 padLen ch prefixed =>
      cases args with
      | nil => cases prefixed <;> cases htext
      | cons arg args =>
          cases arg with
          | str str => cases prefixed <;> cases htext
          | int value =>
              cases prefixed with
              | false =>
                  obtain ⟨rfl, rfl⟩ := Prod.mk.inj (Option.some.inj htext)
                  refine ⟨args, fun _ => rfl, ?_⟩
                  simp only [perform, vaArgInt, pure_bind]
                  rw [putNumber_eq h]
                  simp only [bind_assoc, pure_bind]
              | true =>
                  have hroom := hroom rfl
                  obtain ⟨rfl, rfl⟩ := Prod.mk.inj (Option.some.inj htext)
                  by_cases hend : size ≤ idx + 2
                  · -- the two characters of the prefix fill the buffer
                    refine ⟨.int value :: args, fun hlt => ?_, ?_⟩
                    · simp only [List.length_cons] at hlt
                      omega
                    · have htwo : size - idx = 2 := by omega
                      have hall : size ≤ idx + (48 :: 120 :: padded pad0 padLen (itoaText value 16)).length := by
                        simp only [List.length_cons]
                        omega
                      rw [htwo, decide_eq_true hall]
                      simp [perform, storeAll, hend]
                  · refine ⟨args, fun _ => rfl, ?_⟩
                    have hnumber : idx + 2 < size := Nat.lt_of_not_le hend
                    simp only [perform, if_neg hend, vaArgInt, pure_bind]
                    rw [putNumber_eq hnumber, show size - idx = size - (idx + 2) + 1 + 1 by omega, List.take_succ_cons,
                      List.take_succ_cons, storeAll, storeAll]
                    simp only [bind_assoc, pure_bind, List.length_cons]
                    congr 1
                    funext _
                    congr 1
                    funext _
                    congr 1
                    funext _
                    have hmin : ∀ n, idx + 2 + min n (size - (idx + 2)) =
                        idx + min (n + 1 + 1) (size - (idx + 2) + 1 + 1) := by
                      intro n
                      omega
                    have hlength : ∀ n, idx + 2 + n = idx + (n + 1 + 1) := by
                      intro n
                      omega
                    rw [hmin, hlength]

end Output

/-! ### Reading the format -/

section Reading

variable {format rest : List UInt8} {e : Stop} {pad0 : Bool} {padLen : Nat} {ch : UInt8} {d : Directive}

theorem readChar_error (h : readChar format = .error e) : format = [] ∧ e = .fault := by
  cases format with
  | nil => exact ⟨rfl, (Except.error.inj h).symm⟩
  | cons ch format => cases h

theorem readChar_ok (h : readChar format = .ok (ch, rest)) : format = ch :: rest := by
  cases format with
  | nil => cases h
  | cons ch' format =>
      obtain ⟨rfl, rfl⟩ := Prod.mk.inj (Except.ok.inj h)
      rfl

/-- Reading only fails behind the terminator. -/
theorem readConversion_error (h : readConversion pad0 padLen ch format = .error e) : e = .fault := by
  unfold readConversion at h
  split at h
  · cases h
  · split at h
    · split at h
      · rename_i hread
        obtain rfl := Except.error.inj h
        exact (readChar_error hread).2
      · split at h <;> cases h
    · split at h <;> cases h

theorem readWidth_error (h : readWidth pad0 ch format = .error e) : e = .fault := by
  unfold readWidth at h
  split at h
  · split at h
    · rename_i hread
      obtain rfl := Except.error.inj h
      exact (readChar_error hread).2
    · exact readConversion_error h
  · exact readConversion_error h

theorem readDirective_error (h : readDirective format = .error e) : e = .fault := by
  unfold readDirective at h
  split at h
  · rename_i hread
    obtain rfl := Except.error.inj h
    exact (readChar_error hread).2
  · split at h
    · cases h
    · split at h
      · cases h
      · split at h
        · rename_i hread
          obtain rfl := Except.error.inj h
          exact (readChar_error hread).2
        · split at h
          · cases h
          · split at h
            · split at h
              · rename_i hread
                obtain rfl := Except.error.inj h
                exact (readChar_error hread).2
              · exact readWidth_error h
            · exact readWidth_error h

/-- What has been read is gone. -/
theorem readConversion_length (h : readConversion pad0 padLen ch format = .ok (d, rest)) :
    rest.length ≤ format.length := by
  unfold readConversion at h
  split at h
  · obtain ⟨-, rfl⟩ := Prod.mk.inj (Except.ok.inj h)
    exact Nat.le_refl _
  · split at h
    · split at h
      · cases h
      · rename_i next rest' hread
        obtain rfl := readChar_ok hread
        split at h
        · obtain ⟨-, rfl⟩ := Prod.mk.inj (Except.ok.inj h)
          exact Nat.le_succ _
        · obtain ⟨-, rfl⟩ := Prod.mk.inj (Except.ok.inj h)
          exact Nat.le_refl _
    · split at h
      · obtain ⟨-, rfl⟩ := Prod.mk.inj (Except.ok.inj h)
        exact Nat.le_refl _
      · obtain ⟨-, rfl⟩ := Prod.mk.inj (Except.ok.inj h)
        exact Nat.le_refl _

theorem readWidth_length (h : readWidth pad0 ch format = .ok (d, rest)) : rest.length ≤ format.length := by
  unfold readWidth at h
  split at h
  · split at h
    · cases h
    · rename_i next left hread
      obtain rfl := readChar_ok hread
      exact Nat.le_succ_of_le (readConversion_length h)
  · exact readConversion_length h

theorem readDirective_length (h : readDirective format = .ok (d, rest)) : rest.length < format.length := by
  unfold readDirective at h
  split at h
  · cases h
  · rename_i first left hread
    obtain rfl := readChar_ok hread
    rw [List.length_cons, Nat.lt_succ_iff]
    split at h
    · obtain ⟨-, rfl⟩ := Prod.mk.inj (Except.ok.inj h)
      exact Nat.le_refl _
    · split at h
      · obtain ⟨-, rfl⟩ := Prod.mk.inj (Except.ok.inj h)
        exact Nat.le_refl _
      · split at h
        · cases h
        · rename_i second left' hread'
          obtain rfl := readChar_ok hread'
          split at h
          · obtain ⟨-, rfl⟩ := Prod.mk.inj (Except.ok.inj h)
            exact Nat.le_succ _
          · split at h
            · split at h
              · cases h
              · rename_i third left'' hread''
                obtain rfl := readChar_ok hread''
                have hle := readWidth_length h
                simp only [List.length_cons]
                omega
            · exact Nat.le_succ_of_le (readWidth_length h)

theorem readAll_error {fuel : Nat} (h : readDirective format = .error e) : readAll (fuel + 1) format = ([], true) := by
  rw [readAll, h]

theorem readAll_finish {fuel : Nat} (h : readDirective format = .ok (.finish, rest)) :
    readAll (fuel + 1) format = ([], false) := by
  rw [readAll, h]

theorem readAll_cons {fuel : Nat} (h : readDirective format = .ok (d, rest)) (hfinish : d ≠ .finish) :
    readAll (fuel + 1) format = (d :: (readAll fuel rest).1, (readAll fuel rest).2) := by
  rw [readAll, h]
  cases d with
  | finish => exact absurd rfl hfinish
  | _ => rfl

end Reading

/-! ### The loop -/

section Loop

variable {σ : Type} {store : Nat → UInt8 → Kernel σ Unit} {size : Nat}

/-- The loop stores the output up to the end of the buffer, or the output and a prefix that starts at the last place. -/
theorem vsnprintfLoop_eq {fuel : Nat} {format : List UInt8} {args : List Arg} {out : List UInt8} {idx : Nat}
    (hfuel : format.length < fuel) (hidx : idx < size) (hout : outputOf (readAll fuel format).1 args = some out) :
    vsnprintfLoop store size fuel format args idx = do
      let stored := out.take
        (if size - 1 ∈ prefixPositions (readAll fuel format).1 args idx then size - idx + 1 else size - idx)
      storeAll store idx stored
      if (readAll fuel format).2 = true ∧ idx + out.length < size then throw .fault else return idx + stored.length := by
  induction fuel generalizing format args out idx with
  | zero => exact absurd hfuel (Nat.not_lt_zero _)
  | succ fuel ih =>
      rw [vsnprintfLoop]
      cases hread : readDirective format with
      | error e =>
          obtain rfl := readDirective_error hread
          rw [readAll_error hread] at hout ⊢
          obtain rfl := Option.some.inj hout
          simp [storeAll, hidx]
      | ok r =>
          obtain ⟨d, rest⟩ := r
          have hrest : rest.length < fuel := by
            have hlt := readDirective_length hread
            omega
          by_cases hfinish : d = .finish
          · subst hfinish
            rw [readAll_finish hread] at hout ⊢
            obtain rfl := Option.some.inj hout
            simp [perform, storeAll]
          · rw [readAll_cons hread hfinish] at hout ⊢
            generalize hds : (readAll fuel rest).1 = ds at hout ⊢
            obtain ⟨text, args', out', htext, hout', rfl⟩ := outputOf_cons hout
            dsimp only
            rw [prefixPositions_cons htext]
            by_cases hoverrun : d.prefixed = true ∧ idx + 1 = size
            · -- the prefix starts at the last place
              have hmem : size - 1 ∈ (if d.prefixed = true then [idx] else []) ++
                  prefixPositions ds args' (idx + text.length) := by
                rw [if_pos hoverrun.1]
                exact List.mem_append_left _ (by simp [← hoverrun.2])
              have htwo : 2 ≤ text.length := two_le_of_prefixed htext hoverrun.1
              have hone : size - idx + 1 = 2 := by omega
              rw [if_pos hmem, perform_overruns hoverrun.2 htext hoverrun.1, hone, List.take_append_of_le_length htwo,
                List.length_take, Nat.min_eq_left htwo, if_neg (by rw [List.length_append]; omega)]
              simp only [bind_assoc, pure_bind]
              rw [show idx + 2 = size + 1 by omega]
            · obtain ⟨left, hleft, hperform⟩ := perform_eq store hidx hfinish htext
                (fun hprefixed hlast => hoverrun ⟨hprefixed, hlast⟩)
              have hhead : size - 1 ∉ if d.prefixed = true then [idx] else [] := by
                split
                · rename_i hprefixed
                  rw [List.mem_singleton]
                  intro hlast
                  exact hoverrun ⟨hprefixed, by omega⟩
                · exact List.not_mem_nil
              rw [hperform]
              simp only [bind_assoc, pure_bind]
              by_cases hlong : size ≤ idx + text.length
              · -- the buffer is full
                have hnot : size - 1 ∉ (if d.prefixed = true then [idx] else []) ++
                    prefixPositions ds args' (idx + text.length) := by
                  rw [List.mem_append]
                  rintro (hmem | hmem)
                  · exact hhead hmem
                  · have hle := le_of_mem_prefixPositions hmem
                    omega
                rw [if_neg hnot, decide_eq_true hlong, List.take_append_of_le_length (by omega), List.length_take,
                  if_neg (by rw [List.length_append]; omega), Nat.min_comm]
              · -- the loop goes on behind the text
                have hlt := Nat.lt_of_not_le hlong
                have hmem : size - 1 ∈ (if d.prefixed = true then [idx] else []) ++
                    prefixPositions ds args' (idx + text.length) ↔
                    size - 1 ∈ prefixPositions ds args' (idx + text.length) := by
                  rw [List.mem_append, or_iff_right hhead]
                have htake : text.take (size - idx) = text := List.take_of_length_le (by omega)
                have hboth : (text ++ out').take
                    (if size - 1 ∈ prefixPositions ds args' (idx + text.length) then size - idx + 1 else size - idx) =
                    text ++ out'.take (if size - 1 ∈ prefixPositions ds args' (idx + text.length) then
                      size - (idx + text.length) + 1 else size - (idx + text.length)) := by
                  split
                  · rw [List.take_append, List.take_of_length_le (by omega),
                      show size - idx + 1 - text.length = size - (idx + text.length) + 1 by omega]
                  · rw [List.take_append, htake, show size - idx - text.length = size - (idx + text.length) by omega]
                subst hds
                rw [decide_eq_false hlong, hleft hlt, htake, Nat.min_eq_left (by omega)]
                dsimp only
                rw [ih hrest hlt hout', if_congr hmem rfl rfl, hboth, storeAll_append]
                simp only [bind_assoc, List.length_append, Nat.add_assoc]

/-- A prefix `0x` starts at the last place of the buffer. -/
def Overruns (size : Nat) (format : List UInt8) (args : List Arg) : Prop :=
  size - 1 ∈ prefixPositions (directives format) args 0

instance (size : Nat) (format : List UInt8) (args : List Arg) : Decidable (Overruns size format args) :=
  inferInstanceAs (Decidable (_ ∈ _))

/-- What `vsnprintf` does, whatever the format. -/
theorem vsnprintf_eq {format : List UInt8} {args : List Arg} {out : List UInt8} (hsize : 1 ≤ size)
    (hout : outputOf (directives format) args = some out) :
    vsnprintf store size format args = do
      let stored := out.take (if Overruns size format args then size + 1 else size)
      storeAll store 0 stored
      if CutOff format ∧ out.length < size then throw .fault
      else
        store (if stored.length < size then stored.length else size - 1) 0
        return stored.length := by
  have hpos : ¬size = 0 := by omega
  rw [vsnprintf, if_neg hpos, vsnprintfLoop_eq (Nat.lt_succ_self _) (by omega) hout]
  simp only [bind_assoc, Nat.sub_zero, Nat.zero_add]
  congr 1
  funext _
  by_cases hcut : CutOff format ∧ out.length < size
  · have hcut' : (readAll (format.length + 1) format).2 = true ∧ out.length < size := hcut
    rw [if_pos hcut, if_pos hcut']
    rfl
  · have hcut' : ¬((readAll (format.length + 1) format).2 = true ∧ out.length < size) := hcut
    rw [if_neg hcut, if_neg hcut']
    rfl

/-- A text with a prefix at a place goes on behind the prefix. -/
theorem lt_of_mem_prefixPositions {ds : List Directive} {args : List Arg} {out : List UInt8} {idx i : Nat}
    (hout : outputOf ds args = some out) (h : i ∈ prefixPositions ds args idx) : i + 2 ≤ idx + out.length := by
  induction ds generalizing args out idx with
  | nil => cases h
  | cons d ds ih =>
      obtain ⟨text, args', out', htext, hout', rfl⟩ := outputOf_cons hout
      rw [prefixPositions_cons htext] at h
      rw [List.length_append]
      rcases List.mem_append.1 h with h | h
      · split at h
        · rename_i hprefixed
          have htwo := two_le_of_prefixed htext hprefixed
          rw [List.mem_singleton.1 h]
          omega
        · cases h
      · have hle := ih hout' h
        omega

theorem Overruns.size_lt {format : List UInt8} {args : List Arg} {out : List UInt8} (hsize : 1 ≤ size)
    (h : Overruns size format args) (hout : outputOf (directives format) args = some out) : size < out.length := by
  have hle := lt_of_mem_prefixPositions hout h
  omega

/-- In bounds, the output is stored as far as it fits, with a terminator. -/
theorem vsnprintf_inside {format : List UInt8} {args : List Arg} {out : List UInt8} (hsize : 1 ≤ size)
    (hout : outputOf (directives format) args = some out) (hroom : ¬Overruns size format args)
    (hend : CutOff format → size ≤ out.length) :
    vsnprintf store size format args = do
      storeAll store 0 (out.take size)
      store (min out.length (size - 1)) 0
      return min out.length size := by
  rw [vsnprintf_eq hsize hout, if_neg hroom]
  have hcut : ¬(CutOff format ∧ out.length < size) := fun h => Nat.not_le_of_lt h.2 (hend h.1)
  simp only [if_neg hcut, List.length_take]
  congr 1
  funext _
  rw [Nat.min_comm size, show (if min out.length size < size then min out.length size else size - 1) =
    min out.length (size - 1) by split <;> omega]

end Loop

/-! ### Numbers -/

section Numbers

variable {radix : Nat}

/-- The first loop stores the digits from the lowest on. -/
theorem itoaDigits_eq (hradix : 1 < radix) {fuel uvalue : Nat} (hfuel : uvalue < radix ^ fuel) (hpos : 0 < fuel)
    (numBuf : Nat → UInt8) (c : Nat) :
    itoaDigits radix fuel uvalue numBuf c =
      (writeBytes numBuf c (lowFirst radix uvalue), c + (lowFirst radix uvalue).length) := by
  induction fuel generalizing uvalue numBuf c with
  | zero => exact absurd hpos (Nat.lt_irrefl 0)
  | succ fuel ih =>
      have hdigit : (if uvalue % radix < 10 then UInt8.ofNat (uvalue % radix + 48)
          else UInt8.ofNat (uvalue % radix - 10 + 97)) = digitByte (uvalue % radix) := rfl
      rw [itoaDigits, lowFirst_step hradix uvalue]
      simp only [hdigit]
      split
      · rw [writeBytes_cons, writeBytes_nil, List.length_singleton]
      · rename_i hrest
        have hlt : uvalue / radix < radix ^ fuel := by
          rw [Nat.div_lt_iff_lt_mul (Nat.lt_of_succ_lt hradix), ← Nat.pow_succ]
          exact hfuel
        have hfuel' : 0 < fuel := by
          refine Nat.pos_of_ne_zero fun hzero => ?_
          rw [hzero, Nat.pow_zero] at hlt
          exact hrest (Nat.lt_one_iff.1 hlt)
        rw [ih hlt hfuel', writeBytes_cons, List.length_cons, Nat.add_assoc, Nat.add_comm 1]

/-- The digits that are stored from a place on are turned around in place. -/
theorem itoa_turned (hradix : 1 < radix) {uvalue : Nat} (hfuel : uvalue < radix ^ 32) (hlength : (lowFirst radix uvalue).length ≤ 32)
    (numBuf : Nat → UInt8) (p : Nat) :
    BytesAt (reverseLoop 32 p ((itoaDigits radix 32 uvalue numBuf p).2 - 1) (itoaDigits radix 32 uvalue numBuf p).1) p
        (numeral radix uvalue) ∧
      ∀ x < p, reverseLoop 32 p ((itoaDigits radix 32 uvalue numBuf p).2 - 1) (itoaDigits radix 32 uvalue numBuf p).1 x =
        numBuf x := by
  rw [itoaDigits_eq hradix hfuel (by decide)]
  constructor
  · exact bytesAt_reverseLoop (bytesAt_writeBytes _ _ _) hlength
  · intro x hx
    rw [reverseLoop_before (by simp only; omega) hx]
    exact writeBytes_outside (.inl hx)

/-- The text of a number is its numeral, behind the sign of a negative decimal number. -/
theorem itoaText_eq (value : BitVec 32) (hradix : radix = 10 ∨ radix = 16) :
    itoaText value radix =
      if radix = 10 ∧ value.toInt < 0 then 45 :: numeral 10 (-value).toNat else numeral radix value.toNat := by
  have htwo : 1 < radix := by omega
  have hword : ∀ w : BitVec 32, w.toNat < radix ^ 32 := by
    intro w
    have hlt : 2 ^ 32 ≤ radix ^ 32 := Nat.pow_le_pow_left htwo 32
    exact Nat.lt_of_lt_of_le w.isLt hlt
  have hlength : ∀ w : BitVec 32, (lowFirst radix w.toNat).length ≤ 32 := fun w =>
    length_lowFirst_le htwo (by decide) (hword w)
  have hnumeral : ∀ w : BitVec 32, (lowFirst radix w.toNat).length = (numeral radix w.toNat).length := fun w =>
    (List.length_reverse ..).symm
  by_cases hneg : radix = 10 ∧ value.toInt < 0
  · rw [if_pos hneg]
    obtain ⟨hturned, hbefore⟩ := itoa_turned htwo (hword (-value)) (hlength (-value))
      (Function.update (fun _ => 0) 0 45) 1
    have hread := map_range_of_bytesAt (bytesAt_cons (hbefore 0 Nat.one_pos) hturned)
    rw [List.length_cons, ← hnumeral, Function.update_self] at hread
    simp only [itoaText, itoa, if_pos hneg]
    rw [itoaDigits_eq htwo (hword _) (by decide)] at hread ⊢
    simp only [Nat.add_comm 1] at hread ⊢
    rw [hread, hneg.1]
  · rw [if_neg hneg]
    obtain ⟨hturned, -⟩ := itoa_turned htwo (hword value) (hlength value) (fun _ => 0) 0
    have hread := map_range_of_bytesAt hturned
    simp only [itoaText, itoa, if_neg hneg]
    rw [← hnumeral] at hread
    rw [itoaDigits_eq htwo (hword _) (by decide)] at hread ⊢
    simp only [Nat.zero_add] at hread ⊢
    exact hread

end Numbers

end Stdio

end Chaotix
