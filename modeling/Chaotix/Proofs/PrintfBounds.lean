/-
Module: Chaotix.Proofs.PrintfBounds
Layer: Proofs
Purpose: `vsnprintf` stays within its buffer and its format, and says whether everything was stored. There are two
  exceptions: a prefix `0x` that starts at the last place of the buffer is stored past its end, and a format that ends
  inside a conversion is read on behind its terminator when there is still room.
Imports: Chaotix.Proofs.StdioSpec
Trusted boundary: none
Main exports: VsnprintfLaw, storeAll_storeAt, vsnprintf_law_iff, vsnprintf_law_breaks
-/
import Chaotix.Proofs.StdioSpec

open Program

namespace Chaotix

namespace Stdio

/-- The bytes of a string in C, with the terminator. -/
def formatBytes (format : CString) : List UInt8 := format.chars ++ [0]

/-- Every store is in the buffer, which ends up with a terminator, and the value is below the size when the whole output
    was stored, which is when it is the length of the output. -/
structure VsnprintfLaw (size : Nat) (out : List UInt8) (value : Nat) (b : PrintBuffer) : Prop where
  inside : ∀ i ∈ b.written, i < size
  terminated : ∃ i < size, b.mem i = 0
  stored : value < size ↔ out.length < size ∧ BytesAt b.mem 0 (out ++ [0])
  length : value < size → value = out.length

section Stores

variable {size : Nat} {b : PrintBuffer}

/-- Storing a text writes it, and touches its places. -/
theorem storeAll_storeAt (idx : Nat) (text : List UInt8) (b : PrintBuffer) :
    ∃ written, storeAll storeAt idx text b = .ok ((), { mem := writeBytes b.mem idx text, written := written }) ∧
      ∀ i, i ∈ written ↔ i ∈ b.written ∨ idx ≤ i ∧ i < idx + text.length := by
  induction text generalizing idx b with
  | nil =>
      refine ⟨b.written, ?_, fun i => ?_⟩
      · rw [storeAll, writeBytes_nil]
        rfl
      · simp only [List.length_nil]
        exact ⟨Or.inl, fun h => h.resolve_right (by omega)⟩
  | cons ch text ih =>
      obtain ⟨written, hrun, hwritten⟩ := ih (idx + 1)
        { mem := Function.update b.mem idx ch, written := idx :: b.written }
      refine ⟨written, ?_, fun i => ?_⟩
      · rw [storeAll, run_bind, storeAt, run_modify, writeBytes_cons]
        exact hrun
      · rw [hwritten, List.mem_cons, List.length_cons]
        constructor
        · rintro ((rfl | hold) | hnew)
          · exact .inr (by omega)
          · exact .inl hold
          · exact .inr (by omega)
        · rintro (hold | hnew)
          · exact .inl (.inr hold)
          · by_cases hfirst : i = idx
            · exact .inl (.inl hfirst)
            · exact .inr (by omega)

variable {format : List UInt8} {args : List Arg} {out : List UInt8}

/-- In bounds, the law holds, and the buffer holds the output as far as it fits. -/
theorem vsnprintf_law (hsize : 1 ≤ size) (hout : outputOf (directives format) args = some out)
    (hroom : ¬Overruns size format args) (hend : CutOff format → size ≤ out.length) (hwritten : b.written = []) :
    Yields (vsnprintf storeAt size format args) b fun value b =>
      VsnprintfLaw size out value b ∧ value = min out.length size := by
  obtain ⟨written, hrun, hplaces⟩ := storeAll_storeAt 0 (out.take size) b
  have hlength : (out.take size).length = min size out.length := List.length_take
  rw [vsnprintf_inside hsize hout hroom hend, yields_bind_of_return hrun, yields_bind, storeAt, yields_modify, yields_pure]
  refine ⟨?_, rfl⟩
  constructor
  · intro i hi
    rcases List.mem_cons.1 hi with rfl | hi
    · omega
    · rw [hplaces, hwritten, hlength] at hi
      have hplace := hi.resolve_left List.not_mem_nil
      omega
  · exact ⟨min out.length (size - 1), by omega, Function.update_self ..⟩
  · constructor
    · intro hlt
      have hfits : out.length < size := by omega
      refine ⟨hfits, ?_⟩
      rw [List.take_of_length_le (by omega), show min out.length (size - 1) = out.length by omega, bytesAt_append]
      constructor
      · intro i hi
        have hne : 0 + i ≠ out.length := by omega
        exact (Function.update_of_ne hne _ _).trans (bytesAt_writeBytes _ _ _ i hi)
      · intro i hi
        obtain rfl : i = 0 := by simpa using hi
        simp
    · rintro ⟨hlt, -⟩
      omega
  · intro hlt
    omega

/-- A prefix at the last place is stored past the end, and one more than that is returned. -/
theorem vsnprintf_overruns (hsize : 1 ≤ size) (hout : outputOf (directives format) args = some out)
    (hover : Overruns size format args) :
    Yields (vsnprintf storeAt size format args) b fun value b => value = size + 1 ∧ size ∈ b.written := by
  have hlong := hover.size_lt hsize hout
  obtain ⟨written, hrun, hplaces⟩ := storeAll_storeAt 0 (out.take (size + 1)) b
  have hlast : size ∈ written := by
    rw [hplaces, List.length_take]
    exact .inr (by omega)
  rw [vsnprintf_eq hsize hout, if_pos hover]
  dsimp only
  rw [yields_bind_of_return hrun, if_neg (by omega), yields_bind, storeAt, yields_modify, yields_pure, List.length_take]
  exact ⟨by omega, List.mem_cons_of_mem _ hlast⟩

/-- A prefix past the end breaks the law. -/
theorem not_vsnprintf_law_of_overruns (hsize : 1 ≤ size) (hout : outputOf (directives format) args = some out)
    (hover : Overruns size format args) : ¬Yields (vsnprintf storeAt size format args) b (VsnprintfLaw size out) := by
  obtain ⟨value, b', hreturn, -, hlast⟩ := yields_iff.1 (vsnprintf_overruns (b := b) hsize hout hover)
  intro hlaw
  exact Nat.lt_irrefl size ((hlaw.and_return hreturn).inside size hlast)

/-- Reading on behind the terminator is a fault. -/
theorem not_vsnprintf_law_of_cutOff (hsize : 1 ≤ size) (hout : outputOf (directives format) args = some out)
    (hcut : CutOff format) (hshort : out.length < size) :
    ¬Yields (vsnprintf storeAt size format args) b (VsnprintfLaw size out) := by
  obtain ⟨written, hrun, -⟩ := storeAll_storeAt 0
    (out.take (if Overruns size format args then size + 1 else size)) b
  rw [vsnprintf_eq hsize hout]
  dsimp only
  rw [yields_bind_of_return hrun, if_pos ⟨hcut, hshort⟩]
  exact id

end Stores

/-- `vsnprintf` stays in bounds and says whether everything was stored, exactly when no prefix `0x` starts at the last
    place of the buffer and a format that ends inside a conversion fills the buffer before. -/
theorem vsnprintf_law_iff (size : Nat) (format : CString) (args : List Arg) (out : List UInt8) (b : PrintBuffer)
    (hsize : 1 ≤ size) (hout : outputOf (directives (formatBytes format)) args = some out) (hwritten : b.written = []) :
    Yields (vsnprintf storeAt size (formatBytes format) args) b (VsnprintfLaw size out) ↔
      ¬Overruns size (formatBytes format) args ∧ (CutOff (formatBytes format) → size ≤ out.length) := by
  constructor
  · intro hlaw
    constructor
    · exact fun hover => not_vsnprintf_law_of_overruns hsize hout hover hlaw
    · intro hcut
      by_contra hshort
      exact not_vsnprintf_law_of_cutOff hsize hout hcut (Nat.lt_of_not_le hshort) hlaw
  · rintro ⟨hroom, hend⟩
    exact (vsnprintf_law hsize hout hroom hend hwritten).mono fun _ _ h => h.1

/-- The format `%d:%s`. -/
def someFormat : CString := ⟨[37, 100, 58, 37, 115], List.forall_iff_forall_mem.1 (by decide)⟩

/-- The name `ab`. -/
def someName : CString := ⟨[97, 98], List.forall_iff_forall_mem.1 (by decide)⟩

/-- A memory full of ones. -/
def someBuffer : PrintBuffer := { mem := fun _ => 1 }

/-- Printing -7 and a name of two characters into a buffer of four bytes, which cuts the name. -/
theorem vsnprintf_law_cut :
    Yields (vsnprintf storeAt 4 (formatBytes someFormat) [.int (-7), .str (some someName)]) someBuffer
      (VsnprintfLaw 4 [45, 55, 58, 97, 98]) :=
  (vsnprintf_law_iff 4 someFormat [.int (-7), .str (some someName)] [45, 55, 58, 97, 98] someBuffer
    (by decide) (by decide) rfl).2 (by decide)

/-- The format `%#x`. -/
def prefixFormat : CString := ⟨[37, 35, 120], List.forall_iff_forall_mem.1 (by decide)⟩

/-- The format `%`. -/
def percentFormat : CString := ⟨[37], List.forall_iff_forall_mem.1 (by decide)⟩

/-- `vsnprintf(buf, 1, "%#x", 1)` stores to `buf[1]`, and `vsnprintf(buf, 2, "%")` reads behind the terminator. -/
theorem vsnprintf_law_breaks :
    (Yields (vsnprintf storeAt 1 (formatBytes prefixFormat) [.int 1]) someBuffer fun _ b => 1 ∈ b.written) ∧
      ¬Yields (vsnprintf storeAt 1 (formatBytes prefixFormat) [.int 1]) someBuffer (VsnprintfLaw 1 [48, 120, 49]) ∧
      vsnprintf storeAt 2 (formatBytes percentFormat) [] someBuffer = .error .fault := by
  refine ⟨?_, ?_, rfl⟩
  · decide
  · exact not_vsnprintf_law_of_overruns (by decide) (by decide) (by decide)

end Stdio

end Chaotix
