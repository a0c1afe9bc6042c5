/-
Module: Chaotix.Proofs.MappingSpec
Layer: Proofs
Purpose: What the functions of the address space do to objects of any number of pages: mapping them to
  free frames, mapping them a second time, unmapping them, and reading and writing their bytes. Pages are
  counted from the first page `q` of the object; addresses are multiples of the page size that do not
  wrap.
Imports: Mathlib.Tactic, Chaotix.Kernel.GrowableBuf, Chaotix.Proofs.PagingSpec
Trusted boundary: none
Main exports: FreshPages, forPages_map, SharedPages, forPages_copy, UnmappedPages, unmapPages_eq,
  Vm.byteAt, loadBytes_eq, storeBytes_eq, RamFree
-/
import Mathlib.Tactic
import Chaotix.Kernel.GrowableBuf
import Chaotix.Proofs.PagingSpec

namespace Chaotix

variable {vm vm' : Vm} {q n : Nat}

/-- No two pages of an object share a frame. -/
def PagesDistinct (vm : Vm) (q n : Nat) : Prop :=
  ∀ p p', q ≤ p → p < q + n → q ≤ p' → p' < q + n → vm.frameOf p = vm.frameOf p' → p = p'

/-- Every page of an object is mapped to a frame that is held. -/
def PagesHeld (vm : Vm) (q n k : Nat) : Prop :=
  ∀ p, q ≤ p → p < q + n → ∃ f, vm.frameOf p = some f ∧ vm.pages.Held f k

/-! ### Mapping to free frames -/

/-- The address space after the pages of an object have been mapped to free frames, one after the other
    until memory is exhausted. -/
structure FreshPages (vm vm' : Vm) (q n : Nat) (result : Except Errno Unit) : Prop where
  outside : ∀ p, p < q ∨ q + n ≤ p → vm'.frameOf p = vm.frameOf p
  ram : vm'.ram = vm.ram
  pages : PagesOk vm'.pages
  held : ∀ f k, vm.pages.Held f k → vm'.pages.Held f k
  mapped : result = .ok () → PagesHeld vm' q n 1
  fresh : result = .ok () → ∀ p f k, q ≤ p → p < q + n → vm'.frameOf p = some f →
    ¬vm.pages.Held f k
  distinct : result = .ok () → PagesDistinct vm' q n

theorem forPages_map (flags offset : Nat) {vaddr : Nat} (ok : PagesOk vm.pages)
    (hbase : vaddr + offset = q * PAGE_SIZE) (hlt : (q + n) * PAGE_SIZE ≤ wordSize)
    (hfree : ∀ p, q ≤ p → p < q + n → vm.frameOf p = none) :
    ∃ result vm', forPages (fun offset => mapPageToFreePage ((vaddr + offset) % wordSize) flags) offset n
      vm = .ok (result, vm') ∧ FreshPages vm vm' q n result := by
  induction n generalizing vm offset q with
  | zero =>
      refine ⟨.ok (), vm, rfl, fun _ _ => rfl, rfl, ok, fun _ _ h => h, ?_, ?_, ?_⟩
      · intro _ p hlo hhi
        omega
      · intro _ p f k hlo hhi
        omega
      · intro _ p p' hlo hhi
        omega
  | succ n ih =>
      have hmod : (vaddr + offset) % wordSize = q * PAGE_SIZE := by
        rw [hbase]
        apply Nat.mod_eq_of_lt
        simp only [wordSize, PAGE_SIZE] at hlt ⊢
        omega
      have hpage : q * PAGE_SIZE / PAGE_SIZE = q := Nat.mul_div_cancel q (by decide)
      have hfirst : vm.frameOf (q * PAGE_SIZE / PAGE_SIZE) = none := by
        rw [hpage]
        exact hfree q (Nat.le_refl q) (by omega)
      rcases mapPageToFreePage_cases ok hfirst flags with ⟨vm1, hnone, keeps⟩ |
        ⟨f, vm1, hsome, hbit, hframeOf, hram, hok, hone, hheld⟩
      · refine ⟨.error .ENOMEM, vm1, ?_, fun p _ => congrFun keeps.frameOf p, keeps.ram, keeps.ok,
          keeps.held, nofun, nofun, nofun⟩
        simp only [forPages, Program.run_bind, hmod, hnone, Program.run_pure]
      · rw [hpage] at hframeOf
        have hrestFree : ∀ p, q + 1 ≤ p → p < q + 1 + n → vm1.frameOf p = none := by
          intro p hlo hhi
          rw [hframeOf, Function.update_of_ne (by omega)]
          exact hfree p (by omega) (by omega)
        obtain ⟨result, vm2, hrest, after⟩ := ih (offset + PAGE_SIZE) hok
          (by rw [← Nat.add_assoc, hbase, Nat.succ_mul]) (by rw [Nat.add_right_comm]; exact hlt)
          hrestFree
        have hfirst2 : vm2.frameOf q = some f := by
          rw [after.outside q (Or.inl (Nat.lt_succ_self q)), hframeOf, Function.update_self]
        have hnew : ∀ k, ¬vm.pages.Held f k := by
          intro k hk
          have hclear := hk.clear
          rw [hbit] at hclear
          exact Bool.noConfusion hclear
        refine ⟨result, vm2, ?_, ?_, after.ram.trans hram, after.pages,
          fun g k hg => after.held g k (hheld g k hg), ?_, ?_, ?_⟩
        · simp only [forPages, Program.run_bind, hmod, hsome, hrest]
        · intro p hp
          rw [after.outside p (by omega), hframeOf, Function.update_of_ne (by omega)]
        · intro hresult p hlo hhi
          by_cases hpq : p = q
          · subst hpq
            exact ⟨f, hfirst2, after.held f 1 hone⟩
          · exact after.mapped hresult p (by omega) (by omega)
        · intro hresult p g k hlo hhi hg
          by_cases hpq : p = q
          · subst hpq
            obtain rfl : f = g := Option.some.inj (hfirst2.symm.trans hg)
            exact hnew k
          · exact fun hk => after.fresh hresult p g k (by omega) (by omega) hg (hheld g k hk)
        · have hother : ∀ p, q + 1 ≤ p → p < q + 1 + n → result = .ok () →
              vm2.frameOf p ≠ some f := fun p hlo hhi hresult hp =>
            after.fresh hresult p f 1 hlo hhi hp hone
          intro hresult p p' hlo hhi hlo' hhi' heq
          by_cases hpq : p = q
          · by_cases hpq' : p' = q
            · rw [hpq, hpq']
            · rw [hpq, hfirst2] at heq
              exact absurd heq.symm (hother p' (by omega) (by omega) hresult)
          · by_cases hpq' : p' = q
            · rw [hpq', hfirst2] at heq
              exact absurd heq (hother p (by omega) (by omega) hresult)
            · exact after.distinct hresult p p' (by omega) (by omega) (by omega) (by omega) heq

/-! ### Mapping a second time -/

/-- The address space after the pages of the object at `fromPage` have been mapped at `toPage` as well,
    one after the other until memory is exhausted. -/
structure SharedPages (vm vm' : Vm) (toPage fromPage n : Nat) (result : Except Errno Unit) : Prop where
  outside : ∀ p, p < toPage ∨ toPage + n ≤ p → vm'.frameOf p = vm.frameOf p
  ram : vm'.ram = vm.ram
  pages : PagesOk vm'.pages
  held : ∀ f k, vm.pages.Held f k → vm'.pages.Held f k
  shared : result = .ok () → ∀ i, i < n → vm'.frameOf (toPage + i) = vm.frameOf (fromPage + i)
  twice : result = .ok () → ∀ i f, i < n → vm.frameOf (fromPage + i) = some f → vm'.pages.Held f 2

theorem forPages_copy (flags offset : Nat) {toVaddr fromVaddr toPage fromPage : Nat}
    (ok : PagesOk vm.pages)
    (hto : toVaddr + offset = toPage * PAGE_SIZE) (hfrom : fromVaddr + offset = fromPage * PAGE_SIZE)
    (htoLt : (toPage + n) * PAGE_SIZE ≤ wordSize) (hfromLt : (fromPage + n) * PAGE_SIZE ≤ wordSize)
    (hfree : ∀ p, toPage ≤ p → p < toPage + n → vm.frameOf p = none)
    (hmapped : PagesHeld vm fromPage n 1) :
    ∃ result vm', forPages (fun offset => copyPageMapping ((toVaddr + offset) % wordSize)
        ((fromVaddr + offset) % wordSize) flags) offset n vm = .ok (result, vm') ∧
      SharedPages vm vm' toPage fromPage n result := by
  induction n generalizing vm offset toPage fromPage with
  | zero =>
      exact ⟨.ok (), vm, rfl, fun _ _ => rfl, rfl, ok, fun _ _ h => h, fun _ i hi => absurd hi (by omega),
        fun _ i _ hi => absurd hi (by omega)⟩
  | succ n ih =>
      have htoMod : (toVaddr + offset) % wordSize = toPage * PAGE_SIZE := by
        rw [hto]
        apply Nat.mod_eq_of_lt
        simp only [wordSize, PAGE_SIZE] at htoLt ⊢
        omega
      have hfromMod : (fromVaddr + offset) % wordSize = fromPage * PAGE_SIZE := by
        rw [hfrom]
        apply Nat.mod_eq_of_lt
        simp only [wordSize, PAGE_SIZE] at hfromLt ⊢
        omega
      have htoPage : toPage * PAGE_SIZE / PAGE_SIZE = toPage := Nat.mul_div_cancel _ (by decide)
      have hfromPage : fromPage * PAGE_SIZE / PAGE_SIZE = fromPage := Nat.mul_div_cancel _ (by decide)
      obtain ⟨f, hf, hheldF⟩ := hmapped fromPage (Nat.le_refl _) (by omega)
      have htoFirst : vm.frameOf (toPage * PAGE_SIZE / PAGE_SIZE) = none := by
        rw [htoPage]
        exact hfree toPage (Nat.le_refl _) (by omega)
      have hfromFirst : vm.frameOf (fromPage * PAGE_SIZE / PAGE_SIZE) = some f := by
        rw [hfromPage, hf]
      rcases copyPageMapping_cases ok hfromFirst hheldF htoFirst flags with hnone |
        ⟨vm1, hsome, hframeOf, hram, hok, htwo, hheld⟩
      · refine ⟨.error .ENOMEM, vm, ?_, fun _ _ => rfl, rfl, ok, fun _ _ h => h, nofun, nofun⟩
        simp only [forPages, Program.run_bind, htoMod, hfromMod, hnone, Program.run_pure]
      · rw [htoPage] at hframeOf
        have hsource : ∀ i, i < n + 1 → vm1.frameOf (fromPage + i) = vm.frameOf (fromPage + i) := by
          intro i hi
          rw [hframeOf, Function.update_of_ne]
          rintro heq
          obtain ⟨g, hg, _⟩ := hmapped (fromPage + i) (by omega) (by omega)
          rw [heq, hfree toPage (Nat.le_refl _) (by omega)] at hg
          simp at hg
        have hrestFree : ∀ p, toPage + 1 ≤ p → p < toPage + 1 + n → vm1.frameOf p = none := by
          intro p hlo hhi
          rw [hframeOf, Function.update_of_ne (by omega)]
          exact hfree p (by omega) (by omega)
        have hrestMapped : PagesHeld vm1 (fromPage + 1) n 1 := by
          intro p hlo hhi
          obtain ⟨g, hg, hheldG⟩ := hmapped p (by omega) (by omega)
          have hsame := hsource (p - fromPage) (by omega)
          rw [Nat.add_sub_cancel' (by omega)] at hsame
          exact ⟨g, hsame.trans hg, hheld g 1 hheldG⟩
        obtain ⟨result, vm2, hrest, after⟩ := ih (offset + PAGE_SIZE) hok
          (by rw [← Nat.add_assoc, hto, Nat.succ_mul]) (by rw [← Nat.add_assoc, hfrom, Nat.succ_mul])
          (by rw [Nat.add_right_comm]; exact htoLt) (by rw [Nat.add_right_comm]; exact hfromLt)
          hrestFree hrestMapped
        refine ⟨result, vm2, ?_, ?_, after.ram.trans hram, after.pages,
          fun g k hg => after.held g k (hheld g k hg), ?_, ?_⟩
        · simp only [forPages, Program.run_bind, htoMod, hfromMod, hsome, hrest]
        · intro p hp
          rw [after.outside p (by omega), hframeOf, Function.update_of_ne (by omega)]
        · intro hresult i hi
          cases i with
          | zero =>
              rw [Nat.add_zero, Nat.add_zero, after.outside toPage (Or.inl (Nat.lt_succ_self _)),
                hframeOf, Function.update_self, hf]
          | succ i =>
              have hshared := after.shared hresult i (by omega)
              rw [Nat.add_right_comm, Nat.add_right_comm fromPage] at hshared
              rw [← Nat.add_assoc, hshared]
              exact hsource (i + 1) (by omega)
        · intro hresult i g hi hg
          cases i with
          | zero =>
              obtain rfl : f = g := Option.some.inj (hf.symm.trans hg)
              exact after.held f 2 htwo
          | succ i =>
              apply after.twice hresult i g (by omega)
              rw [Nat.add_right_comm, Nat.add_assoc, hsource (i + 1) hi]
              exact hg

/-! ### Unmapping -/

/-- The address space after the pages of an object have been unmapped. -/
structure UnmappedPages (vm vm' : Vm) (q n : Nat) : Prop where
  outside : ∀ p, p < q ∨ q + n ≤ p → vm'.frameOf p = vm.frameOf p
  ram : vm'.ram = vm.ram
  pages : PagesOk vm'.pages
  held : ∀ f, vm.pages.Held f 1 → vm'.pages.Held f 1
  unmapped : ∀ p, q ≤ p → p < q + n → vm'.frameOf p = none

/-- Unmapping the pages of an object whose frames are all mapped a second time. -/
theorem unmapPages_eq (i : Nat) {vaddr : Nat} (ok : PagesOk vm.pages)
    (hbase : vaddr + i * PAGE_SIZE = q * PAGE_SIZE) (hlt : (q + n) * PAGE_SIZE ≤ wordSize)
    (hmapped : PagesHeld vm q n 2) (hdistinct : PagesDistinct vm q n) :
    ∃ vm', Program.foldCount (fun i (_ : Unit) => unmapPage ((vaddr + i * PAGE_SIZE) % wordSize)) i n ()
      vm = .ok ((), vm') ∧ UnmappedPages vm vm' q n := by
  induction n generalizing vm i q with
  | zero => exact ⟨vm, rfl, fun _ _ => rfl, rfl, ok, fun _ h => h, fun _ hlo hhi => absurd hlo (by omega)⟩
  | succ n ih =>
      have hmod : (vaddr + i * PAGE_SIZE) % wordSize = q * PAGE_SIZE := by
        rw [hbase]
        apply Nat.mod_eq_of_lt
        simp only [wordSize, PAGE_SIZE] at hlt ⊢
        omega
      have hpage : q * PAGE_SIZE / PAGE_SIZE = q := Nat.mul_div_cancel q (by decide)
      obtain ⟨f, hf, htwo⟩ := hmapped q (Nat.le_refl q) (by omega)
      have hfirst : vm.frameOf (q * PAGE_SIZE / PAGE_SIZE) = some f := by rw [hpage, hf]
      obtain ⟨vm1, hunmap, hframeOf, hram, hok, hsame, hothers⟩ :=
        unmapPage_cases vm ok hfirst (htwo.mono (by decide))
      rw [hpage] at hframeOf
      have hrest : ∀ p, q + 1 ≤ p → p < q + 1 + n → vm1.frameOf p = vm.frameOf p := by
        intro p hlo _
        rw [hframeOf, Function.update_of_ne (by omega)]
      have hmapped1 : PagesHeld vm1 (q + 1) n 2 := by
        intro p hlo hhi
        obtain ⟨g, hg, hheldG⟩ := hmapped p (by omega) (by omega)
        refine ⟨g, (hrest p hlo hhi).trans hg, hothers g 2 ?_ hheldG⟩
        rintro rfl
        have heq := hdistinct q p (Nat.le_refl q) (by omega) (by omega) (by omega) (hf.trans hg.symm)
        omega
      have hdistinct1 : PagesDistinct vm1 (q + 1) n := by
        intro p p' hlo hhi hlo' hhi' heq
        rw [hrest p hlo hhi, hrest p' hlo' hhi'] at heq
        exact hdistinct p p' (by omega) (by omega) (by omega) (by omega) heq
      obtain ⟨vm2, hloop, after⟩ := ih (i + 1) hok
        (by rw [Nat.succ_mul, ← Nat.add_assoc, hbase, Nat.succ_mul])
        (by rw [Nat.add_right_comm]; exact hlt) hmapped1 hdistinct1
      refine ⟨vm2, ?_, ?_, after.ram.trans hram, after.pages, ?_, ?_⟩
      · simp only [Program.foldCount, Program.run_bind, hmod, hunmap, hloop]
      · intro p hp
        rw [after.outside p (by omega), hframeOf, Function.update_of_ne (by omega)]
      · intro g hg
        apply after.held
        by_cases hgf : g = f
        · subst hgf
          exact hsame 1 (by decide) htwo
        · exact hothers g 1 hgf hg
      · intro p hlo hhi
        by_cases hp : p = q
        · subst hp
          rw [after.outside p (by omega), hframeOf, Function.update_self]
        · exact after.unmapped p (by omega) (by omega)

/-! ### The functions on objects -/

theorem roundUp_div {size : Nat} (h : size % PAGE_SIZE = 0) (hlt : size < wordSize) :
    roundUp size / PAGE_SIZE = size / PAGE_SIZE := by
  rw [roundUp_of_mod h hlt]

/-- `paging_map_to_free_pages` on pages that are not mapped. -/
theorem pagingMapToFreePages_eq (flags : Nat) (ok : PagesOk vm.pages)
    (hlt : (q + n) * PAGE_SIZE < wordSize) (hfree : ∀ p, q ≤ p → p < q + n → vm.frameOf p = none) :
    ∃ result vm', pagingMapToFreePages (q * PAGE_SIZE) (n * PAGE_SIZE) flags vm = .ok (result, vm') ∧
      FreshPages vm vm' q n result := by
  have hsize : n * PAGE_SIZE < wordSize :=
    Nat.lt_of_le_of_lt (Nat.mul_le_mul_right PAGE_SIZE (Nat.le_add_left n q)) hlt
  have hcount : roundUp (n * PAGE_SIZE) / PAGE_SIZE = n := by
    rw [roundUp_div (Nat.mul_mod_left _ _) hsize, Nat.mul_div_cancel n (by decide)]
  obtain ⟨result, vm', hloop, fresh⟩ := forPages_map flags 0 ok (Nat.add_zero _)
    (Nat.le_of_lt hlt) hfree
  refine ⟨result, vm', ?_, fresh⟩
  simp only [pagingMapToFreePages, assert, Program.run_bind, Program.run_require, Nat.mul_mod_left,
    if_true, hcount, hloop]

/-- `paging_copy_mapping` to pages that are not mapped. -/
theorem pagingCopyMapping_eq (flags : Nat) {toPage fromPage : Nat} (ok : PagesOk vm.pages)
    (htoLt : (toPage + n) * PAGE_SIZE < wordSize) (hfromLt : (fromPage + n) * PAGE_SIZE < wordSize)
    (hfree : ∀ p, toPage ≤ p → p < toPage + n → vm.frameOf p = none)
    (hmapped : PagesHeld vm fromPage n 1) :
    ∃ result vm', pagingCopyMapping (toPage * PAGE_SIZE) (fromPage * PAGE_SIZE) (n * PAGE_SIZE) flags
        vm = .ok (result, vm') ∧ SharedPages vm vm' toPage fromPage n result := by
  have hsize : n * PAGE_SIZE < wordSize :=
    Nat.lt_of_le_of_lt (Nat.mul_le_mul_right PAGE_SIZE (Nat.le_add_left n toPage)) htoLt
  have hcount : roundUp (n * PAGE_SIZE) / PAGE_SIZE = n := by
    rw [roundUp_div (Nat.mul_mod_left _ _) hsize, Nat.mul_div_cancel n (by decide)]
  obtain ⟨result, vm', hloop, shared⟩ := forPages_copy flags 0 ok (Nat.add_zero _) (Nat.add_zero _)
    (Nat.le_of_lt htoLt) (Nat.le_of_lt hfromLt) hfree hmapped
  refine ⟨result, vm', ?_, shared⟩
  simp only [pagingCopyMapping, assert, Program.run_bind, Program.run_require, Nat.mul_mod_left,
    if_true, hcount, hloop]

/-- `paging_unmap` on pages that are mapped a second time. -/
theorem pagingUnmap_eq (ok : PagesOk vm.pages) (hlt : (q + n) * PAGE_SIZE < wordSize)
    (hmapped : PagesHeld vm q n 2) (hdistinct : PagesDistinct vm q n) :
    ∃ vm', pagingUnmap (q * PAGE_SIZE) (n * PAGE_SIZE) vm = .ok ((), vm') ∧
      UnmappedPages vm vm' q n := by
  have hsize : n * PAGE_SIZE < wordSize :=
    Nat.lt_of_le_of_lt (Nat.mul_le_mul_right PAGE_SIZE (Nat.le_add_left n q)) hlt
  have hcount : roundUp (n * PAGE_SIZE) / PAGE_SIZE = n := by
    rw [roundUp_div (Nat.mul_mod_left _ _) hsize, Nat.mul_div_cancel n (by decide)]
  obtain ⟨vm', hloop, after⟩ := unmapPages_eq 0 ok
    (show q * PAGE_SIZE + 0 * PAGE_SIZE = q * PAGE_SIZE by omega) (Nat.le_of_lt hlt) hmapped hdistinct
  refine ⟨vm', ?_, after⟩
  simp only [pagingUnmap, assert, Program.run_bind, Program.run_require, Nat.mul_mod_left, if_true,
    hcount, Program.forRange, Program.foldRange, Nat.sub_zero, hloop]

/-! ### Bytes -/

/-- The byte at an address, when its page is mapped. -/
def Vm.byteAt (vm : Vm) (vaddr : Nat) : Option UInt8 :=
  (vm.frameOf (vaddr / PAGE_SIZE)).map fun frame => vm.ram frame (vaddr % PAGE_SIZE)

/-- Reading bytes of mapped pages. -/
theorem loadBytes_eq (vm : Vm) (vaddr n : Nat) (hlt : vaddr + n ≤ wordSize)
    (hmapped : ∀ i, i < n → (vm.byteAt (vaddr + i)).isSome) :
    ∃ bytes, loadBytes vaddr n vm = .ok (bytes, vm) ∧ bytes.length = n ∧
      ∀ i, i < n → bytes[i]? = vm.byteAt (vaddr + i) := by
  induction n generalizing vaddr with
  | zero => exact ⟨[], rfl, rfl, fun i hi => absurd hi (Nat.not_lt_zero i)⟩
  | succ n ih =>
      have hfirst := hmapped 0 (Nat.zero_lt_succ n)
      rw [Nat.add_zero, Vm.byteAt, Option.isSome_map, Option.isSome_iff_exists] at hfirst
      obtain ⟨frame, hframe⟩ := hfirst
      have hload := load8_eq hframe
      have hrest : ∃ bytes, loadBytes ((vaddr + 1) % wordSize) n vm = .ok (bytes, vm) ∧
          bytes.length = n ∧ ∀ i, i < n → bytes[i]? = vm.byteAt (vaddr + 1 + i) := by
        cases n with
        | zero => exact ⟨[], rfl, rfl, fun i hi => absurd hi (Nat.not_lt_zero i)⟩
        | succ n =>
            rw [Nat.mod_eq_of_lt (by omega)]
            apply ih (vaddr + 1) (by omega)
            intro i hi
            have := hmapped (i + 1) (by omega)
            rwa [Nat.add_comm i 1, ← Nat.add_assoc] at this
      obtain ⟨bytes, hbytes, hlength, hget⟩ := hrest
      refine ⟨vm.ram frame (vaddr % PAGE_SIZE) :: bytes, ?_, ?_, ?_⟩
      · simp only [loadBytes, Program.run_bind, hload, hbytes, Program.run_pure]
      · rw [List.length_cons, hlength]
      · intro i hi
        cases i with
        | zero => simp [Vm.byteAt, hframe]
        | succ i =>
            rw [List.getElem?_cons_succ, hget i (by omega), Nat.add_comm i 1, ← Nat.add_assoc]

/-- The address space after bytes have been written to an object whose pages have frames of their
    own. -/
structure Stored (vm vm' : Vm) (vaddr : Nat) (bytes : List UInt8) (q n : Nat) : Prop where
  onlyRam : vm' = { vm with ram := vm'.ram }
  inside : ∀ i, i < bytes.length → vm'.byteAt (vaddr + i) = bytes[i]?
  outside : ∀ a, q ≤ a / PAGE_SIZE → a / PAGE_SIZE < q + n → a < vaddr ∨ vaddr + bytes.length ≤ a →
    vm'.byteAt a = vm.byteAt a

/-- A change of the contents of memory leaves the mapping alone. -/
theorem frameOf_of_ram {vm vm' : Vm} (h : vm' = { vm with ram := vm'.ram }) :
    vm'.frameOf = vm.frameOf := by
  rw [h]
  rfl

/-- Writing one byte. -/
theorem store8_stored {vaddr : Nat} (byte : UInt8) {frame : Nat}
    (hframe : vm.frameOf (vaddr / PAGE_SIZE) = some frame) (hlo : q ≤ vaddr / PAGE_SIZE)
    (hhi : vaddr / PAGE_SIZE < q + n) (hdistinct : PagesDistinct vm q n) :
    ∃ vm', store8 vaddr byte vm = .ok ((), vm') ∧ Stored vm vm' vaddr [byte] q n := by
  refine ⟨_, store8_eq hframe byte, rfl, ?_, ?_⟩
  · intro i hi
    obtain rfl : i = 0 := by
      rw [List.length_singleton] at hi
      omega
    rw [Nat.add_zero]
    change (vm.frameOf (vaddr / PAGE_SIZE)).map _ = _
    rw [hframe]
    simp
  · intro a halo hahi hne
    rw [List.length_singleton] at hne
    change (vm.frameOf (a / PAGE_SIZE)).map _ = _
    rw [Vm.byteAt]
    cases hpage : vm.frameOf (a / PAGE_SIZE) with
    | none => rfl
    | some g =>
        by_cases hgf : g = frame
        · subst hgf
          have hsame := hdistinct _ _ halo hahi hlo hhi (hpage.trans hframe.symm)
          have hoff : a % PAGE_SIZE ≠ vaddr % PAGE_SIZE := by
            have ha := Nat.div_add_mod a PAGE_SIZE
            have hv := Nat.div_add_mod vaddr PAGE_SIZE
            rw [hsame] at ha
            omega
          simp [Function.update_of_ne hoff]
        · simp [Function.update_of_ne hgf]

/-- Writing bytes to an object of mapped pages with frames of their own. -/
theorem storeBytes_eq (vaddr : Nat) (bytes : List UInt8)
    (hlt : vaddr + bytes.length ≤ wordSize)
    (hinside : ∀ i, i < bytes.length → q ≤ (vaddr + i) / PAGE_SIZE ∧ (vaddr + i) / PAGE_SIZE < q + n)
    (hmapped : ∀ p, q ≤ p → p < q + n → (vm.frameOf p).isSome) (hdistinct : PagesDistinct vm q n) :
    ∃ vm', storeBytes vaddr bytes vm = .ok ((), vm') ∧ Stored vm vm' vaddr bytes q n := by
  induction bytes generalizing vm vaddr with
  | nil => exact ⟨vm, rfl, rfl, fun i hi => absurd hi (Nat.not_lt_zero i), fun _ _ _ _ => rfl⟩
  | cons byte bytes ih =>
      rw [List.length_cons] at hlt hinside
      obtain ⟨hlo, hhi⟩ := hinside 0 (Nat.zero_lt_succ _)
      rw [Nat.add_zero] at hlo hhi
      obtain ⟨frame, hframe⟩ := Option.isSome_iff_exists.1 (hmapped _ hlo hhi)
      obtain ⟨vm1, hstore, first⟩ := store8_stored byte hframe hlo hhi hdistinct
      have hdistinct1 : PagesDistinct vm1 q n := by
        rw [PagesDistinct, frameOf_of_ram first.onlyRam]
        exact hdistinct
      have hrest : ∃ vm', storeBytes ((vaddr + 1) % wordSize) bytes vm1 = .ok ((), vm') ∧
          Stored vm1 vm' (vaddr + 1) bytes q n := by
        cases bytes with
        | nil =>
            exact ⟨vm1, rfl, rfl, fun i hi => absurd hi (Nat.not_lt_zero i), fun _ _ _ _ => rfl⟩
        | cons next bytes =>
            rw [List.length_cons] at hlt
            rw [Nat.mod_eq_of_lt (by omega)]
            apply ih
            · rw [List.length_cons]
              omega
            · intro i hi
              have := hinside (i + 1) (Nat.succ_lt_succ hi)
              rwa [Nat.add_comm i 1, ← Nat.add_assoc] at this
            · rw [frameOf_of_ram first.onlyRam]
              exact hmapped
            · exact hdistinct1
      obtain ⟨vm2, hbytes, rest⟩ := hrest
      refine ⟨vm2, ?_, by rw [rest.onlyRam, first.onlyRam], ?_, ?_⟩
      · simp only [storeBytes, Program.run_bind, hstore, hbytes]
      · intro i hi
        cases i with
        | zero =>
            rw [Nat.add_zero, rest.outside vaddr hlo hhi (Or.inl (Nat.lt_succ_self vaddr))]
            exact first.inside 0 (by simp)
        | succ i =>
            rw [List.length_cons] at hi
            rw [List.getElem?_cons_succ, ← rest.inside i (by omega), Nat.add_comm i 1, Nat.add_assoc]
      · intro a halo hahi hne
        rw [List.length_cons] at hne
        rw [rest.outside a halo hahi (by omega)]
        apply first.outside a halo hahi
        rw [List.length_singleton]
        omega

/-! ### Functions that do not look at the contents of memory -/

/-- A function of the address space that does not look at the contents of memory. -/
def RamFree {α : Type} (m : Kernel Vm α) : Prop :=
  ∀ vm ram, m { vm with ram := ram } = match m vm with
    | .ok (a, vm') => .ok (a, { vm' with ram := ram })
    | .error e => .error e

namespace RamFree

variable {α β : Type}

theorem pure (a : α) : RamFree (pure a : Kernel Vm α) := fun _ _ => rfl

theorem throw (e : Stop) : RamFree (throw e : Kernel Vm α) := fun _ _ => rfl

theorem bind {m : Kernel Vm α} {f : α → Kernel Vm β} (hm : RamFree m) (hf : ∀ a, RamFree (f a)) :
    RamFree (m >>= f) := by
  intro vm ram
  rw [Program.run_bind, Program.run_bind, hm]
  cases m vm with
  | error e => rfl
  | ok r => exact hf r.1 r.2 ram

theorem get {f : Vm → Kernel Vm α} (hf : ∀ vm, RamFree (f vm))
    (hram : ∀ vm ram, f { vm with ram := ram } = f vm) : RamFree (get >>= f) := by
  intro vm ram
  rw [Program.run_bind, Program.run_bind, Program.run_get, Program.run_get]
  simp only [hram]
  exact hf vm vm ram

theorem require (c : Prop) [Decidable c] (e : Stop) :
    RamFree (Program.require c e : Kernel Vm Unit) := by
  intro vm ram
  rw [Program.run_require, Program.run_require]
  split <;> rfl

theorem onPages (m : Kernel PageAllocator α) : RamFree (onPages m) := by
  intro vm ram
  simp only [Chaotix.onPages, Program.focus]
  cases m vm.pages with
  | error e => rfl
  | ok r => rfl

end RamFree

theorem getOrCreatePageTable_ramFree (vaddr : Nat) : RamFree (getOrCreatePageTable vaddr) := by
  apply RamFree.get
  · intro vm
    cases vm.pde (vaddr / (1024 * PAGE_SIZE)) with
    | some frame => exact .pure _
    | none =>
        refine .bind (.onPages _) ?_
        intro r
        cases r with
        | error e => exact .pure _
        | ok paddr => exact .bind (fun _ _ => rfl) fun _ => .pure _
  · intro vm ram
    rfl

theorem setPte_ramFree (vaddr : Nat) (entry : Option Pte) : RamFree (setPte vaddr entry) :=
  fun _ _ => rfl

theorem mapPageToFreePage_ramFree (vaddr flags : Nat) : RamFree (mapPageToFreePage vaddr flags) := by
  refine .bind (getOrCreatePageTable_ramFree vaddr) ?_
  intro r
  cases r with
  | error e => exact .pure _
  | ok u =>
      refine .get (fun vm => .bind (.require _ _) fun _ => .bind (.onPages _) ?_) fun vm ram => rfl
      intro r
      cases r with
      | error e => exact .pure _
      | ok paddr => exact .bind (setPte_ramFree _ _) fun _ => .pure _

theorem copyPageMapping_ramFree (toVaddr fromVaddr flags : Nat) :
    RamFree (copyPageMapping toVaddr fromVaddr flags) := by
  refine .get (fun vm => ?_) fun vm ram => rfl
  cases getPte vm fromVaddr with
  | none => exact .throw _
  | some entry =>
      cases entry with
      | none => exact .throw _
      | some fromPte =>
          refine .bind (getOrCreatePageTable_ramFree toVaddr) ?_
          intro r
          cases r with
          | error e => exact .pure _
          | ok u =>
              exact .get (fun vm => .bind (.require _ _) fun _ => .bind (.onPages _) fun _ =>
                .bind (setPte_ramFree _ _) fun _ => .pure _) fun vm ram => rfl

theorem forPages_ramFree {body : Nat → Kernel Vm (Except Errno Unit)} (hbody : ∀ i, RamFree (body i))
    (offset n : Nat) : RamFree (forPages body offset n) := by
  induction n generalizing offset with
  | zero => exact .pure _
  | succ n ih =>
      refine .bind (hbody offset) ?_
      intro r
      cases r with
      | error e => exact .pure _
      | ok u => exact ih _

theorem pagingMapToFreePages_ramFree (vaddr size flags : Nat) :
    RamFree (pagingMapToFreePages vaddr size flags) :=
  .bind (.require _ _) fun _ => forPages_ramFree (fun _ => mapPageToFreePage_ramFree _ _) _ _

theorem pagingCopyMapping_ramFree (toVaddr fromVaddr size flags : Nat) :
    RamFree (pagingCopyMapping toVaddr fromVaddr size flags) :=
  .bind (.require _ _) fun _ => .bind (.require _ _) fun _ =>
    forPages_ramFree (fun _ => copyPageMapping_ramFree _ _ _) _ _

end Chaotix
