/-
Module: Chaotix.Proofs.PciTree
Layer: Proofs
Purpose: The enumeration of the PCI buses as a walk over the functions below the first bus. It ends exactly when no bridge
  leads back to itself, and then it finds every function behind the bridges; it finds each one once exactly when the
  bridges form a tree.
Imports: Mathlib.Tactic, Chaotix.Lib.Preorder, Chaotix.Kernel.Pci
Trusted boundary: none
Main exports: busFunctions, behind, pciRoots, enumerateBus_eq, pci_enumerate_ends_iff, PciTree, pci_enumerate_exact
-/
import Mathlib.Tactic
import Chaotix.Lib.Preorder
import Chaotix.Kernel.Pci

namespace Chaotix

local instance neZeroFunctions : NeZero 8 := ⟨by decide⟩

local instance neZeroSlots : NeZero 32 := ⟨by decide⟩

local instance neZeroBuses : NeZero 256 := ⟨by decide⟩

section Enumeration

variable (c : ConfigSpace)

/-- There is a function at the address. -/
def PciExists (addr : PciAddr) : Bool := readField16 c addr PCI_VENDOR_ID ≠ PCI_NONE

/-- The functions of a slot: none without the first one, and the others only where it says so. -/
def slotFunctions (bus : Fin 256) (slot : Fin 32) : List PciAddr :=
  if PciExists c ⟨bus, slot, 0⟩ then
    if readField8 c ⟨bus, slot, 0⟩ PCI_HEADER_TYPE &&& 0x80 = 0 then [⟨bus, slot, 0⟩]
    else ⟨bus, slot, 0⟩ :: (otherFunctions.filter fun function => PciExists c ⟨bus, slot, function⟩).map (⟨bus, slot, ·⟩)
  else []

/-- The functions of a bus. -/
def busFunctions (bus : Fin 256) : List PciAddr := (List.finRange 32).flatMap (slotFunctions c bus)

/-- The functions on the bus behind a bridge. -/
def behind (addr : PciAddr) : List PciAddr :=
  if pciGetType c addr = PCI_TYPE_BRIDGE then busFunctions c (secondaryBus c addr) else []

/-- The buses on which the enumeration begins. -/
def rootBuses : List (Fin 256) :=
  if readField8 c ⟨0, 0, 0⟩ PCI_HEADER_TYPE &&& 0x80 = 0 then [0]
  else
    ((List.finRange 8).filter fun function => PciExists c ⟨0, 0, function⟩).map fun function : Fin 8 =>
      Fin.ofNat 256 function.val

/-- The functions with which the enumeration begins. -/
def pciRoots : List PciAddr := (rootBuses c).flatMap (busFunctions c)

variable {c} {visitBus : Fin 256 → Option (List PciCall)} {calls : List PciCall} {l : List PciAddr} {n : Nat}

theorem enumerateSlot_eq (bus : Fin 256) (slot : Fin 32) :
    enumerateSlot c visitBus bus slot = visitAll (enumerateFunctions c visitBus) (slotFunctions c bus slot) := by
  unfold enumerateSlot slotFunctions
  by_cases hnone : readField16 c ⟨bus, slot, 0⟩ PCI_VENDOR_ID = PCI_NONE
  · simp [PciExists, hnone, visitAll]
  · have hexists : PciExists c ⟨bus, slot, 0⟩ = true := by simp [PciExists, hnone]
    rw [if_neg hnone, if_pos hexists]
    split
    · rename_i hfirst
      split
      · rw [visitAll_singleton, hfirst]
      · rw [visitAll, hfirst]
    · rename_i first hfirst
      split
      · rw [visitAll_singleton, hfirst]
      · rw [visitAll, hfirst, visitAll_map, visitAll_filter]
        have hsame : (fun function : Fin 8 =>
            if readField16 c ⟨bus, slot, function⟩ PCI_VENDOR_ID ≠ PCI_NONE then
              enumerateFunctions c visitBus ⟨bus, slot, function⟩
            else some []) =
            fun function => if PciExists c ⟨bus, slot, function⟩ = true then
              enumerateFunctions c visitBus ⟨bus, slot, function⟩ else some [] := by
          funext function
          simp [PciExists]
        rw [hsame]
        cases visitAll _ otherFunctions <;> rfl

/-- `enumerate_bus` visits the functions of the bus one after the other. -/
theorem enumerateBus_eq (bus : Fin 256) :
    enumerateBus c (n + 1) bus = visitAll (enumerateFunctions c (enumerateBus c n)) (busFunctions c bus) := by
  have hslots : enumerateSlot c (enumerateBus c n) bus =
      fun slot => visitAll (enumerateFunctions c (enumerateBus c n)) (slotFunctions c bus slot) :=
    funext fun slot => enumerateSlot_eq bus slot
  rw [enumerateBus, busFunctions, visitAll_flatMap, hslots]

theorem pciEnumerate_eq :
    pciEnumerate c (n + 1) = visitAll (enumerateFunctions c (enumerateBus c n)) (pciRoots c) := by
  unfold pciEnumerate pciRoots rootBuses
  rw [visitAll_flatMap]
  split
  · rw [visitAll_singleton, enumerateBus_eq]
  · rw [visitAll_map, visitAll_filter]
    congr 1
    funext function
    rw [← enumerateBus_eq]
    by_cases hexists : readField16 c ⟨0, 0, function⟩ PCI_VENDOR_ID = PCI_NONE
    · simp [PciExists, hexists]
    · simp [PciExists, hexists]

/-- A visit of a function calls the callback for it and for everything behind it. -/
theorem enumerateFunctions_of_preorder (addr : PciAddr) (h : preorder (behind c) n addr = some l) :
    enumerateFunctions c (enumerateBus c n) addr = some (l.map (pciCall c)) := by
  induction n generalizing addr l with
  | zero => cases h
  | succ n ih =>
      obtain ⟨k, hbehind, rfl⟩ := preorder_succ_eq_some.1 h
      unfold enumerateFunctions
      unfold behind at hbehind
      split
      · rename_i hbridge
        rw [if_pos hbridge] at hbehind
        have htranslate : ∃ calls, visitAll (enumerateFunctions c (enumerateBus c n))
            (busFunctions c (secondaryBus c addr)) = some calls ∧ k.map (pciCall c) = calls := by
          refine visitAll_translate (R := fun k calls => k.map (pciCall c) = calls) rfl ?_ ?_ hbehind
          · rintro l₁ l₂ k₁ k₂ rfl rfl
            exact List.map_append
          · exact fun a _ k hk => ⟨_, ih a hk, rfl⟩
        obtain ⟨calls, hcalls, rfl⟩ := htranslate
        rw [enumerateBus_eq, hcalls]
        rfl
      · rename_i hbridge
        rw [if_neg hbridge] at hbehind
        obtain rfl : [] = k := Option.some.inj hbehind
        rfl

theorem preorder_of_enumerateFunctions (addr : PciAddr)
    (h : enumerateFunctions c (enumerateBus c n) addr = some calls) :
    ∃ l, preorder (behind c) (n + 1) addr = some l ∧ l.map (pciCall c) = calls := by
  induction n generalizing addr calls with
  | zero =>
      unfold enumerateFunctions at h
      split at h
      · cases h
      · rename_i hbridge
        obtain rfl : [pciCall c addr] = calls := Option.some.inj h
        refine ⟨[addr], preorder_succ_eq_some.2 ⟨[], ?_, rfl⟩, rfl⟩
        rw [behind, if_neg hbridge]
        rfl
  | succ n ih =>
      unfold enumerateFunctions at h
      split at h
      · rename_i hbridge
        obtain ⟨calls, hcalls, rfl⟩ := Option.map_eq_some_iff.1 h
        rw [enumerateBus_eq] at hcalls
        have htranslate : ∃ k, visitAll (preorder (behind c) (n + 1)) (busFunctions c (secondaryBus c addr)) = some k ∧
            calls = k.map (pciCall c) := by
          refine visitAll_translate (R := fun calls k => calls = k.map (pciCall c)) rfl ?_ ?_ hcalls
          · rintro l₁ l₂ k₁ k₂ rfl rfl
            exact List.map_append.symm
          · intro a _ calls' hcalls'
            obtain ⟨k, hk, rfl⟩ := ih a hcalls'
            exact ⟨k, hk, rfl⟩
        obtain ⟨k, hk, rfl⟩ := htranslate
        refine ⟨addr :: k, preorder_succ_eq_some.2 ⟨k, ?_, rfl⟩, rfl⟩
        rw [behind, if_pos hbridge]
        exact hk
      · rename_i hbridge
        obtain rfl : [pciCall c addr] = calls := Option.some.inj h
        refine ⟨[addr], preorder_succ_eq_some.2 ⟨[], ?_, rfl⟩, rfl⟩
        rw [behind, if_neg hbridge]
        rfl

theorem enumerateFunctions_mono {visitBus' : Fin 256 → Option (List PciCall)}
    (h : ∀ bus calls, visitBus bus = some calls → visitBus' bus = some calls) (addr : PciAddr)
    (hcalls : enumerateFunctions c visitBus addr = some calls) : enumerateFunctions c visitBus' addr = some calls := by
  unfold enumerateFunctions at hcalls ⊢
  split
  · rename_i hbridge
    rw [if_pos hbridge] at hcalls
    obtain ⟨calls', hbus, rfl⟩ := Option.map_eq_some_iff.1 hcalls
    rw [h _ calls' hbus]
    rfl
  · rename_i hbridge
    rwa [if_neg hbridge] at hcalls

theorem enumerateBus_succ (bus : Fin 256) (h : enumerateBus c n bus = some calls) :
    enumerateBus c (n + 1) bus = some calls := by
  induction n generalizing bus calls with
  | zero => cases h
  | succ n ih =>
      rw [enumerateBus_eq] at h ⊢
      refine visitAll_mono (fun addr calls' hcalls => ?_) h
      exact enumerateFunctions_mono (fun bus calls hbus => ih bus hbus) addr hcalls

theorem pciEnumerate_succ (h : pciEnumerate c n = some calls) : pciEnumerate c (n + 1) = some calls := by
  unfold pciEnumerate at h ⊢
  split
  · rename_i hsingle
    rw [if_pos hsingle] at h
    exact enumerateBus_succ 0 h
  · rename_i hsingle
    rw [if_neg hsingle] at h
    refine visitAll_mono (fun function calls' hcalls => ?_) h
    split at hcalls
    · rename_i hexists
      rw [if_pos hexists]
      exact enumerateBus_succ _ hcalls
    · rename_i hexists
      rwa [if_neg hexists]

/-- The enumeration ends as the walk below the first functions does, and calls the callback for what the walk visits. -/
theorem pciEnumerate_walk (h : pciEnumerate c n = some calls) :
    ∃ m l, visitAll (preorder (behind c) m) (pciRoots c) = some l ∧ l.map (pciCall c) = calls := by
  have hmore := pciEnumerate_succ h
  rw [pciEnumerate_eq] at hmore
  obtain ⟨l, hl, hcalls⟩ : ∃ l, visitAll (preorder (behind c) (n + 1)) (pciRoots c) = some l ∧
      calls = l.map (pciCall c) := by
    refine visitAll_translate (R := fun calls l => calls = l.map (pciCall c)) rfl ?_ ?_ hmore
    · rintro l₁ l₂ k₁ k₂ rfl rfl
      exact List.map_append.symm
    · intro a _ calls' hcalls'
      obtain ⟨k, hk, rfl⟩ := preorder_of_enumerateFunctions a hcalls'
      exact ⟨k, hk, rfl⟩
  exact ⟨n + 1, l, hl, hcalls.symm⟩

theorem pciEnumerate_of_walk (h : visitAll (preorder (behind c) n) (pciRoots c) = some l) :
    pciEnumerate c (n + 1) = some (l.map (pciCall c)) := by
  rw [pciEnumerate_eq]
  obtain ⟨calls, hcalls, rfl⟩ : ∃ calls, visitAll (enumerateFunctions c (enumerateBus c n)) (pciRoots c) = some calls ∧
      l.map (pciCall c) = calls := by
    refine visitAll_translate (R := fun l calls => l.map (pciCall c) = calls) rfl ?_ ?_ h
    · rintro l₁ l₂ k₁ k₂ rfl rfl
      exact List.map_append
    · exact fun a _ k hk => ⟨_, enumerateFunctions_of_preorder a hk, rfl⟩
  exact hcalls

/-- `pci_enumerate` ends exactly when no bridge that it reaches leads back to itself. -/
theorem pci_enumerate_ends_iff (c : ConfigSpace) :
    (∃ n calls, pciEnumerate c n = some calls) ↔
      ∀ addr, ReachedFrom (behind c) (pciRoots c) addr → ¬Below (behind c) addr addr := by
  rw [← walk_ends_iff]
  constructor
  · rintro ⟨n, calls, h⟩
    obtain ⟨m, l, hl, -⟩ := pciEnumerate_walk h
    exact ⟨m, l, hl⟩
  · rintro ⟨n, l, hl⟩
    exact ⟨n + 1, _, pciEnumerate_of_walk hl⟩

/-- The bridges that are reached form a tree: no bus with a function on it is behind two bridges, or behind one and at the
    root. -/
structure PciTree (c : ConfigSpace) : Prop where
  notRoot : ∀ bridge, ReachedFrom (behind c) (pciRoots c) bridge → ∀ addr ∈ behind c bridge, addr ∉ pciRoots c
  unique : ∀ bridge, ReachedFrom (behind c) (pciRoots c) bridge → ∀ bridge', ReachedFrom (behind c) (pciRoots c) bridge' →
    ∀ addr ∈ behind c bridge, addr ∈ behind c bridge' → bridge = bridge'

theorem slotFunctions_bus {bus : Fin 256} {slot : Fin 32} {addr : PciAddr} (h : addr ∈ slotFunctions c bus slot) :
    addr.bus = bus ∧ addr.slot = slot := by
  unfold slotFunctions at h
  split at h
  · split at h
    · obtain rfl := List.mem_singleton.1 h
      exact ⟨rfl, rfl⟩
    · obtain rfl | h := List.mem_cons.1 h
      · exact ⟨rfl, rfl⟩
      · obtain ⟨function, -, rfl⟩ := List.mem_map.1 h
        exact ⟨rfl, rfl⟩
  · cases h

theorem slotFunctions_nodup (bus : Fin 256) (slot : Fin 32) : (slotFunctions c bus slot).Nodup := by
  unfold slotFunctions
  split
  · split
    · exact List.nodup_singleton _
    · refine List.nodup_cons.2 ⟨?_, ?_⟩
      · intro h
        obtain ⟨function, hmem, heq⟩ := List.mem_map.1 h
        have hother : function ∈ otherFunctions := (List.mem_filter.1 hmem).1
        obtain rfl : function = 0 := (PciAddr.mk.inj heq).2.2
        exact absurd hother (by decide)
      · refine List.Nodup.map (fun f g heq => (PciAddr.mk.inj heq).2.2) ?_
        exact List.Nodup.filter _ (by decide)
  · exact List.nodup_nil

theorem busFunctions_bus {bus : Fin 256} {addr : PciAddr} (h : addr ∈ busFunctions c bus) : addr.bus = bus := by
  obtain ⟨slot, -, hslot⟩ := List.mem_flatMap.1 h
  exact (slotFunctions_bus hslot).1

theorem busFunctions_nodup (bus : Fin 256) : (busFunctions c bus).Nodup := by
  refine List.nodup_flatMap.2 ⟨fun slot _ => slotFunctions_nodup bus slot, ?_⟩
  refine (List.nodup_finRange 32).imp fun {slot slot'} hne => ?_
  intro addr h h'
  exact hne ((slotFunctions_bus h).2.symm.trans (slotFunctions_bus h').2)

theorem behind_nodup (addr : PciAddr) : (behind c addr).Nodup := by
  unfold behind
  split
  · exact busFunctions_nodup _
  · exact List.nodup_nil

theorem pciRoots_nodup : (pciRoots c).Nodup := by
  have hbuses : (rootBuses c).Nodup := by
    unfold rootBuses
    split
    · exact List.nodup_singleton 0
    · refine List.Nodup.map ?_ ((List.nodup_finRange 8).filter _)
      decide
  refine List.nodup_flatMap.2 ⟨fun bus _ => busFunctions_nodup bus, hbuses.imp fun {bus bus'} hne => ?_⟩
  intro addr h h'
  exact hne ((busFunctions_bus h).symm.trans (busFunctions_bus h'))

theorem pciCall_injective : Function.Injective (pciCall c) := fun _ _ h => congrArg PciCall.addr h

/-- An enumeration that ends calls the callback for exactly the functions that are reached, and once for each of them
    exactly when the bridges form a tree. -/
theorem pci_enumerate_exact (h : pciEnumerate c n = some calls) :
    (∀ call, call ∈ calls ↔ ∃ addr, ReachedFrom (behind c) (pciRoots c) addr ∧ call = pciCall c addr) ∧
      (calls.Nodup ↔ PciTree c) := by
  obtain ⟨m, l, hl, rfl⟩ := pciEnumerate_walk h
  constructor
  · intro call
    rw [List.mem_map]
    constructor
    · rintro ⟨addr, haddr, rfl⟩
      exact ⟨addr, (mem_walk_iff hl).1 haddr, rfl⟩
    · rintro ⟨addr, haddr, rfl⟩
      exact ⟨addr, (mem_walk_iff hl).2 haddr, rfl⟩
  · rw [List.nodup_map_iff pciCall_injective, walk_nodup_iff hl pciRoots_nodup behind_nodup]
    constructor
    · rintro ⟨hroots, hunique⟩
      exact ⟨fun bridge hb => hroots bridge ((mem_walk_iff hl).2 hb),
        fun bridge hb bridge' hb' => hunique bridge ((mem_walk_iff hl).2 hb) bridge' ((mem_walk_iff hl).2 hb')⟩
    · intro htree
      exact ⟨fun bridge hb => htree.notRoot bridge ((mem_walk_iff hl).1 hb),
        fun bridge hb bridge' hb' => htree.unique bridge ((mem_walk_iff hl).1 hb) bridge' ((mem_walk_iff hl).1 hb')⟩

end Enumeration

/-- A device and a bridge on the first bus, and a device behind the bridge. -/
def threeFunctions : ConfigSpace := fun a =>
  if a = 0x80000000 then 0x12378086
  else if a = 0x80000008 then 0x02000000
  else if a = 0x8000000c then 0
  else if a = 0x80000800 then 0x244e8086
  else if a = 0x80000808 then 0x06040000
  else if a = 0x8000080c then 0x00010000
  else if a = 0x80000818 then 0x00010100
  else if a = 0x80010000 then 0x100e8086
  else if a = 0x80010008 then 0x04010000
  else if a = 0x8001000c then 0
  else 0xffffffff

theorem pci_enumerate_exact_threeFunctions :
    [PciCall.mk ⟨0, 0, 0⟩ 0x8086 0x1237, ⟨⟨0, 1, 0⟩, 0x8086, 0x244e⟩, ⟨⟨1, 0, 0⟩, 0x8086, 0x100e⟩].Nodup ↔
      PciTree threeFunctions :=
  (pci_enumerate_exact (n := 2) (by decide)).2

end Chaotix
