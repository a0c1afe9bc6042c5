/-
Module: Chaotix.Kernel.Pci
Layer: Kernel
Purpose: The enumeration of the functions on the PCI buses. The configuration space is a register of 32 bits for each
  address that goes to `PCI_ADDRESS_PORT`, and the callback is recorded with what it is given. The enumeration of a bus
  and that of the functions on it call each other; the fuel is how deeply, and is no part of the code.
Imports: Mathlib.Data.Fintype.Prod, Chaotix.Lib.Preorder, Chaotix.Kernel.Base
Trusted boundary: human-reviewed model of the reads and of the enumeration of `kernel/pci.c`
Main exports: PciAddr, ConfigSpace, readField8, readField16, pciGetType, PciCall, enumerateFunctions, enumerateSlot,
  enumerateBus, pciEnumerate
-/
import Mathlib.Data.Fintype.Prod
import Chaotix.Lib.Preorder
import Chaotix.Kernel.Base

namespace Chaotix

abbrev PCI_VENDOR_ID : Nat := 0x0

abbrev PCI_DEVICE_ID : Nat := 0x2

abbrev PCI_SUBCLASS : Nat := 0xa

abbrev PCI_CLASS : Nat := 0xb

abbrev PCI_HEADER_TYPE : Nat := 0xe

abbrev PCI_SECONDARY_BUS : Nat := 0x19

abbrev PCI_TYPE_BRIDGE : Nat := 0x604

abbrev PCI_NONE : Nat := 0xffff

/-- `struct pci_addr`. A bus has 32 slots, and a slot has 8 functions. -/
structure PciAddr where
  bus : Fin 256
  slot : Fin 32
  function : Fin 8
deriving DecidableEq, Repr

/-- The addresses as triples, of which there are finitely many. -/
instance : Finite PciAddr :=
  Finite.of_injective (fun a : PciAddr => (a.bus, a.slot, a.function)) fun a b h => by
    cases a
    cases b
    simpa using h

/-- The configuration space: what `PCI_VALUE_PORT` reads for an address. -/
abbrev ConfigSpace := Nat → BitVec 32

/-- `io_address_for_field`. -/
def ioAddressForField (addr : PciAddr) (field : Nat) : Nat :=
  0x80000000 ||| addr.bus.val <<< 16 ||| addr.slot.val <<< 11 ||| addr.function.val <<< 8 ||| field &&& 0xfc

/-- `read_field8`. -/
def readField8 (c : ConfigSpace) (addr : PciAddr) (field : Nat) : Nat :=
  (c (ioAddressForField addr field) >>> (8 * (field &&& 3)) &&& 0xff).toNat

/-- `read_field16`. -/
def readField16 (c : ConfigSpace) (addr : PciAddr) (field : Nat) : Nat :=
  (c (ioAddressForField addr field) >>> (8 * (field &&& 2)) &&& 0xffff).toNat

/-- `pci_get_type`. -/
def pciGetType (c : ConfigSpace) (addr : PciAddr) : Nat :=
  readField8 c addr PCI_CLASS <<< 8 ||| readField8 c addr PCI_SUBCLASS

/-- A call of the callback. -/
structure PciCall where
  addr : PciAddr
  vendorId : Nat
  deviceId : Nat
deriving DecidableEq, Repr

/-- The argument that `enumerate_bus` gets from the field `PCI_SECONDARY_BUS`. -/
def secondaryBus (c : ConfigSpace) (addr : PciAddr) : Fin 256 := Fin.ofNat 256 (readField8 c addr PCI_SECONDARY_BUS)

/-- The call of the callback in `enumerate_functions`. -/
def pciCall (c : ConfigSpace) (addr : PciAddr) : PciCall :=
  ⟨addr, readField16 c addr PCI_VENDOR_ID, readField16 c addr PCI_DEVICE_ID⟩

/-- `enumerate_functions`. -/
def enumerateFunctions (c : ConfigSpace) (enumerateBus : Fin 256 → Option (List PciCall)) (addr : PciAddr) :
    Option (List PciCall) :=
  if pciGetType c addr = PCI_TYPE_BRIDGE then (enumerateBus (secondaryBus c addr)).map (List.cons (pciCall c addr))
  else some [pciCall c addr]

/-- The functions of a slot behind the first one. -/
def otherFunctions : List (Fin 8) := [1, 2, 3, 4, 5, 6, 7]

/-- `enumerate_slot`. -/
def enumerateSlot (c : ConfigSpace) (enumerateBus : Fin 256 → Option (List PciCall)) (bus : Fin 256) (slot : Fin 32) :
    Option (List PciCall) :=
  let addr : PciAddr := ⟨bus, slot, 0⟩
  if readField16 c addr PCI_VENDOR_ID = PCI_NONE then some []
  else
    match enumerateFunctions c enumerateBus addr with
    | none => none
    | some first =>
        if readField8 c addr PCI_HEADER_TYPE &&& 0x80 = 0 then some first
        else
          (visitAll (fun function =>
            if readField16 c ⟨bus, slot, function⟩ PCI_VENDOR_ID ≠ PCI_NONE then
              enumerateFunctions c enumerateBus ⟨bus, slot, function⟩
            else some []) otherFunctions).map (first ++ ·)

/-- `enumerate_bus`. -/
def enumerateBus (c : ConfigSpace) : Nat → Fin 256 → Option (List PciCall)
  | 0, _ => none
  | n + 1, bus => visitAll (enumerateSlot c (enumerateBus c n) bus) (List.finRange 32)

/-- `pci_enumerate`. Where the function 0 of the first slot says that it is one of several, each of them stands for a
    bus of its own. -/
def pciEnumerate (c : ConfigSpace) (n : Nat) : Option (List PciCall) :=
  if readField8 c ⟨0, 0, 0⟩ PCI_HEADER_TYPE &&& 0x80 = 0 then enumerateBus c n 0
  else
    visitAll (fun function : Fin 8 =>
      if readField16 c ⟨0, 0, function⟩ PCI_VENDOR_ID ≠ PCI_NONE then enumerateBus c n (Fin.ofNat 256 function)
      else some []) (List.finRange 8)

end Chaotix
