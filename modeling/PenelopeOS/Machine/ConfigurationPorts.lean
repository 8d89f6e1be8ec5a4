import Mathlib.Tactic.SplitIfs

/-!
# PCI configuration through ports

The first access mechanism of a PCI host bridge. What is written to port 0xCF8 selects a register, if
its highest bit is set, and a read of port 0xCFC gives that register.
-/

namespace PenelopeOS.Machine

/-- The registers by bus, device, function and number. -/
abbrev ConfigurationSpace := BitVec 8 → BitVec 5 → BitVec 3 → BitVec 6 → BitVec 32

structure Ports where
  space : ConfigurationSpace
  /-- What a read gives that is no configuration access. -/
  elsewhere : BitVec 32 → BitVec 32
  address : BitVec 32

namespace Ports

def outl (ports : Ports) (port data : BitVec 32) : Ports :=
  if port = 0xCF8 then { ports with address := data } else ports

def inl (ports : Ports) (port : BitVec 32) : BitVec 32 :=
  if port = 0xCFC ∧ ports.address.getLsbD 31 then
    ports.space (ports.address.extractLsb' 16 8) (ports.address.extractLsb' 11 5)
      (ports.address.extractLsb' 8 3) (ports.address.extractLsb' 2 6)
  else ports.elsewhere port

/-- An access through the ports changes no register. -/
@[simp]
theorem space_outl (ports : Ports) (port data : BitVec 32) :
    (ports.outl port data).space = ports.space := by
  rw [outl]
  split_ifs <;> rfl

/-- A read behind a write of an address gives the register that the address selects. -/
theorem inl_outl (ports : Ports) {address : BitVec 32} (henable : address.getLsbD 31 = true) :
    (ports.outl 0xCF8 address).inl 0xCFC = ports.space (address.extractLsb' 16 8)
      (address.extractLsb' 11 5) (address.extractLsb' 8 3) (address.extractLsb' 2 6) := by
  rw [outl, if_pos rfl, inl, if_pos ⟨rfl, henable⟩]

end Ports

namespace ConfigurationSpace

variable (space : ConfigurationSpace) (bus : BitVec 8) (dev : BitVec 5)

/-- The lower half of register 0 of function 0. -/
def vendorId : BitVec 16 := (space bus dev 0 0).extractLsb' 0 16

/-- The upper half of register 0 of function 0. -/
def deviceId : BitVec 16 := (space bus dev 0 0).extractLsb' 16 16

end ConfigurationSpace

end PenelopeOS.Machine
