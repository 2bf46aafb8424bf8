import SafeRestart.Ident

/-!
# Storage locations

A storage location holds a value between instructions: a register or a stack slot.
-/

namespace SafeRestart

inductive StorageKind where
  | virtualRegister
  | physicalRegister
  | stackSlot
deriving DecidableEq

namespace StorageKind

def all : List StorageKind := [virtualRegister, physicalRegister, stackSlot]

def text : StorageKind -> String
  | virtualRegister => "vreg"
  | physicalRegister => "preg"
  | stackSlot => "slot"

end StorageKind

structure StorageFlags where
  calleeSaved : Bool := false
  /-- Never checked by verification: the stack pointer, condition codes. -/
  exempt : Bool := false
deriving DecidableEq

namespace StorageFlags

def ofBits (bits : Nat) : StorageFlags := ⟨bits.testBit 0, bits.testBit 1⟩

def toBits (flags : StorageFlags) : Nat := flags.calleeSaved.toNat + 2 * flags.exempt.toNat

end StorageFlags

structure StorageLocation where
  kind : StorageKind
  name : String
  flags : StorageFlags
deriving DecidableEq

namespace StorageLocation

def isStackSlot (location : StorageLocation) : Bool := location.kind == .stackSlot

def isRegister (location : StorageLocation) : Bool := !location.isStackSlot

end StorageLocation
end SafeRestart
