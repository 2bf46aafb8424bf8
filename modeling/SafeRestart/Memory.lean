import SafeRestart.Ident

/-!
# Memory locations

An address is a base with a signed 64-bit offset.  A memory location is an address with an
unsigned 32-bit number of bytes.
-/

namespace SafeRestart

inductive AddressBase where
  /-- An identified allocation; different objects share no byte. -/
  | object (number : UInt32)
  | value (inst : Nat)
  | unknown
deriving DecidableEq

structure Address where
  base : AddressBase
  offset : Int64
deriving DecidableEq

namespace Address

private def signed (n : Int) : String := if 0 < n then "+" ++ toString n else toString n

def text (address : Address) : String :=
  let base :=
    match address.base with
    | .object number => "obj" ++ toString number.toNat
    | .value inst => IdKind.inst.label inst
    | .unknown => "?"
  if address.offset = 0 then base else base ++ signed address.offset.toInt

end Address

structure MemoryLocation where
  address : Address
  size : UInt32
deriving DecidableEq

inductive AccessKind where
  | load
  | store
deriving DecidableEq

def AccessKind.text : AccessKind -> String
  | load => "load"
  | store => "store"

structure MemoryAccess where
  kind : AccessKind
  location : MemoryLocation
deriving DecidableEq

end SafeRestart
