/-!
# Identifiers

Storage locations, instructions, blocks, regions and program points are numbered from zero, and
the number is the identifier.  A number that does not fit in 32 bits is refused as a fault.  Each
kind of identifier has a short label, such as `%3` for a storage location.

Program points come in pairs: the instruction at index `k` of the layout reads its inputs at the
use point `2 * k` and writes its results at the def point `2 * k + 1`.
-/

namespace SafeRestart

/-!
# Faults

A fault is a misuse of an operation by its caller, as opposed to a property of the analysed
function.
-/

inductive Fault where
  | indexOverflow
  | sumOverflow
  | bitOutOfRange (index capacity : Nat)
  | outOfBounds
deriving DecidableEq

namespace Fault

/-- The text of a fault; a sum that is too large and a look-up outside a table have none. -/
def message? : Fault -> Option String
  | indexOverflow => some "index overflow"
  | sumOverflow => none
  | bitOutOfRange index capacity => some s!"bit index {index} out of range {capacity}"
  | outOfBounds => none

end Fault

def maxIndex : Nat := 4294967295

def checkIndex (n : Nat) : Except Fault Nat :=
  if n ≤ maxIndex then .ok n else .error .indexOverflow

def maxSum : Nat := 18446744073709551615

namespace Point

/-- The point `distance` further on.  The sum is refused when it does not fit in 64 bits, before
it is read as an identifier. -/
def advance (p : Nat) (distance : Nat) : Except Fault Nat :=
  if p + distance ≤ maxSum then checkIndex (p + distance) else .error .sumOverflow

def isUse (p : Nat) : Bool := p % 2 == 0

end Point

/-!
# Labels
-/

inductive IdKind where
  | storage
  | inst
  | node
  | point
  | region
deriving DecidableEq

namespace IdKind

def all : List IdKind := [storage, inst, node, point, region]

def sigil : IdKind -> String
  | storage => "%"
  | inst => "i"
  | node => "n"
  | point => "@"
  | region => "IR#"

def typeName : IdKind -> String
  | storage => "StorageId"
  | inst => "InstId"
  | node => "NodeId"
  | point => "ProgramPoint"
  | region => "RegionId"

def label (kind : IdKind) (n : Nat) : String := kind.sigil ++ toString n

def longLabel (kind : IdKind) (n : Nat) : String := kind.typeName ++ "(" ++ toString n ++ ")"

end IdKind

end SafeRestart
