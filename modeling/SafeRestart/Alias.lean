import SafeRestart.Memory

/-!
# Alias answers

An oracle tells how the bytes of two memory locations are related.  An oracle that knows nothing
answers that they may overlap.
-/

namespace SafeRestart

inductive AliasResult where
  | noAlias
  | mayAlias
  | mustAlias
deriving DecidableEq

def AliasResult.text : AliasResult -> String
  | noAlias => "NoAlias"
  | mayAlias => "MayAlias"
  | mustAlias => "MustAlias"

abbrev AliasOracle := MemoryLocation -> MemoryLocation -> AliasResult

namespace AliasOracle

def conservative : AliasOracle := fun _ _ => .mayAlias

end AliasOracle

namespace MemoryLocation

/-- The end of the bytes, no further than the largest offset. -/
def stop (location : MemoryLocation) : Int :=
  min (location.address.offset.toInt + location.size.toNat) Int64.maxValue.toInt

def compareRanges (a b : MemoryLocation) : AliasResult :=
  if a.address.offset = b.address.offset ∧ a.size = b.size then .mustAlias
  else if a.stop ≤ b.address.offset.toInt ∨ b.stop ≤ a.address.offset.toInt then .noAlias
  else .mayAlias

end MemoryLocation

namespace AliasOracle

/-- Decides by bases and offsets.  An access of no bytes overlaps nothing, an unknown base may be
anything, equal bases compare their ranges of bytes, and different objects share no byte. -/
def basic : AliasOracle := fun a b =>
  if a.size = 0 ∨ b.size = 0 then .noAlias
  else
    match a.address.base, b.address.base with
    | .unknown, _ => .mayAlias
    | _, .unknown => .mayAlias
    | .object m, .object n => if m = n then a.compareRanges b else .noAlias
    | .value m, .value n => if m = n then a.compareRanges b else .mayAlias
    | .object _, .value _ => .mayAlias
    | .value _, .object _ => .mayAlias

end AliasOracle
end SafeRestart
