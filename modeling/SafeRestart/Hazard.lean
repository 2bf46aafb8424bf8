import SafeRestart.Alias
import SafeRestart.Ascending
import SafeRestart.Function.Flow

/-!
# Hazards

A hazard is a load together with a store that overwrites, later on some path, bytes the load may
have read.  Executing both a second time would let the load see what the store wrote.

The loads that a store endangers are found by walking backward from the store.  A path ends at the
first load that may read the bytes, which is a hazard, and at a store that has certainly
overwritten them before, which is none.
-/

namespace SafeRestart

structure Hazard where
  load : Nat
  store : Nat
deriving DecidableEq

def Hazard.text (hazard : Hazard) : String :=
  "(" ++ IdKind.inst.label hazard.load ++ ", " ++ IdKind.inst.label hazard.store ++ ")"

namespace Hazard

def touches (oracle : AliasOracle) (target : MemoryLocation) (inst : Instruction) : Bool :=
  inst.loadLocation.any fun read => oracle read target != .noAlias

/-- Whether the instruction certainly overwrites all bytes of `target`. -/
def refreshes (oracle : AliasOracle) (target : MemoryLocation) (inst : Instruction) : Bool :=
  inst.storeLocation.any fun written => oracle written target == .mustAlias

def ends (oracle : AliasOracle) (target : MemoryLocation) (inst : Instruction) : Bool :=
  touches oracle target inst || refreshes oracle target inst

end Hazard

namespace Function

/-- The slots before `k` at which a read of `target` may be seen, in the order of the search. -/
def endangered (f : Function) (oracle : AliasOracle) (k : Nat) (target : MemoryLocation) :
    List Nat :=
  let back := fun j => if (f.layout[j]?).any (Hazard.ends oracle target) then [] else f.prev j
  (Search.sweep back (f.prev k) f.slots).filter fun j =>
    (f.layout[j]?).any (Hazard.touches oracle target)

def hazardsAt (f : Function) (store : Nat) (loads : List Nat) : List Hazard :=
  loads.filterMap fun j => (f.layout[j]?).map fun load => ⟨load.id, store⟩

/-- The hazards that end at an instruction, in the order of the search; none unless it is a
store. -/
def hazardsOf (f : Function) (oracle : AliasOracle) (i : Nat) : List Hazard :=
  match f.slot? i, (f.inst? i).bind fun inst => inst.storeLocation with
  | some k, some target => f.hazardsAt i (f.endangered oracle k target)
  | _, _ => []

/-- All hazards, ordered by the slot of the store and then of the load. -/
def hazards (f : Function) (oracle : AliasOracle) : List Hazard :=
  f.layout.zipIdx.flatMap fun placed =>
    match placed.1.storeLocation with
    | some target =>
        f.hazardsAt placed.1.id (Ascending.ofList (f.endangered oracle placed.2 target))
    | none => []

end Function
end SafeRestart
