import SafeRestart.Region.Basic

/-!
# Walks inside a region

A walk follows control forward and stops before it enters another region; going backward it stops
at the entry of the region it is in.
-/

namespace SafeRestart
namespace RegionModel

def nextInside (m : RegionModel) (k : Nat) : List Nat :=
  (m.function.next k).filter fun j => j ∉ m.entries

def origins (m : RegionModel) (k : Nat) : List Nat :=
  Search.sweep (fun j => if j ∈ m.entries then [] else m.function.prev j) [k] m.function.slots

def containing (m : RegionModel) (i : Nat) : List Nat :=
  match m.function.slot? i with
  | none => []
  | some k =>
      let origins := m.origins k
      (m.regions.filter fun r => r.slot ∈ origins).map Region.id

/-!
# Points reached
-/

def pointsOf (k : Nat) : Span := ⟨2 * k, 2 * k + 2⟩

/-- The points reached from the def point of slot `k` before control enters a region. -/
def pointsAfter (m : RegionModel) (k : Nat) : IntervalSet :=
  let reached := Search.sweep m.nextInside (m.nextInside k) m.function.slots
  IntervalSet.ofSpans (⟨2 * k + 1, 2 * k + 2⟩ :: reached.map pointsOf)

def pointsAfterInst (m : RegionModel) (i : Nat) : IntervalSet :=
  (m.function.slot? i).elim .empty m.pointsAfter

/-- The points of a region up to the first instruction on each path at which `stop` holds.  Of
that instruction the use point is still included. -/
def pointsUntil (m : RegionModel) (r : Region) (stop : Instruction -> Bool) : IntervalSet :=
  let stopped := fun k => (m.function.layout[k]?).any stop
  let reached :=
    Search.sweep (fun k => if stopped k then [] else m.nextInside k) [r.slot] m.function.slots
  IntervalSet.ofSpans (reached.map fun k => if stopped k then ⟨2 * k, 2 * k + 1⟩ else pointsOf k)

def pointsIn (m : RegionModel) (r : Region) : IntervalSet := m.pointsUntil r fun _ => false

end RegionModel
end SafeRestart
