import SafeRestart.Boundary

/-!
# Regions

A region starts at an entry and spans all instructions that control reaches from there before the
next entry.  The first instruction of the function is always an entry.  An instruction that is
reached from several entries belongs to all their regions.
-/

namespace SafeRestart

structure Region where
  id : Nat
  slot : Nat
  entry : Nat
  block : Nat
deriving DecidableEq

namespace Region

def point (r : Region) : Nat := 2 * r.slot

def text (r : Region) : String :=
  IdKind.region.label r.id ++ " " ++ IdKind.point.label r.point ++ " in " ++
    IdKind.node.label r.block

end Region

structure RegionModel where
  function : Function
  entries : List Nat

namespace RegionModel

/-- The regions started by the given slots; the first slot of the function is always added. -/
def ofSlots (f : Function) (slots : List Nat) : RegionModel :=
  ⟨f, Ascending.ofList (if f.layout.isEmpty then slots else 0 :: slots)⟩

/-- The regions started by a boundary set; instructions of other functions are left out. -/
def ofBoundaries (f : Function) (boundaries : BoundarySet) : RegionModel :=
  ofSlots f (boundaries.insts.filterMap f.slot?)

def ofMarkers (f : Function) : RegionModel :=
  ofSlots f (f.slots.filter fun k => (f.layout[k]?).any fun inst => inst.flags.boundary)

def regions (m : RegionModel) : List Region :=
  m.entries.zipIdx.filterMap fun start =>
    (m.function.layout[start.1]?).map fun inst => ⟨start.2, start.1, inst.id, inst.block⟩

def region? (m : RegionModel) (id : Nat) : Option Region := m.regions[id]?

def regionAt? (m : RegionModel) (i : Nat) : Option Region :=
  m.regions.find? fun r => r.entry == i

def isEntry (m : RegionModel) (i : Nat) : Bool := (m.regionAt? i).isSome

def text (m : RegionModel) : String :=
  "Regions of '" ++ m.function.name ++ "':\n" ++
    String.join (m.regions.map fun r => "  " ++ r.text ++ "\n")

end RegionModel
end SafeRestart
