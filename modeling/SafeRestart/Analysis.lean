import SafeRestart.Boundary
import SafeRestart.HittingSet

/-!
# Choosing boundaries

The boundaries of a function are stores that together hit the cut paths of all its hazards.  They
are chosen greedily by slot, so that of equally good stores the first in layout order is taken.
-/

namespace SafeRestart

structure Analysis where
  name : String
  hazards : List Hazard
  paths : List CutPath
  selection : List (Selection Nat)
  boundaries : BoundarySet
deriving DecidableEq

namespace Function

def idAt (f : Function) (k : Nat) : Except Fault Nat :=
  match f.layout[k]? with
  | some inst => .ok inst.id
  | none => .error .outOfBounds

def selectStores (f : Function) (paths : List CutPath) : Except Fault (List (Selection Nat)) := do
  let family ← paths.mapM fun path => path.stores.mapM f.slot
  (HittingSet.steps family).mapM fun step => do
    return ⟨← f.idAt step.element, step.newlyCovered, step.covered⟩

def analyze (f : Function) (oracle : AliasOracle) : Except Fault Analysis := do
  let hazards := f.hazards oracle
  let tree := f.dominators
  let paths ← hazards.mapM (f.cutPathIn tree)
  let selection ← f.selectStores paths
  return ⟨f.name, hazards, paths, selection, BoundarySet.ofList (selection.map Selection.element)⟩

/-- The instructions before which a region has to start. -/
def boundaries (f : Function) (oracle : AliasOracle) : Except Fault BoundarySet := do
  return (← f.analyze oracle).boundaries

end Function

def analyzeAll (functions : List Function) (oracle : AliasOracle) : Except Fault (List Analysis) :=
  functions.mapM fun f => f.analyze oracle

/-!
# Report
-/

namespace Analysis

def report (a : Analysis) (f : Function) : String :=
  let hazards := a.hazards.map fun h =>
    "  load " ++ f.locator h.load ++ " -> store " ++ f.locator h.store
  let paths := a.paths.map fun path =>
    "  [" ++ String.intercalate ", " (path.stores.map f.locator) ++ "]"
  let choices := a.selection.map fun step =>
    "  " ++ f.locator step.element ++ " covers " ++ toString step.newlyCovered ++
      " (total " ++ toString step.covered ++ ")"
  let blocks := (a.boundaries.blocks f).filterMap fun b => (f.block? b).map Block.name
  let lines :=
    ["Idempotence analysis of '" ++ a.name ++ "'"] ++
    ["Anti-dependence pairs (" ++ toString a.hazards.length ++ "):"] ++ hazards ++
    ["Anti-dependence paths (" ++ toString a.paths.length ++ "):"] ++ paths ++
    ["Hitting set (" ++ toString a.boundaries.size ++ "):"] ++ choices ++
    ["Boundary blocks: " ++ String.intercalate ", " blocks]
  String.intercalate "\n" lines

end Analysis
end SafeRestart
