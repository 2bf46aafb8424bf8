import SafeRestart.Hazard

/-!
# Cut paths

A region boundary just before a store keeps that store out of the region of all earlier reads.
The cut path of a hazard lists the stores at which such a boundary separates load and store: the
store itself, then the stores met on the way back, up the chain of dominating blocks, to just
after the load.
-/

namespace SafeRestart

structure CutPath where
  hazard : Hazard
  stores : List Nat
deriving DecidableEq

def CutPath.text (path : CutPath) : String :=
  "[" ++ String.intercalate ", " (path.stores.map IdKind.inst.label) ++ "]"

namespace Function

/-- The stores of a block at positions from `floor` up to but without `stop`, last first. -/
def storesBack (f : Function) (b : Nat) (floor stop : Nat) : List Nat :=
  ((((f.blockInsts b).take stop).drop floor).reverse.filter fun inst => inst.isStore).map
    Instruction.id

/-- The blocks on the way up from `below` to `above`; none when `above` does not dominate
`below`. -/
def blocksUp (tree : DominatorTree) (below above : Nat) : List Nat :=
  if above ∈ tree.chain below then (tree.chain below).takeWhile (· != above) ++ [above] else []

/-- The stores between `load` and `store` on the way up the dominator tree, nearest to `store`
first. -/
def storesBetween (f : Function) (tree : DominatorTree) (load store : Instruction) : List Nat :=
  (blocksUp tree store.block load.block).flatMap fun b =>
    f.storesBack b
      (if b = load.block then load.position + 1 else 0)
      (if b = store.block then store.position else f.blockSize b)

def cutPathIn (f : Function) (tree : DominatorTree) (hazard : Hazard) : Except Fault CutPath := do
  let load ← f.inst hazard.load
  let store ← f.inst hazard.store
  return ⟨hazard, store.id :: f.storesBetween tree load store⟩

def cutPath (f : Function) (hazard : Hazard) : Except Fault CutPath :=
  f.cutPathIn f.dominators hazard

end Function
end SafeRestart
