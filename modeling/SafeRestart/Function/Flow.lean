import SafeRestart.Function.Basic

/-!
# Control flow between instructions

Control passes from an instruction to the next one of its block, and from the last instruction of
a block to the first one of each successor.  Instructions are named by their slots.
-/

namespace SafeRestart
namespace Function

/-- The slots to which control can pass from slot `k`. -/
def next (f : Function) (k : Nat) : List Nat :=
  match f.layout[k]? with
  | none => []
  | some inst =>
      if inst.position + 1 < f.blockSize inst.block then [k + 1]
      else (f.graph.succs inst.block).map f.blockStart

def prev (f : Function) (k : Nat) : List Nat :=
  match f.layout[k]? with
  | none => []
  | some inst =>
      if 0 < inst.position then [k - 1]
      else (f.graph.preds inst.block).map fun b => f.blockStart (b + 1) - 1

def slots (f : Function) : List Nat := List.range f.size

end Function
end SafeRestart
