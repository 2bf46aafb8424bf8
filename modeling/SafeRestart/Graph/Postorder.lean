import SafeRestart.Graph.Basic

/-!
# Depth-first postorder

A node is finished when all its successors have been explored, in the order of their edges.
-/

namespace SafeRestart
namespace DepthFirst

structure Progress where
  seen : List Nat
  /-- The nodes finished, the last one first. -/
  finished : List Nat

/-- Explores `v` unless it has been met before.  Each level of the exploration meets a new node,
so `depth` never runs out when it starts as the number of nodes. -/
def explore (succs : Nat -> List Nat) : Nat -> Progress -> Nat -> Progress
  | 0, progress, _ => progress
  | depth + 1, progress, v =>
      if v ∈ progress.seen then
        progress
      else
        let below := (succs v).foldl (explore succs depth) ⟨v :: progress.seen, progress.finished⟩
        ⟨below.seen, v :: below.finished⟩

end DepthFirst

namespace Digraph

universe u

variable {α : Type u}

def reversePostorder (g : Digraph α) (start : Nat) : List Nat :=
  if start < g.size then (DepthFirst.explore g.succs g.size ⟨[], []⟩ start).finished else []

def postorder (g : Digraph α) (start : Nat) : List Nat := (g.reversePostorder start).reverse

end Digraph
end SafeRestart
