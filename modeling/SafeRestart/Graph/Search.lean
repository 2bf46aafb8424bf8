import SafeRestart.BitSet
import SafeRestart.Graph.Basic

/-!
# Exhaustive search

A search walks from given roots along a neighbour function and never leaves a finite pool of
vertices.  It keeps a stack of vertices still to be visited.  A vertex leaves the pool when it is
put on the stack, so it is visited once; of the neighbours of a vertex the last one is visited
first.
-/

namespace SafeRestart
namespace Search

universe u

variable {α : Type u} [DecidableEq α]

/-- Moves those of the given vertices that are still in the pool onto the stack. -/
def enter : List α -> List α -> List α -> List α × List α
  | [], stack, pool => (stack, pool)
  | v :: rest, stack, pool =>
      if v ∈ pool then enter rest (v :: stack) (pool.erase v) else enter rest stack pool

theorem length_enter (found stack pool : List α) :
    (enter found stack pool).1.length + (enter found stack pool).2.length =
      stack.length + pool.length := by
  induction found generalizing stack pool with
  | nil => rfl
  | cons v rest ih =>
      unfold enter
      split
      · rename_i member
        have positive := List.length_pos_of_mem member
        rw [ih, List.length_cons, List.length_erase_of_mem member]
        omega
      · exact ih stack pool

def visit (next : α -> List α) : List α -> List α -> List α
  | [], _ => []
  | v :: stack, pool =>
      v :: visit next (enter (next v) stack pool).1 (enter (next v) stack pool).2
termination_by stack pool => stack.length + pool.length
decreasing_by
  rw [length_enter, List.length_cons]
  omega

/-- The vertices of the pool that a search from the roots visits, in the order of their visits. -/
def sweep (next : α -> List α) (roots pool : List α) : List α :=
  visit next (enter roots [] pool).1 (enter roots [] pool).2

end Search

namespace Digraph

universe u

variable {α : Type u}

def reached (g : Digraph α) (start : Nat) : List Nat :=
  Search.sweep g.succs [start] (List.range g.size)

def reachable (g : Digraph α) (start : Nat) : BitSet :=
  BitSet.ofMembers g.size (g.reached start)

end Digraph
end SafeRestart
