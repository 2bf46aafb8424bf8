import SafeRestart.Graph.Search

/-!
# Dominators

A node `a` dominates a node `b` when every path from the entry to `b` passes through `a`.  Seen the
other way round: once the ways out of `a` are closed, `b` is no longer reached.  The strict
dominators of a node form a chain; its immediate dominator is the last of them, which has exactly
one strict dominator less.
-/

namespace SafeRestart

universe u

structure DominatorTree where
  entry : Nat
  parents : List (Option Nat)
deriving DecidableEq

namespace DominatorTree

def size (t : DominatorTree) : Nat := t.parents.length

def immediate (t : DominatorTree) (v : Nat) : Option Nat :=
  if v = t.entry then none else t.parents[v]?.join

/-- The node itself, its immediate dominator and so on, at most `steps` steps up. -/
def climb (t : DominatorTree) : Nat -> Nat -> List Nat
  | 0, v => [v]
  | steps + 1, v =>
      match t.immediate v with
      | none => [v]
      | some up => v :: climb t steps up

/-- The dominators of a node, nearest first; the node itself is the first one. -/
def chain (t : DominatorTree) (v : Nat) : List Nat := t.climb t.size v

def dominates (t : DominatorTree) (a b : Nat) : Bool := a ∈ t.chain b

def strictlyDominates (t : DominatorTree) (a b : Nat) : Bool := a != b && t.dominates a b

def isReachable (t : DominatorTree) (v : Nat) : Bool := v == t.entry || (t.immediate v).isSome

def depth (t : DominatorTree) (v : Nat) : Nat := (t.chain v).length - 1

def children (t : DominatorTree) (v : Nat) : List Nat :=
  (List.range t.size).filter fun child => t.immediate child == some v

end DominatorTree

namespace Digraph

variable {α : Type u}

/-- The nodes reached from `entry` without leaving `avoided`. -/
def reachedAvoiding (g : Digraph α) (entry avoided : Nat) : List Nat :=
  Search.sweep (fun v => if v = avoided then [] else g.succs v) [entry] (List.range g.size)

/-- For each node the nodes that strictly dominate it; none when it is not reachable. -/
def strictDominators (g : Digraph α) (entry : Nat) : List (List Nat) :=
  let reached := g.reached entry
  let avoiding := (List.range g.size).map fun a => (a, g.reachedAvoiding entry a)
  (List.range g.size).map fun b =>
    if b ∈ reached then
      (avoiding.filter fun entry => entry.1 ≠ b ∧ b ∉ entry.2).map Prod.fst
    else
      []

def dominatorTree (g : Digraph α) (entry : Nat) : DominatorTree :=
  let strict := g.strictDominators entry
  ⟨entry, strict.map fun above =>
    above.find? fun a => (strict[a]?.map List.length).getD 0 + 1 = above.length⟩

end Digraph
end SafeRestart
