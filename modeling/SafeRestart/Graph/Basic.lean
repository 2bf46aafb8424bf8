import SafeRestart.Error

/-!
# Directed graphs

The nodes of a graph are numbered in the order in which they were added and carry a payload.  The
graph keeps its edges in the order in which they were added, each once: a second edge between the
same two nodes is the first one.  Successors and predecessors are read off that list, so both come
in the order of their edges.
-/

namespace SafeRestart

universe u

structure Digraph (α : Type u) where
  nodes : List α
  edges : List (Nat × Nat)

namespace Digraph

variable {α : Type u}

def empty : Digraph α := ⟨[], []⟩

def size (g : Digraph α) : Nat := g.nodes.length

def succs (g : Digraph α) (v : Nat) : List Nat :=
  g.edges.filterMap fun e => if e.1 = v then some e.2 else none

def preds (g : Digraph α) (v : Nat) : List Nat :=
  g.edges.filterMap fun e => if e.2 = v then some e.1 else none

def hasEdge (g : Digraph α) (source target : Nat) : Bool := (source, target) ∈ g.edges

def inDegree (g : Digraph α) (v : Nat) : Nat := (g.preds v).length

def outDegree (g : Digraph α) (v : Nat) : Nat := (g.succs v).length

/-!
# Building a graph
-/

def addNode (g : Digraph α) (payload : α) : Digraph α :=
  { g with nodes := g.nodes ++ [payload] }

/-- Replaces the payload of a node; nothing happens when there is no such node. -/
def setNode (g : Digraph α) (v : Nat) (payload : α) : Digraph α :=
  { g with nodes := g.nodes.set v payload }

def addEdge (g : Digraph α) (source target : Nat) : Except Error (Digraph α × Bool) :=
  if g.size ≤ source then .error (.missingNode source target source)
  else if g.size ≤ target then .error (.missingNode source target target)
  else if g.hasEdge source target then .ok (g, false)
  else .ok ({ g with edges := g.edges ++ [(source, target)] }, true)

/-- Adds several edges, up to the first that does not fit. -/
def addEdges (g : Digraph α) (edges : List (Nat × Nat)) : Except Error (Digraph α) :=
  edges.foldlM (fun g e => (g.addEdge e.1 e.2).map Prod.fst) g

end Digraph
end SafeRestart
