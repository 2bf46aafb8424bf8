import SafeRestart.Proofs.DominatorTree
import SafeRestart.Proofs.Guarded.Basic

/-!
# Adjacency lists

A graph can be kept as two tables: for each node the list of its successors and the list of its
predecessors.  An edge is entered in both.  The tables that are built step by step are those that
can be read off the list of edges.
-/

namespace SafeRestart

open Guarded

structure Adjacency (α : Type) where
  nodes : List α
  succs : List (List Nat)
  preds : List (List Nat)
  edgeCount : Nat

namespace Adjacency

variable {α : Type}

def empty : Adjacency α := ⟨[], [], [], 0⟩

def size (a : Adjacency α) : Nat := a.nodes.length

def succsOf (a : Adjacency α) (v : Nat) : List Nat := a.succs[v]?.getD []

def predsOf (a : Adjacency α) (v : Nat) : List Nat := a.preds[v]?.getD []

def addNode (a : Adjacency α) (payload : α) : Adjacency α :=
  ⟨a.nodes ++ [payload], a.succs ++ [[]], a.preds ++ [[]], a.edgeCount⟩

/-- A missing node is an error, a missing list is a fault. -/
def addEdge (a : Adjacency α) (source target : Nat) : Guarded (Adjacency α × Bool) :=
  if a.size ≤ source then throw (.missingNode source target source)
  else if a.size ≤ target then throw (.missingNode source target target)
  else do
    let onward ← ofLookUp (entryAt a.succs source)
    if target ∈ onward then
      return (a, false)
    else
      let succs ← ofLookUp (storeAt a.succs source (onward ++ [target]))
      let back ← ofLookUp (entryAt a.preds target)
      let preds ← ofLookUp (storeAt a.preds target (back ++ [source]))
      return (⟨a.nodes, succs, preds, a.edgeCount + 1⟩, true)

def addEdges (a : Adjacency α) (edges : List (Nat × Nat)) : Guarded (Adjacency α) :=
  edges.foldlM (fun a e => do return (← a.addEdge e.1 e.2).1) a

end Adjacency

namespace Digraph

variable {α : Type} {g : Digraph α} {source target v : Nat}

def adjacency (g : Digraph α) : Adjacency α :=
  ⟨g.nodes, (List.range g.size).map g.succs, (List.range g.size).map g.preds, g.edges.length⟩

theorem entryAt_of_lt {β : Type} {n : Nat} (row : Nat -> β) (hv : v < n) :
    entryAt ((List.range n).map row) v = .ok (row v) := by
  apply entryAt_of_some
  rw [List.getElem?_map, List.getElem?_range hv]
  rfl

theorem row_of_closed {n : Nat} {row : Nat -> List Nat} (h : n ≤ v -> row v = []) :
    ((List.range n).map row)[v]?.getD [] = row v := by
  by_cases hv : v < n
  · rw [List.getElem?_map, List.getElem?_range hv]
    rfl
  · have hle := Nat.le_of_not_lt hv
    rw [List.getElem?_eq_none (by simpa using hle), h hle]
    rfl

theorem succsOf_adjacency (hg : g.Closed) (v : Nat) : g.adjacency.succsOf v = g.succs v := by
  apply row_of_closed
  intro hv
  apply List.eq_nil_iff_forall_not_mem.mpr
  intro c hc
  exact absurd (hg (mem_succs_iff.mp hc)).left (Nat.not_lt.mpr hv)

theorem predsOf_adjacency (hg : g.Closed) (v : Nat) : g.adjacency.predsOf v = g.preds v := by
  apply row_of_closed
  intro hv
  apply List.eq_nil_iff_forall_not_mem.mpr
  intro c hc
  exact absurd (hg (mem_preds_iff.mp hc)).right (Nat.not_lt.mpr hv)

/-!
# Building the tables
-/

theorem adjacency_addNode (hg : g.Closed) (payload : α) :
    (g.addNode payload).adjacency = g.adjacency.addNode payload := by
  have hsize : (g.addNode payload).size = g.size + 1 := by simp [size, addNode]
  have hsuccs : g.succs g.size = [] := by
    apply List.eq_nil_iff_forall_not_mem.mpr
    intro c hc
    exact absurd (hg (mem_succs_iff.mp hc)).left (Nat.lt_irrefl _)
  have hpreds : g.preds g.size = [] := by
    apply List.eq_nil_iff_forall_not_mem.mpr
    intro c hc
    exact absurd (hg (mem_preds_iff.mp hc)).right (Nat.lt_irrefl _)
  unfold adjacency Adjacency.addNode
  rw [hsize, List.range_succ, List.map_append, List.map_append]
  have hrow : (g.addNode payload).succs g.size = [] := hsuccs
  have hback : (g.addNode payload).preds g.size = [] := hpreds
  rw [List.map_singleton, List.map_singleton, hrow, hback]
  rfl

theorem set_row {n : Nat} {row row' : Nat -> List Nat} {new : List Nat}
    (hsame : row' v = new) (hother : forall w, w ≠ v -> row' w = row w) :
    ((List.range n).map row).set v new = (List.range n).map row' := by
  apply List.ext_getElem?
  intro w
  rw [List.getElem?_set, List.getElem?_map, List.getElem?_map, List.length_map, List.length_range]
  by_cases hw : w < n
  · rw [List.getElem?_range hw]
    by_cases hv : v = w
    · rw [if_pos hv, if_pos (hv ▸ hw), ← hsame, hv]
      rfl
    · rw [if_neg hv]
      exact congrArg some (hother w (Ne.symm hv)).symm
  · have hnone : (List.range n)[w]? = none := by
      rw [List.getElem?_eq_none]
      simpa using Nat.le_of_not_lt hw
    rw [hnone]
    by_cases hv : v = w
    · rw [if_pos hv, if_neg (hv ▸ hw)]
      rfl
    · rw [if_neg hv]
      rfl

theorem hasEdge_iff {source target : Nat} :
    g.hasEdge source target = true <-> target ∈ g.succs source := by
  rw [mem_succs_iff]
  simp [hasEdge]

theorem set_succs (g : Digraph α) (source target : Nat) :
    g.adjacency.succs.set source (g.succs source ++ [target]) =
      (List.range g.size).map (Digraph.mk g.nodes (g.edges ++ [(source, target)])).succs := by
  apply set_row
  · simp [succs]
  · intro w hw
    simp [succs, Ne.symm hw]

theorem set_preds (g : Digraph α) (source target : Nat) :
    g.adjacency.preds.set target (g.preds target ++ [source]) =
      (List.range g.size).map (Digraph.mk g.nodes (g.edges ++ [(source, target)])).preds := by
  apply set_row
  · simp [preds]
  · intro w hw
    simp [preds, Ne.symm hw]

theorem gives_addEdge (g : Digraph α) (source target : Nat) :
    Gives (g.adjacency.addEdge source target)
      ((g.addEdge source target).map fun answer => (answer.1.adjacency, answer.2)) := by
  unfold Adjacency.addEdge addEdge
  show Gives (if g.size ≤ source then _ else if g.size ≤ target then _ else _) _
  by_cases hsource : g.size ≤ source
  · rw [if_pos hsource, if_pos hsource]
    rfl
  · rw [if_neg hsource, if_neg hsource]
    by_cases htarget : g.size ≤ target
    · rw [if_pos htarget, if_pos htarget]
      rfl
    · rw [if_neg htarget, if_neg htarget]
      have hs := Nat.lt_of_not_le hsource
      have ht := Nat.lt_of_not_le htarget
      refine gives_lookUp (entryAt_of_lt g.succs hs) ?_
      by_cases hedge : target ∈ g.succs source
      · rw [if_pos hedge, if_pos (hasEdge_iff.mpr hedge)]
        rfl
      · rw [if_neg hedge, if_neg fun hold => hedge (hasEdge_iff.mp hold)]
        have hrows : source < g.adjacency.succs.length := by
          simpa [adjacency] using hs
        have hcolumns : target < g.adjacency.preds.length := by
          simpa [adjacency] using ht
        refine gives_lookUp (storeAt_of_lt hrows _) ?_
        refine gives_lookUp (entryAt_of_lt g.preds ht) ?_
        refine gives_lookUp (storeAt_of_lt hcolumns _) ?_
        have hcount : (g.edges ++ [(source, target)]).length = g.adjacency.edgeCount + 1 := by
          simp [adjacency]
        rw [set_succs, set_preds]
        show Gives (pure (_, true)) (.ok (Adjacency.mk _ _ _ _, true))
        rw [hcount]
        rfl

theorem gives_addEdges (g : Digraph α) (edges : List (Nat × Nat)) :
    Gives (g.adjacency.addEdges edges) ((g.addEdges edges).map adjacency) := by
  unfold Adjacency.addEdges addEdges
  induction edges generalizing g with
  | nil => rfl
  | cons e rest ih =>
      rw [List.foldlM_cons, List.foldlM_cons]
      have hadd := gives_addEdge g e.1 e.2
      cases hplain : g.addEdge e.1 e.2 with
      | error err =>
          rw [hplain] at hadd
          exact gives_bind_error (gives_bind_error hadd _) _
      | ok answer =>
          rw [hplain] at hadd
          exact gives_bind_ok (gives_bind_ok hadd (gives_pure _)) (ih answer.1)

end Digraph
end SafeRestart
