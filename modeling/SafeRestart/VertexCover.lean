import SafeRestart.HittingSet

/-!
# Covering co-occurrences

Two different elements co-occur when some set of the family holds both.  A cover takes one end of
each co-occurrence.  The greedy choice takes the element with the most co-occurrences left, the
smallest of several.
-/

namespace SafeRestart
namespace VertexCover

universe u

variable {α : Type u} [DecidableEq α]

def without (graph : List (α × List α)) (a : α) : List (α × List α) :=
  (graph.filter fun vertex => vertex.1 ≠ a).map fun vertex =>
    (vertex.1, vertex.2.filter fun b => b ≠ a)

/-- The first of the elements with the most companions; none when no element has any. -/
def best? (graph : List (α × List α)) : Option α :=
  ((HittingSet.heaviest? (fun vertex => vertex.2.length) graph).filter fun vertex =>
    !vertex.2.isEmpty).map Prod.fst

theorem length_without_lt {graph : List (α × List α)} {a : α} (h : best? graph = some a) :
    (without graph a).length < graph.length := by
  rcases Option.map_eq_some_iff.mp h with ⟨vertex, taken, rfl⟩
  have member := HittingSet.heaviest?_mem (Option.filter_eq_some_iff.mp taken).1
  rw [without, List.length_map]
  exact List.length_filter_lt_length_iff_exists.mpr ⟨vertex, member, by simp⟩

def choose (graph : List (α × List α)) : List α :=
  match _found : best? graph with
  | none => []
  | some a => a :: choose (without graph a)
termination_by graph.length
decreasing_by exact length_without_lt _found

variable [LT α] [DecidableLT α]

def companions (family : List (List α)) (a : α) : List α :=
  (Ascending.ofList (family.filter fun set => a ∈ set).flatten).filter fun b => b ≠ a

/-- The co-occurrence graph of a family: each element, in ascending order, with its companions. -/
def graph (family : List (List α)) : List (α × List α) :=
  (Ascending.ofList family.flatten).map fun a => (a, companions family a)

def cover (family : List (List α)) : List α := Ascending.ofList (choose (graph family))

end VertexCover
end SafeRestart
