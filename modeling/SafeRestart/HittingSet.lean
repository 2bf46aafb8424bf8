import SafeRestart.Ascending

/-!
# Greedy hitting sets

A hitting set of a family of sets has a member in common with each set of the family.  The greedy
choice takes, again and again, the element that lies in the most sets not yet hit; of several such
elements it takes the smallest.  An empty set cannot be hit and is left out.
-/

namespace SafeRestart

universe u

/-- One choice: the element, how many sets it is the first to hit, and how many sets are hit
after it. -/
structure Selection (α : Type u) where
  element : α
  newlyCovered : Nat
  covered : Nat
deriving DecidableEq

namespace HittingSet

variable {α : Type u}

/-- The first element of a list at which `weight` is greatest. -/
def heaviest? (weight : α -> Nat) : List α -> Option α
  | [] => none
  | a :: rest =>
      match heaviest? weight rest with
      | none => some a
      | some b => if weight a < weight b then some b else some a

theorem heaviest?_mem {weight : α -> Nat} {members : List α} {a : α}
    (h : heaviest? weight members = some a) : a ∈ members := by
  induction members generalizing a with
  | nil => simp [heaviest?] at h
  | cons b rest ih =>
      unfold heaviest? at h
      split at h
      · simp_all
      · rename_i c found
        split at h
        · simp_all
        · simp_all

variable [LT α] [DecidableLT α] [DecidableEq α]

def coverage (family : List (List α)) (a : α) : Nat := family.countP fun set => a ∈ set

/-- The smallest of the elements that lie in the most sets. -/
def best? (family : List (List α)) : Option α :=
  heaviest? (coverage family) (Ascending.ofList family.flatten)

def missed (family : List (List α)) (a : α) : List (List α) := family.filter fun set => a ∉ set

theorem length_missed_lt {family : List (List α)} {a : α} (h : best? family = some a) :
    (missed family a).length < family.length := by
  have member : a ∈ family.flatten := Ascending.mem_of_mem_ofList (heaviest?_mem h)
  rcases List.mem_flatten.mp member with ⟨set, inside, holds⟩
  exact List.length_filter_lt_length_iff_exists.mpr ⟨set, inside, by simpa using holds⟩

/-- The choices made for a family of which `covered` further sets are hit already. -/
def choose (family : List (List α)) (covered : Nat) : List (Selection α) :=
  match _found : best? family with
  | none => []
  | some a =>
      ⟨a, coverage family a, covered + coverage family a⟩ ::
        choose (missed family a) (covered + coverage family a)
termination_by family.length
decreasing_by exact length_missed_lt _found

def steps (family : List (List α)) : List (Selection α) :=
  choose (family.filter fun set => !set.isEmpty) 0

def elements (family : List (List α)) : List α :=
  Ascending.ofList ((steps family).map Selection.element)

def skipped (family : List (List α)) : Nat := family.countP List.isEmpty

end HittingSet
end SafeRestart
