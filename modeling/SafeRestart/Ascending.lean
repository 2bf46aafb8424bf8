/-!
# Ascending lists

A finite set over an ordered type is kept as the strictly ascending list of its members.
-/

namespace SafeRestart
namespace Ascending

universe u

variable {α : Type u} [LT α] [DecidableLT α]

/-- Adds `a` at its place; nothing changes when `a` is there already. -/
def insert (a : α) : List α -> List α
  | [] => [a]
  | b :: rest =>
      if a < b then a :: b :: rest
      else if b < a then b :: insert a rest
      else b :: rest

def ofList (members : List α) : List α := members.foldr insert []

theorem mem_of_mem_insert {x a : α} {members : List α} (h : x ∈ insert a members) :
    x = a ∨ x ∈ members := by
  induction members with
  | nil => simpa [insert] using h
  | cons b rest ih =>
      unfold insert at h
      split at h
      · simpa using h
      · split at h
        · rcases List.mem_cons.mp h with rfl | member
          · exact .inr List.mem_cons_self
          · exact (ih member).imp_right (List.mem_cons_of_mem b)
        · exact .inr h

theorem mem_of_mem_ofList {x : α} {members : List α} (h : x ∈ ofList members) : x ∈ members := by
  induction members with
  | nil => simp [ofList] at h
  | cons a rest ih =>
      rcases mem_of_mem_insert h with rfl | member
      · exact List.mem_cons_self
      · exact List.mem_cons_of_mem a (ih member)

end Ascending
end SafeRestart
