import Mathlib.Data.List.Sort
import SafeRestart.Ascending

/-!
# Ascending lists as sets

Over a linear order an ascending list keeps exactly the members of the list it was made from.
-/

namespace SafeRestart
namespace Ascending

universe u

variable {α : Type u} [LinearOrder α] [DecidableLT α] {x a : α} {members : List α}

theorem mem_insert_iff : x ∈ insert a members <-> x = a ∨ x ∈ members := by
  constructor
  · exact mem_of_mem_insert
  · induction members with
    | nil => simp [insert]
    | cons b rest ih =>
        intro h
        unfold insert
        by_cases hab : a < b
        · rw [if_pos hab]
          exact List.mem_cons.mpr h
        · rw [if_neg hab]
          by_cases hba : b < a
          · rw [if_pos hba]
            rcases h with hxa | hx
            · exact List.mem_cons_of_mem b (ih (Or.inl hxa))
            · rcases List.mem_cons.mp hx with rfl | hrest
              · exact List.mem_cons_self
              · exact List.mem_cons_of_mem b (ih (Or.inr hrest))
          · rw [if_neg hba]
            rcases h with rfl | hx
            · rw [le_antisymm (not_lt.mp hba) (not_lt.mp hab)]
              exact List.mem_cons_self
            · exact hx

theorem pairwise_insert (h : members.Pairwise (· < ·)) :
    (insert a members).Pairwise (· < ·) := by
  induction members with
  | nil => simp [insert]
  | cons b rest ih =>
      unfold insert
      have hrest := List.pairwise_cons.mp h
      by_cases hab : a < b
      · rw [if_pos hab]
        refine List.pairwise_cons.mpr ⟨?_, h⟩
        intro y hy
        rcases List.mem_cons.mp hy with rfl | hy
        · exact hab
        · exact lt_trans hab (hrest.left y hy)
      · rw [if_neg hab]
        by_cases hba : b < a
        · rw [if_pos hba]
          refine List.pairwise_cons.mpr ⟨?_, ih hrest.right⟩
          intro y hy
          rcases mem_of_mem_insert hy with rfl | hy
          · exact hba
          · exact hrest.left y hy
        · rw [if_neg hba]
          exact h

theorem mem_ofList_iff : x ∈ ofList members <-> x ∈ members := by
  induction members with
  | nil => simp [ofList]
  | cons a rest ih =>
      change x ∈ insert a (ofList rest) <-> x ∈ a :: rest
      rw [mem_insert_iff, ih, List.mem_cons]

theorem pairwise_ofList (members : List α) : (ofList members).Pairwise (· < ·) := by
  induction members with
  | nil => exact List.Pairwise.nil
  | cons a rest ih => exact pairwise_insert ih

theorem ofList_congr {members' : List α} (h : forall x, x ∈ members <-> x ∈ members') :
    ofList members = ofList members' := by
  apply (pairwise_ofList members).eq_of_mem_iff (pairwise_ofList members')
  intro x
  rw [mem_ofList_iff, mem_ofList_iff, h]

end Ascending
end SafeRestart
