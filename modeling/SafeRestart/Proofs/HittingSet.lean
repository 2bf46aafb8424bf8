import SafeRestart.HittingSet
import SafeRestart.Proofs.Ascending

/-!
# Greedy choices hit every set

The greedy choice goes on until no element is left in the sets not yet hit, so it hits every set
that has an element, and it takes its elements from the family.
-/

namespace SafeRestart
namespace HittingSet

universe u

variable {α : Type u}

theorem heaviest?_eq_none {weight : α -> Nat} {members : List α}
    (h : heaviest? weight members = none) : members = [] := by
  cases members with
  | nil => rfl
  | cons a rest =>
      unfold heaviest? at h
      split at h
      · cases h
      · split at h
        · cases h
        · cases h

variable [LinearOrder α] [DecidableLT α] [DecidableEq α] {family : List (List α)} {set : List α}

theorem best?_mem {a : α} (h : best? family = some a) : a ∈ family.flatten :=
  Ascending.mem_ofList_iff.mp (heaviest?_mem h)

theorem eq_nil_of_best?_eq_none (h : best? family = none) (hset : set ∈ family) : set = [] := by
  have hnone : Ascending.ofList family.flatten = [] := heaviest?_eq_none h
  apply List.eq_nil_iff_forall_not_mem.mpr
  intro a ha
  have hmem : a ∈ Ascending.ofList family.flatten :=
    Ascending.mem_ofList_iff.mpr (List.mem_flatten.mpr ⟨set, hset, ha⟩)
  rw [hnone] at hmem
  cases hmem

/-!
# One choice
-/

theorem choose_of_best?_none {covered : Nat} (h : best? family = none) :
    choose family covered = [] := by
  rw [choose]
  split
  · rfl
  · rename_i hsome
    rw [h] at hsome
    cases hsome

theorem choose_of_best?_some {covered : Nat} {a : α} (h : best? family = some a) :
    choose family covered =
      ⟨a, coverage family a, covered + coverage family a⟩ ::
        choose (missed family a) (covered + coverage family a) := by
  rw [choose]
  split
  · rename_i hnone
    rw [h] at hnone
    cases hnone
  · rename_i found hfound
    cases h.symm.trans hfound
    rfl

/-!
# All choices
-/

theorem choose_hits (covered : Nat) (hset : set ∈ family) (hne : set ≠ []) :
    exists step, step ∈ choose family covered ∧ step.element ∈ set := by
  induction family, covered using choose.induct with
  | case1 family covered hbest => exact absurd (eq_nil_of_best?_eq_none hbest hset) hne
  | case2 family covered a hbest ih =>
      rw [choose_of_best?_some hbest]
      by_cases ha : a ∈ set
      · exact ⟨_, List.mem_cons_self, ha⟩
      · have hmissed : set ∈ missed family a := List.mem_filter.mpr ⟨hset, by simpa using ha⟩
        rcases ih hmissed with ⟨step, hstep, hhit⟩
        exact ⟨step, List.mem_cons_of_mem _ hstep, hhit⟩

theorem choose_mem (covered : Nat) {step : Selection α} (hstep : step ∈ choose family covered) :
    step.element ∈ family.flatten := by
  induction family, covered using choose.induct with
  | case1 family covered hbest =>
      rw [choose_of_best?_none hbest] at hstep
      cases hstep
  | case2 family covered a hbest ih =>
      rw [choose_of_best?_some hbest] at hstep
      rcases List.mem_cons.mp hstep with rfl | hrest
      · exact best?_mem hbest
      · rcases List.mem_flatten.mp (ih hrest) with ⟨set, hset, hmem⟩
        exact List.mem_flatten.mpr ⟨set, (List.mem_filter.mp hset).left, hmem⟩

theorem steps_hit (hset : set ∈ family) (hne : set ≠ []) :
    exists step, step ∈ steps family ∧ step.element ∈ set := by
  apply choose_hits 0 _ hne
  apply List.mem_filter.mpr
  refine ⟨hset, ?_⟩
  cases set with
  | nil => exact absurd rfl hne
  | cons a rest => rfl

theorem steps_mem {step : Selection α} (hstep : step ∈ steps family) :
    exists set, set ∈ family ∧ step.element ∈ set := by
  rcases List.mem_flatten.mp (choose_mem 0 hstep) with ⟨set, hset, hmem⟩
  exact ⟨set, (List.mem_filter.mp hset).left, hmem⟩

end HittingSet
end SafeRestart
