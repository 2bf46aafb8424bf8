import SafeRestart.Proofs.Tally

/-!
# What the greedy trace reports

The trace of a family tells how its sets are hit one after the other.  Its numbers can be read off
the family itself: which sets a step is the first to hit, how many are hit by then, and which
element had to be taken.
-/

namespace SafeRestart
namespace HittingSet

universe u

variable {α : Type u} {family other : List (List α)}

theorem hittable_eq_countP (family : List (List α)) :
    hittable family = family.countP fun set => set ≠ [] := by
  apply List.countP_congr
  intro set _
  simp

variable [DecidableEq α]

theorem coverage_unhit (family : List (List α)) (before : List (Selection α)) (a : α) :
    coverage (unhit family before) a = family.countP fun set =>
      a ∈ set ∧ forall earlier, earlier ∈ before -> earlier.element ∉ set := by
  simp [coverage, unhit, List.countP_filter]

variable [LinearOrder α] [DecidableLT α]

/-!
# Coverage
-/

theorem mem_elements_iff {a : α} :
    a ∈ elements family <-> exists step, step ∈ steps family ∧ step.element = a := by
  rw [elements, Ascending.mem_ofList_iff, List.mem_map]

theorem ne_nil_of_unhit {before after : List (Selection α)} {set : List α}
    (h : steps family = before ++ after) (hset : set ∈ family) (hne : set ≠ [])
    (hopen : forall step, step ∈ before -> step.element ∉ set) : after ≠ [] := by
  rintro rfl
  rcases steps_hit hset hne with ⟨step, hstep, hhit⟩
  rw [h, List.append_nil] at hstep
  exact hopen step hstep hhit

theorem choices_cover_family (family : List (List α)) :
    tallied family = .ok (steps family, true) ∧
    (forall set, set ∈ family -> set ≠ [] -> exists a, a ∈ elements family ∧ a ∈ set) ∧
    ((steps family).map Selection.element).Nodup ∧
    ((elements family).Pairwise (· < ·) ∧
      forall a, a ∈ elements family <-> exists step, step ∈ steps family ∧ step.element = a) ∧
    (forall before step after, steps family = before ++ step :: after ->
      1 ≤ step.newlyCovered ∧
      step.newlyCovered = (family.countP fun set =>
        step.element ∈ set ∧ forall earlier, earlier ∈ before -> earlier.element ∉ set) ∧
      step.covered = coveredAfter 0 before + step.newlyCovered) ∧
    (forall before after set, steps family = before ++ after -> set ∈ family -> set ≠ [] ->
      (forall step, step ∈ before -> step.element ∉ set) -> after ≠ []) ∧
    coveredAfter 0 (steps family) = (family.countP fun set => set ≠ []) ∧
    skipped family = family.countP fun set => set = [] := by
  refine ⟨tallied_eq_steps family, ?_, ?_, ⟨Ascending.pairwise_ofList _, ?_⟩, ?_, ?_, ?_, ?_⟩
  · intro set hset hne
    rcases steps_hit hset hne with ⟨step, hstep, hhit⟩
    exact ⟨step.element, mem_elements_iff.mpr ⟨step, hstep, rfl⟩, hhit⟩
  · rw [steps_eq_choose]
    exact List.pairwise_map.mpr ((choose_pairwise family 0).imp fun h => h.left)
  · intro a
    exact mem_elements_iff
  · intro before step after h
    rw [steps_eq_choose] at h
    rcases choose_split h with ⟨hleast, hnewly, hcovered⟩
    rw [← coverage_unhit]
    exact ⟨hnewly ▸ hleast.left.left, hnewly, hcovered⟩
  · intro before after set
    exact ne_nil_of_unhit
  · rw [steps_eq_choose, coveredAfter_choose, Nat.zero_add, hittable_eq_countP]
  · apply List.countP_congr
    intro set _
    simp

/-!
A family with an empty set, a repeated element and, once `5` is taken, a tie between `2`, `3`
and `9`.
-/

def dispatch : List (List Nat) := [[5], [7, 3, 5], [5, 7, 9], [], [2, 2], [9, 3]]

theorem dispatch_steps : steps dispatch = [⟨5, 3, 3⟩, ⟨2, 1, 4⟩, ⟨3, 1, 5⟩] := by
  decide +kernel

theorem dispatch_covered :
    tallied dispatch = .ok ([⟨5, 3, 3⟩, ⟨2, 1, 4⟩, ⟨3, 1, 5⟩], true) ∧
      (exists a, a ∈ elements dispatch ∧ a ∈ [9, 3]) ∧
      (3 : Nat) = (dispatch.countP fun set =>
        5 ∈ set ∧ forall earlier : Selection Nat, earlier ∈ [] -> earlier.element ∉ set) ∧
      5 = (dispatch.countP fun set => set ≠ []) ∧ skipped dispatch = 1 := by
  rcases choices_cover_family dispatch with ⟨hrun, hhit, _, _, hstep, _, hcovered, hskipped⟩
  rw [dispatch_steps] at hrun hcovered
  refine ⟨hrun, hhit [9, 3] (by decide) (by decide), ?_, hcovered, hskipped.trans (by decide)⟩
  exact (hstep [] ⟨5, 3, 3⟩ _ dispatch_steps).right.left

/-!
# Greedy choice
-/

theorem steps_congr (h : SameSets family other) : steps other = steps family := by
  rw [steps_eq_choose, steps_eq_choose, choose_congr (perm_hittableSets h)]

theorem choices_greedy (family : List (List α)) :
    tallied family = .ok (steps family, true) ∧
    (forall before step after, steps family = before ++ step :: after ->
      IsLeast (mostShared (unhit family before)) step.element ∧
        step.newlyCovered = coverage (unhit family before) step.element) ∧
    ((steps family).Pairwise fun earlier later => later.newlyCovered ≤ earlier.newlyCovered) ∧
    forall other, SameSets family other ->
      elements other = elements family ∧ steps other = steps family ∧
        tallied other = tallied family := by
  refine ⟨tallied_eq_steps family, ?_, ?_, ?_⟩
  · intro before step after h
    rw [steps_eq_choose] at h
    rcases choose_split h with ⟨hleast, hnewly, _⟩
    exact ⟨hleast, hnewly⟩
  · rw [steps_eq_choose]
    exact (choose_pairwise family 0).imp fun h => h.right
  · intro other h
    rw [elements, elements, tallied_eq_steps, tallied_eq_steps, steps_congr h]
    exact ⟨rfl, rfl, rfl⟩

theorem dispatch_greedy :
    IsLeast (mostShared (unhit dispatch [⟨5, 3, 3⟩])) 2 ∧
      steps [[3, 9, 3], [2], [9, 7, 5, 5], [5], [], [5, 3, 7]] =
        [⟨5, 3, 3⟩, ⟨2, 1, 4⟩, ⟨3, 1, 5⟩] := by
  rcases choices_greedy dispatch with ⟨_, hstep, _, hsame⟩
  have hmoved : SameSets dispatch [[3, 9, 3], [2], [9, 7, 5, 5], [5], [], [5, 3, 7]] := by
    refine ⟨[[9, 3], [2, 2], [5, 7, 9], [5], [], [7, 3, 5]], by decide, ?_⟩
    simp only [List.forall₂_cons, List.Forall₂.nil]
    grind
  constructor
  · exact (hstep [⟨5, 3, 3⟩] ⟨2, 1, 4⟩ [⟨3, 1, 5⟩] dispatch_steps).left
  · rw [(hsame _ hmoved).right.left, dispatch_steps]

end HittingSet
end SafeRestart
