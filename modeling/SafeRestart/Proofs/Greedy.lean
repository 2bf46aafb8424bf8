import Mathlib.Data.Finset.Dedup
import Mathlib.Order.Bounds.Basic
import SafeRestart.Proofs.HittingSet

/-!
# The trace of the greedy choice

Each choice is the smallest of the elements that lie in the most sets not hit before.  What the
trace reports is therefore determined by the sets alone: by which elements they have and by how
often each of them occurs, not by the order in which they are given.
-/

namespace SafeRestart
namespace HittingSet

universe u v

variable {α : Type u}

/-!
# The first of the heaviest
-/

section Weights

variable {β : Type v} {weight : β -> Nat} {members : List β} {a b : β}

theorem heaviest?_first (h : heaviest? weight members = some a) :
    exists before after, members = before ++ a :: after ∧
      (forall b, b ∈ before -> weight b < weight a) ∧
        forall b, b ∈ after -> weight b ≤ weight a := by
  induction members generalizing a with
  | nil => cases h
  | cons b rest ih =>
      unfold heaviest? at h
      split at h
      · rename_i hnone
        cases h
        exact ⟨[], rest, rfl, by simp, by simp [heaviest?_eq_none hnone]⟩
      · rename_i c hc
        rcases ih hc with ⟨before, after, rfl, hbefore, hafter⟩
        split at h
        · rename_i hlighter
          cases h
          refine ⟨b :: before, after, rfl, ?_, hafter⟩
          intro x hx
          cases hx with
          | head => exact hlighter
          | tail _ hx => exact hbefore x hx
        · rename_i hheavier
          cases h
          refine ⟨[], before ++ c :: after, rfl, by simp, ?_⟩
          have hbound : weight c ≤ weight b := Nat.le_of_not_lt hheavier
          intro x hx
          rcases List.mem_append.mp hx with hx | hx
          · exact Nat.le_trans (Nat.le_of_lt (hbefore x hx)) hbound
          · cases hx with
            | head => exact hbound
            | tail _ hx => exact Nat.le_trans (hafter x hx) hbound

/-- Where the keys ascend, the first of the heaviest is the one with the smallest key. -/
theorem heaviest?_least [Preorder α] {key : β -> α}
    (hkeys : members.Pairwise fun x y => key x < key y)
    (h : heaviest? weight members = some a) (hb : b ∈ members) :
    weight b ≤ weight a ∧ (weight b = weight a -> key a ≤ key b) := by
  rcases heaviest?_first h with ⟨before, after, rfl, hbefore, hafter⟩
  rcases List.mem_append.mp hb with hb | hb
  · have hlighter := hbefore b hb
    exact ⟨Nat.le_of_lt hlighter, fun hsame => absurd hsame (Nat.ne_of_lt hlighter)⟩
  · cases hb with
    | head => exact ⟨Nat.le_refl _, fun _ => le_refl _⟩
    | tail _ hb =>
        have hbehind := List.pairwise_cons.mp (List.pairwise_append.mp hkeys).right.left
        exact ⟨hafter b hb, fun _ => le_of_lt (hbehind.left b hb)⟩

end Weights

variable [DecidableEq α] {family other : List (List α)} {set : List α} {a b : α} {covered : Nat}

/-!
# Sets hit and sets missed
-/

theorem coverage_pos_iff : 0 < coverage family a <-> a ∈ family.flatten := by
  simp [coverage, List.countP_pos_iff, List.mem_flatten]

theorem coverage_eq_zero_iff : coverage family a = 0 <-> forall set, set ∈ family -> a ∉ set := by
  simp [coverage, List.countP_eq_zero]

theorem coverage_missed_le (family : List (List α)) (a b : α) :
    coverage (missed family a) b ≤ coverage family b :=
  List.filter_sublist.countP_le

theorem coverage_missed_self (family : List (List α)) (a : α) :
    coverage (missed family a) a = 0 := by
  apply coverage_eq_zero_iff.mpr
  intro set hset
  simpa using (List.mem_filter.mp hset).right

theorem coverage_add_length_missed (family : List (List α)) (a : α) :
    coverage family a + (missed family a).length = family.length := by
  rw [missed, ← List.countP_eq_length_filter]
  simpa [coverage] using (List.length_eq_countP_add_countP (a ∈ ·) (l := family)).symm

def hittable (family : List (List α)) : Nat := family.countP fun set => !set.isEmpty

omit [DecidableEq α] in
theorem skipped_add_hittable (family : List (List α)) :
    skipped family + hittable family = family.length := by
  rw [skipped, hittable, List.length_eq_countP_add_countP List.isEmpty]
  congr 2
  funext set
  cases set with
  | nil => rfl
  | cons a rest => rfl

theorem coverage_add_hittable_missed (family : List (List α)) (a : α) :
    coverage family a + hittable (missed family a) = hittable family := by
  induction family with
  | nil => rfl
  | cons set rest ih =>
      by_cases ha : a ∈ set
      · have hne : set ≠ [] := List.ne_nil_of_mem ha
        simp_all [coverage, hittable, missed]
        omega
      · simp_all [coverage, hittable, missed, List.countP_cons]
        omega

def unhit (family : List (List α)) (made : List (Selection α)) : List (List α) :=
  family.filter fun set => forall step, step ∈ made -> step.element ∉ set

theorem unhit_nil (family : List (List α)) : unhit family [] = family := by
  simp [unhit]

theorem unhit_cons (family : List (List α)) (step : Selection α) (made : List (Selection α)) :
    unhit family (step :: made) = unhit (missed family step.element) made := by
  simp [unhit, missed, List.filter_filter, Bool.and_comm]

def coveredAfter (covered : Nat) (made : List (Selection α)) : Nat :=
  (made.getLast?).elim covered Selection.covered

omit [DecidableEq α] in
theorem coveredAfter_cons (covered : Nat) (step : Selection α) (made : List (Selection α)) :
    coveredAfter covered (step :: made) = coveredAfter step.covered made := by
  unfold coveredAfter
  rw [List.getLast?_cons]
  cases made.getLast? with
  | none => rfl
  | some last => rfl

/-!
# Families with the same sets
-/

def hittableSets (family : List (List α)) : List (Finset α) :=
  (family.filter fun set => !set.isEmpty).map List.toFinset

theorem coverage_eq_countP (family : List (List α)) (a : α) :
    coverage family a = (hittableSets family).countP (a ∈ ·) := by
  unfold coverage hittableSets
  rw [List.countP_map, List.countP_filter]
  apply List.countP_congr
  intro set _
  cases set with
  | nil => simp
  | cons b rest => simp

theorem coverage_congr (h : (hittableSets family).Perm (hittableSets other)) :
    coverage family = coverage other := by
  funext a
  rw [coverage_eq_countP, coverage_eq_countP]
  exact h.countP_eq _

theorem hittableSets_missed (family : List (List α)) (a : α) :
    hittableSets (missed family a) = (hittableSets family).filter (a ∉ ·) := by
  unfold hittableSets missed
  rw [List.filter_map, List.filter_filter, List.filter_filter]
  congr 2
  funext set
  simp [Bool.and_comm]

/-- The same sets in another order, each with its elements in another order or repeated. -/
def SameSets (family other : List (List α)) : Prop :=
  exists moved, family.Perm moved ∧
    List.Forall₂ (fun set set' => forall a, a ∈ set <-> a ∈ set') moved other

theorem hittableSets_forall₂
    (h : List.Forall₂ (fun set set' => forall a, a ∈ set <-> a ∈ set') family other) :
    hittableSets family = hittableSets other := by
  induction h with
  | nil => rfl
  | @cons set set' family other hsame _ ih =>
      have hfinset : set.toFinset = set'.toFinset := by
        ext a
        rw [List.mem_toFinset, List.mem_toFinset, hsame]
      have hempty : set.isEmpty = set'.isEmpty := by
        rw [Bool.eq_iff_iff, List.isEmpty_iff, List.isEmpty_iff, List.eq_nil_iff_forall_not_mem,
          List.eq_nil_iff_forall_not_mem]
        simp only [hsame]
      unfold hittableSets at ih ⊢
      rw [List.filter_cons, List.filter_cons, hempty]
      split
      · rw [List.map_cons, List.map_cons, hfinset, ih]
      · exact ih

theorem perm_hittableSets (h : SameSets family other) :
    (hittableSets family).Perm (hittableSets other) := by
  rcases h with ⟨moved, hperm, hsame⟩
  rw [← hittableSets_forall₂ hsame]
  exact (hperm.filter _).map _

/-!
# The best element
-/

/-- The elements that lie in the most sets of a family, and in some set at all. -/
def mostShared (family : List (List α)) : Set α :=
  {a | 0 < coverage family a ∧ forall b, coverage family b ≤ coverage family a}

variable [LinearOrder α] [DecidableLT α]

theorem isLeast_of_best? (h : best? family = some a) : IsLeast (mostShared family) a := by
  have hsorted : (Ascending.ofList family.flatten).Pairwise fun x y => id x < id y :=
    Ascending.pairwise_ofList family.flatten
  have hoccurs : forall b, 0 < coverage family b -> b ∈ Ascending.ofList family.flatten :=
    fun b hb => Ascending.mem_ofList_iff.mpr (coverage_pos_iff.mp hb)
  have hmost : forall b, coverage family b ≤ coverage family a := by
    intro b
    by_cases hb : 0 < coverage family b
    · exact (heaviest?_least hsorted h (hoccurs b hb)).left
    · exact Nat.le_trans (Nat.le_of_not_lt hb) (Nat.zero_le _)
  constructor
  · exact ⟨coverage_pos_iff.mpr (best?_mem h), hmost⟩
  · intro b hb
    have hsame : coverage family b = coverage family a := Nat.le_antisymm (hmost b) (hb.right a)
    exact (heaviest?_least hsorted h (hoccurs b hb.left)).right hsame

theorem best?_eq_none_iff : best? family = none <-> forall a, coverage family a = 0 := by
  constructor
  · intro h a
    apply coverage_eq_zero_iff.mpr
    intro set hset
    simp [eq_nil_of_best?_eq_none h hset]
  · intro h
    cases hbest : best? family with
    | none => rfl
    | some a => exact absurd (h a) (Nat.ne_of_gt (isLeast_of_best? hbest).left.left)

theorem best?_eq_some_iff : best? family = some a <-> IsLeast (mostShared family) a := by
  constructor
  · exact isLeast_of_best?
  · intro h
    cases hbest : best? family with
    | none => exact absurd (best?_eq_none_iff.mp hbest a) (Nat.ne_of_gt h.left.left)
    | some b => rw [(isLeast_of_best? hbest).unique h]

theorem hittable_eq_zero_iff : hittable family = 0 <-> best? family = none := by
  constructor
  · intro h
    apply best?_eq_none_iff.mpr
    intro a
    have hsplit := coverage_add_hittable_missed family a
    exact Nat.eq_zero_of_le_zero (h ▸ hsplit ▸ Nat.le_add_right _ _)
  · intro h
    apply List.countP_eq_zero.mpr
    intro set hset
    simp [eq_nil_of_best?_eq_none h hset]

/-!
# The choices one by one
-/

/-- Each step takes the smallest of the elements shared by the most sets that no earlier step
hits. -/
theorem choose_split {before after : List (Selection α)} {step : Selection α}
    (h : choose family covered = before ++ step :: after) :
    IsLeast (mostShared (unhit family before)) step.element ∧
      step.newlyCovered = coverage (unhit family before) step.element ∧
      step.covered = coveredAfter covered before + step.newlyCovered := by
  induction family, covered using choose.induct generalizing before with
  | case1 family covered hbest =>
      rw [choose_of_best?_none hbest] at h
      simp at h
  | case2 family covered a hbest ih =>
      rw [choose_of_best?_some hbest] at h
      cases before with
      | nil =>
          cases h
          rw [unhit_nil]
          exact ⟨isLeast_of_best? hbest, rfl, rfl⟩
      | cons first before =>
          rcases List.cons.inj h with ⟨rfl, hrest⟩
          rw [unhit_cons, coveredAfter_cons]
          exact ih hrest

theorem choose_pairwise (family : List (List α)) (covered : Nat) :
    (choose family covered).Pairwise fun earlier later =>
      earlier.element ≠ later.element ∧ later.newlyCovered ≤ earlier.newlyCovered := by
  induction family, covered using choose.induct with
  | case1 family covered hbest =>
      rw [choose_of_best?_none hbest]
      exact List.Pairwise.nil
  | case2 family covered a hbest ih =>
      rw [choose_of_best?_some hbest]
      refine List.pairwise_cons.mpr ⟨?_, ih⟩
      intro step hstep
      rcases List.append_of_mem hstep with ⟨before, after, hsplit⟩
      rcases choose_split hsplit with ⟨hleast, hnewly, _⟩
      have hfewer : step.newlyCovered ≤ coverage (missed family a) step.element := by
        rw [hnewly]
        exact List.filter_sublist.countP_le
      constructor
      · rintro rfl
        have hpositive := hleast.left.left
        rw [← hnewly] at hpositive
        rw [coverage_missed_self] at hfewer
        exact absurd hpositive (Nat.not_lt_of_le hfewer)
      · calc step.newlyCovered
            ≤ coverage (missed family a) step.element := hfewer
          _ ≤ coverage family step.element := coverage_missed_le family a step.element
          _ ≤ coverage family a := (isLeast_of_best? hbest).left.right step.element

theorem coveredAfter_choose (family : List (List α)) (covered : Nat) :
    coveredAfter covered (choose family covered) = covered + hittable family := by
  induction family, covered using choose.induct with
  | case1 family covered hbest =>
      rw [choose_of_best?_none hbest, hittable_eq_zero_iff.mpr hbest]
      rfl
  | case2 family covered a hbest ih =>
      rw [choose_of_best?_some hbest, coveredAfter_cons, ih, Nat.add_assoc,
        coverage_add_hittable_missed]

/-!
# The choices from the same sets
-/

theorem best?_congr (h : (hittableSets family).Perm (hittableSets other)) :
    best? family = best? other := by
  apply Option.ext
  intro a
  rw [best?_eq_some_iff, best?_eq_some_iff, mostShared, mostShared, coverage_congr h]

theorem choose_congr (h : (hittableSets family).Perm (hittableSets other)) :
    choose family covered = choose other covered := by
  induction family, covered using choose.induct generalizing other with
  | case1 family covered hnone =>
      rw [choose_of_best?_none hnone, choose_of_best?_none (best?_congr h ▸ hnone)]
  | case2 family covered a hsome ih =>
      have hsame : best? other = some a := best?_congr h ▸ hsome
      have hmissed : (hittableSets (missed family a)).Perm (hittableSets (missed other a)) := by
        rw [hittableSets_missed, hittableSets_missed]
        exact h.filter _
      rw [choose_of_best?_some hsome, choose_of_best?_some hsame, ← coverage_congr h, ih hmissed]

theorem steps_eq_choose (family : List (List α)) : steps family = choose family 0 := by
  apply choose_congr
  unfold hittableSets
  rw [List.filter_filter]
  simp

end HittingSet
end SafeRestart
