import Mathlib.Algebra.BigOperators.Field
import Mathlib.Algebra.Order.BigOperators.Group.Finset
import Mathlib.Algebra.Order.Field.Rat
import Mathlib.NumberTheory.Harmonic.Defs
import Mathlib.Order.Lattice.Nat
import Mathlib.Tactic.Linarith
import SafeRestart.Proofs.HittingTrace

/-!
# How many elements the greedy choice takes

The greedy hitting set need not be the smallest, but it is not much larger than any other.  To
compare it with another hitting set, each member of that set gets a credit, the harmonic number of
how many sets it lies in that are not hit yet.  A greedy step uses up a credit of at least one, so
the credit at the start bounds the number of steps.
-/

namespace SafeRestart

/-!
# Harmonic numbers
-/

theorem div_le_harmonic_sub {m j k : Nat} (h : m + j ≤ k) :
    (j : ℚ) / k ≤ harmonic (m + j) - harmonic m := by
  induction j with
  | zero => simp
  | succ j ih =>
      have hpositive : (0 : ℚ) < (m + j + 1 : Nat) := Nat.cast_pos.mpr (Nat.succ_pos _)
      have hbound : ((m + j + 1 : Nat) : ℚ) ≤ k := Nat.cast_le.mpr h
      have hlast : (1 : ℚ) / k ≤ ((m + j + 1 : Nat) : ℚ)⁻¹ := by
        rw [one_div]
        exact inv_anti₀ hpositive hbound
      calc ((j + 1 : Nat) : ℚ) / k = j / k + 1 / k := by
            rw [Nat.cast_succ, add_div]
        _ ≤ harmonic (m + j) - harmonic m + ((m + j + 1 : Nat) : ℚ)⁻¹ :=
            add_le_add (ih (Nat.le_of_succ_le h)) hlast
        _ = harmonic (m + (j + 1)) - harmonic m := by
            rw [← Nat.add_assoc, harmonic_succ, sub_add_eq_add_sub]

theorem harmonic_le_harmonic {m n : Nat} (h : m ≤ n) : harmonic m ≤ harmonic n := by
  rcases Nat.exists_eq_add_of_le h with ⟨j, rfl⟩
  have hgrowth : (j : ℚ) / (m + j : Nat) ≤ harmonic (m + j) - harmonic m :=
    div_le_harmonic_sub (Nat.le_refl _)
  have hpositive : (0 : ℚ) ≤ (j : ℚ) / (m + j : Nat) :=
    div_nonneg (Nat.cast_nonneg _) (Nat.cast_nonneg _)
  linarith

namespace HittingSet

universe u

variable {α : Type u} [DecidableEq α] {family : List (List α)} {hitters : Finset α} {a : α}

/-!
# Sets that share an element
-/

def mostSets (family : List (List α)) : Nat := family.flatten.toFinset.sup (coverage family)

theorem coverage_le_mostSets (family : List (List α)) (a : α) :
    coverage family a ≤ mostSets family := by
  by_cases ha : a ∈ family.flatten
  · exact Finset.le_sup (f := coverage family) (List.mem_toFinset.mpr ha)
  · have hzero : coverage family a = 0 :=
      Nat.eq_zero_of_not_pos fun hpositive => ha (coverage_pos_iff.mp hpositive)
    rw [hzero]
    exact Nat.zero_le _

def holding (family : List (List α)) (a : α) : List (List α) := family.filter fun set => a ∈ set

theorem coverage_missed_add_holding (family : List (List α)) (a b : α) :
    coverage (missed family a) b + coverage (holding family a) b = coverage family b := by
  have hsplit := List.countP_eq_countP_filter_add family (fun set => b ∈ set) (fun set => a ∈ set)
  unfold coverage missed holding
  rw [hsplit, Nat.add_comm]
  simp

/-!
# Another hitting set
-/

def Hits (hitters : Finset α) (family : List (List α)) : Prop :=
  forall set, set ∈ family -> set ≠ [] -> exists a, a ∈ hitters ∧ a ∈ set

theorem hits_missed (h : Hits hitters family) (a : α) : Hits hitters (missed family a) :=
  fun set hset => h set (List.mem_filter.mp hset).left

theorem length_le_sum_coverage
    (h : forall set, set ∈ family -> exists a, a ∈ hitters ∧ a ∈ set) :
    family.length ≤ ∑ a ∈ hitters, coverage family a := by
  induction family with
  | nil => exact Nat.zero_le _
  | cons set rest ih =>
      rcases h set List.mem_cons_self with ⟨b, hb, hmem⟩
      have hrest := ih fun other hother => h other (List.mem_cons_of_mem set hother)
      have hcovers : forall a, coverage (set :: rest) a =
          coverage rest a + if a ∈ set then 1 else 0 := by
        intro a
        simp [coverage, List.countP_cons]
      have hone : 1 ≤ ∑ a ∈ hitters, if a ∈ set then 1 else 0 := by
        calc 1 = if b ∈ set then 1 else 0 := (if_pos hmem).symm
          _ ≤ ∑ a ∈ hitters, if a ∈ set then 1 else 0 :=
            Finset.single_le_sum (f := fun a => if a ∈ set then 1 else 0)
              (fun _ _ => Nat.zero_le _) hb
      calc (set :: rest).length = rest.length + 1 := List.length_cons
        _ ≤ (∑ a ∈ hitters, coverage rest a) + ∑ a ∈ hitters, if a ∈ set then 1 else 0 :=
          Nat.add_le_add hrest hone
        _ = ∑ a ∈ hitters, coverage (set :: rest) a := by
          rw [← Finset.sum_add_distrib]
          exact Finset.sum_congr rfl fun a _ => (hcovers a).symm

theorem coverage_le_sum_holding (h : Hits hitters family) (a : α) :
    coverage family a ≤ ∑ b ∈ hitters, coverage (holding family a) b := by
  have hlength : coverage family a = (holding family a).length := List.countP_eq_length_filter
  rw [hlength]
  apply length_le_sum_coverage
  intro set hset
  rcases List.mem_filter.mp hset with ⟨hmem, hholds⟩
  exact h set hmem (List.ne_nil_of_mem (of_decide_eq_true hholds))

/-!
# Credit
-/

/-- The credit of a hitting set: for each of its members the harmonic number of the sets it lies
in. -/
def credit (family : List (List α)) (hitters : Finset α) : ℚ :=
  ∑ a ∈ hitters, harmonic (coverage family a)

theorem credit_nonneg (family : List (List α)) (hitters : Finset α) :
    0 ≤ credit family hitters :=
  Finset.sum_nonneg fun _ _ => harmonic_le_harmonic (Nat.zero_le _)

theorem credit_le (family : List (List α)) (hitters : Finset α) :
    credit family hitters ≤ harmonic (mostSets family) * hitters.card := by
  calc credit family hitters ≤ ∑ _a ∈ hitters, harmonic (mostSets family) :=
        Finset.sum_le_sum fun a _ => harmonic_le_harmonic (coverage_le_mostSets family a)
    _ = harmonic (mostSets family) * hitters.card := by
        rw [Finset.sum_const, nsmul_eq_mul, mul_comm]

variable [LinearOrder α] [DecidableLT α] {covered : Nat}

/-- A greedy step uses up a credit of one.  No member of the other set lies in more open sets than
the element taken, so each set hit costs it at least an equal share of one. -/
theorem credit_missed_add_one (h : Hits hitters family) (hbest : best? family = some a) :
    credit (missed family a) hitters + 1 ≤ credit family hitters := by
  have hleast := isLeast_of_best? hbest
  have hpositive : (0 : ℚ) < coverage family a := Nat.cast_pos.mpr hleast.left.left
  have hshare : forall b, (coverage (holding family a) b : ℚ) / coverage family a ≤
      harmonic (coverage family b) - harmonic (coverage (missed family a) b) := by
    intro b
    have hsplit := coverage_missed_add_holding family a b
    have hmost : coverage (missed family a) b + coverage (holding family a) b ≤
        coverage family a := by
      rw [hsplit]
      exact hleast.left.right b
    rw [← hsplit]
    exact div_le_harmonic_sub hmost
  have hspent : 1 ≤ credit family hitters - credit (missed family a) hitters := by
    calc (1 : ℚ) = coverage family a / coverage family a := (div_self hpositive.ne').symm
      _ ≤ (∑ b ∈ hitters, coverage (holding family a) b : Nat) / coverage family a :=
          div_le_div_of_nonneg_right (Nat.cast_le.mpr (coverage_le_sum_holding h a)) hpositive.le
      _ = ∑ b ∈ hitters, (coverage (holding family a) b : ℚ) / coverage family a := by
          rw [Nat.cast_sum, Finset.sum_div]
      _ ≤ ∑ b ∈ hitters,
            (harmonic (coverage family b) - harmonic (coverage (missed family a) b)) :=
          Finset.sum_le_sum fun b _ => hshare b
      _ = credit family hitters - credit (missed family a) hitters := Finset.sum_sub_distrib _ _
  linarith

theorem length_choose_le_credit (h : Hits hitters family) :
    ((choose family covered).length : ℚ) ≤ credit family hitters := by
  induction family, covered using choose.induct with
  | case1 family covered hbest =>
      rw [choose_of_best?_none hbest, List.length_nil, Nat.cast_zero]
      exact credit_nonneg family hitters
  | case2 family covered a hbest ih =>
      rw [choose_of_best?_some hbest, List.length_cons, Nat.cast_succ]
      calc ((choose (missed family a) (covered + coverage family a)).length : ℚ) + 1
          ≤ credit (missed family a) hitters + 1 := add_le_add_left (ih (hits_missed h a)) 1
        _ ≤ credit family hitters := credit_missed_add_one h hbest

/-!
# The bound
-/

theorem length_elements (family : List (List α)) :
    (elements family).length = (steps family).length := by
  have hdistinct : ((steps family).map Selection.element).Nodup := by
    rw [steps_eq_choose]
    exact List.pairwise_map.mpr ((choose_pairwise family 0).imp fun h => h.left)
  have hsorted : (elements family).Nodup :=
    (Ascending.pairwise_ofList _).imp fun hlt => ne_of_lt hlt
  have hsame : (elements family).Perm ((steps family).map Selection.element) :=
    (List.perm_ext_iff_of_nodup hsorted hdistinct).mpr fun _ => Ascending.mem_ofList_iff
  rw [hsame.length_eq, List.length_map]

theorem greedy_within_harmonic_factor (family : List (List α)) (hitters : Finset α)
    (hhits : forall set, set ∈ family -> set ≠ [] -> exists a, a ∈ hitters ∧ a ∈ set) :
    tallied family = .ok (steps family, true) ∧
    (elements family).length = (steps family).length ∧
    ((elements family).length : ℚ) ≤ harmonic (mostSets family) * hitters.card := by
  refine ⟨tallied_eq_steps family, length_elements family, ?_⟩
  rw [length_elements, steps_eq_choose]
  exact (length_choose_le_credit hhits).trans (credit_le family hitters)

/-!
Four of six sets share `3`, so it is taken first, though `1` and `2` alone hit all of them.
-/

def crossing : List (List Nat) := [[1, 3], [1, 3], [1], [2, 3], [2, 3], [2]]

theorem crossing_within_harmonic_factor :
    (forall set, set ∈ crossing -> set ≠ [] -> exists a, a ∈ ({1, 2} : Finset Nat) ∧ a ∈ set) ∧
      elements crossing = [1, 2, 3] ∧ mostSets crossing = 4 ∧
      ((elements crossing).length : ℚ) ≤ harmonic 4 * ({1, 2} : Finset Nat).card := by
  have hhits : forall set, set ∈ crossing -> set ≠ [] ->
      exists a, a ∈ ({1, 2} : Finset Nat) ∧ a ∈ set := by
    decide
  have hmost : mostSets crossing = 4 := by decide
  refine ⟨hhits, by decide +kernel, hmost, ?_⟩
  rw [← hmost]
  exact (greedy_within_harmonic_factor crossing {1, 2} hhits).right.right

end HittingSet
end SafeRestart
