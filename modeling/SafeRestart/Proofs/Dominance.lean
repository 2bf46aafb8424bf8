import SafeRestart.Graph.Dominators
import SafeRestart.Proofs.Flow
import SafeRestart.Proofs.Search

/-!
# Dominance by paths

Dominance is a statement about all paths from the entry.  The chain of a node in the dominator tree
consists of nodes that dominate it in this sense, each of them dominated by those further up.
-/

namespace SafeRestart

universe u

/-!
# Dominance in a relation
-/

section Relation

variable {α : Type u} {R : α -> α -> Prop} {entry a b c : α} {met : List α}

def Reaches (R : α -> α -> Prop) (a b : α) : Prop := exists met, Path R a met b

def Dominates (R : α -> α -> Prop) (entry a b : α) : Prop :=
  forall met, Path R entry met b -> a ∈ entry :: met

theorem dominates_self (R : α -> α -> Prop) (entry v : α) : Dominates R entry v v := by
  intro met hpath
  rcases path_end hpath with ⟨rfl, rfl⟩ | ⟨before, rfl⟩
  · exact List.mem_singleton_self _
  · simp

theorem path_to_dominator (hdom : Dominates R entry a b) (hpath : Path R entry met b) :
    exists before after, met = before ++ after ∧ Path R entry before a ∧
      Path R a after b := by
  rcases List.mem_cons.mp (hdom met hpath) with rfl | hmem
  · exact ⟨[], met, rfl, Path.nil a, hpath⟩
  · rcases path_cut hpath hmem with ⟨before, after, rfl, hbefore, hafter⟩
    exact ⟨before ++ [a], after, by simp, hbefore, hafter⟩

theorem dominates_trans (hab : Dominates R entry a b) (hbc : Dominates R entry b c) :
    Dominates R entry a c := by
  intro met hpath
  rcases path_to_dominator hbc hpath with ⟨before, after, rfl, hbefore, _⟩
  exact List.mem_append_left after (hab before hbefore)

/-- Two nodes that dominate each other are the same: otherwise each path to one of them contains a
shorter one. -/
theorem dominates_antisymm (hab : Dominates R entry a b) (hba : Dominates R entry b a)
    {met : List α} (hpath : Path R entry met a) : a = b := by
  rcases path_to_dominator hba hpath with ⟨toB, fromB, hmet, hB, hafterB⟩
  rcases path_to_dominator hab hB with ⟨toA, fromA, htoB, hA, hafterA⟩
  by_cases hshort : toA.length < met.length
  · exact dominates_antisymm hab hba hA
  · have hlength := congrArg List.length hmet
    rw [htoB, List.length_append, List.length_append] at hlength
    have hnil : fromB = [] := List.length_eq_zero_iff.mp (by omega)
    subst hnil
    cases hafterB
    rfl
termination_by met.length

theorem dominates_start (hbc : Dominates R entry b c) (hpath : Path R a met c) (hmissed : b ∉ met) :
    Dominates R entry b a := by
  intro before hbefore
  have hmem := hbc (before ++ met) (path_append hbefore hpath)
  rw [← List.cons_append, List.mem_append] at hmem
  exact hmem.resolve_right hmissed

theorem mem_of_dominates_between (hab : Dominates R entry a b) (hbc : Dominates R entry b c)
    (hreach : Reaches R entry b) (hne : b ≠ a) (hpath : Path R a met c) : b ∈ met := by
  by_contra hmissed
  have hba := dominates_start hbc hpath hmissed
  rcases hreach with ⟨toB, htoB⟩
  exact hne (dominates_antisymm hba hab htoB)

end Relation

/-!
# The dominator tree
-/

namespace Digraph

variable {α : Type u} {g : Digraph α} {entry a b : Nat}

def Closed (g : Digraph α) : Prop :=
  forall {b c : Nat}, (b, c) ∈ g.edges -> b < g.size ∧ c < g.size

def Edge (g : Digraph α) (b c : Nat) : Prop := (b, c) ∈ g.edges

theorem mem_reached_iff (hg : g.Closed) (hentry : entry < g.size) :
    b ∈ g.reached entry <-> Reaches g.Edge entry b := by
  have hclosed : forall x y, y ∈ g.succs x -> y ∈ List.range g.size := by
    intro x y hy
    exact List.mem_range.mpr (hg (mem_succs_iff.mp hy)).right
  have hedge : (fun x y => y ∈ g.succs x) = g.Edge := by
    funext x y
    exact propext mem_succs_iff
  unfold reached
  rw [Search.mem_sweep_iff_of_closed hclosed, hedge]
  constructor
  · intro h
    rcases h with ⟨r, hr, _, hpath⟩
    rw [List.mem_singleton] at hr
    subst hr
    exact hpath
  · intro h
    exact ⟨entry, List.mem_singleton_self entry, List.mem_range.mpr hentry, h⟩

theorem mem_reachedAvoiding_iff (hg : g.Closed) (hentry : entry < g.size) :
    b ∈ g.reachedAvoiding entry a <->
      exists met, Path g.Edge entry met b ∧ a ∉ (entry :: met).dropLast := by
  have hedge : (fun x y => y ∈ if x = a then [] else g.succs x) =
      fun x y => ¬ x = a ∧ g.Edge x y := by
    funext x y
    by_cases hx : x = a
    · simp [hx]
    · simp [hx, mem_succs_iff, Edge]
  have hclosed : forall x y, (y ∈ if x = a then [] else g.succs x) -> y ∈ List.range g.size := by
    intro x y hy
    have hstep := congrFun (congrFun hedge x) y ▸ hy
    exact List.mem_range.mpr (hg hstep.right).right
  unfold reachedAvoiding
  rw [Search.mem_sweep_iff_of_closed hclosed, hedge]
  constructor
  · intro h
    rcases h with ⟨r, hr, _, met, hpath⟩
    rw [List.mem_singleton] at hr
    subst hr
    rcases path_avoiding_iff.mp hpath with ⟨hplain, havoid⟩
    exact ⟨met, hplain, fun hmem => havoid a hmem rfl⟩
  · intro h
    rcases h with ⟨met, hpath, havoid⟩
    refine ⟨entry, List.mem_singleton_self entry, List.mem_range.mpr hentry, met, ?_⟩
    exact path_avoiding_iff.mpr ⟨hpath, fun x hx heq => havoid (heq ▸ hx)⟩

theorem dominates_of_not_mem_reachedAvoiding (hg : g.Closed) (hentry : entry < g.size)
    (h : b ∉ g.reachedAvoiding entry a) : Dominates g.Edge entry a b := by
  intro met hpath
  by_contra hmissed
  apply h
  refine (mem_reachedAvoiding_iff hg hentry).mpr ⟨met, hpath, ?_⟩
  intro hmem
  exact hmissed ((List.dropLast_sublist _).subset hmem)

theorem strictDominators_eq (g : Digraph α) (entry : Nat) :
    g.strictDominators entry = (List.range g.size).map fun b =>
      if b ∈ g.reached entry then
        (List.range g.size).filter fun a => a ≠ b ∧ b ∉ g.reachedAvoiding entry a
      else [] := by
  unfold strictDominators
  simp only [List.filter_map, List.map_map]
  congr
  funext b
  split
  · exact List.map_id _
  · rfl

theorem mem_strictDominators (hg : g.Closed) (hentry : entry < g.size) {above : List Nat}
    (habove : (g.strictDominators entry)[b]? = some above) (ha : a ∈ above) :
    a ≠ b ∧ Reaches g.Edge entry b ∧ Dominates g.Edge entry a b := by
  rw [strictDominators_eq, List.getElem?_map, Option.map_eq_some_iff] at habove
  rcases habove with ⟨b', hb', rfl⟩
  have hsame : b' = b := by
    rcases List.getElem?_eq_some_iff.mp hb' with ⟨hlt, hget⟩
    rw [← hget, List.getElem_range]
  subst hsame
  split at ha
  · rename_i hreached
    have hboth : a ≠ b' ∧ b' ∉ g.reachedAvoiding entry a := by
      simpa using (List.mem_filter.mp ha).right
    exact ⟨hboth.left, (mem_reached_iff hg hentry).mp hreached,
      dominates_of_not_mem_reachedAvoiding hg hentry hboth.right⟩
  · cases ha

theorem immediate_dominates (hg : g.Closed) (hentry : entry < g.size)
    (h : (g.dominatorTree entry).immediate b = some a) :
    a ≠ b ∧ Reaches g.Edge entry b ∧ Dominates g.Edge entry a b := by
  unfold DominatorTree.immediate dominatorTree at h
  split at h
  · cases h
  · dsimp only at h
    rw [List.getElem?_map] at h
    cases habove : (g.strictDominators entry)[b]? with
    | none =>
        rw [habove] at h
        cases h
    | some above =>
        rw [habove] at h
        exact mem_strictDominators hg hentry habove (List.mem_of_find?_eq_some h)

/-!
# Chains
-/

theorem dominates_of_mem_climb (hg : g.Closed) (hentry : entry < g.size) {steps : Nat}
    (h : a ∈ (g.dominatorTree entry).climb steps b) : Dominates g.Edge entry a b := by
  have hself := dominates_self g.Edge entry
  induction steps generalizing b with
  | zero =>
      rw [DominatorTree.climb, List.mem_singleton] at h
      exact h ▸ hself a
  | succ steps ih =>
      unfold DominatorTree.climb at h
      split at h
      · rw [List.mem_singleton] at h
        exact h ▸ hself a
      · rename_i up hup
        rcases List.mem_cons.mp h with rfl | hmem
        · exact hself a
        · exact dominates_trans (ih hmem) (immediate_dominates hg hentry hup).right.right

theorem climb_pairwise (hg : g.Closed) (hentry : entry < g.size) (steps : Nat) (v : Nat) :
    ((g.dominatorTree entry).climb steps v).Pairwise fun lower upper =>
      Reaches g.Edge entry lower ∧ Dominates g.Edge entry upper lower := by
  induction steps generalizing v with
  | zero => exact List.pairwise_singleton _ v
  | succ steps ih =>
      unfold DominatorTree.climb
      split
      · exact List.pairwise_singleton _ v
      · rename_i up hup
        refine List.pairwise_cons.mpr ⟨?_, ih up⟩
        intro upper hupper
        rcases immediate_dominates hg hentry hup with ⟨_, hreach, hdom⟩
        exact ⟨hreach, dominates_trans (dominates_of_mem_climb hg hentry hupper) hdom⟩

end Digraph
end SafeRestart
