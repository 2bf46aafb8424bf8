import Mathlib.Data.List.MinMax
import Mathlib.Data.List.Perm.Subperm
import SafeRestart.Proofs.Assembly
import SafeRestart.Proofs.Dominance

/-!
# The dominator tree is exact

Of two dominators of a node, one dominates the other, so the strict dominators of a node form a
chain.  The last one of the chain is the node whose own strict dominators are all the others, and
that is how the tree picks the parent.  Climbing the tree from a node therefore meets its dominators
and nothing else.
-/

namespace SafeRestart

universe u

/-!
# Strict dominators in a relation
-/

section Relation

variable {α : Type u} {R : α -> α -> Prop} {entry a b c d : α} {met : List α}

structure StrictlyDominates (R : α -> α -> Prop) (entry a b : α) : Prop where
  distinct : a ≠ b
  reached : Reaches R entry b
  dominates : Dominates R entry a b

structure ImmediatelyDominates (R : α -> α -> Prop) (entry d b : α) : Prop where
  strict : StrictlyDominates R entry d b
  nearest : forall c, StrictlyDominates R entry c b -> c ≠ d -> Dominates R entry c d

theorem reaches_dominator (hdom : Dominates R entry a b) (hreach : Reaches R entry b) :
    Reaches R entry a := by
  rcases hreach with ⟨met, hpath⟩
  rcases path_to_dominator hdom hpath with ⟨before, _, _, hbefore, _⟩
  exact ⟨before, hbefore⟩

theorem strictlyDominates_trans (hab : StrictlyDominates R entry a b)
    (hbc : StrictlyDominates R entry b c) : StrictlyDominates R entry a c := by
  refine ⟨?_, hbc.reached, dominates_trans hab.dominates hbc.dominates⟩
  intro hsame
  subst hsame
  rcases hbc.reached with ⟨met, hpath⟩
  exact hab.distinct (dominates_antisymm hab.dominates hbc.dominates hpath)

theorem not_strictlyDominates_entry : ¬ StrictlyDominates R entry a entry := by
  intro h
  exact h.distinct (List.mem_singleton.mp (h.dominates [] (Path.nil entry)))

theorem entry_strictlyDominates (hreach : Reaches R entry b) (hne : b ≠ entry) :
    StrictlyDominates R entry entry b :=
  ⟨hne.symm, hreach, fun _ _ => List.mem_cons_self⟩

/-- From a node that dominates `c` the path to `c` meets every other dominator of `c` that does not
dominate the node itself.  If neither of two dominated the other, the path would go on between them
without end. -/
theorem dominates_of_path {a b : α} {met : List α} (hac : Dominates R entry a c)
    (hbc : Dominates R entry b c) (hpath : Path R a met c) :
    Dominates R entry a b ∨ Dominates R entry b a := by
  by_cases hmem : b ∈ met
  · rcases path_cut hpath hmem with ⟨before, after, rfl, _, hafter⟩
    exact (dominates_of_path hbc hac hafter).symm
  · exact Or.inr (dominates_start hbc hpath hmem)
termination_by met.length

theorem dominates_total (hac : Dominates R entry a c) (hbc : Dominates R entry b c)
    (hreach : Reaches R entry c) : Dominates R entry a b ∨ Dominates R entry b a := by
  rcases hreach with ⟨met, hpath⟩
  rcases path_to_dominator hac hpath with ⟨_, after, _, _, hafter⟩
  exact dominates_of_path hac hbc hafter

theorem immediatelyDominates_unique (hd : ImmediatelyDominates R entry d b)
    (hc : ImmediatelyDominates R entry c b) : c = d := by
  by_contra hne
  have hcd := hd.nearest c hc.strict hne
  have hdc := hc.nearest d hd.strict (Ne.symm hne)
  rcases reaches_dominator hc.strict.dominates hc.strict.reached with ⟨met, hpath⟩
  exact hne (dominates_antisymm hcd hdc hpath)

theorem strictlyDominates_iff (hd : ImmediatelyDominates R entry d b) :
    StrictlyDominates R entry a b <-> a = d ∨ StrictlyDominates R entry a d := by
  constructor
  · intro h
    by_cases hsame : a = d
    · exact Or.inl hsame
    · exact Or.inr ⟨hsame, reaches_dominator hd.strict.dominates hd.strict.reached,
        hd.nearest a h hsame⟩
  · intro h
    rcases h with rfl | h
    · exact hd.strict
    · exact strictlyDominates_trans h hd.strict

end Relation

namespace DominatorTree

variable {t : DominatorTree} {v up : Nat}

theorem climb_of_root (h : t.immediate v = none) (steps : Nat) : t.climb steps v = [v] := by
  cases steps with
  | zero => rfl
  | succ steps => rw [climb, h]

theorem climb_of_parent (h : t.immediate v = some up) (steps : Nat) :
    t.climb (steps + 1) v = v :: t.climb steps up := by
  rw [climb, h]

theorem mem_chain_of_root (h : t.immediate v = none) {a : Nat} : a ∈ t.chain v <-> a = v := by
  rw [chain, climb_of_root h, List.mem_singleton]

end DominatorTree

namespace Digraph

variable {α : Type u} {g : Digraph α} {entry a b d : Nat}

/-!
# Graphs that can be built
-/

inductive Built : Digraph α -> Prop where
  | empty : Built empty
  | node {g : Digraph α} (payload : α) : Built g -> Built (g.addNode payload)
  | payload {g : Digraph α} (v : Nat) (payload : α) : Built g -> Built (g.setNode v payload)
  | edge {g g' : Digraph α} {source target : Nat} {new : Bool} :
      Built g -> g.addEdge source target = .ok (g', new) -> Built g'

theorem closed_of_built (h : g.Built) : g.Closed := by
  induction h with
  | empty =>
      intro b c he
      cases he
  | node payload _ ih =>
      intro b c he
      have hold := ih he
      simp only [addNode, size, List.length_append, List.length_singleton] at hold ⊢
      omega
  | payload v payload _ ih =>
      intro b c he
      have hold := ih he
      simpa only [setNode, size, List.length_set] using hold
  | edge _ hadd ih =>
      rcases addEdge_ok hadd with ⟨hnodes, hsource, htarget, hedges⟩
      intro b c he
      have hsize : Digraph.size _ = Digraph.size _ := congrArg List.length hnodes
      rw [hsize]
      rcases (hedges (b, c)).mp he with hold | hnew
      · exact ih hold
      · cases hnew
        exact ⟨hsource, htarget⟩

theorem built_addEdges {g' : Digraph α} {edges : List (Nat × Nat)} (hg : g.Built)
    (h : g.addEdges edges = .ok g') : g'.Built := by
  unfold addEdges at h
  induction edges generalizing g with
  | nil =>
      cases h
      exact hg
  | cons e rest ih =>
      rw [List.foldlM_cons] at h
      cases hadd : g.addEdge e.1 e.2 with
      | error err =>
          rw [hadd] at h
          cases h
      | ok answer =>
          rw [hadd] at h
          exact ih (Built.edge hg hadd) h

/-!
# The strict dominators of a node
-/

theorem lt_size_of_reaches (hg : g.Closed) (hentry : entry < g.size)
    (h : Reaches g.Edge entry b) : b < g.size := by
  rcases h with ⟨met, hpath⟩
  induction hpath with
  | nil _ => exact hentry
  | cons hstep _ ih => exact ih (hg hstep).right

def above (g : Digraph α) (entry b : Nat) : List Nat :=
  ((g.strictDominators entry)[b]?).getD []

theorem above_eq (g : Digraph α) (entry b : Nat) :
    g.above entry b =
      if b < g.size ∧ b ∈ g.reached entry then
        (List.range g.size).filter fun a => a ≠ b ∧ b ∉ g.reachedAvoiding entry a
      else [] := by
  unfold above
  rw [strictDominators_eq, List.getElem?_map]
  by_cases hb : b < g.size
  · simp [hb]
  · simp [hb]

theorem nodup_above (g : Digraph α) (entry b : Nat) : (g.above entry b).Nodup := by
  rw [above_eq]
  split
  · exact List.nodup_range.filter _
  · exact List.nodup_nil

theorem length_above_le (g : Digraph α) (entry b : Nat) : (g.above entry b).length ≤ g.size := by
  rw [above_eq]
  split
  · exact (List.length_filter_le _ _).trans_eq List.length_range
  · exact Nat.zero_le _

theorem mem_above_iff (hg : g.Closed) (hentry : entry < g.size) :
    a ∈ g.above entry b <-> StrictlyDominates g.Edge entry a b := by
  rw [above_eq]
  constructor
  · intro h
    split at h
    · rename_i hb
      rw [List.mem_filter, decide_eq_true_eq] at h
      exact ⟨h.right.left, (mem_reached_iff hg hentry).mp hb.right,
        dominates_of_not_mem_reachedAvoiding hg hentry h.right.right⟩
    · cases h
  · intro h
    have hb := lt_size_of_reaches hg hentry h.reached
    have ha := lt_size_of_reaches hg hentry (reaches_dominator h.dominates h.reached)
    rw [if_pos ⟨hb, (mem_reached_iff hg hentry).mpr h.reached⟩, List.mem_filter, decide_eq_true_eq]
    refine ⟨List.mem_range.mpr ha, h.distinct, ?_⟩
    intro havoided
    -- A path to `b` on which `a` is at most the end does not meet `a` at all.
    rcases (mem_reachedAvoiding_iff hg hentry).mp havoided with ⟨met, hpath, hfree⟩
    have hmem := h.dominates met hpath
    rcases path_end hpath with ⟨rfl, rfl⟩ | ⟨before, rfl⟩
    · exact h.distinct (List.mem_singleton.mp hmem)
    · rw [← List.cons_append, List.dropLast_concat] at hfree
      rw [← List.cons_append, List.mem_append, List.mem_singleton] at hmem
      exact hmem.elim hfree h.distinct

section Counting

variable (hg : g.Closed) (hentry : entry < g.size)
include hg hentry

theorem cons_above_subset (h : StrictlyDominates g.Edge entry d b) :
    d :: g.above entry d ⊆ g.above entry b := by
  intro a ha
  rw [mem_above_iff hg hentry]
  rcases List.mem_cons.mp ha with rfl | ha
  · exact h
  · exact strictlyDominates_trans ((mem_above_iff hg hentry).mp ha) h

theorem nodup_cons_above (d : Nat) : (d :: g.above entry d).Nodup := by
  refine List.nodup_cons.mpr ⟨?_, nodup_above g entry d⟩
  intro hd
  exact ((mem_above_iff hg hentry).mp hd).distinct rfl

theorem length_above_lt (h : StrictlyDominates g.Edge entry d b) :
    (g.above entry d).length < (g.above entry b).length :=
  ((nodup_cons_above hg hentry d).subperm (cons_above_subset hg hentry h)).length_le

theorem immediatelyDominates_iff :
    ImmediatelyDominates g.Edge entry d b <->
      d ∈ g.above entry b ∧ (g.above entry d).length + 1 = (g.above entry b).length := by
  constructor
  · intro h
    refine ⟨(mem_above_iff hg hentry).mpr h.strict, Nat.le_antisymm ?_ ?_⟩
    · exact length_above_lt hg hentry h.strict
    · have hsubset : g.above entry b ⊆ d :: g.above entry d := by
        intro a ha
        rw [List.mem_cons, mem_above_iff hg hentry, ← strictlyDominates_iff h,
          ← mem_above_iff hg hentry]
        exact ha
      exact ((nodup_above g entry b).subperm hsubset).length_le
  · intro h
    have hstrict := (mem_above_iff hg hentry).mp h.left
    refine ⟨hstrict, ?_⟩
    intro c hc hne
    have hall := ((nodup_cons_above hg hentry d).subperm
      (cons_above_subset hg hentry hstrict)).perm_of_length_le (Nat.le_of_eq h.right.symm)
    have hmem := hall.symm.subset ((mem_above_iff hg hentry).mpr hc)
    exact ((mem_above_iff hg hentry).mp ((List.mem_cons.mp hmem).resolve_left hne)).dominates

/-- A reached node other than the entry has an immediate dominator: of its strict dominators the one
that has the most strict dominators itself. -/
theorem exists_immediatelyDominates (hreach : Reaches g.Edge entry b) (hne : b ≠ entry) :
    exists d, ImmediatelyDominates g.Edge entry d b := by
  have hsome := (mem_above_iff hg hentry).mpr (entry_strictlyDominates hreach hne)
  cases hmax : (g.above entry b).argmax fun a => (g.above entry a).length with
  | none =>
      rw [List.argmax_eq_none.mp hmax] at hsome
      cases hsome
  | some d =>
      have hd := (mem_above_iff hg hentry).mp (List.argmax_mem hmax)
      refine ⟨d, hd, ?_⟩
      intro c hc hcd
      apply (dominates_total hc.dominates hd.dominates hreach).resolve_right
      intro hdc
      have hlonger := length_above_lt hg hentry
        ⟨Ne.symm hcd, reaches_dominator hc.dominates hreach, hdc⟩
      exact Nat.not_lt_of_le (List.le_of_mem_argmax ((mem_above_iff hg hentry).mpr hc) hmax) hlonger

/-!
# Parents in the tree
-/

omit hg hentry in
theorem immediate_eq_find? (g : Digraph α) (entry b : Nat) :
    (g.dominatorTree entry).immediate b =
      if b = entry then none
      else (g.above entry b).find? fun a =>
        (g.above entry a).length + 1 = (g.above entry b).length := by
  have hlength : forall a, ((g.strictDominators entry)[a]?.map List.length).getD 0 =
      (g.above entry a).length := fun a => Option.getD_map List.length [] _
  unfold DominatorTree.immediate dominatorTree
  simp only [hlength, List.getElem?_map]
  unfold above
  cases (g.strictDominators entry)[b]? with
  | none => rfl
  | some found => rfl

theorem immediate_eq_some_iff :
    (g.dominatorTree entry).immediate b = some d <-> ImmediatelyDominates g.Edge entry d b := by
  have hparent : forall a, (g.dominatorTree entry).immediate b = some a ->
      ImmediatelyDominates g.Edge entry a b := by
    intro a h
    rw [immediate_eq_find?] at h
    split at h
    · cases h
    · exact (immediatelyDominates_iff hg hentry).mpr
        ⟨List.mem_of_find?_eq_some h, by simpa using List.find?_some h⟩
  constructor
  · exact hparent d
  · intro h
    have hne : b ≠ entry := by
      rintro rfl
      exact not_strictlyDominates_entry h.strict
    rcases (immediatelyDominates_iff hg hentry).mp h with ⟨hmem, hcount⟩
    have hsome : ((g.dominatorTree entry).immediate b).isSome = true := by
      rw [immediate_eq_find?, if_neg hne, List.find?_isSome]
      exact ⟨d, hmem, by simpa using hcount⟩
    rcases Option.isSome_iff_exists.mp hsome with ⟨found, hfound⟩
    rw [hfound, immediatelyDominates_unique h (hparent found hfound)]

theorem immediate_eq_none_iff :
    (g.dominatorTree entry).immediate b = none <-> b = entry ∨ ¬ Reaches g.Edge entry b := by
  rw [Option.eq_none_iff_forall_ne_some]
  simp only [ne_eq, immediate_eq_some_iff hg hentry]
  constructor
  · intro h
    by_contra hother
    rw [not_or, not_not] at hother
    rcases exists_immediatelyDominates hg hentry hother.right hother.left with ⟨d, hd⟩
    exact h d hd
  · intro h d hd
    rcases h with rfl | hunreached
    · exact not_strictlyDominates_entry hd.strict
    · exact hunreached hd.strict.reached

/-!
# Climbing the tree
-/

omit hg hentry in
theorem size_dominatorTree (g : Digraph α) (entry : Nat) :
    (g.dominatorTree entry).size = g.size := by
  simp [DominatorTree.size, dominatorTree, strictDominators_eq]

/-- Enough steps up meet all dominators.  Each step leaves a strict dominator behind, so as many
steps as the node has strict dominators are enough. -/
theorem mem_climb_iff {steps : Nat} (hsteps : (g.above entry b).length ≤ steps) :
    a ∈ (g.dominatorTree entry).climb steps b <-> a = b ∨ StrictlyDominates g.Edge entry a b := by
  induction steps generalizing b with
  | zero =>
      have hnone : ¬ StrictlyDominates g.Edge entry a b := by
        rw [← mem_above_iff hg hentry, List.length_eq_zero_iff.mp (Nat.le_zero.mp hsteps)]
        exact List.not_mem_nil
      rw [DominatorTree.climb, List.mem_singleton, or_iff_left hnone]
  | succ steps ih =>
      unfold DominatorTree.climb
      split
      · rename_i hroot
        have hnone : ¬ StrictlyDominates g.Edge entry a b := by
          intro h
          rcases (immediate_eq_none_iff hg hentry).mp hroot with rfl | hunreached
          · exact not_strictlyDominates_entry h
          · exact hunreached h.reached
        rw [List.mem_singleton, or_iff_left hnone]
      · rename_i up hup
        have hparent := (immediate_eq_some_iff hg hentry).mp hup
        have hfewer := length_above_lt hg hentry hparent.strict
        rw [List.mem_cons, ih (by omega), strictlyDominates_iff hparent]

theorem mem_chain_iff :
    a ∈ (g.dominatorTree entry).chain b <-> a = b ∨ StrictlyDominates g.Edge entry a b := by
  unfold DominatorTree.chain
  rw [size_dominatorTree, mem_climb_iff hg hentry (length_above_le g entry b)]

theorem dominates_iff :
    (g.dominatorTree entry).dominates a b = true <->
      a = b ∨ (Reaches g.Edge entry b ∧ Dominates g.Edge entry a b) := by
  unfold DominatorTree.dominates
  rw [decide_eq_true_eq, mem_chain_iff hg hentry]
  by_cases hsame : a = b
  · simp [hsame]
  · simp only [hsame, false_or]
    exact ⟨fun h => ⟨h.reached, h.dominates⟩, fun h => ⟨hsame, h.left, h.right⟩⟩

/-!
# Chains
-/

theorem chain_antisymm (hab : a ∈ (g.dominatorTree entry).chain b)
    (hba : b ∈ (g.dominatorTree entry).chain a) : a = b := by
  rcases (mem_chain_iff hg hentry).mp hab with hsame | hab
  · exact hsame
  · rcases (mem_chain_iff hg hentry).mp hba with hsame | hba
    · exact hsame.symm
    · exact absurd rfl (strictlyDominates_trans hab hba).distinct

theorem chain_trans {c : Nat} (hab : a ∈ (g.dominatorTree entry).chain b)
    (hbc : b ∈ (g.dominatorTree entry).chain c) : a ∈ (g.dominatorTree entry).chain c := by
  rcases (mem_chain_iff hg hentry).mp hab with rfl | hab
  · exact hbc
  · apply (mem_chain_iff hg hentry).mpr
    rcases (mem_chain_iff hg hentry).mp hbc with rfl | hbc
    · exact Or.inr hab
    · exact Or.inr (strictlyDominates_trans hab hbc)

theorem climb_enough {steps more : Nat} (hsteps : (g.above entry b).length ≤ steps)
    (hmore : (g.above entry b).length ≤ more) :
    (g.dominatorTree entry).climb steps b = (g.dominatorTree entry).climb more b := by
  induction steps generalizing b more with
  | zero =>
      have hroot : (g.dominatorTree entry).immediate b = none := by
        rw [immediate_eq_find?, List.length_eq_zero_iff.mp (Nat.le_zero.mp hsteps)]
        simp
      rw [DominatorTree.climb_of_root hroot, DominatorTree.climb_of_root hroot]
  | succ steps ih =>
      cases hup : (g.dominatorTree entry).immediate b with
      | none => rw [DominatorTree.climb_of_root hup, DominatorTree.climb_of_root hup]
      | some up =>
          have hfewer := length_above_lt hg hentry ((immediate_eq_some_iff hg hentry).mp hup).strict
          cases more with
          | zero => omega
          | succ more =>
              rw [DominatorTree.climb_of_parent hup, DominatorTree.climb_of_parent hup,
                ih (by omega) (Nat.le_of_lt_succ (Nat.lt_of_lt_of_le hfewer hmore))]

theorem chain_of_parent {up : Nat} (h : (g.dominatorTree entry).immediate b = some up) :
    (g.dominatorTree entry).chain b = b :: (g.dominatorTree entry).chain up := by
  have hbound := length_above_le g entry b
  unfold DominatorTree.chain
  rw [size_dominatorTree, climb_enough hg hentry hbound (Nat.le_succ_of_le hbound),
    DominatorTree.climb_of_parent h]

/-- What holds of the nodes without a parent, and of a node when it holds of its parent, holds of
all nodes: a parent has fewer strict dominators. -/
theorem climb_induction {P : Nat -> Prop}
    (root : forall b, (g.dominatorTree entry).immediate b = none -> P b)
    (parent : forall b up, (g.dominatorTree entry).immediate b = some up -> P up -> P b)
    (b : Nat) : P b := by
  induction hcount : (g.above entry b).length using Nat.strong_induction_on generalizing b with
  | h count ih =>
      cases hup : (g.dominatorTree entry).immediate b with
      | none => exact root b hup
      | some up =>
          have hfewer := length_above_lt hg hentry ((immediate_eq_some_iff hg hentry).mp hup).strict
          exact parent b up hup (ih _ (hcount ▸ hfewer) up rfl)

theorem pairwise_chain (b : Nat) :
    ((g.dominatorTree entry).chain b).Pairwise fun lower upper =>
      StrictlyDominates g.Edge entry upper lower := by
  induction b using climb_induction hg hentry with
  | root b hroot =>
      rw [DominatorTree.chain, DominatorTree.climb_of_root hroot]
      exact List.pairwise_singleton _ b
  | parent b up hup ih =>
      rw [chain_of_parent hg hentry hup]
      refine List.pairwise_cons.mpr ⟨?_, ih⟩
      intro upper hupper
      have hparent := (immediate_eq_some_iff hg hentry).mp hup
      exact (strictlyDominates_iff hparent).mpr ((mem_chain_iff hg hentry).mp hupper)

end Counting

end Digraph
end SafeRestart
