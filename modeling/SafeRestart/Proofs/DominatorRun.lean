import SafeRestart.Proofs.Guarded.Loop
import SafeRestart.Proofs.Postorder

/-!
# Dominators by iteration

The immediate dominators can be found without closing nodes one by one.  A table holds a candidate
for each node.  Passes over the reverse postorder replace the candidate of a node by the point where
the ways up from its predecessors meet, until a pass changes nothing.

The ways up hold all dominators at every moment, and only dominators once nothing changes.  That a
pass changes something only so often is less obvious: a new candidate always lies on the way up from
the old one.  This rests on the order of the pass, through paths along which the rank falls.
-/

namespace SafeRestart

open Run

/-!
# The computation
-/

namespace Dominators

def raise (parents : List (Option Nat)) (rank : List Nat) (other v : Nat) : Run (Option Nat) :=
  loop (fun v => do
    if (← entryAt rank v) < (← entryAt rank other) then
      match ← entryAt parents v with
      | some up => return .inr up
      | none => return .inl none
    else
      return .inl (some v)) v

def meet (parents : List (Option Nat)) (rank : List Nat) (a b : Nat) : Run Nat :=
  loop (fun fingers => do
    let (left, right) := fingers
    if left = right then
      return .inl left
    else
      match ← raise parents rank right left with
      | none => return .inl right
      | some left =>
          match ← raise parents rank left right with
          | none => return .inl left
          | some right => return .inr (left, right)) (a, b)

/-- The candidate after one more predecessor; those without a candidate of their own are passed
over. -/
def weigh (parents : List (Option Nat)) (rank : List Nat) (candidate : Option Nat) (pred : Nat) :
    Run (Option Nat) := do
  match ← entryAt parents pred with
  | none => return candidate
  | some _ =>
      match candidate with
      | none => return some pred
      | some current => return some (← meet parents rank pred current)

def refine (preds : Nat -> List Nat) (entry : Nat) (rank : List Nat)
    (state : List (Option Nat) × Bool) (v : Nat) : Run (List (Option Nat) × Bool) := do
  if v = entry then
    return state
  else
    let candidate ← (preds v).foldlM (weigh state.1 rank) none
    let old ← entryAt state.1 v
    if candidate.isSome ∧ old ≠ candidate then
      return (← storeAt state.1 v candidate, true)
    else
      return state

def pass (preds : Nat -> List Nat) (entry : Nat) (rank order : List Nat)
    (parents : List (Option Nat)) : Run (List (Option Nat) × Bool) :=
  order.reverse.foldlM (refine preds entry rank) (parents, false)

/-- The places of the nodes in an order; a node that is not listed has the greatest number. -/
def rankOf (n : Nat) (order : List Nat) : Except Fault (List Nat) :=
  order.zipIdx.foldlM (fun rank place => storeAt rank place.1 place.2) (List.replicate n maxSum)

end Dominators

namespace Digraph

universe u

open Dominators

def computeDominators {α : Type u} (g : Digraph α) (entry : Nat) : Run DominatorTree := do
  if g.size ≤ entry then
    return ⟨entry, List.replicate g.size none⟩
  else
    let order ← g.stackPostorder entry
    let rank ← rankOf g.size order
    let start ← storeAt (List.replicate g.size none) entry (some entry)
    let parents ← untilStable (pass g.preds entry rank order) start
    return ⟨entry, ← storeAt parents entry none⟩

/-!
# Ranks
-/

variable {α : Type u} {g : Digraph α} {entry v w x y m : Nat} {parents : List (Option Nat)}

def rank (g : Digraph α) (entry v : Nat) : Nat := (g.postorder entry).idxOf v

def Ranks (g : Digraph α) (entry : Nat) (table : List Nat) : Prop :=
  forall v, v ∈ g.postorder entry -> table[v]? = some (g.rank entry v)

structure Falls (g : Digraph α) (entry x y : Nat) : Prop where
  edge : g.Edge x y
  listed : x ∈ g.postorder entry
  lower : g.rank entry y < g.rank entry x

theorem foldlM_storeAt {n : Nat} {places : List (Nat × Nat)}
    (hfits : forall place, place ∈ places -> place.1 < n)
    (hnodup : (places.map Prod.fst).Nodup) {table : List Nat} (htable : table.length = n) :
    exists filled,
      places.foldlM (fun rank place => storeAt rank place.1 place.2) table = .ok filled ∧
        (forall place, place ∈ places -> filled[place.1]? = some place.2) ∧
        forall v, v ∉ places.map Prod.fst -> filled[v]? = table[v]? := by
  induction places generalizing table with
  | nil => exact ⟨table, rfl, by simp, by simp⟩
  | cons place rest ih =>
      have hlt : place.1 < table.length := htable ▸ hfits place List.mem_cons_self
      have hrest : forall other, other ∈ rest -> other.1 < n :=
        fun other hother => hfits other (List.mem_cons_of_mem place hother)
      rw [List.map_cons, List.nodup_cons] at hnodup
      have hlength : (table.set place.1 place.2).length = n := by rw [List.length_set, htable]
      rcases ih hrest hnodup.right hlength with ⟨filled, hrun, hstored, hkept⟩
      refine ⟨filled, ?_, ?_, ?_⟩
      · rw [List.foldlM_cons, storeAt_of_lt hlt]
        exact hrun
      · intro other hother
        rcases List.mem_cons.mp hother with rfl | hother
        · rw [hkept _ hnodup.left, List.getElem?_set_self hlt]
        · exact hstored other hother
      · intro v hv
        rw [List.map_cons, List.mem_cons, not_or] at hv
        rw [hkept v hv.right, List.getElem?_set_ne (Ne.symm hv.left)]

theorem rank_inj (hv : v ∈ g.postorder entry) (h : g.rank entry v = g.rank entry w) : v = w :=
  (List.idxOf_inj hv).mp h

theorem idxOf_lt_of_sublist {order : List Nat} (hnodup : order.Nodup) (h : [v, w].Sublist order) :
    order.idxOf v < order.idxOf w := by
  rcases List.cons_sublist_iff.mp h with ⟨before, after, rfl, hv, hw⟩
  have hapart : w ∉ before := fun hmem =>
    (List.nodup_append.mp hnodup).right.right w hmem w (List.singleton_sublist.mp hw) rfl
  rw [List.idxOf_append_of_mem hv, List.idxOf_append_of_notMem hapart]
  exact Nat.lt_of_lt_of_le (List.idxOf_lt_length_iff.mpr hv) (Nat.le_add_right _ _)

section Closed

variable (hg : g.Closed) (hentry : entry < g.size)
include hg hentry

theorem mem_postorder_entry : entry ∈ g.postorder entry :=
  (mem_postorder_iff hg hentry).mpr ⟨[], Path.nil entry⟩

theorem mem_postorder_of_edge (hx : x ∈ g.postorder entry) (hedge : g.Edge x y) :
    y ∈ g.postorder entry := by
  rcases (mem_postorder_iff hg hentry).mp hx with ⟨met, hpath⟩
  exact (mem_postorder_iff hg hentry).mpr ⟨met ++ [y], path_snoc hpath hedge⟩

theorem exists_ranks :
    exists table, rankOf g.size (g.postorder entry) = .ok table ∧ g.Ranks entry table := by
  have hnames : (g.postorder entry).zipIdx.map Prod.fst = g.postorder entry := by
    exact List.zipIdx_map_fst 0 _
  have hfits : forall place, place ∈ (g.postorder entry).zipIdx -> place.1 < g.size := by
    intro place hplace
    apply lt_size_of_mem_postorder hg hentry
    rw [← hnames]
    exact List.mem_map_of_mem hplace
  have hnodup : ((g.postorder entry).zipIdx.map Prod.fst).Nodup := by
    rw [hnames]
    exact nodup_postorder hg hentry
  rcases foldlM_storeAt hfits hnodup (List.length_replicate (a := maxSum)) with
    ⟨table, hrun, hstored, _⟩
  refine ⟨table, hrun, ?_⟩
  intro v hv
  apply hstored (v, g.rank entry v)
  rw [List.mem_zipIdx_iff_getElem?]
  exact List.getElem?_idxOf hv

theorem rank_le_entry (hv : v ∈ g.postorder entry) : g.rank entry v ≤ g.rank entry entry := by
  rcases reversePostorder_cons hg hentry with ⟨rest, hrest⟩
  have horder : g.postorder entry = rest.reverse ++ [entry] := by
    rw [postorder, hrest, List.reverse_cons]
  have hnew : entry ∉ rest.reverse := by
    have hnodup := nodup_postorder hg hentry
    rw [horder] at hnodup
    exact fun hmem => (List.nodup_append.mp hnodup).right.right entry hmem entry (by simp) rfl
  have hlast : g.rank entry entry = rest.reverse.length := by
    rw [rank, horder, List.idxOf_append_of_notMem hnew]
    simp
  have hlt : g.rank entry v < (g.postorder entry).length := List.idxOf_lt_length_iff.mpr hv
  rw [horder, List.length_append, List.length_singleton] at hlt
  omega

theorem exists_falls (hv : v ∈ g.postorder entry) (hne : v ≠ entry) :
    exists p, g.Falls entry p v := by
  rw [postorder, List.mem_reverse] at hv
  rcases predecessor_of_mem_reversePostorder hg hentry hv hne with ⟨p, hedge, hbefore⟩
  have hafter : [v, p].Sublist (g.postorder entry) := List.reverse_sublist.mpr hbefore
  refine ⟨p, hedge, hafter.subset (by simp), ?_⟩
  exact idxOf_lt_of_sublist (nodup_postorder hg hentry) hafter

end Closed

/-!
# Ways up

A table of candidates is read as links from each node to the one above it.  The entry is its own
candidate, so that every way up ends there.
-/

/-- `Above entry parents x v`: the way up from `v` meets `x`, be it at once. -/
inductive Above (entry : Nat) (parents : List (Option Nat)) (x : Nat) : Nat -> Prop where
  | self : Above entry parents x x
  | up {u v : Nat} : v ≠ entry -> parents[v]? = some (some u) -> Above entry parents x u ->
      Above entry parents x v

def Known (parents : List (Option Nat)) (v : Nat) : Prop := exists u, parents[v]? = some (some u)

structure Linked (g : Digraph α) (entry : Nat) (parents : List (Option Nat)) : Prop where
  size : parents.length = g.size
  root : parents[entry]? = some (some entry)
  listed : forall v, Known parents v -> v ∈ g.postorder entry
  falls : forall v u, v ≠ entry -> parents[v]? = some (some u) ->
    Known parents u ∧ exists met p, Path (g.Falls entry) u met p ∧ g.Falls entry p v

theorem above_trans (hxy : Above entry parents x y) (hyv : Above entry parents y v) :
    Above entry parents x v := by
  induction hyv with
  | self => exact hxy
  | up hne hlink _ ih => exact .up hne hlink ih

theorem eq_of_above_entry (h : Above entry parents x entry) : x = entry := by
  cases h with
  | self => rfl
  | up hne _ _ => exact absurd rfl hne

theorem above_cases {u : Nat} (hlink : parents[v]? = some (some u)) (h : Above entry parents x v) :
    x = v ∨ Above entry parents x u := by
  cases h with
  | self => exact Or.inl rfl
  | up _ hother habove =>
      cases hlink.symm.trans hother
      exact Or.inr habove

theorem rank_le_of_path {met : List Nat} (hpath : Path (g.Falls entry) x met v) :
    g.rank entry v ≤ g.rank entry x ∧
      forall y, y ∈ met -> g.rank entry v ≤ g.rank entry y ∧ g.rank entry y < g.rank entry x := by
  induction hpath with
  | nil _ => exact ⟨Nat.le_refl _, by simp⟩
  | cons hstep _ ih =>
      have hlower := hstep.lower
      refine ⟨by omega, ?_⟩
      intro y hy
      rcases List.mem_cons.mp hy with rfl | hy
      · exact ⟨ih.left, hlower⟩
      · exact ⟨(ih.right y hy).left, Nat.lt_trans (ih.right y hy).right hlower⟩

namespace Linked

variable (ht : g.Linked entry parents)
include ht

theorem known_entry : Known parents entry := ⟨entry, ht.root⟩

theorem rank_lt {u : Nat} (hne : v ≠ entry) (hlink : parents[v]? = some (some u)) :
    g.rank entry v < g.rank entry u := by
  rcases (ht.falls v u hne hlink).right with ⟨met, p, hpath, hlast⟩
  exact Nat.lt_of_lt_of_le hlast.lower (rank_le_of_path hpath).left

theorem rank_le (h : Above entry parents x v) : g.rank entry v ≤ g.rank entry x := by
  induction h with
  | self => exact Nat.le_refl _
  | up hne hlink _ ih => exact Nat.le_trans (Nat.le_of_lt (ht.rank_lt hne hlink)) ih

theorem rank_lt_of_above (h : Above entry parents x v) (hne : x ≠ v) :
    g.rank entry v < g.rank entry x := by
  cases h with
  | self => exact absurd rfl hne
  | up hinner hlink habove => exact Nat.lt_of_lt_of_le (ht.rank_lt hinner hlink) (ht.rank_le habove)

theorem known_of_above (h : Above entry parents x v) (hv : Known parents v) : Known parents x := by
  induction h with
  | self => exact hv
  | up hne hlink _ ih => exact ih (ht.falls _ _ hne hlink).left

theorem path_of_above (h : Above entry parents x v) :
    exists met, Path (g.Falls entry) x met v := by
  induction h with
  | self => exact ⟨[], Path.nil x⟩
  | up hne hlink _ ih =>
      rcases ih with ⟨met, hpath⟩
      rcases (ht.falls _ _ hne hlink).right with ⟨onward, p, honward, hlast⟩
      exact ⟨_, path_snoc (path_append hpath honward) hlast⟩

end Linked

/-!
# Meeting points
-/

def Summit (entry : Nat) (parents : List (Option Nat)) (preds : List Nat) : Option Nat -> Prop
  | none => forall p, p ∈ preds -> ¬ Known parents p
  | some m => Known parents m ∧
      forall x, Above entry parents x m <->
        forall p, p ∈ preds -> Known parents p -> Above entry parents x p

section Meeting

variable (hg : g.Closed) (hentry : entry < g.size) (ht : g.Linked entry parents)
  {table : List Nat} (htable : g.Ranks entry table)
include hg hentry ht htable

theorem ends_raise {other : Nat} (hv : Known parents v) (hother : Known parents other) :
    exists w, (raise parents table other v).Ends (some w) ∧ Known parents w ∧
      g.rank entry other ≤ g.rank entry w ∧ g.rank entry v ≤ g.rank entry w ∧
      forall x, g.rank entry other ≤ g.rank entry x ->
        (Above entry parents x w <-> Above entry parents x v) := by
  have hotherRank := entryAt_of_some (htable other (ht.listed other hother))
  have hbound := rank_le_entry hg hentry (ht.listed other hother)
  -- What is left of the way up becomes shorter.
  induction hleft : g.rank entry entry - g.rank entry v using Nat.strong_induction_on
    generalizing v with
  | h left ih =>
      rcases hv with ⟨u, hlink⟩
      have hvRank := entryAt_of_some (htable v (ht.listed v ⟨u, hlink⟩))
      by_cases hlower : g.rank entry v < g.rank entry other
      · have hne : v ≠ entry := by
          intro hsame
          rw [hsame] at hlower
          omega
        have hrise := ht.rank_lt hne hlink
        rcases ih (g.rank entry entry - g.rank entry u) (by omega) (ht.falls v u hne hlink).left rfl
          with ⟨w, hends, hknown, hreached, hhigher, hsame⟩
        refine ⟨w, ?_, hknown, hreached, by omega, ?_⟩
        · refine ends_loop_of_next ?_ hends
          refine (ends_lift hvRank).bind ((ends_lift hotherRank).bind ?_)
          rw [if_pos hlower]
          exact (ends_lift (entryAt_of_some hlink)).bind (ends_pure _)
        · intro x hx
          rw [hsame x hx]
          constructor
          · exact .up hne hlink
          · intro habove
            rcases above_cases hlink habove with rfl | habove
            · omega
            · exact habove
      · refine ⟨v, ?_, ⟨u, hlink⟩, Nat.le_of_not_lt hlower, Nat.le_refl _, fun _ _ => Iff.rfl⟩
        refine ends_loop_of_result ?_
        refine (ends_lift hvRank).bind ((ends_lift hotherRank).bind ?_)
        rw [if_neg hlower]
        exact ends_pure _

theorem ends_meet {a b : Nat} (ha : Known parents a) (hb : Known parents b) :
    exists m, (meet parents table a b).Ends m ∧ Known parents m ∧
      forall x, Above entry parents x m <-> Above entry parents x a ∧ Above entry parents x b := by
  induction hleft : (g.rank entry entry - g.rank entry a) + (g.rank entry entry - g.rank entry b)
    using Nat.strong_induction_on generalizing a b with
  | h left ih =>
      by_cases hsame : a = b
      · subst hsame
        refine ⟨a, ends_loop_of_result ?_, ha, fun x => (and_self_iff).symm⟩
        show Run.Ends (if a = a then _ else _) _
        rw [if_pos rfl]
        exact ends_pure _
      · rcases ends_raise hg hentry ht htable ha hb with
          ⟨c, hraiseLeft, hc, hcHigh, hac, hcAbove⟩
        rcases ends_raise hg hentry ht htable hb hc with
          ⟨d, hraiseRight, hd, hdHigh, hbd, hdAbove⟩
        have hranks : g.rank entry a ≠ g.rank entry b := fun heq =>
          hsame (rank_inj (ht.listed a ha) heq)
        have hcBound := rank_le_entry hg hentry (ht.listed c hc)
        have hdBound := rank_le_entry hg hentry (ht.listed d hd)
        rcases ih _ (by omega) hc hd rfl with ⟨m, hmeet, hm, hmAbove⟩
        refine ⟨m, ends_loop_of_next ?_ hmeet, hm, ?_⟩
        · show Run.Ends (if a = b then _ else _) _
          rw [if_neg hsame]
          exact hraiseLeft.bind (hraiseRight.bind (ends_pure _))
        · intro x
          rw [hmAbove]
          constructor
          · intro h
            have hright := (hdAbove x (ht.rank_le h.left)).mp h.right
            exact ⟨(hcAbove x (ht.rank_le hright)).mp h.left, hright⟩
          · intro h
            have hleft' := (hcAbove x (ht.rank_le h.right)).mpr h.left
            exact ⟨hleft', (hdAbove x (ht.rank_le hleft')).mpr h.right⟩

theorem ends_weigh {seen : List Nat} {candidate : Option Nat} {p : Nat} (hp : p < g.size)
    (hseen : Summit entry parents seen candidate) :
    exists next, (weigh parents table candidate p).Ends next ∧
      Summit entry parents (seen ++ [p]) next := by
  rcases exists_entryAt (ht.size ▸ hp) with ⟨above, habove, hlookup⟩
  cases above with
  | none =>
      refine ⟨candidate, (ends_lift hlookup).bind (ends_pure _), ?_⟩
      have hunknown : ¬ Known parents p := by
        rintro ⟨u, hu⟩
        cases habove.symm.trans hu
      cases candidate with
      | none =>
          intro q hq
          rcases List.mem_append.mp hq with hq | hq
          · exact hseen q hq
          · exact List.mem_singleton.mp hq ▸ hunknown
      | some m =>
          refine ⟨hseen.left, fun x => (hseen.right x).trans ?_⟩
          simp only [List.mem_append, List.mem_singleton, or_imp, forall_and, forall_eq]
          exact (and_iff_left fun hknown => absurd hknown hunknown).symm
  | some u =>
      have hknown : Known parents p := ⟨u, habove⟩
      cases candidate with
      | none =>
          refine ⟨some p, (ends_lift hlookup).bind (ends_pure _), hknown, ?_⟩
          intro x
          constructor
          · intro h q hq hqKnown
            rcases List.mem_append.mp hq with hq | hq
            · exact absurd hqKnown (hseen q hq)
            · exact List.mem_singleton.mp hq ▸ h
          · intro h
            exact h p (by simp) hknown
      | some current =>
          rcases ends_meet hg hentry ht htable hknown hseen.left with ⟨m, hmeet, hm, hmAbove⟩
          refine ⟨some m, (ends_lift hlookup).bind (hmeet.bind (ends_pure _)), hm, ?_⟩
          intro x
          rw [hmAbove, hseen.right]
          simp only [List.mem_append, List.mem_singleton, or_imp, forall_and, forall_eq]
          rw [and_comm]
          simp only [hknown, forall_const]

theorem ends_foldlM_weigh {preds seen : List Nat} {candidate : Option Nat}
    (hpreds : forall p, p ∈ preds -> p < g.size) (hseen : Summit entry parents seen candidate) :
    exists next, (preds.foldlM (weigh parents table) candidate).Ends next ∧
      Summit entry parents (seen ++ preds) next := by
  induction preds generalizing seen candidate with
  | nil => exact ⟨candidate, ends_pure _, by rwa [List.append_nil]⟩
  | cons p rest ih =>
      rcases ends_weigh hg hentry ht htable (hpreds p List.mem_cons_self) hseen with
        ⟨next, hnext, hsummit⟩
      rcases ih (fun q hq => hpreds q (List.mem_cons_of_mem p hq)) hsummit with
        ⟨last, hlast, hsummit⟩
      refine ⟨last, ?_, by rwa [List.append_assoc] at hsummit⟩
      rw [List.foldlM_cons]
      exact hnext.bind hlast

end Meeting

end Digraph
end SafeRestart
