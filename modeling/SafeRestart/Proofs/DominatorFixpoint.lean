import Mathlib.Algebra.Order.BigOperators.Group.Finset
import SafeRestart.Proofs.DominatorRun

/-!
# The iteration reaches the dominators

Between two passes the ways up hold all dominators and a candidate is never lower than the point
where the ways up from the predecessors meet.  Inside a pass, moreover, the way up from a node that
has been passed is part of the way up from each predecessor of higher rank.  Together the two let a
candidate move up only, so the passes come to an end, and then the ways up hold nothing but
dominators.
-/

namespace SafeRestart
namespace Digraph

open Run Dominators

universe u

variable {α : Type u} {g : Digraph α} {entry v w x m : Nat} {parents : List (Option Nat)}

/-!
# Moving one candidate
-/

def moved (parents : List (Option Nat)) (v m : Nat) : List (Option Nat) := parents.set v (some m)

theorem moved_self (hv : v < parents.length) : (moved parents v m)[v]? = some (some m) :=
  List.getElem?_set_self hv

theorem moved_other (hne : w ≠ v) : (moved parents v m)[w]? = parents[w]? :=
  List.getElem?_set_ne (Ne.symm hne)

theorem moved_eq_self (h : parents[v]? = some (some m)) : moved parents v m = parents := by
  rcases List.getElem?_eq_some_iff.mp h with ⟨hv, hget⟩
  rw [moved, ← hget, List.set_getElem_self]

theorem known_moved (hv : v < parents.length) (h : Known parents w) :
    Known (moved parents v m) w := by
  by_cases hsame : w = v
  · rw [hsame]
    exact ⟨m, moved_self hv⟩
  · rcases h with ⟨u, hu⟩
    exact ⟨u, (moved_other hsame).trans hu⟩

theorem above_moved_iff (h : ¬ Above entry parents v w) :
    Above entry (moved parents v m) x w <-> Above entry parents x w := by
  constructor
  · intro habove
    induction habove with
    | self => exact .self
    | @up u w hne hlink _ ih =>
        have hother : w ≠ v := fun hsame => h (hsame ▸ .self)
        rw [moved_other hother] at hlink
        exact .up hne hlink (ih fun hmeets => h (.up hne hlink hmeets))
  · intro habove
    induction habove with
    | self => exact .self
    | @up u w hne hlink _ ih =>
        have hother : w ≠ v := fun hsame => h (hsame ▸ .self)
        exact .up hne ((moved_other hother).trans hlink) (ih fun hmeets => h (.up hne hlink hmeets))

theorem above_of_moved {u : Nat} (hv : v < parents.length) (hne : v ≠ entry)
    (hlink : parents[v]? = some (some u)) (hup : Above entry parents m u)
    (h : Above entry (moved parents v m) x w) : Above entry parents x w := by
  induction h with
  | self => exact .self
  | @up above w hinner hnew _ ih =>
      by_cases hsame : w = v
      · subst hsame
        cases (moved_self hv).symm.trans hnew
        exact .up hne hlink (above_trans ih hup)
      · rw [moved_other hsame] at hnew
        exact .up hinner hnew ih

/-!
# Invariants
-/

structure Converging (g : Digraph α) (entry : Nat) (parents : List (Option Nat)) : Prop
    extends g.Linked entry parents where
  dominators : forall v a, Known parents v -> Dominates g.Edge entry a v ->
    Above entry parents a v
  /-- The point where the ways up from the predecessors meet is at least as high as the
  candidate. -/
  overdue : forall v u x, v ≠ entry -> parents[v]? = some (some u) ->
    (forall p, g.Edge p v -> Known parents p -> Above entry parents x p) ->
      g.rank entry u ≤ g.rank entry x

structure Passed (g : Digraph α) (entry : Nat) (parents : List (Option Nat)) (q : Nat) : Prop where
  known : Known parents q
  within : forall p x, q ≠ entry -> g.Falls entry p q -> Above entry parents x q ->
    x = q ∨ Above entry parents x p

theorem above_start_of_path {start p : Nat} {met : List Nat}
    (hpath : Path (g.Falls entry) start met p)
    (hmet : forall q, q ∈ met -> q ≠ entry ∧ g.Passed entry parents q)
    (h : Above entry parents x p) : Above entry parents x start ∨ x ∈ met := by
  induction hpath with
  | nil _ => exact Or.inl h
  | @cons a b c rest hstep _ ih =>
      rcases hmet b List.mem_cons_self with ⟨hne, hpassed⟩
      rcases ih (fun q hq => hmet q (List.mem_cons_of_mem b hq)) h with hb | hrest
      · rcases hpassed.within a x hne hstep hb with rfl | ha
        · exact Or.inr List.mem_cons_self
        · exact Or.inl ha
      · exact Or.inr (List.mem_cons_of_mem b hrest)

/-- A pass has come to `v`, and the ways up from the predecessors of `v` meet in `m`. -/
structure Turn (g : Digraph α) (entry : Nat) (parents : List (Option Nat)) (v m : Nat) : Prop where
  converging : g.Converging entry parents
  listed : v ∈ g.postorder entry
  inner : v ≠ entry
  higher : forall q, q ∈ g.postorder entry -> g.rank entry v < g.rank entry q ->
    g.Passed entry parents q
  summit : Summit entry parents (g.preds v) (some m)

theorem listed_of_path (hg : g.Closed) (hentry : entry < g.size) {start p : Nat} {met : List Nat}
    (hpath : Path (g.Falls entry) start met p) :
    forall q, q ∈ met -> q ∈ g.postorder entry := by
  induction hpath with
  | nil _ => simp
  | cons hstep _ ih =>
      intro q hq
      rcases List.mem_cons.mp hq with rfl | hq
      · exact mem_postorder_of_edge hg hentry hstep.listed hstep.edge
      · exact ih q hq

namespace Turn

variable (h : g.Turn entry parents v m)
include h

theorem lt_length (hg : g.Closed) (hentry : entry < g.size) : v < parents.length := by
  rw [h.converging.size]
  exact lt_size_of_mem_postorder hg hentry h.listed

theorem above_falling {p : Nat} (hp : g.Falls entry p v) (hx : Above entry parents x m) :
    Above entry parents x p :=
  (h.summit.right x).mp hx p (mem_preds_iff.mpr hp.edge) (h.higher p hp.listed hp.lower).known

section Closed

variable (hg : g.Closed) (hentry : entry < g.size)
include hg hentry

theorem rank_lt : g.rank entry v < g.rank entry m := by
  rcases exists_falls hg hentry h.listed h.inner with ⟨p, hp⟩
  exact Nat.lt_of_lt_of_le hp.lower (h.converging.rank_le (h.above_falling hp .self))

theorem not_above : ¬ Above entry parents v m := by
  intro habove
  exact absurd (h.converging.rank_le habove) (Nat.not_le.mpr (h.rank_lt hg hentry))

theorem above_old {u : Nat} (hlink : parents[v]? = some (some u)) : Above entry parents m u := by
  rcases h.converging.falls v u h.inner hlink with ⟨hu, met, p, hpath, hlast⟩
  have hcandidate : g.rank entry u ≤ g.rank entry m := by
    apply h.converging.overdue v u m h.inner hlink
    intro q hq hknown
    exact (h.summit.right m).mp .self q (mem_preds_iff.mpr hq) hknown
  have hmet : forall q, q ∈ met -> q ≠ entry ∧ g.Passed entry parents q := by
    intro q hq
    rcases (rank_le_of_path hpath).right q hq with ⟨hfrom, hto⟩
    have htop := rank_le_entry hg hentry (h.converging.listed u hu)
    have hlower := hlast.lower
    constructor
    · intro hsame
      rw [hsame] at hto
      omega
    · exact h.higher q (listed_of_path hg hentry hpath q hq) (by omega)
  rcases above_start_of_path hpath hmet (h.above_falling hlast .self) with hold | hmem
  · exact hold
  · exact absurd ((rank_le_of_path hpath).right m hmem).right (Nat.not_lt.mpr hcandidate)

theorem above_of_known (hw : Known parents w) (hx : Above entry (moved parents v m) x w) :
    Above entry parents x w := by
  by_cases hold : Known parents v
  · rcases hold with ⟨u, hlink⟩
    exact above_of_moved (h.lt_length hg hentry) h.inner hlink (h.above_old hg hentry hlink) hx
  · have hapart : ¬ Above entry parents v w := fun habove =>
      hold (h.converging.known_of_above habove hw)
    exact (above_moved_iff hapart).mp hx

theorem linked_moved : g.Linked entry (moved parents v m) := by
  have hlength := h.lt_length hg hentry
  constructor
  case size => exact (List.length_set ..).trans h.converging.size
  case root => exact (moved_other h.inner.symm).trans h.converging.root
  case listed =>
    intro w hw
    by_cases hsame : w = v
    · exact hsame ▸ h.listed
    · rcases hw with ⟨u, hu⟩
      exact h.converging.listed w ⟨u, (moved_other hsame).symm.trans hu⟩
  case falls =>
    intro w u hinner hlink
    by_cases hsame : w = v
    · subst hsame
      cases (moved_self hlength).symm.trans hlink
      rcases exists_falls hg hentry h.listed h.inner with ⟨p, hp⟩
      rcases h.converging.path_of_above (h.above_falling hp .self) with ⟨met, hpath⟩
      exact ⟨known_moved hlength h.summit.left, met, p, hpath, hp⟩
    · rw [moved_other hsame] at hlink
      rcases h.converging.falls w u hinner hlink with ⟨hknown, hfalls⟩
      exact ⟨known_moved hlength hknown, hfalls⟩

theorem above_moved_of_dominates {a : Nat} (ha : Dominates g.Edge entry a v) :
    Above entry (moved parents v m) a v := by
  by_cases hsame : a = v
  · exact hsame ▸ .self
  · have habove : Above entry parents a m := by
      apply (h.summit.right a).mpr
      intro p hp hknown
      apply h.converging.dominators p a hknown
      have hedge : Path g.Edge p [v] v := Path.cons (mem_preds_iff.mp hp) (Path.nil v)
      exact dominates_start ha hedge (by simpa using hsame)
    refine .up h.inner (moved_self (h.lt_length hg hentry)) ?_
    exact (above_moved_iff (h.not_above hg hentry)).mpr habove

theorem dominators_moved (w a : Nat) (hw : Known (moved parents v m) w)
    (ha : Dominates g.Edge entry a w) : Above entry (moved parents v m) a w := by
  by_cases hsame : w = v
  · subst hsame
    exact h.above_moved_of_dominates hg hentry ha
  · have hknown : Known parents w := by
      rcases hw with ⟨u, hu⟩
      exact ⟨u, (moved_other hsame).symm.trans hu⟩
    have hold := h.converging.dominators w a hknown ha
    clear hw hsame hknown
    induction hold with
    | self => exact .self
    | @up u w hinner hlink hup ih =>
        by_cases hsame : w = v
        · subst hsame
          exact h.above_moved_of_dominates hg hentry ha
        · refine .up hinner ((moved_other hsame).trans hlink) ?_
          by_cases htop : a = u
          · exact htop ▸ .self
          · -- The path from the candidate down to `w` is too low to meet the dominator.
            rcases (h.converging.falls w u hinner hlink).right with ⟨met, p, hpath, hlast⟩
            have hfall := path_snoc hpath hlast
            have hhigh := h.converging.rank_lt_of_above hup htop
            have hmissed : a ∉ met ++ [w] := by
              intro hmem
              exact absurd ((rank_le_of_path hfall).right a hmem).right
                (Nat.not_lt.mpr (Nat.le_of_lt hhigh))
            apply ih
            exact dominates_start ha (path_mono (fun _ _ hstep => hstep.edge) hfall) hmissed

theorem converging_moved : g.Converging entry (moved parents v m) := by
  have hlength := h.lt_length hg hentry
  refine ⟨h.linked_moved hg hentry, h.dominators_moved hg hentry, ?_⟩
  intro w u x hinner hlink hx
  have hold : forall p, g.Edge p w -> Known parents p -> Above entry parents x p := by
    intro p hp hknown
    exact h.above_of_known hg hentry hknown (hx p hp (known_moved hlength hknown))
  by_cases hsame : w = v
  · subst hsame
    cases (moved_self hlength).symm.trans hlink
    apply h.converging.rank_le
    apply (h.summit.right x).mpr
    intro p hp hknown
    exact hold p (mem_preds_iff.mp hp) hknown
  · rw [moved_other hsame] at hlink
    exact h.converging.overdue w u x hinner hlink hold

theorem passed_moved {q : Nat} (hq : q ∈ g.postorder entry)
    (hrank : g.rank entry v ≤ g.rank entry q) : g.Passed entry (moved parents v m) q := by
  have hlength := h.lt_length hg hentry
  have hapart : forall w, g.rank entry v < g.rank entry w -> ¬ Above entry parents v w := by
    intro w hw habove
    exact absurd (h.converging.rank_le habove) (Nat.not_le.mpr hw)
  by_cases hsame : q = v
  · subst hsame
    refine ⟨⟨m, moved_self hlength⟩, ?_⟩
    intro p x _ hp hx
    rcases above_cases (moved_self hlength) hx with rfl | hx
    · exact Or.inl rfl
    · rw [above_moved_iff (h.not_above hg hentry)] at hx
      exact Or.inr ((above_moved_iff (hapart p hp.lower)).mpr (h.above_falling hp hx))
  · have hhigher : g.rank entry v < g.rank entry q :=
      Nat.lt_of_le_of_ne hrank fun heq => hsame (rank_inj h.listed heq).symm
    have hpassed := h.higher q hq hhigher
    refine ⟨known_moved hlength hpassed.known, ?_⟩
    intro p x hinner hp hx
    rw [above_moved_iff (hapart q hhigher)] at hx
    rw [above_moved_iff (hapart p (Nat.lt_trans hhigher hp.lower))]
    exact hpassed.within p x hinner hp hx

end Closed
end Turn

/-!
# Passes
-/

def progress (g : Digraph α) (entry : Nat) (parents : List (Option Nat)) : Nat :=
  ∑ v ∈ Finset.range g.size, (parents[v]?.join).elim 0 fun u => g.rank entry u + 1

def Steady (g : Digraph α) (entry : Nat) (parents : List (Option Nat)) (v : Nat) : Prop :=
  exists m, parents[v]? = some (some m) ∧ Summit entry parents (g.preds v) (some m)

theorem progress_le (g : Digraph α) (entry : Nat) (parents : List (Option Nat)) :
    g.progress entry parents ≤ g.size * ((g.postorder entry).length + 1) := by
  have hterm : forall v, v ∈ Finset.range g.size ->
      (parents[v]?.join).elim 0 (fun u => g.rank entry u + 1) ≤ (g.postorder entry).length + 1 := by
    intro v _
    cases parents[v]?.join with
    | none => exact Nat.zero_le _
    | some u => exact Nat.succ_le_succ List.idxOf_le_length
  calc g.progress entry parents
      ≤ (Finset.range g.size).card • ((g.postorder entry).length + 1) :=
        Finset.sum_le_card_nsmul _ _ _ hterm
    _ = g.size * ((g.postorder entry).length + 1) := by rw [Finset.card_range]; rfl

section Passes

variable (hg : g.Closed) (hentry : entry < g.size)
include hg hentry

theorem progress_lt (h : g.Turn entry parents v m) (hnew : parents[v]? ≠ some (some m)) :
    g.progress entry parents < g.progress entry (moved parents v m) := by
  have hlength := h.lt_length hg hentry
  have hgain : (parents[v]?.join).elim 0 (fun u => g.rank entry u + 1) < g.rank entry m + 1 := by
    cases hold : parents[v]?.join with
    | none => exact Nat.succ_pos _
    | some u =>
        have hlink : parents[v]? = some (some u) := Option.join_eq_some_iff.mp hold
        have hne : m ≠ u := fun hsame => hnew (hsame ▸ hlink)
        exact Nat.succ_lt_succ (h.converging.rank_lt_of_above (h.above_old hg hentry hlink) hne)
  apply Finset.sum_lt_sum
  · intro w _
    by_cases hsame : w = v
    · subst hsame
      rw [moved_self hlength]
      exact Nat.le_of_lt hgain
    · rw [moved_other hsame]
  · refine ⟨v, Finset.mem_range.mpr (h.converging.size ▸ hlength), ?_⟩
    rw [moved_self hlength]
    exact hgain

variable {table : List Nat} (htable : g.Ranks entry table)
include htable

theorem exists_turn (ht : g.Converging entry parents) (hv : v ∈ g.postorder entry)
    (hinner : v ≠ entry)
    (hhigher : forall q, q ∈ g.postorder entry -> g.rank entry v < g.rank entry q ->
      g.Passed entry parents q) :
    exists m, ((g.preds v).foldlM (weigh parents table) none).Ends (some m) ∧
      g.Turn entry parents v m := by
  have hpreds : forall p, p ∈ g.preds v -> p < g.size := fun p hp =>
    (hg (mem_preds_iff.mp hp)).left
  have hnothing : Summit entry parents [] none := by
    intro p hp
    cases hp
  rcases ends_foldlM_weigh hg hentry ht.toLinked htable hpreds hnothing with
    ⟨candidate, hcandidate, hsummit⟩
  rw [List.nil_append] at hsummit
  rcases exists_falls hg hentry hv hinner with ⟨p, hp⟩
  have hknown := (hhigher p hp.listed hp.lower).known
  cases candidate with
  | none => exact absurd hknown (hsummit p (mem_preds_iff.mpr hp.edge))
  | some m => exact ⟨m, hcandidate, ht, hv, hinner, hhigher, hsummit⟩

theorem ends_refine (ht : g.Converging entry parents) (hv : v ∈ g.postorder entry)
    (hhigher : forall q, q ∈ g.postorder entry -> g.rank entry v < g.rank entry q ->
      g.Passed entry parents q) (changed : Bool) :
    exists next flag,
      (refine g.preds entry table (parents, changed) v).Ends (next, flag) ∧
        g.Converging entry next ∧
        (forall q, q ∈ g.postorder entry -> g.rank entry v ≤ g.rank entry q ->
          g.Passed entry next q) ∧
        ((next = parents ∧ flag = changed ∧ (v ≠ entry -> g.Steady entry parents v)) ∨
          (flag = true ∧ g.progress entry parents < g.progress entry next)) := by
  unfold refine
  by_cases hne : v = entry
  · rw [if_pos hne]
    refine ⟨parents, changed, ends_pure _, ht, ?_, Or.inl ⟨rfl, rfl, fun h => absurd hne h⟩⟩
    intro q hq hrank
    by_cases hsame : q = entry
    · rw [hsame]
      exact ⟨ht.known_entry, fun _ _ hinner => absurd rfl hinner⟩
    · apply hhigher q hq (Nat.lt_of_le_of_ne hrank _)
      intro heq
      exact hsame ((rank_inj hv heq).symm.trans hne)
  · rw [if_neg hne]
    rcases exists_turn hg hentry htable ht hv hne hhigher with ⟨m, hcandidate, hturn⟩
    have hlength := hturn.lt_length hg hentry
    have hpassed := fun q => hturn.passed_moved hg hentry (q := q)
    rcases exists_entryAt hlength with ⟨old, hold, hlookup⟩
    by_cases hsame : old = some m
    · subst hsame
      rw [moved_eq_self hold] at hpassed
      refine ⟨parents, changed, hcandidate.bind ((ends_lift hlookup).bind ?_), ht, hpassed,
        Or.inl ⟨rfl, rfl, fun _ => ⟨m, hold, hturn.summit⟩⟩⟩
      rw [if_neg fun h => h.right rfl]
      exact ends_pure _
    · refine ⟨moved parents v m, true, hcandidate.bind ((ends_lift hlookup).bind ?_),
        hturn.converging_moved hg hentry, hpassed, Or.inr ⟨rfl, progress_lt hg hentry hturn ?_⟩⟩
      · rw [if_pos ⟨rfl, hsame⟩]
        exact (ends_lift (storeAt_of_lt hlength _)).bind (ends_pure _)
      · intro hlink
        cases hold.symm.trans hlink
        exact hsame rfl

omit htable in
theorem mem_before_iff {before rest : List Nat} {q : Nat}
    (hsplit : (g.postorder entry).reverse = before ++ v :: rest) (hq : q ∈ g.postorder entry) :
    q ∈ before <-> g.rank entry v < g.rank entry q := by
  have hnodup := nodup_postorder hg hentry
  have horder : g.postorder entry = (before ++ v :: rest).reverse := by
    rw [← hsplit, List.reverse_reverse]
  have hlower : forall a b, [a, b].Sublist (before ++ v :: rest) ->
      g.rank entry b < g.rank entry a := by
    intro a b hpair
    apply idxOf_lt_of_sublist hnodup
    rw [horder]
    exact List.reverse_sublist.mpr hpair
  have hbehind : forall w, w ∈ rest -> [v, w].Sublist (before ++ v :: rest) := by
    intro w hw
    exact ((List.singleton_sublist.mpr hw).cons_cons v).trans (List.sublist_append_right _ _)
  constructor
  · intro hmem
    apply hlower q v
    exact (List.singleton_sublist.mpr hmem).append (List.singleton_sublist.mpr List.mem_cons_self)
  · intro hrank
    rw [← List.mem_reverse, hsplit, List.mem_append, List.mem_cons] at hq
    rcases hq with hmem | rfl | hmem
    · exact hmem
    · exact absurd hrank (Nat.lt_irrefl _)
    · exact absurd (hlower v q (hbehind q hmem)) (Nat.lt_asymm hrank)

theorem ends_refineAll {before rest : List Nat}
    (hsplit : (g.postorder entry).reverse = before ++ rest) (ht : g.Converging entry parents)
    (hpassed : forall q, q ∈ before -> g.Passed entry parents q) (changed : Bool) :
    exists next flag,
      (rest.foldlM (refine g.preds entry table) (parents, changed)).Ends (next, flag) ∧
        g.Converging entry next ∧
        ((next = parents ∧ flag = changed ∧
            forall v, v ∈ rest -> v ≠ entry -> g.Steady entry parents v) ∨
          (flag = true ∧ g.progress entry parents < g.progress entry next)) := by
  induction rest generalizing before parents changed with
  | nil => exact ⟨parents, changed, ends_pure _, ht, Or.inl ⟨rfl, rfl, by simp⟩⟩
  | cons v rest ih =>
      have hv : v ∈ g.postorder entry := by
        rw [← List.mem_reverse, hsplit]
        simp
      have hhigher : forall q, q ∈ g.postorder entry -> g.rank entry v < g.rank entry q ->
          g.Passed entry parents q := fun q hq hrank =>
        hpassed q ((mem_before_iff hg hentry hsplit hq).mpr hrank)
      rcases ends_refine hg hentry htable ht hv hhigher changed with
        ⟨next, flag, hends, hnext, hdone, hstep⟩
      have hlisted : forall q, q ∈ before -> q ∈ g.postorder entry := by
        intro q hq
        rw [← List.mem_reverse, hsplit]
        exact List.mem_append_left _ hq
      have hpassed' : forall q, q ∈ before ++ [v] -> g.Passed entry next q := by
        intro q hq
        rcases List.mem_append.mp hq with hq | hq
        · have hrank := (mem_before_iff hg hentry hsplit (hlisted q hq)).mp hq
          exact hdone q (hlisted q hq) (Nat.le_of_lt hrank)
        · rw [List.mem_singleton.mp hq]
          exact hdone v hv (Nat.le_refl _)
      have hsplit' : (g.postorder entry).reverse = (before ++ [v]) ++ rest := by
        rw [hsplit, List.append_assoc, List.singleton_append]
      rcases ih hsplit' hnext hpassed' flag with ⟨last, flag', hends', hlast, hrest⟩
      refine ⟨last, flag', ?_, hlast, ?_⟩
      · rw [List.foldlM_cons]
        exact hends.bind hends'
      · rcases hstep with ⟨rfl, rfl, hsteady⟩ | ⟨rfl, hgain⟩
        · rcases hrest with ⟨rfl, rfl, hothers⟩ | hgain
          · refine Or.inl ⟨rfl, rfl, ?_⟩
            intro w hw hne
            rcases List.mem_cons.mp hw with rfl | hw
            · exact hsteady hne
            · exact hothers w hw hne
          · exact Or.inr hgain
        · rcases hrest with ⟨rfl, rfl, _⟩ | ⟨rfl, hmore⟩
          · exact Or.inr ⟨rfl, hgain⟩
          · exact Or.inr ⟨rfl, Nat.lt_trans hgain hmore⟩

theorem exists_stable (ht : g.Converging entry parents) :
    exists final,
      (untilStable (pass g.preds entry table (g.postorder entry)) parents).Ends final ∧
        g.Converging entry final ∧
        forall v, v ∈ g.postorder entry -> v ≠ entry -> g.Steady entry final v := by
  have hpass : forall parents, g.Converging entry parents ->
      exists next flag,
        (pass g.preds entry table (g.postorder entry) parents).Ends (next, flag) ∧
          g.Converging entry next ∧
          ((next = parents ∧ flag = false ∧
              forall v, v ∈ (g.postorder entry).reverse -> v ≠ entry -> g.Steady entry parents v) ∨
            (flag = true ∧ g.progress entry parents < g.progress entry next)) := by
    intro parents ht
    have hsplit : (g.postorder entry).reverse = [] ++ (g.postorder entry).reverse := rfl
    exact ends_refineAll hg hentry htable hsplit ht (by simp) false
  let Good (k : Nat) (parents : List (Option Nat)) : Prop :=
    g.Converging entry parents ∧ k ≤ g.progress entry parents
  have hgood : forall k parents, Good k parents -> exists next flag,
      (pass g.preds entry table (g.postorder entry) parents).Ends (next, flag) ∧
        (flag = true -> k < g.size * ((g.postorder entry).length + 1) ∧ Good (k + 1) next) := by
    intro k parents hk
    rcases hpass parents hk.left with ⟨next, flag, hends, hnext, hcases⟩
    refine ⟨next, flag, hends, ?_⟩
    intro hflag
    rcases hcases with ⟨_, hfalse, _⟩ | ⟨_, hgain⟩
    · rw [hflag] at hfalse
      cases hfalse
    · have hbound := progress_le g entry next
      have hcount := hk.right
      exact ⟨by omega, hnext, by omega⟩
  have hstart : Good 0 parents := ⟨ht, Nat.zero_le _⟩
  rcases exists_ends_untilStable hgood hstart with ⟨_, last, final, hlast, hends, hresult⟩
  rcases hpass last hlast.left with ⟨next, flag, hends', _, hcases⟩
  cases hends.unique hends'
  rcases hcases with ⟨rfl, _, hsteady⟩ | ⟨hflag, _⟩
  · refine ⟨final, hresult, hlast.left, ?_⟩
    intro v hv
    exact hsteady v (List.mem_reverse.mpr hv)
  · cases hflag

omit htable in
theorem converging_start :
    g.Converging entry ((List.replicate g.size none).set entry (some entry)) := by
  have hlength : entry < (List.replicate g.size (none : Option Nat)).length := by
    simpa using hentry
  have hself := moved_self hlength (m := entry)
  have honly : forall v u, (moved (List.replicate g.size none) entry entry)[v]? = some (some u) ->
      v = entry := by
    intro v u hlink
    by_contra hne
    rw [moved_other hne, List.getElem?_replicate] at hlink
    split at hlink
    · cases hlink
    · cases hlink
  refine ⟨⟨by simp, hself, ?_, ?_⟩, ?_, ?_⟩
  · rintro v ⟨u, hlink⟩
    rw [honly v u hlink]
    exact mem_postorder_entry hg hentry
  · intro v u hinner hlink
    exact absurd (honly v u hlink) hinner
  · rintro v a ⟨u, hlink⟩ ha
    have hv := honly v u hlink
    subst hv
    rw [List.mem_singleton.mp (ha [] (Path.nil v))]
    exact .self
  · intro v u x hinner hlink
    exact absurd (honly v u hlink) hinner

end Passes

/-!
# The result
-/

section Result

variable (hg : g.Closed) (hentry : entry < g.size) (ht : g.Converging entry parents)
  (hsteady : forall v, v ∈ g.postorder entry -> v ≠ entry -> g.Steady entry parents v)
include hg hentry ht hsteady

omit hg hentry in
theorem known_of_mem_postorder (hv : v ∈ g.postorder entry) : Known parents v := by
  by_cases hsame : v = entry
  · exact hsame ▸ ht.known_entry
  · rcases hsteady v hv hsame with ⟨m, hlink, _⟩
    exact ⟨m, hlink⟩

/-- When every node is steady, what lies above a node dominates it: along a path it lies above one
node after the other until it is met. -/
theorem dominates_of_above (habove : Above entry parents x v) : Dominates g.Edge entry x v := by
  intro met hpath
  induction met using List.reverseRecOn generalizing v with
  | nil =>
      cases hpath
      exact List.mem_singleton.mpr (eq_of_above_entry habove)
  | append_singleton before last ih =>
      rcases path_append_split hpath with ⟨p, hbefore, hlast⟩
      cases hlast with
      | cons hedge hnil =>
          cases hnil
          by_cases hsame : x = last
          · rw [hsame]
            simp
          · have hne : last ≠ entry := by
              intro hlast
              rw [hlast] at habove hsame
              exact hsame (eq_of_above_entry habove)
            have hp : p ∈ g.postorder entry := (mem_postorder_iff hg hentry).mpr ⟨before, hbefore⟩
            rcases hsteady last (mem_postorder_of_edge hg hentry hp hedge) hne with
              ⟨m, hlink, hsummit⟩
            have hm := (above_cases hlink habove).resolve_left hsame
            have hknown := known_of_mem_postorder ht hsteady hp
            have hmet := ih ((hsummit.right x).mp hm p (mem_preds_iff.mpr hedge) hknown) hbefore
            rw [← List.cons_append]
            exact List.mem_append_left _ hmet

theorem immediate_eq (v : Nat) (hne : v ≠ entry) :
    parents[v]?.join = (g.dominatorTree entry).immediate v := by
  by_cases hv : v ∈ g.postorder entry
  · rcases hsteady v hv hne with ⟨u, hlink, hsummit⟩
    have hu := (ht.falls v u hne hlink).left
    have hdominates := dominates_of_above hg hentry ht hsteady (.up hne hlink .self)
    have hparent : ImmediatelyDominates g.Edge entry u v := by
      refine ⟨⟨?_, (mem_postorder_iff hg hentry).mp hv, hdominates⟩, ?_⟩
      · intro hsame
        exact absurd (ht.rank_lt hne hlink) (hsame ▸ Nat.lt_irrefl _)
      · intro c hc _
        have habove := ht.dominators v c ⟨u, hlink⟩ hc.dominates
        exact dominates_of_above hg hentry ht hsteady
          ((above_cases hlink habove).resolve_left hc.distinct)
    rw [hlink, (immediate_eq_some_iff hg hentry).mpr hparent]
    rfl
  · have hnone : (g.dominatorTree entry).immediate v = none :=
      (immediate_eq_none_iff hg hentry).mpr
        (Or.inr fun hreach => hv ((mem_postorder_iff hg hentry).mpr hreach))
    rw [hnone, Option.eq_none_iff_forall_ne_some]
    intro u hu
    exact hv (ht.listed v ⟨u, Option.join_eq_some_iff.mp hu⟩)

end Result

theorem getElem?_parents (hv : v < g.size) :
    (g.dominatorTree entry).parents[v]? = some ((g.above entry v).find? fun a =>
      (g.above entry a).length + 1 = (g.above entry v).length) := by
  have hlength : forall a, ((g.strictDominators entry)[a]?.map List.length).getD 0 =
      (g.above entry a).length := fun a => Option.getD_map List.length [] _
  have hfound : exists found, (g.strictDominators entry)[v]? = some found := by
    rw [strictDominators_eq, List.getElem?_map, List.getElem?_range hv]
    exact ⟨_, rfl⟩
  rcases hfound with ⟨found, hfound⟩
  have habove : g.above entry v = found := by
    rw [above, hfound]
    rfl
  unfold dominatorTree
  simp only [hlength, List.getElem?_map]
  rw [hfound, habove]
  rfl

theorem getElem?_parents_of_ne (hne : v ≠ entry) (hv : v < g.size) :
    (g.dominatorTree entry).parents[v]? = some ((g.dominatorTree entry).immediate v) := by
  rw [immediate_eq_find?, if_neg hne, getElem?_parents hv]

theorem getElem?_parents_entry (hg : g.Closed) (hentry : entry < g.size) :
    (g.dominatorTree entry).parents[entry]? = some none := by
  have hnone : g.above entry entry = [] := by
    apply List.eq_nil_iff_forall_not_mem.mpr
    intro a ha
    exact not_strictlyDominates_entry ((mem_above_iff hg hentry).mp ha)
  rw [getElem?_parents hentry, hnone]
  rfl

theorem parents_of_le (h : g.size ≤ entry) :
    (g.dominatorTree entry).parents = List.replicate g.size none := by
  have hreached : g.reached entry = [] := by
    apply List.eq_nil_iff_forall_not_mem.mpr
    intro v hv
    rcases Search.mem_sweep_iff.mp hv with ⟨root, hroot, hpool, _⟩
    rw [List.mem_singleton.mp hroot, List.mem_range] at hpool
    exact absurd hpool (Nat.not_lt.mpr h)
  apply List.ext_getElem?
  intro v
  by_cases hv : v < g.size
  · have hnone : g.above entry v = [] := by
      rw [above_eq, hreached]
      simp
    rw [getElem?_parents hv, hnone, List.getElem?_replicate, if_pos hv]
    rfl
  · have hlength : (g.dominatorTree entry).parents.length = g.size := size_dominatorTree g entry
    rw [List.getElem?_eq_none (by omega), List.getElem?_replicate, if_neg hv]

theorem ends_computeDominators (hg : g.Closed) (entry : Nat) :
    (g.computeDominators entry).Ends (g.dominatorTree entry) := by
  unfold computeDominators
  by_cases hoff : g.size ≤ entry
  · rw [if_pos hoff, ← parents_of_le hoff]
    exact ends_pure _
  · rw [if_neg hoff]
    have hentry := Nat.lt_of_not_le hoff
    rcases exists_ranks hg hentry with ⟨table, htable, hranks⟩
    rcases exists_stable hg hentry hranks (converging_start hg hentry) with
      ⟨final, hfinal, ht, hsteady⟩
    have hsize : entry < (List.replicate g.size (none : Option Nat)).length := by
      simpa using hentry
    have hresult : (g.dominatorTree entry).parents = final.set entry none := by
      apply List.ext_getElem?
      intro v
      by_cases hne : v = entry
      · rw [hne, getElem?_parents_entry hg hentry,
          List.getElem?_set_self (ht.size ▸ hentry)]
      · rw [List.getElem?_set_ne (Ne.symm hne)]
        by_cases hv : v < g.size
        · rw [getElem?_parents_of_ne hne hv, ← immediate_eq hg hentry ht hsteady v hne,
            List.getElem?_eq_getElem (ht.size ▸ hv)]
          rfl
        · have hlength : (g.dominatorTree entry).parents.length = g.size :=
            size_dominatorTree g entry
          have hfinal := ht.size
          rw [List.getElem?_eq_none (by omega), List.getElem?_eq_none (by omega)]
    refine (ends_lift (stackPostorder_eq hg entry)).bind ?_
    refine (ends_lift htable).bind ?_
    refine (ends_lift (storeAt_of_lt hsize _)).bind ?_
    refine hfinal.bind ((ends_lift (storeAt_of_lt (ht.size ▸ hentry) _)).bind ?_)
    rw [← hresult]
    exact ends_pure _

theorem dominator_tree_exact (hg : g.Built) (hentry : entry < g.size) :
    (g.computeDominators entry).Ends (g.dominatorTree entry) ∧
    (forall a b, (g.dominatorTree entry).dominates a b = true <->
      a = b ∨ (Reaches g.Edge entry b ∧ Dominates g.Edge entry a b)) ∧
    (forall b, (g.dominatorTree entry).immediate b = none <->
      b = entry ∨ ¬ Reaches g.Edge entry b) ∧
    forall b d, (g.dominatorTree entry).immediate b = some d <->
      ImmediatelyDominates g.Edge entry d b := by
  have hclosed : g.Closed := closed_of_built hg
  refine ⟨ends_computeDominators hclosed entry, ?_, ?_, ?_⟩
  · intro a b
    exact dominates_iff hclosed hentry
  · intro b
    exact immediate_eq_none_iff hclosed hentry
  · intro b d
    exact immediate_eq_some_iff hclosed hentry

/-!
Two nodes that lead to each other and are both entered from outside, a node that leads to itself, an
edge back into the entry and an edge from a node that is not reached.
-/

def knot : Digraph Unit :=
  ⟨List.replicate 6 (),
    [(0, 1), (0, 2), (1, 2), (2, 1), (2, 3), (3, 3), (3, 4), (4, 0), (5, 4)]⟩

theorem knot_dominators :
    knot.Built ∧
      (knot.computeDominators 0).Ends ⟨0, [none, some 0, some 0, some 2, some 3, none]⟩ ∧
      ImmediatelyDominates knot.Edge 0 3 4 ∧ Dominates knot.Edge 0 2 4 ∧
      ¬ Dominates knot.Edge 0 1 4 ∧ ¬ Reaches knot.Edge 0 5 := by
  have hnodes : (⟨List.replicate 6 (), []⟩ : Digraph Unit).Built :=
    .node () (.node () (.node () (.node () (.node () (.node () .empty)))))
  have hedges : (⟨List.replicate 6 (), []⟩ : Digraph Unit).addEdges knot.edges = .ok knot := rfl
  have hentry : 0 < knot.size := by decide
  have hbuilt : knot.Built := built_addEdges hnodes hedges
  have htree : knot.dominatorTree 0 = ⟨0, [none, some 0, some 0, some 2, some 3, none]⟩ := by
    decide +kernel
  rcases dominator_tree_exact hbuilt hentry with ⟨hends, hdom, hnone, hsome⟩
  have hsecond := (hdom 2 4).mp (by decide +kernel)
  refine ⟨hbuilt, htree ▸ hends, (hsome 4 3).mp (by decide +kernel), ?_, ?_, ?_⟩
  · exact (hsecond.resolve_left (by decide)).right
  · intro h
    have hmem := (hdom 1 4).mpr (Or.inr ⟨(hsecond.resolve_left (by decide)).left, h⟩)
    exact absurd hmem (by decide +kernel)
  · exact ((hnone 5).mp (by decide +kernel)).resolve_left (by decide)

end Digraph
end SafeRestart
