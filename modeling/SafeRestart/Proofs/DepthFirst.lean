import Mathlib.Data.List.Nodup
import SafeRestart.Graph.Postorder
import SafeRestart.Proofs.Dominance

/-!
# Depth-first exploration

An exploration meets a node, explores its successors one after the other and then finishes the node.
Between the two the node is open.  The open nodes lead to the node that is explored next, so a
successor that is met but not finished leads back to where it was met from.  All other successors of
a node are finished before it.
-/

namespace SafeRestart

theorem reaches_refl {α : Type} (R : α -> α -> Prop) (a : α) : Reaches R a a := ⟨[], Path.nil a⟩

theorem reaches_step {α : Type} {R : α -> α -> Prop} {a b c : α} (h : Reaches R a b)
    (hstep : R b c) : Reaches R a c := by
  rcases h with ⟨met, hpath⟩
  exact ⟨met ++ [c], path_snoc hpath hstep⟩

theorem reaches_trans {α : Type} {R : α -> α -> Prop} {a b c : α} (hab : Reaches R a b)
    (hbc : Reaches R b c) : Reaches R a c := by
  rcases hab with ⟨before, hbefore⟩
  rcases hbc with ⟨after, hafter⟩
  exact ⟨before ++ after, path_append hbefore hafter⟩

namespace DepthFirst

variable {succs : Nat -> List Nat} {p q r : Progress} {v w x n depth : Nat} {roots : List Nat}

def Link (succs : Nat -> List Nat) (x y : Nat) : Prop := y ∈ succs x

/-!
# Enough depth
-/

def unmet (n : Nat) (seen : List Nat) : List Nat := (List.range n).filter fun x => x ∉ seen

theorem mem_unmet_iff {seen : List Nat} : x ∈ unmet n seen <-> x < n ∧ x ∉ seen := by
  simp [unmet]

theorem unmet_nil (n : Nat) : unmet n [] = List.range n := by
  simp [unmet]

theorem unmet_cons (n v : Nat) (seen : List Nat) :
    unmet n (v :: seen) = (unmet n seen).erase v := by
  have hnodup : (unmet n seen).Nodup := List.nodup_range.filter _
  rw [hnodup.erase_eq_filter]
  unfold unmet
  rw [List.filter_filter]
  apply List.filter_congr
  intro x _
  by_cases hx : x = v
  · simp [hx]
  · simp [hx]

theorem length_unmet_cons {seen : List Nat} (hv : v < n) (hnew : v ∉ seen) :
    (unmet n (v :: seen)).length + 1 = (unmet n seen).length := by
  rw [unmet_cons]
  exact List.length_erase_add_one (mem_unmet_iff.mpr ⟨hv, hnew⟩)

theorem length_unmet_le {seen seen' : List Nat} (h : forall x, x ∈ seen -> x ∈ seen') :
    (unmet n seen').length ≤ (unmet n seen).length := by
  unfold unmet
  rw [← List.countP_eq_length_filter, ← List.countP_eq_length_filter]
  apply List.countP_mono_left
  intro x _ hx
  simp only [decide_eq_true_eq] at hx ⊢
  exact fun hmem => hx (h x hmem)

theorem mem_seen_of_unmet {seen : List Nat} (h : (unmet n seen).length ≤ 0) (hv : v < n) :
    v ∈ seen := by
  by_contra hnew
  have hmem := mem_unmet_iff.mpr ⟨hv, hnew⟩
  rw [List.length_eq_zero_iff.mp (Nat.le_zero.mp h)] at hmem
  cases hmem

theorem explore_of_mem (depth : Nat) (h : v ∈ p.seen) : explore succs depth p v = p := by
  cases depth with
  | zero => rfl
  | succ depth => rw [explore, if_pos h]

theorem explore_of_not_mem (depth : Nat) (h : v ∉ p.seen) :
    explore succs (depth + 1) p v =
      ⟨((succs v).foldl (explore succs depth) ⟨v :: p.seen, p.finished⟩).seen,
        v :: ((succs v).foldl (explore succs depth) ⟨v :: p.seen, p.finished⟩).finished⟩ := by
  rw [explore, if_neg h]

theorem mem_seen_explore (h : x ∈ p.seen) : x ∈ (explore succs depth p v).seen := by
  induction depth generalizing p v with
  | zero => exact h
  | succ depth ih =>
      by_cases hv : v ∈ p.seen
      · rw [explore_of_mem _ hv]
        exact h
      · rw [explore_of_not_mem depth hv]
        show x ∈ ((succs v).foldl (explore succs depth) ⟨v :: p.seen, p.finished⟩).seen
        apply List.foldlRecOn (succs v) (explore succs depth)
          (motive := fun q => x ∈ q.seen) (List.mem_cons_of_mem v h)
        intro q hq w _
        exact ih hq

theorem foldl_explore_congr {depth' : Nat} {nodes : List Nat}
    (hsame : forall (q : Progress) (w : Nat), w < n -> (unmet n q.seen).length ≤ depth ->
      explore succs depth' q w = explore succs depth q w)
    (hnodes : forall w, w ∈ nodes -> w < n) (hdepth : (unmet n p.seen).length ≤ depth) :
    nodes.foldl (explore succs depth') p = nodes.foldl (explore succs depth) p := by
  induction nodes generalizing p with
  | nil => rfl
  | cons w rest ih =>
      rw [List.foldl_cons, List.foldl_cons, hsame p w (hnodes w List.mem_cons_self) hdepth]
      apply ih
      · exact fun w hw => hnodes w (List.mem_cons_of_mem _ hw)
      · exact Nat.le_trans (length_unmet_le fun x hx => mem_seen_explore hx) hdepth

section Closed

variable (hclosed : forall x y, y ∈ succs x -> y < n)
include hclosed

/-- With as much depth as there are nodes left to be met, more depth changes nothing. -/
theorem explore_enough (more : Nat) (hv : v < n) (hdepth : (unmet n p.seen).length ≤ depth) :
    explore succs (depth + more) p v = explore succs depth p v := by
  induction depth generalizing p v with
  | zero =>
      have hmem := mem_seen_of_unmet hdepth hv
      rw [explore_of_mem _ hmem, explore_of_mem _ hmem]
  | succ depth ih =>
      by_cases hmem : v ∈ p.seen
      · rw [explore_of_mem _ hmem, explore_of_mem _ hmem]
      · have hleft := length_unmet_cons hv hmem
        rw [Nat.add_right_comm, explore_of_not_mem _ hmem, explore_of_not_mem _ hmem,
          foldl_explore_congr (fun q w => ih) (hclosed v) (by dsimp only; omega)]

theorem explore_of_new (hv : v < n) (hnew : v ∉ p.seen)
    (hdepth : (unmet n p.seen).length ≤ depth) :
    explore succs depth p v =
      ⟨((succs v).foldl (explore succs depth) ⟨v :: p.seen, p.finished⟩).seen,
        v :: ((succs v).foldl (explore succs depth) ⟨v :: p.seen, p.finished⟩).finished⟩ := by
  cases depth with
  | zero => exact absurd (mem_seen_of_unmet hdepth hv) hnew
  | succ depth =>
      have hleft := length_unmet_cons hv hnew
      rw [explore_of_not_mem depth hnew,
        foldl_explore_congr (fun q w => explore_enough hclosed 1) (hclosed v)
          (by dsimp only; omega)]

end Closed

/-!
# What an exploration finishes
-/

structure Sound (succs : Nat -> List Nat) (p : Progress) : Prop where
  once : p.finished.Nodup
  met : forall x, x ∈ p.finished -> x ∈ p.seen
  settled : forall x y, x ∈ p.finished -> y ∈ succs x ->
    [x, y].Sublist p.finished ∨ (y ∈ p.seen ∧ Reaches (Link succs) y x)

def LeadsTo (succs : Nat -> List Nat) (p : Progress) (v : Nat) : Prop :=
  forall x, x ∈ p.seen -> x ∉ p.finished -> Reaches (Link succs) x v

/-- Exploring the roots leads from `p` to `q` and finishes the nodes of `new`, the last one first.
Each of them is a root or the successor of a node finished after it. -/
structure Explores (succs : Nat -> List Nat) (roots : List Nat) (p q : Progress)
    (new : List Nat) : Prop where
  finished : q.finished = new ++ p.finished
  seen : forall x, x ∈ q.seen <-> x ∈ new ∨ x ∈ p.seen
  fresh : forall x, x ∈ new -> x ∉ p.seen
  entered : forall v, v ∈ roots -> v ∈ q.seen
  reached : forall x, x ∈ new -> exists v, v ∈ roots ∧ Reaches (Link succs) v x
  rooted : forall x, x ∈ new -> x ∈ roots ∨ exists u, x ∈ succs u ∧ [u, x].Sublist new

theorem explores_nothing (h : forall v, v ∈ roots -> v ∈ p.seen) :
    Explores succs roots p p [] := by
  refine ⟨rfl, ?_, ?_, h, ?_, ?_⟩
  · simp
  · simp
  · simp
  · simp

theorem explores_cons {new new' : List Nat} (hfirst : Explores succs [v] p q new)
    (hrest : Explores succs roots q r new') :
    Explores succs (v :: roots) p r (new' ++ new) := by
  constructor
  · rw [hrest.finished, hfirst.finished, List.append_assoc]
  · intro x
    rw [hrest.seen, hfirst.seen, List.mem_append, or_assoc]
  · intro x hx hold
    rcases List.mem_append.mp hx with hx | hx
    · exact hrest.fresh x hx ((hfirst.seen x).mpr (Or.inr hold))
    · exact hfirst.fresh x hx hold
  · intro w hw
    rcases List.mem_cons.mp hw with rfl | hw
    · exact (hrest.seen w).mpr (Or.inr (hfirst.entered w List.mem_cons_self))
    · exact hrest.entered w hw
  · intro x hx
    rcases List.mem_append.mp hx with hx | hx
    · rcases hrest.reached x hx with ⟨w, hw, hreach⟩
      exact ⟨w, List.mem_cons_of_mem v hw, hreach⟩
    · rcases hfirst.reached x hx with ⟨w, hw, hreach⟩
      rw [List.mem_singleton.mp hw] at hreach
      exact ⟨v, List.mem_cons_self, hreach⟩
  · intro x hx
    rcases List.mem_append.mp hx with hx | hx
    · rcases hrest.rooted x hx with hroot | ⟨u, hu, hlater⟩
      · exact Or.inl (List.mem_cons_of_mem v hroot)
      · exact Or.inr ⟨u, hu, hlater.trans (List.sublist_append_left new' new)⟩
    · rcases hfirst.rooted x hx with hroot | ⟨u, hu, hlater⟩
      · rw [List.mem_singleton.mp hroot]
        exact Or.inl List.mem_cons_self
      · exact Or.inr ⟨u, hu, hlater.trans (List.sublist_append_right new' new)⟩

theorem explores_node {new : List Nat} (hv : v ∉ p.seen)
    (hbelow : Explores succs (succs v) ⟨v :: p.seen, p.finished⟩ q new) :
    Explores succs [v] p ⟨q.seen, v :: q.finished⟩ (v :: new) := by
  constructor
  · rw [hbelow.finished, List.cons_append]
  · intro x
    rw [hbelow.seen, List.mem_cons, List.mem_cons]
    tauto
  · intro x hx hold
    rcases List.mem_cons.mp hx with rfl | hx
    · exact hv hold
    · exact hbelow.fresh x hx (List.mem_cons_of_mem v hold)
  · intro w hw
    rw [List.mem_singleton.mp hw]
    exact (hbelow.seen v).mpr (Or.inr List.mem_cons_self)
  · intro x hx
    refine ⟨v, List.mem_cons_self, ?_⟩
    rcases List.mem_cons.mp hx with rfl | hx
    · exact reaches_refl _ x
    · rcases hbelow.reached x hx with ⟨w, hw, hreach⟩
      exact reaches_trans (reaches_step (reaches_refl _ v) hw) hreach
  · intro x hx
    rcases List.mem_cons.mp hx with rfl | hx
    · exact Or.inl List.mem_cons_self
    · apply Or.inr
      rcases hbelow.rooted x hx with hroot | ⟨u, hu, hlater⟩
      · exact ⟨v, hroot, (List.singleton_sublist.mpr hx).cons_cons v⟩
      · exact ⟨u, hu, hlater.cons v⟩

theorem leadsTo_explored {new : List Nat} (h : Explores succs roots p q new)
    (hopen : LeadsTo succs p w) : LeadsTo succs q w := by
  intro x hx hunfinished
  rw [h.finished, List.mem_append, not_or] at hunfinished
  exact hopen x (((h.seen x).mp hx).resolve_left hunfinished.left) hunfinished.right

theorem leadsTo_successor (hopen : LeadsTo succs p v) (hw : w ∈ succs v) :
    LeadsTo succs ⟨v :: p.seen, p.finished⟩ w := by
  intro x hx hunfinished
  rcases List.mem_cons.mp hx with rfl | hx
  · exact reaches_step (reaches_refl _ x) hw
  · exact reaches_step (hopen x hx hunfinished) hw

theorem sound_entered (hp : Sound succs p) (v : Nat) :
    Sound succs ⟨v :: p.seen, p.finished⟩ := by
  refine ⟨hp.once, fun x hx => List.mem_cons_of_mem v (hp.met x hx), ?_⟩
  intro x y hx hy
  exact (hp.settled x y hx hy).imp_right fun h => ⟨List.mem_cons_of_mem v h.left, h.right⟩

/-- A node can be finished when its successors are explored: those that are still open lead back
to it. -/
theorem sound_finished {new : List Nat} (hp : Sound succs p) (hv : v ∉ p.seen)
    (hopen : LeadsTo succs p v)
    (hbelow : Explores succs (succs v) ⟨v :: p.seen, p.finished⟩ q new) (hq : Sound succs q) :
    Sound succs ⟨q.seen, v :: q.finished⟩ := by
  have hunfinished : v ∉ q.finished := by
    rw [hbelow.finished, List.mem_append]
    rintro (hnew | hold)
    · exact hbelow.fresh v hnew List.mem_cons_self
    · exact hv (hp.met v hold)
  refine ⟨List.nodup_cons.mpr ⟨hunfinished, hq.once⟩, ?_, ?_⟩
  · intro x hx
    rcases List.mem_cons.mp hx with rfl | hx
    · exact (hbelow.seen x).mpr (Or.inr List.mem_cons_self)
    · exact hq.met x hx
  · intro x y hx hy
    rcases List.mem_cons.mp hx with rfl | hx
    · have hmet := hbelow.entered y hy
      by_cases hbefore : y ∈ q.finished
      · exact Or.inl ((List.singleton_sublist.mpr hbefore).cons_cons x)
      · refine Or.inr ⟨hmet, ?_⟩
        rw [hbelow.finished, List.mem_append, not_or] at hbefore
        rcases List.mem_cons.mp (((hbelow.seen y).mp hmet).resolve_left hbefore.left) with
          rfl | hold
        · exact reaches_refl _ y
        · exact hopen y hold hbefore.right
    · exact (hq.settled x y hx hy).imp_left fun h => h.cons v

section Closed

variable (hclosed : forall x y, y ∈ succs x -> y < n)

theorem explores_foldl {nodes : List Nat}
    (hone : forall (q : Progress) (w : Nat), w ∈ nodes -> (unmet n q.seen).length ≤ depth ->
      Sound succs q -> LeadsTo succs q w ->
        (exists new, Explores succs [w] q (explore succs depth q w) new) ∧
          Sound succs (explore succs depth q w))
    (hdepth : (unmet n p.seen).length ≤ depth) (hp : Sound succs p)
    (hopen : forall w, w ∈ nodes -> LeadsTo succs p w) :
    (exists new, Explores succs nodes p (nodes.foldl (explore succs depth) p) new) ∧
      Sound succs (nodes.foldl (explore succs depth) p) := by
  induction nodes generalizing p with
  | nil => exact ⟨⟨[], explores_nothing (by simp)⟩, hp⟩
  | cons w rest ih =>
      have hw := List.mem_cons_self (a := w) (l := rest)
      rcases hone p w hw hdepth hp (hopen w hw) with ⟨⟨new, hfirst⟩, hsound⟩
      have hrest := ih (p := explore succs depth p w)
        (fun q w' hw' => hone q w' (List.mem_cons_of_mem w hw'))
        (Nat.le_trans (length_unmet_le fun x hx => mem_seen_explore hx) hdepth) hsound
        (fun w' hw' => leadsTo_explored hfirst (hopen w' (List.mem_cons_of_mem w hw')))
      rcases hrest with ⟨⟨new', hlater⟩, hsound'⟩
      exact ⟨⟨new' ++ new, explores_cons hfirst hlater⟩, hsound'⟩

include hclosed

theorem explores_explore (hv : v < n) (hdepth : (unmet n p.seen).length ≤ depth)
    (hp : Sound succs p) (hopen : LeadsTo succs p v) :
    (exists new, Explores succs [v] p (explore succs depth p v) new) ∧
      Sound succs (explore succs depth p v) := by
  induction depth generalizing p v with
  | zero =>
      have hmem := mem_seen_of_unmet hdepth hv
      exact ⟨⟨[], explores_nothing (by simpa using hmem)⟩, hp⟩
  | succ depth ih =>
      by_cases hmem : v ∈ p.seen
      · rw [explore_of_mem _ hmem]
        exact ⟨⟨[], explores_nothing (by simpa using hmem)⟩, hp⟩
      · have hleft := length_unmet_cons hv hmem
        rw [explore_of_not_mem _ hmem]
        have hsuccs : forall w, w ∈ succs v -> LeadsTo succs ⟨v :: p.seen, p.finished⟩ w :=
          fun w hw => leadsTo_successor hopen hw
        rcases explores_foldl (fun q w hw => ih (hclosed v w hw)) (by dsimp only; omega)
          (sound_entered hp v) hsuccs with ⟨⟨new, hnew⟩, hsound⟩
        exact ⟨⟨v :: new, explores_node hmem hnew⟩, sound_finished hp hmem hopen hnew hsound⟩

end Closed
end DepthFirst
end SafeRestart
