import SafeRestart.Proofs.DepthFirst
import SafeRestart.Proofs.BitSet
import SafeRestart.Proofs.DominatorTree

/-!
# Postorder

The postorder of a graph lists the nodes in the order in which a depth-first exploration finishes
them.  The exploration can do without recursion: a stack holds the open nodes, each with the
successors still to be looked at, and a bit set marks the nodes met.
-/

namespace SafeRestart

namespace DepthFirst

/-!
# Exploring with a stack
-/

structure Frame where
  node : Nat
  pending : List Nat

def outstanding : List Frame -> Nat
  | [] => 0
  | frame :: stack => frame.pending.length + 1 + outstanding stack

def finishAll (succs : Nat -> List Nat) : List Frame -> BitSet -> Except Fault (List Nat)
  | [], _ => .ok []
  | ⟨v, []⟩ :: stack, marks => (finishAll succs stack marks).map (v :: ·)
  | ⟨v, next :: pending⟩ :: stack, marks =>
      match _marked : marks.insert next with
      | .error fault => .error fault
      | .ok (marks, true) =>
          finishAll succs (⟨next, succs next⟩ :: ⟨v, pending⟩ :: stack) marks
      | .ok (marks, false) => finishAll succs (⟨v, pending⟩ :: stack) marks
termination_by stack marks => (marks.free.length, outstanding stack)
decreasing_by
  · apply Prod.Lex.right
    simp [outstanding]
  · rcases BitSet.insert_ok_cases _marked with ⟨_, hfree, hnew⟩
    have hfewer := List.length_erase_add_one (of_decide_eq_true hnew.symm)
    apply Prod.Lex.left
    rw [hfree]
    omega
  · rcases BitSet.insert_ok_cases _marked with ⟨_, hfree, hnew⟩
    rw [hfree, List.erase_of_not_mem (of_decide_eq_false hnew.symm)]
    apply Prod.Lex.right
    simp [outstanding]

/-- The recursive exploration taken up where a stack leaves off: the pending successors of each open
node are explored, and then the node is finished. -/
def unwind (succs : Nat -> List Nat) (depth : Nat) : List Frame -> Progress -> Progress
  | [], p => p
  | ⟨v, pending⟩ :: stack, p =>
      unwind succs depth stack
        ⟨(pending.foldl (explore succs depth) p).seen,
          v :: (pending.foldl (explore succs depth) p).finished⟩

variable {succs : Nat -> List Nat} {n depth : Nat}

theorem finishAll_of_new {marks marks' : BitSet} {v next : Nat} {pending : List Nat}
    {stack : List Frame} (h : marks.insert next = .ok (marks', true)) :
    finishAll succs (⟨v, next :: pending⟩ :: stack) marks =
      finishAll succs (⟨next, succs next⟩ :: ⟨v, pending⟩ :: stack) marks' := by
  rw [finishAll]
  split
  · rename_i hfault
    cases h.symm.trans hfault
  · rename_i hmarked
    cases h.symm.trans hmarked
    rfl
  · rename_i hmarked
    cases h.symm.trans hmarked

theorem finishAll_of_old {marks marks' : BitSet} {v next : Nat} {pending : List Nat}
    {stack : List Frame} (h : marks.insert next = .ok (marks', false)) :
    finishAll succs (⟨v, next :: pending⟩ :: stack) marks =
      finishAll succs (⟨v, pending⟩ :: stack) marks' := by
  rw [finishAll]
  split
  · rename_i hfault
    cases h.symm.trans hfault
  · rename_i hmarked
    cases h.symm.trans hmarked
  · rename_i hmarked
    cases h.symm.trans hmarked
    rfl

def Fits (n : Nat) (stack : List Frame) : Prop :=
  forall frame, frame ∈ stack -> forall w, w ∈ frame.pending -> w < n

theorem fits_cons_iff {v : Nat} {pending : List Nat} {stack : List Frame} :
    Fits n (⟨v, pending⟩ :: stack) <-> (forall w, w ∈ pending -> w < n) ∧ Fits n stack :=
  List.forall_mem_cons

theorem finishAll_eq (hclosed : forall x y, y ∈ succs x -> y < n) {stack : List Frame}
    {marks : BitSet} {p : Progress} (hstack : Fits n stack) (hcapacity : marks.capacity = n)
    (hfree : marks.free = unmet n p.seen) (hdepth : (unmet n p.seen).length ≤ depth) :
    exists order, finishAll succs stack marks = .ok order ∧
      (unwind succs depth stack p).finished = order.reverse ++ p.finished := by
  induction stack, marks using finishAll.induct succs generalizing p with
  | case1 marks => exact ⟨[], by rw [finishAll], rfl⟩
  | case2 v stack marks ih =>
      rcases ih (p := ⟨p.seen, v :: p.finished⟩) (fits_cons_iff.mp hstack).right hcapacity hfree
        hdepth with ⟨order, hrun, hfinished⟩
      refine ⟨v :: order, ?_, ?_⟩
      · rw [finishAll, hrun]
        rfl
      · rw [unwind, List.foldl_nil, hfinished]
        simp
  | case3 v next pending stack marks fault hfault =>
      have hnext := (fits_cons_iff.mp hstack).left next List.mem_cons_self
      rcases BitSet.insert_of_lt (hcapacity ▸ hnext) with ⟨marks', hinsert, _⟩
      cases hinsert.symm.trans hfault
  | case4 v next pending stack marks marks' hmarked ih =>
      rcases fits_cons_iff.mp hstack with ⟨hpending, hothers⟩
      rcases List.forall_mem_cons.mp hpending with ⟨hnext, hrest⟩
      rcases BitSet.insert_ok_cases hmarked with ⟨hcapacity', hfree', hnew⟩
      rw [hfree] at hfree' hnew
      have hunseen := (mem_unmet_iff.mp (of_decide_eq_true hnew.symm)).right
      have hleft := length_unmet_cons hnext hunseen
      rw [← unmet_cons] at hfree'
      -- The new frame explores the node that the recursion descends to.
      have hfits : Fits n (⟨next, succs next⟩ :: ⟨v, pending⟩ :: stack) :=
        fits_cons_iff.mpr ⟨hclosed next, fits_cons_iff.mpr ⟨hrest, hothers⟩⟩
      rcases ih (p := ⟨next :: p.seen, p.finished⟩) hfits (hcapacity'.trans hcapacity) hfree'
        (by dsimp only; omega) with ⟨order, hrun, hfinished⟩
      refine ⟨order, (finishAll_of_new hmarked).trans hrun, ?_⟩
      rw [unwind, List.foldl_cons, explore_of_new hclosed hnext hunseen hdepth]
      exact hfinished
  | case5 v next pending stack marks marks' hmarked ih =>
      rcases fits_cons_iff.mp hstack with ⟨hpending, hothers⟩
      rcases List.forall_mem_cons.mp hpending with ⟨hnext, hrest⟩
      rcases BitSet.insert_ok_cases hmarked with ⟨hcapacity', hfree', hnew⟩
      have hmem := of_decide_eq_false hnew.symm
      have hseen : next ∈ p.seen := by
        by_contra hunseen
        exact hmem (hfree ▸ mem_unmet_iff.mpr ⟨hnext, hunseen⟩)
      rw [List.erase_of_not_mem hmem] at hfree'
      rcases ih (fits_cons_iff.mpr ⟨hrest, hothers⟩) (hcapacity'.trans hcapacity)
        (hfree'.trans hfree) hdepth with ⟨order, hrun, hfinished⟩
      refine ⟨order, (finishAll_of_old hmarked).trans hrun, ?_⟩
      rw [unwind, List.foldl_cons, explore_of_mem depth hseen]
      exact hfinished

end DepthFirst

namespace Digraph

open DepthFirst

universe u

variable {α : Type u} {g : Digraph α} {start : Nat}

/-- The postorder, explored with a stack.  The start and every node met have to fit the marks. -/
def stackPostorder (g : Digraph α) (start : Nat) : Except Fault (List Nat) :=
  if start < g.size then
    match (BitSet.empty g.size).insert start with
    | .error fault => .error fault
    | .ok (marks, _) => finishAll g.succs [⟨start, g.succs start⟩] marks
  else
    .ok []

theorem link_succs (g : Digraph α) : Link g.succs = g.Edge := by
  funext x y
  exact propext mem_succs_iff

section Closed

variable (hg : g.Closed)
include hg

theorem succs_lt (x y : Nat) (h : y ∈ g.succs x) : y < g.size := (hg (mem_succs_iff.mp h)).right

omit hg in
theorem length_unmet_nil_le (g : Digraph α) : (unmet g.size []).length ≤ g.size := by
  rw [unmet_nil, List.length_range]

theorem stackPostorder_eq (start : Nat) : g.stackPostorder start = .ok (g.postorder start) := by
  unfold stackPostorder postorder reversePostorder
  split
  · rename_i hstart
    have hdepth := length_unmet_nil_le g
    have hleft := length_unmet_cons hstart (List.not_mem_nil (a := start))
    have hdepth' : (unmet g.size [start]).length ≤ g.size := by omega
    have hfits : start < (BitSet.empty g.size).capacity := hstart
    rcases BitSet.insert_of_lt hfits with ⟨marks, hinsert, hcapacity, hfree⟩
    rw [BitSet.free_empty, ← unmet_nil, ← unmet_cons] at hfree
    have hstack : Fits g.size [⟨start, g.succs start⟩] :=
      fits_cons_iff.mpr ⟨succs_lt hg start, by simp [Fits]⟩
    rcases finishAll_eq (p := ⟨[start], []⟩) (succs_lt hg) hstack hcapacity hfree hdepth' with
      ⟨order, hrun, hfinished⟩
    rw [List.append_nil] at hfinished
    rw [hinsert, explore_of_new (succs_lt hg) hstart List.not_mem_nil hdepth]
    calc finishAll g.succs [⟨start, g.succs start⟩] marks
        = .ok order := hrun
      _ = .ok order.reverse.reverse := by rw [List.reverse_reverse]
      _ = .ok (unwind g.succs g.size [⟨start, g.succs start⟩] ⟨[start], []⟩).finished.reverse := by
          rw [hfinished]
  · rfl

variable (hstart : start < g.size)
include hstart

theorem explores_reversePostorder :
    exists q : Progress, q.finished = g.reversePostorder start ∧ Sound g.succs q ∧
      Explores g.succs [start] ⟨[], []⟩ q (g.reversePostorder start) := by
  have hnothing : Sound g.succs ⟨[], []⟩ := ⟨List.nodup_nil, by simp, by simp⟩
  have hopen : LeadsTo g.succs ⟨[], []⟩ start := by
    intro x hx
    cases hx
  rcases explores_explore (succs_lt hg) hstart (length_unmet_nil_le g) hnothing hopen with
    ⟨⟨new, hnew⟩, hsound⟩
  have hsame : g.reversePostorder start = new := by
    rw [reversePostorder, if_pos hstart, hnew.finished, List.append_nil]
  rw [hsame]
  exact ⟨_, hnew.finished.trans (List.append_nil new), hsound, hnew⟩

theorem reversePostorder_cons : exists rest, g.reversePostorder start = start :: rest := by
  rw [reversePostorder, if_pos hstart,
    explore_of_new (succs_lt hg) hstart List.not_mem_nil (length_unmet_nil_le g)]
  exact ⟨_, rfl⟩

theorem nodup_reversePostorder : (g.reversePostorder start).Nodup := by
  rcases explores_reversePostorder hg hstart with ⟨q, hfinished, hsound, _⟩
  exact hfinished ▸ hsound.once

theorem successor_of_mem_reversePostorder {u v : Nat} (hu : u ∈ g.reversePostorder start)
    (huv : g.Edge u v) :
    v ∈ g.reversePostorder start ∧
      ([u, v].Sublist (g.reversePostorder start) ∨ Reaches g.Edge v u) := by
  rcases explores_reversePostorder hg hstart with ⟨q, hfinished, hsound, hexplores⟩
  have hsettled := hsound.settled u v (hfinished ▸ hu) (mem_succs_iff.mpr huv)
  rw [hfinished, link_succs] at hsettled
  rcases hsettled with hbehind | ⟨hseen, hback⟩
  · exact ⟨hbehind.subset (by simp), Or.inl hbehind⟩
  · exact ⟨((hexplores.seen v).mp hseen).resolve_right (by simp), Or.inr hback⟩

theorem mem_reversePostorder_of_path {u v : Nat} {met : List Nat}
    (hu : u ∈ g.reversePostorder start) (hpath : Path g.Edge u met v) :
    v ∈ g.reversePostorder start := by
  induction hpath with
  | nil _ => exact hu
  | cons hstep _ ih => exact ih (successor_of_mem_reversePostorder hg hstart hu hstep).left

theorem mem_reversePostorder_iff {v : Nat} :
    v ∈ g.reversePostorder start <-> Reaches g.Edge start v := by
  constructor
  · intro hv
    rcases explores_reversePostorder hg hstart with ⟨q, _, _, hexplores⟩
    rcases hexplores.reached v hv with ⟨root, hroot, hreach⟩
    rw [List.mem_singleton.mp hroot, link_succs] at hreach
    exact hreach
  · intro h
    rcases h with ⟨met, hpath⟩
    rcases reversePostorder_cons hg hstart with ⟨rest, hrest⟩
    exact mem_reversePostorder_of_path hg hstart (hrest ▸ List.mem_cons_self) hpath

theorem predecessor_of_mem_reversePostorder {v : Nat} (hv : v ∈ g.reversePostorder start)
    (hne : v ≠ start) : exists u, g.Edge u v ∧ [u, v].Sublist (g.reversePostorder start) := by
  rcases explores_reversePostorder hg hstart with ⟨q, _, _, hexplores⟩
  rcases hexplores.rooted v hv with hroot | ⟨u, hu, hlater⟩
  · exact absurd (List.mem_singleton.mp hroot) hne
  · exact ⟨u, mem_succs_iff.mp hu, hlater⟩

theorem mem_postorder_iff {v : Nat} : v ∈ g.postorder start <-> Reaches g.Edge start v := by
  rw [postorder, List.mem_reverse, mem_reversePostorder_iff hg hstart]

theorem nodup_postorder : (g.postorder start).Nodup :=
  List.nodup_reverse.mpr (nodup_reversePostorder hg hstart)

theorem lt_size_of_mem_postorder {v : Nat} (hv : v ∈ g.postorder start) : v < g.size :=
  lt_size_of_reaches hg hstart ((mem_postorder_iff hg hstart).mp hv)

theorem mem_members_reachable_iff {v : Nat} :
    v ∈ (g.reachable start).members <-> Reaches g.Edge start v := by
  have hfits : forall w, w ∈ g.reached start -> w < g.size := by
    intro w hw
    exact List.mem_range.mp (Search.mem_pool_of_mem_sweep hw)
  rw [reachable, BitSet.mem_members_ofMembers hfits, mem_reached_iff hg hstart]

end Closed

theorem postorder_exact (hg : g.Built) (hstart : start < g.size) :
    g.stackPostorder start = .ok (g.postorder start) ∧
    (g.postorder start).Nodup ∧
    (forall v, v ∈ g.postorder start <-> v ∈ (g.reachable start).members) ∧
    (forall v, v ∈ g.postorder start <-> Reaches g.Edge start v) ∧
    (g.postorder start).getLast? = some start ∧
    (forall v, v ∈ g.postorder start -> v ≠ start ->
      exists u, g.Edge u v ∧ [v, u].Sublist (g.postorder start)) ∧
    forall u v, Reaches g.Edge start u -> g.Edge u v ->
      [v, u].Sublist (g.postorder start) ∨ Reaches g.Edge v u := by
  have hclosed : g.Closed := closed_of_built hg
  refine ⟨stackPostorder_eq hclosed start, nodup_postorder hclosed hstart, ?_,
    fun _ => mem_postorder_iff hclosed hstart, ?_, ?_, ?_⟩
  · intro v
    rw [mem_postorder_iff hclosed hstart, mem_members_reachable_iff hclosed hstart]
  · rcases reversePostorder_cons hclosed hstart with ⟨rest, hrest⟩
    rw [postorder, hrest, List.getLast?_reverse, List.head?_cons]
  · intro v hv hne
    rcases predecessor_of_mem_reversePostorder hclosed hstart (List.mem_reverse.mp hv) hne with
      ⟨u, huv, hlater⟩
    exact ⟨u, huv, List.reverse_sublist.mpr hlater⟩
  · intro u v hu huv
    have hlisted := (mem_reversePostorder_iff hclosed hstart).mpr hu
    rcases (successor_of_mem_reversePostorder hclosed hstart hlisted huv).right with
      hearlier | hback
    · exact Or.inl (List.reverse_sublist.mpr hearlier)
    · exact Or.inr hback

/-!
A node that two branches share, a loop below one of the branches, a node that leads to itself and a
node that is not reached.
-/

def junction : Digraph Unit :=
  ⟨List.replicate 5 (), [(0, 1), (0, 2), (1, 3), (2, 3), (3, 1), (2, 2), (4, 2)]⟩

theorem junction_postorder :
    junction.Built ∧ junction.stackPostorder 0 = .ok [3, 1, 2, 0] ∧
      (exists u, junction.Edge u 3 ∧ [3, u].Sublist [3, 1, 2, 0]) ∧
      Reaches junction.Edge 1 3 ∧ ¬ Reaches junction.Edge 0 4 := by
  have hnodes : (⟨List.replicate 5 (), []⟩ : Digraph Unit).Built :=
    .node () (.node () (.node () (.node () (.node () .empty))))
  have hedges : (⟨List.replicate 5 (), []⟩ : Digraph Unit).addEdges junction.edges =
      .ok junction := rfl
  have hbuilt : junction.Built := built_addEdges hnodes hedges
  have hstart : 0 < junction.size := by decide
  have horder : junction.postorder 0 = [3, 1, 2, 0] := by decide +kernel
  rcases postorder_exact hbuilt hstart with ⟨hstack, _, _, hmem, _, hpred, hsucc⟩
  rw [horder] at hstack hmem hpred hsucc
  refine ⟨hbuilt, hstack, hpred 3 (by decide) (by decide), ?_, ?_⟩
  · exact (hsucc 3 1 ((hmem 3).mp (by decide)) (by simp [Edge, junction])).resolve_left (by decide)
  · intro h
    exact absurd ((hmem 4).mpr h) (by decide)

end Digraph
end SafeRestart
