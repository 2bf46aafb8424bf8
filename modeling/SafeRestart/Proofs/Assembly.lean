import SafeRestart.Proofs.Placement

/-!
# Assembled functions are well formed

Every step of an assembly keeps the numbers of the instructions and their positions in their blocks
consecutive.  A function can only be finished when nothing was wrong with the steps, and then it is
well formed.
-/

namespace SafeRestart

/-!
# Adding edges
-/

namespace Digraph

universe u

variable {α : Type u} {g g' : Digraph α}

theorem addEdge_ok {source target : Nat} {answer : Digraph α × Bool}
    (h : g.addEdge source target = .ok answer) :
    answer.1.nodes = g.nodes ∧ source < g.size ∧ target < g.size ∧
      forall e, e ∈ answer.1.edges <-> e ∈ g.edges ∨ e = (source, target) := by
  unfold addEdge at h
  split at h
  · cases h
  · rename_i hsource
    split at h
    · cases h
    · rename_i htarget
      have hranges : source < g.size ∧ target < g.size := by omega
      split at h
      · rename_i hedge
        cases h
        refine ⟨rfl, hranges.left, hranges.right, ?_⟩
        intro e
        have hold : (source, target) ∈ g.edges := by simpa [hasEdge] using hedge
        exact ⟨Or.inl, fun he => he.elim id fun hsame => hsame ▸ hold⟩
      · cases h
        refine ⟨rfl, hranges.left, hranges.right, ?_⟩
        intro e
        simp

theorem nodup_addEdge {source target : Nat} {answer : Digraph α × Bool}
    (h : g.addEdge source target = .ok answer) (hedges : g.edges.Nodup) :
    answer.1.edges.Nodup := by
  unfold addEdge at h
  split at h
  · cases h
  · split at h
    · cases h
    · split at h
      · cases h
        exact hedges
      · rename_i hedge
        cases h
        have hnew : (source, target) ∉ g.edges := by simpa [hasEdge] using hedge
        exact List.nodup_append.mpr ⟨hedges, List.nodup_singleton _, by
          rintro e he e' he' rfl
          exact hnew (List.mem_singleton.mp he' ▸ he)⟩

theorem addEdges_ok {edges : List (Nat × Nat)} (h : g.addEdges edges = .ok g') :
    g'.nodes = g.nodes ∧
      (forall e, e ∈ edges -> e.1 < g.size ∧ e.2 < g.size) ∧
      (forall e, e ∈ g'.edges <-> e ∈ g.edges ∨ e ∈ edges) ∧
      (g.edges.Nodup -> g'.edges.Nodup) := by
  induction edges generalizing g with
  | nil =>
      cases h
      exact ⟨rfl, by simp, by simp, id⟩
  | cons e rest ih =>
      unfold addEdges at h
      rw [List.foldlM_cons] at h
      cases hadd : g.addEdge e.1 e.2 with
      | error err =>
          rw [hadd] at h
          cases h
      | ok answer =>
          rw [hadd] at h
          rcases addEdge_ok hadd with ⟨hnodes, hsource, htarget, hedges⟩
          rcases ih h with ⟨hnodes', hranges, hedges', hnodup⟩
          have hsize : answer.1.size = g.size := by simp [size, hnodes]
          refine ⟨hnodes'.trans hnodes, ?_, ?_, fun hold => hnodup (nodup_addEdge hadd hold)⟩
          · intro e' he'
            rcases List.mem_cons.mp he' with rfl | he'
            · exact ⟨hsource, htarget⟩
            · exact hsize ▸ hranges e' he'
          · intro e'
            rw [hedges', hedges, List.mem_cons, or_assoc]

variable {β : Type u} {nodes : List β}

def withNodes (g : Digraph α) (nodes : List β) : Digraph β := ⟨nodes, g.edges⟩

theorem addEdge_withNodes (hnodes : nodes.length = g.size) (source target : Nat) :
    (g.withNodes nodes).addEdge source target =
      (g.addEdge source target).map fun answer => (answer.1.withNodes nodes, answer.2) := by
  have hsize : (g.withNodes nodes).size = g.size := hnodes
  unfold addEdge
  rw [hsize]
  split
  · rfl
  · split
    · rfl
    · show (if g.hasEdge source target = true then _ else _) = _
      split
      · rfl
      · rfl

theorem addEdges_withNodes (hnodes : nodes.length = g.size) (edges : List (Nat × Nat)) :
    (g.withNodes nodes).addEdges edges =
      (g.addEdges edges).map fun connected => connected.withNodes nodes := by
  unfold addEdges
  induction edges generalizing g with
  | nil => rfl
  | cons e rest ih =>
      rw [List.foldlM_cons, List.foldlM_cons, addEdge_withNodes hnodes]
      cases hplain : g.addEdge e.1 e.2 with
      | error err => rfl
      | ok answer =>
          apply ih
          rw [hnodes, size, size, (addEdge_ok hplain).left]

end Digraph

namespace Assembly

/-!
# What the steps keep
-/

/-- Numbers are given in the order in which instructions are emitted, and positions in the order in
which they come into their block. -/
structure Consistent (a : Assembly) : Prop where
  numbered : a.insts.map Instruction.id = List.range a.insts.length
  positioned : forall b, (a.members b).map Instruction.position = List.range (a.members b).length

theorem consistent_start (name : String) : Consistent { name := name } :=
  ⟨rfl, fun _ => rfl⟩

theorem consistent_place {a : Assembly} (h : a.Consistent) (b : Nat) (op : Operation) :
    (a.place b op).Consistent := by
  constructor
  · simp [place, h.numbered, List.range_succ]
  · intro c
    by_cases hbc : b = c
    · subst hbc
      simpa [place, members, List.range_succ] using h.positioned b
    · simpa [place, members, hbc] using h.positioned c

theorem consistent_step {a : Assembly} (h : a.Consistent) (s : Step) : (a.step s).Consistent := by
  cases s with
  | declare kind name flags => exact ⟨h.numbered, h.positioned⟩
  | openBlock name => exact ⟨h.numbered, h.positioned⟩
  | select b =>
      unfold step
      dsimp only
      split
      · exact ⟨h.numbered, h.positioned⟩
      · exact ⟨h.numbered, h.positioned⟩
  | emit op =>
      unfold step
      dsimp only
      split
      · exact consistent_place h _ op
      · have hblame : (a.blame (.noBlockSelected a.insts.length)).Consistent :=
          ⟨h.numbered, h.positioned⟩
        exact consistent_place hblame 0 op
  | connect source target => exact ⟨h.numbered, h.positioned⟩

theorem consistent_run (name : String) (steps : List Step) : (run name steps).Consistent := by
  unfold run
  generalize hstart : ({ name := name } : Assembly) = a
  have h : a.Consistent := hstart ▸ consistent_start name
  clear hstart
  induction steps generalizing a with
  | nil => exact h
  | cons s rest ih => exact ih (a.step s) (consistent_step h s)

/-!
# What can be finished
-/

variable {a : Assembly} {f : Function}

theorem finish_ok (h : a.finish = .ok f) :
    a.firstError? = none ∧ f.name = a.name ∧ f.storage = a.storage ∧
      f.blocks = a.unconnected.nodes ∧ (forall e, e ∈ f.graph.edges <-> e ∈ a.edges) ∧
      f.graph.edges.Nodup ∧
      forall {b c : Nat}, (b, c) ∈ f.graph.edges -> b < f.blockCount ∧ c < f.blockCount := by
  unfold finish at h
  split at h
  · cases h
  · rename_i hnone
    cases hadd : a.unconnected.addEdges a.edges with
    | error err =>
        rw [hadd] at h
        cases h
    | ok graph =>
        rw [hadd] at h
        cases h
        rcases Digraph.addEdges_ok hadd with ⟨hnodes, hranges, hedges, hnodup⟩
        have hadded : forall e, e ∈ graph.edges <-> e ∈ a.edges := by
          intro e
          simp [hedges e, unconnected]
        refine ⟨hnone, rfl, rfl, hnodes, hadded, hnodup List.nodup_nil, ?_⟩
        intro b c he
        have hsize : a.unconnected.size = graph.nodes.length := by rw [hnodes]; rfl
        have hrange := hranges (b, c) ((hadded (b, c)).mp he)
        rw [hsize] at hrange
        exact hrange

theorem firstError?_none (h : a.firstError? = none) :
    a.misstep = none ∧ a.blocks ≠ [] ∧
      (forall b, b < a.blocks.length -> a.members b ≠ []) ∧
      forall inst, inst ∈ a.insts -> a.flaw? inst = none := by
  unfold firstError? at h
  split at h
  · cases h
  · rename_i hstep
    split at h
    · cases h
    · rename_i hblocks
      split at h
      · cases h
      · rename_i hfind
        refine ⟨hstep, by simpa using hblocks, ?_, List.findSome?_eq_none_iff.mp h⟩
        intro b hb hempty
        have hmem : (a.blocks[b], b) ∈ a.blocks.zipIdx := List.mem_zipIdx_iff_getElem?.mpr (by simp)
        have hnot := List.find?_eq_none.mp hfind _ hmem
        simp [hempty] at hnot

theorem firstError?_eq_none_iff :
    a.firstError? = none <->
      a.misstep = none ∧ a.blocks ≠ [] ∧ (forall b, b < a.blocks.length -> a.members b ≠ []) ∧
        forall inst, inst ∈ a.insts -> a.flaw? inst = none := by
  constructor
  · exact firstError?_none
  · intro h
    rcases h with ⟨hstep, hblocks, hmembers, hflaws⟩
    have hfind : (a.blocks.zipIdx.find? fun named => (a.members named.2).isEmpty) = none := by
      apply List.find?_eq_none.mpr
      intro named hnamed hempty
      have hlookup := List.mem_zipIdx_iff_getElem?.mp hnamed
      apply hmembers named.2 (List.getElem?_eq_some_iff.mp hlookup).1
      simpa using hempty
    unfold firstError?
    rw [hstep, hfind]
    simpa [hblocks] using hflaws

theorem members_block {b : Nat} {inst : Instruction} (h : inst ∈ a.members b) : inst.block = b := by
  simpa using (List.mem_filter.mp h).2

theorem unconnected_nodes :
    a.unconnected.nodes = a.blocks.zipIdx.map fun named => ⟨named.1, a.members named.2⟩ := rfl

theorem blockInsts_of_finish (h : a.finish = .ok f) (b : Nat) :
    f.blockInsts b = if b < a.blocks.length then a.members b else [] := by
  rcases finish_ok h with ⟨_, _, _, hblocks, _⟩
  unfold Function.blockInsts Function.block?
  rw [hblocks, unconnected_nodes]
  by_cases hb : b < a.blocks.length
  · simp [hb]
  · simp [hb]

theorem layout_of_finish (h : a.finish = .ok f) :
    f.layout = (List.range a.blocks.length).flatMap a.members := by
  rcases finish_ok h with ⟨_, _, _, hblocks, _⟩
  unfold Function.layout
  rw [hblocks, unconnected_nodes, List.flatMap_map, List.range_eq_range',
    ← List.zipIdx_map_snd 0 a.blocks, List.flatMap_map]

theorem nodup_layout_of_finish (hcon : a.Consistent) (h : a.finish = .ok f) :
    (f.layout.map Instruction.id).Nodup := by
  have hids : (a.insts.map Instruction.id).Nodup := hcon.numbered ▸ List.nodup_range
  have hlayout : f.layout.Nodup := by
    rw [layout_of_finish h, List.nodup_flatMap]
    refine ⟨fun b _ => (hids.of_map _).filter _, ?_⟩
    refine List.nodup_range.imp ?_
    intro b c hne inst hb hc
    exact hne ((members_block hb).symm.trans (members_block hc))
  refine hlayout.map_on ?_
  intro x hx y hy hid
  rw [layout_of_finish h, List.mem_flatMap] at hx hy
  rcases hx with ⟨b, _, hx⟩
  rcases hy with ⟨c, _, hy⟩
  exact List.inj_on_of_nodup_map hids (List.mem_filter.mp hx).1 (List.mem_filter.mp hy).1 hid

theorem wellFormed_of_finish (hcon : a.Consistent) (h : a.finish = .ok f) : f.WellFormed := by
  rcases finish_ok h with ⟨hnone, _, _, hblocks, _, _, hconnected⟩
  rcases firstError?_none hnone with ⟨_, hsome, hoccupied, _⟩
  have hcount : f.blockCount = a.blocks.length := by
    simp [Function.blockCount, hblocks, unconnected_nodes]
  constructor
  · rw [hcount]
    exact List.length_pos_iff.mpr hsome
  · intro b hb
    rw [hcount] at hb
    rw [Function.blockSize, blockInsts_of_finish h, if_pos hb]
    exact List.length_pos_iff.mpr (hoccupied b hb)
  · intro b p inst hinst
    rw [blockInsts_of_finish h] at hinst
    split at hinst
    · refine ⟨members_block (List.mem_of_getElem? hinst), ?_⟩
      have hp := (List.getElem?_eq_some_iff.mp hinst).1
      have hpos : ((a.members b).map Instruction.position)[p]? = some p := by
        rw [hcon.positioned b]
        exact List.getElem?_range hp
      rw [List.getElem?_map, hinst] at hpos
      simpa using hpos
    · cases hinst
  · exact nodup_layout_of_finish hcon h
  · exact hconnected

end Assembly

theorem Function.wellFormed_of_assemble {name : String} {steps : List Step} {f : Function}
    (h : Function.assemble name steps = .ok f) : f.WellFormed :=
  Assembly.wellFormed_of_finish (Assembly.consistent_run name steps) h

end SafeRestart
