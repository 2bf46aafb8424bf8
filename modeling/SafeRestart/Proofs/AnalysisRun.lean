import SafeRestart.Proofs.Between
import SafeRestart.Proofs.DominatorFixpoint
import SafeRestart.Proofs.HazardSearch
import SafeRestart.Proofs.Idempotence
import SafeRestart.Proofs.Tally

/-!
# The analysis as it is carried out

The hazards of a function are found block by block, the dominator tree by iteration, the cut paths
by climbing the tree and the boundaries by keeping count of what is hit.  None of the loops goes on
for ever and none of the look-ups fails, so the analysis ends with what the definitions ask for.
-/

namespace SafeRestart

open Run

/-!
# The computation
-/

namespace DominatorTree

def seek (t : DominatorTree) (a b : Nat) : Run Bool :=
  loop (fun v => do
    if v = a then
      return .inl true
    else
      match t.immediate v with
      | some up => return .inr up
      | none => return .inl false) b

end DominatorTree

namespace Function

def collectStores (f : Function) (b floor stop : Nat) : Except Fault (List Nat) := do
  match f.block? b with
  | none => return []
  | some block =>
      if stop ≤ floor then
        return []
      else
        let ids ← slice (block.insts.map Instruction.id) floor stop
        sift (fun i => do return (← f.inst i).isStore) ids.reverse

/-- Collects stores from a position of a block upward, as long as the block of the load dominates
the block that has been reached. -/
def climbFrom (f : Function) (tree : DominatorTree) (load : Instruction) (b cursor : Nat)
    (stores : List Nat) : Run (List Nat) :=
  loop (fun (b, cursor, stores) => do
    if ← tree.seek load.block b then
      let found ← f.collectStores b (if b = load.block then load.position + 1 else 0) cursor
      if b = load.block then
        return .inl (stores ++ found)
      else
        match tree.immediate b with
        | none => return .inl (stores ++ found)
        | some up => return .inr (up, f.blockSize up, stores ++ found)
    else
      return .inl stores) (b, cursor, stores)

def pathOf (f : Function) (tree : DominatorTree) (hazard : Hazard) : Run CutPath := do
  let load ← f.inst hazard.load
  let store ← f.inst hazard.store
  if load.block = store.block ∧ load.position < store.position then
    let found ← f.collectStores store.block (load.position + 1) store.position
    return ⟨hazard, hazard.store :: found⟩
  else
    return ⟨hazard, ← f.climbFrom tree load store.block store.position [hazard.store]⟩

def chooseStores (f : Function) (paths : List CutPath) :
    Except Fault (List (Selection Nat)) := do
  let family ← paths.mapM fun path => path.stores.mapM f.slot
  let (steps, _) ← HittingSet.tallied family
  steps.mapM fun step => do
    return ⟨(← entryAt f.layout step.element).id, step.newlyCovered, step.covered⟩

def runAnalysis (f : Function) (oracle : AliasOracle) : Run Analysis := do
  let hazards ← f.findAll oracle
  let tree ← f.graph.computeDominators f.entry
  let paths ← hazards.mapM (f.pathOf tree)
  let selection ← f.chooseStores paths
  return ⟨f.name, hazards, paths, selection, BoundarySet.ofList (selection.map Selection.element)⟩

variable {f : Function} {load store : Instruction} {b cursor floor stop : Nat}
  {found stores : List Nat}

/-!
# Cut paths
-/

section Finished

variable (hf : f.WellFormed)
include hf

theorem position_lt {inst : Instruction} (h : inst ∈ f.layout) :
    inst.position < f.blockSize inst.block :=
  (List.getElem?_eq_some_iff.mp ((layout_iff hf).mp ((mem_layout_iff hf).mp h)).left).1

theorem ends_seek (a b : Nat) : (f.dominators.seek a b).Ends (f.dominators.dominates a b) := by
  induction b using Digraph.climb_induction (graph_closed hf) (entry_lt hf) with
  | root b hroot =>
      have hroot' : f.dominators.immediate b = none := hroot
      apply ends_loop_of_result
      by_cases hsame : b = a
      · rw [if_pos hsame, dominates_eq_true_iff.mpr (hsame ▸ mem_chain_self hf b)]
        exact ends_pure _
      · have hnot : f.dominators.dominates a b = false := by
          rw [Bool.eq_false_iff, Ne, dominates_eq_true_iff, DominatorTree.mem_chain_of_root hroot']
          exact fun h => hsame h.symm
        rw [if_neg hsame, hroot', hnot]
        exact ends_pure _
  | parent b up hup ih =>
      have hup' : f.dominators.immediate b = some up := hup
      by_cases hsame : b = a
      · apply ends_loop_of_result
        rw [if_pos hsame, dominates_eq_true_iff.mpr (hsame ▸ mem_chain_self hf b)]
        exact ends_pure _
      · have hsteps : f.dominators.dominates a b = f.dominators.dominates a up := by
          rw [Bool.eq_iff_iff, dominates_eq_true_iff, dominates_eq_true_iff,
            show f.dominators.chain b = b :: f.dominators.chain up from
              Digraph.chain_of_parent (graph_closed hf) (entry_lt hf) hup, List.mem_cons]
          exact or_iff_right fun h => hsame h.symm
        rw [hsteps]
        refine ends_loop_of_next ?_ ih
        rw [if_neg hsame, hup']
        exact ends_pure _

theorem collectStores_eq (hstop : stop ≤ f.blockSize b) :
    f.collectStores b floor stop = .ok (f.storesBack b floor stop) := by
  unfold collectStores storesBack
  cases hblock : f.block? b with
  | none =>
      have hnone : f.blockInsts b = [] := by simp [blockInsts, hblock]
      rw [hnone]
      simp
      rfl
  | some block =>
      have hinsts : f.blockInsts b = block.insts := blockInsts_of_block? hblock
      dsimp only
      by_cases hempty : stop ≤ floor
      · have hnone : ((f.blockInsts b).take stop).drop floor = [] := by
          apply List.drop_eq_nil_of_le
          rw [List.length_take]
          omega
        rw [if_pos hempty, hnone]
        rfl
      · have hlength : stop ≤ (block.insts.map Instruction.id).length := by
          rw [List.length_map, ← hinsts]
          exact hstop
        rw [if_neg hempty, slice_of_le (by omega) hlength, ok_bind, ← hinsts, ← List.map_take,
          ← List.map_drop, ← List.map_reverse]
        apply sift_map
        intro inst hinst
        have hmem : inst ∈ f.blockInsts b :=
          List.mem_of_mem_take (List.mem_of_mem_drop (List.mem_reverse.mp hinst))
        rw [inst_of_mem hf (mem_layout_of_mem_blockInsts hmem)]
        rfl

theorem ends_climbFrom (h : f.Climbs load b cursor found) (hcursor : cursor ≤ f.blockSize b)
    (stores : List Nat) :
    (f.climbFrom f.dominators load b cursor stores).Ends (stores ++ found) := by
  induction h generalizing stores with
  | outside hout =>
      rename_i b cursor
      have hseek := ends_seek hf load.block b
      rw [hout] at hseek
      rw [List.append_nil]
      exact ends_loop_of_result (hseek.bind (ends_pure _))
  | home hin hhome =>
      rename_i b cursor
      have hseek := ends_seek hf load.block b
      rw [hin] at hseek
      refine ends_loop_of_result (hseek.bind ?_)
      rw [if_pos rfl, if_pos hhome]
      refine (ends_lift (collectStores_eq hf hcursor)).bind ?_
      rw [if_pos hhome]
      exact ends_pure _
  | root hin hne hroot =>
      rename_i b cursor
      have hseek := ends_seek hf load.block b
      rw [hin] at hseek
      refine ends_loop_of_result (hseek.bind ?_)
      rw [if_pos rfl, if_neg hne]
      refine (ends_lift (collectStores_eq hf hcursor)).bind ?_
      rw [if_neg hne, hroot]
      exact ends_pure _
  | parent hin hne hup _ ih =>
      rename_i b up cursor rest _
      have hseek := ends_seek hf load.block b
      rw [hin] at hseek
      rw [← List.append_assoc]
      refine ends_loop_of_next (hseek.bind ?_)
        (ih (Nat.le_refl _) (stores ++ f.storesBack b 0 cursor))
      rw [if_pos rfl, if_neg hne]
      refine (ends_lift (collectStores_eq hf hcursor)).bind ?_
      rw [if_neg hne, hup]
      exact ends_pure _

theorem ends_pathOf (hload : load ∈ f.layout) (hstore : store ∈ f.layout) :
    (f.pathOf f.dominators ⟨load.id, store.id⟩).Ends
      ⟨⟨load.id, store.id⟩, store.id :: f.storesBetween f.dominators load store⟩ := by
  have hposition : store.position ≤ f.blockSize store.block :=
    Nat.le_of_lt (position_lt hf hstore)
  have hcollects : f.Collects load store (f.storesBetween f.dominators load store) :=
    (collects_iff hf).mpr rfl
  refine (ends_lift (inst_of_mem hf hload)).bind ((ends_lift (inst_of_mem hf hstore)).bind ?_)
  generalize f.storesBetween f.dominators load store = found at hcollects ⊢
  cases hcollects with
  | straight hblock hbefore =>
      rw [if_pos ⟨hblock, hbefore⟩]
      exact (ends_lift (collectStores_eq hf hposition)).bind (ends_pure _)
  | climb hnot hclimbs =>
      rw [if_neg hnot]
      exact (ends_climbFrom hf hclimbs hposition [store.id]).bind (ends_pure _)

/-!
# The choice
-/

omit hf in
theorem chooseStores_eq (f : Function) (paths : List CutPath) :
    f.chooseStores paths = f.selectStores paths := by
  have hat : forall k, (do return (← entryAt f.layout k).id) = f.idAt k := by
    intro k
    unfold entryAt idAt
    cases f.layout[k]? with
    | none => rfl
    | some inst => rfl
  unfold chooseStores selectStores
  cases paths.mapM fun path => path.stores.mapM f.slot with
  | error fault => rfl
  | ok family =>
      rw [ok_bind, ok_bind, HittingSet.tallied_eq_steps, ok_bind]
      simp only [← hat, bind_assoc, pure_bind]

theorem exists_analysis (oracle : AliasOracle) :
    exists analysis, f.analyze oracle = .ok analysis := by
  rcases boundaries_hit hf oracle with ⟨boundaries, hboundaries, _⟩
  unfold Function.boundaries at hboundaries
  cases hanalysis : f.analyze oracle with
  | error fault =>
      rw [hanalysis] at hboundaries
      cases hboundaries
  | ok analysis => exact ⟨analysis, rfl⟩

theorem ends_runAnalysis (oracle : AliasOracle) :
    exists analysis, (f.runAnalysis oracle).Ends analysis ∧ f.analyze oracle = .ok analysis := by
  rcases exists_analysis hf oracle with ⟨analysis, hanalysis⟩
  have hpaths : forall hazard, hazard ∈ f.hazards oracle -> exists path,
      f.cutPathIn f.dominators hazard = .ok path ∧ (f.pathOf f.dominators hazard).Ends path := by
    intro hazard hmem
    rcases (mem_hazards_iff hf).mp hmem with ⟨load, store, _, hload, hstore, _, _, rfl⟩
    exact ⟨_, cutPath_eq hf hload hstore, ends_pathOf hf hload hstore⟩
  rcases exists_ends_mapM hpaths with ⟨paths, hplain, hruns⟩
  have hresult := hanalysis
  unfold analyze at hresult
  dsimp only at hresult
  rw [hplain, ok_bind, ← chooseStores_eq] at hresult
  cases hchoice : f.chooseStores paths with
  | error fault =>
      rw [hchoice] at hresult
      cases hresult
  | ok selection =>
      rw [hchoice] at hresult
      cases hresult
      refine ⟨_, ?_, hanalysis⟩
      refine (ends_lift (findAll_eq hf oracle)).bind ?_
      refine (Digraph.ends_computeDominators (graph_closed hf) f.entry).bind ?_
      exact hruns.bind ((ends_lift hchoice).bind (ends_pure _))

end Finished
end Function
end SafeRestart
