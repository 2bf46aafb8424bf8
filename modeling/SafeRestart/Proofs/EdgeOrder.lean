import SafeRestart.Proofs.AnalysisRun
import SafeRestart.Proofs.DominatorFixpoint
import SafeRestart.Proofs.Guarded.Request
import SafeRestart.Proofs.HazardSearch
import SafeRestart.Proofs.OpenRanges
import SafeRestart.Proofs.RegionWalk

/-!
# The order of edges plays no part

Successors and predecessors come in the order in which edges were added, and every search visits
them in that order.  Still, what a search finds is a set, and each result is made from such sets in
an order of its own: by slots, by storage locations, or as the spans of a point set.  So two
functions that differ in the order of their edges have the same results.

The iterations and worklists that compute these results do take other turns: blocks are ranked,
pushed and visited in another order.  They end in the results all the same.
-/

namespace SafeRestart

/-!
# Results made from sets
-/

theorem Search.mem_sweep_congr {α : Type} [DecidableEq α] {next next' : α -> List α}
    {roots roots' pool : List α} {w : α} (hnext : forall x y, y ∈ next x <-> y ∈ next' x)
    (hroots : forall x, x ∈ roots <-> x ∈ roots') :
    w ∈ sweep next roots pool <-> w ∈ sweep next' roots' pool := by
  have hsame : Into next pool = Into next' pool := by
    funext x y
    exact propext (and_congr_left' (hnext x y))
  rw [mem_sweep_iff, mem_sweep_iff, hsame]
  simp only [hroots]

theorem Search.mem_sweep_stopped_congr {α : Type} [DecidableEq α] {next next' : α -> List α}
    {roots roots' pool : List α} {w : α} (stopped : α -> Prop) [DecidablePred stopped]
    (hnext : forall x y, y ∈ next x <-> y ∈ next' x)
    (hroots : forall x, x ∈ roots <-> x ∈ roots') :
    w ∈ sweep (fun x => if stopped x then [] else next x) roots pool <->
      w ∈ sweep (fun x => if stopped x then [] else next' x) roots' pool := by
  apply mem_sweep_congr _ hroots
  intro x y
  split
  · exact Iff.rfl
  · exact hnext x y

/-!
# Graphs
-/

namespace Digraph

universe u

variable {α : Type u} {g : Digraph α} {edges : List (Nat × Nat)}

def rewired (g : Digraph α) (edges : List (Nat × Nat)) : Digraph α := { g with edges := edges }

section Rewired

variable (h : forall e, e ∈ edges <-> e ∈ g.edges)
include h

theorem mem_succs_rewired (b c : Nat) : c ∈ (g.rewired edges).succs b <-> c ∈ g.succs b := by
  rw [mem_succs_iff, mem_succs_iff]
  exact h (b, c)

theorem mem_preds_rewired (b c : Nat) : b ∈ (g.rewired edges).preds c <-> b ∈ g.preds c := by
  rw [mem_preds_iff, mem_preds_iff]
  exact h (b, c)

theorem mem_reached_rewired (entry b : Nat) :
    b ∈ (g.rewired edges).reached entry <-> b ∈ g.reached entry :=
  Search.mem_sweep_congr (mem_succs_rewired h) fun _ => Iff.rfl

theorem mem_reachedAvoiding_rewired (entry a b : Nat) :
    b ∈ (g.rewired edges).reachedAvoiding entry a <-> b ∈ g.reachedAvoiding entry a :=
  Search.mem_sweep_stopped_congr (· = a) (mem_succs_rewired h) fun _ => Iff.rfl

theorem dominatorTree_rewired (entry : Nat) :
    (g.rewired edges).dominatorTree entry = g.dominatorTree entry := by
  have hstrict : (g.rewired edges).strictDominators entry = g.strictDominators entry := by
    rw [strictDominators_eq, strictDominators_eq]
    simp only [mem_reached_rewired h, mem_reachedAvoiding_rewired h]
    rfl
  unfold dominatorTree
  rw [hstrict]

end Rewired

end Digraph

/-!
# Assembling

Taken without its edge steps, a sequence of steps assembles all but the edges.
-/

namespace Assembly

variable {name : String} {a : Assembly} {steps steps' : List Step} {f f' : Function}

/-- The sequences differ only in where, in which order and how often they add their edges. -/
structure SameUpToEdges (steps steps' : List Step) : Prop where
  others : steps.filter (fun s => s.edge?.isNone) = steps'.filter fun s => s.edge?.isNone
  edges : forall source target, .connect source target ∈ steps <-> .connect source target ∈ steps'

def withEdges (a : Assembly) (edges : List (Nat × Nat)) : Assembly := { a with edges := edges }

theorem step_withEdges {s : Step} (hs : s.edge? = none) (edges : List (Nat × Nat)) :
    (a.withEdges edges).step s = (a.step s).withEdges edges := by
  cases s with
  | declare kind name flags => rfl
  | openBlock name => rfl
  | select b =>
      show (if b < a.blocks.length then _ else _) =
        (if b < a.blocks.length then _ else _ : Assembly).withEdges edges
      split
      · rfl
      · rfl
  | emit op =>
      have hselected : (a.withEdges edges).selected = a.selected := rfl
      unfold step
      dsimp only
      rw [hselected]
      cases a.selected with
      | some b => rfl
      | none => rfl
  | connect source target => cases hs

theorem run_withoutEdges (name : String) (steps : List Step) :
    (run name steps).withEdges [] = run name (steps.filter fun s => s.edge?.isNone) := by
  induction steps using List.reverseRecOn with
  | nil => rfl
  | append_singleton steps s ih =>
      rw [run_snoc, List.filter_append]
      cases hs : s.edge? with
      | none =>
          rw [List.filter_cons_of_pos (by simp [hs]), List.filter_nil, run_snoc, ← ih,
            step_withEdges hs]
      | some e =>
          -- An edge step changes nothing but the edges, which are dropped on both sides.
          rw [List.filter_cons_of_neg (by simp [hs]), List.filter_nil, List.append_nil, ← ih,
            Step.edge?_eq_some_iff.mp hs]
          rfl

theorem run_sameUpToEdges (name : String) (h : SameUpToEdges steps steps') :
    run name steps' = (run name steps).withEdges (run name steps').edges := by
  have hothers : (run name steps').withEdges [] = (run name steps).withEdges [] := by
    rw [run_withoutEdges, run_withoutEdges, h.others]
  exact congrArg (fun a => a.withEdges (run name steps').edges) hothers

end Assembly

/-!
# Functions
-/

namespace Function

variable {f : Function} {edges : List (Nat × Nat)}

def rewired (f : Function) (edges : List (Nat × Nat)) : Function :=
  { f with graph := f.graph.rewired edges }

theorem layout_rewired (f : Function) (edges : List (Nat × Nat)) :
    (f.rewired edges).layout = f.layout := rfl

theorem eq_rewired {f f' : Function} (hname : f'.name = f.name) (hstorage : f'.storage = f.storage)
    (hblocks : f'.blocks = f.blocks) : f' = f.rewired f'.graph.edges := by
  rcases f with ⟨name, storage, ⟨nodes, edges⟩⟩
  rcases f' with ⟨name', storage', ⟨nodes', edges'⟩⟩
  cases hname
  cases hstorage
  cases hblocks
  rfl

theorem assemble_sameUpToEdges {name : String} {steps steps' : List Step} {f f' : Function}
    (hsame : Assembly.SameUpToEdges steps steps') (h : assemble name steps = .ok f)
    (h' : assemble name steps' = .ok f') :
    exists edges, f' = f.rewired edges ∧ forall e, e ∈ edges <-> e ∈ f.graph.edges := by
  have hrun := Assembly.run_sameUpToEdges name hsame
  rcases Assembly.finish_ok h with ⟨_, hname, hstorage, hblocks, hedges, _⟩
  rcases Assembly.finish_ok h' with ⟨_, hname', hstorage', hblocks', hedges', _⟩
  rw [hrun] at hname' hstorage' hblocks'
  refine ⟨f'.graph.edges, eq_rewired ?_ ?_ ?_, ?_⟩
  · exact hname'.trans hname.symm
  · exact hstorage'.trans hstorage.symm
  · exact hblocks'.trans hblocks.symm
  · intro e
    rw [hedges', hedges, Assembly.mem_edges_run_iff, Assembly.mem_edges_run_iff]
    exact (hsame.edges e.1 e.2).symm

section Rewired

variable (h : forall e, e ∈ edges <-> e ∈ f.graph.edges)
include h

theorem dominators_rewired : (f.rewired edges).dominators = f.dominators :=
  Digraph.dominatorTree_rewired h f.entry

theorem instDominates_rewired (a b : Nat) :
    (f.rewired edges).instDominates a b = f.instDominates a b := by
  unfold instDominates
  rw [dominators_rewired h]
  rfl

theorem exits_rewired : (f.rewired edges).exits = f.exits := by
  apply List.filter_congr
  intro b _
  rw [Bool.eq_iff_iff, List.isEmpty_iff, List.isEmpty_iff, List.eq_nil_iff_forall_not_mem,
    List.eq_nil_iff_forall_not_mem]
  exact forall_congr' fun c => not_congr (Digraph.mem_succs_rewired h b c)

theorem mem_next_rewired (k j : Nat) : j ∈ (f.rewired edges).next k <-> j ∈ f.next k := by
  have hsize : (f.rewired edges).blockSize = f.blockSize := rfl
  unfold next
  rw [layout_rewired, hsize]
  cases f.layout[k]? with
  | none => exact Iff.rfl
  | some inst =>
      dsimp only
      split
      · exact Iff.rfl
      · rw [List.mem_map, List.mem_map]
        exact exists_congr fun c => and_congr_left' (Digraph.mem_succs_rewired h inst.block c)

theorem mem_prev_rewired (k j : Nat) : j ∈ (f.rewired edges).prev k <-> j ∈ f.prev k := by
  unfold prev
  rw [layout_rewired]
  cases f.layout[k]? with
  | none => exact Iff.rfl
  | some inst =>
      dsimp only
      split
      · exact Iff.rfl
      · rw [List.mem_map, List.mem_map]
        exact exists_congr fun b => and_congr_left' (Digraph.mem_preds_rewired h b inst.block)

/-!
# Hazards and boundaries
-/

theorem mem_endangered_rewired (oracle : AliasOracle) (k : Nat) (target : MemoryLocation)
    (j : Nat) :
    j ∈ (f.rewired edges).endangered oracle k target <-> j ∈ f.endangered oracle k target := by
  unfold endangered
  rw [List.mem_filter, List.mem_filter]
  apply and_congr_left'
  exact Search.mem_sweep_stopped_congr
    (fun j => (f.layout[j]?).any (Hazard.ends oracle target) = true) (mem_prev_rewired h)
    (mem_prev_rewired h k)

theorem hazards_rewired (oracle : AliasOracle) :
    (f.rewired edges).hazards oracle = f.hazards oracle := by
  unfold hazards
  rw [layout_rewired]
  congr
  funext placed
  split
  · rename_i target _
    rw [Ascending.ofList_congr (mem_endangered_rewired h oracle placed.2 target)]
    rfl
  · rfl

/-- The hazards of one store are listed as the search finds them, which may be in another order. -/
theorem perm_hazardsOf_rewired (oracle : AliasOracle) (i : Nat) :
    ((f.rewired edges).hazardsOf oracle i).Perm (f.hazardsOf oracle i) := by
  have hendangered (k : Nat) (target : MemoryLocation) :
      ((f.rewired edges).endangered oracle k target).Perm (f.endangered oracle k target) :=
    (List.perm_ext_iff_of_nodup nodup_endangered nodup_endangered).mpr
      (mem_endangered_rewired h oracle k target)
  unfold hazardsOf
  have hslot : (f.rewired edges).slot? i = f.slot? i := rfl
  have hinst : (f.rewired edges).inst? i = f.inst? i := rfl
  rw [hslot, hinst]
  split
  · exact (hendangered _ _).filterMap _
  · exact List.Perm.refl _

theorem analyze_rewired (oracle : AliasOracle) :
    (f.rewired edges).analyze oracle = f.analyze oracle := by
  unfold analyze
  rw [hazards_rewired h, dominators_rewired h]
  rfl

/-!
# Live ranges
-/

theorem mem_liveSlots_rewired (s k : Nat) :
    k ∈ (f.rewired edges).liveSlots s <-> k ∈ f.liveSlots s := by
  apply Search.mem_sweep_congr
  · intro x y
    rw [List.mem_filter, List.mem_filter]
    exact and_congr_left' (mem_prev_rewired h x y)
  · exact fun _ => Iff.rfl

theorem livePoints_rewired (s : Nat) : (f.rewired edges).livePoints s = f.livePoints s := by
  have hafter : forall k, (((f.rewired edges).next k).any fun j => j ∈ f.liveSlots s) =
      (f.next k).any fun j => j ∈ f.liveSlots s := by
    intro k
    rw [Bool.eq_iff_iff]
    simp only [List.any_eq_true, mem_next_rewired h]
  apply IntervalSet.ofSpans_congr
  intro r
  simp only [List.mem_append, List.mem_map, mem_liveSlots_rewired h, hafter]
  exact Iff.rfl

theorem liveIntervals_rewired : (f.rewired edges).liveIntervals = f.liveIntervals := by
  unfold liveIntervals
  simp only [livePoints_rewired h]
  rfl

end Rewired

end Function

/-!
# Regions
-/

namespace RegionModel

variable {m : RegionModel} {edges : List (Nat × Nat)}

def rewired (m : RegionModel) (edges : List (Nat × Nat)) : RegionModel :=
  { m with function := m.function.rewired edges }

section Rewired

variable (h : forall e, e ∈ edges <-> e ∈ m.function.graph.edges)
include h

theorem mem_nextInside_rewired (k j : Nat) :
    j ∈ (m.rewired edges).nextInside k <-> j ∈ m.nextInside k := by
  unfold nextInside
  rw [List.mem_filter, List.mem_filter]
  exact and_congr_left' (Function.mem_next_rewired h k j)

theorem mem_origins_rewired (k j : Nat) :
    j ∈ (m.rewired edges).origins k <-> j ∈ m.origins k :=
  Search.mem_sweep_stopped_congr (· ∈ m.entries) (Function.mem_prev_rewired h) fun _ => Iff.rfl

theorem containing_rewired (i : Nat) : (m.rewired edges).containing i = m.containing i := by
  unfold containing
  simp only [mem_origins_rewired h]
  rfl

theorem pointsAfter_rewired (k : Nat) : (m.rewired edges).pointsAfter k = m.pointsAfter k := by
  apply IntervalSet.ofSpans_congr
  intro r
  rw [List.mem_cons, List.mem_cons, List.mem_map, List.mem_map]
  apply or_congr_right
  apply exists_congr
  intro j
  apply and_congr_left'
  exact Search.mem_sweep_congr (mem_nextInside_rewired h) (mem_nextInside_rewired h k)

theorem pointsAfterInst_rewired (i : Nat) :
    (m.rewired edges).pointsAfterInst i = m.pointsAfterInst i := by
  unfold pointsAfterInst
  rw [funext (pointsAfter_rewired h)]
  rfl

theorem pointsUntil_rewired (r : Region) (stop : Instruction -> Bool) :
    (m.rewired edges).pointsUntil r stop = m.pointsUntil r stop := by
  apply IntervalSet.ofSpans_congr
  intro span
  rw [List.mem_map, List.mem_map]
  apply exists_congr
  intro j
  apply and_congr_left'
  exact Search.mem_sweep_stopped_congr (fun k => (m.function.layout[k]?).any stop = true)
    (mem_nextInside_rewired h) fun _ => Iff.rfl

end Rewired

end RegionModel

/-!
# Shadows
-/

namespace Setting

variable {σ : Setting} {edges : List (Nat × Nat)}

def rewired (σ : Setting) (edges : List (Nat × Nat)) : Setting :=
  { σ with model := σ.model.rewired edges }

section Rewired

variable (h : forall e, e ∈ edges <-> e ∈ σ.function.graph.edges)
include h

theorem verifyFunction_rewired : (σ.rewired edges).verifyFunction = σ.verifyFunction := by
  have hpoints : (σ.rewired edges).model.pointsIn = σ.model.pointsIn :=
    funext fun r => RegionModel.pointsUntil_rewired h r _
  unfold verifyFunction
  rw [hpoints]
  rfl

theorem readSlots_rewired (r : Region) (s : Nat) :
    (σ.rewired edges).readSlots r s = σ.readSlots r s := by
  have huntil : (σ.rewired edges).model.pointsUntil = σ.model.pointsUntil :=
    funext fun r => funext fun stop => RegionModel.pointsUntil_rewired h r stop
  unfold readSlots
  rw [huntil]
  rfl

theorem stems_rewired (r : Region) (s : Nat) (location : StorageLocation) :
    (σ.rewired edges).stems r s location = σ.stems r s location := by
  unfold stems
  rw [readSlots_rewired h]
  rfl

theorem addRegion_rewired (s : Nat) (location : StorageLocation) (live : IntervalSet) :
    (σ.rewired edges).addRegion s location live = σ.addRegion s location live := by
  have hafter : (σ.rewired edges).model.pointsAfter = σ.model.pointsAfter :=
    funext fun k => RegionModel.pointsAfter_rewired h k
  funext shadow r
  unfold addRegion
  rw [stems_rewired h, hafter]
  rfl

theorem computeShadow_rewired : (σ.rewired edges).computeShadow = σ.computeShadow := by
  funext s
  unfold computeShadow
  simp only [addRegion_rewired h]
  rfl

theorem shadow_rewired : (σ.rewired edges).shadow = σ.shadow := by
  funext s
  unfold shadow
  rw [computeShadow_rewired h]

theorem coversExit_rewired : (σ.rewired edges).coversExit = σ.coversExit := by
  funext shadow
  unfold coversExit
  have hexits : (σ.rewired edges).function.exits = σ.function.exits := Function.exits_rewired h
  rw [hexits]
  rfl

theorem answer_rewired (request : Request) :
    (σ.rewired edges).answer request = σ.answer request := by
  have hshadow := shadow_rewired h
  unfold answer
  cases request with
  | shadow s => simp only [hshadow]
  | recompute s => simp only [recompute, hshadow]
  | forget s => rfl
  | forgetAll => rfl
  | clobberedByInst s i =>
      simp only [isClobberedByInst, hshadow]
      rfl
  | clobberedByInterval s other =>
      simp only [isClobberedByInterval, hshadow]
      rfl
  | clobberedByRestore s reg =>
      simp only [isClobberedByRestore, hshadow, coversExit_rewired h]
      rfl
  | overlapped s other =>
      simp only [isOverlappedByInterval, hshadow]
      rfl
  | registersMergeable a b =>
      simp only [areRegistersMergeable, hshadow]
      rfl
  | slotsMergeable a b =>
      simp only [areSlotsMergeable, hshadow]
      rfl
  | verify => simp only [verifyFunction_rewired h]

theorem respond_rewired (cache : ShadowCache) (request : Request) :
    (σ.rewired edges).respond cache request = σ.respond cache request := by
  unfold respond
  rw [answer_rewired h]

end Rewired

end Setting

/-!
# Iterations and worklists
-/

namespace Function

def RegionsAlike (f f' : Function) (boundaries : BoundarySet) : Prop :=
  exists table table',
    RegionTable.ofBoundaries f boundaries = .ok table ∧
    RegionTable.ofBoundaries f' boundaries = .ok table' ∧
    table'.regions = table.regions ∧
    (forall i, exists ids, table.containing i = .ok ids ∧ table'.containing i = .ok ids) ∧
    (forall i, exists points,
      table.pointsAfter i = .ok points ∧ table'.pointsAfter i = .ok points) ∧
    (forall r stop, r ∈ table.regions -> exists points,
      table.pointsUntil r stop = .ok points ∧ table'.pointsUntil r stop = .ok points) ∧
    forall live config ignore,
      (forall s interval, live.interval s = some interval -> interval.ranges.Canonical) ->
      forall cache request, exists answer,
        Setting.guardedRespond ⟨.ofBoundaries f boundaries, live, config, ignore⟩ table
          cache request = .ok answer ∧
        Setting.guardedRespond ⟨.ofBoundaries f' boundaries, live, config, ignore⟩ table'
          cache request = .ok answer

/-- On both functions every iteration ends and no worklist faults, whatever order the edges give
them, and what they find is the same. -/
structure RunsAlike (f f' : Function) : Prop where
  dominators : exists tree, (f.graph.computeDominators f.entry).Ends tree ∧
    (f'.graph.computeDominators f'.entry).Ends tree
  hazards : forall oracle i, exists found found',
    f.findForStore oracle i = .ok found ∧ f'.findForStore oracle i = .ok found' ∧
      found'.Perm found
  allHazards : forall oracle, exists hazards,
    f.findAll oracle = .ok hazards ∧ f'.findAll oracle = .ok hazards
  analysis : forall oracle, exists analysis,
    (f.runAnalysis oracle).Ends analysis ∧ (f'.runAnalysis oracle).Ends analysis
  liveIntervals : exists intervals,
    f.computeLiveIntervals.Ends intervals ∧ f'.computeLiveIntervals.Ends intervals
  regions : forall boundaries, f.RegionsAlike f' boundaries

variable {f : Function} {edges : List (Nat × Nat)}

theorem regionsAlike_rewired (h : forall e, e ∈ edges <-> e ∈ f.graph.edges) (hf : f.WellFormed)
    (hf' : (f.rewired edges).WellFormed) (hnumbered : f.Numbered) (hsize : f.size < 2147483648)
    (boundaries : BoundarySet) : f.RegionsAlike (f.rewired edges) boundaries := by
  have hnumbered' : (f.rewired edges).Numbered := hnumbered
  rcases RegionTable.ofBoundaries_charts hf hnumbered hsize boundaries with
    ⟨table, htable, hcharts⟩
  rcases RegionTable.ofBoundaries_charts hf' hnumbered' hsize boundaries with
    ⟨table', htable', hcharts'⟩
  have hfits := RegionModel.fits_ofBoundaries hnumbered boundaries
  have hfits' := RegionModel.fits_ofBoundaries hnumbered' boundaries
  have hregions : table'.regions = table.regions := hcharts'.regions.trans hcharts.regions.symm
  refine ⟨table, table', htable, htable', hregions, ?_, ?_, ?_, ?_⟩
  · intro i
    have hsame := RegionModel.containing_rewired (m := .ofBoundaries f boundaries) h i
    exact ⟨_, RegionTable.containing_eq hf hfits hcharts i,
      (RegionTable.containing_eq hf' hfits' hcharts' i).trans (congrArg Except.ok hsame)⟩
  · intro i
    have hsame := RegionModel.pointsAfterInst_rewired (m := .ofBoundaries f boundaries) h i
    exact ⟨_, RegionTable.pointsAfter_eq hf hfits hsize hcharts i,
      (RegionTable.pointsAfter_eq hf' hfits' hsize hcharts' i).trans (congrArg Except.ok hsame)⟩
  · intro r stop hr
    have hsame := RegionModel.pointsUntil_rewired (m := .ofBoundaries f boundaries) h r stop
    have hr' := hr
    rw [← hregions, hcharts'.regions] at hr'
    rw [hcharts.regions] at hr
    exact ⟨_, RegionTable.pointsUntil_eq hf hfits hsize hcharts hr stop,
      (RegionTable.pointsUntil_eq hf' hfits' hsize hcharts' hr' stop).trans
        (congrArg Except.ok hsame)⟩
  · intro live config ignore hlive cache request
    let σ : Setting := ⟨.ofBoundaries f boundaries, live, config, ignore⟩
    have hσ : σ.Sound table := ⟨hf, hsize, hfits, hcharts, hlive⟩
    have hσ' : (σ.rewired edges).Sound table' := ⟨hf', hsize, hfits', hcharts', hlive⟩
    have hsame := Setting.respond_rewired (σ := σ) h cache request
    exact ⟨_, Setting.agrees_answer hσ request cache,
      (Setting.agrees_answer hσ' request cache).trans (congrArg Except.ok hsame)⟩

theorem runsAlike_rewired (h : forall e, e ∈ edges <-> e ∈ f.graph.edges) (hf : f.WellFormed)
    (hf' : (f.rewired edges).WellFormed) (hdeclared : f.Declared) (hnumbered : f.Numbered)
    (hsize : f.size < 2147483648) : f.RunsAlike (f.rewired edges) := by
  constructor
  case dominators =>
    refine ⟨f.dominators, Digraph.ends_computeDominators (graph_closed hf) f.entry, ?_⟩
    rw [← dominators_rewired h]
    exact Digraph.ends_computeDominators (graph_closed hf') f.entry
  case hazards =>
    intro oracle i
    exact ⟨_, _, findForStore_eq hf oracle i, findForStore_eq hf' oracle i,
      perm_hazardsOf_rewired h oracle i⟩
  case allHazards =>
    intro oracle
    refine ⟨_, findAll_eq hf oracle, ?_⟩
    rw [findAll_eq hf', hazards_rewired h]
  case analysis =>
    intro oracle
    rcases ends_runAnalysis hf oracle with ⟨analysis, hends, hplain⟩
    rcases ends_runAnalysis hf' oracle with ⟨analysis', hends', hplain'⟩
    rw [analyze_rewired h, hplain, Except.ok.injEq] at hplain'
    exact ⟨analysis, hends, hplain' ▸ hends'⟩
  case liveIntervals =>
    refine ⟨_, ends_computeLiveIntervals hf hdeclared hsize, ?_⟩
    rw [← liveIntervals_rewired h]
    exact ends_computeLiveIntervals hf' hdeclared hsize
  case regions =>
    intro boundaries
    exact regionsAlike_rewired h hf hf' hnumbered hsize boundaries

/-!
# All results together
-/

theorem edge_order_irrelevant {name : String} {steps steps' : List Step} {f f' : Function}
    (hsame : Assembly.SameUpToEdges steps steps') (h : assemble name steps = .ok f)
    (h' : assemble name steps' = .ok f') :
    (f.size < 2147483648 -> f.RunsAlike f') ∧
    (forall oracle, f'.analyze oracle = f.analyze oracle) ∧
    (forall a b, f'.dominators.dominates a b = f.dominators.dominates a b) ∧
    (forall b, f'.dominators.immediate b = f.dominators.immediate b) ∧
    (forall a b, f'.instDominates a b = f.instDominates a b) ∧
    f'.liveIntervals = f.liveIntervals ∧
    forall boundaries : BoundarySet,
      let m := RegionModel.ofBoundaries f boundaries
      let m' := RegionModel.ofBoundaries f' boundaries
      m'.regions = m.regions ∧
      (forall i, m'.containing i = m.containing i) ∧
      (forall i, m'.pointsAfterInst i = m.pointsAfterInst i) ∧
      (forall r stop, m'.pointsUntil r stop = m.pointsUntil r stop) ∧
      forall live config ignore,
        let σ : Setting := ⟨m, live, config, ignore⟩
        let σ' : Setting := ⟨m', live, config, ignore⟩
        σ'.verifyFunction = σ.verifyFunction ∧
        (forall s, σ'.computeShadow s = σ.computeShadow s) ∧
        forall cache request, σ'.respond cache request = σ.respond cache request := by
  rcases assemble_sameUpToEdges hsame h h' with ⟨edges, rfl, hedges⟩
  have htree := dominators_rewired hedges
  have hruns := runsAlike_rewired hedges (wellFormed_of_assemble h) (wellFormed_of_assemble h')
    (declared_of_assemble h) (numbered_of_assemble h)
  refine ⟨hruns, analyze_rewired hedges, ?_, ?_, instDominates_rewired hedges,
    liveIntervals_rewired hedges, ?_⟩
  · rw [htree]
    exact fun a b => rfl
  · rw [htree]
    exact fun b => rfl
  · intro boundaries m m'
    have hm : m' = m.rewired edges := rfl
    rw [hm]
    refine ⟨rfl, RegionModel.containing_rewired hedges, RegionModel.pointsAfterInst_rewired hedges,
      RegionModel.pointsUntil_rewired hedges, ?_⟩
    intro live config ignore σ σ'
    have hσ : σ' = σ.rewired edges := rfl
    rw [hσ]
    exact ⟨Setting.verifyFunction_rewired hedges,
      fun s => congrFun (Setting.computeShadow_rewired hedges) s, Setting.respond_rewired hedges⟩

/-- With its edges added first and in the other order, the polling loop looks different from
inside, while its test is still reached from both regions. -/
theorem poll_edges_first :
    assemble "poll" RegionModel.pollSteps = .ok RegionModel.poll ∧
      assemble "poll" ([.connect 1 1, .connect 0 1] ++ RegionModel.pollSteps) =
        .ok (RegionModel.poll.rewired [(1, 1), (0, 1)]) ∧
      RegionModel.poll.prev 1 = [0, 3] ∧
      (RegionModel.poll.rewired [(1, 1), (0, 1)]).prev 1 = [3, 0] ∧
      RegionModel.poll.RunsAlike (RegionModel.poll.rewired [(1, 1), (0, 1)]) ∧
      (RegionModel.ofBoundaries (RegionModel.poll.rewired [(1, 1), (0, 1)])
        (.ofList [2])).containing 1 = [0, 1] := by
  have hpoll : assemble "poll" RegionModel.pollSteps = .ok RegionModel.poll := rfl
  have hfirst : assemble "poll" ([.connect 1 1, .connect 0 1] ++ RegionModel.pollSteps) =
      .ok (RegionModel.poll.rewired [(1, 1), (0, 1)]) := rfl
  have hsame : Assembly.SameUpToEdges RegionModel.pollSteps
      ([.connect 1 1, .connect 0 1] ++ RegionModel.pollSteps) := by
    constructor
    · rfl
    · intro source target
      simp [RegionModel.pollSteps]
      omega
  rcases edge_order_irrelevant hsame hpoll hfirst with ⟨hruns, _, _, _, _, _, hregions⟩
  refine ⟨hpoll, hfirst, by decide, by decide, hruns (by decide), ?_⟩
  rcases hregions (.ofList [2]) with ⟨_, hcontaining, _⟩
  rw [hcontaining]
  decide +kernel

end Function

end SafeRestart
