import SafeRestart.Proofs.LiveRanges
import SafeRestart.Proofs.Tables

/-!
# What the tables of a function show

The tables are made from the steps, the function is what the steps assemble.  Looking something up
in the tables gives what the function gives, for every number and with the same faults; steps that
assemble no function build no tables, for the same reason.
-/

namespace SafeRestart

open Guarded

namespace Function

variable {f : Function} {name : String} {steps : List Step}

def records (f : Function) : List BlockRecord :=
  f.blocks.zipIdx.map fun block => ⟨block.2, block.1.name, block.1.insts.map Instruction.id⟩

theorem records_ids (f : Function) : f.records.map BlockRecord.id = List.range f.blockCount := by
  rw [records, List.map_map, List.range_eq_range']
  exact List.zipIdx_map_snd 0 f.blocks

theorem records_insts (f : Function) :
    f.records.map BlockRecord.insts = f.blocks.map fun block => block.insts.map Instruction.id := by
  rw [records, List.map_map]
  conv_rhs => rw [← List.zipIdx_map_fst 0 f.blocks, List.map_map]
  rfl

theorem records_of_finish {a : Assembly} (h : a.finish = .ok f) :
    a.blocks.zipIdx.map a.record = f.records := by
  rcases Assembly.finish_ok h with ⟨_, _, _, hblocks, _⟩
  have hkeys : a.blocks.zipIdx.map Prod.snd = List.range a.blocks.zipIdx.length := by
    rw [List.zipIdx_map_snd, List.length_zipIdx, List.range_eq_range']
  rw [records, hblocks, Assembly.unconnected_nodes, zipIdx_of_keys hkeys, List.map_map]
  rfl

end Function

namespace Tables

/-- The look-ups in the tables are those in the function, faults included. -/
structure Shows (tables : Tables) (f : Function) : Prop where
  name : tables.name = f.name
  storage : tables.storage = f.storage
  blocks : tables.graph.nodes = f.records
  count : tables.instructions.length = f.size
  inst? : forall i, tables.inst? i = f.inst? i
  inst : forall i, tables.inst i = f.inst i
  layout : tables.slots.layout = f.layout.map Instruction.id
  slot : forall i, tables.slot i = f.slot i
  usePoint : forall i, tables.usePoint i = f.guardedUse i
  defPoint : forall i, tables.defPoint i = f.guardedDef i
  instAt? : forall p, tables.instAt? p = f.instAt? p
  blockSpan : forall b, tables.blockSpan b = f.blockSpan b
  endPoint : tables.endPoint = .ok f.endPoint
  defs : forall s, tables.defsOf s = f.defsOf s
  uses : forall s, tables.usesOf s = f.usesOf s
  succs : forall b, tables.graph.succsOf b = f.graph.succs b
  preds : forall b, tables.graph.predsOf b = f.graph.preds b
  exits : tables.exits = f.exits

end Tables

namespace Function

section Finished

variable {f : Function} {name : String} {steps : List Step}
variable (hfinished : Function.assemble name steps = .ok f)
include hfinished

theorem size_of_assemble : f.size = Assembly.instsIn steps := by
  have hperm := Assembly.perm_layout_of_finish hfinished
  simpa [size] using hperm.length_eq

theorem insts_by_number (i : Nat) : (Assembly.run name steps).insts[i]? = f.inst? i := by
  have hf := wellFormed_of_assemble hfinished
  have hcon := Assembly.consistent_run name steps
  cases hinst : (Assembly.run name steps).insts[i]? with
  | some inst =>
      have hmem := (Assembly.mem_layout_iff_mem_insts hfinished).mpr (List.mem_of_getElem? hinst)
      rw [← key_of_getElem? hcon.numbered hinst]
      exact (inst?_of_layout hf ((mem_layout_iff hf).mp hmem)).symm
  | none =>
      symm
      apply List.find?_eq_none.mpr
      intro inst hmem hid
      have hplace := getElem?_of_keys hcon.numbered
        ((Assembly.mem_layout_iff_mem_insts hfinished).mp hmem)
      rw [beq_iff_eq.mp hid, hinst] at hplace
      cases hplace

theorem inst_of_number (i : Nat) :
    entryAt (Assembly.run name steps).insts i = f.inst i := by
  rw [entryAt, insts_by_number hfinished i, inst]
  cases f.inst? i with
  | none => rfl
  | some inst => rfl

theorem slot_of_position {slots : SlotIndexes} (hplaces : slots.Places f.size)
    (hlayout : slots.layout = f.layout.map Instruction.id) (i : Nat) :
    entryAt slots.position i = f.slot i := by
  have hf := wellFormed_of_assemble hfinished
  by_cases hi : i < f.size
  · have hmem : i ∈ f.layout.map Instruction.id := by
      rw [(Assembly.perm_layout_of_finish hfinished).mem_iff, List.mem_range]
      exact size_of_assemble hfinished ▸ hi
    rcases List.getElem?_of_mem hmem with ⟨k, hk⟩
    rw [entryAt_of_some (hplaces.position k i (hlayout ▸ hk))]
    rw [List.getElem?_map, Option.map_eq_some_iff] at hk
    rcases hk with ⟨inst, hinst, rfl⟩
    rw [slot, slot?_of_layout hf hinst]
  · have hnone : f.slot? i = none := by
      apply List.findIdx?_eq_none_iff.mpr
      intro inst hinst
      have hlt := numbered_of_assemble hfinished inst hinst
      rw [beq_eq_false_iff_ne]
      omega
    rw [entryAt, List.getElem?_eq_none (by rw [hplaces.length]; omega), slot, hnone]

end Finished

section Blocks

variable (f : Function)

theorem flatten_take_records (b : Nat) :
    ((f.records.map BlockRecord.insts).take b).flatten.length = f.blockStart b := by
  rw [records_insts, ← List.map_take, blockStart, List.length_flatten, List.map_map,
    List.length_flatMap]
  simp [Function.comp_def]

theorem flatten_records :
    (f.records.map BlockRecord.insts).flatten = f.layout.map Instruction.id := by
  rw [records_insts, layout, List.map_flatMap, List.flatMap_def]

theorem blockSpan_of_ranges (b : Nat) :
    entryAt (SlotIndexes.spansFrom 0 (f.records.map BlockRecord.insts)) b = f.blockSpan b := by
  have hlength : (f.records.map BlockRecord.insts).length = f.blockCount := by
    rw [records_insts, List.length_map, blockCount]
  by_cases hb : b < f.blockCount
  · rw [entryAt_of_some (SlotIndexes.getElem?_spansFrom (hlength ▸ hb)), blockSpan_of_lt hb,
      flatten_take_records, flatten_take_records, Nat.zero_add, Nat.zero_add]
  · have hnone : (SlotIndexes.spansFrom 0 (f.records.map BlockRecord.insts))[b]? = none := by
      apply List.getElem?_eq_none
      rw [SlotIndexes.length_spansFrom, hlength]
      omega
    rw [entryAt, hnone, blockSpan, if_neg hb]

theorem row_of_occurrences {f : Function} (hf : f.WellFormed) {names : Instruction -> List Nat}
    (hdeclared : forall inst, inst ∈ f.layout ->
      forall s, s ∈ names inst -> s < f.storage.length) (s : Nat) :
    (((List.range f.storage.length).map (occurrences names f.layout)).map
        (List.destutter (· ≠ ·)))[s]?.getD [] =
      (f.layout.filter fun inst => (names inst).contains s).map Instruction.id := by
  rw [List.map_map, Digraph.row_of_closed]
  · exact destutter_occurrences hf.distinct s
  · intro hs
    have hnone : (f.layout.filter fun inst => (names inst).contains s) = [] := by
      apply List.filter_eq_nil_iff.mpr
      intro inst hinst hnames
      have hlt := hdeclared inst hinst s (List.contains_iff_mem.mp hnames)
      omega
    rw [Function.comp_apply, destutter_occurrences hf.distinct s, hnone]
    rfl

end Blocks

theorem exists_slots {f : Function} {name : String} {steps : List Step}
    (hfinished : Function.assemble name steps = .ok f)
    (hsize : f.size < 2147483648) :
    exists slots, SlotIndexes.ofBlocks (f.records.map BlockRecord.insts) f.size = .ok slots ∧
      slots.Places f.size ∧ slots.layout = f.layout.map Instruction.id ∧
        slots.ranges = SlotIndexes.spansFrom 0 (f.records.map BlockRecord.insts) := by
  have hf := wellFormed_of_assemble hfinished
  have hflatten := flatten_records f
  have hstart : (SlotIndexes.mk [] (List.replicate f.size 0) []).Places f.size :=
    ⟨List.length_replicate, fun k i h => by cases h⟩
  have hfits : forall i, i ∈ (f.records.map BlockRecord.insts).flatten -> i < f.size := by
    intro i hi
    rw [hflatten] at hi
    rcases List.mem_map.mp hi with ⟨inst, hmem, rfl⟩
    exact numbered_of_assemble hfinished inst hmem
  have hnew : ([] ++ (f.records.map BlockRecord.insts).flatten).Nodup := by
    rw [List.nil_append, hflatten]
    exact hf.distinct
  have hpoints : 2 * (0 + (f.records.map BlockRecord.insts).flatten.length) ≤ maxIndex := by
    rw [hflatten, List.length_map, Nat.zero_add]
    exact point_le_maxIndex hsize (Nat.le_refl _)
  rcases SlotIndexes.exists_addBlocks hstart hfits hnew hpoints with
    ⟨slots, hslots, hplaces, hlayout, hranges⟩
  exact ⟨slots, hslots, hplaces, hlayout.trans hflatten, hranges⟩

end Function

namespace Assembly

theorem gives_addEdges (a : Assembly) :
    Gives ((Digraph.mk (a.blocks.zipIdx.map a.record) []).adjacency.addEdges a.edges)
      ((a.unconnected.addEdges a.edges).map fun graph =>
        (graph.withNodes (a.blocks.zipIdx.map a.record)).adjacency) := by
  have hrecords : (a.blocks.zipIdx.map a.record).length = a.unconnected.size := by
    simp [unconnected, Digraph.size]
  have hedges := Digraph.gives_addEdges
    (a.unconnected.withNodes (a.blocks.zipIdx.map a.record)) a.edges
  rw [Digraph.addEdges_withNodes hrecords] at hedges
  cases hadd : a.unconnected.addEdges a.edges with
  | error e =>
      rw [hadd] at hedges
      exact hedges
  | ok graph =>
      rw [hadd] at hedges
      exact hedges

end Assembly

namespace Builder

variable {f : Function} {name : String} {steps : List Step}

section Finished

variable (hfinished : Function.assemble name steps = .ok f)
include hfinished

theorem shows_tables (hsize : f.size < 2147483648) {slots : SlotIndexes}
    (hplaces : slots.Places f.size) (hlayout : slots.layout = f.layout.map Instruction.id)
    (hranges : slots.ranges = SlotIndexes.spansFrom 0 (f.records.map BlockRecord.insts)) :
    ((Assembly.run name steps).builder.tables (f.graph.withNodes f.records).adjacency
      (Assembly.run name steps).insts slots
      ((List.range f.storage.length).map (occurrences (fun inst => inst.defs) f.layout),
        (List.range f.storage.length).map (occurrences (fun inst => inst.uses) f.layout))).Shows
      f := by
  have hf := Function.wellFormed_of_assemble hfinished
  have hdeclared := Function.declared_of_assemble hfinished
  have hslot := Function.slot_of_position hfinished hplaces hlayout
  rcases Assembly.finish_ok hfinished with ⟨_, hname, hstorage, _⟩
  have hblocks : f.blockCount = (f.graph.withNodes f.records).size := by
    simp [Digraph.withNodes, Digraph.size, Function.records, Function.blockCount]
  have hclosed : (f.graph.withNodes f.records).Closed := by
    intro b c hedge
    rw [← hblocks]
    exact hf.connected hedge
  constructor
  case name => exact hname.symm
  case storage => exact hstorage.symm
  case blocks => rfl
  case count =>
    exact (Assembly.length_insts_run name steps).trans (Function.size_of_assemble hfinished).symm
  case inst? => exact Function.insts_by_number hfinished
  case inst => exact Function.inst_of_number hfinished
  case layout => exact hlayout
  case slot => exact hslot
  case usePoint =>
    intro i
    show (do checkIndex (2 * (← entryAt slots.position i))) = _
    rw [hslot i, Function.guardedUse, Function.usePoint]
    cases f.slot i with
    | error fault => rfl
    | ok k => rfl
  case defPoint =>
    intro i
    show (do checkIndex (2 * (← entryAt slots.position i) + 1)) = _
    rw [hslot i, Function.guardedDef, Function.defPoint]
    cases f.slot i with
    | error fault => rfl
    | ok k => rfl
  case instAt? =>
    intro p
    show slots.layout[p / 2]? = _
    rw [hlayout, List.getElem?_map]
    rfl
  case blockSpan =>
    intro b
    show entryAt slots.ranges b = _
    rw [hranges]
    exact Function.blockSpan_of_ranges f b
  case endPoint =>
    show checkIndex (2 * slots.layout.length) = _
    rw [hlayout, List.length_map]
    exact checkIndex_of_le (Function.point_le_maxIndex hsize (Nat.le_refl _))
  case defs =>
    exact Function.row_of_occurrences hf fun inst hinst s hs => hdeclared inst hinst s (Or.inr hs)
  case uses =>
    exact Function.row_of_occurrences hf fun inst hinst s hs => hdeclared inst hinst s (Or.inl hs)
  case succs => exact Digraph.succsOf_adjacency hclosed
  case preds => exact Digraph.predsOf_adjacency hclosed
  case exits =>
    show (f.records.map BlockRecord.id).filter _ = _
    rw [Function.records_ids]
    refine List.filter_congr fun b _ => ?_
    rw [Digraph.succsOf_adjacency hclosed]
    rfl

theorem exists_index (hsize : f.size < 2147483648) :
    exists tables,
      (Assembly.run name steps).builder.index (f.graph.withNodes f.records).adjacency
        (Assembly.run name steps).insts = .ok tables ∧ tables.Shows f := by
  have hf := Function.wellFormed_of_assemble hfinished
  have hinst := Function.inst_of_number hfinished
  rcases Function.exists_slots hfinished hsize with ⟨slots, hslots, hplaces, hlayout, hranges⟩
  rcases Assembly.finish_ok hfinished with ⟨_, _, hstorage, _⟩
  have hcount : (Assembly.run name steps).insts.length = f.size :=
    (Assembly.length_insts_run name steps).trans (Function.size_of_assemble hfinished).symm
  have heffects := effectsOf_eq
    (fun inst hmem => (hinst inst.id).trans (Function.inst_of_mem hf hmem))
    (Function.declared_of_assemble hfinished)
  refine ⟨_, ?_, shows_tables hfinished hsize hplaces hlayout hranges⟩
  unfold index
  show (SlotIndexes.ofBlocks (f.records.map BlockRecord.insts) _ >>= _) = _
  rw [hcount, hslots, ok_bind, hlayout]
  show (effectsOf _ _ (Assembly.run name steps).storage.length >>= _) = _
  rw [← hstorage, heffects, ok_bind]
  rfl

end Finished

/-- What building answers where assembling has an outcome: the same error, or tables that show the
function. -/
def Builds (building : Guarded Tables) : Except Error Function -> Prop
  | .error e => Gives building (.error e)
  | .ok f => exists tables, Gives building (.ok tables) ∧ tables.Shows f

theorem builds_lookUp {α : Type} {answer : Except Fault α} {a : α} {next : α -> Guarded Tables}
    {outcome : Except Error Function} (h : answer = .ok a) (hnext : Builds (next a) outcome) :
    Builds (ofLookUp answer >>= next) outcome := by
  rw [h]
  exact hnext

theorem builds_connected (hsteps : Assembly.Indexable steps)
    (hfirst : (Assembly.run name steps).firstError? = none) :
    Builds ((Digraph.mk ((Assembly.run name steps).blocks.zipIdx.map
        (Assembly.run name steps).record) []).adjacency.addEdges (Assembly.run name steps).edges >>=
      fun graph => ofLookUp ((Assembly.run name steps).builder.index graph
        (Assembly.run name steps).insts)) (Function.assemble name steps) := by
  have hedges := Assembly.gives_addEdges (Assembly.run name steps)
  cases hadd : (Assembly.run name steps).unconnected.addEdges (Assembly.run name steps).edges with
  | error e =>
      rw [hadd] at hedges
      rw [Function.assemble, Assembly.finish, hfirst, hadd]
      exact gives_bind_error hedges _
  | ok graph =>
      have hfinished : Function.assemble name steps =
          .ok ⟨(Assembly.run name steps).name, (Assembly.run name steps).storage, graph⟩ := by
        rw [Function.assemble, Assembly.finish, hfirst, hadd]
        rfl
      have hsize := Function.size_of_assemble hfinished ▸ hsteps.insts
      rcases exists_index hfinished hsize with ⟨tables, hindex, hshows⟩
      rw [hadd, Function.records_of_finish hfinished] at hedges
      rw [hfinished, Function.records_of_finish hfinished]
      refine ⟨tables, gives_bind_ok hedges ?_, hshows⟩
      dsimp only
      rw [hindex]
      rfl

theorem builds_build (name : String) (hsteps : Assembly.Indexable steps) :
    Builds (build name steps) (Function.assemble name steps) := by
  have hcon := Assembly.consistent_run name steps
  rcases exists_run name hsteps with ⟨b, hrun, htracks⟩
  have hinsts : (Assembly.run name steps).insts.length ≤ maxIndex := by
    have hlt := hsteps.insts
    rw [Assembly.length_insts_run]
    unfold maxIndex
    omega
  have hblocks : (Assembly.run name steps).blocks.length ≤ maxIndex + 1 := by
    rw [Assembly.length_blocks_run]
    exact hsteps.blocks
  have herror := firstError?_eq htracks hcon hinsts
  refine builds_lookUp hrun ?_
  cases hfirst : (Assembly.run name steps).firstError? with
  | some error =>
      rw [hfirst] at herror
      rw [Function.assemble, Assembly.finish, hfirst]
      exact gives_lookUp herror rfl
  | none =>
      rw [hfirst] at herror
      rcases Assembly.firstError?_none hfirst with ⟨hstep, _⟩
      -- Without a misstep the builder is the one that belongs to the assembly.
      have hsame : b = (Assembly.run name steps).builder := htracks.exact hstep
      subst hsame
      refine builds_lookUp herror (builds_lookUp (Assembly.place_builder hcon hblocks) ?_)
      rw [Assembly.filterMap_placing fun inst => Assembly.block_lt_of_mem_insts hstep]
      exact builds_connected hsteps hfirst

end Builder

namespace Function

theorem finished_function_arranged {f : Function} {name : String} {steps : List Step}
    (hfinished : Function.assemble name steps = .ok f) :
    f.Arranged steps ∧
      (Assembly.Indexable steps ->
        exists tables, Gives (Builder.build name steps) (.ok tables) ∧ tables.Shows f) := by
  refine ⟨arranged_of_assemble hfinished, ?_⟩
  intro hsteps
  have hbuild := Builder.builds_build name hsteps
  rw [hfinished] at hbuild
  exact hbuild

/-!
Two blocks filled by turns, with a location named twice in one operation and an edge drawn twice.
-/

def weaveSteps : List Step :=
  [.declare .virtualRegister "v" {}, .openBlock "head", .openBlock "tail", .select 0,
    .emit (.arith "one" [0] []), .select 1, .emit (.arith "two" [] [0, 0]), .connect 0 1,
    .select 0, .emit (.arith "three" [0, 0] [0]), .connect 0 1]

def weave : Function :=
  ⟨"weave", [⟨.virtualRegister, "v", {}⟩],
    ⟨[⟨"head",
        [{ Operation.arith "one" [0] [] with id := 0, block := 0, position := 0 },
          { Operation.arith "three" [0, 0] [0] with id := 2, block := 0, position := 1 }]⟩,
      ⟨"tail", [{ Operation.arith "two" [] [0, 0] with id := 1, block := 1, position := 0 }]⟩],
      [(0, 1)]⟩⟩

theorem weave_arranged :
    Function.assemble "weave" weaveSteps = .ok weave ∧ weave.Arranged weaveSteps ∧
      (exists tables, Gives (Builder.build "weave" weaveSteps) (.ok tables) ∧ tables.Shows weave) ∧
      weave.layout.map Instruction.id = [0, 2, 1] ∧ weave.defsOf 0 = [0, 2] ∧
      weave.usesOf 0 = [2, 1] ∧ weave.exits = [1] := by
  have hfinished : Function.assemble "weave" weaveSteps = .ok weave := rfl
  rcases finished_function_arranged hfinished with ⟨harranged, htables⟩
  exact ⟨hfinished, harranged, htables ⟨by decide, by decide, by decide⟩, rfl, rfl, rfl, rfl⟩

end Function
end SafeRestart
