import Mathlib.Data.List.Destutter
import SafeRestart.Proofs.Adjacency
import SafeRestart.Proofs.Builder

/-!
# The tables of a finished function

What is read off a finished function is looked up in tables that are made once, when the function
is finished: the instructions by number, the layout with the place of each instruction and the
points of each block, the instructions that write or read a storage location, and the neighbours of
each block.  They are filled side by side, each in a loop of its own, from a builder that followed
the steps of an assembly.
-/

namespace SafeRestart

open Guarded

structure BlockRecord where
  id : Nat
  name : String
  insts : List Nat

structure SlotIndexes where
  layout : List Nat
  position : List Nat
  ranges : List Span

structure Tables where
  name : String
  storage : List StorageLocation
  graph : Adjacency BlockRecord
  instructions : List Instruction
  slots : SlotIndexes
  defs : List (List Nat)
  uses : List (List Nat)
  exits : List Nat

namespace Tables

variable (tables : Tables)

def inst? (i : Nat) : Option Instruction := tables.instructions[i]?

def inst (i : Nat) : Except Fault Instruction := entryAt tables.instructions i

def slot (i : Nat) : Except Fault Nat := entryAt tables.slots.position i

def usePoint (i : Nat) : Except Fault Nat := do checkIndex (2 * (← tables.slot i))

def defPoint (i : Nat) : Except Fault Nat := do checkIndex (2 * (← tables.slot i) + 1)

def blockSpan (b : Nat) : Except Fault Span := entryAt tables.slots.ranges b

def instAt? (p : Nat) : Option Nat := tables.slots.layout[p / 2]?

def endPoint : Except Fault Nat := checkIndex (2 * tables.slots.layout.length)

def defsOf (s : Nat) : List Nat := tables.defs[s]?.getD []

def usesOf (s : Nat) : List Nat := tables.uses[s]?.getD []

end Tables

/-!
# Making the tables
-/

structure Placing where
  payloads : List (Option Operation)
  instructions : List (Option Instruction)
  graph : Adjacency BlockRecord

namespace Placing

/-- Takes an operation by its number, unless it was taken before, and puts it at its position. -/
def take (p : Placing) (block : Nat) (place : Nat × Nat) : Except Fault Placing := do
  match ← entryAt p.payloads place.1 with
  | none => return p
  | some op =>
      let payloads ← storeAt p.payloads place.1 none
      let inst : Instruction := { op with id := place.1, block := block, position := place.2 }
      let instructions ← storeAt p.instructions place.1 (some inst)
      return { p with payloads := payloads, instructions := instructions }

def addBlock (p : Placing) (entry : (String × List Nat) × Nat) : Except Fault Placing := do
  let block ← checkIndex entry.2
  let p ← entry.1.2.zipIdx.foldlM (fun p place => p.take block place) p
  return { p with graph := p.graph.addNode ⟨block, entry.1.1, entry.1.2⟩ }

end Placing

namespace SlotIndexes

def addInst (slots : SlotIndexes) (i : Nat) : Except Fault SlotIndexes := do
  let position ← storeAt slots.position i slots.layout.length
  return { slots with layout := slots.layout ++ [i], position := position }

def addBlock (slots : SlotIndexes) (ids : List Nat) : Except Fault SlotIndexes := do
  let start ← checkIndex (2 * slots.layout.length)
  let slots ← ids.foldlM addInst slots
  let stop ← checkIndex (2 * slots.layout.length)
  return { slots with ranges := slots.ranges ++ [⟨start, stop⟩] }

def ofBlocks (blocks : List (List Nat)) (count : Nat) : Except Fault SlotIndexes :=
  blocks.foldlM addBlock ⟨[], List.replicate count 0, []⟩

end SlotIndexes

def noteEffects (i : Nat) (rows : List (List Nat)) (locations : List Nat) :
    Except Fault (List (List Nat)) :=
  locations.foldlM (fun rows s => do storeAt rows s ((← entryAt rows s) ++ [i])) rows

def effectsOf (instructions : List Instruction) (layout : List Nat) (count : Nat) :
    Except Fault (List (List Nat) × List (List Nat)) :=
  layout.foldlM (fun rows i => do
    let inst ← entryAt instructions i
    let defs ← noteEffects i rows.1 inst.defs
    let uses ← noteEffects i rows.2 inst.uses
    return (defs, uses)) (List.replicate count [], List.replicate count [])

namespace Builder

def flaw? (b : Builder) (id : Nat) (op : Operation) : Option Error :=
  match op.references.find? fun i => b.payloads.length ≤ i with
  | some missing => some (.unknownInstruction id missing)
  | none =>
      ((op.defs ++ op.uses).find? fun s => b.storage.length ≤ s).map (Error.unknownStorage id)

def firstError? (b : Builder) : Except Fault (Option Error) :=
  match b.misstep with
  | some error => .ok (some error)
  | none =>
      if b.blocks.isEmpty then .ok (some (.noBlocks b.name))
      else
        match b.blocks.find? fun named => named.2.isEmpty with
        | some named => .ok (some (.emptyBlock named.1))
        | none => b.payloads.zipIdx.findSomeM? fun payload => do
            return b.flaw? (← checkIndex payload.2) payload.1.2

def place (b : Builder) : Except Fault Placing :=
  b.blocks.zipIdx.foldlM Placing.addBlock
    ⟨b.payloads.map fun payload => some payload.2, List.replicate b.payloads.length none, .empty⟩

/-- An instruction that names a location more than once has been listed for it more than once;
repeated neighbours are merged. -/
def tables (b : Builder) (graph : Adjacency BlockRecord) (instructions : List Instruction)
    (slots : SlotIndexes) (effects : List (List Nat) × List (List Nat)) : Tables where
  name := b.name
  storage := b.storage
  graph := graph
  instructions := instructions
  slots := slots
  defs := effects.1.map (List.destutter (· ≠ ·))
  uses := effects.2.map (List.destutter (· ≠ ·))
  exits := (graph.nodes.map BlockRecord.id).filter fun block => (graph.succsOf block).isEmpty

def index (b : Builder) (graph : Adjacency BlockRecord) (instructions : List Instruction) :
    Except Fault Tables := do
  let slots ← SlotIndexes.ofBlocks (graph.nodes.map BlockRecord.insts) instructions.length
  let effects ← effectsOf instructions slots.layout b.storage.length
  return b.tables graph instructions slots effects

def finish (b : Builder) : Guarded Tables := do
  match ← ofLookUp b.firstError? with
  | some error => throw error
  | none =>
      let placing ← ofLookUp b.place
      let graph ← placing.graph.addEdges b.edges
      ofLookUp (b.index graph (placing.instructions.filterMap id))

def build (name : String) (steps : List Step) : Guarded Tables := do
  (← ofLookUp (run name steps)).finish

end Builder

/-!
# What is wrong
-/

namespace Assembly

variable {a : Assembly}

theorem find?_blocks_builder (a : Assembly) :
    (a.builder.blocks.find? fun named => named.2.isEmpty) =
      (a.blocks.zipIdx.find? fun named => (a.members named.2).isEmpty).map
        fun named => (named.1, (a.members named.2).map Instruction.id) := by
  simp only [builder, List.find?_map, Function.comp_def, List.isEmpty_map]

theorem flaw?_builder (a : Assembly) (inst : Instruction) :
    a.builder.flaw? inst.id inst.toOperation = a.flaw? inst := by
  unfold Builder.flaw? flaw?
  simp only [builder, List.length_map]
  rfl

theorem id_lt_of_mem (hcon : a.Consistent) {inst : Instruction} (hinst : inst ∈ a.insts) :
    inst.id < a.insts.length :=
  (List.getElem?_eq_some_iff.mp (getElem?_of_keys hcon.numbered hinst)).1

theorem findSomeM?_flaw? (hcon : a.Consistent) (hinsts : a.insts.length ≤ maxIndex) :
    (a.builder.payloads.zipIdx.findSomeM? fun payload => do
      return a.builder.flaw? (← checkIndex payload.2) payload.1.2) =
        .ok (a.insts.findSome? a.flaw?) := by
  have hpayloads : a.builder.payloads.zipIdx =
      a.insts.map fun inst => ((inst.block, inst.toOperation), inst.id) :=
    zipIdx_of_keys hcon.numbered fun inst => (inst.block, inst.toOperation)
  rw [hpayloads]
  apply findSomeM?_map
  intro inst hinst
  have hlt := id_lt_of_mem hcon hinst
  rw [checkIndex_of_le (by omega), ok_bind, flaw?_builder]
  rfl

end Assembly

theorem Builder.firstError?_eq {b : Builder} {a : Assembly} (h : b.Tracks a) (hcon : a.Consistent)
    (hinsts : a.insts.length ≤ maxIndex) : b.firstError? = .ok a.firstError? := by
  unfold firstError? Assembly.firstError?
  rw [h.misstep]
  cases hstep : a.misstep with
  | some error => rfl
  | none =>
      dsimp only
      have hempty : a.builder.blocks.isEmpty = a.blocks.isEmpty := by
        rw [Bool.eq_iff_iff, List.isEmpty_iff_length_eq_zero, List.isEmpty_iff_length_eq_zero]
        simp [Assembly.builder]
      rw [h.exact hstep, hempty, Assembly.find?_blocks_builder]
      split
      · rfl
      · cases a.blocks.zipIdx.find? fun named => (a.members named.2).isEmpty with
        | some named => rfl
        | none => exact Assembly.findSomeM?_flaw? hcon hinsts

/-!
# Instructions by number
-/

namespace Assembly

variable {a : Assembly} {graph : Adjacency BlockRecord} {taken taken' : Instruction -> Bool}

def placing (a : Assembly) (taken : Instruction -> Bool) (graph : Adjacency BlockRecord) :
    Placing where
  payloads := a.insts.map fun inst => if taken inst then none else some inst.toOperation
  instructions := a.insts.map fun inst => if taken inst then some inst else none
  graph := graph

theorem placing_congr (h : forall inst, inst ∈ a.insts -> taken inst = taken' inst) :
    a.placing taken graph = a.placing taken' graph := by
  unfold placing
  congr 1
  · exact List.map_congr_left fun inst hinst => by rw [h inst hinst]
  · exact List.map_congr_left fun inst hinst => by rw [h inst hinst]

theorem take_placing (hcon : a.Consistent) {inst : Instruction} (hinst : inst ∈ a.insts) :
    (a.placing taken graph).take inst.block (inst.id, inst.position) =
      .ok (a.placing (fun other => taken other || other == inst) graph) := by
  have hlt := id_lt_of_mem hcon hinst
  have hpayload : entryAt (a.placing taken graph).payloads inst.id =
      .ok (if taken inst then none else some inst.toOperation) := by
    apply entryAt_of_some
    rw [placing, List.getElem?_map, getElem?_of_keys hcon.numbered hinst]
    rfl
  have hother : forall other, other ∈ a.insts -> other ≠ inst ->
      (taken other || other == inst) = taken other := by
    intro other _ hne
    rw [beq_eq_false_iff_ne.mpr hne, Bool.or_false]
  unfold Placing.take
  rw [hpayload, ok_bind]
  cases htaken : taken inst with
  | true =>
      refine congrArg Except.ok (placing_congr ?_)
      intro other hmem
      by_cases hne : other = inst
      · simp [hne, htaken]
      · exact (hother other hmem hne).symm
  | false =>
      have hpayloads : (a.placing taken graph).payloads.set inst.id none =
          (a.placing (fun other => taken other || other == inst) graph).payloads := by
        apply set_of_keys hcon.numbered hinst
        · simp
        · intro other hmem hne
          simp only [hother other hmem hne]
      have hinstructions : (a.placing taken graph).instructions.set inst.id (some inst) =
          (a.placing (fun other => taken other || other == inst) graph).instructions := by
        apply set_of_keys hcon.numbered hinst
        · simp
        · intro other hmem hne
          simp only [hother other hmem hne]
      simp only [Bool.false_eq_true, if_false]
      rw [storeAt_of_lt (by simpa [placing] using hlt), ok_bind,
        storeAt_of_lt (by simpa [placing] using hlt), ok_bind]
      rw [hpayloads]
      exact congrArg (fun instructions => Except.ok (Placing.mk _ instructions graph)) hinstructions

theorem foldlM_take (hcon : a.Consistent) {b : Nat} {l : List Instruction}
    (hl : forall inst, inst ∈ l -> inst ∈ a.insts ∧ inst.block = b) :
    (l.map fun inst => (inst.id, inst.position)).foldlM (fun p place => p.take b place)
        (a.placing taken graph) =
      .ok (a.placing (fun other => taken other || l.contains other) graph) := by
  induction l generalizing taken with
  | nil => exact congrArg Except.ok (placing_congr fun inst _ => by simp)
  | cons inst rest ih =>
      rcases hl inst List.mem_cons_self with ⟨hinst, rfl⟩
      rw [List.map_cons, List.foldlM_cons, take_placing hcon hinst, ok_bind,
        ih fun other hother => hl other (List.mem_cons_of_mem inst hother)]
      refine congrArg Except.ok (placing_congr ?_)
      intro other _
      rw [List.contains_cons, Bool.or_assoc]

def record (a : Assembly) (named : String × Nat) : BlockRecord :=
  ⟨named.2, named.1, (a.members named.2).map Instruction.id⟩

theorem addBlock_placing (hcon : a.Consistent) (name : String) {b : Nat} (hb : b ≤ maxIndex) :
    (a.placing (fun inst => inst.block < b) graph).addBlock
        ((name, (a.members b).map Instruction.id), b) =
      .ok (a.placing (fun inst => inst.block < b + 1) (graph.addNode (a.record (name, b)))) := by
  have hplaces : ((a.members b).map Instruction.id).zipIdx =
      (a.members b).map fun inst => (inst.id, inst.position) :=
    zipIdx_of_keys (hcon.positioned b) Instruction.id
  unfold Placing.addBlock
  rw [checkIndex_of_le hb, ok_bind]
  dsimp only
  have hmembers : forall inst, inst ∈ a.members b -> inst ∈ a.insts ∧ inst.block = b :=
    fun inst hinst => ⟨(List.mem_filter.mp hinst).left, members_block hinst⟩
  rw [hplaces, foldlM_take hcon hmembers, ok_bind]
  have hsame : forall inst, inst ∈ a.insts ->
      (decide (inst.block < b) || (a.members b).contains inst) = decide (inst.block < b + 1) := by
    intro inst hinst
    rw [Bool.eq_iff_iff]
    simp only [Bool.or_eq_true, decide_eq_true_eq, List.contains_iff_mem, members,
      List.mem_filter, beq_iff_eq, hinst, true_and]
    omega
  rw [placing_congr hsame]
  rfl

theorem foldlM_addBlock (hcon : a.Consistent) {names : List String} {k : Nat}
    (nodes : List BlockRecord) (hk : k + names.length ≤ maxIndex + 1) :
    ((names.zipIdx k).map fun named =>
          ((named.1, (a.members named.2).map Instruction.id), named.2)).foldlM Placing.addBlock
        (a.placing (fun inst => inst.block < k) (Digraph.mk nodes []).adjacency) =
      .ok (a.placing (fun inst => inst.block < k + names.length)
        (Digraph.mk (nodes ++ (names.zipIdx k).map a.record) []).adjacency) := by
  induction names generalizing k nodes with
  | nil => rw [List.zipIdx_nil, List.map_nil, List.map_nil, List.append_nil]; rfl
  | cons name rest ih =>
      rw [List.length_cons] at hk
      have hclosed : (Digraph.mk nodes []).Closed := by
        intro b c hedge
        cases hedge
      rw [List.zipIdx_cons, List.map_cons, List.foldlM_cons, addBlock_placing hcon name (by omega),
        ok_bind, ← Digraph.adjacency_addNode hclosed]
      have hrest := ih (k := k + 1) (nodes ++ [a.record (name, k)]) (by omega)
      rw [List.map_cons, List.length_cons]
      rw [List.append_assoc, Nat.add_assoc, Nat.add_comm 1] at hrest
      exact hrest

theorem place_builder (hcon : a.Consistent) (hblocks : a.blocks.length ≤ maxIndex + 1) :
    a.builder.place = .ok (a.placing (fun inst => inst.block < a.blocks.length)
      (Digraph.mk (a.blocks.zipIdx.map a.record) []).adjacency) := by
  have hentries : a.builder.blocks.zipIdx = a.blocks.zipIdx.map fun named =>
      ((named.1, (a.members named.2).map Instruction.id), named.2) := by
    apply zipIdx_of_keys
    rw [List.zipIdx_map_snd, List.length_zipIdx, List.range_eq_range']
  have hstart : (⟨a.builder.payloads.map fun payload => some payload.2,
      List.replicate a.builder.payloads.length none, .empty⟩ : Placing) =
        a.placing (fun inst => inst.block < 0) (Digraph.mk [] []).adjacency := by
    simp [placing, builder, Function.comp_def]
    rfl
  unfold Builder.place
  rw [hentries, hstart, foldlM_addBlock hcon [] (by omega)]
  simp

theorem filterMap_placing (hopen : forall inst, inst ∈ a.insts -> inst.block < a.blocks.length) :
    (a.placing (fun inst => inst.block < a.blocks.length) graph).instructions.filterMap id =
      a.insts := by
  have hall : (a.placing (fun inst => inst.block < a.blocks.length) graph).instructions =
      a.insts.map some :=
    List.map_congr_left fun inst hinst => if_pos (decide_eq_true (hopen inst hinst))
  rw [hall, List.filterMap_map]
  exact List.filterMap_some

end Assembly

/-!
# Layout and points
-/

namespace SlotIndexes

variable {slots : SlotIndexes} {count i : Nat} {ids : List Nat}

/-- What stands in the layout has its index in the table of positions. -/
structure Places (slots : SlotIndexes) (count : Nat) : Prop where
  length : slots.position.length = count
  position : forall k i : Nat, slots.layout[k]? = some i -> slots.position[i]? = some k

theorem exists_addInst (h : slots.Places count) (hi : i < count) (hnew : i ∉ slots.layout) :
    exists next, slots.addInst i = .ok next ∧ next.Places count ∧
      next.layout = slots.layout ++ [i] ∧ next.ranges = slots.ranges := by
  have hplace : i < slots.position.length := h.length.symm ▸ hi
  refine ⟨⟨slots.layout ++ [i], slots.position.set i slots.layout.length, slots.ranges⟩,
    ?_, ⟨?_, ?_⟩, rfl, rfl⟩
  · rw [addInst, storeAt_of_lt hplace]
    rfl
  · rw [List.length_set, h.length]
  · intro k j hj
    dsimp only at hj ⊢
    rw [List.getElem?_append] at hj
    split at hj
    · have hne : i ≠ j := by
        rintro rfl
        exact hnew (List.mem_of_getElem? hj)
      rw [List.getElem?_set_ne hne, h.position k j hj]
    · rename_i hk
      have hlast : k - slots.layout.length = 0 ∧ i = j := by
        simpa [List.getElem?_singleton] using hj
      rcases hlast with ⟨hzero, rfl⟩
      rw [List.getElem?_set_self hplace]
      congr 1
      omega

theorem exists_addInsts (h : slots.Places count) (hids : forall i, i ∈ ids -> i < count)
    (hnew : (slots.layout ++ ids).Nodup) :
    exists next, ids.foldlM addInst slots = .ok next ∧ next.Places count ∧
      next.layout = slots.layout ++ ids ∧ next.ranges = slots.ranges := by
  induction ids generalizing slots with
  | nil => exact ⟨slots, rfl, h, (List.append_nil _).symm, rfl⟩
  | cons i rest ih =>
      rw [List.append_cons] at hnew
      have hfirst : i ∉ slots.layout := by
        intro hmem
        have hpair := (List.nodup_append.mp (List.nodup_append.mp hnew).left).right.right
        exact hpair i hmem i (List.mem_singleton.mpr rfl) rfl
      rcases exists_addInst h (hids i List.mem_cons_self) hfirst with
        ⟨next, hnext, hplaces, hlayout, hranges⟩
      rw [← hlayout] at hnew
      rcases ih hplaces (fun j hj => hids j (List.mem_cons_of_mem i hj)) hnew with
        ⟨last, hlast, hplaces', hlayout', hranges'⟩
      refine ⟨last, ?_, hplaces', ?_, hranges'.trans hranges⟩
      · rw [List.foldlM_cons, hnext, ok_bind, hlast]
      · rw [hlayout', hlayout, ← List.append_cons]

def spansFrom : Nat -> List (List Nat) -> List Span
  | _, [] => []
  | n, ids :: rest => ⟨2 * n, 2 * (n + ids.length)⟩ :: spansFrom (n + ids.length) rest

theorem getElem?_spansFrom {blocks : List (List Nat)} {n b : Nat} (hb : b < blocks.length) :
    (spansFrom n blocks)[b]? =
      some ⟨2 * (n + (blocks.take b).flatten.length),
        2 * (n + (blocks.take (b + 1)).flatten.length)⟩ := by
  induction blocks generalizing n b with
  | nil => cases hb
  | cons ids rest ih =>
      rw [spansFrom]
      cases b with
      | zero => simp
      | succ b =>
          rw [List.getElem?_cons_succ, ih (Nat.lt_of_succ_lt_succ hb)]
          simp only [List.take_succ_cons, List.flatten_cons, List.length_append, Nat.add_assoc]

theorem length_spansFrom (n : Nat) (blocks : List (List Nat)) :
    (spansFrom n blocks).length = blocks.length := by
  induction blocks generalizing n with
  | nil => rfl
  | cons ids rest ih => rw [spansFrom, List.length_cons, List.length_cons, ih]

theorem exists_addBlock (h : slots.Places count) (hids : forall i, i ∈ ids -> i < count)
    (hnew : (slots.layout ++ ids).Nodup)
    (hpoints : 2 * (slots.layout.length + ids.length) ≤ maxIndex) :
    exists next, slots.addBlock ids = .ok next ∧ next.Places count ∧
      next.layout = slots.layout ++ ids ∧
      next.ranges = slots.ranges ++
        [⟨2 * slots.layout.length, 2 * (slots.layout.length + ids.length)⟩] := by
  rcases exists_addInsts h hids hnew with ⟨last, hlast, hplaces, hlayout, hranges⟩
  have hlength : last.layout.length = slots.layout.length + ids.length := by
    rw [hlayout, List.length_append]
  refine ⟨⟨last.layout, last.position, slots.ranges ++
    [⟨2 * slots.layout.length, 2 * (slots.layout.length + ids.length)⟩]⟩, ?_,
    ⟨hplaces.length, hplaces.position⟩, hlayout, rfl⟩
  unfold addBlock
  rw [checkIndex_of_le (by omega), ok_bind, hlast, ok_bind, hlength, checkIndex_of_le hpoints,
    ok_bind, hranges]
  rfl

theorem exists_addBlocks (h : slots.Places count) {blocks : List (List Nat)}
    (hids : forall i, i ∈ blocks.flatten -> i < count)
    (hnew : (slots.layout ++ blocks.flatten).Nodup)
    (hpoints : 2 * (slots.layout.length + blocks.flatten.length) ≤ maxIndex) :
    exists next, blocks.foldlM addBlock slots = .ok next ∧ next.Places count ∧
      next.layout = slots.layout ++ blocks.flatten ∧
      next.ranges = slots.ranges ++ spansFrom slots.layout.length blocks := by
  induction blocks generalizing slots with
  | nil => exact ⟨slots, rfl, h, (List.append_nil _).symm, (List.append_nil _).symm⟩
  | cons ids rest ih =>
      rw [List.flatten_cons] at hids hnew hpoints
      rw [List.length_append] at hpoints
      rw [← List.append_assoc] at hnew
      have hblock := exists_addBlock h (fun i hi => hids i (List.mem_append_left _ hi))
        (List.nodup_append.mp hnew).left (by omega)
      rcases hblock with ⟨next, hnext, hplaces, hlayout, hranges⟩
      have hlength : next.layout.length = slots.layout.length + ids.length := by
        rw [hlayout, List.length_append]
      have hrest := ih hplaces (fun i hi => hids i (List.mem_append_right _ hi))
        (hlayout ▸ hnew) (by omega)
      rcases hrest with ⟨last, hlast, hplaces', hlayout', hranges'⟩
      refine ⟨last, ?_, hplaces', ?_, ?_⟩
      · rw [List.foldlM_cons, hnext, ok_bind, hlast]
      · rw [hlayout', hlayout, List.flatten_cons, List.append_assoc]
      · rw [hranges', hranges, hlength, spansFrom, List.append_assoc]
        rfl

end SlotIndexes

/-!
# Storage locations
-/

def occurrences (names : Instruction -> List Nat) (insts : List Instruction) (s : Nat) : List Nat :=
  insts.flatMap fun inst => List.replicate ((names inst).count s) inst.id

theorem occurrences_append (names : Instruction -> List Nat) (insts : List Instruction)
    (inst : Instruction) :
    (fun s => occurrences names insts s ++ List.replicate ((names inst).count s) inst.id) =
      occurrences names (insts ++ [inst]) := by
  funext s
  simp [occurrences]

theorem noteEffects_eq {n i : Nat} {row : Nat -> List Nat} {locations : List Nat}
    (h : forall s, s ∈ locations -> s < n) :
    noteEffects i ((List.range n).map row) locations =
      .ok ((List.range n).map fun s => row s ++ List.replicate (locations.count s) i) := by
  unfold noteEffects
  induction locations generalizing row with
  | nil => simp; rfl
  | cons s rest ih =>
      have hs := h s List.mem_cons_self
      have hrow : ((List.range n).map row).set s (row s ++ [i]) =
          (List.range n).map fun t => row t ++ List.replicate (List.count t [s]) i := by
        apply Digraph.set_row
        · simp
        · intro t hne
          simp [Ne.symm hne]
      rw [List.foldlM_cons, Digraph.entryAt_of_lt row hs, ok_bind,
        storeAt_of_lt (by simpa using hs), ok_bind, hrow,
        ih fun t ht => h t (List.mem_cons_of_mem s ht)]
      refine congrArg Except.ok (List.map_congr_left ?_)
      intro t _
      rw [List.append_assoc, List.replicate_append_replicate, List.count_cons, List.count_cons,
        List.count_nil]
      congr 2
      omega

theorem effectsOf_eq {n : Nat} {instructions insts : List Instruction}
    (hinsts : forall inst, inst ∈ insts -> entryAt instructions inst.id = .ok inst)
    (hdeclared : forall inst, inst ∈ insts -> forall s, s ∈ inst.uses ∨ s ∈ inst.defs -> s < n) :
    effectsOf instructions (insts.map Instruction.id) n =
      .ok ((List.range n).map (occurrences (fun inst => inst.defs) insts),
        (List.range n).map (occurrences (fun inst => inst.uses) insts)) := by
  unfold effectsOf
  induction insts using List.reverseRecOn with
  | nil =>
      have hnone (names : Instruction -> List Nat) :
          (List.range n).map (occurrences names []) = List.replicate n [] := by
        show (List.range n).map (fun _ => []) = _
        rw [List.map_const', List.length_range]
      rw [hnone, hnone]
      rfl
  | append_singleton insts inst ih =>
      have hlast : inst ∈ insts ++ [inst] := List.mem_append_right _ (List.mem_singleton.mpr rfl)
      rw [List.map_append, List.foldlM_append,
        ih (fun i hi => hinsts i (List.mem_append_left _ hi))
          (fun i hi => hdeclared i (List.mem_append_left _ hi)),
        ok_bind, List.map_singleton, List.foldlM_cons, hinsts inst hlast, ok_bind,
        noteEffects_eq fun s hs => hdeclared inst hlast s (Or.inr hs), ok_bind,
        noteEffects_eq fun s hs => hdeclared inst hlast s (Or.inl hs), ok_bind,
        occurrences_append fun inst => inst.defs, occurrences_append fun inst => inst.uses]
      rfl

theorem destutter'_replicate (m a : Nat) (rest : List Nat) :
    (List.replicate m a ++ rest).destutter' (· ≠ ·) a = rest.destutter' (· ≠ ·) a := by
  induction m with
  | zero => rfl
  | succ m ih =>
      rw [List.replicate_succ, List.cons_append, List.destutter'_cons_neg _ (by simp), ih]

theorem destutter_occurrences {names : Instruction -> List Nat} {insts : List Instruction}
    (hdistinct : (insts.map Instruction.id).Nodup) (s : Nat) :
    (occurrences names insts s).destutter (· ≠ ·) =
      (insts.filter fun inst => (names inst).contains s).map Instruction.id := by
  unfold occurrences
  induction insts with
  | nil => rfl
  | cons inst rest ih =>
      rw [List.map_cons, List.nodup_cons] at hdistinct
      have hrest := ih hdistinct.right
      rw [List.flatMap_cons]
      cases hcount : (names inst).count s with
      | zero =>
          have hnot : ¬ (names inst).contains s = true := by
            simpa using List.count_eq_zero.mp hcount
          rw [List.filter_cons, if_neg hnot, List.replicate_zero, List.nil_append, hrest]
      | succ m =>
          have hnames : (names inst).contains s = true := by
            have hpos : 0 < (names inst).count s := by omega
            simpa using List.count_pos_iff.mp hpos
          rw [List.filter_cons, if_pos hnames, List.map_cons, ← hrest, List.replicate_succ,
            List.cons_append, List.destutter_cons', destutter'_replicate]
          -- The instruction does not occur again, so what follows starts with another one.
          cases hnext : rest.flatMap fun inst => List.replicate ((names inst).count s) inst.id with
          | nil => rfl
          | cons next others =>
              have hne : inst.id ≠ next := by
                have hmem : next ∈ rest.flatMap fun inst =>
                    List.replicate ((names inst).count s) inst.id := by
                  rw [hnext]
                  exact List.mem_cons_self
                rcases List.mem_flatMap.mp hmem with ⟨other, hother, hid⟩
                rintro hsame
                apply hdistinct.left
                rw [hsame, List.eq_of_mem_replicate hid]
                exact List.mem_map_of_mem hother
              rw [List.destutter'_cons_pos _ hne, List.destutter_cons']

end SafeRestart
