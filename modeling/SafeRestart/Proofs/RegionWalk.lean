import SafeRestart.Proofs.BlockWalk
import SafeRestart.Proofs.RegionSearch
import SafeRestart.Proofs.Splice

/-!
# Walks inside a region by look-ups

A walk takes the instructions of a block one after the other and looks up which of them start a
region.  It halts before such an instruction, or inside one at which it stops; a block that it runs
through is left for the successors.  Each block on the way adds one span to the points reached.
-/

namespace SafeRestart

/-!
# The computation
-/

/-- The instructions of a block from position `first` on; the points from `start` on are reached.
The walk's own start does not end it. -/
structure WalkItem where
  block : Nat
  first : Nat
  start : Nat
  own : Option Nat

namespace RegionTable

def entersAt (table : RegionTable) (i : Nat) : Except Fault (Option Nat) := do
  if table.isEntry i then return some (← table.function.guardedUse i) else return none

def entersOther (table : RegionTable) (own : Option Nat) (i : Nat) : Except Fault (Option Nat) :=
  if own = some i then .ok none else table.entersAt i

def haltsAt (table : RegionTable) (stop : Instruction -> Bool) (own : Option Nat) (i : Nat) :
    Except Fault (Option Nat) := do
  match ← table.entersOther own i with
  | some point => return some point
  | none =>
      if stop (← table.function.inst i) then return some (← table.function.guardedDef i)
      else return none

def walkItem (table : RegionTable) (halts : Option Nat -> Nat -> Except Fault (Option Nat))
    (item : WalkItem) : Except Fault (List Span × List Nat) := do
  let ids := (table.function.blockIds item.block).drop item.first
  match ← ids.findSomeM? (halts item.own) with
  | some point => return ([⟨item.start, point⟩], [])
  | none =>
      let span ← table.function.guardedSpan item.block
      return ([⟨item.start, span.stop⟩], table.function.graph.succs item.block)

def enteredBlock (table : RegionTable) (b : Nat) : Except Fault WalkItem := do
  return ⟨b, 0, (← table.function.guardedSpan b).start, none⟩

def walk (table : RegionTable) (halts : Option Nat -> Nat -> Except Fault (Option Nat))
    (item : WalkItem) : Except Fault IntervalSet := do
  let spans ← Search.drain (table.walkItem halts) table.enteredBlock [item]
    (.empty table.function.blockCount)
  spans.foldlM IntervalSet.splicedUnion .empty

def pointsAfter (table : RegionTable) (i : Nat) : Except Fault IntervalSet := do
  match table.function.inst? i with
  | none => return .empty
  | some inst =>
      let start ← table.function.guardedDef i
      table.walk (fun _ => table.entersAt) ⟨inst.block, inst.position + 1, start, none⟩

def pointsUntil (table : RegionTable) (r : Region) (stop : Instruction -> Bool) :
    Except Fault IntervalSet := do
  let entry ← table.function.inst r.entry
  table.walk (table.haltsAt stop) ⟨r.block, entry.position, r.point, some r.entry⟩

end RegionTable

/-!
# The instructions of a stretch
-/

namespace Function

variable {f : Function} {b p : Nat}

theorem map_slotOf_drop (hf : f.WellFormed) (b p : Nat) :
    ((f.blockInsts b).drop p).map f.slotOf =
      List.range' (f.blockStart b + p) (f.blockStart (b + 1) - (f.blockStart b + p)) := by
  have hcount : f.blockStart (b + 1) - (f.blockStart b + p) = f.blockSize b - p := by
    rw [blockStart_succ]
    omega
  apply List.ext_getElem
  · rw [List.length_map, List.length_drop, List.length_range', hcount]
    rfl
  · intro j hj _
    rw [List.length_map, List.length_drop] at hj
    have hplace : (f.blockInsts b)[p + j]? = some (f.blockInsts b)[p + j] :=
      List.getElem?_eq_getElem (by omega)
    rcases hf.placed hplace with ⟨hblock, hposition⟩
    rw [List.getElem_map, List.getElem_drop, List.getElem_range', slotOf, hblock, hposition]
    omega

end Function

namespace RegionTable

variable {m : RegionModel} {table : RegionTable} {stop : Instruction -> Bool}
  {halts : Option Nat -> Nat -> Except Fault (Option Nat)} {item : WalkItem}
  {t : RegionModel.Stretch} {i inst : Instruction} {b k : Nat} {r : Region}

structure Follows (table : RegionTable) (m : RegionModel) (stop : Instruction -> Bool)
    (halts : Option Nat -> Nat -> Except Fault (Option Nat)) (item : WalkItem)
    (t : RegionModel.Stretch) : Prop where
  block : item.block = t.block
  inside : t.block < m.function.blockCount
  first : m.function.blockStart t.block + item.first = t.first
  start : item.start = t.start
  halts : forall k inst, m.function.layout[k]? = some inst ->
    halts item.own inst.id = .ok (m.haltAt? stop t k)

section Finished

variable (hf : m.function.WellFormed) (hm : m.Fits) (hsize : m.function.size < 2147483648)
  (h : table.Charts m)
include hf hsize h

theorem walkItem_eq (hitem : table.Follows m stop halts item t) :
    table.walkItem halts item = .ok ([m.spanOf stop t], m.onward stop t) := by
  have hinsts : forall inst, inst ∈ (m.function.blockInsts t.block).drop item.first ->
      halts item.own inst.id = .ok (m.haltAt? stop t (m.function.slotOf inst)) := by
    intro inst hinst
    have hmem := Function.mem_layout_of_mem_blockInsts (List.mem_of_mem_drop hinst)
    exact hitem.halts _ inst ((Function.mem_layout_iff hf).mp hmem)
  have hslots : ((m.function.blockInsts t.block).drop item.first).findSome?
      (fun inst => m.haltAt? stop t (m.function.slotOf inst)) = m.haltIn? stop t := by
    rw [RegionModel.haltIn?, RegionModel.slotBehind, ← hitem.first,
      ← Function.map_slotOf_drop hf, List.findSome?_map]
    rfl
  unfold walkItem RegionModel.spanOf RegionModel.onward
  rw [h.function, hitem.block]
  dsimp only
  rw [Function.blockIds, ← List.map_drop, findSomeM?_map hinsts, ok_bind, hslots,
    hitem.start]
  cases m.haltIn? stop t with
  | some point => rfl
  | none =>
      dsimp only
      rw [Function.guardedSpan_eq hsize hitem.inside]
      rfl

theorem walk_eq (hitem : table.Follows m stop halts item t)
    (henter : forall b, b < m.function.blockCount ->
      table.Follows m stop halts ⟨b, 0, 2 * m.function.blockStart b, none⟩ (m.wholeBlock b)) :
    table.walk halts item = m.walkByBlocks stop t := by
  have hsure : Search.Sure (table.walkItem halts) table.enteredBlock
      (fun b => ⟨b, 0, 2 * m.function.blockStart b, none⟩)
      (fun b => [m.spanOf stop (m.wholeBlock b)]) (fun b => m.onward stop (m.wholeBlock b))
      m.function.blockCount := by
    refine ⟨?_, fun b hb => walkItem_eq hf hsize h (henter b hb),
      fun _ _ _ hc => RegionModel.lt_of_mem_onward hf hc⟩
    intro b hb
    rw [enteredBlock, h.function, Function.guardedSpan_eq hsize hb]
    rfl
  unfold walk
  rw [h.function, Search.drain_single hsure (walkItem_eq hf hsize h hitem)
    fun c hc => RegionModel.lt_of_mem_onward hf hc, ok_bind,
    IntervalSet.foldlM_splicedUnion IntervalSet.canonical_empty, RegionModel.walkByBlocks_eq hf]
  rfl

include hm

theorem entersAt_eq (hinst : m.function.layout[k]? = some inst) :
    table.entersAt inst.id = .ok (if k ∈ m.entries then some (2 * k) else none) := by
  unfold entersAt
  rw [h.isEntry_eq hf hm.numbered hinst, h.function, Function.guardedUse_of_layout hf hsize hinst]
  by_cases hk : k ∈ m.entries
  · simp only [hk, decide_true, if_true]
    rfl
  · simp only [hk, decide_false, if_false]
    rfl

theorem haltsAt_eq (hinst : m.function.layout[k]? = some inst) {own : Option Nat}
    (hown : own = some inst.id <-> t.own = true ∧ k = t.first) :
    table.haltsAt stop own inst.id = .ok (m.haltAt? stop t k) := by
  have hmem := List.mem_of_getElem? hinst
  have hstop : m.stopsAt stop k = stop inst := RegionModel.stopsAt_of_layout hinst
  have hpass : (do
      if stop (← table.function.inst inst.id) then
        return some (← table.function.guardedDef inst.id)
      else return none) = (.ok (if m.stopsAt stop k then some (2 * k + 1) else none) :
        Except Fault (Option Nat)) := by
    rw [h.function, Function.inst_of_mem hf hmem, ok_bind,
      Function.guardedDef_of_layout hf hsize hinst, hstop]
    cases stop inst with
    | true => rfl
    | false => rfl
  have hentered : table.entersOther own inst.id =
      .ok (if k ∈ m.entries ∧ ¬ (t.own = true ∧ k = t.first) then some (2 * k) else none) := by
    rw [entersOther, entersAt_eq hf hm hsize h hinst]
    by_cases hsame : own = some inst.id
    · rw [if_pos hsame, if_neg fun hentry => hentry.right (hown.mp hsame)]
    · rw [if_neg hsame]
      have hother : ¬ (t.own = true ∧ k = t.first) := fun hfirst => hsame (hown.mpr hfirst)
      simp only [hother, not_false_eq_true, and_true]
  unfold haltsAt RegionModel.haltAt?
  rw [hentered, ok_bind]
  by_cases hentry : k ∈ m.entries ∧ ¬ (t.own = true ∧ k = t.first)
  · rw [if_pos hentry, if_pos hentry]
    rfl
  · rw [if_neg hentry, if_neg hentry]
    exact hpass

theorem pointsUntil_eq (hr : r ∈ m.regions) (stop : Instruction -> Bool) :
    table.pointsUntil r stop = .ok (m.pointsUntil r stop) := by
  rcases RegionModel.mem_regions_iff.mp hr with ⟨n, k, entry, _, hentry, rfl⟩
  have hmem := List.mem_of_getElem? hentry
  rcases (Function.layout_iff hf).mp hentry with ⟨hplace, hslot⟩
  have hfirst : table.Follows m stop (table.haltsAt stop)
      ⟨entry.block, entry.position, 2 * k, some entry.id⟩ ⟨entry.block, k, 2 * k, true⟩ := by
    refine ⟨rfl, ?_, hslot, rfl, ?_⟩
    · exact Function.blockSize_pos_lt
        (Nat.lt_of_le_of_lt (Nat.zero_le _) (List.getElem?_eq_some_iff.mp hplace).1)
    · intro l inst hinst
      apply haltsAt_eq hf hm hsize h hinst
      constructor
      · intro hsame
        have hslots := Function.slot?_of_layout hf hentry
        rw [Option.some.inj hsame, Function.slot?_of_layout hf hinst] at hslots
        exact ⟨rfl, Option.some.inj hslots⟩
      · rintro ⟨_, rfl⟩
        cases hentry.symm.trans hinst
        rfl
  unfold pointsUntil
  rw [h.function, Function.inst_of_mem hf hmem, ok_bind]
  refine (walk_eq hf hsize h hfirst ?_).trans (RegionModel.pointsUntilByBlocks_eq hf hr stop)
  intro b hb
  refine ⟨rfl, hb, rfl, rfl, ?_⟩
  intro l inst hinst
  exact haltsAt_eq hf hm hsize h hinst (by simp [RegionModel.wholeBlock])

theorem pointsAfter_eq (i : Nat) : table.pointsAfter i = .ok (m.pointsAfterInst i) := by
  have hhalts : forall {t : RegionModel.Stretch}, t.own = false ->
      forall k inst, m.function.layout[k]? = some inst ->
        table.entersAt inst.id = .ok (m.haltAt? (fun _ => false) t k) := by
    intro t hown k inst hinst
    rw [entersAt_eq hf hm hsize h hinst, RegionModel.haltAt?, RegionModel.stopsAt_never, hown]
    simp
  unfold pointsAfter
  rw [h.function, ← RegionModel.pointsAfterByBlocks_eq hf, RegionModel.pointsAfterByBlocks]
  rcases Function.slot_cases m.function i with ⟨hinst, _⟩ | ⟨inst, k, hinst, hslot, hlookup, _⟩
  · rw [hinst]
  · rcases (Function.slot?_iff hf).mp hslot with ⟨found, hfound, rfl⟩
    cases (Function.inst?_of_layout hf hfound).symm.trans hinst
    rcases (Function.layout_iff hf).mp hfound with ⟨hplace, hstart⟩
    rw [hinst]
    dsimp only
    rw [hlookup, ok_bind, Function.guardedDef_of_layout hf hsize hfound, ok_bind]
    apply walk_eq hf hsize h
    · refine ⟨rfl, ?_, ?_, rfl, hhalts rfl⟩
      · exact Function.blockSize_pos_lt
          (Nat.lt_of_le_of_lt (Nat.zero_le _) (List.getElem?_eq_some_iff.mp hplace).1)
      · rw [← hstart]
        rfl
    · intro b hb
      exact ⟨rfl, hb, rfl, rfl, hhalts rfl⟩

end Finished
end RegionTable

/-!
# Forward and backward membership

The search back from an instruction and the walk forward from the entries of the regions follow the
same paths, and both are computed block by block from the tables.
-/

namespace RegionModel

variable {f : Function}

theorem membership_forward_and_backward {name : String} {steps : List Step}
    (hfinished : Function.assemble name steps = .ok f) (boundaries : BoundarySet) :
    (f.size < 2147483648 -> exists table, RegionTable.ofBoundaries f boundaries = .ok table ∧
      table.regions = (ofBoundaries f boundaries).regions ∧
      (forall i, table.containing i = .ok ((ofBoundaries f boundaries).containing i)) ∧
      forall r stop, r ∈ (ofBoundaries f boundaries).regions ->
        table.pointsUntil r stop = .ok ((ofBoundaries f boundaries).pointsUntil r stop)) ∧
    (forall r i, r ∈ (ofBoundaries f boundaries).regions -> i ∈ f.layout ->
      (r.id ∈ (ofBoundaries f boundaries).containing i.id <->
        (ofBoundaries f boundaries).Spans r i) ∧
      ((exists p, f.usePoint i.id = .ok p ∧
          p ∈ (ofBoundaries f boundaries).pointsUntil r fun _ => false) <->
        (ofBoundaries f boundaries).Spans r i) ∧
      ((exists p, f.defPoint i.id = .ok p ∧
          p ∈ (ofBoundaries f boundaries).pointsUntil r fun _ => false) <->
        (ofBoundaries f boundaries).Spans r i)) ∧
    (exists first, (f.blockInsts f.entry).head? = some first ∧
      forall i met, Path f.Passes first met i ->
        exists r, r ∈ (ofBoundaries f boundaries).regions ∧
          r.id ∈ (ofBoundaries f boundaries).containing i.id) ∧
    forall r n, r ∈ (ofBoundaries f boundaries).regions ->
      (n ∈ (ofBoundaries f boundaries).containing r.entry <-> n = r.id) := by
  have hf := Function.wellFormed_of_assemble hfinished
  have hm : (ofBoundaries f boundaries).function.WellFormed := hf
  refine ⟨?_, ?_, ?_, ?_⟩
  · intro hsize
    have hnumbered := Function.numbered_of_assemble hfinished
    have hfits := fits_ofBoundaries hnumbered boundaries
    rcases RegionTable.ofBoundaries_charts hf hnumbered hsize boundaries with
      ⟨table, htable, hcharts⟩
    exact ⟨table, htable, hcharts.regions, RegionTable.containing_eq hm hfits hcharts,
      fun r stop hr => RegionTable.pointsUntil_eq hm hfits hsize hcharts hr stop⟩
  · intro r i hr hi
    have hplace := (Function.mem_layout_iff hf).mp hi
    have hpoints := mem_pointsIn_iff (j := f.slotOf i) hm hr
    unfold Spans
    rw [exists_staysIn_iff hm hr hplace, Function.usePoint_of_layout hf hplace,
      Function.defPoint_of_layout hf hplace]
    refine ⟨id_mem_containing_iff hm hr hplace, ?_, ?_⟩
    · rw [← hpoints.left]
      simp [pointsIn]
    · rw [← hpoints.right]
      simp [pointsIn]
  · rcases exists_first hf with ⟨first, hfirst, hplace⟩
    refine ⟨first, hfirst, ?_⟩
    intro i met hpath
    have hentry : 0 ∈ (ofBoundaries f boundaries).entries := zero_mem_entries_ofBoundaries hplace
    have hslots := Function.path_slots hf hpath
    rw [((Function.layout_iff hf).mp hplace).right] at hslots
    have hi := Function.path_end_mem_layout hf (List.mem_of_getElem? hplace) hpath
    exact exists_region_of_covered hm (covered_of_path ⟨0, hentry, [], Path.nil 0⟩ hslots)
      ((Function.mem_layout_iff hf).mp hi)
  · intro r n hr
    exact mem_containing_entry_iff hm nodup_entries_ofBoundaries hr

theorem poll_test_in_both_regions :
    Function.assemble "poll" pollSteps = .ok poll ∧
      (exists table, RegionTable.ofBoundaries poll (.ofList [2]) = .ok table ∧
        table.containing pollTest.id = .ok [0, 1]) ∧
      (ofBoundaries poll (.ofList [2])).Spans ⟨0, 0, 0, 0⟩ pollTest ∧
      (ofBoundaries poll (.ofList [2])).Spans ⟨1, 2, 2, 1⟩ pollTest ∧
      ¬ (ofBoundaries poll (.ofList [2])).Spans ⟨0, 0, 0, 0⟩ pollNext := by
  have hfinished : Function.assemble "poll" pollSteps = .ok poll := rfl
  have hboth : (ofBoundaries poll (.ofList [2])).containing pollTest.id = [0, 1] := by
    decide +kernel
  have hlast : (ofBoundaries poll (.ofList [2])).containing pollNext.id = [1] := by
    decide +kernel
  rcases membership_forward_and_backward hfinished (.ofList [2]) with
    ⟨hsearch, hagree, _, _⟩
  refine ⟨hfinished, ?_, ?_, ?_, ?_⟩
  · rcases hsearch (by decide) with ⟨table, htable, _, hcontaining, _⟩
    exact ⟨table, htable, (hcontaining pollTest.id).trans (congrArg Except.ok hboth)⟩
  · exact (hagree _ pollTest (by decide +kernel) (by decide)).left.mp (by simp [hboth])
  · exact (hagree _ pollTest (by decide +kernel) (by decide)).left.mp (by simp [hboth])
  · intro hspans
    have hmem := (hagree _ pollNext (by decide +kernel) (by decide)).left.mpr hspans
    simp [hlast] at hmem

end RegionModel
end SafeRestart
