import SafeRestart.Proofs.BlockSearch
import SafeRestart.Proofs.RegionTable

/-!
# The regions of an instruction block by block

The regions an instruction belongs to are found by scanning blocks from their ends for the nearest
entry: first the block of the instruction from the instruction upward, then all blocks from which
control comes.  The block of the instruction is not marked at the start; a cycle that leads back to
it has it scanned as a whole.
-/

namespace SafeRestart

/-!
# The computation
-/

namespace RegionTable

/-- Looks for the nearest entry in a block before the given position. -/
def scanEntries (table : RegionTable) (item : Nat × Nat) : Except Fault (List Nat × List Nat) := do
  let ids := table.function.blockIds item.1
  let ids ← slice ids 0 (min item.2 ids.length)
  table.function.guardedScan (fun i => do return (← entryAt table.starts i).map ([·])) item.1 ids

def containing (table : RegionTable) (i : Nat) : Except Fault (List Nat) := do
  match table.function.inst? i with
  | none => return []
  | some inst =>
      let found ← Search.drain table.scanEntries (fun b => .ok (b, table.function.blockSize b))
        [(inst.block, inst.position + 1)] (.empty table.function.blockCount)
      return Ascending.ofList found

end RegionTable

namespace RegionModel

variable {m : RegionModel} {i : Instruction} {j k n : Nat}

def reportStart (m : RegionModel) (inst : Instruction) : Option (List Nat) :=
  (m.startedBy? inst.id).map ([·])

/-!
# The search through slots
-/

theorem idxOf?_entries_iff (hm : m.Fits) :
    m.entries.idxOf? k = some n <-> m.entries[n]? = some k := by
  rw [List.idxOf?_eq_some_iff, List.getElem?_eq_some_iff]
  constructor
  · rintro ⟨hn, hk, _⟩
    exact ⟨hn, hk⟩
  · rintro ⟨hn, hk⟩
    refine ⟨hn, hk, ?_⟩
    intro l hl hsame
    exact Nat.ne_of_lt hl ((List.Nodup.getElem_inj_iff hm.distinct).mp (hsame.trans hk.symm))

section Finished

variable (hf : m.function.WellFormed) (hm : m.Fits)
include hf hm

theorem reportAt_start (k : Nat) :
    m.function.reportAt m.reportStart k = (m.entries.idxOf? k).map ([·]) := by
  unfold Function.reportAt
  cases hinst : m.function.layout[k]? with
  | none =>
      have hout : k ∉ m.entries := fun hk =>
        Nat.not_lt_of_le (List.getElem?_eq_none_iff.mp hinst) (hm.inside k hk)
      rw [List.idxOf?_eq_none_iff.mpr hout]
      rfl
  | some inst =>
      rw [Option.bind_some, reportStart, RegionTable.startedBy?_of_layout hf hinst]

theorem origins_eq (hi : m.function.layout[k]? = some i) :
    m.origins k = Search.sweep (m.function.backUnless m.reportStart)
      (m.function.startsBefore i.block (i.position + 1)) m.function.slots := by
  have hback : (fun j => if j ∈ m.entries then [] else m.function.prev j) =
      m.function.backUnless m.reportStart := by
    funext j
    unfold Function.backUnless
    rw [reportAt_start hf hm, Option.isSome_map]
    by_cases hj : j ∈ m.entries
    · rw [if_pos hj, if_pos (List.isSome_idxOf?.mpr hj)]
    · rw [if_neg hj, if_neg fun hsome => hj (List.isSome_idxOf?.mp hsome)]
  have hslot : m.function.blockStart i.block + i.position = k :=
    ((Function.layout_iff hf).mp hi).right
  unfold origins
  rw [hback, Function.startsBefore, if_pos (Nat.succ_pos _), Nat.add_sub_cancel, hslot]

theorem mem_foundAt_iff :
    n ∈ m.function.foundAt m.reportStart j <-> m.entries[n]? = some j := by
  rw [Function.foundAt, reportAt_start hf hm, ← idxOf?_entries_iff hm]
  cases m.entries.idxOf? j with
  | none => simp
  | some found => simp [eq_comm]

omit hf hm in
theorem pairwise_ids (m : RegionModel) : (m.regions.map Region.id).Pairwise (· < ·) := by
  unfold regions
  rw [List.map_filterMap, List.pairwise_filterMap]
  have hnumbers : m.entries.zipIdx.Pairwise fun x y => x.2 < y.2 := by
    rw [← List.pairwise_map, List.zipIdx_map_snd]
    exact List.pairwise_lt_range'
  refine hnumbers.imp ?_
  intro x y hlt a ha b hb
  have hid : forall {start : Nat × Nat} {n : Nat}, ((m.function.layout[start.1]?).map fun inst =>
      (⟨start.2, start.1, inst.id, inst.block⟩ : Region)).map Region.id = some n ->
        n = start.2 := by
    intro start n hn
    rw [Option.map_map] at hn
    rcases Option.map_eq_some_iff.mp hn with ⟨inst, _, rfl⟩
    rfl
  rw [hid ha, hid hb]
  exact hlt

theorem containing_eq (hi : m.function.layout[k]? = some i) :
    m.containing i.id =
      Ascending.ofList ((m.origins k).flatMap (m.function.foundAt m.reportStart)) := by
  have hsublist := (List.filter_sublist (p := fun r => decide (r.slot ∈ m.origins k))
    (l := m.regions)).map Region.id
  unfold containing
  rw [Function.slot?_of_layout hf hi]
  apply ((pairwise_ids m).sublist hsublist).eq_of_mem_iff (Ascending.pairwise_ofList _)
  intro n
  rw [Ascending.mem_ofList_iff, List.mem_flatMap]
  simp only [List.mem_map, List.mem_filter, decide_eq_true_eq, mem_foundAt_iff hf hm]
  constructor
  · rintro ⟨r, ⟨hr, hslot⟩, rfl⟩
    rcases mem_regions_iff.mp hr with ⟨n, l, inst, hentry, _, rfl⟩
    exact ⟨l, hslot, hentry⟩
  · rintro ⟨l, hslot, hentry⟩
    have hl := hm.inside l (List.mem_of_getElem? hentry)
    exact ⟨⟨n, l, _, _⟩, ⟨mem_regions_iff.mpr
      ⟨n, l, _, hentry, List.getElem?_eq_getElem hl, rfl⟩, hslot⟩, rfl⟩

end Finished
end RegionModel

namespace RegionTable

variable {m : RegionModel} {table : RegionTable} {i : Instruction} {b stop : Nat}

section Finished

variable (hf : m.function.WellFormed) (hm : m.Fits) (h : table.Charts m)
include hf hm h

theorem scanEntries_eq (hstop : stop ≤ m.function.blockSize b) :
    table.scanEntries (b, stop) =
      .ok ((m.function.scan m.reportStart b 0 stop).getD [],
        if (m.function.scan m.reportStart b 0 stop).isSome then []
        else m.function.graph.preds b) := by
  have hlength : (m.function.blockIds b).length = m.function.blockSize b := List.length_map _
  unfold scanEntries
  rw [h.function]
  dsimp only
  rw [hlength, Nat.min_eq_left hstop, slice_of_le (Nat.zero_le _) (hlength ▸ hstop), ok_bind]
  apply Function.guardedScan_eq
  intro inst hinst
  have hplace := (Function.mem_layout_iff hf).mp hinst
  rw [h.entryAt_starts hf hm.numbered hplace, ← startedBy?_of_layout hf hplace]
  rfl

theorem containing_layout (hi : i ∈ m.function.layout) :
    table.containing i.id = .ok (m.containing i.id) := by
  have hlayout := (Function.mem_layout_iff hf).mp hi
  have hplace := ((Function.layout_iff hf).mp hlayout).left
  have hposition : i.position < m.function.blockSize i.block :=
    (List.getElem?_eq_some_iff.mp hplace).1
  have hhome : i.block < m.function.blockCount :=
    Function.blockSize_pos_lt (Nat.lt_of_le_of_lt (Nat.zero_le _) hposition)
  have hsure : Search.Sure table.scanEntries (fun b => .ok (b, m.function.blockSize b))
      (fun b => (b, m.function.blockSize b))
      (fun b => (m.function.scan m.reportStart b 0 (m.function.blockSize b)).getD [])
      (m.function.onwardFrom fun b => m.function.scan m.reportStart b 0 (m.function.blockSize b))
      m.function.blockCount :=
    ⟨fun _ _ => rfl, fun b _ => scanEntries_eq hf hm h (Nat.le_refl _),
      fun b _ c hc => Function.lt_of_mem_onwardFrom hf hc⟩
  have hpreds : forall c, c ∈ (if (m.function.scan m.reportStart i.block 0
      (i.position + 1)).isSome then [] else m.function.graph.preds i.block) ->
      c < m.function.blockCount := by
    intro c hc
    have honward : c ∈ m.function.onwardFrom
        (fun b => m.function.scan m.reportStart b 0 (i.position + 1)) i.block := hc
    exact Function.lt_of_mem_onwardFrom hf honward
  -- A block that is scanned as a whole after its first part was passed halts in its second part.
  have hagain : m.function.scan m.reportStart i.block 0 (i.position + 1) = none ->
      m.function.scan m.reportStart i.block 0 (m.function.blockSize i.block) =
        m.function.scan m.reportStart i.block (i.position + 1) (m.function.blockSize i.block) := by
    intro hnone
    rw [Function.scan_split (Nat.zero_le (i.position + 1)) hposition (Nat.le_refl _), hnone,
      Option.or_none]
  unfold containing
  rw [h.function, Function.inst?_of_layout hf hlayout]
  dsimp only
  rw [Search.drain_single hsure (scanEntries_eq hf hm h hposition) hpreds, ok_bind,
    RegionModel.containing_eq hf hm hlayout, RegionModel.origins_eq hf hm hlayout,
    Function.sweep_eq_blocks hf hhome hposition (fun _ _ _ => rfl)
      fun hnone => Or.inl (hagain hnone)]
  rfl

theorem containing_eq (i : Nat) : table.containing i = .ok (m.containing i) := by
  rcases Function.slot_cases m.function i with ⟨hinst, hslot⟩ | ⟨inst, k, hinst, _⟩
  · unfold containing RegionModel.containing
    rw [h.function, hinst, hslot]
    rfl
  · have hmem : inst ∈ m.function.layout := List.mem_of_find?_eq_some hinst
    have hid : inst.id = i := by simpa using List.find?_some hinst
    exact hid ▸ containing_layout hf hm h hmem

end Finished
end RegionTable
end SafeRestart
