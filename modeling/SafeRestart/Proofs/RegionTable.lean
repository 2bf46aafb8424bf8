import Mathlib.Data.List.Perm.Subperm
import SafeRestart.Proofs.Guarded.Layout
import SafeRestart.Proofs.Membership

/-!
# Tables of regions

The regions of a function are kept in two tables: the regions themselves in the order of their
entries, and for each instruction the region that it starts.  Entries are named from outside, so
their numbers may belong to no instruction of the function; what is not known is left out before
anything is looked up.
-/

namespace SafeRestart

namespace Function

variable {f : Function} {i k : Nat}

theorem slot_of_slot? (h : f.slot? i = some k) : f.slot i = .ok k := by
  rw [Function.slot, h]

theorem lt_of_slot? (h : f.slot? i = some k) : k < f.size :=
  (List.findIdx?_eq_some_iff_getElem.mp h).1

theorem isSome_slot? (f : Function) (i : Nat) : (f.slot? i).isSome = (f.inst? i).isSome := by
  rw [Bool.eq_iff_iff, Function.slot?, Function.inst?, List.findIdx?_isSome, List.any_eq_true,
    List.find?_isSome]

theorem slot_cases (f : Function) (i : Nat) :
    (f.inst? i = none ∧ f.slot? i = none) ∨
      exists inst k, f.inst? i = some inst ∧ f.slot? i = some k ∧ f.slot i = .ok k ∧
        k < f.size := by
  have hsame := isSome_slot? f i
  cases hslot : f.slot? i with
  | none =>
      rw [hslot, Option.isSome_none] at hsame
      exact Or.inl ⟨Option.isNone_iff_eq_none.mp (Option.isSome_eq_false_iff.mp hsame.symm), rfl⟩
  | some k =>
      rw [hslot, Option.isSome_some] at hsame
      rcases Option.isSome_iff_exists.mp hsame.symm with ⟨inst, hinst⟩
      exact Or.inr ⟨inst, k, hinst, rfl, slot_of_slot? hslot, lt_of_slot? hslot⟩

end Function

/-!
# The tables
-/

structure RegionTable where
  function : Function
  regions : List Region
  starts : List (Option Nat)

namespace RegionTable

def entrySlots (f : Function) (ids : List Nat) : Except Fault (List Nat) := do
  let known ← (ids.filter fun i => (f.inst? i).isSome).mapM f.slot
  let first ← (f.blockIds f.entry).head?.toList.mapM f.slot
  return Ascending.ofList (first ++ known)

def addRegion (table : RegionTable) (start : Nat × Nat) : Except Fault RegionTable := do
  let entry := (← entryAt table.function.layout start.1).id
  let id ← checkIndex start.2
  let starts ← storeAt table.starts entry (some id)
  let inst ← table.function.inst entry
  let point ← table.function.guardedUse entry
  return ⟨table.function, table.regions ++ [⟨id, point / 2, entry, inst.block⟩], starts⟩

def ofEntries (f : Function) (ids : List Nat) : Except Fault RegionTable := do
  (← entrySlots f ids).zipIdx.foldlM addRegion ⟨f, [], List.replicate f.size none⟩

def ofBoundaries (f : Function) (boundaries : BoundarySet) : Except Fault RegionTable :=
  ofEntries f boundaries.insts

def ofMarkers (f : Function) : Except Fault RegionTable :=
  ofEntries f ((f.layout.filter fun inst => inst.flags.boundary).map Instruction.id)

def isEntry (table : RegionTable) (i : Nat) : Bool := (table.starts[i]?).any Option.isSome

end RegionTable

namespace RegionModel

def startedBy? (m : RegionModel) (i : Nat) : Option Nat :=
  (m.function.slot? i).bind fun k => m.entries.idxOf? k

/-- The entries are different slots of a function whose instructions are numbered. -/
structure Fits (m : RegionModel) : Prop where
  numbered : m.function.Numbered
  inside : forall k, k ∈ m.entries -> k < m.function.size
  distinct : m.entries.Nodup

variable {f : Function} {slots : List Nat}

theorem fits_ofSlots (hnumbered : f.Numbered) (hslots : forall k, k ∈ slots -> k < f.size) :
    (ofSlots f slots).Fits := by
  refine ⟨hnumbered, ?_, ?_⟩
  · intro k hk
    show k < f.layout.length
    unfold ofSlots at hk
    dsimp only at hk
    rw [Ascending.mem_ofList_iff] at hk
    split at hk
    · exact hslots k hk
    · rename_i hsome
      rcases List.mem_cons.mp hk with rfl | hk
      · exact List.length_pos_iff.mpr (by simpa using hsome)
      · exact hslots k hk
  · exact (Ascending.pairwise_ofList _).imp Nat.ne_of_lt

theorem fits_ofBoundaries (hnumbered : f.Numbered) (boundaries : BoundarySet) :
    (ofBoundaries f boundaries).Fits := by
  apply fits_ofSlots hnumbered
  intro k hk
  rcases List.mem_filterMap.mp hk with ⟨i, _, hi⟩
  exact Function.lt_of_slot? hi

theorem fits_ofMarkers (hnumbered : f.Numbered) : (ofMarkers f).Fits :=
  fits_ofSlots hnumbered fun _ hk => List.mem_range.mp (List.mem_filter.mp hk).left

end RegionModel

namespace RegionTable

variable {f : Function} {m : RegionModel} {table : RegionTable} {i k : Nat} {inst : Instruction}
  {entries done ids : List Nat}

structure Charts (table : RegionTable) (m : RegionModel) : Prop where
  function : table.function = m.function
  regions : table.regions = m.regions
  starts : table.starts = (List.range m.function.size).map m.startedBy?

theorem startedBy?_of_layout (hf : m.function.WellFormed)
    (hinst : m.function.layout[k]? = some inst) :
    m.startedBy? inst.id = m.entries.idxOf? k := by
  rw [RegionModel.startedBy?, Function.slot?_of_layout hf hinst]
  rfl

theorem Charts.entryAt_starts (h : table.Charts m) (hf : m.function.WellFormed)
    (hnumbered : m.function.Numbered) (hinst : m.function.layout[k]? = some inst) :
    entryAt table.starts inst.id = .ok (m.entries.idxOf? k) := by
  apply entryAt_of_some
  have hplace := hnumbered inst (List.mem_of_getElem? hinst)
  rw [h.starts, List.getElem?_map, List.getElem?_range hplace, Option.map_some,
    startedBy?_of_layout hf hinst]

theorem Charts.isEntry_eq (h : table.Charts m) (hf : m.function.WellFormed)
    (hnumbered : m.function.Numbered) (hinst : m.function.layout[k]? = some inst) :
    table.isEntry inst.id = decide (k ∈ m.entries) := by
  have hplace := hnumbered inst (List.mem_of_getElem? hinst)
  rw [isEntry, h.starts, List.getElem?_map, List.getElem?_range hplace, Option.map_some,
    startedBy?_of_layout hf hinst, Option.any_some, Bool.eq_iff_iff, List.isSome_idxOf?,
    decide_eq_true_iff]

/-!
# Building the tables
-/

theorem idxOf?_append_of_ne {j : Nat} (hne : j ≠ k) :
    (done ++ [k]).idxOf? j = done.idxOf? j := by
  have hother : [k].idxOf? j = none := List.idxOf?_eq_none_iff.mpr (by simpa using hne)
  unfold List.idxOf? at hother ⊢
  rw [List.findIdx?_append, hother]
  simp

theorem idxOf?_append_self (hnew : k ∉ done) : (done ++ [k]).idxOf? k = some done.length := by
  have hnone : done.idxOf? k = none := List.idxOf?_eq_none_iff.mpr hnew
  unfold List.idxOf? at hnone ⊢
  rw [List.findIdx?_append, hnone]
  simp

theorem regions_append (hinst : f.layout[k]? = some inst) :
    RegionModel.regions ⟨f, done ++ [k]⟩ =
      RegionModel.regions ⟨f, done⟩ ++ [⟨done.length, k, inst.id, inst.block⟩] := by
  unfold RegionModel.regions
  rw [List.zipIdx_append, List.filterMap_append]
  simp [hinst]

section Finished

variable (hf : f.WellFormed) (hnumbered : f.Numbered) (hsize : f.size < 2147483648)
include hf

omit hnumbered hsize in
theorem startedBy?_append_of_ne (hinst : f.layout[k]? = some inst) (hne : i ≠ inst.id) :
    RegionModel.startedBy? ⟨f, done ++ [k]⟩ i = RegionModel.startedBy? ⟨f, done⟩ i := by
  unfold RegionModel.startedBy?
  dsimp only
  cases hslot : f.slot? i with
  | none => rfl
  | some j =>
      rcases (Function.slot?_iff hf).mp hslot with ⟨found, hfound, rfl⟩
      apply idxOf?_append_of_ne
      rintro rfl
      cases hinst.symm.trans hfound
      exact hne rfl

include hnumbered

theorem starts_append (hinst : f.layout[k]? = some inst) (hnew : k ∉ done) :
    ((List.range f.size).map (RegionModel.startedBy? ⟨f, done⟩)).set inst.id (some done.length) =
      (List.range f.size).map (RegionModel.startedBy? ⟨f, done ++ [k]⟩) := by
  have hplace := hnumbered inst (List.mem_of_getElem? hinst)
  apply List.ext_getElem?
  intro i
  rw [List.getElem?_set, List.length_map, List.length_range, if_pos hplace]
  split
  · rename_i hsame
    subst hsame
    rw [List.getElem?_map, List.getElem?_range hplace, Option.map_some,
      startedBy?_of_layout hf hinst, idxOf?_append_self hnew]
  · rename_i hother
    rw [List.getElem?_map, List.getElem?_map]
    cases hrange : (List.range f.size)[i]? with
    | none => rfl
    | some j =>
        rcases List.getElem?_eq_some_iff.mp hrange with ⟨_, hj⟩
        rw [List.getElem_range] at hj
        subst hj
        rw [Option.map_some, Option.map_some,
          startedBy?_append_of_ne hf hinst fun hsame => hother hsame.symm]

include hsize

theorem addRegion_charts (h : table.Charts ⟨f, done⟩) (hk : k < f.size) (hnew : k ∉ done)
    (hcount : done.length ≤ f.size) :
    exists more, table.addRegion (k, done.length) = .ok more ∧ more.Charts ⟨f, done ++ [k]⟩ := by
  rcases exists_entryAt hk with ⟨inst, hinst, hentry⟩
  have hmem := List.mem_of_getElem? hinst
  have hlength : inst.id < table.starts.length := by
    rw [h.starts, List.length_map, List.length_range]
    exact hnumbered inst hmem
  refine ⟨⟨table.function, table.regions ++ [⟨done.length, k, inst.id, inst.block⟩],
    table.starts.set inst.id (some done.length)⟩, ?_, h.function, ?_, ?_⟩
  · unfold addRegion
    rw [h.function, hentry, ok_bind, checkIndex_of_le (Function.point_le_maxIndex hsize (by omega)),
      ok_bind, storeAt_of_lt hlength, ok_bind, Function.inst_of_mem hf hmem, ok_bind,
      Function.guardedUse_of_layout hf hsize hinst, ok_bind, Nat.mul_div_cancel_left _ Nat.two_pos]
    rfl
  · rw [h.regions, regions_append hinst]
  · rw [h.starts, starts_append hf hnumbered hinst hnew]

theorem foldlM_addRegion (h : table.Charts ⟨f, done⟩)
    (hinside : forall k, k ∈ done ++ entries -> k < f.size) (hdistinct : (done ++ entries).Nodup) :
    exists all, (entries.zipIdx done.length).foldlM addRegion table = .ok all ∧
      all.Charts ⟨f, done ++ entries⟩ := by
  induction entries generalizing done table with
  | nil => exact ⟨table, rfl, by rwa [List.append_nil]⟩
  | cons k rest ih =>
      have hnew : k ∉ done := fun hk =>
        (List.nodup_append.mp hdistinct).right.right k hk k List.mem_cons_self rfl
      have hsubset : done ++ k :: rest ⊆ List.range f.size :=
        fun j hj => List.mem_range.mpr (hinside j hj)
      have hcount := (hdistinct.subperm hsubset).length_le
      rw [List.length_append, List.length_range] at hcount
      rcases addRegion_charts hf hnumbered hsize h (hinside k (by simp)) hnew
        (by omega) with
        ⟨more, hadd, hmore⟩
      rw [List.append_cons] at hinside hdistinct ⊢
      rcases ih hmore hinside hdistinct with ⟨all, hall, hcharts⟩
      refine ⟨all, ?_, hcharts⟩
      rw [List.zipIdx_cons, List.foldlM_cons, hadd, ok_bind]
      simpa using hall

omit hnumbered hsize in
/-- Numbers that belong to no instruction are left out before their slots are looked up. -/
theorem entrySlots_eq (ids : List Nat) :
    entrySlots f ids = .ok (RegionModel.ofSlots f (ids.filterMap f.slot?)).entries := by
  have hslots : (ids.filter fun i => (f.inst? i).isSome).mapM f.slot =
      .ok ((ids.filter fun i => (f.inst? i).isSome).filterMap f.slot?) := by
    apply mapM_eq_filterMap
    intro i hi
    have hsome := (Function.isSome_slot? f i).trans (List.mem_filter.mp hi).right
    rcases Option.isSome_iff_exists.mp hsome with ⟨k, hk⟩
    exact ⟨k, Function.slot_of_slot? hk, hk⟩
  have hknown : (fun i => if (f.inst? i).isSome then f.slot? i else none) = f.slot? := by
    funext i
    rw [← Function.isSome_slot?]
    cases f.slot? i with
    | none => rfl
    | some k => rfl
  rcases RegionModel.exists_first hf with ⟨first, hfirst, hplace⟩
  have hhead : (f.blockIds f.entry).head? = some first.id := by
    rw [Function.blockIds, List.head?_map, hfirst]
    rfl
  have hlayout : f.layout.isEmpty = false :=
    List.isEmpty_eq_false_iff.mpr (List.ne_nil_of_mem (List.mem_of_getElem? hplace))
  unfold entrySlots RegionModel.ofSlots
  rw [hslots, ok_bind, hhead, Option.toList_some, List.mapM_cons,
    Function.slot_of_slot? (Function.slot?_of_layout hf hplace), List.filterMap_filter, hknown,
    hlayout]
  rfl

theorem ofEntries_charts (ids : List Nat) :
    exists table, ofEntries f ids = .ok table ∧
      table.Charts (RegionModel.ofSlots f (ids.filterMap f.slot?)) := by
  have hfits : (RegionModel.ofSlots f (ids.filterMap f.slot?)).Fits := by
    apply RegionModel.fits_ofSlots hnumbered
    intro k hk
    rcases List.mem_filterMap.mp hk with ⟨i, _, hi⟩
    exact Function.lt_of_slot? hi
  have hnone : Charts ⟨f, [], List.replicate f.size none⟩ ⟨f, []⟩ := by
    have hnowhere : RegionModel.startedBy? ⟨f, []⟩ = fun _ => none := by
      funext i
      unfold RegionModel.startedBy?
      cases f.slot? i with
      | none => rfl
      | some k => rfl
    refine ⟨rfl, rfl, ?_⟩
    rw [hnowhere, List.map_const', List.length_range]
  unfold ofEntries
  rw [entrySlots_eq hf, ok_bind]
  exact foldlM_addRegion hf hnumbered hsize hnone hfits.inside hfits.distinct

theorem ofBoundaries_charts (boundaries : BoundarySet) :
    exists table, ofBoundaries f boundaries = .ok table ∧
      table.Charts (RegionModel.ofBoundaries f boundaries) :=
  ofEntries_charts hf hnumbered hsize boundaries.insts

theorem ofMarkers_charts :
    exists table, ofMarkers f = .ok table ∧ table.Charts (RegionModel.ofMarkers f) := by
  have hslots : forall k, k ∈ ((f.layout.filter fun inst => inst.flags.boundary).map
        Instruction.id).filterMap f.slot? <->
      k ∈ f.slots.filter fun k => (f.layout[k]?).any fun inst => inst.flags.boundary := by
    intro k
    rw [List.filterMap_map, List.mem_filterMap, List.mem_filter, Option.any_eq_true]
    constructor
    · rintro ⟨inst, hinst, hslot⟩
      rcases (Function.slot?_iff hf).mp hslot with ⟨found, hfound, hid⟩
      rcases List.mem_filter.mp hinst with ⟨hmem, hflag⟩
      cases (Function.inst?_of_layout hf hfound).symm.trans
        (hid ▸ Function.inst?_of_layout hf ((Function.mem_layout_iff hf).mp hmem))
      exact ⟨List.mem_range.mpr (Function.lt_of_slot? hslot), inst, hfound, hflag⟩
    · rintro ⟨_, inst, hinst, hflag⟩
      exact ⟨inst, List.mem_filter.mpr ⟨List.mem_of_getElem? hinst, hflag⟩,
        Function.slot?_of_layout hf hinst⟩
  have hmodel : RegionModel.ofSlots f (((f.layout.filter fun inst => inst.flags.boundary).map
      Instruction.id).filterMap f.slot?) = RegionModel.ofMarkers f := by
    unfold RegionModel.ofMarkers RegionModel.ofSlots
    refine congrArg (RegionModel.mk f) (Ascending.ofList_congr ?_)
    intro k
    split
    · exact hslots k
    · rw [List.mem_cons, List.mem_cons, hslots]
  rw [← hmodel]
  exact ofEntries_charts hf hnumbered hsize _

end Finished
end RegionTable
end SafeRestart
