import Mathlib.Data.List.Destutter
import SafeRestart.Proofs.BlockSearch
import SafeRestart.Proofs.Hazard

/-!
# The search for hazards block by block

The loads that a store endangers are found by scanning blocks from their ends: first the block of
the store from the store upward, then all blocks from which control comes.  When the search comes
back to the block of the store, what is left to scan are the instructions after the store.

The hazards of a function are those of its stores, sorted by where store and load stand.
-/

namespace SafeRestart

/-!
# The computation
-/

structure ScanItem where
  block : Nat
  floor : Nat
  stop : Nat

/-- What ends a scan for reads of `target`: a load that may read it, or a store that certainly
overwrites it and is no hazard. -/
def Hazard.report (oracle : AliasOracle) (target : MemoryLocation) (inst : Instruction) :
    Option (List Nat) :=
  match inst.loadLocation with
  | some read => if oracle read target ≠ .noAlias then some [inst.id] else none
  | none =>
      match inst.storeLocation with
      | some written => if oracle written target = .mustAlias then some [] else none
      | none => none

namespace Function

def scanItem (f : Function) (oracle : AliasOracle) (target : MemoryLocation) (item : ScanItem) :
    Except Fault (List Nat × List Nat) := do
  let ids ← slice (f.blockIds item.block) (min item.floor item.stop) item.stop
  f.guardedScan (fun i => do return Hazard.report oracle target (← f.inst i)) item.block ids

/-- The piece to scan when the search comes to the end of a block; in the block of the store only
what comes after the store is left. -/
def enteredFrom (f : Function) (store : Instruction) (b : Nat) : ScanItem :=
  ⟨b, if b = store.block then store.position + 1 else 0, f.blockSize b⟩

def findForStore (f : Function) (oracle : AliasOracle) (i : Nat) : Except Fault (List Hazard) := do
  match f.inst? i with
  | none => return []
  | some store =>
      match store.storeLocation with
      | none => return []
      | some target =>
          let loads ← Search.drain (f.scanItem oracle target)
            (fun b => .ok (f.enteredFrom store b)) [⟨store.block, 0, store.position⟩]
            (.empty f.blockCount)
          return loads.map fun load => ⟨load, i⟩

def keyLe (x y : (Nat × Nat) × Hazard) : Bool :=
  x.1.1 < y.1.1 || (x.1.1 == y.1.1 && x.1.2 ≤ y.1.2)

def findAll (f : Function) (oracle : AliasOracle) : Except Fault (List Hazard) := do
  let found ← f.stores.mapM fun store => f.findForStore oracle store.id
  let keyed ← found.flatten.mapM fun hazard => do
    return ((← f.slot hazard.store, ← f.slot hazard.load), hazard)
  return ((keyed.mergeSort keyLe).map Prod.snd).destutter (· ≠ ·)

def rescan (f : Function) (oracle : AliasOracle) (target : MemoryLocation) (store : Instruction)
    (b : Nat) : Option (List Nat) :=
  f.scan (Hazard.report oracle target) b
    (min (f.enteredFrom store b).floor (f.blockSize b)) (f.blockSize b)

variable {f : Function} {oracle : AliasOracle} {target : MemoryLocation} {b k : Nat}
  {store inst : Instruction}

/-!
# The hazards of one store
-/

theorem store_of_load {read : MemoryLocation} (h : inst.loadLocation = some read) :
    inst.storeLocation = none := by
  unfold Operation.loadLocation Operation.location? at h
  unfold Operation.storeLocation Operation.location?
  cases hmemory : inst.memory with
  | none => rfl
  | some access =>
      rw [hmemory] at h
      cases hkind : access.kind with
      | load => simp [hkind]
      | store => simp [hkind] at h

theorem report_isSome (inst : Instruction) :
    (Hazard.report oracle target inst).isSome = Hazard.ends oracle target inst := by
  unfold Hazard.report Hazard.ends Hazard.touches Hazard.refreshes
  cases hload : inst.loadLocation with
  | some read =>
      rw [store_of_load hload]
      by_cases halias : oracle read target = .noAlias
      · simp [halias]
      · simp [halias]
  | none =>
      cases inst.storeLocation with
      | none => rfl
      | some written =>
          by_cases halias : oracle written target = .mustAlias
          · simp [halias]
          · simp [halias]

theorem report_getD (inst : Instruction) :
    (Hazard.report oracle target inst).getD [] =
      if Hazard.touches oracle target inst then [inst.id] else [] := by
  unfold Hazard.report Hazard.touches
  cases inst.loadLocation with
  | some read =>
      by_cases halias : oracle read target = .noAlias
      · simp [halias]
      · simp [halias]
  | none =>
      cases inst.storeLocation with
      | none => rfl
      | some written =>
          by_cases halias : oracle written target = .mustAlias
          · simp [halias]
          · simp [halias]

/-- A store is no load, so at a store a scan finds nothing even where it ends. -/
theorem report_store (h : store.storeLocation = some target) :
    Hazard.report oracle target store = none ∨ Hazard.report oracle target store = some [] := by
  unfold Hazard.report
  cases hload : store.loadLocation with
  | some read => cases (store_of_load hload).symm.trans h
  | none =>
      rw [h]
      by_cases halias : oracle target target = .mustAlias
      · simp [halias]
      · simp [halias]

theorem endangered_eq (hf : f.WellFormed) (hstore : f.layout[k]? = some store) :
    f.hazardsAt store.id (f.endangered oracle k target) =
      ((Search.sweep (f.backUnless (Hazard.report oracle target))
          (f.startsBefore store.block store.position) f.slots).flatMap
        (f.foundAt (Hazard.report oracle target))).map fun load => ⟨load, store.id⟩ := by
  have hback : (fun j => if (f.layout[j]?).any (Hazard.ends oracle target) then [] else f.prev j) =
      f.backUnless (Hazard.report oracle target) := by
    funext j
    unfold backUnless reportAt
    cases f.layout[j]? with
    | none => rfl
    | some inst => simp [report_isSome]
  have hstarts : f.prev k = f.startsBefore store.block store.position := by
    rcases (layout_iff hf).mp hstore with ⟨hplace, rfl⟩
    have hposition : store.position < f.blockSize store.block :=
      (List.getElem?_eq_some_iff.mp hplace).1
    unfold slotOf startsBefore
    rw [prev_in_block hf (Nat.le_add_right _ _) (by rw [blockStart_succ]; omega)]
    by_cases hpos : 0 < store.position
    · rw [if_pos hpos, if_pos (by omega), Nat.add_sub_assoc hpos]
    · rw [if_neg hpos, if_neg (by omega)]
      rfl
  unfold endangered hazardsAt
  dsimp only
  rw [hback, hstarts, List.filterMap_filter, List.filterMap_eq_flatMap_toList, List.map_flatMap]
  congr 1
  funext j
  unfold foundAt reportAt
  cases f.layout[j]? with
  | none => rfl
  | some inst =>
      simp only [Option.any_some, Option.bind_some, report_getD]
      split
      · rfl
      · rfl

section Finished

variable (hf : f.WellFormed)
include hf

theorem scanItem_eq (oracle : AliasOracle) (target : MemoryLocation) {item : ScanItem}
    (hstop : item.stop ≤ f.blockSize item.block) :
    f.scanItem oracle target item =
      .ok ((f.scan (Hazard.report oracle target) item.block (min item.floor item.stop)
          item.stop).getD [],
        if (f.scan (Hazard.report oracle target) item.block (min item.floor item.stop)
          item.stop).isSome then [] else f.graph.preds item.block) := by
  have hlength : item.stop ≤ (f.blockIds item.block).length := by
    rw [blockIds, List.length_map]
    exact hstop
  unfold scanItem
  rw [slice_of_le (Nat.min_le_right _ _) hlength, ok_bind]
  apply guardedScan_eq
  intro inst hinst
  rw [inst_of_mem hf hinst]
  rfl

omit hf in
theorem rescan_other (hne : b ≠ store.block) :
    f.rescan oracle target store b =
      f.scan (Hazard.report oracle target) b 0 (f.blockSize b) := by
  rw [rescan, enteredFrom, if_neg hne, Nat.zero_min]

theorem rescan_store (hstore : f.layout[k]? = some store)
    (htarget : store.storeLocation = some target) :
    f.rescan oracle target store store.block =
        f.scan (Hazard.report oracle target) store.block store.position
          (f.blockSize store.block) ∨
      (f.rescan oracle target store store.block = none ∧
        f.scan (Hazard.report oracle target) store.block store.position
          (f.blockSize store.block) = some []) := by
  have hplace := ((layout_iff hf).mp hstore).left
  have hposition : store.position < f.blockSize store.block :=
    (List.getElem?_eq_some_iff.mp hplace).1
  have hself : f.scan (Hazard.report oracle target) store.block store.position
      (store.position + 1) = Hazard.report oracle target store := by
    rw [scan_succ (Nat.le_refl _) hposition, scan_none (Nat.le_refl _), Option.or_none, reportAt,
      layout_at hposition, hplace]
    rfl
  rw [rescan, enteredFrom, if_pos rfl, Nat.min_eq_left hposition,
    scan_split (Nat.le_succ store.position) hposition (Nat.le_refl _), hself]
  cases f.scan (Hazard.report oracle target) store.block (store.position + 1)
    (f.blockSize store.block) with
  | some found => exact Or.inl rfl
  | none =>
      rcases report_store htarget with hnone | hempty
      · rw [hnone]
        exact Or.inl rfl
      · rw [hempty]
        exact Or.inr ⟨rfl, rfl⟩

theorem findForStore_store (hstore : store ∈ f.layout)
    (htarget : store.storeLocation = some target) :
    f.findForStore oracle store.id = .ok (f.hazardsOf oracle store.id) := by
  have hlayout := (mem_layout_iff hf).mp hstore
  have hplace := ((layout_iff hf).mp hlayout).left
  have hposition : store.position < f.blockSize store.block :=
    (List.getElem?_eq_some_iff.mp hplace).1
  have hhome : store.block < f.blockCount :=
    blockSize_pos_lt (Nat.lt_of_le_of_lt (Nat.zero_le _) hposition)
  have hsure : Search.Sure (f.scanItem oracle target) (fun b => .ok (f.enteredFrom store b))
      (f.enteredFrom store) (fun b => (f.rescan oracle target store b).getD [])
      (f.onwardFrom (f.rescan oracle target store)) f.blockCount :=
    ⟨fun _ _ => rfl, fun b _ => scanItem_eq hf oracle target (Nat.le_refl _),
      fun b _ c hc => lt_of_mem_onwardFrom hf hc⟩
  have hfirst := scanItem_eq hf oracle target (Nat.le_of_lt hposition :
    (⟨store.block, 0, store.position⟩ : ScanItem).stop ≤ f.blockSize store.block)
  rw [Nat.zero_min] at hfirst
  have hpreds : forall c, c ∈ (if (f.scan (Hazard.report oracle target) store.block 0
      store.position).isSome then [] else f.graph.preds store.block) -> c < f.blockCount := by
    intro c hc
    have honward : c ∈ f.onwardFrom
        (fun b => f.scan (Hazard.report oracle target) b 0 store.position) store.block := hc
    exact lt_of_mem_onwardFrom hf honward
  unfold findForStore
  rw [inst?_of_layout hf hlayout]
  dsimp only
  rw [htarget]
  dsimp only
  rw [Search.drain_single hsure hfirst hpreds, ok_bind, hazardsOf_store hf hlayout htarget,
    endangered_eq hf hlayout,
    sweep_eq_blocks hf hhome (Nat.le_of_lt hposition) (fun b _ hne => rescan_other hne)
      fun _ => rescan_store hf hlayout htarget]
  rfl

theorem findForStore_eq (oracle : AliasOracle) (i : Nat) :
    f.findForStore oracle i = .ok (f.hazardsOf oracle i) := by
  cases hinst : f.inst? i with
  | none =>
      have hnone : f.hazardsOf oracle i = [] := by
        rw [hazardsOf, hinst]
        cases f.slot? i with
        | none => rfl
        | some k => rfl
      rw [hnone, findForStore, hinst]
      rfl
  | some store =>
      have hmem : store ∈ f.layout := List.mem_of_find?_eq_some hinst
      have hid : store.id = i := by simpa using List.find?_some hinst
      subst hid
      cases htarget : store.storeLocation with
      | none =>
          have hnone : f.hazardsOf oracle store.id = [] := by
            rw [hazardsOf, hinst, Option.bind_some, htarget]
            cases f.slot? store.id with
            | none => rfl
            | some k => rfl
          rw [hnone, findForStore, hinst]
          dsimp only
          rw [htarget]
          rfl
      | some target => exact findForStore_store hf hmem htarget

/-!
# All hazards
-/

def hazardKey (f : Function) (hazard : Hazard) : Nat × Nat :=
  ((f.slot? hazard.store).getD 0, (f.slot? hazard.load).getD 0)

omit hf in
theorem keyLe_iff {x y : (Nat × Nat) × Hazard} :
    keyLe x y = true <-> x.1.1 < y.1.1 ∨ (x.1.1 = y.1.1 ∧ x.1.2 ≤ y.1.2) := by
  simp [keyLe]

theorem perm_hazards (oracle : AliasOracle) :
    (f.stores.flatMap fun store => f.hazardsOf oracle store.id).Perm (f.hazards oracle) := by
  have hstore : forall store, store ∈ f.stores -> store ∈ f.layout ∧ exists target,
      store.storeLocation = some target := by
    intro store hmem
    rcases List.mem_filter.mp hmem with ⟨hlayout, hisStore⟩
    exact ⟨hlayout, Option.isSome_iff_exists.mp hisStore⟩
  refine (List.perm_ext_iff_of_nodup ?_ ?_).mpr ?_
  · rw [List.nodup_flatMap]
    constructor
    · intro store hmem
      rcases hstore store hmem with ⟨hlayout, target, htarget⟩
      rw [hazardsOf_store hf ((mem_layout_iff hf).mp hlayout) htarget]
      exact nodup_hazardsAt hf nodup_endangered
    · have hids : f.layout.Pairwise fun x y => x.id ≠ y.id := List.pairwise_map.mp hf.distinct
      refine (hids.sublist List.filter_sublist).imp_of_mem ?_
      intro x y hx hy hne hazard hmem hmem'
      rcases hstore x hx with ⟨hlayout, target, htarget⟩
      rcases hstore y hy with ⟨hlayout', target', htarget'⟩
      rcases (mem_hazardsOf_iff hf hlayout htarget).mp hmem with ⟨_, _, _, rfl⟩
      rcases (mem_hazardsOf_iff hf hlayout' htarget').mp hmem' with ⟨_, _, _, hsame⟩
      exact hne ((Hazard.mk.injEq _ _ _ _).mp hsame).right
  · exact nodup_hazards hf oracle
  · intro hazard
    rw [mem_hazards_iff hf, List.mem_flatMap]
    constructor
    · rintro ⟨store, hmem, hfound⟩
      rcases hstore store hmem with ⟨hlayout, target, htarget⟩
      rcases (mem_hazardsOf_iff hf hlayout htarget).mp hfound with ⟨load, hload, hexposed, rfl⟩
      exact ⟨load, store, target, hload, hlayout, htarget, hexposed, rfl⟩
    · rintro ⟨load, store, target, hload, hlayout, htarget, hexposed, rfl⟩
      refine ⟨store, List.mem_filter.mpr ⟨hlayout, ?_⟩, ?_⟩
      · rw [Operation.isStore, htarget]
        rfl
      · exact (mem_hazardsOf_iff hf hlayout htarget).mpr ⟨load, hload, hexposed, rfl⟩

theorem hazardKey_inj {x y : Hazard} (hx : x ∈ f.hazards oracle) (hy : y ∈ f.hazards oracle)
    (h : f.hazardKey x = f.hazardKey y) : x = y := by
  rcases (mem_hazards_iff hf).mp hx with ⟨load, store, _, hload, hstore, _, _, rfl⟩
  rcases (mem_hazards_iff hf).mp hy with ⟨load', store', _, hload', hstore', _, _, rfl⟩
  have hslot : forall {inst : Instruction}, inst ∈ f.layout ->
      f.slot? inst.id = some (f.slotOf inst) :=
    fun hmem => slot?_of_layout hf ((mem_layout_iff hf).mp hmem)
  have hsame : forall {inst inst' : Instruction}, inst ∈ f.layout -> inst' ∈ f.layout ->
      f.slotOf inst = f.slotOf inst' -> inst = inst' := by
    intro inst inst' hmem hmem' hslots
    have hplace := (mem_layout_iff hf).mp hmem
    rw [hslots, (mem_layout_iff hf).mp hmem'] at hplace
    exact (Option.some.inj hplace).symm
  rw [hazardKey, hazardKey, hslot hload, hslot hload', hslot hstore, hslot hstore',
    Prod.mk.injEq] at h
  rw [hsame hload hload' h.right, hsame hstore hstore' h.left]

omit hf in
theorem pairwise_sorted (keyed : List ((Nat × Nat) × Hazard)) :
    (keyed.mergeSort keyLe).Pairwise fun x y => keyLe x y = true := by
  apply List.pairwise_mergeSort
  · intro x y z hxy hyz
    rw [keyLe_iff] at hxy hyz ⊢
    omega
  · intro x y
    rw [Bool.or_eq_true, keyLe_iff, keyLe_iff]
    omega

theorem sorted_eq {found : List Hazard} (hperm : found.Perm (f.hazards oracle)) :
    ((found.map fun hazard => (f.hazardKey hazard, hazard)).mergeSort keyLe).map Prod.snd =
      f.hazards oracle := by
  have hmerge := List.mergeSort_perm (found.map fun hazard => (f.hazardKey hazard, hazard)) keyLe
  have hkey : forall x,
      x ∈ (found.map fun hazard => (f.hazardKey hazard, hazard)).mergeSort keyLe ->
        (f.hazardKey x.2, x.2) = x := by
    intro x hx
    rcases List.mem_map.mp (hmerge.mem_iff.mp hx) with ⟨_, _, rfl⟩
    rfl
  have hmap : (((found.map fun hazard => (f.hazardKey hazard, hazard)).mergeSort keyLe).map
      Prod.snd).Perm (f.hazards oracle) := by
    refine (hmerge.map Prod.snd).trans ?_
    rw [List.map_map]
    exact (List.map_id found).symm ▸ hperm
  have hsorted : (((found.map fun hazard => (f.hazardKey hazard, hazard)).mergeSort keyLe).map
      Prod.snd).Pairwise fun x y => keyLe (f.hazardKey x, x) (f.hazardKey y, y) = true := by
    rw [List.pairwise_map]
    refine (pairwise_sorted _).imp_of_mem ?_
    intro x y hx hy hle
    rw [hkey x hx, hkey y hy]
    exact hle
  have hordered : (f.hazards oracle).Pairwise fun x y =>
      keyLe (f.hazardKey x, x) (f.hazardKey y, y) = true := by
    refine (pairwise_hazards hf).imp ?_
    rintro x y ⟨s, l, s', l', hs, hl, hs', hl', hbefore⟩
    rw [keyLe_iff]
    simp only [hazardKey, hs, hl, hs', hl', Option.getD_some]
    omega
  refine hmap.eq_of_pairwise ?_ hsorted hordered
  intro x y hx hy hxy hyx
  rw [keyLe_iff] at hxy hyx
  dsimp only at hxy hyx
  apply hazardKey_inj hf (hmap.mem_iff.mp hx) hy
  exact Prod.ext (by omega) (by omega)

theorem findAll_eq (oracle : AliasOracle) : f.findAll oracle = .ok (f.hazards oracle) := by
  have hperm := perm_hazards hf oracle
  have hstores : (f.stores.mapM fun store => f.findForStore oracle store.id) =
      .ok (f.stores.map fun store => f.hazardsOf oracle store.id) :=
    mapM_eq_map fun store _ => findForStore_eq hf oracle store.id
  have hkeys : ((f.stores.flatMap fun store => f.hazardsOf oracle store.id).mapM fun hazard => do
      return ((← f.slot hazard.store, ← f.slot hazard.load), hazard)) =
      .ok ((f.stores.flatMap fun store => f.hazardsOf oracle store.id).map fun hazard =>
        (f.hazardKey hazard, hazard)) := by
    apply mapM_eq_map
    intro hazard hmem
    rcases (mem_hazards_iff hf).mp (hperm.mem_iff.mp hmem) with
      ⟨load, store, _, hload, hstore, _, _, rfl⟩
    rw [slot_of_mem hf hstore, slot_of_mem hf hload, hazardKey,
      slot?_of_layout hf ((mem_layout_iff hf).mp hload),
      slot?_of_layout hf ((mem_layout_iff hf).mp hstore)]
    rfl
  have hchain : (f.hazards oracle).IsChain (· ≠ ·) := (nodup_hazards hf oracle).isChain
  unfold findAll
  rw [hstores, ok_bind, ← List.flatMap_def, hkeys, ok_bind, sorted_eq hf hperm,
    List.destutter_of_isChain _ _ hchain]
  rfl

end Finished

/-!
# Exactness of the search

The search through blocks finds the hazards.  Those of a store are its exposed loads, each once, and
those of the function are those of all its stores in the order of the layout.
-/

theorem hazard_search_exact {name : String} {steps : List Step}
    (hfinished : Function.assemble name steps = .ok f) (oracle : AliasOracle) :
    (forall i, f.findForStore oracle i = .ok (f.hazardsOf oracle i)) ∧
      f.findAll oracle = .ok (f.hazards oracle) ∧
      (forall store target, store ∈ f.layout -> store.storeLocation = some target ->
      (f.hazardsOf oracle store.id).Nodup ∧
        forall hazard, hazard ∈ f.hazardsOf oracle store.id <->
          exists load, load ∈ f.layout ∧ f.Exposed oracle target load store ∧
            hazard = ⟨load.id, store.id⟩) ∧
      (forall hazard, hazard ∈ f.hazards oracle <->
        exists load store target, load ∈ f.layout ∧ store ∈ f.layout ∧
          store.storeLocation = some target ∧ f.Exposed oracle target load store ∧
          hazard = ⟨load.id, store.id⟩) ∧
      (f.hazards oracle).Pairwise f.HazardBefore := by
  have hf := wellFormed_of_assemble hfinished
  refine ⟨findForStore_eq hf oracle, findAll_eq hf oracle, ?_, fun hazard => mem_hazards_iff hf,
    pairwise_hazards hf⟩
  intro store target hstore htarget
  constructor
  · rw [hazardsOf_store hf ((mem_layout_iff hf).mp hstore) htarget]
    exact nodup_hazardsAt hf nodup_endangered
  · intro hazard
    exact mem_hazardsOf_iff hf hstore htarget

theorem spin_load_exposed :
    Function.assemble "spin" spinSteps = .ok spin ∧
      spin.findForStore .basic spinStore.id = .ok [⟨1, 0⟩] ∧
      spin.Exposed .basic ⟨cell, 4⟩ spinLoad spinStore := by
  have hfinished : Function.assemble "spin" spinSteps = .ok spin := rfl
  have hfound : spin.hazardsOf .basic spinStore.id = [⟨1, 0⟩] := by decide +kernel
  rcases hazard_search_exact hfinished .basic with ⟨hsearch, _, hstores, _⟩
  have hexact := (hstores spinStore ⟨cell, 4⟩ (by decide) (by decide)).right ⟨1, 0⟩
  rw [hfound] at hexact
  refine ⟨hfinished, (hsearch spinStore.id).trans (congrArg Except.ok hfound), ?_⟩
  rcases hexact.mp (List.mem_singleton_self _) with ⟨load, hload, hexposed, hid⟩
  have hcases : load = spinStore ∨ load = spinLoad := by
    simpa [layout, blocks, spin] using hload
  rcases hcases with rfl | rfl
  · exact absurd hid (by decide)
  · exact hexposed

end Function
end SafeRestart
