import SafeRestart.Analysis
import SafeRestart.Proofs.CutPath
import SafeRestart.Proofs.Hazard
import SafeRestart.Proofs.HittingSet
import SafeRestart.Proofs.Region

/-!
# Regions do not overwrite what they have read

The chosen boundaries hit the cut path of every hazard, so they separate every exposed load from its
store.  A load that is not exposed is separated as well: on its path to the store the last
instruction that ends the search is an exposed load, or a store that rewrites the bytes, and then
the load already reaches that earlier store.
-/

namespace SafeRestart

/-!
# Mapping with failure
-/

theorem mapM_ok {α ε β : Type} {g : α -> Except ε β} {l : List α}
    (h : forall x, x ∈ l -> exists y, g x = .ok y) :
    exists ys, l.mapM g = .ok ys ∧
      (forall y, y ∈ ys -> exists x, x ∈ l ∧ g x = .ok y) ∧
      (forall x, x ∈ l -> exists y, y ∈ ys ∧ g x = .ok y) := by
  induction l with
  | nil => exact ⟨[], rfl, by simp, by simp⟩
  | cons a rest ih =>
      rcases h a List.mem_cons_self with ⟨b, hb⟩
      rcases ih (fun x hx => h x (List.mem_cons_of_mem a hx)) with ⟨ys, hys, hback, hforth⟩
      refine ⟨b :: ys, ?_, ?_, ?_⟩
      · rw [List.mapM_cons, hb, hys]
        rfl
      · intro y hy
        rcases List.mem_cons.mp hy with rfl | hy
        · exact ⟨a, List.mem_cons_self, hb⟩
        · rcases hback y hy with ⟨x, hx, hgx⟩
          exact ⟨x, List.mem_cons_of_mem a hx, hgx⟩
      · intro x hx
        rcases List.mem_cons.mp hx with rfl | hx
        · exact ⟨b, List.mem_cons_self, hb⟩
        · rcases hforth x hx with ⟨y, hy, hgx⟩
          exact ⟨y, List.mem_cons_of_mem b hy, hgx⟩

namespace Function

variable {f : Function} {oracle : AliasOracle}

/-!
# The boundaries hit all cut paths
-/

theorem mapM_slot_ok (hf : f.WellFormed) {stores : List Nat}
    (hknown : forall n, n ∈ stores -> exists inst, inst ∈ f.layout ∧ inst.id = n) :
    exists set, stores.mapM f.slot = .ok set ∧ (stores ≠ [] -> set ≠ []) ∧
      forall k, k ∈ set -> exists inst, f.layout[k]? = some inst ∧ inst.id ∈ stores := by
  have hslot : forall n, n ∈ stores -> exists k, f.slot n = .ok k := by
    intro n hn
    rcases hknown n hn with ⟨inst, hinst, rfl⟩
    exact ⟨f.slotOf inst, (slot_ok_iff hf).mpr ⟨inst, (mem_layout_iff hf).mp hinst, rfl⟩⟩
  rcases mapM_ok hslot with ⟨set, hset, hfrom, hto⟩
  refine ⟨set, hset, ?_, ?_⟩
  · intro hne
    rcases List.exists_mem_of_ne_nil _ hne with ⟨n, hn⟩
    rcases hto n hn with ⟨k, hk, _⟩
    exact List.ne_nil_of_mem hk
  · intro k hk
    rcases hfrom k hk with ⟨n, hn, hslotn⟩
    rcases (slot_ok_iff hf).mp hslotn with ⟨inst, hinst, rfl⟩
    exact ⟨inst, hinst, hn⟩

theorem idAt_ok {k : Nat} {inst : Instruction} (h : f.layout[k]? = some inst) :
    f.idAt k = .ok inst.id := by
  unfold idAt
  rw [h]

theorem selectStores_hits (hf : f.WellFormed) {paths : List CutPath}
    (hknown : forall path, path ∈ paths -> forall n, n ∈ path.stores ->
      exists inst, inst ∈ f.layout ∧ inst.id = n)
    (hsome : forall path, path ∈ paths -> path.stores ≠ []) :
    exists selection, f.selectStores paths = .ok selection ∧
      forall path, path ∈ paths ->
        exists n, n ∈ path.stores ∧ n ∈ selection.map Selection.element := by
  have hkeyed : forall path, path ∈ paths -> exists set, path.stores.mapM f.slot = .ok set := by
    intro path hpath
    rcases mapM_slot_ok hf (hknown path hpath) with ⟨set, hset, _⟩
    exact ⟨set, hset⟩
  rcases mapM_ok hkeyed with ⟨family, hfamily, hfrom, hto⟩
  have hslots : forall set k, set ∈ family -> k ∈ set -> exists inst, f.layout[k]? = some inst := by
    intro set k hset hk
    rcases hfrom set hset with ⟨path, hpath, hmap⟩
    rcases mapM_slot_ok hf (hknown path hpath) with ⟨set', hset', _, hinst⟩
    cases hmap.symm.trans hset'
    rcases hinst k hk with ⟨inst, hplace, _⟩
    exact ⟨inst, hplace⟩
  have hnamed : forall step, step ∈ HittingSet.steps family ->
      exists chosen, (do return ⟨← f.idAt step.element, step.newlyCovered, step.covered⟩ :
        Except Fault (Selection Nat)) = .ok chosen := by
    intro step hstep
    rcases HittingSet.steps_mem hstep with ⟨set, hset, hmem⟩
    rcases hslots set step.element hset hmem with ⟨inst, hinst⟩
    rw [idAt_ok hinst]
    exact ⟨_, rfl⟩
  rcases mapM_ok hnamed with ⟨selection, hselection, _, hchosen⟩
  refine ⟨selection, ?_, ?_⟩
  · unfold selectStores
    rw [hfamily]
    exact hselection
  · intro path hpath
    rcases hto path hpath with ⟨set, hset, hmap⟩
    rcases mapM_slot_ok hf (hknown path hpath) with ⟨set', hset', hne, hinst⟩
    cases hmap.symm.trans hset'
    rcases HittingSet.steps_hit hset (hne (hsome path hpath)) with ⟨step, hstep, hhit⟩
    rcases hinst step.element hhit with ⟨inst, hplace, hstores⟩
    rcases hchosen step hstep with ⟨chosen, hmem, hid⟩
    rw [idAt_ok hplace] at hid
    cases hid
    exact ⟨inst.id, hstores, List.mem_map.mpr ⟨_, hmem, rfl⟩⟩

theorem cutPath_stores_known (hf : f.WellFormed) {load store : Instruction} {path : CutPath}
    (hload : load ∈ f.layout) (hstore : store ∈ f.layout)
    (hcut : f.cutPath ⟨load.id, store.id⟩ = .ok path) :
    path.stores ≠ [] ∧
      forall n, n ∈ path.stores -> exists inst, inst ∈ f.layout ∧ inst.id = n := by
  constructor
  · rw [cutPath_eq hf hload hstore] at hcut
    cases hcut
    simp
  · intro n hn
    rcases exists_candidate hf hload hstore hcut hn with ⟨inst, hinst, _, hid⟩
    exact ⟨inst, hinst, hid⟩

theorem boundaries_hit (hf : f.WellFormed) (oracle : AliasOracle) :
    exists boundaries, f.boundaries oracle = .ok boundaries ∧
      forall hazard, hazard ∈ f.hazards oracle ->
        exists path, f.cutPath hazard = .ok path ∧
          exists n, n ∈ path.stores ∧ n ∈ boundaries.insts := by
  have hknown : forall hazard path, hazard ∈ f.hazards oracle -> f.cutPath hazard = .ok path ->
      path.stores ≠ [] ∧
        forall n, n ∈ path.stores -> exists inst, inst ∈ f.layout ∧ inst.id = n := by
    intro hazard path hhazard hcut
    rcases (mem_hazards_iff hf).mp hhazard with ⟨load, store, _, hload, hstore, _, _, rfl⟩
    exact cutPath_stores_known hf hload hstore hcut
  have hcut : forall hazard, hazard ∈ f.hazards oracle ->
      exists path, f.cutPathIn f.dominators hazard = .ok path := by
    intro hazard hhazard
    rcases (mem_hazards_iff hf).mp hhazard with ⟨load, store, _, hload, hstore, _, _, rfl⟩
    exact ⟨_, cutPath_eq hf hload hstore⟩
  rcases mapM_ok hcut with ⟨paths, hpaths, hfrom, hto⟩
  have hselect : exists selection, f.selectStores paths = .ok selection ∧
      forall path, path ∈ paths ->
        exists n, n ∈ path.stores ∧ n ∈ selection.map Selection.element := by
    apply selectStores_hits hf
    · intro path hpath
      rcases hfrom path hpath with ⟨hazard, hhazard, heq⟩
      exact (hknown hazard path hhazard heq).right
    · intro path hpath
      rcases hfrom path hpath with ⟨hazard, hhazard, heq⟩
      exact (hknown hazard path hhazard heq).left
  rcases hselect with ⟨selection, hselection, hhit⟩
  refine ⟨BoundarySet.ofList (selection.map Selection.element), ?_, ?_⟩
  · unfold boundaries analyze
    dsimp only
    rw [hpaths]
    change (f.selectStores paths >>= _) >>= _ = _
    rw [hselection]
    rfl
  · intro hazard hhazard
    rcases hto hazard hhazard with ⟨path, hpath, heq⟩
    rcases hhit path hpath with ⟨n, hstores, hmem⟩
    exact ⟨path, heq, n, hstores, Ascending.mem_ofList_iff.mpr hmem⟩

/-!
# Separating loads from stores
-/

variable {load store : Instruction} {read written target : MemoryLocation}
  {met : List Instruction} {boundaries : BoundarySet}

/-- The boundaries meet every path from an exposed load to its store. -/
def Separates (f : Function) (oracle : AliasOracle) (boundaries : BoundarySet) : Prop :=
  forall {load store : Instruction} {target : MemoryLocation} {met : List Instruction},
    store.storeLocation = some target -> f.Exposed oracle target load store ->
    Path f.Passes load met store -> met ≠ [] ->
      exists x, x ∈ met ∧ x.id ∈ boundaries.insts

theorem path_start_mem_layout (hf : f.WellFormed) {i j : Instruction}
    (hpath : Path f.Passes i met j) (hne : met ≠ []) : i ∈ f.layout := by
  cases hpath with
  | nil _ => exact absurd rfl hne
  | cons hstep _ => exact (mem_layout_iff hf).mpr (passes_layout hf hstep).left

theorem separates_of_hit (hf : f.WellFormed)
    (hhit : forall hazard, hazard ∈ f.hazards oracle ->
      exists path, f.cutPath hazard = .ok path ∧
        exists n, n ∈ path.stores ∧ n ∈ boundaries.insts) :
    f.Separates oracle boundaries := by
  intro load store target met htarget hexposed hpath hne
  have hload := path_start_mem_layout hf hpath hne
  have hstore := path_mem_layout hf hpath store (path_end_mem hpath hne)
  have hhazard : (⟨load.id, store.id⟩ : Hazard) ∈ f.hazards oracle :=
    (mem_hazards_iff hf).mpr ⟨load, store, target, hload, hstore, htarget, hexposed, rfl⟩
  rcases hhit _ hhazard with ⟨path, hcut, n, hstores, hmem⟩
  rcases met_of_mem_cutPath hf hload hstore hcut hstores hpath hne with ⟨x, hx, rfl⟩
  exact ⟨x, hx, hmem⟩

theorem not_load_and_store {inst : Instruction} (hload : inst.loadLocation = some read)
    (hstore : inst.storeLocation = some written) : False := by
  unfold Operation.loadLocation Operation.location? at hload
  unfold Operation.storeLocation Operation.location? at hstore
  cases hmemory : inst.memory with
  | none =>
      rw [hmemory] at hload
      cases hload
  | some access =>
      rw [hmemory] at hload hstore
      cases hkind : access.kind with
      | load => simp [Option.filter, hkind] at hstore
      | store => simp [Option.filter, hkind] at hload

theorem ends_cases {inst : Instruction} (h : Hazard.ends oracle target inst = true) :
    (exists read, inst.loadLocation = some read ∧ oracle read target ≠ .noAlias) ∨
      exists written, inst.storeLocation = some written ∧ oracle written target = .mustAlias := by
  rcases (Bool.or_eq_true _ _).mp h with htouch | hrefresh
  · exact Or.inl (touches_iff.mp htouch)
  · rcases (Option.any_eq_true _ _).mp hrefresh with ⟨written, hwritten, hmust⟩
    exact Or.inr ⟨written, hwritten, by simpa using hmust⟩

theorem exists_last_end {insts : List Instruction}
    (h : exists x, x ∈ insts ∧ Hazard.ends oracle target x = true) :
    exists before x after, insts = before ++ x :: after ∧
      Hazard.ends oracle target x = true ∧ Undisturbed oracle target after := by
  induction insts with
  | nil =>
      rcases h with ⟨x, hx, _⟩
      cases hx
  | cons y rest ih =>
      by_cases hlater : exists x, x ∈ rest ∧ Hazard.ends oracle target x = true
      · rcases ih hlater with ⟨before, x, after, rfl, hx, hquiet⟩
        exact ⟨y :: before, x, after, rfl, hx, hquiet⟩
      · refine ⟨[], y, rest, rfl, ?_, ?_⟩
        · rcases h with ⟨x, hx, hends⟩
          rcases List.mem_cons.mp hx with rfl | hx
          · exact hends
          · exact absurd ⟨x, hx, hends⟩ hlater
        · intro x hx
          apply ends_false_iff.mp
          by_contra hends
          exact hlater ⟨x, hx, by simpa using hends⟩

end Function

/-- What certainly covers bytes that may be read may be read itself. -/
def AliasOracle.Coherent (oracle : AliasOracle) : Prop :=
  forall read written target, oracle written target = .mustAlias ->
    oracle read target ≠ .noAlias -> oracle read written ≠ .noAlias

namespace Function

variable {f : Function} {oracle : AliasOracle} {boundaries : BoundarySet}

/-- Every path from a load to a store of bytes it may have read meets a boundary.  The induction is
on the length of the path: when the bytes are rewritten on the way, the path up to there is a
shorter path of the same kind. -/
theorem exists_boundary_on_path (hcoherent : oracle.Coherent)
    (hseparates : f.Separates oracle boundaries)
    {load store : Instruction} {read target : MemoryLocation} {met : List Instruction}
    (hread : load.loadLocation = some read) (htarget : store.storeLocation = some target)
    (halias : oracle read target ≠ .noAlias) (hpath : Path f.Passes load met store) :
    exists x, x ∈ met ∧ x.id ∈ boundaries.insts := by
  induction hlength : met.length using Nat.strongRecOn generalizing store target met with
  | ind n ih =>
      rcases path_end hpath with ⟨_, rfl⟩ | ⟨between, rfl⟩
      · exact (not_load_and_store hread htarget).elim
      · have hends : Hazard.ends oracle target load = true := by
          rw [Hazard.ends, touches_iff.mpr ⟨read, hread, halias⟩, Bool.true_or]
        have hend : exists x, x ∈ load :: between ∧ Hazard.ends oracle target x = true :=
          ⟨load, List.mem_cons_self, hends⟩
        rcases exists_last_end hend with ⟨before, x, after, hsplit, hx, hquiet⟩
        cases before with
        | nil =>
            cases hsplit
            exact hseparates htarget ⟨⟨read, hread, halias⟩, between, hpath, hquiet⟩ hpath
              (by simp)
        | cons first before =>
            rw [List.cons_append] at hsplit
            rcases List.cons.inj hsplit with ⟨rfl, rfl⟩
            rw [List.append_assoc, List.cons_append] at hpath ⊢
            rcases path_split_at hpath with ⟨hbefore, hafter⟩
            rcases ends_cases hx with htouch | ⟨written, hwritten, hmust⟩
            · rcases hseparates htarget ⟨htouch, after, hafter, hquiet⟩ hafter (by simp) with
                ⟨y, hy, hmem⟩
              exact ⟨y, List.mem_append_right before (List.mem_cons_of_mem x hy), hmem⟩
            · have hearlier := hcoherent read written target hmust halias
              have hshorter : (before ++ [x]).length < n := by
                rw [← hlength]
                simp
              rcases ih _ hshorter hwritten hearlier hbefore rfl with ⟨y, hy, hmem⟩
              refine ⟨y, ?_, hmem⟩
              rw [List.append_cons]
              exact List.mem_append_left _ hy

end Function

/-!
# Coherent oracles
-/

namespace AliasOracle

theorem compareRanges_mustAlias {a b : MemoryLocation} (h : a.compareRanges b = .mustAlias) :
    a.address.offset = b.address.offset ∧ a.size = b.size := by
  unfold MemoryLocation.compareRanges at h
  split at h
  · assumption
  · split at h
    · cases h
    · cases h

theorem eq_of_basic_mustAlias {a b : MemoryLocation} (h : basic a b = .mustAlias) : a = b := by
  unfold basic at h
  split at h
  · cases h
  · have hranges : a.address.base = b.address.base -> a.compareRanges b = .mustAlias -> a = b := by
      intro hbase hmust
      rcases compareRanges_mustAlias hmust with ⟨hoffset, hsize⟩
      cases a with
      | mk address size =>
          cases b with
          | mk address' size' =>
              cases address
              cases address'
              cases hbase
              cases hoffset
              cases hsize
              rfl
    split at h
    · cases h
    · cases h
    · rename_i m n hm hn
      split at h
      · rename_i hmn
        exact hranges (by rw [hm, hn, hmn]) h
      · cases h
    · rename_i m n hm hn
      split at h
      · rename_i hmn
        exact hranges (by rw [hm, hn, hmn]) h
      · cases h
    · cases h
    · cases h

theorem coherent_basic : basic.Coherent := by
  intro read written target hmust hread
  rw [eq_of_basic_mustAlias hmust]
  exact hread

theorem coherent_conservative : conservative.Coherent := by
  intro read written target hmust _
  cases hmust

end AliasOracle

namespace Function

/-!
# Memory idempotence of the chosen regions
-/

theorem regions_memory_idempotent {name : String} {steps : List Step} {f : Function}
    (hfinished : Function.assemble name steps = .ok f) :
    AliasOracle.basic.Coherent ∧ AliasOracle.conservative.Coherent ∧
      forall oracle : AliasOracle, oracle.Coherent ->
        exists boundaries, f.boundaries oracle = .ok boundaries ∧
          (forall load store read target met,
            load.loadLocation = some read -> store.storeLocation = some target ->
            oracle read target ≠ .noAlias -> Path f.Passes load met store ->
              exists x, x ∈ met ∧ boundaries.contains x.id = true) ∧
          forall region entry load store read target before after,
            (RegionModel.ofBoundaries f boundaries).StaysIn region entry (before ++ after) store ->
            Path f.Passes entry before load -> Path f.Passes load after store ->
            load.loadLocation = some read -> store.storeLocation = some target ->
              oracle read target = .noAlias := by
  have hf := wellFormed_of_assemble hfinished
  refine ⟨AliasOracle.coherent_basic, AliasOracle.coherent_conservative, ?_⟩
  intro oracle hcoherent
  rcases boundaries_hit hf oracle with ⟨boundaries, hboundaries, hhit⟩
  have hseparates : f.Separates oracle boundaries := separates_of_hit hf hhit
  refine ⟨boundaries, hboundaries, ?_, ?_⟩
  · intro load store read target met hread htarget halias hpath
    rcases exists_boundary_on_path hcoherent hseparates hread htarget halias hpath with
      ⟨x, hx, hmem⟩
    exact ⟨x, hx, by simpa [BoundarySet.contains] using hmem⟩
  · intro region entry load store read target before after hstays _ hpath hread htarget
    by_contra halias
    rcases exists_boundary_on_path hcoherent hseparates hread htarget halias hpath with
      ⟨x, hx, hmem⟩
    have hentry := RegionModel.isEntry_of_mem_boundaries hf (path_mem_layout hf hpath x hx) hmem
    rw [hstays.inside x (List.mem_append_right before hx)] at hentry
    cases hentry

theorem spin_boundary_on_back_edge :
    Function.assemble "spin" spinSteps = .ok spin ∧ AliasOracle.basic.Coherent ∧
      Path spin.Passes spinLoad [spinStore] spinStore ∧
      exists boundaries, spin.boundaries .basic = .ok boundaries ∧
        boundaries.contains spinStore.id = true := by
  have hfinished : Function.assemble "spin" spinSteps = .ok spin := rfl
  have hpath : Path spin.Passes spinLoad [spinStore] spinStore := by
    apply Path.cons _ (Path.nil spinStore)
    exact Passes.across (b := 0) (c := 0) (by decide) rfl rfl
  rcases regions_memory_idempotent hfinished with ⟨hbasic, _, hall⟩
  rcases hall .basic hbasic with ⟨boundaries, hboundaries, hcut, _⟩
  rcases hcut spinLoad spinStore ⟨cell, 4⟩ ⟨cell, 4⟩ [spinStore] (by decide) (by decide)
    (by decide) hpath with ⟨x, hx, hmem⟩
  rw [List.mem_singleton] at hx
  subst hx
  exact ⟨hfinished, hbasic, hpath, boundaries, hboundaries, hmem⟩

end Function
end SafeRestart
