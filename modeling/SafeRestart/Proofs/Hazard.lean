import Mathlib.Data.List.Nodup
import SafeRestart.Hazard
import SafeRestart.Proofs.Ascending
import SafeRestart.Proofs.Assembly
import SafeRestart.Proofs.Flow
import SafeRestart.Proofs.Search

/-!
# The meaning of hazards

A load is exposed to a store when some path leads from the load to the store and between the two
nothing else may read the bytes of the store and nothing certainly overwrites them.  The backward
search finds exactly the exposed loads, on every shape of control flow.
-/

namespace SafeRestart
namespace Function

/-- None of the instructions may read bytes of `target`, and none certainly overwrites them. -/
def Undisturbed (oracle : AliasOracle) (target : MemoryLocation) (between : List Instruction) :
    Prop :=
  forall x, x ∈ between ->
    (forall read, x.loadLocation = some read -> oracle read target = .noAlias) ∧
      (forall written, x.storeLocation = some written -> oracle written target ≠ .mustAlias)

/-- The load may read bytes of `target`, and control can pass from it to the store undisturbed. -/
def Exposed (f : Function) (oracle : AliasOracle) (target : MemoryLocation)
    (load store : Instruction) : Prop :=
  (exists read, load.loadLocation = some read ∧ oracle read target ≠ .noAlias) ∧
    exists between, Path f.Passes load (between ++ [store]) store ∧
      Undisturbed oracle target between

variable {f : Function} {oracle : AliasOracle} {target : MemoryLocation} {j k : Nat}
  {load store : Instruction}

/-!
# Single instructions
-/

theorem touches_iff {inst : Instruction} :
    Hazard.touches oracle target inst = true <->
      exists read, inst.loadLocation = some read ∧ oracle read target ≠ .noAlias := by
  unfold Hazard.touches
  cases inst.loadLocation with
  | none => simp
  | some read => simp

theorem ends_false_iff {inst : Instruction} :
    Hazard.ends oracle target inst = false <->
      (forall read, inst.loadLocation = some read -> oracle read target = .noAlias) ∧
        (forall written, inst.storeLocation = some written ->
          oracle written target ≠ .mustAlias) := by
  unfold Hazard.ends Hazard.touches Hazard.refreshes
  cases inst.loadLocation with
  | none =>
      cases inst.storeLocation with
      | none => simp
      | some written => simp
  | some read =>
      cases inst.storeLocation with
      | none => simp
      | some written => simp

/-!
# The backward search
-/

def searchEnds (f : Function) (oracle : AliasOracle) (target : MemoryLocation) (j : Nat) : Bool :=
  (f.layout[j]?).any (Hazard.ends oracle target)

theorem mem_slots : k ∈ f.slots <-> k < f.size := by
  simp [slots]

theorem mem_endangered_slots (hf : f.WellFormed) :
    j ∈ f.endangered oracle k target <->
      (f.layout[j]?).any (Hazard.touches oracle target) = true ∧
        exists between, Path f.Leads j (between ++ [k]) k ∧
          forall x, x ∈ between -> ¬ f.searchEnds oracle target x = true := by
  have hback : (fun x y => y ∈ if (f.layout[x]?).any (Hazard.ends oracle target) then []
      else f.prev x) = fun x y => ¬ f.searchEnds oracle target x = true ∧ f.Leads y x := by
    funext x y
    change (y ∈ if f.searchEnds oracle target x then [] else f.prev x) = _
    by_cases hx : f.searchEnds oracle target x = true
    · simp [hx]
    · simp [hx, mem_prev_iff hf]
  have hclosed : forall x y, (y ∈ if (f.layout[x]?).any (Hazard.ends oracle target) then []
      else f.prev x) -> y ∈ f.slots := by
    intro x y hy
    have hstep := congrFun (congrFun hback x) y ▸ hy
    exact mem_slots.mpr (leads_lt hf hstep.right).left
  unfold endangered
  rw [List.mem_filter, and_comm, Search.mem_sweep_iff_of_closed hclosed, hback]
  refine and_congr_right fun _ => ?_
  constructor
  · intro h
    rcases h with ⟨r, hr, _, met, hpath⟩
    rcases path_avoiding_iff.mp hpath with ⟨hplain, hfree⟩
    rcases path_reverse hplain with ⟨between, hforward, hrev⟩
    refine ⟨between, path_snoc hforward ((mem_prev_iff hf).mp hr), ?_⟩
    intro x hx
    exact hfree x ((mem_dropLast_iff_of_reverse hrev).mpr hx)
  · intro h
    rcases h with ⟨between, hpath, hfree⟩
    rcases path_append_split hpath with ⟨r, hbefore, hlast⟩
    cases hlast with
    | cons hstep hnil =>
        rcases path_reverse hbefore with ⟨met, hback', hrev⟩
        refine ⟨r, (mem_prev_iff hf).mpr hstep, mem_slots.mpr (leads_lt hf hstep).left, met, ?_⟩
        refine path_avoiding_iff.mpr ⟨hback', ?_⟩
        intro x hx
        have hrev' : j :: between = (r :: met).reverse := by rw [hrev, List.reverse_reverse]
        exact hfree x ((mem_dropLast_iff_of_reverse hrev').mp hx)

theorem mem_endangered_iff (hf : f.WellFormed) (hstore : f.layout[k]? = some store) :
    j ∈ f.endangered oracle k target <->
      exists load, f.layout[j]? = some load ∧ f.Exposed oracle target load store := by
  rw [mem_endangered_slots hf]
  constructor
  · intro h
    rcases h with ⟨htouch, between, hpath, hfree⟩
    rcases (Option.any_eq_true _ _).mp htouch with ⟨load, hload, htouch⟩
    rcases path_insts hf hload hpath with ⟨insts, last, hlast, hinsts, hmap⟩
    cases hstore.symm.trans hlast
    rcases path_end hinsts with ⟨rfl, _⟩ | ⟨init, rfl⟩
    · simp at hmap
    · rw [List.map_append] at hmap
      have hinit := (List.append_inj' hmap rfl).left
      refine ⟨load, hload, touches_iff.mp htouch, init, hinsts, ?_⟩
      intro x hx
      apply ends_false_iff.mp
      have hslot := hfree (f.slotOf x) (hinit ▸ List.mem_map_of_mem hx)
      have hplace := (mem_layout_iff hf).mp
        (path_mem_layout hf hinsts x (List.mem_append_left _ hx))
      simpa [searchEnds, hplace] using hslot
  · intro h
    rcases h with ⟨load, hload, htouch, between, hpath, hquiet⟩
    have hslots := path_slots hf hpath
    rw [((layout_iff hf).mp hload).right, ((layout_iff hf).mp hstore).right,
      List.map_append] at hslots
    refine ⟨by simpa [hload] using touches_iff.mpr htouch, between.map f.slotOf, ?_, ?_⟩
    · simpa [((layout_iff hf).mp hstore).right] using hslots
    · intro x hx
      rcases List.mem_map.mp hx with ⟨inst, hinst, rfl⟩
      have hplace := (mem_layout_iff hf).mp
        (path_mem_layout hf hpath inst (List.mem_append_left _ hinst))
      simpa [searchEnds, hplace] using ends_false_iff.mpr (hquiet inst hinst)

theorem nodup_endangered : (f.endangered oracle k target).Nodup :=
  (Search.nodup_sweep List.nodup_range).filter _

/-!
# Lists of hazards
-/

theorem mem_hazardsAt {i : Nat} {loads : List Nat} {hazard : Hazard} :
    hazard ∈ f.hazardsAt i loads <->
      exists j load, j ∈ loads ∧ f.layout[j]? = some load ∧ hazard = ⟨load.id, i⟩ := by
  unfold hazardsAt
  rw [List.mem_filterMap]
  constructor
  · intro h
    rcases h with ⟨j, hj, hmap⟩
    rcases Option.map_eq_some_iff.mp hmap with ⟨load, hload, rfl⟩
    exact ⟨j, load, hj, hload, rfl⟩
  · intro h
    rcases h with ⟨j, load, hj, hload, rfl⟩
    exact ⟨j, hj, by simp [hload]⟩

theorem hazardsOf_store (hf : f.WellFormed) (hstore : f.layout[k]? = some store)
    (htarget : store.storeLocation = some target) :
    f.hazardsOf oracle store.id = f.hazardsAt store.id (f.endangered oracle k target) := by
  unfold hazardsOf
  rw [slot?_of_layout hf hstore, inst?_of_layout hf hstore]
  simp [htarget]

theorem nodup_hazardsAt (hf : f.WellFormed) {i : Nat} {loads : List Nat} (h : loads.Nodup) :
    (f.hazardsAt i loads).Nodup := by
  unfold hazardsAt
  refine h.filterMap ?_
  intro j j' hazard hj hj'
  rcases Option.map_eq_some_iff.mp hj with ⟨load, hload, rfl⟩
  rcases Option.map_eq_some_iff.mp hj' with ⟨load', hload', hsame⟩
  have hid : load'.id = load.id := (Hazard.mk.injEq _ _ _ _).mp hsame |>.left
  have hslot := slot?_of_layout hf hload
  rw [← hid, slot?_of_layout hf hload'] at hslot
  exact (Option.some.inj hslot).symm

theorem mem_hazardsOf_iff (hf : f.WellFormed) (hstore : store ∈ f.layout)
    (htarget : store.storeLocation = some target) {hazard : Hazard} :
    hazard ∈ f.hazardsOf oracle store.id <->
      exists load, load ∈ f.layout ∧ f.Exposed oracle target load store ∧
        hazard = ⟨load.id, store.id⟩ := by
  have hplace := (mem_layout_iff hf).mp hstore
  rw [hazardsOf_store hf hplace htarget, mem_hazardsAt]
  constructor
  · intro h
    rcases h with ⟨j, load, hj, hload, rfl⟩
    rcases (mem_endangered_iff hf hplace).mp hj with ⟨load', hload', hexposed⟩
    cases hload.symm.trans hload'
    exact ⟨load, List.mem_of_getElem? hload, hexposed, rfl⟩
  · intro h
    rcases h with ⟨load, hload, hexposed, rfl⟩
    have hloadPlace := (mem_layout_iff hf).mp hload
    exact ⟨f.slotOf load, load, (mem_endangered_iff hf hplace).mpr ⟨load, hloadPlace, hexposed⟩,
      hloadPlace, rfl⟩

theorem mem_hazards_iff (hf : f.WellFormed) {hazard : Hazard} :
    hazard ∈ f.hazards oracle <->
      exists load store target, load ∈ f.layout ∧ store ∈ f.layout ∧
        store.storeLocation = some target ∧ f.Exposed oracle target load store ∧
        hazard = ⟨load.id, store.id⟩ := by
  unfold hazards
  rw [List.mem_flatMap]
  constructor
  · intro h
    rcases h with ⟨⟨store, k⟩, hmem, hhazard⟩
    have hstore : f.layout[k]? = some store := List.mem_zipIdx_iff_getElem?.mp hmem
    dsimp only at hhazard
    split at hhazard
    · rename_i target htarget
      rcases mem_hazardsAt.mp hhazard with ⟨j, load, hj, hload, rfl⟩
      rw [Ascending.mem_ofList_iff] at hj
      rcases (mem_endangered_iff hf hstore).mp hj with ⟨load', hload', hexposed⟩
      cases hload.symm.trans hload'
      exact ⟨load, store, target, List.mem_of_getElem? hload, List.mem_of_getElem? hstore,
        htarget, hexposed, rfl⟩
    · cases hhazard
  · intro h
    rcases h with ⟨load, store, target, hload, hstore, htarget, hexposed, rfl⟩
    have hplace := (mem_layout_iff hf).mp hstore
    have hloadPlace := (mem_layout_iff hf).mp hload
    refine ⟨(store, f.slotOf store), List.mem_zipIdx_iff_getElem?.mpr hplace, ?_⟩
    simp only [htarget]
    refine mem_hazardsAt.mpr ⟨f.slotOf load, load, ?_, hloadPlace, rfl⟩
    rw [Ascending.mem_ofList_iff]
    exact (mem_endangered_iff hf hplace).mpr ⟨load, hloadPlace, hexposed⟩

/-!
# The order of the hazards
-/

/-- One hazard comes before another by the slot of its store, then by the slot of its load. -/
def HazardBefore (f : Function) (x y : Hazard) : Prop :=
  exists s l s' l', f.slot? x.store = some s ∧ f.slot? x.load = some l ∧
    f.slot? y.store = some s' ∧ f.slot? y.load = some l' ∧ (s < s' ∨ (s = s' ∧ l < l'))

theorem hazardBefore_irrefl {x : Hazard} : ¬ f.HazardBefore x x := by
  rintro ⟨s, l, s', l', hs, hl, hs', hl', hbefore⟩
  cases hs.symm.trans hs'
  cases hl.symm.trans hl'
  omega

theorem pairwise_hazardsAt (hf : f.WellFormed) (hstore : f.layout[k]? = some store)
    {loads : List Nat} (h : loads.Pairwise (· < ·)) :
    (f.hazardsAt store.id loads).Pairwise f.HazardBefore := by
  unfold hazardsAt
  refine h.filterMap _ ?_
  intro j j' hlt x hx y hy
  rcases Option.map_eq_some_iff.mp hx with ⟨load, hload, rfl⟩
  rcases Option.map_eq_some_iff.mp hy with ⟨load', hload', rfl⟩
  exact ⟨k, j, k, j', slot?_of_layout hf hstore, slot?_of_layout hf hload,
    slot?_of_layout hf hstore, slot?_of_layout hf hload', Or.inr ⟨rfl, hlt⟩⟩

theorem pairwise_zipIdx_layout : f.layout.zipIdx.Pairwise fun x y => x.2 < y.2 := by
  apply List.pairwise_map.mp
  rw [List.zipIdx_map_snd]
  exact List.pairwise_lt_range'

theorem pairwise_hazards (hf : f.WellFormed) :
    (f.hazards oracle).Pairwise f.HazardBefore := by
  unfold hazards
  rw [List.pairwise_flatMap]
  constructor
  · intro placed hmem
    rcases placed with ⟨store, k⟩
    have hstore : f.layout[k]? = some store := List.mem_zipIdx_iff_getElem?.mp hmem
    dsimp only
    split
    · exact pairwise_hazardsAt hf hstore (Ascending.pairwise_ofList _)
    · exact List.Pairwise.nil
  · refine pairwise_zipIdx_layout.imp_of_mem ?_
    intro placed placed' hmem hmem' hlt x hx y hy
    rcases placed with ⟨store, k⟩
    rcases placed' with ⟨store', k'⟩
    have hstore : f.layout[k]? = some store := List.mem_zipIdx_iff_getElem?.mp hmem
    have hstore' : f.layout[k']? = some store' := List.mem_zipIdx_iff_getElem?.mp hmem'
    dsimp only at hx hy
    split at hx
    · split at hy
      · rcases mem_hazardsAt.mp hx with ⟨j, load, _, hload, rfl⟩
        rcases mem_hazardsAt.mp hy with ⟨j', load', _, hload', rfl⟩
        exact ⟨k, j, k', j', slot?_of_layout hf hstore, slot?_of_layout hf hload,
          slot?_of_layout hf hstore', slot?_of_layout hf hload', Or.inl hlt⟩
      · cases hy
    · cases hx

theorem nodup_hazards (hf : f.WellFormed) (oracle : AliasOracle) : (f.hazards oracle).Nodup := by
  refine (pairwise_hazards hf).imp ?_
  rintro x y hbefore rfl
  exact hazardBefore_irrefl hbefore

/-!
A block that stores to a cell, loads from it and starts again: the load reaches the store only by
way of the back edge.
-/

def cell : Address := ⟨.object 0, 0⟩

def spinSteps : List Step :=
  [.openBlock "spin", .select 0, .emit (.store cell 4), .emit (.load cell 4), .connect 0 0]

def spinStore : Instruction := { Operation.store cell 4 with id := 0, block := 0, position := 0 }

def spinLoad : Instruction := { Operation.load cell 4 with id := 1, block := 0, position := 1 }

def spin : Function := ⟨"spin", [], ⟨[⟨"spin", [spinStore, spinLoad]⟩], [(0, 0)]⟩⟩

end Function
end SafeRestart
