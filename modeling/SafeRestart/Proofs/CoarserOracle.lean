import SafeRestart.Proofs.Idempotence

/-!
# Coarser oracles

An oracle that knows less lets the search stop at more loads and pass over more stores, so its
hazards need not include those of a sharper one.  No endangered store is lost, though: on every path
that exposes a load to a store under the sharper oracle, the last load that may be read under the
coarser one is exposed there.
-/

namespace SafeRestart

/-- What `coarse` says for certain, `fine` says too. -/
structure AliasOracle.CoarserThan (coarse fine : AliasOracle) : Prop where
  apart : forall a b, coarse a b = .noAlias -> fine a b = .noAlias
  rewritten : forall a b, coarse a b = .mustAlias -> fine a b = .mustAlias

theorem AliasOracle.conservative_coarserThan (oracle : AliasOracle) :
    conservative.CoarserThan oracle :=
  ⟨fun _ _ h => absurd h (by simp [conservative]), fun _ _ h => absurd h (by simp [conservative])⟩

namespace Function

variable {f : Function} {fine coarse : AliasOracle} {target : MemoryLocation}
  {load store mid : Instruction} {between : List Instruction}

def PassesBy (f : Function) (first mid last : Instruction) : Prop :=
  exists before after, Path f.Passes first before mid ∧ Path f.Passes mid after last

/-!
# One path
-/

theorem touches_coarser (h : coarse.CoarserThan fine)
    (htouch : Hazard.touches fine target load = true) :
    Hazard.touches coarse target load = true := by
  rcases touches_iff.mp htouch with ⟨read, hread, halias⟩
  exact touches_iff.mpr ⟨read, hread, fun hno => halias (h.apart read target hno)⟩

theorem touches_of_ends_coarser (h : coarse.CoarserThan fine)
    (htouch : Hazard.touches fine target load = true) (hquiet : Undisturbed fine target between)
    (hmid : mid ∈ load :: between) (hends : Hazard.ends coarse target mid = true) :
    Hazard.touches coarse target mid = true := by
  rcases ends_cases hends with htouched | ⟨written, hwritten, hmust⟩
  · exact touches_iff.mpr htouched
  · rcases List.mem_cons.mp hmid with rfl | hmid
    · exact touches_coarser h htouch
    · exact absurd (h.rewritten written target hmust) ((hquiet mid hmid).right written hwritten)

theorem exists_exposed_coarser (h : coarse.CoarserThan fine)
    (hexposed : f.Exposed fine target load store) :
    exists mid, f.Exposed coarse target mid store ∧ f.PassesBy load mid store := by
  rcases hexposed with ⟨hread, between, hpath, hquiet⟩
  have htouch : Hazard.touches fine target load = true := touches_iff.mpr hread
  have hends : Hazard.ends coarse target load = true := by
    rw [Hazard.ends, touches_coarser h htouch, Bool.true_or]
  rcases exists_last_end ⟨load, List.mem_cons_self, hends⟩ with
    ⟨before, mid, after, hsplit, hlast, hfree⟩
  have hmid : mid ∈ load :: between := hsplit ▸ List.mem_append_right before List.mem_cons_self
  have hexposes := touches_iff.mp (touches_of_ends_coarser h htouch hquiet hmid hlast)
  rcases path_cut_before hpath hsplit with ⟨⟨first, hfirst⟩, hafter⟩
  exact ⟨mid, ⟨hexposes, after, hafter, hfree⟩, first, after ++ [store], hfirst, hafter⟩

theorem mem_layout_of_exposed (hf : f.WellFormed) (h : f.Exposed coarse target mid store) :
    mid ∈ f.layout := by
  rcases h with ⟨_, between, hpath, _⟩
  exact path_start_mem_layout hf hpath (by simp)

/-!
# All hazards
-/

theorem exists_target_of_mem_hazardsOf (hf : f.WellFormed) (hstore : store ∈ f.layout)
    {hazard : Hazard} (h : hazard ∈ f.hazardsOf fine store.id) :
    exists target, store.storeLocation = some target := by
  have hplace := (mem_layout_iff hf).mp hstore
  cases htarget : store.storeLocation with
  | some target => exact ⟨target, rfl⟩
  | none =>
      rw [hazardsOf, slot?_of_layout hf hplace, inst?_of_layout hf hplace] at h
      simp [htarget] at h

theorem hazardsOf_coarser (hf : f.WellFormed) (h : coarse.CoarserThan fine)
    (hstore : store ∈ f.layout) {hazard : Hazard} (hhazard : hazard ∈ f.hazardsOf fine store.id) :
    exists load mid, load ∈ f.layout ∧ mid ∈ f.layout ∧ hazard = ⟨load.id, store.id⟩ ∧
      ⟨mid.id, store.id⟩ ∈ f.hazardsOf coarse store.id ∧ f.PassesBy load mid store := by
  rcases exists_target_of_mem_hazardsOf hf hstore hhazard with ⟨target, htarget⟩
  rcases (mem_hazardsOf_iff hf hstore htarget).mp hhazard with ⟨load, hload, hexposed, rfl⟩
  rcases exists_exposed_coarser h hexposed with ⟨mid, hmid, hway⟩
  have hlayout := mem_layout_of_exposed hf hmid
  exact ⟨load, mid, hload, hlayout, rfl,
    (mem_hazardsOf_iff hf hstore htarget).mpr ⟨mid, hlayout, hmid, rfl⟩, hway⟩

theorem hazards_coarser (hf : f.WellFormed) (h : coarse.CoarserThan fine) {hazard : Hazard}
    (hhazard : hazard ∈ f.hazards fine) :
    exists load mid store, load ∈ f.layout ∧ mid ∈ f.layout ∧ store ∈ f.layout ∧
      hazard = ⟨load.id, store.id⟩ ∧ ⟨mid.id, store.id⟩ ∈ f.hazards coarse ∧
      f.PassesBy load mid store := by
  rcases (mem_hazards_iff hf).mp hhazard with
    ⟨load, store, target, hload, hstore, htarget, hexposed, rfl⟩
  rcases exists_exposed_coarser h hexposed with ⟨mid, hmid, hway⟩
  have hlayout := mem_layout_of_exposed hf hmid
  exact ⟨load, mid, store, hload, hlayout, hstore, rfl,
    (mem_hazards_iff hf).mpr ⟨mid, store, target, hlayout, hstore, htarget, hmid, rfl⟩, hway⟩

theorem coarser_oracle_keeps_hazards {name : String} {steps : List Step}
    (hfinished : Function.assemble name steps = .ok f) (h : coarse.CoarserThan fine) :
    (forall store, store ∈ f.layout ->
      f.hazardsOf fine store.id ≠ [] -> f.hazardsOf coarse store.id ≠ []) ∧
    (forall store hazard, store ∈ f.layout -> hazard ∈ f.hazardsOf fine store.id ->
      exists load mid, load ∈ f.layout ∧ mid ∈ f.layout ∧ hazard = ⟨load.id, store.id⟩ ∧
        ⟨mid.id, store.id⟩ ∈ f.hazardsOf coarse store.id ∧ f.PassesBy load mid store) ∧
    forall hazard, hazard ∈ f.hazards fine ->
      exists load mid store, load ∈ f.layout ∧ mid ∈ f.layout ∧ store ∈ f.layout ∧
        hazard = ⟨load.id, store.id⟩ ∧ ⟨mid.id, store.id⟩ ∈ f.hazards coarse ∧
        f.PassesBy load mid store := by
  have hf := wellFormed_of_assemble hfinished
  refine ⟨?_, fun _ _ hstore => hazardsOf_coarser hf h hstore, fun _ => hazards_coarser hf h⟩
  intro store hstore hsome
  rcases List.exists_mem_of_ne_nil _ hsome with ⟨hazard, hhazard⟩
  rcases hazardsOf_coarser hf h hstore hhazard with ⟨_, _, _, _, _, hkept, _⟩
  exact List.ne_nil_of_mem hkept

/-!
A load of another object lies between a load and a store of one cell.  It stops the search of the
oracle that knows nothing, so the two oracles have no hazard in common.
-/

def twoCellSteps : List Step :=
  [.openBlock "twoCells", .select 0, .emit (.load cell 4), .emit (.load ⟨.object 1, 0⟩ 4),
    .emit (.store cell 4)]

def twoCells : Function :=
  ⟨"twoCells", [], ⟨[⟨"twoCells",
    [{ Operation.load cell 4 with id := 0, block := 0, position := 0 },
      { Operation.load ⟨.object 1, 0⟩ 4 with id := 1, block := 0, position := 1 },
      { Operation.store cell 4 with id := 2, block := 0, position := 2 }]⟩], []⟩⟩

theorem twoCells_store_endangered_by_both :
    Function.assemble "twoCells" twoCellSteps = .ok twoCells ∧
      AliasOracle.conservative.CoarserThan .basic ∧
      twoCells.hazards .basic = [⟨0, 2⟩] ∧ twoCells.hazards .conservative = [⟨1, 2⟩] ∧
      exists load mid store, load.id = 0 ∧ mid.id = 1 ∧ store.id = 2 ∧
        twoCells.PassesBy load mid store := by
  have hfinished : Function.assemble "twoCells" twoCellSteps = .ok twoCells := rfl
  have hcoarser := AliasOracle.conservative_coarserThan .basic
  have hfine : twoCells.hazards .basic = [⟨0, 2⟩] := by decide +kernel
  have hcoarse : twoCells.hazards .conservative = [⟨1, 2⟩] := by decide +kernel
  rcases (coarser_oracle_keeps_hazards hfinished hcoarser).right.right ⟨0, 2⟩
    (hfine ▸ List.mem_singleton_self _) with ⟨load, mid, store, _, _, _, hids, hkept, hway⟩
  rw [hcoarse, List.mem_singleton] at hkept
  rcases (Hazard.mk.injEq _ _ _ _).mp hids with ⟨hload, hstore⟩
  exact ⟨hfinished, hcoarser, hfine, hcoarse, load, mid, store, hload.symm,
    ((Hazard.mk.injEq _ _ _ _).mp hkept).left, hstore.symm, hway⟩

end Function
end SafeRestart
