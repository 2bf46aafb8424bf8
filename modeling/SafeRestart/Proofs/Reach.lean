import SafeRestart.Proofs.BlockWalk
import SafeRestart.Proofs.Guarded.Shadow
import SafeRestart.Proofs.LiveRanges

/-!
# The exact reach of a walk

Which points a walk reaches, told by paths through instructions: a point set is known when it is
known for both points of every instruction whether it holds them, and that it holds no others.
-/

namespace SafeRestart

namespace Function

variable {f : Function} {p : Nat}

theorem exists_owner (hf : f.WellFormed) {set : IntervalSet}
    (hset : forall q, q ∈ set.spans -> q.Within f) (hp : p ∈ set) :
    exists j, j ∈ f.layout ∧ (f.usePoint j.id = .ok p ∨ f.defPoint j.id = .ok p) := by
  have hk : p / 2 < f.layout.length := by
    rcases hp with ⟨q, hq, hmem⟩
    have hbefore : p < q.stop := hmem.right
    have hstop : q.stop ≤ 2 * f.layout.length := (hset q hq).right
    omega
  have hplace := List.getElem?_eq_getElem hk
  refine ⟨_, List.getElem_mem hk, ?_⟩
  rw [usePoint_of_layout hf hplace, defPoint_of_layout hf hplace, Except.ok.injEq, Except.ok.injEq]
  omega

end Function

namespace RegionModel

variable {m : RegionModel} {r : Region} {stop : Instruction -> Bool} {i j : Instruction}
  {k l : Nat}

/-!
# Up to a stop
-/

/-- A path inside the region leads from its entry to `j` and meets no instruction before its end at
which the walk stops. -/
def WalksTo (m : RegionModel) (stop : Instruction -> Bool) (r : Region) (j : Instruction) : Prop :=
  exists entry met, m.StaysIn r entry met j ∧
    forall x, x ∈ (entry :: met).dropLast -> stop x = false

theorem walksTo_iff (hf : m.function.WellFormed) (hr : r ∈ m.regions)
    (hj : m.function.layout[k]? = some j) : m.WalksTo stop r j <-> m.Walks stop r k := by
  have hstops : forall x, x ∈ m.function.layout ->
      m.stopsAt stop (m.function.slotOf x) = stop x := fun x hx =>
    stopsAt_of_layout ((Function.mem_layout_iff hf).mp hx)
  constructor
  · intro h
    rcases h with ⟨entry, met, hstays, hfree⟩
    have hpath := path_leadsInside hf hstays.path hstays.inside
    rw [slotOf_entry hf hstays, ((Function.layout_iff hf).mp hj).right] at hpath
    refine ⟨_, hpath, ?_⟩
    rw [← slotOf_entry hf hstays, ← List.map_cons, ← List.map_dropLast, List.forall_mem_map]
    intro x hx
    have hmem := Function.mem_layout_before_end hf hstays.isStart.left hstays.path hx
    simp [hstops x hmem, hfree x hx]
  · intro h
    rcases h with ⟨slots, hslots, hfree⟩
    rcases mem_regions_iff.mp hr with ⟨n, start, entry, _, hplace, rfl⟩
    rcases path_insts_inside hf hplace hslots with ⟨met, found, hfound, hpasses, hinside, rfl⟩
    cases hj.symm.trans hfound
    have hentry := List.mem_of_getElem? hplace
    have hslot : m.function.slotOf entry = start := ((Function.layout_iff hf).mp hplace).right
    refine ⟨entry, met, ⟨hr, ⟨hentry, rfl⟩, hpasses, hinside⟩, ?_⟩
    change forall y, y ∈ (start :: met.map m.function.slotOf).dropLast -> _ at hfree
    rw [← hslot, ← List.map_cons, ← List.map_dropLast, List.forall_mem_map] at hfree
    intro x hx
    have hgoes := hfree x hx
    rw [hstops x (Function.mem_layout_before_end hf hentry hpasses hx)] at hgoes
    exact Bool.eq_false_iff.mpr hgoes

theorem points_until_exact {f : Function} {name : String} {steps : List Step}
    (hfinished : Function.assemble name steps = .ok f) (boundaries : BoundarySet)
    (hr : r ∈ (ofBoundaries f boundaries).regions) (stop : Instruction -> Bool) :
    (ofBoundaries f boundaries).pointsUntilByBlocks r stop =
        .ok ((ofBoundaries f boundaries).pointsUntil r stop) ∧
      (forall j, j ∈ f.layout -> exists before after,
        f.usePoint j.id = .ok before ∧ f.defPoint j.id = .ok after ∧
        (before ∈ (ofBoundaries f boundaries).pointsUntil r stop <->
          (ofBoundaries f boundaries).WalksTo stop r j) ∧
        (after ∈ (ofBoundaries f boundaries).pointsUntil r stop <->
          (ofBoundaries f boundaries).WalksTo stop r j ∧ stop j = false)) ∧
      forall p, p ∈ (ofBoundaries f boundaries).pointsUntil r stop ->
        exists j, j ∈ f.layout ∧ (f.usePoint j.id = .ok p ∨ f.defPoint j.id = .ok p) := by
  have hf := Function.wellFormed_of_assemble hfinished
  have hm : (ofBoundaries f boundaries).function.WellFormed := hf
  refine ⟨pointsUntilByBlocks_eq hm hr stop, ?_, ?_⟩
  · intro j hj
    have hplace := (Function.mem_layout_iff hf).mp hj
    refine ⟨_, _, Function.usePoint_of_layout hf hplace, Function.defPoint_of_layout hf hplace,
      ?_, ?_⟩
    · rw [use_mem_pointsUntil_iff hm hr, walksTo_iff hm hr hplace]
    · rw [def_mem_pointsUntil_iff hm hr, walksTo_iff hm hr hplace,
        stopsAt_of_layout (m := ofBoundaries f boundaries) hplace, Bool.not_eq_true]
  · intro p hp
    exact Function.exists_owner hf (fun _ => within_pointsUntil) hp

theorem poll_points_until_test :
    Function.assemble "poll" pollSteps = .ok poll ∧
      ⟨1, 2, 2, 1⟩ ∈ (ofBoundaries poll (.ofList [2])).regions ∧
      (ofBoundaries poll (.ofList [2])).pointsUntilByBlocks ⟨1, 2, 2, 1⟩
        (fun x => x.id == pollTest.id) = .ok ⟨[⟨2, 3⟩, ⟨4, 8⟩]⟩ ∧
      (ofBoundaries poll (.ofList [2])).WalksTo (fun x => x.id == pollTest.id) ⟨1, 2, 2, 1⟩
        pollTest ∧
      ¬ (ofBoundaries poll (.ofList [2])).WalksTo (fun x => x.id == pollNext.id) ⟨1, 2, 2, 1⟩
        pollTest := by
  have hfinished : Function.assemble "poll" pollSteps = .ok poll := rfl
  have hr : ⟨1, 2, 2, 1⟩ ∈ (ofBoundaries poll (.ofList [2])).regions := by decide +kernel
  have huse : poll.usePoint pollTest.id = .ok 2 := rfl
  have htest := points_until_exact hfinished (.ofList [2]) hr fun x => x.id == pollTest.id
  have hnext := points_until_exact hfinished (.ofList [2]) hr fun x => x.id == pollNext.id
  refine ⟨hfinished, hr, htest.left.trans (congrArg Except.ok (by decide +kernel)), ?_, ?_⟩
  · rcases htest.right.left pollTest (by decide) with ⟨before, _, hbefore, _, hwalks, _⟩
    cases huse.symm.trans hbefore
    exact hwalks.mp (by decide +kernel)
  · rcases hnext.right.left pollTest (by decide) with ⟨before, _, hbefore, _, hwalks, _⟩
    cases huse.symm.trans hbefore
    rw [← hwalks]
    decide +kernel

/-!
# After an instruction
-/

/-- A path of at least one step leads from `i` to `j` and enters no region. -/
def Follows (m : RegionModel) (i j : Instruction) : Prop :=
  exists met, met ≠ [] ∧ Path m.function.Passes i met j ∧
    forall x, x ∈ met -> m.isEntry x.id = false

theorem follows_iff (hf : m.function.WellFormed) (hi : m.function.layout[k]? = some i)
    (hj : m.function.layout[l]? = some j) :
    m.Follows i j <-> exists slots, slots ≠ [] ∧ Path m.LeadsInside k slots l := by
  constructor
  · intro h
    rcases h with ⟨met, hne, hpath, hinside⟩
    have hslots := path_leadsInside hf hpath hinside
    rw [((Function.layout_iff hf).mp hi).right, ((Function.layout_iff hf).mp hj).right] at hslots
    exact ⟨_, by simpa using hne, hslots⟩
  · intro h
    rcases h with ⟨slots, hne, hslots⟩
    rcases path_insts_inside hf hi hslots with ⟨met, found, hfound, hpasses, hinside, rfl⟩
    cases hj.symm.trans hfound
    exact ⟨met, by simpa using hne, hpasses, hinside⟩

theorem exists_path_iff :
    (exists slots, Path m.LeadsInside k slots l) <->
      l = k ∨ exists slots, slots ≠ [] ∧ Path m.LeadsInside k slots l := by
  constructor
  · intro h
    rcases h with ⟨slots, hslots⟩
    cases hslots with
    | nil _ => exact Or.inl rfl
    | cons hstep htail => exact Or.inr ⟨_, by simp, Path.cons hstep htail⟩
  · intro h
    rcases h with rfl | ⟨slots, _, hslots⟩
    · exact ⟨[], Path.nil l⟩
    · exact ⟨slots, hslots⟩

theorem points_after_exact {f : Function} {name : String} {steps : List Step}
    (hfinished : Function.assemble name steps = .ok f) (boundaries : BoundarySet)
    (hi : i ∈ f.layout) :
    (ofBoundaries f boundaries).pointsAfterByBlocks i.id =
        .ok ((ofBoundaries f boundaries).pointsAfterInst i.id) ∧
      (forall j, j ∈ f.layout -> exists before after,
        f.usePoint j.id = .ok before ∧ f.defPoint j.id = .ok after ∧
        (before ∈ (ofBoundaries f boundaries).pointsAfterInst i.id <->
          (ofBoundaries f boundaries).Follows i j) ∧
        (after ∈ (ofBoundaries f boundaries).pointsAfterInst i.id <->
          j = i ∨ (ofBoundaries f boundaries).Follows i j)) ∧
      forall p, p ∈ (ofBoundaries f boundaries).pointsAfterInst i.id ->
        exists j, j ∈ f.layout ∧ (f.usePoint j.id = .ok p ∨ f.defPoint j.id = .ok p) := by
  have hf := Function.wellFormed_of_assemble hfinished
  have hm : (ofBoundaries f boundaries).function.WellFormed := hf
  have hstart := (Function.mem_layout_iff hf).mp hi
  have hset : (ofBoundaries f boundaries).pointsAfterInst i.id =
      (ofBoundaries f boundaries).pointsAfter (f.slotOf i) := by
    unfold pointsAfterInst
    rw [Function.slot?_of_layout hm hstart]
    rfl
  refine ⟨pointsAfterByBlocks_eq hm i.id, ?_, ?_⟩
  · intro j hj
    have hplace := (Function.mem_layout_iff hf).mp hj
    refine ⟨_, _, Function.usePoint_of_layout hf hplace, Function.defPoint_of_layout hf hplace,
      ?_, ?_⟩
    · rw [hset, use_mem_pointsAfter_iff hm, follows_iff hm hstart hplace]
    · have hsame : f.slotOf j = f.slotOf i <-> j = i :=
        ⟨fun h => Option.some.inj (hplace.symm.trans (h ▸ hstart)), fun h => h ▸ rfl⟩
      rw [hset, def_mem_pointsAfter_iff hm, exists_path_iff, follows_iff hm hstart hplace, hsame]
  · intro p hp
    rw [hset] at hp
    have hk : f.slotOf i < f.size := (List.getElem?_eq_some_iff.mp hstart).1
    exact Function.exists_owner hf (fun _ => within_pointsAfter hk) hp

theorem poll_points_after_next :
    Function.assemble "poll" pollSteps = .ok poll ∧ pollNext ∈ poll.layout ∧
      (ofBoundaries poll (.ofList [])).pointsAfterByBlocks pollNext.id = .ok ⟨[⟨2, 8⟩]⟩ ∧
      (ofBoundaries poll (.ofList [])).Follows pollNext pollNext ∧
      (ofBoundaries poll (.ofList [2])).pointsAfterByBlocks pollNext.id =
        .ok ⟨[⟨2, 4⟩, ⟨7, 8⟩]⟩ ∧
      ¬ (ofBoundaries poll (.ofList [2])).Follows pollNext pollNext := by
  have hfinished : Function.assemble "poll" pollSteps = .ok poll := rfl
  have hi : pollNext ∈ poll.layout := by decide
  have huse : poll.usePoint pollNext.id = .ok 6 := rfl
  have hopen := points_after_exact hfinished (.ofList []) hi
  have hcut := points_after_exact hfinished (.ofList [2]) hi
  refine ⟨hfinished, hi, hopen.left.trans (congrArg Except.ok (by decide +kernel)), ?_,
    hcut.left.trans (congrArg Except.ok (by decide +kernel)), ?_⟩
  · rcases hopen.right.left pollNext hi with ⟨before, _, hbefore, _, hfollows, _⟩
    cases huse.symm.trans hbefore
    exact hfollows.mp (by decide +kernel)
  · rcases hcut.right.left pollNext hi with ⟨before, _, hbefore, _, hfollows, _⟩
    cases huse.symm.trans hbefore
    rw [← hfollows]
    decide +kernel

end RegionModel
end SafeRestart
