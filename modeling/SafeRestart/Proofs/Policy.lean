import Mathlib.Algebra.Ring.Parity
import SafeRestart.Proofs.ShadowPoints
import SafeRestart.Proofs.Verdict

/-!
# Shadows under both policies

When the same path is taken again, shadows start at reads; when any path may be taken, they start at
the entries of regions.  Each such read is reached from the entry without leaving the region, so the
second policy shadows at least the points of the first and checks at least the same instructions.
-/

namespace SafeRestart
namespace RegionModel

theorem mem_pointsAfter_of_path {m : RegionModel} {k l p : Nat} {met : List Nat}
    (hf : m.function.WellFormed) (hpath : Path m.LeadsInside k met l) (h : p ∈ m.pointsAfter l) :
    p ∈ m.pointsAfter k := by
  rcases Nat.even_or_odd' p with ⟨j, rfl | rfl⟩
  · rcases (use_mem_pointsAfter_iff hf).mp h with ⟨after, hne, hafter⟩
    exact (use_mem_pointsAfter_iff hf).mpr ⟨met ++ after, by simp [hne], path_append hpath hafter⟩
  · rcases (def_mem_pointsAfter_iff hf).mp h with ⟨after, hafter⟩
    exact (def_mem_pointsAfter_iff hf).mpr ⟨met ++ after, path_append hpath hafter⟩

end RegionModel

namespace Setting

variable {σ : Setting} {s p : Nat} {location : StorageLocation}

def withPolicy (σ : Setting) (policy : ControlFlowPolicy) : Setting :=
  { σ with config := σ.config.withPolicy policy }

/-!
# Points
-/

theorem shadowed_anyPath (hf : σ.function.WellFormed)
    (hlocation : σ.function.storage? s = some location) (h : σ.Shadowed s p) :
    (σ.withPolicy .anyPath).Shadowed s p := by
  rcases h.behind with ⟨r, stem, hr, hneeded, hstart, hpoint⟩
  have hplace := (Function.mem_layout_iff hf).mp (startsAt_mem_layout hstart)
  have hstem := (mem_stems_iff hf hr hlocation).mpr ⟨stem, hplace, hstart⟩
  rcases exists_path_to_stem hf hr hstem with ⟨met, hpath⟩
  rcases RegionModel.entry_of_mem_regions hr with ⟨_, first, hfirst, hid⟩
  have hentry : (σ.withPolicy .anyPath).StartsAt s r first :=
    .entry rfl (List.mem_of_getElem? hfirst) hid
  have hbehind : p ∈ σ.model.pointsAfterInst first.id := by
    rw [pointsAfterInst_of_layout hf hplace] at hpoint
    rw [pointsAfterInst_of_layout hf hfirst]
    exact RegionModel.mem_pointsAfter_of_path hf hpath hpoint
  exact ⟨⟨r, first, hr, hneeded, hentry, hbehind⟩, h.dead⟩

theorem computeShadow_subset (hf : σ.function.WellFormed)
    (hlive : forall interval, σ.live.interval s = some interval -> interval.ranges.Canonical)
    (hdeclared : s < σ.function.storage.length) {narrow wide : Shadow}
    (hnarrow : (σ.withVerify false).computeShadow s = .ok narrow)
    (hwide : ((σ.withPolicy .anyPath).withVerify false).computeShadow s = .ok wide)
    (h : p ∈ narrow.ranges) : p ∈ wide.ranges := by
  have hshadowed := ((computeShadow_exact hf hlive hnarrow).right p).mp h
  apply ((computeShadow_exact (σ := σ.withPolicy .anyPath) hf hlive hwide).right p).mpr
  exact shadowed_anyPath hf (List.getElem?_eq_getElem hdeclared) hshadowed

theorem stems_stackSlot (r : Region) (hstack : location.isStackSlot = true) :
    σ.stems r s location = [r.slot] := by
  unfold stems
  cases σ.config.policy with
  | anyPath => rfl
  | samePath => exact if_pos hstack

/-- The shadow of a stack slot starts at the entries of regions under every policy. -/
theorem computeShadow_stackSlot (hlocation : σ.function.storage? s = some location)
    (hstack : location.isStackSlot = true) (policy : ControlFlowPolicy) :
    ((σ.withPolicy policy).withVerify false).computeShadow s =
      (σ.withVerify false).computeShadow s := by
  have hfound : (σ.withVerify false).location s = .ok location := location_ok_iff.mpr hlocation
  cases hinterval : (σ.withVerify false).live.interval s with
  | none =>
      have hnone : ((σ.withPolicy policy).withVerify false).live.interval s = none := hinterval
      unfold computeShadow
      rw [hinterval, hnone]
      rfl
  | some live =>
      have hregion : ((σ.withPolicy policy).withVerify false).addRegion s location live.ranges =
          (σ.withVerify false).addRegion s location live.ranges := by
        funext shadow r
        unfold addRegion
        rw [stems_stackSlot r hstack, stems_stackSlot r hstack]
        rfl
      rw [computeShadow_of_interval hfound hinterval,
        computeShadow_of_interval (σ := (σ.withPolicy policy).withVerify false) hfound hinterval,
        hregion]
      rfl

/-!
# Checks
-/

theorem checkShadow_of_anyPath (hf : σ.function.WellFormed) (hverify : σ.config.verify = true)
    (hdeclared : s < σ.function.storage.length)
    (hcheck : (σ.withPolicy .anyPath).checkShadow s = .ok ()) : σ.checkShadow s = .ok () := by
  apply checkShadow_of_verified hf hdeclared
  intro r k inst hbad
  -- What a violation is does not depend on the policy.
  have hsame : (σ.withPolicy .anyPath).Violates r k inst s :=
    ⟨hbad.isRegion, hbad.placed, hbad.reached, hbad.harmful, hbad.writes, hbad.live, hbad.counts⟩
  exact not_violates_of_checkShadow (σ := σ.withPolicy .anyPath) hf hverify rfl hcheck hsame

theorem computeShadow_unverified {answer : Shadow}
    (h : (σ.withVerify true).computeShadow s = .ok answer) :
    (σ.withVerify false).computeShadow s = .ok answer := by
  rw [computeShadow_eq_check] at h
  rcases bind_ok h with ⟨_, _, hanswer⟩
  exact hanswer

theorem verified_subset (hf : σ.function.WellFormed)
    (hlive : forall interval, σ.live.interval s = some interval -> interval.ranges.Canonical)
    {wide : Shadow} (hwide : ((σ.withPolicy .anyPath).withVerify true).computeShadow s = .ok wide) :
    exists narrow : Shadow, (σ.withVerify true).computeShadow s = .ok narrow ∧
      forall p, p ∈ narrow.ranges -> p ∈ wide.ranges := by
  have hdeclared : s < (σ.withVerify true).function.storage.length := by
    unfold computeShadow at hwide
    rcases bind_ok hwide with ⟨location, hlocation, _⟩
    exact (List.getElem?_eq_some_iff.mp (location_ok_iff.mp hlocation)).1
  have hcheck : ((σ.withVerify true).withPolicy .anyPath).checkShadow s = .ok () :=
    (computeShadow_ok_iff (σ := (σ.withVerify true).withPolicy .anyPath) hdeclared).mp ⟨wide, hwide⟩
  have hpassed := checkShadow_of_anyPath (σ := σ.withVerify true) hf rfl hdeclared hcheck
  rcases (computeShadow_ok_iff hdeclared).mpr hpassed with ⟨narrow, hnarrow⟩
  refine ⟨narrow, hnarrow, ?_⟩
  intro p hp
  exact computeShadow_subset hf hlive hdeclared (computeShadow_unverified hnarrow)
    (computeShadow_unverified hwide) hp

theorem samePath_within_anyPath {name : String} {steps : List Step}
    (hfinished : Function.assemble name steps = .ok σ.function)
    (hlive : forall interval, σ.live.interval s = some interval -> interval.ranges.Canonical)
    (cache cache' : ShadowCache) :
    (s < σ.function.storage.length ->
      exists narrow wide : Shadow,
        (((σ.withPolicy .samePath).withVerify false).respond cache (.recompute s)).1 =
          .ok (.shadow narrow) ∧
        (((σ.withPolicy .anyPath).withVerify false).respond cache' (.recompute s)).1 =
          .ok (.shadow wide) ∧
        (forall p, p ∈ narrow.ranges -> p ∈ wide.ranges) ∧
        forall location, σ.function.storage? s = some location -> location.isStackSlot = true ->
          narrow = wide) ∧
    forall wide : Shadow,
      (((σ.withPolicy .anyPath).withVerify true).respond cache' (.recompute s)).1 =
        .ok (.shadow wide) ->
      exists narrow : Shadow,
        (((σ.withPolicy .samePath).withVerify true).respond cache (.recompute s)).1 =
          .ok (.shadow narrow) ∧
        forall p, p ∈ narrow.ranges -> p ∈ wide.ranges := by
  have hf := Function.wellFormed_of_assemble hfinished
  simp only [recompute_eq_ok_iff]
  constructor
  · intro hdeclared
    rcases computeShadow_total (σ.withPolicy .samePath) hdeclared with ⟨narrow, hnarrow⟩
    rcases computeShadow_total (σ.withPolicy .anyPath) hdeclared with ⟨wide, hwide⟩
    refine ⟨narrow, wide, hnarrow, hwide, ?_, ?_⟩
    · intro p hp
      exact computeShadow_subset (σ := σ.withPolicy .samePath) hf hlive hdeclared hnarrow hwide hp
    · intro location hlocation hstack
      have hsame := (computeShadow_stackSlot hlocation hstack .samePath).trans
        (computeShadow_stackSlot hlocation hstack .anyPath).symm
      rw [hnarrow, hwide] at hsame
      exact Except.ok.inj hsame
  · intro wide hwide
    exact verified_subset (σ := σ.withPolicy .samePath) hf hlive hwide

/-!
A test that leads to a loop or to the only read of a register.  What the loop does is of no
consequence to the register when the same path is taken again.
-/

def forkSteps : List Step :=
  [.declare .virtualRegister "v" {}, .declare .stackSlot "t" {}, .openBlock "start",
    .openBlock "head", .openBlock "loop", .openBlock "done", .select 0,
    .emit (.arith "init" [0, 1] []), .select 1, .emit (.arith "test" [] []), .select 2,
    .emit (.arith "spin" [] []), .select 3, .emit (.arith "use" [] [0]),
    .emit (.arith "last" [] [1]), .connect 0 1, .connect 1 2, .connect 2 2, .connect 1 3]

def fork : Function :=
  ⟨"fork", [⟨.virtualRegister, "v", {}⟩, ⟨.stackSlot, "t", {}⟩],
    ⟨[⟨"start", [{ Operation.arith "init" [0, 1] [] with id := 0, block := 0, position := 0 }]⟩,
      ⟨"head", [{ Operation.arith "test" [] [] with id := 1, block := 1, position := 0 }]⟩,
      ⟨"loop", [{ Operation.arith "spin" [] [] with id := 2, block := 2, position := 0 }]⟩,
      ⟨"done",
        [{ Operation.arith "use" [] [0] with id := 3, block := 3, position := 0 },
          { Operation.arith "last" [] [1] with id := 4, block := 3, position := 1 }]⟩],
      [(0, 1), (1, 2), (2, 2), (1, 3)]⟩⟩

def forkSetting : Setting :=
  ⟨.ofBoundaries fork (.ofList [1]), fork.liveRanges, .standard, fun _ => false⟩

theorem canonical_fork_live (s : Nat) (interval : LiveInterval)
    (h : forkSetting.live.interval s = some interval) : interval.ranges.Canonical := by
  rw [Function.interval_liveRanges h]
  exact Function.canonical_livePoints fork s

theorem fork_samePath_within_anyPath :
    Function.assemble "fork" forkSteps = .ok forkSetting.function ∧
      (((forkSetting.withPolicy .samePath).withVerify true).respond [] (.recompute 0)).1 =
        .ok (.shadow ⟨0, "v", ⟨[⟨7, 10⟩]⟩⟩) ∧
      (((forkSetting.withPolicy .anyPath).withVerify true).respond [] (.recompute 0)).1 =
        .ok (.shadow ⟨0, "v", ⟨[⟨4, 6⟩, ⟨7, 10⟩]⟩⟩) ∧
      (forall p, p ∈ (⟨[⟨7, 10⟩]⟩ : IntervalSet) -> p ∈ (⟨[⟨4, 6⟩, ⟨7, 10⟩]⟩ : IntervalSet)) ∧
      (((forkSetting.withPolicy .samePath).withVerify false).respond [] (.recompute 1)).1 =
        (((forkSetting.withPolicy .anyPath).withVerify false).respond [] (.recompute 1)).1 := by
  have hfinished : Function.assemble "fork" forkSteps = .ok forkSetting.function := rfl
  have hnarrow : (((forkSetting.withPolicy .samePath).withVerify true).respond []
      (.recompute 0)).1 = .ok (.shadow ⟨0, "v", ⟨[⟨7, 10⟩]⟩⟩) := by
    decide +kernel
  have hwide : (((forkSetting.withPolicy .anyPath).withVerify true).respond []
      (.recompute 0)).1 = .ok (.shadow ⟨0, "v", ⟨[⟨4, 6⟩, ⟨7, 10⟩]⟩⟩) := by
    decide +kernel
  refine ⟨hfinished, hnarrow, hwide, ?_, ?_⟩
  · rcases (samePath_within_anyPath hfinished (canonical_fork_live 0) [] []).right _ hwide with
      ⟨narrow, hsame, hsubset⟩
    rw [hnarrow] at hsame
    cases hsame
    exact hsubset
  · rcases (samePath_within_anyPath hfinished (canonical_fork_live 1) [] []).left (by decide) with
      ⟨narrow, wide, hfirst, hsecond, _, hslot⟩
    rw [hfirst, hsecond, hslot ⟨.stackSlot, "t", {}⟩ rfl rfl]

end Setting
end SafeRestart
