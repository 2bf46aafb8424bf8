import SafeRestart.Proofs.Conversation
import SafeRestart.Proofs.Membership
import SafeRestart.Proofs.ShadowCheck

/-!
# Verdicts of verification

Verification accepts a function exactly when no instruction of a region overwrites a location that
the region needs again, and what it reports otherwise is such an instruction.  Computing all shadows
with verification accepts the same functions when any path may be taken, and at least as many when
the same path is taken.
-/

namespace SafeRestart
namespace Setting

variable {σ : Setting} {r : Region} {inst : Instruction} {s k : Nat}

/-!
# Overwritten locations
-/

/-- An instruction of a region writes an unprotected location that is live at the entry, and it is
no call, no kill, no copy of a location onto itself and not ignored. -/
structure Overwrites (σ : Setting) (r : Region) (s : Nat) (inst : Instruction) : Prop where
  isRegion : r ∈ σ.model.regions
  live : σ.live.liveAt s r.point = true
  unprotected : exists location,
    σ.function.storage? s = some location ∧ location.flags.exempt = false
  inRegion : inst ∈ σ.function.layout ∧ r.id ∈ σ.model.containing inst.id
  writes : inst.defines s = true
  counts : inst.flags.call = false ∧ inst.flags.kill = false ∧ inst.isIdentityCopy = false ∧
    σ.ignore inst = false

theorem checked_iff :
    σ.checked s = true <->
      exists location, σ.function.storage? s = some location ∧ location.flags.exempt = false := by
  unfold checked
  rw [Option.any_eq_true]
  simp only [Bool.not_eq_true']

theorem harmless_eq_false_iff :
    σ.harmless inst = false <->
      inst.flags.call = false ∧ inst.flags.kill = false ∧ inst.isIdentityCopy = false ∧
        σ.ignore inst = false := by
  unfold harmless absent
  simp only [Bool.or_eq_false_iff]
  constructor
  · intro h
    exact ⟨h.right, h.left.right, h.left.left.right, h.left.left.left⟩
  · intro h
    exact ⟨⟨⟨h.right.right.right, h.right.right.left⟩, h.right.left⟩, h.left⟩

theorem overwrites_of_violates (hf : σ.function.WellFormed) (h : σ.Violates r k inst s) :
    σ.Overwrites r s inst :=
  ⟨h.isRegion, h.live, checked_iff.mp h.counts,
    ⟨List.mem_of_getElem? h.placed,
      (RegionModel.id_mem_containing_iff hf h.isRegion h.placed).mpr h.reached⟩,
    h.writes, harmless_eq_false_iff.mp h.harmful⟩

theorem violates_of_overwrites (hf : σ.function.WellFormed) (h : σ.Overwrites r s inst) :
    σ.Violates r (σ.function.slotOf inst) inst s := by
  have hplace := (Function.mem_layout_iff hf).mp h.inRegion.left
  have hreached := (RegionModel.id_mem_containing_iff hf h.isRegion hplace).mp h.inRegion.right
  exact ⟨h.isRegion, hplace, hreached, harmless_eq_false_iff.mpr h.counts, h.writes, h.live,
    checked_iff.mpr h.unprotected⟩

theorem verification_decides_idempotence {name : String} {steps : List Step}
    (hfinished : Function.assemble name steps = .ok σ.function) :
    (σ.verifyFunction = .ok () <-> forall r s inst, ¬ σ.Overwrites r s inst) ∧
      forall e, σ.verifyFunction = .error e ->
        exists r s inst start stop p, e = .clobberedShadow s inst.id start stop ∧
          σ.Overwrites r s inst ∧
          σ.function.instAt? p = some inst.id ∧ start ≤ p ∧ p < stop := by
  have hf := Function.wellFormed_of_assemble hfinished
  constructor
  · rw [verifyFunction_ok_iff hf]
    constructor
    · intro h r s inst hbad
      exact h r _ inst s (violates_of_overwrites hf hbad)
    · intro h r k inst s hbad
      exact h r s inst (overwrites_of_violates hf hbad)
  · intro e herror
    rcases verifyFunction_error hf herror with ⟨r, k, inst, s, span, hbad, hpoint, rfl⟩
    rcases Function.instAt?_of_layout hbad.placed with ⟨huse, hdef⟩
    have hfound := overwrites_of_violates hf hbad
    rcases hpoint with hmem | hmem
    · exact ⟨r, s, inst, span.start, span.stop, 2 * k, rfl, hfound, huse, hmem⟩
    · exact ⟨r, s, inst, span.start, span.stop, 2 * k + 1, rfl, hfound, hdef, hmem⟩

/-!
The polling loop.  Its register is read and computed anew in one region unless the write starts a
region of its own.
-/

def pollWith (boundaries : List Nat) (config : Config) : Setting :=
  ⟨.ofBoundaries RegionModel.poll (.ofList boundaries), RegionModel.poll.liveRanges, config,
    fun _ => false⟩

theorem poll_verdicts :
    Function.assemble "poll" RegionModel.pollSteps = .ok (pollWith [2] .standard).function ∧
      (pollWith [2] .standard).verifyFunction = .error (.clobberedShadow 0 3 2 8) ∧
      (exists r inst p, inst.id = 3 ∧ (pollWith [2] .standard).Overwrites r 0 inst ∧
        RegionModel.poll.instAt? p = some 3 ∧ 2 ≤ p ∧ p < 8) ∧
      (pollWith [2, 3] .standard).verifyFunction = .ok () ∧
      forall r s inst, ¬ (pollWith [2, 3] .standard).Overwrites r s inst := by
  have hfinished : Function.assemble "poll" RegionModel.pollSteps =
      .ok (pollWith [2] .standard).function := rfl
  have hfinished' : Function.assemble "poll" RegionModel.pollSteps =
      .ok (pollWith [2, 3] .standard).function := rfl
  have hrefused : (pollWith [2] .standard).verifyFunction = .error (.clobberedShadow 0 3 2 8) := by
    decide +kernel
  have haccepted : (pollWith [2, 3] .standard).verifyFunction = .ok () := by decide +kernel
  rcases (verification_decides_idempotence hfinished).right _ hrefused with
    ⟨r, s, inst, start, stop, p, hreport, hbad, howner, hstart, hstop⟩
  injection hreport with hs hclobber hfirst hlast
  subst hs hfirst hlast
  refine ⟨hfinished, hrefused, ⟨r, inst, p, hclobber.symm, hbad, ?_, hstart, hstop⟩, haccepted, ?_⟩
  · rw [hclobber]
    exact howner
  · exact (verification_decides_idempotence hfinished').left.mp haccepted

/-!
# Verification while shadows are computed
-/

theorem checkShadow_of_verified (hf : σ.function.WellFormed)
    (hdeclared : s < σ.function.storage.length)
    (hverified : forall r k inst, ¬ σ.Violates r k inst s) : σ.checkShadow s = .ok () := by
  apply (checkShadow_ok_iff hf (List.getElem?_eq_getElem hdeclared)).mpr
  intro _ r hr hlive stem hstem k inst hk hafter
  apply overwritten?_eq_none_iff.mpr
  intro s' hs hspoils
  cases List.mem_singleton.mp hs
  -- The way to the stem and the way from there to the write stay in the region.
  rcases exists_path_to_stem hf hr hstem with ⟨before, hbefore⟩
  rcases hafter with ⟨after, hafter⟩
  exact hverified r k inst ⟨hr, hk, ⟨_, path_append hbefore hafter⟩, hspoils.harmful,
    hspoils.writes, hlive, hspoils.counts⟩

theorem not_violates_of_checkShadow (hf : σ.function.WellFormed) (hverify : σ.config.verify = true)
    (hpolicy : σ.config.policy = .anyPath) (hcheck : σ.checkShadow s = .ok ()) :
    ¬ σ.Violates r k inst s := by
  intro hbad
  rcases checked_iff.mp hbad.counts with ⟨location, hlocation, _⟩
  have hverifies : σ.verifies location = true := by simp [verifies, hverify, hpolicy]
  have hstem : r.slot ∈ σ.stems r s location := by simp [stems, hpolicy]
  have hnone := (checkShadow_ok_iff hf hlocation).mp hcheck hverifies r hbad.isRegion hbad.live
    r.slot hstem k inst hbad.placed hbad.reached
  exact overwritten?_eq_none_iff.mp hnone s (List.mem_singleton_self s)
    ⟨hbad.harmful, hbad.writes, hbad.counts⟩

theorem recompute_ok_iff {cache : ShadowCache} (hdeclared : s < σ.function.storage.length) :
    (exists answer, (σ.respond cache (.recompute s)).1 = .ok (.shadow answer)) <->
      σ.checkShadow s = .ok () := by
  rw [← computeShadow_ok_iff hdeclared]
  simp only [recompute_eq_ok_iff]

theorem verification_paths_agree {name : String} {steps : List Step}
    (hfinished : Function.assemble name steps = .ok σ.function)
    (hverify : σ.config.verify = true) (cache : ShadowCache) :
    (σ.config.policy = .anyPath ->
      (σ.verifyFunction = .ok () <->
        forall s, s < σ.function.storage.length ->
          exists answer, (σ.respond cache (.recompute s)).1 = .ok (.shadow answer))) ∧
    (σ.verifyFunction = .ok () ->
      forall s, s < σ.function.storage.length ->
        exists answer, (σ.respond cache (.recompute s)).1 = .ok (.shadow answer)) := by
  have hf := Function.wellFormed_of_assemble hfinished
  have hforward : σ.verifyFunction = .ok () ->
      forall s, s < σ.function.storage.length ->
        exists answer, (σ.respond cache (.recompute s)).1 = .ok (.shadow answer) := by
    intro hok s hdeclared
    apply (recompute_ok_iff hdeclared).mpr
    apply checkShadow_of_verified hf hdeclared
    intro r k inst
    exact (verifyFunction_ok_iff hf).mp hok r k inst s
  refine ⟨?_, hforward⟩
  intro hpolicy
  refine ⟨hforward, ?_⟩
  intro hall
  apply (verifyFunction_ok_iff hf).mpr
  intro r k inst s hbad
  have hdeclared := lt_storage_of_checked hbad.counts
  have hcheck := (recompute_ok_iff hdeclared).mp (hall s hdeclared)
  exact not_violates_of_checkShadow hf hverify hpolicy hcheck hbad

theorem poll_paths_agree :
    Function.assemble "poll" RegionModel.pollSteps =
        .ok (pollWith [2, 3] ⟨.anyPath, true, true⟩).function ∧
      (pollWith [2, 3] ⟨.anyPath, true, true⟩).verifyFunction = .ok () ∧
      (forall s, s < 2 -> exists answer,
        ((pollWith [2, 3] ⟨.anyPath, true, true⟩).respond [] (.recompute s)).1 =
          .ok (.shadow answer)) ∧
      ¬ forall s, s < 2 -> exists answer,
        ((pollWith [2] ⟨.anyPath, true, true⟩).respond [] (.recompute s)).1 =
          .ok (.shadow answer) := by
  have hfinished : Function.assemble "poll" RegionModel.pollSteps =
      .ok (pollWith [2, 3] ⟨.anyPath, true, true⟩).function := rfl
  have hfinished' : Function.assemble "poll" RegionModel.pollSteps =
      .ok (pollWith [2] ⟨.anyPath, true, true⟩).function := rfl
  have haccepted : (pollWith [2, 3] ⟨.anyPath, true, true⟩).verifyFunction = .ok () := by
    decide +kernel
  have hrefused : (pollWith [2] ⟨.anyPath, true, true⟩).verifyFunction ≠ .ok () := by
    decide +kernel
  refine ⟨hfinished, haccepted, ?_, ?_⟩
  · exact (verification_paths_agree hfinished rfl []).right haccepted
  · intro hall
    exact hrefused (((verification_paths_agree hfinished' rfl []).left rfl).mpr hall)

end Setting
end SafeRestart
