import SafeRestart.Proofs.Conversation
import SafeRestart.Proofs.Membership
import SafeRestart.Proofs.ShadowCheck

/-!
# The exact points of a shadow

The shadow of a location starts at the stems of the regions that need the location.  It holds what
follows these stems inside their regions, the live points of the location left out.  Verification
can only refuse it; what it lets pass is the same shadow.
-/

namespace SafeRestart
namespace Setting

variable {σ : Setting} {s p k : Nat} {r : Region} {location : StorageLocation}

/-!
# Stems
-/

/-- Whether the shadow of a location starts at the entries of regions, for lack of knowledge of the
path or of the reads. -/
def startsAtEntries (σ : Setting) (s : Nat) : Bool :=
  σ.config.policy == .anyPath || (σ.function.storage? s).any StorageLocation.isStackSlot

/-- An instruction at which the shadow of a location starts in a region: the entry, or a read that
no write comes before. -/
inductive StartsAt (σ : Setting) (s : Nat) (r : Region) (stem : Instruction) : Prop where
  | entry : σ.startsAtEntries s = true -> stem ∈ σ.function.layout -> stem.id = r.entry ->
      StartsAt σ s r stem
  | read {p : Nat} : σ.startsAtEntries s = false -> stem ∈ σ.function.layout ->
      stem.reads s = true -> σ.absent stem = false -> σ.function.usePoint stem.id = .ok p ->
      p ∈ σ.model.pointsUntil r (fun inst => !σ.absent inst && inst.defines s) ->
      StartsAt σ s r stem

theorem stems_of_startsAtEntries (hlocation : σ.function.storage? s = some location)
    (h : σ.startsAtEntries s = true) : σ.stems r s location = [r.slot] := by
  unfold startsAtEntries at h
  rw [hlocation] at h
  unfold stems
  cases hpolicy : σ.config.policy with
  | anyPath => rfl
  | samePath =>
      have hstack : location.isStackSlot = true := by simpa [hpolicy] using h
      dsimp only
      rw [if_pos hstack]

theorem stems_of_not_startsAtEntries (hlocation : σ.function.storage? s = some location)
    (h : σ.startsAtEntries s = false) : σ.stems r s location = σ.readSlots r s := by
  unfold startsAtEntries at h
  rw [hlocation] at h
  unfold stems
  cases hpolicy : σ.config.policy with
  | anyPath => simp [hpolicy] at h
  | samePath =>
      have hregister : ¬ location.isStackSlot = true := by simpa [hpolicy] using h
      dsimp only
      rw [if_neg hregister]

theorem mem_stems_iff (hf : σ.function.WellFormed) (hr : r ∈ σ.model.regions)
    (hlocation : σ.function.storage? s = some location) :
    k ∈ σ.stems r s location <->
      exists stem, σ.function.layout[k]? = some stem ∧ σ.StartsAt s r stem := by
  rcases RegionModel.entry_of_mem_regions hr with ⟨_, first, hfirst, hid⟩
  cases hentries : σ.startsAtEntries s with
  | true =>
      rw [stems_of_startsAtEntries hlocation hentries, List.mem_singleton]
      constructor
      · intro h
        subst h
        exact ⟨first, hfirst, .entry hentries (List.mem_of_getElem? hfirst) hid⟩
      · intro h
        rcases h with ⟨stem, hstem, hstart⟩
        cases hstart with
        | entry _ _ hsame =>
            have hslot := Function.slot?_of_layout hf hstem
            rw [hsame, ← hid, Function.slot?_of_layout hf hfirst] at hslot
            exact (Option.some.inj hslot).symm
        | read hnot => simp [hentries] at hnot
  | false =>
      rw [stems_of_not_startsAtEntries hlocation hentries, mem_readSlots_iff hf hr,
        ← RegionModel.use_mem_pointsUntil_iff hf hr]
      constructor
      · intro h
        rcases h with ⟨⟨stem, hstem, hreads, hpresent⟩, hpoint⟩
        exact ⟨stem, hstem, .read hentries (List.mem_of_getElem? hstem) hreads hpresent
          (Function.usePoint_of_layout hf hstem) hpoint⟩
      · intro h
        rcases h with ⟨stem, hstem, hstart⟩
        cases hstart with
        | entry hnot => simp [hentries] at hnot
        | read _ _ hreads hpresent huse hpoint =>
            rw [Function.usePoint_of_layout hf hstem] at huse
            cases huse
            exact ⟨⟨stem, hstem, hreads, hpresent⟩, hpoint⟩

/-!
# Points
-/

/-- A point behind a stem in a region that needs the location, at which the location is not live. -/
structure Shadowed (σ : Setting) (s p : Nat) : Prop where
  behind : exists r stem, r ∈ σ.model.regions ∧ σ.live.liveAt s r.point = true ∧
    σ.StartsAt s r stem ∧ p ∈ σ.model.pointsAfterInst stem.id
  dead : forall interval, σ.live.interval s = some interval -> p ∉ interval.ranges

theorem pointsAfterInst_of_layout (hf : σ.function.WellFormed) {stem : Instruction}
    (h : σ.function.layout[k]? = some stem) :
    σ.model.pointsAfterInst stem.id = σ.model.pointsAfter k := by
  have hslot : σ.model.function.slot? stem.id = some k := Function.slot?_of_layout hf h
  unfold RegionModel.pointsAfterInst
  rw [hslot]
  rfl

theorem startsAt_mem_layout {stem : Instruction} (h : σ.StartsAt s r stem) :
    stem ∈ σ.function.layout := by
  cases h with
  | entry _ hmem _ => exact hmem
  | read _ hmem => exact hmem

theorem shadowed_iff_of_interval (hf : σ.function.WellFormed)
    (hlocation : σ.function.storage? s = some location) {interval : LiveInterval}
    (hinterval : σ.live.interval s = some interval) (hlive : interval.ranges.Canonical) :
    σ.Shadowed s p <->
      exists r, r ∈ σ.model.regions ∧ σ.ShadowedIn s location interval.ranges r p := by
  have hneeds :
      forall r : Region, σ.live.liveAt s r.point = true <-> r.point ∈ interval.ranges := by
    intro r
    simp [LiveRanges.liveAt, LiveInterval.liveAt, hinterval, IntervalSet.contains_iff hlive]
  constructor
  · intro h
    rcases h.behind with ⟨r, stem, hr, hentry, hstart, hpoint⟩
    have hplace := (Function.mem_layout_iff hf).mp (startsAt_mem_layout hstart)
    refine ⟨r, hr, (hneeds r).mp hentry, σ.function.slotOf stem, ?_, ?_, h.dead interval hinterval⟩
    · exact (mem_stems_iff hf hr hlocation).mpr ⟨stem, hplace, hstart⟩
    · rw [← pointsAfterInst_of_layout hf hplace]
      exact hpoint
  · intro h
    rcases h with ⟨r, hr, hentry, k, hk, hpoint, hdead⟩
    rcases (mem_stems_iff hf hr hlocation).mp hk with ⟨stem, hplace, hstart⟩
    refine ⟨⟨r, stem, hr, (hneeds r).mpr hentry, hstart, ?_⟩, ?_⟩
    · rw [pointsAfterInst_of_layout hf hplace]
      exact hpoint
    · intro other hother
      cases hinterval.symm.trans hother
      exact hdead

theorem computeShadow_exact (hf : σ.function.WellFormed) {answer : Shadow}
    (hlive : forall interval, σ.live.interval s = some interval -> interval.ranges.Canonical)
    (h : (σ.withVerify false).computeShadow s = .ok answer) :
    answer.ranges.Canonical ∧ forall p, p ∈ answer.ranges <-> σ.Shadowed s p := by
  cases hinterval : σ.live.interval s with
  | none =>
      have hnone : (σ.withVerify false).live.interval s = none := hinterval
      unfold computeShadow at h
      rcases bind_ok h with ⟨location, _, hanswer⟩
      rw [hnone] at hanswer
      cases hanswer
      refine ⟨IntervalSet.canonical_empty, ?_⟩
      intro p
      constructor
      · intro hmem
        exact absurd hmem IntervalSet.not_mem_empty
      · intro hshadowed
        rcases hshadowed.behind with ⟨r, _, _, hentry, _⟩
        simp [LiveRanges.liveAt, hinterval] at hentry
  | some interval =>
      have hcanonical := hlive interval hinterval
      have hsome : (σ.withVerify false).live.interval s = some interval := hinterval
      rcases computeShadow_points hsome hcanonical h with ⟨_, hshape, location, hlocation, hpoints⟩
      refine ⟨hshape, ?_⟩
      intro p
      rw [shadowed_iff_of_interval hf hlocation hinterval hcanonical]
      exact hpoints p

theorem computeShadow_verified {answer : Shadow} (hdeclared : s < σ.function.storage.length)
    (h : (σ.withVerify false).computeShadow s = .ok answer) :
    (σ.withVerify true).computeShadow s = .ok answer ∨
      exists clobber start stop,
        (σ.withVerify true).computeShadow s = .error (.clobberedShadow s clobber start stop) := by
  have hplain : ((σ.withVerify true).withVerify false).computeShadow s = .ok answer := h
  have hknown : s < (σ.withVerify true).function.storage.length := hdeclared
  rw [computeShadow_eq_check, hplain]
  cases hcheck : (σ.withVerify true).checkShadow s with
  | ok passed => exact Or.inl rfl
  | error e =>
      rcases checkShadow_error hknown hcheck with ⟨clobber, start, stop, rfl⟩
      exact Or.inr ⟨clobber, start, stop, rfl⟩

theorem recomputed_shadow_exact {name : String} {steps : List Step}
    (hfinished : Function.assemble name steps = .ok σ.function)
    (hdeclared : s < σ.function.storage.length)
    (hlive : forall interval, σ.live.interval s = some interval -> interval.ranges.Canonical)
    (cache : ShadowCache) :
    exists answer : Shadow,
      ((σ.withVerify false).respond cache (.recompute s)).1 = .ok (.shadow answer) ∧
      (forall p, p ∈ answer.ranges <-> σ.Shadowed s p) ∧
      answer.ranges.Canonical ∧
      (forall interval p, σ.live.interval s = some interval -> p ∈ interval.ranges ->
        p ∉ answer.ranges) ∧
      (((σ.withVerify true).respond cache (.recompute s)).1 = .ok (.shadow answer) ∨
        exists clobber start stop, ((σ.withVerify true).respond cache (.recompute s)).1 =
          .error (.clobberedShadow s clobber start stop)) := by
  have hf := Function.wellFormed_of_assemble hfinished
  rcases computeShadow_total σ hdeclared with ⟨answer, hanswer⟩
  rcases computeShadow_exact hf hlive hanswer with ⟨hshape, hpoints⟩
  refine ⟨answer, ?_, hpoints, hshape, ?_, ?_⟩
  · rw [respond_recompute, hanswer]
    rfl
  · intro interval p hinterval hmem hshadow
    exact ((hpoints p).mp hshadow).dead interval hinterval hmem
  · rw [respond_recompute]
    rcases computeShadow_verified hdeclared hanswer with hsame | ⟨clobber, start, stop, hrefused⟩
    · rw [hsame]
      exact Or.inl rfl
    · rw [hrefused]
      exact Or.inr ⟨clobber, start, stop, rfl⟩

/-!
The polling loop, with a live range that is given.  The region of the loop reads the register once
more when it is executed again; behind the read, two points are not live.
-/

def pollSetting : Setting :=
  ⟨.ofBoundaries RegionModel.poll (.ofList [2]),
    ⟨fun s => if s = 0 then some ⟨0, ⟨[⟨1, 5⟩, ⟨7, 8⟩]⟩⟩ else none⟩, .standard, fun _ => false⟩

theorem canonical_poll_live (interval : LiveInterval)
    (h : pollSetting.live.interval 0 = some interval) : interval.ranges.Canonical := by
  cases h
  exact ⟨by decide, by decide⟩

theorem poll_shadow_exact :
    Function.assemble "poll" RegionModel.pollSteps = .ok pollSetting.function ∧
      ((pollSetting.withVerify false).respond [] (.recompute 0)).1 =
        .ok (.shadow ⟨0, "v", ⟨[⟨5, 7⟩]⟩⟩) ∧
      ((pollSetting.withVerify true).respond [] (.recompute 0)).1 =
        .error (.clobberedShadow 0 3 5 8) ∧
      pollSetting.Shadowed 0 6 ∧ ¬ pollSetting.Shadowed 0 7 := by
  have hfinished : Function.assemble "poll" RegionModel.pollSteps = .ok pollSetting.function := rfl
  have hanswer : ((pollSetting.withVerify false).respond [] (.recompute 0)).1 =
      .ok (.shadow ⟨0, "v", ⟨[⟨5, 7⟩]⟩⟩) := by
    decide +kernel
  have hrefused : ((pollSetting.withVerify true).respond [] (.recompute 0)).1 =
      .error (.clobberedShadow 0 3 5 8) := by
    decide +kernel
  rcases recomputed_shadow_exact hfinished (by decide) canonical_poll_live [] with
    ⟨answer, hsame, hpoints, _⟩
  rw [hanswer] at hsame
  cases hsame
  refine ⟨hfinished, hanswer, hrefused, (hpoints 6).mp (by decide), ?_⟩
  intro hshadowed
  exact absurd ((hpoints 7).mpr hshadowed) (by decide)

end Setting
end SafeRestart
