import SafeRestart.Proofs.Shadow

/-!
# Checking apart from computing

With verification switched on, the computation of a shadow checks each span before it adds the span.
Adding never fails, so the outcome is the same when all checks are made beforehand: the first check
that fails, or else the shadow that is computed without verification.
-/

namespace SafeRestart
namespace IntervalSet

/-- A step that makes a check and then takes another step, one that cannot fail. -/
structure ChecksFirst {α : Type} (step plain : IntervalSet -> α -> Except Error IntervalSet)
    (check : α -> Except Error Unit) : Prop where
  total : forall {s : IntervalSet} (x : α), s.Canonical -> exists t, plain s x = .ok t ∧ t.Canonical
  split : forall {s : IntervalSet} (x : α), s.Canonical ->
    step s x = (check x >>= fun _ => plain s x)

variable {α β : Type} {step plain : IntervalSet -> α -> Except Error IntervalSet}
  {check : α -> Except Error Unit} {s : IntervalSet}

theorem foldlM_total (h : ChecksFirst step plain check) (l : List α) (hs : s.Canonical) :
    exists t, l.foldlM plain s = .ok t ∧ t.Canonical := by
  induction l generalizing s with
  | nil => exact ⟨s, rfl, hs⟩
  | cons x rest ih =>
      rcases h.total x hs with ⟨mid, hmid, hcanonical⟩
      rw [List.foldlM_cons, hmid]
      exact ih hcanonical

theorem foldlM_split (h : ChecksFirst step plain check) (l : List α) (hs : s.Canonical) :
    l.foldlM step s = (l.forM check >>= fun _ => l.foldlM plain s) := by
  induction l generalizing s with
  | nil => rfl
  | cons x rest ih =>
      rcases h.total x hs with ⟨mid, hmid, hcanonical⟩
      rw [List.foldlM_cons, List.foldlM_cons, h.split x hs, hmid]
      change _ = ((check x >>= fun _ => rest.forM check) >>= _)
      cases check x with
      | error e => rfl
      | ok answer => exact ih hcanonical

theorem ChecksFirst.foldlM (h : ChecksFirst step plain check) :
    ChecksFirst (fun s l => List.foldlM step s l) (fun s l => List.foldlM plain s l)
      (fun l => List.forM l check) :=
  ⟨fun l hs => foldlM_total h l hs, fun l hs => foldlM_split h l hs⟩

theorem ChecksFirst.comp (h : ChecksFirst step plain check) (g : β -> α) :
    ChecksFirst (fun s y => step s (g y)) (fun s y => plain s (g y)) (fun y => check (g y)) :=
  ⟨fun y hs => h.total (g y) hs, fun y hs => h.split (g y) hs⟩

end IntervalSet

namespace Setting

variable {σ : Setting} {s : Nat}

def withVerify (σ : Setting) (verify : Bool) : Setting :=
  { σ with config := σ.config.withVerify verify }

/-!
# The checks of a computation
-/

def checkSpan (σ : Setting) (s : Nat) (location : StorageLocation) (r : Span) :
    Except Error Unit :=
  if σ.verifies location then σ.verifySpan [s] r else .ok ()

def checkStem (σ : Setting) (s : Nat) (location : StorageLocation) (stem : Nat) :
    Except Error Unit :=
  (σ.model.pointsAfter stem).spans.forM (σ.checkSpan s location)

def checkRegion (σ : Setting) (s : Nat) (location : StorageLocation) (live : IntervalSet)
    (r : Region) : Except Error Unit :=
  if live.contains r.point then (σ.stems r s location).forM (σ.checkStem s location) else .ok ()

/-- The checks that the computation of a shadow makes, without the computation. -/
def checkShadow (σ : Setting) (s : Nat) : Except Error Unit := do
  let location ← σ.location s
  match σ.live.interval s with
  | none => .ok ()
  | some live => σ.model.regions.forM (σ.checkRegion s location live.ranges)

theorem addSpan_checksFirst (σ : Setting) (s : Nat) (location : StorageLocation)
    (live : IntervalSet) :
    IntervalSet.ChecksFirst (σ.addSpan s location live)
      ((σ.withVerify false).addSpan s location live) (σ.checkSpan s location) := by
  have hplain : forall (shadow : IntervalSet) r,
      (σ.withVerify false).addSpan s location live shadow r = shadow.insertOutside live r := by
    intro shadow r
    rfl
  constructor
  · intro shadow r hs
    rw [hplain]
    exact IntervalSet.insertOutside_total hs live r
  · intro shadow r _
    rw [hplain]
    unfold addSpan checkSpan
    cases σ.verifies location with
    | true => rfl
    | false => rfl

theorem addRegion_checksFirst (σ : Setting) (s : Nat) (location : StorageLocation)
    (live : IntervalSet) :
    IntervalSet.ChecksFirst (σ.addRegion s location live)
      ((σ.withVerify false).addRegion s location live) (σ.checkRegion s location live) := by
  have hspans := (addSpan_checksFirst σ s location live).foldlM
  have hstem := hspans.comp fun stem => (σ.model.pointsAfter stem).spans
  have hstems := hstem.foldlM.comp fun r => σ.stems r s location
  constructor
  · intro shadow r hs
    unfold addRegion
    cases live.contains r.point with
    | true => exact hstems.total r hs
    | false => exact ⟨shadow, rfl, hs⟩
  · intro shadow r hs
    unfold addRegion checkRegion
    cases live.contains r.point with
    | true => exact hstems.split r hs
    | false => rfl

theorem computeShadow_of_interval {location : StorageLocation} {live : LiveInterval}
    (hlocation : σ.location s = .ok location) (hinterval : σ.live.interval s = some live) :
    σ.computeShadow s =
      (σ.model.regions.foldlM (σ.addRegion s location live.ranges) .empty).map
        fun ranges => ⟨s, location.name, ranges⟩ := by
  unfold computeShadow
  rw [hlocation, hinterval]
  rfl

theorem computeShadow_eq_check (σ : Setting) (s : Nat) :
    σ.computeShadow s =
      (σ.checkShadow s >>= fun _ => (σ.withVerify false).computeShadow s) := by
  unfold checkShadow
  cases hlocation : σ.location s with
  | error e =>
      unfold computeShadow
      rw [hlocation]
      rfl
  | ok location =>
      have hplain : (σ.withVerify false).location s = .ok location := hlocation
      cases hinterval : σ.live.interval s with
      | none =>
          have hnone : (σ.withVerify false).live.interval s = none := hinterval
          unfold computeShadow
          rw [hlocation, hplain, hinterval, hnone]
          rfl
      | some live =>
          have hsome : (σ.withVerify false).live.interval s = some live := hinterval
          have hsplit := (addRegion_checksFirst σ s location live.ranges).foldlM.split
            σ.model.regions IntervalSet.canonical_empty
          rw [computeShadow_of_interval hlocation hinterval, hsplit,
            computeShadow_of_interval hplain hsome]
          show _ = (σ.model.regions.forM (σ.checkRegion s location live.ranges) >>= _)
          cases σ.model.regions.forM (σ.checkRegion s location live.ranges) with
          | error e => rfl
          | ok answer => rfl

theorem computeShadow_total (σ : Setting) (hdeclared : s < σ.function.storage.length) :
    exists answer, (σ.withVerify false).computeShadow s = .ok answer := by
  have hlocation : (σ.withVerify false).location s = .ok σ.function.storage[s] :=
    location_ok_iff.mpr (List.getElem?_eq_getElem hdeclared)
  cases hinterval : (σ.withVerify false).live.interval s with
  | none =>
      unfold computeShadow
      rw [hlocation, hinterval]
      exact ⟨_, rfl⟩
  | some live =>
      have htotal := (addRegion_checksFirst σ s σ.function.storage[s] live.ranges).foldlM.total
        σ.model.regions IntervalSet.canonical_empty
      rcases htotal with ⟨ranges, hranges, _⟩
      rw [computeShadow_of_interval hlocation hinterval]
      exact ⟨_, congrArg _ hranges⟩

/-!
# What the checks look at
-/

theorem checkShadow_of_interval {location : StorageLocation} {live : LiveInterval}
    (hlocation : σ.location s = .ok location) (hinterval : σ.live.interval s = some live) :
    σ.checkShadow s = σ.model.regions.forM (σ.checkRegion s location live.ranges) := by
  unfold checkShadow
  rw [hlocation, hinterval]
  rfl

theorem checkStem_ok_iff (hf : σ.function.WellFormed) {location : StorageLocation} {stem : Nat}
    (hverifies : σ.verifies location = true) :
    σ.checkStem s location stem = .ok () <->
      forall k inst, σ.function.layout[k]? = some inst ->
        (exists met, Path σ.model.LeadsInside stem met k) ->
          σ.overwritten? [s] inst = none := by
  have hspan : σ.checkSpan s location = σ.verifySpan [s] := by
    funext r
    unfold checkSpan
    rw [if_pos hverifies]
  unfold checkStem
  rw [hspan, verifySpans_ok_iff (RegionModel.canonical_pointsAfter σ.model stem)]
  simp only [RegionModel.owns_point_after_iff hf]

theorem checkSpan_of_not_verifies {location : StorageLocation} (h : ¬ σ.verifies location = true)
    (r : Span) : σ.checkSpan s location r = .ok () := by
  unfold checkSpan
  rw [if_neg h]

theorem checkShadow_ok_iff (hf : σ.function.WellFormed) {location : StorageLocation}
    (hlocation : σ.function.storage? s = some location) :
    σ.checkShadow s = .ok () <->
      (σ.verifies location = true ->
        forall r, r ∈ σ.model.regions -> σ.live.liveAt s r.point = true ->
          forall stem, stem ∈ σ.stems r s location ->
            forall k inst, σ.function.layout[k]? = some inst ->
              (exists met, Path σ.model.LeadsInside stem met k) ->
                σ.overwritten? [s] inst = none) := by
  have hfound := location_ok_iff.mpr hlocation
  cases hinterval : σ.live.interval s with
  | none =>
      have hpass : σ.checkShadow s = .ok () := by
        unfold checkShadow
        rw [hfound, hinterval]
        rfl
      have hdead : forall p, ¬ σ.live.liveAt s p = true := by
        intro p
        simp [LiveRanges.liveAt, hinterval]
      exact ⟨fun _ _ r _ hlive => absurd hlive (hdead r.point), fun _ => hpass⟩
  | some live =>
      have hlive : forall p, σ.live.liveAt s p = live.ranges.contains p := by
        intro p
        simp [LiveRanges.liveAt, LiveInterval.liveAt, hinterval]
      rw [checkShadow_of_interval hfound hinterval, forM_ok_iff]
      constructor
      · intro h hverifies r hr hentry stem hstem
        have hregion := h r hr
        unfold checkRegion at hregion
        rw [← hlive, if_pos hentry] at hregion
        exact (checkStem_ok_iff hf hverifies).mp (forM_ok_iff.mp hregion stem hstem)
      · intro h r hr
        unfold checkRegion
        rw [← hlive]
        split
        · rename_i hentry
          apply forM_ok_iff.mpr
          intro stem hstem
          by_cases hverifies : σ.verifies location = true
          · exact (checkStem_ok_iff hf hverifies).mpr (h hverifies r hr hentry stem hstem)
          · exact forM_ok_iff.mpr fun span _ => checkSpan_of_not_verifies hverifies span
        · rfl

theorem exists_path_to_stem (hf : σ.function.WellFormed) {r : Region} (hr : r ∈ σ.model.regions)
    {location : StorageLocation} {stem : Nat} (hstem : stem ∈ σ.stems r s location) :
    exists met, Path σ.model.LeadsInside r.slot met stem := by
  have hread : stem ∈ σ.readSlots r s -> exists met, Path σ.model.LeadsInside r.slot met stem := by
    intro h
    rcases ((mem_readSlots_iff hf hr).mp h).right with ⟨met, hpath, _⟩
    exact ⟨met, hpath⟩
  unfold stems at hstem
  cases hpolicy : σ.config.policy with
  | anyPath =>
      rw [hpolicy] at hstem
      cases List.mem_singleton.mp hstem
      exact ⟨[], Path.nil r.slot⟩
  | samePath =>
      rw [hpolicy] at hstem
      dsimp only at hstem
      split at hstem
      · cases List.mem_singleton.mp hstem
        exact ⟨[], Path.nil r.slot⟩
      · exact hread hstem

theorem computeShadow_ok_iff (hdeclared : s < σ.function.storage.length) :
    (exists answer, σ.computeShadow s = .ok answer) <-> σ.checkShadow s = .ok () := by
  rcases computeShadow_total σ hdeclared with ⟨answer, hanswer⟩
  rw [computeShadow_eq_check, hanswer]
  cases σ.checkShadow s with
  | error e => simp [bind, Except.bind]
  | ok passed => simp [bind, Except.bind]

theorem checkShadow_error {e : Error} (hdeclared : s < σ.function.storage.length)
    (h : σ.checkShadow s = .error e) :
    exists clobber start stop, e = .clobberedShadow s clobber start stop := by
  have hlocation : σ.location s = .ok σ.function.storage[s] :=
    location_ok_iff.mpr (List.getElem?_eq_getElem hdeclared)
  cases hinterval : σ.live.interval s with
  | none =>
      unfold checkShadow at h
      rw [hlocation, hinterval] at h
      cases h
  | some live =>
      rw [checkShadow_of_interval hlocation hinterval] at h
      rcases forM_error h with ⟨r, _, hregion⟩
      unfold checkRegion at hregion
      split at hregion
      · rcases forM_error hregion with ⟨stem, _, hstem⟩
        rcases forM_error hstem with ⟨span, hspan, hfailed⟩
        unfold checkSpan at hfailed
        split at hfailed
        · have hoccupied := (RegionModel.canonical_pointsAfter σ.model stem).occupied span hspan
          rcases verifySpan_error hoccupied hfailed with ⟨k, inst, s', _, _, hs, herror⟩
          cases List.mem_singleton.mp (overwritten?_eq_some hs).left
          exact ⟨_, _, _, herror⟩
        · cases hfailed
      · cases hregion

end Setting
end SafeRestart
