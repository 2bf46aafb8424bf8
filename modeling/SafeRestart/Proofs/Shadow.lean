import SafeRestart.Proofs.Verification

/-!
# What a shadow contains

The computation of a shadow is three loops around one interval subtraction.  Each loop adds to the
set what its turns add, so the points of the result are those after some stem of some region in
which the location is live at the entry, the live points left out.
-/

namespace SafeRestart

theorem bind_ok {α β ε : Type} {x : Except ε α} {next : α -> Except ε β} {b : β}
    (h : (x >>= next) = .ok b) : exists a, x = .ok a ∧ next a = .ok b := by
  cases x with
  | error e => cases h
  | ok a => exact ⟨a, rfl, h⟩

namespace IntervalSet

/-- The set `t` is `s` with some points added. -/
structure Adds (s : IntervalSet) (added : Nat -> Prop) (t : IntervalSet) : Prop where
  canonical : t.Canonical
  points : forall p, p ∈ t <-> p ∈ s ∨ added p

theorem foldlM_adds {α ε : Type} {step : IntervalSet -> α -> Except ε IntervalSet}
    {added : α -> Nat -> Prop} {l : List α} {s t : IntervalSet}
    (hstep : forall s x t, s.Canonical -> step s x = .ok t -> s.Adds (added x) t)
    (hs : s.Canonical) (h : l.foldlM step s = .ok t) :
    s.Adds (fun p => exists x, x ∈ l ∧ added x p) t := by
  induction l generalizing s with
  | nil =>
      cases h
      exact ⟨hs, fun p => by simp⟩
  | cons x rest ih =>
      rw [List.foldlM_cons] at h
      rcases bind_ok h with ⟨mid, hfirst, hrest⟩
      have hmid := hstep s x mid hs hfirst
      have hlast := ih hmid.canonical hrest
      refine ⟨hlast.canonical, ?_⟩
      intro p
      rw [hlast.points, hmid.points, List.exists_mem_cons_iff, or_assoc]

end IntervalSet

namespace Setting

variable {σ : Setting} {s : Nat} {location : StorageLocation} {live shadow t : IntervalSet}

theorem addSpan_adds {r : Span} (hlive : live.Canonical) (hs : shadow.Canonical)
    (h : σ.addSpan s location live shadow r = .ok t) :
    shadow.Adds (fun p => p ∈ r ∧ p ∉ live) t := by
  have hinsert : shadow.insertOutside live r = .ok t := by
    unfold addSpan at h
    split at h
    · rcases bind_ok h with ⟨_, _, hlast⟩
      exact hlast
    · exact h
  rcases IntervalSet.insertOutside_ok hs hlive r with ⟨t', ht, hcanonical, hmem⟩
  rw [ht] at hinsert
  cases hinsert
  exact ⟨hcanonical, hmem⟩

/-- What one region adds to the shadow of a location. -/
def ShadowedIn (σ : Setting) (s : Nat) (location : StorageLocation) (live : IntervalSet)
    (r : Region) (p : Nat) : Prop :=
  r.point ∈ live ∧ exists stem, stem ∈ σ.stems r s location ∧
    p ∈ σ.model.pointsAfter stem ∧ p ∉ live

theorem addRegion_adds {r : Region} (hlive : live.Canonical) (hs : shadow.Canonical)
    (h : σ.addRegion s location live shadow r = .ok t) :
    shadow.Adds (σ.ShadowedIn s location live r) t := by
  unfold addRegion at h
  split at h
  · rename_i hentry
    have hstem : forall (shadow : IntervalSet) stem t, shadow.Canonical ->
        (σ.model.pointsAfter stem).spans.foldlM (σ.addSpan s location live) shadow = .ok t ->
          shadow.Adds (fun p => p ∈ σ.model.pointsAfter stem ∧ p ∉ live) t := by
      intro shadow stem t hs h
      have hspans := IntervalSet.foldlM_adds (fun _ _ _ hs h => addSpan_adds hlive hs h) hs h
      refine ⟨hspans.canonical, ?_⟩
      intro p
      rw [hspans.points, IntervalSet.mem_iff (s := σ.model.pointsAfter stem)]
      simp only [← and_assoc, exists_and_right]
    have hstems := IntervalSet.foldlM_adds hstem hs h
    refine ⟨hstems.canonical, ?_⟩
    intro p
    have hpoint := (IntervalSet.contains_iff hlive).mp hentry
    rw [hstems.points]
    simp only [ShadowedIn, hpoint, true_and]
  · rename_i hentry
    cases h
    refine ⟨hs, ?_⟩
    intro p
    have hpoint : r.point ∉ live := fun hmem => hentry ((IntervalSet.contains_iff hlive).mpr hmem)
    simp [ShadowedIn, hpoint]

/-!
# Stems and points
-/

theorem mem_readSlots_iff (hf : σ.function.WellFormed) {r : Region} (hr : r ∈ σ.model.regions)
    {k : Nat} :
    k ∈ σ.readSlots r s <->
      (exists inst, σ.function.layout[k]? = some inst ∧ inst.reads s = true ∧
        σ.absent inst = false) ∧
      σ.model.Walks (fun inst => !σ.absent inst && inst.defines s) r k := by
  unfold readSlots
  dsimp only
  rw [List.mem_filter, Bool.and_eq_true, Option.any_eq_true,
    IntervalSet.contains_iff (RegionModel.canonical_pointsUntil σ.model r _),
    RegionModel.use_mem_pointsUntil_iff hf hr]
  simp only [Bool.and_eq_true, Bool.not_eq_true']
  constructor
  · intro h
    exact h.right
  · intro h
    rcases h.left with ⟨inst, hinst, _⟩
    exact ⟨List.mem_range.mpr (List.getElem?_eq_some_iff.mp hinst).1, h⟩

theorem location_ok_iff :
    σ.location s = .ok location <-> σ.function.storage? s = some location := by
  unfold Setting.location
  cases σ.function.storage? s with
  | none => simp
  | some found => simp

theorem computeShadow_points {answer : Shadow} {interval : LiveInterval}
    (hinterval : σ.live.interval s = some interval) (hlive : interval.ranges.Canonical)
    (h : σ.computeShadow s = .ok answer) :
    answer.storage = s ∧ answer.ranges.Canonical ∧
      exists location, σ.function.storage? s = some location ∧
        forall p, p ∈ answer.ranges <->
          exists r, r ∈ σ.model.regions ∧ σ.ShadowedIn s location interval.ranges r p := by
  unfold computeShadow at h
  rcases bind_ok h with ⟨location, hlocation, hrest⟩
  rw [hinterval] at hrest
  rcases bind_ok hrest with ⟨ranges, hranges, hanswer⟩
  cases hanswer
  have hadds := IntervalSet.foldlM_adds (fun _ _ _ hs h => addRegion_adds hlive hs h)
    IntervalSet.canonical_empty hranges
  refine ⟨rfl, hadds.canonical, location, location_ok_iff.mp hlocation, ?_⟩
  intro p
  rw [hadds.points]
  simp only [IntervalSet.not_mem_empty, false_or]

end Setting
end SafeRestart
