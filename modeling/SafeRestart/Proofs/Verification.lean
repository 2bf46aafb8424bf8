import SafeRestart.Proofs.Liveness
import SafeRestart.Proofs.Walk
import SafeRestart.Shadow.Basic

/-!
# What verification decides

Verification runs over the spans of a region, and in each span over the instructions that own one of
its points.  These are the instructions of the region, so it succeeds exactly when none of them
overwrites a location that is live at the entry.
-/

namespace SafeRestart

theorem forM_ok_iff {α ε : Type} {check : α -> Except ε Unit} {l : List α} :
    l.forM check = .ok () <-> forall x, x ∈ l -> check x = .ok () := by
  induction l with
  | nil =>
      constructor
      · intro _ x hx
        cases hx
      · intro _
        rfl
  | cons a rest ih =>
      rw [List.forall_mem_cons, ← ih]
      show (check a >>= fun _ => rest.forM check) = .ok () <-> _
      cases hfirst : check a with
      | error e =>
          constructor
          · intro h
            cases h
          · intro h
            cases h.left
      | ok answer =>
          constructor
          · intro h
            exact ⟨rfl, h⟩
          · intro h
            exact h.right

theorem forM_error {α ε : Type} {check : α -> Except ε Unit} {l : List α} {e : ε}
    (h : l.forM check = .error e) : exists x, x ∈ l ∧ check x = .error e := by
  induction l with
  | nil => cases h
  | cons a rest ih =>
      change (check a >>= fun _ => rest.forM check) = .error e at h
      cases hfirst : check a with
      | error e' =>
          rw [hfirst] at h
          cases h
          exact ⟨a, List.mem_cons_self, hfirst⟩
      | ok answer =>
          rw [hfirst] at h
          rcases ih h with ⟨x, hx, herror⟩
          exact ⟨x, List.mem_cons_of_mem a hx, herror⟩

namespace Setting

variable {σ : Setting} {watched : List Nat} {inst : Instruction} {r : Span} {s k : Nat}

def checked (σ : Setting) (s : Nat) : Bool :=
  (σ.function.storage? s).any fun location => !location.flags.exempt

def harmless (σ : Setting) (inst : Instruction) : Bool := σ.absent inst || inst.flags.call

/-- The instruction writes a location that verification checks, and its writes are not let pass. -/
structure Spoils (σ : Setting) (inst : Instruction) (s : Nat) : Prop where
  harmful : σ.harmless inst = false
  writes : inst.defines s = true
  counts : σ.checked s = true

theorem overwritten?_eq_none_iff :
    σ.overwritten? watched inst = none <-> forall s, s ∈ watched -> ¬ σ.Spoils inst s := by
  unfold overwritten?
  by_cases hpass : (σ.absent inst || inst.flags.call) = true
  · rw [if_pos hpass]
    constructor
    · intro _ s _ hspoils
      exact Bool.eq_false_iff.mp hspoils.harmful hpass
    · intro _
      rfl
  · rw [if_neg hpass, List.find?_eq_none]
    constructor
    · intro h s hs hspoils
      apply h s (List.contains_iff_mem.mp hspoils.writes)
      exact Bool.and_eq_true_iff.mpr ⟨List.contains_iff_mem.mpr hs, hspoils.counts⟩
    · intro h s hdef hmatch
      rcases Bool.and_eq_true_iff.mp hmatch with ⟨hs, hcounts⟩
      exact h s (List.contains_iff_mem.mp hs)
        ⟨Bool.eq_false_iff.mpr hpass, List.contains_iff_mem.mpr hdef, hcounts⟩

theorem overwritten?_eq_some (h : σ.overwritten? watched inst = some s) :
    s ∈ watched ∧ σ.Spoils inst s := by
  unfold overwritten? at h
  split at h
  · cases h
  · rename_i hpass
    have hmatch := List.find?_some h
    rcases Bool.and_eq_true_iff.mp hmatch with ⟨hs, hcounts⟩
    refine ⟨List.contains_iff_mem.mp hs, Bool.eq_false_iff.mpr hpass, ?_, hcounts⟩
    exact List.contains_iff_mem.mpr (List.mem_of_find?_eq_some h)

theorem mem_insts_of_span_iff {layout : List Instruction} (hr : r.start < r.stop) :
    inst ∈ (layout.take ((r.stop + 1) / 2)).drop (r.start / 2) <->
      exists k, layout[k]? = some inst ∧ (2 * k ∈ r ∨ 2 * k + 1 ∈ r) := by
  rw [List.mem_iff_getElem?]
  simp only [List.getElem?_drop, List.getElem?_take, Span.mem_iff]
  constructor
  · intro h
    rcases h with ⟨n, hn⟩
    split at hn
    · exact ⟨r.start / 2 + n, hn, by omega⟩
    · cases hn
  · intro h
    rcases h with ⟨k, hk, hpoint⟩
    have hle : r.start / 2 ≤ k := by omega
    refine ⟨k - r.start / 2, ?_⟩
    rw [Nat.add_sub_cancel' hle, if_pos (by omega)]
    exact hk

/-- The check of a span passes when no instruction in it overwrites a watched location, and names
one that does otherwise. -/
theorem verifySpan_cases (σ : Setting) (watched : List Nat) (hr : r.start < r.stop) :
    (σ.verifySpan watched r = .ok () ∧
      forall k inst, σ.function.layout[k]? = some inst -> 2 * k ∈ r ∨ 2 * k + 1 ∈ r ->
        σ.overwritten? watched inst = none) ∨
    exists k inst s, σ.function.layout[k]? = some inst ∧ (2 * k ∈ r ∨ 2 * k + 1 ∈ r) ∧
      σ.overwritten? watched inst = some s ∧
      σ.verifySpan watched r = .error (.clobberedShadow s inst.id r.start r.stop) := by
  unfold verifySpan
  dsimp only
  split
  · rename_i s clobber hfound
    rcases List.exists_of_findSome?_eq_some hfound with ⟨inst, hinst, hmap⟩
    rcases (mem_insts_of_span_iff hr).mp hinst with ⟨k, hk, hpoint⟩
    rcases Option.map_eq_some_iff.mp hmap with ⟨s', hs, hpair⟩
    cases hpair
    exact Or.inr ⟨k, inst, s, hk, hpoint, hs, rfl⟩
  · rename_i hnone
    apply Or.inl
    refine ⟨rfl, ?_⟩
    intro k inst hk hpoint
    have hinst := (mem_insts_of_span_iff hr).mpr ⟨k, hk, hpoint⟩
    exact Option.map_eq_none_iff.mp (List.findSome?_eq_none_iff.mp hnone inst hinst)

theorem verifySpan_ok_iff (hr : r.start < r.stop) :
    σ.verifySpan watched r = .ok () <->
      forall k inst, σ.function.layout[k]? = some inst -> 2 * k ∈ r ∨ 2 * k + 1 ∈ r ->
        σ.overwritten? watched inst = none := by
  rcases verifySpan_cases σ watched hr with ⟨hok, hfree⟩ | ⟨k, inst, s, hk, hpoint, hs, herror⟩
  · exact ⟨fun _ => hfree, fun _ => hok⟩
  · constructor
    · intro hok
      rw [herror] at hok
      cases hok
    · intro hfree
      rw [hfree k inst hk hpoint] at hs
      cases hs

theorem verifySpan_error {e : Error} (hr : r.start < r.stop)
    (h : σ.verifySpan watched r = .error e) :
    exists k inst s, σ.function.layout[k]? = some inst ∧ (2 * k ∈ r ∨ 2 * k + 1 ∈ r) ∧
      σ.overwritten? watched inst = some s ∧
      e = .clobberedShadow s inst.id r.start r.stop := by
  rcases verifySpan_cases σ watched hr with ⟨hok, _⟩ | ⟨k, inst, s, hk, hpoint, hs, herror⟩
  · rw [hok] at h
    cases h
  · rw [herror] at h
    exact ⟨k, inst, s, hk, hpoint, hs, (Except.error.inj h).symm⟩

theorem verifySpans_ok_iff {set : IntervalSet} (hset : set.Canonical) :
    set.spans.forM (σ.verifySpan watched) = .ok () <->
      forall k inst, σ.function.layout[k]? = some inst -> 2 * k ∈ set ∨ 2 * k + 1 ∈ set ->
        σ.overwritten? watched inst = none := by
  rw [forM_ok_iff]
  constructor
  · intro h k inst hk hpoint
    rcases hpoint with ⟨span, hspan, huse⟩ | ⟨span, hspan, hdef⟩
    · exact (verifySpan_ok_iff (hset.occupied span hspan)).mp (h span hspan) k inst hk (Or.inl huse)
    · exact (verifySpan_ok_iff (hset.occupied span hspan)).mp (h span hspan) k inst hk (Or.inr hdef)
  · intro h span hspan
    apply (verifySpan_ok_iff (hset.occupied span hspan)).mpr
    intro k inst hk hpoint
    apply h k inst hk
    exact hpoint.imp (fun huse => ⟨span, hspan, huse⟩) (fun hdef => ⟨span, hspan, hdef⟩)

/-!
# Whole functions
-/

theorem mem_liveIns_iff {r : Region} :
    s ∈ σ.liveIns r <-> s < σ.function.storage.length ∧ σ.live.liveAt s r.point = true := by
  unfold liveIns
  rw [List.mem_filter, List.mem_range]

theorem lt_storage_of_checked (h : σ.checked s = true) : s < σ.function.storage.length := by
  rcases (Option.any_eq_true _ _).mp h with ⟨location, hlocation, _⟩
  exact (List.getElem?_eq_some_iff.mp hlocation).1

/-- An instruction of a region writes a location that has to be kept for the next execution of the
region. -/
structure Violates (σ : Setting) (r : Region) (k : Nat) (inst : Instruction) (s : Nat) : Prop where
  isRegion : r ∈ σ.model.regions
  placed : σ.function.layout[k]? = some inst
  reached : exists met, Path σ.model.LeadsInside r.slot met k
  harmful : σ.harmless inst = false
  writes : inst.defines s = true
  live : σ.live.liveAt s r.point = true
  counts : σ.checked s = true

theorem verifyFunction_ok_iff (hf : σ.function.WellFormed) :
    σ.verifyFunction = .ok () <-> forall r k inst s, ¬ σ.Violates r k inst s := by
  unfold verifyFunction
  rw [forM_ok_iff]
  constructor
  · intro h r k inst s hbad
    have hspans := (verifySpans_ok_iff (RegionModel.canonical_pointsUntil σ.model r _)).mp
      (h r hbad.isRegion)
    have hnone := hspans k inst hbad.placed
      ((RegionModel.owns_point_in_iff hf hbad.isRegion).mpr hbad.reached)
    have hlive : s ∈ σ.liveIns r :=
      mem_liveIns_iff.mpr ⟨lt_storage_of_checked hbad.counts, hbad.live⟩
    exact overwritten?_eq_none_iff.mp hnone s hlive ⟨hbad.harmful, hbad.writes, hbad.counts⟩
  · intro h r hr
    apply (verifySpans_ok_iff (RegionModel.canonical_pointsUntil σ.model r _)).mpr
    intro k inst hk hpoint
    have hreached := (RegionModel.owns_point_in_iff hf hr).mp hpoint
    apply overwritten?_eq_none_iff.mpr
    intro s hs hspoils
    exact h r k inst s ⟨hr, hk, hreached, hspoils.harmful, hspoils.writes,
      (mem_liveIns_iff.mp hs).right, hspoils.counts⟩

theorem verifyFunction_error (hf : σ.function.WellFormed) {e : Error}
    (h : σ.verifyFunction = .error e) :
    exists r k inst s, exists span : Span, σ.Violates r k inst s ∧
      (2 * k ∈ span ∨ 2 * k + 1 ∈ span) ∧ e = .clobberedShadow s inst.id span.start span.stop := by
  rcases forM_error h with ⟨r, hr, hregion⟩
  rcases forM_error hregion with ⟨span, hspan, hfailed⟩
  have hoccupied := (RegionModel.canonical_pointsUntil σ.model r _).occupied span hspan
  rcases verifySpan_error hoccupied hfailed with ⟨k, inst, s, hk, hpoint, hs, herror⟩
  rcases overwritten?_eq_some hs with ⟨hlive, hspoils⟩
  have hreached : exists met, Path σ.model.LeadsInside r.slot met k := by
    apply (RegionModel.owns_point_in_iff hf hr).mp
    exact hpoint.imp (fun huse => ⟨span, hspan, huse⟩) (fun hdef => ⟨span, hspan, hdef⟩)
  exact ⟨r, k, inst, s, span, ⟨hr, hk, hreached, hspoils.harmful, hspoils.writes,
    (mem_liveIns_iff.mp hlive).right, hspoils.counts⟩, hpoint, herror⟩

end Setting
end SafeRestart
