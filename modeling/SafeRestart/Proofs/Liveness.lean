import SafeRestart.Liveness
import SafeRestart.Proofs.Flow
import SafeRestart.Proofs.Interval
import SafeRestart.Proofs.Search

/-!
# Liveness by paths

A storage location is live at the use point of a slot exactly when a path leads from there to a slot
that reads it with no write before.  At the def point of a slot it is live exactly when the slot
writes it or it is live at the use point of a slot that can come next.
-/

namespace SafeRestart
namespace Function

def readsAt (f : Function) (s k : Nat) : Bool := (f.layout[k]?).any fun inst => inst.reads s

def definesAt (f : Function) (s k : Nat) : Bool := (f.layout[k]?).any fun inst => inst.defines s

/-- Control can pass from slot `k` to a read of `s` with no write of `s` before it. -/
def LiveBefore (f : Function) (s k : Nat) : Prop :=
  exists met r, Path f.Leads k met r ∧ f.readsAt s r = true ∧
    forall x, x ∈ (k :: met).dropLast -> ¬ f.definesAt s x = true

variable {f : Function} {s k p : Nat}

/-!
# The backward closure
-/

theorem mem_liveSlots_iff (hf : f.WellFormed) : k ∈ f.liveSlots s <-> f.LiveBefore s k := by
  have hback : (fun x y => y ∈ (f.prev x).filter fun j =>
      !(f.layout[j]?).any fun inst => inst.defines s) =
      fun x y => f.Leads y x ∧ ¬ f.definesAt s y = true := by
    funext x y
    simp [definesAt, mem_prev_iff hf]
  have hclosed : forall x y, (y ∈ (f.prev x).filter fun j =>
      !(f.layout[j]?).any fun inst => inst.defines s) -> y ∈ f.slots := by
    intro x y hy
    have hstep := congrFun (congrFun hback x) y ▸ hy
    exact List.mem_range.mpr (leads_lt hf hstep.left).left
  unfold liveSlots
  dsimp only
  rw [Search.mem_sweep_iff_of_closed hclosed, hback]
  constructor
  · intro h
    rcases h with ⟨r, hr, _, met, hpath⟩
    rcases path_inside_iff.mp hpath with ⟨hplain, hfree⟩
    rcases path_reverse hplain with ⟨forward, hforward, hrev⟩
    have hrev' : r :: met = (k :: forward).reverse := by rw [hrev, List.reverse_reverse]
    refine ⟨forward, r, hforward, (List.mem_filter.mp hr).right, ?_⟩
    intro x hx
    exact hfree x ((mem_dropLast_iff_of_reverse hrev').mp hx)
  · intro h
    rcases h with ⟨forward, r, hpath, hreads, hfree⟩
    rcases path_reverse hpath with ⟨met, hmet, hrev⟩
    have hslot : r ∈ f.slots := by
      rcases (Option.any_eq_true _ _).mp hreads with ⟨inst, hinst, _⟩
      exact List.mem_range.mpr (List.getElem?_eq_some_iff.mp hinst).1
    refine ⟨r, List.mem_filter.mpr ⟨hslot, hreads⟩, hslot, met, ?_⟩
    refine path_inside_iff.mpr ⟨hmet, ?_⟩
    intro x hx
    exact hfree x ((mem_dropLast_iff_of_reverse hrev).mpr hx)

/-!
# Live points
-/

theorem canonical_livePoints (f : Function) (s : Nat) : (f.livePoints s).Canonical :=
  IntervalSet.canonical_ofSpans _

theorem mem_livePoints_use (hf : f.WellFormed) :
    2 * k ∈ f.livePoints s <-> f.LiveBefore s k := by
  unfold livePoints
  rw [IntervalSet.mem_ofSpans_iff, ← mem_liveSlots_iff hf]
  constructor
  · intro h
    rcases h with ⟨r, hr, hmem⟩
    rcases List.mem_append.mp hr with hr | hr
    · rcases List.mem_map.mp hr with ⟨j, hj, rfl⟩
      exact Span.use_mem_use_iff.mp hmem ▸ hj
    · rcases List.mem_map.mp hr with ⟨j, _, rfl⟩
      exact absurd hmem Span.use_not_mem_def
  · intro h
    exact ⟨⟨2 * k, 2 * k + 1⟩, List.mem_append_left _ (List.mem_map.mpr ⟨k, h, rfl⟩),
      Span.use_mem_use_iff.mpr rfl⟩

theorem mem_livePoints_def (hf : f.WellFormed) :
    2 * k + 1 ∈ f.livePoints s <->
      f.definesAt s k = true ∨ exists j, f.Leads k j ∧ f.LiveBefore s j := by
  have hafter : (k ∈ f.slots.filter fun k =>
      ((f.layout[k]?).any fun inst => inst.defines s) ||
        (f.next k).any fun j => j ∈ f.liveSlots s) <->
      f.definesAt s k = true ∨ exists j, f.Leads k j ∧ f.LiveBefore s j := by
    simp only [List.mem_filter, Bool.or_eq_true, List.any_eq_true, decide_eq_true_eq,
      mem_liveSlots_iff hf]
    constructor
    · intro h
      exact h.right
    · intro h
      refine ⟨List.mem_range.mpr ?_, h⟩
      rcases h with hdef | ⟨j, hj, _⟩
      · rcases (Option.any_eq_true _ _).mp hdef with ⟨inst, hinst, _⟩
        exact (List.getElem?_eq_some_iff.mp hinst).1
      · exact (leads_lt hf hj).left
  rw [← hafter]
  unfold livePoints
  rw [IntervalSet.mem_ofSpans_iff]
  constructor
  · intro h
    rcases h with ⟨r, hr, hmem⟩
    rcases List.mem_append.mp hr with hr | hr
    · rcases List.mem_map.mp hr with ⟨j, _, rfl⟩
      exact absurd hmem Span.def_not_mem_use
    · rcases List.mem_map.mp hr with ⟨j, hj, rfl⟩
      exact Span.def_mem_def_iff.mp hmem ▸ hj
  · intro h
    exact ⟨⟨2 * k + 1, 2 * k + 2⟩, List.mem_append_right _ (List.mem_map.mpr ⟨k, h, rfl⟩),
      Span.def_mem_def_iff.mpr rfl⟩

/-!
# Live ranges
-/

theorem interval_liveRanges {live : LiveInterval} (h : f.liveRanges.interval s = some live) :
    live.ranges = f.livePoints s := by
  unfold liveRanges liveIntervals at h
  dsimp only at h
  rw [List.getElem?_map] at h
  cases hs : (List.range f.storage.length)[s]? with
  | none =>
      rw [hs] at h
      cases h
  | some s' =>
      have hsame : s' = s := by
        rcases List.getElem?_eq_some_iff.mp hs with ⟨hlt, hget⟩
        rw [← hget, List.getElem_range]
      subst hsame
      rw [hs] at h
      dsimp only [Option.map_some, Option.join_some] at h
      split at h
      · cases h
      · cases h
        rfl

theorem liveAt_liveRanges_iff (hs : s < f.storage.length) :
    f.liveRanges.liveAt s p = true <-> p ∈ f.livePoints s := by
  have hinterval : f.liveRanges.interval s =
      if (f.livePoints s).isEmpty then none else some ⟨s, f.livePoints s⟩ := by
    unfold liveRanges liveIntervals
    simp [hs]
  unfold LiveRanges.liveAt
  rw [hinterval]
  split
  · rename_i hempty
    simp only [Option.any_none, Bool.false_eq_true, false_iff]
    intro hmem
    rcases hmem with ⟨r, hr, _⟩
    rw [IntervalSet.isEmpty, List.isEmpty_iff] at hempty
    rw [hempty] at hr
    cases hr
  · exact IntervalSet.contains_iff (canonical_livePoints f s)

end Function
end SafeRestart
