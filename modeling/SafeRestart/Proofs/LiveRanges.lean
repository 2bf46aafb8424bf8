import Mathlib.Algebra.Ring.Parity
import Mathlib.Data.List.Infix
import SafeRestart.Proofs.Acceptance
import SafeRestart.Proofs.Liveness

/-!
# Live ranges of finished functions

In a finished function only declared storage locations are read or written.  The live ranges
computed from it then answer for every number: a location that was not declared is live nowhere.
The slots of the search are read back as instructions, so that liveness is said of paths through
instructions, whether or not the start of the function leads to them.
-/

namespace SafeRestart
namespace Function

/-- Control can pass from an instruction to a read of `s` with no write of `s` before it. -/
def ReadAhead (f : Function) (s : Nat) (i : Instruction) : Prop :=
  exists met r, Path f.Passes i met r ∧ r.reads s = true ∧
    forall x, x ∈ (i :: met).dropLast -> ¬ x.defines s = true

variable {f : Function} {name : String} {steps : List Step} {s k p : Nat} {i : Instruction}

/-!
# Declared storage
-/

theorem storage_declared (hfinished : Function.assemble name steps = .ok f) (hi : i ∈ f.layout)
    (hs : i.defines s = true ∨ i.reads s = true) : s < f.storage.length := by
  rcases Assembly.finish_ok hfinished with ⟨hnone, _, hstorage, _, _⟩
  rcases Assembly.firstError?_none hnone with ⟨_, _, _, hflaws⟩
  rw [Assembly.layout_of_finish hfinished, List.mem_flatMap] at hi
  rcases hi with ⟨b, _, hmember⟩
  have hflaw := hflaws i (List.mem_filter.mp hmember).left
  rw [hstorage]
  apply (Assembly.flaw?_eq_none_iff.mp hflaw).right s
  simpa [Operation.defines, Operation.reads] using hs

def Declared (f : Function) : Prop :=
  forall inst, inst ∈ f.layout -> forall s, s ∈ inst.uses ∨ s ∈ inst.defs -> s < f.storage.length

theorem declared_of_assemble {name : String} {steps : List Step}
    (hfinished : Function.assemble name steps = .ok f) : f.Declared := by
  intro inst hinst s hs
  apply storage_declared hfinished hinst
  simpa [Operation.defines, Operation.reads, or_comm] using hs

theorem liveBefore_lt (hf : f.WellFormed) (h : f.LiveBefore s k) : k < f.size := by
  rcases h with ⟨met, r, hpath, hreads, _⟩
  cases hpath with
  | nil _ =>
      rcases (Option.any_eq_true _ _).mp hreads with ⟨inst, hinst, _⟩
      exact (List.getElem?_eq_some_iff.mp hinst).1
  | cons hstep _ => exact (leads_lt hf hstep).left

theorem definesAt_lt (h : f.definesAt s k = true) : k < f.size := by
  rcases (Option.any_eq_true _ _).mp h with ⟨inst, hinst, _⟩
  exact (List.getElem?_eq_some_iff.mp hinst).1

theorem liveBefore_declared (hdeclared : f.Declared) (h : f.LiveBefore s k) :
    s < f.storage.length := by
  rcases h with ⟨_, r, _, hreads, _⟩
  rcases (Option.any_eq_true _ _).mp hreads with ⟨inst, hinst, hread⟩
  apply hdeclared inst (List.mem_of_getElem? hinst) s
  exact Or.inl (by simpa [Operation.reads] using hread)

theorem livePoint_bounds (hf : f.WellFormed) (hdeclared : f.Declared) (h : p ∈ f.livePoints s) :
    p < f.endPoint ∧ s < f.storage.length := by
  unfold endPoint
  rcases Nat.even_or_odd' p with ⟨k, rfl | rfl⟩
  · have hlive := (mem_livePoints_use hf).mp h
    have hk := liveBefore_lt hf hlive
    exact ⟨by omega, liveBefore_declared hdeclared hlive⟩
  · rcases (mem_livePoints_def hf).mp h with hdef | ⟨j, hj, hlive⟩
    · have hk := definesAt_lt hdef
      rcases (Option.any_eq_true _ _).mp hdef with ⟨inst, hinst, hwrite⟩
      refine ⟨by omega, hdeclared inst (List.mem_of_getElem? hinst) s (Or.inr ?_)⟩
      simpa [Operation.defines] using hwrite
    · have hk := (leads_lt hf hj).left
      exact ⟨by omega, liveBefore_declared hdeclared hlive⟩

/-- The live ranges hold the live points of every number, declared or not. -/
theorem liveAt_iff_mem_livePoints (hf : f.WellFormed) (hdeclared : f.Declared) :
    f.liveRanges.liveAt s p = true <-> p ∈ f.livePoints s := by
  by_cases hs : s < f.storage.length
  · exact liveAt_liveRanges_iff hs
  · have hinterval : f.liveRanges.interval s = none := by
      simp [liveRanges, liveIntervals, Nat.le_of_not_lt hs]
    have hdead : f.liveRanges.liveAt s p = false := by
      rw [LiveRanges.liveAt, hinterval]
      rfl
    rw [hdead]
    exact ⟨fun h => Bool.noConfusion h, fun h => absurd (livePoint_bounds hf hdeclared h).right hs⟩

/-!
# Liveness by paths through instructions
-/

theorem definesAt_of_layout (h : f.layout[k]? = some i) : f.definesAt s k = i.defines s := by
  rw [definesAt, h]
  rfl

theorem readsAt_of_layout (h : f.layout[k]? = some i) : f.readsAt s k = i.reads s := by
  rw [readsAt, h]
  rfl

theorem mem_layout_before_end (hf : f.WellFormed) (hi : i ∈ f.layout) {met : List Instruction}
    {j x : Instruction} (hpath : Path f.Passes i met j) (hx : x ∈ (i :: met).dropLast) :
    x ∈ f.layout := by
  rcases List.mem_cons.mp (List.mem_of_mem_dropLast hx) with rfl | hmet
  · exact hi
  · exact path_mem_layout hf hpath x hmet

theorem liveBefore_iff (hf : f.WellFormed) (hi : f.layout[k]? = some i) :
    f.LiveBefore s k <-> f.ReadAhead s i := by
  have hslot := ((layout_iff hf).mp hi).right
  constructor
  · intro h
    rcases h with ⟨met, r, hpath, hreads, hfree⟩
    rcases path_insts hf hi hpath with ⟨insts, j, hj, hinsts, hmap⟩
    refine ⟨insts, j, hinsts, (readsAt_of_layout hj).symm.trans hreads, ?_⟩
    intro x hx
    have hmem := mem_layout_before_end hf (List.mem_of_getElem? hi) hinsts hx
    rw [← definesAt_of_layout ((mem_layout_iff hf).mp hmem)]
    apply hfree
    rw [← hmap, ← hslot, ← List.map_cons, ← List.map_dropLast]
    exact List.mem_map_of_mem hx
  · intro h
    rcases h with ⟨met, r, hpath, hreads, hfree⟩
    have hmem := List.mem_of_getElem? hi
    have hr := (mem_layout_iff hf).mp (path_end_mem_layout hf hmem hpath)
    have hslots := path_slots hf hpath
    rw [hslot] at hslots
    refine ⟨met.map f.slotOf, f.slotOf r, hslots, (readsAt_of_layout hr).trans hreads, ?_⟩
    intro x hx
    rw [← hslot, ← List.map_cons, ← List.map_dropLast] at hx
    rcases List.mem_map.mp hx with ⟨y, hy, rfl⟩
    have hlayout := mem_layout_before_end hf hmem hpath hy
    rw [definesAt_of_layout ((mem_layout_iff hf).mp hlayout)]
    exact hfree y hy

end Function
end SafeRestart
