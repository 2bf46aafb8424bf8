import SafeRestart.Proofs.Ascending
import SafeRestart.Proofs.Flow
import SafeRestart.Region.Basic

/-!
# Entries of regions

The slots at which regions start, and the regions they start.
-/

namespace SafeRestart
namespace RegionModel

variable {f : Function} {boundaries : BoundarySet} {m : RegionModel} {k : Nat} {i : Instruction}

theorem mem_regions_iff {r : Region} :
    r ∈ m.regions <->
      exists n k inst, m.entries[n]? = some k ∧ m.function.layout[k]? = some inst ∧
        r = ⟨n, k, inst.id, inst.block⟩ := by
  unfold regions
  rw [List.mem_filterMap]
  constructor
  · intro h
    rcases h with ⟨⟨k, n⟩, hmem, hmap⟩
    rcases Option.map_eq_some_iff.mp hmap with ⟨inst, hinst, rfl⟩
    exact ⟨n, k, inst, List.mem_zipIdx_iff_getElem?.mp hmem, hinst, rfl⟩
  · intro h
    rcases h with ⟨n, k, inst, hentry, hinst, rfl⟩
    exact ⟨(k, n), List.mem_zipIdx_iff_getElem?.mpr hentry, by simp [hinst]⟩

theorem isEntry_iff (hf : m.function.WellFormed) (hi : m.function.layout[k]? = some i) :
    m.isEntry i.id = true <-> k ∈ m.entries := by
  unfold isEntry regionAt?
  rw [List.find?_isSome]
  constructor
  · intro h
    rcases h with ⟨r, hr, hid⟩
    rcases mem_regions_iff.mp hr with ⟨n, l, inst, hentry, hinst, rfl⟩
    have hsame : inst.id = i.id := by simpa using hid
    have hslot := Function.slot?_of_layout hf hi
    rw [← hsame, Function.slot?_of_layout hf hinst] at hslot
    cases hslot
    exact List.mem_of_getElem? hentry
  · intro h
    rcases List.mem_iff_getElem?.mp h with ⟨n, hn⟩
    exact ⟨⟨n, k, i.id, i.block⟩, mem_regions_iff.mpr ⟨n, k, i, hn, hi, rfl⟩, by simp⟩

theorem mem_entries_ofBoundaries :
    k ∈ (ofBoundaries f boundaries).entries <->
      (f.layout ≠ [] ∧ k = 0) ∨ exists n, n ∈ boundaries.insts ∧ f.slot? n = some k := by
  unfold ofBoundaries ofSlots
  dsimp only
  rw [Ascending.mem_ofList_iff]
  cases hlayout : f.layout with
  | nil => simp
  | cons first rest => simp

theorem isEntry_of_mem_boundaries (hf : f.WellFormed) (hi : i ∈ f.layout)
    (hmem : i.id ∈ boundaries.insts) : (ofBoundaries f boundaries).isEntry i.id = true := by
  have hplace := (Function.mem_layout_iff hf).mp hi
  apply (isEntry_iff (m := ofBoundaries f boundaries) hf hplace).mpr
  apply mem_entries_ofBoundaries.mpr
  exact Or.inr ⟨i.id, hmem, Function.slot?_of_layout hf hplace⟩

/-- A path that starts at the entry of a region and enters no region after that. -/
structure StaysIn (m : RegionModel) (r : Region) (entry : Instruction) (met : List Instruction)
    (last : Instruction) : Prop where
  isRegion : r ∈ m.regions
  isStart : entry ∈ m.function.layout ∧ entry.id = r.entry
  path : Path m.function.Passes entry met last
  inside : forall x, x ∈ met -> m.isEntry x.id = false

end RegionModel
end SafeRestart
