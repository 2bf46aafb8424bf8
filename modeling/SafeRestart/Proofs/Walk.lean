import SafeRestart.Proofs.Interval
import SafeRestart.Proofs.Region
import SafeRestart.Proofs.Search
import SafeRestart.Region.Walk

/-!
# What walks inside a region reach

A walk reaches the slots to which a path leads that enters no region on the way.  Each point set is
described by the paths that end at the slots of its points.
-/

namespace SafeRestart
namespace RegionModel

def LeadsInside (m : RegionModel) (k l : Nat) : Prop := m.function.Leads k l ∧ l ∉ m.entries

def stopsAt (m : RegionModel) (stop : Instruction -> Bool) (k : Nat) : Bool :=
  (m.function.layout[k]?).any stop

variable {m : RegionModel} {k j : Nat} {stop : Instruction -> Bool} {r : Region}

theorem mem_nextInside_iff : j ∈ m.nextInside k <-> m.LeadsInside k j := by
  unfold nextInside LeadsInside
  rw [List.mem_filter]
  simp [Function.Leads]

theorem nextInside_closed (hf : m.function.WellFormed) :
    forall x y, y ∈ m.nextInside x -> y ∈ m.function.slots := by
  intro x y hy
  exact List.mem_range.mpr (Function.leads_lt hf (mem_nextInside_iff.mp hy).left).right

theorem use_mem_pointsOf_iff : 2 * j ∈ pointsOf k <-> j = k := by
  rw [Span.mem_iff]
  unfold pointsOf
  dsimp only
  omega

theorem def_mem_pointsOf_iff : 2 * j + 1 ∈ pointsOf k <-> j = k := by
  rw [Span.mem_iff]
  unfold pointsOf
  dsimp only
  omega

/-!
# Points after a slot
-/

theorem mem_reachedAfter_iff (hf : m.function.WellFormed) :
    j ∈ Search.sweep m.nextInside (m.nextInside k) m.function.slots <->
      exists met, met ≠ [] ∧ Path m.LeadsInside k met j := by
  have hstep : (fun x y => y ∈ m.nextInside x) = m.LeadsInside := by
    funext x y
    exact propext mem_nextInside_iff
  rw [Search.mem_sweep_iff_of_closed (nextInside_closed hf), hstep]
  constructor
  · intro h
    rcases h with ⟨x, hx, _, met, hpath⟩
    exact ⟨x :: met, by simp, Path.cons (mem_nextInside_iff.mp hx) hpath⟩
  · intro h
    rcases h with ⟨met, hne, hpath⟩
    cases hpath with
    | nil _ => exact absurd rfl hne
    | cons hfirst htail =>
        have hmem := mem_nextInside_iff.mpr hfirst
        exact ⟨_, hmem, nextInside_closed hf _ _ hmem, _, htail⟩

theorem use_mem_pointsAfter_iff (hf : m.function.WellFormed) :
    2 * j ∈ m.pointsAfter k <-> exists met, met ≠ [] ∧ Path m.LeadsInside k met j := by
  unfold pointsAfter
  rw [IntervalSet.mem_ofSpans_iff, ← mem_reachedAfter_iff hf]
  constructor
  · intro h
    rcases h with ⟨q, hq, hmem⟩
    rcases List.mem_cons.mp hq with rfl | hq
    · exact absurd hmem Span.use_not_mem_def
    · rcases List.mem_map.mp hq with ⟨x, hx, rfl⟩
      exact use_mem_pointsOf_iff.mp hmem ▸ hx
  · intro h
    exact ⟨pointsOf j, List.mem_cons_of_mem _ (List.mem_map.mpr ⟨j, h, rfl⟩),
      use_mem_pointsOf_iff.mpr rfl⟩

theorem def_mem_pointsAfter_iff (hf : m.function.WellFormed) :
    2 * j + 1 ∈ m.pointsAfter k <-> exists met, Path m.LeadsInside k met j := by
  unfold pointsAfter
  rw [IntervalSet.mem_ofSpans_iff]
  constructor
  · intro h
    rcases h with ⟨q, hq, hmem⟩
    rcases List.mem_cons.mp hq with rfl | hq
    · exact ⟨[], Span.def_mem_def_iff.mp hmem ▸ Path.nil j⟩
    · rcases List.mem_map.mp hq with ⟨x, hx, rfl⟩
      rcases (mem_reachedAfter_iff hf).mp hx with ⟨met, _, hpath⟩
      exact ⟨met, def_mem_pointsOf_iff.mp hmem ▸ hpath⟩
  · intro h
    rcases h with ⟨met, hpath⟩
    by_cases hne : met = []
    · subst hne
      cases hpath
      exact ⟨_, List.mem_cons_self, Span.def_mem_def_iff.mpr rfl⟩
    · have hreached := (mem_reachedAfter_iff hf).mpr ⟨met, hne, hpath⟩
      exact ⟨pointsOf j, List.mem_cons_of_mem _ (List.mem_map.mpr ⟨j, hreached, rfl⟩),
        def_mem_pointsOf_iff.mpr rfl⟩

theorem canonical_pointsAfter (m : RegionModel) (k : Nat) : (m.pointsAfter k).Canonical :=
  IntervalSet.canonical_ofSpans _

theorem owns_point_after_iff (hf : m.function.WellFormed) :
    (2 * j ∈ m.pointsAfter k ∨ 2 * j + 1 ∈ m.pointsAfter k) <->
      exists met, Path m.LeadsInside k met j := by
  rw [use_mem_pointsAfter_iff hf, def_mem_pointsAfter_iff hf]
  constructor
  · intro h
    rcases h with ⟨met, _, hpath⟩ | hpath
    · exact ⟨met, hpath⟩
    · exact hpath
  · exact Or.inr

/-!
# Points up to a stop
-/

/-- A path from the entry of a region that goes on only from slots at which the walk does not
stop. -/
def Walks (m : RegionModel) (stop : Instruction -> Bool) (r : Region) (j : Nat) : Prop :=
  exists met, Path m.LeadsInside r.slot met j ∧
    forall x, x ∈ (r.slot :: met).dropLast -> ¬ m.stopsAt stop x = true

theorem slot_lt_of_mem_regions (hr : r ∈ m.regions) : r.slot < m.function.size := by
  rcases mem_regions_iff.mp hr with ⟨n, k, inst, _, hinst, rfl⟩
  exact (List.getElem?_eq_some_iff.mp hinst).1

theorem mem_walk_iff (hf : m.function.WellFormed) (hr : r ∈ m.regions) :
    j ∈ Search.sweep (fun k => if m.stopsAt stop k then [] else m.nextInside k) [r.slot]
        m.function.slots <->
      m.Walks stop r j := by
  have hstep : (fun x y => y ∈ if m.stopsAt stop x then [] else m.nextInside x) =
      fun x y => ¬ m.stopsAt stop x = true ∧ m.LeadsInside x y := by
    funext x y
    by_cases hx : m.stopsAt stop x = true
    · simp [hx]
    · simp [hx, mem_nextInside_iff]
  have hclosed : forall x y, (y ∈ if m.stopsAt stop x then [] else m.nextInside x) ->
      y ∈ m.function.slots := by
    intro x y hy
    have hlead := congrFun (congrFun hstep x) y ▸ hy
    exact nextInside_closed hf x y (mem_nextInside_iff.mpr hlead.right)
  rw [Search.mem_sweep_iff_of_closed hclosed, hstep]
  constructor
  · intro h
    rcases h with ⟨x, hx, _, met, hpath⟩
    rw [List.mem_singleton] at hx
    subst hx
    exact ⟨met, path_avoiding_iff.mp hpath⟩
  · intro h
    rcases h with ⟨met, hpath⟩
    exact ⟨r.slot, List.mem_singleton_self _, List.mem_range.mpr (slot_lt_of_mem_regions hr), met,
      path_avoiding_iff.mpr hpath⟩

theorem use_mem_pointsUntil_iff (hf : m.function.WellFormed) (hr : r ∈ m.regions) :
    2 * j ∈ m.pointsUntil r stop <-> m.Walks stop r j := by
  rw [← mem_walk_iff hf hr]
  unfold pointsUntil
  rw [IntervalSet.mem_ofSpans_iff]
  constructor
  · intro h
    rcases h with ⟨q, hq, hmem⟩
    rcases List.mem_map.mp hq with ⟨x, hx, rfl⟩
    have hsame : j = x := by
      split at hmem
      · exact Span.use_mem_use_iff.mp hmem
      · exact use_mem_pointsOf_iff.mp hmem
    exact hsame ▸ hx
  · intro h
    refine ⟨_, List.mem_map.mpr ⟨j, h, rfl⟩, ?_⟩
    split
    · exact Span.use_mem_use_iff.mpr rfl
    · exact use_mem_pointsOf_iff.mpr rfl

theorem def_mem_pointsUntil_iff (hf : m.function.WellFormed) (hr : r ∈ m.regions) :
    2 * j + 1 ∈ m.pointsUntil r stop <-> m.Walks stop r j ∧ ¬ m.stopsAt stop j = true := by
  rw [← mem_walk_iff hf hr]
  unfold pointsUntil
  rw [IntervalSet.mem_ofSpans_iff]
  constructor
  · intro h
    rcases h with ⟨q, hq, hmem⟩
    rcases List.mem_map.mp hq with ⟨x, hx, rfl⟩
    split at hmem
    · exact absurd hmem Span.def_not_mem_use
    · rename_i hstop
      have hsame := def_mem_pointsOf_iff.mp hmem
      subst hsame
      exact ⟨hx, hstop⟩
  · intro h
    refine ⟨_, List.mem_map.mpr ⟨j, h.left, rfl⟩, ?_⟩
    rw [if_neg]
    · exact def_mem_pointsOf_iff.mpr rfl
    · exact h.right

theorem canonical_pointsUntil (m : RegionModel) (r : Region) (stop : Instruction -> Bool) :
    (m.pointsUntil r stop).Canonical :=
  IntervalSet.canonical_ofSpans _

theorem stopsAt_of_layout {inst : Instruction}
    (h : m.function.layout[k]? = some inst) : m.stopsAt stop k = stop inst := by
  rw [stopsAt, h]
  rfl

theorem stopsAt_never : m.stopsAt (fun _ => false) k = false := by
  unfold stopsAt
  cases m.function.layout[k]? with
  | none => rfl
  | some inst => rfl

theorem mem_pointsIn_iff (hf : m.function.WellFormed) (hr : r ∈ m.regions) :
    (2 * j ∈ m.pointsIn r <-> exists met, Path m.LeadsInside r.slot met j) ∧
      (2 * j + 1 ∈ m.pointsIn r <-> exists met, Path m.LeadsInside r.slot met j) := by
  have hwalks : m.Walks (fun _ => false) r j <-> exists met, Path m.LeadsInside r.slot met j := by
    constructor
    · intro h
      rcases h with ⟨met, hpath, _⟩
      exact ⟨met, hpath⟩
    · intro h
      rcases h with ⟨met, hpath⟩
      exact ⟨met, hpath, fun x _ => by simp [stopsAt_never]⟩
  unfold pointsIn
  rw [use_mem_pointsUntil_iff hf hr, def_mem_pointsUntil_iff hf hr, hwalks, stopsAt_never]
  simp

theorem owns_point_in_iff (hf : m.function.WellFormed) (hr : r ∈ m.regions) :
    (2 * j ∈ m.pointsIn r ∨ 2 * j + 1 ∈ m.pointsIn r) <->
      exists met, Path m.LeadsInside r.slot met j := by
  rw [(mem_pointsIn_iff hf hr).left, (mem_pointsIn_iff hf hr).right, or_self]

/-!
# Paths inside a region by instructions and by slots
-/

variable {i j entry last : Instruction} {met : List Instruction}

theorem path_leadsInside (hf : m.function.WellFormed) (hpath : Path m.function.Passes i met j)
    (hinside : forall x, x ∈ met -> m.isEntry x.id = false) :
    Path m.LeadsInside (m.function.slotOf i) (met.map m.function.slotOf) (m.function.slotOf j) := by
  apply path_inside_iff.mpr
  constructor
  · exact Function.path_slots hf hpath
  · intro k hk
    rcases List.mem_map.mp hk with ⟨x, hx, rfl⟩
    have hplace := (Function.mem_layout_iff hf).mp (Function.path_mem_layout hf hpath x hx)
    intro hentry
    have htrue := (isEntry_iff hf hplace).mpr hentry
    rw [hinside x hx] at htrue
    cases htrue

theorem path_insts_inside (hf : m.function.WellFormed) {l : Nat} {slots : List Nat}
    (hi : m.function.layout[k]? = some i) (hslots : Path m.LeadsInside k slots l) :
    exists met j, m.function.layout[l]? = some j ∧ Path m.function.Passes i met j ∧
      (forall x, x ∈ met -> m.isEntry x.id = false) ∧ met.map m.function.slotOf = slots := by
  rcases path_inside_iff.mp hslots with ⟨hpath, hinside⟩
  rcases Function.path_insts hf hi hpath with ⟨met, j, hj, hpasses, rfl⟩
  refine ⟨met, j, hj, hpasses, ?_, rfl⟩
  intro x hx
  have hplace := (Function.mem_layout_iff hf).mp (Function.path_mem_layout hf hpasses x hx)
  apply Bool.eq_false_iff.mpr
  intro hstart
  exact hinside _ (List.mem_map_of_mem hx) ((isEntry_iff hf hplace).mp hstart)

theorem slotOf_entry (hf : m.function.WellFormed) (hpath : m.StaysIn r entry met last) :
    m.function.slotOf entry = r.slot := by
  rcases mem_regions_iff.mp hpath.isRegion with ⟨n, k, inst, _, hinst, rfl⟩
  have hplace := (Function.mem_layout_iff hf).mp hpath.isStart.left
  have hslot := Function.slot?_of_layout hf hplace
  have hid : entry.id = inst.id := hpath.isStart.right
  rw [hid, Function.slot?_of_layout hf hinst] at hslot
  exact (Option.some.inj hslot).symm

/-- The paths that stay in a region are the paths through its slots. -/
theorem exists_staysIn_iff (hf : m.function.WellFormed) (hr : r ∈ m.regions)
    (hlast : m.function.layout[k]? = some last) :
    (exists entry met, m.StaysIn r entry met last) <->
      exists met, Path m.LeadsInside r.slot met k := by
  constructor
  · intro h
    rcases h with ⟨entry, met, hstays⟩
    have hpath := path_leadsInside hf hstays.path hstays.inside
    rw [slotOf_entry hf hstays, ((Function.layout_iff hf).mp hlast).right] at hpath
    exact ⟨_, hpath⟩
  · intro h
    rcases h with ⟨slots, hslots⟩
    rcases mem_regions_iff.mp hr with ⟨n, l, entry, hentry, hplace, rfl⟩
    rcases path_insts_inside hf hplace hslots with ⟨met, found, hfound, hpasses, hinside, _⟩
    cases hlast.symm.trans hfound
    exact ⟨entry, met, hr, ⟨List.mem_of_getElem? hplace, rfl⟩, hpasses, hinside⟩

end RegionModel
end SafeRestart
