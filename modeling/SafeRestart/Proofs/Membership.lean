import SafeRestart.Proofs.Assembly
import SafeRestart.Proofs.Walk

/-!
# Which regions an instruction belongs to

An instruction belongs to a region when a path from the entry of the region leads to it that enters
no region on the way.  The walk back from the instruction and the walk forward from the entry follow
the same paths from their two ends, so they agree on every function, whatever its cycles.
-/

namespace SafeRestart
namespace RegionModel

variable {f : Function} {boundaries : BoundarySet} {m : RegionModel} {r q : Region}
  {i : Instruction} {j k : Nat} {met : List Nat}

/-!
# Walking back
-/

theorem mem_origins_iff (hf : m.function.WellFormed) (hk : k < m.function.size) :
    j ∈ m.origins k <-> exists met, Path m.LeadsInside j met k := by
  have hback : (fun x y => y ∈ if x ∈ m.entries then [] else m.function.prev x) =
      fun x y => ¬ x ∈ m.entries ∧ m.function.Leads y x := by
    funext x y
    by_cases hx : x ∈ m.entries
    · simp [hx]
    · simp [hx, Function.mem_prev_iff hf]
  have hclosed : forall x y, (y ∈ if x ∈ m.entries then [] else m.function.prev x) ->
      y ∈ m.function.slots := by
    intro x y hy
    have hstep := congrFun (congrFun hback x) y ▸ hy
    exact List.mem_range.mpr (Function.leads_lt hf hstep.right).left
  unfold origins
  rw [Search.mem_sweep_iff_of_closed hclosed, hback]
  constructor
  · intro h
    rcases h with ⟨start, hstart, _, back, hpath⟩
    rw [List.mem_singleton] at hstart
    subst hstart
    rcases path_avoiding_iff.mp hpath with ⟨hplain, hfree⟩
    rcases path_reverse hplain with ⟨met, hforward, hrev⟩
    refine ⟨met, path_inside_iff.mpr ⟨hforward, ?_⟩⟩
    intro x hx
    exact hfree x ((mem_dropLast_iff_of_reverse hrev).mpr hx)
  · intro h
    rcases h with ⟨met, hpath⟩
    rcases path_inside_iff.mp hpath with ⟨hplain, hfree⟩
    rcases path_reverse hplain with ⟨back, hback, hrev⟩
    have hrev' : j :: met = (k :: back).reverse := by rw [hrev, List.reverse_reverse]
    refine ⟨k, List.mem_singleton_self k, List.mem_range.mpr hk, back, ?_⟩
    refine path_avoiding_iff.mpr ⟨hback, ?_⟩
    intro x hx
    exact hfree x ((mem_dropLast_iff_of_reverse hrev').mp hx)

theorem mem_containing_iff (hf : m.function.WellFormed) (hi : m.function.layout[k]? = some i)
    {n : Nat} :
    n ∈ m.containing i.id <->
      exists q, q ∈ m.regions ∧ q.id = n ∧ exists met, Path m.LeadsInside q.slot met k := by
  have hk : k < m.function.size := (List.getElem?_eq_some_iff.mp hi).1
  unfold containing
  rw [Function.slot?_of_layout hf hi]
  simp only [List.mem_map, List.mem_filter, decide_eq_true_eq, mem_origins_iff hf hk]
  constructor
  · intro h
    rcases h with ⟨q, ⟨hq, hpath⟩, hid⟩
    exact ⟨q, hq, hid, hpath⟩
  · intro h
    rcases h with ⟨q, hq, hid, hpath⟩
    exact ⟨q, ⟨hq, hpath⟩, hid⟩

theorem eq_of_id_eq (hr : r ∈ m.regions) (hq : q ∈ m.regions) (h : q.id = r.id) : q = r := by
  rcases mem_regions_iff.mp hr with ⟨n, k, inst, hentry, hinst, rfl⟩
  rcases mem_regions_iff.mp hq with ⟨n', k', inst', hentry', hinst', rfl⟩
  cases h
  cases hentry.symm.trans hentry'
  cases hinst.symm.trans hinst'
  rfl

theorem id_mem_containing_iff (hf : m.function.WellFormed) (hr : r ∈ m.regions)
    (hi : m.function.layout[k]? = some i) :
    r.id ∈ m.containing i.id <-> exists met, Path m.LeadsInside r.slot met k := by
  rw [mem_containing_iff hf hi]
  constructor
  · intro h
    rcases h with ⟨q, hq, hid, hpath⟩
    exact eq_of_id_eq hr hq hid ▸ hpath
  · intro h
    exact ⟨r, hr, rfl, h⟩

/-!
# Every reachable instruction is in a region
-/

def Covered (m : RegionModel) (k : Nat) : Prop :=
  exists e, e ∈ m.entries ∧ exists met, Path m.LeadsInside e met k

theorem covered_of_leads (hcovered : m.Covered j) (hstep : m.function.Leads j k) : m.Covered k := by
  by_cases hk : k ∈ m.entries
  · exact ⟨k, hk, [], Path.nil k⟩
  · rcases hcovered with ⟨e, he, met, hpath⟩
    exact ⟨e, he, _, path_snoc hpath ⟨hstep, hk⟩⟩

theorem covered_of_path (hcovered : m.Covered j) (hpath : Path m.function.Leads j met k) :
    m.Covered k := by
  induction hpath with
  | nil _ => exact hcovered
  | cons hstep _ ih => exact ih (covered_of_leads hcovered hstep)

theorem exists_region_of_covered (hf : m.function.WellFormed) (hcovered : m.Covered k)
    (hi : m.function.layout[k]? = some i) :
    exists r, r ∈ m.regions ∧ r.id ∈ m.containing i.id := by
  rcases hcovered with ⟨e, he, met, hpath⟩
  have hlt : e < m.function.size := by
    cases hpath with
    | nil _ => exact (List.getElem?_eq_some_iff.mp hi).1
    | cons hstep _ => exact (Function.leads_lt hf hstep.left).left
  rcases List.mem_iff_getElem?.mp he with ⟨n, hn⟩
  have hr : ⟨n, e, m.function.layout[e].id, m.function.layout[e].block⟩ ∈ m.regions :=
    mem_regions_iff.mpr ⟨n, e, _, hn, List.getElem?_eq_getElem hlt, rfl⟩
  exact ⟨_, hr, (id_mem_containing_iff hf hr hi).mpr ⟨met, hpath⟩⟩

/-!
# An entry is in its own region only
-/

theorem nodup_entries_ofBoundaries : (ofBoundaries f boundaries).entries.Nodup :=
  (Ascending.pairwise_ofList _).imp fun hlt => Nat.ne_of_lt hlt

theorem eq_of_slot_eq (hentries : m.entries.Nodup) (hr : r ∈ m.regions) (hq : q ∈ m.regions)
    (h : q.slot = r.slot) : q = r := by
  apply eq_of_id_eq hr hq
  rcases mem_regions_iff.mp hr with ⟨n, k, inst, hentry, hinst, rfl⟩
  rcases mem_regions_iff.mp hq with ⟨n', k', inst', hentry', hinst', rfl⟩
  cases h
  rcases List.getElem?_eq_some_iff.mp hentry with ⟨hn, hvalue⟩
  rcases List.getElem?_eq_some_iff.mp hentry' with ⟨hn', hvalue'⟩
  exact (List.Nodup.getElem_inj_iff hentries).mp (hvalue'.trans hvalue.symm)

theorem entry_of_mem_regions (hr : r ∈ m.regions) :
    r.slot ∈ m.entries ∧
      exists inst, m.function.layout[r.slot]? = some inst ∧ inst.id = r.entry := by
  rcases mem_regions_iff.mp hr with ⟨n, k, inst, hentry, hinst, rfl⟩
  exact ⟨List.mem_of_getElem? hentry, inst, hinst, rfl⟩

theorem eq_of_path_to_entry (hk : k ∈ m.entries) (hpath : Path m.LeadsInside j met k) : j = k := by
  rcases path_end hpath with ⟨_, hsame⟩ | ⟨before, rfl⟩
  · exact hsame
  · exact absurd hk ((path_inside_iff.mp hpath).right k (by simp))

theorem mem_containing_entry_iff (hf : m.function.WellFormed) (hentries : m.entries.Nodup)
    (hr : r ∈ m.regions) {n : Nat} : n ∈ m.containing r.entry <-> n = r.id := by
  rcases entry_of_mem_regions hr with ⟨hslot, inst, hinst, hid⟩
  rw [← hid, mem_containing_iff hf hinst]
  constructor
  · intro h
    rcases h with ⟨q, hq, rfl, met, hpath⟩
    rw [eq_of_slot_eq hentries hr hq (eq_of_path_to_entry hslot hpath)]
  · intro h
    exact ⟨r, hr, h.symm, [], Path.nil r.slot⟩

/-!
# Forward and backward membership
-/

/-- A path from the entry of the region leads to the instruction and enters no region on the way. -/
def Spans (m : RegionModel) (r : Region) (i : Instruction) : Prop :=
  exists entry met, m.StaysIn r entry met i

theorem exists_first (hf : f.WellFormed) :
    exists first, (f.blockInsts f.entry).head? = some first ∧ f.layout[0]? = some first := by
  rcases Function.exists_inst_at (hf.occupied 0 hf.inhabited) with ⟨first, hfirst⟩
  refine ⟨first, ?_, ?_⟩
  · rw [List.head?_eq_getElem?]
    exact hfirst
  · have hplace := Function.layout_at (hf.occupied 0 hf.inhabited)
    rw [Function.blockStart_zero] at hplace
    exact hplace.trans hfirst

theorem zero_mem_entries_ofBoundaries {first : Instruction} (hfirst : f.layout[0]? = some first) :
    0 ∈ (ofBoundaries f boundaries).entries := by
  apply mem_entries_ofBoundaries.mpr
  exact Or.inl ⟨List.ne_nil_of_mem (List.mem_of_getElem? hfirst), rfl⟩

/-!
A loop that reads a register, computes a second one in a region of its own, and then the first one
anew.  The read is reached from the start of the function and around the loop.
-/

def pollSteps : List Step :=
  [.declare .virtualRegister "v" {}, .declare .virtualRegister "w" {}, .openBlock "start",
    .openBlock "loop", .select 0, .emit (.arith "init" [0] []), .select 1,
    .emit (.arith "test" [] [0]), .emit (.arith "step" [1] [0]), .emit (.arith "next" [0] [1]),
    .connect 0 1, .connect 1 1]

def pollTest : Instruction :=
  { Operation.arith "test" [] [0] with id := 1, block := 1, position := 0 }

def pollNext : Instruction :=
  { Operation.arith "next" [0] [1] with id := 3, block := 1, position := 2 }

def poll : Function :=
  ⟨"poll", [⟨.virtualRegister, "v", {}⟩, ⟨.virtualRegister, "w", {}⟩],
    ⟨[⟨"start", [{ Operation.arith "init" [0] [] with id := 0, block := 0, position := 0 }]⟩,
      ⟨"loop",
        [pollTest, { Operation.arith "step" [1] [0] with id := 2, block := 1, position := 1 },
          pollNext]⟩],
      [(0, 1), (1, 1)]⟩⟩

end RegionModel
end SafeRestart
