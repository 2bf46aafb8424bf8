import SafeRestart.Proofs.Assembly
import SafeRestart.Proofs.Conversation

/-!
# Registers that can be merged

Two registers that are never live together and that may be merged do not disturb each other on any
path inside a region: once one of them has been read, a write of the other is a call, has no effect,
or copies the register that was read.
-/

namespace SafeRestart

/-- Regions start at the boundaries, live ranges are computed, no instruction is ignored. -/
def Setting.ofFunction (f : Function) (boundaries : BoundarySet) (config : Config) : Setting :=
  ⟨.ofBoundaries f boundaries, f.liveRanges, config, fun _ => false⟩

namespace Setting

variable {σ : Setting} {shadow : Shadow} {inst : Instruction} {a b k : Nat}

theorem clobberedByDefs_false_iff :
    σ.clobberedByDefs shadow b = false <->
      forall k inst, σ.function.layout[k]? = some inst -> inst.defines b = true ->
        σ.clobbers shadow k inst = false := by
  unfold clobberedByDefs
  rw [List.any_eq_false]
  constructor
  · intro h k inst hinst hdef
    have hplaced := h (inst, k) (List.mem_zipIdx_iff_getElem?.mpr hinst)
    simpa [hdef] using hplaced
  · intro h placed hplaced
    have hinst := List.mem_zipIdx_iff_getElem?.mp hplaced
    simpa using h placed.2 placed.1 hinst

theorem copies_or_harmless (hclobbers : σ.clobbers shadow k inst = false)
    (hdef : inst.defines b = true) (hcovers : shadow.covers (2 * k + 1) = true) :
    inst.copySource = some shadow.storage ∨ σ.harmless inst = true := by
  have hdefs : inst.defs.isEmpty = false := by
    have hmem : b ∈ inst.defs := List.contains_iff_mem.mp hdef
    simpa using List.ne_nil_of_mem hmem
  unfold harmless
  cases hcopy : inst.copySource != some shadow.storage with
  | false => exact Or.inl (by simpa using hcopy)
  | true =>
      unfold clobbers at hclobbers
      rw [hcopy, hdefs, hcovers] at hclobbers
      apply Or.inr
      cases hcall : inst.flags.call with
      | true => simp
      | false => simpa [hcall] using hclobbers

/-!
# Writes after a stem
-/

section Computed

variable {f : Function} {boundaries : BoundarySet} {config : Config} {r : Region} {stem : Nat}

theorem exists_interval (ha : a < f.storage.length) (hlive : k ∈ f.livePoints a) :
    exists interval, f.liveRanges.interval a = some interval ∧
      interval.ranges = f.livePoints a := by
  have hat := (Function.liveAt_liveRanges_iff ha).mpr hlive
  rcases (Option.any_eq_true _ _).mp hat with ⟨interval, hinterval, _⟩
  exact ⟨interval, hinterval, Function.interval_liveRanges hinterval⟩

theorem copies_or_harmless_of_separate (hf : f.WellFormed)
    (hsep : (ofFunction f boundaries config).Separate a b) (hb : b < f.storage.length)
    (hapart : forall p, ¬ (f.liveRanges.liveAt a p = true ∧ f.liveRanges.liveAt b p = true))
    (hr : r ∈ (RegionModel.ofBoundaries f boundaries).regions) (hlive : f.LiveBefore a r.slot)
    (hstem : forall location, f.storage? a = some location ->
      stem ∈ (ofFunction f boundaries config).stems r a location)
    (hpath : exists met, Path (RegionModel.ofBoundaries f boundaries).LeadsInside stem met k)
    (hinst : f.layout[k]? = some inst) (hdef : inst.defines b = true) :
    inst.copySource = some a ∨ (ofFunction f boundaries config).harmless inst = true := by
  rcases hsep.shadow with ⟨shadow, hshadow, hfree⟩
  have hentry : r.point ∈ f.livePoints a := (Function.mem_livePoints_use hf).mpr hlive
  rcases exists_interval hsep.declared hentry with ⟨interval, hinterval, hranges⟩
  have hcanonical : interval.ranges.Canonical := hranges ▸ Function.canonical_livePoints f a
  rcases computeShadow_points hinterval hcanonical hshadow with
    ⟨hstorage, hshape, location, hlocation, hpoints⟩
  -- The write makes `b` live at its def point, so `a` is not live there.
  have hdefinesAt : f.definesAt b k = true :=
    (Option.any_eq_true _ _).mpr ⟨inst, hinst, hdef⟩
  have hliveB : f.liveRanges.liveAt b (2 * k + 1) = true :=
    (Function.liveAt_liveRanges_iff hb).mpr ((Function.mem_livePoints_def hf).mpr
      (Or.inl hdefinesAt))
  have hdead : 2 * k + 1 ∉ interval.ranges := by
    rw [hranges]
    intro hmem
    exact hapart _ ⟨(Function.liveAt_liveRanges_iff hsep.declared).mpr hmem, hliveB⟩
  have hmem : 2 * k + 1 ∈ shadow.ranges := by
    apply (hpoints _).mpr
    refine ⟨r, hr, hranges ▸ hentry, stem, hstem location hlocation, ?_, hdead⟩
    exact (RegionModel.def_mem_pointsAfter_iff hf).mpr hpath
  have hcovers : shadow.covers (2 * k + 1) = true := (IntervalSet.contains_iff hshape).mpr hmem
  rw [← hstorage]
  exact copies_or_harmless (clobberedByDefs_false_iff.mp hfree k inst hinst hdef) hdef hcovers

end Computed
end Setting

/-!
# Reads followed by writes
-/

namespace RegionModel

/-- A path from the entry of a region to a read of `a` with no write of `a` before it, and from
there to a write of `b`. -/
structure ReadThenWritten (m : RegionModel) (r : Region) (a b : Nat) (entry : Instruction)
    (before : List Instruction) (u : Instruction) (after : List Instruction) (d : Instruction) :
    Prop where
  toRead : m.StaysIn r entry before u
  reads : u.reads a = true
  readCounts : u.flags.kill = false ∧ u.isIdentityCopy = false
  unwritten : forall x, x ∈ (entry :: before).dropLast -> x.defines a = false
  toWrite : Path m.function.Passes u after d
  inside : forall x, x ∈ after -> m.isEntry x.id = false
  writes : d.defines b = true
  writeCounts : d.flags.call = false ∧ d.flags.kill = false ∧ d.isIdentityCopy = false
  notCopy : d.copySource ≠ some a

end RegionModel

namespace Setting

variable {f : Function} {boundaries : BoundarySet} {config : Config} {a b : Nat} {r : Region}
  {entry u d : Instruction} {before after : List Instruction}

theorem slots_unwritten (hf : f.WellFormed) (hstart : entry ∈ f.layout)
    (hpath : Path f.Passes entry before u)
    (hfree : forall x, x ∈ (entry :: before).dropLast -> x.defines a = false) :
    forall k, k ∈ (f.slotOf entry :: before.map f.slotOf).dropLast -> f.definesAt a k = false := by
  intro k hk
  rw [← List.map_cons, ← List.map_dropLast] at hk
  rcases List.mem_map.mp hk with ⟨x, hx, rfl⟩
  have hlayout : x ∈ f.layout := by
    rcases List.mem_cons.mp ((List.dropLast_sublist _).subset hx) with rfl | hmem
    · exact hstart
    · exact Function.path_mem_layout hf hpath x hmem
  unfold Function.definesAt
  rw [(Function.mem_layout_iff hf).mp hlayout]
  exact hfree x hx

theorem exists_stem_before (hf : f.WellFormed)
    (hregister : forall location, f.storage? a = some location -> location.isStackSlot = false)
    (h : (RegionModel.ofBoundaries f boundaries).ReadThenWritten r a b entry before u after d) :
    exists stem, (forall location, f.storage? a = some location ->
        stem ∈ (ofFunction f boundaries config).stems r a location) ∧
      exists met, Path (RegionModel.ofBoundaries f boundaries).LeadsInside stem met
        (f.slotOf d) := by
  have hslot := RegionModel.slotOf_entry hf h.toRead
  have hread := RegionModel.path_leadsInside hf h.toRead.path h.toRead.inside
  have hwrite := RegionModel.path_leadsInside hf h.toWrite h.inside
  rw [hslot] at hread
  unfold stems
  cases hpolicy : config.policy with
  | anyPath =>
      refine ⟨r.slot, ?_, _, path_append hread hwrite⟩
      intro location _
      simp [ofFunction, hpolicy]
  | samePath =>
      refine ⟨f.slotOf u, ?_, _, hwrite⟩
      intro location hlocation
      have hstack := hregister location hlocation
      have hu := Function.path_end_mem_layout hf h.toRead.isStart.left h.toRead.path
      have hplace := (Function.mem_layout_iff hf).mp hu
      have hpresent : (ofFunction f boundaries config).absent u = false := by
        simp [absent, ofFunction, h.readCounts]
      have hunwritten := slots_unwritten hf h.toRead.isStart.left h.toRead.path h.unwritten
      have hslots : f.slotOf u ∈ (ofFunction f boundaries config).readSlots r a := by
        have hwell : (ofFunction f boundaries config).function.WellFormed := hf
        apply (mem_readSlots_iff hwell h.toRead.isRegion).mpr
        refine ⟨⟨u, hplace, h.reads, hpresent⟩, _, hread, ?_⟩
        intro k hk hstop
        rcases (Option.any_eq_true _ _).mp hstop with ⟨inst, hinst, hwrites⟩
        have hdefines : f.definesAt a k = true :=
          (Option.any_eq_true _ _).mpr ⟨inst, hinst, (Bool.and_eq_true_iff.mp hwrites).right⟩
        have hfree := hunwritten k (hslot ▸ hk)
        rw [hdefines] at hfree
        cases hfree
      simpa [ofFunction, hpolicy, hstack] using hslots

theorem not_readThenWritten (hf : f.WellFormed)
    (hsep : (ofFunction f boundaries config).Separate a b) (hb : b < f.storage.length)
    (hapart : forall p, ¬ (f.liveRanges.liveAt a p = true ∧ f.liveRanges.liveAt b p = true)) :
    ¬ (RegionModel.ofBoundaries f boundaries).ReadThenWritten r a b entry before u after d := by
  intro h
  have hslot := RegionModel.slotOf_entry hf h.toRead
  have humem := Function.path_end_mem_layout hf h.toRead.isStart.left h.toRead.path
  have hu := (Function.mem_layout_iff hf).mp humem
  have hlive : f.LiveBefore a r.slot := by
    refine ⟨_, f.slotOf u, hslot ▸ Function.path_slots hf h.toRead.path,
      (Option.any_eq_true _ _).mpr ⟨u, hu, h.reads⟩, ?_⟩
    intro k hk
    have hfree := slots_unwritten hf h.toRead.isStart.left h.toRead.path h.unwritten k (hslot ▸ hk)
    simp [hfree]
  rcases exists_stem_before hf hsep.isRegister h with ⟨stem, hstem, hpath⟩
  have hdmem := Function.path_end_mem_layout hf humem h.toWrite
  have hd := (Function.mem_layout_iff hf).mp hdmem
  rcases copies_or_harmless_of_separate hf hsep hb hapart h.toRead.isRegion hlive hstem hpath hd
    h.writes with hcopy | hharmless
  · exact h.notCopy hcopy
  · simp [harmless, absent, ofFunction, h.writeCounts] at hharmless

theorem merging_sound_on_paths {name : String} {steps : List Step} {requests : List Request}
    (hfinished : Function.assemble name steps = .ok f)
    (hapart : forall p, ¬ (f.liveRanges.liveAt a p = true ∧ f.liveRanges.liveAt b p = true))
    (hsafe : ((ofFunction f boundaries config).respond
      ((ofFunction f boundaries config).keptAfter requests) (.registersMergeable a b)).1 =
        .ok (.verdict true)) :
    forall r entry before u after d,
      ¬ (RegionModel.ofBoundaries f boundaries).ReadThenWritten r a b entry before u after d ∧
        ¬ (RegionModel.ofBoundaries f boundaries).ReadThenWritten r b a entry before u after d := by
  intro r entry before u after d
  have hf := Function.wellFormed_of_assemble hfinished
  rcases separate_of_respond hsafe with ⟨hab, hba⟩
  constructor
  · exact not_readThenWritten hf hab hba.declared hapart
  · exact not_readThenWritten hf hba hab.declared fun p hp => hapart p ⟨hp.right, hp.left⟩

/-!
A loop that reads a register, hands its value on to a second one, reads that one and computes the
first anew in a region of its own.
-/

def relaySteps : List Step :=
  [.declare .virtualRegister "v" {}, .declare .virtualRegister "w" {}, .openBlock "loop",
    .select 0, .emit (.arith "use" [] [0]), .emit (.copy 1 0), .emit (.arith "use" [] [1]),
    .emit (.arith "next" [0] []), .connect 0 0]

def relay : Function :=
  ⟨"relay", [⟨.virtualRegister, "v", {}⟩, ⟨.virtualRegister, "w", {}⟩],
    ⟨[⟨"loop",
      [{ Operation.arith "use" [] [0] with id := 0, block := 0, position := 0 },
        { Operation.copy 1 0 with id := 1, block := 0, position := 1 },
        { Operation.arith "use" [] [1] with id := 2, block := 0, position := 2 },
        { Operation.arith "next" [0] [] with id := 3, block := 0, position := 3 }]⟩],
      [(0, 0)]⟩⟩

theorem relay_apart (p : Nat) :
    ¬ (relay.liveRanges.liveAt 0 p = true ∧ relay.liveRanges.liveAt 1 p = true) := by
  have hfirst : relay.livePoints 0 = ⟨[⟨0, 3⟩, ⟨7, 8⟩]⟩ := by decide +kernel
  have hsecond : relay.livePoints 1 = ⟨[⟨3, 5⟩]⟩ := by decide +kernel
  intro h
  have hv := (Function.liveAt_liveRanges_iff (by decide)).mp h.left
  have hw := (Function.liveAt_liveRanges_iff (by decide)).mp h.right
  rw [hfirst, IntervalSet.mem_iff] at hv
  rw [hsecond, IntervalSet.mem_iff] at hw
  simp only [List.mem_cons, List.not_mem_nil, or_false, exists_eq_or_imp, exists_eq_left,
    Span.mem_iff] at hv hw
  omega

theorem relay_paths_sound :
    Function.assemble "relay" relaySteps = .ok relay ∧
      ((ofFunction relay (.ofList [3]) .standard).respond
        ((ofFunction relay (.ofList [3]) .standard).keptAfter [.shadow 1, .forget 0])
        (.registersMergeable 0 1)).1 = .ok (.verdict true) ∧
      forall r entry before u after d,
        ¬ (RegionModel.ofBoundaries relay (.ofList [3])).ReadThenWritten r 0 1 entry before u after
          d ∧
        ¬ (RegionModel.ofBoundaries relay (.ofList [3])).ReadThenWritten r 1 0 entry before u after
          d := by
  have hfinished : Function.assemble "relay" relaySteps = .ok relay := rfl
  have hsafe : ((ofFunction relay (.ofList [3]) .standard).respond
      ((ofFunction relay (.ofList [3]) .standard).keptAfter [.shadow 1, .forget 0])
      (.registersMergeable 0 1)).1 = .ok (.verdict true) := by
    decide +kernel
  exact ⟨hfinished, hsafe, merging_sound_on_paths hfinished relay_apart hsafe⟩

end Setting
end SafeRestart
