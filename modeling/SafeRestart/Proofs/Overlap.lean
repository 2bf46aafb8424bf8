import SafeRestart.Proofs.LiveRanges
import SafeRestart.Proofs.Merging
import SafeRestart.Proofs.PointSet

/-!
# Overlaps and clobbers

A location overlaps a shadow when it is live at a point of the shadow.  The test goes through the
spans of the shadow in ascending order and looks, for each of them, at one live span only; since
both lists are in order, it misses nothing.  Computed live ranges hold the def point of every write,
so a location that clobbers a shadow also overlaps it.
-/

namespace SafeRestart

/-!
# Two ascending lists of spans
-/

namespace IntervalSet

/-- Whether one of the spans shares a point with the set.  For each span one look-up is made, and
the search is given up where nothing in the set ends behind the start of a span. -/
def meets (s : IntervalSet) : List Span -> Bool
  | [] => false
  | r :: rest =>
      match s.find r.start with
      | none => false
      | some found => if found.start < r.stop then true else s.meets rest

variable {s t : IntervalSet} {r : Span} {p q : Nat}

theorem find_none_mono (h : s.find p = none) (hle : p ≤ q) : s.find q = none := by
  rw [find_eq_none_iff] at h ⊢
  intro r hr
  exact Nat.le_trans (h r hr) hle

theorem overlaps_of_find_none (h : s.find r.start = none) : s.overlaps r = false := by
  rw [overlaps, h]
  exact Bool.and_false _

/-- Giving up early is right: the spans that follow start even later. -/
theorem meets_eq_any {spans : List Span} (hspans : Canonical ⟨spans⟩) :
    s.meets spans = spans.any s.overlaps := by
  induction spans with
  | nil => rfl
  | cons r rest ih =>
      have hoccupied := hspans.occupied r List.mem_cons_self
      rw [meets, List.any_cons]
      cases hfind : s.find r.start with
      | none =>
          have hrest : rest.any s.overlaps = false := by
            rw [List.any_eq_false]
            intro q hq
            have hgap := (List.pairwise_cons.mp hspans.apart).left q hq
            rw [overlaps_of_find_none (find_none_mono hfind (by omega))]
            exact Bool.false_ne_true
          rw [overlaps_of_find_none hfind, hrest]
          rfl
      | some found =>
          have hfound : s.overlaps r = decide (found.start < r.stop) := by
            simp [overlaps, hfind, hoccupied]
          dsimp only
          rw [hfound, ih (canonical_tail hspans)]
          by_cases hstart : found.start < r.stop
          · simp [hstart]
          · simp [hstart]

theorem any_overlaps_iff (hs : s.Canonical) :
    t.spans.any s.overlaps = true <-> exists p, p ∈ t ∧ p ∈ s := by
  simp only [List.any_eq_true, overlaps_iff hs]
  constructor
  · intro h
    rcases h with ⟨r, hr, p, hpr, hps⟩
    exact ⟨p, ⟨r, hr, hpr⟩, hps⟩
  · intro h
    rcases h with ⟨p, ⟨r, hr, hpr⟩, hps⟩
    exact ⟨r, hr, p, hpr, hps⟩

end IntervalSet

namespace Setting

variable {σ : Setting} {shadow : Shadow} {cache : ShadowCache} {s other : Nat}

/-!
# The overlap test
-/

def scanOverlap (σ : Setting) (shadow : Shadow) (other : Nat) : Bool :=
  match σ.live.interval other with
  | none => false
  | some live => live.ranges.meets shadow.ranges.spans

theorem scanOverlap_eq (hshadow : shadow.ranges.Canonical) :
    σ.scanOverlap shadow other = σ.overlappedBy shadow other := by
  unfold scanOverlap overlappedBy
  cases σ.live.interval other with
  | none => rfl
  | some live => exact IntervalSet.meets_eq_any hshadow

theorem overlappedBy_iff
    (hlive : forall interval, σ.live.interval other = some interval -> interval.ranges.Canonical) :
    σ.overlappedBy shadow other = true <->
      exists p, p ∈ shadow.ranges ∧ σ.live.liveAt other p = true := by
  unfold overlappedBy LiveRanges.liveAt
  cases hinterval : σ.live.interval other with
  | none => simp
  | some live =>
      have hcanonical := hlive live hinterval
      simp only [Option.any_some, LiveInterval.liveAt, IntervalSet.contains_iff hcanonical]
      exact IntervalSet.any_overlaps_iff hcanonical

theorem canonical_computeShadow
    (hlive : forall interval, σ.live.interval s = some interval -> interval.ranges.Canonical)
    (h : σ.computeShadow s = .ok shadow) : shadow.ranges.Canonical := by
  cases hinterval : σ.live.interval s with
  | none =>
      unfold computeShadow at h
      rcases bind_ok h with ⟨location, _, hanswer⟩
      rw [hinterval] at hanswer
      cases hanswer
      exact IntervalSet.canonical_empty
  | some interval =>
      exact (computeShadow_points hinterval (hlive interval hinterval) h).right.left

/-!
# The overlap test against the clobber test
-/

/-- A location is live where it is written, even if the value is never read. -/
theorem overlappedBy_of_clobberedByDefs (hf : σ.function.WellFormed)
    (hcomputed : σ.live = σ.function.liveRanges) (hother : other < σ.function.storage.length)
    (hshadow : shadow.ranges.Canonical) (h : σ.clobberedByDefs shadow other = true) :
    σ.overlappedBy shadow other = true := by
  rw [overlappedBy_iff]
  · rw [← Bool.not_eq_false, clobberedByDefs_false_iff] at h
    push Not at h
    rcases h with ⟨k, inst, hinst, hdefines, hclobbers⟩
    have hcovers : shadow.covers (2 * k + 1) = true := by
      rw [ne_eq, Bool.not_eq_false, clobbers, Bool.and_eq_true] at hclobbers
      exact hclobbers.right
    have hwritten : σ.function.definesAt other k = true :=
      (Function.definesAt_of_layout hinst).trans hdefines
    refine ⟨2 * k + 1, (IntervalSet.contains_iff hshadow).mp hcovers, ?_⟩
    rw [hcomputed, Function.liveAt_liveRanges_iff hother]
    exact (Function.mem_livePoints_def hf).mpr (Or.inl hwritten)
  · intro interval hinterval
    rw [hcomputed] at hinterval
    rw [Function.interval_liveRanges hinterval]
    exact Function.canonical_livePoints σ.function other

/-!
# The answers
-/

theorem location_ok_iff_lt :
    (exists location, σ.location s = .ok location) <-> s < σ.function.storage.length := by
  simp only [location_ok_iff, Function.storage?]
  constructor
  · intro h
    rcases h with ⟨location, hlocation⟩
    exact (List.getElem?_eq_some_iff.mp hlocation).1
  · intro h
    exact ⟨_, List.getElem?_eq_getElem h⟩

theorem declared_of_computeShadow (h : σ.computeShadow s = .ok shadow) :
    s < σ.function.storage.length := by
  unfold computeShadow at h
  rcases bind_ok h with ⟨location, hlocation, _⟩
  exact location_ok_iff_lt.mp ⟨location, hlocation⟩

theorem respond_test_iff {request : Request} {test : Shadow -> Bool} {verdict : Bool}
    (hcache : σ.Faithful cache)
    (hrequest : σ.outcome request = Answer.verdict <$> σ.testOutcome s other test) :
    (σ.respond cache request).1 = .ok (.verdict verdict) <->
      other < σ.function.storage.length ∧
        exists shadow, σ.computeShadow s = .ok shadow ∧ test shadow = verdict := by
  rw [respond_eq_outcome hcache, hrequest, ← location_ok_iff_lt, testOutcome]
  cases σ.location other with
  | error e => simp [bind, Except.bind, Functor.map, Except.map]
  | ok location =>
      cases σ.computeShadow s with
      | error e => simp [bind, Except.bind, Functor.map, Except.map]
      | ok shadow => simp [bind, Except.bind, Functor.map, Except.map, pure, Except.pure]

theorem respond_overlapped_iff (hcache : σ.Faithful cache) {verdict : Bool} :
    (σ.respond cache (.overlapped s other)).1 = .ok (.verdict verdict) <->
      other < σ.function.storage.length ∧
        exists shadow, σ.computeShadow s = .ok shadow ∧ σ.overlappedBy shadow other = verdict :=
  respond_test_iff hcache rfl

theorem respond_clobbered_iff (hcache : σ.Faithful cache) {verdict : Bool} :
    (σ.respond cache (.clobberedByInterval s other)).1 = .ok (.verdict verdict) <->
      other < σ.function.storage.length ∧
        exists shadow, σ.computeShadow s = .ok shadow ∧
          σ.clobberedByDefs shadow other = verdict :=
  respond_test_iff hcache rfl

theorem slotsVerdict_of_respond (hcache : σ.Faithful cache) {verdict : Bool}
    (h : (σ.respond cache (.slotsMergeable s other)).1 = .ok (.verdict verdict)) :
    σ.slotsVerdict s other = .ok verdict := by
  rw [respond_eq_outcome hcache, outcome, map_eq_pure_bind] at h
  rcases bind_ok h with ⟨found, hfound, hsame⟩
  cases hsame
  rcases bind_ok hfound with ⟨locationA, _, hkinds⟩
  split at hkinds
  · exact hkinds
  · rcases bind_ok hkinds with ⟨locationB, _, hkind⟩
    split at hkind
    · exact hkind
    · cases hkind

theorem slotsVerdict_true (h : σ.slotsVerdict s other = .ok true) :
    exists shadowA shadowB, σ.computeShadow s = .ok shadowA ∧ σ.computeShadow other = .ok shadowB ∧
      σ.overlappedBy shadowA other = false ∧ σ.overlappedBy shadowB s = false := by
  rcases bind_ok h with ⟨shadowA, hshadowA, hrest⟩
  rcases bind_ok hrest with ⟨shadowB, hshadowB, hfree⟩
  refine ⟨shadowA, shadowB, hshadowA, hshadowB, ?_⟩
  have hneither : (!(σ.overlappedBy shadowA other || σ.overlappedBy shadowB s)) = true :=
    Except.ok.inj hfree
  rwa [Bool.not_eq_true', Bool.or_eq_false_iff] at hneither

theorem overlap_test_exact {name : String} {steps : List Step}
    (hfinished : Function.assemble name steps = .ok σ.function)
    (hlive : forall s interval, σ.live.interval s = some interval -> interval.ranges.Canonical)
    (requests : List Request) (s other : Nat) :
    (forall verdict,
      (σ.respond (σ.keptAfter requests) (.overlapped s other)).1 = .ok (.verdict verdict) ->
        exists shadow,
          (σ.respond (σ.keptAfter requests) (.shadow s)).1 = .ok (.shadow shadow) ∧
          σ.scanOverlap shadow other = verdict ∧
          (verdict = true <-> exists p, p ∈ shadow.ranges ∧ σ.live.liveAt other p = true)) ∧
    (σ.live = σ.function.liveRanges ->
      ((σ.respond (σ.keptAfter requests) (.clobberedByInterval s other)).1 =
          .ok (.verdict true) ->
        (σ.respond (σ.keptAfter requests) (.overlapped s other)).1 = .ok (.verdict true)) ∧
      ((σ.respond (σ.keptAfter requests) (.slotsMergeable s other)).1 = .ok (.verdict true) ->
        (σ.respond (σ.keptAfter requests) (.clobberedByInterval s other)).1 =
            .ok (.verdict false) ∧
          (σ.respond (σ.keptAfter requests) (.clobberedByInterval other s)).1 =
            .ok (.verdict false))) := by
  have hf := Function.wellFormed_of_assemble hfinished
  have hcache := faithful_keptAfter σ requests
  simp only [respond_overlapped_iff hcache, respond_clobbered_iff hcache, respond_shadow hcache]
  refine ⟨?_, ?_⟩
  · intro verdict h
    rcases h with ⟨_, shadow, hshadow, rfl⟩
    refine ⟨shadow, ?_, scanOverlap_eq (canonical_computeShadow (hlive s) hshadow), ?_⟩
    · rw [hshadow]
      rfl
    · exact overlappedBy_iff (hlive other)
  · intro hcomputed
    -- What is not overlapped is not clobbered, for any two locations.
    have hclear : forall {a b : Nat} {shadow : Shadow}, σ.computeShadow a = .ok shadow ->
        b < σ.function.storage.length -> σ.overlappedBy shadow b = false ->
          σ.clobberedByDefs shadow b = false := by
      intro a b shadow hshadow hb hfree
      rw [← Bool.not_eq_true] at hfree ⊢
      exact fun hclobbered => hfree (overlappedBy_of_clobberedByDefs hf hcomputed hb
        (canonical_computeShadow (hlive a) hshadow) hclobbered)
    refine ⟨?_, ?_⟩
    · intro h
      rcases h with ⟨hother, shadow, hshadow, hclobbered⟩
      exact ⟨hother, shadow, hshadow, overlappedBy_of_clobberedByDefs hf hcomputed hother
        (canonical_computeShadow (hlive s) hshadow) hclobbered⟩
    · intro h
      rcases slotsVerdict_true (slotsVerdict_of_respond hcache h) with
        ⟨shadowA, shadowB, hshadowA, hshadowB, hfreeA, hfreeB⟩
      have hs := declared_of_computeShadow hshadowA
      have hother := declared_of_computeShadow hshadowB
      exact ⟨⟨hother, shadowA, hshadowA, hclear hshadowA hother hfreeA⟩,
        ⟨hs, shadowB, hshadowB, hclear hshadowB hs hfreeB⟩⟩

/-!
A loop that reads a register, fills and empties a slot and computes the register anew in a region of
its own.  A second slot is live where the first one is filled, but it is written behind the shadow.
-/

def depotSteps : List Step :=
  [.declare .virtualRegister "v" {}, .declare .stackSlot "t" {}, .declare .stackSlot "w" {},
    .openBlock "loop", .select 0, .emit (.arith "use" [] [0]), .emit (.arith "fill" [1] []),
    .emit (.arith "drain" [] [1, 2]), .emit (.arith "next" [0] []), .emit (.arith "save" [2] []),
    .connect 0 0]

def depot : Function :=
  ⟨"depot",
    [⟨.virtualRegister, "v", {}⟩, ⟨.stackSlot, "t", {}⟩, ⟨.stackSlot, "w", {}⟩],
    ⟨[⟨"loop",
      [{ Operation.arith "use" [] [0] with id := 0, block := 0, position := 0 },
        { Operation.arith "fill" [1] [] with id := 1, block := 0, position := 1 },
        { Operation.arith "drain" [] [1, 2] with id := 2, block := 0, position := 2 },
        { Operation.arith "next" [0] [] with id := 3, block := 0, position := 3 },
        { Operation.arith "save" [2] [] with id := 4, block := 0, position := 4 }]⟩],
      [(0, 0)]⟩⟩

def depotSetting : Setting := ofFunction depot (.ofList [3]) .standard

theorem canonical_depot_live (s : Nat) (interval : LiveInterval)
    (h : depotSetting.live.interval s = some interval) : interval.ranges.Canonical := by
  rw [Function.interval_liveRanges h]
  exact Function.canonical_livePoints depot s

theorem depot_overlaps :
    Function.assemble "depot" depotSteps = .ok depotSetting.function ∧
      (depotSetting.respond (depotSetting.keptAfter [.shadow 2]) (.shadow 0)).1 =
        .ok (.shadow ⟨0, "v", ⟨[⟨1, 6⟩]⟩⟩) ∧
      (depotSetting.respond (depotSetting.keptAfter [.shadow 2]) (.overlapped 0 1)).1 =
        .ok (.verdict true) ∧
      (depotSetting.respond (depotSetting.keptAfter [.shadow 2]) (.overlapped 0 2)).1 =
        .ok (.verdict true) ∧
      (depotSetting.respond (depotSetting.keptAfter [.shadow 2]) (.clobberedByInterval 0 2)).1 =
        .ok (.verdict false) ∧
      (exists p, p ∈ (⟨[⟨1, 6⟩]⟩ : IntervalSet) ∧ depotSetting.live.liveAt 2 p = true) ∧
      (depotSetting.respond (depotSetting.keptAfter [.shadow 2]) (.clobberedByInterval 1 2)).1 =
        .ok (.verdict false) := by
  have hfinished : Function.assemble "depot" depotSteps = .ok depotSetting.function := rfl
  have hshadow : (depotSetting.respond (depotSetting.keptAfter [.shadow 2]) (.shadow 0)).1 =
      .ok (.shadow ⟨0, "v", ⟨[⟨1, 6⟩]⟩⟩) := by
    decide +kernel
  have hlive : (depotSetting.respond (depotSetting.keptAfter [.shadow 2]) (.overlapped 0 2)).1 =
      .ok (.verdict true) := by
    decide +kernel
  have hfirst := overlap_test_exact hfinished canonical_depot_live [.shadow 2] 0 1
  have hsecond := overlap_test_exact hfinished canonical_depot_live [.shadow 2] 0 2
  have hslots := overlap_test_exact hfinished canonical_depot_live [.shadow 2] 1 2
  refine ⟨hfinished, hshadow, ?_, hlive, by decide +kernel, ?_, ?_⟩
  · exact (hfirst.right rfl).left (by decide +kernel)
  · rcases hsecond.left true hlive with ⟨shadow, hsame, _, hexact⟩
    rw [hshadow] at hsame
    cases hsame
    exact hexact.mp rfl
  · exact ((hslots.right rfl).right (by decide +kernel)).left

end Setting
end SafeRestart
