import SafeRestart.Proofs.AnalysisRun
import SafeRestart.Proofs.Conversation
import SafeRestart.Proofs.Guarded.Shadow
import SafeRestart.Proofs.OpenRanges

/-!
# Guarded requests

The questions about shadows with every look-up guarded, the one in the kept shadows included: a
shadow is first ensured and then looked up, and by then it is there.  With this no computation on a
finished function can fault, whatever identifiers it is asked about.
-/

namespace SafeRestart

variable {α β : Type}

/-!
# Questions and faults
-/

abbrev GuardedQuery := ExceptT Error (StateT ShadowCache (Except Fault))

namespace GuardedQuery

def ofGuarded (answer : Guarded α) : GuardedQuery α := ExceptT.mk (StateT.lift answer.run)

def ofLookUp (answer : Except Fault α) : GuardedQuery α := ofGuarded (Guarded.ofLookUp answer)

def kept (s : Nat) : GuardedQuery Shadow := do
  match (← get).get? s with
  | some shadow => return shadow
  | none => ofLookUp (.error .outOfBounds)

def Agrees (guarded : GuardedQuery α) (plain : Query α) : Prop :=
  forall cache, guarded.run.run cache = .ok (plain.run.run cache)

theorem run_bind (question : GuardedQuery α) (next : α -> GuardedQuery β) (cache : ShadowCache) :
    (question >>= next).run.run cache =
      (question.run.run cache >>= fun
        | (.ok x, kept) => (next x).run.run kept
        | (.error e, kept) => .ok (.error e, kept)) := by
  rw [ExceptT.run_bind, StateT.run_bind]
  refine congrArg (question.run.run cache >>= ·) (funext ?_)
  rintro ⟨answer, kept⟩
  cases answer with
  | error e => rfl
  | ok x => rfl

theorem agrees_pure (a : α) : Agrees (pure a) (pure a) := fun _ => rfl

theorem agrees_throw (e : Error) : Agrees (throw e : GuardedQuery α) (throw e) := fun _ => rfl

theorem agrees_modify (change : ShadowCache -> ShadowCache) :
    Agrees (modify change) (modify change) := fun _ => rfl

theorem agrees_bind {guarded : GuardedQuery α} {plain : Query α} {next : α -> GuardedQuery β}
    {plainNext : α -> Query β} (h : Agrees guarded plain)
    (hnext : forall a, Agrees (next a) (plainNext a)) :
    Agrees (guarded >>= next) (plain >>= plainNext) := by
  intro cache
  rw [run_bind, Query.run_bind, h cache, ok_bind]
  rcases plain.run.run cache with ⟨answer, kept⟩
  cases answer with
  | error e => rfl
  | ok a => exact hnext a kept

theorem agrees_map {guarded : GuardedQuery α} {plain : Query α} (g : α -> β)
    (h : Agrees guarded plain) : Agrees (g <$> guarded) (g <$> plain) := by
  rw [map_eq_pure_bind, map_eq_pure_bind]
  exact agrees_bind h fun a => agrees_pure (g a)

theorem agrees_ite {c : Prop} [Decidable c] {first second : GuardedQuery α}
    {plainFirst plainSecond : Query α} (hfirst : Agrees first plainFirst)
    (hsecond : Agrees second plainSecond) :
    Agrees (if c then first else second) (if c then plainFirst else plainSecond) := by
  split
  · exact hfirst
  · exact hsecond

theorem agrees_outcome {guarded : Guarded α} {outcome : Except Error α}
    (h : Guarded.Gives guarded outcome) : Agrees (ofGuarded guarded) (Query.ofExcept outcome) := by
  intro cache
  unfold Guarded.Gives at h
  unfold ofGuarded
  rw [h]
  rfl

theorem agrees_lookUp {answer : Except Fault α} {a : α} (h : answer = .ok a) :
    Agrees (ofLookUp answer) (pure a) := by
  intro cache
  rw [h]
  rfl

theorem kept_run {cache : ShadowCache} {s : Nat} {shadow : Shadow}
    (h : cache.get? s = some shadow) : (kept s).run.run cache = .ok (.ok shadow, cache) := by
  have hcurrent : (get : GuardedQuery ShadowCache).run.run cache = .ok (.ok cache, cache) := rfl
  unfold kept
  rw [run_bind, hcurrent, ok_bind]
  dsimp only
  rw [h]
  rfl

end GuardedQuery

open GuardedQuery

namespace Setting

/-!
# Ensured shadows
-/

def ensure (σ : Setting) (table : RegionTable) (s : Nat) : GuardedQuery Unit := do
  if !(← get).holds s then
    let shadow ← ofGuarded (σ.guardedComputeShadow table s)
    modify fun cache => (s, shadow) :: cache

variable {σ : Setting} {table : RegionTable} {s a b : Nat}

/-- Ensuring a shadow fails when asking for it fails.  Otherwise the shadow is kept from then on,
beside those that were kept before. -/
theorem ensure_cases (hσ : σ.Sound table) (s : Nat) (cache : ShadowCache) :
    (exists e, (σ.ensure table s).run.run cache = .ok (.error e, cache) ∧
      (σ.shadow s).run.run cache = (.error e, cache)) ∨
    (exists shadow kept, (σ.ensure table s).run.run cache = .ok (.ok (), kept) ∧
      (σ.shadow s).run.run cache = (.ok shadow, kept) ∧ kept.get? s = some shadow ∧
      forall t other, cache.get? t = some other -> kept.get? t = some other) := by
  have hcurrent : (get : Query ShadowCache).run.run cache = (.ok cache, cache) := rfl
  have hcurrent' : (get : GuardedQuery ShadowCache).run.run cache = .ok (.ok cache, cache) := rfl
  unfold ensure shadow ShadowCache.holds
  rw [run_bind, hcurrent', ok_bind, Query.run_bind, hcurrent]
  dsimp only
  cases hget : cache.get? s with
  | some shadow => exact Or.inr ⟨shadow, cache, rfl, rfl, hget, fun _ _ h => h⟩
  | none =>
      have hcompute := agrees_outcome (gives_computeShadow hσ s) cache
      rw [Option.isSome_none, Bool.not_false, if_pos rfl, run_bind, hcompute, ok_bind,
        Query.run_bind]
      cases σ.computeShadow s with
      | error e => exact Or.inl ⟨e, rfl, rfl⟩
      | ok shadow =>
          refine Or.inr ⟨shadow, (s, shadow) :: cache, rfl, rfl, ?_, ?_⟩
          · exact List.lookup_cons_self
          · intro t other ht
            have hne : t ≠ s := by
              rintro rfl
              cases hget.symm.trans ht
            unfold ShadowCache.get? at ht ⊢
            rw [List.lookup_cons, beq_eq_false_iff_ne.mpr hne]
            exact ht

theorem agrees_shadow (hσ : σ.Sound table) {next : Shadow -> GuardedQuery α}
    {plain : Shadow -> Query α} (h : forall shadow, Agrees (next shadow) (plain shadow)) :
    Agrees (do σ.ensure table s; next (← kept s)) (do plain (← σ.shadow s)) := by
  intro cache
  rw [run_bind, Query.run_bind]
  rcases ensure_cases hσ s cache with
    ⟨e, hensure, hshadow⟩ | ⟨shadow, cache', hensure, hshadow, hget, _⟩
  · rw [hensure, hshadow, ok_bind]
  · rw [hensure, hshadow, ok_bind]
    dsimp only
    rw [run_bind, kept_run hget, ok_bind]
    exact h shadow cache'

theorem agrees_shadows (hσ : σ.Sound table) {next : Shadow -> Shadow -> GuardedQuery α}
    {plain : Shadow -> Shadow -> Query α}
    (h : forall first second, Agrees (next first second) (plain first second)) :
    Agrees (do σ.ensure table a; σ.ensure table b; next (← kept a) (← kept b))
      (do plain (← σ.shadow a) (← σ.shadow b)) := by
  intro cache
  rw [run_bind, Query.run_bind]
  rcases ensure_cases hσ a cache with
    ⟨e, hensure, hshadow⟩ | ⟨first, cache', hensure, hshadow, hget, _⟩
  · rw [hensure, hshadow, ok_bind]
  · rw [hensure, hshadow, ok_bind]
    dsimp only
    rw [run_bind, Query.run_bind]
    rcases ensure_cases hσ b cache' with
      ⟨e, hensure, hshadow⟩ | ⟨second, cache'', hensure, hshadow, hget', hkeeps⟩
    · rw [hensure, hshadow, ok_bind]
    · rw [hensure, hshadow, ok_bind]
      dsimp only
      rw [run_bind, kept_run (hkeeps a first hget), ok_bind]
      dsimp only
      rw [run_bind, kept_run hget', ok_bind]
      exact h first second cache''

/-!
# Clobbers
-/

def guardedClobbers (σ : Setting) (shadow : Shadow) (inst : Instruction) : Except Fault Bool := do
  let point ← checkIndex (← σ.function.defPoint inst.id)
  return inst.copySource != some shadow.storage && !inst.flags.call && !σ.absent inst &&
    !inst.defs.isEmpty && shadow.covers point

def guardedClobberedByDefs (σ : Setting) (shadow : Shadow) (other : Nat) : Except Fault Bool := do
  let clobbering ← (σ.function.defsOf other).mapM fun i => do
    σ.guardedClobbers shadow (← σ.function.inst i)
  return clobbering.any fun clobbers => clobbers

def guardedCoversLast (σ : Setting) (shadow : Shadow) (b : Nat) : Except Fault Bool := do
  match (← entryAt σ.function.blocks b).insts.getLast? with
  | none => return false
  | some last => return shadow.covers (← checkIndex (← σ.function.usePoint last.id))

def guardedCoversExit (σ : Setting) (shadow : Shadow) : Except Fault Bool := do
  let covered ← σ.function.exits.mapM (σ.guardedCoversLast shadow)
  return covered.any fun covers => covers

section Sound

variable (hσ : σ.Sound table)
include hσ

theorem guardedClobbers_eq (shadow : Shadow) {inst : Instruction}
    (hinst : inst ∈ σ.function.layout) :
    σ.guardedClobbers shadow inst = .ok (σ.clobbers shadow (σ.function.slotOf inst) inst) := by
  have hslot := Function.slot_of_mem hσ.wellFormed hinst
  have hplace := (Function.mem_layout_iff hσ.wellFormed).mp hinst
  have hlt : σ.function.slotOf inst < σ.function.size := (List.getElem?_eq_some_iff.mp hplace).1
  unfold guardedClobbers Function.defPoint
  rw [hslot, ok_bind]
  show (checkIndex (2 * σ.function.slotOf inst + 1) >>= _) = _
  rw [checkIndex_of_le (Function.point_le_maxIndex hσ.small (by omega)), ok_bind]
  rfl

omit hσ in
theorem clobberedByDefs_eq (hf : σ.function.WellFormed) (shadow : Shadow) (other : Nat) :
    σ.clobberedByDefs shadow other =
      (σ.function.layout.filter fun inst => inst.defines other).any fun inst =>
        σ.clobbers shadow (σ.function.slotOf inst) inst := by
  unfold clobberedByDefs
  rw [List.any_filter, Bool.eq_iff_iff, List.any_eq_true, List.any_eq_true]
  constructor
  · rintro ⟨⟨inst, k⟩, hplaced, hclobbers⟩
    have hinst := List.mem_zipIdx_iff_getElem?.mp hplaced
    refine ⟨inst, List.mem_of_getElem? hinst, ?_⟩
    rw [((Function.layout_iff hf).mp hinst).right]
    exact hclobbers
  · rintro ⟨inst, hinst, hclobbers⟩
    have hplace := (Function.mem_layout_iff hf).mp hinst
    exact ⟨(inst, σ.function.slotOf inst), List.mem_zipIdx_iff_getElem?.mpr hplace, hclobbers⟩

theorem guardedClobberedByDefs_eq (shadow : Shadow) (other : Nat) :
    σ.guardedClobberedByDefs shadow other = .ok (σ.clobberedByDefs shadow other) := by
  have hdefs : ((σ.function.defsOf other).mapM fun i => do
      σ.guardedClobbers shadow (← σ.function.inst i)) =
      .ok ((σ.function.layout.filter fun inst => inst.defines other).map fun inst =>
        σ.clobbers shadow (σ.function.slotOf inst) inst) := by
    unfold Function.defsOf
    rw [List.mapM_map]
    apply mapM_eq_map
    intro inst hinst
    have hmem := (List.mem_filter.mp hinst).left
    show (σ.function.inst inst.id >>= _) = _
    rw [Function.inst_of_mem hσ.wellFormed hmem, ok_bind]
    exact guardedClobbers_eq hσ shadow hmem
  unfold guardedClobberedByDefs
  rw [hdefs, ok_bind, clobberedByDefs_eq hσ.wellFormed, List.any_map]
  rfl

theorem guardedCoversLast_eq (shadow : Shadow) (hb : b < σ.function.blockCount) :
    σ.guardedCoversLast shadow b =
      .ok (0 < σ.function.blockSize b &&
        shadow.covers (2 * (σ.function.blockStart (b + 1) - 1))) := by
  rcases exists_entryAt hb with ⟨block, hblock, hentry⟩
  have hinsts : block.insts = σ.function.blockInsts b := (Function.blockInsts_of_block? hblock).symm
  unfold guardedCoversLast
  rw [hentry, ok_bind, hinsts]
  cases hlast : (σ.function.blockInsts b).getLast? with
  | none =>
      have hempty : σ.function.blockSize b = 0 := by
        rw [Function.blockSize, List.getLast?_eq_none_iff.mp hlast]
        rfl
      rw [hempty]
      rfl
  | some last =>
      rw [List.getLast?_eq_getElem?] at hlast
      rcases hσ.wellFormed.placed hlast with ⟨hhome, hposition⟩
      have hplace := Function.layout_of_place hσ.wellFormed hlast
      have hlt : σ.function.slotOf last < σ.function.size := (List.getElem?_eq_some_iff.mp hplace).1
      have hsize : 0 < σ.function.blockSize b :=
        Nat.lt_of_le_of_lt (Nat.zero_le _) (List.getElem?_eq_some_iff.mp hlast).1
      have hslot : σ.function.slotOf last = σ.function.blockStart (b + 1) - 1 := by
        rw [Function.blockStart_succ, Function.slotOf, hhome, hposition]
        exact (Nat.add_sub_assoc hsize _).symm
      dsimp only
      rw [Function.usePoint_of_layout hσ.wellFormed hplace, ok_bind,
        checkIndex_of_le (Function.point_le_maxIndex hσ.small (by omega)), hslot,
        decide_eq_true hsize]
      rfl

theorem guardedCoversExit_eq (shadow : Shadow) :
    σ.guardedCoversExit shadow = .ok (σ.coversExit shadow) := by
  have hexits := mapM_eq_map fun b (hb : b ∈ σ.function.exits) =>
    guardedCoversLast_eq hσ shadow (List.mem_range.mp (List.mem_filter.mp hb).left)
  unfold guardedCoversExit coversExit
  rw [hexits, ok_bind, List.any_map]
  rfl

end Sound

/-!
# The questions
-/

def guardedShadow (σ : Setting) (table : RegionTable) (s : Nat) : GuardedQuery Shadow := do
  σ.ensure table s
  kept s

def guardedRecompute (σ : Setting) (table : RegionTable) (s : Nat) : GuardedQuery Shadow := do
  modify fun cache => cache.forget s
  σ.guardedShadow table s

def guardedByInst (σ : Setting) (table : RegionTable) (s : Nat) (i : Nat) : GuardedQuery Bool := do
  match σ.function.inst? i with
  | none => throw (.instructionNotFound i)
  | some inst =>
      σ.ensure table s
      let shadow ← kept s
      ofLookUp (σ.guardedClobbers shadow inst)

def guardedByInterval (σ : Setting) (table : RegionTable) (s other : Nat) : GuardedQuery Bool := do
  let _ ← ofGuarded (.ofOutcome (σ.location other))
  σ.ensure table s
  let shadow ← kept s
  ofLookUp (σ.guardedClobberedByDefs shadow other)

def guardedByRestore (σ : Setting) (table : RegionTable) (s reg : Nat) : GuardedQuery Bool := do
  let location ← ofGuarded (.ofOutcome (σ.location reg))
  if location.isStackSlot then
    throw (.notARegister reg)
  if !location.flags.calleeSaved then
    return false
  σ.ensure table s
  let shadow ← kept s
  ofLookUp (σ.guardedCoversExit shadow)

def guardedOverlapped (σ : Setting) (table : RegionTable) (s other : Nat) : GuardedQuery Bool := do
  let _ ← ofGuarded (.ofOutcome (σ.location other))
  σ.ensure table s
  let shadow ← kept s
  return σ.overlappedBy shadow other

def guardedExpectRegister (σ : Setting) (s : Nat) : GuardedQuery Unit := do
  let location ← ofGuarded (.ofOutcome (σ.location s))
  if location.isStackSlot then
    throw (.notARegister s)

def guardedRegistersMergeable (σ : Setting) (table : RegionTable) (a b : Nat) :
    GuardedQuery Bool := do
  σ.guardedExpectRegister a
  σ.guardedExpectRegister b
  σ.ensure table a
  σ.ensure table b
  let shadowA ← kept a
  let shadowB ← kept b
  let clobberedA ← ofLookUp (σ.guardedClobberedByDefs shadowA b)
  let clobberedB ← ofLookUp (σ.guardedClobberedByDefs shadowB a)
  return !clobberedA && !clobberedB

def guardedSlotsMergeable (σ : Setting) (table : RegionTable) (a b : Nat) : GuardedQuery Bool := do
  let locationA ← ofGuarded (.ofOutcome (σ.location a))
  if !locationA.isStackSlot then
    let locationB ← ofGuarded (.ofOutcome (σ.location b))
    if !locationB.isStackSlot then
      throw (.notAStackSlot a)
  σ.ensure table a
  σ.ensure table b
  let shadowA ← kept a
  let shadowB ← kept b
  return !(σ.overlappedBy shadowA b || σ.overlappedBy shadowB a)

def guardedAnswer (σ : Setting) (table : RegionTable) : Request -> GuardedQuery Answer
  | .shadow s => .shadow <$> σ.guardedShadow table s
  | .recompute s => .shadow <$> σ.guardedRecompute table s
  | .forget s => do
      modify fun cache => cache.forget s
      return .done
  | .forgetAll => do
      set ([] : ShadowCache)
      return .done
  | .clobberedByInst s i => .verdict <$> σ.guardedByInst table s i
  | .clobberedByInterval s other => .verdict <$> σ.guardedByInterval table s other
  | .clobberedByRestore s reg => .verdict <$> σ.guardedByRestore table s reg
  | .overlapped s other => .verdict <$> σ.guardedOverlapped table s other
  | .registersMergeable a b => .verdict <$> σ.guardedRegistersMergeable table a b
  | .slotsMergeable a b => .verdict <$> σ.guardedSlotsMergeable table a b
  | .verify => do
      ofGuarded (σ.guardedVerifyFunction table)
      return .done

def guardedRespond (σ : Setting) (table : RegionTable) (cache : ShadowCache)
    (request : Request) :
    Except Fault (Except Error Answer × ShadowCache) :=
  (σ.guardedAnswer table request).run.run cache

section Sound

variable (hσ : σ.Sound table)
include hσ

omit hσ in
theorem agrees_location (σ : Setting) (s : Nat) :
    Agrees (ofGuarded (.ofOutcome (σ.location s))) (Query.ofExcept (σ.location s)) :=
  agrees_outcome (Guarded.gives_outcome (σ.location s))

theorem agrees_guardedShadow (s : Nat) : Agrees (σ.guardedShadow table s) (σ.shadow s) := by
  have h := agrees_shadow hσ (s := s) agrees_pure
  rw [bind_pure] at h
  simpa [guardedShadow] using h

theorem agrees_byInst (s i : Nat) :
    Agrees (σ.guardedByInst table s i) (σ.isClobberedByInst s i) := by
  unfold guardedByInst isClobberedByInst
  rcases Function.slot_cases σ.function i with
    ⟨hinst, hslot⟩ | ⟨inst, k, hinst, hslot, hlookup, _⟩
  · rw [hinst, hslot]
    exact agrees_throw _
  · rw [hinst, hslot]
    have hmem : inst ∈ σ.function.layout := List.mem_of_find?_eq_some hinst
    have hid : inst.id = i := by simpa using List.find?_some hinst
    have hk : σ.function.slotOf inst = k := by
      have hsame := Function.slot_of_mem hσ.wellFormed hmem
      rw [hid, hlookup] at hsame
      exact (Except.ok.inj hsame).symm
    refine agrees_shadow hσ fun shadow => agrees_lookUp ?_
    rw [← hk]
    exact guardedClobbers_eq hσ shadow hmem

theorem agrees_byInterval (s other : Nat) :
    Agrees (σ.guardedByInterval table s other) (σ.isClobberedByInterval s other) := by
  refine agrees_bind (agrees_location σ other) fun _ => agrees_shadow hσ fun shadow => ?_
  exact agrees_lookUp (guardedClobberedByDefs_eq hσ shadow other)

theorem agrees_overlapped (s other : Nat) :
    Agrees (σ.guardedOverlapped table s other) (σ.isOverlappedByInterval s other) :=
  agrees_bind (agrees_location σ other) fun _ => agrees_shadow hσ fun _ => agrees_pure _

theorem agrees_byRestore (s reg : Nat) :
    Agrees (σ.guardedByRestore table s reg) (σ.isClobberedByRestore s reg) := by
  refine agrees_bind (agrees_location σ reg) fun location => ?_
  have hrest : Agrees
      (if !location.flags.calleeSaved then pure false else do
        σ.ensure table s
        let shadow ← kept s
        ofLookUp (σ.guardedCoversExit shadow))
      (if !location.flags.calleeSaved then pure false else do
        let shadow ← σ.shadow s
        return σ.coversExit shadow) :=
    agrees_ite (agrees_pure false)
      (agrees_shadow hσ fun shadow => agrees_lookUp (guardedCoversExit_eq hσ shadow))
  exact agrees_ite (agrees_bind (agrees_throw _) fun _ => hrest) hrest

omit hσ in
theorem agrees_expectRegister (σ : Setting) (s : Nat) :
    Agrees (σ.guardedExpectRegister s) (σ.expectRegister s) :=
  agrees_bind (agrees_location σ s) fun _ => agrees_ite (agrees_throw _) (agrees_pure _)

theorem agrees_registersMergeable (a b : Nat) :
    Agrees (σ.guardedRegistersMergeable table a b) (σ.areRegistersMergeable a b) := by
  refine agrees_bind (agrees_expectRegister σ a) fun _ => ?_
  refine agrees_bind (agrees_expectRegister σ b) fun _ => ?_
  refine agrees_shadows hσ fun shadowA shadowB => ?_
  rw [guardedClobberedByDefs_eq hσ, guardedClobberedByDefs_eq hσ]
  exact agrees_pure _

theorem agrees_slotsMergeable (a b : Nat) :
    Agrees (σ.guardedSlotsMergeable table a b) (σ.areSlotsMergeable a b) := by
  refine agrees_bind (agrees_location σ a) fun locationA => ?_
  have hrest : Agrees
      (do
        σ.ensure table a
        σ.ensure table b
        let shadowA ← kept a
        let shadowB ← kept b
        return !(σ.overlappedBy shadowA b || σ.overlappedBy shadowB a))
      (do
        let shadowA ← σ.shadow a
        let shadowB ← σ.shadow b
        return !(σ.overlappedBy shadowA b || σ.overlappedBy shadowB a)) :=
    agrees_shadows hσ fun _ _ => agrees_pure _
  refine agrees_ite (agrees_bind (agrees_location σ b) fun _ => ?_) hrest
  exact agrees_ite (agrees_bind (agrees_throw _) fun _ => hrest) hrest

theorem agrees_answer (request : Request) :
    Agrees (σ.guardedAnswer table request) (σ.answer request) := by
  cases request with
  | shadow s => exact agrees_map _ (agrees_guardedShadow hσ s)
  | recompute s =>
      exact agrees_map _ (agrees_bind (agrees_modify _) fun _ => agrees_guardedShadow hσ s)
  | forget s => exact agrees_bind (agrees_modify _) fun _ => agrees_pure _
  | forgetAll => exact agrees_bind (agrees_modify _) fun _ => agrees_pure _
  | clobberedByInst s i => exact agrees_map _ (agrees_byInst hσ s i)
  | clobberedByInterval s other => exact agrees_map _ (agrees_byInterval hσ s other)
  | clobberedByRestore s reg => exact agrees_map _ (agrees_byRestore hσ s reg)
  | overlapped s other => exact agrees_map _ (agrees_overlapped hσ s other)
  | registersMergeable a b => exact agrees_map _ (agrees_registersMergeable hσ a b)
  | slotsMergeable a b => exact agrees_map _ (agrees_slotsMergeable hσ a b)
  | verify =>
      exact agrees_bind (agrees_outcome (gives_verifyFunction hσ)) fun _ => agrees_pure _

end Sound

/-!
# Finished functions
-/

/-- Nothing that can be asked about a finished function faults, and the answers are those that are
defined.  The numbers of instructions and storage locations in questions and boundaries are
arbitrary, and so are the oracles: of the live ranges only the form of their sets is known. -/
theorem finished_function_never_faults {name : String} {steps : List Step} {f : Function}
    (hfinished : Function.assemble name steps = .ok f) (hsize : f.size < 2147483648)
    (oracle : AliasOracle) (boundaries : BoundarySet) (live : LiveRanges)
    (hlive : forall s interval, live.interval s = some interval -> interval.ranges.Canonical)
    (config : Config) (ignore : Instruction -> Bool) :
    (exists analysis, (f.runAnalysis oracle).Ends analysis ∧ f.analyze oracle = .ok analysis) ∧
      (forall i, f.findForStore oracle i = .ok (f.hazardsOf oracle i)) ∧
      f.computeLiveIntervals.Ends f.liveIntervals ∧
      forall m built,
        (m = .ofBoundaries f boundaries ∧ built = RegionTable.ofBoundaries f boundaries) ∨
          (m = .ofMarkers f ∧ built = RegionTable.ofMarkers f) ->
        exists table, built = .ok table ∧ table.regions = m.regions ∧
          (forall i, table.containing i = .ok (m.containing i)) ∧
          (forall i, table.pointsAfter i = .ok (m.pointsAfterInst i)) ∧
          (forall r stop, r ∈ m.regions -> table.pointsUntil r stop = .ok (m.pointsUntil r stop)) ∧
          forall cache request,
            guardedRespond ⟨m, live, config, ignore⟩ table cache request =
              .ok (respond ⟨m, live, config, ignore⟩ cache request) := by
  have hf := Function.wellFormed_of_assemble hfinished
  have hdeclared := Function.declared_of_assemble hfinished
  have hnumbered := Function.numbered_of_assemble hfinished
  refine ⟨Function.ends_runAnalysis hf oracle, Function.findForStore_eq hf oracle,
    Function.ends_computeLiveIntervals hf hdeclared hsize, ?_⟩
  intro m built hm
  have hmodel : m.function = f ∧ m.Fits ∧
      exists table, built = .ok table ∧ table.Charts m := by
    rcases hm with ⟨rfl, rfl⟩ | ⟨rfl, rfl⟩
    · exact ⟨rfl, RegionModel.fits_ofBoundaries hnumbered boundaries,
        RegionTable.ofBoundaries_charts hf hnumbered hsize boundaries⟩
    · exact ⟨rfl, RegionModel.fits_ofMarkers hnumbered,
        RegionTable.ofMarkers_charts hf hnumbered hsize⟩
  rcases hmodel with ⟨rfl, hfits, table, hbuilt, hcharts⟩
  have hσ : Sound ⟨m, live, config, ignore⟩ table := ⟨hf, hsize, hfits, hcharts, hlive⟩
  exact ⟨table, hbuilt, hcharts.regions, RegionTable.containing_eq hf hfits hcharts,
    RegionTable.pointsAfter_eq hf hfits hsize hcharts,
    fun r stop hr => RegionTable.pointsUntil_eq hf hfits hsize hcharts hr stop,
    fun cache request => agrees_answer hσ request cache⟩

/-!
The polling loop, asked about instructions and a storage location that it does not have.  The
boundary at instruction 77 is left out, and what is not there is refused or empty.
-/

theorem poll_never_faults :
    Function.assemble "poll" RegionModel.pollSteps = .ok RegionModel.poll ∧
      RegionModel.poll.findForStore .conservative 99 = .ok [] ∧
      RegionModel.poll.computeLiveIntervals.Ends RegionModel.poll.liveIntervals ∧
      exists table, RegionTable.ofBoundaries RegionModel.poll (.ofList [2, 77]) = .ok table ∧
        table.containing 1 = .ok [0, 1] ∧ table.pointsAfter 77 = .ok .empty ∧
        guardedRespond
          ⟨.ofBoundaries RegionModel.poll (.ofList [2, 77]), RegionModel.poll.liveRanges,
            .standard, fun _ => false⟩ table [] (.clobberedByInst 0 77) =
          .ok (.error (.instructionNotFound 77), []) ∧
        guardedRespond
          ⟨.ofBoundaries RegionModel.poll (.ofList [2, 77]), RegionModel.poll.liveRanges,
            .standard, fun _ => false⟩ table [] (.registersMergeable 0 5) =
          .ok (.error (.storageNotFound 5), []) := by
  have hfinished : Function.assemble "poll" RegionModel.pollSteps = .ok RegionModel.poll := rfl
  have hlive : forall s interval, RegionModel.poll.liveRanges.interval s = some interval ->
      interval.ranges.Canonical := by
    intro s interval h
    rw [Function.interval_liveRanges h]
    exact Function.canonical_livePoints RegionModel.poll s
  rcases finished_function_never_faults hfinished (by decide) .conservative (.ofList [2, 77])
    RegionModel.poll.liveRanges hlive .standard (fun _ => false) with
    ⟨_, hhazards, hintervals, hmodels⟩
  rcases hmodels _ _ (Or.inl ⟨rfl, rfl⟩) with
    ⟨table, hbuilt, _, hcontaining, hafter, _, hrespond⟩
  refine ⟨hfinished, ?_, hintervals, table, hbuilt, ?_, ?_, ?_, ?_⟩
  · rw [hhazards]
    decide +kernel
  · rw [hcontaining]
    decide +kernel
  · rw [hafter]
    decide +kernel
  · rw [hrespond]
    decide +kernel
  · rw [hrespond]
    decide +kernel

end Setting
end SafeRestart
