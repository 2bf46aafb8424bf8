import SafeRestart.Proofs.Shadow
import SafeRestart.Shadow.Request

/-!
# Answers do not depend on the requests before

A kept shadow is always the one that its computation gives.  Every question keeps it that way, so
what it answers is what it would answer if each shadow were computed on the spot.
-/

namespace SafeRestart

variable {α β : Type}

theorem Query.run_bind (question : Query α) (next : α -> Query β) (cache : ShadowCache) :
    (question >>= next).run.run cache =
      match question.run.run cache with
      | (.ok x, kept) => (next x).run.run kept
      | (.error e, kept) => (.error e, kept) := by
  rw [ExceptT.run_bind, StateT.run_bind]
  show (match question.run.run cache with | (answer, kept) => _) = _
  rcases question.run.run cache with ⟨answer, kept⟩
  cases answer with
  | error e => rfl
  | ok x => rfl

namespace Setting

/-- Each kept shadow is the one that its computation gives. -/
def Faithful (σ : Setting) (cache : ShadowCache) : Prop :=
  forall entry, entry ∈ cache -> σ.computeShadow entry.1 = .ok entry.2

variable {σ : Setting} {cache : ShadowCache} {s : Nat}

theorem faithful_nil (σ : Setting) : σ.Faithful [] := by
  intro entry hentry
  cases hentry

theorem faithful_cons {shadow : Shadow} (hcache : σ.Faithful cache)
    (h : σ.computeShadow s = .ok shadow) : σ.Faithful ((s, shadow) :: cache) := by
  intro entry hentry
  cases hentry with
  | head => exact h
  | tail _ hrest => exact hcache entry hrest

theorem faithful_forget (hcache : σ.Faithful cache) (s : Nat) : σ.Faithful (cache.forget s) := by
  intro entry hentry
  exact hcache entry (List.mem_of_mem_filter hentry)

theorem computeShadow_of_get? {shadow : Shadow} (hcache : σ.Faithful cache)
    (h : cache.get? s = some shadow) : σ.computeShadow s = .ok shadow := by
  unfold ShadowCache.get? at h
  induction cache with
  | nil => cases h
  | cons entry rest ih =>
      rw [List.lookup_cons] at h
      split at h
      · rename_i hsame
        cases h
        rw [eq_of_beq hsame]
        exact hcache entry List.mem_cons_self
      · exact ih (fun other hother => hcache other (List.mem_cons_of_mem _ hother)) h

/-!
# Questions and kept shadows
-/

/-- The question has this answer, whichever shadows are kept, and keeps no wrong shadow. -/
def Answers (σ : Setting) (question : Query α) (answer : Except Error α) : Prop :=
  forall cache, σ.Faithful cache ->
    exists kept, question.run.run cache = (answer, kept) ∧ σ.Faithful kept

theorem answers_shadow (σ : Setting) (s : Nat) : σ.Answers (σ.shadow s) (σ.computeShadow s) := by
  intro cache hcache
  have hcurrent : (get : Query ShadowCache).run.run cache = (.ok cache, cache) := rfl
  unfold shadow
  rw [Query.run_bind, hcurrent]
  dsimp only
  cases hget : cache.get? s with
  | some shadow =>
      rw [computeShadow_of_get? hcache hget]
      exact ⟨cache, rfl, hcache⟩
  | none =>
      rw [Query.run_bind]
      cases hcompute : σ.computeShadow s with
      | error e => exact ⟨cache, rfl, hcache⟩
      | ok shadow => exact ⟨(s, shadow) :: cache, rfl, faithful_cons hcache hcompute⟩

theorem answers_pure (σ : Setting) (x : α) : σ.Answers (pure x : Query α) (.ok x) :=
  fun cache hcache => ⟨cache, rfl, hcache⟩

theorem answers_ofExcept (σ : Setting) (answer : Except Error α) :
    σ.Answers (Query.ofExcept answer) answer :=
  fun cache hcache => ⟨cache, rfl, hcache⟩

theorem answers_throw (σ : Setting) (e : Error) : σ.Answers (throw e : Query α) (.error e) :=
  fun cache hcache => ⟨cache, rfl, hcache⟩

theorem answers_modify {change : ShadowCache -> ShadowCache}
    (h : forall cache, σ.Faithful cache -> σ.Faithful (change cache)) :
    σ.Answers (modify change : Query PUnit) (.ok ⟨⟩) :=
  fun cache hcache => ⟨change cache, rfl, h cache hcache⟩

theorem answers_bind {question : Query α} {next : α -> Query β} {answer : Except Error α}
    {g : α -> Except Error β} (h : σ.Answers question answer)
    (hnext : forall x, σ.Answers (next x) (g x)) :
    σ.Answers (question >>= next) (answer >>= g) := by
  intro cache hcache
  rcases h cache hcache with ⟨kept, hrun, hkept⟩
  rw [Query.run_bind, hrun]
  cases answer with
  | error e => exact ⟨kept, rfl, hkept⟩
  | ok x => exact hnext x kept hkept

theorem answers_map {question : Query α} {answer : Except Error α} (g : α -> β)
    (h : σ.Answers question answer) : σ.Answers (g <$> question) (g <$> answer) := by
  rw [map_eq_pure_bind, map_eq_pure_bind]
  exact answers_bind h fun x => answers_pure σ (g x)

/-!
# What the questions answer
-/

def instOutcome (σ : Setting) (s i : Nat) : Except Error Bool :=
  match σ.function.slot? i, σ.function.inst? i with
  | some k, some inst => do return σ.clobbers (← σ.computeShadow s) k inst
  | _, _ => .error (.instructionNotFound i)

def testOutcome (σ : Setting) (s other : Nat) (test : Shadow -> Bool) : Except Error Bool := do
  let _ ← σ.location other
  return test (← σ.computeShadow s)

def restoreOutcome (σ : Setting) (s reg : Nat) : Except Error Bool := do
  let location ← σ.location reg
  if location.isStackSlot then .error (.notARegister reg)
  else if !location.flags.calleeSaved then .ok false
  else return σ.coversExit (← σ.computeShadow s)

def registerOutcome (σ : Setting) (s : Nat) : Except Error Unit := do
  let location ← σ.location s
  if location.isStackSlot then .error (.notARegister s) else .ok ()

def registersOutcome (σ : Setting) (a b : Nat) : Except Error Bool := do
  σ.registerOutcome a
  σ.registerOutcome b
  let shadowA ← σ.computeShadow a
  let shadowB ← σ.computeShadow b
  return !σ.clobberedByDefs shadowA b && !σ.clobberedByDefs shadowB a

def slotsVerdict (σ : Setting) (a b : Nat) : Except Error Bool := do
  let shadowA ← σ.computeShadow a
  let shadowB ← σ.computeShadow b
  return !(σ.overlappedBy shadowA b || σ.overlappedBy shadowB a)

def slotsOutcome (σ : Setting) (a b : Nat) : Except Error Bool := do
  let locationA ← σ.location a
  if locationA.isStackSlot then σ.slotsVerdict a b
  else do
    let locationB ← σ.location b
    if locationB.isStackSlot then σ.slotsVerdict a b else .error (.notAStackSlot a)

/-- The outcome of a request when nothing is kept and each shadow is computed on the spot. -/
def outcome (σ : Setting) : Request -> Except Error Answer
  | .shadow s => .shadow <$> σ.computeShadow s
  | .recompute s => .shadow <$> σ.computeShadow s
  | .forget _ => .ok .done
  | .forgetAll => .ok .done
  | .clobberedByInst s i => .verdict <$> σ.instOutcome s i
  | .clobberedByInterval s other =>
      .verdict <$> σ.testOutcome s other fun shadow => σ.clobberedByDefs shadow other
  | .clobberedByRestore s reg => .verdict <$> σ.restoreOutcome s reg
  | .overlapped s other =>
      .verdict <$> σ.testOutcome s other fun shadow => σ.overlappedBy shadow other
  | .registersMergeable a b => .verdict <$> σ.registersOutcome a b
  | .slotsMergeable a b => .verdict <$> σ.slotsOutcome a b
  | .verify => do
      σ.verifyFunction
      return .done

theorem answers_isClobberedByInst (σ : Setting) (s i : Nat) :
    σ.Answers (σ.isClobberedByInst s i) (σ.instOutcome s i) := by
  unfold isClobberedByInst instOutcome
  cases σ.function.slot? i with
  | none => exact answers_throw σ _
  | some k =>
      cases σ.function.inst? i with
      | none => exact answers_throw σ _
      | some inst => exact answers_bind (answers_shadow σ s) fun _ => answers_pure σ _

theorem answers_test (σ : Setting) (s other : Nat) (test : Shadow -> Bool) :
    σ.Answers (do
      let _ ← Query.ofExcept (σ.location other)
      let shadow ← σ.shadow s
      return test shadow) (σ.testOutcome s other test) :=
  answers_bind (answers_ofExcept σ _) fun _ =>
    answers_bind (answers_shadow σ s) fun _ => answers_pure σ _

theorem answers_isClobberedByRestore (σ : Setting) (s reg : Nat) :
    σ.Answers (σ.isClobberedByRestore s reg) (σ.restoreOutcome s reg) := by
  refine answers_bind (answers_ofExcept σ _) fun location => ?_
  cases location.isStackSlot with
  | true => exact answers_throw σ _
  | false =>
      cases location.flags.calleeSaved with
      | false => exact answers_pure σ false
      | true => exact answers_bind (answers_shadow σ s) fun _ => answers_pure σ _

theorem answers_expectRegister (σ : Setting) (s : Nat) :
    σ.Answers (σ.expectRegister s) (σ.registerOutcome s) := by
  refine answers_bind (answers_ofExcept σ _) fun location => ?_
  cases location.isStackSlot with
  | true => exact answers_throw σ _
  | false => exact answers_pure σ _

theorem answers_areRegistersMergeable (σ : Setting) (a b : Nat) :
    σ.Answers (σ.areRegistersMergeable a b) (σ.registersOutcome a b) :=
  answers_bind (answers_expectRegister σ a) fun _ =>
    answers_bind (answers_expectRegister σ b) fun _ =>
      answers_bind (answers_shadow σ a) fun _ =>
        answers_bind (answers_shadow σ b) fun _ => answers_pure σ _

theorem answers_areSlotsMergeable (σ : Setting) (a b : Nat) :
    σ.Answers (σ.areSlotsMergeable a b) (σ.slotsOutcome a b) := by
  have hshadows : σ.Answers (do
      let shadowA ← σ.shadow a
      let shadowB ← σ.shadow b
      return !(σ.overlappedBy shadowA b || σ.overlappedBy shadowB a)) (σ.slotsVerdict a b) :=
    answers_bind (answers_shadow σ a) fun _ =>
      answers_bind (answers_shadow σ b) fun _ => answers_pure σ _
  refine answers_bind (answers_ofExcept σ _) fun locationA => ?_
  cases locationA.isStackSlot with
  | true => exact hshadows
  | false =>
      refine answers_bind (answers_ofExcept σ _) fun locationB => ?_
      cases locationB.isStackSlot with
      | true => exact hshadows
      | false => exact answers_throw σ _

theorem answers_answer (σ : Setting) (request : Request) :
    σ.Answers (σ.answer request) (σ.outcome request) := by
  cases request with
  | shadow s => exact answers_map _ (answers_shadow σ s)
  | recompute s =>
      exact answers_map _ (answers_bind
        (answers_modify fun _ hcache => faithful_forget hcache s) fun _ => answers_shadow σ s)
  | forget s =>
      exact answers_bind (answers_modify fun _ hcache => faithful_forget hcache s) fun _ =>
        answers_pure σ _
  | forgetAll =>
      exact answers_bind (answers_modify fun _ _ => faithful_nil σ) fun _ => answers_pure σ _
  | clobberedByInst s i => exact answers_map _ (answers_isClobberedByInst σ s i)
  | clobberedByInterval s other => exact answers_map _ (answers_test σ s other _)
  | clobberedByRestore s reg => exact answers_map _ (answers_isClobberedByRestore σ s reg)
  | overlapped s other => exact answers_map _ (answers_test σ s other _)
  | registersMergeable a b => exact answers_map _ (answers_areRegistersMergeable σ a b)
  | slotsMergeable a b => exact answers_map _ (answers_areSlotsMergeable σ a b)
  | verify => exact answers_bind (answers_ofExcept σ _) fun _ => answers_pure σ _

/-!
# Shadows computed anew
-/

theorem get?_forget (cache : ShadowCache) (s : Nat) : (cache.forget s).get? s = none := by
  unfold ShadowCache.get? ShadowCache.forget
  rw [List.lookup_eq_none_iff]
  intro entry hentry
  have hother := (List.mem_filter.mp hentry).right
  simpa using Ne.symm (bne_iff_ne.mp hother)

/-- A shadow computed anew does not depend on the shadows that were kept, right or wrong. -/
theorem respond_recompute (σ : Setting) (cache : ShadowCache) (s : Nat) :
    (σ.respond cache (.recompute s)).1 = (σ.computeShadow s).map Answer.shadow := by
  have hforget : (modify fun kept => ShadowCache.forget kept s : Query PUnit).run.run cache =
      (.ok ⟨⟩, cache.forget s) := rfl
  have hcurrent : (get : Query ShadowCache).run.run (cache.forget s) =
      (.ok (cache.forget s), cache.forget s) := rfl
  unfold respond answer recompute shadow
  dsimp only
  rw [map_eq_pure_bind, Query.run_bind, Query.run_bind, hforget]
  dsimp only
  rw [Query.run_bind, hcurrent]
  dsimp only
  rw [get?_forget]
  dsimp only
  rw [Query.run_bind]
  cases σ.computeShadow s with
  | error e => rfl
  | ok shadow => rfl

theorem recompute_eq_ok_iff {s : Nat} {answer : Shadow} :
    (σ.respond cache (.recompute s)).1 = .ok (.shadow answer) <->
      σ.computeShadow s = .ok answer := by
  rw [respond_recompute]
  cases σ.computeShadow s with
  | error e => simp [Except.map]
  | ok found => simp [Except.map]

/-!
# Conversations
-/

def keptAfter (σ : Setting) (requests : List Request) : ShadowCache :=
  requests.foldl (fun cache request => (σ.respond cache request).2) []

theorem faithful_respond (hcache : σ.Faithful cache) (request : Request) :
    σ.Faithful (σ.respond cache request).2 := by
  rcases answers_answer σ request cache hcache with ⟨kept, hrun, hkept⟩
  unfold respond
  rw [hrun]
  exact hkept

theorem faithful_keptAfter (σ : Setting) (requests : List Request) :
    σ.Faithful (σ.keptAfter requests) := by
  have hrun : forall cache, σ.Faithful cache ->
      σ.Faithful (requests.foldl (fun cache request => (σ.respond cache request).2) cache) := by
    induction requests with
    | nil =>
        intro cache hcache
        exact hcache
    | cons request rest ih =>
        intro cache hcache
        exact ih _ (faithful_respond hcache request)
  exact hrun [] (faithful_nil σ)

/-!
# History plays no part
-/

theorem respond_eq_outcome (hcache : σ.Faithful cache) (request : Request) :
    (σ.respond cache request).1 = σ.outcome request := by
  rcases answers_answer σ request cache hcache with ⟨kept, hrun, _⟩
  unfold respond
  rw [hrun]

theorem not_holds_of_error {e : Error} (hcache : σ.Faithful cache)
    (hfails : σ.computeShadow s = .error e) : cache.holds s = false := by
  unfold ShadowCache.holds
  cases hget : cache.get? s with
  | none => rfl
  | some shadow =>
      have hkept := computeShadow_of_get? hcache hget
      rw [hfails] at hkept
      cases hkept

theorem respond_shadow (hcache : σ.Faithful cache) (s : Nat) :
    (σ.respond cache (.shadow s)).1 = (σ.computeShadow s).map Answer.shadow :=
  respond_eq_outcome hcache (.shadow s)

theorem computeShadow_of_refused {e : Error} {request : Request} (hcache : σ.Faithful cache)
    (hrequest : request = .shadow s ∨ request = .recompute s)
    (hrefused : (σ.respond cache request).1 = .error e) : σ.computeShadow s = .error e := by
  have houtcome : σ.outcome request = Answer.shadow <$> σ.computeShadow s := by
    rcases hrequest with rfl | rfl
    · rfl
    · rfl
  rw [respond_eq_outcome hcache, houtcome] at hrefused
  cases hcompute : σ.computeShadow s with
  | error e' =>
      rw [hcompute] at hrefused
      cases hrefused
      rfl
  | ok shadow =>
      rw [hcompute] at hrefused
      cases hrefused

theorem answers_independent_of_history (σ : Setting) (requests : List Request) :
    (forall request,
      (σ.respond (σ.keptAfter requests) request).1 = (σ.respond [] request).1) ∧
    (forall s shadow, (σ.keptAfter requests).get? s = some shadow ->
      σ.computeShadow s = .ok shadow) ∧
    (forall s e, σ.computeShadow s = .error e -> (σ.keptAfter requests).holds s = false) ∧
    (forall s e request, request = .shadow s ∨ request = .recompute s ->
      (σ.respond (σ.keptAfter requests) request).1 = .error e ->
        (σ.keptAfter (requests ++ [request])).holds s = false) := by
  have hcache := faithful_keptAfter σ requests
  refine ⟨?_, fun s shadow => computeShadow_of_get? hcache,
    fun s e => not_holds_of_error hcache, ?_⟩
  · intro request
    rw [respond_eq_outcome hcache, respond_eq_outcome (faithful_nil σ)]
  · intro s e request hrequest hrefused
    exact not_holds_of_error (faithful_keptAfter σ _)
      (computeShadow_of_refused hcache hrequest hrefused)

/-!
# Merging registers
-/

theorem registerOutcome_ok {answer : Unit} (h : σ.registerOutcome s = .ok answer) :
    s < σ.function.storage.length ∧
      forall location, σ.function.storage? s = some location -> location.isStackSlot = false := by
  rcases bind_ok h with ⟨location, hlocation, hkind⟩
  have hstorage := location_ok_iff.mp hlocation
  refine ⟨(List.getElem?_eq_some_iff.mp hstorage).1, ?_⟩
  intro other hother
  rw [hstorage] at hother
  cases hother
  split at hkind
  · cases hkind
  · rename_i hregister
    simpa using hregister

structure Separate (σ : Setting) (a b : Nat) : Prop where
  declared : a < σ.function.storage.length
  isRegister : forall location, σ.function.storage? a = some location ->
    location.isStackSlot = false
  shadow : exists shadow, σ.computeShadow a = .ok shadow ∧ σ.clobberedByDefs shadow b = false

theorem separate_of_respond {a b : Nat} {requests : List Request}
    (h : (σ.respond (σ.keptAfter requests) (.registersMergeable a b)).1 = .ok (.verdict true)) :
    σ.Separate a b ∧ σ.Separate b a := by
  rw [respond_eq_outcome (faithful_keptAfter σ requests), outcome, map_eq_pure_bind] at h
  rcases bind_ok h with ⟨verdict, houtcome, hverdict⟩
  cases hverdict
  rcases bind_ok houtcome with ⟨_, hexpectA, houtcome⟩
  rcases bind_ok houtcome with ⟨_, hexpectB, houtcome⟩
  rcases bind_ok houtcome with ⟨shadowA, hcomputeA, houtcome⟩
  rcases bind_ok houtcome with ⟨shadowB, hcomputeB, houtcome⟩
  rcases registerOutcome_ok hexpectA with ⟨hdeclaredA, hregisterA⟩
  rcases registerOutcome_ok hexpectB with ⟨hdeclaredB, hregisterB⟩
  have hfree : (!σ.clobberedByDefs shadowA b && !σ.clobberedByDefs shadowB a) = true :=
    Except.ok.inj houtcome
  rw [Bool.and_eq_true, Bool.not_eq_true', Bool.not_eq_true'] at hfree
  constructor
  · exact ⟨hdeclaredA, hregisterA, shadowA, hcomputeA, hfree.left⟩
  · exact ⟨hdeclaredB, hregisterB, shadowB, hcomputeB, hfree.right⟩

end Setting
end SafeRestart
