import SafeRestart.Shadow.Basic

/-!
# Questions about shadows

Shadows are kept once they have been computed.  Nothing is kept of a computation that fails.  A
kept shadow does not follow later changes of the live ranges; it has to be forgotten by request.
-/

namespace SafeRestart

abbrev ShadowCache := List (Nat × Shadow)

namespace ShadowCache

def get? (cache : ShadowCache) (s : Nat) : Option Shadow := List.lookup s cache

def holds (cache : ShadowCache) (s : Nat) : Bool := (cache.get? s).isSome

def forget (cache : ShadowCache) (s : Nat) : ShadowCache :=
  cache.filter fun entry => entry.1 != s

end ShadowCache

/-- A question that may fail; shadows computed on the way are kept even then. -/
abbrev Query := ExceptT Error (StateM ShadowCache)

def Query.ofExcept {α : Type} (answer : Except Error α) : Query α := ExceptT.mk (pure answer)

namespace Setting

def shadow (σ : Setting) (s : Nat) : Query Shadow := do
  match (← get).get? s with
  | some shadow => return shadow
  | none =>
      let shadow ← Query.ofExcept (σ.computeShadow s)
      modify fun cache => (s, shadow) :: cache
      return shadow

/-- Computes a shadow anew; when that fails the former one is gone. -/
def recompute (σ : Setting) (s : Nat) : Query Shadow := do
  modify fun cache => cache.forget s
  σ.shadow s

/-!
# Clobbers and overlaps
-/

/-- Whether the instruction writes a storage location at a point of the shadow.  A copy of the
shadowed value and a call do no harm: the copy carries the same value, and the writes of a call
lie behind the entry of the callee. -/
def clobbers (σ : Setting) (shadow : Shadow) (k : Nat) (inst : Instruction) : Bool :=
  inst.copySource != some shadow.storage && !inst.flags.call && !σ.absent inst &&
    !inst.defs.isEmpty && shadow.covers (2 * k + 1)

def clobberedByDefs (σ : Setting) (shadow : Shadow) (other : Nat) : Bool :=
  σ.function.layout.zipIdx.any fun placed =>
    placed.1.defines other && σ.clobbers shadow placed.2 placed.1

def overlappedBy (σ : Setting) (shadow : Shadow) (other : Nat) : Bool :=
  match σ.live.interval other with
  | none => false
  | some live => shadow.ranges.spans.any live.ranges.overlaps

def coversExit (σ : Setting) (shadow : Shadow) : Bool :=
  σ.function.exits.any fun b =>
    0 < σ.function.blockSize b && shadow.covers (2 * (σ.function.blockStart (b + 1) - 1))

/-!
# The questions
-/

def isClobberedByInst (σ : Setting) (s : Nat) (i : Nat) : Query Bool := do
  match σ.function.slot? i, σ.function.inst? i with
  | some k, some inst =>
      let shadow ← σ.shadow s
      return σ.clobbers shadow k inst
  | _, _ => throw (.instructionNotFound i)

def isClobberedByInterval (σ : Setting) (s other : Nat) : Query Bool := do
  let _ ← Query.ofExcept (σ.location other)
  let shadow ← σ.shadow s
  return σ.clobberedByDefs shadow other

/-- Whether restoring a callee-saved register before the function returns clobbers the shadow.
The last instruction of each exit block stands for the restore. -/
def isClobberedByRestore (σ : Setting) (s reg : Nat) : Query Bool := do
  let location ← Query.ofExcept (σ.location reg)
  if location.isStackSlot then
    throw (.notARegister reg)
  if !location.flags.calleeSaved then
    return false
  let shadow ← σ.shadow s
  return σ.coversExit shadow

def isOverlappedByInterval (σ : Setting) (s other : Nat) : Query Bool := do
  let _ ← Query.ofExcept (σ.location other)
  let shadow ← σ.shadow s
  return σ.overlappedBy shadow other

def expectRegister (σ : Setting) (s : Nat) : Query Unit := do
  let location ← Query.ofExcept (σ.location s)
  if location.isStackSlot then
    throw (.notARegister s)

def areRegistersMergeable (σ : Setting) (a b : Nat) : Query Bool := do
  σ.expectRegister a
  σ.expectRegister b
  let shadowA ← σ.shadow a
  let shadowB ← σ.shadow b
  return !σ.clobberedByDefs shadowA b && !σ.clobberedByDefs shadowB a

/-- Whether two locations, one of them a stack slot, can share one place: neither is live in the
shadow of the other. -/
def areSlotsMergeable (σ : Setting) (a b : Nat) : Query Bool := do
  let locationA ← Query.ofExcept (σ.location a)
  if !locationA.isStackSlot then
    let locationB ← Query.ofExcept (σ.location b)
    if !locationB.isStackSlot then
      throw (.notAStackSlot a)
  let shadowA ← σ.shadow a
  let shadowB ← σ.shadow b
  return !(σ.overlappedBy shadowA b || σ.overlappedBy shadowB a)

end Setting
end SafeRestart
