import SafeRestart.Config
import SafeRestart.Interval.Gaps
import SafeRestart.Liveness
import SafeRestart.Region.Walk

/-!
# Shadows

Executing a region again reads all values that are live at its entry once more.  The shadow of a
storage location is the set of points, outside its own live range, at which it must not be
overwritten for that reason: from where the value is needed up to the ends of the region.
-/

namespace SafeRestart

structure Shadow where
  storage : Nat
  name : String
  ranges : IntervalSet
deriving DecidableEq

namespace Shadow

def covers (shadow : Shadow) (p : Nat) : Bool := shadow.ranges.contains p

def text (shadow : Shadow) : String :=
  "ShadowInterval " ++ shadow.name ++ " = " ++
    (if shadow.ranges.isEmpty then "empty" else shadow.ranges.text)

end Shadow

structure Setting where
  model : RegionModel
  live : LiveRanges
  config : Config
  ignore : Instruction -> Bool

namespace Setting

def function (σ : Setting) : Function := σ.model.function

def location (σ : Setting) (s : Nat) : Except Error StorageLocation :=
  match σ.function.storage? s with
  | some location => .ok location
  | none => .error (.storageNotFound s)

/-- Copies of a location onto itself and kills do nothing, so they count as absent too. -/
def absent (σ : Setting) (inst : Instruction) : Bool :=
  σ.ignore inst || inst.isIdentityCopy || inst.flags.kill

/-!
# Verification
-/

def overwritten? (σ : Setting) (watched : List Nat) (inst : Instruction) :
    Option Nat :=
  if σ.absent inst || inst.flags.call then none
  else
    inst.defs.find? fun s =>
      watched.contains s && (σ.function.storage? s).any fun location => !location.flags.exempt

/-- Fails at the first instruction with a point in `r` that overwrites a watched location. -/
def verifySpan (σ : Setting) (watched : List Nat) (r : Span) : Except Error Unit :=
  let insts := (σ.function.layout.take ((r.stop + 1) / 2)).drop (r.start / 2)
  match insts.findSome? fun inst => (σ.overwritten? watched inst).map fun s => (s, inst.id) with
  | some (s, clobber) => .error (.clobberedShadow s clobber r.start r.stop)
  | none => .ok ()

def liveIns (σ : Setting) (r : Region) : List Nat :=
  (List.range σ.function.storage.length).filter fun s => σ.live.liveAt s r.point

/-- Fails when some region overwrites a value that is live at its entry. -/
def verifyFunction (σ : Setting) : Except Error Unit :=
  σ.model.regions.forM fun r =>
    (σ.model.pointsIn r).spans.forM (σ.verifySpan (σ.liveIns r))

/-!
# Computation
-/

def readSlots (σ : Setting) (r : Region) (s : Nat) : List Nat :=
  let bounds := σ.model.pointsUntil r fun inst => !σ.absent inst && inst.defines s
  σ.function.slots.filter fun k =>
    ((σ.function.layout[k]?).any fun inst => inst.reads s && !σ.absent inst) &&
      bounds.contains (2 * k)

/-- Where the shadow of a location starts in a region.  The reads of a stack slot are not all
known, so its shadow starts at the entry of the region. -/
def stems (σ : Setting) (r : Region) (s : Nat) (location : StorageLocation) : List Nat :=
  match σ.config.policy with
  | .anyPath => [r.slot]
  | .samePath => if location.isStackSlot then [r.slot] else σ.readSlots r s

/-- Whether the shadow of a location is checked while it is computed.  Starting at the entry only
for lack of knowledge, a stack slot would be rejected without need. -/
def verifies (σ : Setting) (location : StorageLocation) : Bool :=
  σ.config.verify && (σ.config.policy == .anyPath || location.isRegister)

def addSpan (σ : Setting) (s : Nat) (location : StorageLocation) (live shadow : IntervalSet)
    (r : Span) : Except Error IntervalSet := do
  if σ.verifies location then
    σ.verifySpan [s] r
  shadow.insertOutside live r

def addRegion (σ : Setting) (s : Nat) (location : StorageLocation) (live shadow : IntervalSet)
    (r : Region) : Except Error IntervalSet :=
  if live.contains r.point then
    (σ.stems r s location).foldlM
      (fun shadow stem =>
        (σ.model.pointsAfter stem).spans.foldlM (σ.addSpan s location live) shadow)
      shadow
  else
    .ok shadow

def computeShadow (σ : Setting) (s : Nat) : Except Error Shadow := do
  let location ← σ.location s
  match σ.live.interval s with
  | none => return ⟨s, location.name, .empty⟩
  | some live =>
      let ranges ← σ.model.regions.foldlM (σ.addRegion s location live.ranges) .empty
      return ⟨s, location.name, ranges⟩

end Setting
end SafeRestart
