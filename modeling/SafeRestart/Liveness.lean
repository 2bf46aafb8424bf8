import SafeRestart.Function.Flow

/-!
# Live ranges

A storage location is live at the use point of an instruction when control can pass from there to
an instruction that reads it, with no instruction before that one writing it.  It is live at the
def point of an instruction when the instruction writes it or when it is live at the use point of
an instruction that can come next.
-/

namespace SafeRestart

structure LiveInterval where
  storage : Nat
  ranges : IntervalSet
deriving DecidableEq

namespace LiveInterval

def liveAt (live : LiveInterval) (p : Nat) : Bool := live.ranges.contains p

def text (live : LiveInterval) : String :=
  IdKind.storage.label live.storage ++ " = " ++ live.ranges.text

end LiveInterval

structure LiveRanges where
  /-- The live interval of a storage location; `none` for one that is never live. -/
  interval : Nat -> Option LiveInterval

namespace LiveRanges

def liveAt (live : LiveRanges) (s : Nat) (p : Nat) : Bool :=
  (live.interval s).any fun interval => interval.liveAt p

def find (live : LiveRanges) (s : Nat) (p : Nat) : Option Span :=
  (live.interval s).bind fun interval => interval.ranges.find p

end LiveRanges

namespace Function

/-- The slots at whose use point a storage location is live: the reads, and backward from them all
that do not write the location. -/
def liveSlots (f : Function) (s : Nat) : List Nat :=
  let reading := f.slots.filter fun k => (f.layout[k]?).any fun inst => inst.reads s
  let back := fun k =>
    (f.prev k).filter fun j => !(f.layout[j]?).any fun inst => inst.defines s
  Search.sweep back reading f.slots

def livePoints (f : Function) (s : Nat) : IntervalSet :=
  let live := f.liveSlots s
  let before := live.map fun k => ⟨2 * k, 2 * k + 1⟩
  let after := f.slots.filter fun k =>
    ((f.layout[k]?).any fun inst => inst.defines s) || (f.next k).any fun j => j ∈ live
  IntervalSet.ofSpans (before ++ after.map fun k => ⟨2 * k + 1, 2 * k + 2⟩)

def liveIntervals (f : Function) : List (Option LiveInterval) :=
  (List.range f.storage.length).map fun s =>
    let ranges := f.livePoints s
    if ranges.isEmpty then none else some ⟨s, ranges⟩

def liveRanges (f : Function) : LiveRanges :=
  let intervals := f.liveIntervals
  ⟨fun s => intervals[s]?.join⟩

end Function
end SafeRestart
