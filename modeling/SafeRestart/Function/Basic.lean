import SafeRestart.Graph.Dominators
import SafeRestart.Instruction
import SafeRestart.Interval.Basic
import SafeRestart.Storage

/-!
# Functions

A function is a control-flow graph whose nodes are blocks of instructions.  Written one after the
other, the blocks form the layout of the function.  The index of an instruction in the layout is
its slot; the instruction in slot `k` owns the program points `2 * k` and `2 * k + 1`.
-/

namespace SafeRestart

structure Block where
  name : String
  insts : List Instruction
deriving DecidableEq

def Block.size (block : Block) : Nat := block.insts.length

structure Function where
  name : String
  storage : List StorageLocation
  graph : Digraph Block

namespace Function

/-!
# Blocks
-/

def blocks (f : Function) : List Block := f.graph.nodes

def block? (f : Function) (b : Nat) : Option Block := f.blocks[b]?

def blockCount (f : Function) : Nat := f.blocks.length

def entry (_ : Function) : Nat := 0

def exits (f : Function) : List Nat :=
  (List.range f.blockCount).filter fun b => (f.graph.succs b).isEmpty

def blockInsts (f : Function) (b : Nat) : List Instruction := (f.block? b).elim [] Block.insts

def blockSize (f : Function) (b : Nat) : Nat := (f.blockInsts b).length

/-!
# Layout
-/

def layout (f : Function) : List Instruction := f.blocks.flatMap Block.insts

def size (f : Function) : Nat := f.layout.length

/-- The slot at which a block starts: the number of instructions in the blocks before it. -/
def blockStart (f : Function) (b : Nat) : Nat := ((f.blocks.take b).flatMap Block.insts).length

def inst? (f : Function) (i : Nat) : Option Instruction := f.layout.find? fun inst => inst.id == i

def slot? (f : Function) (i : Nat) : Option Nat := f.layout.findIdx? fun inst => inst.id == i

def endPoint (f : Function) : Nat := 2 * f.size

def instAt? (f : Function) (p : Nat) : Option Nat := f.layout[p / 2]?.map Instruction.id

def stores (f : Function) : List Instruction := f.layout.filter fun inst => inst.isStore

/-!
# Storage
-/

def storage? (f : Function) (s : Nat) : Option StorageLocation := f.storage[s]?

def defsOf (f : Function) (s : Nat) : List Nat :=
  (f.layout.filter fun inst => inst.defines s).map Instruction.id

def usesOf (f : Function) (s : Nat) : List Nat :=
  (f.layout.filter fun inst => inst.reads s).map Instruction.id

/-!
# Direct look-ups

These are meant for identifiers of the function itself; any other is a fault.
-/

def inst (f : Function) (i : Nat) : Except Fault Instruction :=
  match f.inst? i with
  | some inst => .ok inst
  | none => .error .outOfBounds

def slot (f : Function) (i : Nat) : Except Fault Nat :=
  match f.slot? i with
  | some k => .ok k
  | none => .error .outOfBounds

def usePoint (f : Function) (i : Nat) : Except Fault Nat := do return 2 * (← f.slot i)

def defPoint (f : Function) (i : Nat) : Except Fault Nat := do return 2 * (← f.slot i) + 1

def blockSpan (f : Function) (b : Nat) : Except Fault Span :=
  if b < f.blockCount then .ok ⟨2 * f.blockStart b, 2 * f.blockStart (b + 1)⟩
  else .error .outOfBounds

/-!
# Dominance
-/

def dominators (f : Function) : DominatorTree := f.graph.dominatorTree f.entry

/-- Whether every way to `b` passes through `a`: by position in one block, by blocks otherwise. -/
def instDominates (f : Function) (a b : Nat) : Except Fault Bool := do
  let a ← f.inst a
  let b ← f.inst b
  return if a.block = b.block then a.position ≤ b.position
    else f.dominators.dominates a.block b.block

/-!
# Text
-/

/-- Where an instruction stands: the name of its block and its position counted from one. -/
def locator (f : Function) (i : Nat) : String :=
  match f.inst? i with
  | some inst =>
      ((f.block? inst.block).elim "?" Block.name) ++ ":" ++ toString (inst.position + 1)
  | none => "?:" ++ IdKind.inst.label i

end Function
end SafeRestart
