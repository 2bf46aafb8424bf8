import SafeRestart.Function.Basic

/-!
# Assembling functions

A function is assembled step by step: storage locations are declared, blocks opened and selected,
operations emitted into the selected block, blocks connected.  Nothing is refused on the way; what
is wrong with a sequence of steps shows when the function is finished.
-/

namespace SafeRestart

inductive Step where
  | declare (kind : StorageKind) (name : String) (flags : StorageFlags)
  | openBlock (name : String)
  | select (block : Nat)
  | emit (op : Operation)
  | connect (source target : Nat)
deriving DecidableEq

structure Assembly where
  name : String
  storage : List StorageLocation := []
  blocks : List String := []
  /-- The instructions in the order in which they were emitted. -/
  insts : List Instruction := []
  edges : List (Nat × Nat) := []
  selected : Option Nat := none
  misstep : Option Error := none
deriving DecidableEq

namespace Assembly

/-- Remembers a misstep unless there was one before. -/
def blame (a : Assembly) (error : Error) : Assembly :=
  { a with misstep := a.misstep <|> some error }

def members (a : Assembly) (b : Nat) : List Instruction :=
  a.insts.filter fun inst => inst.block == b

def place (a : Assembly) (b : Nat) (op : Operation) : Assembly :=
  let inst : Instruction :=
    { op with id := a.insts.length, block := b, position := (a.members b).length }
  { a with insts := a.insts ++ [inst] }

def step (a : Assembly) : Step -> Assembly
  | .declare kind name flags => { a with storage := a.storage ++ [⟨kind, name, flags⟩] }
  | .openBlock name => { a with blocks := a.blocks ++ [name] }
  | .select b =>
      if b < a.blocks.length then { a with selected := some b } else a.blame (.unknownBlock b)
  | .emit op =>
      match a.selected with
      | some b => a.place b op
      | none => (a.blame (.noBlockSelected a.insts.length)).place 0 op
  | .connect source target => { a with edges := a.edges ++ [(source, target)] }

/-- The number that a step gives to what it adds. -/
def created (a : Assembly) : Step -> Option Nat
  | .declare _ _ _ => some a.storage.length
  | .openBlock _ => some a.blocks.length
  | .select _ => none
  | .emit _ => some a.insts.length
  | .connect _ _ => none

def run (name : String) (steps : List Step) : Assembly := steps.foldl step { name := name }

/-!
# Finishing
-/

def flaw? (a : Assembly) (inst : Instruction) : Option Error :=
  match inst.references.find? fun i => a.insts.length ≤ i with
  | some missing => some (.unknownInstruction inst.id missing)
  | none =>
      ((inst.defs ++ inst.uses).find? fun s => a.storage.length ≤ s).map
        (Error.unknownStorage inst.id)

/-- The first thing that is wrong, the edges apart. -/
def firstError? (a : Assembly) : Option Error :=
  match a.misstep with
  | some error => some error
  | none =>
      if a.blocks.isEmpty then some (.noBlocks a.name)
      else
        match a.blocks.zipIdx.find? fun named => (a.members named.2).isEmpty with
        | some named => some (.emptyBlock named.1)
        | none => a.insts.findSome? a.flaw?

def unconnected (a : Assembly) : Digraph Block :=
  ⟨a.blocks.zipIdx.map fun named => ⟨named.1, a.members named.2⟩, []⟩

def finish (a : Assembly) : Except Error Function :=
  match a.firstError? with
  | some error => .error error
  | none => (a.unconnected.addEdges a.edges).map fun graph => ⟨a.name, a.storage, graph⟩

end Assembly

def Function.assemble (name : String) (steps : List Step) : Except Error Function :=
  (Assembly.run name steps).finish

end SafeRestart
