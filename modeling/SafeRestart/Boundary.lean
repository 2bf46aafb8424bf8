import SafeRestart.CutPath

/-!
# Boundary sets

A boundary set holds the instructions before which a region starts, in ascending order of their
numbers.
-/

namespace SafeRestart

structure BoundarySet where
  insts : List Nat
deriving DecidableEq

namespace BoundarySet

def empty : BoundarySet := ⟨[]⟩

def ofList (insts : List Nat) : BoundarySet := ⟨Ascending.ofList insts⟩

def contains (s : BoundarySet) (i : Nat) : Bool := i ∈ s.insts

def insert (s : BoundarySet) (i : Nat) : BoundarySet × Bool :=
  (⟨Ascending.insert i s.insts⟩, !s.contains i)

def size (s : BoundarySet) : Nat := s.insts.length

def covers (s : BoundarySet) (paths : List CutPath) : Bool :=
  paths.all fun path => path.stores.any s.contains

def blocks (s : BoundarySet) (f : Function) : List Nat :=
  Ascending.ofList ((s.insts.filterMap f.inst?).map Instruction.block)

end BoundarySet
end SafeRestart
