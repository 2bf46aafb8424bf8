import SafeRestart.Memory

/-!
# Instructions

An operation says what is done; an instruction is an operation at its place in a function.
-/

namespace SafeRestart

inductive OpcodeClass where
  | controlFlow
  | memory
  | arithmetic
  | other
deriving DecidableEq

namespace OpcodeClass

def all : List OpcodeClass := [controlFlow, memory, arithmetic, other]

def text : OpcodeClass -> String
  | controlFlow => "control-flow"
  | memory => "memory"
  | arithmetic => "arith"
  | other => "other"

end OpcodeClass

inductive Operand where
  | const (value : Int64)
  | value (inst : Nat)
deriving DecidableEq

def Operand.text : Operand -> String
  | .const n => "#" ++ toString n.toInt
  | .value inst => IdKind.inst.label inst

structure InstFlags where
  call : Bool := false
  copy : Bool := false
  identityCopy : Bool := false
  kill : Bool := false
  boundary : Bool := false
  ret : Bool := false
deriving DecidableEq

namespace InstFlags

def ofBits (bits : Nat) : InstFlags :=
  ⟨bits.testBit 0, bits.testBit 1, bits.testBit 2, bits.testBit 3, bits.testBit 4, bits.testBit 5⟩

def toBits (flags : InstFlags) : Nat :=
  flags.call.toNat + 2 * flags.copy.toNat + 4 * flags.identityCopy.toNat +
    8 * flags.kill.toNat + 16 * flags.boundary.toNat + 32 * flags.ret.toNat

end InstFlags

structure Operation where
  opcodeClass : OpcodeClass
  mnemonic : String
  operands : List Operand := []
  memory : Option MemoryAccess := none
  defs : List Nat := []
  uses : List Nat := []
  flags : InstFlags := {}
deriving DecidableEq

/-!
# Common operations
-/

namespace Operation

def load (address : Address) (size : UInt32) : Operation :=
  { opcodeClass := .memory, mnemonic := "load", memory := some ⟨.load, ⟨address, size⟩⟩ }

def loadInto (target : Nat) (address : Address) (size : UInt32) : Operation :=
  { load address size with defs := [target] }

def store (address : Address) (size : UInt32) : Operation :=
  { opcodeClass := .memory, mnemonic := "store", memory := some ⟨.store, ⟨address, size⟩⟩ }

def storeFrom (source : Nat) (address : Address) (size : UInt32) : Operation :=
  { store address size with uses := [source] }

def arith (mnemonic : String) (defs uses : List Nat) : Operation :=
  { opcodeClass := .arithmetic, mnemonic := mnemonic, defs := defs, uses := uses }

def copy (target source : Nat) : Operation :=
  { opcodeClass := .other, mnemonic := "copy", defs := [target], uses := [source],
    flags := { copy := true, identityCopy := target = source } }

def call (callee : String) (defs uses : List Nat) : Operation :=
  { opcodeClass := .controlFlow, mnemonic := "call " ++ callee, defs := defs, uses := uses,
    flags := { call := true } }

/-- Marks the end of a value without doing anything. -/
def kill (storage : Nat) : Operation :=
  { opcodeClass := .other, mnemonic := "kill", uses := [storage], flags := { kill := true } }

def boundary : Operation :=
  { opcodeClass := .other, mnemonic := "idem", flags := { boundary := true } }

def spill (slot source : Nat) : Operation :=
  { opcodeClass := .memory, mnemonic := "spill", defs := [slot], uses := [source] }

def reload (target slot : Nat) : Operation :=
  { opcodeClass := .memory, mnemonic := "reload", defs := [target], uses := [slot] }

def branch (uses : List Nat) : Operation :=
  { opcodeClass := .controlFlow, mnemonic := "br", uses := uses }

def ret (uses : List Nat) : Operation :=
  { opcodeClass := .controlFlow, mnemonic := "ret", uses := uses, flags := { ret := true } }

/-!
# Properties of an operation
-/

def location? (op : Operation) (kind : AccessKind) : Option MemoryLocation :=
  (op.memory.filter fun access => access.kind == kind).map MemoryAccess.location

def loadLocation (op : Operation) : Option MemoryLocation := op.location? .load

def storeLocation (op : Operation) : Option MemoryLocation := op.location? .store

def isLoad (op : Operation) : Bool := op.loadLocation.isSome

def isStore (op : Operation) : Bool := op.storeLocation.isSome

def copySource (op : Operation) : Option Nat :=
  if op.flags.copy then op.uses.head? else none

def isIdentityCopy (op : Operation) : Bool :=
  op.flags.identityCopy || (op.flags.copy && op.defs.head?.isSome && op.defs.head? == op.uses.head?)

def defines (op : Operation) (storage : Nat) : Bool := op.defs.contains storage

def reads (op : Operation) (storage : Nat) : Bool := op.uses.contains storage

/-- The instructions whose results the operation names: its operands, then its address. -/
def references (op : Operation) : List Nat :=
  let operands := op.operands.filterMap fun operand =>
    match operand with
    | .value inst => some inst
    | .const _ => none
  let base :=
    match op.memory with
    | some ⟨_, ⟨⟨.value inst, _⟩, _⟩⟩ => [inst]
    | _ => []
  operands ++ base

def text (op : Operation) : String :=
  let results := op.defs.map IdKind.storage.label
  let inputs := op.uses.map IdKind.storage.label ++ op.operands.map Operand.text ++
    op.memory.toList.map fun access =>
      "[" ++ access.location.address.text ++ "; " ++ toString access.location.size.toNat ++ "]"
  (if results.isEmpty then "" else String.intercalate ", " results ++ " = ") ++ op.mnemonic ++
    (if inputs.isEmpty then "" else " " ++ String.intercalate ", " inputs)

end Operation

structure Instruction extends Operation where
  id : Nat
  block : Nat
  position : Nat
deriving DecidableEq

namespace Instruction

def text (inst : Instruction) : String :=
  IdKind.inst.label inst.id ++ ": " ++ inst.toOperation.text

end Instruction
end SafeRestart
