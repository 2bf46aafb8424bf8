import SafeRestart.Ident

/-!
# Causes of failure

One constructor for each way in which a function is ill-formed or a question about it has no
answer.  The wording is in `Error.message` alone.
-/

namespace SafeRestart

inductive Error where
  | unknownBlock (block : Nat)
  | noBlockSelected (inst : Nat)
  | noBlocks (name : String)
  | emptyBlock (name : String)
  | unknownInstruction (inst missing : Nat)
  | unknownStorage (inst : Nat) (missing : Nat)
  | missingNode (source target missing : Nat)
  | instructionNotFound (inst : Nat)
  | storageNotFound (storage : Nat)
  | notARegister (storage : Nat)
  | notAStackSlot (storage : Nat)
  | overlappingRange (start stop : Nat)
  | clobberedShadow (storage : Nat) (clobber : Nat) (start stop : Nat)
deriving DecidableEq

namespace Error

private def rangeText (start stop : Nat) : String :=
  "[" ++ IdKind.point.label start ++ ", " ++ IdKind.point.label stop ++ ")"

def message : Error -> String
  | unknownBlock block => "switch to unknown block " ++ IdKind.node.label block
  | noBlockSelected inst =>
      "instruction " ++ IdKind.inst.label inst ++ " added before any block was selected"
  | noBlocks name => s!"function '{name}' has no blocks"
  | emptyBlock name => s!"block '{name}' has no instructions"
  | unknownInstruction inst missing =>
      IdKind.inst.label inst ++ " refers to unknown instruction " ++ IdKind.inst.label missing
  | unknownStorage inst missing =>
      IdKind.inst.label inst ++ " refers to unknown storage " ++ IdKind.storage.label missing
  | missingNode source target missing =>
      "edge " ++ IdKind.node.label source ++ " -> " ++ IdKind.node.label target ++
        " references missing node " ++ IdKind.node.label missing
  | instructionNotFound inst => "Instruction not found - " ++ IdKind.inst.label inst
  | storageNotFound storage => "Storage location not found - " ++ IdKind.storage.label storage
  | notARegister storage =>
      "Storage location " ++ IdKind.storage.label storage ++ " is not a register"
  | notAStackSlot storage =>
      "Storage location " ++ IdKind.storage.label storage ++ " is not a stack slot"
  | overlappingRange start stop =>
      "Range " ++ rangeText start stop ++ " overlaps an existing range"
  | clobberedShadow storage clobber start stop =>
      "Shadow of " ++ IdKind.storage.label storage ++ " in " ++ rangeText start stop ++
        " is clobbered by " ++ IdKind.inst.label clobber

end Error

end SafeRestart
