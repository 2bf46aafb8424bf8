import SafeRestart.Proofs.Arrangement
import SafeRestart.Proofs.Guarded.Basic

/-!
# Guarded look-ups in a function

The points of an instruction and the ends of a block have to be identifiers, and the instructions
of a block are looked up by their numbers.
-/

namespace SafeRestart

/-!
# Points
-/

theorem checkIndex_of_le {n : Nat} (h : n ≤ maxIndex) : checkIndex n = .ok n := by
  rw [checkIndex, if_pos h]

theorem advance_of_le {p distance : Nat} (h : p + distance ≤ maxIndex) :
    Point.advance p distance = .ok (p + distance) := by
  have hsum : maxIndex ≤ maxSum := by decide
  rw [Point.advance, if_pos (by omega), checkIndex_of_le h]

namespace Function

variable {f : Function} {b k : Nat} {inst : Instruction}

theorem point_le_maxIndex {p : Nat} (hsize : f.size < 2147483648) (hp : p ≤ 2 * f.size) :
    p ≤ maxIndex := by
  unfold maxIndex
  omega

/-- Each instruction has a place in a table with as many places as there are instructions. -/
def Numbered (f : Function) : Prop := forall inst, inst ∈ f.layout -> inst.id < f.size

theorem numbered_of_assemble {name : String} {steps : List Step}
    (hfinished : Function.assemble name steps = .ok f) : f.Numbered := by
  have hperm := Assembly.perm_layout_of_finish hfinished
  have hcount : f.layout.length = Assembly.instsIn steps := by simpa using hperm.length_eq
  intro inst hinst
  show inst.id < f.layout.length
  rw [hcount]
  exact List.mem_range.mp (hperm.mem_iff.mp (List.mem_map_of_mem hinst))

/-!
# Blocks and instructions
-/

def guardedUse (f : Function) (i : Nat) : Except Fault Nat := do checkIndex (← f.usePoint i)

def guardedDef (f : Function) (i : Nat) : Except Fault Nat := do checkIndex (← f.defPoint i)

def guardedSpan (f : Function) (b : Nat) : Except Fault Span := do
  let span ← f.blockSpan b
  return ⟨← checkIndex span.start, ← checkIndex span.stop⟩

def blockIds (f : Function) (b : Nat) : List Nat := (f.blockInsts b).map Instruction.id

def guardedBlock (f : Function) (b : Nat) : Except Fault (List Instruction) :=
  (f.blockIds b).mapM f.inst

theorem blockStart_le_size (hb : b ≤ f.blockCount) : f.blockStart b ≤ f.size := by
  rw [← blockStart_blockCount]
  exact blockStart_mono hb

theorem guardedSpan_eq (hsize : f.size < 2147483648) (hb : b < f.blockCount) :
    f.guardedSpan b = .ok ⟨2 * f.blockStart b, 2 * f.blockStart (b + 1)⟩ := by
  have hstart := blockStart_le_size (Nat.le_of_lt hb)
  have hstop : f.blockStart (b + 1) ≤ f.size := blockStart_le_size hb
  unfold guardedSpan
  rw [blockSpan_of_lt hb, ok_bind]
  dsimp only
  rw [checkIndex_of_le (point_le_maxIndex hsize (by omega)),
    checkIndex_of_le (point_le_maxIndex hsize (by omega))]
  rfl

theorem mem_layout_of_mem_blockInsts (h : inst ∈ f.blockInsts b) : inst ∈ f.layout := by
  rcases List.getElem?_of_mem h with ⟨p, hp⟩
  have hlt : p < f.blockSize b := (List.getElem?_eq_some_iff.mp hp).1
  exact List.mem_of_getElem? ((layout_at hlt).trans hp)

theorem guardedBlock_eq (hf : f.WellFormed) (b : Nat) :
    f.guardedBlock b = .ok (f.blockInsts b) := by
  unfold guardedBlock blockIds
  rw [List.mapM_map, mapM_eq_map (h := id), List.map_id]
  intro inst hinst
  exact inst_of_mem hf (mem_layout_of_mem_blockInsts hinst)

section Bounded

variable (hf : f.WellFormed) (hsize : f.size < 2147483648) (hinst : f.layout[k]? = some inst)
include hf hsize hinst

theorem guardedUse_of_layout : f.guardedUse inst.id = .ok (2 * k) := by
  have hk : k < f.size := (List.getElem?_eq_some_iff.mp hinst).1
  rw [guardedUse, usePoint_of_layout hf hinst, ok_bind,
    checkIndex_of_le (point_le_maxIndex hsize (by omega))]

theorem guardedDef_of_layout : f.guardedDef inst.id = .ok (2 * k + 1) := by
  have hk : k < f.size := (List.getElem?_eq_some_iff.mp hinst).1
  rw [guardedDef, defPoint_of_layout hf hinst, ok_bind,
    checkIndex_of_le (point_le_maxIndex hsize (by omega))]

end Bounded
end Function
end SafeRestart
