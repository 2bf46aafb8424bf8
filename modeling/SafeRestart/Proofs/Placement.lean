import Mathlib.Data.List.Nodup
import SafeRestart.Function.Assembly

/-!
# Placement of instructions

What holds of every function that can be assembled: no block is empty, each instruction knows the
block and the position at which it stands, no two instructions have the same number, and edges run
between blocks of the function.  An instruction then determines its slot.
-/

namespace SafeRestart
namespace Function

structure WellFormed (f : Function) : Prop where
  inhabited : 0 < f.blockCount
  occupied : forall b, b < f.blockCount -> 0 < f.blockSize b
  placed : forall {b p : Nat} {inst : Instruction}, (f.blockInsts b)[p]? = some inst ->
    inst.block = b ∧ inst.position = p
  distinct : (f.layout.map Instruction.id).Nodup
  connected : forall {b c : Nat}, (b, c) ∈ f.graph.edges -> b < f.blockCount ∧ c < f.blockCount

/-- The slot at which an instruction claims to stand. -/
def slotOf (f : Function) (inst : Instruction) : Nat := f.blockStart inst.block + inst.position

variable {f : Function} {b p k : Nat} {inst : Instruction}

/-!
# Blocks in the layout

The layout is a concatenation; its index splits into a block and a position in that block.
-/

theorem blockSize_pos_lt (h : 0 < f.blockSize b) : b < f.blockCount := by
  by_contra hb
  have hnone : f.block? b = none := List.getElem?_eq_none (Nat.le_of_not_lt hb)
  simp [blockSize, blockInsts, hnone] at h

theorem blockInsts_of_block? {block : Block} (h : f.block? b = some block) :
    f.blockInsts b = block.insts := by
  simp [blockInsts, h]

theorem blockStart_succ (b : Nat) : f.blockStart (b + 1) = f.blockStart b + f.blockSize b := by
  unfold blockStart blockSize blockInsts block?
  rw [List.take_add_one, List.flatMap_append, List.length_append]
  cases f.blocks[b]? with
  | none => rfl
  | some block => simp

theorem blockStart_zero : f.blockStart 0 = 0 := by
  simp [blockStart]

theorem blockStart_blockCount : f.blockStart f.blockCount = f.size := by
  simp [blockStart, blockCount, size, layout]

theorem layout_at (hp : p < f.blockSize b) :
    f.layout[f.blockStart b + p]? = (f.blockInsts b)[p]? := by
  have hb : b < f.blocks.length := blockSize_pos_lt (Nat.lt_of_le_of_lt (Nat.zero_le p) hp)
  have hblock : f.block? b = some f.blocks[b] := List.getElem?_eq_getElem hb
  have hsplit : f.layout =
      (f.blocks.take b).flatMap Block.insts ++
        (f.blocks[b].insts ++ (f.blocks.drop (b + 1)).flatMap Block.insts) := by
    unfold layout
    conv => lhs; rw [← List.take_append_drop b f.blocks, List.drop_eq_getElem_cons hb]
    rw [List.flatMap_append, List.flatMap_cons]
  rw [blockSize, blockInsts_of_block? hblock] at hp
  rw [blockInsts_of_block? hblock, hsplit, blockStart,
    List.getElem?_append_right (Nat.le_add_right _ p), Nat.add_sub_cancel_left,
    List.getElem?_append_left hp]

theorem exists_block_of_lt {n : Nat} (hk : k < f.blockStart n) :
    exists b p, p < f.blockSize b ∧ k = f.blockStart b + p := by
  induction n with
  | zero => simp [blockStart_zero] at hk
  | succ n ih =>
      rw [blockStart_succ] at hk
      by_cases hbefore : k < f.blockStart n
      · exact ih hbefore
      · exact ⟨n, k - f.blockStart n, by omega, by omega⟩

theorem exists_place_of_layout (h : f.layout[k]? = some inst) :
    exists b p, (f.blockInsts b)[p]? = some inst ∧ k = f.blockStart b + p := by
  have hk : k < f.blockStart f.blockCount := by
    rw [blockStart_blockCount]
    exact (List.getElem?_eq_some_iff.mp h).1
  rcases exists_block_of_lt hk with ⟨b, p, hp, rfl⟩
  rw [layout_at hp] at h
  exact ⟨b, p, h, rfl⟩

/-!
# Slots of well-formed functions
-/

theorem layout_iff (hf : f.WellFormed) :
    f.layout[k]? = some inst <->
      (f.blockInsts inst.block)[inst.position]? = some inst ∧ f.slotOf inst = k := by
  constructor
  · intro h
    rcases exists_place_of_layout h with ⟨b, p, hplace, rfl⟩
    rcases hf.placed hplace with ⟨rfl, rfl⟩
    exact ⟨hplace, rfl⟩
  · intro h
    rcases h with ⟨hplace, rfl⟩
    rw [slotOf, layout_at (List.getElem?_eq_some_iff.mp hplace).1]
    exact hplace

theorem mem_layout_iff (hf : f.WellFormed) :
    inst ∈ f.layout <-> f.layout[f.slotOf inst]? = some inst := by
  rw [List.mem_iff_getElem?]
  constructor
  · intro h
    rcases h with ⟨k, hk⟩
    rw [((layout_iff hf).mp hk).right]
    exact hk
  · intro h
    exact ⟨_, h⟩

theorem slot?_iff (hf : f.WellFormed) {i : Nat} :
    f.slot? i = some k <-> exists inst, f.layout[k]? = some inst ∧ inst.id = i := by
  unfold slot?
  rw [List.findIdx?_eq_some_iff_getElem]
  constructor
  · intro h
    rcases h with ⟨hk, hid, _⟩
    exact ⟨f.layout[k], List.getElem?_eq_getElem hk, by simpa using hid⟩
  · intro h
    rcases h with ⟨inst, hinst, rfl⟩
    rcases List.getElem?_eq_some_iff.mp hinst with ⟨hk, rfl⟩
    refine ⟨hk, by simp, ?_⟩
    intro j hj
    have hpair : f.layout.Pairwise fun x y => x.id ≠ y.id := List.pairwise_map.mp hf.distinct
    simpa using List.pairwise_iff_getElem.mp hpair j k (Nat.lt_trans hj hk) hk hj

theorem slot?_of_layout (hf : f.WellFormed) (h : f.layout[k]? = some inst) :
    f.slot? inst.id = some k :=
  (slot?_iff hf).mpr ⟨inst, h, rfl⟩

theorem inst?_of_layout (hf : f.WellFormed) (h : f.layout[k]? = some inst) :
    f.inst? inst.id = some inst := by
  have hslot := slot?_of_layout hf h
  unfold slot? at hslot
  unfold inst?
  rw [List.find?_eq_bind_findIdx?_getElem?, hslot]
  exact h

theorem slot_ok_iff (hf : f.WellFormed) {i : Nat} :
    f.slot i = .ok k <-> exists inst, f.layout[k]? = some inst ∧ inst.id = i := by
  rw [← slot?_iff hf]
  unfold slot
  cases f.slot? i with
  | none => simp
  | some l => simp

theorem inst_of_mem (hf : f.WellFormed) (h : inst ∈ f.layout) : f.inst inst.id = .ok inst := by
  unfold Function.inst
  rw [inst?_of_layout hf ((mem_layout_iff hf).mp h)]

theorem slot_of_mem (hf : f.WellFormed) (h : inst ∈ f.layout) :
    f.slot inst.id = .ok (f.slotOf inst) :=
  (slot_ok_iff hf).mpr ⟨inst, (mem_layout_iff hf).mp h, rfl⟩

theorem usePoint_of_layout (hf : f.WellFormed) (h : f.layout[k]? = some inst) :
    f.usePoint inst.id = .ok (2 * k) := by
  unfold usePoint
  rw [(slot_ok_iff hf).mpr ⟨inst, h, rfl⟩]
  rfl

theorem defPoint_of_layout (hf : f.WellFormed) (h : f.layout[k]? = some inst) :
    f.defPoint inst.id = .ok (2 * k + 1) := by
  unfold defPoint
  rw [(slot_ok_iff hf).mpr ⟨inst, h, rfl⟩]
  rfl

theorem instAt?_of_layout (h : f.layout[k]? = some inst) :
    f.instAt? (2 * k) = some inst.id ∧ f.instAt? (2 * k + 1) = some inst.id := by
  have huse : 2 * k / 2 = k := by omega
  have hdef : (2 * k + 1) / 2 = k := by omega
  unfold instAt?
  rw [huse, hdef, h]
  exact ⟨rfl, rfl⟩

end Function
end SafeRestart
