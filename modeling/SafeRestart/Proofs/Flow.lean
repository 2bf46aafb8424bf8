import SafeRestart.Function.Flow
import SafeRestart.Proofs.Path
import SafeRestart.Proofs.Placement

/-!
# Control flow as a relation

Control passes from an instruction to the one behind it in the same block, and from the last
instruction of a block to the first one of a successor.  The slots computed by `next` and `prev`
are this relation read forward and backward, so that a path through instructions is the same as a
path through slots.
-/

namespace SafeRestart

namespace Digraph

universe u

variable {α : Type u} {g : Digraph α} {b c : Nat}

theorem mem_succs_iff : c ∈ g.succs b <-> (b, c) ∈ g.edges := by
  unfold succs
  rw [List.mem_filterMap]
  constructor
  · intro h
    rcases h with ⟨⟨s, t⟩, he, heq⟩
    split at heq
    · rename_i hs
      cases heq
      cases hs
      exact he
    · cases heq
  · intro he
    exact ⟨(b, c), he, by simp⟩

theorem mem_preds_iff : b ∈ g.preds c <-> (b, c) ∈ g.edges := by
  unfold preds
  rw [List.mem_filterMap]
  constructor
  · intro h
    rcases h with ⟨⟨s, t⟩, he, heq⟩
    split at heq
    · rename_i ht
      cases heq
      cases ht
      exact he
    · cases heq
  · intro he
    exact ⟨(b, c), he, by simp⟩

end Digraph

namespace Function

inductive Passes (f : Function) : Instruction -> Instruction -> Prop where
  | within {b p : Nat} {i j : Instruction} :
      (f.blockInsts b)[p]? = some i -> (f.blockInsts b)[p + 1]? = some j -> Passes f i j
  | across {b c : Nat} {i j : Instruction} :
      (b, c) ∈ f.graph.edges -> (f.blockInsts b).getLast? = some i ->
        (f.blockInsts c).head? = some j -> Passes f i j

def Leads (f : Function) (k l : Nat) : Prop := l ∈ f.next k

variable {f : Function} {i j : Instruction} {k l b x y : Nat}

/-!
# Next and previous slots
-/

theorem layout_of_place (hf : f.WellFormed) {b p : Nat} (h : (f.blockInsts b)[p]? = some i) :
    f.layout[f.slotOf i]? = some i := by
  rcases hf.placed h with ⟨rfl, rfl⟩
  exact (layout_iff hf).mpr ⟨h, rfl⟩

theorem passes_layout (hf : f.WellFormed) (h : f.Passes i j) :
    f.layout[f.slotOf i]? = some i ∧ f.layout[f.slotOf j]? = some j := by
  cases h with
  | within hi hj => exact ⟨layout_of_place hf hi, layout_of_place hf hj⟩
  | across _ hi hj =>
      rw [List.getLast?_eq_getElem?] at hi
      rw [List.head?_eq_getElem?] at hj
      exact ⟨layout_of_place hf hi, layout_of_place hf hj⟩

theorem leads_of_passes (hf : f.WellFormed) (h : f.Passes i j) :
    f.Leads (f.slotOf i) (f.slotOf j) := by
  have hi := (passes_layout hf h).left
  unfold Leads next
  rw [hi]
  dsimp only
  cases h with
  | within hib hjb =>
      rcases hf.placed hib with ⟨rfl, rfl⟩
      rcases hf.placed hjb with ⟨hblock, hposition⟩
      have hlt : i.position + 1 < f.blockSize i.block := (List.getElem?_eq_some_iff.mp hjb).1
      rw [if_pos hlt]
      simp [slotOf, hblock, hposition, Nat.add_assoc]
  | across hedge hlast hfirst =>
      rename_i b c
      rw [List.getLast?_eq_getElem?] at hlast
      rw [List.head?_eq_getElem?] at hfirst
      rcases hf.placed hlast with ⟨rfl, hposition⟩
      rcases hf.placed hfirst with ⟨rfl, hzero⟩
      have hend : ¬ i.position + 1 < f.blockSize i.block := by
        rw [hposition]
        unfold blockSize
        omega
      rw [if_neg hend]
      refine List.mem_map.mpr ⟨j.block, Digraph.mem_succs_iff.mpr hedge, ?_⟩
      rw [slotOf, hzero, Nat.add_zero]

theorem exists_inst_at {b p : Nat} (hp : p < f.blockSize b) :
    exists inst, (f.blockInsts b)[p]? = some inst :=
  ⟨_, List.getElem?_eq_getElem hp⟩

theorem passes_of_leads (hf : f.WellFormed) (h : f.Leads k l) :
    exists i j, f.layout[k]? = some i ∧ f.layout[l]? = some j ∧ f.Passes i j := by
  unfold Leads next at h
  split at h
  · cases h
  · rename_i i hi
    rcases (layout_iff hf).mp hi with ⟨hplace, rfl⟩
    have hbound : i.position < f.blockSize i.block := (List.getElem?_eq_some_iff.mp hplace).1
    split at h
    · rename_i hlt
      rw [List.mem_singleton] at h
      rcases exists_inst_at hlt with ⟨j, hj⟩
      refine ⟨i, j, hi, ?_, Passes.within hplace hj⟩
      rw [h, slotOf, Nat.add_assoc, layout_at hlt]
      exact hj
    · rename_i hend
      rcases List.mem_map.mp h with ⟨c, hc, rfl⟩
      have hedge := Digraph.mem_succs_iff.mp hc
      have hsize : 0 < f.blockSize c := hf.occupied c (hf.connected hedge).right
      rcases exists_inst_at hsize with ⟨j, hj⟩
      have hlast : (f.blockInsts i.block).length - 1 = i.position := by
        unfold blockSize at hend hbound
        omega
      refine ⟨i, j, hi, ?_, Passes.across hedge ?_ ?_⟩
      · rw [← Nat.add_zero (f.blockStart c), layout_at hsize]
        exact hj
      · rw [List.getLast?_eq_getElem?, hlast]
        exact hplace
      · rw [List.head?_eq_getElem?]
        exact hj

theorem mem_prev_of_passes (hf : f.WellFormed) (h : f.Passes i j) :
    f.slotOf i ∈ f.prev (f.slotOf j) := by
  have hj := (passes_layout hf h).right
  unfold prev
  rw [hj]
  dsimp only
  cases h with
  | within hib hjb =>
      rcases hf.placed hib with ⟨rfl, rfl⟩
      rcases hf.placed hjb with ⟨hblock, hposition⟩
      rw [if_pos (by omega), List.mem_singleton, slotOf, slotOf, hblock, hposition]
      omega
  | across hedge hlast hfirst =>
      rw [List.getLast?_eq_getElem?] at hlast
      rw [List.head?_eq_getElem?] at hfirst
      rcases hf.placed hlast with ⟨rfl, hposition⟩
      rcases hf.placed hfirst with ⟨rfl, hzero⟩
      rw [if_neg (by omega)]
      refine List.mem_map.mpr ⟨i.block, Digraph.mem_preds_iff.mpr hedge, ?_⟩
      have hsize : 0 < f.blockSize i.block := hf.occupied i.block (hf.connected hedge).left
      rw [slotOf, hposition, blockStart_succ]
      unfold blockSize at hsize ⊢
      omega

theorem passes_of_mem_prev (hf : f.WellFormed) (h : k ∈ f.prev l) :
    exists i j, f.layout[k]? = some i ∧ f.layout[l]? = some j ∧ f.Passes i j := by
  unfold prev at h
  split at h
  · cases h
  · rename_i j hj
    rcases (layout_iff hf).mp hj with ⟨hplace, rfl⟩
    have hbound : j.position < f.blockSize j.block := (List.getElem?_eq_some_iff.mp hplace).1
    split at h
    · rename_i hpos
      rw [List.mem_singleton] at h
      have hlt : j.position - 1 < f.blockSize j.block := by omega
      rcases exists_inst_at hlt with ⟨i, hi⟩
      have hself : (f.blockInsts j.block)[j.position - 1 + 1]? = some j := by
        rw [Nat.sub_add_cancel hpos]
        exact hplace
      have hslot : f.slotOf j - 1 = f.blockStart j.block + (j.position - 1) := by
        unfold slotOf
        omega
      refine ⟨i, j, ?_, hj, Passes.within hi hself⟩
      rw [h, hslot, layout_at hlt]
      exact hi
    · rename_i hzero
      rcases List.mem_map.mp h with ⟨b, hb, rfl⟩
      have hedge := Digraph.mem_preds_iff.mp hb
      have hlt : f.blockSize b - 1 < f.blockSize b :=
        Nat.sub_lt (hf.occupied b (hf.connected hedge).left) Nat.one_pos
      rcases exists_inst_at hlt with ⟨i, hi⟩
      have hslot : f.blockStart (b + 1) - 1 = f.blockStart b + (f.blockSize b - 1) := by
        rw [blockStart_succ]
        omega
      refine ⟨i, j, ?_, hj, Passes.across hedge ?_ ?_⟩
      · rw [hslot, layout_at hlt]
        exact hi
      · rw [List.getLast?_eq_getElem?]
        exact hi
      · rw [List.head?_eq_getElem?, ← Nat.eq_zero_of_not_pos hzero]
        exact hplace

theorem mem_prev_iff (hf : f.WellFormed) : k ∈ f.prev l <-> f.Leads k l := by
  constructor
  · intro h
    rcases passes_of_mem_prev hf h with ⟨i, j, hi, hj, hpasses⟩
    rw [← ((layout_iff hf).mp hi).right, ← ((layout_iff hf).mp hj).right]
    exact leads_of_passes hf hpasses
  · intro h
    rcases passes_of_leads hf h with ⟨i, j, hi, hj, hpasses⟩
    rw [← ((layout_iff hf).mp hi).right, ← ((layout_iff hf).mp hj).right]
    exact mem_prev_of_passes hf hpasses

theorem leads_lt (hf : f.WellFormed) (h : f.Leads k l) : k < f.size ∧ l < f.size := by
  rcases passes_of_leads hf h with ⟨i, j, hi, hj, _⟩
  exact ⟨(List.getElem?_eq_some_iff.mp hi).1, (List.getElem?_eq_some_iff.mp hj).1⟩

/-!
# Slots of one block
-/

theorem exists_layout_in_block (hf : f.WellFormed) (hlow : f.blockStart b ≤ x)
    (hhigh : x < f.blockStart (b + 1)) :
    exists inst, f.layout[x]? = some inst ∧ inst.block = b ∧
      f.blockStart b + inst.position = x := by
  rw [blockStart_succ] at hhigh
  have hp : x - f.blockStart b < f.blockSize b := by omega
  rcases exists_inst_at hp with ⟨inst, hplace⟩
  rcases hf.placed hplace with ⟨hblock, hposition⟩
  have hinst := layout_at hp
  rw [Nat.add_sub_cancel' hlow, hplace] at hinst
  exact ⟨inst, hinst, hblock, by omega⟩

theorem next_in_block (hf : f.WellFormed) (hlow : f.blockStart b ≤ x)
    (hhigh : x < f.blockStart (b + 1)) :
    f.next x = if x + 1 < f.blockStart (b + 1) then [x + 1]
      else (f.graph.succs b).map f.blockStart := by
  rcases exists_layout_in_block hf hlow hhigh with ⟨inst, hinst, hblock, hposition⟩
  have hinner : inst.position + 1 < f.blockSize b <-> x + 1 < f.blockStart (b + 1) := by
    rw [blockStart_succ]
    omega
  unfold next
  rw [hinst]
  simp only [hblock, hinner]

theorem prev_in_block (hf : f.WellFormed) (hlow : f.blockStart b ≤ x)
    (hhigh : x < f.blockStart (b + 1)) :
    f.prev x = if f.blockStart b < x then [x - 1]
      else (f.graph.preds b).map fun c => f.blockStart (c + 1) - 1 := by
  rcases exists_layout_in_block hf hlow hhigh with ⟨inst, hinst, hblock, hposition⟩
  have hinner : 0 < inst.position <-> f.blockStart b < x := by omega
  unfold prev
  rw [hinst]
  simp only [hblock, hinner]

theorem leads_cases (hf : f.WellFormed) (hlow : f.blockStart b ≤ x)
    (hhigh : x < f.blockStart (b + 1)) :
    f.Leads x y <->
      (x + 1 < f.blockStart (b + 1) ∧ y = x + 1) ∨
        (x + 1 = f.blockStart (b + 1) ∧ exists c, c ∈ f.graph.succs b ∧ y = f.blockStart c) := by
  unfold Leads
  rw [next_in_block hf hlow hhigh]
  split
  · rename_i hinner
    simp [hinner, Nat.ne_of_lt hinner]
  · rename_i hlast
    have hend : x + 1 = f.blockStart (b + 1) := by omega
    simp [hend, eq_comm]

theorem blockStart_lt_succ (hf : f.WellFormed) (hb : b < f.blockCount) :
    f.blockStart b < f.blockStart (b + 1) := by
  have hsize := hf.occupied b hb
  rw [blockStart_succ]
  omega

/-!
# Paths through instructions and through slots
-/

theorem path_slots (hf : f.WellFormed) {met : List Instruction} (h : Path f.Passes i met j) :
    Path f.Leads (f.slotOf i) (met.map f.slotOf) (f.slotOf j) := by
  induction h with
  | nil i => exact Path.nil (f.slotOf i)
  | cons hstep _ ih => exact Path.cons (leads_of_passes hf hstep) ih

theorem path_insts (hf : f.WellFormed) {met : List Nat} (hi : f.layout[k]? = some i)
    (h : Path f.Leads k met l) :
    exists insts j, f.layout[l]? = some j ∧ Path f.Passes i insts j ∧
      insts.map f.slotOf = met := by
  induction h generalizing i with
  | nil k => exact ⟨[], i, hi, Path.nil i, rfl⟩
  | cons hstep _ ih =>
      rcases passes_of_leads hf hstep with ⟨i', j, hi', hj, hpasses⟩
      cases hi.symm.trans hi'
      rcases ih hj with ⟨insts, last, hlast, htail, hmap⟩
      refine ⟨j :: insts, last, hlast, Path.cons hpasses htail, ?_⟩
      rw [List.map_cons, hmap, ((layout_iff hf).mp hj).right]

theorem path_mem_layout (hf : f.WellFormed) {met : List Instruction} (h : Path f.Passes i met j) :
    forall x, x ∈ met -> x ∈ f.layout := by
  induction h with
  | nil _ => simp
  | cons hstep _ ih =>
      intro x hx
      rcases List.mem_cons.mp hx with rfl | hx
      · exact (mem_layout_iff hf).mpr (passes_layout hf hstep).right
      · exact ih x hx

theorem path_end_mem_layout (hf : f.WellFormed) {met : List Instruction} (hi : i ∈ f.layout)
    (h : Path f.Passes i met j) : j ∈ f.layout := by
  rcases path_end h with ⟨_, hsame⟩ | ⟨before, hbefore⟩
  · exact hsame ▸ hi
  · apply path_mem_layout hf h j
    rw [hbefore]
    exact List.mem_append_right before (List.mem_singleton_self j)

end Function
end SafeRestart
