import Mathlib.Order.Monotone.Basic
import SafeRestart.Proofs.Acceptance
import SafeRestart.Proofs.Flow
import SafeRestart.Proofs.Interval

/-!
# How a finished function is arranged

Operations are numbered as they are emitted, whichever block is selected; in the layout they stand
block by block.  However the blocks were interleaved, the number of an instruction leads to it, to
its place and to its points, the blocks tile the points of the function, and what is listed for a
storage location or a block is listed completely and once.
-/

namespace SafeRestart

/-- Non-empty spans, each starting where the one before it stops, from one point to another. -/
inductive Tiles : Nat -> List Span -> Nat -> Prop where
  | nil (p : Nat) : Tiles p [] p
  | cons {p q stop : Nat} {rest : List Span} :
      p < q -> Tiles q rest stop -> Tiles p (⟨p, q⟩ :: rest) stop

namespace Assembly

variable {name : String} {steps : List Step} {inst : Instruction} {f : Function}

/-!
# Emitted instructions in the layout
-/

theorem blocksIn_mono {before : List Step} (h : before <+: steps) :
    blocksIn before ≤ blocksIn steps :=
  (h.sublist.filterMap Step.block?).length_le

theorem block_lt_of_mem_insts (hstep : (run name steps).misstep = none)
    (h : inst ∈ (run name steps).insts) : inst.block < (run name steps).blocks.length := by
  rcases mem_insts_run_iff.mp h with ⟨before, op, hbefore, rfl⟩
  have hselected : (run name before).selected.isSome = true :=
    misstep_run_iff.mp hstep before (.emit op) hbefore
  rcases Option.isSome_iff_exists.mp hselected with ⟨b, hb⟩
  rcases selected_run_iff.mp hb with ⟨early, hearly, hopen, _⟩
  have hprefix : early <+: steps :=
    (List.prefix_append early _).trans (hearly.trans ((List.prefix_append before _).trans hbefore))
  rw [length_blocks_run, instFor, hb]
  exact Nat.lt_of_lt_of_le hopen (blocksIn_mono hprefix)

theorem mem_layout_iff_mem_insts (h : (run name steps).finish = .ok f) :
    inst ∈ f.layout <-> inst ∈ (run name steps).insts := by
  rcases finish_ok h with ⟨hnone, _⟩
  rcases firstError?_none hnone with ⟨hstep, _⟩
  rw [layout_of_finish h, List.mem_flatMap]
  constructor
  · intro hinst
    rcases hinst with ⟨b, _, hmember⟩
    exact (List.mem_filter.mp hmember).left
  · intro hinst
    refine ⟨inst.block, List.mem_range.mpr (block_lt_of_mem_insts hstep hinst), ?_⟩
    exact List.mem_filter.mpr ⟨hinst, by simp⟩

theorem exists_inst_of_operation (name : String) {n : Nat} {op : Operation}
    (h : (steps.filterMap Step.operation?)[n]? = some op) :
    exists inst, inst ∈ (run name steps).insts ∧ inst.id = n ∧ inst.toOperation = op := by
  rw [← operations_run name, List.getElem?_map, Option.map_eq_some_iff] at h
  rcases h with ⟨inst, hinst, hop⟩
  refine ⟨inst, List.mem_of_getElem? hinst, ?_, hop⟩
  have hid : ((run name steps).insts.map Instruction.id)[n]? = some inst.id := by
    rw [List.getElem?_map, hinst]
    rfl
  rw [(consistent_run name steps).numbered] at hid
  rcases List.getElem?_eq_some_iff.mp hid with ⟨hn, hget⟩
  rw [← hget, List.getElem_range]

theorem id_lt_of_mem_insts (h : inst ∈ (run name steps).insts) : inst.id < instsIn steps := by
  rw [← length_insts_run name, ← List.mem_range, ← (consistent_run name steps).numbered]
  exact List.mem_map_of_mem h

theorem perm_layout_of_finish (h : (run name steps).finish = .ok f) :
    (f.layout.map Instruction.id).Perm (List.range (instsIn steps)) := by
  have hdistinct := nodup_layout_of_finish (consistent_run name steps) h
  rw [List.perm_ext_iff_of_nodup hdistinct List.nodup_range]
  intro n
  rw [List.mem_map, List.mem_range]
  constructor
  · intro hn
    rcases hn with ⟨inst, hinst, rfl⟩
    exact id_lt_of_mem_insts ((mem_layout_iff_mem_insts h).mp hinst)
  · intro hn
    rcases exists_inst_of_operation name (List.getElem?_eq_getElem hn) with ⟨inst, hinst, hid, _⟩
    exact ⟨inst, (mem_layout_iff_mem_insts h).mpr hinst, hid⟩

end Assembly

namespace Digraph

universe u

variable {α : Type u} {g : Digraph α}

theorem nodup_succs (h : g.edges.Nodup) (b : Nat) : (g.succs b).Nodup := by
  refine h.filterMap ?_
  intro e e' c hc hc'
  simp only [Option.mem_def, Option.ite_none_right_eq_some, Option.some.injEq] at hc hc'
  exact Prod.ext (hc.left.trans hc'.left.symm) (hc.right.trans hc'.right.symm)

theorem nodup_preds (h : g.edges.Nodup) (c : Nat) : (g.preds c).Nodup := by
  refine h.filterMap ?_
  intro e e' b hb hb'
  simp only [Option.mem_def, Option.ite_none_right_eq_some, Option.some.injEq] at hb hb'
  exact Prod.ext (hb.right.trans hb'.right.symm) (hb.left.trans hb'.left.symm)

end Digraph

namespace Function

/-- The numbers of the instructions with a property, in layout order and each once. -/
structure Lists (f : Function) (P : Instruction -> Prop) (ids : List Nat) : Prop where
  complete : forall n, n ∈ ids <-> exists inst, inst ∈ f.layout ∧ inst.id = n ∧ P inst
  ordered : ids.Pairwise fun m n => exists k l, f.slot m = .ok k ∧ f.slot n = .ok l ∧ k < l
  distinct : ids.Nodup

variable {f : Function} {i j inst : Instruction} {k l b : Nat}

/-!
# Order in the layout
-/

theorem blockStart_mono : Monotone f.blockStart :=
  monotone_nat_of_le_succ fun b => by
    rw [blockStart_succ]
    exact Nat.le_add_right _ _

theorem slotOf_bounds (hf : f.WellFormed) (h : i ∈ f.layout) :
    f.blockStart i.block ≤ f.slotOf i ∧ f.slotOf i < f.blockStart (i.block + 1) := by
  have hplace := ((layout_iff hf).mp ((mem_layout_iff hf).mp h)).left
  have hposition : i.position < f.blockSize i.block := (List.getElem?_eq_some_iff.mp hplace).1
  rw [blockStart_succ, slotOf]
  omega

theorem place_lt_of_slotOf_lt (hf : f.WellFormed) (hi : i ∈ f.layout) (hj : j ∈ f.layout)
    (h : f.slotOf i < f.slotOf j) :
    i.block < j.block ∨ (i.block = j.block ∧ i.position < j.position) := by
  rcases Nat.lt_trichotomy i.block j.block with hlt | hsame | hgt
  · exact Or.inl hlt
  · refine Or.inr ⟨hsame, ?_⟩
    rw [slotOf, slotOf, hsame] at h
    omega
  · have hstart : f.blockStart (j.block + 1) ≤ f.blockStart i.block := blockStart_mono hgt
    have hafter := (slotOf_bounds hf hi).left
    have hbefore := (slotOf_bounds hf hj).right
    omega

theorem pairwise_slotOf (hf : f.WellFormed) :
    f.layout.Pairwise fun i j => f.slotOf i < f.slotOf j := by
  rw [List.pairwise_iff_getElem]
  intro k l hk hl hlt
  rw [((layout_iff hf).mp (List.getElem?_eq_getElem hk)).right,
    ((layout_iff hf).mp (List.getElem?_eq_getElem hl)).right]
  exact hlt

theorem pairwise_place (hf : f.WellFormed) :
    f.layout.Pairwise fun i j =>
      i.block < j.block ∨ (i.block = j.block ∧ i.position < j.position) :=
  (pairwise_slotOf hf).imp_of_mem fun hi hj h => place_lt_of_slotOf_lt hf hi hj h

theorem lists_of_filter (hf : f.WellFormed) (P : Instruction -> Bool) :
    f.Lists (fun inst => P inst = true) ((f.layout.filter P).map Instruction.id) := by
  have hordered : (f.layout.filter P).Pairwise fun i j => f.slotOf i < f.slotOf j :=
    (pairwise_slotOf hf).sublist List.filter_sublist
  refine ⟨?_, ?_, ?_⟩
  · intro n
    simp only [List.mem_map, List.mem_filter]
    constructor
    · rintro ⟨inst, ⟨hinst, hP⟩, hid⟩
      exact ⟨inst, hinst, hid, hP⟩
    · rintro ⟨inst, hinst, hid, hP⟩
      exact ⟨inst, ⟨hinst, hP⟩, hid⟩
  · refine List.pairwise_map.mpr (hordered.imp_of_mem ?_)
    intro i j hi hj hlt
    exact ⟨_, _, slot_of_mem hf (List.mem_filter.mp hi).left,
      slot_of_mem hf (List.mem_filter.mp hj).left, hlt⟩
  · exact hf.distinct.sublist (List.filter_sublist.map Instruction.id)

/-!
# Blocks as spans
-/

theorem blockSpan_of_lt (hb : b < f.blockCount) :
    f.blockSpan b = .ok ⟨2 * f.blockStart b, 2 * f.blockStart (b + 1)⟩ := by
  rw [blockSpan, if_pos hb]

theorem tiles_from (hf : f.WellFormed) {n : Nat} (hn : b + n = f.blockCount) :
    exists spans, (List.range' b n).mapM f.blockSpan = .ok spans ∧
      Tiles (2 * f.blockStart b) spans f.endPoint := by
  induction n generalizing b with
  | zero =>
      rw [Nat.add_zero] at hn
      subst hn
      refine ⟨[], rfl, ?_⟩
      rw [blockStart_blockCount]
      exact Tiles.nil _
  | succ n ih =>
      have hb : b < f.blockCount := by omega
      have hsize := hf.occupied b hb
      rcases ih (b := b + 1) (by omega) with ⟨spans, hspans, htiles⟩
      refine ⟨⟨2 * f.blockStart b, 2 * f.blockStart (b + 1)⟩ :: spans, ?_, Tiles.cons ?_ htiles⟩
      · rw [List.range'_succ, List.mapM_cons, blockSpan_of_lt hb, hspans]
        rfl
      · rw [blockStart_succ]
        omega

theorem mem_blockSpan_iff (hf : f.WellFormed) {p : Nat} :
    p ∈ (⟨2 * f.blockStart b, 2 * f.blockStart (b + 1)⟩ : Span) <->
      exists i, i ∈ f.blockInsts b ∧ (f.usePoint i.id = .ok p ∨ f.defPoint i.id = .ok p) := by
  rw [Span.mem_iff, blockStart_succ]
  dsimp only
  constructor
  · intro hp
    have hlt : p / 2 - f.blockStart b < f.blockSize b := by omega
    rcases exists_inst_at hlt with ⟨i, hi⟩
    have hplace : f.layout[p / 2]? = some i := by
      rw [← hi, ← layout_at hlt]
      congr 1
      omega
    refine ⟨i, List.mem_of_getElem? hi, ?_⟩
    rw [usePoint_of_layout hf hplace, defPoint_of_layout hf hplace, Except.ok.injEq,
      Except.ok.injEq]
    omega
  · intro h
    rcases h with ⟨i, hi, hp⟩
    rcases List.getElem?_of_mem hi with ⟨q, hq⟩
    have hlt : q < f.blockSize b := (List.getElem?_eq_some_iff.mp hq).1
    have hplace : f.layout[f.blockStart b + q]? = some i := (layout_at hlt).trans hq
    rw [usePoint_of_layout hf hplace, defPoint_of_layout hf hplace, Except.ok.injEq,
      Except.ok.injEq] at hp
    omega

/-!
# The arrangement as a whole
-/

structure Arranged (f : Function) (steps : List Step) : Prop where
  permutes : (f.layout.map Instruction.id).Perm (List.range (Assembly.instsIn steps))
  ordered : f.layout.Pairwise fun i j =>
    i.block < j.block ∨ (i.block = j.block ∧ i.position < j.position)
  numbered : forall n op, (steps.filterMap Step.operation?)[n]? = some op ->
    exists i, f.inst n = .ok i ∧ i.id = n ∧ i.toOperation = op ∧
      (f.blockInsts i.block)[i.position]? = some i
  placed : forall b p i, (f.blockInsts b)[p]? = some i ->
    i.block = b ∧ i.position = p ∧ f.inst i.id = .ok i
  pointed : forall i, i ∈ f.layout -> exists k before after,
    f.slot i.id = .ok k ∧ f.layout[k]? = some i ∧
      f.usePoint i.id = .ok before ∧ f.instAt? before = some i.id ∧
      f.defPoint i.id = .ok after ∧ f.instAt? after = some i.id
  tiled : exists spans, (List.range f.blockCount).mapM f.blockSpan = .ok spans ∧
    Tiles 0 spans f.endPoint
  owned : forall b, b < f.blockCount -> exists span, f.blockSpan b = .ok span ∧
    forall p, p ∈ span <->
      exists i, i ∈ f.blockInsts b ∧ (f.usePoint i.id = .ok p ∨ f.defPoint i.id = .ok p)
  defs : forall s, f.Lists (fun i => i.defines s = true) (f.defsOf s)
  uses : forall s, f.Lists (fun i => i.reads s = true) (f.usesOf s)
  inverse : forall b c, c ∈ f.graph.succs b <-> b ∈ f.graph.preds c
  connected : forall b c, c ∈ f.graph.succs b <-> .connect b c ∈ steps
  succsDistinct : forall b, (f.graph.succs b).Nodup
  predsDistinct : forall b, (f.graph.preds b).Nodup
  exits : forall b, b ∈ f.exits <-> b < f.blockCount ∧ forall c, c ∉ f.graph.succs b
  exitsDistinct : f.exits.Nodup

theorem points_of_mem_layout (hf : f.WellFormed) (hi : i ∈ f.layout) :
    exists k before after,
      f.slot i.id = .ok k ∧ f.layout[k]? = some i ∧
        f.usePoint i.id = .ok before ∧ f.instAt? before = some i.id ∧
        f.defPoint i.id = .ok after ∧ f.instAt? after = some i.id := by
  have hplace := (mem_layout_iff hf).mp hi
  have hpoints := instAt?_of_layout hplace
  exact ⟨_, _, _, slot_of_mem hf hi, hplace, usePoint_of_layout hf hplace, hpoints.left,
    defPoint_of_layout hf hplace, hpoints.right⟩

theorem mem_exits_iff : b ∈ f.exits <-> b < f.blockCount ∧ forall c, c ∉ f.graph.succs b := by
  rw [exits, List.mem_filter, List.mem_range, List.isEmpty_iff, List.eq_nil_iff_forall_not_mem]

theorem arranged_of_assemble {name : String} {steps : List Step}
    (hfinished : Function.assemble name steps = .ok f) : f.Arranged steps := by
  have hf := wellFormed_of_assemble hfinished
  rcases Assembly.finish_ok hfinished with ⟨_, _, _, _, hedges, hnodup, _⟩
  constructor
  case permutes => exact Assembly.perm_layout_of_finish hfinished
  case ordered => exact pairwise_place hf
  case numbered =>
    intro n op hop
    rcases Assembly.exists_inst_of_operation name hop with ⟨i, hi, rfl, hsame⟩
    have hmem := (Assembly.mem_layout_iff_mem_insts hfinished).mpr hi
    exact ⟨i, inst_of_mem hf hmem, rfl, hsame,
      ((layout_iff hf).mp ((mem_layout_iff hf).mp hmem)).left⟩
  case placed =>
    intro b p i hi
    rcases hf.placed hi with ⟨hblock, hposition⟩
    exact ⟨hblock, hposition,
      inst_of_mem hf ((mem_layout_iff hf).mpr (layout_of_place hf hi))⟩
  case pointed =>
    intro i hi
    exact points_of_mem_layout hf hi
  case tiled =>
    rcases tiles_from hf (Nat.zero_add _) with ⟨spans, hspans, htiles⟩
    rw [blockStart_zero] at htiles
    exact ⟨spans, List.range_eq_range' ▸ hspans, htiles⟩
  case owned =>
    intro b hb
    exact ⟨_, blockSpan_of_lt hb, fun p => mem_blockSpan_iff hf⟩
  case defs => exact fun s => lists_of_filter hf fun i => i.defines s
  case uses => exact fun s => lists_of_filter hf fun i => i.reads s
  case inverse =>
    intro b c
    rw [Digraph.mem_succs_iff, Digraph.mem_preds_iff]
  case connected =>
    intro b c
    rw [Digraph.mem_succs_iff, hedges, Assembly.mem_edges_run_iff]
  case succsDistinct => exact Digraph.nodup_succs hnodup
  case predsDistinct => exact Digraph.nodup_preds hnodup
  case exits => exact fun b => mem_exits_iff
  case exitsDistinct => exact List.nodup_range.filter _

end Function
end SafeRestart
