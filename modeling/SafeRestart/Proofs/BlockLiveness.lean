import Mathlib.Algebra.Order.BigOperators.Group.Finset
import Mathlib.Data.Finset.Union
import SafeRestart.Proofs.Guarded.Layout
import SafeRestart.Proofs.Guarded.Loop
import SafeRestart.Proofs.LiveRanges
import SafeRestart.Proofs.Postorder

/-!
# Liveness by iteration over the blocks

The locations live at the ends of the blocks can be found without following every path.  A block is
summed up by the locations that it reads before it writes them and by those that it writes.  Passes
over the blocks then recompute what is live at the start of each block from what is live at the
start of its successors, until a pass changes nothing.

At every moment only live locations are marked, and what is marked for a block is still accounted
for by what is marked for its successors.  So recomputing can only add marks, and the passes come to
an end; the marks then account for every path.
-/

namespace SafeRestart

open Run

/-!
# The computation
-/

structure LiveSets where
  starts : List BitSet
  ends : List BitSet

namespace Function

/-- Adds an instruction to what is known of the instructions before it: the locations read before
they are written, and the locations written. -/
def noteInst (effects : BitSet × BitSet) (inst : Instruction) : Except Fault (BitSet × BitSet) := do
  let exposed ← effects.1.insertAll (inst.uses.filter fun s => !effects.2.contains s)
  return (exposed, ← effects.2.insertAll inst.defs)

def blockEffects (f : Function) (b : Nat) : Except Fault (BitSet × BitSet) := do
  (← f.guardedBlock b).foldlM noteInst (.empty f.storage.length, .empty f.storage.length)

def effectsTable (f : Function) : Except Fault (List (BitSet × BitSet)) :=
  (List.range f.blockCount).mapM f.blockEffects

def iterationOrder (f : Function) : Except Fault (List Nat) := do
  let order ← f.graph.stackPostorder f.entry
  let seen ← (BitSet.empty f.blockCount).insertAll order
  return order ++ (List.range f.blockCount).filter fun b => !seen.contains b

def refresh (f : Function) (effects : List (BitSet × BitSet)) (state : LiveSets × Bool) (b : Nat) :
    Except Fault (LiveSets × Bool) := do
  let out ← (f.graph.succs b).foldlM
    (fun out c => do return (out.union (← entryAt state.1.starts c)).1) (.empty f.storage.length)
  let (exposed, written) ← entryAt effects b
  let incoming := ((out.difference written).union exposed).1
  let ends ← storeAt state.1.ends b out
  if incoming = (← entryAt state.1.starts b) then
    return (⟨state.1.starts, ends⟩, state.2)
  else
    return (⟨← storeAt state.1.starts b incoming, ends⟩, true)

def liveSets (f : Function) : Run LiveSets := do
  let effects ← f.effectsTable
  let order ← f.iterationOrder
  let unknown := List.replicate f.blockCount (BitSet.empty f.storage.length)
  untilStable (fun sets => liftM (order.foldlM (f.refresh effects) (sets, false)))
    ⟨unknown, unknown⟩

variable {f : Function} {s b c k p : Nat} {live : Nat -> Finset Nat} {sets : LiveSets}

/-!
# Effects of a block
-/

def exposedIn : List Instruction -> Finset Nat
  | [] => ∅
  | inst :: rest => inst.uses.toFinset ∪ (exposedIn rest \ inst.defs.toFinset)

def writtenIn : List Instruction -> Finset Nat
  | [] => ∅
  | inst :: rest => inst.defs.toFinset ∪ writtenIn rest

theorem foldlM_noteInst {n : Nat} {insts : List Instruction} {exposed written : Finset Nat}
    {effects : BitSet × BitSet} (hexposed : effects.1.Marks n exposed)
    (hwritten : effects.2.Marks n written)
    (hfits : forall inst, inst ∈ insts -> forall s, s ∈ inst.uses ∨ s ∈ inst.defs -> s < n) :
    exists all, insts.foldlM noteInst effects = .ok all ∧
      all.1.Marks n (exposed ∪ (exposedIn insts \ written)) ∧
      all.2.Marks n (written ∪ writtenIn insts) := by
  induction insts generalizing exposed written effects with
  | nil => exact ⟨effects, rfl, by simpa [exposedIn] using hexposed,
      by simpa [writtenIn] using hwritten⟩
  | cons inst rest ih =>
      have hinst := hfits inst List.mem_cons_self
      have huses : forall s, s ∈ inst.uses.filter (fun s => !effects.2.contains s) -> s < n :=
        fun s hs => hinst s (Or.inl (List.mem_filter.mp hs).left)
      rcases hexposed.insertAll huses with ⟨exposed', hreads, hexposed'⟩
      rcases hwritten.insertAll fun s hs => hinst s (Or.inr hs) with ⟨written', hwrites, hwritten'⟩
      have hlater := fun other hother => hfits other (List.mem_cons_of_mem inst hother)
      have htail : exists all, rest.foldlM noteInst (exposed', written') = .ok all ∧ _ :=
        ih hexposed' hwritten' hlater
      rcases htail with ⟨all, hrest, hall, hall'⟩
      refine ⟨all, ?_, ?_, ?_⟩
      · rw [List.foldlM_cons, noteInst, hreads, ok_bind, hwrites]
        exact hrest
      · convert hall using 1
        ext s
        simp only [exposedIn, Finset.mem_union, Finset.mem_sdiff, List.mem_toFinset,
          List.mem_filter, hwritten.contains_eq, Bool.not_eq_true', decide_eq_false_iff_not]
        tauto
      · convert hall' using 1
        rw [writtenIn, Finset.union_assoc]

theorem blockEffects_marks (hf : f.WellFormed) (hdeclared : f.Declared) (b : Nat) :
    exists effects, f.blockEffects b = .ok effects ∧
      effects.1.Marks f.storage.length (exposedIn (f.blockInsts b)) ∧
      effects.2.Marks f.storage.length (writtenIn (f.blockInsts b)) := by
  have hfits : forall inst, inst ∈ f.blockInsts b ->
      forall s, s ∈ inst.uses ∨ s ∈ inst.defs -> s < f.storage.length :=
    fun inst hinst => hdeclared inst (mem_layout_of_mem_blockInsts hinst)
  have hnone := BitSet.marks_empty f.storage.length
  have heffects : exists all, (f.blockInsts b).foldlM noteInst
      (.empty f.storage.length, .empty f.storage.length) = .ok all ∧ _ :=
    foldlM_noteInst hnone hnone hfits
  rcases heffects with ⟨all, hall, hexposed, hwritten⟩
  refine ⟨all, ?_, by simpa using hexposed, by simpa using hwritten⟩
  rw [blockEffects, guardedBlock_eq hf, ok_bind, hall]

/-!
# Transfer through a block
-/

def endSet (f : Function) (live : Nat -> Finset Nat) (b : Nat) : Finset Nat :=
  (f.graph.succs b).toFinset.biUnion live

def startSet (f : Function) (live : Nat -> Finset Nat) (b : Nat) : Finset Nat :=
  (f.endSet live b \ writtenIn (f.blockInsts b)) ∪ exposedIn (f.blockInsts b)

theorem mem_endSet_iff : s ∈ f.endSet live b <-> exists c, c ∈ f.graph.succs b ∧ s ∈ live c := by
  simp [endSet]

theorem startSet_mono {other : Nat -> Finset Nat} (h : forall c, live c ⊆ other c) :
    f.startSet live b ⊆ f.startSet other b := by
  apply Finset.union_subset_union _ (Finset.Subset.refl _)
  apply Finset.sdiff_subset_sdiff _ (Finset.Subset.refl _)
  intro s hs
  rcases mem_endSet_iff.mp hs with ⟨c, hc, hlive⟩
  exact mem_endSet_iff.mpr ⟨c, hc, h c hlive⟩

theorem liveBefore_step :
    f.LiveBefore s k <-> f.readsAt s k = true ∨
      (¬ f.definesAt s k = true ∧ exists j, f.Leads k j ∧ f.LiveBefore s j) := by
  constructor
  · intro h
    rcases h with ⟨met, r, hpath, hreads, hfree⟩
    cases hpath with
    | nil _ => exact Or.inl hreads
    | cons hstep hrest =>
        refine Or.inr ⟨hfree k (by simp), _, hstep, _, r, hrest, hreads, ?_⟩
        intro x hx
        exact hfree x (List.mem_cons_of_mem k hx)
  · intro h
    rcases h with hreads | ⟨hkept, j, hstep, met, r, hpath, hreads, hfree⟩
    · exact ⟨[], k, Path.nil k, hreads, by simp⟩
    · refine ⟨j :: met, r, Path.cons hstep hpath, hreads, ?_⟩
      intro x hx
      rcases List.mem_cons.mp hx with rfl | hx
      · exact hkept
      · exact hfree x hx

section Blocks

variable (hf : f.WellFormed)
include hf

omit hf in
theorem exists_inst_drop (hp : p < f.blockSize b) :
    exists inst, f.layout[f.blockStart b + p]? = some inst ∧
      (f.blockInsts b).drop p = inst :: (f.blockInsts b).drop (p + 1) := by
  refine ⟨(f.blockInsts b)[p], ?_, List.drop_eq_getElem_cons hp⟩
  rw [layout_at hp]
  exact List.getElem?_eq_getElem hp

/-- What the rest of a block reads before it writes it is live, and so is what the rest does not
write and is live at the start of a successor. -/
theorem liveBefore_of_drop (hp : p < f.blockSize b)
    (h : s ∈ exposedIn ((f.blockInsts b).drop p) ∨
      (s ∉ writtenIn ((f.blockInsts b).drop p) ∧
        exists c, c ∈ f.graph.succs b ∧ f.LiveBefore s (f.blockStart c))) :
    f.LiveBefore s (f.blockStart b + p) := by
  induction hleft : f.blockSize b - p generalizing p with
  | zero => omega
  | succ left ih =>
      rcases exists_inst_drop hp with ⟨inst, hinst, hdrop⟩
      have hhigh : f.blockStart b + p < f.blockStart (b + 1) := by
        rw [blockStart_succ]
        omega
      rw [hdrop, exposedIn, writtenIn] at h
      simp only [Finset.mem_union, Finset.mem_sdiff, List.mem_toFinset, not_or] at h
      rw [liveBefore_step, readsAt_of_layout hinst, definesAt_of_layout hinst]
      simp only [Operation.reads, Operation.defines, List.contains_eq_mem, decide_eq_true_eq]
      by_cases hread : s ∈ inst.uses
      · exact Or.inl hread
      · refine Or.inr ⟨by tauto, ?_⟩
        by_cases hlast : p + 1 < f.blockSize b
        · refine ⟨f.blockStart b + (p + 1), ?_, ih hlast (by tauto) (by omega)⟩
          refine (leads_cases hf (Nat.le_add_right _ _) hhigh).mpr (Or.inl ⟨?_, rfl⟩)
          rw [blockStart_succ]
          omega
        · have hnothing : (f.blockInsts b).drop (p + 1) = [] :=
            List.drop_eq_nil_of_le (Nat.le_of_not_lt hlast)
          rw [hnothing] at h
          rcases h with (hread' | ⟨hnone, _⟩) | ⟨_, c, hc, hlive⟩
          · exact absurd hread' hread
          · simp [exposedIn] at hnone
          · refine ⟨f.blockStart c, ?_, hlive⟩
            refine (leads_cases hf (Nat.le_add_right _ _) hhigh).mpr (Or.inr ⟨?_, c, hc, rfl⟩)
            rw [blockStart_succ]
            omega

/-- Marks that account for themselves account for every path. -/
theorem mem_of_path {r : Nat} {met : List Nat}
    (hstable : forall c, c < f.blockCount -> f.startSet live c ⊆ live c)
    (hpath : Path f.Leads k met r) (hreads : f.readsAt s r = true)
    (hfree : forall x, x ∈ (k :: met).dropLast -> ¬ f.definesAt s x = true)
    (hp : p < f.blockSize b) (hk : k = f.blockStart b + p) :
    s ∈ exposedIn ((f.blockInsts b).drop p) ∨
      (s ∉ writtenIn ((f.blockInsts b).drop p) ∧ s ∈ f.endSet live b) := by
  induction hpath generalizing b p with
  | nil k =>
      rcases exists_inst_drop hp with ⟨inst, hinst, hdrop⟩
      rw [hk, readsAt_of_layout hinst] at hreads
      rw [hdrop, exposedIn, Finset.mem_union, List.mem_toFinset]
      exact Or.inl (Or.inl (by simpa [Operation.reads] using hreads))
  | cons hstep hrest ih =>
      rename_i k j r met
      rcases exists_inst_drop hp with ⟨inst, hinst, hdrop⟩
      have hkept : s ∉ inst.defs := by
        have hnot := hfree k (by simp)
        rw [hk, definesAt_of_layout hinst] at hnot
        simpa [Operation.defines] using hnot
      have htail : forall x, x ∈ (j :: met).dropLast -> ¬ f.definesAt s x = true :=
        fun x hx => hfree x (List.mem_cons_of_mem k hx)
      have hhigh : k < f.blockStart (b + 1) := by
        rw [hk, blockStart_succ]
        omega
      rw [hdrop, exposedIn, writtenIn]
      simp only [Finset.mem_union, Finset.mem_sdiff, List.mem_toFinset, not_or]
      rcases (leads_cases hf (hk ▸ Nat.le_add_right _ _) hhigh).mp hstep with
        ⟨hinner, rfl⟩ | ⟨hend, c, hc, rfl⟩
      · rw [hk, blockStart_succ] at hinner
        have hnext := ih hreads htail (b := b) (p := p + 1) (by omega) (by omega)
        tauto
      · have hcount : c < f.blockCount := (hf.connected (Digraph.mem_succs_iff.mp hc)).right
        have hentered := ih hreads htail (b := c) (p := 0) (hf.occupied c hcount) rfl
        rw [List.drop_zero] at hentered
        have hmarked : s ∈ live c := by
          apply hstable c hcount
          rw [startSet, Finset.mem_union, Finset.mem_sdiff]
          tauto
        rw [hk, blockStart_succ] at hend
        have hnothing : (f.blockInsts b).drop (p + 1) = [] :=
          List.drop_eq_nil_of_le (by unfold blockSize at hend; omega)
        refine Or.inr ⟨⟨hkept, ?_⟩, mem_endSet_iff.mpr ⟨c, hc, hmarked⟩⟩
        simp [hnothing, writtenIn]

theorem liveBefore_of_startSet (hb : b < f.blockCount)
    (hsound : forall c s, c < f.blockCount -> s ∈ live c -> f.LiveBefore s (f.blockStart c))
    (hs : s ∈ f.startSet live b) : f.LiveBefore s (f.blockStart b) := by
  apply liveBefore_of_drop hf (hf.occupied b hb)
  rw [List.drop_zero]
  rcases Finset.mem_union.mp hs with hkept | hexposed
  · rcases Finset.mem_sdiff.mp hkept with ⟨hend, hfree⟩
    rcases mem_endSet_iff.mp hend with ⟨c, hc, hlive⟩
    exact Or.inr ⟨hfree, c, hc,
      hsound c s (hf.connected (Digraph.mem_succs_iff.mp hc)).right hlive⟩
  · exact Or.inl hexposed

theorem mem_of_liveBefore (hb : b < f.blockCount)
    (hstable : forall c, c < f.blockCount -> f.startSet live c ⊆ live c)
    (h : f.LiveBefore s (f.blockStart b)) : s ∈ live b := by
  rcases h with ⟨met, r, hpath, hreads, hfree⟩
  have hall := mem_of_path hf hstable hpath hreads hfree (hf.occupied b hb) rfl
  rw [List.drop_zero] at hall
  apply hstable b hb
  rw [startSet, Finset.mem_union, Finset.mem_sdiff]
  tauto

end Blocks

/-!
# One block at a time
-/

structure Charts (f : Function) (table : List BitSet) (live : Nat -> Finset Nat) : Prop where
  length : table.length = f.blockCount
  marks : forall b, b < f.blockCount ->
    exists set, table[b]? = some set ∧ set.Marks f.storage.length (live b)

/-- The marks between two steps: each is live, and each is accounted for by the marks of the
successors. -/
structure Rising (f : Function) (sets : LiveSets) (live : Nat -> Finset Nat) : Prop where
  charts : f.Charts sets.starts live
  length : sets.ends.length = f.blockCount
  sound : forall b s, b < f.blockCount -> s ∈ live b -> f.LiveBefore s (f.blockStart b)
  rises : forall b, b < f.blockCount -> live b ⊆ f.startSet live b

structure Settled (f : Function) (sets : LiveSets) (live : Nat -> Finset Nat) (b : Nat) : Prop where
  stable : f.startSet live b = live b
  ends : exists set, sets.ends[b]? = some set ∧ set.Marks f.storage.length (f.endSet live b)

structure Effects (f : Function) (effects : List (BitSet × BitSet)) : Prop where
  length : effects.length = f.blockCount
  marks : forall b, b < f.blockCount -> exists effect, effects[b]? = some effect ∧
    effect.1.Marks f.storage.length (exposedIn (f.blockInsts b)) ∧
    effect.2.Marks f.storage.length (writtenIn (f.blockInsts b))

def markCount (f : Function) (live : Nat -> Finset Nat) : Nat :=
  ∑ b ∈ Finset.range f.blockCount, (live b).card

theorem Charts.set {table : List BitSet} {set : BitSet} {marked : Finset Nat}
    (h : f.Charts table live) (hset : set.Marks f.storage.length marked) :
    f.Charts (table.set b set) (Function.update live b marked) := by
  refine ⟨by rw [List.length_set, h.length], ?_⟩
  intro c hc
  by_cases hsame : c = b
  · subst hsame
    refine ⟨set, List.getElem?_set_self (by rw [h.length]; exact hc), ?_⟩
    rwa [Function.update_self]
  · rw [List.getElem?_set_ne (Ne.symm hsame), Function.update_of_ne hsame]
    exact h.marks c hc

theorem markCount_le (h : f.Charts sets.starts live) :
    f.markCount live ≤ f.blockCount * f.storage.length := by
  have hterm : forall b, b ∈ Finset.range f.blockCount -> (live b).card ≤ f.storage.length := by
    intro b hb
    rcases h.marks b (Finset.mem_range.mp hb) with ⟨set, _, hmarks⟩
    calc (live b).card ≤ (Finset.range f.storage.length).card := Finset.card_le_card hmarks.bounded
      _ = f.storage.length := Finset.card_range _
  calc f.markCount live ≤ (Finset.range f.blockCount).card • f.storage.length :=
        Finset.sum_le_card_nsmul _ _ _ hterm
    _ = f.blockCount * f.storage.length := by rw [Finset.card_range]; rfl

theorem subset_update {marked : Finset Nat} (h : live b ⊆ marked) (c : Nat) :
    live c ⊆ Function.update live b marked c := by
  by_cases hsame : c = b
  · subst hsame
    rwa [Function.update_self]
  · rw [Function.update_of_ne hsame]

theorem markCount_lt {marked : Finset Nat} (hb : b < f.blockCount) (h : live b ⊂ marked) :
    f.markCount live < f.markCount (Function.update live b marked) := by
  apply Finset.sum_lt_sum
  · intro c _
    exact Finset.card_le_card (subset_update h.subset c)
  · refine ⟨b, Finset.mem_range.mpr hb, ?_⟩
    rw [Function.update_self]
    exact Finset.card_lt_card h

theorem foldlM_union_marks {n : Nat} {table : List BitSet} {succs : List Nat} {out : BitSet}
    {gathered : Finset Nat} (hout : out.Marks n gathered)
    (htable : forall c, c ∈ succs -> exists set, table[c]? = some set ∧ set.Marks n (live c)) :
    exists all, succs.foldlM (fun out c => do return (out.union (← entryAt table c)).1) out =
        .ok all ∧ all.Marks n (gathered ∪ succs.toFinset.biUnion live) := by
  induction succs generalizing out gathered with
  | nil => exact ⟨out, rfl, by simpa using hout⟩
  | cons c rest ih =>
      rcases htable c List.mem_cons_self with ⟨set, hset, hmarks⟩
      rcases ih (hout.union hmarks) fun d hd => htable d (List.mem_cons_of_mem c hd) with
        ⟨all, hrest, hall⟩
      refine ⟨all, ?_, ?_⟩
      · rw [List.foldlM_cons, entryAt_of_some hset]
        exact hrest
      · rwa [List.toFinset_cons, Finset.biUnion_insert, ← Finset.union_assoc]

section Refreshed

variable {out incoming : BitSet} (h : f.Rising sets live)
include h

theorem Rising.keep (out : BitSet) : f.Rising ⟨sets.starts, sets.ends.set b out⟩ live :=
  ⟨h.charts, by rw [List.length_set, h.length], h.sound, h.rises⟩

theorem Rising.raise (hf : f.WellFormed)
    (hincoming : incoming.Marks f.storage.length (f.startSet live b)) (out : BitSet)
    (hb : b < f.blockCount) :
    f.Rising ⟨sets.starts.set b incoming, sets.ends.set b out⟩
      (Function.update live b (f.startSet live b)) := by
  refine ⟨h.charts.set hincoming, by rw [List.length_set, h.length], ?_, ?_⟩
  · intro c s hc hs
    by_cases hcb : c = b
    · subst hcb
      rw [Function.update_self] at hs
      exact liveBefore_of_startSet hf hc h.sound hs
    · rw [Function.update_of_ne hcb] at hs
      exact h.sound c s hc hs
  · intro c hc
    have hgrown : f.startSet live c ⊆ f.startSet (Function.update live b (f.startSet live b)) c :=
      startSet_mono (subset_update (h.rises b hb))
    by_cases hcb : c = b
    · subst hcb
      rwa [Function.update_self]
    · rw [Function.update_of_ne hcb]
      exact (h.rises c hc).trans hgrown

theorem Settled.keep (hc : f.Settled sets live c) (hb : b < f.blockCount)
    (hout : out.Marks f.storage.length (f.endSet live b)) :
    f.Settled ⟨sets.starts, sets.ends.set b out⟩ live c := by
  refine ⟨hc.stable, ?_⟩
  by_cases hcb : c = b
  · subst hcb
    exact ⟨out, List.getElem?_set_self (h.length ▸ hb), hout⟩
  · rw [List.getElem?_set_ne (Ne.symm hcb)]
    exact hc.ends

end Refreshed

section Passes

variable (hf : f.WellFormed) {effects : List (BitSet × BitSet)} (heffects : f.Effects effects)
include hf heffects

theorem exists_refresh (h : f.Rising sets live) (hb : b < f.blockCount) (changed : Bool) :
    exists out incoming old : BitSet,
      out.Marks f.storage.length (f.endSet live b) ∧
      incoming.Marks f.storage.length (f.startSet live b) ∧
      old.Marks f.storage.length (live b) ∧
      f.refresh effects (sets, changed) b =
        if incoming = old then .ok (⟨sets.starts, sets.ends.set b out⟩, changed)
        else .ok (⟨sets.starts.set b incoming, sets.ends.set b out⟩, true) := by
  have hsuccs : forall c, c ∈ f.graph.succs b ->
      exists set, sets.starts[c]? = some set ∧ set.Marks f.storage.length (live c) :=
    fun c hc => h.charts.marks c (hf.connected (Digraph.mem_succs_iff.mp hc)).right
  rcases foldlM_union_marks (BitSet.marks_empty f.storage.length) hsuccs with ⟨out, hout, hends⟩
  rw [Finset.empty_union] at hends
  rcases heffects.marks b hb with ⟨effect, heffect, hexposed, hwritten⟩
  rcases h.charts.marks b hb with ⟨old, hold, holdMarks⟩
  have hlength : b < sets.ends.length := h.length ▸ hb
  have hstart : b < sets.starts.length := h.charts.length ▸ hb
  refine ⟨out, _, old, hends, (hends.difference hwritten).union hexposed, holdMarks, ?_⟩
  unfold refresh
  rw [hout, ok_bind, entryAt_of_some heffect, ok_bind]
  dsimp only
  rw [storeAt_of_lt hlength, ok_bind, entryAt_of_some hold, ok_bind]
  split
  · rfl
  · rw [storeAt_of_lt hstart]
    rfl

/-- A step leaves the marks alone and settles its block, or it adds a mark. -/
theorem refresh_marks (h : f.Rising sets live) (hb : b < f.blockCount) (changed : Bool) :
    exists next live' flag, f.refresh effects (sets, changed) b = .ok (next, flag) ∧
      f.Rising next live' ∧
      ((live' = live ∧ flag = changed ∧ f.Settled next live b ∧
          forall c, f.Settled sets live c -> f.Settled next live c) ∨
        (flag = true ∧ f.markCount live < f.markCount live')) := by
  rcases exists_refresh hf heffects h hb changed with
    ⟨out, incoming, old, hout, hincoming, hold, hrun⟩
  rw [hrun]
  by_cases hsame : incoming = old
  · have hstable : f.startSet live b = live b := (hincoming.eq_iff hold).mp hsame
    rw [if_pos hsame]
    refine ⟨_, live, changed, rfl, h.keep out, Or.inl ⟨rfl, rfl, ?_, ?_⟩⟩
    · exact ⟨hstable, out, List.getElem?_set_self (h.length ▸ hb), hout⟩
    · exact fun c hc => hc.keep h hb hout
  · have hmore : live b ⊂ f.startSet live b := by
      refine Finset.ssubset_iff_subset_ne.mpr ⟨h.rises b hb, ?_⟩
      intro heq
      exact hsame ((hincoming.eq_iff hold).mpr heq.symm)
    rw [if_neg hsame]
    exact ⟨_, _, true, rfl, h.raise hf hincoming out hb, Or.inr ⟨rfl, markCount_lt hb hmore⟩⟩

theorem foldlM_refresh_marks {order : List Nat} (h : f.Rising sets live)
    (horder : forall b, b ∈ order -> b < f.blockCount) (changed : Bool) :
    exists next live' flag, order.foldlM (f.refresh effects) (sets, changed) = .ok (next, flag) ∧
      f.Rising next live' ∧
      ((live' = live ∧ flag = changed ∧
          forall c, c ∈ order ∨ f.Settled sets live c -> f.Settled next live c) ∨
        (flag = true ∧ f.markCount live < f.markCount live')) := by
  induction order generalizing sets live changed with
  | nil => exact ⟨sets, live, changed, rfl, h, Or.inl ⟨rfl, rfl, by simp⟩⟩
  | cons b rest ih =>
      rcases refresh_marks hf heffects h (horder b List.mem_cons_self) changed with
        ⟨middle, live', flag, hstep, hmiddle, houtcome⟩
      rcases ih hmiddle (fun c hc => horder c (List.mem_cons_of_mem b hc)) flag with
        ⟨next, live'', flag', hrest, hnext, houtcome'⟩
      refine ⟨next, live'', flag', ?_, hnext, ?_⟩
      · rw [List.foldlM_cons, hstep]
        exact hrest
      · rcases houtcome with ⟨rfl, rfl, hsettled, hkept⟩ | ⟨rfl, hmore⟩
        · rcases houtcome' with ⟨rfl, rfl, hall⟩ | hmore
          · refine Or.inl ⟨rfl, rfl, ?_⟩
            intro c hc
            apply hall c
            rcases hc with hc | hc
            · rcases List.mem_cons.mp hc with rfl | hc
              · exact Or.inr hsettled
              · exact Or.inl hc
            · exact Or.inr (hkept c hc)
          · exact Or.inr hmore
        · rcases houtcome' with ⟨rfl, rfl, _⟩ | ⟨rfl, hmore'⟩
          · exact Or.inr ⟨rfl, hmore⟩
          · exact Or.inr ⟨rfl, hmore.trans hmore'⟩

end Passes

/-!
# The whole loop
-/

section Loop

variable (hf : f.WellFormed)
include hf

theorem exists_iterationOrder :
    exists order, f.iterationOrder = .ok order ∧ forall b, b ∈ order <-> b < f.blockCount := by
  have hclosed : f.graph.Closed := fun hedge => hf.connected hedge
  have hreached : forall b, b ∈ f.graph.postorder f.entry -> b < f.blockCount :=
    fun b hb => Digraph.lt_size_of_mem_postorder hclosed hf.inhabited hb
  rcases (BitSet.marks_empty f.blockCount).insertAll hreached with ⟨seen, hseen, hmarks⟩
  refine ⟨f.graph.postorder f.entry ++ (List.range f.blockCount).filter fun b => !seen.contains b,
    ?_, ?_⟩
  · rw [iterationOrder, Digraph.stackPostorder_eq hclosed, ok_bind, hseen]
    rfl
  · intro b
    simp only [List.mem_append, List.mem_filter, List.mem_range, hmarks.contains_eq,
      Finset.empty_union, List.mem_toFinset, Bool.not_eq_true', decide_eq_false_iff_not]
    have hb := hreached b
    tauto

theorem exists_effectsTable (hdeclared : f.Declared) :
    exists effects, f.effectsTable = .ok effects ∧ f.Effects effects := by
  choose effect heffect hmarks using blockEffects_marks hf hdeclared
  refine ⟨(List.range f.blockCount).map effect, mapM_eq_map fun b _ => heffect b, by simp, ?_⟩
  intro b hb
  exact ⟨effect b, by simp [hb], hmarks b⟩

theorem exists_ends_liveSets (hdeclared : f.Declared) :
    exists sets, f.liveSets.Ends sets ∧ forall b, b < f.blockCount -> exists out,
      sets.ends[b]? = some out ∧ forall s, s ∈ out.members <->
        exists c, c ∈ f.graph.succs b ∧ f.LiveBefore s (f.blockStart c) := by
  rcases exists_effectsTable hf hdeclared with ⟨effects, htable, heffects⟩
  rcases exists_iterationOrder hf with ⟨order, horder, hall⟩
  let unknown := List.replicate f.blockCount (BitSet.empty f.storage.length)
  have hstart : f.Rising ⟨unknown, unknown⟩ fun _ => ∅ := by
    refine ⟨⟨List.length_replicate, ?_⟩, List.length_replicate, by simp, by simp⟩
    intro b hb
    exact ⟨_, List.getElem?_replicate_of_lt hb, BitSet.marks_empty _⟩
  have hpass : forall k sets, (exists live, f.Rising sets live ∧ k ≤ f.markCount live) ->
      exists next flag,
        (liftM (order.foldlM (f.refresh effects) (sets, false)) : Run _).Ends (next, flag) ∧
          (flag = true -> k < f.blockCount * f.storage.length ∧
            exists live, f.Rising next live ∧ k + 1 ≤ f.markCount live) := by
    intro k sets h
    rcases h with ⟨live, hrising, hk⟩
    rcases foldlM_refresh_marks hf heffects hrising (fun b hb => (hall b).mp hb) false with
      ⟨next, live', flag, hrun, hnext, houtcome⟩
    refine ⟨next, flag, ends_lift hrun, ?_⟩
    intro hflag
    rcases houtcome with ⟨_, hsame, _⟩ | ⟨_, hmore⟩
    · exact Bool.noConfusion (hflag.symm.trans hsame)
    · have hbound := markCount_le hnext.charts
      exact ⟨by omega, live', hnext, by omega⟩
  rcases exists_ends_untilStable hpass ⟨_, hstart, Nat.zero_le _⟩ with
    ⟨_, sets, last, ⟨live, hrising, _⟩, hlast, hends⟩
  rcases foldlM_refresh_marks hf heffects hrising (fun b hb => (hall b).mp hb) false with
    ⟨next, live', flag, hrun, hnext, houtcome⟩
  cases (ends_lift hrun).unique hlast
  refine ⟨last, (ends_lift htable).bind ((ends_lift horder).bind hends), ?_⟩
  rcases houtcome with ⟨rfl, _, hsettled⟩ | ⟨hflag, _⟩
  · intro b hb
    rcases (hsettled b (Or.inl ((hall b).mpr hb))).ends with ⟨out, hout, hmarks⟩
    refine ⟨out, hout, ?_⟩
    intro s
    have hstable : forall c, c < f.blockCount -> f.startSet live' c ⊆ live' c :=
      fun c hc => (hsettled c (Or.inl ((hall c).mpr hc))).stable.subset
    rw [hmarks.mem_members_iff, mem_endSet_iff]
    refine exists_congr fun c => and_congr_right fun hc => ?_
    have hcount := (hf.connected (Digraph.mem_succs_iff.mp hc)).right
    exact ⟨hnext.sound c s hcount, mem_of_liveBefore hf hcount hstable⟩
  · exact Bool.noConfusion hflag

end Loop
end Function
end SafeRestart
