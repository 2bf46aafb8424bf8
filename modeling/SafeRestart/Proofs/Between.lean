import SafeRestart.Proofs.CutPath
import SafeRestart.Proofs.DominatorTree

/-!
# What lies between a load and a store

Behind the store itself, the cut path of a hazard holds the stores that the load dominates and that
dominate the store.  They are found by climbing the dominator tree block by block; on the way each
block dominates the ones before it, and in a block the stores are met from the last to the first.
-/

namespace SafeRestart
namespace Function

/-!
# The climb
-/

/-- The stores that are collected on the way up from a position of block `b`.  The climb goes on
while the block is dominated by that of the load, and ends just behind the load. -/
inductive Climbs (f : Function) (load : Instruction) : Nat -> Nat -> List Nat -> Prop where
  | outside {b cursor : Nat} :
      f.dominators.dominates load.block b = false -> Climbs f load b cursor []
  | home {b cursor : Nat} :
      f.dominators.dominates load.block b = true -> b = load.block ->
        Climbs f load b cursor (f.storesBack b (load.position + 1) cursor)
  | root {b cursor : Nat} :
      f.dominators.dominates load.block b = true -> b ≠ load.block ->
        f.dominators.immediate b = none -> Climbs f load b cursor (f.storesBack b 0 cursor)
  | parent {b up cursor : Nat} {rest : List Nat} :
      f.dominators.dominates load.block b = true -> b ≠ load.block ->
        f.dominators.immediate b = some up -> Climbs f load up (f.blockSize up) rest ->
          Climbs f load b cursor (f.storesBack b 0 cursor ++ rest)

/-- The stores that are collected between two instructions: those that stand between them when the
load comes first in one block, and otherwise those of the climb. -/
inductive Collects (f : Function) (load store : Instruction) : List Nat -> Prop where
  | straight :
      load.block = store.block -> load.position < store.position ->
        Collects f load store (f.storesBack store.block (load.position + 1) store.position)
  | climb {found : List Nat} :
      ¬ (load.block = store.block ∧ load.position < store.position) ->
        Climbs f load store.block store.position found -> Collects f load store found

def storesIn (f : Function) (b floor stop : Nat) : List Instruction :=
  (((f.blockInsts b).take stop).drop floor).reverse.filter fun inst => inst.isStore

def storesUp (f : Function) (load : Instruction) (b cursor : Nat) : List Instruction :=
  (blocksUp f.dominators b load.block).flatMap fun c =>
    f.storesIn c
      (if c = load.block then load.position + 1 else 0)
      (if c = b then cursor else f.blockSize c)

variable {f : Function} {load store x y z : Instruction} {b c up cursor floor stop : Nat}

theorem storesBetween_eq :
    f.storesBetween f.dominators load store =
      (f.storesUp load store.block store.position).map Instruction.id := by
  unfold storesBetween storesUp
  rw [List.map_flatMap]
  rfl

/-!
# Blocks on the way up
-/

theorem blocksUp_of_not_mem {tree : DominatorTree} {below above : Nat}
    (h : above ∉ tree.chain below) : blocksUp tree below above = [] := if_neg h

theorem blocksUp_of_chain {tree : DominatorTree} {below above : Nat} {before after : List Nat}
    (hchain : tree.chain below = before ++ above :: after) (hfirst : above ∉ before) :
    blocksUp tree below above = before ++ [above] := by
  have hbefore : forall c, c ∈ before -> (c != above) = true := by
    intro c hc
    simp only [bne_iff_ne]
    rintro rfl
    exact hfirst hc
  unfold blocksUp
  rw [hchain, if_pos (by simp), List.takeWhile_append_of_pos hbefore]
  simp

theorem mem_chain_self (hf : f.WellFormed) (b : Nat) : b ∈ f.dominators.chain b :=
  (Digraph.mem_chain_iff (graph_closed hf) (entry_lt hf)).mpr (Or.inl rfl)

theorem mem_blocksUp_iff (hf : f.WellFormed) {below above : Nat} :
    c ∈ blocksUp f.dominators below above <->
      above ∈ f.dominators.chain c ∧ c ∈ f.dominators.chain below := by
  have hg : f.graph.Closed := graph_closed hf
  have hentry := entry_lt hf
  by_cases habove : above ∈ f.dominators.chain below
  · rcases List.eq_append_cons_of_mem habove with ⟨before, after, hchain, hfirst⟩
    have hpair := Digraph.pairwise_chain hg hentry below
    change (f.dominators.chain below).Pairwise _ at hpair
    rw [hchain] at hpair
    rw [List.pairwise_append, List.pairwise_cons] at hpair
    rcases hpair with ⟨_, ⟨hafter, _⟩, hbefore⟩
    rw [blocksUp_of_chain hchain hfirst, hchain]
    constructor
    · intro hc
      rcases List.mem_append.mp hc with hc | hc
      · have hstrict := hbefore c hc above List.mem_cons_self
        exact ⟨(Digraph.mem_chain_iff hg hentry).mpr (Or.inr hstrict),
          List.mem_append_left _ hc⟩
      · rw [List.mem_singleton.mp hc]
        exact ⟨mem_chain_self hf above, by simp⟩
    · intro h
      rcases List.mem_append.mp h.right with hc | hc
      · exact List.mem_append_left _ hc
      · apply List.mem_append_right
        rcases List.mem_cons.mp hc with rfl | hc
        · exact List.mem_singleton_self c
        · -- What comes behind `above` dominates it, and not the other way round.
          have hup := (Digraph.mem_chain_iff hg hentry).mpr (Or.inr (hafter c hc))
          exact List.mem_singleton.mpr (Digraph.chain_antisymm hg hentry hup h.left)
  · rw [blocksUp_of_not_mem habove]
    constructor
    · intro hc
      cases hc
    · intro h
      exact absurd (Digraph.chain_trans hg hentry h.left h.right) habove

theorem pairwise_blocksUp (hf : f.WellFormed) (below above : Nat) :
    (blocksUp f.dominators below above).Pairwise fun lower upper =>
      upper ≠ lower ∧ upper ∈ f.dominators.chain lower := by
  have hpair := Digraph.pairwise_chain (graph_closed hf) (entry_lt hf) below
  have hstrict := hpair.imp fun {lower upper} h =>
    (⟨h.distinct, (Digraph.mem_chain_iff (graph_closed hf) (entry_lt hf)).mpr (Or.inr h)⟩ :
      upper ≠ lower ∧ upper ∈ f.dominators.chain lower)
  change (f.dominators.chain below).Pairwise _ at hstrict
  by_cases habove : above ∈ f.dominators.chain below
  · rcases List.eq_append_cons_of_mem habove with ⟨before, after, hchain, hfirst⟩
    rw [blocksUp_of_chain hchain hfirst]
    rw [hchain, List.append_cons] at hstrict
    exact hstrict.sublist (List.sublist_append_left _ _)
  · rw [blocksUp_of_not_mem habove]
    exact List.Pairwise.nil

/-!
# The climb meets the blocks on the way up
-/

theorem storesUp_outside (h : load.block ∉ f.dominators.chain b) :
    f.storesUp load b cursor = [] := by
  unfold storesUp
  rw [blocksUp_of_not_mem h]
  rfl

theorem blocksUp_self (hf : f.WellFormed) (b : Nat) : blocksUp f.dominators b b = [b] := by
  rcases List.eq_append_cons_of_mem (mem_chain_self hf b) with ⟨before, after, hchain, hfirst⟩
  have hfull : forall c, c ∈ before ++ [b] -> c = b := by
    intro c hc
    rw [← blocksUp_of_chain hchain hfirst, mem_blocksUp_iff hf] at hc
    exact Digraph.chain_antisymm (graph_closed hf) (entry_lt hf) hc.right hc.left
  have hempty : before = [] := by
    apply List.eq_nil_iff_forall_not_mem.mpr
    intro c hc
    exact hfirst (hfull c (List.mem_append_left _ hc) ▸ hc)
  rw [blocksUp_of_chain hchain hfirst, hempty]
  rfl

theorem storesUp_home (hf : f.WellFormed) (cursor : Nat) :
    f.storesUp load load.block cursor = f.storesIn load.block (load.position + 1) cursor := by
  unfold storesUp
  rw [blocksUp_self hf]
  simp

theorem blocksUp_parent (hf : f.WellFormed) {below above : Nat}
    (hup : f.dominators.immediate below = some up) (hne : below ≠ above)
    (habove : above ∈ f.dominators.chain below) :
    blocksUp f.dominators below above = below :: blocksUp f.dominators up above := by
  have hchain : f.dominators.chain below = below :: f.dominators.chain up :=
    Digraph.chain_of_parent (graph_closed hf) (entry_lt hf) hup
  have hrest : above ∈ f.dominators.chain up := by
    rw [hchain] at habove
    exact (List.mem_cons.mp habove).resolve_left hne.symm
  rcases List.eq_append_cons_of_mem hrest with ⟨before, after, hsplit, hfirst⟩
  rw [blocksUp_of_chain hsplit hfirst, ← List.cons_append]
  apply blocksUp_of_chain
  · rw [hchain, hsplit]
    rfl
  · rw [List.mem_cons, not_or]
    exact ⟨hne.symm, hfirst⟩

theorem not_mem_chain_parent (hf : f.WellFormed) (hup : f.dominators.immediate b = some up) :
    b ∉ f.dominators.chain up := by
  intro hb
  have hpair := Digraph.pairwise_chain (graph_closed hf) (entry_lt hf) b
  rw [Digraph.chain_of_parent (graph_closed hf) (entry_lt hf) hup, List.pairwise_cons] at hpair
  exact (hpair.left b hb).distinct rfl

theorem storesUp_parent (hf : f.WellFormed) (hup : f.dominators.immediate b = some up)
    (hne : b ≠ load.block) (h : load.block ∈ f.dominators.chain b) :
    f.storesUp load b cursor = f.storesIn b 0 cursor ++ f.storesUp load up (f.blockSize up) := by
  unfold storesUp
  rw [blocksUp_parent hf hup hne h, List.flatMap_cons, if_neg hne, if_pos rfl]
  congr 1
  apply List.flatMap_congr
  intro c hc
  -- The block just left is not met again, and all others are taken from their end.
  have hother : c ≠ b := by
    rintro rfl
    exact not_mem_chain_parent hf hup ((mem_blocksUp_iff hf).mp hc).right
  rw [if_neg hother]
  congr 1
  split
  · rename_i hsame
    rw [hsame]
  · rfl

theorem dominates_eq_true_iff : f.dominators.dominates c b = true <-> c ∈ f.dominators.chain b := by
  unfold DominatorTree.dominates
  rw [decide_eq_true_eq]

theorem climbs_outside (h : load.block ∉ f.dominators.chain b) :
    f.Climbs load b cursor ((f.storesUp load b cursor).map Instruction.id) := by
  rw [storesUp_outside h]
  exact .outside (Bool.eq_false_iff.mpr (dominates_eq_true_iff.not.mpr h))

theorem climbs_home (hf : f.WellFormed) (h : b = load.block) :
    f.Climbs load b cursor ((f.storesUp load b cursor).map Instruction.id) := by
  subst h
  rw [storesUp_home hf]
  exact .home (dominates_eq_true_iff.mpr (mem_chain_self hf load.block)) rfl

theorem climbs_iff (hf : f.WellFormed) {found : List Nat} :
    f.Climbs load b cursor found <-> found = (f.storesUp load b cursor).map Instruction.id := by
  constructor
  · intro h
    induction h with
    | outside hout =>
        rw [storesUp_outside (by rw [← dominates_eq_true_iff, hout]; simp)]
        rfl
    | home _ hhome =>
        rw [hhome, storesUp_home hf]
        rfl
    | root hin hne hroot =>
        have hhome := (DominatorTree.mem_chain_of_root hroot).mp (dominates_eq_true_iff.mp hin)
        exact absurd hhome.symm hne
    | parent hin hne hup _ ih =>
        rw [storesUp_parent hf hup hne (dominates_eq_true_iff.mp hin), List.map_append, ← ih]
        rfl
  · rintro rfl
    induction b using Digraph.climb_induction (graph_closed hf) (entry_lt hf)
      generalizing cursor with
    | root b hroot =>
        by_cases hin : load.block ∈ f.dominators.chain b
        · exact climbs_home hf ((DominatorTree.mem_chain_of_root hroot).mp hin).symm
        · exact climbs_outside hin
    | parent b up hup ih =>
        by_cases hin : load.block ∈ f.dominators.chain b
        · by_cases hhome : b = load.block
          · exact climbs_home hf hhome
          · rw [storesUp_parent hf hup hhome hin, List.map_append]
            exact .parent (dominates_eq_true_iff.mpr hin) hhome hup ih
        · exact climbs_outside hin

theorem collects_iff (hf : f.WellFormed) {found : List Nat} :
    f.Collects load store found <-> found = f.storesBetween f.dominators load store := by
  have hclimb : f.Climbs load store.block store.position found <-> _ := climbs_iff hf
  rw [storesBetween_eq]
  constructor
  · intro h
    cases h with
    | straight hblock _ =>
        rw [← hblock, storesUp_home hf]
        rfl
    | climb _ hclimbs => exact hclimb.mp hclimbs
  · intro h
    by_cases hstraight : load.block = store.block ∧ load.position < store.position
    · rw [h, ← hstraight.left, storesUp_home hf]
      have hcollects := Collects.straight (f := f) hstraight.left hstraight.right
      rw [← hstraight.left] at hcollects
      exact hcollects
    · exact .climb hstraight (hclimb.mpr h)

/-!
# Strict dominance between instructions
-/

/-- Every way to `y` has passed `x` before: by blocks, and by position in one block. -/
def Precedes (f : Function) (x y : Instruction) : Prop :=
  x.block ∈ f.dominators.chain y.block ∧ (x.block = y.block -> x.position < y.position)

theorem not_precedes_self : ¬ f.Precedes x x := fun h => Nat.lt_irrefl _ (h.right rfl)

theorem precedes_trans (hf : f.WellFormed) (hxy : f.Precedes x y) (hyz : f.Precedes y z) :
    f.Precedes x z := by
  refine ⟨Digraph.chain_trans (graph_closed hf) (entry_lt hf) hxy.left hyz.left, ?_⟩
  intro hsame
  have hback : y.block ∈ f.dominators.chain x.block := hsame ▸ hyz.left
  have hmiddle : x.block = y.block :=
    Digraph.chain_antisymm (graph_closed hf) (entry_lt hf) hxy.left hback
  exact Nat.lt_trans (hxy.right hmiddle) (hyz.right (hmiddle.symm.trans hsame))

theorem place_of_mem (hf : f.WellFormed) (hx : x ∈ f.layout) :
    (f.blockInsts x.block)[x.position]? = some x :=
  ((layout_iff hf).mp ((mem_layout_iff hf).mp hx)).left

theorem eq_of_place (hf : f.WellFormed) (hx : x ∈ f.layout) (hy : y ∈ f.layout)
    (hblock : x.block = y.block) (hposition : x.position = y.position) : x = y := by
  have hplace := place_of_mem hf hx
  rw [hblock, hposition, place_of_mem hf hy] at hplace
  exact (Option.some.inj hplace).symm

theorem instDominates_of_mem (hf : f.WellFormed) (hx : x ∈ f.layout) (hy : y ∈ f.layout) :
    f.instDominates x.id y.id = .ok true <->
      if x.block = y.block then x.position ≤ y.position
      else x.block ∈ f.dominators.chain y.block := by
  unfold instDominates
  rw [inst_of_mem hf hx, inst_of_mem hf hy]
  change Except.ok (if x.block = y.block then decide (x.position ≤ y.position)
    else f.dominators.dominates x.block y.block) = Except.ok true <-> _
  rw [Except.ok.injEq]
  split
  · exact decide_eq_true_iff
  · exact dominates_eq_true_iff

theorem precedes_iff (hf : f.WellFormed) (hx : x ∈ f.layout) (hy : y ∈ f.layout) :
    f.Precedes x y <-> x ≠ y ∧ f.instDominates x.id y.id = .ok true := by
  rw [instDominates_of_mem hf hx hy]
  constructor
  · intro h
    refine ⟨fun hsame => not_precedes_self (hsame ▸ h), ?_⟩
    split
    · rename_i hblock
      exact Nat.le_of_lt (h.right hblock)
    · exact h.left
  · intro h
    rcases h with ⟨hne, hdominates⟩
    split at hdominates
    · rename_i hblock
      refine ⟨hblock ▸ mem_chain_self hf x.block, fun _ => ?_⟩
      exact Nat.lt_of_le_of_ne hdominates fun hposition =>
        hne (eq_of_place hf hx hy hblock hposition)
    · rename_i hblock
      exact ⟨hdominates, fun hsame => absurd hsame hblock⟩

/-!
# The stores that are collected
-/

theorem mem_storesIn_iff (hf : f.WellFormed) :
    x ∈ f.storesIn b floor stop <->
      x ∈ f.layout ∧ x.isStore = true ∧ x.block = b ∧ floor ≤ x.position ∧ x.position < stop := by
  unfold storesIn
  rw [List.mem_filter, List.mem_reverse, List.mem_iff_getElem?]
  constructor
  · intro h
    rcases h with ⟨⟨p, hp⟩, hstore⟩
    rw [List.getElem?_drop, List.getElem?_take] at hp
    split at hp
    · rename_i hlt
      rcases hf.placed hp with ⟨hblock, hposition⟩
      have hlayout := (mem_layout_iff hf).mpr (layout_of_place hf hp)
      exact ⟨hlayout, hstore, hblock, by omega, by omega⟩
    · cases hp
  · intro h
    rcases h with ⟨hx, hstore, rfl, hfloor, hstop⟩
    refine ⟨⟨x.position - floor, ?_⟩, hstore⟩
    rw [List.getElem?_drop, Nat.add_sub_cancel' hfloor, List.getElem?_take, if_pos hstop]
    exact place_of_mem hf hx

theorem mem_storesUp_iff (hf : f.WellFormed) :
    x ∈ f.storesUp load store.block store.position <->
      x ∈ f.layout ∧ x.isStore = true ∧ f.Precedes load x ∧ f.Precedes x store := by
  unfold storesUp Precedes
  simp only [List.mem_flatMap, mem_storesIn_iff hf, mem_blocksUp_iff hf]
  constructor
  · intro h
    rcases h with ⟨c, ⟨habove, hbelow⟩, hx, hstore, rfl, hfloor, hstop⟩
    refine ⟨hx, hstore, ⟨habove, ?_⟩, hbelow, ?_⟩
    · intro hsame
      rw [if_pos hsame.symm] at hfloor
      exact hfloor
    · intro hsame
      rw [if_pos hsame] at hstop
      exact hstop
  · intro h
    rcases h with ⟨hx, hstore, ⟨habove, hfloor⟩, hbelow, hstop⟩
    refine ⟨x.block, ⟨habove, hbelow⟩, hx, hstore, rfl, ?_, ?_⟩
    · split
      · rename_i hsame
        exact hfloor hsame.symm
      · exact Nat.zero_le _
    · split
      · rename_i hsame
        exact hstop hsame
      · exact (List.getElem?_eq_some_iff.mp (place_of_mem hf hx)).1

theorem pairwise_storesIn (hf : f.WellFormed) (b floor stop : Nat) :
    (f.storesIn b floor stop).Pairwise fun earlier later => f.Precedes later earlier := by
  have hinsts : (f.blockInsts b).Pairwise f.Precedes := by
    rw [List.pairwise_iff_getElem]
    intro p q hp hq hlt
    rcases hf.placed (List.getElem?_eq_getElem hp) with ⟨hblock, hposition⟩
    rcases hf.placed (List.getElem?_eq_getElem hq) with ⟨hblock', hposition'⟩
    unfold Precedes
    rw [hblock, hblock', hposition, hposition']
    exact ⟨mem_chain_self hf b, fun _ => hlt⟩
  have hslice := hinsts.sublist ((List.drop_sublist floor _).trans (List.take_sublist stop _))
  exact (List.pairwise_reverse.mpr hslice).filter _

theorem pairwise_storesUp (hf : f.WellFormed) (b cursor : Nat) :
    (f.storesUp load b cursor).Pairwise fun earlier later => f.Precedes later earlier := by
  unfold storesUp
  rw [List.pairwise_flatMap]
  refine ⟨fun c _ => pairwise_storesIn hf c _ _, (pairwise_blocksUp hf b load.block).imp ?_⟩
  intro lower upper h y hy z hz
  have hlower : y.block = lower := ((mem_storesIn_iff hf).mp hy).right.right.left
  have hupper : z.block = upper := ((mem_storesIn_iff hf).mp hz).right.right.left
  unfold Precedes
  rw [hlower, hupper]
  exact ⟨h.right, fun hsame => absurd hsame h.left⟩

theorem cut_path_exact {name : String} {steps : List Step}
    (hfinished : Function.assemble name steps = .ok f)
    (hload : load ∈ f.layout) (hstore : store ∈ f.layout) :
    exists rest : List Instruction,
      f.cutPath ⟨load.id, store.id⟩ =
          .ok ⟨⟨load.id, store.id⟩, (store :: rest).map Instruction.id⟩ ∧
        (forall found, f.Collects load store found <-> found = rest.map Instruction.id) ∧
        ((store :: rest).map Instruction.id).Nodup ∧
        (f.instDominates load.id store.id = .ok true ->
          (forall x, x ∈ rest <->
            x ∈ f.layout ∧ x.isStore = true ∧ x ≠ store ∧ x ≠ load ∧
              f.instDominates load.id x.id = .ok true ∧
              f.instDominates x.id store.id = .ok true) ∧
          (store :: rest).Pairwise fun earlier later =>
            f.instDominates later.id earlier.id = .ok true) ∧
        (f.instDominates load.id store.id ≠ .ok true -> rest = []) := by
  have hf := wellFormed_of_assemble hfinished
  have hmem : forall x, x ∈ f.storesUp load store.block store.position <-> _ := fun x =>
    mem_storesUp_iff hf
  have hlayout : forall x, x ∈ store :: f.storesUp load store.block store.position ->
      x ∈ f.layout := by
    intro x hx
    rcases List.mem_cons.mp hx with rfl | hx
    · exact hstore
    · exact ((hmem x).mp hx).left
  have hpair : (store :: f.storesUp load store.block store.position).Pairwise
      fun earlier later => f.Precedes later earlier :=
    List.pairwise_cons.mpr ⟨fun x hx => ((hmem x).mp hx).right.right.right,
      pairwise_storesUp hf store.block store.position⟩
  refine ⟨f.storesUp load store.block store.position, ?_, ?_, ?_, ?_, ?_⟩
  · rw [cutPath_eq hf hload hstore, storesBetween_eq]
    rfl
  · intro found
    rw [collects_iff hf, storesBetween_eq]
  · have hnodup : (store :: f.storesUp load store.block store.position).Nodup := by
      apply hpair.imp
      rintro x _ h rfl
      exact not_precedes_self h
    refine hnodup.map_on ?_
    intro x hx y hy hid
    have hsame := inst_of_mem hf (hlayout x hx)
    rw [hid, inst_of_mem hf (hlayout y hy)] at hsame
    exact (Except.ok.inj hsame).symm
  · intro _
    constructor
    · intro x
      rw [hmem]
      constructor
      · intro h
        rcases h with ⟨hx, hkind, hafter, hbefore⟩
        rcases (precedes_iff hf hload hx).mp hafter with ⟨hfirst, hdominated⟩
        rcases (precedes_iff hf hx hstore).mp hbefore with ⟨hlast, hdominates⟩
        exact ⟨hx, hkind, hlast, hfirst.symm, hdominated, hdominates⟩
      · intro h
        rcases h with ⟨hx, hkind, hlast, hfirst, hdominated, hdominates⟩
        exact ⟨hx, hkind, (precedes_iff hf hload hx).mpr ⟨hfirst.symm, hdominated⟩,
          (precedes_iff hf hx hstore).mpr ⟨hlast, hdominates⟩⟩
    · exact hpair.imp_of_mem fun hearlier hlater h =>
        ((precedes_iff hf (hlayout _ hlater) (hlayout _ hearlier)).mp h).right
  · -- A store in between would carry the dominance of the load over to the store.
    intro hnot
    apply List.eq_nil_iff_forall_not_mem.mpr
    intro x hx
    rcases (hmem x).mp hx with ⟨_, _, hafter, hbefore⟩
    exact hnot ((precedes_iff hf hload hstore).mp (precedes_trans hf hafter hbefore)).right

/-!
A store before and a store behind a load, two ways on of which one holds a store, and a loop with
two stores in which the ways meet again.
-/

def ladderSteps : List Step :=
  [.openBlock "start", .openBlock "left", .openBlock "right", .openBlock "loop", .select 0,
    .emit (.store ⟨.object 1, 0⟩ 4), .emit (.load ⟨.object 0, 0⟩ 4),
    .emit (.store ⟨.object 2, 0⟩ 4), .select 1, .emit (.store ⟨.object 3, 0⟩ 4), .select 2,
    .emit (.load ⟨.object 2, 0⟩ 4), .select 3, .emit (.store ⟨.object 4, 0⟩ 4),
    .emit (.store ⟨.object 0, 0⟩ 4), .connect 0 1, .connect 0 2, .connect 1 3, .connect 2 3,
    .connect 3 3]

def ladderFirst : Instruction :=
  { Operation.store ⟨.object 1, 0⟩ 4 with id := 0, block := 0, position := 0 }

def ladderLoad : Instruction :=
  { Operation.load ⟨.object 0, 0⟩ 4 with id := 1, block := 0, position := 1 }

def ladderSide : Instruction :=
  { Operation.store ⟨.object 3, 0⟩ 4 with id := 3, block := 1, position := 0 }

def ladderStore : Instruction :=
  { Operation.store ⟨.object 0, 0⟩ 4 with id := 6, block := 3, position := 1 }

def ladder : Function :=
  ⟨"ladder", [],
    ⟨[⟨"start",
        [ladderFirst, ladderLoad,
          { Operation.store ⟨.object 2, 0⟩ 4 with id := 2, block := 0, position := 2 }]⟩,
      ⟨"left", [ladderSide]⟩,
      ⟨"right", [{ Operation.load ⟨.object 2, 0⟩ 4 with id := 4, block := 2, position := 0 }]⟩,
      ⟨"loop",
        [{ Operation.store ⟨.object 4, 0⟩ 4 with id := 5, block := 3, position := 0 },
          ladderStore]⟩],
      [(0, 1), (0, 2), (1, 3), (2, 3), (3, 3)]⟩⟩

theorem ladder_cut_path :
    Function.assemble "ladder" ladderSteps = .ok ladder ∧
      ladder.instDominates 1 6 = .ok true ∧
      ladder.Collects ladderLoad ladderStore [5, 2] ∧
      ladder.instDominates 3 6 ≠ .ok true ∧ ladder.Collects ladderSide ladderStore [] ∧
      ladder.instDominates 1 0 ≠ .ok true ∧ ladder.Collects ladderLoad ladderFirst [] := by
  have hfinished : Function.assemble "ladder" ladderSteps = .ok ladder := rfl
  have hload : ladderLoad ∈ ladder.layout := by decide
  have hstore : ladderStore ∈ ladder.layout := by decide
  have hside : ladderSide ∈ ladder.layout := by decide
  have hfirst : ladderFirst ∈ ladder.layout := by decide
  have hcut : ladder.cutPath ⟨1, 6⟩ = .ok ⟨⟨1, 6⟩, [6, 5, 2]⟩ := by decide +kernel
  have haside : ladder.instDominates 3 6 ≠ .ok true := by decide +kernel
  have hbefore : ladder.instDominates 1 0 ≠ .ok true := by decide +kernel
  refine ⟨hfinished, by decide +kernel, ?_, haside, ?_, hbefore, ?_⟩
  · rcases cut_path_exact hfinished hload hstore with ⟨rest, hpath, hcollects, _⟩
    have hsame := congrArg CutPath.stores (Except.ok.inj (hcut.symm.trans hpath))
    exact (hcollects [5, 2]).mpr (List.tail_eq_of_cons_eq hsame)
  · rcases cut_path_exact hfinished hside hstore with ⟨rest, _, hcollects, _, _, hempty⟩
    exact (hcollects []).mpr (by rw [hempty haside]; rfl)
  · rcases cut_path_exact hfinished hload hfirst with ⟨rest, _, hcollects, _, _, hempty⟩
    exact (hcollects []).mpr (by rw [hempty hbefore]; rfl)

end Function
end SafeRestart
