import Mathlib.Data.List.TakeWhile
import SafeRestart.CutPath
import SafeRestart.Proofs.Assembly
import SafeRestart.Proofs.Dominance

/-!
# Cut paths cut

Every store on the cut path of a hazard is met by every path from the load to the store: inside a
block there is no way around it, and between blocks it lies in a block that separates the two.
-/

namespace SafeRestart
namespace Function

variable {f : Function} {i j x load store : Instruction} {met : List Instruction} {b q : Nat}

/-!
# Inside a block
-/

/-- Control leaves a block only at its end, so a path meets all that stands before the place where
it ends. -/
theorem mem_of_path_straight (hf : f.WellFormed) (hpath : Path f.Passes i met j)
    (hx : (f.blockInsts i.block)[q]? = some x) (hlt : i.position < q)
    (hend : ¬ (j.block = i.block ∧ i.position ≤ j.position ∧ j.position < q)) : x ∈ met := by
  induction hpath with
  | nil i => exact absurd ⟨rfl, Nat.le_refl _, hlt⟩ hend
  | cons hstep htail ih =>
      rename_i i i' j met
      cases hstep with
      | within hi hi' =>
          rcases hf.placed hi with ⟨rfl, rfl⟩
          rcases hf.placed hi' with ⟨hblock, hposition⟩
          by_cases hnext : i.position + 1 = q
          · rw [hnext, hx] at hi'
            cases hi'
            exact List.mem_cons_self
          · apply List.mem_cons_of_mem
            apply ih
            · rw [hblock]
              exact hx
            · omega
            · intro hin
              apply hend
              rw [hblock, hposition] at hin
              exact ⟨hin.left, by omega, hin.right.right⟩
      | across _ hlast _ =>
          -- The last instruction of the block has nothing behind it.
          rw [List.getLast?_eq_getElem?] at hlast
          rcases hf.placed hlast with ⟨rfl, hposition⟩
          have hbound := (List.getElem?_eq_some_iff.mp hx).1
          omega

/-!
# Between blocks
-/

theorem path_blocks (hf : f.WellFormed) (hpath : Path f.Passes i met j) :
    exists blocks, Path f.graph.Edge i.block blocks j.block ∧
      forall b, b ∈ blocks -> exists y, y ∈ met ∧ y.block = b ∧ y.position = 0 := by
  induction hpath with
  | nil i => exact ⟨[], Path.nil i.block, by simp⟩
  | cons hstep htail ih =>
      rename_i i i' j met
      rcases ih with ⟨blocks, hblocks, hfirst⟩
      have hkeep : forall b, b ∈ blocks ->
          exists y, y ∈ i' :: met ∧ y.block = b ∧ y.position = 0 := by
        intro b hb
        rcases hfirst b hb with ⟨y, hy, hplace⟩
        exact ⟨y, List.mem_cons_of_mem i' hy, hplace⟩
      cases hstep with
      | within hi hi' =>
          rcases hf.placed hi with ⟨rfl, _⟩
          rcases hf.placed hi' with ⟨hblock, _⟩
          rw [hblock] at hblocks
          exact ⟨blocks, hblocks, hkeep⟩
      | across hedge hlast hhead =>
          rw [List.getLast?_eq_getElem?] at hlast
          rw [List.head?_eq_getElem?] at hhead
          rcases hf.placed hlast with ⟨rfl, _⟩
          rcases hf.placed hhead with ⟨rfl, hzero⟩
          refine ⟨i'.block :: blocks, Path.cons hedge hblocks, ?_⟩
          intro b hb
          rcases List.mem_cons.mp hb with rfl | hb
          · exact ⟨i', List.mem_cons_self, rfl, hzero⟩
          · exact hkeep b hb

theorem graph_closed (hf : f.WellFormed) : f.graph.Closed := hf.connected

theorem entry_lt (hf : f.WellFormed) : f.entry < f.graph.size := hf.inhabited

theorem dominates_of_mem_blocksUp (hf : f.WellFormed) {below above : Nat}
    (hb : b ∈ blocksUp f.dominators below above) (hne : b ≠ above) :
    Reaches f.graph.Edge f.entry b ∧ Dominates f.graph.Edge f.entry above b ∧
      Dominates f.graph.Edge f.entry b below := by
  unfold blocksUp at hb
  split at hb
  · rename_i habove
    rcases List.mem_append.mp hb with htake | hlast
    · have hsplit := List.takeWhile_append_dropWhile (p := (· != above))
        (l := f.dominators.chain below)
      have hmem : b ∈ f.dominators.chain below := by
        rw [← hsplit]
        exact List.mem_append_left _ htake
      have hrest : above ∈ (f.dominators.chain below).dropWhile (· != above) := by
        rw [← hsplit] at habove
        rcases List.mem_append.mp habove with hbefore | hrest
        · simpa using List.mem_takeWhile_imp hbefore
        · exact hrest
      have hpair := Digraph.climb_pairwise (graph_closed hf) (entry_lt hf)
        f.dominators.size below
      change (f.dominators.chain below).Pairwise _ at hpair
      rw [← hsplit, List.pairwise_append] at hpair
      rcases hpair.right.right b htake above hrest with ⟨hreach, hdom⟩
      exact ⟨hreach, hdom, Digraph.dominates_of_mem_climb (graph_closed hf) (entry_lt hf) hmem⟩
    · exact absurd (List.mem_singleton.mp hlast) hne
  · cases hb

/-!
# The stores on a cut path
-/

theorem mem_storesBack {floor stop n : Nat} (h : n ∈ f.storesBack b floor stop) :
    exists q x, floor ≤ q ∧ q < stop ∧ (f.blockInsts b)[q]? = some x ∧ x.isStore = true ∧
      x.id = n := by
  unfold storesBack at h
  rcases List.mem_map.mp h with ⟨x, hx, rfl⟩
  rw [List.mem_filter, List.mem_reverse, List.mem_iff_getElem?] at hx
  rcases hx.left with ⟨p, hp⟩
  rw [List.getElem?_drop, List.getElem?_take] at hp
  split at hp
  · rename_i hlt
    exact ⟨floor + p, x, Nat.le_add_right floor p, hlt, hp, hx.right, rfl⟩
  · cases hp

theorem exists_store_of_mem_storesBetween (hf : f.WellFormed) {tree : DominatorTree} {n : Nat}
    (h : n ∈ f.storesBetween tree load store) :
    exists x, x ∈ f.layout ∧ x.isStore = true ∧ x.id = n := by
  unfold storesBetween at h
  rcases List.mem_flatMap.mp h with ⟨b, _, hback⟩
  rcases mem_storesBack hback with ⟨q, x, _, _, hx, hstore, rfl⟩
  exact ⟨x, (mem_layout_iff hf).mpr (layout_of_place hf hx), hstore, rfl⟩

theorem met_of_mem_storesBetween (hf : f.WellFormed) {n : Nat}
    (h : n ∈ f.storesBetween f.dominators load store) (hpath : Path f.Passes load met store) :
    exists x, x ∈ met ∧ x.id = n := by
  unfold storesBetween at h
  rcases List.mem_flatMap.mp h with ⟨b, hb, hback⟩
  rcases mem_storesBack hback with ⟨q, x, hfloor, hstop, hx, _, rfl⟩
  refine ⟨x, ?_, rfl⟩
  by_cases hblock : b = load.block
  · -- Behind the load in its own block: the path runs straight on to it.
    subst hblock
    rw [if_pos rfl] at hfloor
    apply mem_of_path_straight hf hpath hx (by omega)
    intro hend
    rw [if_pos hend.left.symm] at hstop
    omega
  · -- In another block: the path comes in at the top of it.
    rcases dominates_of_mem_blocksUp hf hb hblock with ⟨hreach, habove, hbelow⟩
    rcases path_blocks hf hpath with ⟨blocks, hblocks, hfirst⟩
    have hin : b ∈ blocks := mem_of_dominates_between habove hbelow hreach hblock hblocks
    rcases hfirst b hin with ⟨y, hy, rfl, hzero⟩
    have hplace : (f.blockInsts y.block)[y.position]? = some y :=
      ((layout_iff hf).mp ((mem_layout_iff hf).mp (path_mem_layout hf hpath y hy))).left
    rcases path_cut hpath hy with ⟨before, after, rfl, _, hafter⟩
    by_cases hq : q = 0
    · rw [hzero, ← hq, hx] at hplace
      cases hplace
      exact hy
    · apply List.mem_append_right
      apply List.mem_cons_of_mem
      apply mem_of_path_straight hf hafter hx (by omega)
      intro hend
      rw [if_pos hend.left.symm] at hstop
      omega

theorem cutPath_eq (hf : f.WellFormed) (hload : load ∈ f.layout) (hstore : store ∈ f.layout) :
    f.cutPath ⟨load.id, store.id⟩ =
      .ok ⟨⟨load.id, store.id⟩, store.id :: f.storesBetween f.dominators load store⟩ := by
  unfold cutPath cutPathIn
  rw [inst_of_mem hf hload, inst_of_mem hf hstore]
  rfl

theorem met_of_mem_cutPath (hf : f.WellFormed) {path : CutPath}
    (hload : load ∈ f.layout) (hstore : store ∈ f.layout)
    (hcut : f.cutPath ⟨load.id, store.id⟩ = .ok path) {n : Nat} (hn : n ∈ path.stores)
    (hpath : Path f.Passes load met store) (hne : met ≠ []) : exists x, x ∈ met ∧ x.id = n := by
  rw [cutPath_eq hf hload hstore] at hcut
  cases hcut
  rcases List.mem_cons.mp hn with rfl | hbetween
  · exact ⟨store, path_end_mem hpath hne, rfl⟩
  · exact met_of_mem_storesBetween hf hbetween hpath

theorem exists_candidate (hf : f.WellFormed) {path : CutPath} {n : Nat}
    (hload : load ∈ f.layout) (hstore : store ∈ f.layout)
    (hcut : f.cutPath ⟨load.id, store.id⟩ = .ok path) (hn : n ∈ path.stores) :
    exists x, x ∈ f.layout ∧ (store.isStore = true -> x.isStore = true) ∧ x.id = n := by
  rw [cutPath_eq hf hload hstore] at hcut
  cases hcut
  rcases List.mem_cons.mp hn with rfl | hbetween
  · exact ⟨store, hstore, id, rfl⟩
  · rcases exists_store_of_mem_storesBetween hf hbetween with ⟨x, hx, hkind, hid⟩
    exact ⟨x, hx, fun _ => hkind, hid⟩

theorem cut_candidates_cut {name : String} {steps : List Step}
    (hfinished : Function.assemble name steps = .ok f)
    (hload : load ∈ f.layout) (hstore : store ∈ f.layout) :
    exists path, f.cutPath ⟨load.id, store.id⟩ = .ok path ∧ store.id ∈ path.stores ∧
      forall n, n ∈ path.stores ->
        exists candidate, f.inst n = .ok candidate ∧
          (store.isStore = true -> candidate.isStore = true) ∧
          forall met, Path f.Passes load met store -> met ≠ [] -> candidate ∈ met := by
  have hf := wellFormed_of_assemble hfinished
  have hcut := cutPath_eq hf hload hstore
  refine ⟨_, hcut, List.mem_cons_self, ?_⟩
  intro n hn
  rcases exists_candidate hf hload hstore hcut hn with ⟨candidate, hcandidate, hkind, rfl⟩
  refine ⟨candidate, inst_of_mem hf hcandidate, hkind, ?_⟩
  intro met hpath hne
  rcases met_of_mem_cutPath hf hload hstore hcut hn hpath hne with ⟨x, hx, hid⟩
  have hsame := inst_of_mem hf (path_mem_layout hf hpath x hx)
  rw [hid, inst_of_mem hf hcandidate] at hsame
  cases hsame
  exact hx

/-!
A load before a loop and a store to the same bytes behind it.  The store in the loop lies between
them, however often the loop is taken.
-/

def shuttleSteps : List Step :=
  [.openBlock "start", .openBlock "loop", .openBlock "done", .select 0,
    .emit (.load ⟨.object 0, 0⟩ 4), .select 1, .emit (.store ⟨.object 1, 0⟩ 4), .select 2,
    .emit (.store ⟨.object 0, 0⟩ 4), .connect 0 1, .connect 1 1, .connect 1 2]

def shuttleLoad : Instruction :=
  { Operation.load ⟨.object 0, 0⟩ 4 with id := 0, block := 0, position := 0 }

def shuttleInner : Instruction :=
  { Operation.store ⟨.object 1, 0⟩ 4 with id := 1, block := 1, position := 0 }

def shuttleStore : Instruction :=
  { Operation.store ⟨.object 0, 0⟩ 4 with id := 2, block := 2, position := 0 }

def shuttle : Function :=
  ⟨"shuttle", [],
    ⟨[⟨"start", [shuttleLoad]⟩, ⟨"loop", [shuttleInner]⟩, ⟨"done", [shuttleStore]⟩],
      [(0, 1), (1, 1), (1, 2)]⟩⟩

theorem shuttle_candidates_cut :
    Function.assemble "shuttle" shuttleSteps = .ok shuttle ∧
      shuttle.cutPath ⟨0, 2⟩ = .ok ⟨⟨0, 2⟩, [2, 1]⟩ ∧
      Path shuttle.Passes shuttleLoad [shuttleInner, shuttleInner, shuttleStore] shuttleStore ∧
      forall met, Path shuttle.Passes shuttleLoad met shuttleStore -> shuttleInner ∈ met := by
  have hfinished : Function.assemble "shuttle" shuttleSteps = .ok shuttle := rfl
  have hcut : shuttle.cutPath ⟨0, 2⟩ = .ok ⟨⟨0, 2⟩, [2, 1]⟩ := by decide +kernel
  have hpath : Path shuttle.Passes shuttleLoad [shuttleInner, shuttleInner, shuttleStore]
      shuttleStore := by
    apply Path.cons (Passes.across (b := 0) (c := 1) (by decide) rfl rfl)
    apply Path.cons (Passes.across (b := 1) (c := 1) (by decide) rfl rfl)
    exact Path.cons (Passes.across (b := 1) (c := 2) (by decide) rfl rfl) (Path.nil _)
  refine ⟨hfinished, hcut, hpath, ?_⟩
  intro met hmet
  have hload : shuttleLoad ∈ shuttle.layout := by decide
  have hstore : shuttleStore ∈ shuttle.layout := by decide
  rcases cut_candidates_cut hfinished hload hstore with ⟨path, hsame, _, hall⟩
  cases hcut.symm.trans hsame
  rcases hall 1 (by decide) with ⟨candidate, hcandidate, _, hmeets⟩
  have hinner : shuttle.inst 1 = .ok shuttleInner := rfl
  cases hinner.symm.trans hcandidate
  apply hmeets met hmet
  intro hnil
  rcases path_end hmet with ⟨_, hend⟩ | ⟨init, hinit⟩
  · exact absurd hend (by decide)
  · simp [hnil] at hinit

end Function
end SafeRestart
