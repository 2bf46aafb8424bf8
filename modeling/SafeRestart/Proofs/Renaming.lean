import SafeRestart.Proofs.Assembly
import SafeRestart.Proofs.Liveness
import SafeRestart.Proofs.Walk

/-!
# Renaming storage locations

Renaming the locations that instructions write and read leaves the flow of control and the regions
as they are.  What is live afterwards comes from a location that was live before.
-/

namespace SafeRestart

def Operation.rename (ρ : Nat -> Nat) (op : Operation) : Operation :=
  { op with defs := op.defs.map ρ, uses := op.uses.map ρ }

def Instruction.rename (ρ : Nat -> Nat) (inst : Instruction) : Instruction :=
  { inst with toOperation := inst.toOperation.rename ρ }

def Block.rename (ρ : Nat -> Nat) (block : Block) : Block :=
  { block with insts := block.insts.map (Instruction.rename ρ) }

def Digraph.map {α β : Type} (φ : α -> β) (g : Digraph α) : Digraph β :=
  ⟨g.nodes.map φ, g.edges⟩

def Function.rename (ρ : Nat -> Nat) (f : Function) : Function :=
  { f with graph := f.graph.map (Block.rename ρ) }

def Step.rename (ρ : Nat -> Nat) : Step -> Step
  | .emit op => .emit (op.rename ρ)
  | step => step

def Assembly.rename (ρ : Nat -> Nat) (a : Assembly) : Assembly :=
  { a with insts := a.insts.map (Instruction.rename ρ) }

variable {ρ : Nat -> Nat}

/-!
# Instructions
-/

theorem Operation.defines_rename_iff {op : Operation} {s : Nat} :
    (op.rename ρ).defines s = true <-> exists x, op.defines x = true ∧ ρ x = s := by
  simp [Operation.defines, Operation.rename]

theorem Operation.reads_rename_iff {op : Operation} {s : Nat} :
    (op.rename ρ).reads s = true <-> exists x, op.reads x = true ∧ ρ x = s := by
  simp [Operation.reads, Operation.rename]

theorem Operation.isIdentityCopy_rename {op : Operation} (h : op.isIdentityCopy = true) :
    (op.rename ρ).isIdentityCopy = true := by
  unfold Operation.isIdentityCopy at h ⊢
  rw [Bool.or_eq_true] at h ⊢
  rcases h with hflag | hcopy
  · exact Or.inl hflag
  · apply Or.inr
    rw [Bool.and_eq_true, Bool.and_eq_true] at hcopy ⊢
    rcases hcopy with ⟨⟨hcopy, hsome⟩, hsame⟩
    refine ⟨⟨hcopy, ?_⟩, ?_⟩
    · simpa [Operation.rename] using hsome
    · simp [Operation.rename, eq_of_beq hsame]

/-!
# Assembling renamed functions
-/

namespace Digraph

variable {α β : Type}

theorem addEdges_map (φ : α -> β) (g : Digraph α) (edges : List (Nat × Nat)) :
    (g.map φ).addEdges edges = (g.addEdges edges).map (Digraph.map φ) := by
  have hplain := addEdges_withNodes (g := g) (List.length_map φ) edges
  cases hadd : g.addEdges edges with
  | error e =>
      rw [hadd] at hplain
      exact hplain
  | ok connected =>
      rw [hadd] at hplain
      refine hplain.trans (congrArg Except.ok ?_)
      show Digraph.mk _ _ = Digraph.mk _ _
      rw [(addEdges_ok hadd).left]

end Digraph

namespace Assembly

theorem members_rename (ρ : Nat -> Nat) (a : Assembly) (b : Nat) :
    (a.rename ρ).members b = (a.members b).map (Instruction.rename ρ) := by
  unfold members rename
  rw [List.filter_map]
  rfl

theorem place_rename (a : Assembly) (b : Nat) (op : Operation) :
    (a.rename ρ).place b (op.rename ρ) = (a.place b op).rename ρ := by
  unfold place
  rw [members_rename ρ a b]
  simp [rename, Instruction.rename]

theorem step_rename (a : Assembly) (s : Step) :
    (a.rename ρ).step (s.rename ρ) = (a.step s).rename ρ := by
  cases s with
  | declare kind name flags => rfl
  | openBlock name => rfl
  | select b =>
      show (if b < a.blocks.length then _ else _) =
        (if b < a.blocks.length then _ else _ : Assembly).rename ρ
      split
      · rfl
      · rfl
  | emit op =>
      have hselected : (a.rename ρ).selected = a.selected := rfl
      unfold step Step.rename
      dsimp only
      rw [hselected]
      cases a.selected with
      | some b => exact place_rename a b op
      | none =>
          rw [← place_rename]
          simp [rename, blame]
  | connect source target => rfl

theorem run_rename (name : String) (steps : List Step) :
    run name (steps.map (Step.rename ρ)) = (run name steps).rename ρ := by
  have hfold : forall a : Assembly,
      (steps.map (Step.rename ρ)).foldl step (a.rename ρ) = (steps.foldl step a).rename ρ := by
    induction steps with
    | nil =>
        intro a
        rfl
    | cons s rest ih =>
        intro a
        rw [List.map_cons, List.foldl_cons, List.foldl_cons, step_rename, ih]
  exact hfold { name := name }

theorem flaw?_rename {a : Assembly} {inst : Instruction}
    (hρ : forall s, s < a.storage.length -> ρ s < a.storage.length) (h : a.flaw? inst = none) :
    (a.rename ρ).flaw? (inst.rename ρ) = none := by
  unfold flaw? at h ⊢
  split at h
  · cases h
  · rename_i hreferences
    have hsame : ((inst.rename ρ).references.find? fun i => (a.rename ρ).insts.length ≤ i) =
        inst.references.find? fun i => a.insts.length ≤ i := by
      simp only [rename, List.length_map]
      rfl
    rw [hsame, hreferences]
    rw [Option.map_eq_none_iff, List.find?_eq_none] at h ⊢
    intro s hs
    have hs' : s ∈ (inst.defs ++ inst.uses).map ρ := by
      rw [List.map_append]
      exact hs
    rcases List.mem_map.mp hs' with ⟨x, hx, rfl⟩
    have hdeclared : x < a.storage.length := by simpa using h x hx
    show ¬ decide (a.storage.length ≤ ρ x) = true
    simpa using hρ x hdeclared

theorem firstError?_rename {a : Assembly}
    (hρ : forall s, s < a.storage.length -> ρ s < a.storage.length) (h : a.firstError? = none) :
    (a.rename ρ).firstError? = none := by
  rcases firstError?_eq_none_iff.mp h with ⟨hstep, hblocks, hoccupied, hflaws⟩
  apply firstError?_eq_none_iff.mpr
  refine ⟨hstep, hblocks, ?_, ?_⟩
  · intro b hb
    rw [members_rename]
    simpa using hoccupied b hb
  · intro inst hinst
    rcases List.mem_map.mp hinst with ⟨original, horiginal, rfl⟩
    exact flaw?_rename hρ (hflaws original horiginal)

theorem finish_rename {a : Assembly} {f : Function}
    (hρ : forall s, s < f.storage.length -> ρ s < f.storage.length) (h : a.finish = .ok f) :
    (a.rename ρ).finish = .ok (f.rename ρ) := by
  rcases finish_ok h with ⟨hnone, _, hstorage, _, _⟩
  rw [hstorage] at hρ
  have hgraph : (a.rename ρ).unconnected = a.unconnected.map (Block.rename ρ) := by
    unfold unconnected Digraph.map
    simp only [List.map_map, members_rename]
    rfl
  unfold finish at h ⊢
  rw [hnone] at h
  rw [firstError?_rename hρ hnone]
  dsimp only at h ⊢
  rw [hgraph]
  show ((a.unconnected.map (Block.rename ρ)).addEdges a.edges).map _ = _
  rw [Digraph.addEdges_map]
  cases hadd : a.unconnected.addEdges a.edges with
  | error err =>
      rw [hadd] at h
      cases h
  | ok graph =>
      rw [hadd] at h
      cases h
      rfl

end Assembly

/-- Renaming within the declared locations, the steps assemble the renamed function. -/
theorem Function.assemble_rename {name : String} {steps : List Step} {f : Function}
    (hρ : forall s, s < f.storage.length -> ρ s < f.storage.length)
    (h : Function.assemble name steps = .ok f) :
    Function.assemble name (steps.map (Step.rename ρ)) = .ok (f.rename ρ) := by
  unfold Function.assemble
  rw [Assembly.run_rename]
  exact Assembly.finish_rename hρ h

/-!
# Flow of control
-/

namespace Function

variable {f : Function} {s k : Nat}

theorem layout_rename (ρ : Nat -> Nat) (f : Function) :
    (f.rename ρ).layout = f.layout.map (Instruction.rename ρ) := by
  show (f.blocks.map (Block.rename ρ)).flatMap Block.insts = _
  rw [List.flatMap_map]
  unfold layout
  rw [List.map_flatMap]
  rfl

theorem blockSize_rename (ρ : Nat -> Nat) (f : Function) (b : Nat) :
    (f.rename ρ).blockSize b = f.blockSize b := by
  unfold blockSize blockInsts block?
  show (((f.blocks.map (Block.rename ρ))[b]?).elim [] Block.insts).length = _
  rw [List.getElem?_map]
  cases f.blocks[b]? with
  | none => rfl
  | some block => exact List.length_map (Instruction.rename ρ)

theorem blockStart_rename (ρ : Nat -> Nat) (f : Function) (b : Nat) :
    (f.rename ρ).blockStart b = f.blockStart b := by
  induction b with
  | zero => rw [blockStart_zero, blockStart_zero]
  | succ b ih => rw [blockStart_succ, blockStart_succ, ih, blockSize_rename]

theorem next_rename (ρ : Nat -> Nat) (f : Function) (k : Nat) :
    (f.rename ρ).next k = f.next k := by
  have hstart : (f.rename ρ).blockStart = f.blockStart := funext (blockStart_rename ρ f)
  unfold next
  rw [layout_rename, List.getElem?_map, hstart]
  cases f.layout[k]? with
  | none => rfl
  | some inst =>
      show (if inst.position + 1 < (f.rename ρ).blockSize inst.block then _ else _) = _
      rw [blockSize_rename]
      rfl

theorem slot?_rename (ρ : Nat -> Nat) (f : Function) (i : Nat) :
    (f.rename ρ).slot? i = f.slot? i := by
  unfold slot?
  rw [layout_rename, List.findIdx?_map]
  rfl

theorem leads_rename (ρ : Nat -> Nat) (f : Function) : (f.rename ρ).Leads = f.Leads := by
  funext k l
  unfold Leads
  rw [next_rename]

theorem definesAt_rename_iff :
    (f.rename ρ).definesAt s k = true <-> exists x, f.definesAt x k = true ∧ ρ x = s := by
  unfold definesAt
  rw [layout_rename, List.getElem?_map]
  cases f.layout[k]? with
  | none => simp
  | some inst => exact Operation.defines_rename_iff

theorem readsAt_rename_iff :
    (f.rename ρ).readsAt s k = true <-> exists x, f.readsAt x k = true ∧ ρ x = s := by
  unfold readsAt
  rw [layout_rename, List.getElem?_map]
  cases f.layout[k]? with
  | none => simp
  | some inst => exact Operation.reads_rename_iff

theorem liveBefore_of_rename (h : (f.rename ρ).LiveBefore s k) :
    exists x, ρ x = s ∧ f.LiveBefore x k := by
  rcases h with ⟨met, r, hpath, hreads, hfree⟩
  rcases readsAt_rename_iff.mp hreads with ⟨x, hx, hname⟩
  refine ⟨x, hname, met, r, leads_rename ρ f ▸ hpath, hx, ?_⟩
  intro j hj hdefines
  exact hfree j hj (definesAt_rename_iff.mpr ⟨x, hdefines, hname⟩)

end Function

namespace RegionModel

variable {f : Function} {boundaries : BoundarySet}

theorem entries_rename :
    (ofBoundaries (f.rename ρ) boundaries).entries = (ofBoundaries f boundaries).entries := by
  have hslots : (f.rename ρ).slot? = f.slot? := funext (Function.slot?_rename ρ f)
  unfold ofBoundaries ofSlots
  rw [hslots, Function.layout_rename, List.isEmpty_map]

theorem regions_rename :
    (ofBoundaries (f.rename ρ) boundaries).regions = (ofBoundaries f boundaries).regions := by
  unfold regions
  rw [entries_rename]
  have hfunction : (ofBoundaries (f.rename ρ) boundaries).function = f.rename ρ := rfl
  rw [hfunction, Function.layout_rename]
  simp only [List.getElem?_map, Option.map_map]
  rfl

theorem leadsInside_rename :
    (ofBoundaries (f.rename ρ) boundaries).LeadsInside =
      (ofBoundaries f boundaries).LeadsInside := by
  funext k l
  unfold LeadsInside
  rw [entries_rename]
  show ((f.rename ρ).Leads k l ∧ _) = _
  rw [Function.leads_rename]
  rfl

end RegionModel

end SafeRestart
