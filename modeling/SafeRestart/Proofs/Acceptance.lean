import Mathlib.Data.List.Induction
import SafeRestart.Proofs.Assembly

/-!
# Which steps assemble a function

A sequence of steps can be finished exactly when it is sound and its edges run between its blocks.
Soundness is said of the sequence alone, step by step: `before ++ [s] <+: steps` says that the step
`s` is taken right after the steps `before`.  Blocks have to be open when they are selected, while
instructions, storage locations and the ends of edges may be named before they are there.
-/

namespace SafeRestart

/-!
# Sound sequences of steps
-/

namespace Step

def block? : Step -> Option String
  | .openBlock name => some name
  | _ => none

def storage? : Step -> Option StorageLocation
  | .declare kind name flags => some ⟨kind, name, flags⟩
  | _ => none

def operation? : Step -> Option Operation
  | .emit op => some op
  | _ => none

def edge? : Step -> Option (Nat × Nat)
  | .connect source target => some (source, target)
  | _ => none

theorem operation?_eq_some_iff {s : Step} {op : Operation} :
    s.operation? = some op <-> s = .emit op := by
  cases s with
  | emit op' => simp [operation?]
  | _ => simp [operation?]

theorem edge?_eq_some_iff {s : Step} {e : Nat × Nat} :
    s.edge? = some e <-> s = .connect e.1 e.2 := by
  cases s with
  | connect source target => simp [edge?, Prod.ext_iff]
  | _ => simp [edge?]

end Step

/-- The operation names the result of instruction `i`, as an operand or as its address. -/
def Operation.Mentions (op : Operation) (i : Nat) : Prop :=
  .value i ∈ op.operands ∨
    exists access, op.memory = some access ∧ access.location.address.base = .value i

theorem Operation.mem_references_iff {op : Operation} {i : Nat} :
    i ∈ op.references <-> op.Mentions i := by
  unfold Operation.references Operation.Mentions
  rw [List.mem_append]
  apply or_congr
  · rw [List.mem_filterMap]
    constructor
    · intro h
      rcases h with ⟨operand, hmem, hvalue⟩
      cases operand with
      | const n => cases hvalue
      | value j =>
          cases hvalue
          exact hmem
    · intro h
      exact ⟨.value i, h, rfl⟩
  · cases op.memory with
    | none => simp
    | some access =>
        rcases access with ⟨kind, ⟨⟨base, offset⟩, size⟩⟩
        cases base with
        | object number => simp
        | value j => simp [eq_comm]
        | unknown => simp

namespace Assembly

def blocksIn (steps : List Step) : Nat := (steps.filterMap Step.block?).length

def storageIn (steps : List Step) : Nat := (steps.filterMap Step.storage?).length

def instsIn (steps : List Step) : Nat := (steps.filterMap Step.operation?).length

/-- After the steps `before`, block `b` is the one selected last; a selection of a block that is
not open yet does not count. -/
def Current (before : List Step) (b : Nat) : Prop :=
  exists early, early ++ [.select b] <+: before ∧ b < blocksIn early ∧
    forall mid c, mid ++ [.select c] <+: before -> early.length < mid.length -> ¬ c < blocksIn mid

structure Sound (steps : List Step) : Prop where
  selects : forall before b, before ++ [.select b] <+: steps -> b < blocksIn before
  emits : forall before op, before ++ [.emit op] <+: steps ->
    exists early b, early ++ [.select b] <+: before ∧ b < blocksIn early
  inhabited : 0 < blocksIn steps
  occupied : forall b, b < blocksIn steps ->
    exists before op, before ++ [.emit op] <+: steps ∧ Current before b
  references : forall op i, .emit op ∈ steps -> op.Mentions i -> i < instsIn steps
  storage : forall op s, .emit op ∈ steps -> s ∈ op.defs ∨ s ∈ op.uses -> s < storageIn steps

variable {name : String} {a : Assembly} {steps before : List Step} {b : Nat}

/-!
# Single steps
-/

theorem run_snoc (name : String) (steps : List Step) (s : Step) :
    run name (steps ++ [s]) = (run name steps).step s := by
  simp [run]

def instFor (a : Assembly) (op : Operation) : Instruction :=
  { op with
    id := a.insts.length
    block := a.selected.getD 0
    position := (a.members (a.selected.getD 0)).length }

def Admits (a : Assembly) : Step -> Prop
  | .select b => b < a.blocks.length
  | .emit _ => a.selected.isSome = true
  | _ => True

theorem step_adds (a : Assembly) (s : Step) :
    (a.step s).blocks = a.blocks ++ s.block?.toList ∧
      (a.step s).storage = a.storage ++ s.storage?.toList ∧
      (a.step s).edges = a.edges ++ s.edge?.toList ∧
      (a.step s).insts = a.insts ++ (s.operation?.map a.instFor).toList := by
  cases s with
  | declare kind name flags => simp [step, Step.block?, Step.storage?, Step.edge?, Step.operation?]
  | openBlock name => simp [step, Step.block?, Step.storage?, Step.edge?, Step.operation?]
  | select b =>
      by_cases hb : b < a.blocks.length
      · simp [step, hb, Step.block?, Step.storage?, Step.edge?, Step.operation?]
      · simp [step, hb, blame, Step.block?, Step.storage?, Step.edge?, Step.operation?]
  | emit op =>
      cases hselected : a.selected with
      | none =>
          simp [step, hselected, blame, place, members, instFor, Step.block?, Step.storage?,
            Step.edge?, Step.operation?]
      | some b =>
          simp [step, hselected, place, instFor, Step.block?, Step.storage?, Step.edge?,
            Step.operation?]
  | connect source target =>
      simp [step, Step.block?, Step.storage?, Step.edge?, Step.operation?]

theorem step_misstep (a : Assembly) (s : Step) :
    (a.step s).misstep = none <-> a.misstep = none ∧ a.Admits s := by
  cases s with
  | declare kind name flags => simp [step, Admits]
  | openBlock name => simp [step, Admits]
  | select b =>
      by_cases hb : b < a.blocks.length
      · simp [step, Admits, hb]
      · simp [step, Admits, hb, blame]
  | emit op =>
      cases hselected : a.selected with
      | none => simp [step, Admits, hselected, blame, place]
      | some b => simp [step, Admits, hselected, place]
  | connect source target => simp [step, Admits]

theorem step_selected (a : Assembly) (s : Step) :
    (a.step s).selected = some b <->
      (s = .select b ∧ b < a.blocks.length) ∨
        (a.selected = some b ∧ forall c, s = .select c -> ¬ c < a.blocks.length) := by
  cases s with
  | declare kind name flags => simp [step]
  | openBlock name => simp [step]
  | select c =>
      by_cases hc : c < a.blocks.length
      · have hnew : (a.step (.select c)).selected = some c := by simp [step, hc]
        rw [hnew]
        constructor
        · intro h
          cases h
          exact Or.inl ⟨rfl, hc⟩
        · intro h
          rcases h with ⟨hsame, _⟩ | ⟨_, hclosed⟩
          · cases hsame
            rfl
          · exact absurd hc (hclosed c rfl)
      · have hkept : (a.step (.select c)).selected = a.selected := by simp [step, hc, blame]
        rw [hkept]
        constructor
        · intro h
          refine Or.inr ⟨h, ?_⟩
          intro c' hsame
          cases hsame
          exact hc
        · intro h
          rcases h with ⟨hsame, hopen⟩ | ⟨hselected, _⟩
          · cases hsame
            exact absurd hopen hc
          · exact hselected
  | emit op =>
      cases hselected : a.selected with
      | none => simp [step, hselected, blame, place]
      | some b => simp [step, hselected, place]
  | connect source target => simp [step]

/-!
# Whole runs
-/

/-- A field to which each step appends what it adds holds, after a run, all that was added. -/
theorem field_run {β : Type} (field : Assembly -> List β) {added : Step -> Option β}
    (hstart : field { name := name } = [])
    (hstep : forall a s, field (a.step s) = field a ++ (added s).toList) (steps : List Step) :
    field (run name steps) = steps.filterMap added := by
  induction steps using List.reverseRecOn with
  | nil => exact hstart
  | append_singleton steps s ih =>
      rw [run_snoc, hstep, ih, List.filterMap_append]
      cases hadded : added s with
      | none => simp [hadded]
      | some x => simp [hadded]

theorem blocks_run (name : String) (steps : List Step) :
    (run name steps).blocks = steps.filterMap Step.block? :=
  field_run blocks rfl (fun a s => (step_adds a s).left) steps

theorem storage_run (name : String) (steps : List Step) :
    (run name steps).storage = steps.filterMap Step.storage? :=
  field_run storage rfl (fun a s => (step_adds a s).right.left) steps

theorem edges_run (name : String) (steps : List Step) :
    (run name steps).edges = steps.filterMap Step.edge? :=
  field_run edges rfl (fun a s => (step_adds a s).right.right.left) steps

theorem operations_run (name : String) (steps : List Step) :
    (run name steps).insts.map Instruction.toOperation = steps.filterMap Step.operation? := by
  refine field_run (fun a => a.insts.map Instruction.toOperation) rfl ?_ steps
  intro a s
  rw [(step_adds a s).right.right.right, List.map_append]
  cases s.operation? with
  | none => rfl
  | some op => rfl

theorem length_blocks_run (name : String) (steps : List Step) :
    (run name steps).blocks.length = blocksIn steps := by
  rw [blocks_run, blocksIn]

theorem length_storage_run (name : String) (steps : List Step) :
    (run name steps).storage.length = storageIn steps := by
  rw [storage_run, storageIn]

theorem length_insts_run (name : String) (steps : List Step) :
    (run name steps).insts.length = instsIn steps := by
  rw [instsIn, ← operations_run name, List.length_map]

theorem length_lt_of_taken {α : Type} {before steps : List α} {x : α}
    (h : before ++ [x] <+: steps) : before.length < steps.length := by
  have hle := h.length_le
  rw [List.length_append, List.length_singleton] at hle
  exact hle

theorem mem_insts_run_iff {inst : Instruction} :
    inst ∈ (run name steps).insts <->
      exists before op, before ++ [.emit op] <+: steps ∧ inst = (run name before).instFor op := by
  induction steps using List.reverseRecOn with
  | nil => simp [run]
  | append_singleton steps s ih =>
      rw [run_snoc, (step_adds _ s).right.right.right, List.mem_append, ih]
      simp only [List.prefix_concat_iff, List.append_singleton_inj, or_and_right, exists_or]
      rw [or_comm]
      apply or_congr
      · simp only [Option.mem_toList, Option.map_eq_some_iff, Step.operation?_eq_some_iff]
        constructor
        · rintro ⟨op, rfl, rfl⟩
          exact ⟨steps, op, ⟨rfl, rfl⟩, rfl⟩
        · rintro ⟨_, op, ⟨rfl, rfl⟩, rfl⟩
          exact ⟨op, rfl, rfl⟩
      · exact Iff.rfl

theorem misstep_run_iff :
    (run name steps).misstep = none <->
      forall before s, before ++ [s] <+: steps -> (run name before).Admits s := by
  induction steps using List.reverseRecOn with
  | nil => simp [run]
  | append_singleton steps s ih =>
      rw [run_snoc, step_misstep, ih]
      simp only [List.prefix_concat_iff, List.append_singleton_inj]
      constructor
      · intro h before s' htaken
        rcases htaken with ⟨rfl, rfl⟩ | htaken
        · exact h.right
        · exact h.left before s' htaken
      · intro h
        exact ⟨fun before s' htaken => h before s' (Or.inr htaken), h steps s (Or.inl ⟨rfl, rfl⟩)⟩

/-!
# The selected block
-/

theorem current_snoc_iff {s : Step} :
    Current (before ++ [s]) b <->
      (s = .select b ∧ b < blocksIn before) ∨
        (Current before b ∧ forall c, s = .select c -> ¬ c < blocksIn before) := by
  unfold Current
  simp only [List.prefix_concat_iff, List.append_singleton_inj]
  constructor
  · intro h
    rcases h with ⟨early, ⟨rfl, rfl⟩ | hearly, hopen, hlater⟩
    · exact Or.inl ⟨rfl, hopen⟩
    · have hlength := length_lt_of_taken hearly
      refine Or.inr ⟨⟨early, hearly, hopen, fun mid c hmid => hlater mid c (Or.inr hmid)⟩, ?_⟩
      intro c hs
      exact hlater before c (Or.inl ⟨rfl, hs.symm⟩) hlength
  · intro h
    rcases h with ⟨rfl, hopen⟩ | ⟨⟨early, hearly, hopen, hlater⟩, hs⟩
    · refine ⟨before, Or.inl ⟨rfl, rfl⟩, hopen, ?_⟩
      intro mid c hmid hlength
      rcases hmid with ⟨rfl, _⟩ | hmid
      · exact absurd hlength (Nat.lt_irrefl _)
      · exact absurd hlength (Nat.lt_asymm (length_lt_of_taken hmid))
    · refine ⟨early, Or.inr hearly, hopen, ?_⟩
      intro mid c hmid hlength
      rcases hmid with ⟨rfl, hsame⟩ | hmid
      · exact hs c hsame.symm
      · exact hlater mid c hmid hlength

theorem selected_run_iff : (run name before).selected = some b <-> Current before b := by
  induction before using List.reverseRecOn with
  | nil => simp [run, Current]
  | append_singleton before s ih =>
      rw [run_snoc, step_selected, current_snoc_iff, ih, length_blocks_run]

theorem flaw?_eq_none_iff {inst : Instruction} :
    a.flaw? inst = none <->
      (forall i, inst.Mentions i -> i < a.insts.length) ∧
        forall s, s ∈ inst.defs ∨ s ∈ inst.uses -> s < a.storage.length := by
  unfold flaw?
  simp only [← Operation.mem_references_iff, ← List.mem_append]
  split
  · rename_i missing hmissing
    have hlarge := List.find?_some hmissing
    simp only [decide_eq_true_eq] at hlarge
    simp only [reduceCtorEq, false_iff, not_and]
    intro h
    exact absurd (h missing (List.mem_of_find?_eq_some hmissing)) (Nat.not_lt_of_le hlarge)
  · rename_i hnone
    have hreferences : forall i, i ∈ inst.references -> i < a.insts.length := by simpa using hnone
    rw [Option.map_eq_none_iff, List.find?_eq_none]
    constructor
    · intro h
      exact ⟨hreferences, fun s hs => by simpa using h s hs⟩
    · intro h s hs
      simpa using h.right s hs

end Assembly

namespace Digraph

universe u

variable {α : Type u} {g : Digraph α}

end Digraph

namespace Assembly

variable {name : String} {steps : List Step}

theorem mem_edges_run_iff {e : Nat × Nat} :
    e ∈ (run name steps).edges <-> .connect e.1 e.2 ∈ steps := by
  rw [edges_run, List.mem_filterMap]
  simp only [Step.edge?_eq_some_iff, exists_eq_right]

example : Function.assemble "f" [.openBlock "a", .select 0, .connect 0 7] =
    .error (.emptyBlock "a") := rfl

example : Function.assemble "f" [.connect 0 7, .openBlock "a", .select 0, .emit (.ret [])] =
    .error (.missingNode 0 7 7) := rfl

end Assembly
end SafeRestart
