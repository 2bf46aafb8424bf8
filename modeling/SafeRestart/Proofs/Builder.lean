import SafeRestart.Proofs.Guarded.Layout

/-!
# Builders

A builder keeps less about an instruction than an assembly does: blocks hold the numbers of their
instructions, the operations stand in the order in which they were emitted, and neither knows of
the other.  An instruction that is emitted before a block is open goes into no block at all, so
after a misstep the two are only alike in what can still be asked of them.
-/

namespace SafeRestart

/-!
# Lists whose members know their index
-/

section Indexed

variable {α β : Type} {key : α -> Nat} {l : List α}

theorem zipIdx_of_keys (h : l.map key = List.range l.length) (g : α -> β) :
    (l.map g).zipIdx = l.map fun a => (g a, key a) := by
  rw [List.zipIdx_eq_zip_range', List.length_map, ← List.range_eq_range', ← h, List.zip_map']

theorem key_of_getElem? (h : l.map key = List.range l.length) {n : Nat} {a : α}
    (ha : l[n]? = some a) : key a = n := by
  have hkey : (l.map key)[n]? = some (key a) := by
    rw [List.getElem?_map, ha]
    rfl
  rw [h, List.getElem?_range (List.getElem?_eq_some_iff.mp ha).1, Option.some.injEq] at hkey
  exact hkey.symm

theorem getElem?_of_keys (h : l.map key = List.range l.length) {a : α} (ha : a ∈ l) :
    l[key a]? = some a := by
  rcases List.getElem?_of_mem ha with ⟨n, hn⟩
  rw [key_of_getElem? h hn, hn]

theorem set_of_keys (h : l.map key = List.range l.length) {g g' : α -> β} {a : α} {new : β}
    (ha : a ∈ l) (hnew : g' a = new) (hsame : forall b, b ∈ l -> b ≠ a -> g' b = g b) :
    (l.map g).set (key a) new = l.map g' := by
  have hplace := getElem?_of_keys h ha
  apply List.ext_getElem?
  intro n
  rw [List.getElem?_set, List.getElem?_map, List.getElem?_map, List.length_map]
  by_cases hn : key a = n
  · rw [if_pos hn, ← hn, if_pos (List.getElem?_eq_some_iff.mp hplace).1, hplace, ← hnew]
    rfl
  · rw [if_neg hn]
    cases hb : l[n]? with
    | none => rfl
    | some b =>
        have hne : b ≠ a := by
          rintro rfl
          exact hn (key_of_getElem? h hb)
        exact congrArg some (hsame b (List.mem_of_getElem? hb) hne).symm

end Indexed

/-!
# Taking steps
-/

structure Builder where
  name : String
  storage : List StorageLocation := []
  blocks : List (String × List Nat) := []
  payloads : List (Nat × Operation) := []
  edges : List (Nat × Nat) := []
  selected : Option Nat := none
  misstep : Option Error := none

namespace Builder

def blame (b : Builder) (error : Error) : Builder :=
  { b with misstep := b.misstep <|> some error }

/-- The operation is kept even when there is no such block. -/
def push (b : Builder) (id block : Nat) (op : Operation) : Builder :=
  { b with
    blocks := b.blocks.modify block fun named => (named.1, named.2 ++ [id])
    payloads := b.payloads ++ [(block, op)] }

def step (b : Builder) : Step -> Except Fault Builder
  | .declare kind name flags => do
      let _ ← checkIndex b.storage.length
      return { b with storage := b.storage ++ [⟨kind, name, flags⟩] }
  | .openBlock name => do
      let _ ← checkIndex b.blocks.length
      return { b with blocks := b.blocks ++ [(name, [])] }
  | .select block =>
      if block < b.blocks.length then .ok { b with selected := some block }
      else .ok (b.blame (.unknownBlock block))
  | .emit op => do
      let id ← checkIndex b.payloads.length
      match b.selected with
      | some block => return b.push id block op
      | none => return (b.blame (.noBlockSelected id)).push id 0 op
  | .connect source target => .ok { b with edges := b.edges ++ [(source, target)] }

def run (name : String) (steps : List Step) : Except Fault Builder :=
  steps.foldlM step { name := name }

end Builder

/-!
# Builders and assemblies
-/

namespace Assembly

def builder (a : Assembly) : Builder where
  name := a.name
  storage := a.storage
  blocks := a.blocks.zipIdx.map fun named => (named.1, (a.members named.2).map Instruction.id)
  payloads := a.insts.map fun inst => (inst.block, inst.toOperation)
  edges := a.edges
  selected := a.selected
  misstep := a.misstep

/-- There are identifiers for everything that the steps add, and for the points of the layout. -/
structure Indexable (steps : List Step) : Prop where
  storage : storageIn steps ≤ maxIndex + 1
  blocks : blocksIn steps ≤ maxIndex + 1
  insts : instsIn steps < 2147483648

variable {a : Assembly} {b : Nat}

theorem Indexable.mono {before steps : List Step} (h : Indexable steps)
    (hbefore : before <+: steps) : Indexable before :=
  ⟨(hbefore.sublist.filterMap Step.storage?).length_le.trans h.storage,
    (hbefore.sublist.filterMap Step.block?).length_le.trans h.blocks,
    Nat.lt_of_le_of_lt (hbefore.sublist.filterMap Step.operation?).length_le h.insts⟩

theorem members_place (a : Assembly) (b c : Nat) (op : Operation) :
    ((a.place b op).members c).map Instruction.id =
      (a.members c).map Instruction.id ++ if c = b then [a.insts.length] else [] := by
  by_cases hc : c = b
  · simp [members, place, hc]
  · simp [members, place, hc, Ne.symm hc]

theorem builder_place (a : Assembly) (b : Nat) (op : Operation) :
    (a.place b op).builder = a.builder.push a.insts.length b op := by
  have hblocks : (a.place b op).builder.blocks =
      a.builder.blocks.modify b fun named => (named.1, named.2 ++ [a.insts.length]) := by
    show (a.blocks.zipIdx.map fun named => _) = _
    apply List.ext_getElem?
    intro c
    rw [List.getElem?_modify]
    simp only [builder, List.getElem?_map, List.getElem?_zipIdx, Nat.zero_add, members_place]
    cases a.blocks[c]? with
    | none => rfl
    | some name =>
        by_cases hc : b = c
        · simp [hc]
        · simp [hc, Ne.symm hc]
  have hpayloads : (a.place b op).builder.payloads = a.builder.payloads ++ [(b, op)] := by
    simp [builder, place]
  unfold Builder.push
  rw [← hblocks, ← hpayloads]
  rfl

theorem builder_openBlock (hopen : forall inst, inst ∈ a.insts -> inst.block < a.blocks.length)
    (name : String) :
    (a.step (.openBlock name)).builder =
      { a.builder with blocks := a.builder.blocks ++ [(name, [])] } := by
  have hempty : a.members a.blocks.length = [] := by
    apply List.filter_eq_nil_iff.mpr
    intro inst hinst
    have hlt := hopen inst hinst
    simp only [beq_iff_eq]
    omega
  have hblocks : (a.step (.openBlock name)).builder.blocks = a.builder.blocks ++ [(name, [])] := by
    show ((a.blocks ++ [name]).zipIdx.map fun named => (named.1, (a.members named.2).map _)) = _
    rw [List.zipIdx_append, List.map_append]
    simp [builder, hempty]
  rw [← hblocks]
  rfl

end Assembly

namespace Builder

structure Tracks (b : Builder) (a : Assembly) : Prop where
  selected : b.selected = a.selected
  misstep : b.misstep = a.misstep
  storage : b.storage.length = a.storage.length
  blocks : b.blocks.length = a.blocks.length
  payloads : b.payloads.length = a.insts.length
  exact : a.misstep = none -> b = a.builder

variable {b : Builder} {a : Assembly}

theorem tracks_push (h : b.Tracks a) (block : Nat) (op : Operation) :
    (b.push b.payloads.length block op).Tracks (a.place block op) where
  selected := h.selected
  misstep := h.misstep
  storage := h.storage
  blocks := by simpa [push, Assembly.place] using h.blocks
  payloads := by simpa [push, Assembly.place] using h.payloads
  exact := by
    intro hstep
    rw [Assembly.builder_place, h.payloads, h.exact hstep]

theorem tracks_blame (h : b.Tracks a) (error : Error) : (b.blame error).Tracks (a.blame error) where
  selected := h.selected
  misstep := by simp only [blame, Assembly.blame, h.misstep]
  storage := h.storage
  blocks := h.blocks
  payloads := h.payloads
  exact := by
    intro hstep
    cases hold : a.misstep with
    | none => simp [Assembly.blame, hold] at hstep
    | some old => simp [Assembly.blame, hold] at hstep

theorem exists_step (h : b.Tracks a)
    (hopen : a.misstep = none -> forall inst, inst ∈ a.insts -> inst.block < a.blocks.length)
    {s : Step} (hstorage : (a.step s).storage.length ≤ maxIndex + 1)
    (hblocks : (a.step s).blocks.length ≤ maxIndex + 1)
    (hinsts : (a.step s).insts.length ≤ maxIndex + 1) :
    exists b', b.step s = .ok b' ∧ b'.Tracks (a.step s) := by
  cases s with
  | declare kind name flags =>
      have hindex : b.storage.length ≤ maxIndex := by
        simp only [Assembly.step, List.length_append, List.length_singleton] at hstorage
        rw [h.storage]
        omega
      refine ⟨_, by rw [step, checkIndex_of_le hindex]; rfl, ?_⟩
      refine ⟨h.selected, h.misstep, ?_, h.blocks, h.payloads, ?_⟩
      · simpa [Assembly.step] using h.storage
      · intro hstep
        rw [h.exact hstep]
        rfl
  | openBlock name =>
      have hindex : b.blocks.length ≤ maxIndex := by
        simp only [Assembly.step, List.length_append, List.length_singleton] at hblocks
        rw [h.blocks]
        omega
      refine ⟨_, by rw [step, checkIndex_of_le hindex]; rfl, ?_⟩
      refine ⟨h.selected, h.misstep, h.storage, ?_, h.payloads, ?_⟩
      · simpa [Assembly.step] using h.blocks
      · intro hstep
        rw [h.exact hstep, Assembly.builder_openBlock (hopen hstep)]
  | select block =>
      by_cases hblock : block < a.blocks.length
      · have hplain : a.step (.select block) = { a with selected := some block } := if_pos hblock
        rw [hplain]
        refine ⟨_, if_pos (h.blocks ▸ hblock), rfl, h.misstep, h.storage, h.blocks, h.payloads, ?_⟩
        intro hstep
        rw [h.exact hstep]
        rfl
      · have hplain : a.step (.select block) = a.blame (.unknownBlock block) := if_neg hblock
        rw [hplain]
        exact ⟨_, if_neg (h.blocks ▸ hblock), tracks_blame h _⟩
  | emit op =>
      have hindex : b.payloads.length ≤ maxIndex := by
        rw [(Assembly.step_adds a _).right.right.right] at hinsts
        simp only [Step.operation?, Option.map_some, Option.toList_some, List.length_append,
          List.length_singleton] at hinsts
        rw [h.payloads]
        omega
      rw [step, checkIndex_of_le hindex, ok_bind, h.selected, Assembly.step]
      cases a.selected with
      | some block => exact ⟨_, rfl, tracks_push h block op⟩
      | none =>
          rw [← h.payloads]
          exact ⟨_, rfl, tracks_push (tracks_blame h _) 0 op⟩
  | connect source target =>
      refine ⟨_, rfl, h.selected, h.misstep, h.storage, h.blocks, h.payloads, ?_⟩
      intro hstep
      rw [h.exact hstep]
      rfl

theorem exists_run (name : String) {steps : List Step} (hsteps : Assembly.Indexable steps) :
    exists b, run name steps = .ok b ∧ b.Tracks (Assembly.run name steps) := by
  induction steps using List.reverseRecOn with
  | nil => exact ⟨_, rfl, rfl, rfl, rfl, rfl, rfl, fun _ => rfl⟩
  | append_singleton steps s ih =>
      rcases ih (hsteps.mono (List.prefix_append steps [s])) with ⟨b, hrun, htracks⟩
      have hinsts : Assembly.instsIn (steps ++ [s]) ≤ maxIndex + 1 := by
        have hlt := hsteps.insts
        unfold maxIndex
        omega
      rw [Assembly.run_snoc]
      have hnext : exists b', b.step s = .ok b' ∧ b'.Tracks ((Assembly.run name steps).step s) := by
        apply exists_step htracks fun hstep inst hinst =>
          Assembly.block_lt_of_mem_insts hstep hinst
        · rw [← Assembly.run_snoc, Assembly.length_storage_run]
          exact hsteps.storage
        · rw [← Assembly.run_snoc, Assembly.length_blocks_run]
          exact hsteps.blocks
        · rw [← Assembly.run_snoc, Assembly.length_insts_run]
          exact hinsts
      rcases hnext with ⟨b', hb', htracks'⟩
      refine ⟨b', ?_, htracks'⟩
      unfold run at hrun ⊢
      rw [List.foldlM_append, hrun, ok_bind, List.foldlM_cons, hb']
      rfl

end Builder
end SafeRestart
