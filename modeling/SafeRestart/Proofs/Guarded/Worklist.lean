import SafeRestart.Proofs.BitSet
import SafeRestart.Proofs.Guarded.Basic
import SafeRestart.Proofs.Search

/-!
# Guarded worklists

A worklist takes items from a stack until none is left.  Looking at an item gives what is found
there and the vertices to which the search goes on; each of these is marked and, unless it was
marked before, becomes an item itself.  The item with which a search starts is not marked, so the
search may come back to its vertex.

Where nothing faults the items are those of the plain search, whose pool is what is not marked yet.
-/

namespace SafeRestart
namespace Search

variable {ι β : Type} {item : Nat -> Except Fault ι} {plain : Nat -> ι}
  {look : ι -> Except Fault (List β × List Nat)} {found : Nat -> List β} {onward : Nat -> List Nat}
  {met : List Nat} {marks : BitSet} {n : Nat}

/-- Marks the given vertices; those that were not marked before become items on the stack. -/
def push (item : Nat -> Except Fault ι) :
    List Nat -> List ι -> BitSet -> Except Fault (List ι × BitSet)
  | [], stack, marks => .ok (stack, marks)
  | v :: rest, stack, marks => do
      let (marks, new) ← marks.insert v
      if new then
        push item rest ((← item v) :: stack) marks
      else
        push item rest stack marks

theorem length_push {stack stack' : List ι} {marks' : BitSet}
    (h : push item met stack marks = .ok (stack', marks')) :
    stack'.length + marks'.free.length = stack.length + marks.free.length := by
  induction met generalizing stack marks with
  | nil =>
      cases h
      rfl
  | cons v rest ih =>
      unfold push at h
      cases hinsert : marks.insert v with
      | error fault =>
          rw [hinsert] at h
          cases h
      | ok answer =>
          rcases answer with ⟨marked, new⟩
          rcases BitSet.insert_ok_cases hinsert with ⟨_, hfree, hnew⟩
          rw [hinsert, ok_bind] at h
          by_cases hv : v ∈ marks.free
          · have hpositive := List.length_pos_of_mem hv
            simp only [hnew, hv, decide_true, if_true] at h
            cases hitem : item v with
            | error fault =>
                rw [hitem] at h
                cases h
            | ok i =>
                rw [hitem, ok_bind] at h
                rw [ih h, hfree, List.length_erase_of_mem hv, List.length_cons]
                omega
          · simp only [hnew, hv, decide_false, Bool.false_eq_true, if_false] at h
            rw [ih h, hfree, List.erase_of_not_mem hv]

def drain (look : ι -> Except Fault (List β × List Nat)) (item : Nat -> Except Fault ι) :
    List ι -> BitSet -> Except Fault (List β)
  | [], _ => .ok []
  | i :: stack, marks =>
      match look i with
      | .error fault => .error fault
      | .ok (found, onward) =>
          match _pushed : push item onward stack marks with
          | .error fault => .error fault
          | .ok (stack, marks) => (drain look item stack marks).map (found ++ ·)
termination_by stack marks => stack.length + marks.free.length
decreasing_by
  have hlength := length_push _pushed
  rw [List.length_cons]
  omega

/-- The vertices below `n` become items and are looked at without a fault, and the search goes on
to vertices below `n` only. -/
structure Sure (look : ι -> Except Fault (List β × List Nat)) (item : Nat -> Except Fault ι)
    (plain : Nat -> ι) (found : Nat -> List β) (onward : Nat -> List Nat) (n : Nat) : Prop where
  item : forall v, v < n -> item v = .ok (plain v)
  look : forall v, v < n -> look (plain v) = .ok (found v, onward v)
  inside : forall v, v < n -> forall w, w ∈ onward v -> w < n

theorem push_eq (hitem : forall v, v < n -> item v = .ok (plain v)) (hcapacity : marks.capacity = n)
    (hmet : forall v, v ∈ met -> v < n) (stack : List Nat) :
    exists marks', push item met (stack.map plain) marks =
        .ok ((enter met stack marks.free).1.map plain, marks') ∧
      marks'.capacity = n ∧ marks'.free = (enter met stack marks.free).2 := by
  induction met generalizing stack marks with
  | nil => exact ⟨marks, rfl, hcapacity, rfl⟩
  | cons v rest ih =>
      have hv := hmet v List.mem_cons_self
      rcases BitSet.insert_of_lt (hcapacity ▸ hv : v < marks.capacity) with
        ⟨marked, hinsert, hsame, hfree⟩
      have hrest := fun w hw => hmet w (List.mem_cons_of_mem v hw)
      unfold push enter
      rw [hinsert, ok_bind]
      by_cases hmem : v ∈ marks.free
      · rcases ih (hsame.trans hcapacity) hrest (v :: stack) with ⟨marks', hpush, hlast⟩
        rw [hfree] at hpush hlast
        simp only [hmem, decide_true, if_true]
        rw [hitem v hv, ok_bind]
        exact ⟨marks', hpush, hlast⟩
      · rcases ih (hsame.trans hcapacity) hrest stack with ⟨marks', hpush, hlast⟩
        rw [hfree, List.erase_of_not_mem hmem] at hpush hlast
        simp only [hmem, decide_false, Bool.false_eq_true, if_false]
        exact ⟨marks', hpush, hlast⟩

theorem drain_cons {i : ι} {rest : List ι} {here : List β} {marks' : BitSet} {stack : List ι}
    (hlook : look i = .ok (here, met)) (hpush : push item met rest marks = .ok (stack, marks')) :
    drain look item (i :: rest) marks = (drain look item stack marks').map (here ++ ·) := by
  rw [drain, hlook]
  dsimp only
  split
  · rename_i hfault
    cases hpush.symm.trans hfault
  · rename_i hpushed
    cases hpush.symm.trans hpushed
    rfl

theorem drain_eq (h : Sure look item plain found onward n) (hcapacity : marks.capacity = n)
    {stack : List Nat} (hstack : forall v, v ∈ stack -> v < n) :
    drain look item (stack.map plain) marks =
      .ok ((visit onward stack marks.free).flatMap found) := by
  -- The measure of the recursion is the length of the stack and what is still free.
  induction hsize : stack.length + marks.free.length using Nat.strong_induction_on
    generalizing stack marks with
  | h size ih =>
      cases stack with
      | nil =>
          unfold visit
          rw [List.map_nil, drain]
          rfl
      | cons v stack =>
          have hv := hstack v List.mem_cons_self
          rcases push_eq h.item hcapacity (h.inside v hv) stack with ⟨marks', hpush, hlast, hfree⟩
          have hlength := length_push hpush
          rw [List.length_map, List.length_map] at hlength
          rw [List.length_cons] at hsize
          have hrest : drain look item ((enter (onward v) stack marks.free).1.map plain) marks' =
              .ok ((visit onward (enter (onward v) stack marks.free).1 marks'.free).flatMap
                found) := by
            refine ih _ (by omega) hlast ?_ rfl
            intro w hw
            rcases mem_enter_stack.mp hw with hold | ⟨hnew, _⟩
            · exact hstack w (List.mem_cons_of_mem v hold)
            · exact h.inside v hv w hnew
          unfold visit
          rw [List.map_cons, drain_cons (h.look v hv) hpush, hrest, hfree]
          rfl

theorem drain_single (h : Sure look item plain found onward n) {i : ι} {here : List β}
    (hlook : look i = .ok (here, met)) (hmet : forall v, v ∈ met -> v < n) :
    drain look item [i] (.empty n) =
      .ok (here ++ (sweep onward met (List.range n)).flatMap found) := by
  have hempty : (BitSet.empty n).capacity = n := rfl
  rcases push_eq h.item hempty hmet [] with ⟨marks, hpush, hcapacity, hfree⟩
  rw [List.map_nil] at hpush
  rw [drain_cons hlook hpush, drain_eq h hcapacity, hfree, BitSet.free_empty]
  · rfl
  · intro v hv
    rcases mem_enter_stack.mp hv with hold | ⟨hnew, _⟩
    · cases hold
    · exact hmet v hnew

end Search
end SafeRestart
