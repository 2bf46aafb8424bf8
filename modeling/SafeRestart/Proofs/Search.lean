import SafeRestart.Graph.Search
import SafeRestart.Proofs.Path

/-!
# What a search visits

A search visits exactly the vertices of its pool that some path from a root reaches inside the
pool, and it visits each of them once.  The order of the visits plays no part here.
-/

namespace SafeRestart
namespace Search

universe u

variable {α : Type u}

def Into (next : α -> List α) (pool : List α) (x y : α) : Prop := y ∈ next x ∧ y ∈ pool

variable [DecidableEq α] {next : α -> List α} {found stack pool roots : List α} {x y : α}

/-!
# Moving vertices onto the stack
-/

theorem mem_enter_stack :
    x ∈ (enter found stack pool).1 <-> x ∈ stack ∨ (x ∈ found ∧ x ∈ pool) := by
  induction found generalizing stack pool with
  | nil => simp [enter]
  | cons v rest ih =>
      unfold enter
      by_cases hv : v ∈ pool
      · rw [if_pos hv, ih]
        by_cases hx : x = v
        · subst hx
          simp [hv]
        · simp [hx, List.mem_erase_of_ne hx]
      · rw [if_neg hv, ih]
        by_cases hx : x = v
        · subst hx
          simp [hv]
        · simp [hx]

theorem enter_pool_sublist (found stack pool : List α) :
    (enter found stack pool).2.Sublist pool := by
  induction found generalizing stack pool with
  | nil => exact List.Sublist.refl pool
  | cons v rest ih =>
      unfold enter
      split
      · exact (ih (v :: stack) (pool.erase v)).trans List.erase_sublist
      · exact ih stack pool

theorem enter_of_not_mem (h : forall x, x ∈ found -> x ∉ pool) (stack : List α) :
    enter found stack pool = (stack, pool) := by
  induction found with
  | nil => rfl
  | cons v rest ih =>
      rw [enter, if_neg (h v List.mem_cons_self)]
      exact ih fun x hx => h x (List.mem_cons_of_mem v hx)

theorem not_mem_enter_pool (hpool : pool.Nodup) (hx : x ∈ found) (stack : List α) :
    x ∉ (enter found stack pool).2 := by
  induction found generalizing stack pool with
  | nil => cases hx
  | cons v rest ih =>
      unfold enter
      split
      · by_cases hrest : x ∈ rest
        · exact ih (hpool.erase v) hrest (v :: stack)
        · have hsame : x = v := (List.mem_cons.mp hx).resolve_right hrest
          intro hmem
          rw [hsame] at hmem
          exact hpool.not_mem_erase ((enter_pool_sublist rest _ _).subset hmem)
      · rename_i habsent
        by_cases hrest : x ∈ rest
        · exact ih hpool hrest stack
        · have hsame : x = v := (List.mem_cons.mp hx).resolve_right hrest
          intro hmem
          rw [hsame] at hmem
          exact habsent ((enter_pool_sublist rest _ _).subset hmem)

theorem mem_enter_of_mem_pool (found stack : List α) (hx : x ∈ pool) :
    x ∈ (enter found stack pool).2 ∨ x ∈ (enter found stack pool).1 := by
  induction found generalizing stack pool with
  | nil => exact Or.inl hx
  | cons v rest ih =>
      unfold enter
      by_cases hv : v ∈ pool
      · rw [if_pos hv]
        by_cases hxv : x = v
        · exact Or.inr (mem_enter_stack.mpr (Or.inl (by simp [hxv])))
        · exact ih (v :: stack) ((List.mem_erase_of_ne hxv).mpr hx)
      · rw [if_neg hv]
        exact ih stack hx

theorem enter_nodup (found : List α) (h : (stack ++ pool).Nodup) :
    ((enter found stack pool).1 ++ (enter found stack pool).2).Nodup := by
  induction found generalizing stack pool with
  | nil => exact h
  | cons v rest ih =>
      unfold enter
      by_cases hv : v ∈ pool
      · rw [if_pos hv]
        apply ih
        have hperm : ((v :: stack) ++ pool.erase v).Perm (stack ++ pool) :=
          List.perm_middle.symm.trans ((List.perm_cons_erase hv).symm.append_left stack)
        exact hperm.nodup_iff.mpr h
      · rw [if_neg hv]
        exact ih h

/-!
# The vertices visited
-/

/-- A path inside a pool from which some vertices are taken out either stays inside what is left or
can be started again at the last vertex that was taken out. -/
theorem path_after_enter (found stack : List α) {u w : α} {met : List α}
    (hpath : Path (Into next pool) u met w) :
    (exists met', Path (Into next (enter found stack pool).2) u met' w) ∨
      exists s, s ∈ (enter found stack pool).1 ∧
        exists met', Path (Into next (enter found stack pool).2) s met' w := by
  induction hpath with
  | nil x => exact Or.inl ⟨[], Path.nil x⟩
  | cons hstep _ ih =>
      rename_i x y z met
      rcases ih with ⟨met', htail⟩ | hrestart
      · rcases mem_enter_of_mem_pool found stack hstep.right with hleft | hmoved
        · exact Or.inl ⟨_, Path.cons ⟨hstep.left, hleft⟩ htail⟩
        · exact Or.inr ⟨_, hmoved, met', htail⟩
      · exact Or.inr hrestart

theorem mem_visit_iff {w : α} :
    w ∈ visit next stack pool <->
      exists s, s ∈ stack ∧ exists met, Path (Into next pool) s met w := by
  induction stack, pool using visit.induct next with
  | case1 pool => simp [visit]
  | case2 v stack pool ih =>
      rw [visit, List.mem_cons, ih]
      constructor
      · intro h
        rcases h with rfl | ⟨s, hs, met, hpath⟩
        · exact ⟨w, List.mem_cons_self, [], Path.nil w⟩
        · have hwide : Path (Into next pool) s met w :=
            path_mono (fun x y h => ⟨h.left, (enter_pool_sublist _ _ _).subset h.right⟩) hpath
          rcases mem_enter_stack.mp hs with hstack | ⟨hnext, hpool⟩
          · exact ⟨s, List.mem_cons_of_mem v hstack, met, hwide⟩
          · exact ⟨v, List.mem_cons_self, s :: met, Path.cons ⟨hnext, hpool⟩ hwide⟩
      · intro h
        rcases h with ⟨s, hs, met, hpath⟩
        rcases List.mem_cons.mp hs with rfl | hstack
        · cases hpath with
          | nil _ => exact Or.inl rfl
          | cons hstep htail =>
              have hentered : _ ∈ (enter (next s) stack pool).1 :=
                mem_enter_stack.mpr (Or.inr hstep)
              rcases path_after_enter (next s) stack htail with ⟨met', hkept⟩ | hrestart
              · exact Or.inr ⟨_, hentered, met', hkept⟩
              · exact Or.inr hrestart
        · rcases path_after_enter (next v) stack hpath with ⟨met', hkept⟩ | hrestart
          · exact Or.inr ⟨s, mem_enter_stack.mpr (Or.inl hstack), met', hkept⟩
          · exact Or.inr hrestart

theorem mem_stack_or_pool_of_mem_visit {w : α} (hw : w ∈ visit next stack pool) :
    w ∈ stack ∨ w ∈ pool := by
  rcases mem_visit_iff.mp hw with ⟨s, hs, met, hpath⟩
  rcases path_end hpath with ⟨_, rfl⟩ | ⟨before, rfl⟩
  · exact Or.inl hs
  · exact Or.inr ((path_inside_iff.mp hpath).right w (by simp))

theorem nodup_visit (h : (stack ++ pool).Nodup) : (visit next stack pool).Nodup := by
  induction stack, pool using visit.induct next with
  | case1 pool => simp [visit]
  | case2 v stack pool ih =>
      rw [List.cons_append, List.nodup_cons] at h
      have hentered := enter_nodup (next v) h.right
      rw [visit, List.nodup_cons]
      refine ⟨?_, ih hentered⟩
      intro hv
      apply h.left
      rcases mem_stack_or_pool_of_mem_visit hv with hstack | hpool
      · rcases mem_enter_stack.mp hstack with hstack | ⟨_, hpool⟩
        · exact List.mem_append_left pool hstack
        · exact List.mem_append_right stack hpool
      · exact List.mem_append_right stack ((enter_pool_sublist _ _ _).subset hpool)

/-!
# Sweeps
-/

theorem mem_sweep_iff {w : α} :
    w ∈ sweep next roots pool <->
      exists r, r ∈ roots ∧ r ∈ pool ∧ exists met, Path (Into next pool) r met w := by
  unfold sweep
  rw [mem_visit_iff]
  constructor
  · intro h
    rcases h with ⟨s, hs, met, hpath⟩
    rcases mem_enter_stack.mp hs with hnil | ⟨hroot, hpool⟩
    · simp at hnil
    · exact ⟨s, hroot, hpool, met,
        path_mono (fun x y h => ⟨h.left, (enter_pool_sublist _ _ _).subset h.right⟩) hpath⟩
  · intro h
    rcases h with ⟨r, hroot, hpool, met, hpath⟩
    rcases path_after_enter roots [] hpath with ⟨met', hkept⟩ | hrestart
    · exact ⟨r, mem_enter_stack.mpr (Or.inr ⟨hroot, hpool⟩), met', hkept⟩
    · exact hrestart

theorem mem_pool_of_mem_sweep {w : α} (hw : w ∈ sweep next roots pool) : w ∈ pool := by
  rcases mem_stack_or_pool_of_mem_visit hw with hstack | hpool
  · rcases mem_enter_stack.mp hstack with hold | ⟨_, hpool⟩
    · cases hold
    · exact hpool
  · exact (enter_pool_sublist roots [] pool).subset hpool

theorem mem_sweep_iff_of_closed (hclosed : forall x y, y ∈ next x -> y ∈ pool) {w : α} :
    w ∈ sweep next roots pool <->
      exists r, r ∈ roots ∧ r ∈ pool ∧ exists met, Path (fun x y => y ∈ next x) r met w := by
  have hsame : Into next pool = fun x y => y ∈ next x := by
    funext x y
    exact propext ⟨fun h => h.left, fun h => ⟨h, hclosed x y h⟩⟩
  rw [mem_sweep_iff, hsame]

theorem nodup_sweep (hpool : pool.Nodup) : (sweep next roots pool).Nodup :=
  nodup_visit (enter_nodup roots (by simpa using hpool))

end Search
end SafeRestart
