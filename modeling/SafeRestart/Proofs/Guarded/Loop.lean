import Mathlib.Data.PFun
import SafeRestart.Proofs.Guarded.Basic

/-!
# Loops

A loop that goes on until nothing changes need not end.  A computation that contains such loops has
a result only if all of them end, so that they do is part of every statement about its result.
-/

namespace SafeRestart

variable {α β σ : Type}

abbrev Run := ExceptT Fault Part

instance : MonadLift (Except Fault) Run := ⟨fun x => ExceptT.mk (Part.some x)⟩

namespace Run

def Ends (x : Run α) (a : α) : Prop := Except.ok a ∈ x.run

variable {x : Run α} {next : α -> Run β} {a : α} {b : β}

theorem ends_pure (a : α) : Ends (pure a : Run α) a := Part.mem_some _

theorem ends_lift {y : Except Fault α} (h : y = .ok a) : Ends (liftM y : Run α) a := by
  rw [h]
  exact Part.mem_some _

theorem Ends.bind (hx : Ends x a) (hnext : Ends (next a) b) : Ends (x >>= next) b :=
  Part.mem_bind hx hnext

theorem Ends.unique {c : α} (ha : Ends x a) (hc : Ends x c) : a = c := by
  have hsame := Part.mem_unique ha hc
  cases hsame
  rfl

theorem exists_ends_mapM {l : List α} {g : α -> Run β} {plain : α -> Except Fault β}
    (hg : forall a, a ∈ l -> exists b, plain a = .ok b ∧ Ends (g a) b) :
    exists bs, l.mapM plain = .ok bs ∧ Ends (l.mapM g) bs := by
  induction l with
  | nil => exact ⟨[], rfl, ends_pure []⟩
  | cons a rest ih =>
      rcases hg a List.mem_cons_self with ⟨b, hb, hends⟩
      rcases ih fun c hc => hg c (List.mem_cons_of_mem a hc) with ⟨bs, hbs, hrest⟩
      rw [List.mapM_cons, List.mapM_cons, hb, hbs]
      exact ⟨b :: bs, rfl, hends.bind (hrest.bind (ends_pure _))⟩

/-!
# Turns
-/

def outcome : Except Fault (α ⊕ σ) -> Except Fault α ⊕ σ
  | .error fault => .inl (.error fault)
  | .ok (.inl a) => .inl (.ok a)
  | .ok (.inr s) => .inr s

/-- Takes turns, each of which ends the loop with a result or leads on to another state. -/
def loop (turn : σ -> Run (α ⊕ σ)) (s : σ) : Run α :=
  ExceptT.mk (PFun.fix (fun s => (turn s).run.map outcome) s)

variable {turn : σ -> Run (α ⊕ σ)} {s t : σ}

theorem ends_loop_of_result (h : Ends (turn s) (.inl a)) : Ends (loop turn s) a :=
  PFun.fix_stop (Part.mem_map outcome h)

theorem ends_loop_of_next (h : Ends (turn s) (.inr t)) (hrest : Ends (loop turn t) a) :
    Ends (loop turn s) a := by
  have hnext : Sum.inr t ∈ (turn s).run.map outcome := Part.mem_map outcome h
  exact PFun.mem_fix_iff.mpr (Or.inr ⟨t, hnext, hrest⟩)

def untilStable (pass : σ -> Run (σ × Bool)) (s : σ) : Run σ :=
  loop (fun s => do
    let (t, changed) ← pass s
    return if changed then .inr t else .inl t) s

/-- A loop ends when only so many of its passes can change anything.  Its result is that of a pass
that has changed nothing. -/
theorem exists_ends_untilStable {pass : σ -> Run (σ × Bool)} {Good : Nat -> σ -> Prop}
    {bound : Nat}
    (hpass : forall k s, Good k s -> exists t changed, (pass s).Ends (t, changed) ∧
      (changed = true -> k < bound ∧ Good (k + 1) t))
    {k : Nat} {s : σ} (hs : Good k s) :
    exists j u t, Good j u ∧ (pass u).Ends (t, false) ∧ (untilStable pass s).Ends t := by
  -- The passes that may still change something become fewer.
  induction hleft : bound - k using Nat.strongRecOn generalizing k s with
  | ind left ih =>
      rcases hpass k s hs with ⟨t, changed, hends, hmore⟩
      cases changed with
      | false =>
          exact ⟨k, s, t, hs, hends, ends_loop_of_result (hends.bind (ends_pure _))⟩
      | true =>
          rcases hmore rfl with ⟨hlt, ht⟩
          rcases ih (bound - (k + 1)) (by omega) ht rfl with ⟨j, u, v, hu, hlast, hrest⟩
          exact ⟨j, u, v, hu, hlast, ends_loop_of_next (hends.bind (ends_pure _)) hrest⟩

end Run
end SafeRestart
