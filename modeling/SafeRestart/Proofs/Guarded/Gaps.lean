import SafeRestart.Proofs.Guarded.Basic
import SafeRestart.Proofs.Verification

/-!
# Guarded gaps

Splitting a candidate against a conflict takes for granted that both hold points and that the
conflict ends after the candidate starts.  Guarded, a split that is not like that is a fault; in a
set in order there is none.
-/

namespace SafeRestart

open Guarded

/-- Both spans have to hold points, and the conflict has to end after the candidate starts. -/
def Span.guardedSplit (candidate conflict : Span) : Except Fault (Option Span × Nat) :=
  if candidate.start < candidate.stop ∧ conflict.start < conflict.stop ∧
      candidate.start < conflict.stop then
    .ok (candidate.split conflict)
  else
    .error .outOfBounds

theorem Span.lt_of_guardedSplit {candidate conflict : Span} {part : Option Span} {next : Nat}
    (h : candidate.guardedSplit conflict = .ok (part, next)) :
    candidate.start < candidate.stop ∧ candidate.start < next := by
  unfold guardedSplit at h
  split at h
  · rename_i hmet
    have hlater := Span.start_lt_split hmet.left hmet.right.right
    rw [Except.ok.inj h] at hlater
    exact ⟨hmet.left, hlater⟩
  · cases h

namespace IntervalSet

variable {s live : IntervalSet} {r : Span}

def guardedGaps (s : IntervalSet) (r : Span) : Except Fault (List Span) :=
  if r.start < r.stop then
    match s.find r.start with
    | none => .ok [r]
    | some conflict =>
        match _split : r.guardedSplit conflict with
        | .error fault => .error fault
        | .ok (part, next) => (guardedGaps s ⟨next, r.stop⟩).map (part.toList ++ ·)
  else
    .ok []
termination_by r.stop - r.start
decreasing_by
  have hlater := Span.lt_of_guardedSplit _split
  omega

def guardedInsertOutside (s live : IntervalSet) (r : Span) : Guarded IntervalSet := do
  let parts ← ofLookUp (live.guardedGaps r)
  parts.foldlM
    (fun s part => do
      let free ← ofLookUp (s.guardedGaps part)
      free.foldlM (fun s gap => ofOutcome (s.insert gap)) s)
    s

theorem guardedGaps_eq (hs : s.Canonical) (r : Span) : s.guardedGaps r = .ok (s.gaps r) := by
  induction r using gaps.induct s with
  | case1 r hnonempty hfind =>
      rw [gaps_of_find_none hnonempty hfind]
      unfold guardedGaps
      rw [if_pos hnonempty, hfind]
  | case2 r hnonempty conflict hfind ih =>
      have hconflict := find_some hs hfind
      have hsplit : r.guardedSplit conflict = .ok (r.split conflict) := by
        rw [Span.guardedSplit,
          if_pos ⟨hnonempty, hs.occupied conflict hconflict.left, hconflict.right.left⟩]
      rw [gaps_of_find_some hnonempty hfind]
      unfold guardedGaps
      rw [if_pos hnonempty, hfind]
      dsimp only
      split
      · rename_i hfault
        cases hsplit.symm.trans hfault
      · rename_i part next hparts
        have hsame := Except.ok.inj (hsplit.symm.trans hparts)
        rw [hsame] at ih ⊢
        rw [ih]
        rfl
  | case3 r hempty =>
      rw [gaps_of_empty hempty]
      unfold guardedGaps
      rw [if_neg hempty]

theorem gives_insertOutside (hs : s.Canonical) (hlive : live.Canonical) (r : Span) :
    Gives (s.guardedInsertOutside live r) (s.insertOutside live r) := by
  refine gives_lookUp (guardedGaps_eq hlive r) (gives_foldlM hs ?_)
  intro s part _ hs
  refine ⟨gives_lookUp (guardedGaps_eq hs part) ?_, ?_⟩
  · refine gives_foldlM (P := fun _ => True) trivial ?_
    intro s gap _ _
    exact ⟨gives_outcome _, fun _ _ => trivial⟩
  · intro t ht
    rcases foldlM_insert_gaps_ok hs part with ⟨t', ht', hcanonical, _⟩
    cases ht'.symm.trans ht
    exact hcanonical

end IntervalSet
end SafeRestart
