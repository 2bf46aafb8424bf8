import SafeRestart.Proofs.BlockLiveness
import SafeRestart.Proofs.Splice

/-!
# Live ranges by walking the blocks backward

Once it is known what is live at the ends of the blocks, the live ranges are found block by block.
A walk from the end of a block to its start keeps, for each location, the end of the range that is
open at the moment.  A write closes the range of the location there, a read opens one unless one is
open already, and what is still open at the start of the block began before it.

At each moment of the walk the points behind it are live exactly when they have been found or lie in
the open range.
-/

namespace SafeRestart

open Run

/-!
# The computation
-/

structure OpenRanges where
  opened : List (Option Nat)
  found : List IntervalSet

namespace OpenRanges

abbrev Change := Option Nat -> IntervalSet -> Except Fault (Option Nat × IntervalSet)

def openTo (stop : Nat) : Change := fun _ found => .ok (some stop, found)

/-- The location is written at a point; if no range is open the value is dead at once. -/
def close (point : Nat) : Change := fun opened found => do
  let dead ← Point.advance point 1
  return (none, ← found.splicedUnion ⟨point, opened.getD dead⟩)

def extend (stop : Nat) : Change := fun opened found => .ok (some (opened.getD stop), found)

def finish (start : Nat) : Change := fun opened found => do
  match opened with
  | none => return (none, found)
  | some stop => return (none, ← found.splicedUnion ⟨start, stop⟩)

def updateAt (change : Change) (state : OpenRanges) (s : Nat) : Except Fault OpenRanges := do
  let (opened, found) ← change (← entryAt state.opened s) (← entryAt state.found s)
  return ⟨← storeAt state.opened s opened, ← storeAt state.found s found⟩

end OpenRanges

namespace Function

open OpenRanges

def walkInst (f : Function) (state : OpenRanges) (inst : Instruction) :
    Except Fault OpenRanges := do
  let written ← f.guardedDef inst.id
  let state ← inst.defs.foldlM (updateAt (close written)) state
  let stop ← Point.advance (← f.guardedUse inst.id) 1
  inst.uses.foldlM (updateAt (extend stop)) state

def addBlockRanges (f : Function) (ends : List BitSet) (found : List IntervalSet) (b : Nat) :
    Except Fault (List IntervalSet) := do
  let range ← f.guardedSpan b
  let state ← (← entryAt ends b).members.foldlM (updateAt (openTo range.stop))
    ⟨List.replicate found.length none, found⟩
  let state ← (← f.guardedBlock b).reverse.foldlM f.walkInst state
  return (← (List.range found.length).foldlM (updateAt (finish range.start)) state).found

def computeLiveIntervals (f : Function) : Run (List (Option LiveInterval)) := do
  let sets ← f.liveSets
  let found ← liftM ((List.range f.blockCount).foldlM (f.addBlockRanges sets.ends)
    (List.replicate f.storage.length .empty))
  return found.zipIdx.map fun place =>
    if place.1.isEmpty then none else some ⟨place.2, place.1⟩

end Function

/-!
# Tables
-/

namespace OpenRanges

variable {n s : Nat} {state : OpenRanges} {change : Change} {locations : List Nat}
  {Cell Cell' : Nat -> Option Nat -> IntervalSet -> Prop}

structure Tracks (n : Nat) (Cell : Nat -> Option Nat -> IntervalSet -> Prop) (state : OpenRanges) :
    Prop where
  opened_length : state.opened.length = n
  found_length : state.found.length = n
  cells : forall s, s < n -> exists opened found,
    state.opened[s]? = some opened ∧ state.found[s]? = some found ∧ Cell s opened found

theorem Tracks.mono (h : Tracks n Cell state)
    (hcell : forall s opened found, s < n -> Cell s opened found -> Cell' s opened found) :
    Tracks n Cell' state := by
  refine ⟨h.opened_length, h.found_length, ?_⟩
  intro s hs
  rcases h.cells s hs with ⟨opened, found, hopened, hfound, hprop⟩
  exact ⟨opened, found, hopened, hfound, hcell s opened found hs hprop⟩

theorem Tracks.updateAt (h : Tracks n Cell state) (hs : s < n)
    (hchange : forall opened found, Cell s opened found -> exists opened' found',
      change opened found = .ok (opened', found') ∧ Cell' s opened' found') :
    exists next, state.updateAt change s = .ok next ∧
      Tracks n (fun t opened found =>
        (t = s ∧ Cell' t opened found) ∨ (t ≠ s ∧ Cell t opened found)) next := by
  rcases h.cells s hs with ⟨opened, found, hopened, hfound, hprop⟩
  rcases hchange opened found hprop with ⟨opened', found', hrun, hprop'⟩
  have hlow : s < state.opened.length := h.opened_length ▸ hs
  have hhigh : s < state.found.length := h.found_length ▸ hs
  refine ⟨⟨state.opened.set s opened', state.found.set s found'⟩, ?_, ?_, ?_, ?_⟩
  · unfold OpenRanges.updateAt
    rw [entryAt_of_some hopened, ok_bind, entryAt_of_some hfound, ok_bind, hrun, ok_bind]
    dsimp only
    rw [storeAt_of_lt hlow, storeAt_of_lt hhigh]
    rfl
  · rw [List.length_set, h.opened_length]
  · rw [List.length_set, h.found_length]
  · intro t ht
    by_cases hsame : t = s
    · subst hsame
      exact ⟨opened', found', List.getElem?_set_self hlow, List.getElem?_set_self hhigh,
        Or.inl ⟨rfl, hprop'⟩⟩
    · rw [List.getElem?_set_ne (Ne.symm hsame), List.getElem?_set_ne (Ne.symm hsame)]
      rcases h.cells t ht with ⟨opened, found, hopened, hfound, hprop⟩
      exact ⟨opened, found, hopened, hfound, Or.inr ⟨hsame, hprop⟩⟩

/-- A location may be listed more than once, so the change has to be good for one that has been
changed already. -/
theorem Tracks.foldlM_updateAt (h : Tracks n Cell state) (change : Change)
    (Cell' : Nat -> Option Nat -> IntervalSet -> Prop) (hfits : forall s, s ∈ locations -> s < n)
    (hchange : forall s, s ∈ locations -> forall opened found,
      Cell s opened found ∨ Cell' s opened found -> exists opened' found',
        change opened found = .ok (opened', found') ∧ Cell' s opened' found') :
    exists next, locations.foldlM (OpenRanges.updateAt change) state = .ok next ∧
      Tracks n (fun s opened found =>
        (s ∈ locations ∧ Cell' s opened found) ∨ (s ∉ locations ∧ Cell s opened found)) next := by
  induction locations generalizing state Cell with
  | nil => exact ⟨state, rfl, h.mono fun _ _ _ _ hcell => Or.inr ⟨List.not_mem_nil, hcell⟩⟩
  | cons s rest ih =>
      rcases h.updateAt (hfits s List.mem_cons_self) fun opened found hcell =>
        hchange s List.mem_cons_self opened found (Or.inl hcell) with ⟨middle, hstep, hmiddle⟩
      have hrest : forall t, t ∈ rest -> forall opened found,
          ((t = s ∧ Cell' t opened found) ∨ (t ≠ s ∧ Cell t opened found)) ∨
              Cell' t opened found -> exists opened' found',
            change opened found = .ok (opened', found') ∧ Cell' t opened' found' := by
        intro t ht opened found hcell
        apply hchange t (List.mem_cons_of_mem s ht)
        tauto
      rcases ih hmiddle (fun t ht => hfits t (List.mem_cons_of_mem s ht)) hrest with
        ⟨next, hrun, hnext⟩
      refine ⟨next, ?_, hnext.mono ?_⟩
      · rw [List.foldlM_cons, hstep]
        exact hrun
      · intro t opened found _ hcell
        rw [List.mem_cons]
        tauto

end OpenRanges

/-!
# One location on the way back
-/

/-- What is known of a location when the walk back from `high` has come to `low`: which of the
points between the two are live, beyond the points `base` found before. -/
structure Pending (live : Nat -> Prop) (base : IntervalSet) (low high : Nat) (across : Prop)
    (opened : Option Nat) (found : IntervalSet) : Prop where
  canonical : found.Canonical
  open_iff : opened.isSome = true <-> across
  bounds : forall stop, opened = some stop -> low ≤ stop ∧ stop ≤ high
  inside : forall p, low ≤ p -> p < high ->
    ((p ∈ found ∨ exists stop, opened = some stop ∧ p < stop) <-> p ∈ base ∨ live p)
  outside : forall p, p < low ∨ high ≤ p -> (p ∈ found <-> p ∈ base)

namespace Pending

open IntervalSet

variable {live : Nat -> Prop} {base found : IntervalSet} {low high q : Nat} {across : Prop}
  {opened : Option Nat}

theorem keep (h : Pending live base (q + 1) high across opened found) (hq : q < high)
    (hlive : live q <-> across) : Pending live base q high across opened found := by
  refine ⟨h.canonical, h.open_iff, ?_, ?_, ?_⟩
  · intro stop hstop
    exact ⟨Nat.le_of_lt (h.bounds stop hstop).left, (h.bounds stop hstop).right⟩
  · intro p hlow hhigh
    by_cases hp : p = q
    · subst hp
      have hopen : (exists stop, opened = some stop ∧ p < stop) <-> across := by
        rw [← h.open_iff, Option.isSome_iff_exists]
        constructor
        · rintro ⟨stop, hstop, _⟩
          exact ⟨stop, hstop⟩
        · rintro ⟨stop, hstop⟩
          exact ⟨stop, hstop, (h.bounds stop hstop).left⟩
      rw [h.outside p (Or.inl (Nat.lt_succ_self p)), hopen, hlive]
    · exact h.inside p (by omega) hhigh
  · intro p hp
    exact h.outside p (by omega)

theorem close (h : Pending live base (q + 1) high across opened found) (hq : q < high)
    (hlive : live q) :
    Pending live base q high False none (found.union ⟨q, opened.getD (q + 1)⟩) := by
  have hstop : q < opened.getD (q + 1) ∧ opened.getD (q + 1) ≤ high := by
    cases hopened : opened with
    | none => exact ⟨Nat.lt_succ_self q, hq⟩
    | some stop => exact h.bounds stop hopened
  have hopen : forall p, q < p ->
      ((exists stop, opened = some stop ∧ p < stop) <-> p < opened.getD (q + 1)) := by
    intro p hp
    cases opened with
    | none => simp only [reduceCtorEq, false_and, exists_false, Option.getD_none, false_iff]; omega
    | some stop => simp
  refine ⟨canonical_union h.canonical _, by simp, by simp, ?_, ?_⟩
  · intro p hlow hhigh
    rw [mem_union_iff h.canonical, Span.mem_iff]
    simp only [reduceCtorEq, false_and, exists_false, or_false]
    by_cases hp : p = q
    · subst hp
      simp [hlive, hstop.left]
    · rw [← h.inside p (by omega) hhigh, hopen p (by omega)]
      simp [hlow]
  · intro p hp
    rw [mem_union_iff h.canonical, Span.mem_iff, h.outside p (by omega)]
    simp only [or_iff_left_iff_imp]
    omega

theorem close_again (h : Pending live base q high False none found) (hq : q < high)
    (hlive : live q) : Pending live base q high False none (found.union ⟨q, q + 1⟩) := by
  have hmem := (h.inside q (Nat.le_refl q) hq).mpr (Or.inr hlive)
  simp only [reduceCtorEq, false_and, exists_false, or_false] at hmem
  have hsame : forall p, p ∈ found.union ⟨q, q + 1⟩ <-> p ∈ found := by
    intro p
    rw [mem_union_iff h.canonical, Span.mem_iff]
    simp only [or_iff_left_iff_imp]
    intro hp
    rwa [show p = q by omega]
  refine ⟨canonical_union h.canonical _, h.open_iff, h.bounds, ?_, ?_⟩
  · intro p hlow hhigh
    rw [hsame]
    exact h.inside p hlow hhigh
  · intro p hp
    rw [hsame]
    exact h.outside p hp

theorem extend (h : Pending live base (q + 1) high across opened found) (hq : q < high)
    (hlive : live q) :
    Pending live base q high True (some (opened.getD (q + 1))) found := by
  have hstop : q < opened.getD (q + 1) ∧ opened.getD (q + 1) ≤ high := by
    cases hopened : opened with
    | none => exact ⟨Nat.lt_succ_self q, hq⟩
    | some stop => exact h.bounds stop hopened
  refine ⟨h.canonical, by simp, ?_, ?_, ?_⟩
  · rintro stop ⟨⟩
    exact ⟨Nat.le_of_lt hstop.left, hstop.right⟩
  · intro p hlow hhigh
    by_cases hp : p = q
    · subst hp
      simp [hlive, hstop.left]
    · rw [← h.inside p (by omega) hhigh]
      cases opened with
      | none =>
          simp only [Option.getD_none, Option.some.injEq, exists_eq_left', reduceCtorEq, false_and,
            exists_false, or_false, or_iff_left_iff_imp]
          omega
      | some stop => simp
  · intro p hp
    exact h.outside p (by omega)

theorem finish (h : Pending live base low high across opened found) :
    exists all, OpenRanges.finish low opened found = .ok (none, all) ∧ all.Canonical ∧
      forall p, p ∈ all <-> p ∈ base ∨ (low ≤ p ∧ p < high ∧ live p) := by
  have hpoints : forall p,
      (p ∈ found ∨ exists stop, opened = some stop ∧ low ≤ p ∧ p < stop) <->
        p ∈ base ∨ (low ≤ p ∧ p < high ∧ live p) := by
    intro p
    by_cases hp : low ≤ p ∧ p < high
    · have hin := h.inside p hp.left hp.right
      simpa [hp] using hin
    · rw [h.outside p (by omega)]
      apply or_congr_right
      constructor
      · rintro ⟨stop, hstop, hrange⟩
        have hbound := (h.bounds stop hstop).right
        omega
      · intro hrange
        omega
  cases opened with
  | none => exact ⟨found, rfl, h.canonical, fun p => by simpa using hpoints p⟩
  | some stop =>
      refine ⟨found.union ⟨low, stop⟩, ?_, canonical_union h.canonical _, ?_⟩
      · rw [OpenRanges.finish, splicedUnion_eq h.canonical]
        rfl
      · intro p
        rw [mem_union_iff h.canonical, Span.mem_iff, ← hpoints p]
        simp

end Pending

/-!
# All locations on the way back
-/

namespace OpenRanges

variable {n low high q : Nat} {live : Nat -> Nat -> Prop} {base : Nat -> IntervalSet}
  {across : Nat -> Prop} {state : OpenRanges} {locations : List Nat}

def WalkedTo (n : Nat) (live : Nat -> Nat -> Prop) (base : Nat -> IntervalSet) (low high : Nat)
    (across : Nat -> Prop) : OpenRanges -> Prop :=
  Tracks n fun s => Pending (live s) (base s) low high (across s)

theorem walkedTo_start {found : List IntervalSet} (hlength : found.length = n)
    (hbase : forall s, s < n -> found[s]? = some (base s) ∧ (base s).Canonical)
    (hfits : forall s, s ∈ locations -> s < n) :
    exists next,
      locations.foldlM (updateAt (openTo high)) ⟨List.replicate found.length none, found⟩ =
        .ok next ∧ WalkedTo n live base high high (· ∈ locations) next := by
  have hnone : Tracks n (fun s opened found => opened = none ∧ found = base s)
      ⟨List.replicate found.length none, found⟩ := by
    refine ⟨by rw [List.length_replicate, hlength], hlength, ?_⟩
    intro s hs
    exact ⟨none, base s, List.getElem?_replicate_of_lt (hlength ▸ hs), (hbase s hs).left, rfl, rfl⟩
  rcases hnone.foldlM_updateAt (openTo high)
    (fun s opened found => opened = some high ∧ found = base s) hfits (by
      rintro s _ opened found (⟨_, rfl⟩ | ⟨_, rfl⟩)
      · exact ⟨_, _, rfl, rfl, rfl⟩
      · exact ⟨_, _, rfl, rfl, rfl⟩) with ⟨next, hrun, hnext⟩
  refine ⟨next, hrun, hnext.mono ?_⟩
  intro s opened found hs hcell
  have hcanonical := (hbase s hs).right
  have hempty : forall p, high ≤ p -> ¬ p < high := fun p => Nat.not_lt_of_le
  rcases hcell with ⟨hmem, rfl, rfl⟩ | ⟨hmem, rfl, rfl⟩
  · refine ⟨hcanonical, by simp [hmem], ?_, fun p hlow hhigh => absurd hhigh (hempty p hlow),
      fun _ _ => Iff.rfl⟩
    rintro stop ⟨⟩
    exact ⟨Nat.le_refl _, Nat.le_refl _⟩
  · exact ⟨hcanonical, by simp [hmem], by simp, fun p hlow hhigh => absurd hhigh (hempty p hlow),
      fun _ _ => Iff.rfl⟩

theorem WalkedTo.close (h : WalkedTo n live base (q + 1) high across state) (hq : q < high)
    (hpoint : q + 1 ≤ maxIndex) (hfits : forall s, s ∈ locations -> s < n)
    (hlive : forall s, live s q <-> s ∈ locations ∨ across s) :
    exists next, locations.foldlM (updateAt (OpenRanges.close q)) state = .ok next ∧
      WalkedTo n live base q high (fun s => s ∉ locations ∧ across s) next := by
  rcases h.foldlM_updateAt (OpenRanges.close q)
    (fun s opened found => opened = none ∧ Pending (live s) (base s) q high False opened found)
    hfits (by
      intro s hs opened found hcell
      have hmem : live s q := (hlive s).mpr (Or.inl hs)
      rcases hcell with hopen | ⟨rfl, hclosed⟩
      · refine ⟨none, _, ?_, rfl, hopen.close hq hmem⟩
        rw [OpenRanges.close, advance_of_le hpoint, ok_bind,
          IntervalSet.splicedUnion_eq hopen.canonical]
        rfl
      · refine ⟨none, _, ?_, rfl, hclosed.close_again hq hmem⟩
        rw [OpenRanges.close, advance_of_le hpoint, ok_bind,
          IntervalSet.splicedUnion_eq hclosed.canonical]
        rfl) with ⟨next, hrun, hnext⟩
  refine ⟨next, hrun, hnext.mono ?_⟩
  intro s opened found _ hcell
  rcases hcell with ⟨hs, _, hclosed⟩ | ⟨hs, hopen⟩
  · simpa [hs] using hclosed
  · have hkept := hopen.keep hq (by simp [hlive, hs])
    simpa [hs] using hkept

theorem WalkedTo.extend (h : WalkedTo n live base (q + 1) high across state) (hq : q < high)
    (hfits : forall s, s ∈ locations -> s < n)
    (hlive : forall s, live s q <-> s ∈ locations ∨ across s) :
    exists next, locations.foldlM (updateAt (OpenRanges.extend (q + 1))) state = .ok next ∧
      WalkedTo n live base q high (fun s => s ∈ locations ∨ across s) next := by
  rcases h.foldlM_updateAt (OpenRanges.extend (q + 1))
    (fun s => Pending (live s) (base s) q high True) hfits (by
      intro s hs opened found hcell
      refine ⟨_, _, rfl, ?_⟩
      rcases hcell with hopen | hdone
      · exact hopen.extend hq ((hlive s).mpr (Or.inl hs))
      · rcases Option.isSome_iff_exists.mp (hdone.open_iff.mpr trivial) with ⟨stop, rfl⟩
        exact hdone) with ⟨next, hrun, hnext⟩
  refine ⟨next, hrun, hnext.mono ?_⟩
  intro s opened found _ hcell
  rcases hcell with ⟨hs, hopen⟩ | ⟨hs, hold⟩
  · simpa [hs] using hopen
  · have hkept := hold.keep hq (by simp [hlive, hs])
    simpa [hs] using hkept

theorem WalkedTo.finish (h : WalkedTo n live base low high across state) :
    exists next, (List.range n).foldlM (updateAt (OpenRanges.finish low)) state = .ok next ∧
      next.found.length = n ∧ forall s, s < n -> exists points, next.found[s]? = some points ∧
        points.Canonical ∧
          forall p, p ∈ points <-> p ∈ base s ∨ (low ≤ p ∧ p < high ∧ live s p) := by
  rcases h.foldlM_updateAt (OpenRanges.finish low)
    (fun s opened points => opened = none ∧ points.Canonical ∧
      forall p, p ∈ points <-> p ∈ base s ∨ (low ≤ p ∧ p < high ∧ live s p))
    (fun s hs => List.mem_range.mp hs) (by
      rintro s _ opened points (hpending | ⟨rfl, hcanonical, hmem⟩)
      · rcases hpending.finish with ⟨all, hrun, hcanonical, hmem⟩
        exact ⟨none, all, hrun, rfl, hcanonical, hmem⟩
      · exact ⟨none, points, rfl, rfl, hcanonical, hmem⟩) with ⟨next, hrun, hnext⟩
  refine ⟨next, hrun, hnext.found_length, ?_⟩
  intro s hs
  rcases hnext.cells s hs with ⟨_, points, _, hget, ⟨_, _, hcell⟩ | ⟨habsent, _⟩⟩
  · exact ⟨points, hget, hcell⟩
  · exact absurd (List.mem_range.mpr hs) habsent

end OpenRanges

/-!
# Walking the blocks
-/

namespace Function

open OpenRanges

variable {f : Function} {s b p : Nat} {inst : Instruction} {base : Nat -> IntervalSet}
  {state : OpenRanges} {found : List IntervalSet} {ends : List BitSet}

/-- The location is live at the use point of the instruction at position `p` of a block, or at the
end of the block. -/
def LiveFrom (f : Function) (s b p : Nat) : Prop :=
  (p < f.blockSize b ∧ f.LiveBefore s (f.blockStart b + p)) ∨
    (p = f.blockSize b ∧ exists c, c ∈ f.graph.succs b ∧ f.LiveBefore s (f.blockStart c))

def BlockWalkedTo (f : Function) (base : Nat -> IntervalSet) (b p : Nat) : OpenRanges -> Prop :=
  WalkedTo f.storage.length (fun s q => q ∈ f.livePoints s) base (2 * (f.blockStart b + p))
    (2 * f.blockStart (b + 1)) (f.LiveFrom · b p)

def FoundTo (f : Function) (stop : Nat) (found : List IntervalSet) : Prop :=
  found.length = f.storage.length ∧ forall s, s < f.storage.length ->
    exists points, found[s]? = some points ∧ points.Canonical ∧
      forall p, p ∈ points <-> p < stop ∧ p ∈ f.livePoints s

def EndsMarked (f : Function) (ends : List BitSet) : Prop :=
  forall b, b < f.blockCount -> exists out, ends[b]? = some out ∧ forall s, s ∈ out.members <->
    exists c, c ∈ f.graph.succs b ∧ f.LiveBefore s (f.blockStart c)

theorem leads_live_iff (hf : f.WellFormed) (hp : p < f.blockSize b) :
    (exists j, f.Leads (f.blockStart b + p) j ∧ f.LiveBefore s j) <-> f.LiveFrom s b (p + 1) := by
  have hhigh : f.blockStart b + p < f.blockStart (b + 1) := by
    rw [blockStart_succ]
    omega
  simp only [leads_cases hf (Nat.le_add_right _ p) hhigh, blockStart_succ, LiveFrom]
  constructor
  · rintro ⟨j, ⟨hinner, rfl⟩ | ⟨hlast, c, hc, rfl⟩, hlive⟩
    · exact Or.inl ⟨by omega, hlive⟩
    · exact Or.inr ⟨by omega, c, hc, hlive⟩
  · rintro (⟨hinner, hlive⟩ | ⟨hlast, c, hc, hlive⟩)
    · exact ⟨_, Or.inl ⟨by omega, rfl⟩, hlive⟩
    · exact ⟨_, Or.inr ⟨by omega, c, hc, rfl⟩, hlive⟩

theorem def_live_iff (hf : f.WellFormed) (hp : p < f.blockSize b)
    (hinst : f.layout[f.blockStart b + p]? = some inst) :
    2 * (f.blockStart b + p) + 1 ∈ f.livePoints s <->
      s ∈ inst.defs ∨ f.LiveFrom s b (p + 1) := by
  rw [mem_livePoints_def hf, leads_live_iff hf hp, definesAt_of_layout hinst]
  simp [Operation.defines]

theorem use_live_iff (hf : f.WellFormed) (hp : p < f.blockSize b)
    (hinst : f.layout[f.blockStart b + p]? = some inst) :
    2 * (f.blockStart b + p) ∈ f.livePoints s <->
      s ∈ inst.uses ∨ (s ∉ inst.defs ∧ f.LiveFrom s b (p + 1)) := by
  rw [mem_livePoints_use hf, liveBefore_step, leads_live_iff hf hp, definesAt_of_layout hinst,
    readsAt_of_layout hinst]
  simp [Operation.defines, Operation.reads]

section Walk

variable (hf : f.WellFormed) (hdeclared : f.Declared) (hsize : f.size < 2147483648)
include hf hdeclared hsize

theorem walkInst_walkedTo (hp : p < f.blockSize b)
    (hinst : f.layout[f.blockStart b + p]? = some inst)
    (h : f.BlockWalkedTo base b (p + 1) state) :
    exists next, f.walkInst state inst = .ok next ∧ f.BlockWalkedTo base b p next := by
  have hmem := List.mem_of_getElem? hinst
  have hslot : f.blockStart b + p < f.size := (List.getElem?_eq_some_iff.mp hinst).1
  have hblock : f.blockStart b + p < f.blockStart (b + 1) := by
    rw [blockStart_succ]
    omega
  have hpoint : 2 * (f.blockStart b + p) + 1 + 1 ≤ maxIndex := point_le_maxIndex hsize (by omega)
  have hbehind : WalkedTo f.storage.length (fun s q => q ∈ f.livePoints s) base
      (2 * (f.blockStart b + p) + 1 + 1) (2 * f.blockStart (b + 1)) (f.LiveFrom · b (p + 1))
      state := h
  rcases hbehind.close (by omega) hpoint (fun s hs => hdeclared inst hmem s (Or.inr hs))
    (fun s => def_live_iff hf hp hinst) with ⟨middle, hdefs, hmiddle⟩
  rcases hmiddle.extend (by omega) (fun s hs => hdeclared inst hmem s (Or.inl hs))
    (fun s => use_live_iff hf hp hinst) with ⟨next, huses, hnext⟩
  refine ⟨next, ?_, ?_⟩
  · unfold walkInst
    rw [guardedDef_of_layout hf hsize hinst, ok_bind, hdefs, ok_bind,
      guardedUse_of_layout hf hsize hinst, ok_bind, advance_of_le (by omega), ok_bind, huses]
  · have hfrom : (f.LiveFrom · b p) =
        fun s => s ∈ inst.uses ∨ (s ∉ inst.defs ∧ f.LiveFrom s b (p + 1)) := by
      funext s
      rw [← use_live_iff hf hp hinst, mem_livePoints_use hf, LiveFrom]
      simp [hp, Nat.ne_of_lt hp]
    rw [BlockWalkedTo, hfrom]
    exact hnext

theorem walkInsts_walkedTo (hp : p ≤ f.blockSize b) (h : f.BlockWalkedTo base b p state) :
    exists next, ((f.blockInsts b).take p).reverse.foldlM f.walkInst state = .ok next ∧
      f.BlockWalkedTo base b 0 next := by
  induction p generalizing state with
  | zero => exact ⟨state, rfl, h⟩
  | succ p ih =>
      rcases exists_inst_at hp with ⟨inst, hinst⟩
      rcases walkInst_walkedTo hf hdeclared hsize hp ((layout_at hp).trans hinst) h with
        ⟨middle, hstep, hmiddle⟩
      rcases ih (Nat.le_of_lt hp) hmiddle with ⟨next, hrest, hnext⟩
      refine ⟨next, ?_, hnext⟩
      rw [List.take_add_one, hinst, Option.toList_some, List.reverse_append,
        List.reverse_singleton, List.singleton_append, List.foldlM_cons, hstep]
      exact hrest

theorem addBlockRanges_found (hends : f.EndsMarked ends) (hb : b < f.blockCount)
    (hfound : f.FoundTo (2 * f.blockStart b) found) :
    exists next, f.addBlockRanges ends found b = .ok next ∧
      f.FoundTo (2 * f.blockStart (b + 1)) next := by
  rcases hends b hb with ⟨out, hout, hlive⟩
  rcases hfound with ⟨hlength, hpoints⟩
  have : Nonempty IntervalSet := ⟨.empty⟩
  choose! base hget hcanonical hbase using hpoints
  have hmembers : forall s, s ∈ out.members -> s < f.storage.length := by
    intro s hs
    rcases (hlive s).mp hs with ⟨_, _, hbefore⟩
    exact liveBefore_declared hdeclared hbefore
  rcases walkedTo_start hlength (fun s hs => ⟨hget s hs, hcanonical s hs⟩) hmembers with
    ⟨opened, hopen, hopened⟩
  have hend : f.BlockWalkedTo base b (f.blockSize b) opened := by
    have hfrom : (f.LiveFrom · b (f.blockSize b)) = (· ∈ out.members) := by
      funext s
      rw [hlive, LiveFrom]
      simp
    rw [BlockWalkedTo, hfrom, ← blockStart_succ]
    exact hopened
  rcases walkInsts_walkedTo hf hdeclared hsize (Nat.le_refl _) hend with ⟨walked, hwalk, hwalked⟩
  rcases WalkedTo.finish hwalked with ⟨last, hfinish, hlength', hlast⟩
  refine ⟨last.found, ?_, hlength', ?_⟩
  · unfold blockSize at hwalk
    rw [List.take_length] at hwalk
    unfold addBlockRanges
    rw [guardedSpan_eq hsize hb, ok_bind, entryAt_of_some hout, ok_bind, hopen, ok_bind,
      guardedBlock_eq hf, ok_bind, hwalk, ok_bind, hlength]
    exact congrArg (fun run => run >>= fun state => .ok state.found) hfinish
  · have hmono : f.blockStart b ≤ f.blockStart (b + 1) := blockStart_mono (Nat.le_succ b)
    intro s hs
    rcases hlast s hs with ⟨points, hpoints, hcanonical, hmem⟩
    refine ⟨points, hpoints, hcanonical, ?_⟩
    intro p
    rw [hmem, hbase s hs]
    constructor
    · rintro (⟨hbefore, hp⟩ | ⟨_, hinside, hp⟩)
      · exact ⟨by omega, hp⟩
      · exact ⟨hinside, hp⟩
    · rintro ⟨hhigh, hp⟩
      by_cases hbefore : p < 2 * f.blockStart b
      · exact Or.inl ⟨hbefore, hp⟩
      · exact Or.inr ⟨Nat.le_of_not_lt hbefore, hhigh, hp⟩

theorem foldlM_addBlockRanges (hends : f.EndsMarked ends) {n : Nat} (hn : b + n = f.blockCount)
    (hfound : f.FoundTo (2 * f.blockStart b) found) :
    exists next, (List.range' b n).foldlM (f.addBlockRanges ends) found = .ok next ∧
      f.FoundTo f.endPoint next := by
  induction n generalizing b found with
  | zero =>
      rw [Nat.add_zero] at hn
      subst hn
      rw [blockStart_blockCount] at hfound
      exact ⟨found, rfl, hfound⟩
  | succ n ih =>
      rcases addBlockRanges_found hf hdeclared hsize hends (by omega) hfound with
        ⟨middle, hstep, hmiddle⟩
      rcases ih (by omega) hmiddle with ⟨next, hrest, hnext⟩
      refine ⟨next, ?_, hnext⟩
      rw [List.range'_succ, List.foldlM_cons, hstep]
      exact hrest

end Walk

/-!
# The computed live ranges
-/

theorem ends_computeLiveIntervals (hf : f.WellFormed) (hdeclared : f.Declared)
    (hsize : f.size < 2147483648) : f.computeLiveIntervals.Ends f.liveIntervals := by
  rcases exists_ends_liveSets hf hdeclared with ⟨sets, hsets, hends⟩
  have hnothing : f.FoundTo (2 * f.blockStart 0)
      (List.replicate f.storage.length IntervalSet.empty) := by
    refine ⟨List.length_replicate, ?_⟩
    intro s hs
    refine ⟨_, List.getElem?_replicate_of_lt hs, IntervalSet.canonical_empty, ?_⟩
    intro p
    simp [blockStart_zero, IntervalSet.not_mem_empty]
  rcases foldlM_addBlockRanges hf hdeclared hsize hends (Nat.zero_add _) hnothing with
    ⟨found, hrun, hlength, hfound⟩
  rw [← List.range_eq_range'] at hrun
  have hpoints : found = (List.range f.storage.length).map f.livePoints := by
    apply List.ext_getElem?
    intro s
    by_cases hs : s < f.storage.length
    · rcases hfound s hs with ⟨points, hget, hcanonical, hmem⟩
      have hsame : points = f.livePoints s := by
        apply IntervalSet.eq_of_mem_iff hcanonical (canonical_livePoints f s)
        intro p
        rw [hmem]
        exact ⟨fun h => h.right, fun h => ⟨(livePoint_bounds hf hdeclared h).left, h⟩⟩
      rw [hget, hsame]
      simp [hs]
    · rw [List.getElem?_eq_none (by omega), List.getElem?_eq_none (by simp; omega)]
  have hintervals : (found.zipIdx.map fun place =>
      if place.1.isEmpty then none else some (⟨place.2, place.1⟩ : LiveInterval)) =
      f.liveIntervals := by
    apply List.ext_getElem?
    intro s
    rw [hpoints]
    by_cases hs : s < f.storage.length
    · simp [liveIntervals, hs]
    · simp [liveIntervals, hs]
  rw [← hintervals]
  exact hsets.bind ((ends_lift hrun).bind (ends_pure _))

variable {name : String} {steps : List Step} {i : Instruction}

theorem live_ranges_exact (hfinished : Function.assemble name steps = .ok f) (s : Nat) :
    (f.size < 2147483648 -> f.computeLiveIntervals.Ends f.liveIntervals) ∧
    (forall i, i ∈ f.layout -> exists before after,
      f.usePoint i.id = .ok before ∧ f.defPoint i.id = .ok after ∧
      (f.liveRanges.liveAt s before = true <-> f.ReadAhead s i) ∧
      (f.liveRanges.liveAt s after = true <->
        i.defines s = true ∨ exists j, f.Passes i j ∧ exists next,
          f.usePoint j.id = .ok next ∧ f.liveRanges.liveAt s next = true)) ∧
    forall p, f.endPoint ≤ p -> f.liveRanges.liveAt s p = false := by
  have hf := wellFormed_of_assemble hfinished
  have hdeclared := declared_of_assemble hfinished
  refine ⟨ends_computeLiveIntervals hf hdeclared, ?_, ?_⟩
  · intro i hi
    have hplace := (mem_layout_iff hf).mp hi
    refine ⟨_, _, usePoint_of_layout hf hplace, defPoint_of_layout hf hplace, ?_, ?_⟩
    · rw [liveAt_iff_mem_livePoints hf hdeclared, mem_livePoints_use hf, liveBefore_iff hf hplace]
    · rw [liveAt_iff_mem_livePoints hf hdeclared, mem_livePoints_def hf, definesAt_of_layout hplace]
      apply or_congr_right
      constructor
      · intro h
        rcases h with ⟨l, hl, hlive⟩
        rcases passes_of_leads hf hl with ⟨i', j, hi', hj, hpasses⟩
        cases hplace.symm.trans hi'
        refine ⟨j, hpasses, _, usePoint_of_layout hf hj, ?_⟩
        exact (liveAt_iff_mem_livePoints hf hdeclared).mpr ((mem_livePoints_use hf).mpr hlive)
      · intro h
        rcases h with ⟨j, hpasses, next, hnext, hlive⟩
        refine ⟨f.slotOf j, leads_of_passes hf hpasses, ?_⟩
        cases (usePoint_of_layout hf (passes_layout hf hpasses).right).symm.trans hnext
        exact (mem_livePoints_use hf).mp ((liveAt_iff_mem_livePoints hf hdeclared).mp hlive)
  · intro p hp
    rw [← Bool.not_eq_true, liveAt_iff_mem_livePoints hf hdeclared]
    intro hlive
    exact Nat.not_lt_of_le hp (livePoint_bounds hf hdeclared hlive).left

/-!
A loop that reads and writes a register in one instruction, and a block from which the loop can be
entered but to which nothing leads.
-/

def drainSteps : List Step :=
  [.declare .virtualRegister "v" {}, .declare .virtualRegister "w" {}, .openBlock "start",
    .openBlock "loop", .openBlock "lost", .select 0, .emit (.arith "init" [0] []), .select 2,
    .emit (.arith "fill" [1] []), .select 1, .emit (.arith "step" [0] [0]),
    .emit (.arith "show" [] [1]), .connect 0 1, .connect 1 1, .connect 2 1]

def drainFill : Instruction :=
  { Operation.arith "fill" [1] [] with id := 1, block := 2, position := 0 }

def drain : Function :=
  ⟨"drain", [⟨.virtualRegister, "v", {}⟩, ⟨.virtualRegister, "w", {}⟩],
    ⟨[⟨"start", [{ Operation.arith "init" [0] [] with id := 0, block := 0, position := 0 }]⟩,
      ⟨"loop",
        [{ Operation.arith "step" [0] [0] with id := 2, block := 1, position := 0 },
          { Operation.arith "show" [] [1] with id := 3, block := 1, position := 1 }]⟩,
      ⟨"lost", [drainFill]⟩],
      [(0, 1), (1, 1), (2, 1)]⟩⟩

theorem drain_live_ranges :
    Function.assemble "drain" drainSteps = .ok drain ∧
      drain.computeLiveIntervals.Ends
        [some ⟨0, ⟨[⟨1, 8⟩]⟩⟩, some ⟨1, ⟨[⟨0, 6⟩, ⟨7, 8⟩]⟩⟩] ∧
      drain.ReadAhead 0 drainFill ∧ ¬ drain.ReadAhead 1 drainFill ∧
      drain.liveRanges.liveAt 0 8 = false := by
  have hfinished : Function.assemble "drain" drainSteps = .ok drain := rfl
  have hfill : drainFill ∈ drain.layout := by decide
  have hplace : drain.usePoint drainFill.id = .ok 6 := rfl
  have hintervals : drain.liveIntervals =
      [some ⟨0, ⟨[⟨1, 8⟩]⟩⟩, some ⟨1, ⟨[⟨0, 6⟩, ⟨7, 8⟩]⟩⟩] := by decide +kernel
  refine ⟨hfinished, ?_, ?_, ?_, ?_⟩
  · rw [← hintervals]
    exact (live_ranges_exact hfinished 0).left (by decide)
  · rcases (live_ranges_exact hfinished 0).right.left drainFill hfill with
      ⟨before, _, huse, _, hlive, _⟩
    cases hplace.symm.trans huse
    exact hlive.mp (by decide +kernel)
  · rcases (live_ranges_exact hfinished 1).right.left drainFill hfill with
      ⟨before, _, huse, _, hlive, _⟩
    cases hplace.symm.trans huse
    rw [← hlive]
    decide +kernel
  · exact (live_ranges_exact hfinished 0).right.right 8 (by decide)

end Function
end SafeRestart
