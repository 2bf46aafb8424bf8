import SafeRestart.Proofs.BitSet
import SafeRestart.Proofs.Greedy
import SafeRestart.Proofs.Guarded.Basic

/-!
# Keeping count

The greedy choice can be made without looking at all sets again after each step.  A tally holds, for
each element not taken yet, the number of sets it would be the first to hit, and marks the sets that
are hit already.  A step takes the element with the greatest count, marks its sets and lowers the
counts of their other members.  The counts stay exact, so the choices are those of a run that counts
afresh.
-/

namespace SafeRestart

namespace HittingSet

universe u

/-- The counts of the elements that can still be taken, in ascending order of the elements, and the
numbers of the sets that are hit. -/
structure Tally (α : Type u) where
  counts : List (α × Nat)
  hit : BitSet

namespace Tally

variable {α : Type u}

/-!
# The leading element
-/

def ahead (best : Option (α × Nat)) (entry : α × Nat) : Option (α × Nat) :=
  match best with
  | some top => if entry.2 ≤ top.2 then some top else some entry
  | none => some entry

def leader? (counts : List (α × Nat)) : Option (α × Nat) :=
  (counts.filter fun entry => 0 < entry.2).foldl ahead none

theorem foldl_ahead (top : α × Nat) (entries : List (α × Nat)) :
    entries.foldl ahead (some top) = heaviest? Prod.snd (top :: entries) := by
  induction entries generalizing top with
  | nil => rfl
  | cons entry rest ih =>
      rw [List.foldl_cons]
      by_cases hbehind : entry.2 ≤ top.2
      · rw [ahead, if_pos hbehind, ih]
        simp only [heaviest?]
        cases heaviest? Prod.snd rest with
        | none => simp [hbehind]
        | some other =>
            by_cases hother : entry.2 < other.2
            · simp [hother]
            · have hlast : ¬ top.2 < other.2 := by omega
              simp [hother, hlast, hbehind]
      · rw [ahead, if_neg hbehind, ih]
        simp only [heaviest?]
        cases heaviest? Prod.snd rest with
        | none => simp [Nat.lt_of_not_le hbehind]
        | some other =>
            by_cases hother : entry.2 < other.2
            · have hlast : top.2 < other.2 := by omega
              simp [hother, hlast]
            · simp [hother, Nat.lt_of_not_le hbehind]

theorem leader?_eq (counts : List (α × Nat)) :
    leader? counts = heaviest? Prod.snd (counts.filter fun entry => 0 < entry.2) := by
  unfold leader?
  cases counts.filter fun entry => 0 < entry.2 with
  | nil => rfl
  | cons top rest => exact foldl_ahead top rest

theorem leader?_mem {counts : List (α × Nat)} {entry : α × Nat}
    (h : leader? counts = some entry) : entry ∈ counts := by
  rw [leader?_eq] at h
  exact (List.mem_filter.mp (heaviest?_mem h)).left

variable [DecidableEq α] {sets : List (List α)} {tally : Tally α} {found : List Nat} {a : α}

/-!
# Marking sets
-/

def discount (counts : List (α × Nat)) (a : α) : List (α × Nat) :=
  counts.map fun entry => if entry.1 = a then (entry.1, entry.2 - 1) else entry

/-- Marks the sets with the given numbers.  Those that were not marked before are counted, and the
counts of their members are lowered. -/
def mark (sets : List (List α)) : List Nat -> Tally α -> Except Fault (Nat × Tally α)
  | [], tally => .ok (0, tally)
  | i :: rest, tally =>
      match tally.hit.insert i with
      | .error fault => .error fault
      | .ok (hit, false) => mark sets rest ⟨tally.counts, hit⟩
      | .ok (hit, true) =>
          match sets[i]? with
          | none => .error .outOfBounds
          | some set =>
              (mark sets rest ⟨set.foldl discount tally.counts, hit⟩).map fun answer =>
                (answer.1 + 1, answer.2)

theorem keys_foldl_discount (set : List α) (counts : List (α × Nat)) :
    (set.foldl discount counts).map Prod.fst = counts.map Prod.fst := by
  induction set generalizing counts with
  | nil => rfl
  | cons a rest ih =>
      rw [List.foldl_cons, ih, discount, List.map_map]
      apply List.map_congr_left
      intro entry _
      by_cases hkey : entry.1 = a
      · simp [hkey]
      · simp [hkey]

theorem keys_mark {new : Nat} {next : Tally α} (h : mark sets found tally = .ok (new, next)) :
    next.counts.map Prod.fst = tally.counts.map Prod.fst := by
  induction found generalizing tally new with
  | nil =>
      cases h
      rfl
  | cons i rest ih =>
      unfold mark at h
      split at h
      · cases h
      · have hsame := ih h
        exact hsame
      · split at h
        · cases h
        · rename_i set _
          cases hrest : mark sets rest ⟨set.foldl discount tally.counts, _⟩ with
          | error fault =>
              rw [hrest] at h
              cases h
          | ok answer =>
              rw [hrest] at h
              cases h
              rw [ih hrest]
              exact keys_foldl_discount set tally.counts

/-!
# The run
-/

def holders (sets : List (List α)) (a : α) : List Nat :=
  (List.range sets.length).filter fun i => (sets[i]?).any fun set => a ∈ set

def without (tally : Tally α) (a : α) : Tally α :=
  ⟨tally.counts.filter fun entry => entry.1 ≠ a, tally.hit⟩

theorem length_mark_without_lt {new : Nat} {next : Tally α} {entry : α × Nat}
    (hleader : leader? tally.counts = some entry)
    (hmark : mark sets found (tally.without entry.1) = .ok (new, next)) :
    next.counts.length < tally.counts.length := by
  have hlength := congrArg List.length (keys_mark hmark)
  rw [List.length_map, List.length_map] at hlength
  rw [hlength]
  exact List.length_filter_lt_length_iff_exists.mpr ⟨entry, leader?_mem hleader, by simp⟩

/-- Takes one element after the other until `goal` sets are hit.  The answer is the choices, and
whether the run has come to its goal: it gives up when no element has a count left. -/
def run (sets : List (List α)) (goal : Nat) (tally : Tally α) :
    Except Fault (List (Selection α) × Bool) :=
  if tally.hit.count < goal then
    match _leader : leader? tally.counts with
    | none => .ok ([], false)
    | some entry =>
        match _marked : mark sets (holders sets entry.1) (tally.without entry.1) with
        | .error fault => .error fault
        | .ok (new, next) =>
            (run sets goal next).map fun answer =>
              (if 0 < new then ⟨entry.1, new, next.hit.count⟩ :: answer.1 else answer.1, answer.2)
  else
    .ok ([], true)
termination_by tally.counts.length
decreasing_by exact length_mark_without_lt _leader _marked

/-!
# Exact counts
-/

def openSets (sets : List (List α)) (hit : BitSet) : List (List α) :=
  hit.free.filterMap fun i => sets[i]?

structure Exact (sets : List (List α)) (tally : Tally α) : Prop where
  fits : tally.hit.capacity = sets.length
  within : tally.hit.Within
  counted : forall entry, entry ∈ tally.counts ->
    entry.2 = coverage (openSets sets tally.hit) entry.1

theorem foldl_discount {set : List α} (hset : set.Nodup) (counts : List (α × Nat)) :
    set.foldl discount counts =
      counts.map fun entry => if entry.1 ∈ set then (entry.1, entry.2 - 1) else entry := by
  induction set generalizing counts with
  | nil => simp
  | cons a rest ih =>
      have hrest := List.nodup_cons.mp hset
      rw [List.foldl_cons, ih hrest.right, discount, List.map_map]
      apply List.map_congr_left
      intro entry _
      by_cases hkey : entry.1 = a
      · simp [hkey, hrest.left]
      · simp [hkey]

theorem exact_without (h : tally.Exact sets) (a : α) : (tally.without a).Exact sets :=
  ⟨h.fits, h.within, fun entry hentry => h.counted entry (List.mem_filter.mp hentry).left⟩

theorem exact_hit {set : List α} {hit : BitSet} {i : Nat} (h : tally.Exact sets)
    (hfree : i ∈ tally.hit.free) (hset : sets[i]? = some set) (hnodup : set.Nodup)
    (hfits : hit.capacity = sets.length) (hwithin : hit.Within)
    (hhit : hit.free = tally.hit.free.erase i) :
    (⟨set.foldl discount tally.counts, hit⟩ : Tally α).Exact sets := by
  have hopen : (openSets sets tally.hit).Perm (set :: openSets sets hit) := by
    have hmoved := (List.perm_cons_erase hfree).filterMap fun i => sets[i]?
    rw [List.filterMap_cons_some hset, ← hhit] at hmoved
    exact hmoved
  refine ⟨hfits, hwithin, ?_⟩
  intro entry hentry
  rw [foldl_discount hnodup] at hentry
  rcases List.mem_map.mp hentry with ⟨former, hformer, rfl⟩
  have hcount : former.2 = coverage (set :: openSets sets hit) former.1 :=
    (h.counted former hformer).trans (hopen.countP_eq _)
  by_cases hmem : former.1 ∈ set
  · rw [if_pos hmem, hcount]
    simp [coverage, hmem]
  · rw [if_neg hmem, hcount]
    simp [coverage, hmem]

theorem exact_mark (hsets : forall set, set ∈ sets -> set.Nodup)
    (hfound : forall i, i ∈ found -> i < sets.length) (h : tally.Exact sets) :
    exists new next, mark sets found tally = .ok (new, next) ∧ next.Exact sets ∧
      next.hit.free = tally.hit.free.filter (fun i => i ∉ found) ∧
      new + next.hit.free.length = tally.hit.free.length := by
  induction found generalizing tally with
  | nil => exact ⟨0, tally, rfl, h, by simp, Nat.zero_add _⟩
  | cons i rest ih =>
      have hi : i < sets.length := hfound i List.mem_cons_self
      have hrest : forall j, j ∈ rest -> j < sets.length :=
        fun j hj => hfound j (List.mem_cons_of_mem i hj)
      rcases BitSet.insert_of_lt (h.fits ▸ hi) with ⟨hit, hinsert, hcapacity, hfree⟩
      have hfits : hit.capacity = sets.length := hcapacity.trans h.fits
      have hwithin : hit.Within := BitSet.within_insert h.within hinsert
      have hnodup : tally.hit.free.Nodup := List.nodup_range.filter _
      have hleft : hit.free.filter (fun j => j ∉ rest) =
          tally.hit.free.filter (fun j => j ∉ i :: rest) := by
        rw [hfree, hnodup.erase_eq_filter, List.filter_filter]
        apply List.filter_congr
        intro j _
        by_cases hj : j = i
        · simp [hj]
        · simp [hj]
      unfold mark
      rw [hinsert]
      by_cases hmem : i ∈ tally.hit.free
      · have hset : sets[i]? = some sets[i] := List.getElem?_eq_getElem hi
        have hexact := exact_hit h hmem hset (hsets _ (List.getElem_mem hi)) hfits hwithin hfree
        rcases ih hrest hexact with ⟨new, next, hmark, hnext, hopen, hlength⟩
        refine ⟨new + 1, next, ?_, hnext, hopen.trans hleft, ?_⟩
        · simp only [hmem, decide_true, hset, hmark]
          rfl
        · have hone := List.length_erase_add_one hmem
          rw [← hfree] at hone
          dsimp only at hlength
          omega
      · have hsame : hit.free = tally.hit.free := hfree.trans (List.erase_of_not_mem hmem)
        have hexact : (⟨tally.counts, hit⟩ : Tally α).Exact sets := by
          refine ⟨hfits, hwithin, ?_⟩
          intro entry hentry
          rw [openSets, hsame]
          exact h.counted entry hentry
        rcases ih hrest hexact with ⟨new, next, hmark, hnext, hopen, hlength⟩
        refine ⟨new, next, ?_, hnext, hopen.trans hleft, hlength.trans (by rw [hsame])⟩
        simp only [hmem, decide_false, hmark]

theorem lt_of_mem_holders {i : Nat} (h : i ∈ holders sets a) : i < sets.length :=
  List.mem_range.mp (List.mem_filter.mp h).left

theorem openSets_of_marked {hit hit' : BitSet} (hfits : hit.capacity = sets.length)
    (hfree : hit'.free = hit.free.filter (fun i => i ∉ holders sets a)) :
    openSets sets hit' = missed (openSets sets hit) a := by
  unfold openSets missed
  rw [hfree, List.filterMap_filter, List.filter_filterMap]
  apply List.filterMap_congr
  intro i hi
  have hlt : i < sets.length := hfits ▸ BitSet.lt_capacity_of_mem_free hi
  by_cases hmem : a ∈ sets[i]
  · simp [holders, hmem, hlt, Option.filter]
  · simp [holders, hmem, hlt, Option.filter]

omit [DecidableEq α] in
theorem length_openSets {hit : BitSet} (hfits : hit.capacity = sets.length) :
    (openSets sets hit).length = hit.free.length := by
  unfold openSets
  rw [List.length_filterMap_eq_countP, List.countP_eq_length]
  intro i hi
  have hlt : i < sets.length := hfits ▸ BitSet.lt_capacity_of_mem_free hi
  simp [List.getElem?_eq_getElem hlt]

variable [LinearOrder α] {goal : Nat}

/-- A tally in the course of a run: it has a count for each element of an open set, and the open
sets that can be hit are as many as the goal asks for. -/
structure Tracks (sets : List (List α)) (goal : Nat) (tally : Tally α) : Prop
    extends tally.Exact sets where
  ascending : tally.counts.Pairwise fun entry later => entry.1 < later.1
  complete : forall a, 0 < coverage (openSets sets tally.hit) a -> a ∈ tally.counts.map Prod.fst
  remaining : tally.hit.count + hittable (openSets sets tally.hit) = goal

theorem tracks_mark (hsets : forall set, set ∈ sets -> set.Nodup) (h : tally.Tracks sets goal)
    (a : α) :
    exists next, mark sets (holders sets a) (tally.without a) =
        .ok (coverage (openSets sets tally.hit) a, next) ∧
      next.Tracks sets goal ∧
      openSets sets next.hit = missed (openSets sets tally.hit) a ∧
      next.hit.count = tally.hit.count + coverage (openSets sets tally.hit) a := by
  have hholders : forall i, i ∈ holders sets a -> i < sets.length := fun i => lt_of_mem_holders
  rcases exact_mark hsets hholders (exact_without h.toExact a) with
    ⟨new, next, hmark, hexact, hfree, hlength⟩
  have hkeys := keys_mark hmark
  have hopen : openSets sets next.hit = missed (openSets sets tally.hit) a :=
    openSets_of_marked h.fits hfree
  have hnew : new = coverage (openSets sets tally.hit) a := by
    have hparts := coverage_add_length_missed (openSets sets tally.hit) a
    rw [← hopen, length_openSets hexact.fits, length_openSets h.fits] at hparts
    exact Nat.add_right_cancel (hlength.trans hparts.symm)
  subst hnew
  have hcount : next.hit.count = tally.hit.count + coverage (openSets sets tally.hit) a := by
    have hbefore := BitSet.count_add_free h.within
    have hafter := BitSet.count_add_free hexact.within
    have hroom := h.fits.trans hexact.fits.symm
    change _ + _ = tally.hit.free.length at hlength
    omega
  refine ⟨next, hmark, ⟨hexact, ?_, ?_, ?_⟩, hopen, hcount⟩
  · have hsorted : ((tally.without a).counts.map Prod.fst).Pairwise (· < ·) :=
      List.pairwise_map.mpr (h.ascending.filter _)
    rw [← hkeys] at hsorted
    exact List.pairwise_map.mp hsorted
  · intro b hb
    rw [hopen] at hb
    have hother : b ≠ a := by
      rintro rfl
      rw [coverage_missed_self] at hb
      cases hb
    have hformer := h.complete b (Nat.lt_of_lt_of_le hb (coverage_missed_le _ a b))
    rcases List.mem_map.mp hformer with ⟨entry, hentry, rfl⟩
    rw [hkeys]
    exact List.mem_map.mpr ⟨entry, List.mem_filter.mpr ⟨hentry, by simpa using hother⟩, rfl⟩
  · have hsplit := coverage_add_hittable_missed (openSets sets tally.hit) a
    have hremaining := h.remaining
    rw [hopen, hcount]
    omega

variable [DecidableLT α]

theorem leader?_of_best? (h : tally.Tracks sets goal)
    (hbest : best? (openSets sets tally.hit) = some a) :
    exists entry, leader? tally.counts = some entry ∧ entry.1 = a := by
  have hleast := isLeast_of_best? hbest
  rcases List.mem_map.mp (h.complete a hleast.left.left) with ⟨own, hown, rfl⟩
  have hpositive : 0 < own.2 := by
    rw [h.counted own hown]
    exact hleast.left.left
  have hcandidate : own ∈ tally.counts.filter fun entry => 0 < entry.2 :=
    List.mem_filter.mpr ⟨hown, by simpa using hpositive⟩
  rw [leader?_eq]
  cases hleader : heaviest? Prod.snd (tally.counts.filter fun entry => 0 < entry.2) with
  | none =>
      rw [heaviest?_eq_none hleader] at hcandidate
      cases hcandidate
  | some entry =>
      have hentry := (List.mem_filter.mp (heaviest?_mem hleader)).left
      have hahead := heaviest?_least (h.ascending.filter _) hleader hcandidate
      -- Both counts are exact, so neither element is ahead of the other.
      have hmost : entry.2 ≤ own.2 := by
        rw [h.counted entry hentry, h.counted own hown]
        exact hleast.left.right entry.1
      have hsame : own.2 = entry.2 := Nat.le_antisymm hahead.left hmost
      have hshared : entry.1 ∈ mostShared (openSets sets tally.hit) := by
        have hcount : coverage (openSets sets tally.hit) entry.1 =
            coverage (openSets sets tally.hit) own.1 := by
          rw [← h.counted entry hentry, ← h.counted own hown, hsame]
        change 0 < coverage _ _ ∧ forall b, coverage _ b ≤ coverage _ _
        rw [hcount]
        exact hleast.left
      exact ⟨entry, rfl, le_antisymm (hahead.right hsame) (hleast.right hshared)⟩

theorem run_eq_choose (hsets : forall set, set ∈ sets -> set.Nodup) (h : tally.Tracks sets goal) :
    run sets goal tally =
      .ok (choose (openSets sets tally.hit) tally.hit.count, true) := by
  induction hsize : tally.counts.length using Nat.strong_induction_on generalizing tally with
  | h size ih =>
      have hremaining := h.remaining
      unfold run
      cases hbest : best? (openSets sets tally.hit) with
      | none =>
          rw [hittable_eq_zero_iff.mpr hbest] at hremaining
          rw [if_neg (by omega), choose_of_best?_none hbest]
      | some a =>
          have hpositive := (isLeast_of_best? hbest).left.left
          have hsplit := coverage_add_hittable_missed (openSets sets tally.hit) a
          rcases leader?_of_best? h hbest with ⟨entry, hleader, rfl⟩
          rcases tracks_mark hsets h entry.1 with ⟨next, hmark, hnext, hopen, hcount⟩
          have hfewer := length_mark_without_lt hleader hmark
          rw [if_pos (by omega)]
          split
          · rename_i hnone
            rw [hleader] at hnone
            cases hnone
          · rename_i found hfound
            cases hleader.symm.trans hfound
            split
            · rename_i hfault
              rw [hmark] at hfault
              cases hfault
            · rename_i hmarked
              cases hmark.symm.trans hmarked
              rw [ih _ (hsize ▸ hfewer) hnext rfl, hopen, hcount, choose_of_best?_some hbest]
              simp [Except.map, hpositive]

/-!
# The tally of a family
-/

def start (sets : List (List α)) : Tally α :=
  ⟨(Ascending.ofList sets.flatten).map fun a => (a, (holders sets a).length), .empty sets.length⟩

omit [DecidableEq α] [LinearOrder α] [DecidableLT α] in
theorem openSets_empty (sets : List (List α)) :
    openSets sets (.empty sets.length) = sets := by
  unfold openSets
  rw [BitSet.free_empty]
  induction sets with
  | nil => rfl
  | cons set rest ih =>
      rw [List.length_cons, List.range_succ_eq_map, List.filterMap_cons, List.filterMap_map]
      exact congrArg (set :: ·) ih

omit [LinearOrder α] [DecidableLT α] in
theorem length_holders (sets : List (List α)) (a : α) :
    (holders sets a).length = coverage sets a := by
  conv => rhs; rw [← openSets_empty sets]
  unfold holders coverage openSets
  rw [BitSet.free_empty, List.countP_filterMap, List.countP_eq_length_filter]
  congr 2
  funext i
  cases sets[i]? with
  | none => rfl
  | some set => rfl

theorem openSets_start (sets : List (List α)) : openSets sets (start sets).hit = sets :=
  openSets_empty sets

theorem count_start (sets : List (List α)) : (start sets).hit.count = 0 := by
  simp [start, BitSet.count, BitSet.members, BitSet.empty]

theorem tracks_start (sets : List (List α)) : (start sets).Tracks sets (hittable sets) := by
  have hopen := openSets_start sets
  refine ⟨⟨rfl, BitSet.within_empty _, ?_⟩, ?_, ?_, ?_⟩
  · intro entry hentry
    rcases List.mem_map.mp hentry with ⟨a, _, rfl⟩
    rw [hopen]
    exact length_holders sets a
  · exact List.pairwise_map.mpr (Ascending.pairwise_ofList _)
  · intro a ha
    rw [hopen] at ha
    have hlisted : a ∈ Ascending.ofList sets.flatten :=
      Ascending.mem_ofList_iff.mpr (coverage_pos_iff.mp ha)
    exact List.mem_map.mpr ⟨_, List.mem_map.mpr ⟨a, hlisted, rfl⟩, rfl⟩
  · rw [hopen, count_start, Nat.zero_add]

end Tally

variable {α : Type u} [DecidableEq α] [LinearOrder α] [DecidableLT α]

def tallied (family : List (List α)) : Except Fault (List (Selection α) × Bool) :=
  let sets := family.map Ascending.ofList
  Tally.run sets (sets.length - skipped sets) (Tally.start sets)

theorem tallied_eq_steps (family : List (List α)) : tallied family = .ok (steps family, true) := by
  have hsets : forall set, set ∈ family.map Ascending.ofList -> set.Nodup := by
    intro set hset
    rcases List.mem_map.mp hset with ⟨given, _, rfl⟩
    exact (Ascending.pairwise_ofList given).imp fun hlt => ne_of_lt hlt
  have hsame : hittableSets (family.map Ascending.ofList) = hittableSets family := by
    apply hittableSets_forall₂
    rw [List.forall₂_map_left_iff, List.forall₂_same]
    intro set _ a
    exact Ascending.mem_ofList_iff
  have hgoal := skipped_add_hittable (family.map Ascending.ofList)
  have hrun := Tally.run_eq_choose hsets (Tally.tracks_start _)
  unfold tallied
  dsimp only
  rw [← hgoal, Nat.add_sub_cancel_left, hrun, Tally.openSets_start, Tally.count_start,
    steps_eq_choose, choose_congr (List.Perm.of_eq hsame)]

end HittingSet
end SafeRestart
