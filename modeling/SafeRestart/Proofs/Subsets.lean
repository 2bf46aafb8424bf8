import Mathlib.Logic.Function.Basic
import SafeRestart.Proofs.Capacity

/-!
# Sets of one capacity

Sets of one capacity that are changed and combined only with each other go on standing for subsets
of the numbers below it.  The same steps can be carried out on subsets, on bit sets and on the words
that bit sets are kept in; all three give the same answers, and what they leave behind shows the
same members.
-/

namespace SafeRestart

/-!
# Changing one bit
-/

namespace Words

variable {words : List (BitVec 64)} {w : BitVec 64} {i j : Nat}

def mask (i : Nat) : BitVec 64 := 1#64 <<< (i % 64)

theorem getLsbD_mask (i j : Nat) : (mask i).getLsbD j = decide (j = i % 64) := by
  have hbit : i % 64 < 64 := Nat.mod_lt i (by decide)
  have hmask : (mask i).getLsbD j = (decide (i % 64 < 64) && decide (i % 64 = j)) :=
    BitVec.getLsbD_twoPow _ j
  rw [hmask, decide_eq_true hbit, Bool.true_and]
  exact decide_eq_decide.mpr eq_comm

theorem bitAt_set {change : BitVec 64 -> BitVec 64} {b : Bool}
    (hchange : forall x j, j < 64 ->
      (change x).getLsbD j = if j = i % 64 then b else x.getLsbD j)
    (hword : words[i / 64]? = some w) (j : Nat) :
    bitAt (words.set (i / 64) (change w)) j = if j = i then b else bitAt words j := by
  have hlength : i / 64 < words.length := (List.getElem?_eq_some_iff.mp hword).choose
  have hbit : j % 64 < 64 := Nat.mod_lt j (by decide)
  unfold bitAt
  by_cases hplace : j / 64 = i / 64
  · rw [hplace, List.getElem?_set_self hlength, hword, Option.getD_some, Option.getD_some,
      hchange w (j % 64) hbit]
    have hsame : j % 64 = i % 64 <-> j = i := by omega
    simp only [hsame]
  · have hother : j ≠ i := by
      rintro rfl
      exact hplace rfl
    rw [List.getElem?_set_ne (Ne.symm hplace), if_neg hother]

end Words

namespace PackedSet

open Words

def empty (capacity : Nat) : PackedSet := ⟨capacity, List.replicate ((capacity + 63) / 64) 0#64⟩

def atWord (s : PackedSet) (i : Nat) (answer : BitVec 64 -> Bool)
    (change : BitVec 64 -> BitVec 64) : Except Fault Bool × PackedSet :=
  match entryAt s.words (i / 64) with
  | .ok word => (.ok (answer word), ⟨s.capacity, s.words.set (i / 64) (change word)⟩)
  | .error fault => (.error fault, s)

def insert (s : PackedSet) (i : Nat) : Except Fault Bool × PackedSet :=
  if i < s.capacity then
    s.atWord i (fun word => word &&& mask i == 0#64) (fun word => word ||| mask i)
  else
    (.error (.bitOutOfRange i s.capacity), s)

def remove (s : PackedSet) (i : Nat) : Except Fault Bool × PackedSet :=
  if i < s.capacity then
    s.atWord i (fun word => word &&& mask i != 0#64) (fun word => word &&& ~~~mask i)
  else
    (.ok false, s)

def clear (s : PackedSet) : PackedSet := ⟨s.capacity, s.words.map fun _ => 0#64⟩

end PackedSet

namespace BitSet

open Words

variable {s t : BitSet} {i n : Nat}

/-!
# Bits and words after a change
-/

theorem packed_empty (n : Nat) : (empty n).packed = PackedSet.empty n := by
  simp [packed, empty, PackedSet.empty, List.map_const']

theorem packed_clear (s : BitSet) : s.packed.clear = s.clear.packed := by
  simp [packed, clear, empty, PackedSet.clear, List.map_const', Function.comp_def]

theorem packed_atWord {answer : BitVec 64 -> Bool} {change : BitVec 64 -> BitVec 64}
    {told : Bool -> Bool} {b : Bool} (hs : s.InRoom) (ht : t.InRoom)
    (hcapacity : t.capacity = s.capacity) (hi : i < s.capacity)
    (hanswer : forall x, answer x = told (x.getLsbD (i % 64)))
    (hchange : forall x j, j < 64 ->
      (change x).getLsbD j = if j = i % 64 then b else x.getLsbD j)
    (hbits : forall j, t.bits.testBit j = if j = i then b else s.bits.testBit j) :
    s.packed.atWord i answer change = (.ok (told (s.bits.testBit i)), t.packed) := by
  have hlength : s.packed.words.length * 64 = s.room := length_packed s
  have hroom := capacity_le_room s
  have hword : i / 64 < s.packed.words.length := by omega
  rcases exists_entryAt hword with ⟨w, hw, hentry⟩
  have htold : answer w = told (s.bits.testBit i) := by
    rw [hanswer, ← bitAt_packed hs, bitAt, hw, Option.getD_some]
  -- Both lists have as many words as the common capacity needs, so the bits decide.
  have hwords : s.packed.words.set (i / 64) (change w) = t.packed.words := by
    apply eq_of_bitAt
    · simp [packed, hcapacity]
    · intro j
      rw [bitAt_set hchange hw, bitAt_packed hs, bitAt_packed ht, hbits]
  unfold PackedSet.atWord
  rw [hentry]
  show (Except.ok (answer w), PackedSet.mk s.capacity _) = _
  rw [htold, hwords, ← hcapacity]
  rfl

theorem packed_insert {new : Bool} (hs : s.InRoom) (hinsert : s.insert i = .ok (t, new)) :
    s.packed.insert i = (.ok new, t.packed) := by
  have hi := lt_of_insert_ok hinsert
  have ht := inRoom_insert hs hinsert
  rw [insert_of_fits hi] at hinsert
  cases hinsert
  have hanswer : forall x : BitVec 64, (x &&& mask i == 0#64) = !x.getLsbD (i % 64) := by
    intro x
    rw [← masked_ne_zero x (Nat.mod_lt i (by decide)), bne, Bool.not_not]
    rfl
  have hchange : forall (x : BitVec 64) j, j < 64 ->
      (x ||| mask i).getLsbD j = if j = i % 64 then true else x.getLsbD j := by
    intro x j _
    rw [BitVec.getLsbD_or, getLsbD_mask]
    by_cases hj : j = i % 64
    · simp [hj]
    · simp [hj]
  have hfits : i < s.packed.capacity := hi
  rw [PackedSet.insert, if_pos hfits]
  exact packed_atWord hs ht rfl hi hanswer hchange (testBit_inserted s.bits i)

theorem packed_insert_beyond (hi : s.capacity ≤ i) :
    s.packed.insert i = (.error (.bitOutOfRange i s.capacity), s.packed) :=
  if_neg (Nat.not_lt.mpr hi)

theorem packed_remove (hs : s.InRoom) (i : Nat) :
    s.packed.remove i = (.ok (s.remove i).2, (s.remove i).1.packed) := by
  by_cases hi : i < s.capacity
  · have hanswer : forall x : BitVec 64, (x &&& mask i != 0#64) = id (x.getLsbD (i % 64)) :=
      fun x => masked_ne_zero x (Nat.mod_lt i (by decide))
    have hchange : forall (x : BitVec 64) j, j < 64 ->
        (x &&& ~~~mask i).getLsbD j = if j = i % 64 then false else x.getLsbD j := by
      intro x j hj
      rw [BitVec.getLsbD_and, BitVec.getLsbD_not, getLsbD_mask]
      by_cases hbit : j = i % 64
      · simp [hbit]
      · simp [hj, hbit]
    have hpresent : (s.remove i).2 = s.bits.testBit i := by
      simp [remove_answer_eq, contains, hi]
    have hfits : i < s.packed.capacity := hi
    rw [PackedSet.remove, if_pos hfits, hpresent]
    exact packed_atWord hs (inRoom_remove hs i) (capacity_remove s i) hi hanswer hchange
      (testBit_remove hi)
  · rw [remove_of_beyond (Nat.le_of_not_lt hi)]
    exact if_neg hi

/-!
# Sets with the same members
-/

theorem packed_eq_iff (hs : s.InRoom) (ht : t.InRoom) : s.packed = t.packed <-> s = t := by
  constructor
  · intro h
    have hcapacity : s.capacity = t.capacity := congrArg PackedSet.capacity h
    have hmembers : s.members = t.members := by
      rw [← members_packed hs, ← members_packed ht, h]
    apply eq_of_members hs ht hcapacity
    intro i
    rw [hmembers]
  · intro h
    rw [h]

/-!
# Subsets
-/

variable {subset other : Finset Nat}

/-- Whatever way one looks at the set, it is this subset of the numbers below `n`. -/
structure Depicts (s : BitSet) (n : Nat) (subset : Finset Nat) : Prop where
  capacity : s.capacity = n
  bounded : subset ⊆ Finset.range n
  contains : forall i, s.contains i = true <-> i ∈ subset
  count : s.count = subset.card
  isEmpty : s.isEmpty = true <-> subset = ∅
  ascending : s.members.Pairwise (· < ·)
  members : forall i, i ∈ s.members <-> i ∈ subset

theorem Marks.depicts (h : s.Marks n subset) : s.Depicts n subset := by
  have hagrees : s.Agrees := (agrees_iff h.inRoom).mpr h.within
  have hcontains : forall i, s.contains i = true <-> i ∈ subset := by
    intro i
    rw [h.contains_eq, decide_eq_true_eq]
  refine ⟨h.capacity, h.bounded, hcontains, ?_, ?_, pairwise_members s, ?_⟩
  · rw [hagrees.counted]
    congr 1
    ext i
    rw [Finset.mem_filter, Finset.mem_range, hcontains, and_iff_right_of_imp h.lt_capacity]
  · rw [hagrees.vacant, Finset.eq_empty_iff_forall_notMem]
    simp only [← hcontains, Bool.not_eq_true]
  · intro i
    rw [hagrees.listed, hcontains]

end BitSet

/-!
# Steps

Sets have numbers.  A step changes the set with one number, and what it adds or takes away can be
the set with another.  A step that fails leaves all sets as they were.
-/

/-- What is answered to a step: whether it changed the set, unless nothing is told about that. -/
abbrev SetAnswer := Except Fault (Option Bool)

inductive SetChange where
  | insert (i : Nat)
  | remove (i : Nat)
  | clear
  | union (other : Nat)
  | difference (other : Nat)

structure SetStep where
  target : Nat
  change : SetChange

namespace SetChange

def onSubset (n : Nat) (subsets : Nat -> Finset Nat) (k : Nat) : SetChange -> SetAnswer × Finset Nat
  | insert i =>
      if i < n then (.ok (some (decide (i ∉ subsets k))), subsets k ∪ {i})
      else (.error (.bitOutOfRange i n), subsets k)
  | remove i => (.ok (some (decide (i ∈ subsets k))), subsets k \ {i})
  | clear => (.ok none, ∅)
  | union j =>
      (.ok (some (decide (exists i, i ∈ subsets j ∧ i ∉ subsets k))), subsets k ∪ subsets j)
  | difference j => (.ok none, subsets k \ subsets j)

def onBits (sets : Nat -> BitSet) (k : Nat) : SetChange -> SetAnswer × BitSet
  | insert i =>
      match (sets k).insert i with
      | .ok (t, new) => (.ok (some new), t)
      | .error fault => (.error fault, sets k)
  | remove i => (.ok (some ((sets k).remove i).2), ((sets k).remove i).1)
  | clear => (.ok none, (sets k).clear)
  | union j => (.ok (some ((sets k).union (sets j)).2), ((sets k).union (sets j)).1)
  | difference j => (.ok none, (sets k).difference (sets j))

def onWords (sets : Nat -> PackedSet) (k : Nat) : SetChange -> SetAnswer × PackedSet
  | insert i => (((sets k).insert i).1.map some, ((sets k).insert i).2)
  | remove i => (((sets k).remove i).1.map some, ((sets k).remove i).2)
  | clear => (.ok none, (sets k).clear)
  | union j => (.ok (some ((sets k).union (sets j)).2), ((sets k).union (sets j)).1)
  | difference j => (.ok none, (sets k).difference (sets j))

section Runs

variable {σ τ : Type}

def run (on : (Nat -> σ) -> Nat -> SetChange -> SetAnswer × σ) (sets : Nat -> σ) :
    List SetStep -> List SetAnswer × (Nat -> σ)
  | [] => ([], sets)
  | step :: rest =>
      let outcome := on sets step.target step.change
      let later := run on (Function.update sets step.target outcome.2) rest
      (outcome.1 :: later.1, later.2)

theorem run_related {R : σ -> τ -> Prop}
    {on : (Nat -> σ) -> Nat -> SetChange -> SetAnswer × σ}
    {on' : (Nat -> τ) -> Nat -> SetChange -> SetAnswer × τ}
    (hstep : forall sets others, (forall k, R (sets k) (others k)) -> forall k change,
      (on sets k change).1 = (on' others k change).1 ∧
        R (on sets k change).2 (on' others k change).2)
    (steps : List SetStep) {sets : Nat -> σ} {others : Nat -> τ}
    (h : forall k, R (sets k) (others k)) :
    (run on sets steps).1 = (run on' others steps).1 ∧
      forall k, R ((run on sets steps).2 k) ((run on' others steps).2 k) := by
  induction steps generalizing sets others with
  | nil => exact ⟨rfl, h⟩
  | cons step rest ih =>
      rcases hstep sets others h step.target step.change with ⟨hanswer, hchanged⟩
      have hupdated : forall k,
          R (Function.update sets step.target (on sets step.target step.change).2 k)
            (Function.update others step.target (on' others step.target step.change).2 k) := by
        intro k
        by_cases hk : k = step.target
        · rw [hk, Function.update_self, Function.update_self]
          exact hchanged
        · rw [Function.update_of_ne hk, Function.update_of_ne hk]
          exact h k
      rcases ih hupdated with ⟨hanswers, hrest⟩
      exact ⟨List.cons_eq_cons.mpr ⟨hanswer, hanswers⟩, hrest⟩

end Runs

theorem onBits_marks {n : Nat} {sets : Nat -> BitSet} {subsets : Nat -> Finset Nat}
    (h : forall k, (sets k).Marks n (subsets k)) (k : Nat) (change : SetChange) :
    (onBits sets k change).1 = (onSubset n subsets k change).1 ∧
      (onBits sets k change).2.Marks n (onSubset n subsets k change).2 := by
  have hk := h k
  cases change with
  | insert i =>
      by_cases hi : i < n
      · have hfits : i < (sets k).capacity := by
          rw [hk.capacity]
          exact hi
        have hnew : (!(sets k).bits.testBit i) = decide (i ∉ subsets k) := by
          rw [hk.bits, decide_not]
        rw [onBits, onSubset, BitSet.insert_of_fits hfits, if_pos hi, hnew]
        exact ⟨rfl, hk.inserted hi⟩
      · have hbeyond : (sets k).capacity ≤ i := by
          rw [hk.capacity]
          exact Nat.le_of_not_lt hi
        rw [onBits, onSubset, BitSet.insert_of_beyond hbeyond, if_neg hi, hk.capacity]
        exact ⟨rfl, hk⟩
  | remove i =>
      refine ⟨?_, hk.remove i⟩
      rw [onBits, onSubset, BitSet.remove_answer_eq, hk.contains_eq]
  | clear =>
      refine ⟨rfl, ?_⟩
      rw [onBits, onSubset, BitSet.clear, hk.capacity]
      exact BitSet.marks_empty n
  | union j =>
      refine ⟨?_, hk.union (h j)⟩
      rw [onBits, onSubset, hk.union_gained (h j)]
  | difference j => exact ⟨rfl, hk.difference (h j)⟩

theorem onWords_packed {words : Nat -> PackedSet} {sets : Nat -> BitSet}
    (h : forall k, words k = (sets k).packed ∧ (sets k).InRoom) (k : Nat) (change : SetChange) :
    (onWords words k change).1 = (onBits sets k change).1 ∧
      (onWords words k change).2 = (onBits sets k change).2.packed ∧
      (onBits sets k change).2.InRoom := by
  rcases h k with ⟨hwords, hroom⟩
  cases change with
  | insert i =>
      rw [onWords, onBits, hwords]
      cases hinsert : (sets k).insert i with
      | ok answer =>
          rcases answer with ⟨t, new⟩
          rw [BitSet.packed_insert hroom hinsert]
          exact ⟨rfl, rfl, BitSet.inRoom_insert hroom hinsert⟩
      | error fault =>
          -- Only a number beyond the capacity is refused, and no word is touched then.
          have hbeyond : (sets k).capacity ≤ i := by
            by_contra hfits
            rw [BitSet.insert_of_fits (Nat.lt_of_not_le hfits)] at hinsert
            cases hinsert
          rw [BitSet.insert_of_beyond hbeyond] at hinsert
          cases hinsert
          rw [BitSet.packed_insert_beyond hbeyond]
          exact ⟨rfl, rfl, hroom⟩
  | remove i =>
      rw [onWords, onBits, hwords, BitSet.packed_remove hroom]
      exact ⟨rfl, rfl, BitSet.inRoom_remove hroom i⟩
  | clear =>
      rw [onWords, onBits, hwords, BitSet.packed_clear]
      exact ⟨rfl, rfl, BitSet.inRoom_empty _⟩
  | union j =>
      rw [onWords, onBits, hwords, (h j).left, BitSet.packed_union hroom (h j).right]
      exact ⟨rfl, rfl, BitSet.inRoom_union hroom _⟩
  | difference j =>
      rw [onWords, onBits, hwords, (h j).left, BitSet.packed_difference hroom (h j).right]
      exact ⟨rfl, rfl, BitSet.inRoom_difference hroom _⟩

/-!
# Runs

All sets have one capacity and are empty at first.
-/

def runOnSubsets (n : Nat) : List SetStep -> List SetAnswer × (Nat -> Finset Nat) :=
  run (onSubset n) fun _ => ∅

def runOnBits (n : Nat) : List SetStep -> List SetAnswer × (Nat -> BitSet) :=
  run onBits fun _ => BitSet.empty n

def runOnWords (n : Nat) : List SetStep -> List SetAnswer × (Nat -> PackedSet) :=
  run onWords fun _ => PackedSet.empty n

theorem runOnBits_marks (n : Nat) (steps : List SetStep) :
    (runOnBits n steps).1 = (runOnSubsets n steps).1 ∧
      forall k, ((runOnBits n steps).2 k).Marks n ((runOnSubsets n steps).2 k) :=
  run_related (R := fun s subset => BitSet.Marks s n subset) (fun _ _ h => onBits_marks h) steps
    fun _ => BitSet.marks_empty n

theorem runOnWords_packed (n : Nat) (steps : List SetStep) :
    (runOnWords n steps).1 = (runOnBits n steps).1 ∧
      forall k, (runOnWords n steps).2 k = ((runOnBits n steps).2 k).packed ∧
        ((runOnBits n steps).2 k).InRoom :=
  run_related (R := fun words s => words = BitSet.packed s ∧ s.InRoom)
    (fun _ _ h => onWords_packed h) steps
    fun _ => ⟨(BitSet.packed_empty n).symm, BitSet.inRoom_empty n⟩

theorem runs_refine_subsets (n : Nat) (steps : List SetStep) :
    ((runOnBits n steps).1 = (runOnSubsets n steps).1 ∧
      forall k, ((runOnBits n steps).2 k).Depicts n ((runOnSubsets n steps).2 k)) ∧
    ((runOnWords n steps).1 = (runOnSubsets n steps).1 ∧
      forall k, ((runOnWords n steps).2 k).Shows ((runOnBits n steps).2 k)) ∧
    (forall k i, n ≤ i ->
      ((runOnBits n steps).2 k).insert i = .error (.bitOutOfRange i n) ∧
      ((runOnWords n steps).2 k).insert i =
        (.error (.bitOutOfRange i n), (runOnWords n steps).2 k)) ∧
    (forall k others j,
      ((runOnBits n steps).2 k = (runOnBits n others).2 j <->
        forall i, i ∈ ((runOnBits n steps).2 k).members <->
          i ∈ ((runOnBits n others).2 j).members) ∧
      ((runOnWords n steps).2 k = (runOnWords n others).2 j <->
        forall i, i ∈ ((runOnWords n steps).2 k).members <->
          i ∈ ((runOnWords n others).2 j).members)) := by
  rcases runOnBits_marks n steps with ⟨hanswers, hmarks⟩
  rcases runOnWords_packed n steps with ⟨hsame, hpacked⟩
  refine ⟨⟨hanswers, fun k => (hmarks k).depicts⟩, ⟨hsame.trans hanswers, ?_⟩, ?_, ?_⟩
  · intro k
    rw [(hpacked k).left]
    exact BitSet.shows_packed (hpacked k).right
  · intro k i hi
    have hcapacity := (hmarks k).capacity
    have hbeyond : ((runOnBits n steps).2 k).capacity ≤ i := by
      rw [hcapacity]
      exact hi
    rw [(hpacked k).left, BitSet.insert_of_beyond hbeyond, BitSet.packed_insert_beyond hbeyond,
      hcapacity]
    exact ⟨rfl, rfl⟩
  · intro k others j
    have hmarks' := (runOnBits_marks n others).right j
    rcases (runOnWords_packed n others).right j with ⟨hpacked', hroom'⟩
    have hroom := (hpacked k).right
    have hequal : (runOnBits n steps).2 k = (runOnBits n others).2 j <->
        forall i, i ∈ ((runOnBits n steps).2 k).members <->
          i ∈ ((runOnBits n others).2 j).members := by
      constructor
      · intro h i
        rw [h]
      · exact BitSet.eq_of_members hroom hroom' ((hmarks k).capacity.trans hmarks'.capacity.symm)
    refine ⟨hequal, ?_⟩
    rw [(hpacked k).left, hpacked', BitSet.packed_eq_iff hroom hroom', BitSet.members_packed hroom,
      BitSet.members_packed hroom']
    exact hequal

example :
    (runOnBits 70 [⟨0, .insert 3⟩, ⟨0, .insert 69⟩, ⟨1, .union 0⟩, ⟨1, .remove 3⟩, ⟨0, .insert 70⟩,
      ⟨0, .difference 1⟩, ⟨1, .union 0⟩]).1 =
      [.ok (some true), .ok (some true), .ok (some true), .ok (some true),
        .error (.bitOutOfRange 70 70), .ok none, .ok (some true)] := by
  decide

end SetChange
end SafeRestart
