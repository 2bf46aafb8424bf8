import Mathlib.Data.Finset.Card
import Mathlib.Data.List.Nodup
import Mathlib.Data.Nat.Bitwise
import SafeRestart.BitSet

/-!
# Bits, marks and subsets

The binary digits of a set after each operation, and three readings of them: the members in the
room that is reserved, the marks that are still free, and the subset of the numbers below the
capacity.
-/

namespace SafeRestart
namespace BitSet

variable {s t : BitSet} {i n : Nat}

/-!
# Digits after a change
-/

theorem insert_of_fits (hi : i < s.capacity) :
    s.insert i = .ok (⟨s.capacity, s.bits ||| 1 <<< i⟩, !s.bits.testBit i) := if_pos hi

theorem insert_of_beyond (hi : s.capacity ≤ i) :
    s.insert i = .error (.bitOutOfRange i s.capacity) := if_neg (Nat.not_lt.mpr hi)

theorem lt_of_insert_ok {answer : BitSet × Bool} (h : s.insert i = .ok answer) :
    i < s.capacity := by
  unfold insert at h
  split at h
  · assumption
  · cases h

theorem testBit_inserted (bits i j : Nat) :
    (bits ||| 1 <<< i).testBit j = if j = i then true else bits.testBit j := by
  rw [Nat.testBit_or, Nat.one_shiftLeft, Nat.testBit_two_pow]
  by_cases hj : j = i
  · simp [hj]
  · simp [hj, Ne.symm hj]

theorem remove_of_beyond (hi : s.capacity ≤ i) : s.remove i = (s, false) := by
  have hdenied : s.contains i = false := by
    simp [contains, Nat.not_lt.mpr hi]
  simp [remove, hdenied]

theorem remove_answer_eq (s : BitSet) (i : Nat) : (s.remove i).2 = s.contains i := by
  unfold remove
  cases s.contains i <;> rfl

theorem capacity_remove (s : BitSet) (i : Nat) : (s.remove i).1.capacity = s.capacity := by
  unfold remove
  split
  · rfl
  · rfl

theorem room_remove (s : BitSet) (i : Nat) : (s.remove i).1.room = s.room := by
  rw [room, room, capacity_remove]

theorem testBit_remove (hi : i < s.capacity) (j : Nat) :
    (s.remove i).1.bits.testBit j = if j = i then false else s.bits.testBit j := by
  have hcontains : s.contains i = s.bits.testBit i := by simp [contains, hi]
  unfold remove
  rw [hcontains]
  cases hbit : s.bits.testBit i with
  | true =>
      show (s.bits ^^^ 1 <<< i).testBit j = _
      rw [Nat.testBit_xor, Nat.one_shiftLeft, Nat.testBit_two_pow]
      by_cases hj : j = i
      · simp [hj, hbit]
      · simp [hj, Ne.symm hj]
  | false =>
      show s.bits.testBit j = _
      by_cases hj : j = i
      · simp [hj, hbit]
      · simp [hj]

theorem testBit_of_remove {j : Nat} (h : (s.remove i).1.bits.testBit j = true) :
    s.bits.testBit j = true := by
  by_cases hi : i < s.capacity
  · rw [testBit_remove hi] at h
    split at h
    · cases h
    · exact h
  · rw [remove_of_beyond (Nat.le_of_not_lt hi)] at h
    exact h

theorem testBit_union (s t : BitSet) (i : Nat) :
    (s.union t).1.bits.testBit i =
      (s.bits.testBit i || (decide (i < s.room) && t.bits.testBit i)) := by
  simp [union, Nat.one_shiftLeft]

theorem testBit_difference (s t : BitSet) (i : Nat) :
    (s.difference t).bits.testBit i = (s.bits.testBit i && !t.bits.testBit i) := by
  unfold difference
  rw [Nat.testBit_xor, Nat.testBit_and]
  cases s.bits.testBit i <;> cases t.bits.testBit i <;> rfl

theorem union_changed_iff :
    (s.union t).2 = true <->
      exists i, i < s.room ∧ t.bits.testBit i = true ∧ s.bits.testBit i = false := by
  have hflag : (s.union t).2 = true <-> (s.union t).1.bits ≠ s.bits := bne_iff_ne
  rw [hflag]
  constructor
  · intro h
    rcases Nat.exists_testBit_ne_of_ne h with ⟨i, hi⟩
    rw [testBit_union] at hi
    refine ⟨i, ?_⟩
    cases hmine : s.bits.testBit i with
    | true => simp [hmine] at hi
    | false => simpa [hmine] using hi
  · intro h hsame
    rcases h with ⟨i, hi, htheirs, hmine⟩
    have hbit := testBit_union s t i
    rw [hsame, hmine, htheirs] at hbit
    simp [hi] at hbit

/-!
# Members and room
-/

def InRoom (s : BitSet) : Prop := forall i, s.bits.testBit i = true -> i < s.room

theorem capacity_le_room (s : BitSet) : s.capacity ≤ s.room := by
  unfold room
  omega

theorem inRoom_empty (n : Nat) : (empty n).InRoom := by
  intro i h
  simp [empty] at h

theorem inRoom_insert {new : Bool} (h : s.InRoom) (hinsert : s.insert i = .ok (t, new)) :
    t.InRoom := by
  have hi := lt_of_insert_ok hinsert
  rw [insert_of_fits hi] at hinsert
  cases hinsert
  intro j hj
  rw [testBit_inserted] at hj
  split at hj
  · rename_i hsame
    rw [hsame]
    exact Nat.lt_of_lt_of_le hi (capacity_le_room s)
  · exact h j hj

theorem inRoom_remove (hs : s.InRoom) (i : Nat) : (s.remove i).1.InRoom := by
  intro j hj
  rw [room_remove]
  exact hs j (testBit_of_remove hj)

theorem inRoom_union (hs : s.InRoom) (t : BitSet) : (s.union t).1.InRoom := by
  intro i h
  rw [testBit_union, Bool.or_eq_true, Bool.and_eq_true, decide_eq_true_eq] at h
  rcases h with hmine | htheirs
  · exact hs i hmine
  · exact htheirs.left

theorem inRoom_difference (hs : s.InRoom) (t : BitSet) : (s.difference t).InRoom := by
  intro i h
  rw [testBit_difference, Bool.and_eq_true] at h
  exact hs i h.left

theorem mem_members_iff (h : s.InRoom) : i ∈ s.members <-> s.bits.testBit i = true := by
  rw [members, List.mem_filter, List.mem_range, and_iff_right_of_imp (h i)]

theorem pairwise_members (s : BitSet) : s.members.Pairwise (· < ·) :=
  List.pairwise_lt_range.filter _

theorem contains_iff : s.contains i = true <-> i < s.capacity ∧ i ∈ s.members := by
  unfold contains members
  rw [Bool.and_eq_true, decide_eq_true_eq, List.mem_filter, List.mem_range]
  have hroom := capacity_le_room s
  constructor
  · intro h
    exact ⟨h.left, Nat.lt_of_lt_of_le h.left hroom, h.right⟩
  · intro h
    exact ⟨h.left, h.right.right⟩

theorem isEmpty_iff (h : s.InRoom) : s.isEmpty = true <-> s.members = [] := by
  rw [isEmpty, beq_iff_eq, List.eq_nil_iff_forall_not_mem]
  simp only [mem_members_iff h, Bool.not_eq_true]
  constructor
  · intro hzero i
    rw [hzero, Nat.zero_testBit]
  · exact Nat.zero_of_testBit_eq_false

theorem eq_of_members (hs : s.InRoom) (ht : t.InRoom) (hcapacity : s.capacity = t.capacity)
    (h : forall i, i ∈ s.members <-> i ∈ t.members) : s = t := by
  have hbits : s.bits = t.bits := by
    apply Nat.eq_of_testBit_eq
    intro i
    rw [Bool.eq_iff_iff, ← mem_members_iff hs, ← mem_members_iff ht]
    exact h i
  cases s
  cases t
  cases hcapacity
  cases hbits
  rfl

/-!
# Free marks
-/

def free (marks : BitSet) : List Nat :=
  (List.range marks.capacity).filter fun i => !marks.bits.testBit i

theorem free_empty (n : Nat) : (empty n).free = List.range n := by
  simp [free, empty]

theorem nodup_free (marks : BitSet) : marks.free.Nodup := List.nodup_range.filter _

theorem lt_capacity_of_mem_free (h : i ∈ s.free) : i < s.capacity :=
  List.mem_range.mp (List.mem_filter.mp h).left

theorem insert_of_lt (hi : i < s.capacity) :
    exists marked, s.insert i = .ok (marked, decide (i ∈ s.free)) ∧
      marked.capacity = s.capacity ∧ marked.free = s.free.erase i := by
  have hnew : (!s.bits.testBit i) = decide (i ∈ s.free) := by
    simp [free, hi]
  refine ⟨⟨s.capacity, s.bits ||| 1 <<< i⟩, ?_, rfl, ?_⟩
  · rw [insert_of_fits hi, hnew]
  · rw [(nodup_free s).erase_eq_filter]
    unfold free
    rw [List.filter_filter]
    apply List.filter_congr
    intro j _
    rw [testBit_inserted]
    by_cases hj : j = i
    · simp [hj]
    · simp [hj]

theorem insert_ok_cases {new : Bool} (h : s.insert i = .ok (t, new)) :
    t.capacity = s.capacity ∧ t.free = s.free.erase i ∧ new = decide (i ∈ s.free) := by
  rcases insert_of_lt (lt_of_insert_ok h) with ⟨marked, hinsert, hcapacity, hfree⟩
  cases hinsert.symm.trans h
  exact ⟨hcapacity, hfree, rfl⟩

/-!
# Sets within their capacity
-/

def Within (marks : BitSet) : Prop :=
  forall i, marks.bits.testBit i = true -> i < marks.capacity

theorem within_empty (n : Nat) : (empty n).Within := by
  intro i h
  simp [empty] at h

theorem within_insert {new : Bool} (h : s.Within) (hinsert : s.insert i = .ok (t, new)) :
    t.Within := by
  have hi := lt_of_insert_ok hinsert
  rw [insert_of_fits hi] at hinsert
  cases hinsert
  intro j hj
  rw [testBit_inserted] at hj
  split at hj
  · rename_i hsame
    exact hsame ▸ hi
  · exact h j hj

theorem within_iff (h : s.InRoom) : s.Within <-> forall i, i ∈ s.members -> i < s.capacity := by
  simp only [mem_members_iff h]
  rfl

theorem count_add_free (h : s.Within) : s.count + s.free.length = s.capacity := by
  have hbeyond : ((List.range (s.room - s.capacity)).map (s.capacity + ·)).filter
      s.bits.testBit = [] := by
    apply List.filter_eq_nil_iff.mpr
    intro j hj hmarked
    rcases List.mem_map.mp hj with ⟨k, _, rfl⟩
    exact absurd (h _ hmarked) (Nat.not_lt.mpr (Nat.le_add_right _ k))
  have hmembers : s.members = (List.range s.capacity).filter s.bits.testBit := by
    unfold members
    rw [← Nat.add_sub_cancel' (capacity_le_room s), List.range_add, List.filter_append, hbeyond,
      List.append_nil]
  calc s.count + s.free.length
      = (List.range s.capacity).countP s.bits.testBit +
          (List.range s.capacity).countP (fun i => !s.bits.testBit i) := by
        rw [count, hmembers, free, List.countP_eq_length_filter, List.countP_eq_length_filter]
    _ = (List.range s.capacity).length := by
        have hsplit := List.length_eq_countP_add_countP s.bits.testBit
          (l := List.range s.capacity)
        simpa using hsplit.symm
    _ = s.capacity := List.length_range

/-!
# Sets of given members
-/

section OfMembers

variable {capacity bits : Nat} {members : List Nat}

theorem filter_fitting (h : forall i, i ∈ members -> i < capacity) :
    members.filter (· < capacity) = members := by
  rw [List.filter_eq_self]
  intro i hi
  exact decide_eq_true (h i hi)

theorem testBit_foldl :
    (members.foldl (fun bits i => bits ||| 1 <<< i) bits).testBit i =
      (bits.testBit i || decide (i ∈ members)) := by
  induction members generalizing bits with
  | nil => simp
  | cons j rest ih =>
      rw [List.foldl_cons, ih, testBit_inserted]
      by_cases hi : i = j
      · simp [hi]
      · simp [hi]

theorem mem_members_ofMembers (h : forall i, i ∈ members -> i < capacity) :
    i ∈ (ofMembers capacity members).members <-> i ∈ members := by
  have hroom : capacity ≤ (ofMembers capacity members).room :=
    capacity_le_room (ofMembers capacity members)
  rw [BitSet.members, List.mem_filter, List.mem_range, ofMembers, filter_fitting h, testBit_foldl]
  simp only [Nat.zero_testBit, Bool.false_or, decide_eq_true_eq, and_iff_right_iff_imp]
  intro hi
  exact Nat.lt_of_lt_of_le (h i hi) hroom

end OfMembers

/-!
# Subsets
-/

variable {subset other : Finset Nat}

/-- The bits mark a subset of the numbers below the capacity `n`. -/
structure Marks (s : BitSet) (n : Nat) (subset : Finset Nat) : Prop where
  capacity : s.capacity = n
  bounded : subset ⊆ Finset.range n
  bits : forall i, s.bits.testBit i = decide (i ∈ subset)

theorem Marks.lt_capacity (h : s.Marks n subset) (hi : i ∈ subset) : i < s.capacity := by
  rw [h.capacity]
  exact Finset.mem_range.mp (h.bounded hi)

theorem Marks.within (h : s.Marks n subset) : s.Within := by
  intro i hi
  rw [h.bits, decide_eq_true_eq] at hi
  exact h.lt_capacity hi

theorem Marks.inRoom (h : s.Marks n subset) : s.InRoom := fun i hi =>
  Nat.lt_of_lt_of_le (h.within i hi) (capacity_le_room s)

theorem Marks.mem_members_iff (h : s.Marks n subset) : i ∈ s.members <-> i ∈ subset := by
  rw [BitSet.mem_members_iff h.inRoom, h.bits, decide_eq_true_eq]

theorem Marks.contains_eq (h : s.Marks n subset) (i : Nat) :
    s.contains i = decide (i ∈ subset) := by
  unfold contains
  rw [h.bits]
  by_cases hi : i ∈ subset
  · simp [hi, h.lt_capacity hi]
  · simp [hi]

theorem marks_empty (n : Nat) : (empty n).Marks n ∅ :=
  ⟨rfl, Finset.empty_subset _, fun i => by simp [empty]⟩

theorem Marks.inserted (h : s.Marks n subset) (hi : i < n) :
    Marks ⟨s.capacity, s.bits ||| 1 <<< i⟩ n (subset ∪ {i}) := by
  refine ⟨h.capacity, ?_, ?_⟩
  · apply Finset.union_subset h.bounded
    exact Finset.singleton_subset_iff.mpr (Finset.mem_range.mpr hi)
  · intro j
    show (s.bits ||| 1 <<< i).testBit j = _
    rw [testBit_inserted, h.bits]
    by_cases hj : j = i
    · simp [hj]
    · simp [hj]

def insertAll (s : BitSet) (members : List Nat) : Except Fault BitSet :=
  members.foldlM (fun s i => do return (← s.insert i).1) s

theorem Marks.insertAll {members : List Nat} (hs : s.Marks n subset)
    (hfits : forall i, i ∈ members -> i < n) :
    exists t, s.insertAll members = .ok t ∧ t.Marks n (subset ∪ members.toFinset) := by
  induction members generalizing s subset with
  | nil => exact ⟨s, rfl, by simpa using hs⟩
  | cons i rest ih =>
      have hi : i < n := hfits i List.mem_cons_self
      rcases ih (hs.inserted hi) fun j hj => hfits j (List.mem_cons_of_mem i hj) with
        ⟨t, hrest, ht⟩
      refine ⟨t, ?_, ?_⟩
      · rw [BitSet.insertAll, List.foldlM_cons, insert_of_fits (hs.capacity ▸ hi)]
        exact hrest
      · rwa [List.toFinset_cons, Finset.insert_eq, ← Finset.union_assoc]

theorem Marks.remove (h : s.Marks n subset) (i : Nat) :
    (s.remove i).1.Marks n (subset \ {i}) := by
  by_cases hi : i < s.capacity
  · refine ⟨(capacity_remove s i).trans h.capacity, Finset.sdiff_subset.trans h.bounded, ?_⟩
    intro j
    rw [testBit_remove hi, h.bits]
    by_cases hj : j = i
    · simp [hj]
    · simp [hj]
  · have habsent : i ∉ subset := fun hmem => hi (h.lt_capacity hmem)
    have hapart : Disjoint subset {i} := Finset.disjoint_singleton_right.mpr habsent
    rw [remove_of_beyond (Nat.le_of_not_lt hi), Finset.sdiff_eq_self_of_disjoint hapart]
    exact h

theorem Marks.lt_room (hs : s.Marks n subset) (ht : t.Marks n other) (hi : i ∈ other) :
    i < s.room := by
  have hcapacity : t.capacity = s.capacity := ht.capacity.trans hs.capacity.symm
  exact Nat.lt_of_lt_of_le (hcapacity ▸ ht.lt_capacity hi) (capacity_le_room s)

theorem Marks.union (hs : s.Marks n subset) (ht : t.Marks n other) :
    (s.union t).1.Marks n (subset ∪ other) := by
  refine ⟨hs.capacity, Finset.union_subset hs.bounded ht.bounded, ?_⟩
  intro i
  rw [testBit_union, hs.bits, ht.bits]
  by_cases hi : i ∈ other
  · simp [hi, hs.lt_room ht hi]
  · simp [hi]

theorem Marks.union_gained (hs : s.Marks n subset) (ht : t.Marks n other) :
    (s.union t).2 = decide (exists i, i ∈ other ∧ i ∉ subset) := by
  rw [Bool.eq_iff_iff, union_changed_iff, decide_eq_true_eq]
  simp only [hs.bits, ht.bits, decide_eq_true_eq, decide_eq_false_iff_not]
  constructor
  · intro h
    rcases h with ⟨i, _, hi, hnew⟩
    exact ⟨i, hi, hnew⟩
  · intro h
    rcases h with ⟨i, hi, hnew⟩
    exact ⟨i, hs.lt_room ht hi, hi, hnew⟩

theorem Marks.difference (hs : s.Marks n subset) (ht : t.Marks n other) :
    (s.difference t).Marks n (subset \ other) := by
  refine ⟨hs.capacity, Finset.sdiff_subset.trans hs.bounded, ?_⟩
  intro i
  rw [testBit_difference, hs.bits, ht.bits]
  simp

theorem Marks.eq_iff (hs : s.Marks n subset) (ht : t.Marks n other) :
    s = t <-> subset = other := by
  constructor
  · intro h
    ext i
    rw [← hs.mem_members_iff, ← ht.mem_members_iff, h]
  · intro h
    apply eq_of_members hs.inRoom ht.inRoom (hs.capacity.trans ht.capacity.symm)
    intro i
    rw [hs.mem_members_iff, ht.mem_members_iff, h]

end BitSet
end SafeRestart
