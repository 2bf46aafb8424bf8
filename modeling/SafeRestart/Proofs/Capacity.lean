import SafeRestart.Proofs.Words

/-!
# Members beyond the capacity

Union and difference work on whole words, so a union takes over from the other set whatever lies in
its own words.  Members between the capacity and the end of the last word are listed and counted
but not contained.  A union is what it should be exactly when neither set has a member there, and a
difference exactly when it takes away all such members.  Among sets that have none, only a union
with a set of larger capacity can bring them in.
-/

namespace SafeRestart
namespace BitSet

variable {s t : BitSet} {i : Nat}

/-- Sets as the operations make them, when no other unions are made than the given ones. -/
inductive Made (joins : BitSet -> BitSet -> Prop) : BitSet -> Prop where
  | empty (capacity : Nat) : Made joins (empty capacity)
  | insert {s t : BitSet} {i : Nat} {new : Bool} : Made joins s -> s.insert i = .ok (t, new) ->
      Made joins t
  | remove {s : BitSet} (i : Nat) : Made joins s -> Made joins (s.remove i).1
  | clear {s : BitSet} : Made joins s -> Made joins s.clear
  | union {s t : BitSet} : Made joins s -> Made joins t -> joins s t -> Made joins (s.union t).1
  | difference {s t : BitSet} : Made joins s -> Made joins t -> Made joins (s.difference t)

def Built : BitSet -> Prop := Made fun _ _ => True

/-- The last word of `s` cannot hold members of `t` beyond the capacity of `s`. -/
def Covers (s t : BitSet) : Prop := t.capacity ≤ s.capacity ∨ 64 ∣ s.capacity

/-!
# Room and capacity
-/

theorem inRoom_of_made {joins : BitSet -> BitSet -> Prop} (h : Made joins s) : s.InRoom := by
  induction h with
  | empty capacity => exact inRoom_empty capacity
  | insert _ hinsert ih => exact inRoom_insert ih hinsert
  | remove i _ ih => exact inRoom_remove ih i
  | @clear s _ _ => exact inRoom_empty s.capacity
  | union _ _ _ ih _ => exact inRoom_union ih _
  | difference _ _ ih _ => exact inRoom_difference ih _

/-!
# Ways to look at a set
-/

structure Agrees (s : BitSet) : Prop where
  listed : forall i, i ∈ s.members <-> s.contains i = true
  counted : s.count = ((Finset.range s.capacity).filter fun i => s.contains i = true).card
  vacant : s.isEmpty = true <-> forall i, s.contains i = false

theorem agrees_iff (h : s.InRoom) : s.Agrees <-> s.Within := by
  rw [within_iff h]
  constructor
  · intro hagrees i hi
    exact (contains_iff.mp ((hagrees.listed i).mp hi)).left
  · intro hwithin
    have hlisted : forall i, i ∈ s.members <-> s.contains i = true := by
      intro i
      rw [contains_iff, iff_and_self]
      exact hwithin i
    refine ⟨hlisted, ?_, ?_⟩
    · have hnodup : s.members.Nodup := (pairwise_members s).imp fun hlt => Nat.ne_of_lt hlt
      rw [count, ← List.toFinset_card_of_nodup hnodup]
      congr 1
      ext i
      rw [List.mem_toFinset, Finset.mem_filter, Finset.mem_range, hlisted,
        and_iff_right_of_imp fun hi => (contains_iff.mp hi).left]
    · rw [isEmpty_iff h, List.eq_nil_iff_forall_not_mem]
      simp only [hlisted, Bool.not_eq_true]

/-!
# Union
-/

variable {a b : BitSet}

theorem mem_union_iff (ha : a.InRoom) (hb : b.InRoom) :
    i ∈ (a.union b).1.members <-> i < a.room ∧ (i ∈ a.members ∨ i ∈ b.members) := by
  rw [mem_members_iff (inRoom_union ha b), mem_members_iff ha, mem_members_iff hb, testBit_union,
    Bool.or_eq_true, Bool.and_eq_true, decide_eq_true_eq]
  constructor
  · intro h
    rcases h with hmine | ⟨hroom, htheirs⟩
    · exact ⟨ha i hmine, Or.inl hmine⟩
    · exact ⟨hroom, Or.inr htheirs⟩
  · intro h
    rcases h with ⟨hroom, hmine | htheirs⟩
    · exact Or.inl hmine
    · exact Or.inr ⟨hroom, htheirs⟩

theorem union_gains_iff (ha : a.InRoom) (hb : b.InRoom) :
    (a.union b).2 = true <-> exists i, i < a.room ∧ i ∈ b.members ∧ i ∉ a.members := by
  rw [union_changed_iff]
  simp only [mem_members_iff ha, mem_members_iff hb, Bool.not_eq_true]

/-- The answer to a union: the members of both sets below the capacity of the first, and whether one
of them is new to it. -/
structure UnionAnswer (a b joined : BitSet) (gained : Bool) : Prop where
  ascending : joined.members.Pairwise (· < ·)
  members : forall i, i ∈ joined.members <-> i < a.capacity ∧ (i ∈ a.members ∨ i ∈ b.members)
  gained : gained = true <-> exists i, i < a.capacity ∧ i ∈ b.members ∧ i ∉ a.members
  agrees : joined.Agrees

def TailClear (a b : BitSet) : Prop :=
  forall i, a.capacity ≤ i -> i < a.room -> i ∉ b.members

theorem lt_capacity_of_tailClear (h : a.TailClear b) (hroom : i < a.room) (hi : i ∈ b.members) :
    i < a.capacity := by
  by_contra hbeyond
  exact h i (Nat.le_of_not_lt hbeyond) hroom hi

theorem unionAnswer_iff (ha : a.InRoom) (hb : b.InRoom) :
    UnionAnswer a b (a.union b).1 (a.union b).2 <-> a.TailClear a ∧ a.TailClear b := by
  constructor
  · intro h
    constructor
    · intro i hbeyond hroom hi
      have hjoined := (mem_union_iff ha hb).mpr ⟨hroom, Or.inl hi⟩
      exact absurd ((h.members i).mp hjoined).left (Nat.not_lt.mpr hbeyond)
    · intro i hbeyond hroom hi
      have hjoined := (mem_union_iff ha hb).mpr ⟨hroom, Or.inr hi⟩
      exact absurd ((h.members i).mp hjoined).left (Nat.not_lt.mpr hbeyond)
  · intro h
    rcases h with ⟨hmine, htheirs⟩
    have hmembers : forall i, i ∈ (a.union b).1.members <->
        i < a.capacity ∧ (i ∈ a.members ∨ i ∈ b.members) := by
      intro i
      rw [mem_union_iff ha hb]
      constructor
      · intro hi
        rcases hi with ⟨hroom, hi | hi⟩
        · exact ⟨lt_capacity_of_tailClear hmine hroom hi, Or.inl hi⟩
        · exact ⟨lt_capacity_of_tailClear htheirs hroom hi, Or.inr hi⟩
      · intro hi
        exact ⟨Nat.lt_of_lt_of_le hi.left (capacity_le_room a), hi.right⟩
    refine ⟨pairwise_members _, hmembers, ?_, ?_⟩
    · rw [union_gains_iff ha hb]
      constructor
      · intro hgain
        rcases hgain with ⟨i, hroom, hi, hnew⟩
        exact ⟨i, lt_capacity_of_tailClear htheirs hroom hi, hi, hnew⟩
      · intro hgain
        rcases hgain with ⟨i, hcapacity, hi, hnew⟩
        exact ⟨i, Nat.lt_of_lt_of_le hcapacity (capacity_le_room a), hi, hnew⟩
    · rw [agrees_iff (inRoom_union ha b), within_iff (inRoom_union ha b)]
      intro i hi
      exact ((hmembers i).mp hi).left

theorem tailClear_of_within (hb : b.InRoom) (hwithin : b.Within) (hcovers : a.Covers b) :
    a.TailClear b := by
  intro i hbeyond hroom hi
  have hlt := (within_iff hb).mp hwithin i hi
  rcases hcovers with hsmaller | hwhole
  · omega
  · unfold room at hroom
    omega

theorem unionAnswer_of_within (ha : a.InRoom) (hb : b.InRoom) (hmine : a.Within)
    (htheirs : b.Within) (hcovers : a.Covers b) :
    UnionAnswer a b (a.union b).1 (a.union b).2 := by
  apply (unionAnswer_iff ha hb).mpr
  constructor
  · exact tailClear_of_within ha hmine (Or.inl (Nat.le_refl _))
  · exact tailClear_of_within hb htheirs hcovers

/-!
# Difference
-/

theorem mem_difference_iff (ha : a.InRoom) (hb : b.InRoom) :
    i ∈ (a.difference b).members <-> i ∈ a.members ∧ i ∉ b.members := by
  rw [mem_members_iff (inRoom_difference ha b), mem_members_iff ha, mem_members_iff hb,
    testBit_difference]
  simp

structure DifferenceAnswer (a b remaining : BitSet) : Prop where
  ascending : remaining.members.Pairwise (· < ·)
  members : forall i, i ∈ remaining.members <-> i ∈ a.members ∧ i ∉ b.members
  agrees : remaining.Agrees

theorem differenceAnswer_iff (ha : a.InRoom) (hb : b.InRoom) :
    DifferenceAnswer a b (a.difference b) <->
      forall i, a.capacity ≤ i -> i ∈ a.members -> i ∈ b.members := by
  have hmembers : forall i, i ∈ (a.difference b).members <-> i ∈ a.members ∧ i ∉ b.members :=
    fun i => mem_difference_iff ha hb
  have hroom := inRoom_difference ha b
  constructor
  · intro h i hbeyond hi
    by_contra hkept
    have hwithin := (within_iff hroom).mp ((agrees_iff hroom).mp h.agrees)
    have hlt := hwithin i ((hmembers i).mpr ⟨hi, hkept⟩)
    exact absurd hlt (Nat.not_lt.mpr hbeyond)
  · intro h
    refine ⟨pairwise_members _, hmembers, (agrees_iff hroom).mpr ((within_iff hroom).mpr ?_)⟩
    intro i hi
    rcases (hmembers i).mp hi with ⟨hmine, hkept⟩
    by_contra hbeyond
    exact hkept (h i (Nat.le_of_not_lt hbeyond) hmine)

theorem differenceAnswer_of_within (ha : a.InRoom) (hb : b.InRoom) (hmine : a.Within) :
    DifferenceAnswer a b (a.difference b) := by
  apply (differenceAnswer_iff ha hb).mpr
  intro i hbeyond hi
  exact absurd ((within_iff ha).mp hmine i hi) (Nat.not_lt.mpr hbeyond)

/-!
# Sets without members beyond the capacity
-/

theorem within_of_made (h : Made Covers s) : s.Within := by
  induction h with
  | empty capacity => exact within_empty capacity
  | insert _ hinsert ih => exact within_insert ih hinsert
  | remove i _ ih =>
      intro j hj
      rw [capacity_remove]
      exact ih j (testBit_of_remove hj)
  | @clear s _ _ => exact within_empty s.capacity
  | @union s t hs ht hcovers ihs iht =>
      have hroom := inRoom_of_made hs
      have hanswer := unionAnswer_of_within hroom (inRoom_of_made ht) ihs iht hcovers
      exact (agrees_iff (inRoom_union hroom t)).mp hanswer.agrees
  | @difference s t hs ht ihs _ =>
      have hroom := inRoom_of_made hs
      have hanswer := differenceAnswer_of_within hroom (inRoom_of_made ht) ihs
      exact (agrees_iff (inRoom_difference hroom t)).mp hanswer.agrees

theorem combined_sets_exact (a b : BitSet) (ha : a.Built) (hb : b.Built) :
    (a.packed.union b.packed = ((a.union b).1.packed, (a.union b).2) ∧
      (a.packed.union b.packed).1.Shows (a.union b).1) ∧
    (a.packed.difference b.packed = (a.difference b).packed ∧
      (a.packed.difference b.packed).Shows (a.difference b)) ∧
    ((a.union b).1.members.Pairwise (· < ·) ∧
      (forall i, i ∈ (a.union b).1.members <-> i < a.room ∧ (i ∈ a.members ∨ i ∈ b.members)) ∧
      (forall i, (a.union b).1.contains i = true <->
        i < a.capacity ∧ (i ∈ a.members ∨ i ∈ b.members)) ∧
      ((a.union b).2 = true <-> exists i, i < a.room ∧ i ∈ b.members ∧ i ∉ a.members)) ∧
    ((a.difference b).members.Pairwise (· < ·) ∧
      forall i, i ∈ (a.difference b).members <-> i ∈ a.members ∧ i ∉ b.members) ∧
    (UnionAnswer a b (a.union b).1 (a.union b).2 <->
      forall i, a.capacity ≤ i -> i < a.room -> i ∉ a.members ∧ i ∉ b.members) ∧
    (DifferenceAnswer a b (a.difference b) <->
      forall i, a.capacity ≤ i -> i ∈ a.members -> i ∈ b.members) ∧
    (Made Covers a -> Made Covers b ->
      (a.Covers b -> UnionAnswer a b (a.union b).1 (a.union b).2) ∧
        DifferenceAnswer a b (a.difference b)) := by
  have hroom : a.InRoom := inRoom_of_made ha
  have hroom' : b.InRoom := inRoom_of_made hb
  have hunion := packed_union hroom hroom'
  have hdifference := packed_difference hroom hroom'
  refine ⟨⟨hunion, ?_⟩, ⟨hdifference, ?_⟩,
    ⟨pairwise_members _, ?_, ?_, union_gains_iff hroom hroom'⟩, ⟨pairwise_members _, ?_⟩, ?_,
    differenceAnswer_iff hroom hroom', ?_⟩
  · rw [hunion]
    exact shows_packed (inRoom_union hroom b)
  · rw [hdifference]
    exact shows_packed (inRoom_difference hroom b)
  · intro i
    exact mem_union_iff hroom hroom'
  · intro i
    rw [contains_iff, mem_union_iff hroom hroom']
    constructor
    · intro hi
      exact ⟨hi.left, hi.right.right⟩
    · intro hi
      exact ⟨hi.left, Nat.lt_of_lt_of_le hi.left (capacity_le_room a), hi.right⟩
  · intro i
    exact mem_difference_iff hroom hroom'
  · rw [unionAnswer_iff hroom hroom']
    constructor
    · intro h i hbeyond hi
      exact ⟨h.left i hbeyond hi, h.right i hbeyond hi⟩
    · intro h
      exact ⟨fun i hbeyond hi => (h i hbeyond hi).left, fun i hbeyond hi => (h i hbeyond hi).right⟩
  · intro hmade hmade'
    have hmine := within_of_made hmade
    exact ⟨unionAnswer_of_within hroom hroom' hmine (within_of_made hmade'),
      differenceAnswer_of_within hroom hroom' hmine⟩

/-!
Two sets of different capacity with members on both sides of a word boundary.  The last word of the
first has room beyond its capacity, but the second has nothing to put there.
-/

def pier : BitSet := ⟨70, 1 <<< 3 ||| 1 <<< 69⟩

def quay : BitSet := ⟨66, 1 <<< 3 ||| 1 <<< 65⟩

theorem made_pier (joins : BitSet -> BitSet -> Prop) : Made joins pier := by
  have hfirst : (empty 70).insert 3 = .ok (⟨70, 1 <<< 3⟩, true) := rfl
  have hsecond : insert ⟨70, 1 <<< 3⟩ 69 = .ok (pier, true) := rfl
  exact ((Made.empty 70).insert hfirst).insert hsecond

theorem made_quay (joins : BitSet -> BitSet -> Prop) : Made joins quay := by
  have hfirst : (empty 66).insert 3 = .ok (⟨66, 1 <<< 3⟩, true) := rfl
  have hsecond : insert ⟨66, 1 <<< 3⟩ 65 = .ok (quay, true) := rfl
  exact ((Made.empty 66).insert hfirst).insert hsecond

theorem pier_joins_quay :
    pier.Built ∧ quay.Built ∧ (pier.union quay).1.members = [3, 65, 69] ∧
      (pier.packed.union quay.packed).1.members = [3, 65, 69] ∧
      UnionAnswer pier quay (pier.union quay).1 (pier.union quay).2 ∧
      DifferenceAnswer pier quay (pier.difference quay) := by
  rcases combined_sets_exact pier quay (made_pier _) (made_quay _) with
    ⟨⟨_, hshows⟩, _, _, _, _, _, hmade⟩
  have hmembers : (pier.union quay).1.members = [3, 65, 69] := by decide
  rcases hmade (made_pier _) (made_quay _) with ⟨hunion, hdifference⟩
  exact ⟨made_pier _, made_quay _, hmembers, hshows.members.trans hmembers,
    hunion (Or.inl (by decide)), hdifference⟩

/-!
The union of an empty set of capacity 10 with a set that holds 15 reports a new member, lists it and
counts it, and yet 15 is not contained.  A difference with another set of capacity 10 keeps it.
-/

def jetty : BitSet := empty 10

def berth : BitSet := ⟨20, 1 <<< 15⟩

theorem jetty_lists_beyond_capacity :
    (jetty.Built ∧ berth.Built) ∧
    ((jetty.union berth).2 = true ∧ (jetty.union berth).1.members = [15] ∧
      (jetty.union berth).1.count = 1 ∧ (jetty.union berth).1.isEmpty = false ∧
      forall i, (jetty.union berth).1.contains i = false) ∧
    ¬ UnionAnswer jetty berth (jetty.union berth).1 (jetty.union berth).2 ∧
    ((jetty.union berth).1.difference jetty).members = [15] ∧
    ¬ DifferenceAnswer (jetty.union berth).1 jetty ((jetty.union berth).1.difference jetty) := by
  have hberth : berth.Built := by
    have hinsert : (empty 20).insert 15 = .ok (berth, true) := rfl
    exact (Made.empty 20).insert hinsert
  have hmembers : (jetty.union berth).1.members = [15] := by decide
  have hdenied : forall i, (jetty.union berth).1.contains i = false := by
    intro i
    by_contra hcontains
    rw [Bool.not_eq_false, contains_iff, hmembers, List.mem_singleton] at hcontains
    have hbelow : i < 10 := hcontains.left
    omega
  have hkept : 15 ∈ ((jetty.union berth).1.difference jetty).members := by decide
  refine ⟨⟨Made.empty 10, hberth⟩, ⟨rfl, hmembers, by decide, rfl, hdenied⟩, ?_, by decide, ?_⟩
  · intro h
    have hlisted := (h.members 15).mp (by decide)
    exact absurd hlisted.left (by decide)
  · intro h
    have hlisted := (h.agrees.listed 15).mp hkept
    exact absurd hlisted (by decide)

end BitSet
end SafeRestart
