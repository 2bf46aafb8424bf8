import Mathlib.Data.Int.ConditionallyCompleteOrder
import Mathlib.Order.CompletePartialOrder
import Mathlib.Order.ConditionallyCompleteLattice.Basic
import Mathlib.Order.Interval.Set.Disjoint
import Mathlib.Tactic.Tauto
import SafeRestart.Function.Assembly
import SafeRestart.Hazard

/-!
# Ranges of bytes

A memory location stands for the bytes from its offset on, however far they reach.  The ends that
are compared stop at the largest offset, though.  As long as neither of two locations starts there,
the comparison tells exactly whether they share a byte.  A location that starts at the largest
offset is told apart from every other one, also from those that hold its first byte.
-/

namespace SafeRestart
namespace MemoryLocation

def bytes (location : MemoryLocation) : Set Int :=
  Set.Ico location.address.offset.toInt (location.address.offset.toInt + location.size.toNat)

def SameRange (a b : MemoryLocation) : Prop :=
  a.address.offset = b.address.offset ∧ a.size = b.size

def AtTop (location : MemoryLocation) : Prop := location.address.offset = Int64.maxValue

instance (a b : MemoryLocation) : Decidable (a.SameRange b) :=
  inferInstanceAs (Decidable (a.address.offset = b.address.offset ∧ a.size = b.size))

instance (location : MemoryLocation) : Decidable location.AtTop :=
  inferInstanceAs (Decidable (location.address.offset = Int64.maxValue))

structure RangeAnswer (a b : MemoryLocation) (answer : AliasResult) : Prop where
  same : a.SameRange b -> answer = .mustAlias
  apart : answer = .noAlias <-> Disjoint a.bytes b.bytes
  partly : ¬ a.SameRange b -> ¬ Disjoint a.bytes b.bytes -> answer = .mayAlias

variable {a b : MemoryLocation}

/-!
# Ends of ranges
-/

theorem size_pos (ha : a.size ≠ 0) : 0 < a.size.toNat := by
  apply Nat.pos_of_ne_zero
  intro hzero
  exact ha (UInt32.toNat_inj.mp hzero)

theorem offset_mem_bytes (ha : a.size ≠ 0) : a.address.offset.toInt ∈ a.bytes := by
  have hsize := size_pos ha
  exact ⟨le_refl _, by omega⟩

/-- No end lies beyond the largest offset, so the largest offset is never before an end. -/
theorem stop_le_offset_iff {offset : Int64} :
    a.stop ≤ offset.toInt <->
      a.address.offset.toInt + a.size.toNat ≤ offset.toInt ∨ offset = Int64.maxValue := by
  unfold stop
  rw [min_le_iff]
  apply or_congr_right
  constructor
  · intro h
    exact Int64.toInt_inj.mp (le_antisymm (Int64.toInt_le offset) h)
  · intro h
    rw [h]

theorem disjoint_bytes_iff (ha : a.size ≠ 0) (hb : b.size ≠ 0) :
    Disjoint a.bytes b.bytes <->
      a.address.offset.toInt + a.size.toNat ≤ b.address.offset.toInt ∨
        b.address.offset.toInt + b.size.toNat ≤ a.address.offset.toInt := by
  have hsize := size_pos ha
  have hsize' := size_pos hb
  unfold bytes
  rw [Set.Ico_disjoint_Ico]
  omega

theorem not_disjoint_of_sameRange (ha : a.size ≠ 0) (h : a.SameRange b) :
    ¬ Disjoint a.bytes b.bytes := by
  have hsame : a.bytes = b.bytes := by
    unfold bytes
    rw [h.left, h.right]
  rw [← hsame]
  exact Set.not_disjoint_iff.mpr ⟨_, offset_mem_bytes ha, offset_mem_bytes ha⟩

/-!
# Comparing ranges
-/

theorem compareRanges_cases (ha : a.size ≠ 0) (hb : b.size ≠ 0) :
    (a.SameRange b ∧ a.compareRanges b = .mustAlias) ∨
      (¬ a.SameRange b ∧ (Disjoint a.bytes b.bytes ∨ a.AtTop ∨ b.AtTop) ∧
        a.compareRanges b = .noAlias) ∨
      (¬ a.SameRange b ∧ ¬ Disjoint a.bytes b.bytes ∧ ¬ a.AtTop ∧ ¬ b.AtTop ∧
        a.compareRanges b = .mayAlias) := by
  have htest : a.stop ≤ b.address.offset.toInt ∨ b.stop ≤ a.address.offset.toInt <->
      Disjoint a.bytes b.bytes ∨ a.AtTop ∨ b.AtTop := by
    rw [stop_le_offset_iff, stop_le_offset_iff, disjoint_bytes_iff ha hb]
    unfold AtTop
    tauto
  unfold compareRanges
  split
  · rename_i hsame
    exact Or.inl ⟨hsame, rfl⟩
  · rename_i hsame
    split
    · rename_i hapart
      exact Or.inr (Or.inl ⟨hsame, htest.mp hapart, rfl⟩)
    · rename_i hmeet
      have hnone := htest.not.mp hmeet
      rw [not_or, not_or] at hnone
      exact Or.inr (Or.inr ⟨hsame, hnone.left, hnone.right.left, hnone.right.right, rfl⟩)

/-- The comparison is right unless two different ranges share a byte and one of them starts at the
largest offset. -/
theorem rangeAnswer_compareRanges_iff (ha : a.size ≠ 0) (hb : b.size ≠ 0) :
    RangeAnswer a b (a.compareRanges b) <->
      a.SameRange b ∨ Disjoint a.bytes b.bytes ∨ (¬ a.AtTop ∧ ¬ b.AtTop) := by
  rcases compareRanges_cases ha hb with ⟨hsame, hmust⟩ | ⟨hsame, hreason, hno⟩ |
    ⟨hsame, hmeet, hbelow, hbelow', hmay⟩
  · rw [hmust]
    refine iff_of_true ⟨fun _ => rfl, ?_, fun hnot => absurd hsame hnot⟩ (Or.inl hsame)
    exact iff_of_false (by simp) (not_disjoint_of_sameRange ha hsame)
  · rw [hno]
    constructor
    · intro h
      exact Or.inr (Or.inl (h.apart.mp rfl))
    · intro h
      have hapart : Disjoint a.bytes b.bytes := by
        rcases h.resolve_left hsame with hapart | hbelow
        · exact hapart
        · exact hreason.resolve_right (not_or.mpr hbelow)
      exact ⟨fun h => absurd h hsame, iff_of_true rfl hapart, fun _ hmeet => absurd hapart hmeet⟩
  · rw [hmay]
    have hapart : (AliasResult.mayAlias = .noAlias) <-> Disjoint a.bytes b.bytes :=
      iff_of_false (by simp) hmeet
    exact iff_of_true ⟨fun h => absurd h hsame, hapart, fun _ _ => rfl⟩
      (Or.inr (Or.inr ⟨hbelow, hbelow'⟩))

end MemoryLocation

open MemoryLocation

namespace AliasOracle

variable {a b : MemoryLocation}

/-!
# Locations on one base
-/

theorem basic_of_same_base (hbase : a.address.base = b.address.base)
    (hknown : a.address.base ≠ .unknown) (ha : a.size ≠ 0) (hb : b.size ≠ 0) :
    basic a b = a.compareRanges b := by
  have hsizes : ¬ (a.size = 0 ∨ b.size = 0) := not_or.mpr ⟨ha, hb⟩
  unfold basic
  rw [if_neg hsizes, ← hbase]
  cases hcase : a.address.base with
  | unknown => exact absurd hcase hknown
  | object number => simp
  | value inst => simp

theorem basic_exact_below_top (a b : MemoryLocation) (hbase : a.address.base = b.address.base)
    (hknown : a.address.base ≠ .unknown) (ha : a.size ≠ 0) (hb : b.size ≠ 0) :
    (RangeAnswer a b (basic a b) <->
      a.SameRange b ∨ Disjoint a.bytes b.bytes ∨ (¬ a.AtTop ∧ ¬ b.AtTop)) ∧
    (basic a b = .mustAlias <-> a.SameRange b) ∧
    (Disjoint a.bytes b.bytes -> basic a b = .noAlias) ∧
    (basic a b = .noAlias -> ¬ Disjoint a.bytes b.bytes ->
      ¬ a.SameRange b ∧ (a.AtTop ∨ b.AtTop)) := by
  rw [basic_of_same_base hbase hknown ha hb]
  refine ⟨rangeAnswer_compareRanges_iff ha hb, ?_⟩
  rcases compareRanges_cases ha hb with ⟨hsame, hmust⟩ | ⟨hsame, hreason, hno⟩ |
    ⟨hsame, hmeet, _, _, hmay⟩
  · have hmeet := not_disjoint_of_sameRange ha hsame
    rw [hmust]
    exact ⟨iff_of_true rfl hsame, fun hapart => absurd hapart hmeet, by simp⟩
  · rw [hno]
    exact ⟨iff_of_false (by simp) hsame, fun _ => rfl,
      fun _ hmeet => ⟨hsame, hreason.resolve_left hmeet⟩⟩
  · rw [hmay]
    exact ⟨iff_of_false (by simp) hsame, fun hapart => absurd hapart hmeet, by simp⟩

/-!
Ranges that reach beyond the largest offset without starting there are compared as they should be.
The last two bytes of an object and the very last one share a byte as well, and yet they are told
apart: a load of the two is no hazard for a store to the one.
-/

def lastTwo : MemoryLocation := ⟨⟨.object 0, Int64.maxValue - 1⟩, 2⟩

def beyond : MemoryLocation := ⟨⟨.object 0, Int64.maxValue - 3⟩, 8⟩

def lastOne : MemoryLocation := ⟨⟨.object 0, Int64.maxValue⟩, 1⟩

theorem lastTwo_meets_beyond :
    lastTwo.address.base = beyond.address.base ∧ lastTwo.size ≠ 0 ∧ beyond.size ≠ 0 ∧
      basic lastTwo beyond = .mayAlias := by
  have hexact := (basic_exact_below_top lastTwo beyond rfl (by decide) (by decide)
    (by decide)).left.mpr (Or.inr (Or.inr ⟨by decide, by decide⟩))
  have hmeet : ¬ Disjoint lastTwo.bytes beyond.bytes := by
    rw [disjoint_bytes_iff (by decide) (by decide)]
    decide
  exact ⟨rfl, by decide, by decide, hexact.partly (by decide) hmeet⟩

def brink : Function :=
  ⟨"brink", [], ⟨[⟨"brink",
    [{ Operation.load lastTwo.address 2 with id := 0, block := 0, position := 0 },
      { Operation.store lastOne.address 1 with id := 1, block := 0, position := 1 }]⟩], []⟩⟩

theorem lastOne_told_apart :
    (lastTwo.address.base = lastOne.address.base ∧ lastTwo.address.base ≠ .unknown ∧
      lastTwo.size ≠ 0 ∧ lastOne.size ≠ 0) ∧
    (Int64.maxValue.toInt ∈ lastTwo.bytes ∧ Int64.maxValue.toInt ∈ lastOne.bytes) ∧
    basic lastTwo lastOne = .noAlias ∧ ¬ RangeAnswer lastTwo lastOne (basic lastTwo lastOne) ∧
    Function.assemble "brink" [.openBlock "brink", .select 0, .emit (.load lastTwo.address 2),
      .emit (.store lastOne.address 1)] = .ok brink ∧
    brink.hazards basic = [] := by
  have hshared : Int64.maxValue.toInt ∈ lastTwo.bytes ∧ Int64.maxValue.toInt ∈ lastOne.bytes := by
    constructor
    · exact ⟨by decide, by decide⟩
    · exact ⟨by decide, by decide⟩
  have hno : basic lastTwo lastOne = .noAlias := by decide
  refine ⟨⟨rfl, by decide, by decide, by decide⟩, hshared, hno, ?_, rfl, by decide +kernel⟩
  intro hanswer
  exact Set.not_disjoint_iff.mpr ⟨_, hshared⟩ (hanswer.apart.mp hno)

end AliasOracle
end SafeRestart
