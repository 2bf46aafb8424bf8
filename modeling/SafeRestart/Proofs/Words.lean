import Mathlib.Data.List.Sort
import SafeRestart.Proofs.BitSet
import SafeRestart.Proofs.Guarded.Basic

/-!
# Bit sets kept in words

A bit set can be kept as a list of words of 64 bits.  Its members are found word by word, each time
at the lowest bit that is set, which is then cleared; two sets are combined word by word as far as
both have words.  All that is done to the words is done to the numbers of their bits.
-/

namespace SafeRestart
namespace Words

/-!
# The bits of one word
-/

variable {w : BitVec 64} {i j k : Nat} {words others : List (BitVec 64)}

/-- One less than a number: its lowest digit that is set is cleared, and those below it are set. -/
theorem testBit_sub_one {n low : Nat} (hbelow : n % 2 ^ low = 0) (hset : n.testBit low = true) :
    (n - 1).testBit j = (decide (j < low) || (n.testBit j && decide (j ≠ low))) := by
  have hodd : n / 2 ^ low % 2 = 1 := by
    simpa [Nat.testBit_eq_decide_div_mod_eq] using hset
  have hpositive : 0 < 2 ^ low := Nat.two_pow_pos low
  let half := n / 2 ^ low / 2
  have hn : n = 2 ^ low * (2 * half + 1) + 0 := by
    have hhalf : 2 * half + 1 = n / 2 ^ low := by omega
    rw [hhalf, Nat.add_zero, Nat.mul_div_cancel' (Nat.dvd_of_mod_eq_zero hbelow)]
  have hpred : n - 1 = 2 ^ low * (2 * half) + (2 ^ low - 1) := by
    rw [hn, Nat.mul_add]
    omega
  rw [hpred, Nat.testBit_two_pow_mul_add _ (Nat.sub_lt hpositive Nat.one_pos), hn,
    Nat.testBit_two_pow_mul_add _ hpositive, Nat.testBit_two_pow_sub_one]
  rcases Nat.lt_trichotomy j low with hlt | heq | hgt
  · simp [hlt]
  · simp [heq]
  · -- Above the lowest digit that is set nothing changes.
    rcases Nat.exists_eq_add_of_lt hgt with ⟨rest, rfl⟩
    have hrest : low + rest + 1 - low = rest + 1 := by omega
    have habove : ¬ low + rest + 1 < low := by omega
    rw [if_neg habove, if_neg habove, hrest]
    have hne : low + rest + 1 ≠ low := by omega
    have hhalved : (2 * half + 1) / 2 = half := by omega
    simp [Nat.testBit_succ, habove, hne, hhalved]

theorem mod_two_pow_ctz (w : BitVec 64) : w.toNat % 2 ^ w.ctz.toNat = 0 := by
  apply Nat.zero_of_testBit_eq_false
  intro i
  rw [Nat.testBit_mod_two_pow]
  by_cases hi : i < w.ctz.toNat
  · have hclear : w.toNat.testBit i = false := BitVec.getLsbD_false_of_lt_ctz hi
    rw [hclear, Bool.and_false]
  · rw [decide_eq_false hi, Bool.false_and]

theorem toNat_pos (h : w ≠ 0#64) : 0 < w.toNat :=
  Nat.pos_of_ne_zero fun hzero => h (BitVec.eq_of_toNat_eq hzero)

theorem toNat_sub_one (h : w ≠ 0#64) : (w - 1).toNat = w.toNat - 1 :=
  BitVec.toNat_sub_of_le (toNat_pos h)

theorem getLsbD_clearLowest (h : w ≠ 0#64) :
    (w &&& (w - 1)).getLsbD j = (w.getLsbD j && decide (j ≠ w.ctz.toNat)) := by
  have hset : w.toNat.testBit w.ctz.toNat = true := BitVec.getLsbD_true_ctz_of_ne_zero h
  have hpred : (w - 1).getLsbD j = (w.toNat - 1).testBit j := by
    rw [← toNat_sub_one h, BitVec.testBit_toNat]
  rw [BitVec.getLsbD_and, hpred, testBit_sub_one (mod_two_pow_ctz w) hset, BitVec.testBit_toNat]
  by_cases hj : j < w.ctz.toNat
  · rw [BitVec.getLsbD_false_of_lt_ctz hj, Bool.false_and, Bool.false_and]
  · rw [decide_eq_false hj, Bool.false_or, Bool.and_self_left]

def setBits (w : BitVec 64) : List Nat :=
  if _nonzero : w = 0#64 then [] else w.ctz.toNat :: setBits (w &&& (w - 1))
termination_by w.toNat
decreasing_by
  rw [BitVec.toNat_and, toNat_sub_one _nonzero]
  exact Nat.lt_of_le_of_lt Nat.and_le_right (Nat.sub_lt (toNat_pos _nonzero) Nat.one_pos)

theorem mem_setBits_iff : i ∈ setBits w <-> w.getLsbD i = true := by
  induction w using setBits.induct with
  | case1 => simp [setBits]
  | case2 w h ih =>
      rw [setBits, dif_neg h, List.mem_cons, ih, getLsbD_clearLowest h]
      by_cases hi : i = w.ctz.toNat
      · simp [hi, BitVec.getLsbD_true_ctz_of_ne_zero h]
      · simp [hi]

theorem pairwise_setBits (w : BitVec 64) : (setBits w).Pairwise (· < ·) := by
  induction w using setBits.induct with
  | case1 => simp [setBits]
  | case2 w h ih =>
      rw [setBits, dif_neg h]
      refine List.pairwise_cons.mpr ⟨?_, ih⟩
      intro i hi
      rw [mem_setBits_iff, getLsbD_clearLowest h, Bool.and_eq_true, decide_eq_true_eq] at hi
      apply Nat.lt_of_le_of_ne _ (Ne.symm hi.right)
      by_contra hbelow
      rw [BitVec.getLsbD_false_of_lt_ctz (Nat.lt_of_not_le hbelow)] at hi
      cases hi.left

theorem setBits_eq (w : BitVec 64) : setBits w = (List.range 64).filter w.getLsbD := by
  apply (pairwise_setBits w).eq_of_mem_iff (List.pairwise_lt_range.filter _)
  intro i
  rw [mem_setBits_iff, List.mem_filter, List.mem_range, and_iff_right_of_imp]
  exact BitVec.lt_of_getLsbD

theorem cpopNatRec_eq (w : BitVec 64) (n total : Nat) :
    w.cpopNatRec n total = total + ((List.range n).filter w.getLsbD).length := by
  induction n generalizing total with
  | zero => rfl
  | succ n ih =>
      rw [BitVec.cpopNatRec_succ, ih, List.range_succ, List.filter_append, List.length_append]
      cases hbit : w.getLsbD n with
      | false => simp [hbit]
      | true =>
          simp [hbit]
          omega

theorem length_setBits (w : BitVec 64) : (setBits w).length = w.cpop.toNat := by
  rw [setBits_eq, BitVec.toNat_cpop, cpopNatRec_eq, Nat.zero_add]

theorem masked_ne_zero (w : BitVec 64) (hj : j < 64) :
    (w &&& 1#64 <<< j != 0#64) = w.getLsbD j := by
  have hmask : 1#64 <<< j ≠ 0#64 := by
    intro hzero
    have hbit := congrArg (BitVec.getLsbD · j) hzero
    simp [hj] at hbit
  have hand : w &&& 1#64 <<< j = if w.getLsbD j then 1#64 <<< j else 0#64 := BitVec.and_twoPow w j
  rw [hand]
  cases w.getLsbD j with
  | false => rfl
  | true => exact bne_iff_ne.mpr hmask

/-!
# The bits of all words
-/

def bitAt (words : List (BitVec 64)) (i : Nat) : Bool :=
  ((words[i / 64]?).getD 0#64).getLsbD (i % 64)

theorem bitAt_word (words : List (BitVec 64)) (hj : j < 64) :
    bitAt words (k * 64 + j) = ((words[k]?).getD 0#64).getLsbD j := by
  have hword : (k * 64 + j) / 64 = k := by omega
  have hbit : (k * 64 + j) % 64 = j := by omega
  rw [bitAt, hword, hbit]

theorem lt_of_bitAt (h : bitAt words i = true) : i < words.length * 64 := by
  by_contra hbeyond
  have hnone : words[i / 64]? = none := List.getElem?_eq_none (by omega)
  simp [bitAt, hnone] at h

theorem eq_of_bitAt (hlength : words.length = others.length)
    (h : forall i, bitAt words i = bitAt others i) : words = others := by
  apply List.ext_getElem hlength
  intro k hk hk'
  apply BitVec.eq_of_getLsbD_eq
  intro j hj
  have hbit := h (k * 64 + j)
  rw [bitAt_word words hj, bitAt_word others hj] at hbit
  simpa [hk, hk'] using hbit

/-- Applies `f` to the words that both lists have; the other words of the first stay. -/
def overCommon (f : BitVec 64 -> BitVec 64 -> BitVec 64) :
    List (BitVec 64) -> List (BitVec 64) -> List (BitVec 64)
  | [], _ => []
  | mine :: rest, [] => mine :: rest
  | mine :: rest, theirs :: more => f mine theirs :: overCommon f rest more

theorem length_overCommon (f : BitVec 64 -> BitVec 64 -> BitVec 64)
    (words others : List (BitVec 64)) : (overCommon f words others).length = words.length := by
  induction words, others using overCommon.induct with
  | case1 others => rfl
  | case2 mine rest => rfl
  | case3 mine rest theirs more ih => simp [overCommon, ih]

theorem getElem?_overCommon {f : BitVec 64 -> BitVec 64 -> BitVec 64} (hf : forall x, f x 0#64 = x)
    (words others : List (BitVec 64)) (k : Nat) :
    (overCommon f words others)[k]? =
      (words[k]?).map fun mine => f mine ((others[k]?).getD 0#64) := by
  induction words, others using overCommon.induct generalizing k with
  | case1 others => rfl
  | case2 mine rest => simp [overCommon, hf]
  | case3 mine rest theirs more ih =>
      cases k with
      | zero => rfl
      | succ k => simpa [overCommon] using ih k

theorem bitAt_overCommon {f : BitVec 64 -> BitVec 64 -> BitVec 64} {g : Bool -> Bool -> Bool}
    (hf : forall x y j, j < 64 -> (f x y).getLsbD j = g (x.getLsbD j) (y.getLsbD j))
    (hg : forall b, g b false = b) (words others : List (BitVec 64)) (i : Nat) :
    bitAt (overCommon f words others) i =
      (decide (i < words.length * 64) && g (bitAt words i) (bitAt others i)) := by
  have hzero : forall x, f x 0#64 = x := by
    intro x
    apply BitVec.eq_of_getLsbD_eq
    intro j hj
    rw [hf x 0#64 j hj, BitVec.getLsbD_zero, hg]
  have hbit : i % 64 < 64 := Nat.mod_lt i (by decide)
  unfold bitAt
  rw [getElem?_overCommon hzero]
  by_cases hi : i < words.length * 64
  · have hword : i / 64 < words.length := by omega
    rw [List.getElem?_eq_getElem hword]
    simp [hi, hf _ _ _ hbit]
  · have hword : words[i / 64]? = none := List.getElem?_eq_none (by omega)
    rw [hword]
    simp [hi]

def gains (words others : List (BitVec 64)) : Bool :=
  (words.zip others).any fun pair => pair.1 ||| pair.2 != pair.1

theorem or_ne_left_iff {x y : BitVec 64} :
    x ||| y ≠ x <-> exists j, j < 64 ∧ y.getLsbD j = true ∧ x.getLsbD j = false := by
  constructor
  · intro h
    by_contra hnone
    apply h
    apply BitVec.eq_of_getLsbD_eq
    intro j hj
    rw [BitVec.getLsbD_or]
    cases hx : x.getLsbD j with
    | true => rfl
    | false =>
        cases hy : y.getLsbD j with
        | false => rfl
        | true => exact absurd ⟨j, hj, hy, hx⟩ hnone
  · intro h hsame
    rcases h with ⟨j, _, hy, hx⟩
    have hbit := congrArg (BitVec.getLsbD · j) hsame
    simp [hx, hy] at hbit

theorem gains_iff :
    gains words others = true <->
      exists i, i < words.length * 64 ∧ bitAt others i = true ∧ bitAt words i = false := by
  unfold gains
  rw [List.any_eq_true]
  simp only [bne_iff_ne, or_ne_left_iff]
  constructor
  · intro h
    rcases h with ⟨⟨x, y⟩, hpair, j, hj, hy, hx⟩
    rcases List.getElem?_of_mem hpair with ⟨k, hk⟩
    rw [List.getElem?_zip_eq_some] at hk
    have hbound := (List.getElem?_eq_some_iff.mp hk.left).choose
    refine ⟨k * 64 + j, by omega, ?_, ?_⟩
    · rw [bitAt_word others hj, hk.right]
      exact hy
    · rw [bitAt_word words hj, hk.left]
      exact hx
  · intro h
    rcases h with ⟨i, hi, hy, hx⟩
    have hbound := lt_of_bitAt hy
    have hword : i / 64 < words.length := by omega
    have hword' : i / 64 < others.length := by omega
    refine ⟨(words[i / 64], others[i / 64]), ?_, i % 64, Nat.mod_lt i (by decide), ?_, ?_⟩
    · exact List.mem_of_getElem? (List.getElem?_zip_eq_some.mpr
        ⟨List.getElem?_eq_getElem hword, List.getElem?_eq_getElem hword'⟩)
    · simpa [bitAt, hword'] using hy
    · simpa [bitAt, hword] using hx

end Words

/-!
# Sets in words
-/

structure PackedSet where
  capacity : Nat
  words : List (BitVec 64)

namespace PackedSet

open Words

variable {s : PackedSet} {i : Nat}

def members (s : PackedSet) : List Nat :=
  s.words.zipIdx.flatMap fun entry => (setBits entry.1).map (entry.2 * 64 + ·)

def count (s : PackedSet) : Nat := (s.words.map fun w => w.cpop.toNat).sum

def isEmpty (s : PackedSet) : Bool := s.words.all fun w => w == 0#64

def contains (s : PackedSet) (i : Nat) : Except Fault Bool :=
  if i < s.capacity then do
    let word ← entryAt s.words (i / 64)
    .ok (word &&& 1#64 <<< (i % 64) != 0#64)
  else .ok false

def union (s t : PackedSet) : PackedSet × Bool :=
  (⟨s.capacity, overCommon (· ||| ·) s.words t.words⟩, gains s.words t.words)

def difference (s t : PackedSet) : PackedSet :=
  ⟨s.capacity, overCommon (fun mine theirs => mine &&& ~~~theirs) s.words t.words⟩

theorem mem_members_iff : i ∈ s.members <-> bitAt s.words i = true := by
  unfold members
  rw [List.mem_flatMap]
  constructor
  · intro h
    rcases h with ⟨⟨w, k⟩, hentry, hi⟩
    rcases List.mem_map.mp hi with ⟨j, hj, rfl⟩
    rw [mem_setBits_iff] at hj
    rw [bitAt_word s.words (BitVec.lt_of_getLsbD hj), List.mem_zipIdx_iff_getElem?.mp hentry]
    exact hj
  · intro h
    have hbound := lt_of_bitAt h
    have hword : i / 64 < s.words.length := by omega
    refine ⟨(s.words[i / 64], i / 64), List.mem_zipIdx_iff_getElem?.mpr (by simp [hword]), ?_⟩
    refine List.mem_map.mpr ⟨i % 64, mem_setBits_iff.mpr ?_, Nat.div_add_mod' i 64⟩
    simpa [bitAt, hword] using h

theorem pairwise_members (s : PackedSet) : s.members.Pairwise (· < ·) := by
  unfold members
  rw [List.pairwise_flatMap]
  constructor
  · intro entry _
    refine List.pairwise_map.mpr ((pairwise_setBits entry.1).imp ?_)
    intro j j' hlt
    exact Nat.add_lt_add_left hlt _
  · have hindices : (s.words.zipIdx.map Prod.snd).Pairwise (· < ·) := by
      rw [List.zipIdx_map_snd]
      exact List.pairwise_lt_range'
    refine (List.pairwise_map.mp hindices).imp ?_
    intro entry later hlt x hx y hy
    rcases List.mem_map.mp hx with ⟨j, hj, rfl⟩
    rcases List.mem_map.mp hy with ⟨j', _, rfl⟩
    have hbit := BitVec.lt_of_getLsbD (mem_setBits_iff.mp hj)
    omega

theorem count_eq (s : PackedSet) : s.count = s.members.length := by
  have hwords : s.words = s.words.zipIdx.map Prod.fst := (List.zipIdx_map_fst 0 s.words).symm
  unfold count members
  rw [List.length_flatMap]
  nth_rewrite 1 [hwords]
  rw [List.map_map]
  congr 1
  apply List.map_congr_left
  intro entry _
  rw [List.length_map, length_setBits]
  rfl

theorem isEmpty_iff : s.isEmpty = true <-> forall i, bitAt s.words i = false := by
  unfold isEmpty
  rw [List.all_eq_true]
  simp only [beq_iff_eq]
  constructor
  · intro h i
    unfold bitAt
    cases hword : s.words[i / 64]? with
    | none => simp
    | some w => simp [h w (List.mem_of_getElem? hword)]
  · intro h w hw
    rcases List.getElem?_of_mem hw with ⟨k, hk⟩
    apply BitVec.eq_of_getLsbD_eq
    intro j hj
    have hbit := h (k * 64 + j)
    rw [bitAt_word s.words hj, hk] at hbit
    rw [BitVec.getLsbD_zero]
    exact hbit

theorem contains_eq (hwords : s.capacity ≤ s.words.length * 64) (i : Nat) :
    s.contains i = .ok (decide (i < s.capacity) && bitAt s.words i) := by
  unfold contains
  by_cases hi : i < s.capacity
  · have hword : i / 64 < s.words.length := by omega
    rcases exists_entryAt hword with ⟨w, hw, hentry⟩
    have hbit : i % 64 < 64 := Nat.mod_lt i (by decide)
    rw [if_pos hi, hentry, ok_bind, bitAt, hw, masked_ne_zero w hbit]
    simp [hi]
  · rw [if_neg hi]
    simp [hi]

structure Shows (s : PackedSet) (t : BitSet) : Prop where
  members : s.members = t.members
  count : s.count = t.count
  isEmpty : s.isEmpty = t.isEmpty
  contains : forall i, s.contains i = .ok (t.contains i)

end PackedSet

namespace BitSet

open Words

variable {s t : BitSet} {i : Nat}

def packed (s : BitSet) : PackedSet :=
  ⟨s.capacity, (List.range ((s.capacity + 63) / 64)).map fun k =>
    BitVec.ofNat 64 (s.bits >>> (k * 64))⟩

theorem length_packed (s : BitSet) : s.packed.words.length * 64 = s.room := by
  simp [packed, room]

theorem bitAt_packed (h : s.InRoom) (i : Nat) : bitAt s.packed.words i = s.bits.testBit i := by
  unfold bitAt
  by_cases hi : i < s.room
  · have hword : i / 64 < (s.capacity + 63) / 64 := by
      unfold room at hi
      omega
    have hplace : i / 64 * 64 + i % 64 = i := Nat.div_add_mod' i 64
    have hstored : s.packed.words[i / 64]? = some (BitVec.ofNat 64 (s.bits >>> (i / 64 * 64))) := by
      simp [packed, hword]
    rw [hstored, Option.getD_some, BitVec.getLsbD_ofNat, Nat.testBit_shiftRight, hplace,
      decide_eq_true (Nat.mod_lt i (by decide)), Bool.true_and]
  · have hclear : s.bits.testBit i = false := Bool.eq_false_iff.mpr fun hset => hi (h i hset)
    have hword : s.packed.words[i / 64]? = none := by
      apply List.getElem?_eq_none
      have hlength := length_packed s
      omega
    simp [hword, hclear]

/-!
# Words of combined sets
-/

theorem packed_union (hs : s.InRoom) (ht : t.InRoom) :
    s.packed.union t.packed = ((s.union t).1.packed, (s.union t).2) := by
  have hwords : overCommon (· ||| ·) s.packed.words t.packed.words =
      (s.union t).1.packed.words := by
    apply eq_of_bitAt
    · rw [length_overCommon]
      simp [packed, union]
    · intro i
      rw [bitAt_overCommon (fun x y j _ => BitVec.getLsbD_or) Bool.or_false, length_packed,
        bitAt_packed hs, bitAt_packed ht, bitAt_packed (inRoom_union hs t), testBit_union]
      cases hmine : s.bits.testBit i with
      | true => simp [hs i hmine]
      | false => simp
  have hflag : gains s.packed.words t.packed.words = (s.union t).2 := by
    rw [Bool.eq_iff_iff, gains_iff, union_changed_iff, length_packed]
    simp only [bitAt_packed hs, bitAt_packed ht]
  unfold PackedSet.union
  rw [hwords, hflag]
  rfl

theorem packed_difference (hs : s.InRoom) (ht : t.InRoom) :
    s.packed.difference t.packed = (s.difference t).packed := by
  have hwords : overCommon (fun mine theirs => mine &&& ~~~theirs) s.packed.words t.packed.words =
      (s.difference t).packed.words := by
    apply eq_of_bitAt
    · rw [length_overCommon]
      simp [packed, difference]
    · intro i
      have hbits : forall (x y : BitVec 64) (j : Nat), j < 64 ->
          (x &&& ~~~y).getLsbD j = (x.getLsbD j && !y.getLsbD j) := by
        intro x y j hj
        simp [hj]
      rw [bitAt_overCommon (g := fun mine theirs => mine && !theirs) hbits (by decide),
        length_packed, bitAt_packed hs, bitAt_packed ht, bitAt_packed (inRoom_difference hs t),
        testBit_difference]
      cases hmine : s.bits.testBit i with
      | true => simp [hs i hmine]
      | false => simp
  unfold PackedSet.difference
  rw [hwords]
  rfl

/-!
# Looking at words
-/

theorem members_packed (hs : s.InRoom) : s.packed.members = s.members := by
  apply (PackedSet.pairwise_members s.packed).eq_of_mem_iff (List.pairwise_lt_range.filter _)
  intro i
  rw [PackedSet.mem_members_iff, bitAt_packed hs, List.mem_filter, List.mem_range,
    and_iff_right_of_imp (hs i)]

theorem isEmpty_packed (hs : s.InRoom) : s.packed.isEmpty = s.isEmpty := by
  rw [Bool.eq_iff_iff, PackedSet.isEmpty_iff, isEmpty, beq_iff_eq]
  simp only [bitAt_packed hs]
  constructor
  · exact Nat.zero_of_testBit_eq_false
  · intro hzero i
    rw [hzero, Nat.zero_testBit]

theorem contains_packed (hs : s.InRoom) (i : Nat) : s.packed.contains i = .ok (s.contains i) := by
  have hwords : s.packed.capacity ≤ s.packed.words.length * 64 := by
    rw [length_packed]
    exact capacity_le_room s
  rw [PackedSet.contains_eq hwords, bitAt_packed hs]
  rfl

theorem shows_packed (hs : s.InRoom) : s.packed.Shows s := by
  refine ⟨members_packed hs, ?_, isEmpty_packed hs, contains_packed hs⟩
  rw [PackedSet.count_eq, members_packed hs]
  rfl

end BitSet
end SafeRestart
