import Mathlib.Data.List.TakeWhile
import SafeRestart.Proofs.Guarded.Basic
import SafeRestart.Proofs.PointSet

/-!
# Editing by position

The spans of a set lie in a table.  To add a span, its place in the table is looked up, the entries
that it overlaps or touches are replaced by one entry, and all other entries stay as they are.
A set is determined by its points, so it does not matter how the table was edited: each edit by
position leads to the same entries as the fusion of neighbours one by one.
-/

namespace SafeRestart
namespace IntervalSet

variable {s : IntervalSet} {r : Span} {spans before touched after : List Span}

/-!
# Places
-/

def passing (spans : List Span) (test : Span -> Bool) : Nat := (spans.takeWhile test).length

def splice (spans : List Span) (first last : Nat) (r : Span) : Except Fault (List Span) :=
  if first ≤ last ∧ last ≤ spans.length then .ok (spans.take first ++ r :: spans.drop last)
  else .error .outOfBounds

theorem splice_append (before touched after : List Span) (r : Span) :
    splice (before ++ touched ++ after) before.length (before.length + touched.length) r =
      .ok (before ++ r :: after) := by
  unfold splice
  rw [if_pos ⟨Nat.le_add_right _ _, by simp⟩, ← List.length_append, List.drop_left,
    List.append_assoc, List.take_left]

theorem passing_append {test : Span -> Bool} (h : forall q, q ∈ before -> test q = true) :
    passing (before ++ after) test = before.length + passing after test := by
  unfold passing
  rw [List.takeWhile_append_of_pos h, List.length_append]

def Settles (test : Span -> Bool) : Prop :=
  forall x y : Span, x.start < y.start -> x.stop < y.stop -> test y = true -> test x = true

theorem pairwise_bounds (hs : s.Canonical) :
    s.spans.Pairwise fun x y => x.start < y.start ∧ x.stop < y.stop := by
  refine hs.apart.imp_of_mem ?_
  intro x y hx hy hgap
  have hfirst := hs.occupied x hx
  have hlater := hs.occupied y hy
  omega

theorem fails_of_mem_dropWhile {test : Span -> Bool} {q : Span}
    (hordered : spans.Pairwise fun x y => test y = true -> test x = true)
    (hq : q ∈ spans.dropWhile test) : test q = false := by
  induction spans with
  | nil => cases hq
  | cons x rest ih =>
      have hrest := List.pairwise_cons.mp hordered
      cases hx : test x with
      | true =>
          rw [List.dropWhile_cons_of_pos hx] at hq
          exact ih hrest.right hq
      | false =>
          rw [List.dropWhile_cons_of_neg (by simp [hx])] at hq
          apply Bool.eq_false_iff.mpr
          intro hpasses
          rcases List.mem_cons.mp hq with rfl | hq
          · exact absurd hpasses (by simp [hx])
          · exact absurd (hrest.left q hq hpasses) (by simp [hx])

theorem exists_split (hs : Canonical ⟨spans⟩) {test : Span -> Bool} (htest : Settles test) :
    exists before after, spans = before ++ after ∧ passing spans test = before.length ∧
      (forall q, q ∈ before -> test q = true) ∧ forall q, q ∈ after -> test q = false := by
  have hordered : spans.Pairwise fun x y => test y = true -> test x = true :=
    (pairwise_bounds hs).imp fun h => htest _ _ h.left h.right
  exact ⟨spans.takeWhile test, spans.dropWhile test, List.takeWhile_append_dropWhile.symm, rfl,
    fun q hq => List.mem_takeWhile_imp hq, fun q hq => fails_of_mem_dropWhile hordered hq⟩

/-!
# Replacing spans by one
-/

theorem canonical_append_right (hs : Canonical ⟨before ++ after⟩) : Canonical ⟨after⟩ :=
  ⟨fun q hq => hs.occupied q (List.mem_append_right before hq),
    (List.pairwise_append.mp hs.apart).right.left⟩

theorem canonical_append_left (hs : Canonical ⟨before ++ after⟩) : Canonical ⟨before⟩ :=
  ⟨fun q hq => hs.occupied q (List.mem_append_left after hq),
    (List.pairwise_append.mp hs.apart).left⟩

/-- Where the spans that a span overlaps or touches are replaced by one that has their points and
its own, the span is added. -/
theorem union_eq_of_replaced (merged : Span) (hs : Canonical ⟨before ++ touched ++ after⟩)
    (hr : r.start < r.stop) (hbefore : forall q, q ∈ before -> q.stop < merged.start)
    (hafter : forall q, q ∈ after -> merged.stop < q.start)
    (hpoints : forall p, p ∈ merged <-> p ∈ r ∨ exists q, q ∈ touched ∧ p ∈ q) :
    union ⟨before ++ touched ++ after⟩ r = ⟨before ++ merged :: after⟩ := by
  have hmerged : merged.start < merged.stop := by
    have hmem := (hpoints r.start).mpr (Or.inl ⟨Nat.le_refl _, hr⟩)
    exact Nat.lt_of_le_of_lt hmem.left hmem.right
  have happart := hs.apart
  rw [List.append_assoc] at happart
  rcases List.pairwise_append.mp happart with ⟨hfront, hback, hcross⟩
  have hcanonical : Canonical ⟨before ++ merged :: after⟩ := by
    constructor
    · intro q hq
      rcases List.mem_append.mp hq with hq | hq
      · exact hs.occupied q (List.mem_append_left _ (List.mem_append_left _ hq))
      · rcases List.mem_cons.mp hq with rfl | hq
        · exact hmerged
        · exact hs.occupied q (List.mem_append_right _ hq)
    · refine List.pairwise_append.mpr ⟨hfront, ?_, ?_⟩
      · exact List.pairwise_cons.mpr ⟨hafter, (List.pairwise_append.mp hback).right.left⟩
      · intro x hx y hy
        rcases List.mem_cons.mp hy with rfl | hy
        · exact hbefore x hx
        · exact hcross x hx y (List.mem_append_right touched hy)
  apply eq_of_mem_iff (canonical_union hs r) hcanonical
  intro p
  rw [mem_union_iff hs, mem_iff, mem_iff]
  simp only [List.mem_append, List.mem_cons, or_and_right, exists_or, exists_eq_left, hpoints]
  grind

/-!
# Union by position
-/

def merge (spans : List Span) (first last : Nat) (r : Span) : Except Fault Span :=
  if first < last then do
    let lowest ← entryAt spans first
    let highest ← entryAt spans (last - 1)
    return ⟨min r.start lowest.start, max r.stop highest.stop⟩
  else
    return r

def splicedUnion (s : IntervalSet) (r : Span) : Except Fault IntervalSet :=
  if r.start < r.stop then do
    let first := passing s.spans fun q => q.stop < r.start
    let last := passing s.spans fun q => q.start ≤ r.stop
    let merged ← merge s.spans first last r
    return ⟨← splice s.spans first last merged⟩
  else
    return s

theorem exists_outermost (hs : Canonical ⟨touched⟩) (hne : touched ≠ []) :
    exists low high, touched[0]? = some low ∧ touched[touched.length - 1]? = some high ∧
      low ∈ touched ∧ high ∈ touched ∧
      forall q, q ∈ touched -> low.start ≤ q.start ∧ q.stop ≤ high.stop := by
  have hordered := pairwise_bounds hs
  have hlow := List.head?_eq_some_head hne
  have hhigh := List.getLast?_eq_some_getLast hne
  refine ⟨touched.head hne, touched.getLast hne, by rw [← List.head?_eq_getElem?, hlow],
    by rw [← List.getLast?_eq_getElem?, hhigh], List.head_mem hne, List.getLast_mem hne, ?_⟩
  intro q hq
  constructor
  · rcases List.head?_eq_some_iff.mp hlow with ⟨rest, hrest⟩
    rw [hrest] at hordered hq
    rcases List.mem_cons.mp hq with hsame | hq
    · rw [hsame]
    · exact Nat.le_of_lt ((List.pairwise_cons.mp hordered).left q hq).left
  · rcases List.getLast?_eq_some_iff.mp hhigh with ⟨init, hinit⟩
    rw [hinit] at hordered hq
    rcases List.mem_append.mp hq with hq | hq
    · exact Nat.le_of_lt ((List.pairwise_append.mp hordered).right.right q hq _
        (List.mem_singleton_self _)).right
    · rw [List.mem_singleton.mp hq]

theorem mem_merged_iff {low high : Span} {p : Nat}
    (htouched : forall q, q ∈ touched -> r.start ≤ q.stop ∧ q.start ≤ r.stop)
    (hlow : low ∈ touched) (hhigh : high ∈ touched)
    (hbounds : forall q, q ∈ touched -> low.start ≤ q.start ∧ q.stop ≤ high.stop) :
    p ∈ (⟨min r.start low.start, max r.stop high.stop⟩ : Span) <->
      p ∈ r ∨ exists q, q ∈ touched ∧ p ∈ q := by
  have hlowMeets := htouched low hlow
  have hhighMeets := htouched high hhigh
  rw [Span.mem_iff]
  dsimp only
  constructor
  · intro hp
    by_cases hleft : p < r.start
    · exact Or.inr ⟨low, hlow, by rw [Span.mem_iff]; omega⟩
    · by_cases hright : p < r.stop
      · exact Or.inl ⟨Nat.le_of_not_lt hleft, hright⟩
      · exact Or.inr ⟨high, hhigh, by rw [Span.mem_iff]; omega⟩
  · intro hp
    rcases hp with hp | ⟨q, hq, hp⟩
    · rw [Span.mem_iff] at hp
      omega
    · have hinside := hbounds q hq
      rw [Span.mem_iff] at hp
      omega

theorem entryAt_middle {i : Nat} {q : Span} (h : touched[i]? = some q) :
    entryAt (before ++ touched ++ after) (before.length + i) = .ok q := by
  have hi : i < touched.length := (List.getElem?_eq_some_iff.mp h).1
  apply entryAt_of_some
  rw [List.append_assoc, List.getElem?_append_right (Nat.le_add_right _ _), Nat.add_sub_cancel_left,
    List.getElem?_append_left hi, h]

theorem exists_merged (hs : Canonical ⟨before ++ touched ++ after⟩)
    (htouched : forall q, q ∈ touched -> r.start ≤ q.stop ∧ q.start ≤ r.stop)
    (hbefore : forall q, q ∈ before -> q.stop < r.start)
    (hafter : forall q, q ∈ after -> r.stop < q.start) :
    exists merged,
      merge (before ++ touched ++ after) before.length (before.length + touched.length) r =
        .ok merged ∧
      (forall q, q ∈ before -> q.stop < merged.start) ∧
      (forall q, q ∈ after -> merged.stop < q.start) ∧
      forall p, p ∈ merged <-> p ∈ r ∨ exists q, q ∈ touched ∧ p ∈ q := by
  unfold merge
  by_cases hne : touched = []
  · subst hne
    rw [if_neg (by simp)]
    exact ⟨r, rfl, hbefore, hafter, fun p => by simp⟩
  · have hsize := List.length_pos_of_ne_nil hne
    have hplace : before.length + touched.length - 1 = before.length + (touched.length - 1) := by
      omega
    rw [List.append_assoc] at hs
    rcases List.pairwise_append.mp hs.apart with ⟨_, hback, hcross⟩
    rcases exists_outermost (canonical_append_left (canonical_append_right hs)) hne with
      ⟨low, high, hfirst, hlast, hlow, hhigh, hbounds⟩
    have hlowest : entryAt (before ++ touched ++ after) before.length = .ok low :=
      entryAt_middle hfirst
    rw [if_pos (by omega), hlowest, ok_bind, hplace, entryAt_middle hlast, ok_bind]
    refine ⟨_, rfl, ?_, ?_, fun p => mem_merged_iff htouched hlow hhigh hbounds⟩
    · intro q hq
      exact lt_min (hbefore q hq) (hcross q hq low (List.mem_append_left after hlow))
    · intro q hq
      exact max_lt (hafter q hq) ((List.pairwise_append.mp hback).right.right high hhigh q hq)

theorem exists_touched (hs : Canonical ⟨spans⟩) (hr : r.start < r.stop) :
    exists before touched after, spans = before ++ touched ++ after ∧
      (passing spans fun q => q.stop < r.start) = before.length ∧
      (passing spans fun q => q.start ≤ r.stop) = before.length + touched.length ∧
      (forall q, q ∈ before -> q.stop < r.start) ∧
      (forall q, q ∈ touched -> r.start ≤ q.stop ∧ q.start ≤ r.stop) ∧
      forall q, q ∈ after -> r.stop < q.start := by
  have hleft : Settles fun q => q.stop < r.start := by
    intro x y _ hstop
    simp only [decide_eq_true_eq]
    omega
  have hright : Settles fun q => q.start ≤ r.stop := by
    intro x y hstart _
    simp only [decide_eq_true_eq]
    omega
  rcases exists_split hs hleft with ⟨before, rest, rfl, hfirst, hbefore, hrest⟩
  rcases exists_split (canonical_append_right hs) hright with
    ⟨touched, after, rfl, hlast, htouched, hafter⟩
  simp only [decide_eq_true_eq, decide_eq_false_iff_not, Nat.not_lt] at hbefore hrest
  simp only [decide_eq_true_eq, decide_eq_false_iff_not, Nat.not_le] at htouched hafter
  have hpassed : forall q, q ∈ before -> decide (q.start ≤ r.stop) = true := by
    intro q hq
    have hends := hbefore q hq
    have hoccupied := hs.occupied q (List.mem_append_left _ hq)
    rw [decide_eq_true_eq]
    omega
  refine ⟨before, touched, after, (List.append_assoc _ _ _).symm, hfirst, ?_, hbefore, ?_, hafter⟩
  · rw [passing_append hpassed, hlast]
  · intro q hq
    exact ⟨hrest q (List.mem_append_left after hq), htouched q hq⟩

theorem splicedUnion_eq (hs : s.Canonical) (r : Span) : s.splicedUnion r = .ok (s.union r) := by
  by_cases hr : r.start < r.stop
  · rcases s with ⟨spans⟩
    rcases exists_touched hs hr with
      ⟨before, touched, after, rfl, hfirst, hlast, hbefore, htouched, hafter⟩
    rcases exists_merged hs htouched hbefore hafter with
      ⟨merged, hmerge, hbelow, habove, hpoints⟩
    unfold splicedUnion
    dsimp only
    rw [if_pos hr, hfirst, hlast, hmerge, ok_bind, splice_append, ok_bind,
      union_eq_of_replaced merged hs hr hbelow habove hpoints]
    rfl
  · unfold splicedUnion union
    rw [if_neg hr, if_neg hr]
    rfl

/-!
# Insertion by position
-/

/-- Enters a span at its place, joined with the entry before it, with the entry behind it, with both
or with neither. -/
def joined (spans : List Span) (place : Nat) (r : Span) : Bool -> Bool -> Except Fault (List Span)
  | true, true => do
      let previous ← entryAt spans (place - 1)
      let next ← entryAt spans place
      splice spans (place - 1) (place + 1) ⟨previous.start, next.stop⟩
  | true, false => do
      let previous ← entryAt spans (place - 1)
      splice spans (place - 1) place ⟨previous.start, r.stop⟩
  | false, true => do
      let next ← entryAt spans place
      splice spans place (place + 1) ⟨r.start, next.stop⟩
  | false, false => splice spans place place r

def joinsPrevious (spans : List Span) (place : Nat) (r : Span) : Except Fault Bool :=
  if 0 < place then do
    let previous ← entryAt spans (place - 1)
    return previous.stop = r.start
  else
    return false

def splicedInsert (s : IntervalSet) (r : Span) : Except Fault (Except Error IntervalSet) :=
  if r.start < r.stop then do
    let place := passing s.spans fun q => q.stop ≤ r.start
    if (s.spans[place]?).any fun next => next.start < r.stop then
      return .error (.overlappingRange r.start r.stop)
    else
      let withPrevious ← joinsPrevious s.spans place r
      let withNext := (s.spans[place]?).any fun next => next.start = r.stop
      return .ok ⟨← joined s.spans place r withPrevious withNext⟩
  else
    return .ok s

theorem previous_cases (hs : Canonical ⟨before ++ after⟩)
    (hbefore : forall q, q ∈ before -> q.stop ≤ r.start) :
    (exists init previous, before = init ++ [previous] ∧ previous.stop = r.start ∧
        (forall q, q ∈ init -> q.stop < previous.start) ∧
        joinsPrevious (before ++ after) before.length r = .ok true) ∨
      ((forall q, q ∈ before -> q.stop < r.start) ∧
        joinsPrevious (before ++ after) before.length r = .ok false) := by
  rcases List.eq_nil_or_concat before with rfl | ⟨init, previous, rfl⟩
  · exact Or.inr ⟨by simp, rfl⟩
  · rw [List.concat_eq_append] at hs hbefore ⊢
    have hearlier : forall q, q ∈ init -> q.stop < previous.start := fun q hq =>
      (List.pairwise_append.mp (canonical_append_left hs).apart).right.right q hq previous
        (List.mem_singleton_self _)
    have hoccupied := hs.occupied previous (by simp)
    have hends := hbefore previous (by simp)
    have hentry : entryAt (init ++ [previous] ++ after) init.length = .ok previous :=
      entryAt_middle (i := 0) rfl
    have hjoins : joinsPrevious (init ++ [previous] ++ after) (init ++ [previous]).length r =
        .ok (decide (previous.stop = r.start)) := by
      unfold joinsPrevious
      rw [List.length_append, List.length_singleton, if_pos (Nat.succ_pos _), Nat.add_sub_cancel,
        hentry]
      rfl
    by_cases htouch : previous.stop = r.start
    · exact Or.inl ⟨init, previous, rfl, htouch, hearlier, by simpa [htouch] using hjoins⟩
    · refine Or.inr ⟨?_, by simpa [htouch] using hjoins⟩
      intro q hq
      rcases List.mem_append.mp hq with hq | hq
      · have hgap := hearlier q hq
        omega
      · rw [List.mem_singleton.mp hq]
        omega

theorem next_cases (hs : Canonical ⟨after⟩)
    (hafter : forall q, q ∈ after.head? -> r.stop ≤ q.start) :
    (exists next rest, after = next :: rest ∧ next.start = r.stop ∧
        (forall q, q ∈ rest -> next.stop < q.start) ∧
        (after.head?.any fun next => next.start = r.stop) = true) ∨
      ((forall q, q ∈ after -> r.stop < q.start) ∧
        (after.head?.any fun next => next.start = r.stop) = false) := by
  cases after with
  | nil => exact Or.inr ⟨by simp, rfl⟩
  | cons next rest =>
      have hlater := (List.pairwise_cons.mp hs.apart).left
      have hoccupied := hs.occupied next List.mem_cons_self
      have hstarts := hafter next rfl
      by_cases htouch : next.start = r.stop
      · exact Or.inl ⟨next, rest, rfl, htouch, hlater, by simp [htouch]⟩
      · refine Or.inr ⟨?_, by simp [htouch]⟩
        intro q hq
        rcases List.mem_cons.mp hq with rfl | hq
        · omega
        · have hgap := hlater q hq
          omega

theorem joined_both (init rest : List Span) (previous next r : Span) :
    joined (init ++ [previous, next] ++ rest) (init.length + 1) r true true =
      .ok (init ++ ⟨previous.start, next.stop⟩ :: rest) := by
  have hprevious : entryAt (init ++ [previous, next] ++ rest) init.length = .ok previous :=
    entryAt_middle (i := 0) rfl
  have hnext : entryAt (init ++ [previous, next] ++ rest) (init.length + 1) = .ok next :=
    entryAt_middle (i := 1) rfl
  rw [joined, Nat.add_sub_cancel, hprevious, ok_bind, hnext, ok_bind]
  exact splice_append init [previous, next] rest _

theorem joined_previous (init after : List Span) (previous r : Span) :
    joined (init ++ [previous] ++ after) (init.length + 1) r true false =
      .ok (init ++ ⟨previous.start, r.stop⟩ :: after) := by
  have hprevious : entryAt (init ++ [previous] ++ after) init.length = .ok previous :=
    entryAt_middle (i := 0) rfl
  rw [joined, Nat.add_sub_cancel, hprevious, ok_bind]
  exact splice_append init [previous] after _

theorem joined_next (before rest : List Span) (next r : Span) :
    joined (before ++ [next] ++ rest) before.length r false true =
      .ok (before ++ ⟨r.start, next.stop⟩ :: rest) := by
  have hnext : entryAt (before ++ [next] ++ rest) before.length = .ok next :=
    entryAt_middle (i := 0) rfl
  rw [joined, hnext, ok_bind]
  exact splice_append before [next] rest _

theorem joined_neither (before after : List Span) (r : Span) :
    joined (before ++ [] ++ after) before.length r false false = .ok (before ++ r :: after) :=
  splice_append before [] after r

/-- An insertion that is not refused adds the span.  In each case the entries that are joined with
the span are replaced. -/
theorem exists_joined (hs : Canonical ⟨before ++ after⟩) (hr : r.start < r.stop)
    (hbefore : forall q, q ∈ before -> q.stop ≤ r.start)
    (hafter : forall q, q ∈ after.head? -> r.stop ≤ q.start) :
    exists withPrevious,
      joinsPrevious (before ++ after) before.length r = .ok withPrevious ∧
      joined (before ++ after) before.length r withPrevious
          (after.head?.any fun next => next.start = r.stop) =
        .ok (union ⟨before ++ after⟩ r).spans := by
  rcases previous_cases hs hbefore with
    ⟨init, previous, rfl, hmeets, hearlier, hleft⟩ | ⟨hearlier, hleft⟩
  · refine ⟨true, hleft, ?_⟩
    have hprevious := hs.occupied previous (by simp)
    rcases next_cases (canonical_append_right hs) hafter with
      ⟨next, rest, rfl, hmeets', hlater, hright⟩ | ⟨hlater, hright⟩
    · have hnext := hs.occupied next (by simp)
      have hspans : init ++ [previous] ++ next :: rest = init ++ [previous, next] ++ rest := by simp
      rw [hright, List.length_append, List.length_singleton]
      rw [hspans] at hs ⊢
      rw [joined_both, union_eq_of_replaced ⟨previous.start, next.stop⟩ hs hr hearlier hlater]
      intro p
      simp only [List.mem_cons, List.not_mem_nil, or_false, exists_eq_or_imp, exists_eq_left,
        Span.mem_iff]
      omega
    · rw [hright, List.length_append, List.length_singleton, joined_previous,
        union_eq_of_replaced ⟨previous.start, r.stop⟩ hs hr hearlier hlater]
      intro p
      simp only [List.mem_singleton, exists_eq_left, Span.mem_iff]
      omega
  · refine ⟨false, hleft, ?_⟩
    rcases next_cases (canonical_append_right hs) hafter with
      ⟨next, rest, rfl, hmeets', hlater, hright⟩ | ⟨hlater, hright⟩
    · have hnext := hs.occupied next (by simp)
      have hspans : before ++ next :: rest = before ++ [next] ++ rest := by simp
      rw [hright]
      rw [hspans] at hs ⊢
      rw [joined_next, union_eq_of_replaced ⟨r.start, next.stop⟩ hs hr hearlier hlater]
      intro p
      simp only [List.mem_singleton, exists_eq_left, Span.mem_iff]
      omega
    · have hspans : before ++ after = before ++ [] ++ after := by simp
      rw [hright]
      rw [hspans] at hs ⊢
      rw [joined_neither, union_eq_of_replaced r hs hr hearlier hlater]
      intro p
      simp

theorem find_of_split {p : Nat} (hbefore : forall q, q ∈ before -> q.stop ≤ p)
    (hafter : forall q, q ∈ after -> p < q.stop) : find ⟨before ++ after⟩ p = after.head? := by
  have hnone : before.find? (fun q => p < q.stop) = none := by
    apply List.find?_eq_none.mpr
    intro q hq
    simpa using hbefore q hq
  unfold find
  rw [List.find?_append, hnone, Option.none_or]
  cases after with
  | nil => rfl
  | cons next rest => simp [hafter next List.mem_cons_self]

theorem splicedInsert_eq (hs : s.Canonical) (r : Span) : s.splicedInsert r = .ok (s.insert r) := by
  by_cases hr : r.start < r.stop
  · have htest : Settles fun q => q.stop ≤ r.start := by
      intro x y _ hstop
      simp only [decide_eq_true_eq]
      omega
    rcases s with ⟨spans⟩
    rcases exists_split hs htest with ⟨before, after, rfl, hplace, hbefore, hafter⟩
    simp only [decide_eq_true_eq, decide_eq_false_iff_not, Nat.not_le] at hbefore hafter
    have hbehind : (before ++ after)[before.length]? = after.head? := by
      rw [List.getElem?_append_right (Nat.le_refl _), Nat.sub_self, List.head?_eq_getElem?]
    have hoverlaps : overlaps ⟨before ++ after⟩ r = after.head?.any fun q => q.start < r.stop := by
      unfold overlaps
      rw [find_of_split hbefore hafter, decide_eq_true hr, Bool.true_and]
    unfold splicedInsert insert
    dsimp only
    rw [if_pos hr, hplace, hbehind, hoverlaps]
    split
    · rfl
    · rename_i hfree
      have hstarts : forall q, q ∈ after.head? -> r.stop ≤ q.start := by
        intro q hq
        rw [Option.mem_def] at hq
        simpa [hq] using hfree
      rcases exists_joined hs hr hbefore hstarts with ⟨withPrevious, hjoins, hjoined⟩
      rw [hjoins, ok_bind, hjoined]
      rfl
  · have hfree : s.overlaps r = false := by simp [overlaps, hr]
    unfold splicedInsert insert union
    rw [if_neg hr, hfree, if_neg hr]
    rfl

/-!
# Edits by position
-/

def splicedEdit (s : IntervalSet) : Edit -> Except Fault (Except Error Unit × IntervalSet)
  | .insert r => do
      match ← s.splicedInsert r with
      | .ok t => return (.ok (), t)
      | .error e => return (.error e, s)
  | .union r => return (.ok (), ← s.splicedUnion r)
  | .clear => return (.ok (), empty)
  | .collect spans => return (.ok (), ← spans.foldlM splicedUnion empty)

def spliced (edits : List Edit) : Except Fault IntervalSet :=
  edits.foldlM (fun s e => do return (← s.splicedEdit e).2) empty

theorem foldlM_splicedUnion (hs : s.Canonical) (spans : List Span) :
    spans.foldlM splicedUnion s = .ok (spans.foldl union s) := by
  induction spans generalizing s with
  | nil => rfl
  | cons r rest ih =>
      rw [List.foldlM_cons, splicedUnion_eq hs, ok_bind, ih (canonical_union hs r)]
      rfl

theorem splicedEdit_eq (hs : s.Canonical) (e : Edit) : s.splicedEdit e = .ok (s.edit e) := by
  cases e with
  | insert r =>
      rw [splicedEdit, splicedInsert_eq hs, ok_bind, edit]
      cases s.insert r with
      | ok t => rfl
      | error e => rfl
  | union r =>
      rw [splicedEdit, splicedUnion_eq hs]
      rfl
  | clear => rfl
  | collect spans =>
      rw [splicedEdit, foldlM_splicedUnion canonical_empty]
      rfl

theorem canonical_edit (hs : s.Canonical) (e : Edit) : (s.edit e).2.Canonical :=
  (edit_refines ⟨hs, fun _ => Span.mem_pointsOfAll_iff⟩ e).right.canonical

theorem foldlM_splicedEdit (hs : s.Canonical) (edits : List Edit) :
    edits.foldlM (fun s e => do return (← s.splicedEdit e).2) s =
      (.ok (edits.foldl (fun s e => (s.edit e).2) s) : Except Fault IntervalSet) := by
  induction edits generalizing s with
  | nil => rfl
  | cons e rest ih =>
      rw [List.foldlM_cons, splicedEdit_eq hs, ok_bind]
      exact ih (canonical_edit hs e)

theorem spliced_eq_edited (edits : List Edit) : spliced edits = .ok (edited edits) :=
  foldlM_splicedEdit canonical_empty edits

theorem edits_refine_point_set (edits : List Edit) :
    spliced edits = .ok (edited edits) ∧
    (forall e, exists t, (edited edits).splicedEdit e =
        .ok ((editPoints (editedPoints edits) e).1, t) ∧
      t.Represents (editPoints (editedPoints edits) e).2) ∧
    (edited edits).Represents (editedPoints edits) ∧
    (forall e, ((edited edits).edit e).1 = (editPoints (editedPoints edits) e).1) ∧
    (forall r, ((edited edits).union r).Represents (editedPoints edits ∪ r.points)) ∧
    (forall r, (edited edits).edit (.insert r) =
        (.error (.overlappingRange r.start r.stop), edited edits) <->
      exists p, p ∈ r ∧ p ∈ editedPoints edits) ∧
    (forall r, Disjoint r.points (editedPoints edits) ->
      exists t, (edited edits).insert r = .ok t ∧ t.Represents (editedPoints edits ∪ r.points)) ∧
    (forall p, (edited edits).contains p = true <-> p ∈ editedPoints edits) ∧
    (forall r, (edited edits).overlaps r = true <-> (r.points ∩ editedPoints edits).Nonempty) ∧
    (edited edits).size = (editedPoints edits).card ∧
    (forall p r, (edited edits).find p = some r <->
      r ∈ (edited edits).spans ∧ p < r.stop ∧
        forall q, q ∈ (edited edits).spans -> p < q.stop -> r.start ≤ q.start) ∧
    (forall p, (edited edits).find p = none <->
      forall q, q ∈ (edited edits).spans -> q.stop ≤ p) := by
  have hs := edited_refines edits
  refine ⟨spliced_eq_edited edits, ?_, hs, fun e => (edit_refines hs e).left, represents_union hs,
    ?_, ?_, ?_, ?_, size_eq_of_represents hs, fun p r => find_eq_some_iff hs.canonical,
    fun p => find_eq_none_iff⟩
  · intro e
    rcases edit_refines hs e with ⟨hanswer, hrepresents⟩
    refine ⟨_, ?_, hrepresents⟩
    rw [splicedEdit_eq hs.canonical, ← hanswer]
  · intro r
    rw [← Span.not_disjoint_points_iff]
    constructor
    · intro hrefused hfree
      rw [edit_insert_accepted hs hfree] at hrefused
      cases (Prod.mk.inj hrefused).left
    · exact edit_insert_refused hs
  · intro r hfree
    refine ⟨_, insert_ok hs.canonical ?_, represents_union hs r⟩
    intro p hr hmem
    exact Finset.disjoint_left.mp hfree (Span.mem_points_iff.mpr hr) ((hs.held p).mpr hmem)
  · intro p
    rw [contains_iff hs.canonical, hs.held, mem_iff]
  · intro r
    rw [overlaps_iff_not_disjoint hs, Finset.not_disjoint_iff_nonempty_inter]

example :
    edited [.insert ⟨2, 4⟩, .insert ⟨6, 8⟩, .insert ⟨7, 9⟩, .insert ⟨4, 6⟩, .union ⟨12, 10⟩] =
      ⟨[⟨2, 8⟩]⟩ := by
  decide

end IntervalSet
end SafeRestart
