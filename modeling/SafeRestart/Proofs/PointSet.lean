import Mathlib.Order.Interval.Finset.Nat
import SafeRestart.Proofs.Interval

/-!
# Interval sets as finite sets

An interval set stands for a finite set of points.  Each way of changing it does to the spans what
the corresponding operation does to the points, whatever ranges it is given, and each question is
answered as it would be for the points.  The spans never carry more than the points: two interval
sets with the same points are the same.
-/

namespace SafeRestart

namespace Span

def points (r : Span) : Finset Nat := Finset.Ico r.start r.stop

theorem mem_points_iff {r : Span} {p : Nat} : p ∈ r.points <-> p ∈ r := Finset.mem_Ico

def pointsOfAll (spans : List Span) : Finset Nat := spans.foldr (fun r rest => r.points ∪ rest) ∅

theorem mem_pointsOfAll_iff {spans : List Span} {p : Nat} :
    p ∈ pointsOfAll spans <-> exists r, r ∈ spans ∧ p ∈ r := by
  induction spans with
  | nil => simp [pointsOfAll]
  | cons r rest ih =>
      show p ∈ r.points ∪ pointsOfAll rest <-> _
      rw [Finset.mem_union, mem_points_iff, ih]
      simp only [List.mem_cons, exists_eq_or_imp]

theorem not_disjoint_points_iff {r : Span} {points : Finset Nat} :
    ¬ Disjoint r.points points <-> exists p, p ∈ r ∧ p ∈ points := by
  rw [Finset.not_disjoint_iff]
  simp only [mem_points_iff]

end Span

namespace IntervalSet

variable {s t : IntervalSet} {r q : Span} {rest more : List Span} {p : Nat}

/-!
# Sets with the same points
-/

theorem mem_cons_iff : p ∈ (⟨r :: rest⟩ : IntervalSet) <-> p ∈ r ∨ p ∈ (⟨rest⟩ : IntervalSet) := by
  simp only [mem_iff, List.mem_cons, exists_eq_or_imp]

theorem canonical_tail (hs : Canonical ⟨r :: rest⟩) : Canonical ⟨rest⟩ :=
  ⟨fun q hq => hs.occupied q (List.mem_cons_of_mem r hq), (List.pairwise_cons.mp hs.apart).right⟩

theorem stop_lt_of_mem_tail (hs : Canonical ⟨r :: rest⟩) (hp : p ∈ (⟨rest⟩ : IntervalSet)) :
    r.stop < p := by
  rcases hp with ⟨q, hq, hpq⟩
  exact Nat.lt_of_lt_of_le ((List.pairwise_cons.mp hs.apart).left q hq) hpq.left

theorem start_mem_cons (hs : Canonical ⟨r :: rest⟩) : r.start ∈ (⟨r :: rest⟩ : IntervalSet) :=
  mem_cons_iff.mpr (Or.inl ⟨Nat.le_refl _, hs.occupied r List.mem_cons_self⟩)

theorem start_le_of_mem (hs : Canonical ⟨r :: rest⟩) (hp : p ∈ (⟨r :: rest⟩ : IntervalSet)) :
    r.start ≤ p := by
  rcases mem_cons_iff.mp hp with hp | hp
  · exact hp.left
  · have hbehind := stop_lt_of_mem_tail hs hp
    have hoccupied := hs.occupied r List.mem_cons_self
    omega

theorem stop_not_mem_cons (hs : Canonical ⟨r :: rest⟩) : r.stop ∉ (⟨r :: rest⟩ : IntervalSet) := by
  intro hp
  rcases mem_cons_iff.mp hp with hp | hp
  · exact Nat.lt_irrefl _ hp.right
  · exact Nat.lt_irrefl _ (stop_lt_of_mem_tail hs hp)

theorem mem_tail_iff (hs : Canonical ⟨r :: rest⟩) :
    p ∈ (⟨rest⟩ : IntervalSet) <-> p ∈ (⟨r :: rest⟩ : IntervalSet) ∧ r.stop < p := by
  constructor
  · intro hp
    exact ⟨mem_cons_iff.mpr (Or.inr hp), stop_lt_of_mem_tail hs hp⟩
  · intro h
    rcases mem_cons_iff.mp h.left with hp | hp
    · exact absurd hp.right (Nat.not_lt_of_lt h.right)
    · exact hp

/-- Where a set starts and where its first run ends can be read off its points. -/
theorem head_eq (hs : Canonical ⟨r :: rest⟩) (ht : Canonical ⟨q :: more⟩)
    (h : forall p, p ∈ (⟨r :: rest⟩ : IntervalSet) <-> p ∈ (⟨q :: more⟩ : IntervalSet)) :
    r = q := by
  have hstart : r.start = q.start :=
    Nat.le_antisymm (start_le_of_mem hs ((h q.start).mpr (start_mem_cons ht)))
      (start_le_of_mem ht ((h r.start).mp (start_mem_cons hs)))
  have hoccupied := hs.occupied r List.mem_cons_self
  have hoccupied' := ht.occupied q List.mem_cons_self
  have hle : r.stop ≤ q.stop := by
    apply Nat.le_of_not_lt
    intro hlt
    apply stop_not_mem_cons ht
    exact (h q.stop).mp (mem_cons_iff.mpr (Or.inl ⟨by omega, hlt⟩))
  have hge : q.stop ≤ r.stop := by
    apply Nat.le_of_not_lt
    intro hlt
    apply stop_not_mem_cons hs
    exact (h r.stop).mpr (mem_cons_iff.mpr (Or.inl ⟨by omega, hlt⟩))
  cases r
  cases q
  cases hstart
  cases Nat.le_antisymm hle hge
  rfl

theorem spans_eq_of_mem_iff {spans spans' : List Span} (hs : Canonical ⟨spans⟩)
    (ht : Canonical ⟨spans'⟩)
    (h : forall p, p ∈ (⟨spans⟩ : IntervalSet) <-> p ∈ (⟨spans'⟩ : IntervalSet)) :
    spans = spans' := by
  induction spans generalizing spans' with
  | nil =>
      cases spans' with
      | nil => rfl
      | cons q more => exact absurd ((h q.start).mpr (start_mem_cons ht)) not_mem_empty
  | cons r rest ih =>
      cases spans' with
      | nil => exact absurd ((h r.start).mp (start_mem_cons hs)) not_mem_empty
      | cons q more =>
          have hhead := head_eq hs ht h
          subst hhead
          rw [ih (canonical_tail hs) (canonical_tail ht)]
          intro p
          rw [mem_tail_iff hs, mem_tail_iff ht, h]

theorem eq_of_mem_iff (hs : s.Canonical) (ht : t.Canonical) (h : forall p, p ∈ s <-> p ∈ t) :
    s = t := by
  cases s
  cases t
  rw [spans_eq_of_mem_iff hs ht h]

theorem foldl_union_eq {spans spans' : List Span} (hs : s.Canonical)
    (h : forall p, (exists r, r ∈ spans ∧ p ∈ r) <-> exists r, r ∈ spans' ∧ p ∈ r) :
    spans.foldl union s = spans'.foldl union s := by
  apply eq_of_mem_iff (foldl_union hs).left (foldl_union hs).left
  intro p
  rw [(foldl_union hs).right, (foldl_union hs).right, h]

theorem ofSpans_congr {spans spans' : List Span} (h : forall r, r ∈ spans <-> r ∈ spans') :
    ofSpans spans = ofSpans spans' := by
  apply foldl_union_eq canonical_empty
  intro p
  simp only [h]

/-!
# Finding and counting
-/

theorem find_eq_some_iff (hs : s.Canonical) :
    s.find p = some r <->
      r ∈ s.spans ∧ p < r.stop ∧ forall q, q ∈ s.spans -> p < q.stop -> r.start ≤ q.start := by
  rcases s with ⟨spans⟩
  induction spans with
  | nil => simp [find]
  | cons first rest ih =>
      have hfirst := hs.occupied first List.mem_cons_self
      have hlater := (List.pairwise_cons.mp hs.apart).left
      by_cases hends : p < first.stop
      · have hfound : find ⟨first :: rest⟩ p = some first := by simp [find, hends]
        rw [hfound]
        constructor
        · intro h
          cases h
          refine ⟨List.mem_cons_self, hends, ?_⟩
          intro q hq _
          cases hq with
          | head => exact Nat.le_refl _
          | tail _ hq => exact Nat.le_of_lt (Nat.lt_trans hfirst (hlater q hq))
        · intro h
          rcases List.mem_cons.mp h.left with rfl | hr
          · rfl
          · have hbehind := hlater r hr
            have hlowest := h.right.right first List.mem_cons_self hends
            omega
      · have hpassed : find ⟨first :: rest⟩ p = find ⟨rest⟩ p := by simp [find, hends]
        rw [hpassed, ih (canonical_tail hs)]
        constructor
        · intro h
          refine ⟨List.mem_cons_of_mem first h.left, h.right.left, ?_⟩
          intro q hq hlt
          rcases List.mem_cons.mp hq with rfl | hq
          · exact absurd hlt hends
          · exact h.right.right q hq hlt
        · intro h
          rcases List.mem_cons.mp h.left with rfl | hr
          · exact absurd h.right.left hends
          · exact ⟨hr, h.right.left, fun q hq => h.right.right q (List.mem_cons_of_mem first hq)⟩

theorem find_eq_none_iff : s.find p = none <-> forall q, q ∈ s.spans -> q.stop ≤ p := by
  simp [find]

theorem size_eq_card (hs : s.Canonical) : s.size = (Span.pointsOfAll s.spans).card := by
  rcases s with ⟨spans⟩
  induction spans with
  | nil => rfl
  | cons r rest ih =>
      have hapart : Disjoint r.points (Span.pointsOfAll rest) := by
        apply Finset.disjoint_left.mpr
        intro p hp hrest
        have hbehind := stop_lt_of_mem_tail hs (Span.mem_pointsOfAll_iff.mp hrest)
        exact Nat.lt_asymm hbehind (Span.mem_points_iff.mp hp).right
      have htail : size ⟨rest⟩ = (Span.pointsOfAll rest).card := ih (canonical_tail hs)
      calc size ⟨r :: rest⟩ = (r.stop - r.start) + size ⟨rest⟩ := rfl
        _ = r.points.card + (Span.pointsOfAll rest).card := by
          rw [htail, Span.points, Nat.card_Ico]
        _ = (r.points ∪ Span.pointsOfAll rest).card := (Finset.card_union_of_disjoint hapart).symm

/-!
# Editing

Edits start from the empty set.  A refused insertion leaves the set as it was.
-/

inductive Edit where
  | insert (r : Span)
  | union (r : Span)
  | clear
  | collect (spans : List Span)

def edit (s : IntervalSet) : Edit -> Except Error Unit × IntervalSet
  | .insert r =>
      match s.insert r with
      | .ok t => (.ok (), t)
      | .error e => (.error e, s)
  | .union r => (.ok (), s.union r)
  | .clear => (.ok (), empty)
  | .collect spans => (.ok (), ofSpans spans)

def edited (edits : List Edit) : IntervalSet := edits.foldl (fun s e => (s.edit e).2) empty

def editPoints (points : Finset Nat) : Edit -> Except Error Unit × Finset Nat
  | .insert r =>
      if Disjoint r.points points then (.ok (), points ∪ r.points)
      else (.error (.overlappingRange r.start r.stop), points)
  | .union r => (.ok (), points ∪ r.points)
  | .clear => (.ok (), ∅)
  | .collect spans => (.ok (), Span.pointsOfAll spans)

def editedPoints (edits : List Edit) : Finset Nat :=
  edits.foldl (fun points e => (editPoints points e).2) ∅

/-- The spans are in order, not empty and apart from each other, and hold exactly these points. -/
structure Represents (s : IntervalSet) (points : Finset Nat) : Prop where
  canonical : s.Canonical
  held : forall p, p ∈ points <-> exists r, r ∈ s.spans ∧ p ∈ r

variable {points : Finset Nat}

theorem represents_union (hs : s.Represents points) (r : Span) :
    (s.union r).Represents (points ∪ r.points) := by
  refine ⟨canonical_union hs.canonical r, ?_⟩
  intro p
  rw [Finset.mem_union, hs.held, Span.mem_points_iff]
  exact (mem_union_iff hs.canonical).symm

theorem overlaps_iff_not_disjoint (hs : s.Represents points) :
    s.overlaps r = true <-> ¬ Disjoint r.points points := by
  rw [overlaps_iff hs.canonical, Span.not_disjoint_points_iff]
  simp only [hs.held, mem_iff]

theorem edit_insert_refused (hs : s.Represents points) (h : ¬ Disjoint r.points points) :
    s.edit (.insert r) = (.error (.overlappingRange r.start r.stop), s) := by
  simp [edit, insert, (overlaps_iff_not_disjoint hs).mpr h]

theorem edit_insert_accepted (hs : s.Represents points) (h : Disjoint r.points points) :
    s.edit (.insert r) = (.ok (), s.union r) := by
  have hfree : s.overlaps r = false := by
    apply Bool.eq_false_iff.mpr
    intro hoverlaps
    exact (overlaps_iff_not_disjoint hs).mp hoverlaps h
  simp [edit, insert, hfree]

theorem edit_refines (hs : s.Represents points) (e : Edit) :
    (s.edit e).1 = (editPoints points e).1 ∧ (s.edit e).2.Represents (editPoints points e).2 := by
  cases e with
  | insert r =>
      by_cases h : Disjoint r.points points
      · rw [edit_insert_accepted hs h, editPoints, if_pos h]
        exact ⟨rfl, represents_union hs r⟩
      · rw [edit_insert_refused hs h, editPoints, if_neg h]
        exact ⟨rfl, hs⟩
  | union r => exact ⟨rfl, represents_union hs r⟩
  | clear => exact ⟨rfl, canonical_empty, fun p => by simp [editPoints, edit, empty]⟩
  | collect spans =>
      refine ⟨rfl, canonical_ofSpans spans, ?_⟩
      intro p
      rw [editPoints, Span.mem_pointsOfAll_iff]
      exact mem_ofSpans_iff.symm

theorem edited_refines (edits : List Edit) : (edited edits).Represents (editedPoints edits) := by
  have hrun : forall (s : IntervalSet) (points : Finset Nat), s.Represents points ->
      (edits.foldl (fun s e => (s.edit e).2) s).Represents
        (edits.foldl (fun points e => (editPoints points e).2) points) := by
    induction edits with
    | nil =>
        intro s points hs
        exact hs
    | cons e rest ih =>
        intro s points hs
        exact ih _ _ (edit_refines hs e).right
  exact hrun empty ∅ ⟨canonical_empty, fun p => by simp [empty]⟩

theorem size_eq_of_represents (hs : s.Represents points) : s.size = points.card := by
  have hpoints : points = Span.pointsOfAll s.spans := by
    ext p
    rw [hs.held, Span.mem_pointsOfAll_iff]
  rw [size_eq_card hs.canonical, hpoints]

end IntervalSet
end SafeRestart
