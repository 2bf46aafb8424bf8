import SafeRestart.Interval.Gaps

/-!
# Interval sets as sets of points

An interval set stands for the points of its spans.  As long as its spans are in order, not empty
and apart from each other, looking a point up in the list of spans decides membership, adding a span
adds exactly its points, and what a span leaves free is found in one pass.
-/

namespace SafeRestart

instance : Membership Nat Span := ⟨fun r p => r.start ≤ p ∧ p < r.stop⟩

instance : Membership Nat IntervalSet := ⟨fun s p => exists r, r ∈ s.spans ∧ p ∈ r⟩

instance (r : Span) (p : Nat) : Decidable (p ∈ r) :=
  inferInstanceAs (Decidable (r.start ≤ p ∧ p < r.stop))

instance (s : IntervalSet) (p : Nat) : Decidable (p ∈ s) :=
  inferInstanceAs (Decidable (exists r, r ∈ s.spans ∧ p ∈ r))

theorem Span.mem_iff {r : Span} {p : Nat} : p ∈ r <-> r.start ≤ p ∧ p < r.stop := Iff.rfl

/-!
# The two points of a slot
-/

namespace Span

variable {j k : Nat}

theorem use_mem_use_iff : 2 * j ∈ (⟨2 * k, 2 * k + 1⟩ : Span) <-> j = k := by
  show 2 * k ≤ 2 * j ∧ 2 * j < 2 * k + 1 <-> j = k
  omega

theorem def_not_mem_use : 2 * j + 1 ∉ (⟨2 * k, 2 * k + 1⟩ : Span) := by
  show ¬ (2 * k ≤ 2 * j + 1 ∧ 2 * j + 1 < 2 * k + 1)
  omega

theorem def_mem_def_iff : 2 * j + 1 ∈ (⟨2 * k + 1, 2 * k + 2⟩ : Span) <-> j = k := by
  show 2 * k + 1 ≤ 2 * j + 1 ∧ 2 * j + 1 < 2 * k + 2 <-> j = k
  omega

theorem use_not_mem_def : 2 * j ∉ (⟨2 * k + 1, 2 * k + 2⟩ : Span) := by
  show ¬ (2 * k + 1 ≤ 2 * j ∧ 2 * j < 2 * k + 2)
  omega

/-!
# Splitting a span
-/

variable {r g conflict : Span} {p : Nat}

theorem split_le_stop (hconflict : conflict.start < conflict.stop) :
    (r.split conflict).2 ≤ conflict.stop := by
  unfold split
  split
  · rename_i hbefore
    exact Nat.le_of_lt (Nat.lt_of_le_of_lt hbefore hconflict)
  · split
    · exact Nat.le_refl _
    · exact Nat.le_refl _

theorem mem_split_iff (hconflict : conflict.start < conflict.stop) :
    (exists g, g ∈ (r.split conflict).1.toList ∧ p ∈ g) <->
      p ∈ r ∧ p < (r.split conflict).2 ∧ p < conflict.start := by
  unfold split
  split
  · simp only [Option.toList_some, List.mem_singleton, exists_eq_left, mem_iff]
    omega
  · split
    · simp only [Option.toList_none, List.not_mem_nil, false_and, exists_false, false_iff, mem_iff]
      omega
    · simp only [Option.toList_some, List.mem_singleton, exists_eq_left, mem_iff]
      omega

theorem bounds_of_mem_split (hconflict : conflict.start < conflict.stop)
    (hg : g ∈ (r.split conflict).1.toList) :
    r.start ≤ g.start ∧ g.stop ≤ (r.split conflict).2 := by
  unfold split at hg ⊢
  split at hg
  · rename_i hbefore
    rw [if_pos hbefore]
    cases List.mem_singleton.mp hg
    exact ⟨Nat.le_refl _, Nat.le_refl _⟩
  · rename_i hbefore
    rw [if_neg hbefore]
    split at hg
    · cases hg
    · rename_i hinside
      rw [if_neg hinside]
      cases List.mem_singleton.mp hg
      exact ⟨Nat.le_refl _, Nat.le_of_lt hconflict⟩

end Span

namespace IntervalSet

theorem mem_iff {s : IntervalSet} {p : Nat} : p ∈ s <-> exists r, r ∈ s.spans ∧ p ∈ r := Iff.rfl

/-- The spans are not empty, in ascending order, and do not touch each other. -/
structure Canonical (s : IntervalSet) : Prop where
  occupied : forall r, r ∈ s.spans -> r.start < r.stop
  apart : s.spans.Pairwise fun x y => x.stop < y.start

variable {s : IntervalSet} {r q : Span} {spans : List Span} {p x : Nat}

theorem not_mem_empty : p ∉ empty := by
  intro h
  rcases h with ⟨r, hr, _⟩
  cases hr

theorem canonical_empty : empty.Canonical := by
  refine ⟨?_, List.Pairwise.nil⟩
  intro r hr
  cases hr

/-!
# Looking up points
-/

theorem find_some (hs : s.Canonical) (h : s.find p = some r) :
    r ∈ s.spans ∧ p < r.stop ∧ forall x, p ≤ x -> x < r.start -> x ∉ s := by
  rcases List.find?_eq_some_iff_append.mp h with ⟨hlt, before, after, hsplit, hbefore⟩
  have hpos : p < r.stop := by simpa using hlt
  refine ⟨List.mem_of_find?_eq_some h, hpos, ?_⟩
  intro x hpx hxr hx
  rcases hx with ⟨q, hq, hxq⟩
  have happart := hs.apart
  rw [hsplit] at hq happart
  rcases List.mem_append.mp hq with hq | hq
  · have hnot := hbefore q hq
    simp at hnot
    have hlast := hxq.right
    omega
  · rcases List.mem_cons.mp hq with rfl | hq
    · have hfirst := hxq.left
      omega
    · have hgap := (List.pairwise_cons.mp (List.pairwise_append.mp happart).right.left).left q hq
      have hnonempty := hs.occupied r (List.mem_of_find?_eq_some h)
      have hfirst := hxq.left
      omega

theorem find_none (h : s.find p = none) (hpx : p ≤ x) : x ∉ s := by
  intro hx
  rcases hx with ⟨q, hq, hxq⟩
  have hnot := List.find?_eq_none.mp h q hq
  simp at hnot
  have hlast := hxq.right
  omega

theorem contains_iff (hs : s.Canonical) : s.contains p = true <-> p ∈ s := by
  unfold contains
  cases hfind : s.find p with
  | none => simpa using find_none hfind (Nat.le_refl p)
  | some r =>
      rcases find_some hs hfind with ⟨hr, hlt, hfree⟩
      constructor
      · intro h
        exact ⟨r, hr, by simpa using h, hlt⟩
      · intro h
        have hle : r.start ≤ p := Nat.le_of_not_lt fun hpr => hfree p (Nat.le_refl p) hpr h
        simpa using hle

theorem overlaps_iff (hs : s.Canonical) :
    s.overlaps r = true <-> exists x, x ∈ r ∧ x ∈ s := by
  unfold overlaps
  cases hfind : s.find r.start with
  | none =>
      simp only [Option.any_none, Bool.and_false, Bool.false_eq_true, false_iff]
      intro h
      rcases h with ⟨x, hxr, hxs⟩
      exact find_none hfind hxr.left hxs
  | some q =>
      rcases find_some hs hfind with ⟨hq, hlt, hfree⟩
      have hnonempty := hs.occupied q hq
      simp only [Option.any_some, Bool.and_eq_true, decide_eq_true_eq]
      constructor
      · intro h
        refine ⟨max r.start q.start, ?_, q, hq, ?_⟩
        · rw [Span.mem_iff]
          omega
        · rw [Span.mem_iff]
          omega
      · intro h
        rcases h with ⟨x, hxr, hxs⟩
        have hfirst := hxr.left
        have hlast := hxr.right
        have hle : q.start ≤ x := Nat.le_of_not_lt fun hxq => hfree x hfirst hxq hxs
        omega

/-!
# Adding points
-/

theorem mem_absorb_iff (hr : r.start < r.stop)
    (hspans : forall q, q ∈ spans -> q.start < q.stop) :
    (exists q, q ∈ absorb r spans ∧ p ∈ q) <-> (exists q, q ∈ spans ∧ p ∈ q) ∨ p ∈ r := by
  induction spans generalizing r with
  | nil => simp [absorb]
  | cons first rest ih =>
      have hfirst := hspans first List.mem_cons_self
      have hrest : forall q, q ∈ rest -> q.start < q.stop := fun q hq =>
        hspans q (List.mem_cons_of_mem first hq)
      unfold absorb
      split
      · simp only [List.mem_cons, exists_eq_or_imp, ih hr hrest, or_assoc]
      · split
        · simp only [List.mem_cons, exists_eq_or_imp]
          rw [or_comm]
        · rw [ih (by dsimp only; omega) hrest]
          simp only [List.mem_cons, exists_eq_or_imp, Span.mem_iff]
          constructor
          · intro h
            rcases h with hin | hin
            · exact Or.inl (Or.inr hin)
            · by_cases hp : first.start ≤ p ∧ p < first.stop
              · exact Or.inl (Or.inl hp)
              · exact Or.inr (by omega)
          · intro h
            rcases h with (hin | hin) | hin
            · exact Or.inr (by omega)
            · exact Or.inl hin
            · exact Or.inr (by omega)

theorem lt_start_of_mem_absorb {bound : Nat} (hr : bound < r.start)
    (hspans : forall q, q ∈ spans -> bound < q.start) (hq : q ∈ absorb r spans) :
    bound < q.start := by
  induction spans generalizing r with
  | nil =>
      rw [absorb, List.mem_singleton] at hq
      exact hq ▸ hr
  | cons first rest ih =>
      have hfirst := hspans first List.mem_cons_self
      have hrest : forall q, q ∈ rest -> bound < q.start := fun q hq =>
        hspans q (List.mem_cons_of_mem first hq)
      unfold absorb at hq
      split at hq
      · rcases List.mem_cons.mp hq with rfl | hq
        · exact hfirst
        · exact ih hr hrest hq
      · split at hq
        · rcases List.mem_cons.mp hq with rfl | hq
          · exact hr
          · exact hspans q hq
        · exact ih (by dsimp only; omega) hrest hq

theorem canonical_absorb (hr : r.start < r.stop) (hs : Canonical ⟨spans⟩) :
    Canonical ⟨absorb r spans⟩ := by
  induction spans generalizing r with
  | nil =>
      refine ⟨?_, List.pairwise_singleton _ r⟩
      intro q hq
      rw [absorb, List.mem_singleton] at hq
      exact hq ▸ hr
  | cons first rest ih =>
      have hfirst := hs.occupied first List.mem_cons_self
      have hlater := (List.pairwise_cons.mp hs.apart).left
      have hrest : Canonical ⟨rest⟩ :=
        ⟨fun q hq => hs.occupied q (List.mem_cons_of_mem first hq),
          (List.pairwise_cons.mp hs.apart).right⟩
      unfold absorb
      split
      · rename_i hbefore
        have hkept := ih hr hrest
        refine ⟨?_, List.pairwise_cons.mpr ⟨?_, hkept.apart⟩⟩
        · intro q hq
          rcases List.mem_cons.mp hq with rfl | hq
          · exact hfirst
          · exact hkept.occupied q hq
        · intro q hq
          exact lt_start_of_mem_absorb hbefore hlater hq
      · split
        · rename_i hbehind
          refine ⟨?_, List.pairwise_cons.mpr ⟨?_, hs.apart⟩⟩
          · intro q hq
            rcases List.mem_cons.mp hq with rfl | hq
            · exact hr
            · exact hs.occupied q hq
          · intro q hq
            rcases List.mem_cons.mp hq with rfl | hq
            · exact hbehind
            · have hgap := hlater q hq
              omega
        · exact ih (by dsimp only; omega) hrest

theorem canonical_union (hs : s.Canonical) (r : Span) : (s.union r).Canonical := by
  unfold union
  split
  · rename_i hr
    exact canonical_absorb hr hs
  · exact hs

theorem mem_union_iff (hs : s.Canonical) : p ∈ s.union r <-> p ∈ s ∨ p ∈ r := by
  unfold union
  split
  · rename_i hr
    exact mem_absorb_iff hr hs.occupied
  · rename_i hr
    constructor
    · exact Or.inl
    · intro h
      rcases h with h | h
      · exact h
      · have hfirst := h.left
        have hlast := h.right
        omega

theorem foldl_union (hs : s.Canonical) :
    (spans.foldl union s).Canonical ∧
      forall p, p ∈ spans.foldl union s <-> p ∈ s ∨ exists r, r ∈ spans ∧ p ∈ r := by
  induction spans generalizing s with
  | nil => exact ⟨hs, fun p => by simp⟩
  | cons r rest ih =>
      rcases ih (canonical_union hs r) with ⟨hcanonical, hmem⟩
      refine ⟨hcanonical, ?_⟩
      intro p
      rw [List.foldl_cons, hmem, mem_union_iff hs]
      simp only [List.mem_cons, exists_eq_or_imp, or_assoc]

theorem canonical_ofSpans (spans : List Span) : (ofSpans spans).Canonical :=
  (foldl_union canonical_empty).left

theorem mem_ofSpans_iff : p ∈ ofSpans spans <-> exists r, r ∈ spans ∧ p ∈ r := by
  rw [ofSpans, (foldl_union canonical_empty).right]
  simp [not_mem_empty]

/-!
# Gaps
-/

/-- The gaps of a span are its free points, cut into spans that follow each other. -/
structure GapsOf (s : IntervalSet) (r : Span) (gaps : List Span) : Prop where
  points : forall p, (exists g, g ∈ gaps ∧ p ∈ g) <-> p ∈ r ∧ p ∉ s
  bounded : forall g, g ∈ gaps -> r.start ≤ g.start
  ordered : gaps.Pairwise fun x y => x.stop ≤ y.start

theorem gaps_of_empty (h : ¬ r.start < r.stop) : s.gaps r = [] := by
  unfold gaps
  rw [dif_neg h]

theorem gaps_of_find_none (h : r.start < r.stop) (hfind : s.find r.start = none) :
    s.gaps r = [r] := by
  unfold gaps
  rw [dif_pos h]
  split
  · rfl
  · rename_i conflict hsome
    rw [hfind] at hsome
    cases hsome

theorem gaps_of_find_some {conflict : Span} (h : r.start < r.stop)
    (hfind : s.find r.start = some conflict) :
    s.gaps r = (r.split conflict).1.toList ++ s.gaps ⟨(r.split conflict).2, r.stop⟩ := by
  rw [gaps, dif_pos h]
  split
  · rename_i hnone
    rw [hfind] at hnone
    cases hnone
  · rename_i conflict' hsome
    cases hfind.symm.trans hsome
    rfl

theorem gapsOf_append {next : Nat} {free rest : List Span} (hnext : r.start ≤ next)
    (hpoints : forall p, (exists g, g ∈ free ∧ p ∈ g) <-> p ∈ r ∧ p < next ∧ p ∉ s)
    (hfree : forall g, g ∈ free -> r.start ≤ g.start ∧ g.stop ≤ next)
    (hordered : free.Pairwise fun x y => x.stop ≤ y.start)
    (hrest : GapsOf s ⟨next, r.stop⟩ rest) : GapsOf s r (free ++ rest) := by
  constructor
  · intro p
    constructor
    · intro h
      rcases h with ⟨g, hg, hp⟩
      rcases List.mem_append.mp hg with hg | hg
      · rcases (hpoints p).mp ⟨g, hg, hp⟩ with ⟨hr, _, hs⟩
        exact ⟨hr, hs⟩
      · rcases (hrest.points p).mp ⟨g, hg, hp⟩ with ⟨hr, hs⟩
        exact ⟨⟨Nat.le_trans hnext hr.left, hr.right⟩, hs⟩
    · intro h
      by_cases hlt : p < next
      · rcases (hpoints p).mpr ⟨h.left, hlt, h.right⟩ with ⟨g, hg, hp⟩
        exact ⟨g, List.mem_append_left rest hg, hp⟩
      · have hin : p ∈ (⟨next, r.stop⟩ : Span) := ⟨Nat.le_of_not_lt hlt, h.left.right⟩
        rcases (hrest.points p).mpr ⟨hin, h.right⟩ with ⟨g, hg, hp⟩
        exact ⟨g, List.mem_append_right free hg, hp⟩
  · intro g hg
    rcases List.mem_append.mp hg with hg | hg
    · exact (hfree g hg).left
    · exact Nat.le_trans hnext (hrest.bounded g hg)
  · refine List.pairwise_append.mpr ⟨hordered, hrest.ordered, ?_⟩
    intro x hx y hy
    exact Nat.le_trans (hfree x hx).right (hrest.bounded y hy)

theorem gaps_spec (hs : s.Canonical) (r : Span) : GapsOf s r (s.gaps r) := by
  induction r using gaps.induct s with
  | case1 r hnonempty hfind =>
      rw [gaps_of_find_none hnonempty hfind]
      constructor
      · intro p
        simp only [List.mem_singleton, exists_eq_left]
        exact ⟨fun h => ⟨h, find_none hfind h.left⟩, fun h => h.left⟩
      · intro g hg
        exact Nat.le_of_eq (congrArg Span.start (List.mem_singleton.mp hg).symm)
      · exact List.pairwise_singleton _ r
  | case2 r hnonempty conflict hfind ih =>
      rw [gaps_of_find_some hnonempty hfind]
      rcases find_some hs hfind with ⟨hconflict, hlater, hfree⟩
      have htaken : forall p, p ∈ conflict -> p ∈ s := fun p hp => ⟨conflict, hconflict, hp⟩
      have hend := Span.start_lt_split hnonempty hlater
      have hoccupied := hs.occupied conflict hconflict
      -- Up to the point where the split goes on, only the points before the conflict are free.
      apply gapsOf_append (Nat.le_of_lt hend)
      · intro p
        rw [Span.mem_split_iff hoccupied]
        apply and_congr_right
        intro hr
        apply and_congr_right
        intro hp
        constructor
        · intro hbefore
          exact hfree p hr.left hbefore
        · intro hnot
          apply Nat.lt_of_not_le
          intro hle
          exact hnot (htaken p ⟨hle, Nat.lt_of_lt_of_le hp (Span.split_le_stop hoccupied)⟩)
      · intro g hg
        exact Span.bounds_of_mem_split hoccupied hg
      · cases (r.split conflict).1 with
        | none => exact List.Pairwise.nil
        | some g => exact List.pairwise_singleton _ g
      · exact ih
  | case3 r hempty =>
      rw [gaps_of_empty hempty]
      constructor
      · intro p
        simp only [List.not_mem_nil, false_and, exists_false, false_iff]
        intro h
        have hfirst := h.left.left
        have hlast := h.left.right
        omega
      · intro g hg
        cases hg
      · exact List.Pairwise.nil

/-!
# Adding what is free
-/

theorem insert_ok (hs : s.Canonical) (hfree : forall p, p ∈ r -> p ∉ s) :
    s.insert r = .ok (s.union r) := by
  unfold insert
  rw [if_neg]
  intro hoverlap
  rcases (overlaps_iff hs).mp hoverlap with ⟨x, hxr, hxs⟩
  exact hfree x hxr hxs

theorem foldlM_insert_ok (hs : s.Canonical) {parts : List Span}
    (hfree : forall g p, g ∈ parts -> p ∈ g -> p ∉ s)
    (hordered : parts.Pairwise fun x y => x.stop ≤ y.start) :
    exists t, parts.foldlM insert s = .ok t ∧ t.Canonical ∧
      forall p, p ∈ t <-> p ∈ s ∨ exists g, g ∈ parts ∧ p ∈ g := by
  induction parts generalizing s with
  | nil => exact ⟨s, rfl, hs, fun p => by simp⟩
  | cons g rest ih =>
      have hlater := List.pairwise_cons.mp hordered
      have hkept : forall g' p, g' ∈ rest -> p ∈ g' -> p ∉ s.union g := by
        intro g' p hg' hp hmem
        rcases (mem_union_iff hs).mp hmem with hmem | hmem
        · exact hfree g' p (List.mem_cons_of_mem g hg') hp hmem
        · have hgap := hlater.left g' hg'
          have hfirst := hp.left
          have hlast := hmem.right
          omega
      rcases ih (canonical_union hs g) hkept hlater.right with ⟨t, ht, hcanonical, hmem⟩
      refine ⟨t, ?_, hcanonical, ?_⟩
      · rw [List.foldlM_cons, insert_ok hs fun p => hfree g p List.mem_cons_self]
        exact ht
      · intro p
        rw [hmem, mem_union_iff hs]
        simp only [List.mem_cons, exists_eq_or_imp, or_assoc]

theorem foldlM_insert_gaps_ok (hs : s.Canonical) (r : Span) :
    exists t, (s.gaps r).foldlM insert s = .ok t ∧ t.Canonical ∧
      forall p, p ∈ t <-> p ∈ s ∨ p ∈ r := by
  have hgaps := gaps_spec hs r
  have hfree : forall g p, g ∈ s.gaps r -> p ∈ g -> p ∉ s := fun g p hg hp =>
    ((hgaps.points p).mp ⟨g, hg, hp⟩).right
  rcases foldlM_insert_ok hs hfree hgaps.ordered with ⟨t, ht, hcanonical, hmem⟩
  refine ⟨t, ht, hcanonical, ?_⟩
  intro p
  rw [hmem, hgaps.points]
  by_cases hp : p ∈ s
  · simp [hp]
  · simp [hp]

theorem foldlM_parts_ok (hs : s.Canonical) (parts : List Span) :
    exists t, parts.foldlM (fun s part => (s.gaps part).foldlM insert s) s = .ok t ∧
      t.Canonical ∧ forall p, p ∈ t <-> p ∈ s ∨ exists g, g ∈ parts ∧ p ∈ g := by
  induction parts generalizing s with
  | nil => exact ⟨s, rfl, hs, fun p => by simp⟩
  | cons part rest ih =>
      rcases foldlM_insert_gaps_ok hs part with ⟨t, ht, hcanonical, hmem⟩
      rcases ih hcanonical with ⟨t', ht', hcanonical', hmem'⟩
      refine ⟨t', ?_, hcanonical', ?_⟩
      · rw [List.foldlM_cons, ht]
        exact ht'
      · intro p
        rw [hmem', hmem]
        simp only [List.mem_cons, exists_eq_or_imp, or_assoc]

theorem insertOutside_total (hs : s.Canonical) (live : IntervalSet) (r : Span) :
    exists t, s.insertOutside live r = .ok t ∧ t.Canonical := by
  rcases foldlM_parts_ok hs (live.gaps r) with ⟨t, ht, hcanonical, _⟩
  exact ⟨t, ht, hcanonical⟩

theorem insertOutside_ok {live : IntervalSet} (hs : s.Canonical) (hlive : live.Canonical)
    (r : Span) :
    exists t, s.insertOutside live r = .ok t ∧ t.Canonical ∧
      forall p, p ∈ t <-> p ∈ s ∨ (p ∈ r ∧ p ∉ live) := by
  rcases foldlM_parts_ok hs (live.gaps r) with ⟨t, ht, hcanonical, hmem⟩
  refine ⟨t, ht, hcanonical, ?_⟩
  intro p
  rw [hmem, (gaps_spec hlive r).points]

end IntervalSet
end SafeRestart
