import SafeRestart.Proofs.Splice

/-!
# Equal sets

Two sets are equal as tables of spans exactly when they hold the same points, whatever edits they
come from.  So the result shows neither the order of the spans that were collected, nor how they
were cut, nor whether they came more than once.
-/

namespace SafeRestart

namespace Span

variable {r : Span} {cuts : List Nat} {p : Nat}

def pieces (r : Span) : List Nat -> List Span
  | [] => [r]
  | c :: cuts => ⟨r.start, c⟩ :: pieces ⟨c, r.stop⟩ cuts

/-- The pieces hold all points of the span, and no others between `low` and its end.  Cuts come in
any order, so a later piece may begin before the span that is left, though not before `low`. -/
theorem points_of_pieces {low : Nat} (hlow : low ≤ r.start)
    (hcuts : forall c, c ∈ cuts -> low ≤ c ∧ c ≤ r.stop) :
    (p ∈ r -> exists q, q ∈ r.pieces cuts ∧ p ∈ q) ∧
      ((exists q, q ∈ r.pieces cuts ∧ p ∈ q) -> low ≤ p ∧ p < r.stop) := by
  induction cuts generalizing r with
  | nil =>
      simp only [pieces, List.mem_singleton, exists_eq_left]
      exact ⟨id, fun hp => ⟨Nat.le_trans hlow hp.left, hp.right⟩⟩
  | cons c cuts ih =>
      have hcut := hcuts c List.mem_cons_self
      have hrest := ih (r := ⟨c, r.stop⟩) hcut.left fun d hd => hcuts d (List.mem_cons_of_mem c hd)
      simp only [pieces, List.mem_cons, exists_eq_or_imp]
      constructor
      · intro hp
        by_cases hleft : p < c
        · exact Or.inl ⟨hp.left, hleft⟩
        · exact Or.inr (hrest.left ⟨Nat.le_of_not_lt hleft, hp.right⟩)
      · intro hp
        rcases hp with hp | hp
        · exact ⟨Nat.le_trans hlow hp.left, Nat.lt_of_lt_of_le hp.right hcut.right⟩
        · exact hrest.right hp

theorem exists_mem_pieces_iff (hcuts : forall c, c ∈ cuts -> r.start ≤ c ∧ c ≤ r.stop) :
    (exists q, q ∈ r.pieces cuts ∧ p ∈ q) <-> p ∈ r := by
  have hpoints := points_of_pieces (p := p) (Nat.le_refl r.start) hcuts
  exact ⟨hpoints.right, hpoints.left⟩

end Span

namespace IntervalSet

variable {s : IntervalSet} {edits edits' : List Edit} {r : Span} {cuts : List Nat}

/-!
# Unions that change nothing
-/

theorem foldl_union_pieces (hs : s.Canonical)
    (hcuts : forall c, c ∈ cuts -> r.start ≤ c ∧ c ≤ r.stop) :
    (r.pieces cuts).foldl union s = s.union r := by
  have hpoints : forall p, (exists q, q ∈ r.pieces cuts ∧ p ∈ q) <-> exists q, q ∈ [r] ∧ p ∈ q := by
    intro p
    rw [Span.exists_mem_pieces_iff hcuts]
    simp only [List.mem_singleton, exists_eq_left]
  exact foldl_union_eq hs hpoints

theorem union_of_held (hs : s.Canonical) (hheld : forall p, p ∈ r -> s.contains p = true) :
    s.union r = s := by
  apply eq_of_mem_iff (canonical_union hs r) hs
  intro p
  rw [mem_union_iff hs]
  exact or_iff_left_of_imp fun hp => (contains_iff hs).mp (hheld p hp)

/-!
# Reworked edits
-/

/-- The second list of edits reworks the first one, which starts from `s`: a successful insertion
may become a union, a union may be cut into pieces, and spans may be added that are already held. -/
inductive Reworked : IntervalSet -> List Edit -> List Edit -> Prop where
  | nil (s : IntervalSet) : Reworked s [] []
  | keep {s : IntervalSet} {edits edits' : List Edit} (e : Edit) :
      Reworked (s.edit e).2 edits edits' -> Reworked s (e :: edits) (e :: edits')
  | relax {s : IntervalSet} {edits edits' : List Edit} {r : Span} :
      (s.edit (.insert r)).1 = .ok () -> Reworked (s.edit (.insert r)).2 edits edits' ->
        Reworked s (.insert r :: edits) (.union r :: edits')
  | cut {s : IntervalSet} {edits edits' : List Edit} {r : Span} {cuts : List Nat} :
      (forall c, c ∈ cuts -> r.start ≤ c ∧ c ≤ r.stop) -> Reworked (s.union r) edits edits' ->
        Reworked s (.union r :: edits) ((r.pieces cuts).map .union ++ edits')
  | again {s : IntervalSet} {edits edits' : List Edit} {r : Span} :
      (forall p, p ∈ r -> s.contains p = true) -> Reworked s edits edits' ->
        Reworked s edits (.union r :: edits')

theorem edit_insert_of_ok (h : (s.edit (.insert r)).1 = .ok ()) :
    (s.edit (.insert r)).2 = s.union r := by
  by_cases hoverlaps : s.overlaps r = true
  · rw [edit, insert, if_pos hoverlaps] at h
    cases h
  · rw [edit, insert, if_neg hoverlaps]

theorem foldl_edit_reworked (hs : s.Canonical) (h : Reworked s edits edits') :
    edits'.foldl (fun s e => (s.edit e).2) s = edits.foldl (fun s e => (s.edit e).2) s := by
  induction h with
  | nil s => rfl
  | keep e _ ih => exact ih (canonical_edit hs e)
  | @relax s edits edits' r hok _ ih =>
      rw [List.foldl_cons, List.foldl_cons, ← ih (canonical_edit hs (.insert r)),
        edit_insert_of_ok hok]
      rfl
  | @cut s edits edits' r cuts hcuts _ ih =>
      rw [List.foldl_append, List.foldl_map]
      calc edits'.foldl (fun s e => (s.edit e).2) ((r.pieces cuts).foldl union s)
          = edits'.foldl (fun s e => (s.edit e).2) (s.union r) := by
            rw [foldl_union_pieces hs hcuts]
        _ = edits.foldl (fun s e => (s.edit e).2) (s.union r) := ih (canonical_union hs r)
  | @again s edits edits' r hheld _ ih =>
      calc edits'.foldl (fun s e => (s.edit e).2) (s.union r)
          = edits'.foldl (fun s e => (s.edit e).2) s := by rw [union_of_held hs hheld]
        _ = edits.foldl (fun s e => (s.edit e).2) s := ih hs

/-!
# Equality and points
-/

theorem edited_eq_iff (edits edits' : List Edit) :
    edited edits = edited edits' <->
      forall p, (edited edits).contains p = (edited edits').contains p := by
  have hs := (edited_refines edits).canonical
  have ht := (edited_refines edits').canonical
  constructor
  · intro h p
    rw [h]
  · intro h
    apply eq_of_mem_iff hs ht
    intro p
    rw [← contains_iff hs, ← contains_iff ht, h]

theorem ofSpans_pieces (before after : List Span)
    (hcuts : forall c, c ∈ cuts -> r.start ≤ c ∧ c ≤ r.stop) :
    ofSpans (before ++ r.pieces cuts ++ after) = ofSpans (before ++ r :: after) := by
  have hpieces : (r.pieces cuts).foldl union (before.foldl union empty) =
      (before.foldl union empty).union r := foldl_union_pieces (canonical_ofSpans before) hcuts
  unfold ofSpans
  rw [List.foldl_append, List.foldl_append, List.foldl_append, List.foldl_cons, hpieces]

theorem ofSpans_repeated {before after : List Span} (hr : r ∈ before ++ after) :
    ofSpans (before ++ r :: after) = ofSpans (before ++ after) := by
  apply ofSpans_congr
  intro q
  rw [List.perm_middle.mem_iff, List.mem_cons]
  exact or_iff_right_of_imp fun hq => hq ▸ hr

/-- A set is the same table as another exactly when it holds the same points.  Hence spans may be
collected in any order, in pieces or repeatedly, and edits may be reworked. -/
theorem equal_exactly_with_same_points :
    (forall edits, spliced edits = .ok (edited edits)) ∧
    (forall edits edits', edited edits = edited edits' <->
      forall p, (edited edits).contains p = (edited edits').contains p) ∧
    (forall spans moved, spans.Perm moved -> ofSpans moved = ofSpans spans) ∧
    (forall before after r cuts, (forall c, c ∈ cuts -> r.start ≤ c ∧ c ≤ r.stop) ->
      ofSpans (before ++ r.pieces cuts ++ after) = ofSpans (before ++ r :: after)) ∧
    (forall before after r, r ∈ before ++ after ->
      ofSpans (before ++ r :: after) = ofSpans (before ++ after)) ∧
    forall edits edits', Reworked empty edits edits' -> edited edits' = edited edits :=
  ⟨spliced_eq_edited, edited_eq_iff,
    fun _ _ hperm => ofSpans_congr fun _ => hperm.mem_iff.symm,
    fun before after _ _ hcuts => ofSpans_pieces before after hcuts,
    fun _ _ _ hr => ofSpans_repeated hr,
    fun _ _ h => foldl_edit_reworked canonical_empty h⟩

def draft : List Edit := [.insert ⟨2, 4⟩, .union ⟨4, 9⟩, .insert ⟨3, 5⟩, .insert ⟨9, 11⟩]

/-- The insertion of the span from 3 to 5 is refused, so it has to stay. -/
def redraft : List Edit :=
  [.union ⟨2, 4⟩, .union ⟨4, 6⟩, .union ⟨6, 9⟩, .union ⟨3, 8⟩, .insert ⟨3, 5⟩, .union ⟨9, 11⟩]

theorem redraft_equal :
    Reworked empty draft redraft ∧ edited redraft = edited draft ∧
      ofSpans ([⟨8, 9⟩] ++ Span.pieces ⟨2, 7⟩ [5, 3] ++ [⟨0, 1⟩]) =
        ofSpans ([⟨8, 9⟩] ++ ⟨2, 7⟩ :: [⟨0, 1⟩]) := by
  rcases equal_exactly_with_same_points with ⟨_, _, _, hpieces, _, hreworked⟩
  have hheld : forall p, p ∈ (⟨3, 8⟩ : Span) -> contains ⟨[⟨2, 9⟩]⟩ p = true := by
    intro p hp
    have hends : p < 9 := Nat.lt_trans hp.right (by decide)
    have hstarts : 2 ≤ p := Nat.le_trans (by decide) hp.left
    simp [contains, find, hends, hstarts]
  have h : Reworked empty draft redraft := by
    apply Reworked.relax rfl
    apply @Reworked.cut _ _ [.union ⟨3, 8⟩, .insert ⟨3, 5⟩, .union ⟨9, 11⟩] ⟨4, 9⟩ [6] (by decide)
    apply Reworked.again hheld
    apply Reworked.keep
    exact Reworked.relax rfl (.nil _)
  exact ⟨h, hreworked draft redraft h, hpieces _ _ _ _ (by decide)⟩

end IntervalSet
end SafeRestart
