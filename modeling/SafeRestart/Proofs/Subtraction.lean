import SafeRestart.Proofs.Guarded.Gaps
import SafeRestart.Proofs.Splice

/-!
# Subtraction with cursors

The points of a span outside a live set can be added to a shadow in one pass.  An outer cursor moves
from one live span to the next, and an inner cursor fills the stretch between them, moving from one
span of the shadow to the next.  Both cursors may come to rest beyond the end they were heading for,
but what they skip is live or in the shadow already.
-/

namespace SafeRestart

open Guarded

theorem Span.start_lt_part {candidate conflict part : Span}
    (h : candidate.start < candidate.stop) (hpart : (candidate.split conflict).1 = some part) :
    candidate.start < part.stop := by
  unfold split at hpart
  split at hpart
  · cases hpart
    exact h
  · split at hpart
    · cases hpart
    · rename_i hbefore
      cases hpart
      exact Nat.lt_of_not_le hbefore

namespace IntervalSet

variable {s t live : IntervalSet} {r free : Span} {stop inner outer next c : Nat}

/-!
# Splitting at the first conflict
-/

/-- The first span of a set that ends after `inner` can always be split off.  Up to the point where
the split goes on nothing is free, or the points are free up to some end and taken from there on. -/
theorem guardedSplit_of_find {conflict : Span} (hs : s.Canonical) (h : inner < stop)
    (hfind : s.find inner = some conflict) :
    exists next, inner < next ∧
      ((Span.guardedSplit ⟨inner, stop⟩ conflict = .ok (none, next) ∧
        forall p, inner ≤ p -> p < next -> p ∈ s) ∨
      exists upto, Span.guardedSplit ⟨inner, stop⟩ conflict = .ok (some ⟨inner, upto⟩, next) ∧
        inner < upto ∧ upto ≤ stop ∧ (forall p, inner ≤ p -> p < upto -> p ∉ s) ∧
        forall p, upto ≤ p -> p < next -> p ∈ s) := by
  rcases find_some hs hfind with ⟨hmem, hlater, hfree⟩
  have hconflict := hs.occupied conflict hmem
  have htaken : forall p, conflict.start ≤ p -> p < conflict.stop -> p ∈ s :=
    fun p hstart hstop => ⟨conflict, hmem, hstart, hstop⟩
  rw [Span.guardedSplit, if_pos ⟨h, hconflict, hlater⟩, Span.split]
  dsimp only
  by_cases hbehind : stop ≤ conflict.start
  · rw [if_pos hbehind]
    refine ⟨stop, h, Or.inr ⟨stop, rfl, h, Nat.le_refl _, ?_, by omega⟩⟩
    intro p hstart hstop
    exact hfree p hstart (Nat.lt_of_lt_of_le hstop hbehind)
  · rw [if_neg hbehind]
    by_cases hcovers : conflict.start ≤ inner
    · rw [if_pos hcovers]
      refine ⟨conflict.stop, hlater, Or.inl ⟨rfl, ?_⟩⟩
      intro p hstart
      exact htaken p (Nat.le_trans hcovers hstart)
    · rw [if_neg hcovers]
      exact ⟨conflict.stop, hlater, Or.inr ⟨conflict.start, rfl, Nat.lt_of_not_le hcovers,
        Nat.le_of_lt (Nat.lt_of_not_le hbehind), hfree, htaken⟩⟩

/-!
# The inner cursor
-/

/-- Adds the points from the cursor `inner` up to `stop` that the set does not hold, one free
stretch after the other.  Answers where the cursor comes to rest, and the set. -/
def fill (stop inner : Nat) (s : IntervalSet) : Guarded (Nat × IntervalSet) :=
  if inner < stop then
    match s.find inner with
    | none => do
        let s ← ExceptT.mk (s.splicedInsert ⟨inner, stop⟩)
        fill stop stop s
    | some conflict =>
        match _split : Span.guardedSplit ⟨inner, stop⟩ conflict with
        | .error fault => ofLookUp (.error fault)
        | .ok (none, next) => fill stop next s
        | .ok (some part, next) => do
            let s ← ExceptT.mk (s.splicedInsert part)
            fill stop next s
  else
    return (inner, s)
termination_by stop - inner
decreasing_by
  · omega
  · have hlater := (Span.lt_of_guardedSplit _split).right
    dsimp only at hlater
    omega
  · have hlater := (Span.lt_of_guardedSplit _split).right
    dsimp only at hlater
    omega

theorem fill_of_le (h : ¬ inner < stop) (s : IntervalSet) :
    fill stop inner s = pure (inner, s) := by
  rw [fill, if_neg h]

theorem fill_of_find_none (h : inner < stop) (hfind : s.find inner = none) :
    fill stop inner s =
      ExceptT.mk (s.splicedInsert ⟨inner, stop⟩) >>= fun s => fill stop stop s := by
  rw [fill, if_pos h, hfind]

theorem fill_of_fault {conflict : Span} {fault : Fault} (h : inner < stop)
    (hfind : s.find inner = some conflict)
    (hsplit : Span.guardedSplit ⟨inner, stop⟩ conflict = .error fault) :
    fill stop inner s = ofLookUp (.error fault) := by
  rw [fill, if_pos h, hfind]
  dsimp only
  split
  · rename_i hsame
    cases hsplit.symm.trans hsame
    rfl
  · rename_i hnone
    cases hsplit.symm.trans hnone
  · rename_i hpart
    cases hsplit.symm.trans hpart

theorem fill_of_taken {conflict : Span} (h : inner < stop) (hfind : s.find inner = some conflict)
    (hsplit : Span.guardedSplit ⟨inner, stop⟩ conflict = .ok (none, next)) :
    fill stop inner s = fill stop next s := by
  rw [fill, if_pos h, hfind]
  dsimp only
  split
  · rename_i hfault
    cases hsplit.symm.trans hfault
  · rename_i hsame
    cases hsplit.symm.trans hsame
    rfl
  · rename_i hpart
    cases hsplit.symm.trans hpart

theorem fill_of_part {conflict part : Span} (h : inner < stop)
    (hfind : s.find inner = some conflict)
    (hsplit : Span.guardedSplit ⟨inner, stop⟩ conflict = .ok (some part, next)) :
    fill stop inner s = ExceptT.mk (s.splicedInsert part) >>= fun s => fill stop next s := by
  rw [fill, if_pos h, hfind]
  dsimp only
  split
  · rename_i hfault
    cases hsplit.symm.trans hfault
  · rename_i hnone
    cases hsplit.symm.trans hnone
  · rename_i hsame
    cases hsplit.symm.trans hsame
    rfl

theorem gives_splicedInsert {β : Type} {rest : IntervalSet -> Guarded β} {outcome : Except Error β}
    (hs : s.Canonical) (hfree : forall p, p ∈ r -> p ∉ s)
    (hrest : Gives (rest (s.union r)) outcome) :
    Gives (ExceptT.mk (s.splicedInsert r) >>= rest) outcome := by
  rw [splicedInsert_eq hs, insert_ok hs hfree]
  exact hrest

structure Filled (stop inner : Nat) (s : IntervalSet) (c : Nat) (t : IntervalSet) : Prop where
  canonical : t.Canonical
  passed : stop ≤ c
  points : forall p, p ∈ t <-> p ∈ s ∨ (inner ≤ p ∧ p < stop)
  skipped : forall p, stop ≤ p -> p < c -> p ∈ t

theorem filled_of_turn {m : IntervalSet} {upto : Nat}
    (hm : forall p, p ∈ m <-> p ∈ s ∨ (inner ≤ p ∧ p < upto)) (hupto : upto ≤ stop)
    (hnext : inner ≤ next) (hskipped : forall p, upto ≤ p -> p < next -> p ∈ s)
    (h : Filled stop next m c t) : Filled stop inner s c t := by
  refine ⟨h.canonical, h.passed, ?_, h.skipped⟩
  intro p
  rw [h.points, hm]
  constructor
  · intro hp
    rcases hp with (hp | hp) | hp
    · exact Or.inl hp
    · exact Or.inr ⟨hp.left, Nat.lt_of_lt_of_le hp.right hupto⟩
    · exact Or.inr ⟨Nat.le_trans hnext hp.left, hp.right⟩
  · intro hp
    rcases hp with hp | hp
    · exact Or.inl (Or.inl hp)
    · by_cases hfilled : p < upto
      · exact Or.inl (Or.inr ⟨hp.left, hfilled⟩)
      · by_cases hpassed : p < next
        · exact Or.inl (Or.inl (hskipped p (Nat.le_of_not_lt hfilled) hpassed))
        · exact Or.inr ⟨Nat.le_of_not_lt hpassed, hp.right⟩

/-- The inner cursor comes to rest without a fault or an error; it fills all points up to the end
and skips only points that the set holds. -/
theorem fill_filled (hs : s.Canonical) (hskipped : forall p, stop ≤ p -> p < inner -> p ∈ s) :
    exists c t, Gives (fill stop inner s) (.ok (c, t)) ∧ Filled stop inner s c t := by
  induction inner, s using fill.induct stop with
  | case1 inner s hlt hfind ih =>
      have hfree : forall p, p ∈ (⟨inner, stop⟩ : Span) -> p ∉ s :=
        fun p hp => find_none hfind hp.left
      rcases ih _ (canonical_union hs ⟨inner, stop⟩) (by omega) with ⟨c, t, hgives, hfilled⟩
      rw [fill_of_find_none hlt hfind]
      refine ⟨c, t, gives_splicedInsert hs hfree hgives, ?_⟩
      exact filled_of_turn (fun p => mem_union_iff hs) (Nat.le_refl stop) (Nat.le_of_lt hlt)
        (by omega) hfilled
  | case2 inner s hlt conflict hfind fault hfault =>
      rcases guardedSplit_of_find hs hlt hfind with ⟨next, _, ⟨hsplit, _⟩ | ⟨upto, hsplit, _⟩⟩
      · cases hsplit.symm.trans hfault
      · cases hsplit.symm.trans hfault
  | case3 inner s hlt conflict hfind next hnone ih =>
      rcases guardedSplit_of_find hs hlt hfind with
        ⟨next', hlater, ⟨hsplit, htaken⟩ | ⟨upto, hsplit, _⟩⟩
      · cases hsplit.symm.trans hnone
        have hsame : forall p, p ∈ s <-> p ∈ s ∨ (inner ≤ p ∧ p < inner) :=
          fun p => (or_iff_left (by omega)).symm
        rcases ih hs fun p hp => htaken p (Nat.le_trans (Nat.le_of_lt hlt) hp) with
          ⟨c, t, hgives, hfilled⟩
        rw [fill_of_taken hlt hfind hnone]
        exact ⟨c, t, hgives, filled_of_turn hsame (Nat.le_of_lt hlt) (Nat.le_of_lt hlater) htaken
          hfilled⟩
      · cases hsplit.symm.trans hnone
  | case4 inner s hlt conflict hfind part next hpart ih =>
      rcases guardedSplit_of_find hs hlt hfind with
        ⟨next', hlater, ⟨hsplit, _⟩ | ⟨upto, hsplit, _, hinside, hfree, htaken⟩⟩
      · cases hsplit.symm.trans hpart
      · cases hsplit.symm.trans hpart
        have hskip : forall p, stop ≤ p -> p < next -> p ∈ s.union ⟨inner, upto⟩ :=
          fun p hp hpassed => (mem_union_iff hs).mpr
            (Or.inl (htaken p (Nat.le_trans hinside hp) hpassed))
        rcases ih _ (canonical_union hs ⟨inner, upto⟩) hskip with ⟨c, t, hgives, hfilled⟩
        rw [fill_of_part hlt hfind hpart]
        refine ⟨c, t, gives_splicedInsert hs (fun p hp => hfree p hp.left hp.right) hgives, ?_⟩
        exact filled_of_turn (fun p => mem_union_iff hs) hinside (Nat.le_of_lt hlater) htaken
          hfilled
  | case5 inner s hrest =>
      rw [fill_of_le hrest]
      refine ⟨inner, s, gives_pure _, hs, Nat.le_of_not_lt hrest, ?_, hskipped⟩
      intro p
      constructor
      · exact Or.inl
      · intro hp
        rcases hp with hp | hp
        · exact hp
        · exact absurd (Nat.lt_of_le_of_lt hp.left hp.right) hrest

/-!
# The outer cursor
-/

def stretch (live : IntervalSet) (r : Span) : Except Fault (Option Span × Nat) :=
  match live.find r.start with
  | none => .ok (some r, r.start)
  | some conflict => r.guardedSplit conflict

theorem lt_of_stretch_none (h : live.stretch r = .ok (none, next)) : r.start < next := by
  unfold stretch at h
  split at h
  · cases h
  · exact (Span.lt_of_guardedSplit h).right

theorem lt_of_stretch_some (h : live.stretch r = .ok (some free, next)) (hr : r.start < r.stop) :
    r.start < free.stop := by
  unfold stretch at h
  split at h
  · cases h
    exact hr
  · rename_i conflict _
    unfold Span.guardedSplit at h
    split at h
    · exact Span.start_lt_part hr (congrArg Prod.fst (Except.ok.inj h))
    · cases h

theorem run_bind_ok {α β : Type} {guarded : Guarded α} {rest : α -> Guarded β} {b : β}
    (h : Gives (guarded >>= rest) (.ok b)) :
    exists a, Gives guarded (.ok a) ∧ Gives (rest a) (.ok b) := by
  unfold Gives at h
  rw [ExceptT.run_bind] at h
  cases hrun : guarded.run with
  | error fault =>
      rw [hrun] at h
      cases h
  | ok outcome =>
      rw [hrun] at h
      cases outcome with
      | error e => cases h
      | ok a => exact ⟨a, hrun, h⟩

theorem stop_le_of_fill (h : Gives (fill stop inner s) (.ok (c, t))) : stop ≤ c := by
  induction inner, s using fill.induct stop with
  | case1 inner s hlt hfind ih =>
      rw [fill_of_find_none hlt hfind] at h
      rcases run_bind_ok h with ⟨s', _, hrest⟩
      exact ih s' hrest
  | case2 inner s hlt conflict hfind fault hfault =>
      rw [fill_of_fault hlt hfind hfault] at h
      cases h
  | case3 inner s hlt conflict hfind next hnone ih =>
      rw [fill_of_taken hlt hfind hnone] at h
      exact ih h
  | case4 inner s hlt conflict hfind part next hpart ih =>
      rw [fill_of_part hlt hfind hpart] at h
      rcases run_bind_ok h with ⟨s', _, hrest⟩
      exact ih s' hrest
  | case5 inner s hrest =>
      rw [fill_of_le hrest] at h
      cases h
      exact Nat.le_of_not_lt hrest

def fillOutside (live : IntervalSet) (stop outer : Nat) (s : IntervalSet) : Guarded IntervalSet :=
  if _open : outer < stop then
    match _stretch : live.stretch ⟨outer, stop⟩ with
    | .error fault => ofLookUp (.error fault)
    | .ok (none, next) => fillOutside live stop next s
    | .ok (some free, next) =>
        match _filled : (fill free.stop free.start s).run with
        | .error fault => ofLookUp (.error fault)
        | .ok (.error e) => ofOutcome (.error e)
        | .ok (.ok (inner, s)) => fillOutside live stop (max next inner) s
  else
    return s
termination_by stop - outer
decreasing_by
  · have hlater := lt_of_stretch_none _stretch
    dsimp only at hlater
    omega
  · have hlater := lt_of_stretch_some _stretch _open
    have hpassed := stop_le_of_fill _filled
    dsimp only at hlater
    omega

theorem fillOutside_of_le (h : ¬ outer < stop) : fillOutside live stop outer s = pure s := by
  rw [fillOutside, dif_neg h]

theorem fillOutside_of_live (h : outer < stop)
    (hstretch : live.stretch ⟨outer, stop⟩ = .ok (none, next)) :
    fillOutside live stop outer s = fillOutside live stop next s := by
  rw [fillOutside, dif_pos h]
  split
  · rename_i hfault
    cases hstretch.symm.trans hfault
  · rename_i hsame
    cases hstretch.symm.trans hsame
    rfl
  · rename_i hfree
    cases hstretch.symm.trans hfree

theorem fillOutside_of_free (h : outer < stop)
    (hstretch : live.stretch ⟨outer, stop⟩ = .ok (some free, next))
    (hfill : Gives (fill free.stop free.start s) (.ok (c, t))) :
    fillOutside live stop outer s = fillOutside live stop (max next c) t := by
  rw [fillOutside, dif_pos h]
  split
  · rename_i hfault
    cases hstretch.symm.trans hfault
  · rename_i hlive
    cases hstretch.symm.trans hlive
  · rename_i hsame
    cases hstretch.symm.trans hsame
    split
    · rename_i hfault
      cases hfill.symm.trans hfault
    · rename_i herror
      cases hfill.symm.trans herror
    · rename_i hfilled
      cases hfill.symm.trans hfilled
      rfl

theorem stretch_cases (hlive : live.Canonical) (h : outer < stop) :
    (exists next, live.stretch ⟨outer, stop⟩ = .ok (none, next) ∧ outer < next ∧
      forall p, outer ≤ p -> p < next -> p ∈ live) ∨
    exists upto next, live.stretch ⟨outer, stop⟩ = .ok (some ⟨outer, upto⟩, next) ∧
      outer < upto ∧ upto ≤ stop ∧ (forall p, outer ≤ p -> p < upto -> p ∉ live) ∧
      forall p, upto ≤ p -> p < next -> p ∈ live := by
  unfold stretch
  cases hfind : live.find outer with
  | none =>
      refine Or.inr ⟨stop, outer, rfl, h, Nat.le_refl stop, ?_, by omega⟩
      intro p hp _
      exact find_none hfind hp
  | some conflict =>
      rcases guardedSplit_of_find hlive h hfind with
        ⟨next, hlater, ⟨hsplit, htaken⟩ | ⟨upto, hsplit, hinside⟩⟩
      · exact Or.inl ⟨next, hsplit, hlater, htaken⟩
      · exact Or.inr ⟨upto, next, hsplit, hinside⟩

theorem outside_of_turn {m : IntervalSet} {upto p : Nat} (hm : Filled upto outer s c m)
    (hnonempty : outer < upto) (hinside : upto ≤ stop)
    (hfree : forall p, outer ≤ p -> p < upto -> p ∉ live)
    (htaken : forall p, upto ≤ p -> p < next -> p ∈ live) :
    p ∈ m ∨ ((max next c ≤ p ∧ p < stop) ∧ p ∉ live) <->
      p ∈ s ∨ ((outer ≤ p ∧ p < stop) ∧ p ∉ live) := by
  have hpassed := hm.passed
  constructor
  · intro hp
    rcases hp with hp | ⟨hp, hout⟩
    · rcases (hm.points p).mp hp with hp | hp
      · exact Or.inl hp
      · exact Or.inr ⟨⟨hp.left, Nat.lt_of_lt_of_le hp.right hinside⟩, hfree p hp.left hp.right⟩
    · exact Or.inr ⟨⟨by omega, hp.right⟩, hout⟩
  · intro hp
    rcases hp with hp | ⟨hp, hout⟩
    · exact Or.inl ((hm.points p).mpr (Or.inl hp))
    · by_cases hfilled : p < upto
      · exact Or.inl ((hm.points p).mpr (Or.inr ⟨hp.left, hfilled⟩))
      · have hbehind : upto ≤ p := Nat.le_of_not_lt hfilled
        have hnext : next ≤ p := Nat.le_of_not_lt fun hlt => hout (htaken p hbehind hlt)
        by_cases hskipped : p < c
        · exact Or.inl (hm.skipped p hbehind hskipped)
        · exact Or.inr ⟨⟨by omega, hp.right⟩, hout⟩

theorem fillOutside_ok (hlive : live.Canonical) (hs : s.Canonical) :
    exists t, Gives (fillOutside live stop outer s) (.ok t) ∧ t.Canonical ∧
      forall p, p ∈ t <-> p ∈ s ∨ ((outer ≤ p ∧ p < stop) ∧ p ∉ live) := by
  -- The outer cursor gets nearer to the end with every turn.
  induction hsize : stop - outer using Nat.strong_induction_on generalizing outer s with
  | h size ih =>
      by_cases hopen : outer < stop
      · rcases stretch_cases hlive hopen with
          ⟨next, hstretch, hlater, htaken⟩ |
          ⟨upto, next, hstretch, hnonempty, hinside, hfree, htaken⟩
        · rcases ih (stop - next) (by omega) hs rfl with ⟨t, hgives, hcanonical, hpoints⟩
          rw [fillOutside_of_live hopen hstretch]
          refine ⟨t, hgives, hcanonical, ?_⟩
          intro p
          rw [hpoints]
          apply or_congr_right
          apply and_congr_left
          intro hout
          have hskipped : outer ≤ p -> next ≤ p :=
            fun hp => Nat.le_of_not_lt fun hlt => hout (htaken p hp hlt)
          omega
        · have hnothing : forall p, upto ≤ p -> p < outer -> p ∈ s := by omega
          rcases fill_filled hs hnothing with ⟨c, m, hfill, hfilled⟩
          have hpassed := hfilled.passed
          rcases ih (stop - max next c) (by omega) hfilled.canonical rfl with
            ⟨t, hgives, hcanonical, hpoints⟩
          rw [fillOutside_of_free hopen hstretch hfill]
          refine ⟨t, hgives, hcanonical, ?_⟩
          intro p
          rw [hpoints]
          exact outside_of_turn hfilled hnonempty hinside hfree htaken
      · rw [fillOutside_of_le hopen]
        exact ⟨s, gives_pure s, hs, fun p => (or_iff_left (by omega)).symm⟩

theorem gives_fillOutside (hlive : live.Canonical) (hs : s.Canonical) (r : Span) :
    Gives (fillOutside live r.stop r.start s) (s.insertOutside live r) := by
  rcases fillOutside_ok hlive hs with ⟨t, hgives, hcanonical, hpoints⟩
  rcases insertOutside_ok hs hlive r with ⟨t', hinsert, hcanonical', hpoints'⟩
  have hsame : t' = t := by
    apply eq_of_mem_iff hcanonical' hcanonical
    intro p
    rw [hpoints', hpoints, Span.mem_iff]
  rw [hinsert, hsame]
  exact hgives

theorem subtraction_exact (hlive : live.Canonical) (hs : s.Canonical) (r : Span) :
    exists t, Gives (fillOutside live r.stop r.start s) (.ok t) ∧
      Gives (s.guardedInsertOutside live r) (.ok t) ∧ s.insertOutside live r = .ok t ∧
      t.Canonical ∧ forall p, p ∈ t <-> p ∈ s ∨ (p ∈ r ∧ p ∉ live) := by
  rcases insertOutside_ok hs hlive r with ⟨t, hinsert, hcanonical, hpoints⟩
  have hfill := gives_fillOutside hlive hs r
  have hguarded := gives_insertOutside hs hlive r
  rw [hinsert] at hfill hguarded
  exact ⟨t, hfill, hguarded, hinsert, hcanonical, hpoints⟩

/-!
A shadow that shares points with the live set, touches a free stretch from inside and reaches beyond
the end of the span.
-/

def tide : IntervalSet := ⟨[⟨4, 6⟩, ⟨10, 12⟩]⟩

def shore : IntervalSet := ⟨[⟨5, 8⟩, ⟨13, 20⟩]⟩

theorem shore_outside_tide :
    tide.Canonical ∧ shore.Canonical ∧
      Gives (fillOutside tide 16 2 shore) (.ok ⟨[⟨2, 4⟩, ⟨5, 10⟩, ⟨12, 20⟩]⟩) ∧
      forall p, p ∈ (⟨[⟨2, 4⟩, ⟨5, 10⟩, ⟨12, 20⟩]⟩ : IntervalSet) <->
        p ∈ shore ∨ (p ∈ (⟨2, 16⟩ : Span) ∧ p ∉ tide) := by
  have htide : tide.Canonical := ⟨by decide, by decide⟩
  have hshore : shore.Canonical := ⟨by decide, by decide⟩
  have hadded : shore.insertOutside tide ⟨2, 16⟩ = .ok ⟨[⟨2, 4⟩, ⟨5, 10⟩, ⟨12, 20⟩]⟩ := by
    decide +kernel
  rcases subtraction_exact htide hshore ⟨2, 16⟩ with ⟨t, hgives, _, hinsert, _, hpoints⟩
  cases hadded.symm.trans hinsert
  exact ⟨htide, hshore, hgives, hpoints⟩

end IntervalSet
end SafeRestart
