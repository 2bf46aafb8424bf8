import Mathlib.Algebra.Ring.Parity
import SafeRestart.Proofs.Guarded.Worklist
import SafeRestart.Proofs.PointSet
import SafeRestart.Proofs.RegionTable

/-!
# Walking block by block

The points that a walk reaches can be found without going from slot to slot.  A walk runs straight
through a block until it meets a reason to end; a block that it runs through leads on to its
successors, each of which is entered once and from its first slot.  The block in which the walk
starts is not marked, so a cycle can lead back into it.  Each stretch of a block that is walked
contributes one span.

Such a walk reaches the same points as the one through slots.
-/

namespace SafeRestart

namespace RegionModel

/-!
# Stretches
-/

/-- The slots of a block from `first` on.  The points from `start` on are reached.  Where the walk
has its `own` start in the first slot, that slot being an entry does not end it. -/
structure Stretch where
  block : Nat
  first : Nat
  start : Nat
  own : Bool

/-- The point at which a walk along the stretch ends when it comes to slot `k`: before the slot if
that is an entry, inside it if the walk stops there. -/
def haltAt? (m : RegionModel) (stop : Instruction -> Bool) (t : Stretch) (k : Nat) : Option Nat :=
  if k ∈ m.entries ∧ ¬ (t.own = true ∧ k = t.first) then some (2 * k)
  else if m.stopsAt stop k then some (2 * k + 1)
  else none

def slotBehind (m : RegionModel) (t : Stretch) : Nat := m.function.blockStart (t.block + 1)

def haltIn? (m : RegionModel) (stop : Instruction -> Bool) (t : Stretch) : Option Nat :=
  (List.range' t.first (m.slotBehind t - t.first)).findSome? (m.haltAt? stop t)

def spanOf (m : RegionModel) (stop : Instruction -> Bool) (t : Stretch) : Span :=
  ⟨t.start, (m.haltIn? stop t).getD (2 * m.slotBehind t)⟩

def onward (m : RegionModel) (stop : Instruction -> Bool) (t : Stretch) : List Nat :=
  if (m.haltIn? stop t).isSome then [] else m.function.graph.succs t.block

def wholeBlock (m : RegionModel) (b : Nat) : Stretch :=
  ⟨b, m.function.blockStart b, 2 * m.function.blockStart b, false⟩

def walkByBlocks (m : RegionModel) (stop : Instruction -> Bool) (t : Stretch) :
    Except Fault IntervalSet := do
  let spans ← Search.drain (fun t => .ok ([m.spanOf stop t], m.onward stop t))
    (fun b => .ok (m.wholeBlock b)) [t] (.empty m.function.blockCount)
  return IntervalSet.ofSpans spans

def pointsAfterByBlocks (m : RegionModel) (i : Nat) : Except Fault IntervalSet := do
  match m.function.inst? i with
  | none => return .empty
  | some inst =>
      let k ← m.function.slot i
      m.walkByBlocks (fun _ => false) ⟨inst.block, k + 1, 2 * k + 1, false⟩

def pointsUntilByBlocks (m : RegionModel) (r : Region) (stop : Instruction -> Bool) :
    Except Fault IntervalSet :=
  m.walkByBlocks stop ⟨r.block, r.slot, r.point, true⟩

variable {m : RegionModel} {stop : Instruction -> Bool} {t first : Stretch} {b c j k x y n : Nat}

/-!
# The end of a stretch
-/

def Comes (m : RegionModel) (t : Stretch) (k : Nat) : Prop :=
  k ∈ m.entries -> t.own = true ∧ k = t.first

def Clear (m : RegionModel) (stop : Instruction -> Bool) (t : Stretch) (n : Nat) : Prop :=
  forall x, t.first ≤ x -> x < n -> m.haltAt? stop t x = none

theorem comes_of_not_mem (h : y ∉ m.entries) : m.Comes t y := fun hentry => absurd hentry h

theorem comes_first (hown : t.own = true) : m.Comes t t.first := fun _ => ⟨hown, rfl⟩

theorem clear_first (m : RegionModel) (stop : Instruction -> Bool) (t : Stretch) :
    m.Clear stop t t.first :=
  fun _ hfirst hlt => absurd hlt (Nat.not_lt_of_le hfirst)

theorem haltAt?_cases (m : RegionModel) (stop : Instruction -> Bool) (t : Stretch) (k : Nat) :
    (m.haltAt? stop t k = some (2 * k) ∧ ¬ m.Comes t k) ∨
      (m.haltAt? stop t k = some (2 * k + 1) ∧ m.Comes t k ∧ m.stopsAt stop k = true) ∨
      (m.haltAt? stop t k = none ∧ m.Comes t k ∧ ¬ m.stopsAt stop k = true) := by
  have hcomes : m.Comes t k <-> ¬ (k ∈ m.entries ∧ ¬ (t.own = true ∧ k = t.first)) := by
    unfold Comes
    tauto
  unfold haltAt?
  split
  · rename_i hentry
    exact Or.inl ⟨rfl, fun h => hcomes.mp h hentry⟩
  · rename_i hentry
    split
    · rename_i hstop
      exact Or.inr (Or.inl ⟨rfl, hcomes.mpr hentry, hstop⟩)
    · rename_i hstop
      exact Or.inr (Or.inr ⟨rfl, hcomes.mpr hentry, hstop⟩)

theorem haltAt?_eq_none_iff :
    m.haltAt? stop t k = none <-> m.Comes t k ∧ ¬ m.stopsAt stop k = true := by
  rcases haltAt?_cases m stop t k with ⟨hhalt, hcomes⟩ | ⟨hhalt, _, hstop⟩ | ⟨hhalt, hboth⟩
  · simp [hhalt, hcomes]
  · simp [hhalt, hstop]
  · simp [hhalt, hboth]

theorem clear_mono (h : m.Clear stop t n) (hle : k ≤ n) : m.Clear stop t k := by
  intro x hfirst hx
  exact h x hfirst (Nat.lt_of_lt_of_le hx hle)

theorem clear_succ_iff (hfirst : t.first ≤ n) :
    m.Clear stop t (n + 1) <->
      m.Clear stop t n ∧ m.Comes t n ∧ ¬ m.stopsAt stop n = true := by
  rw [← haltAt?_eq_none_iff]
  constructor
  · intro h
    exact ⟨clear_mono h (Nat.le_succ n), h n hfirst (Nat.lt_succ_self n)⟩
  · intro h x hx hlt
    rcases Nat.lt_succ_iff_lt_or_eq.mp hlt with hbefore | rfl
    · exact h.left x hx hbefore
    · exact h.right

theorem haltIn?_cases (m : RegionModel) (stop : Instruction -> Bool) (t : Stretch) :
    (m.haltIn? stop t = none ∧ m.Clear stop t (m.slotBehind t)) ∨
      exists x e, t.first ≤ x ∧ x < m.slotBehind t ∧ m.Clear stop t x ∧
        m.haltAt? stop t x = some e ∧ m.haltIn? stop t = some e := by
  cases hhalt : m.haltIn? stop t with
  | none =>
      refine Or.inl ⟨rfl, ?_⟩
      intro x hfirst hx
      apply List.findSome?_eq_none_iff.mp hhalt
      rw [List.mem_range'_1]
      omega
  | some e =>
      rcases List.findSome?_eq_some_iff.mp hhalt with ⟨before, x, after, hsplit, hx, hnone⟩
      rcases List.range'_eq_append_iff.mp hsplit with ⟨count, hcount, rfl, hrest⟩
      rcases List.range'_eq_cons_iff.mp hrest.symm with ⟨rfl, hmore, _⟩
      refine Or.inr ⟨_, e, Nat.le_add_right _ _, by omega, ?_, hx, rfl⟩
      intro y hfirst hy
      apply hnone
      rw [List.mem_range'_1]
      omega

theorem le_of_clear {e : Nat} (hfirst : t.first ≤ x) (hhalt : m.haltAt? stop t x = some e)
    (h : m.Clear stop t n) : n ≤ x := by
  apply Nat.le_of_not_lt
  intro hlt
  rw [h x hfirst hlt] at hhalt
  cases hhalt

theorem use_lt_end_iff (hj : t.first ≤ j) :
    2 * j < (m.haltIn? stop t).getD (2 * m.slotBehind t) <->
      j < m.slotBehind t ∧ m.Clear stop t j ∧ m.Comes t j := by
  have hpass : forall {n}, m.Clear stop t n -> j < n -> m.Clear stop t j ∧ m.Comes t j := by
    intro n hclear hlt
    have hstep := (clear_succ_iff hj).mp (clear_mono hclear hlt)
    exact ⟨hstep.left, hstep.right.left⟩
  rcases haltIn?_cases m stop t with ⟨hnone, hclear⟩ | ⟨x, e, hfirst, hx, hclear, hhalt, hsome⟩
  · rw [hnone, Option.getD_none]
    constructor
    · intro h
      have hlt : j < m.slotBehind t := by omega
      exact ⟨hlt, hpass hclear hlt⟩
    · intro h
      omega
  · rw [hsome, Option.getD_some]
    rcases haltAt?_cases m stop t x with ⟨hat, hcomes⟩ | ⟨hat, hcomes, _⟩ | ⟨hat, _⟩
    · cases hhalt.symm.trans hat
      constructor
      · intro h
        have hlt : j < x := by omega
        exact ⟨Nat.lt_trans hlt hx, hpass hclear hlt⟩
      · intro h
        have hle := le_of_clear hfirst hhalt h.right.left
        have hne : j ≠ x := fun hsame => hcomes (hsame ▸ h.right.right)
        omega
    · cases hhalt.symm.trans hat
      constructor
      · intro h
        have hle : j ≤ x := by omega
        refine ⟨Nat.lt_of_le_of_lt hle hx, ?_⟩
        rcases Nat.lt_or_eq_of_le hle with hlt | rfl
        · exact hpass hclear hlt
        · exact ⟨hclear, hcomes⟩
      · intro h
        have hle := le_of_clear hfirst hhalt h.right.left
        omega
    · cases hhalt.symm.trans hat

theorem def_lt_end_iff :
    2 * j + 1 < (m.haltIn? stop t).getD (2 * m.slotBehind t) <->
      j < m.slotBehind t ∧ m.Clear stop t (j + 1) := by
  rcases haltIn?_cases m stop t with ⟨hnone, hclear⟩ | ⟨x, e, hfirst, hx, hclear, hhalt, hsome⟩
  · rw [hnone, Option.getD_none]
    constructor
    · intro h
      have hlt : j < m.slotBehind t := by omega
      exact ⟨hlt, clear_mono hclear hlt⟩
    · intro h
      omega
  · have hend : e = 2 * x ∨ e = 2 * x + 1 := by
      rcases haltAt?_cases m stop t x with ⟨hat, _⟩ | ⟨hat, _⟩ | ⟨hat, _⟩
      · exact Or.inl (Option.some.inj (hhalt.symm.trans hat))
      · exact Or.inr (Option.some.inj (hhalt.symm.trans hat))
      · cases hhalt.symm.trans hat
    rw [hsome, Option.getD_some]
    constructor
    · intro h
      have hlt : j < x := by omega
      exact ⟨Nat.lt_trans hlt hx, clear_mono hclear hlt⟩
    · intro h
      have hle := le_of_clear hfirst hhalt h.right
      omega

structure Sound (m : RegionModel) (t : Stretch) : Prop where
  start : t.start = 2 * t.first ∨ t.start = 2 * t.first + 1
  low : m.function.blockStart t.block ≤ t.first
  high : t.first < m.slotBehind t

theorem use_mem_spanOf_iff (ht : m.Sound t) :
    2 * j ∈ m.spanOf stop t <->
      t.start ≤ 2 * j ∧ j < m.slotBehind t ∧ m.Clear stop t j ∧ m.Comes t j := by
  have hpoint := ht.start
  rw [Span.mem_iff]
  apply and_congr_right
  intro hstart
  change t.start ≤ 2 * j at hstart
  exact use_lt_end_iff (by omega)

theorem def_mem_spanOf_iff (ht : m.Sound t) :
    2 * j + 1 ∈ m.spanOf stop t <->
      t.first ≤ j ∧ j < m.slotBehind t ∧ m.Clear stop t (j + 1) := by
  have hpoint := ht.start
  have hstart : t.start ≤ 2 * j + 1 <-> t.first ≤ j := by omega
  rw [Span.mem_iff, ← hstart]
  exact and_congr_right fun _ => def_lt_end_iff

/-!
# The stretches that are walked
-/

inductive Walked (m : RegionModel) (stop : Instruction -> Bool) (first : Stretch) :
    Stretch -> Prop where
  | first : Walked m stop first first
  | onward {t : Stretch} {c : Nat} :
      Walked m stop first t -> c ∈ m.onward stop t -> Walked m stop first (m.wholeBlock c)

theorem mem_onward_iff :
    c ∈ m.onward stop t <->
      m.Clear stop t (m.slotBehind t) ∧ c ∈ m.function.graph.succs t.block := by
  unfold onward
  rcases haltIn?_cases m stop t with ⟨hnone, hclear⟩ | ⟨x, e, hfirst, hx, hclear, hhalt, hsome⟩
  · simp [hnone, hclear]
  · have hends : ¬ m.Clear stop t (m.slotBehind t) := fun h =>
      Nat.not_lt_of_le (le_of_clear hfirst hhalt h) hx
    simp [hsome, hends]

theorem lt_of_mem_onward (hf : m.function.WellFormed) (h : c ∈ m.onward stop t) :
    c < m.function.blockCount :=
  (hf.connected (Digraph.mem_succs_iff.mp (mem_onward_iff.mp h).right)).right

theorem sound_wholeBlock (hf : m.function.WellFormed) (hb : b < m.function.blockCount) :
    m.Sound (m.wholeBlock b) :=
  ⟨Or.inl rfl, Nat.le_refl _, Function.blockStart_lt_succ hf hb⟩

theorem sound_of_walked (hf : m.function.WellFormed) (hfirst : m.Sound first)
    (h : m.Walked stop first t) : m.Sound t := by
  cases h with
  | first => exact hfirst
  | onward _ hc => exact sound_wholeBlock hf (lt_of_mem_onward hf hc)

theorem walked_iff :
    m.Walked stop first t <->
      t = first ∨ exists b, t = m.wholeBlock b ∧
        exists c, c ∈ m.onward stop first ∧
          exists met, Path (fun x y => y ∈ m.onward stop (m.wholeBlock x)) c met b := by
  constructor
  · intro h
    induction h with
    | first => exact Or.inl rfl
    | onward hwalked hc ih =>
        rename_i t c
        rcases ih with rfl | ⟨b, rfl, root, hroot, met, hpath⟩
        · exact Or.inr ⟨c, rfl, c, hc, [], Path.nil c⟩
        · exact Or.inr ⟨c, rfl, root, hroot, _, path_snoc hpath hc⟩
  · intro h
    rcases h with rfl | ⟨b, rfl, c, hc, met, hpath⟩
    · exact .first
    · have hstart : m.Walked stop first (m.wholeBlock c) := .onward .first hc
      clear hc
      induction hpath with
      | nil _ => exact hstart
      | cons hstep _ ih => exact ih (.onward hstart hstep)

theorem walkByBlocks_eq (hf : m.function.WellFormed) (stop : Instruction -> Bool)
    (first : Stretch) :
    m.walkByBlocks stop first = .ok (IntervalSet.ofSpans ([m.spanOf stop first] ++
      (Search.sweep (fun b => m.onward stop (m.wholeBlock b)) (m.onward stop first)
        (List.range m.function.blockCount)).flatMap fun b =>
          [m.spanOf stop (m.wholeBlock b)])) := by
  have hsure : Search.Sure (fun t => .ok ([m.spanOf stop t], m.onward stop t))
      (fun b => .ok (m.wholeBlock b)) m.wholeBlock (fun b => [m.spanOf stop (m.wholeBlock b)])
      (fun b => m.onward stop (m.wholeBlock b)) m.function.blockCount :=
    ⟨fun _ _ => rfl, fun _ _ => rfl, fun _ _ _ hc => lt_of_mem_onward hf hc⟩
  unfold walkByBlocks
  rw [Search.drain_single hsure rfl fun c hc => lt_of_mem_onward hf hc]
  rfl

theorem walkByBlocks_points (hf : m.function.WellFormed) (stop : Instruction -> Bool)
    (first : Stretch) :
    exists set, m.walkByBlocks stop first = .ok set ∧ set.Canonical ∧
      forall p, p ∈ set <-> exists t, m.Walked stop first t ∧ p ∈ m.spanOf stop t := by
  have hclosed : forall x y, y ∈ m.onward stop (m.wholeBlock x) ->
      y ∈ List.range m.function.blockCount :=
    fun x y hy => List.mem_range.mpr (lt_of_mem_onward hf hy)
  refine ⟨_, walkByBlocks_eq hf stop first, IntervalSet.canonical_ofSpans _, ?_⟩
  intro p
  rw [IntervalSet.mem_ofSpans_iff, ← List.map_eq_flatMap]
  simp only [List.singleton_append, List.mem_cons, exists_eq_or_imp, List.mem_map,
    exists_exists_and_eq_and, Search.mem_sweep_iff_of_closed hclosed, walked_iff]
  apply or_congr_right
  constructor
  · intro h
    rcases h with ⟨b, ⟨c, hc, _, hpath⟩, hp⟩
    exact ⟨m.wholeBlock b, ⟨b, rfl, c, hc, hpath⟩, hp⟩
  · intro h
    rcases h with ⟨t, ⟨b, rfl, c, hc, hpath⟩, hp⟩
    exact ⟨b, ⟨c, hc, List.mem_range.mpr (lt_of_mem_onward hf hc), hpath⟩, hp⟩

/-!
# Stretches and paths
-/

def GoesOn (m : RegionModel) (stop : Instruction -> Bool) (x y : Nat) : Prop :=
  ¬ m.stopsAt stop x = true ∧ m.LeadsInside x y

theorem path_straight (hf : m.function.WellFormed) (hlow : m.function.blockStart b ≤ x)
    (hle : x ≤ y) (hhigh : y < m.function.blockStart (b + 1))
    (hgoes : forall z, x ≤ z -> z < y -> ¬ m.stopsAt stop z = true)
    (hinside : forall z, x < z -> z ≤ y -> z ∉ m.entries) :
    exists met, Path (m.GoesOn stop) x met y ∧ (met = [] -> x = y) := by
  induction y, hle using Nat.le_induction with
  | base => exact ⟨[], Path.nil x, fun _ => rfl⟩
  | succ y hle ih =>
      rcases ih (by omega) (fun z hz hlt => hgoes z hz (by omega))
        (fun z hz hlt => hinside z hz (by omega)) with ⟨met, hpath, _⟩
      have hleads : m.function.Leads y (y + 1) :=
        (Function.leads_cases hf (by omega) (by omega)).mpr (Or.inl ⟨hhigh, rfl⟩)
      have hstep : m.GoesOn stop y (y + 1) :=
        ⟨hgoes y hle (by omega), hleads, hinside (y + 1) (by omega) (Nat.le_refl _)⟩
      exact ⟨met ++ [y + 1], path_snoc hpath hstep, by simp⟩

theorem path_in_stretch (hf : m.function.WellFormed) (ht : m.Sound t) (hj : t.first ≤ j)
    (hbehind : j < m.slotBehind t) (hclear : m.Clear stop t j) (hcomes : m.Comes t j) :
    exists met, Path (m.GoesOn stop) t.first met j ∧ (met = [] -> t.first = j) := by
  apply path_straight hf ht.low hj hbehind
  · intro z hz hlt
    exact (haltAt?_eq_none_iff.mp (hclear z hz hlt)).right
  · intro z hz hle hentry
    have hcome : m.Comes t z := by
      rcases Nat.lt_or_eq_of_le hle with hlt | rfl
      · exact (haltAt?_eq_none_iff.mp (hclear z (Nat.le_of_lt hz) hlt)).left
      · exact hcomes
    exact Nat.ne_of_gt hz (hcome hentry).right

theorem path_of_walked (hf : m.function.WellFormed) (hfirst : m.Sound first)
    (h : m.Walked stop first t) (hj : t.first ≤ j) (hbehind : j < m.slotBehind t)
    (hclear : m.Clear stop t j) (hcomes : m.Comes t j) :
    exists met, Path (m.GoesOn stop) first.first met j ∧
      (met = [] -> t = first ∧ j = first.first) := by
  induction h generalizing j with
  | first =>
      rcases path_in_stretch hf hfirst hj hbehind hclear hcomes with ⟨met, hpath, hnil⟩
      exact ⟨met, hpath, fun hmet => ⟨rfl, (hnil hmet).symm⟩⟩
  | onward hwalked hc ih =>
      rename_i t c
      rcases mem_onward_iff.mp hc with ⟨hthrough, hsucc⟩
      have ht := sound_of_walked hf hfirst hwalked
      have hwhole := sound_wholeBlock hf (lt_of_mem_onward hf hc)
      -- The walk ran through to the last slot of the block before.
      have hend := ht.high
      have hlast : m.slotBehind t - 1 + 1 = m.slotBehind t := by omega
      have hup := (clear_succ_iff (by omega)).mp (hlast.symm ▸ hthrough)
      rcases ih (by omega) (by omega) hup.left hup.right.left with ⟨before, hbefore, _⟩
      have hleads : m.function.Leads (m.slotBehind t - 1) (m.function.blockStart c) :=
        (Function.leads_cases hf (Nat.le_sub_one_of_lt (Nat.lt_of_le_of_lt ht.low hend))
          (Nat.sub_one_lt_of_lt hend)).mpr (Or.inr ⟨hlast, c, hsucc, rfl⟩)
      have henters : m.function.blockStart c ∉ m.entries := by
        have hcome : m.Comes (m.wholeBlock c) (m.wholeBlock c).first := by
          rcases Nat.lt_or_eq_of_le hj with hlt | hsame
          · exact (haltAt?_eq_none_iff.mp (hclear _ (Nat.le_refl _) hlt)).left
          · rw [hsame]
            exact hcomes
        intro hentry
        cases (hcome hentry).left
      rcases path_in_stretch hf hwhole hj hbehind hclear hcomes with ⟨after, hafter, _⟩
      have hstep : m.GoesOn stop (m.slotBehind t - 1) (m.function.blockStart c) :=
        ⟨hup.right.right, hleads, henters⟩
      refine ⟨before ++ m.function.blockStart c :: after, ?_, by simp⟩
      exact path_append hbefore (Path.cons hstep hafter)

theorem walked_step (hf : m.function.WellFormed) (hfirst : m.Sound first)
    (hwalked : m.Walked stop first t) (hx : 2 * x + 1 ∈ m.spanOf stop t)
    (hstep : m.LeadsInside x y) :
    exists u, m.Walked stop first u ∧ 2 * y ∈ m.spanOf stop u ∧
      (¬ m.stopsAt stop y = true -> 2 * y + 1 ∈ m.spanOf stop u) := by
  have ht := sound_of_walked hf hfirst hwalked
  rcases (def_mem_spanOf_iff ht).mp hx with ⟨hlow, hhigh, hclear⟩
  have hpoint := ht.start
  rcases (Function.leads_cases hf (Nat.le_trans ht.low hlow) hhigh).mp hstep.left with
    ⟨hinner, rfl⟩ | ⟨hlast, c, hsucc, rfl⟩
  · -- Straight on in the same stretch.
    refine ⟨t, hwalked, ?_, ?_⟩
    · exact (use_mem_spanOf_iff ht).mpr
        ⟨by omega, hinner, hclear, comes_of_not_mem hstep.right⟩
    · intro hgoes
      exact (def_mem_spanOf_iff ht).mpr ⟨by omega, hinner,
        (clear_succ_iff (by omega)).mpr ⟨hclear, comes_of_not_mem hstep.right, hgoes⟩⟩
  · -- Behind the last slot, into a successor of the block.
    have hbehind : x + 1 = m.slotBehind t := hlast
    have hc : c ∈ m.onward stop t := mem_onward_iff.mpr ⟨hbehind ▸ hclear, hsucc⟩
    have hwhole := sound_wholeBlock hf (lt_of_mem_onward hf hc)
    have hnone := clear_first m stop (m.wholeBlock c)
    refine ⟨m.wholeBlock c, .onward hwalked hc, ?_, ?_⟩
    · exact (use_mem_spanOf_iff hwhole).mpr
        ⟨Nat.le_refl _, hwhole.high, hnone, comes_of_not_mem hstep.right⟩
    · intro hgoes
      exact (def_mem_spanOf_iff hwhole).mpr ⟨Nat.le_refl _, hwhole.high,
        (clear_succ_iff (Nat.le_refl _)).mpr ⟨hnone, comes_of_not_mem hstep.right, hgoes⟩⟩

theorem walked_of_path (hf : m.function.WellFormed) (hfirst : m.Sound first)
    (hwalked : m.Walked stop first t) (hx : 2 * x + 1 ∈ m.spanOf stop t) {met : List Nat}
    (hpath : Path (m.GoesOn stop) x met j) (hne : met ≠ []) :
    exists u, m.Walked stop first u ∧ 2 * j ∈ m.spanOf stop u ∧
      (¬ m.stopsAt stop j = true -> 2 * j + 1 ∈ m.spanOf stop u) := by
  induction hpath generalizing t with
  | nil _ => exact absurd rfl hne
  | cons hstep htail ih =>
      rcases walked_step hf hfirst hwalked hx hstep.right with ⟨u, hu, huse, hdef⟩
      cases htail with
      | nil _ => exact ⟨u, hu, huse, hdef⟩
      | cons hnext hrest => exact ih hu (hdef hnext.left) (by simp)

/-!
# The points of a walk
-/

theorem def_first_mem_spanOf (ht : m.Sound t) (hown : t.own = true)
    (hgoes : ¬ m.stopsAt stop t.first = true) : 2 * t.first + 1 ∈ m.spanOf stop t := by
  apply (def_mem_spanOf_iff ht).mpr
  refine ⟨Nat.le_refl _, ht.high, (clear_succ_iff (Nat.le_refl _)).mpr ?_⟩
  exact ⟨clear_first m stop t, comes_first hown, hgoes⟩

theorem walked_of_path_first (hf : m.function.WellFormed) (hfirst : m.Sound first)
    (hown : first.own = true) {met : List Nat} (hpath : Path (m.GoesOn stop) first.first met j)
    (hne : met ≠ []) :
    exists t, m.Walked stop first t ∧ 2 * j ∈ m.spanOf stop t ∧
      (¬ m.stopsAt stop j = true -> 2 * j + 1 ∈ m.spanOf stop t) := by
  have hgoes : ¬ m.stopsAt stop first.first = true := by
    cases hpath with
    | nil _ => exact absurd rfl hne
    | cons hstep _ => exact hstep.left
  exact walked_of_path hf hfirst .first (def_first_mem_spanOf hfirst hown hgoes) hpath hne

theorem use_walked_iff (hf : m.function.WellFormed) (hfirst : m.Sound first)
    (hown : first.own = true) :
    (exists t, m.Walked stop first t ∧ 2 * j ∈ m.spanOf stop t) <->
      exists met, Path (m.GoesOn stop) first.first met j ∧
        (met = [] -> first.start = 2 * first.first) := by
  constructor
  · intro h
    rcases h with ⟨t, hwalked, hj⟩
    have ht := sound_of_walked hf hfirst hwalked
    have hstart := ht.start
    rcases (use_mem_spanOf_iff ht).mp hj with ⟨hreached, hhigh, hclear, hcomes⟩
    rcases path_of_walked hf hfirst hwalked (by omega) hhigh hclear hcomes with ⟨met, hpath, hnil⟩
    refine ⟨met, hpath, ?_⟩
    intro hmet
    rcases hnil hmet with ⟨rfl, rfl⟩
    omega
  · intro h
    rcases h with ⟨met, hpath, hnil⟩
    by_cases hmet : met = []
    · subst hmet
      cases hpath
      exact ⟨first, .first, (use_mem_spanOf_iff hfirst).mpr
        ⟨Nat.le_of_eq (hnil rfl), hfirst.high, clear_first m stop first, comes_first hown⟩⟩
    · rcases walked_of_path_first hf hfirst hown hpath hmet with ⟨t, hwalked, huse, _⟩
      exact ⟨t, hwalked, huse⟩

theorem def_walked_iff (hf : m.function.WellFormed) (hfirst : m.Sound first)
    (hown : first.own = true) :
    (exists t, m.Walked stop first t ∧ 2 * j + 1 ∈ m.spanOf stop t) <->
      (exists met, Path (m.GoesOn stop) first.first met j) ∧ ¬ m.stopsAt stop j = true := by
  constructor
  · intro h
    rcases h with ⟨t, hwalked, hj⟩
    rcases (def_mem_spanOf_iff (sound_of_walked hf hfirst hwalked)).mp hj with ⟨hlow, hhigh, hclear⟩
    rcases (clear_succ_iff hlow).mp hclear with ⟨hbefore, hcomes, hgoes⟩
    rcases path_of_walked hf hfirst hwalked hlow hhigh hbefore hcomes with ⟨met, hpath, _⟩
    exact ⟨⟨met, hpath⟩, hgoes⟩
  · intro h
    rcases h with ⟨⟨met, hpath⟩, hgoes⟩
    by_cases hmet : met = []
    · subst hmet
      cases hpath
      exact ⟨first, .first, def_first_mem_spanOf hfirst hown hgoes⟩
    · rcases walked_of_path_first hf hfirst hown hpath hmet with ⟨t, hwalked, _, hdef⟩
      exact ⟨t, hwalked, hdef hgoes⟩

theorem walkByBlocks_exact (hf : m.function.WellFormed) (stop : Instruction -> Bool)
    (hfirst : m.Sound first) (hown : first.own = true) :
    exists set, m.walkByBlocks stop first = .ok set ∧ set.Canonical ∧
      (forall j, 2 * j ∈ set <-> exists met, Path (m.GoesOn stop) first.first met j ∧
        (met = [] -> first.start = 2 * first.first)) ∧
      forall j, 2 * j + 1 ∈ set <->
        (exists met, Path (m.GoesOn stop) first.first met j) ∧ ¬ m.stopsAt stop j = true := by
  rcases walkByBlocks_points hf stop first with ⟨set, hset, hcanonical, hpoints⟩
  refine ⟨set, hset, hcanonical, ?_, ?_⟩
  · intro j
    rw [hpoints, use_walked_iff hf hfirst hown]
  · intro j
    rw [hpoints, def_walked_iff hf hfirst hown]

/-!
# Walks by blocks and by slots
-/

variable {r : Region}

theorem walks_iff : m.Walks stop r j <-> exists met, Path (m.GoesOn stop) r.slot met j :=
  exists_congr fun _ => path_avoiding_iff.symm

theorem goesOn_never : m.GoesOn (fun _ => false) = m.LeadsInside := by
  funext x y
  simp [GoesOn, stopsAt_never]

theorem sound_at (hf : m.function.WellFormed) {inst : Instruction} {start : Nat} {own : Bool}
    (hinst : m.function.layout[k]? = some inst) (hstart : start = 2 * k ∨ start = 2 * k + 1) :
    m.Sound ⟨inst.block, k, start, own⟩ := by
  rcases (Function.layout_iff hf).mp hinst with ⟨hplace, hslot⟩
  have hposition : inst.position < m.function.blockSize inst.block :=
    (List.getElem?_eq_some_iff.mp hplace).1
  have hbehind := Function.blockStart_succ (f := m.function) inst.block
  unfold Function.slotOf at hslot
  refine ⟨hstart, ?_, ?_⟩
  · dsimp only
    omega
  · unfold slotBehind
    dsimp only
    omega

theorem pointsUntilByBlocks_eq (hf : m.function.WellFormed) (hr : r ∈ m.regions)
    (stop : Instruction -> Bool) : m.pointsUntilByBlocks r stop = .ok (m.pointsUntil r stop) := by
  have hsound : m.Sound ⟨r.block, r.slot, r.point, true⟩ := by
    rcases mem_regions_iff.mp hr with ⟨n, k, inst, _, hinst, rfl⟩
    exact sound_at hf hinst (Or.inl rfl)
  rcases walkByBlocks_exact hf stop hsound rfl with ⟨set, hset, hcanonical, huse, hdef⟩
  unfold pointsUntilByBlocks
  rw [hset]
  refine congrArg Except.ok
    (IntervalSet.eq_of_mem_iff hcanonical (canonical_pointsUntil m r stop) ?_)
  intro p
  rcases Nat.even_or_odd' p with ⟨j, rfl | rfl⟩
  · rw [huse, use_mem_pointsUntil_iff hf hr, walks_iff]
    exact exists_congr fun met => and_iff_left fun _ => rfl
  · rw [hdef, def_mem_pointsUntil_iff hf hr, walks_iff]

/-- Where a walk never stops, it makes no difference whether it passes its own start or begins
behind it. -/
theorem haltIn?_behind (hk : k < m.function.blockStart (b + 1)) (n : Nat) :
    m.haltIn? (fun _ => false) ⟨b, k + 1, n, false⟩ =
      m.haltIn? (fun _ => false) ⟨b, k, n, true⟩ := by
  have hcount :
      m.function.blockStart (b + 1) - k = m.function.blockStart (b + 1) - (k + 1) + 1 := by
    omega
  have hpass : m.haltAt? (fun _ => false) ⟨b, k, n, true⟩ k = none :=
    haltAt?_eq_none_iff.mpr ⟨comes_first rfl, by simp [stopsAt_never]⟩
  have hsame : forall x, x ∈ List.range' (k + 1) (m.function.blockStart (b + 1) - (k + 1)) ->
      m.haltAt? (fun _ => false) ⟨b, k + 1, n, false⟩ x =
        m.haltAt? (fun _ => false) ⟨b, k, n, true⟩ x := by
    intro x hx
    have hne : x ≠ k := by
      rw [List.mem_range'_1] at hx
      omega
    simp [haltAt?, hne]
  unfold haltIn? slotBehind
  dsimp only
  rw [hcount, List.range'_succ, List.findSome?_cons, hpass]
  dsimp only
  rw [← List.head?_filterMap, ← List.head?_filterMap, List.filterMap_congr hsame]

theorem walkByBlocks_behind (hf : m.function.WellFormed) {inst : Instruction}
    (hinst : m.function.layout[k]? = some inst) :
    m.walkByBlocks (fun _ => false) ⟨inst.block, k + 1, 2 * k + 1, false⟩ =
      .ok (m.pointsAfter k) := by
  have hsound : m.Sound ⟨inst.block, k, 2 * k + 1, true⟩ := sound_at hf hinst (Or.inr rfl)
  have hbehind : m.walkByBlocks (fun _ => false) ⟨inst.block, k + 1, 2 * k + 1, false⟩ =
      m.walkByBlocks (fun _ => false) ⟨inst.block, k, 2 * k + 1, true⟩ := by
    have hsame := haltIn?_behind hsound.high (2 * k + 1)
    rw [walkByBlocks_eq hf, walkByBlocks_eq hf, spanOf, onward, hsame]
    rfl
  rcases walkByBlocks_exact hf (fun _ => false) hsound rfl with ⟨set, hset, hcanonical, huse, hdef⟩
  rw [hbehind, hset]
  refine congrArg Except.ok (IntervalSet.eq_of_mem_iff hcanonical (canonical_pointsAfter m k) ?_)
  intro p
  rcases Nat.even_or_odd' p with ⟨j, rfl | rfl⟩
  · rw [huse, use_mem_pointsAfter_iff hf, goesOn_never]
    -- The walk starts at the def point, so the use point takes a path of some length.
    have hodd : ¬ 2 * k + 1 = 2 * k := Nat.succ_ne_self _
    simp only [hodd, imp_false, and_comm, ne_eq]
  · rw [hdef, def_mem_pointsAfter_iff hf, goesOn_never, stopsAt_never]
    simp only [Bool.false_eq_true, not_false_eq_true, and_true]

theorem pointsAfterByBlocks_eq (hf : m.function.WellFormed) (i : Nat) :
    m.pointsAfterByBlocks i = .ok (m.pointsAfterInst i) := by
  unfold pointsAfterByBlocks pointsAfterInst
  rcases Function.slot_cases m.function i with ⟨hinst, hslot⟩ | ⟨inst, k, hinst, hslot, hlookup, _⟩
  · rw [hinst, hslot]
    rfl
  · have hplace : m.function.layout[k]? = some inst := by
      rcases (Function.slot?_iff hf).mp hslot with ⟨found, hfound, rfl⟩
      rw [Function.inst?_of_layout hf hfound] at hinst
      exact hinst ▸ hfound
    rw [hinst, hslot]
    dsimp only
    rw [hlookup, ok_bind, walkByBlocks_behind hf hplace]
    rfl

end RegionModel
end SafeRestart
