import Mathlib.Data.Prod.Lex
import SafeRestart.Proofs.Cooccurrence
import SafeRestart.Proofs.Tally

/-!
# Covering edge by edge

A cover can be computed from the co-occurrences alone, each of them kept once, with its smaller end
first.  A round counts the ends of all edges afresh, takes the first of the ends with the greatest
count and drops the edges that it covers.  The counts are the degrees in what is left of the
co-occurrence graph, so these are the choices made over companions, and every set is covered but for
at most one of its elements.
-/

namespace SafeRestart
namespace VertexCover

universe u

variable {α : Type u} [DecidableEq α] {family : List (List α)} {taken set : List α} {a b : α}
  {edges : List (α × α)}

/-!
# Counting the ends of edges
-/

def ends (edges : List (α × α)) : List α := edges.flatMap fun edge => [edge.1, edge.2]

def otherEnd? (a : α) (edge : α × α) : Option α :=
  if edge.1 = a then some edge.2 else if edge.2 = a then some edge.1 else none

def acrossFrom (edges : List (α × α)) (a : α) : List α := edges.filterMap (otherEnd? a)

def apart (edges : List (α × α)) (a : α) : List (α × α) :=
  edges.filter fun edge => edge.1 ≠ a ∧ edge.2 ≠ a

omit [DecidableEq α] in
theorem mem_ends_iff :
    a ∈ ends edges <-> exists edge, edge ∈ edges ∧ (a = edge.1 ∨ a = edge.2) := by
  simp [ends]

theorem otherEnd?_cases {edge : α × α} (h : otherEnd? a edge = some b) :
    edge = (a, b) ∨ edge = (b, a) := by
  rcases edge with ⟨x, y⟩
  unfold otherEnd? at h
  split at h
  · rename_i hx
    cases hx
    cases h
    exact Or.inl rfl
  · split at h
    · rename_i hy
      cases hy
      cases h
      exact Or.inr rfl
    · cases h

theorem mem_acrossFrom_iff (hloop : forall edge, edge ∈ edges -> edge.1 ≠ edge.2) :
    b ∈ acrossFrom edges a <-> (a, b) ∈ edges ∨ (b, a) ∈ edges := by
  unfold acrossFrom
  rw [List.mem_filterMap]
  constructor
  · intro h
    rcases h with ⟨edge, hedge, hacross⟩
    rcases otherEnd?_cases hacross with rfl | rfl
    · exact Or.inl hedge
    · exact Or.inr hedge
  · intro h
    rcases h with hedge | hedge
    · exact ⟨(a, b), hedge, if_pos rfl⟩
    · refine ⟨(b, a), hedge, ?_⟩
      unfold otherEnd?
      rw [if_neg (hloop _ hedge), if_pos rfl]

theorem length_acrossFrom (hloop : forall edge, edge ∈ edges -> edge.1 ≠ edge.2) :
    (acrossFrom edges a).length = (ends edges).count a := by
  induction edges with
  | nil => rfl
  | cons edge rest ih =>
      have hrest := ih fun other hother => hloop other (List.mem_cons_of_mem edge hother)
      have hne := hloop edge List.mem_cons_self
      unfold acrossFrom ends at hrest ⊢
      rw [List.filterMap_cons, List.flatMap_cons, List.count_append, ← hrest]
      unfold otherEnd?
      by_cases hfirst : edge.1 = a
      · have hsecond : edge.2 ≠ a := fun h => hne (hfirst.trans h.symm)
        simp [hfirst, hsecond]
        omega
      · by_cases hsecond : edge.2 = a
        · simp [hfirst, hsecond]
          omega
        · simp [hfirst, hsecond]

/-!
# Edges left open
-/

variable [LinearOrder α]

/-- The edges in the course of a run: each co-occurrence with no end taken, once. -/
structure Keeps (family : List (List α)) (taken : List α) (edges : List (α × α)) : Prop where
  nodup : edges.Nodup
  mem_iff : forall a b, (a, b) ∈ edges <->
    a < b ∧ Cooccur family a b ∧ a ∉ taken ∧ b ∉ taken

theorem keeps_apart (h : Keeps family taken edges) (a : α) :
    Keeps family (taken ++ [a]) (apart edges a) := by
  constructor
  · exact h.nodup.filter _
  · intro x y
    unfold apart
    rw [List.mem_filter, h.mem_iff]
    simp only [decide_eq_true_eq, List.mem_append, List.mem_singleton, not_or]
    tauto

omit [DecidableEq α] in
theorem not_loop (h : Keeps family taken edges) {edge : α × α} (hedge : edge ∈ edges) :
    edge.1 ≠ edge.2 :=
  ne_of_lt ((h.mem_iff edge.1 edge.2).mp hedge).left

theorem mem_acrossFrom_iff_open (h : Keeps family taken edges) :
    b ∈ acrossFrom edges a <-> b ∈ openCompanions family taken a := by
  rw [mem_acrossFrom_iff fun edge => not_loop h, h.mem_iff, h.mem_iff, mem_openCompanions_iff]
  constructor
  · intro hedge
    rcases hedge with ⟨_, hopen⟩ | ⟨_, hcooccur, hopen, hopen'⟩
    · exact hopen
    · exact ⟨cooccur_symm hcooccur, hopen', hopen⟩
  · intro hopen
    rcases hopen with ⟨hcooccur, hopen, hopen'⟩
    rcases lt_or_gt_of_ne hcooccur.left with hlt | hgt
    · exact Or.inl ⟨hlt, hcooccur, hopen, hopen'⟩
    · exact Or.inr ⟨hgt, cooccur_symm hcooccur, hopen', hopen⟩

theorem nodup_acrossFrom (h : Keeps family taken edges) (a : α) : (acrossFrom edges a).Nodup := by
  unfold acrossFrom List.Nodup
  rw [List.pairwise_filterMap]
  refine h.nodup.imp_of_mem ?_
  intro edge other hedge hother hne b hb b' hb' hsame
  cases hsame
  -- Two edges between `a` and `b` both have the smaller of them first.
  rcases otherEnd?_cases hb with rfl | rfl <;> rcases otherEnd?_cases hb' with rfl | rfl
  · exact hne rfl
  · exact lt_asymm ((h.mem_iff a b).mp hedge).left ((h.mem_iff b a).mp hother).left
  · exact lt_asymm ((h.mem_iff b a).mp hedge).left ((h.mem_iff a b).mp hother).left
  · exact hne rfl

theorem count_ends (h : Keeps family taken edges) (a : α) :
    (ends edges).count a = degree family taken a := by
  rw [← length_acrossFrom fun edge => not_loop h, degree,
    ← List.toFinset_card_of_nodup (nodup_acrossFrom h a)]
  congr 1
  ext b
  rw [List.mem_toFinset, mem_acrossFrom_iff_open h]

theorem mem_ends_iff_degree (h : Keeps family taken edges) :
    a ∈ ends edges <-> 0 < degree family taken a := by
  rw [← count_ends h, List.count_pos_iff]

/-!
# The edges of a family
-/

/-- The pairs of different elements at two places of a set, the smaller of the two first. -/
def pairs : List α -> List (α × α)
  | [] => []
  | a :: rest => ((rest.filter fun b => a ≠ b).map fun b => (min a b, max a b)) ++ pairs rest

def cooccurrences (family : List (List α)) : List (α × α) :=
  (Ascending.ofList ((family.flatMap pairs).map toLex)).map ofLex

theorem mem_pairs_iff : (a, b) ∈ pairs set <-> a < b ∧ a ∈ set ∧ b ∈ set := by
  induction set with
  | nil => simp [pairs]
  | cons c rest ih =>
      unfold pairs
      rw [List.mem_append, ih, List.mem_map]
      simp only [List.mem_filter, decide_eq_true_eq, Prod.mk.injEq]
      constructor
      · intro h
        rcases h with ⟨d, ⟨hd, hne⟩, rfl, rfl⟩ | ⟨hlt, ha, hb⟩
        · rcases lt_or_gt_of_ne hne with hcd | hdc
          · simp [min_eq_left_of_lt hcd, max_eq_right_of_lt hcd, hcd, hd]
          · simp [min_eq_right_of_lt hdc, max_eq_left_of_lt hdc, hdc, hd]
        · exact ⟨hlt, List.mem_cons_of_mem c ha, List.mem_cons_of_mem c hb⟩
      · intro h
        rcases h with ⟨hlt, ha, hb⟩
        rcases List.mem_cons.mp ha with rfl | ha'
        · rcases List.mem_cons.mp hb with rfl | hb'
          · exact absurd hlt (lt_irrefl _)
          · exact Or.inl ⟨b, ⟨hb', ne_of_lt hlt⟩, min_eq_left_of_lt hlt, max_eq_right_of_lt hlt⟩
        · rcases List.mem_cons.mp hb with rfl | hb'
          · exact Or.inl ⟨a, ⟨ha', ne_of_gt hlt⟩, min_eq_right_of_lt hlt, max_eq_left_of_lt hlt⟩
          · exact Or.inr ⟨hlt, ha', hb'⟩

theorem mem_cooccurrences_iff :
    (a, b) ∈ cooccurrences family <-> a < b ∧ Cooccur family a b := by
  have hlisted : (a, b) ∈ cooccurrences family <-> (a, b) ∈ family.flatMap pairs := by
    unfold cooccurrences
    rw [List.mem_map]
    simp only [Ascending.mem_ofList_iff, List.mem_map]
    simp
  rw [hlisted, List.mem_flatMap]
  simp only [mem_pairs_iff]
  constructor
  · intro h
    rcases h with ⟨set, hset, hlt, ha, hb⟩
    exact ⟨hlt, ne_of_lt hlt, set, hset, ha, hb⟩
  · intro h
    rcases h with ⟨hlt, _, set, hset, ha, hb⟩
    exact ⟨set, hset, hlt, ha, hb⟩

theorem keeps_cooccurrences (family : List (List α)) :
    Keeps family [] (cooccurrences family) := by
  constructor
  · exact List.Nodup.map ofLex.injective ((Ascending.pairwise_ofList _).imp fun hlt => ne_of_lt hlt)
  · intro a b
    rw [mem_cooccurrences_iff]
    simp

/-!
# Tables of counts
-/

variable {counts : List (α × Nat)}

def counted (counts : List (α × Nat)) (a : α) : Nat :=
  ((counts.filter fun entry => entry.1 = a).map Prod.snd).sum

omit [LinearOrder α] in
theorem counted_cons (entry : α × Nat) (rest : List (α × Nat)) (a : α) :
    counted (entry :: rest) a = (if entry.1 = a then entry.2 else 0) + counted rest a := by
  unfold counted
  by_cases h : entry.1 = a
  · simp [h]
  · simp [h]

theorem counted_of_mem {entry : α × Nat} (hkeys : (counts.map Prod.fst).Pairwise (· < ·))
    (h : entry ∈ counts) : counted counts entry.1 = entry.2 := by
  have hdistinct : (counts.map Prod.fst).Nodup := hkeys.imp fun hlt => ne_of_lt hlt
  have honly : forall other, other ∈ counts -> (other.1 = entry.1 <-> other = entry) := by
    intro other hother
    exact ⟨List.inj_on_of_nodup_map hdistinct hother h, fun hsame => congrArg Prod.fst hsame⟩
  have hfilter : counts.filter (fun other => other.1 = entry.1) = [entry] := by
    rw [List.filter_congr fun other hother => decide_eq_decide.mpr (honly other hother),
      List.filter_eq, List.count_eq_one_of_mem hdistinct.of_map h]
    rfl
  unfold counted
  rw [hfilter]
  rfl

variable [DecidableLT α]

def bump (a : α) : List (α × Nat) -> List (α × Nat)
  | [] => [(a, 1)]
  | entry :: rest =>
      if a < entry.1 then (a, 1) :: entry :: rest
      else if entry.1 < a then entry :: bump a rest
      else (entry.1, entry.2 + 1) :: rest

def endCounts (edges : List (α × α)) : List (α × Nat) :=
  (ends edges).foldl (fun counts a => bump a counts) []

omit [DecidableEq α] in
theorem keys_bump (a : α) (counts : List (α × Nat)) :
    (bump a counts).map Prod.fst = Ascending.insert a (counts.map Prod.fst) := by
  induction counts with
  | nil => rfl
  | cons entry rest ih =>
      unfold bump
      rw [List.map_cons, Ascending.insert]
      split
      · rfl
      · split
        · rw [List.map_cons, ih]
        · rfl

theorem counted_bump (a b : α) (counts : List (α × Nat)) :
    counted (bump a counts) b = counted counts b + if a = b then 1 else 0 := by
  induction counts with
  | nil =>
      unfold bump
      rw [counted_cons, Nat.add_comm]
  | cons entry rest ih =>
      unfold bump
      split
      · rw [counted_cons, Nat.add_comm]
      · split
        · rw [counted_cons, counted_cons, ih, Nat.add_assoc]
        · rename_i hless hgreater
          have hsame : entry.1 = a := le_antisymm (not_lt.mp hless) (not_lt.mp hgreater)
          rw [counted_cons, counted_cons, hsame]
          by_cases hab : a = b
          · simp only [hab, if_true]
            omega
          · simp only [hab, if_false]
            omega

theorem counted_foldl_bump (listed : List α) (counts : List (α × Nat)) (a : α) :
    counted (listed.foldl (fun counts b => bump b counts) counts) a =
      counted counts a + listed.count a := by
  induction listed generalizing counts with
  | nil => rfl
  | cons b rest ih =>
      rw [List.foldl_cons, ih, counted_bump, List.count_cons]
      simp only [beq_iff_eq]
      omega

omit [DecidableEq α] in
theorem pairwise_foldl_bump (listed : List α) (h : (counts.map Prod.fst).Pairwise (· < ·)) :
    ((listed.foldl (fun counts b => bump b counts) counts).map Prod.fst).Pairwise (· < ·) := by
  induction listed generalizing counts with
  | nil => exact h
  | cons b rest ih =>
      apply ih
      rw [keys_bump]
      exact Ascending.pairwise_insert h

omit [DecidableEq α] in
theorem mem_keys_foldl_bump (listed : List α) (counts : List (α × Nat)) :
    a ∈ (listed.foldl (fun counts b => bump b counts) counts).map Prod.fst <->
      a ∈ listed ∨ a ∈ counts.map Prod.fst := by
  induction listed generalizing counts with
  | nil => simp
  | cons b rest ih =>
      rw [List.foldl_cons, ih, keys_bump, Ascending.mem_insert_iff, List.mem_cons]
      tauto

omit [DecidableEq α] in
theorem mem_keys_endCounts : a ∈ (endCounts edges).map Prod.fst <-> a ∈ ends edges := by
  rw [endCounts, mem_keys_foldl_bump]
  simp

omit [DecidableEq α] in
theorem pairwise_endCounts (edges : List (α × α)) :
    ((endCounts edges).map Prod.fst).Pairwise (· < ·) :=
  pairwise_foldl_bump (ends edges) List.Pairwise.nil

theorem endCounts_entry {entry : α × Nat} (h : entry ∈ endCounts edges) :
    entry.2 = (ends edges).count entry.1 := by
  rw [← counted_of_mem (pairwise_endCounts edges) h, endCounts, counted_foldl_bump]
  simp [counted]

/-!
# Rounds
-/

def leader? (edges : List (α × α)) : Option α :=
  ((endCounts edges).foldl HittingSet.Tally.ahead none).map Prod.fst

omit [DecidableEq α] in
theorem leader?_eq (edges : List (α × α)) :
    leader? edges = (HittingSet.heaviest? Prod.snd (endCounts edges)).map Prod.fst := by
  unfold leader?
  cases endCounts edges with
  | nil => rfl
  | cons top rest => rw [← HittingSet.Tally.foldl_ahead, List.foldl_cons, HittingSet.Tally.ahead]

omit [DecidableEq α] in
theorem leader?_mem (h : leader? edges = some a) : a ∈ ends edges := by
  rw [leader?_eq] at h
  rcases Option.map_eq_some_iff.mp h with ⟨entry, hentry, rfl⟩
  exact mem_keys_endCounts.mp (List.mem_map_of_mem (HittingSet.heaviest?_mem hentry))

theorem length_apart_lt (h : leader? edges = some a) :
    (apart edges a).length < edges.length := by
  rcases mem_ends_iff.mp (leader?_mem h) with ⟨edge, hedge, hend⟩
  refine List.length_filter_lt_length_iff_exists.mpr ⟨edge, hedge, ?_⟩
  rcases hend with rfl | rfl
  · simp
  · simp

/-- Takes one end after the other until no edge is left.  The answer is the choices, and whether the
run has come to its end: it gives up when no end is counted. -/
def exhaust (edges : List (α × α)) : List α × Bool :=
  if edges = [] then ([], true)
  else
    match _leader : leader? edges with
    | none => ([], false)
    | some a => (a :: (exhaust (apart edges a)).1, (exhaust (apart edges a)).2)
termination_by edges.length
decreasing_by all_goals exact length_apart_lt _leader

theorem exhaust_nil : exhaust ([] : List (α × α)) = ([], true) := by
  rw [exhaust, if_pos rfl]

theorem exhaust_of_leader (h : leader? edges = some a) :
    exhaust edges = (a :: (exhaust (apart edges a)).1, (exhaust (apart edges a)).2) := by
  have hne : edges ≠ [] := by
    rintro rfl
    cases leader?_mem h
  rw [exhaust, if_neg hne]
  split
  · rename_i hnone
    cases h.symm.trans hnone
  · rename_i found hfound
    cases h.symm.trans hfound
    rfl

omit [DecidableEq α] in
theorem exists_leader (h : edges ≠ []) : exists a, leader? edges = some a := by
  rcases List.exists_mem_of_ne_nil edges h with ⟨edge, hedge⟩
  have hkey : edge.1 ∈ (endCounts edges).map Prod.fst :=
    mem_keys_endCounts.mpr (mem_ends_iff.mpr ⟨edge, hedge, Or.inl rfl⟩)
  rw [leader?_eq]
  cases hheaviest : HittingSet.heaviest? Prod.snd (endCounts edges) with
  | none =>
      rw [HittingSet.heaviest?_eq_none hheaviest] at hkey
      cases hkey
  | some entry => exact ⟨entry.1, rfl⟩

theorem isLeast_of_leader (h : Keeps family taken edges) (hleader : leader? edges = some a) :
    IsLeast (busiest family taken) a := by
  have hend := leader?_mem hleader
  rw [leader?_eq] at hleader
  rcases Option.map_eq_some_iff.mp hleader with ⟨entry, hheaviest, rfl⟩
  have hcount : forall other, other ∈ endCounts edges -> other.2 = degree family taken other.1 :=
    fun other hother => (endCounts_entry hother).trans (count_ends h other.1)
  have hothers : forall b, 0 < degree family taken b ->
      degree family taken b ≤ degree family taken entry.1 ∧
        (degree family taken b = degree family taken entry.1 -> entry.1 ≤ b) := by
    intro b hb
    have hkey := mem_keys_endCounts.mpr ((mem_ends_iff_degree h).mpr hb)
    rcases List.mem_map.mp hkey with ⟨other, hother, rfl⟩
    rw [← hcount entry (HittingSet.heaviest?_mem hheaviest), ← hcount other hother]
    exact HittingSet.heaviest?_least (List.pairwise_map.mp (pairwise_endCounts edges)) hheaviest
      hother
  exact isLeast_busiest ((mem_ends_iff_degree h).mp hend) hothers

theorem takes_exhaust (h : Keeps family taken edges) :
    Takes family taken (exhaust edges).1 ∧ (exhaust edges).2 = true := by
  induction edges using exhaust.induct generalizing taken with
  | case1 =>
      rw [exhaust_nil]
      refine ⟨Takes.done ?_, rfl⟩
      intro a
      rw [← count_ends h]
      rfl
  | case2 edges hne hnone =>
      rcases exists_leader hne with ⟨a, ha⟩
      cases hnone.symm.trans ha
  | case3 edges hne a hleader ih =>
      rw [exhaust_of_leader hleader]
      rcases ih (keeps_apart h a) with ⟨htakes, hdone⟩
      exact ⟨Takes.take (isLeast_of_leader h hleader) htakes, hdone⟩

theorem exhaust_eq_choose (family : List (List α)) :
    exhaust (cooccurrences family) = (choose (graph family), true) := by
  rcases takes_exhaust (keeps_cooccurrences family) with ⟨htakes, hdone⟩
  exact Prod.ext (takes_unique htakes (takes_family family)) hdone

/-!
# The cover
-/

theorem mem_cover_iff : a ∈ cover family <-> a ∈ choose (graph family) :=
  Ascending.mem_ofList_iff

theorem mem_cover_of_cooccur (h : Cooccur family a b) : a ∈ cover family ∨ b ∈ cover family := by
  rw [mem_cover_iff, mem_cover_iff]
  exact takes_covers (takes_family family) h

theorem card_uncovered (hset : set ∈ family) :
    (set.toFinset \ (cover family).toFinset).card ≤ 1 := by
  apply Finset.card_le_one.mpr
  intro a ha b hb
  rw [Finset.mem_sdiff, List.mem_toFinset, List.mem_toFinset] at ha hb
  by_contra hne
  rcases mem_cover_of_cooccur ⟨hne, set, hset, ha.left, hb.left⟩ with hcovered | hcovered
  · exact ha.right hcovered
  · exact hb.right hcovered

theorem card_covered (hset : set ∈ family) :
    set.toFinset.card - 1 ≤ (set.toFinset ∩ (cover family).toFinset).card := by
  have hparts := Finset.card_sdiff_add_card_inter set.toFinset (cover family).toFinset
  have hopen := card_uncovered hset
  omega

theorem exists_mem_cover (hset : set ∈ family) (htwo : 2 ≤ set.toFinset.card) :
    exists a, a ∈ set ∧ a ∈ cover family := by
  have hpositive : 0 < (set.toFinset ∩ (cover family).toFinset).card :=
    Nat.lt_of_lt_of_le (Nat.sub_pos_of_lt htwo) (card_covered hset)
  rcases Finset.card_pos.mp hpositive with ⟨a, ha⟩
  rw [Finset.mem_inter, List.mem_toFinset, List.mem_toFinset] at ha
  exact ⟨a, ha⟩

theorem greedy_cover_exact (family : List (List α)) :
    exhaust (cooccurrences family) = (choose (graph family), true) ∧
    (choose (graph family)).Nodup ∧
    ((cover family).Pairwise (· < ·) ∧
      forall a, a ∈ cover family <-> a ∈ choose (graph family)) ∧
    (forall set, set ∈ family ->
      (set.toFinset \ (cover family).toFinset).card ≤ 1 ∧
      set.toFinset.card - 1 ≤ (set.toFinset ∩ (cover family).toFinset).card ∧
      (2 ≤ set.toFinset.card -> exists a, a ∈ set ∧ a ∈ cover family)) ∧
    (forall a, a ∈ cover family -> exists b, b ≠ a ∧ exists set, set ∈ family ∧ a ∈ set ∧ b ∈ set) ∧
    forall before a after, choose (graph family) = before ++ a :: after ->
      IsLeast (busiest family before) a := by
  have htakes := takes_family family
  refine ⟨exhaust_eq_choose family, nodup_of_takes htakes,
    ⟨Ascending.pairwise_ofList _, fun a => mem_cover_iff⟩, ?_, ?_, ?_⟩
  · intro set hset
    exact ⟨card_uncovered hset, card_covered hset, exists_mem_cover hset⟩
  · intro a ha
    rcases cooccur_of_takes htakes (mem_cover_iff.mp ha) with ⟨_, b, hne, htogether⟩
    exact ⟨b, hne.symm, htogether⟩
  · intro before a after hsplit
    rw [hsplit] at htakes
    exact takes_split htakes

/-!
Five sets, one of them out of order and with a repeated element; once `5` is taken, `3` and `7` are
left with one co-occurrence.
-/

def quorum : List (List Nat) := [[7, 3, 7, 5], [5, 9], [4], [], [9, 9]]

theorem quorum_choices : choose (graph quorum) = [5, 3] := by
  decide +kernel

theorem quorum_covered :
    exhaust (cooccurrences quorum) = ([5, 3], true) ∧
      (List.toFinset [7, 3, 7, 5] \ (cover quorum).toFinset).card ≤ 1 ∧
      2 ≤ (List.toFinset [7, 3, 7, 5] ∩ (cover quorum).toFinset).card ∧
      (exists a, a ∈ [5, 9] ∧ a ∈ cover quorum) ∧
      (exists b, b ≠ 3 ∧ exists set, set ∈ quorum ∧ 3 ∈ set ∧ b ∈ set) ∧
      IsLeast (busiest quorum [5]) 3 := by
  rcases greedy_cover_exact quorum with ⟨hrun, _, ⟨_, hmem⟩, hsets, hpaired, hleast⟩
  rcases hsets [7, 3, 7, 5] (by decide) with ⟨hopen, hcovered, _⟩
  rw [quorum_choices] at hrun
  refine ⟨hrun, hopen, hcovered, (hsets [5, 9] (by decide)).right.right (by decide), ?_, ?_⟩
  · apply hpaired 3
    rw [hmem, quorum_choices]
    decide
  · exact hleast [5] 3 [] quorum_choices

end VertexCover
end SafeRestart
