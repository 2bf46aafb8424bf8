import Mathlib.Data.Finset.Card
import SafeRestart.Proofs.Greedy
import SafeRestart.VertexCover

/-!
# Co-occurrences left open

A greedy cover takes, again and again, the smallest of the elements with the most co-occurrences of
which no end is taken.  Which elements are taken is determined by the sets alone, however the
co-occurrences are kept; every co-occurrence has an end that is taken.
-/

namespace SafeRestart
namespace VertexCover

universe u

variable {α : Type u} {family : List (List α)} {taken rest set : List α} {a b : α}
  {links : List (α × List α)}

def Cooccur (family : List (List α)) (a b : α) : Prop :=
  a ≠ b ∧ exists set, set ∈ family ∧ a ∈ set ∧ b ∈ set

theorem cooccur_symm (h : Cooccur family a b) : Cooccur family b a := by
  rcases h with ⟨hne, set, hset, ha, hb⟩
  exact ⟨hne.symm, set, hset, hb, ha⟩

variable [DecidableEq α]

instance (family : List (List α)) (a b : α) : Decidable (Cooccur family a b) :=
  inferInstanceAs (Decidable (a ≠ b ∧ exists set, set ∈ family ∧ a ∈ set ∧ b ∈ set))

/-!
# Degrees
-/

def openCompanions (family : List (List α)) (taken : List α) (a : α) : Finset α :=
  family.flatten.toFinset.filter fun b => Cooccur family a b ∧ a ∉ taken ∧ b ∉ taken

theorem mem_openCompanions_iff :
    b ∈ openCompanions family taken a <-> Cooccur family a b ∧ a ∉ taken ∧ b ∉ taken := by
  unfold openCompanions
  rw [Finset.mem_filter, List.mem_toFinset, and_iff_right_iff_imp]
  intro h
  rcases h.left with ⟨_, set, hset, _, hb⟩
  exact List.mem_flatten.mpr ⟨set, hset, hb⟩

theorem openCompanions_append (family : List (List α)) (taken : List α) (hne : b ≠ a) :
    openCompanions family (taken ++ [a]) b = (openCompanions family taken b).filter (· ≠ a) := by
  ext c
  rw [Finset.mem_filter, mem_openCompanions_iff, mem_openCompanions_iff]
  simp only [List.mem_append, List.mem_singleton, not_or]
  tauto

def degree (family : List (List α)) (taken : List α) (a : α) : Nat :=
  (openCompanions family taken a).card

theorem degree_pos_iff :
    0 < degree family taken a <-> exists b, Cooccur family a b ∧ a ∉ taken ∧ b ∉ taken := by
  unfold degree
  rw [Finset.card_pos]
  constructor
  · intro h
    rcases h with ⟨b, hb⟩
    exact ⟨b, mem_openCompanions_iff.mp hb⟩
  · intro h
    rcases h with ⟨b, hb⟩
    exact ⟨b, mem_openCompanions_iff.mpr hb⟩

def busiest (family : List (List α)) (taken : List α) : Set α :=
  {a | 0 < degree family taken a ∧ forall b, degree family taken b ≤ degree family taken a}

/-!
# Choices
-/

theorem choose_of_best?_none (h : best? links = none) : choose links = [] := by
  rw [choose]
  split
  · rfl
  · rename_i hsome
    cases h.symm.trans hsome

theorem choose_of_best?_some (h : best? links = some a) :
    choose links = a :: choose (without links a) := by
  rw [choose]
  split
  · rename_i hnone
    cases h.symm.trans hnone
  · rename_i found hfound
    cases h.symm.trans hfound
    rfl

/-!
# Greedy runs
-/

variable [LinearOrder α]

theorem isLeast_busiest (hpositive : 0 < degree family taken a)
    (hothers : forall b, 0 < degree family taken b ->
      degree family taken b ≤ degree family taken a ∧
        (degree family taken b = degree family taken a -> a ≤ b)) :
    IsLeast (busiest family taken) a := by
  have hmost : forall b, degree family taken b ≤ degree family taken a := by
    intro b
    by_cases hb : 0 < degree family taken b
    · exact (hothers b hb).left
    · exact Nat.le_trans (Nat.le_of_not_lt hb) (Nat.zero_le _)
  refine ⟨⟨hpositive, hmost⟩, ?_⟩
  intro b hb
  exact (hothers b hb.left).right (Nat.le_antisymm (hmost b) (hb.right a))

/-- `Takes family taken rest`: with the elements of `taken` gone, `rest` is what is taken one after
the other until no co-occurrence is left. -/
inductive Takes (family : List (List α)) : List α -> List α -> Prop where
  | done {taken : List α} : (forall a, degree family taken a = 0) -> Takes family taken []
  | take {taken rest : List α} {a : α} : IsLeast (busiest family taken) a ->
      Takes family (taken ++ [a]) rest -> Takes family taken (a :: rest)

theorem takes_unique {rest' : List α} (h : Takes family taken rest)
    (h' : Takes family taken rest') : rest = rest' := by
  induction h generalizing rest' with
  | done hnone =>
      cases h' with
      | done _ => rfl
      | take hleast _ => exact absurd (hnone _) (Nat.ne_of_gt hleast.left.left)
  | take hleast _ ih =>
      cases h' with
      | done hnone => exact absurd (hnone _) (Nat.ne_of_gt hleast.left.left)
      | take hleast' hrest' =>
          cases hleast.unique hleast'
          rw [ih hrest']

theorem takes_split {before after : List α} (h : Takes family taken (before ++ a :: after)) :
    IsLeast (busiest family (taken ++ before)) a := by
  induction before generalizing taken with
  | nil =>
      cases h with
      | take hleast _ =>
          rw [List.append_nil]
          exact hleast
  | cons first before ih =>
      cases h with
      | take _ hrest =>
          have hsplit := ih hrest
          rw [List.append_assoc] at hsplit
          exact hsplit

theorem takes_covers (h : Takes family taken rest) (hab : Cooccur family a b) :
    a ∈ taken ++ rest ∨ b ∈ taken ++ rest := by
  induction h with
  | @done taken hnone =>
      by_contra hopen
      rw [List.append_nil, not_or] at hopen
      exact Nat.ne_of_gt (degree_pos_iff.mpr ⟨b, hab, hopen⟩) (hnone a)
  | take _ _ ih =>
      rw [List.append_assoc] at ih
      exact ih

theorem cooccur_of_takes (h : Takes family taken rest) (ha : a ∈ rest) :
    a ∉ taken ∧ exists b, Cooccur family a b := by
  rcases List.append_of_mem ha with ⟨before, after, rfl⟩
  rcases degree_pos_iff.mp (takes_split h).left.left with ⟨b, hab, hopen, _⟩
  exact ⟨fun hmem => hopen (List.mem_append_left before hmem), b, hab⟩

theorem nodup_of_takes (h : Takes family taken rest) : rest.Nodup := by
  induction h with
  | done _ => exact List.nodup_nil
  | @take taken rest a _ hrest ih =>
      refine List.nodup_cons.mpr ⟨?_, ih⟩
      intro hmem
      apply (cooccur_of_takes hrest hmem).left
      exact List.mem_append_right taken (List.mem_singleton_self a)

/-!
# Runs over companions
-/

/-- A co-occurrence graph in the course of a run: each element that has co-occurrences left stands
with its companions, in ascending order of the elements. -/
structure Represents (family : List (List α)) (taken : List α) (links : List (α × List α)) :
    Prop where
  ascending : links.Pairwise fun vertex later => vertex.1 < later.1
  nodup : forall vertex, vertex ∈ links -> vertex.2.Nodup
  companions : forall vertex, vertex ∈ links ->
    vertex.2.toFinset = openCompanions family taken vertex.1
  complete : forall a, 0 < degree family taken a -> a ∈ links.map Prod.fst

theorem length_companions (h : Represents family taken links) {vertex : α × List α}
    (hvertex : vertex ∈ links) : vertex.2.length = degree family taken vertex.1 := by
  rw [degree, ← h.companions vertex hvertex, List.toFinset_card_of_nodup (h.nodup vertex hvertex)]

theorem represents_without (h : Represents family taken links) (a : α) :
    Represents family (taken ++ [a]) (without links a) := by
  constructor
  · exact List.pairwise_map.mpr (h.ascending.filter _)
  · intro vertex hvertex
    rcases List.mem_map.mp hvertex with ⟨former, hformer, rfl⟩
    exact (h.nodup former (List.mem_filter.mp hformer).left).filter _
  · intro vertex hvertex
    rcases List.mem_map.mp hvertex with ⟨former, hformer, rfl⟩
    rcases List.mem_filter.mp hformer with ⟨hmem, hother⟩
    rw [openCompanions_append family taken (by simpa using hother), ← h.companions former hmem,
      List.toFinset_filter]
    simp
  · intro b hb
    rcases degree_pos_iff.mp hb with ⟨c, hbc, hopen, hopen'⟩
    rw [List.mem_append, not_or, List.mem_singleton] at hopen hopen'
    have hformer := h.complete b (degree_pos_iff.mpr ⟨c, hbc, hopen.left, hopen'.left⟩)
    rcases List.mem_map.mp hformer with ⟨vertex, hvertex, rfl⟩
    unfold without
    rw [List.map_map, List.mem_map]
    exact ⟨vertex, List.mem_filter.mpr ⟨hvertex, by simpa using hopen.right⟩, rfl⟩

theorem isLeast_of_best? (h : Represents family taken links) (hbest : best? links = some a) :
    IsLeast (busiest family taken) a := by
  rcases Option.map_eq_some_iff.mp hbest with ⟨vertex, htaken, rfl⟩
  rcases Option.filter_eq_some_iff.mp htaken with ⟨hheaviest, hoccupied⟩
  have hvertex := HittingSet.heaviest?_mem hheaviest
  have hpositive : 0 < degree family taken vertex.1 := by
    rw [← length_companions h hvertex]
    exact List.length_pos_of_ne_nil (by simpa using hoccupied)
  have hothers : forall b, 0 < degree family taken b ->
      degree family taken b ≤ degree family taken vertex.1 ∧
        (degree family taken b = degree family taken vertex.1 -> vertex.1 ≤ b) := by
    intro b hb
    rcases List.mem_map.mp (h.complete b hb) with ⟨other, hother, rfl⟩
    rw [← length_companions h hvertex, ← length_companions h hother]
    exact HittingSet.heaviest?_least h.ascending hheaviest hother
  exact isLeast_busiest hpositive hothers

theorem degree_of_best?_none (h : Represents family taken links) (hbest : best? links = none) :
    forall a, degree family taken a = 0 := by
  intro a
  by_contra hpositive
  rcases List.mem_map.mp (h.complete a (Nat.pos_of_ne_zero hpositive)) with
    ⟨vertex, hvertex, rfl⟩
  unfold best? at hbest
  rw [Option.map_eq_none_iff] at hbest
  cases hheaviest : HittingSet.heaviest? (fun vertex => vertex.2.length) links with
  | none =>
      rw [HittingSet.heaviest?_eq_none hheaviest] at hvertex
      cases hvertex
  | some top =>
      -- The heaviest vertex has no companions, so no other vertex has any.
      have hbehind := (HittingSet.heaviest?_least h.ascending hheaviest hvertex).left
      rw [length_companions h hvertex] at hbehind
      have hempty : top.2.length = 0 := by
        simpa [hheaviest, Option.filter] using hbest
      omega

theorem takes_choose (h : Represents family taken links) : Takes family taken (choose links) := by
  induction links using choose.induct generalizing taken with
  | case1 links hbest =>
      rw [choose_of_best?_none hbest]
      exact Takes.done (degree_of_best?_none h hbest)
  | case2 links a hbest ih =>
      rw [choose_of_best?_some hbest]
      exact Takes.take (isLeast_of_best? h hbest) (ih (represents_without h a))

variable [DecidableLT α]

theorem mem_companions_iff : b ∈ companions family a <-> Cooccur family a b := by
  unfold companions Cooccur
  rw [List.mem_filter, Ascending.mem_ofList_iff, List.mem_flatten]
  simp only [List.mem_filter, decide_eq_true_eq]
  constructor
  · intro h
    rcases h with ⟨⟨set, ⟨hset, ha⟩, hb⟩, hne⟩
    exact ⟨Ne.symm hne, set, hset, ha, hb⟩
  · intro h
    rcases h with ⟨hne, set, hset, ha, hb⟩
    exact ⟨⟨set, ⟨hset, ha⟩, hb⟩, Ne.symm hne⟩

theorem represents_graph (family : List (List α)) : Represents family [] (graph family) := by
  constructor
  · exact List.pairwise_map.mpr (Ascending.pairwise_ofList _)
  · intro vertex hvertex
    rcases List.mem_map.mp hvertex with ⟨a, _, rfl⟩
    exact ((Ascending.pairwise_ofList _).imp fun hlt => ne_of_lt hlt).filter _
  · intro vertex hvertex
    rcases List.mem_map.mp hvertex with ⟨a, _, rfl⟩
    ext b
    rw [List.mem_toFinset, mem_companions_iff, mem_openCompanions_iff]
    simp
  · intro a ha
    rcases degree_pos_iff.mp ha with ⟨b, ⟨_, set, hset, hmem, _⟩, _⟩
    have hlisted : a ∈ Ascending.ofList family.flatten :=
      Ascending.mem_ofList_iff.mpr (List.mem_flatten.mpr ⟨set, hset, hmem⟩)
    exact List.mem_map.mpr ⟨_, List.mem_map.mpr ⟨a, hlisted, rfl⟩, rfl⟩

theorem takes_family (family : List (List α)) : Takes family [] (choose (graph family)) :=
  takes_choose (represents_graph family)

end VertexCover
end SafeRestart
