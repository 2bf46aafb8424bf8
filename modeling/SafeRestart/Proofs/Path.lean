/-!
# Paths

A path records how a relation leads from one element to another: besides its two ends it names, in
order, all elements met after the first one.  The last of them is the end of the path.
-/

namespace SafeRestart

universe u

variable {α : Type u}

/-- `Path R a met b`: steps of `R` lead from `a` to `b`, and `met` lists the elements after `a`. -/
inductive Path (R : α -> α -> Prop) : α -> List α -> α -> Prop where
  | nil (a : α) : Path R a [] a
  | cons {a b c : α} {met : List α} : R a b -> Path R b met c -> Path R a (b :: met) c

variable {R S : α -> α -> Prop} {a b c : α} {met before after : List α}

/-!
# Joining and splitting
-/

theorem path_append (hfirst : Path R a before b) (hsecond : Path R b after c) :
    Path R a (before ++ after) c := by
  induction hfirst with
  | nil _ => exact hsecond
  | cons hstep _ ih => exact Path.cons hstep (ih hsecond)

theorem path_snoc (hpath : Path R a met b) (hstep : R b c) : Path R a (met ++ [c]) c :=
  path_append hpath (Path.cons hstep (Path.nil c))

theorem path_append_split (hpath : Path R a (before ++ after) c) :
    exists b, Path R a before b ∧ Path R b after c := by
  induction before generalizing a with
  | nil => exact ⟨a, Path.nil a, hpath⟩
  | cons x rest ih =>
      cases hpath with
      | cons hstep htail =>
          rcases ih htail with ⟨b, hrest, hafter⟩
          exact ⟨b, Path.cons hstep hrest, hafter⟩

theorem path_end (hpath : Path R a met b) :
    (met = [] ∧ a = b) ∨ exists before, met = before ++ [b] := by
  induction hpath with
  | nil _ => exact Or.inl ⟨rfl, rfl⟩
  | cons _ _ ih =>
      rcases ih with ⟨hnil, rfl⟩ | ⟨before, hbefore⟩
      · exact Or.inr ⟨[], by rw [hnil]; rfl⟩
      · exact Or.inr ⟨_ :: before, by rw [hbefore]; rfl⟩

theorem path_end_mem (hpath : Path R a met b) (hne : met ≠ []) : b ∈ met := by
  rcases path_end hpath with ⟨hnil, _⟩ | ⟨before, hbefore⟩
  · exact absurd hnil hne
  · rw [hbefore]
    simp

theorem path_split_at (hpath : Path R a (before ++ b :: after) c) :
    Path R a (before ++ [b]) b ∧ Path R b after c := by
  rw [List.append_cons] at hpath
  rcases path_append_split hpath with ⟨x, hbefore, hafter⟩
  rcases path_end hbefore with ⟨hnil, _⟩ | ⟨init, hinit⟩
  · simp at hnil
  · have hlast : b = x := by simpa using congrArg List.getLast? hinit
    subst hlast
    exact ⟨hbefore, hafter⟩

/-- A path can be cut at any of its elements before a given end part, its start included. -/
theorem path_cut_before {met tail : List α} (hpath : Path R a (met ++ tail) c)
    (hsplit : a :: met = before ++ b :: after) :
    (exists first, Path R a first b) ∧ Path R b (after ++ tail) c := by
  cases before with
  | nil =>
      cases hsplit
      exact ⟨⟨[], Path.nil a⟩, hpath⟩
  | cons x before =>
      rw [List.cons_append] at hsplit
      rcases List.cons.inj hsplit with ⟨rfl, rfl⟩
      rw [List.append_assoc, List.cons_append] at hpath
      exact ⟨⟨before ++ [b], (path_split_at hpath).left⟩, (path_split_at hpath).right⟩

theorem path_cut (hpath : Path R a met c) (hmem : b ∈ met) :
    exists before after,
      met = before ++ b :: after ∧ Path R a (before ++ [b]) b ∧ Path R b after c := by
  rcases List.append_of_mem hmem with ⟨before, after, rfl⟩
  exact ⟨before, after, rfl, path_split_at hpath⟩

/-!
# Walking back
-/

theorem path_reverse (hpath : Path R a met b) :
    exists back, Path (fun x y => R y x) b back a ∧ b :: back = (a :: met).reverse := by
  induction hpath with
  | nil x => exact ⟨[], Path.nil x, rfl⟩
  | cons hstep htail ih =>
      rename_i x y z rest
      rcases ih with ⟨back, hback, hrev⟩
      refine ⟨back ++ [x], path_snoc hback hstep, ?_⟩
      rw [List.reverse_cons, ← hrev]
      rfl

theorem mem_dropLast_iff_of_reverse {back : List α} (h : b :: back = (a :: met).reverse) {x : α} :
    x ∈ (a :: met).dropLast <-> x ∈ back := by
  have htail : back = ((a :: met).dropLast).reverse := by
    rw [← List.tail_reverse, ← h]
    rfl
  rw [htail, List.mem_reverse]

/-!
# Changing the relation
-/

theorem path_mono (himp : forall x y, R x y -> S x y) (hpath : Path R a met b) :
    Path S a met b := by
  induction hpath with
  | nil x => exact Path.nil x
  | cons hstep _ ih => exact Path.cons (himp _ _ hstep) ih

/-- Steps that start outside `P` are the steps of a path on which no element before the end is in
`P`. -/
theorem path_avoiding_iff {P : α -> Prop} :
    Path (fun x y => ¬ P x ∧ R x y) a met b <->
      Path R a met b ∧ forall x, x ∈ (a :: met).dropLast -> ¬ P x := by
  constructor
  · intro hpath
    induction hpath with
    | nil x => exact ⟨Path.nil x, by simp⟩
    | cons hstep _ ih =>
        refine ⟨Path.cons hstep.right ih.left, ?_⟩
        intro x hx
        rw [List.dropLast_cons_cons, List.mem_cons] at hx
        rcases hx with rfl | hx
        · exact hstep.left
        · exact ih.right x hx
  · intro h
    rcases h with ⟨hpath, havoid⟩
    induction hpath with
    | nil x => exact Path.nil x
    | cons hstep _ ih =>
        rw [List.dropLast_cons_cons] at havoid
        refine Path.cons ⟨havoid _ List.mem_cons_self, hstep⟩ (ih ?_)
        intro x hx
        exact havoid x (List.mem_cons_of_mem _ hx)

theorem path_inside_iff {P : α -> Prop} :
    Path (fun x y => R x y ∧ P y) a met b <-> Path R a met b ∧ forall x, x ∈ met -> P x := by
  constructor
  · intro hpath
    induction hpath with
    | nil x => exact ⟨Path.nil x, by simp⟩
    | cons hstep _ ih =>
        refine ⟨Path.cons hstep.left ih.left, ?_⟩
        intro x hx
        rcases List.mem_cons.mp hx with rfl | hx
        · exact hstep.right
        · exact ih.right x hx
  · intro h
    rcases h with ⟨hpath, hinside⟩
    induction hpath with
    | nil x => exact Path.nil x
    | cons hstep _ ih =>
        refine Path.cons ⟨hstep, hinside _ List.mem_cons_self⟩ (ih ?_)
        intro x hx
        exact hinside x (List.mem_cons_of_mem _ hx)

end SafeRestart
