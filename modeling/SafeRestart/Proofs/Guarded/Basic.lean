import SafeRestart.Error

/-!
# Guarded computations

A guarded computation is a plain one in which nothing is taken for granted: every look-up has to
find an entry, every mark has to fit the bit set it is put in and every number has to fit an
identifier.  Where the plain computation makes do with a default, the guarded one ends in a fault.

A fault is not an error: an error is an answer.  What can fail with an error and can also end in a
fault is compared with the plain outcome, be it a result or an error.
-/

namespace SafeRestart

variable {α β : Type}

/-!
# Look-ups
-/

def entryAt (table : List α) (n : Nat) : Except Fault α :=
  match table[n]? with
  | some a => .ok a
  | none => .error .outOfBounds

def storeAt (table : List α) (n : Nat) (a : α) : Except Fault (List α) :=
  if n < table.length then .ok (table.set n a) else .error .outOfBounds

def slice (table : List α) (floor stop : Nat) : Except Fault (List α) :=
  if floor ≤ stop ∧ stop ≤ table.length then .ok ((table.take stop).drop floor)
  else .error .outOfBounds

theorem ok_bind {ε : Type} (a : α) (next : α -> Except ε β) :
    (Except.ok a >>= next) = next a := rfl

theorem entryAt_of_some {table : List α} {n : Nat} {a : α} (h : table[n]? = some a) :
    entryAt table n = .ok a := by
  rw [entryAt, h]

theorem exists_entryAt {table : List α} {n : Nat} (h : n < table.length) :
    exists a, table[n]? = some a ∧ entryAt table n = .ok a :=
  ⟨_, List.getElem?_eq_getElem h, entryAt_of_some (List.getElem?_eq_getElem h)⟩

theorem storeAt_of_lt {table : List α} {n : Nat} (h : n < table.length) (a : α) :
    storeAt table n a = .ok (table.set n a) := if_pos h

theorem slice_of_le {table : List α} {floor stop : Nat} (hfloor : floor ≤ stop)
    (hstop : stop ≤ table.length) :
    slice table floor stop = .ok ((table.take stop).drop floor) := by
  rw [slice, if_pos ⟨hfloor, hstop⟩]

theorem mapM_eq_map {ε : Type} {g : α -> Except ε β} {h : α -> β} {l : List α}
    (hg : forall a, a ∈ l -> g a = .ok (h a)) : l.mapM g = .ok (l.map h) := by
  induction l with
  | nil => rfl
  | cons a rest ih =>
      rw [List.mapM_cons, hg a List.mem_cons_self, ih fun b hb => hg b (List.mem_cons_of_mem a hb)]
      rfl

theorem mapM_eq_filterMap {g : α -> Except Fault β} {h : α -> Option β} {l : List α}
    (hg : forall a, a ∈ l -> exists b, g a = .ok b ∧ h a = some b) :
    l.mapM g = .ok (l.filterMap h) := by
  induction l with
  | nil => rfl
  | cons a rest ih =>
      rcases hg a List.mem_cons_self with ⟨b, hb, hsome⟩
      rw [List.mapM_cons, hb, ih fun c hc => hg c (List.mem_cons_of_mem a hc),
        List.filterMap_cons_some hsome]
      rfl

def sift (test : α -> Except Fault Bool) : List α -> Except Fault (List α)
  | [] => .ok []
  | a :: rest => do
      let passes ← test a
      let kept ← sift test rest
      return if passes then a :: kept else kept

theorem sift_map {test : α -> Except Fault Bool} {g : β -> α} {p : β -> Bool} {l : List β}
    (h : forall b, b ∈ l -> test (g b) = .ok (p b)) :
    sift test (l.map g) = .ok ((l.filter p).map g) := by
  induction l with
  | nil => rfl
  | cons b rest ih =>
      rw [List.map_cons, sift, h b List.mem_cons_self,
        ih fun c hc => h c (List.mem_cons_of_mem b hc)]
      cases hp : p b with
      | true => rw [List.filter_cons_of_pos hp]; rfl
      | false => rw [List.filter_cons_of_neg (by simp [hp])]; rfl

theorem findSomeM?_map {γ : Type} {test : α -> Except Fault (Option γ)} {g : β -> α}
    {found : β -> Option γ} {l : List β} (h : forall b, b ∈ l -> test (g b) = .ok (found b)) :
    (l.map g).findSomeM? test = .ok (l.findSome? found) := by
  induction l with
  | nil => rfl
  | cons b rest ih =>
      rw [List.map_cons, List.findSomeM?, h b List.mem_cons_self, ok_bind,
        ih fun c hc => h c (List.mem_cons_of_mem b hc), List.findSome?_cons]
      cases found b with
      | none => rfl
      | some answer => rfl

/-!
# Outcomes and faults
-/

abbrev Guarded := ExceptT Error (Except Fault)

namespace Guarded

def ofLookUp (answer : Except Fault α) : Guarded α := ExceptT.lift answer

def ofOutcome (outcome : Except Error α) : Guarded α := ExceptT.mk (pure outcome)

def Gives (guarded : Guarded α) (outcome : Except Error α) : Prop := guarded.run = .ok outcome

theorem gives_outcome (outcome : Except Error α) : Gives (ofOutcome outcome) outcome := rfl

theorem gives_pure (a : α) : Gives (pure a) (.ok a) := rfl

theorem gives_bind_ok {guarded : Guarded α} {a : α} {next : α -> Guarded β}
    {outcome : Except Error β} (h : Gives guarded (.ok a)) (hnext : Gives (next a) outcome) :
    Gives (guarded >>= next) outcome := by
  unfold Gives at h
  show (guarded >>= next).run = _
  rw [ExceptT.run_bind, h]
  exact hnext

theorem gives_bind_error {guarded : Guarded α} {e : Error} (h : Gives guarded (.error e))
    (next : α -> Guarded β) : Gives (guarded >>= next) (.error e) := by
  unfold Gives at h
  show (guarded >>= next).run = _
  rw [ExceptT.run_bind, h]
  rfl

theorem gives_bind {guarded : Guarded α} {outcome : Except Error α} {next : α -> Guarded β}
    {plain : α -> Except Error β} (h : Gives guarded outcome)
    (hnext : forall a, outcome = .ok a -> Gives (next a) (plain a)) :
    Gives (guarded >>= next) (outcome >>= plain) := by
  cases outcome with
  | error e => exact gives_bind_error h next
  | ok a => exact gives_bind_ok h (hnext a rfl)

theorem gives_lookUp {answer : Except Fault α} {a : α} {next : α -> Guarded β}
    {outcome : Except Error β} (h : answer = .ok a) (hnext : Gives (next a) outcome) :
    Gives (ofLookUp answer >>= next) outcome := by
  rw [h]
  exact hnext

theorem gives_forM {l : List α} {guarded : α -> Guarded PUnit} {plain : α -> Except Error PUnit}
    (h : forall a, a ∈ l -> Gives (guarded a) (plain a)) :
    Gives (l.forM guarded) (l.forM plain) := by
  induction l with
  | nil => exact gives_pure PUnit.unit
  | cons a rest ih =>
      exact gives_bind (h a List.mem_cons_self) fun _ _ =>
        ih fun b hb => h b (List.mem_cons_of_mem a hb)

/-- A loop gives what the plain loop gives when each turn does so from a state with a property that
the turns keep. -/
theorem gives_foldlM {l : List α} {P : β -> Prop} {guarded : β -> α -> Guarded β}
    {plain : β -> α -> Except Error β} {b : β} (hb : P b)
    (h : forall b a, a ∈ l -> P b ->
      Gives (guarded b a) (plain b a) ∧ forall c, plain b a = .ok c -> P c) :
    Gives (l.foldlM guarded b) (l.foldlM plain b) := by
  induction l generalizing b with
  | nil => exact gives_pure b
  | cons a rest ih =>
      rw [List.foldlM_cons, List.foldlM_cons]
      rcases h b a List.mem_cons_self hb with ⟨hturn, hkeeps⟩
      refine gives_bind hturn fun c hc => ih (hkeeps c hc) ?_
      intro b' a' ha' hb'
      exact h b' a' (List.mem_cons_of_mem a ha') hb'

end Guarded

end SafeRestart
