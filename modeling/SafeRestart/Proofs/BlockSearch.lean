import Mathlib.Data.List.Nodup
import SafeRestart.Proofs.Guarded.Layout
import SafeRestart.Proofs.Guarded.Worklist

/-!
# Searching backward block by block

A search that goes backward from slot to slot runs straight down a block until it meets a reason to
halt, and from the first slot of a block it goes on to the last slots of the predecessors.  It can
therefore be carried out block by block: scan a block from its end, and if nothing halts the scan,
go on to the predecessors that have not been met.

The block in which the search starts is scanned in two pieces: the part before the start at once,
the rest when the search comes back to the block.  What comes back has been all the way round, so
beyond that rest there is nothing new to be found.
-/

namespace SafeRestart
namespace Function

variable {β : Type} {f : Function} {report : Instruction -> Option (List β)} {b c i j p r : Nat}

/-!
# Slots and blocks
-/

def lastSlot (f : Function) (b : Nat) : Nat := f.blockStart (b + 1) - 1

theorem lastSlot_eq (h : 0 < f.blockSize b) :
    f.lastSlot b = f.blockStart b + (f.blockSize b - 1) := by
  rw [lastSlot, blockStart_succ]
  omega

theorem slot_inj (hi : i < f.blockSize b) (hj : j < f.blockSize c)
    (h : f.blockStart b + i = f.blockStart c + j) : b = c ∧ i = j := by
  have hblock : b = c := by
    rcases Nat.lt_trichotomy b c with hlt | hsame | hgt
    · have hmono : f.blockStart (b + 1) ≤ f.blockStart c := blockStart_mono hlt
      rw [blockStart_succ] at hmono
      omega
    · exact hsame
    · have hmono : f.blockStart (c + 1) ≤ f.blockStart b := blockStart_mono hgt
      rw [blockStart_succ] at hmono
      omega
  subst hblock
  exact ⟨rfl, by omega⟩

theorem prev_start (hf : f.WellFormed) (hb : b < f.blockCount) :
    f.prev (f.blockStart b) = (f.graph.preds b).map f.lastSlot := by
  rw [prev_in_block hf (Nat.le_refl _) (blockStart_lt_succ hf hb), if_neg (Nat.lt_irrefl _)]
  rfl

/-!
# Scanning a block
-/

def scan (f : Function) (report : Instruction -> Option (List β)) (b floor stop : Nat) :
    Option (List β) :=
  (((f.blockInsts b).take stop).drop floor).reverse.findSome? report

def reportAt (f : Function) (report : Instruction -> Option (List β)) (k : Nat) :
    Option (List β) :=
  (f.layout[k]?).bind report

def backUnless (f : Function) (report : Instruction -> Option (List β)) (k : Nat) : List Nat :=
  if (f.reportAt report k).isSome then [] else f.prev k

def foundAt (f : Function) (report : Instruction -> Option (List β)) (k : Nat) : List β :=
  (f.reportAt report k).getD []

theorem scan_none (h : p ≤ r) : f.scan report b r p = none := by
  have hnothing : ((f.blockInsts b).take p).drop r = [] := by
    apply List.drop_eq_nil_of_le
    rw [List.length_take]
    omega
  rw [scan, hnothing]
  rfl

theorem scan_succ (hr : r ≤ p) (hp : p < f.blockSize b) :
    f.scan report b r (p + 1) =
      (f.reportAt report (f.blockStart b + p)).or (f.scan report b r p) := by
  rcases exists_inst_at hp with ⟨inst, hinst⟩
  have hlength : r ≤ ((f.blockInsts b).take p).length := by
    unfold blockSize at hp
    rw [List.length_take]
    omega
  unfold scan reportAt
  rw [layout_at hp, hinst, List.take_add_one, hinst, Option.toList_some,
    List.drop_append_of_le_length hlength, List.reverse_append, List.reverse_singleton,
    List.singleton_append, List.findSome?_cons]
  cases hreport : report inst with
  | none => simp [hreport]
  | some found => simp [hreport]

theorem scan_split {q : Nat} (hr : r ≤ q) (hq : q ≤ p) (hp : p ≤ f.blockSize b) :
    f.scan report b r p = (f.scan report b q p).or (f.scan report b r q) := by
  induction p with
  | zero =>
      have hsame : q = 0 := Nat.le_zero.mp hq
      subst hsame
      rw [scan_none (Nat.le_refl 0), scan_none (Nat.zero_le r)]
      rfl
  | succ p ih =>
      by_cases hlast : q = p + 1
      · subst hlast
        rw [scan_none (b := b) (Nat.le_refl (p + 1)), Option.none_or]
      · rw [scan_succ (by omega) hp, scan_succ (by omega) hp, ih (by omega) (by omega),
          Option.or_assoc]

/-!
# Running down a block
-/

open Search

variable {stack pool : List Nat} {k q home : Nat}

def results (f : Function) (report : Instruction -> Option (List β)) (stack pool : List Nat) :
    List β :=
  (visit (f.backUnless report) stack pool).flatMap (f.foundAt report)

theorem results_nil : f.results report [] pool = [] := by
  rw [results, visit, List.flatMap_nil]

theorem results_halt {found : List β} (h : f.reportAt report k = some found) :
    f.results report (k :: stack) pool = found ++ f.results report stack pool := by
  have hback : f.backUnless report k = [] := by simp [backUnless, h]
  have hfound : f.foundAt report k = found := by simp [foundAt, h]
  rw [results, visit, List.flatMap_cons, hback, hfound]
  rfl

theorem results_pass (h : f.reportAt report k = none) :
    f.results report (k :: stack) pool =
      f.results report (enter (f.prev k) stack pool).1 (enter (f.prev k) stack pool).2 := by
  have hback : f.backUnless report k = f.prev k := by simp [backUnless, h]
  have hfound : f.foundAt report k = [] := by simp [foundAt, h]
  rw [results, visit, List.flatMap_cons, hback, hfound]
  rfl

/-- Of the pool, `left` lacks only slots between positions `r` and `p` of the block. -/
structure Spent (f : Function) (b r p : Nat) (pool left : List Nat) : Prop where
  sublist : left.Sublist pool
  lost : forall k, k ∈ pool -> k ∉ left -> exists j, r ≤ j ∧ j < p ∧ k = f.blockStart b + j

theorem spent_refl : f.Spent b r p pool pool :=
  ⟨List.Sublist.refl pool, fun _ hk hgone => absurd hk hgone⟩

section Erased

variable {left : List Nat} (h : f.Spent b r p (pool.erase (f.blockStart b + p)) left)
include h

theorem Spent.of_erase (hr : r ≤ p) : f.Spent b r (p + 1) pool left := by
  refine ⟨h.sublist.trans List.erase_sublist, ?_⟩
  intro k hk hgone
  by_cases hsame : k = f.blockStart b + p
  · exact ⟨p, hr, Nat.lt_succ_self p, hsame⟩
  · rcases h.lost k ((List.mem_erase_of_ne hsame).mpr hk) hgone with ⟨j, hj, hlt, rfl⟩
    exact ⟨j, hj, by omega, rfl⟩

theorem Spent.not_mem_of_erase (hpool : pool.Nodup)
    (hgone : forall j, r ≤ j -> j < p -> f.blockStart b + j ∉ left) (hj : r ≤ j)
    (hlt : j < p + 1) : f.blockStart b + j ∉ left := by
  by_cases hsame : j = p
  · subst hsame
    exact fun hmem => hpool.not_mem_erase (h.sublist.subset hmem)
  · exact hgone j hj (by omega)

end Erased

theorem results_below (hf : f.WellFormed) (hp : p + 1 < f.blockSize b)
    (hreport : f.reportAt report (f.blockStart b + (p + 1)) = none)
    (hbelow : f.blockStart b + p ∈ pool) (stack : List Nat) :
    f.results report ((f.blockStart b + (p + 1)) :: stack) pool =
      f.results report ((f.blockStart b + p) :: stack) (pool.erase (f.blockStart b + p)) := by
  have hprev : f.prev (f.blockStart b + (p + 1)) = [f.blockStart b + p] := by
    rw [prev_in_block hf (Nat.le_add_right _ _) (by rw [blockStart_succ]; omega),
      if_pos (by omega)]
    rfl
  rw [results_pass hreport, hprev]
  simp only [enter, hbelow, if_true]

/-- The search runs down from position `p` until something halts it or it has come to position `r`.
Only slots that it passes leave the pool. -/
theorem results_down (report : Instruction -> Option (List β)) (hf : f.WellFormed) (hr : r ≤ p)
    (hp : p < f.blockSize b) (hpool : pool.Nodup)
    (hfree : forall j, r ≤ j -> j < p -> f.blockStart b + j ∈ pool) (stack : List Nat) :
    exists left, f.Spent b r p pool left ∧
      (forall found, f.scan report b r (p + 1) = some found ->
        f.results report ((f.blockStart b + p) :: stack) pool =
          found ++ f.results report stack left) ∧
      (f.scan report b r (p + 1) = none ->
        f.results report ((f.blockStart b + p) :: stack) pool =
            f.results report (enter (f.prev (f.blockStart b + r)) stack left).1
              (enter (f.prev (f.blockStart b + r)) stack left).2 ∧
          forall j, r ≤ j -> j < p -> f.blockStart b + j ∉ left) := by
  induction hn : p - r generalizing p pool with
  | zero =>
      have hsame : p = r := by omega
      subst hsame
      have hscan : f.scan report b p (p + 1) = f.reportAt report (f.blockStart b + p) := by
        rw [scan_succ (Nat.le_refl p) hp, scan_none (Nat.le_refl p), Option.or_none]
      refine ⟨pool, spent_refl, ?_, ?_⟩
      · intro found hfound
        exact results_halt (hscan.symm.trans hfound)
      · intro hnone
        exact ⟨results_pass (hscan.symm.trans hnone), fun j hj hlt => by omega⟩
  | succ n ih =>
      have hscan : f.scan report b r (p + 1) =
          (f.reportAt report (f.blockStart b + p)).or (f.scan report b r p) := scan_succ hr hp
      cases hreport : f.reportAt report (f.blockStart b + p) with
      | some here =>
          rw [hreport, Option.some_or] at hscan
          refine ⟨pool, spent_refl, ?_, ?_⟩
          · intro found hfound
            cases hscan.symm.trans hfound
            exact results_halt hreport
          · intro hnone
            cases hscan.symm.trans hnone
      | none =>
          rw [hreport, Option.none_or] at hscan
          rcases Nat.exists_eq_succ_of_ne_zero (by omega : p ≠ 0) with ⟨p, rfl⟩
          have hstep := results_below hf hp hreport (hfree p (by omega) (Nat.lt_succ_self p)) stack
          have hfree' : forall j, r ≤ j -> j < p ->
              f.blockStart b + j ∈ pool.erase (f.blockStart b + p) := by
            intro j hj hlt
            exact (List.mem_erase_of_ne (by omega)).mpr (hfree j hj (by omega))
          rcases ih (by omega) (by omega) (hpool.erase _) hfree' (by omega) with
            ⟨left, hspent, hhalt, hpass⟩
          refine ⟨left, hspent.of_erase (by omega), ?_, ?_⟩
          · intro found hfound
            rw [hstep]
            exact hhalt found (hscan.symm.trans hfound)
          · intro hnone
            rcases hpass (hscan.symm.trans hnone) with ⟨hrest, hgone⟩
            exact ⟨hstep.trans hrest, fun j => hspent.not_mem_of_erase hpool hgone⟩

/-!
# Blocks on the stack and slots on the stack
-/

def lookedBelow (home q b : Nat) : Nat := if b = home then q else 0

def remains (f : Function) (home q b : Nat) : Bool := b ≠ home ∨ q < f.blockSize home

/-- The search through blocks and the search through slots stand at the same place: the first
`q` positions of the block `home` are done. -/
structure Mirrors (f : Function) (home q : Nat) (blocks free stack pool : List Nat) : Prop where
  stack_eq : stack = (blocks.filter (f.remains home q)).map f.lastSlot
  inside : forall b, b ∈ blocks ∨ b ∈ free -> b < f.blockCount
  waiting : forall b, b ∈ blocks -> forall j, lookedBelow home q b ≤ j -> j + 1 < f.blockSize b ->
    f.blockStart b + j ∈ pool
  untouched : forall b, b ∈ free -> forall j, lookedBelow home q b ≤ j -> j < f.blockSize b ->
    f.blockStart b + j ∈ pool
  entered : forall b, b < f.blockCount -> b ∉ free -> f.lastSlot b ∉ pool
  passed : forall j, j < q -> f.blockStart home + j ∉ pool
  distinct : (blocks ++ free).Nodup
  nodup : pool.Nodup

variable {blocks free met : List Nat}

theorem lookedBelow_lt (hf : f.WellFormed) (hb : b < f.blockCount)
    (h : f.remains home q b = true) : lookedBelow home q b < f.blockSize b := by
  unfold lookedBelow
  split
  · rename_i hsame
    subst hsame
    simpa [remains] using h
  · exact hf.occupied b hb

theorem remains_false (h : ¬ f.remains home q b = true) : b = home ∧ f.blockSize home ≤ q := by
  simpa [remains] using h

namespace Mirrors

variable (h : f.Mirrors home q blocks free stack pool)
include h

section Entering

variable (hb : b ∈ free)
include hb

theorem inside_enter (hc : c ∈ b :: blocks ∨ c ∈ free.erase b) : c < f.blockCount := by
  rcases hc with hc | hc
  · rcases List.mem_cons.mp hc with rfl | hc
    · exact h.inside c (Or.inr hb)
    · exact h.inside c (Or.inl hc)
  · exact h.inside c (Or.inr (List.mem_of_mem_erase hc))

theorem distinct_enter : (b :: blocks ++ free.erase b).Nodup := by
  have hperm : (b :: blocks ++ free.erase b).Perm (blocks ++ free) :=
    List.perm_middle.symm.trans ((List.perm_cons_erase hb).symm.append_left blocks)
  exact hperm.nodup_iff.mpr h.distinct

theorem not_mem_of_free : b ∉ blocks := fun hmem =>
  (List.nodup_append.mp h.distinct).right.right b hmem b hb rfl

theorem enter_last (hf : f.WellFormed) (hremains : f.remains home q b = true) :
    f.Mirrors home q (b :: blocks) (free.erase b) (f.lastSlot b :: stack)
      (pool.erase (f.lastSlot b)) := by
  have hsize := hf.occupied b (h.inside b (Or.inr hb))
  have hfree : free.Nodup := (List.nodup_append.mp h.distinct).right.left
  have hother : forall c j, c ≠ b ∨ j + 1 < f.blockSize b -> j < f.blockSize c ->
      f.blockStart c + j ∈ pool -> f.blockStart c + j ∈ pool.erase (f.lastSlot b) := by
    intro c j hdiffers hj hmem
    refine (List.mem_erase_of_ne ?_).mpr hmem
    rw [lastSlot_eq hsize]
    intro hsame
    rcases slot_inj hj (by omega) hsame with ⟨rfl, hposition⟩
    rcases hdiffers with hne | hlt
    · exact hne rfl
    · omega
  refine ⟨?_, fun c => h.inside_enter hb, ?_, ?_, ?_, ?_, h.distinct_enter hb, h.nodup.erase _⟩
  · rw [List.filter_cons_of_pos hremains, List.map_cons, ← h.stack_eq]
  · intro c hc j hlow hj
    rcases List.mem_cons.mp hc with rfl | hc
    · exact hother c j (Or.inr hj) (by omega) (h.untouched c hb j hlow (by omega))
    · exact hother c j (Or.inl fun hsame => h.not_mem_of_free hb (hsame ▸ hc)) (by omega)
        (h.waiting c hc j hlow hj)
  · intro c hc j hlow hj
    have hne : c ≠ b := fun hsame => hfree.not_mem_erase (hsame ▸ hc)
    exact hother c j (Or.inl hne) hj (h.untouched c (List.mem_of_mem_erase hc) j hlow hj)
  · intro c hc habsent hmem
    by_cases hsame : c = b
    · subst hsame
      exact h.nodup.not_mem_erase hmem
    · exact h.entered c hc (fun hfree => habsent ((List.mem_erase_of_ne hsame).mpr hfree))
        (List.mem_of_mem_erase hmem)
  · intro j hj hmem
    exact h.passed j hj (List.mem_of_mem_erase hmem)

/-- A block of which nothing remains is entered without its last slot, which has been met. -/
theorem enter_done (hf : f.WellFormed) (hremains : ¬ f.remains home q b = true) :
    f.Mirrors home q (b :: blocks) (free.erase b) stack pool ∧ f.lastSlot b ∉ pool := by
  have hsize := hf.occupied b (h.inside b (Or.inr hb))
  rcases remains_false hremains with ⟨rfl, hdone⟩
  have hlast : f.lastSlot b ∉ pool := by
    rw [lastSlot_eq hsize]
    exact h.passed _ (by omega)
  refine ⟨⟨?_, fun c => h.inside_enter hb, ?_, ?_, ?_, h.passed, h.distinct_enter hb, h.nodup⟩,
    hlast⟩
  · rw [List.filter_cons_of_neg hremains]
    exact h.stack_eq
  · intro c hc j hlow hj
    rcases List.mem_cons.mp hc with rfl | hc
    · rw [lookedBelow, if_pos rfl] at hlow
      omega
    · exact h.waiting c hc j hlow hj
  · intro c hc j hlow hj
    exact h.untouched c (List.mem_of_mem_erase hc) j hlow hj
  · intro c hc habsent
    by_cases hsame : c = b
    · exact hsame ▸ hlast
    · exact h.entered c hc fun hfree => habsent ((List.mem_erase_of_ne hsame).mpr hfree)

end Entering

theorem enter (hf : f.WellFormed) (hmet : forall b, b ∈ met -> b < f.blockCount) :
    f.Mirrors home q (enter met blocks free).1 (enter met blocks free).2
      (Search.enter (met.map f.lastSlot) stack pool).1
      (Search.enter (met.map f.lastSlot) stack pool).2 := by
  induction met generalizing blocks free stack pool with
  | nil => exact h
  | cons b rest ih =>
      have hrest := fun c hc => hmet c (List.mem_cons_of_mem b hc)
      rw [List.map_cons, Search.enter, Search.enter]
      by_cases hb : b ∈ free
      · rw [if_pos hb]
        by_cases hremains : f.remains home q b = true
        · have hlast : f.lastSlot b ∈ pool := by
            have hlow := lookedBelow_lt hf (hmet b List.mem_cons_self) hremains
            rw [lastSlot_eq (by omega)]
            exact h.untouched b hb _ (by omega) (by omega)
          rw [if_pos hlast]
          exact ih (h.enter_last hb hf hremains) hrest
        · rcases h.enter_done hb hf hremains with ⟨hstep, hlast⟩
          rw [if_neg hlast]
          exact ih hstep hrest
      · rw [if_neg hb, if_neg (h.entered b (hmet b List.mem_cons_self) hb)]
        exact ih h hrest

end Mirrors

theorem Mirrors.leave {left : List Nat}
    (h : f.Mirrors home q (b :: blocks) free stack pool) (hspent : f.Spent b r p pool left)
    (hp : p ≤ f.blockSize b) :
    f.Mirrors home q blocks free ((blocks.filter (f.remains home q)).map f.lastSlot) left := by
  have hparts := List.nodup_cons.mp h.distinct
  have hkept : forall c j, c ∈ blocks ∨ c ∈ free -> j < f.blockSize c ->
      f.blockStart c + j ∈ pool -> f.blockStart c + j ∈ left := by
    intro c j hc hj hmem
    by_contra hgone
    rcases hspent.lost _ hmem hgone with ⟨i, _, hi, hsame⟩
    rcases slot_inj hj (Nat.lt_of_lt_of_le hi hp) hsame with ⟨rfl, _⟩
    exact hparts.left (List.mem_append.mpr hc)
  refine ⟨rfl, ?_, ?_, ?_, ?_, ?_, hparts.right, hspent.sublist.nodup h.nodup⟩
  · intro c hc
    exact h.inside c (hc.imp_left fun hc => List.mem_cons_of_mem b hc)
  · intro c hc j hlow hj
    exact hkept c j (Or.inl hc) (by omega) (h.waiting c (List.mem_cons_of_mem b hc) j hlow hj)
  · intro c hc j hlow hj
    exact hkept c j (Or.inr hc) hj (h.untouched c hc j hlow hj)
  · intro c hc habsent hmem
    exact h.entered c hc habsent (hspent.sublist.subset hmem)
  · intro j hj hmem
    exact h.passed j hj (hspent.sublist.subset hmem)

theorem Mirrors.skip (h : f.Mirrors home q (b :: blocks) free stack pool)
    (hremains : ¬ f.remains home q b = true) : f.Mirrors home q blocks free stack pool := by
  have hstack : stack = (blocks.filter (f.remains home q)).map f.lastSlot := by
    rw [h.stack_eq, List.filter_cons_of_neg hremains]
  rw [hstack]
  exact h.leave (r := 0) spent_refl (Nat.zero_le _)

/-- What the search through slots does with the block on top of the stack. -/
theorem Mirrors.down (report : Instruction -> Option (List β)) (hf : f.WellFormed)
    (h : f.Mirrors home q (b :: blocks) free stack pool) (hremains : f.remains home q b = true) :
    exists rest left, f.Mirrors home q blocks free rest left ∧
      (forall found, f.scan report b (lookedBelow home q b) (f.blockSize b) = some found ->
        f.results report stack pool = found ++ f.results report rest left) ∧
      (f.scan report b (lookedBelow home q b) (f.blockSize b) = none ->
        f.results report stack pool = f.results report
          (Search.enter (f.prev (f.blockStart b + lookedBelow home q b)) rest left).1
          (Search.enter (f.prev (f.blockStart b + lookedBelow home q b)) rest left).2) := by
  have hcount := h.inside b (Or.inl List.mem_cons_self)
  have hsize := hf.occupied b hcount
  have hlow := lookedBelow_lt hf hcount hremains
  have hfree : forall j, lookedBelow home q b ≤ j -> j < f.blockSize b - 1 ->
      f.blockStart b + j ∈ pool := by
    intro j hj hlt
    exact h.waiting b List.mem_cons_self j hj (by omega)
  have hstack : stack = (f.blockStart b + (f.blockSize b - 1)) ::
      (blocks.filter (f.remains home q)).map f.lastSlot := by
    rw [h.stack_eq, List.filter_cons_of_pos hremains, List.map_cons, lastSlot_eq hsize]
  rcases results_down report hf (by omega) (by omega) h.nodup hfree
    ((blocks.filter (f.remains home q)).map f.lastSlot) with ⟨left, hspent, hhalt, hpass⟩
  rw [Nat.sub_add_cancel hsize, ← hstack] at hhalt hpass
  exact ⟨_, left, h.leave hspent (by omega), hhalt, fun hnone => (hpass hnone).left⟩

/-!
# The search through blocks
-/

def onwardFrom (f : Function) (scanned : Nat -> Option (List β)) (b : Nat) : List Nat :=
  if (scanned b).isSome then [] else f.graph.preds b

theorem lt_of_mem_onwardFrom (hf : f.WellFormed) {scanned : Nat -> Option (List β)}
    (hc : c ∈ f.onwardFrom scanned b) : c < f.blockCount := by
  unfold onwardFrom at hc
  split at hc
  · cases hc
  · exact (hf.connected (Digraph.mem_preds_iff.mp hc)).left

section Onward

variable (hf : f.WellFormed) (h : f.Mirrors home q blocks free stack pool)
  (hpreds : forall c, c ∈ f.graph.preds home -> c ∉ free)
include hf h hpreds

theorem Mirrors.not_mem_prev_home (hq : q < f.blockSize home)
    (hk : k ∈ f.prev (f.blockStart home + lookedBelow home q home)) : k ∉ pool := by
  rw [lookedBelow, if_pos rfl, prev_in_block hf (Nat.le_add_right _ _)
    (by rw [blockStart_succ]; omega)] at hk
  split at hk
  · rename_i hpos
    rw [List.mem_singleton.mp hk, Nat.add_sub_assoc (by omega)]
    exact h.passed (q - 1) (by omega)
  · rcases List.mem_map.mp hk with ⟨c, hc, rfl⟩
    exact h.entered c (hf.connected (Digraph.mem_preds_iff.mp hc)).left (hpreds c hc)

/-- Going on from a block keeps the two searches together.  From the block where the search started
neither goes anywhere, for all predecessors have been met. -/
theorem Mirrors.onward (hb : b < f.blockCount) (hremains : f.remains home q b = true) :
    f.Mirrors home q (Search.enter (f.graph.preds b) blocks free).1
      (Search.enter (f.graph.preds b) blocks free).2
      (Search.enter (f.prev (f.blockStart b + lookedBelow home q b)) stack pool).1
      (Search.enter (f.prev (f.blockStart b + lookedBelow home q b)) stack pool).2 := by
  by_cases hhome : b = home
  · subst hhome
    have hq : q < f.blockSize b := by simpa [remains] using hremains
    rw [enter_of_not_mem hpreds,
      enter_of_not_mem fun k hk => h.not_mem_prev_home hf hpreds hq hk]
    exact h
  · rw [lookedBelow, if_neg hhome, Nat.add_zero, prev_start hf hb]
    exact h.enter hf fun c hc => (hf.connected (Digraph.mem_preds_iff.mp hc)).left

end Onward

section Blocks

variable (hf : f.WellFormed) {scanned : Nat -> Option (List β)}
  (hscanned : forall b, b < f.blockCount -> b ≠ home ->
    scanned b = f.scan report b 0 (f.blockSize b))
  (hagain : scanned home = f.scan report home q (f.blockSize home) ∨
    (scanned home = none ∧ f.scan report home q (f.blockSize home) = some []))
include hf hscanned hagain

omit hf in
theorem scanned_cases (hb : b < f.blockCount) :
    scanned b = f.scan report b (lookedBelow home q b) (f.blockSize b) ∨
      (b = home ∧ scanned b = none ∧
        f.scan report b (lookedBelow home q b) (f.blockSize b) = some []) := by
  unfold lookedBelow
  split
  · rename_i hsame
    subst hsame
    exact hagain.imp_right fun h => ⟨rfl, h⟩
  · rename_i hother
    exact Or.inl (hscanned b hb hother)

theorem results_eq_blocks (hpreds : forall c, c ∈ f.graph.preds home -> c ∉ free)
    (h : f.Mirrors home q blocks free stack pool) :
    f.results report stack pool =
      (visit (f.onwardFrom scanned) blocks free).flatMap fun b => (scanned b).getD [] := by
  induction blocks, free using visit.induct (f.onwardFrom scanned) generalizing stack pool with
  | case1 free =>
      rw [visit, h.stack_eq]
      exact results_nil
  | case2 b blocks free ih =>
      have hcount := h.inside b (Or.inl List.mem_cons_self)
      have hstay : Search.enter (f.graph.preds home) blocks free = (blocks, free) :=
        enter_of_not_mem hpreds blocks
      have hpass : scanned b = none -> f.onwardFrom scanned b = f.graph.preds b := by
        intro hnone
        simp [onwardFrom, hnone]
      rw [visit, List.flatMap_cons]
      by_cases hremains : f.remains home q b = true
      · rcases h.down report hf hremains with ⟨rest, left, hnext, hhalts, hpasses⟩
        have hscan := scanned_cases hscanned hagain hcount
        cases hlow : f.scan report b (lookedBelow home q b) (f.blockSize b) with
        | some found =>
            rw [hhalts found hlow]
            rw [hlow] at hscan
            rcases hscan with hsame | ⟨rfl, hnone, hempty⟩
            · have honward : f.onwardFrom scanned b = [] := by simp [onwardFrom, hsame]
              rw [honward] at ih ⊢
              rw [hsame]
              exact congrArg (found ++ ·) (ih hpreds hnext)
            · rw [hpass hnone, hstay] at ih ⊢
              rw [hnone, Option.some.inj hempty]
              exact ih hpreds hnext
        | none =>
            have hnone : scanned b = none := by
              rw [hlow] at hscan
              rcases hscan with hsame | ⟨_, hnone, _⟩
              · exact hsame
              · exact hnone
            rw [hpasses hlow, hnone, hpass hnone]
            rw [hpass hnone] at ih
            refine ih ?_ (hnext.onward hf hpreds hcount hremains)
            intro c hc hmem
            exact hpreds c hc ((enter_pool_sublist _ _ _).subset hmem)
      · have hnext := h.skip hremains
        rcases remains_false hremains with ⟨rfl, hdone⟩
        have hnone : scanned b = none := by
          rw [scan_none hdone] at hagain
          rcases hagain with hagain | ⟨hagain, _⟩
          · exact hagain
          · exact hagain
        rw [hpass hnone, hstay] at ih ⊢
        rw [hnone]
        exact ih hpreds hnext

end Blocks

def startsBefore (f : Function) (home q : Nat) : List Nat :=
  if 0 < q then [f.blockStart home + (q - 1)] else (f.graph.preds home).map f.lastSlot

theorem blockStart_add_mem_slots (hb : b < f.blockCount) (hj : j < f.blockSize b) :
    f.blockStart b + j ∈ f.slots := by
  have hstop : f.blockStart (b + 1) ≤ f.blockStart f.blockCount := blockStart_mono hb
  rw [blockStart_blockCount, blockStart_succ] at hstop
  exact List.mem_range.mpr (by omega)

theorem mirrors_start {left : List Nat} (hspent : f.Spent home 0 q f.slots left)
    (hpassed : forall j, j < q -> f.blockStart home + j ∉ left) (hq : q ≤ f.blockSize home) :
    f.Mirrors home q [] (List.range f.blockCount) [] left := by
  refine ⟨rfl, by simp, by simp, ?_, ?_, hpassed, by simpa using List.nodup_range,
    hspent.sublist.nodup List.nodup_range⟩
  · intro b hb j hlow hj
    by_contra hgone
    rcases hspent.lost _ (blockStart_add_mem_slots (List.mem_range.mp hb) hj) hgone with
      ⟨i, _, hi, hsame⟩
    rcases slot_inj hj (Nat.lt_of_lt_of_le hi hq) hsame with ⟨rfl, rfl⟩
    rw [lookedBelow, if_pos rfl] at hlow
    omega
  · intro b hb habsent
    exact absurd (List.mem_range.mpr hb) habsent

theorem sweep_first (report : Instruction -> Option (List β)) (hf : f.WellFormed)
    (hhome : home < f.blockCount) (hq : q ≤ f.blockSize home) :
    exists left, f.Spent home 0 q f.slots left ∧
      (forall found, f.scan report home 0 q = some found ->
        (sweep (f.backUnless report) (f.startsBefore home q) f.slots).flatMap (f.foundAt report) =
          found) ∧
      (f.scan report home 0 q = none ->
        (sweep (f.backUnless report) (f.startsBefore home q) f.slots).flatMap (f.foundAt report) =
            f.results report (enter ((f.graph.preds home).map f.lastSlot) [] left).1
              (enter ((f.graph.preds home).map f.lastSlot) [] left).2 ∧
          forall j, j < q -> f.blockStart home + j ∉ left) := by
  have hnodup : f.slots.Nodup := List.nodup_range
  cases q with
  | zero =>
      refine ⟨f.slots, spent_refl, ?_, ?_⟩
      · intro found hfound
        rw [scan_none (Nat.le_refl 0)] at hfound
        cases hfound
      · intro _
        exact ⟨rfl, fun j hj => absurd hj (Nat.not_lt_zero j)⟩
  | succ p =>
      have hfree : forall j, 0 ≤ j -> j < p ->
          f.blockStart home + j ∈ f.slots.erase (f.blockStart home + p) := by
        intro j _ hj
        exact (List.mem_erase_of_ne (by omega)).mpr (blockStart_add_mem_slots hhome (by omega))
      have hsweep : (sweep (f.backUnless report) (f.startsBefore home (p + 1)) f.slots).flatMap
          (f.foundAt report) = f.results report [f.blockStart home + p]
            (f.slots.erase (f.blockStart home + p)) := by
        rw [startsBefore, if_pos (Nat.succ_pos p), results, sweep]
        simp only [Nat.add_sub_cancel, enter, blockStart_add_mem_slots hhome hq, if_true]
      rcases results_down report hf (Nat.zero_le p) hq (hnodup.erase _) hfree [] with
        ⟨left, hspent, hhalt, hpass⟩
      refine ⟨left, hspent.of_erase (Nat.zero_le p), ?_, ?_⟩
      · intro found hfound
        rw [hsweep, hhalt found hfound, results_nil, List.append_nil]
      · intro hnone
        rcases hpass hnone with ⟨hrest, hgone⟩
        rw [Nat.add_zero, prev_start hf hhome] at hrest
        exact ⟨hsweep.trans hrest, fun j => hspent.not_mem_of_erase hnodup hgone (Nat.zero_le j)⟩

/-- The search through slots finds what the scan of the first piece finds, and if nothing halts
that, what the search through blocks finds from the predecessors on. -/
theorem sweep_eq_blocks (hf : f.WellFormed) (hhome : home < f.blockCount)
    (hq : q ≤ f.blockSize home) {scanned : Nat -> Option (List β)}
    (hscanned : forall b, b < f.blockCount -> b ≠ home ->
      scanned b = f.scan report b 0 (f.blockSize b))
    (hagain : f.scan report home 0 q = none ->
      scanned home = f.scan report home q (f.blockSize home) ∨
        (scanned home = none ∧ f.scan report home q (f.blockSize home) = some [])) :
    (sweep (f.backUnless report) (f.startsBefore home q) f.slots).flatMap (f.foundAt report) =
      (f.scan report home 0 q).getD [] ++
        (sweep (f.onwardFrom scanned)
          (if (f.scan report home 0 q).isSome then [] else f.graph.preds home)
          (List.range f.blockCount)).flatMap fun b => (scanned b).getD [] := by
  rcases sweep_first report hf hhome hq with ⟨left, hspent, hhalt, hpass⟩
  cases hscan : f.scan report home 0 q with
  | some found =>
      rw [hhalt found hscan]
      simp [sweep, enter, visit]
  | none =>
      have hpreds : forall c, c ∈ f.graph.preds home -> c < f.blockCount :=
        fun c hc => (hf.connected (Digraph.mem_preds_iff.mp hc)).left
      rcases hpass hscan with ⟨hrest, hpassed⟩
      rw [hrest, results_eq_blocks hf hscanned (hagain hscan) ?_
        ((mirrors_start hspent hpassed hq).enter hf hpreds)]
      · rfl
      · intro c hc
        exact not_mem_enter_pool List.nodup_range hc []

/-!
# Guarded scans
-/

def guardedScan (f : Function) (test : Nat -> Except Fault (Option (List β))) (b : Nat)
    (ids : List Nat) : Except Fault (List β × List Nat) := do
  match ← ids.reverse.findSomeM? test with
  | some found => return (found, [])
  | none => return ([], f.graph.preds b)

theorem guardedScan_eq {test : Nat -> Except Fault (Option (List β))} {floor stop : Nat}
    (h : forall inst, inst ∈ f.layout -> test inst.id = .ok (report inst)) (b : Nat) :
    f.guardedScan test b (((f.blockIds b).take stop).drop floor) =
      .ok ((f.scan report b floor stop).getD [],
        if (f.scan report b floor stop).isSome then [] else f.graph.preds b) := by
  have hinsts : forall inst, inst ∈ (((f.blockInsts b).take stop).drop floor).reverse ->
      test inst.id = .ok (report inst) := by
    intro inst hinst
    apply h inst
    apply mem_layout_of_mem_blockInsts (b := b)
    exact List.mem_of_mem_take (List.mem_of_mem_drop (List.mem_reverse.mp hinst))
  unfold guardedScan blockIds
  rw [← List.map_take, ← List.map_drop, ← List.map_reverse, findSomeM?_map hinsts, ok_bind]
  unfold scan
  cases (((f.blockInsts b).take stop).drop floor).reverse.findSome? report with
  | none => rfl
  | some found => rfl

end Function
end SafeRestart
