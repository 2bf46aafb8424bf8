import SafeRestart.Proofs.RegionWalk
import SafeRestart.Proofs.Shadow
import SafeRestart.Proofs.Subtraction

/-!
# Guarded shadows

The computation of a shadow and the verification of a function can fail with an error, which is an
answer, or end in a fault, which is not.  Guarded, they take the regions and the walks from the
tables of a model, go through the points of a span one by one and subtract with cursors.  They give
the outcome of the plain computation, be it a result or an error, and never a fault.
-/

namespace SafeRestart

open Guarded

theorem IntervalSet.stop_le_of_mem_ofSpans {r : Span} {spans : List Span} {n : Nat}
    (hspans : forall r, r ∈ spans -> r.stop ≤ n) (hr : r ∈ (ofSpans spans).spans) :
    r.start < r.stop ∧ r.stop ≤ n := by
  have hnonempty := (canonical_ofSpans spans).occupied r hr
  have hlast : r.stop - 1 ∈ ofSpans spans := ⟨r, hr, by rw [Span.mem_iff]; omega⟩
  rcases mem_ofSpans_iff.mp hlast with ⟨q, hq, hmem⟩
  have hstop := hspans q hq
  have hbefore := hmem.right
  exact ⟨hnonempty, by omega⟩

def Span.Within (r : Span) (f : Function) : Prop := r.start < r.stop ∧ r.stop ≤ 2 * f.size

namespace RegionModel

variable {m : RegionModel} {r : Region} {k : Nat} {q : Span}

theorem within_pointsAfter (hk : k < m.function.size) (hq : q ∈ (m.pointsAfter k).spans) :
    q.Within m.function := by
  refine IntervalSet.stop_le_of_mem_ofSpans ?_ hq
  intro r hr
  rcases List.mem_cons.mp hr with rfl | hr
  · show 2 * k + 2 ≤ 2 * m.function.size
    omega
  · rcases List.mem_map.mp hr with ⟨j, hj, rfl⟩
    have hlt : j < m.function.size := List.mem_range.mp (Search.mem_pool_of_mem_sweep hj)
    show 2 * j + 2 ≤ 2 * m.function.size
    omega

theorem within_pointsUntil {stop : Instruction -> Bool} (hq : q ∈ (m.pointsUntil r stop).spans) :
    q.Within m.function := by
  refine IntervalSet.stop_le_of_mem_ofSpans ?_ hq
  intro span hspan
  rcases List.mem_map.mp hspan with ⟨j, hj, rfl⟩
  have hlt : j < m.function.size := List.mem_range.mp (Search.mem_pool_of_mem_sweep hj)
  split
  · show 2 * j + 1 ≤ 2 * m.function.size
    omega
  · show 2 * j + 2 ≤ 2 * m.function.size
    omega

end RegionModel

namespace Setting

/-!
# Verification
-/

/-- Looks at the instruction that owns a point, unless it owned the point before as well. -/
def visitPoint (σ : Setting) (watched : List Nat) (r : Span) (previous : Option Nat) (p : Nat) :
    Guarded (Option Nat) := do
  let point ← ofLookUp (checkIndex p)
  match (σ.function.layout[point / 2]?).map Instruction.id with
  | none => return previous
  | some i =>
      if previous = some i then
        return previous
      else
        let inst ← ofLookUp (σ.function.inst i)
        match σ.overwritten? watched inst with
        | some s => throw (.clobberedShadow s i r.start r.stop)
        | none => return some i

def visitPoints (σ : Setting) (watched : List Nat) (r : Span) :
    Option Nat -> List Nat -> Guarded Unit
  | _, [] => return ()
  | previous, p :: rest => do
      let previous ← σ.visitPoint watched r previous p
      visitPoints σ watched r previous rest

def verifyPoints (σ : Setting) (watched : List Nat) (r : Span) : Guarded Unit :=
  σ.visitPoints watched r none (List.range' r.start (r.stop - r.start))

def guardedVerifyRegion (σ : Setting) (table : RegionTable) (r : Region) : Guarded Unit :=
  if (σ.liveIns r).isEmpty then
    return ()
  else do
    let points ← ofLookUp (table.pointsUntil r fun _ => false)
    points.spans.forM (σ.verifyPoints (σ.liveIns r))

def guardedVerifyFunction (σ : Setting) (table : RegionTable) : Guarded Unit :=
  table.regions.forM (σ.guardedVerifyRegion table)

/-!
# Computation
-/

def useStems (σ : Setting) (table : RegionTable) (r : Region) (s : Nat) :
    Except Fault (List Nat) := do
  let bounds ← table.pointsUntil r fun inst => !σ.absent inst && inst.defines s
  sift
    (fun i => do
      let inst ← σ.function.inst i
      let point ← σ.function.guardedUse i
      return !σ.absent inst && bounds.contains point)
    (σ.function.usesOf s)

def guardedStems (σ : Setting) (table : RegionTable) (r : Region) (s : Nat)
    (location : StorageLocation) : Except Fault (List Nat) :=
  match σ.config.policy with
  | .anyPath => return [r.entry]
  | .samePath => if location.isStackSlot then return [r.entry] else σ.useStems table r s

def guardedAddSpan (σ : Setting) (s : Nat) (location : StorageLocation)
    (live shadow : IntervalSet) (r : Span) : Guarded IntervalSet := do
  if σ.verifies location then
    σ.verifyPoints [s] r
  IntervalSet.fillOutside live r.stop r.start shadow

def guardedAddStem (σ : Setting) (table : RegionTable) (s : Nat) (location : StorageLocation)
    (live shadow : IntervalSet) (stem : Nat) : Guarded IntervalSet := do
  let points ← ofLookUp (table.pointsAfter stem)
  points.spans.foldlM (σ.guardedAddSpan s location live) shadow

def guardedAddRegion (σ : Setting) (table : RegionTable) (s : Nat) (location : StorageLocation)
    (live shadow : IntervalSet) (r : Region) : Guarded IntervalSet :=
  if live.contains r.point then do
    let stems ← ofLookUp (σ.guardedStems table r s location)
    stems.foldlM (σ.guardedAddStem table s location live) shadow
  else
    return shadow

def guardedComputeShadow (σ : Setting) (table : RegionTable) (s : Nat) : Guarded Shadow := do
  let location ← ofOutcome (σ.location s)
  match σ.live.interval s with
  | none => return ⟨s, location.name, .empty⟩
  | some live =>
      let ranges ← table.regions.foldlM (σ.guardedAddRegion table s location live.ranges) .empty
      return ⟨s, location.name, ranges⟩

/-!
# Points and slots
-/

variable {σ : Setting} {table : RegionTable} {s k : Nat} {r : Region} {location : StorageLocation}
  {live shadow : IntervalSet} {watched : List Nat} {q : Span}

def checkInst (σ : Setting) (watched : List Nat) (r : Span) (inst : Instruction) :
    Except Error Unit :=
  match σ.overwritten? watched inst with
  | some s => .error (.clobberedShadow s inst.id r.start r.stop)
  | none => .ok ()

theorem verifySpan_eq :
    σ.verifySpan watched q =
      ((σ.function.layout.take ((q.stop + 1) / 2)).drop (q.start / 2)).forM
        (σ.checkInst watched q) := by
  unfold verifySpan
  dsimp only
  induction (σ.function.layout.take ((q.stop + 1) / 2)).drop (q.start / 2) with
  | nil => rfl
  | cons inst rest ih =>
      change _ = (σ.checkInst watched q inst >>= fun _ => rest.forM (σ.checkInst watched q))
      rw [List.findSome?_cons, ← ih, checkInst]
      cases σ.overwritten? watched inst with
      | some s => rfl
      | none => rfl

theorem visitPoint_outside {previous : Option Nat} {p : Nat} (hp : p ≤ maxIndex)
    (h : σ.function.layout[p / 2]? = none) :
    Gives (σ.visitPoint watched q previous p) (.ok previous) := by
  refine gives_lookUp (checkIndex_of_le hp) ?_
  rw [h]
  exact gives_pure previous

theorem visitPoint_again {inst : Instruction} {p : Nat} (hp : p ≤ maxIndex)
    (h : σ.function.layout[p / 2]? = some inst) :
    Gives (σ.visitPoint watched q (some inst.id) p) (.ok (some inst.id)) := by
  refine gives_lookUp (checkIndex_of_le hp) ?_
  rw [h, Option.map_some]
  dsimp only
  rw [if_pos rfl]
  exact gives_pure _

theorem visitPoint_new (hf : σ.function.WellFormed) {inst : Instruction} {previous : Option Nat}
    {p : Nat} (hp : p ≤ maxIndex) (h : σ.function.layout[p / 2]? = some inst)
    (hnew : previous ≠ some inst.id) :
    Gives (σ.visitPoint watched q previous p) (do
      σ.checkInst watched q inst
      return some inst.id) := by
  refine gives_lookUp (checkIndex_of_le hp) ?_
  rw [h, Option.map_some]
  dsimp only
  rw [if_neg hnew]
  refine gives_lookUp (Function.inst_of_mem hf (List.mem_of_getElem? h)) ?_
  unfold checkInst
  cases σ.overwritten? watched inst with
  | some s => rfl
  | none => exact gives_pure _

def Fresh (σ : Setting) (previous : Option Nat) (k : Nat) : Prop :=
  forall j inst, k ≤ j -> σ.function.layout[j]? = some inst -> previous ≠ some inst.id

section Points

variable (hf : σ.function.WellFormed) (hstop : q.stop ≤ maxIndex)
include hf hstop

omit hstop in
theorem fresh_behind {inst : Instruction} (h : σ.function.layout[k]? = some inst) :
    σ.Fresh (some inst.id) (k + 1) := by
  intro j other hj hother hsame
  have hslot := Function.slot?_of_layout hf h
  rw [Option.some.inj hsame, Function.slot?_of_layout hf hother] at hslot
  cases hslot
  omega

theorem gives_enter {previous : Option Nat} {p : Nat} {points : List Nat} (hk : p / 2 = k)
    (hp : p < q.stop) (hfresh : σ.Fresh previous k)
    (hrest : forall next, (forall inst, σ.function.layout[k]? = some inst ->
        next = some inst.id) -> σ.Fresh next (k + 1) ->
      Gives (σ.visitPoints watched q next points)
        (((σ.function.layout.take ((q.stop + 1) / 2)).drop (k + 1)).forM
          (σ.checkInst watched q))) :
    Gives (σ.visitPoints watched q previous (p :: points))
      (((σ.function.layout.take ((q.stop + 1) / 2)).drop k).forM (σ.checkInst watched q)) := by
  subst hk
  have hindex : p ≤ maxIndex := Nat.le_trans (Nat.le_of_lt hp) hstop
  have hslice : (σ.function.layout.take ((q.stop + 1) / 2))[p / 2]? =
      σ.function.layout[p / 2]? := List.getElem?_take_of_lt (by omega)
  cases hinst : σ.function.layout[p / 2]? with
  | none =>
      have hempty : (σ.function.layout.take ((q.stop + 1) / 2)).length ≤ p / 2 :=
        List.getElem?_eq_none_iff.mp (hslice.trans hinst)
      have hnext : σ.Fresh previous (p / 2 + 1) := fun j inst hj => hfresh j inst (by omega)
      have hdone := hrest previous (by simp [hinst]) hnext
      rw [List.drop_eq_nil_of_le (Nat.le_succ_of_le hempty)] at hdone
      rw [List.drop_eq_nil_of_le hempty]
      exact gives_bind_ok (visitPoint_outside hindex hinst) hdone
  | some inst =>
      rcases List.getElem?_eq_some_iff.mp (hslice.trans hinst) with ⟨hlt, hvalue⟩
      rw [List.drop_eq_getElem_cons hlt, hvalue]
      change Gives _ (σ.checkInst watched q inst >>= fun _ => _)
      have hvisit : Gives (σ.visitPoint watched q previous p) _ :=
        visitPoint_new hf hindex hinst (hfresh (p / 2) inst (Nat.le_refl _) hinst)
      cases hcheck : σ.checkInst watched q inst with
      | error e =>
          rw [hcheck] at hvisit
          exact gives_bind_error hvisit _
      | ok checked =>
          rw [hcheck] at hvisit
          have hsame : forall found, σ.function.layout[p / 2]? = some found ->
              some inst.id = some found.id := by
            intro found hfound
            cases hinst.symm.trans hfound
            rfl
          exact gives_bind_ok hvisit (hrest (some inst.id) hsame (fresh_behind hf hinst))

/-- From a use point on, the loop looks at each instruction once. -/
theorem gives_visitPoints {m : Nat} {previous : Option Nat} (hm : 2 * k + m = q.stop)
    (hfresh : σ.Fresh previous k) :
    Gives (σ.visitPoints watched q previous (List.range' (2 * k) m))
      (((σ.function.layout.take ((q.stop + 1) / 2)).drop k).forM (σ.checkInst watched q)) := by
  have hend : forall {j : Nat} {next : Option Nat}, (q.stop + 1) / 2 ≤ j ->
      Gives (σ.visitPoints watched q next [])
        (((σ.function.layout.take ((q.stop + 1) / 2)).drop j).forM (σ.checkInst watched q)) := by
    intro j next hj
    rw [List.drop_eq_nil_of_le (by rw [List.length_take]; omega)]
    exact gives_pure ()
  induction m using Nat.twoStepInduction generalizing k previous with
  | zero => exact hend (by omega)
  | one => exact gives_enter hf hstop (by omega) (by omega) hfresh fun _ _ _ => hend (by omega)
  | more m ih _ =>
      refine gives_enter hf hstop (by omega) (by omega) hfresh ?_
      intro next hnext hfresh
      -- The def point belongs to the instruction that was looked at last.
      have hhalf : (2 * k + 1) / 2 = k := by omega
      have hindex : 2 * k + 1 ≤ maxIndex := by omega
      have hagain : Gives (σ.visitPoint watched q next (2 * k + 1)) (.ok next) := by
        cases hinst : σ.function.layout[k]? with
        | none => exact visitPoint_outside hindex (by rw [hhalf, hinst])
        | some inst =>
            rw [hnext inst hinst]
            exact visitPoint_again hindex (by rw [hhalf, hinst])
      exact gives_bind_ok hagain (ih (by omega) hfresh)

theorem gives_verifyPoints (watched : List Nat) (hq : q.start < q.stop) :
    Gives (σ.verifyPoints watched q) (σ.verifySpan watched q) := by
  rw [verifySpan_eq, verifyPoints]
  have hnone : forall k, σ.Fresh none k := fun _ _ _ _ _ h => nomatch h
  rcases Nat.even_or_odd' q.start with ⟨k, heven | hodd⟩
  · rw [heven, Nat.mul_div_cancel_left k Nat.two_pos]
    exact gives_visitPoints hf hstop (by omega) (hnone k)
  · have hcount : q.stop - q.start = q.stop - (2 * k + 2) + 1 := by omega
    have hhalf : q.start / 2 = k := by omega
    rw [hcount, List.range'_succ, hhalf]
    refine gives_enter hf hstop hhalf hq (hnone k) ?_
    intro next _ hfresh
    rw [hodd]
    exact gives_visitPoints hf hstop (by omega) hfresh

end Points

/-!
# Agreement
-/

structure Sound (σ : Setting) (table : RegionTable) : Prop where
  wellFormed : σ.function.WellFormed
  small : σ.function.size < 2147483648
  fits : σ.model.Fits
  charts : table.Charts σ.model
  live : forall s interval, σ.live.interval s = some interval -> interval.ranges.Canonical

section Sound

variable (hσ : σ.Sound table)
include hσ

theorem gives_verifyWithin (watched : List Nat) (hq : q.Within σ.function) :
    Gives (σ.verifyPoints watched q) (σ.verifySpan watched q) :=
  gives_verifyPoints hσ.wellFormed (Function.point_le_maxIndex hσ.small hq.right) watched hq.left

omit hσ in
theorem verifySpan_unwatched (σ : Setting) (q : Span) : σ.verifySpan [] q = .ok () := by
  rw [verifySpan_eq]
  apply forM_ok_iff.mpr
  intro inst _
  have hnothing : σ.overwritten? [] inst = none := by simp [overwritten?]
  rw [checkInst, hnothing]

theorem gives_verifyRegion (hr : r ∈ σ.model.regions) :
    Gives (σ.guardedVerifyRegion table r)
      ((σ.model.pointsIn r).spans.forM (σ.verifySpan (σ.liveIns r))) := by
  unfold guardedVerifyRegion
  split
  · rename_i hempty
    rw [List.isEmpty_iff.mp hempty]
    rw [forM_ok_iff.mpr fun q _ => verifySpan_unwatched σ q]
    exact gives_pure ()
  · refine gives_lookUp (RegionTable.pointsUntil_eq hσ.wellFormed hσ.fits hσ.small hσ.charts hr _)
      (gives_forM ?_)
    intro q hq
    exact gives_verifyWithin hσ (σ.liveIns r) (RegionModel.within_pointsUntil hq)

theorem gives_verifyFunction : Gives (σ.guardedVerifyFunction table) σ.verifyFunction := by
  unfold guardedVerifyFunction verifyFunction
  rw [hσ.charts.regions]
  exact gives_forM fun r hr => gives_verifyRegion hσ hr

omit hσ in
theorem slots_eq_map {f : Function} (hf : f.WellFormed) : f.slots = f.layout.map f.slotOf := by
  apply List.ext_getElem
  · rw [Function.slots, List.length_range, List.length_map]
    rfl
  · intro k hk _
    rw [Function.slots, List.length_range] at hk
    have hlt : k < f.layout.length := hk
    rw [List.getElem_map]
    have hplace : f.layout[k]? = some f.layout[k] := List.getElem?_eq_getElem hlt
    rw [((Function.layout_iff hf).mp hplace).right]
    exact List.getElem_range _

theorem exists_useStems (hr : r ∈ σ.model.regions) (s : Nat) :
    exists insts : List Instruction, (forall inst, inst ∈ insts -> inst ∈ σ.function.layout) ∧
      σ.useStems table r s = .ok (insts.map Instruction.id) ∧
      σ.readSlots r s = insts.map σ.function.slotOf := by
  let bounds := σ.model.pointsUntil r fun inst => !σ.absent inst && inst.defines s
  let starts := fun inst : Instruction =>
    !σ.absent inst && bounds.contains (2 * σ.function.slotOf inst)
  refine ⟨(σ.function.layout.filter fun inst => inst.reads s).filter starts, ?_, ?_, ?_⟩
  · intro inst hinst
    exact (List.mem_filter.mp (List.mem_filter.mp hinst).left).left
  · unfold useStems Function.usesOf
    rw [RegionTable.pointsUntil_eq hσ.wellFormed hσ.fits hσ.small hσ.charts hr, ok_bind]
    apply sift_map
    intro inst hinst
    have hmem := (List.mem_filter.mp hinst).left
    rw [Function.inst_of_mem hσ.wellFormed hmem, ok_bind, Function.guardedUse_of_layout
      hσ.wellFormed hσ.small ((Function.mem_layout_iff hσ.wellFormed).mp hmem)]
    rfl
  · unfold readSlots
    rw [slots_eq_map hσ.wellFormed, List.filter_map, List.filter_filter]
    refine congrArg (List.map σ.function.slotOf) (List.filter_congr ?_)
    intro inst hinst
    have hplace := (Function.mem_layout_iff hσ.wellFormed).mp hinst
    simp only [Function.comp_apply, hplace, Option.any_some, starts]
    rw [Bool.and_assoc, Bool.and_comm]

theorem exists_stems (hr : r ∈ σ.model.regions) (s : Nat) (location : StorageLocation) :
    exists insts : List Instruction, (forall inst, inst ∈ insts -> inst ∈ σ.function.layout) ∧
      σ.guardedStems table r s location = .ok (insts.map Instruction.id) ∧
      σ.stems r s location = insts.map σ.function.slotOf := by
  have hentry : exists inst, inst ∈ σ.function.layout ∧ inst.id = r.entry ∧
      σ.function.slotOf inst = r.slot := by
    rcases RegionModel.entry_of_mem_regions hr with ⟨_, inst, hinst, hid⟩
    exact ⟨inst, List.mem_of_getElem? hinst, hid,
      ((Function.layout_iff hσ.wellFormed).mp hinst).right⟩
  rcases hentry with ⟨entry, hmem, hid, hslot⟩
  have hstart : exists insts : List Instruction,
      (forall inst, inst ∈ insts -> inst ∈ σ.function.layout) ∧
      (Except.ok [r.entry] : Except Fault (List Nat)) = .ok (insts.map Instruction.id) ∧
      [r.slot] = insts.map σ.function.slotOf :=
    ⟨[entry], by simpa using hmem, by simp [hid], by simp [hslot]⟩
  unfold guardedStems stems
  cases σ.config.policy with
  | anyPath => exact hstart
  | samePath =>
      dsimp only
      split
      · exact hstart
      · exact exists_useStems hσ hr s

theorem gives_addSpan (hlive : live.Canonical) (hs : shadow.Canonical) (hq : q.Within σ.function) :
    Gives (σ.guardedAddSpan s location live shadow q) (σ.addSpan s location live shadow q) := by
  have hinsert := IntervalSet.gives_fillOutside hlive hs q
  unfold guardedAddSpan addSpan
  split
  · exact gives_bind (gives_verifyWithin hσ [s] hq) fun _ _ => hinsert
  · exact hinsert

theorem gives_addStem (hlive : live.Canonical) (hs : shadow.Canonical) {inst : Instruction}
    (hinst : inst ∈ σ.function.layout) :
    Gives (σ.guardedAddStem table s location live shadow inst.id)
      ((σ.model.pointsAfter (σ.function.slotOf inst)).spans.foldlM (σ.addSpan s location live)
        shadow) := by
  have hplace := (Function.mem_layout_iff hσ.wellFormed).mp hinst
  have hpoints :
      σ.model.pointsAfterInst inst.id = σ.model.pointsAfter (σ.function.slotOf inst) := by
    have hslot : σ.model.function.slot? inst.id = some (σ.function.slotOf inst) :=
      Function.slot?_of_layout hσ.wellFormed hplace
    rw [RegionModel.pointsAfterInst, hslot]
    rfl
  have hwalk := RegionTable.pointsAfter_eq hσ.wellFormed hσ.fits hσ.small hσ.charts inst.id
  rw [hpoints] at hwalk
  refine gives_lookUp hwalk (gives_foldlM hs ?_)
  intro shadow q hq hs
  exact ⟨gives_addSpan hσ hlive hs
      (RegionModel.within_pointsAfter (List.getElem?_eq_some_iff.mp hplace).1 hq),
    fun _ h => (addSpan_adds hlive hs h).canonical⟩

theorem gives_addRegion (hlive : live.Canonical) (hs : shadow.Canonical)
    (hr : r ∈ σ.model.regions) :
    Gives (σ.guardedAddRegion table s location live shadow r)
      (σ.addRegion s location live shadow r) := by
  rcases exists_stems hσ hr s location with ⟨insts, hinsts, hids, hslots⟩
  unfold guardedAddRegion addRegion
  split
  · refine gives_lookUp hids ?_
    rw [hslots, List.foldlM_map, List.foldlM_map]
    refine gives_foldlM hs ?_
    intro shadow inst hinst hs
    refine ⟨gives_addStem hσ hlive hs (hinsts inst hinst), ?_⟩
    intro t ht
    exact (IntervalSet.foldlM_adds (fun _ _ _ hs h => addSpan_adds hlive hs h) hs ht).canonical
  · exact gives_pure shadow

theorem gives_computeShadow (s : Nat) :
    Gives (σ.guardedComputeShadow table s) (σ.computeShadow s) := by
  refine gives_bind (gives_outcome (σ.location s)) ?_
  intro location _
  cases hinterval : σ.live.interval s with
  | none => exact gives_pure _
  | some interval =>
      have hlive := hσ.live s interval hinterval
      dsimp only
      rw [hσ.charts.regions]
      refine gives_bind ?_ fun ranges _ => gives_pure _
      refine gives_foldlM IntervalSet.canonical_empty ?_
      intro shadow r hr hs
      exact ⟨gives_addRegion hσ hlive hs hr, fun _ h => (addRegion_adds hlive hs h).canonical⟩

end Sound
end Setting
end SafeRestart
