import SafeRestart.Proofs.Merging
import SafeRestart.Proofs.Renaming

/-!
# Verification survives merging

When any path may be taken, a renaming that gives one name only to separate registers introduces no
violation.  A write that would become one overwrites the value of another register, so it copies
that register, and under the new name it is a copy of a location onto itself.
-/

namespace SafeRestart

variable {f : Function} {boundaries : BoundarySet} {config : Config} {ρ : Nat -> Nat}
  {inst : Instruction} {r : Region} {a b k s : Nat}

def mergeInto (a b s : Nat) : Nat := if s = b then a else s

theorem mergeInto_eq_cases {x y : Nat} (hne : x ≠ y) (h : mergeInto a b x = mergeInto a b y) :
    (x = a ∧ y = b) ∨ (x = b ∧ y = a) := by
  unfold mergeInto at h
  split at h
  · rename_i hx
    split at h
    · rename_i hy
      exact absurd (hx.trans hy.symm) hne
    · exact Or.inr ⟨hx, h.symm⟩
  · split at h
    · rename_i hy
      exact Or.inl ⟨h, hy⟩
    · exact absurd h hne

theorem mergeInto_lt {n : Nat} (ha : a < n) (hs : s < n) : mergeInto a b s < n := by
  unfold mergeInto
  split
  · exact ha
  · exact hs

theorem Operation.isIdentityCopy_of_merged {op : Operation} {x y : Nat}
    (hcopy : op.copySource = some x) (hdefs : op.defs = [y]) (hname : ρ x = ρ y) :
    (op.rename ρ).isIdentityCopy = true := by
  unfold Operation.copySource at hcopy
  split at hcopy
  · rename_i hflag
    simp [Operation.isIdentityCopy, Operation.rename, hflag, hdefs, hcopy, hname]
  · cases hcopy

namespace Setting

theorem harmless_rename (ρ : Nat -> Nat)
    (h : (ofFunction f boundaries config).harmless inst = true) :
    (ofFunction (f.rename ρ) boundaries config).harmless (inst.rename ρ) = true := by
  simp only [harmless, absent, ofFunction, Bool.false_or, Bool.or_eq_true] at h ⊢
  rcases h with (hidentity | hkill) | hcall
  · exact Or.inl (Or.inl (Operation.isIdentityCopy_rename hidentity))
  · exact Or.inl (Or.inr hkill)
  · exact Or.inr hcall

/-- The old instruction behind a violation of the renamed function, with the location that it writes
and the location that was live at the entry. -/
theorem exists_origin (hwell : (f.rename ρ).WellFormed) {renamed : Instruction}
    (h : (ofFunction (f.rename ρ) boundaries config).Violates r k renamed s) :
    exists inst x y, f.layout[k]? = some inst ∧ renamed = inst.rename ρ ∧
      f.LiveBefore x r.slot ∧ ρ x = s ∧ inst.defines y = true ∧ ρ y = s := by
  have hplaced : (f.rename ρ).layout[k]? = some renamed := h.placed
  rw [Function.layout_rename, List.getElem?_map] at hplaced
  rcases Option.map_eq_some_iff.mp hplaced with ⟨inst, hinst, hrenamed⟩
  have hdeclared : s < (f.rename ρ).storage.length := lt_storage_of_checked h.counts
  have hlive : (f.rename ρ).LiveBefore s r.slot :=
    (Function.mem_livePoints_use hwell).mp ((Function.liveAt_liveRanges_iff hdeclared).mp h.live)
  rcases Function.liveBefore_of_rename hlive with ⟨x, hx, hlivex⟩
  have hwrites : (inst.toOperation.rename ρ).defines s = true := by
    have hdefines := h.writes
    rw [← hrenamed] at hdefines
    exact hdefines
  rcases Operation.defines_rename_iff.mp hwrites with ⟨y, hy, hnamey⟩
  exact ⟨inst, x, y, hinst, hrenamed.symm, hlivex, hx, hy, hnamey⟩

theorem harmless_rename_of_separate {x y : Nat} (hf : f.WellFormed)
    (hpolicy : config.policy = .anyPath)
    (hcopy : inst.flags.copy = true -> inst.defs.length = 1)
    (hsep : (ofFunction f boundaries config).Separate x y) (hdeclared : y < f.storage.length)
    (hapart : forall p, ¬ (f.liveRanges.liveAt x p = true ∧ f.liveRanges.liveAt y p = true))
    (hregion : r ∈ (RegionModel.ofBoundaries f boundaries).regions)
    (hlive : f.LiveBefore x r.slot)
    (hreached : exists met,
      Path (RegionModel.ofBoundaries f boundaries).LeadsInside r.slot met k)
    (hinst : f.layout[k]? = some inst) (hwrites : inst.defines y = true) (hname : ρ x = ρ y) :
    (ofFunction (f.rename ρ) boundaries config).harmless (inst.rename ρ) = true := by
  have hstem : forall location, f.storage? x = some location ->
      r.slot ∈ (ofFunction f boundaries config).stems r x location := by
    intro location _
    simp [stems, ofFunction, hpolicy]
  rcases copies_or_harmless_of_separate hf hsep hdeclared hapart hregion hlive hstem hreached
    hinst hwrites with hsource | hharmless
  · have hflag : inst.flags.copy = true := by
      by_contra hflag
      simp [Operation.copySource, hflag] at hsource
    rcases List.length_eq_one_iff.mp (hcopy hflag) with ⟨z, hz⟩
    have hyz : y = z := by simpa [Operation.defines, hz] using hwrites
    have hidentity : (inst.rename ρ).isIdentityCopy = true :=
      Operation.isIdentityCopy_of_merged hsource (hyz ▸ hz) hname
    simp [harmless, absent, hidentity]
  · exact harmless_rename ρ hharmless

theorem not_violates_rename (hf : f.WellFormed) (hwell : (f.rename ρ).WellFormed)
    (hpolicy : config.policy = .anyPath)
    (hcopy : forall inst, inst ∈ f.layout -> inst.flags.copy = true -> inst.defs.length = 1)
    (hchecked : forall x, (ofFunction f boundaries config).checked (ρ x) = true ->
      (ofFunction f boundaries config).checked x = true)
    (hmerged : forall x y, x ≠ y -> ρ x = ρ y ->
      (ofFunction f boundaries config).Separate x y ∧
        forall p, ¬ (f.liveRanges.liveAt x p = true ∧ f.liveRanges.liveAt y p = true))
    (hok : forall r k inst s, ¬ (ofFunction f boundaries config).Violates r k inst s)
    {renamed : Instruction} :
    ¬ (ofFunction (f.rename ρ) boundaries config).Violates r k renamed s := by
  intro h
  rcases exists_origin hwell h with ⟨inst, x, y, hinst, rfl, hlive, hx, hy, hnamey⟩
  have hregion : r ∈ (RegionModel.ofBoundaries f boundaries).regions :=
    RegionModel.regions_rename ▸ h.isRegion
  have hreached : exists met,
      Path (RegionModel.ofBoundaries f boundaries).LeadsInside r.slot met k :=
    RegionModel.leadsInside_rename ▸ h.reached
  have hharmful : ¬ (ofFunction (f.rename ρ) boundaries config).harmless (inst.rename ρ) = true :=
    Bool.eq_false_iff.mp h.harmful
  by_cases hsame : x = y
  · -- The write overwrites the value that was live before: it was a violation already.
    subst hsame
    have hcounts : (ofFunction f boundaries config).checked x = true :=
      hchecked x (hx ▸ h.counts)
    have hdeclared : x < f.storage.length := lt_storage_of_checked hcounts
    have hliveAt : f.liveRanges.liveAt x r.point = true :=
      (Function.liveAt_liveRanges_iff hdeclared).mpr ((Function.mem_livePoints_use hf).mpr hlive)
    have hbefore : (ofFunction f boundaries config).harmless inst = false :=
      Bool.eq_false_iff.mpr fun hharmless => hharmful (harmless_rename ρ hharmless)
    exact hok r k inst x ⟨hregion, hinst, hreached, hbefore, hy, hliveAt, hcounts⟩
  · -- The write overwrites the value of another register.
    have hname : ρ x = ρ y := hx.trans hnamey.symm
    rcases hmerged x y hsame hname with ⟨hsep, hapart⟩
    have hdeclared := (hmerged y x (Ne.symm hsame) hname.symm).left.declared
    exact hharmful (harmless_rename_of_separate hf hpolicy
      (hcopy inst (List.mem_of_getElem? hinst)) hsep hdeclared hapart hregion hlive hreached hinst
      hy hname)

/-!
# Merging two registers
-/

theorem checked_of_not_exempt (hdeclared : b < f.storage.length)
    (hexempt : forall location, f.storage? b = some location -> location.flags.exempt = false) :
    (ofFunction f boundaries config).checked b = true := by
  have hlocation : f.storage? b = some f.storage[b] := List.getElem?_eq_getElem hdeclared
  apply (Option.any_eq_true _ _).mpr
  exact ⟨f.storage[b], hlocation, by simp [hexempt _ hlocation]⟩

theorem merged_function_verifies {name : String} {steps : List Step} {requests : List Request}
    (hfinished : Function.assemble name steps = .ok f)
    (hcopy : forall inst, inst ∈ f.layout -> inst.flags.copy = true -> inst.defs.length = 1)
    (hpolicy : config.policy = .anyPath)
    (hexempt : forall location, f.storage? b = some location -> location.flags.exempt = false)
    (hapart : forall p, ¬ (f.liveRanges.liveAt a p = true ∧ f.liveRanges.liveAt b p = true))
    (hsafe : ((ofFunction f boundaries config).respond
      ((ofFunction f boundaries config).keptAfter requests) (.registersMergeable a b)).1 =
        .ok (.verdict true))
    (hverified : (ofFunction f boundaries config).verifyFunction = .ok ()) :
    Function.assemble name (steps.map (Step.rename (mergeInto a b))) =
        .ok (f.rename (mergeInto a b)) ∧
      (ofFunction (f.rename (mergeInto a b)) boundaries config).verifyFunction = .ok () := by
  have hf := Function.wellFormed_of_assemble hfinished
  rcases separate_of_respond hsafe with ⟨hab, hba⟩
  have hdeclared : forall s, s < f.storage.length -> mergeInto a b s < f.storage.length :=
    fun s hs => mergeInto_lt hab.declared hs
  have hrenamed := Function.assemble_rename hdeclared hfinished
  have hwell := Function.wellFormed_of_assemble hrenamed
  have hsettled : (ofFunction f boundaries config).function.WellFormed := hf
  have hsettled' : (ofFunction (f.rename (mergeInto a b)) boundaries config).function.WellFormed :=
    hwell
  refine ⟨hrenamed, ?_⟩
  apply (verifyFunction_ok_iff hsettled').mpr
  intro r k inst s
  apply not_violates_rename hf hwell hpolicy hcopy
  · intro x hx
    by_cases hxb : x = b
    · rw [hxb]
      exact checked_of_not_exempt hba.declared hexempt
    · simpa [mergeInto, hxb] using hx
  · intro x y hne hname
    rcases mergeInto_eq_cases hne hname with ⟨rfl, rfl⟩ | ⟨rfl, rfl⟩
    · exact ⟨hab, hapart⟩
    · exact ⟨hba, fun p hp => hapart p ⟨hp.right, hp.left⟩⟩
  · exact (verifyFunction_ok_iff hsettled).mp hverified

theorem merged_relay_verifies :
    (ofFunction relay (.ofList [3]) .variableControlFlow).verifyFunction = .ok () ∧
      Function.assemble "relay" (relaySteps.map (Step.rename (mergeInto 0 1))) =
        .ok (relay.rename (mergeInto 0 1)) ∧
      (ofFunction (relay.rename (mergeInto 0 1)) (.ofList [3])
        .variableControlFlow).verifyFunction = .ok () := by
  have hfinished : Function.assemble "relay" relaySteps = .ok relay := rfl
  have hsafe : ((ofFunction relay (.ofList [3]) .variableControlFlow).respond
      ((ofFunction relay (.ofList [3]) .variableControlFlow).keptAfter [.shadow 1])
      (.registersMergeable 0 1)).1 = .ok (.verdict true) := by
    decide +kernel
  have hverified :
      (ofFunction relay (.ofList [3]) .variableControlFlow).verifyFunction = .ok () := by
    decide +kernel
  have hexempt : forall location, relay.storage? 1 = some location ->
      location.flags.exempt = false := by
    intro location hlocation
    cases hlocation
    rfl
  exact ⟨hverified,
    merged_function_verifies hfinished (by decide) rfl hexempt relay_apart hsafe hverified⟩

end Setting
end SafeRestart
