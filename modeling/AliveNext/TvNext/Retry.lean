import AliveNext.TvNext.CheckSound
import AliveNext.TvNext.Soundness

/-!
# The assume retry in context

A unit that only passes with injected assumptions is right in the context of
its parents when the assumptions hold there.  The checks show that they do
under the premise that the parents' arguments are well defined, which the
assumptions of the unit do not repeat.
-/

namespace AliveNext.TvNext

open AliveNext.Lib
open AliveNext.LLVM

/-! ## Units in context -/

/-- Both halves are verified straight-line functions over one parameter
list. -/
structure TvUnit.Verified (unit : TvUnit) : Prop where
  same_args : unit.tgtFn.args = unit.srcFn.args
  src_half : ∃ block, unit.srcFn.blocks = [block] ∧ Body.Verified ⟨unit.srcFn.args, block⟩
  tgt_half : ∃ block, unit.tgtFn.blocks = [block] ∧ Body.Verified ⟨unit.tgtFn.args, block⟩

/-- The parameters are bound to the values that the parents compute for their
names: the source half to the values of the source, the target half to those
of the target, which refine them. -/
structure InContext (params : List Argument) (src tgt : Body)
    (srcEnv tgtEnv : Env Reg) (srcArgs tgtArgs : ArgTuple) : Prop where
  src_bound : ∀ index p w r, params[index]? = some p → findValueByName p.name src = some (w, r) →
      w = p.width ∧ srcArgs w index = srcEnv w r
  tgt_bound : ∀ index p w r, params[index]? = some p → findValueByName p.name tgt = some (w, r) →
      w = p.width ∧ tgtArgs w index = tgtEnv w r
  refined : ∀ index p, params[index]? = some p →
    (tgtArgs p.width index).Refines (srcArgs p.width index)

/-- The arguments of a parent that the slices of the collected facts read are
well defined. -/
def SliceArgsDefined (llvm : BitOperators) (params : List Argument)
    (parent : Body) (args : ArgTuple) : Prop :=
  ∀ ranges, computeRanges llvm parent.insts (argumentSeed parent.args) = .ok ranges →
    FactArgsDefined parent (params.filterMap (collectFact parent ranges)) args

/-! ## Injected assumptions that hold -/

/-- From every environment with these arguments the function returns the same
outcomes. -/
def ReturnsOn (fn : Function) (args : ArgTuple) (outcomes : Outcomes Returned) : Prop :=
  ∃ entry blocks, fn.blocks = entry :: blocks ∧
    ∀ env : Env Reg, (∀ w index, env w (.arg index) = args w index) →
      (runs entry.insts env).bind entry.term.op.returned = outcomes

variable {fn : Function} {args : ArgTuple} {outcomes : Outcomes Returned} {env parentEnv : Env Reg}
  {block : BasicBlock} {claim : Claim} {p : Term Reg 1} {parent src tgt : Body}
  {runOnce : TvUnit → UnitVerdict} {llvm : BitOperators} {unit : TvUnit} {side : PerSideFacts}
  {sample : Sample 8}

theorem ReturnsOn.eq (returns : ReturnsOn fn args outcomes) : fn.outcomes args = outcomes := by
  obtain ⟨entry, blocks, same, returned⟩ := returns
  rw [Function.outcomes, same]
  exact returned (bindArgs args) fun _ _ => rfl

theorem agree_on_argScope {args : List Argument} {env' : Env Reg}
    (agree : ∀ index p, args[index]? = some p →
      env p.width (.arg index) = env' p.width (.arg index)) :
    ∀ use ∈ argScope args, env use.1 use.2 = env' use.1 use.2 := by
  intro use member
  obtain ⟨⟨p, index⟩, entryMember, rfl⟩ := List.mem_map.mp member
  exact agree index p (List.mem_zipIdx_iff_getElem?.mp entryMember)

theorem returnsOn_of_verified
    (single : fn.blocks = [block]) (verified : Body.Verified ⟨fn.args, block⟩) (args : ArgTuple) :
    ReturnsOn fn args (fn.outcomes args) := by
  refine ⟨block, [], single, fun env bound => ?_⟩
  rw [Function.outcomes, single]
  refine returned_of_scoped verified.body_scoped verified.term_scoped
    (agree_on_argScope fun index p _ => ?_)
  exact bound p.width index

theorem outcomes_mono_of_verified
    (single : fn.blocks = [block]) (verified : Body.Verified ⟨fn.args, block⟩)
    {target source : ArgTuple} (refined : ∀ index p, fn.args[index]? = some p →
      (target p.width index).Refines (source p.width index)) :
    Outcomes.Refines Returned.Refines (fn.outcomes target) (fn.outcomes source) := by
  -- slots that no parameter has are not read
  let padded : ArgTuple := fun w index =>
    if (fn.args[index]?).any fun p => p.width == w then target w index
    else source w index
  have same : fn.outcomes target = fn.outcomes padded := by
    rw [Function.outcomes, Function.outcomes, single]
    refine returned_of_scoped verified.body_scoped verified.term_scoped
      (agree_on_argScope fun index p found => ?_)
    have present : fn.args[index]? = some p := found
    simp [bindArgs, padded, present]
  rw [same, Function.outcomes, Function.outcomes, single]
  refine BasicBlock.outcomes_mono block fun w index => ?_
  dsimp only [padded]
  split
  next present =>
    obtain ⟨p, found, width⟩ := (Option.any_eq_true _ _).mp present
    cases beq_iff_eq.mp width
    exact refined index p found
  next => exact Content.Refines.refl _

theorem predicate_arg (built : claim.predicate (resolveArg fn) = .ok (some p)) :
    ∀ use ∈ p.regs, ∃ index, use.2 = .arg index := by
  have shape : Term.Shape (LeafRel fun _ a _ =>
      ∀ use ∈ a.regs, ∃ index, use.2 = .arg index) p p := by
    refine Claim.predicate_shape ?_ built built
    intro name _ a b found found'
    rw [found] at found'
    cases found'
    obtain ⟨entry, -, rfl⟩ := Option.map_eq_some_iff.mp found
    refine ⟨_, _, _, rfl, rfl, fun use used => ?_⟩
    cases List.mem_singleton.mp used
    exact ⟨entry.2, rfl⟩
  intro use used
  obtain ⟨w, a, a', leaf, read⟩ := shape.regs_left used
  cases leaf with
  | const value => exact absurd read List.not_mem_nil
  | value held => exact held use read

theorem injectAssume_args (fn : Function) (cond : Term Reg 1) :
    (injectAssume fn cond).args = fn.args := by
  unfold injectAssume
  split <;> rfl

theorem ReturnsOn.injectAssume (returns : ReturnsOn fn args outcomes) {cond : Term Reg 1}
    (reads : ∀ use ∈ cond.regs, ∃ index, use.2 = .arg index)
    (holds : Term.AlwaysTrue (cond.outcomes (bindArgs args))) :
    ReturnsOn (injectAssume fn cond) args outcomes := by
  obtain ⟨entry, blocks, same, returned⟩ := returns
  refine ⟨_, blocks, by rw [TvNext.injectAssume, same], fun env bound => ?_⟩
  have older : ∀ use ∈ cond.regs, use.2.Older (functionSupply fn).nextId := by
    intro use used
    obtain ⟨index, argument⟩ := reads use used
    rw [argument]
    trivial
  have same : cond.outcomes env = cond.outcomes (bindArgs args) := by
    refine Term.outcomes_congr fun use used => ?_
    obtain ⟨index, argument⟩ := reads use used
    rw [argument]
    exact bound use.1 index
  have transparent := transparent_assume older (same ▸ holds)
  dsimp only
  rw [List.append_cons, runs_append, Outcomes.bind_assoc, transparent.bind_eq fun env' agree => ?_]
  · exact returned env bound
  · rw [returned env bound]
    exact returned env' fun w index =>
      (agree w (.arg index) trivial).trans (bound w index)

theorem Injected.returnsOn {claims : List Claim} {fn' : Function}
    (injected : Injected claims fn fn')
    (returns : ReturnsOn fn args outcomes)
    (holds : ∀ claim ∈ claims, ∀ p, claim.predicate (resolveArg fn) = .ok (some p) →
        Term.AlwaysTrue (p.outcomes (bindArgs args))) :
    ReturnsOn fn' args outcomes := by
  induction injected with
  | nil fn => exact returns
  | skip _ _ ih =>
    exact ih returns fun claim member =>
      holds claim (List.mem_cons_of_mem _ member)
  | @inject claim rest fn fn' p built _ ih =>
    have unchanged : resolveArg (TvNext.injectAssume fn p) = resolveArg fn := by
      funext name
      rw [resolveArg, resolveArg, injectAssume_args]
    refine ih (returns.injectAssume (predicate_arg built)
      (holds claim List.mem_cons_self p built)) ?_
    intro other member q builtOther
    rw [unchanged] at builtOther
    exact holds other (List.mem_cons_of_mem claim member) q builtOther

/-- A claim that holds of a parent holds of parameters that refine the
parent's values. -/
theorem Claim.HoldsIn.on_params (holds : claim.HoldsIn parent parentEnv)
    (bound : ∀ index p w r, fn.args[index]? = some p → findValueByName p.name parent = some (w, r) →
        w = p.width ∧ (args w index).Refines (parentEnv w r))
    (built : claim.predicate (resolveArg fn) = .ok (some p)) :
    Term.AlwaysTrue (p.outcomes (bindArgs args)) := by
  obtain ⟨resolve, q, env, predicated, allTrue, values⟩ := holds
  have shape : Term.Shape (LeafRel fun _ a b =>
      (a.content (bindArgs args)).Refines (b.content env)) p q := by
    refine Claim.predicate_shape ?_ built predicated
    intro name mentioned a b found found'
    obtain ⟨w, r, clone, named, resolved, value⟩ := values name mentioned
    rw [resolved] at found'
    cases found'
    obtain ⟨entry, argument, rfl⟩ := Option.map_eq_some_iff.mp found
    obtain ⟨⟨arg, index⟩, first, rfl⟩ := Option.map_eq_some_iff.mp argument
    have placed := List.mem_zipIdx_iff_getElem?.mp (List.mem_of_find?_eq_some first)
    have same := List.find?_some first
    obtain rfl : arg.name = name := beq_iff_eq.mp same
    obtain ⟨rfl, refined⟩ := bound index arg w r placed named
    refine ⟨arg.width, _, _, rfl, rfl, ?_⟩
    rw [Operand.content, Operand.content, value]
    exact refined
  refine Term.AlwaysTrue.of_refines (shape.outcomes_refines ?_) allTrue
  intro w a b leaf
  cases leaf with
  | const value => exact Content.Refines.refl _
  | value held => exact held

/-! ## The retry -/

theorem verifyTvUnit_passed {verdict : UnitVerdict}
    (retried : verifyTvUnit runOnce llvm (some (src, tgt)) unit = .ok verdict)
    (passed : verdict.passed = true) :
    (runOnce unit).passed = true ∨ ∃ proposed,
        proposeFromRanges llvm unit src tgt = .ok (some proposed) ∧
        (∀ check ∈ proposed.assumeChecks, (runOnce check).passed = true) ∧
        (runOnce proposed.modifiedUnit).passed = true := by
  unfold verifyTvUnit at retried
  dsimp only at retried
  split at retried
  next first => exact Or.inl first
  next notPassed =>
    split at retried
    next =>
      cases retried
      exact absurd passed notPassed
    next =>
      obtain ⟨proposal, proposedBy, retried⟩ := bind_eq_ok.mp retried
      split at retried
      next =>
        cases retried
        exact absurd passed notPassed
      next proposed =>
        split at retried
        next =>
          cases retried
          exact absurd passed notPassed
        next allPassed =>
          split at retried
          next modified =>
            refine Or.inr ⟨proposed, proposedBy, ?_, modified⟩
            intro check member
            have absent := List.find?_eq_none.mp allPassed
              (check, runOnce check) (List.mem_map_of_mem member)
            simpa using absent
          next =>
            cases retried
            exact absurd passed notPassed

theorem verifyTvUnit_upgrades (failed : (runOnce unit).passed = false)
    (unsound : (runOnce unit).status = .unsound) {proposed : AssumedTvUnit}
    (proposal : proposeFromRanges llvm unit src tgt = .ok (some proposed))
    (checked : ∀ check ∈ proposed.assumeChecks, (runOnce check).passed = true)
    (modified : (runOnce proposed.modifiedUnit).passed = true) :
    ∃ verdict, verifyTvUnit runOnce llvm (some (src, tgt)) unit =
        .ok verdict ∧ verdict.passed = true := by
  have allPassed : firstFailure runOnce proposed.assumeChecks = none := by
    refine List.find?_eq_none.mpr fun entry member => ?_
    obtain ⟨check, checkMember, rfl⟩ := List.mem_map.mp member
    simp [checked check checkMember]
  have retries : ¬((runOnce unit).status ≠ .unsound ∧
      (runOnce unit).status ≠ .failedToProve) := fun other => other.1 unsound
  refine ⟨{ runOnce proposed.modifiedUnit with
    name := unit.name
    proposerName := proposed.proposerName }, ?_, modified⟩
  simp only [verifyTvUnit, failed, Bool.false_eq_true, if_false, if_neg retries]
  refine bind_eq_ok.mpr ⟨some proposed, proposal, ?_⟩
  simp only [allPassed]
  exact if_pos modified

theorem sideCheck_holds (verified : parent.Verified) (collected : side.Collected parent)
    {diagName : String} {checks : List TvUnit} (built : sideCheck side parent diagName = .ok checks)
    (passed : ∀ check ∈ checks, check.tgtFn.Refines check.srcFn)
    (defined : FactArgsDefined parent side.facts args)
    (reached : some parentEnv ∈ runs parent.insts (bindArgs args)) :
    ∀ claim ∈ side.claims, claim.HoldsIn parent parentEnv := by
  unfold sideCheck at built
  split at built
  next empty =>
    rw [PerSideFacts.isEmpty, Bool.and_eq_true, List.isEmpty_iff, List.isEmpty_iff] at empty
    simp [PerSideFacts.claims, empty]
  next =>
    obtain ⟨check, checked, same⟩ := bind_eq_ok.mp built
    cases same
    exact buildCombinedFactCheck_holds verified collected checked
      (passed check (List.mem_singleton.mpr rfl)) defined reached

theorem SliceArgsDefined.facts (defined : SliceArgsDefined llvm unit.srcFn.args parent args)
    (collected : collectFromParent llvm unit parent = .ok side) :
    FactArgsDefined parent side.facts args := by
  obtain ⟨ranges, computed, collected⟩ := bind_eq_ok.mp collected
  obtain ⟨obligations, -, collected⟩ := bind_eq_ok.mp collected
  cases collected
  exact defined ranges computed

/-- A unit that the retry accepts is right in the context of its parents,
whenever the arguments that the collected facts depend on are well defined. -/
theorem verifyTvUnit_refines_in_context {runOnce : TvUnit → UnitVerdict}
    (trusted : SoundVerifier runOnce) {llvm : BitOperators} {src tgt : Body}
    (srcVerified : src.Verified) (tgtVerified : tgt.Verified) {unit : TvUnit}
    (verified : unit.Verified) {verdict : UnitVerdict}
    (retried : verifyTvUnit runOnce llvm (some (src, tgt)) unit = .ok verdict)
    (passed : verdict.passed = true) {args : ArgTuple}
    (srcDefined : SliceArgsDefined llvm unit.srcFn.args src args)
    (tgtDefined : SliceArgsDefined llvm unit.srcFn.args tgt args) {srcEnv tgtEnv : Env Reg}
    (srcReached : some srcEnv ∈ runs src.insts (bindArgs args))
    (tgtReached : some tgtEnv ∈ runs tgt.insts (bindArgs args)) {srcArgs tgtArgs : ArgTuple}
    (context : InContext unit.srcFn.args src tgt srcEnv tgtEnv srcArgs
      tgtArgs) :
    Outcomes.Refines Returned.Refines
      (unit.tgtFn.outcomes tgtArgs) (unit.srcFn.outcomes srcArgs) := by
  obtain ⟨srcBlock, srcSingle, srcHalf⟩ := verified.src_half
  obtain ⟨tgtBlock, tgtSingle, tgtHalf⟩ := verified.tgt_half
  have onTarget : Outcomes.Refines Returned.Refines
      (unit.tgtFn.outcomes tgtArgs) (unit.srcFn.outcomes tgtArgs) := by
    rcases verifyTvUnit_passed retried passed with first | ⟨proposed, proposal, checked, modified⟩
    · exact trusted unit first tgtArgs
    obtain ⟨srcSide, tgtSide, srcChecks, tgtChecks, srcCollected,
      tgtCollected, srcInjected, tgtInjected, srcBuilt, tgtBuilt, checks⟩ :=
      proposeFromRanges_parts proposal
    have srcHolds := sideCheck_holds srcVerified (collectFromParent_collected srcCollected) srcBuilt
      (fun check member => trusted check (checked check (checks ▸ List.mem_append_left _ member)))
      (srcDefined.facts srcCollected) srcReached
    have tgtHolds := sideCheck_holds tgtVerified (collectFromParent_collected tgtCollected) tgtBuilt
      (fun check member => trusted check (checked check (checks ▸ List.mem_append_right _ member)))
      (tgtDefined.facts tgtCollected) tgtReached
    have holds : ∀ fn : Function, fn.args = unit.srcFn.args →
        ∀ claim ∈ srcSide.claims ++ tgtSide.claims, ∀ p,
          claim.predicate (resolveArg fn) = .ok (some p) →
            Term.AlwaysTrue (p.outcomes (bindArgs tgtArgs)) := by
      intro fn sameArgs claim member p built
      rcases List.mem_append.mp member with member | member
      · refine (srcHolds claim member).on_params ?_ built
        intro index param w r present found
        rw [sameArgs] at present
        obtain ⟨rfl, value⟩ := context.src_bound index param w r present found
        exact ⟨rfl, value ▸ context.refined index param present⟩
      · refine (tgtHolds claim member).on_params ?_ built
        intro index param w r present found
        rw [sameArgs] at present
        obtain ⟨rfl, value⟩ := context.tgt_bound index param w r present found
        exact ⟨rfl, value ▸ Content.Refines.refl _⟩
    have srcSame := (srcInjected.returnsOn (returnsOn_of_verified srcSingle srcHalf tgtArgs)
      (holds unit.srcFn rfl)).eq
    have tgtSame := (tgtInjected.returnsOn (returnsOn_of_verified tgtSingle tgtHalf tgtArgs)
      (holds unit.tgtFn verified.same_args)).eq
    have refined := trusted proposed.modifiedUnit modified tgtArgs
    rwa [srcSame, tgtSame] at refined
  refine onTarget.trans ?_ fun _ _ _ first second => first.trans second
  exact outcomes_mono_of_verified srcSingle srcHalf context.refined

/-! ## A poison argument -/

/-- `%x = add i8 %a, 1` and a last instruction `%y`. -/
def thawing (last : Rhs Reg 8) : Body where
  args := [⟨ascii "a", 8⟩]
  block :=
    { name := ascii "entry"
      insts := [increment, ⟨1, ascii "y", .value last, []⟩]
      term := ⟨.ret (w := 8) (.reg (.inst 1)), []⟩ }

/-- `%y = freeze i8 %x`. -/
def thawingSrc : Body :=
  thawing (.freeze (.reg (.inst 0)))

/-- `%y = or i8 %x, 0`. -/
def thawingTgt : Body :=
  thawing (.binop (.or false) (.reg (.inst 0)) (.const 0))

/-- The half of the unit for `%y`. -/
def thawingHalf (name : String) (last : Rhs Reg 8) : Function where
  name := ascii name
  args := [⟨ascii "x", 8⟩]
  blocks :=
    [{ name := ascii "entry"
       insts := [⟨0, ascii "y", .value last, []⟩]
       term := ⟨.ret (w := 8) (.reg (.inst 0)), []⟩ }]

def thawingUnit : TvUnit where
  name := "unit@2"
  srcFn := thawingHalf "src" (.freeze (.reg (.arg 0)))
  tgtFn := thawingHalf "tgt" (.binop (.or false) (.reg (.arg 0)) (.const 0))

/-- The only claim of either side: `%x` is not poison. -/
def thawingClaim (value : Reg) : Term Reg 1 :=
  poisonFreeClaim (.reg value : Operand Reg 8) (ascii "x")

def thawingCheck (name : String) : TvUnit where
  name := name
  srcFn := checkSource [⟨ascii "a", 8⟩]
  tgtFn :=
    checkTarget [⟨ascii "a", 8⟩]
      ((assumeAllDefined [(⟨ascii "a", 8⟩, 0)]
        ⟨0, ⟨[ascii "a", ascii "entry"], 0⟩⟩).1 ++ [{ increment with id := 3 }])
      ⟨4, ⟨[ascii "x", ascii "a_pf", ascii "a_fz", ascii "a",
        ascii "entry"], 0⟩⟩
      (some (thawingClaim (.inst 3)))

def thawingAssumed (fn : Function) : Function :=
  injectAssume (injectAssume fn (thawingClaim (.arg 0))) (thawingClaim (.arg 0))

private theorem thawing_proposed :
    proposeFromRanges prefixOperators thawingUnit thawingSrc thawingTgt =
      .ok (some
        { modifiedUnit :=
            ⟨"unit@2.range-assume", thawingAssumed thawingUnit.srcFn,
              thawingAssumed thawingUnit.tgtFn⟩
          assumeChecks :=
            [thawingCheck "unit@2.src-assume-check",
              thawingCheck "unit@2.tgt-assume-check"]
          proposerName := "FromRanges" }) :=
  rfl

private theorem thawingHalf_outcomes (name : String) (last : Rhs Reg 8) (args : ArgTuple) :
    (thawingHalf name last).outcomes args = (last.outcomes (bindArgs args)).map Returned.value := by
  simp only [thawingHalf, Function.outcomes, BasicBlock.outcomes, runs_cons,
    runs_nil, Instruction.step, Outcomes.map, Outcomes.bind_assoc,
    Outcomes.pure_bind, TermOp.returned, Operand.content, Env.set_self]

private theorem thawingClaim_arg (args : ArgTuple) :
    Term.AlwaysTrue ((thawingClaim (.arg 0)).outcomes (bindArgs args)) ↔
      (args 8 0).WellDefined := by
  have read : (.reg (.arg 0) : Operand Reg 8).content (bindArgs args) = args 8 0 := rfl
  rw [← read]
  constructor
  · intro holds
    by_contra undefined
    exact poisonFreeClaim_false undefined holds
  · intro defined
    exact poisonFreeClaim_true defined

private theorem thawingClaim_reads (index : Nat) : ∀ use ∈ (thawingClaim (.arg index)).regs,
      ∃ index, use.2 = .arg index := by
  intro use used
  cases List.mem_singleton.mp (poisonFreeClaim_regs used)
  exact ⟨index, rfl⟩

private theorem thawingAssumed_defined
    (single : fn.blocks = [block]) (verified : Body.Verified ⟨fn.args, block⟩)
    (defined : (args 8 0).WellDefined) : (thawingAssumed fn).outcomes args = fn.outcomes args := by
  have holds := (thawingClaim_arg args).mpr defined
  have returns := returnsOn_of_verified single verified args
  exact ((returns.injectAssume (thawingClaim_reads 0) holds).injectAssume
    (thawingClaim_reads 0) holds).eq

private theorem thawingAssumed_undefined (single : fn.blocks = [block])
    (undefined : ¬(args 8 0).WellDefined) : none ∈ (thawingAssumed fn).outcomes args := by
  have older : ∀ use ∈ (thawingClaim (.arg 0)).regs,
      use.2.Older (functionSupply (injectAssume fn
        (thawingClaim (.arg 0)))).nextId := argument_older
  have fails := undefined_assume older (mt (thawingClaim_arg args).mp undefined)
  simp only [thawingAssumed, injectAssume, single, Function.outcomes, BasicBlock.outcomes]
  simp only [injectAssume, single] at fails
  rw [List.append_cons, runs_append, Outcomes.bind_assoc]
  exact Outcomes.none_mem_bind_of_first fails

private theorem thawing_kept (defined : (args 8 0).WellDefined) :
    thawingUnit.tgtFn.outcomes args = thawingUnit.srcFn.outcomes args := by
  obtain ⟨x, single⟩ := defined
  have read : (.reg (.arg 0) : Operand Reg 8).content (bindArgs args) = .single (some x) := single
  rw [thawingUnit, thawingHalf_outcomes, thawingHalf_outcomes]
  congr 1
  have frozenSelf : (Rhs.freeze (.reg (.arg 0) : Operand Reg 8)).outcomes
      (bindArgs args) = Outcomes.pure (.single (some x)) := by
    ext outcome
    simp [Rhs.outcomes, read, frozen, Outcomes.pure]
  rw [frozenSelf]
  refine (congrArg collect ?_).trans (collect_singleton (some x))
  ext evaluated
  simp [Rhs.evaluations, Operand.content, bindArgs, single, BinOp.lane, BinOp.eval, BinOp.guarded]

private theorem thawingUnit_verified : thawingUnit.Verified where
  same_args := rfl
  src_half := ⟨_, rfl, by decide +kernel⟩
  tgt_half := ⟨_, rfl, by decide +kernel⟩

private theorem thawing_modified : (thawingAssumed thawingUnit.tgtFn).Refines
      (thawingAssumed thawingUnit.srcFn) := by
  intro args
  obtain ⟨srcBlock, srcSingle, srcHalf⟩ := thawingUnit_verified.src_half
  obtain ⟨tgtBlock, tgtSingle, tgtHalf⟩ := thawingUnit_verified.tgt_half
  by_cases defined : (args 8 0).WellDefined
  · rw [thawingAssumed_defined srcSingle srcHalf defined,
      thawingAssumed_defined tgtSingle tgtHalf defined, thawing_kept defined]
    exact Outcomes.Refines.refl Returned.Refines.refl
  · exact Outcomes.Refines.of_undefined (thawingAssumed_undefined srcSingle defined)

private theorem increment_step (id : Nat) (single : env 8 (.arg 0) = .single sample) :
    ({ increment with id := id } : Instruction).step env =
      Outcomes.pure (env.set 8 (.inst id) (.single (sample.map fun x => x + 1#8))) := by
  have sum : (Rhs.binop (w := 8) (.add false false) (.reg (.arg 0)) (.const 1)).outcomes env =
        Outcomes.pure (.single (sample.map fun x => x + 1#8)) := by
    refine (congrArg collect ?_).trans (collect_singleton _)
    ext evaluated
    cases sample <;> simp [Rhs.evaluations, Operand.content, single,
      BinOp.lane, BinOp.eval, BinOp.guarded, BinOp.badDivisor]
  simp only [increment, Instruction.step, sum, Outcomes.map, Outcomes.pure_bind]

private theorem thawing_checked (name : String) :
    (thawingCheck name).tgtFn.Refines (thawingCheck name).srcFn := by
  intro args
  by_cases defined : (args 8 0).WellDefined
  · have params : ∀ param ∈ [((⟨ascii "a", 8⟩ : Argument), 0)],
        (bindArgs args param.1.width (.arg param.2)).WellDefined := by
      intro param member
      cases List.mem_singleton.mp member
      exact defined
    have assumes := @assumeAllDefined_transparent
      [((⟨ascii "a", 8⟩ : Argument), 0)]
      ⟨0, ⟨[ascii "a", ascii "entry"], 0⟩⟩ (bindArgs args) params
    obtain ⟨x, single⟩ := defined
    have computed : ∀ env, AgreeBelow 0 (bindArgs args) env →
        runs [{ increment with id := 3 }] env = Outcomes.pure
          (env.set 8 (.inst 3) (.single (some (x + 1#8)))) := by
      intro env agree
      rw [runs_singleton]
      exact increment_step 3 ((agree 8 (.arg 0) trivial).trans single)
    rw [thawingCheck, @checkSource_outcomes [⟨ascii "a", 8⟩] args params]
    refine checkTarget_true ?_ ?_ ?_
    · intro use used
      cases List.mem_singleton.mp (poisonFreeClaim_regs used)
      exact Nat.lt_succ_self 3
    · rw [runs_append]
      rintro (⟨undefined, -⟩ | ⟨env, reached, undefined⟩)
      · exact assumes.defined undefined
      · rw [computed env (assumes.agree reached)] at undefined
        cases undefined
    · intro env reached
      rw [runs_append] at reached
      rcases reached with ⟨-, impossible⟩ | ⟨middle, reached, last⟩
      · cases impossible
      · rw [computed middle (assumes.agree reached)] at last
        cases last
        exact poisonFreeClaim_true ⟨x + 1#8, Env.set_self _ _ _ _⟩
  · have fails := @undefined_assume
      (poisonFreeClaim (.reg (.arg 0) : Operand Reg 8) (ascii "a"))
      ⟨0, ⟨[ascii "a", ascii "entry"], 0⟩⟩ (bindArgs args) argument_older
      (poisonFreeClaim_false defined)
    refine Outcomes.Refines.of_undefined (Outcomes.none_mem_bind_of_first ?_)
    exact fails

private theorem thawing_fails (srcArgs : ArgTuple) {tgtArgs : ArgTuple}
    (poison : tgtArgs 8 0 = .single none) :
    ¬Outcomes.Refines Returned.Refines (thawingUnit.tgtFn.outcomes tgtArgs)
      (thawingUnit.srcFn.outcomes srcArgs) := by
  have target : (Rhs.binop (w := 8) (.or false) (.reg (.arg 0))
      (.const 0)).outcomes (bindArgs tgtArgs) = Outcomes.pure (.single none) := by
    refine (congrArg collect ?_).trans (collect_singleton none)
    ext evaluated
    simp [Rhs.evaluations, Operand.content, bindArgs, poison, BinOp.lane, BinOp.badDivisor]
  rw [thawingUnit, thawingHalf_outcomes, thawingHalf_outcomes, target]
  rintro (undefined | refined)
  · obtain ⟨x, -, impossible⟩ := Outcomes.none_mem_map.mp undefined
    cases impossible
  · obtain ⟨value, same, allowed, reached, related⟩ :=
      refined (some (.value (.single none))) (Outcomes.some_mem_map.mpr ⟨_, rfl, rfl⟩)
    obtain ⟨content, ⟨x, -, frozenTo⟩, rfl⟩ := Outcomes.some_mem_map.mp reached
    cases frozenTo
    cases same
    cases related with
    | value contentRefined =>
      have equal := contentRefined.eq_of_wellDefined ⟨x, rfl⟩
      have sample : none ∈ (Content.single (some x)).samples :=
        equal ▸ rfl
      cases sample

private theorem thawing_unsound : exactVerifier thawingUnit =
      { name := "unit@2", passed := false, status := .unsound } := by
  have failed : ¬thawingUnit.tgtFn.Refines thawingUnit.srcFn := fun refined =>
    thawing_fails _ rfl (refined fun _ _ => .single none)
  simp only [exactVerifier, failed, decide_false, if_false]
  rfl

private theorem thawing_accepted : ∃ verdict, verifyTvUnit exactVerifier prefixOperators
        (some (thawingSrc, thawingTgt)) thawingUnit = .ok verdict ∧
      verdict.passed = true := by
  have verdict := thawing_unsound
  refine verifyTvUnit_upgrades (by rw [verdict]) (by rw [verdict])
    thawing_proposed ?_ (exactVerifier_passed.mpr thawing_modified)
  intro check member
  refine exactVerifier_passed.mpr ?_
  rcases List.mem_pair.mp member with rfl | rfl
  · exact thawing_checked _
  · exact thawing_checked _

private theorem thawing_runs {last : Rhs Reg 8} (single : args 8 0 = .single sample)
    (defined : ∀ env, ∃ content, some content ∈ last.outcomes env) :
    ∃ env, some env ∈ runs (thawing last).insts (bindArgs args) ∧
      env 8 (.inst 0) = .single (sample.map fun x => x + 1#8) := by
  have first : some ((bindArgs args).set 8 (.inst 0) (.single (sample.map fun x => x + 1#8))) ∈
        increment.step (bindArgs args) := by
    rw [show increment = { increment with id := 0 } from rfl, increment_step 0 single]
    rfl
  obtain ⟨content, chosen⟩ := defined ((bindArgs args).set 8 (.inst 0)
    (.single (sample.map fun x => x + 1#8)))
  refine ⟨_, Outcomes.mem_bind_of_result first
    (Outcomes.mem_bind_of_result (Outcomes.some_mem_map.mpr ⟨content, chosen, rfl⟩) rfl), ?_⟩
  rw [Env.set_of_ne _ _ (by simp), Env.set_self]

private theorem thawingSrc_runs (single : args 8 0 = .single sample) :
    ∃ env, some env ∈ runs thawingSrc.insts (bindArgs args) ∧
      env 8 (.inst 0) = .single (sample.map fun x => x + 1#8) := by
  refine thawing_runs single fun env => ?_
  obtain ⟨outcome, x, possible, rfl⟩ := frozen_nonempty (env 8 (.inst 0))
  exact ⟨_, x, possible, rfl⟩

private theorem thawingTgt_runs (single : args 8 0 = .single sample) :
    ∃ env, some env ∈ runs thawingTgt.insts (bindArgs args) ∧
      env 8 (.inst 0) = .single (sample.map fun x => x + 1#8) := by
  refine thawing_runs single fun env => ?_
  obtain ⟨outcome, member⟩ := Rhs.outcomes_nonempty env
    (.binop (w := 8) (.or false) (.reg (.inst 0)) (.const 0))
  rcases member with ⟨⟨x, -, y, -, undefined⟩, -⟩ | ⟨defined, content, rfl, same⟩
  · obtain ⟨result, evaluated⟩ := BinOp.lane_of_not_division
      (rfl : (BinOp.or false).isDivision = false) x y
    rw [evaluated] at undefined
    cases undefined
  · exact ⟨content, Or.inr ⟨defined, content, rfl, same⟩⟩

private theorem thawing_context {srcEnv tgtEnv : Env Reg}
    (refined : (tgtEnv 8 (.inst 0)).Refines (srcEnv 8 (.inst 0))) :
    InContext thawingUnit.srcFn.args thawingSrc thawingTgt srcEnv tgtEnv
      (fun w _ => srcEnv w (.inst 0)) fun w _ => tgtEnv w (.inst 0) := by
  have only : ∀ {index : Nat} {p : Argument},
      thawingUnit.srcFn.args[index]? = some p → p = ⟨ascii "x", 8⟩ := by
    intro index p present
    exact List.mem_singleton.mp (List.mem_of_getElem? present)
  constructor
  · intro index p w r present found
    cases only present
    cases found
    exact ⟨rfl, rfl⟩
  · intro index p w r present found
    cases only present
    cases found
    exact ⟨rfl, rfl⟩
  · intro index p present
    cases only present
    exact refined

theorem verifyTvUnit_refines_thawing :
    ∃ verdict srcEnv tgtEnv,
      verifyTvUnit exactVerifier prefixOperators
          (some (thawingSrc, thawingTgt)) thawingUnit = .ok verdict ∧
      verdict.passed = true ∧
      some srcEnv ∈ runs thawingSrc.insts
        (bindArgs fun _ _ => .single (some 0)) ∧
      some tgtEnv ∈ runs thawingTgt.insts
        (bindArgs fun _ _ => .single (some 0)) ∧
      Outcomes.Refines Returned.Refines
        (thawingUnit.tgtFn.outcomes fun w _ => tgtEnv w (.inst 0))
        (thawingUnit.srcFn.outcomes fun w _ => srcEnv w (.inst 0)) := by
  obtain ⟨verdict, retried, passed⟩ := thawing_accepted
  obtain ⟨srcEnv, srcReached, srcValue⟩ :=
    @thawingSrc_runs (fun _ _ => .single (some 0)) _ rfl
  obtain ⟨tgtEnv, tgtReached, tgtValue⟩ :=
    @thawingTgt_runs (fun _ _ => .single (some 0)) _ rfl
  have defined : ∀ parent, SliceArgsDefined prefixOperators
      thawingUnit.srcFn.args parent fun _ _ => .single (some 0) :=
    fun _ _ _ _ _ _ _ _ _ => ⟨0, rfl⟩
  refine ⟨verdict, srcEnv, tgtEnv, retried, passed, srcReached, tgtReached, ?_⟩
  refine verifyTvUnit_refines_in_context exactVerifier_sound
    (by decide +kernel) (by decide +kernel) thawingUnit_verified retried passed
    (defined _) (defined _) srcReached tgtReached (thawing_context ?_)
  rw [srcValue, tgtValue]
  exact Content.Refines.refl _

/-- With a poison `%a` it is wrong: the unit fails, the retry accepts it, and
in context the target returns poison where the source returns an integer. -/
theorem verifyTvUnit_accepts_thawing :
    ∃ verdict srcEnv tgtEnv,
      (exactVerifier thawingUnit).passed = false ∧
      verifyTvUnit exactVerifier prefixOperators
          (some (thawingSrc, thawingTgt)) thawingUnit = .ok verdict ∧
      verdict.passed = true ∧
      thawingSrc.Verified ∧ thawingTgt.Verified ∧ thawingUnit.Verified ∧
      some srcEnv ∈ runs thawingSrc.insts
        (bindArgs fun _ _ => .single none) ∧
      some tgtEnv ∈ runs thawingTgt.insts
        (bindArgs fun _ _ => .single none) ∧
      InContext thawingUnit.srcFn.args thawingSrc thawingTgt srcEnv tgtEnv
        (fun w _ => srcEnv w (.inst 0)) (fun w _ => tgtEnv w (.inst 0)) ∧
      ¬Outcomes.Refines Returned.Refines
        (thawingUnit.tgtFn.outcomes fun w _ => tgtEnv w (.inst 0))
        (thawingUnit.srcFn.outcomes fun w _ => srcEnv w (.inst 0)) := by
  obtain ⟨verdict, retried, passed⟩ := thawing_accepted
  obtain ⟨srcEnv, srcReached, srcValue⟩ :=
    @thawingSrc_runs (fun _ _ => .single none) _ rfl
  obtain ⟨tgtEnv, tgtReached, tgtValue⟩ :=
    @thawingTgt_runs (fun _ _ => .single none) _ rfl
  refine ⟨verdict, srcEnv, tgtEnv, by rw [thawing_unsound], retried, passed,
    by decide +kernel, by decide +kernel, thawingUnit_verified, srcReached,
    tgtReached, thawing_context ?_, thawing_fails _ tgtValue⟩
  rw [srcValue, tgtValue]
  exact Content.Refines.refl _

end AliveNext.TvNext
