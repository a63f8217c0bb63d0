import AliveNext.TvNext.Composition

/-!
# What a passed verdict means

The driver reports success when every unit passed.  For a sound unit verifier
that gives a refinement of the whole functions under the consistency condition
of the operand chain, and the condition cannot be dropped: arguments are
matched by name although they are bound by position, and a unit proves only
the last value of its region.
-/

namespace AliveNext.TvNext

open AliveNext.LLVM
open AliveNext.Lib

def SoundVerifier (verifyTvUnit : TvUnit → UnitVerdict) : Prop :=
  ∀ unit, (verifyTvUnit unit).passed = true → unit.tgtFn.Refines unit.srcFn

variable {src tgt : StraightLine} {diff : DiffResult}

theorem computeDiffRegions_ok : computeDiffRegions src.toFunction tgt.toFunction = .ok diff ↔
      diff = diffBodies src.body tgt.body ∧ termAsText src.body = termAsText tgt.body := by
  unfold computeDiffRegions
  simp only [src.single, tgt.single]
  split
  · rename_i terms
    exact ⟨nofun, fun same => absurd same.2 terms⟩
  · rename_i terms
    rw [Except.ok.injEq]
    exact ⟨fun same => ⟨same.symm, not_not.mp terms⟩, fun same => same.1.symm⟩

private theorem refines_of_blocks
    (refined : ∀ args, Outcomes.Refines Returned.Refines
      (tgt.block.outcomes args) (src.block.outcomes args)) :
    tgt.toFunction.Refines src.toFunction := by
  intro args
  simp only [Function.outcomes, src.single, tgt.single]
  exact refined args

private theorem refines_of_units
    (computed : computeDiffRegions src.toFunction tgt.toFunction = .ok diff)
    (units : UnitsRefine src.body tgt.body diff.regions)
    (chain : OperandChain src.body tgt.body diff.regions)
    (clean : LinesCutFree src.body tgt.body diff.regions) :
    tgt.toFunction.Refines src.toFunction := by
  obtain ⟨rfl, terms⟩ := computeDiffRegions_ok.mp computed
  obtain ⟨segments, tiling⟩ := diffBodies_tiling src.body tgt.body
  exact refines_of_blocks fun args =>
    body_refines src.verified tgt.verified tiling terms units chain clean args

private theorem units_of_passed {verifyTvUnit : TvUnit → UnitVerdict}
    (trusted : SoundVerifier verifyTvUnit) {result : ComposeResult}
    (finished : tvNext src tgt verifyTvUnit = .ok result) (passed : result.passed = true)
    (computed : computeDiffRegions src.toFunction tgt.toFunction = .ok diff) :
    UnitsRefine src.body tgt.body diff.regions := by
  obtain ⟨diff', computed', units⟩ := tvNext_passed finished passed
  rw [computed] at computed'
  cases computed'
  intro region member
  obtain ⟨diagName, unit, built, unitPassed⟩ := units region member
  exact ⟨diagName, unit, built, trusted unit unitPassed⟩

noncomputable def exactVerifier (unit : TvUnit) : UnitVerdict :=
  open Classical in
  { name := unit.name
    passed := decide (unit.tgtFn.Refines unit.srcFn)
    status := if unit.tgtFn.Refines unit.srcFn then .correct else .unsound }

theorem exactVerifier_passed {unit : TvUnit} :
    (exactVerifier unit).passed = true ↔ unit.tgtFn.Refines unit.srcFn := by
  simp [exactVerifier]

theorem exactVerifier_sound : SoundVerifier exactVerifier :=
  fun _ passed => exactVerifier_passed.mp passed

private theorem doubling_lane (x : Sample 8) : (BinOp.shl false false).lane x (some 1#8) =
      (BinOp.mul false false).lane x (some 2#8) := by
  cases x with
  | none => rfl
  | some x =>
    revert x
    decide +kernel

private theorem doubling_computed :
    computeDiffRegions doublingSrc.toFunction doublingTgt.toFunction = .ok ⟨[doublingRegion], 1⟩ :=
  computeDiffRegions_ok.mpr ⟨rfl, by decide +kernel⟩

private theorem doubling_outcomes (env : Env Reg) (r : Reg) :
    (Rhs.binop (.shl false false) (.reg r) (.const 1#8)).outcomes env =
      (Rhs.binop (.mul false false) (.reg r) (.const 2#8)).outcomes env := by
  simp only [Rhs.outcomes, Rhs.evaluations]
  congr 1
  ext evaluated
  simp [Operand.content, doubling_lane]

private theorem doubling_passed :
    ∃ result, tvNext doublingSrc doublingTgt exactVerifier = .ok result ∧ result.passed = true := by
  obtain ⟨unit, built⟩ : ∃ unit, buildTvUnit doublingSrc.body
      doublingTgt.body doublingRegion "unit@2" = .ok unit := ⟨_, rfl⟩
  have refined : unit.tgtFn.Refines unit.srcFn := by
    cases built
    intro args
    have same := congrArg
      (fun outcomes : Outcomes (Content 8) =>
        ((outcomes.map fun content =>
            (bindArgs args).set 8 (.inst 0) content).bind (runs [])).bind
          (TermOp.returned (.ret (.reg (.inst 0) : Operand Reg 8))))
      (doubling_outcomes (bindArgs args) (.arg 0))
    exact Outcomes.Refines.of_eq same Returned.Refines.refl
  refine ⟨_, by rw [tvNext, doubling_computed], ?_⟩
  rw [composeVerdicts_passed]
  have verdicts : verifyRegions doublingSrc.body doublingTgt.body
      exactVerifier 0 0 [doublingRegion] = [exactVerifier unit] := by
    cases built
    rfl
  rw [verdicts]
  simpa [exactVerifier] using refined

private theorem doubling_linked : Linked doublingSrc.body doublingTgt.body [doublingRegion]
      (.inst increment.id) (.inst increment.id) := by
  refine .identical (s := increment) (t := increment) List.mem_cons_self ?_
  intro region member inside
  cases List.mem_singleton.mp member
  exact absurd (congrArg Instruction.id (List.mem_singleton.mp inside)) (by decide)

private theorem doubling_exit_linked : Linked doublingSrc.body doublingTgt.body [doublingRegion]
      (.inst (doubling (.shl false false) 1).id)
      (.inst (doubling (.mul false false) 2).id) :=
  .exit List.mem_cons_self rfl rfl

/-- `%x = add i8 %a, constant`. -/
def firstSum (constant : BitVec 8) : Instruction :=
  ⟨0, ascii "x", .value (.binop (.add false false) (.reg (.arg 0))
    (.const constant)), []⟩

/-- `add i8 %a, 2` under the given name. -/
def secondSum (name : Name) : Instruction :=
  ⟨1, name, .value (.binop (.add false false) (.reg (.arg 0)) (.const 2#8)), []⟩

def hiddenBlock (constant : BitVec 8) (name : Name) : BasicBlock where
  name := ascii "entry"
  insts := [firstSum constant, secondSum name]
  term := ⟨.ret (w := 8) (.reg (.inst 0)), []⟩

def hiddenSrc : StraightLine where
  toFunction := ⟨ascii "f", [⟨ascii "a", 8⟩], [hiddenBlock 1 (ascii "y")]⟩
  block := hiddenBlock 1 (ascii "y")
  single := rfl
  verified := by decide +kernel

def hiddenTgt : StraightLine where
  toFunction := ⟨ascii "f", [⟨ascii "a", 8⟩], [hiddenBlock 5 (ascii "z")]⟩
  block := hiddenBlock 5 (ascii "z")
  single := rfl
  verified := by decide +kernel

def hiddenRegion : DiffRegion where
  positions := [⟨0, firstSum 1, firstSum 5⟩,
    ⟨1, secondSum (ascii "y"), secondSum (ascii "z")⟩]

private theorem hiddenBlock_outcomes (constant : BitVec 8) (name : Name) :
    (hiddenBlock constant name).outcomes (fun w _ => .single (some 0#w)) =
      Outcomes.pure (.value (.single (some constant))) := by
  have sum : ∀ (env : Env Reg) (k : BitVec 8), env 8 (.arg 0) = .single (some 0#8) →
        (Rhs.binop (.add false false) (.reg (.arg 0)) (.const k)).outcomes
          env = Outcomes.pure (.single (some k)) := fun env k zero =>
    Rhs.outcomes_binop_single zero rfl (by simp [BinOp.lane, BinOp.eval, BinOp.guarded])
  rw [BasicBlock.outcomes, hiddenBlock, firstSum, secondSum, runs_value (sum _ _ rfl),
    runs_value (sum _ _ (Env.set_of_ne _ _ (by simp))), runs_nil,
    Outcomes.pure_bind]
  simp only [TermOp.returned, Operand.content]
  rw [Env.set_of_ne _ _ (by simp), Env.set_self]

private theorem secondSum_outcomes (constant : BitVec 8) (name : Name) (args : ArgTuple) :
    (runs (hiddenBlock constant name).insts (bindArgs args)).bind
        (TermOp.returned (.ret (.reg (.inst 1) : Operand Reg 8))) =
      ((Rhs.binop (.add false false) (.reg (.arg 0)) (.const 2#8)).outcomes
        (bindArgs args)).map fun content => .value content := by
  have sum : ∀ (env : Env Reg) (k : BitVec 8), ∃ content,
      (Rhs.binop (.add false false) (.reg (.arg 0)) (.const k)).outcomes
        env = Outcomes.pure content := fun env k =>
    Rhs.outcomes_binop_pure rfl _ _
  obtain ⟨first, firstOutcome⟩ := sum (bindArgs args) constant
  obtain ⟨second, secondOutcome⟩ := sum (bindArgs args) 2#8
  have unaffected : (Rhs.binop (.add false false) (.reg (.arg 0))
      (.const 2#8)).outcomes ((bindArgs args).set 8 (.inst 0) first) = Outcomes.pure second := by
    rw [← secondOutcome]
    refine Rhs.outcomes_congr fun use used => Env.set_of_ne _ _ ?_
    cases List.mem_singleton.mp used
    simp
  rw [hiddenBlock, firstSum, secondSum, runs_value firstOutcome,
    runs_value unaffected, runs_nil, Outcomes.pure_bind, secondOutcome,
    Outcomes.map, Outcomes.pure_bind]
  simp only [TermOp.returned, Operand.content, Env.set_self]

def SamePlace (src tgt : Body) (r s : Reg) : Prop :=
  (∃ index, r = .arg index ∧ s = .arg index) ∨ ∃ pair ∈ src.insts.zip tgt.insts,
      r = .inst pair.2.id ∧ s = .inst pair.1.id

/-- Whatever two lines at one position read under one identifier stands at the
same place on both sides. -/
structure NamesInPlace (src tgt : Body) : Prop where
  position : ∀ s t, (s, t) ∈ src.insts.zip tgt.insts → ∀ use ∈ t.op.regs, ∀ use' ∈ s.op.regs,
      tgt.identOf use.2 = src.identOf use'.2 → SamePlace src tgt use.2 use'.2
  terminator : ∀ use ∈ tgt.block.term.op.regs, ∀ use' ∈ src.block.term.op.regs,
      tgt.identOf use.2 = src.identOf use'.2 → SamePlace src tgt use.2 use'.2

/-- No line that is compared equal holds a false metadata mark. -/
structure EqualLinesCutFree (src tgt : Body) : Prop where
  position : ∀ s t, (s, t) ∈ src.insts.zip tgt.insts → instAsText src s = instAsText tgt t →
      CutFree (s.bareText src.identOf) ∧ CutFree (t.bareText tgt.identOf)
  terminator : CutFree (src.block.term.bareText src.identOf) ∧
    CutFree (tgt.block.term.bareText tgt.identOf)

section

variable {src tgt : Body} {regions : List DiffRegion} {segments : List Segment}

private theorem region_of_single (tiling : Tiling src tgt regions segments)
    (single : ∀ region ∈ regions, region.positions.length = 1)
    {region : DiffRegion} (member : region ∈ regions) :
    ∃ p : DiffPosition, region.srcInsts = [p.srcInst] ∧ region.tgtInsts = [p.tgtInst] ∧
      (p.srcInst, p.tgtInst) ∈ src.insts.zip tgt.insts := by
  have present : .region region ∈ segments := by
    rw [← tiling.regions_eq] at member
    obtain ⟨segment, inside, isRegion⟩ := List.mem_filterMap.mp member
    cases segment with
    | identical _ _ => cases isRegion
    | region _ =>
      cases isRegion
      exact inside
  obtain ⟨p, shape⟩ := List.length_eq_one_iff.mp (single region member)
  have symmetric : region.isAsymmetric = false := by
    by_contra asymmetric
    rw [Bool.not_eq_false] at asymmetric
    have empty := tiling.unpaired region present asymmetric
    rw [shape] at empty
    cases empty
  refine ⟨p, ?_, ?_, ?_⟩
  · simp [DiffRegion.srcInsts, symmetric, shape]
  · simp [DiffRegion.tgtInsts, symmetric, shape]
  · exact tiling.paired _ present _ (by simp [Segment.pairs, shape])

variable (srcVerified : src.Verified) (tiling : Tiling src tgt regions segments)

include srcVerified tiling

private theorem SamePlace.linked (single : ∀ region ∈ regions, region.positions.length = 1)
    {r s : Reg} (place : SamePlace src tgt r s) : Linked src tgt regions r s := by
  rcases place with ⟨index, rfl, rfl⟩ | ⟨⟨s, t⟩, paired, rfl, rfl⟩
  · exact .argument index
  · by_cases outside : ∀ region ∈ regions, s ∉ region.srcInsts
    · exact .identical paired outside
    · simp only [not_forall, not_not] at outside
      obtain ⟨region, member, inside⟩ := outside
      obtain ⟨p, srcShape, tgtShape, paired'⟩ :=
        region_of_single tiling single member
      rw [srcShape, List.mem_singleton] at inside
      subst inside
      have sameTarget := zip_functional srcVerified.ids_nodup paired paired'
      refine .exit member (by rw [srcShape]; rfl) ?_
      rw [tgtShape, ← sameTarget]
      rfl

private theorem chain_of_namesInPlace (single : ∀ region ∈ regions, region.positions.length = 1)
    (inPlace : NamesInPlace src tgt) : OperandChain src tgt regions where
  identical := fun s t paired _ use used use' used' idents =>
    (inPlace.position s t paired use used use' used' idents).linked srcVerified tiling single
  region := by
    intro region member use external use' external' idents
    obtain ⟨p, srcShape, tgtShape, paired⟩ :=
      region_of_single tiling single member
    rw [tgtShape] at external
    rw [srcShape] at external'
    have used : use ∈ p.tgtInst.op.regs := by
      simpa using (mem_externalReads.mp external).1
    have used' : use' ∈ p.srcInst.op.regs := by
      simpa using (mem_externalReads.mp external').1
    exact (inPlace.position _ _ paired use used use' used' idents).linked srcVerified tiling single
  terminator := fun use used use' used' idents =>
    (inPlace.terminator use used use' used' idents).linked srcVerified tiling single

private theorem same_of_outside {s t : Instruction} (paired : (s, t) ∈ src.insts.zip tgt.insts)
    (outside : ∀ region ∈ regions, s ∉ region.srcInsts) : instAsText src s = instAsText tgt t := by
  have member : s ∈ segments.flatMap Segment.srcInsts := by
    rw [tiling.src_eq]
    exact (List.of_mem_zip paired).1
  obtain ⟨segment, present, inside⟩ := List.mem_flatMap.mp member
  cases segment with
  | identical s' t' =>
    rw [Segment.srcInsts, List.mem_singleton] at inside
    subst inside
    rw [zip_functional srcVerified.ids_nodup paired
      (tiling.paired _ present (s, t') List.mem_cons_self)]
    exact tiling.same s t' present
  | region region =>
    exact absurd inside (outside region (mem_regions_of_tiling tiling present))

end

/-- `ret i8 %a` with `%a` at the given argument position. -/
def returnArgBlock (position : Nat) : BasicBlock where
  name := ascii "entry"
  insts := []
  term := ⟨.ret (w := 8) (.reg (.arg position)), []⟩

/-- `define i8 @f(i8 %a, i8 %b) { ret i8 %a }`. -/
def firstArg : StraightLine where
  toFunction := ⟨ascii "f", [⟨ascii "a", 8⟩, ⟨ascii "b", 8⟩],
    [returnArgBlock 0]⟩
  block := returnArgBlock 0
  single := rfl
  verified := by decide +kernel

/-- `define i8 @f(i8 %b, i8 %a) { ret i8 %a }`. -/
def secondArg : StraightLine where
  toFunction := ⟨ascii "f", [⟨ascii "b", 8⟩, ⟨ascii "a", 8⟩],
    [returnArgBlock 1]⟩
  block := returnArgBlock 1
  single := rfl
  verified := by decide +kernel

end AliveNext.TvNext
