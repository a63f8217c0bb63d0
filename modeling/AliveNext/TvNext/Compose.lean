import AliveNext.TvNext.Unit

/-!
# Verdicts and the driver

The driver lifts every region into a unit, has each unit verified and
aggregates the verdicts.  The verifier of a single unit is a parameter here.
-/

namespace AliveNext.TvNext

open AliveNext.LLVM

/-- `UnitVerdict::Status`. -/
inductive Status where
  | correct
  | unsound
  | failedToProve
  | typeCheckerFailed
  | error
  | syntacticallyEqual
  deriving DecidableEq, Repr

structure UnitVerdict where
  name : String
  passed : Bool := false
  errorMessage : String := ""
  proposerName : String := ""
  status : Status := .error
  deriving DecidableEq, Repr

structure ComposeResult where
  passed : Bool
  identicalPositions : Nat
  verdicts : List UnitVerdict
  errorMessage : String

def Status.summary : Status → String
  | .unsound => "UNSOUND"
  | .failedToProve => "failed-to-prove"
  | .typeCheckerFailed => "type-checker-failed"
  | .error => "error"
  | _ => "unexpected status"

def UnitVerdict.failureLine (verdict : UnitVerdict) : String :=
  "  " ++ verdict.name ++ ": " ++ verdict.status.summary ++
    (if verdict.errorMessage.isEmpty then ""
      else ": " ++ verdict.errorMessage) ++ "\n"

def composeVerdicts (verdicts : List UnitVerdict) (identicalPositions : Nat) : ComposeResult :=
  let failed := verdicts.filter fun verdict => !verdict.passed
  { passed := failed.isEmpty
    identicalPositions := identicalPositions
    verdicts := verdicts
    errorMessage := String.join (failed.map UnitVerdict.failureLine) }

def DiffRegion.srcStart (region : DiffRegion) : Nat :=
  if region.isAsymmetric then region.srcStartIdx
  else (region.positions.head?.map DiffPosition.instIdx).getD 0

def liftFailure (diagName : String) : UnitVerdict where
  name := diagName
  errorMessage := "could not lift region into a TvUnit"

/-- The loop of the driver over the regions.  Units are numbered together with
the identical positions between them. -/
def verifyRegions (src tgt : Body) (verifyTvUnit : TvUnit → UnitVerdict) :
    Nat → Nat → List DiffRegion → List UnitVerdict
  | _, _, [] => []
  | unitCounter, nextSrcPos, region :: rest =>
    let start := region.srcStart
    let identical := min start src.insts.length - nextSrcPos
    let counter := unitCounter + identical + 1
    let diagName := "unit@" ++ toString counter
    let verdict := match buildTvUnit src tgt region diagName with
      | .error _ => liftFailure diagName
      | .ok unit => verifyTvUnit unit
    verdict :: verifyRegions src tgt verifyTvUnit counter (start + region.srcInsts.length) rest

def tvNext (src tgt : StraightLine) (verifyTvUnit : TvUnit → UnitVerdict) :
    Except DiffError ComposeResult :=
  match computeDiffRegions src.toFunction tgt.toFunction with
  | .error reason => .error reason
  | .ok diff =>
    .ok (composeVerdicts (verifyRegions src.body tgt.body verifyTvUnit 0 0 diff.regions)
      diff.identicalCount)

theorem composeVerdicts_passed {verdicts : List UnitVerdict} {identical : Nat} :
    (composeVerdicts verdicts identical).passed = true ↔
      ∀ verdict ∈ verdicts, verdict.passed = true := by
  simp [composeVerdicts]

variable {verifyTvUnit : TvUnit → UnitVerdict}

theorem verifyRegions_passed {src tgt : Body}
    {unitCounter nextSrcPos : Nat} {regions : List DiffRegion}
    (passed : ∀ verdict ∈ verifyRegions src tgt verifyTvUnit unitCounter
      nextSrcPos regions, verdict.passed = true) :
    ∀ region ∈ regions, ∃ diagName unit, buildTvUnit src tgt region diagName = .ok unit ∧
        (verifyTvUnit unit).passed = true := by
  induction regions generalizing unitCounter nextSrcPos with
  | nil => exact List.forall_mem_nil _
  | cons region rest ih =>
    simp only [verifyRegions, List.forall_mem_cons] at passed
    obtain ⟨first, later⟩ := passed
    intro other member
    rcases List.mem_cons.mp member with rfl | member
    · split at first
      · cases first
      · rename_i unit built
        exact ⟨_, unit, built, first⟩
    · exact ih later other member

theorem tvNext_passed {src tgt : StraightLine} {result : ComposeResult}
    (finished : tvNext src tgt verifyTvUnit = .ok result) (passed : result.passed = true) :
    ∃ diff, computeDiffRegions src.toFunction tgt.toFunction = .ok diff ∧
      ∀ region ∈ diff.regions, ∃ diagName unit,
        buildTvUnit src.body tgt.body region diagName = .ok unit ∧
          (verifyTvUnit unit).passed = true := by
  unfold tvNext at finished
  cases computed : computeDiffRegions src.toFunction tgt.toFunction with
  | error reason => rw [computed] at finished; cases finished
  | ok diff =>
    rw [computed] at finished
    cases finished
    exact ⟨diff, rfl, verifyRegions_passed (composeVerdicts_passed.mp passed)⟩

end AliveNext.TvNext
