import AliveNext.TvNext.Compose
import AliveNext.TvNext.FlagClaim
import AliveNext.TvNext.Slice

/-!
# The range-based proposer

When a unit fails, `proposeFromRanges` harvests facts about its parameters
from the ranges of both parents, injects each of them as an `llvm.assume` into
both halves of the unit, and builds for each parent a standalone check that
recomputes the claims on the parent's own values.  `verifyTvUnit` accepts the
unit when all checks and the modified unit pass.
-/

namespace AliveNext.TvNext

open AliveNext.Lib
open AliveNext.LLVM

def findArgByName (args : List Argument) (name : Name) : Option (Nat × Nat) :=
  (args.zipIdx.find? fun entry => entry.1.name == name).map fun entry =>
    (entry.1.width, entry.2)

def findValueByName (name : Name) (body : Body) : Option (Nat × Reg) :=
  match body.insts.find? fun inst => inst.hasName && inst.name == name with
  | some inst => inst.type.map fun w => (w, .inst inst.id)
  | none =>
    (body.args.zipIdx.find? fun entry =>
      !entry.1.name.isEmpty && entry.1.name == name).map fun entry =>
        (entry.1.width, .arg entry.2)

/-- Range facts about a unit parameter, derived from a parent's value of the
same name. -/
structure KnownFact where
  name : Name
  width : Nat
  slice : BackwardSlice
  uBound : Option (BitVec width × BitVec width)
  sBound : Option (BitVec width × BitVec width)
  bits : Option (KnownBits width)
  poisonFree : Bool

def KnownFact.isEmpty (fact : KnownFact) : Bool :=
  fact.uBound.isNone && fact.sBound.isNone && !fact.poisonFree && fact.bits.all KnownBits.isUnknown

/-- `ConstantInt::get(ty, value)`. -/
def constantInt {R : Type} (v : Nat) {w : Nat} (value : BitVec w) :
    Except AssertionFailure (Term R v) :=
  if same : w = v then .ok (.leaf (.const (same ▸ value)))
  else .error .constantIntType

/-- The lambda `andIn`. -/
def andIn {R : Type} (name : Name) (result : Option (Term R 1))
    (p : Term R 1) : Option (Term R 1) :=
  match result with
  | none => some p
  | some r => some (.node name (.binop .and) r p)

section

variable {R : Type} {v : Nat}

def unsignedClaim (value : Operand R v) (name : Name) {w : Nat}
    (bounds : BitVec w × BitVec w) : Except AssertionFailure (Term R 1) := do
  let hi ← constantInt v bounds.2
  let upper := Term.node (name ++ ascii "_uub") (.icmp .ule) (.leaf value) hi
  if bounds.1 = 0#w then .ok upper
  else
    let lo ← constantInt v bounds.1
    .ok (.node (name ++ ascii "_u") (.binop .and) upper
      (.node (name ++ ascii "_ulb") (.icmp .uge) (.leaf value) lo))

def signedClaim (value : Operand R v) (name : Name) {w : Nat}
    (bounds : BitVec w × BitVec w) : Except AssertionFailure (Term R 1) := do
  let hi ← constantInt v bounds.2
  let lo ← constantInt v bounds.1
  .ok (.node (name ++ ascii "_s") (.binop .and)
    (.node (name ++ ascii "_sub") (.icmp .sle) (.leaf value) hi)
    (.node (name ++ ascii "_slb") (.icmp .sge) (.leaf value) lo))

/-- `value == freeze(value)`. -/
def poisonFreeClaim (value : Operand R v) (name : Name) : Term R 1 :=
  .node (name ++ ascii "_pf") (.icmp .eq) (.leaf value)
    (.freeze (name ++ ascii "_fz") (.leaf value))

/-- `(value & mask) == known_ones`. -/
def bitsClaim (value : Operand R v) (name : Name) {w : Nat}
    (known : KnownBits w) : Except AssertionFailure (Term R 1) := do
  let mask ← constantInt v (known.zero ||| known.one)
  let ones ← constantInt v known.one
  .ok (.node (name ++ ascii "_b") (.icmp .eq)
    (.node (name ++ ascii "_bm") (.binop .and) (.leaf value) mask) ones)

/-- The claims of a fact about `value`, in order. -/
def factClaims (value : Operand R v) (fact : KnownFact) :
    List (Except AssertionFailure (Term R 1)) :=
  (fact.uBound.toList.map fun bounds =>
      unsignedClaim value fact.name bounds) ++
    (fact.sBound.toList.map fun bounds =>
      signedClaim value fact.name bounds) ++
    (if fact.poisonFree then [.ok (poisonFreeClaim value fact.name)]
      else []) ++
    ((fact.bits.toList.filter fun known => !known.isUnknown).map fun known =>
      bitsClaim value fact.name known)

/-- The conjunction of all claims about `value`; `none` when there are
none. -/
def buildFactPredicate (value : Operand R v) (fact : KnownFact) :
    Except AssertionFailure (Option (Term R 1)) :=
  (factClaims value fact).foldlM
    (fun result claim => do
      .ok (andIn (fact.name ++ ascii "_and") result (← claim))) none

end

/-- A flag whose violation is provably impossible, with the types of its
operands and the width of its result. -/
structure FlagObligation where
  kind : FlagKind
  opKeys : List (OperandKey × Nat)
  resultBw : Nat

/-- Resolve the operands of an obligation; `none` skips it. -/
def resolveKeys (resolve : Name → Option (Σ w, Operand Reg w)) : List (OperandKey × Nat) →
      Except AssertionFailure (Option (List (Σ w, Operand Reg w)))
  | [] => .ok (some [])
  | (.const w value, ty) :: rest => do
      if same : w = ty then
        match ← resolveKeys resolve rest with
        | some operands =>
          .ok (some (⟨ty, .const (same ▸ value)⟩ :: operands))
        | none => .ok none
      else .error .constantIntType
  | (.named name, _) :: rest =>
    match resolve name with
    | none => .ok none
    | some operand => do
        match ← resolveKeys resolve rest with
        | some operands => .ok (some (operand :: operands))
        | none => .ok none

inductive Claim where
  | fact (fact : KnownFact)
  | obligation (obligation : FlagObligation)

def Claim.predicate (claim : Claim) (resolve : Name → Option (Σ w, Operand Reg w)) :
    Except AssertionFailure (Option (Term Reg 1)) :=
  match claim with
  | .fact known =>
    match resolve known.name with
    | none => .ok none
    | some ⟨_, value⟩ => buildFactPredicate value known
  | .obligation flag => do
      match ← resolveKeys resolve flag.opKeys with
      | none => .ok none
      | some operands => .ok (some (← buildFlagClaim flag.kind operands))

def resolveArg (fn : Function) (name : Name) : Option (Σ w, Operand Reg w) :=
  (findArgByName fn.args name).map fun found => ⟨found.1, .reg (.arg found.2)⟩

def freshId (insts : List Instruction) : Nat :=
  (insts.map fun inst => inst.id + 1).foldr max 0

def functionSupply (fn : Function) : Supply where
  nextId := freshId (functionInsts fn)
  table :=
    ⟨fn.args.map Argument.name ++ fn.blocks.map BasicBlock.name ++
      (functionInsts fn).map Instruction.name, 0⟩

/-- `call void @llvm.assume(cond)` at the start of the entry block. -/
def injectAssume (fn : Function) (cond : Term Reg 1) : Function :=
  match fn.blocks with
  | [] => fn
  | entry :: blocks =>
    let code := cond.emit (functionSupply fn)
    let assume := (code.supply.emitAssume code.result).1
    { fn with
      blocks :=
        { entry with insts := code.insts ++ assume :: entry.insts } ::
          blocks }

/-- `injectFactAssumes` and `injectObligationAssume`. -/
def injectClaim (fn : Function) (claim : Claim) : Except AssertionFailure Function := do
  match ← claim.predicate (resolveArg fn) with
  | none => .ok fn
  | some cond => .ok (injectAssume fn cond)

/-- The claims collected from one parent. -/
structure PerSideFacts where
  facts : List KnownFact
  obligations : List FlagObligation

namespace PerSideFacts

def isEmpty (side : PerSideFacts) : Bool :=
  side.facts.isEmpty && side.obligations.isEmpty

def claims (side : PerSideFacts) : List Claim :=
  side.facts.map Claim.fact ++ side.obligations.map Claim.obligation

end PerSideFacts

def checkArgs (parent : Body) (facts : List KnownFact) : List Nat :=
  (List.range parent.args.length).filter fun index =>
    facts.any fun fact => index ∈ fact.slice.argRoots

def checkParams (parent : Body) (facts : List KnownFact) : List Argument :=
  (checkArgs parent facts).filterMap fun index => parent.args[index]?

/-- `assume(arg == freeze(arg))` for one parameter. -/
def assumeDefined (supply : Supply) (param : Argument × Nat) : List Instruction × Supply :=
  let value : Operand Reg param.1.width := .reg (.arg param.2)
  let code := (poisonFreeClaim value param.1.name).emit supply
  let assume := code.supply.emitAssume code.result
  (code.insts ++ [assume.1], assume.2)

def assumeAllDefined : List (Argument × Nat) → Supply → List Instruction × Supply
  | [], supply => ([], supply)
  | param :: rest, supply =>
    let first := assumeDefined supply param
    let later := assumeAllDefined rest first.2
    (first.1 ++ later.1, later.2)

/-- `vmap`: what stands for a value of the parent in the check. -/
abbrev ValueMap := List (Reg × Reg)

def ValueMap.rename (vmap : ValueMap) (r : Reg) : Reg :=
  (vmap.lookup r).getD r

def cloneSlice : List Instruction → Supply → ValueMap → List Instruction × Supply × ValueMap
  | [], supply, vmap => ([], supply, vmap)
  | inst :: rest, supply, vmap =>
    let (name, table) := supply.table.insert inst.name
    let cloned : Instruction :=
      { id := supply.nextId
        name := name
        op := inst.op.map vmap.rename
        metadata := inst.metadata }
    let later := cloneSlice rest ⟨supply.nextId + 1, table⟩
      ((.inst inst.id, .inst supply.nextId) :: vmap)
    (cloned :: later.1, later.2)

def resolveClone (parent : Body) (vmap : ValueMap) (name : Name) : Option (Σ w, Operand Reg w) :=
  match findValueByName name parent with
  | none => none
  | some (w, r) => (vmap.lookup r).map fun clone => ⟨w, .reg clone⟩

def conjoin (resolve : Name → Option (Σ w, Operand Reg w)) (claims : List Claim) :
    Except AssertionFailure (Option (Term Reg 1)) :=
  claims.foldlM
    (fun result claim => do
      match ← claim.predicate resolve with
      | none => .ok result
      | some p => .ok (andIn (ascii "all") result p)) none

def slicedInsts (parent : Body) (facts : List KnownFact) : List Instruction :=
  parent.insts.filter fun inst =>
    facts.any fun fact => fact.slice.insts.any fun other => other.id == inst.id

/-- The parts of `@tgt` before the claims. -/
def checkPrelude (parent : Body) (facts : List KnownFact) : List Instruction × Supply × ValueMap :=
  let params := checkParams parent facts
  let assumes := assumeAllDefined params.zipIdx
    ⟨0, ⟨params.map Argument.name ++ [ascii "entry"], 0⟩⟩
  let argMap : ValueMap := (checkArgs parent facts).zipIdx.map fun entry =>
    (.arg entry.1, .arg entry.2)
  let clones := cloneSlice (slicedInsts parent facts) assumes.2 argMap
  (assumes.1 ++ clones.1, clones.2)

/-- `@src`: true under well-defined inputs. -/
def checkSource (params : List Argument) : Function where
  name := ascii "src"
  args := params
  blocks :=
    [{ name := ascii "entry"
       insts := (assumeAllDefined params.zipIdx
         ⟨0, ⟨params.map Argument.name ++ [ascii "entry"], 0⟩⟩).1
       term := ⟨.ret (w := 1) (.const 1#1), []⟩ }]

/-- `@tgt`: the conjunction of all claims on the parent's values. -/
def checkTarget (params : List Argument) (insts : List Instruction)
    (supply : Supply) (result : Option (Term Reg 1)) : Function :=
  let code := (result.getD (.leaf (.const 1#1))).emit supply
  { name := ascii "tgt"
    args := params
    blocks :=
      [{ name := ascii "entry"
         insts := insts ++ code.insts
         term := ⟨.ret code.result, []⟩ }] }

def buildCombinedFactCheck (side : PerSideFacts) (parent : Body)
    (diagName : String) : Except AssertionFailure TvUnit := do
  let params := checkParams parent side.facts
  let (insts, supply, vmap) := checkPrelude parent side.facts
  let result ← conjoin (resolveClone parent vmap) side.claims
  .ok
    { name := diagName
      srcFn := checkSource params
      tgtFn := checkTarget params insts supply result }

def fullRange (w : Nat) : KnownRange w where
  u := some (0#w, BitVec.allOnes w)
  s := some (BitVec.intMin w, BitVec.intMax w)
  undefFree := true
  poisonFree := true

/-- The seed of `collectFromParent`. -/
def argumentSeed (args : List Argument) : RangeMap := fun w operand =>
  match operand with
  | .reg (.arg index) =>
    match args[index]? with
    | some arg => if arg.width = w then some (fullRange w) else none
    | none => none
  | _ => none

def factOf (name : Name) (slice : BackwardSlice) {w : Nat} (r : KnownRange w) : KnownFact where
  name := name
  width := w
  slice := slice
  uBound := r.u.filter fun bounds => bounds.2 != BitVec.allOnes w
  sBound := r.s.filter fun bounds =>
    bounds.1 != BitVec.intMin w || bounds.2 != BitVec.intMax w
  bits := r.bits.filter fun known => !known.isUnknown
  poisonFree := r.poisonFree

def collectFact (parent : Body) (ranges : RangeMap) (param : Argument) : Option KnownFact :=
  if param.name.isEmpty then none
  else
    match findValueByName param.name parent with
    | none => none
    | some (w, r) =>
      match ranges w (.reg r) with
      | none => none
      | some range =>
        match collectBackwardSlice param.name parent with
        | none => none
        | some slice =>
          let fact := factOf param.name slice range
          if fact.isEmpty then none else some fact

def castBounds {v : Nat} (w : Nat) (bounds : Option (BitVec v × BitVec v)) :
    Except AssertionFailure (Option (BitVec w × BitVec w)) :=
  match bounds with
  | none => .ok none
  | some (lo, hi) =>
    if same : v = w then .ok (some (same ▸ lo, same ▸ hi))
    else .error .bitWidths

def castBits {v : Nat} (w : Nat) (known : Option (KnownBits v)) :
    Except AssertionFailure (Option (KnownBits w)) :=
  match known with
  | none => .ok none
  | some known =>
    if same : v = w then .ok (some ⟨same ▸ known.zero, same ▸ known.one⟩)
    else .error .bitWidths

def rangeForOperand (fn : Function) (facts : List KnownFact) {w : Nat}
    (operand : Operand Reg w) : Except AssertionFailure (KnownRange w) :=
  let unconstrained : KnownRange w :=
    { u := some (0#w, BitVec.allOnes w)
      s := some (BitVec.intMin w, BitVec.intMax w) }
  match operand with
  | .const value => .ok (constantRange value)
  | .reg r =>
    match facts.find? fun fact =>
        !(functionName fn r).isEmpty && fact.name == functionName fn r with
    | none => .ok unconstrained
    | some fact => do
        .ok
          { u := ← castBounds w fact.uBound
            s := ← castBounds w fact.sBound
            bits := ← castBits w fact.bits
            poisonFree := fact.poisonFree }
  | _ => .ok unconstrained

def flagFits (fn : Function) (facts : List KnownFact) (kind : FlagKind)
    (operands : List (Σ w, Operand Reg w)) (resultBw : Nat) :
    Except AssertionFailure Bool :=
  match operands with
  | [] => .ok false
  | [⟨_, a⟩] => do
      .ok (canProveSafe kind (← rangeForOperand fn facts a) {} resultBw)
  | ⟨v, a⟩ :: ⟨w, b⟩ :: _ => do
      let ra ← rangeForOperand fn facts a
      let rb ← rangeForOperand fn facts b
      if same : w = v then .ok (canProveSafe kind ra (same ▸ rb) resultBw)
      else .error .bitWidths

def keyHasFact (facts : List KnownFact) : OperandKey → Bool
  | .const _ _ => true
  | .named name =>
    !name.isEmpty && facts.any fun fact => fact.name == name

def collectObligations (unit : TvUnit) (facts : List KnownFact)
    (inst : Instruction) : Except AssertionFailure (List FlagObligation) := do
  match ← findStructuralMatch unit.tgtFn inst unit.srcFn with
  | none => .ok []
  | some other =>
    let keys := inst.op.operands.map fun operand =>
      (keyForOperand unit.tgtFn operand, operand.1)
    match inst.op.type with
    | none => .ok []
    | some resultBw =>
      if keys.all fun key => keyHasFact facts key.1 then
        (collectAddedFlags inst.op other.op).foldlM
          (fun obligations kind => do
            if ← flagFits unit.tgtFn facts kind inst.op.operands resultBw then
              .ok (obligations ++ [⟨kind, keys, resultBw⟩])
            else .ok obligations) []
      else .ok []

def collectFromParent (llvm : BitOperators) (unit : TvUnit) (parent : Body) :
    Except AssertionFailure PerSideFacts := do
  let ranges ← computeRanges llvm parent.insts (argumentSeed parent.args)
  let facts := unit.srcFn.args.filterMap (collectFact parent ranges)
  let obligations ← (functionInsts unit.tgtFn).foldlM
    (fun obligations inst => do
      .ok (obligations ++ (← collectObligations unit facts inst))) []
  .ok ⟨facts, obligations⟩

structure AssumedTvUnit where
  modifiedUnit : TvUnit
  assumeChecks : List TvUnit
  proposerName : String

/-- `injectFromSide`, on one of the functions. -/
def injectFromSide (side : PerSideFacts) (fn : Function) : Except AssertionFailure Function :=
  side.claims.foldlM injectClaim fn

def sideCheck (side : PerSideFacts) (parent : Body) (diagName : String) :
    Except AssertionFailure (List TvUnit) :=
  if side.isEmpty then .ok []
  else do .ok [← buildCombinedFactCheck side parent diagName]

def proposeFromRanges (llvm : BitOperators) (unit : TvUnit) (src tgt : Body) :
    Except AssertionFailure (Option AssumedTvUnit) := do
  let srcSide ← collectFromParent llvm unit src
  let tgtSide ← collectFromParent llvm unit tgt
  if srcSide.isEmpty && tgtSide.isEmpty then .ok none
  else
    let modifiedSrc ← injectFromSide tgtSide (← injectFromSide srcSide unit.srcFn)
    let modifiedTgt ← injectFromSide tgtSide (← injectFromSide srcSide unit.tgtFn)
    let srcChecks ← sideCheck srcSide src (unit.name ++ ".src-assume-check")
    let tgtChecks ← sideCheck tgtSide tgt (unit.name ++ ".tgt-assume-check")
    .ok (some
      { modifiedUnit :=
          ⟨unit.name ++ ".range-assume", modifiedSrc, modifiedTgt⟩
        assumeChecks := srcChecks ++ tgtChecks
        proposerName := "FromRanges" })

def firstFailure (runOnce : TvUnit → UnitVerdict) (checks : List TvUnit) :
    Option (TvUnit × UnitVerdict) :=
  (checks.map fun check => (check, runOnce check)).find? fun entry =>
    !entry.2.passed

def verifyTvUnit (runOnce : TvUnit → UnitVerdict) (llvm : BitOperators)
    (parents : Option (Body × Body)) (unit : TvUnit) :
    Except AssertionFailure UnitVerdict :=
  let v := runOnce unit
  if v.passed then .ok v
  else if v.status ≠ .unsound ∧ v.status ≠ .failedToProve then .ok v
  else
    match parents with
    | none => .ok v
    | some (src, tgt) => do
        match ← proposeFromRanges llvm unit src tgt with
        | none => .ok v
        | some proposed =>
          match firstFailure runOnce proposed.assumeChecks with
          | some (check, failed) =>
            .ok { v with
              errorMessage := v.errorMessage ++ "\n  proposer " ++
                proposed.proposerName ++ " fired but assume-check '" ++
                check.name ++ "' failed: " ++ failed.errorMessage }
          | none =>
            let modified := runOnce proposed.modifiedUnit
            if modified.passed then
              .ok { modified with
                name := unit.name
                proposerName := proposed.proposerName }
            else
              .ok { v with
                errorMessage := v.errorMessage ++ "\n  proposer " ++
                  proposed.proposerName ++
                  " fired and assume-checks passed, but modified unit " ++
                  "still does not verify: " ++ modified.errorMessage }

end AliveNext.TvNext
