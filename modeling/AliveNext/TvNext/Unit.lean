import AliveNext.LLVM.Builder
import AliveNext.TvNext.Diff

/-!
# Lifting a region into a unit

`buildTvUnit` clones the instructions of a region into a function of its own.
Operands defined outside the region become parameters, one for each name that
either side uses; operands defined inside are rewired to the clones.
-/

namespace AliveNext.TvNext

open AliveNext.LLVM

def isInternal (insts : List Instruction) : Reg → Bool
  | .arg _ => false
  | .inst id => insts.any fun inst => inst.id == id

/-- Why `buildTvUnit` gives up. -/
inductive UnitError where
  | emptyRegion
  | emptySide
  | typesDiffer (instIdx : Nat)
  | voidExit
  | exitTypesDiffer
  | anonymousOperand
  | operandTypesDiffer (name : Name)
  deriving DecidableEq

def collectOperand (body : Body) (insts : List Instruction)
    (out : List Argument) (operand : Σ w, Operand Reg w) :
    Except UnitError (List Argument) :=
  match operand with
  | ⟨w, .reg r⟩ =>
    if isInternal insts r then .ok out
    else if (body.nameOf r).isEmpty then .error .anonymousOperand
    else if body.nameOf r ∈ out.map Argument.name then .ok out
    else .ok (out ++ [⟨body.nameOf r, w⟩])
  | _ => .ok out

def collectExternalOperands (body : Body) (insts : List Instruction) :
    Except UnitError (List Argument) :=
  (insts.flatMap fun inst => inst.op.operands).foldlM (collectOperand body insts) []

def addOne (out : List Argument) (p : Argument) : Except UnitError (List Argument) :=
  match out.find? fun q => q.name == p.name with
  | none => .ok (out ++ [p])
  | some q =>
    if q.width = p.width then .ok out
    else .error (.operandTypesDiffer p.name)

def unionNamedOperands (srcOps tgtOps : List Argument) : Except UnitError (List Argument) := do
  let out ← srcOps.foldlM addOne []
  tgtOps.foldlM addOne out

/-- `name_to_param`; the index after the last parameter stands for a failed
lookup. -/
def paramOf (params : List Argument) (name : Name) : Reg :=
  .arg (params.findIdx fun p => p.name == name)

/-- The register that replaces an operand in a clone. -/
def rewire (body : Body) (insts : List Instruction) (params : List Argument)
    (origToClone : List (Nat × Nat)) (r : Reg) : Reg :=
  if isInternal insts r then
    match r with
    | .inst id => .inst ((origToClone.lookup id).getD origToClone.length)
    | .arg index => .arg index
  else paramOf params (body.nameOf r)

/-- The loop of `buildHalf`.  The clone of the instruction at index `i` has
the identity `i` in the new function. -/
def cloneLoop (body : Body) (insts : List Instruction) (params : List Argument) :
    List Instruction → List (Nat × Nat) → SymbolTable → List Instruction
  | [], _, _ => []
  | orig :: rest, origToClone, table =>
    let (name, table') := table.insert orig.name
    let cloned : Instruction :=
      { id := origToClone.length
        name := name
        op := orig.op.map (rewire body insts params origToClone)
        metadata := orig.metadata }
    cloned :: cloneLoop body insts params rest ((orig.id, origToClone.length) :: origToClone) table'

/-- `b.CreateRet(exit)`. -/
def returnExit (clones : List Instruction) : TermOp Reg :=
  match clones.getLast? with
  | none => .retVoid
  | some exit =>
    match exit.type with
    | none => .retVoid
    | some w => .ret (.reg (.inst exit.id) : Operand Reg w)

def buildHalf (body : Body) (insts : List Instruction) (params : List Argument) : BasicBlock :=
  let table : SymbolTable := ⟨params.map Argument.name, 0⟩
  let (entry, table') := table.insert (ascii "entry")
  let clones := cloneLoop body insts params insts [] table'
  { name := entry
    insts := clones
    term := ⟨returnExit clones, []⟩ }

/-- A function pair ready for verification. -/
structure TvUnit where
  name : String
  srcFn : Function
  tgtFn : Function

/-- What both kinds of regions share: collect, unite, clone. -/
def liftSides (src tgt : Body) (srcInsts tgtInsts : List Instruction)
    (diagName : String) : Except UnitError TvUnit := do
  let srcExternals ← collectExternalOperands src srcInsts
  let tgtExternals ← collectExternalOperands tgt tgtInsts
  let unioned ← unionNamedOperands srcExternals tgtExternals
  return {
    name := diagName
    srcFn := ⟨ascii "src", unioned, [buildHalf src srcInsts unioned]⟩
    tgtFn := ⟨ascii "tgt", unioned, [buildHalf tgt tgtInsts unioned]⟩ }

def buildAsymTvUnit (src tgt : Body) (region : DiffRegion)
    (diagName : String) : Except UnitError TvUnit :=
  match region.srcRegion.getLast?, region.tgtRegion.getLast? with
  | some srcExit, some tgtExit =>
    if srcExit.type.isNone then .error .voidExit
    else if tgtExit.type ≠ srcExit.type then .error .exitTypesDiffer
    else liftSides src tgt region.srcRegion region.tgtRegion diagName
  | _, _ => .error .emptySide

def buildTvUnit (src tgt : Body) (region : DiffRegion)
    (diagName : String) : Except UnitError TvUnit :=
  if region.isAsymmetric then buildAsymTvUnit src tgt region diagName
  else
    match region.positions.getLast? with
    | none => .error .emptyRegion
    | some exit =>
      match region.positions.find? fun position =>
          position.srcInst.type ≠ position.tgtInst.type with
      | some position => .error (.typesDiffer position.instIdx)
      | none =>
        if exit.srcInst.type.isNone then .error .voidExit
        else
          liftSides src tgt (region.positions.map DiffPosition.srcInst)
            (region.positions.map DiffPosition.tgtInst) diagName

end AliveNext.TvNext
