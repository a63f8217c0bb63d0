import AliveNext.IR.Types
import AliveNext.Smt.Agreement

/-!
# Stripping undef from a value

`State::strip_undef_and_add_ub`: where an undef value is UB, the masks of the inputs that
a value depends on are decided one by one with the solver, and what is left over must
have one value for all choices of the undef variables.
-/

namespace AliveNext.IR.UndefStrip

open Smt

section

variable (p : Params) (attrBits : Nat) (ptrCompare : Bool)

def element (ty : Ty) (i : Nat) (value : Bits) : Bits :=
  (ty.extract p ⟨value, .bv []⟩ i false).value

mutual

/-- `eq_except_padding`. The attributes are the low bits of a pointer. -/
def eqExceptPadding : Ty → Bits → Bits → Bool
  | .int _, a, b => a == b
  | .ptr, a, b => if ptrCompare then a.drop attrBits == b.drop attrBits else a == b
  | .vector elements width, a, b => (List.range elements).all fun i =>
    element p (.vector elements width) i a == element p (.vector elements width) i b
  | .aggregate isVector children, a, b =>
    eqChildrenExceptPadding (.aggregate isVector children) 0 children a b

/-- The loop over the children, from the one with number `i` on. -/
def eqChildrenExceptPadding (whole : Ty) : Nat → Children → Bits → Bits → Bool
  | _, .nil, _, _ => true
  | i, .field ty rest, a, b =>
    eqExceptPadding ty (element p whole i a) (element p whole i b) &&
      eqChildrenExceptPadding whole (i + 1) rest a b
  | i, .padding _ rest, a, b => eqChildrenExceptPadding whole (i + 1) rest a b

end

end

def bitsOf : Value → Bits
  | .bv w a => (List.range w).map a.getLsbD
  | _ => []

/-- `expr::fn_name`, of what `expr::vars` returns. -/
def fnName : Expr → String
  | .var name _ => name
  | .app (.fn name _) _ => name
  | .bool true => "true"
  | .bool false => "false"
  | _ => ""

/-- `Input::isUndefMask`. -/
def isUndefMask (e : Expr) : Bool := "isundef_".toList.isPrefixOf (fnName e).toList

def isUndefName (e : Expr) : Bool := "undef!".toList.isPrefixOf (fnName e).toList

/-- `expr::isQVar`. -/
def isQVar : Expr → Bool
  | .bound _ _ => true
  | _ => false

def inputName (mask : Expr) : String := String.ofList ((fnName mask).toList.drop 8)

/-- A conjunct of the UB condition: a term, or `eq_except_padding` of two. -/
inductive Cond where
  | term (e : Expr)
  | eqExceptPadding (a b : Expr)
  deriving DecidableEq

structure State where
  undefVars : List Expr
  ub : List Cond
  values : List (String × Expr)
  nonUndefVals : List (String × Expr)

def State.isUndef (s : State) : Expr → Bool
  | .app (.extract _ _) [v] => s.isUndef v
  | e => e ∈ s.undefVars

/-- A query to the solver: the masks that are known not to be undef, `e` and its copy with primed
undef variables, the variables under the quantifier, and the masks with what is tested of them. -/
structure Query where
  conds : List Expr
  e : Expr
  e2 : Expr
  qvars : List Expr
  tests : List (Expr × Bool)

/-- The type of the value, how it is compared, and the solver library: the order of
`std::set<expr>`, fresh variables, and the answers that are sat. -/
structure Setting where
  z : Z3
  p : Params
  attrBits : Nat
  ptrCompare : Bool
  ty : Ty
  order : List Expr → List Expr
  fresh : String → Expr → Expr
  isSat : Query → Bool

/-- What `strip_undef_and_add_ub` returns and adds to the state. -/
structure Stripped where
  value : Expr
  ub : List Cond
  nonUndefVals : List (String × Expr)
  quantVars : List Expr

def State.unchanged (s : State) (value : Expr) (ub : List Cond) : Stripped where
  value := value
  ub := ub
  nonUndefVals := s.nonUndefVals
  quantVars := []

namespace Setting

variable (S : Setting) (s : State)

/-- `mask == 0`, for which no rule of `expr::cmp_eq` applies (`cmpEqRound_mask`). -/
def isZero (mask : Expr) : Expr := Expr.binopOrdered S.z .eq mask (Expr.mkUInt 0 1)

/-- `expr::subst_simplify`. -/
def substSimplify (repls : List (Expr × Expr)) (e : Expr) : Expr :=
  if repls.isEmpty then e else S.z.simplify (Expr.substitute repls e)

/-- The tests are replaced by `true`. -/
def testRepls (masks : List Expr) : List (Expr × Expr) :=
  masks.map fun mask => (S.isZero mask, .bool true)

def undefRepls (name : String) (undefVars : List Expr) : List (Expr × Expr) :=
  undefVars.map fun u => (u, S.fresh name u)

def query (known undefVars missing vars : List Expr) (e mask : Expr) : Query where
  conds := known.map S.isZero
  e := e
  e2 := Expr.substitute (S.testRepls known ++ S.undefRepls "undef" undefVars) e
  qvars := vars.filter fun var => !isUndefMask var && !isUndefName var && !isQVar var
  tests := missing.map fun other => (S.isZero other, !decide (other = mask))

def knownMasks (vars : List Expr) : List Expr :=
  (vars.filter isUndefMask).filter fun mask => .term (S.isZero mask) ∈ s.ub

def missingTests (vars : List Expr) : List Expr :=
  (vars.filter isUndefMask).filter fun mask => .term (S.isZero mask) ∉ s.ub

/-- The loop over the masks, up to the first one about which nothing can be concluded. -/
def decideMasks (known undefVars missing vars : List Expr) (e : Expr) : List Expr → List Expr × Bool
  | [] => ([], true)
  | mask :: rest =>
    if S.isSat (S.query known undefVars missing vars e mask) then
      let (decided, allDecided) := decideMasks known undefVars missing vars e rest
      (mask :: decided, allDecided)
    else ([], false)

/-- `non_undef_vals.emplace` for the input that the mask belongs to. -/
def markNonUndef (nonUndefVals : List (String × Expr)) (mask : Expr) : List (String × Expr) :=
  match s.values.find? fun v => v.1 == inputName mask with
  | none => nonUndefVals
  | some (v, val) =>
    if nonUndefVals.any fun known => known.1 == v then nonUndefVals
    else nonUndefVals ++ [(v, S.z.simplify (Expr.substitute [(S.isZero mask, .bool true)] val))]

/-- `State::strip_undef_and_add_ub`. -/
def strip (e : Expr) : Stripped :=
  if s.undefVars.isEmpty || e.isConst then s.unchanged e []
  else if s.isUndef e then s.unchanged (Expr.mkUInt 0 e.bits) [.term (.bool false)]
  else
    let vars := S.order e.vars
    let undefVars := vars.filter fun var => var ∈ s.undefVars
    if undefVars.isEmpty then s.unchanged e []
    else
      let known := S.knownMasks s vars
      let missing := S.missingTests s vars
      let hasUndef := vars.any fun var => !isUndefMask var && s.isUndef var
      if missing.isEmpty && !hasUndef then
        s.unchanged (S.substSimplify (S.testRepls known) e) []
      else
        let (decided, allDecided) :=
          S.decideMasks known undefVars missing vars e missing
        let repls := S.testRepls known ++ S.testRepls decided
        let tests := decided.map fun mask => Cond.term (S.isZero mask)
        let nonUndefVals := decided.foldl (S.markNonUndef s) s.nonUndefVals
        let stripped := S.substSimplify repls e
        if allDecided && !stripped.vars.any s.isUndef then ⟨stripped, tests, nonUndefVals, []⟩
        else
          { value := stripped
            ub := tests ++ [.eqExceptPadding e
              (Expr.substitute (repls ++ S.undefRepls "#undef'" undefVars) e)]
            nonUndefVals := nonUndefVals
            quantVars := undefVars.map (S.fresh "#undef'") }

end Setting

end AliveNext.IR.UndefStrip
