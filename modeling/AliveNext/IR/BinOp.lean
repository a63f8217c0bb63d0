import AliveNext.IR.Lanes
import AliveNext.Smt.InModel

/-!
# Integer binary operations

`BinOp::toSMT` (`ir/instr.cpp`), element by element, and what the instructions of LLVM say about
numbers: when their execution is undefined, when they give poison and what they give otherwise.
-/

namespace AliveNext.IR.Lanes.BinOp

open Smt Smt.Expr

inductive Op where
  | add | sub | mul | sdiv | udiv | srem | urem | shl | ashr | lshr
  | saddSat | uaddSat | ssubSat | usubSat | sshlSat | ushlSat
  | saddOverflow | uaddOverflow | ssubOverflow | usubOverflow | smulOverflow | umulOverflow
  | and | or | xor | cttz | ctlz | umin | umax | smin | smax | abs | ucmp | scmp
  | clmul | pext | pdep
  deriving DecidableEq, Repr

structure Flags where
  nsw : Bool
  nuw : Bool
  exact : Bool
  disjoint : Bool

namespace Op

def isDivOrRem : Op → Bool
  | .sdiv | .srem | .udiv | .urem => true
  | _ => false

def hasFlagOperand : Op → Bool
  | .cttz | .ctlz | .abs => true
  | _ => false

/-- The operations that return a pair, for which `vertical_zip` is set. -/
def verticalZip : Op → Bool
  | .saddOverflow | .uaddOverflow | .ssubOverflow | .usubOverflow | .smulOverflow
  | .umulOverflow => true
  | _ => false

def rhsBits (op : Op) (w : Nat) : Nat :=
  match op with
  | .cttz | .ctlz | .abs => 1
  | _ => w

def resBits (op : Op) (w r : Nat) : Nat :=
  match op with
  | .ucmp | .scmp => r
  | _ => w

end Op

section

variable (z : Z3)

def isZero (e : Expr) : Expr := cmpEq z e (mkUInt 0 e.bits)

def divUB (a b ap : Expr) (sign : Bool) : List Expr :=
  Expr.not (isZero z b) ::
    if sign then [Expr.or (Expr.and ap (Expr.not (cmpEq z a (intSMin z b.bits))))
      (Expr.not (cmpEq z b (mkInt (-1) b.bits)))]
    else []

/-- What `fn` adds to the undefined behaviour. -/
def fnUB (op : Op) (a ap b : Expr) : List Expr :=
  match op with
  | .sdiv | .srem => divUB z a b ap true
  | .udiv | .urem => divUB z a b ap false
  | _ => []

def flagged (flag : Bool) (nonPoison cond : Expr) : Expr :=
  if flag then Expr.and nonPoison cond else nonPoison

/-- The function `fn` of `toSMT`; the second part of a pair comes in place of `non_poison`. -/
def fn (op : Op) (flags : Flags) (resBits : Nat) (a ap b bp : Expr) : StateValue :=
  let inside := ult z b (mkUInt b.bits b.bits)
  let overflow (cond : Expr) := toBVBool z (Expr.not cond)
  match op with
  | .add => ⟨add z a b, flagged flags.nuw (flagged flags.nsw (.bool true) (addNoSOverflow z a b))
      (addNoUOverflow z a b)⟩
  | .sub => ⟨sub z a b, flagged flags.nuw (flagged flags.nsw (.bool true) (subNoSOverflow z a b))
      (subNoUOverflow z a b)⟩
  | .mul => ⟨mul z a b, flagged flags.nuw (flagged flags.nsw (.bool true) (mulNoSOverflow z a b))
      (mulNoUOverflow z a b)⟩
  | .sdiv => ⟨sdiv z a b, if flags.exact then sdivExact z a b else .bool true⟩
  | .udiv => ⟨udiv z a b, flagged flags.exact (.bool true) (udivExact z a b)⟩
  | .srem => ⟨srem z a b, .bool true⟩
  | .urem => ⟨urem z a b, .bool true⟩
  | .shl => ⟨shl z a b, flagged flags.nuw (flagged flags.nsw inside (shlNoSOverflow z a b))
      (shlNoUOverflow z a b)⟩
  | .ashr => ⟨ashr z a b, flagged flags.exact inside (ashrExact z a b)⟩
  | .lshr => ⟨lshr z a b, flagged flags.exact inside (lshrExact z a b)⟩
  | .saddSat => ⟨saddSat z a b, .bool true⟩
  | .uaddSat => ⟨uaddSat z a b, .bool true⟩
  | .ssubSat => ⟨ssubSat z a b, .bool true⟩
  | .usubSat => ⟨usubSat z a b, .bool true⟩
  | .sshlSat => ⟨sshlSat z a b, inside⟩
  | .ushlSat => ⟨ushlSat z a b, inside⟩
  | .and => ⟨bitAnd z a b, .bool true⟩
  | .or => ⟨bitOr z a b, if flags.disjoint then isZero z (bitAnd z a b) else .bool true⟩
  | .xor => ⟨bitXor z a b, .bool true⟩
  | .cttz => ⟨cttz z a (mkUInt a.bits a.bits), Expr.or (isZero z b) (Expr.not (isZero z a))⟩
  | .ctlz => ⟨ctlz z a, Expr.or (isZero z b) (Expr.not (isZero z a))⟩
  | .saddOverflow => ⟨add z a b, overflow (addNoSOverflow z a b)⟩
  | .uaddOverflow => ⟨add z a b, overflow (addNoUOverflow z a b)⟩
  | .ssubOverflow => ⟨sub z a b, overflow (subNoSOverflow z a b)⟩
  | .usubOverflow => ⟨sub z a b, overflow (subNoUOverflow z a b)⟩
  | .smulOverflow => ⟨mul z a b, overflow (mulNoSOverflow z a b)⟩
  | .umulOverflow => ⟨mul z a b, overflow (mulNoUOverflow z a b)⟩
  | .umin => ⟨umin z a b, Expr.and ap bp⟩
  | .umax => ⟨umax z a b, Expr.and ap bp⟩
  | .smin => ⟨smin z a b, Expr.and ap bp⟩
  | .smax => ⟨smax z a b, Expr.and ap bp⟩
  | .abs => ⟨Expr.abs z a, Expr.and (Expr.and ap bp)
      (Expr.or (isZero z b) (Expr.not (cmpEq z a (intSMin z a.bits))))⟩
  | .ucmp => ⟨mkIf z (cmpEq z a b) (mkUInt 0 resBits)
      (mkIf z (ult z a b) (mkInt (-1) resBits) (mkInt 1 resBits)), Expr.and ap bp⟩
  | .scmp => ⟨mkIf z (cmpEq z a b) (mkUInt 0 resBits)
      (mkIf z (slt z a b) (mkInt (-1) resBits) (mkInt 1 resBits)), Expr.and ap bp⟩
  | .clmul => ⟨clmul z a b, Expr.and ap bp⟩
  | .pext => ⟨pext z a b, Expr.and ap bp⟩
  | .pdep => ⟨pdep z a b, Expr.and ap bp⟩

def scalarOp (op : Op) (flags : Flags) (resBits : Nat) (a b : StateValue) : StateValue :=
  let r := fn z op flags resBits a.value a.nonPoison b.value b.nonPoison
  ⟨r.value, Expr.and (Expr.and a.nonPoison b.nonPoison) r.nonPoison⟩

def zipOp (op : Op) (flags : Flags) (a b : StateValue) : StateValue × StateValue :=
  let r := fn z op flags 0 a.value a.nonPoison b.value b.nonPoison
  let nonPoison := Expr.and a.nonPoison b.nonPoison
  (⟨r.value, nonPoison⟩, ⟨r.nonPoison, nonPoison⟩)

inductive Shape where
  | scalar (width : Nat)
  | vector (ty : VectorType)

namespace Shape

def width : Shape → Nat
  | .scalar width => width
  | .vector ty => ty.width

def withWidth (shape : Shape) (width : Nat) : Shape :=
  match shape with
  | .scalar _ => .scalar width
  | .vector ty => .vector ⟨ty.elements, width⟩

def field : Shape → FieldType
  | .scalar width => .int width
  | .vector ty => .vector ty

def rhs (shape : Shape) (op : Op) : Shape :=
  if op.hasFlagOperand then .scalar 1 else shape

end Shape

/-- `not_poison_except_padding`. -/
def notPoison (shape : Shape) (v : StateValue) : Expr :=
  match shape with
  | .scalar _ => v.nonPoison
  | .vector ty => (List.range ty.elements).foldl
      (fun result i => Expr.and result (ty.extract z v i).nonPoison) (.bool true)

/-- `getAndAddPoisonUB`: the condition that it adds and the value that it returns. -/
def getAndAddPoisonUB (shape : Shape) (v : StateValue) : Expr × StateValue :=
  (notPoison z shape v, ⟨v.value,
    match shape with
    | .scalar _ => .bool true
    | .vector ty => mkInt (-1) ty.elements⟩)

structure Padding where
  between : Option Nat
  after : List Nat

def pairFields (shape : Shape) (padding : Padding) : List FieldType :=
  shape.field :: (padding.between.toList.map FieldType.padding ++
    (shape.withWidth 1).field :: padding.after.map FieldType.padding)

def val2idx (padding : Padding) : Nat := 1 + padding.between.isSome.toNat

/-- The second operand: `s.getVal(*rhs, isDivOrRem())`, with what it adds to the undefined
behaviour. -/
def getRhs (op : Op) (shape : Shape) (b : StateValue) : List Expr × StateValue :=
  if op.isDivOrRem then
    let (ub, b) := getAndAddPoisonUB z (shape.rhs op) b
    ([ub], b)
  else ([], b)

/-- `toSMT`: what is added to the undefined behaviour, and the value. -/
def toSMT (op : Op) (flags : Flags) (shape : Shape) (resBits : Nat) (padding : Padding)
    (a b : StateValue) : List Expr × StateValue :=
  let (poisonUB, b) := getRhs z op shape b
  match shape with
  | .scalar _ =>
    let ub := fnUB z op a.value a.nonPoison b.value
    if op.verticalZip then
      let (v1, v2) := zipOp z op flags a b
      (poisonUB ++ ub, aggregateStruct z (pairFields shape padding) [v1, v2])
    else (poisonUB ++ ub, scalarOp z op flags resBits a b)
  | .vector ty =>
    let lanes := (List.range ty.elements).map fun i =>
      (ty.extract z a i, if op.hasFlagOperand then b else ty.extract z b i)
    let ub := lanes.flatMap fun lane => fnUB z op lane.1.value lane.1.nonPoison lane.2.value
    if op.verticalZip then
      let vals := lanes.map fun lane => zipOp z op flags lane.1 lane.2
      (poisonUB ++ ub, aggregateStruct z (pairFields shape padding)
        [ty.aggregateVals z (vals.map Prod.fst), ty.aggregateVals z (vals.map Prod.snd)])
    else
      (poisonUB ++ ub, ty.aggregateVals z (lanes.map fun lane =>
        scalarOp z op flags resBits lane.1 lane.2))

end

variable {w : Nat}

/-- The execution is undefined: the divisor is poison or zero, or it is -1 and the dividend is
the least number or poison. -/
def Undefined (op : Op) (a : Option (BitVec w)) (b : Option (BitVec (op.rhsBits w))) : Prop :=
  match op with
  | .udiv | .urem => b = none ∨ b = some 0
  | .sdiv | .srem => b = none ∨ b = some 0 ∨
      b = some (BitVec.allOnes w) ∧ (a = none ∨ a = some (BitVec.intMin w))
  | _ => False

def Poison (op : Op) (flags : Flags) (a : BitVec w) (b : BitVec (op.rhsBits w)) : Prop :=
  match op with
  | .add => flags.nsw = true ∧ ¬SFits w (a.toInt + b.toInt) ∨
      flags.nuw = true ∧ ¬a.toNat + b.toNat < 2 ^ w
  | .sub => flags.nsw = true ∧ ¬SFits w (a.toInt - b.toInt) ∨ flags.nuw = true ∧ ¬b.toNat ≤ a.toNat
  | .mul => flags.nsw = true ∧ ¬SFits w (a.toInt * b.toInt) ∨
      flags.nuw = true ∧ ¬a.toNat * b.toNat < 2 ^ w
  | .sdiv => flags.exact = true ∧ a.toInt.tmod b.toInt ≠ 0
  | .udiv => flags.exact = true ∧ a.toNat % b.toNat ≠ 0
  | .shl => w ≤ b.toNat ∨ flags.nsw = true ∧ ¬SFits w (a.toInt * 2 ^ b.toNat) ∨
      flags.nuw = true ∧ ¬a.toNat * 2 ^ b.toNat < 2 ^ w
  | .ashr | .lshr => w ≤ b.toNat ∨ flags.exact = true ∧ a.toNat % 2 ^ b.toNat ≠ 0
  | .sshlSat | .ushlSat => w ≤ b.toNat
  | .or => flags.disjoint = true ∧ ∃ i, a.getLsbD i = true ∧ b.getLsbD i = true
  | .cttz | .ctlz => b.toNat ≠ 0 ∧ a = 0
  | .abs => b.toNat ≠ 0 ∧ a = BitVec.intMin w
  | _ => False

/-- The result, as a number of its type. For a pair it is the first part. -/
def Result (op : Op) (r : Nat) (a : BitVec w) (b : BitVec (op.rhsBits w))
    (x : BitVec (op.resBits w r)) : Prop :=
  match op with
  | .add | .saddOverflow | .uaddOverflow => x = BitVec.ofInt w (a.toInt + b.toInt)
  | .sub | .ssubOverflow | .usubOverflow => x = BitVec.ofInt w (a.toInt - b.toInt)
  | .mul | .smulOverflow | .umulOverflow => x = BitVec.ofInt w (a.toInt * b.toInt)
  | .sdiv => x = BitVec.ofInt w (a.toInt.tdiv b.toInt)
  | .udiv => x = BitVec.ofNat w (a.toNat / b.toNat)
  | .srem => x = BitVec.ofInt w (a.toInt.tmod b.toInt)
  | .urem => x = BitVec.ofNat w (a.toNat % b.toNat)
  | .shl => x = BitVec.ofNat w (a.toNat * 2 ^ b.toNat)
  | .ashr => x = BitVec.ofInt w (a.toInt / 2 ^ b.toNat)
  | .lshr => x = BitVec.ofNat w (a.toNat / 2 ^ b.toNat)
  | .saddSat => x = BitVec.ofInt w (clampS w (a.toInt + b.toInt))
  | .uaddSat => x = BitVec.ofInt w (clampU w (a.toNat + b.toNat))
  | .ssubSat => x = BitVec.ofInt w (clampS w (a.toInt - b.toInt))
  | .usubSat => x = BitVec.ofInt w (clampU w (a.toNat - b.toNat))
  | .sshlSat => x = BitVec.ofInt w (clampS w (a.toInt * 2 ^ b.toNat))
  | .ushlSat => x = BitVec.ofInt w (clampU w (a.toNat * 2 ^ b.toNat))
  | .and => ∀ i, x.getLsbD i = (a.getLsbD i && b.getLsbD i)
  | .or => ∀ i, x.getLsbD i = (a.getLsbD i || b.getLsbD i)
  | .xor => ∀ i, x.getLsbD i = (a.getLsbD i ^^ b.getLsbD i)
  | .cttz => x = a.ctz
  | .ctlz => x = a.clz
  | .umin => x = BitVec.ofNat w (min a.toNat b.toNat)
  | .umax => x = BitVec.ofNat w (max a.toNat b.toNat)
  | .smin => x = BitVec.ofInt w (min a.toInt b.toInt)
  | .smax => x = BitVec.ofInt w (max a.toInt b.toInt)
  | .abs => x = BitVec.ofInt w |a.toInt|
  | .ucmp => x = BitVec.ofInt r (Int.sign (a.toNat - b.toNat))
  | .scmp => x = BitVec.ofInt r (Int.sign (a.toInt - b.toInt))
  | .clmul => ∀ k < w, x.getLsbD k = carrylessBit a b k
  | .pext => (∀ k, b.getLsbD k = true → x.getLsbD (onesBelow b k) = a.getLsbD k) ∧
      ∀ j ≥ b.cpop.toNat, x.getLsbD j = false
  | .pdep => ∀ j, x.getLsbD j = (b.getLsbD j && a.getLsbD (onesBelow b j))

/-- The second part of a pair says that the first one is not the exact result. -/
def Overflows (op : Op) (a : BitVec w) (b : BitVec (op.rhsBits w)) : Prop :=
  match op with
  | .saddOverflow => ¬SFits w (a.toInt + b.toInt)
  | .uaddOverflow => ¬a.toNat + b.toNat < 2 ^ w
  | .ssubOverflow => ¬SFits w (a.toInt - b.toInt)
  | .usubOverflow => ¬b.toNat ≤ a.toNat
  | .smulOverflow => ¬SFits w (a.toInt * b.toInt)
  | .umulOverflow => ¬a.toNat * b.toNat < 2 ^ w
  | _ => False

end AliveNext.IR.Lanes.BinOp
