import AliveNext.LLVM.Builder
import AliveNext.LLVM.Slots
import AliveNext.TvNext.Range

/-!
# Obligations of poison-generating flags

A flag that the target adds makes the result poison when it is violated.  The
proposer looks for such flags, tests with the operand ranges whether a
violation can occur, and builds the predicate that says it does not.
-/

namespace AliveNext.TvNext

open AliveNext.Lib
open AliveNext.LLVM

inductive FlagKind where
  | addNSW | addNUW
  | subNSW | subNUW
  | mulNSW | mulNUW
  | shlNSW | shlNUW
  | zextNNeg
  | udivExact | sdivExact
  | lshrExact | ashrExact
  | orDisjoint
  deriving DecidableEq, Repr

section

variable {w : Nat}

/-- `APIntOps::smin` and `APIntOps::smax`. -/
def smin (x y : BitVec w) : BitVec w :=
  if x.slt y then x else y

def smax (x y : BitVec w) : BitVec w :=
  if y.slt x then x else y

def combineCorners (a b : BitVec w × BitVec w)
    (op : BitVec w → BitVec w → BitVec w) : BitVec w × BitVec w :=
  let c1 := op a.1 b.1
  let c2 := op a.1 b.2
  let c3 := op a.2 b.1
  let c4 := op a.2 b.2
  (smin (smin c1 c2) (smin c3 c4), smax (smax c1 c2) (smax c3 c4))

def fitsSignedRange (bounds : BitVec w × BitVec w) (resultBw : Nat) : Bool :=
  ((BitVec.intMin resultBw).signExtend w).sle bounds.1 &&
    bounds.2.sle ((BitVec.intMax resultBw).signExtend w)

def fitsUnsignedRange (bounds : BitVec w × BitVec w) (resultBw : Nat) :
    Bool :=
  ((BitVec.ofNat resultBw 0).setWidth w).sle bounds.1 &&
    bounds.2.sle ((BitVec.allOnes resultBw).setWidth w)

def popcount (x : BitVec w) : Nat :=
  (List.range w).countP x.getLsbD

/-- `APInt::countr_one`. -/
def countTrailingOnes (x : BitVec w) : Nat :=
  ((List.range w).takeWhile x.getLsbD).length

/-- `KnownBits::isConstant`. -/
def isConstantBits (known : KnownBits w) : Bool :=
  popcount known.zero + popcount known.one == w

def fitsSigned (op : {v : Nat} → BitVec v → BitVec v → BitVec v)
    (a b : KnownRange w) (resultBw : Nat) : Bool :=
  match a.s, b.s with
  | some (al, ah), some (bl, bh) =>
    let wide := max resultBw (2 * resultBw + 4)
    fitsSignedRange
      (combineCorners (al.signExtend wide, ah.signExtend wide)
        (bl.signExtend wide, bh.signExtend wide) op)
      resultBw
  | _, _ => false

def fitsUnsigned (op : {v : Nat} → BitVec v × BitVec v →
      BitVec v × BitVec v → Option (BitVec v × BitVec v))
    (a b : KnownRange w) (resultBw : Nat) : Bool :=
  match a.u, b.u with
  | some (al, ah), some (bl, bh) =>
    let wide := max resultBw (2 * resultBw + 4)
    match op (al.setWidth wide, ah.setWidth wide) (bl.setWidth wide, bh.setWidth wide) with
    | some bounds => fitsUnsignedRange bounds resultBw
    | none => false
  | _, _ => false

def fitsShlNSW (a b : KnownRange w) (resultBw : Nat) : Bool :=
  match a.s, b.u with
  | some (lo, hi), some (_, shi) =>
    if resultBw ≤ shi.toNat then false
    else
      let remaining := resultBw - 1 - shi.toNat
      let wide := resultBw + 2
      let top := BitVec.twoPow wide remaining - BitVec.ofNat wide 1
      let bottom := -top - BitVec.ofNat wide 1
      bottom.sle (lo.signExtend wide) && (hi.signExtend wide).sle top
  | _, _ => false

def fitsShlNUW (a b : KnownRange w) (resultBw : Nat) : Bool :=
  match a.u, b.u with
  | some (_, hi), some (_, shi) =>
    if resultBw ≤ shi.toNat then false
    else
      let remaining := resultBw - shi.toNat
      let wide := resultBw + 2
      (hi.setWidth wide).ult (BitVec.twoPow wide remaining)
  | _, _ => false

def fitsExactShift (a b : KnownRange w) (resultBw : Nat) : Bool :=
  match a.bits, b.u with
  | some known, some (_, hi) =>
    let amount := min hi.toNat resultBw
    if amount = 0 then true
    else if resultBw ≤ amount then false
    else decide (amount ≤ countTrailingOnes known.zero)
  | _, _ => false

/-- The divisor is a constant power of two, up to its sign for `sdiv`, and the
dividend has that many zeros at the bottom. -/
def fitsExactDivision (signed : Bool) (a b : KnownRange w) : Bool :=
  match a.bits, b.bits with
  | some known, some divisor =>
    if !isConstantBits divisor then false
    else
      let c := divisor.one
      if c = 0#w then false
      else
        let absC := if signed && c.msb then 0#w - c else c
        if popcount absC ≠ 1 then false
        else decide (activeBits absC - 1 ≤ countTrailingOnes known.zero)
  | _, _ => false

def canProveSafe (kind : FlagKind) (a b : KnownRange w) (resultBw : Nat) :
    Bool :=
  match kind with
  | .addNSW => fitsSigned (fun x y => x + y) a b resultBw
  | .subNSW => fitsSigned (fun x y => x - y) a b resultBw
  | .mulNSW => fitsSigned (fun x y => x * y) a b resultBw
  | .addNUW =>
    fitsUnsigned (fun x y => some (x.1 + y.1, x.2 + y.2)) a b resultBw
  | .subNUW =>
    fitsUnsigned
      (fun x y => if x.1.ult y.2 then none
        else some (x.1 - y.2, x.2 - y.1)) a b resultBw
  | .mulNUW =>
    fitsUnsigned (fun x y => some (x.1 * y.1, x.2 * y.2)) a b resultBw
  | .shlNSW => fitsShlNSW a b resultBw
  | .shlNUW => fitsShlNUW a b resultBw
  | .zextNNeg => a.s.any fun bounds => !bounds.1.msb
  | .orDisjoint =>
    match a.bits, b.bits with
    | some first, some second =>
      first.zero ||| second.zero == BitVec.allOnes w
    | _, _ => false
  | .lshrExact | .ashrExact => fitsExactShift a b resultBw
  | .udivExact => fitsExactDivision false a b
  | .sdivExact => fitsExactDivision true a b

end

section

variable {R : Type} {w : Nat}

/-- `bld.CreateXor(ovf, true)`. -/
def overflowClaim (op : OverflowOp) (a b : Operand R w) : Term R 1 :=
  .node [] (.binop .xor) (.node [] (.withOverflow op) (.leaf a) (.leaf b)) (.leaf (.const 1#1))

/-- `first` undone by `second` gives the operand back. -/
def roundTripClaim (first second : BinOp) (a b : Operand R w) : Term R 1 :=
  .node [] (.icmp .eq)
    (.node [] (.binop second) (.node [] (.binop first) (.leaf a) (.leaf b)) (.leaf b)) (.leaf a)

def FlagKind.claim (kind : FlagKind) (a b : Operand R w) : Term R 1 :=
  match kind with
  | .addNSW => overflowClaim .sadd a b
  | .addNUW => overflowClaim .uadd a b
  | .subNSW => overflowClaim .ssub a b
  | .subNUW => overflowClaim .usub a b
  | .mulNSW => overflowClaim .smul a b
  | .mulNUW => overflowClaim .umul a b
  | .shlNSW => roundTripClaim (.shl false false) (.ashr false) a b
  | .shlNUW => roundTripClaim (.shl false false) (.lshr false) a b
  | .zextNNeg => .node [] (.icmp .sge) (.leaf a) (.leaf (.const 0#w))
  | .orDisjoint =>
    .node [] (.icmp .eq) (.node [] (.binop .and) (.leaf a) (.leaf b)) (.leaf (.const 0#w))
  | .lshrExact => roundTripClaim (.lshr false) (.shl false false) a b
  | .ashrExact => roundTripClaim (.ashr false) (.shl false false) a b
  | .udivExact => roundTripClaim (.udiv false) (.mul false false) a b
  | .sdivExact => roundTripClaim (.sdiv false) (.mul false false) a b

def buildFlagClaim (kind : FlagKind) (operands : List (Σ w, Operand R w)) :
    Except AssertionFailure (Term R 1) :=
  match kind, operands with
  | .zextNNeg, ⟨_, a⟩ :: _ => .ok (FlagKind.zextNNeg.claim a a)
  | kind, ⟨v, a⟩ :: ⟨w, b⟩ :: _ =>
    if same : w = v then .ok (kind.claim a (same ▸ b))
    else .error .operandTypes
  | _, _ => .error .operandTypes

end

/-- How an operand is identified across functions: an integer constant by its
value, any other value by its name. -/
inductive OperandKey where
  | const (width : Nat) (value : BitVec width)
  | named (name : Name)
  deriving DecidableEq

def functionInsts (fn : Function) : List Instruction :=
  fn.blocks.flatMap BasicBlock.insts

/-- `llvm::Value::getName` in a function. -/
def functionName (fn : Function) : Reg → Name
  | .arg index => (fn.args[index]?.map Argument.name).getD []
  | .inst id =>
    (((functionInsts fn).find? fun inst => inst.id == id).map Instruction.name).getD []

def keyForOperand (fn : Function) : (Σ w, Operand Reg w) → OperandKey
  | ⟨w, .const value⟩ => .const w value
  | ⟨_, .reg r⟩ => .named (functionName fn r)
  | ⟨_, _⟩ => .named []

def operandKeysEqual (a b : OperandKey) : Except AssertionFailure Bool :=
  match a, b with
  | .const v x, .const w y =>
    if same : w = v then .ok (x == same ▸ y) else .error .bitWidths
  | .named x, .named y => .ok (!x.isEmpty && x == y)
  | _, _ => .ok false

def andThen (first second : Except AssertionFailure Bool) : Except AssertionFailure Bool := do
  if ← first then second else .ok false

def allKeysEqual : List OperandKey → List OperandKey → Except AssertionFailure Bool
  | a :: as, b :: bs => andThen (operandKeysEqual a b) (allKeysEqual as bs)
  | _, _ => .ok true

def matchesKeys (commutative : Bool) (tkeys ikeys : List OperandKey) :
    Except AssertionFailure Bool :=
  match commutative, tkeys, ikeys with
  | true, t0 :: t1 :: _, [i0, i1] => do
      if ← andThen (operandKeysEqual t0 i0) (operandKeysEqual t1 i1) then
        .ok true
      else andThen (operandKeysEqual t0 i1) (operandKeysEqual t1 i0)
  | _, tkeys, ikeys => allKeysEqual tkeys ikeys

/-- Opcodes; the flags and predicates of an instruction are not part of
them. -/
inductive Opcode where
  | add | sub | mul | shl | udiv | sdiv | urem | srem | lshr | ashr
  | and | or | xor | icmp | select | freeze | zext | sext | trunc | call
  deriving DecidableEq

def binOpcode : BinOp → Opcode
  | .add _ _ => .add
  | .sub _ _ => .sub
  | .mul _ _ => .mul
  | .shl _ _ => .shl
  | .udiv _ => .udiv
  | .sdiv _ => .sdiv
  | .urem => .urem
  | .srem => .srem
  | .lshr _ => .lshr
  | .ashr _ => .ashr
  | .and => .and
  | .or _ => .or
  | .xor => .xor

def opcode : Op Reg → Opcode
  | .value (.binop op _ _) => binOpcode op
  | .value (.icmp _ _ _) => .icmp
  | .value (.select _ _ _) => .select
  | .value (.freeze _) => .freeze
  | .value (.zext _ _ _) => .zext
  | .value (.sext _ _) => .sext
  | .value (.trunc _ _ _ _) => .trunc
  | .value (.withOverflow _ _ _) => .call
  | .assume _ => .call

/-- `Instruction::isCommutative`. -/
def isCommutative : Op Reg → Bool
  | .value (.binop op _ _) =>
    match op with
    | .add _ _ | .mul _ _ | .and | .or _ | .xor => true
    | _ => false
  | .value (.withOverflow op _ _) =>
    match op with
    | .sadd | .uadd | .smul | .umul => true
    | _ => false
  | _ => false

/-- The loop of `findStructuralMatch`. -/
def findMatch (t : Op Reg) (tkeys : List OperandKey) (fn : Function) :
    List Instruction → Except AssertionFailure (Option Instruction)
  | [] => .ok none
  | inst :: rest => do
      if opcode inst.op = opcode t ∧ inst.op.type = t.type ∧
          inst.op.operands.length = t.operands.length then
        if ← matchesKeys (isCommutative t) tkeys (inst.op.operands.map (keyForOperand fn)) then
          .ok (some inst)
        else findMatch t tkeys fn rest
      else findMatch t tkeys fn rest

/-- An instruction of `fn` with the opcode, type and operands of `inst`, an
instruction of `other`. -/
def findStructuralMatch (other : Function) (inst : Instruction)
    (fn : Function) : Except AssertionFailure (Option Instruction) :=
  findMatch inst.op (inst.op.operands.map (keyForOperand other)) fn (functionInsts fn)

/-- The flags set in the first operation and not in the second. -/
def collectAddedFlags (t s : Op Reg) : List FlagKind :=
  let wrapping (nswT nuwT nswS nuwS : Bool) (nsw nuw : FlagKind) :=
    (if nswT && !nswS then [nsw] else []) ++ (if nuwT && !nuwS then [nuw] else [])
  match t, s with
  | .value (.binop opT _ _), .value (.binop opS _ _) =>
    match opT, opS with
    | .add nuwT nswT, .add nuwS nswS =>
      wrapping nswT nuwT nswS nuwS .addNSW .addNUW
    | .sub nuwT nswT, .sub nuwS nswS =>
      wrapping nswT nuwT nswS nuwS .subNSW .subNUW
    | .mul nuwT nswT, .mul nuwS nswS =>
      wrapping nswT nuwT nswS nuwS .mulNSW .mulNUW
    | .shl nuwT nswT, .shl nuwS nswS =>
      wrapping nswT nuwT nswS nuwS .shlNSW .shlNUW
    | .udiv true, .udiv false => [.udivExact]
    | .sdiv true, .sdiv false => [.sdivExact]
    | .lshr true, .lshr false => [.lshrExact]
    | .ashr true, .ashr false => [.ashrExact]
    | .or true, .or false => [.orDisjoint]
    | _, _ => []
  | .value (.zext _ true _), .value (.zext _ false _) => [.zextNNeg]
  | _, _ => []

end AliveNext.TvNext
