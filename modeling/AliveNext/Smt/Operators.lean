import AliveNext.Smt.Resize

/-!
# Comparisons, arithmetic and bitwise operators

`operator+`, `operator*`, `operator&`, `operator|` and `operator^` call one
another on smaller operands: `binop_commutative` reassociates constants, `+` goes
into a concatenation, `*` looks for powers of two with `&` and `-`. As before a
round has the operators it calls as a parameter. The other operators are plain
functions.
-/

namespace AliveNext.Smt

/-- `util::is_power2`. -/
def isPower2Nat (n : Nat) : Bool := n ≠ 0 ∧ n &&& (n - 1) = 0

abbrev Operators := BvOp → Expr → Expr → Option Expr

open Rule

namespace Expr

variable (z : Z3)

/-- `expr::isConcat`. -/
def isConcatOf (e : Expr) : Option (Expr × Expr) :=
  (isConcat (calls z (4 * e.size)) e).getD none

def intSMin (bits : Nat) : Expr :=
  if bits > 1 then concat z (mkUInt 1 1) (mkUInt 0 (bits - 1)) else mkUInt 1 1

def intSMax (bits : Nat) : Expr :=
  if bits > 1 then concat z (mkUInt 0 1) (mkInt (-1) (bits - 1)) else mkUInt 0 1

def intUMax (bits : Nat) : Expr := mkInt (-1) bits

def isSMin (e : Expr) : Bool := e = intSMin z e.bits

def isSMax (e : Expr) : Bool := e = intSMax z e.bits

def ule (a b : Expr) : Expr :=
  if a = b ∨ a.isZero ∨ b.isAllOnes then .bool true
  else if b.isZero ∨ a.isAllOnes then cmpEq z a b
  else if a.minLeadingZeros + b.minTrailingOnes ≥ a.bits then .bool true
  else binopFold z .ule a b

/-- `operator<<`. -/
def shl (a b : Expr) : Expr :=
  if a.isZero ∨ b.isZero then a
  else
    match b.isUInt with
    | some shift =>
      if shift ≥ a.bits then mkUInt 0 a.bits
      else concat z (extract z a (a.bits - shift - 1) 0 3) (mkUInt 0 shift)
    | none => binopFold z (.bv .shl) a b

def ashr (a b : Expr) : Expr :=
  if a.isZero ∨ b.isZero then a else binopFold z (.bv .ashr) a b

def lshr (a b : Expr) : Expr :=
  if a.isZero ∨ b.isZero then a
  else
    match b.isUInt with
    | some shift =>
      if shift ≥ a.bits then mkUInt 0 a.bits
      else concat z (mkUInt 0 shift) (extract z a (a.bits - 1) shift 3)
    | none => binopFold z (.bv .lshr) a b

def sdiv (a b : Expr) : Expr :=
  if a = b then mkUInt 1 a.bits
  else if b.isZero then b
  else if a.isZero ∨ b.isOne then a
  else if isSMin z a ∧ b.isAllOnes then mkUInt 0 a.bits
  else binopFold z (.bv .sdiv) a b

def udiv (a b : Expr) : Expr :=
  if a = b then mkUInt 1 a.bits
  else if b.isZero then b
  else if a.isZero ∨ b.isOne then a
  else binopFold z (.bv .udiv) a b

def urem (a b : Expr) : Expr :=
  if a = b ∨ a.isZero then mkUInt 0 a.bits
  else
    match b.isUInt with
    | some n =>
      if n ≤ 1 then mkUInt 0 a.bits
      else if isPower2Nat n then
        concat z (mkUInt 0 (a.bits - Nat.log2 n)) (extract z a (Nat.log2 n - 1) 0 3)
      else binopFold z (.bv .urem) a b
    | none => binopFold z (.bv .urem) a b

def srem (a b : Expr) : Expr :=
  if a = b ∨ a.isZero ∨ isSMin z a ∧ b.isAllOnes then mkUInt 0 a.bits
  else if b.isZero then b
  else if (isNegative z a).isFalse ∧ (isNegative z b).isFalse then urem z a b
  else binopFold z (.bv .srem) a b

/-- `operator~`. -/
def bitNot (e : Expr) : Expr := unopFold z .bvnot e

section

variable (r : Operators)

def reassociate (op : BvOp) (const e : Expr) : Rule :=
  match e with
  | .app op' [a, b] =>
    if op' = .bv op then
      if a.isConst then
        fire (do
          let joined ← r op const a
          r op joined b)
      else if b.isConst then
        fire (do
          let joined ← r op const b
          r op joined a)
      else skip
    else skip
  | _ => skip

/-- `expr::binop_commutative`. A constant on the right makes it call itself with
the operands swapped, where the first four tests fail again. -/
def binopCommutative (op : BvOp) (identity absorbent : Expr → Bool) (a b : Expr) : Option Expr :=
  if absorbent a ∨ identity b then some a
  else if absorbent b ∨ identity a then some b
  else if a.isConst then first [reassociate r op a b] (binopOrdered z (.bv op) a b)
  else if b.isConst then first [reassociate r op b a] (binopOrdered z (.bv op) b a)
  else some (binopOrdered z (.bv op) a b)

/-- `operator-`. -/
def subWith (a b : Expr) : Option Expr :=
  if a = b then some (mkUInt 0 a.bits)
  else do
    let negated ← r .mul (mkInt (-1) a.bits) b
    r .add a negated

/-- `expr::add_no_uoverflow`. A constant on the left makes it call itself with
the operands swapped. -/
def addNoUOverflowWith (a b : Expr) : Option Expr :=
  if a.minLeadingZeros ≥ 1 ∧ b.minLeadingZeros ≥ 1 then some (.bool true)
  else if b.isConst then do
    let most ← subWith r (mkInt (-1) b.bits) b
    some (ule z a most)
  else if a.isConst then do
    let most ← subWith r (mkInt (-1) a.bits) a
    some (ule z b most)
  else do
    let sum ← r .add (zext z a 1) (zext z b 1)
    some (cmpEq z (sign z sum) (mkUInt 0 (sign z sum).bits))

/-- `(concat x const) + rhs -> (concat const+rhs)` if no overflow happens. -/
def addConcat (lhs rhs : Expr) : Rule :=
  if rhs.isConst then
    match isConcatOf z lhs with
    | some (a, b) =>
      if b.isConst then
        let rhs2 := trunc z rhs b.bits
        if zextOrTrunc z rhs2 rhs.bits = rhs then do
          let fits ← addNoUOverflowWith z r b rhs2
          if fits.isTrue then
            fire (do
              let sum ← r .add b rhs2
              some (concat z a sum))
          else skip
        else skip
      else skip
    | none => skip
  else skip

/-- `operator+`. -/
def addRound (a b : Expr) : Option Expr := do
  match ← addConcat z r a b with
  | some t => some t
  | none => binopCommutative z r .add isZero alwaysFalse a b

/-- `is_power2` on terms: the exponent of a constant that is a power of two. -/
def isPower2With (e : Expr) : Option (Option Nat) :=
  if e.isZero then some none
  else do
    let below ← subWith r e (mkUInt 1 e.bits)
    let masked ← r .and e below
    if masked.isZero then
      some ((List.range e.bits).find? fun i => (extract z e i i 3).isAllOnes)
    else some none

def mulPower2 (a b : Expr) : Rule :=
  if b.isConst then do
    match ← isPower2With z r b with
    | some power => fire (some (shl z a (mkUInt power a.bits)))
    | none => skip
  else skip

/-- `operator*`. -/
def mulRound (a b : Expr) : Option Expr := do
  match ← mulPower2 z r a b with
  | some t => some t
  | none =>
    match ← mulPower2 z r b a with
    | some t => some t
    | none => binopCommutative z r .mul isOne isZero a b

/-- The mask of `operator&` as an extract: the constant `a` is a run of ones. -/
def foldExtract (a b : Expr) : Option Expr :=
  match a.isUInt with
  | some n =>
    if n = 0 ∨ n = 2 ^ 64 - 1 then none
    else
      let lead := countlZero n
      let trail := countrZero n
      if isPower2Nat ((n >>> trail) + 1) then
        let middle := extract z b (63 - lead) trail 3
        let lead := lead - (64 - a.bits)
        let upper := if lead > 0 then concat z (mkUInt 0 lead) middle else middle
        some (if trail > 0 then concat z upper (mkUInt 0 trail) else upper)
      else none
  | none => none

/-- The condition that a one-bit conditional stands for. -/
def getBool (e : Expr) : Option Expr :=
  match e.isIf with
  | some (cond, then_, els) =>
    if then_.isOne ∧ els.isZero then some cond
    else if then_.isZero ∧ els.isOne then some (not cond)
    else none
  | none => none

/-- One-bit conditionals joined by a connective. -/
def boolOp (connective : Expr → Expr → Expr) (a b : Expr) : Option Expr :=
  if a.bits = 1 then
    match getBool a, getBool b with
    | some c, some d => some (toBVBool z (connective c d))
    | _, _ => none
  else none

/-- `operator&`. -/
def andRound (a b : Expr) : Option Expr :=
  if a = b ∨ a.isZero ∨ b.isAllOnes then some a
  else if a.isAllOnes ∨ b.isZero then some b
  else
    let folded :=
      if a.bits ≤ 64 then
        (foldExtract z a b).or ((foldExtract z b a).or (boolOp z and a b))
      else none
    match folded with
    | some t => some t
    | none => binopCommutative z r .and isAllOnes isZero a b

/-- `operator|`. -/
def orRound (a b : Expr) : Option Expr :=
  if a = b ∨ a.isAllOnes ∨ b.isZero then some a
  else if a.isZero ∨ b.isAllOnes then some b
  else
    match boolOp z or a b with
    | some t => some t
    | none => binopCommutative z r .or isZero isAllOnes a b

def complement (e : Expr) : Expr :=
  if e.bits = 1 then toBVBool z (cmpEq z e (mkUInt 0 e.bits)) else bitNot z e

/-- `operator^`. -/
def xorRound (a b : Expr) : Option Expr :=
  if a = b then some (mkUInt 0 a.bits)
  else if a.isAllOnes then some (complement z b)
  else if b.isAllOnes then some (complement z a)
  else binopCommutative z r .xor isZero alwaysFalse a b

end

end Expr

/-- Rounds nested at most so deep. -/
def operators (z : Z3) : Nat → Operators
  | 0, _, _, _ => none
  | depth + 1, op, a, b =>
    let r := operators z depth
    match op with
    | .add => Expr.addRound z r a b
    | .mul => Expr.mulRound z r a b
    | .and => Expr.andRound z r a b
    | .or => Expr.orRound z r a b
    | .xor => Expr.xorRound z r a b
    | .sdiv => some (Expr.sdiv z a b)
    | .udiv => some (Expr.udiv z a b)
    | .srem => some (Expr.srem z a b)
    | .urem => some (Expr.urem z a b)
    | .shl => some (Expr.shl z a b)
    | .ashr => some (Expr.ashr z a b)
    | .lshr => some (Expr.lshr z a b)

end AliveNext.Smt
