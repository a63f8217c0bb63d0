import AliveNext.Lib.BitFacts
import AliveNext.LLVM.Simulation

/-!
# Integer ranges of straight-line code

The forward pass of `tv-next/range.cpp`: one transfer function per opcode over
closed unsigned intervals, closed signed intervals and known bits.

The known-bits operators are LLVM's and stay a parameter.  An assertion that
`APInt` or `ConstantRange` states ends the pass with an error.
-/

namespace AliveNext.TvNext

open AliveNext.Lib
open AliveNext.LLVM

/-- The operators of `llvm::KnownBits`, and `ConstantRange::toKnownBits`. -/
structure BitOperators where
  intersectWith : {w : Nat} → KnownBits w → KnownBits w → KnownBits w
  and : {w : Nat} → KnownBits w → KnownBits w → KnownBits w
  or : {w : Nat} → KnownBits w → KnownBits w → KnownBits w
  xor : {w : Nat} → KnownBits w → KnownBits w → KnownBits w
  urem : {w : Nat} → KnownBits w → KnownBits w → KnownBits w
  udiv : {w : Nat} → KnownBits w → KnownBits w → KnownBits w
  lshr : {w : Nat} → KnownBits w → KnownBits w → KnownBits w
  ashr : {w : Nat} → KnownBits w → KnownBits w → KnownBits w
  shl : {w : Nat} → (nuw nsw : Bool) → KnownBits w → KnownBits w → KnownBits w
  computeForAddSub : {w : Nat} → (add nsw nuw : Bool) → KnownBits w → KnownBits w → KnownBits w
  mul : {w : Nat} → KnownBits w → KnownBits w → KnownBits w
  zext : {v : Nat} → (w : Nat) → KnownBits v → KnownBits w
  sext : {v : Nat} → (w : Nat) → KnownBits v → KnownBits w
  trunc : {v : Nat} → (w : Nat) → KnownBits v → KnownBits w
  toKnownBits : {w : Nat} → ConstantRange w → KnownBits w

/-- The assertions of LLVM's classes that the pipeline can reach. -/
inductive AssertionFailure where
  | constantRange
  | dividedByZero
  | invalidShiftAmount
  | bitWidths
  | constantIntType
  | operandTypes
  deriving DecidableEq, Repr

structure KnownRange (w : Nat) where
  u : Option (BitVec w × BitVec w) := none
  s : Option (BitVec w × BitVec w) := none
  bits : Option (KnownBits w) := none
  undefFree : Bool := false
  poisonFree : Bool := false
  deriving DecidableEq, Repr

namespace KnownRange

variable {w : Nat}

def wellDefined (r : KnownRange w) : Bool :=
  r.undefFree && r.poisonFree

def bitsUnknown (r : KnownRange w) : Bool :=
  r.bits.all KnownBits.isUnknown

/-- The test `!r.u && !r.s && !r.well_defined() && (no bits)`. -/
def isEmpty (r : KnownRange w) : Bool :=
  r.u.isNone && r.s.isNone && !r.wellDefined && r.bitsUnknown

end KnownRange

abbrev RangeMap := (w : Nat) → Operand Reg w → Option (KnownRange w)

/-- `map[I] = r`. -/
def RangeMap.insert (map : RangeMap) {w : Nat} (r : Reg) (range : KnownRange w) : RangeMap :=
  Function.update map w (Function.update (map w) (.reg r) (some range))

section

variable {w : Nat}

def crossDerive (r : KnownRange w) : KnownRange w :=
  let signed : KnownRange w :=
    match r.u, r.s with
    | some (lo, hi), none =>
      if !hi.msb then { r with s := some (lo, hi) } else r
    | _, _ => r
  match signed.s, signed.u with
  | some (lo, hi), none =>
    if !lo.msb then { signed with u := some (lo, hi) } else signed
  | _, _ => signed

/-- The lambda `add` on the bits of a newly constructed range. -/
def addRange (llvm : BitOperators) (acc : KnownBits w)
    (range : ConstantRange w) : Except AssertionFailure (KnownBits w) :=
  if range.valid then .ok (acc.unionWith (llvm.toKnownBits range))
  else .error .constantRange

def addUnsigned (llvm : BitOperators) (u : Option (BitVec w × BitVec w))
    (acc : KnownBits w) : Except AssertionFailure (KnownBits w) :=
  match u with
  | some (lo, hi) =>
    if lo.ule hi then addRange llvm acc ⟨lo, hi + 1#w⟩ else .ok acc
  | none => .ok acc

def addSigned (llvm : BitOperators) (s : Option (BitVec w × BitVec w))
    (acc : KnownBits w) : Except AssertionFailure (KnownBits w) :=
  match s with
  | some (lo, hi) =>
    if lo.sle hi && lo.ule (hi + 1#w) then
      addRange llvm acc ⟨lo, hi + 1#w⟩
    else .ok acc
  | none => .ok acc

/-- Tightens `r.bits` using the interval bounds. -/
def deriveBitsFromIntervals (llvm : BitOperators) (r : KnownRange w) :
    Except AssertionFailure (KnownRange w) :=
  if w = 0 then .ok r
  else do
    let acc ← addUnsigned llvm r.u (r.bits.getD (.unknown w))
    let acc ← addSigned llvm r.s acc
    .ok (if acc.isUnknown then r else { r with bits := some acc })

def knownBitsOf (map : RangeMap) : Operand Reg w → KnownBits w
  | .const value => .makeConstant value
  | operand => ((map w operand).bind KnownRange.bits).getD (.unknown w)

def constantRange (value : BitVec w) : KnownRange w where
  u := some (value, value)
  s := some (value, value)
  bits := some (.makeConstant value)
  undefFree := true
  poisonFree := true

def rangeOf (map : RangeMap) (operand : Operand Reg w) : Option (KnownRange w) :=
  match map w operand with
  | some r => some r
  | none =>
    match operand with
    | .const value => some (constantRange value)
    | _ => none

structure OperandFacts (w : Nat) where
  range : Option (KnownRange w)
  known : KnownBits w

def factsOf (map : RangeMap) (operand : Operand Reg w) : OperandFacts w :=
  ⟨rangeOf map operand, knownBitsOf map operand⟩

namespace OperandFacts

def u (facts : OperandFacts w) : Option (BitVec w × BitVec w) :=
  facts.range.bind KnownRange.u

def s (facts : OperandFacts w) : Option (BitVec w × BitVec w) :=
  facts.range.bind KnownRange.s

def undefFree (facts : OperandFacts w) : Bool :=
  facts.range.any KnownRange.undefFree

def poisonFree (facts : OperandFacts w) : Bool :=
  facts.range.any KnownRange.poisonFree

end OperandFacts

def constShift : Operand Reg w → Option Nat
  | .const value => some (min value.toNat w)
  | _ => none

/-- `{in_range, const_shift}`. -/
def shiftInRange (constant : Option Nat) (r : OperandFacts w) : Bool × Nat :=
  match constant with
  | some amount => (decide (amount < w), amount)
  | none =>
    match r.u with
    | some (_, hi) => (decide (hi.toNat < w), w)
    | none => (false, w)

/-- `(unsigned)x.getLimitedValue()`. -/
def limitedAmount (x : BitVec w) : Nat :=
  min x.toNat (2 ^ 64 - 1) % 2 ^ 32

/-- The assertion of the `APInt` shifts. -/
def checkedAmount (w amount : Nat) : Except AssertionFailure Nat :=
  if amount ≤ w then .ok amount else .error .invalidShiftAmount

/-- `APInt::udiv`. -/
def checkedUdiv (x y : BitVec w) : Except AssertionFailure (BitVec w) :=
  if y = 0#w then .error .dividedByZero else .ok (x / y)

def conclude (llvm : BitOperators) (r : KnownRange w) :
    Except AssertionFailure (Option (KnownRange w)) :=
  (deriveBitsFromIntervals llvm (crossDerive r)).map some

end

section

variable {v w : Nat}

/-- The hull of two intervals in a strict order. -/
def hull (less : BitVec w → BitVec w → Bool) (first second : Option (BitVec w × BitVec w)) :
    Option (BitVec w × BitVec w) :=
  match first, second with
  | some (lo, hi), some (lo', hi') =>
    some (if less lo lo' then lo else lo', if less hi' hi then hi else hi')
  | _, _ => none

def transferSelect (llvm : BitOperators) (cond : OperandFacts 1) (t f : OperandFacts w) :
    Except AssertionFailure (Option (KnownRange w)) :=
  let r : KnownRange w :=
    { u := hull BitVec.ult t.u f.u
      s := hull BitVec.slt t.s f.s
      bits := some (llvm.intersectWith t.known f.known)
      undefFree := cond.undefFree && t.undefFree && f.undefFree
      poisonFree := cond.poisonFree && t.poisonFree && f.poisonFree }
  if t.range.isNone && f.range.isNone then .ok none
  else if r.u.isNone && r.s.isNone && r.bitsUnknown then .ok none
  else conclude llvm r

def transferFreeze (llvm : BitOperators) (a : OperandFacts w) :
    Except AssertionFailure (Option (KnownRange w)) :=
  (deriveBitsFromIntervals llvm
    { u := a.u
      s := a.s
      bits := a.range.bind KnownRange.bits
      undefFree := true
      poisonFree := true }).map some

/-- `and X, C` for non-negative `C` yields `[0, C]`. -/
def tryConst (c : Option (BitVec w × BitVec w)) : Option (BitVec w × BitVec w) :=
  match c with
  | some (_, hi) => if !hi.msb then some (0#w, hi) else none
  | none => none

/-- `and X, Y` with both bounds known: `[0, min(hi_x, hi_y)]`. -/
def smallerBound (l r : Option (BitVec w × BitVec w)) : Option (BitVec w × BitVec w) :=
  match l, r with
  | some (_, hi), some (_, hi') => some (0#w, if hi.ult hi' then hi else hi')
  | _, _ => none

def transferAnd (llvm : BitOperators) (l r : OperandFacts w) :
    Except AssertionFailure (Option (KnownRange w)) :=
  let result : KnownRange w :=
    { u := (tryConst r.u).or ((tryConst l.u).or (smallerBound l.u r.u))
      bits := some (llvm.and l.known r.known)
      undefFree := l.undefFree && r.undefFree
      poisonFree := l.poisonFree && r.poisonFree }
  if result.u.isNone && result.bitsUnknown then .ok none
  else conclude llvm result

/-- At least the larger lower bound, at most the bits of the larger upper
bound. -/
def orBounds (l r : Option (BitVec w × BitVec w)) : Option (BitVec w × BitVec w) :=
  match l, r with
  | some (lo, hi), some (lo', hi') =>
    let maxBits := max (activeBits hi) (activeBits hi')
    some (if lo'.ult lo then lo else lo',
      if maxBits = 0 then 0#w else lowBitsSet w maxBits)
  | _, _ => none

def transferOr (llvm : BitOperators) (l r : OperandFacts w) :
    Except AssertionFailure (Option (KnownRange w)) :=
  let result : KnownRange w :=
    { u := orBounds l.u r.u
      bits := some (llvm.or l.known r.known)
      undefFree := l.undefFree && r.undefFree
      poisonFree := l.poisonFree && r.poisonFree }
  if result.u.isNone && result.bitsUnknown then .ok none
  else conclude llvm result

def transferXor (llvm : BitOperators) (l r : OperandFacts w) :
    Except AssertionFailure (Option (KnownRange w)) :=
  let result : KnownRange w :=
    { bits := some (llvm.xor l.known r.known)
      undefFree := l.undefFree && r.undefFree
      poisonFree := l.poisonFree && r.poisonFree }
  if result.bitsUnknown then .ok none
  else (deriveBitsFromIntervals llvm result).map some

def transferURem (llvm : BitOperators) (l r : OperandFacts w) :
    Except AssertionFailure (Option (KnownRange w)) :=
  match r.u with
  | some (lo, hi) =>
    if lo = 0#w then .ok none
    else
      conclude llvm
        { u := some (0#w, hi - 1#w)
          bits := some (llvm.urem l.known r.known)
          undefFree := l.undefFree && r.undefFree
          poisonFree := l.poisonFree && r.poisonFree }
  | none => .ok none

def transferUDiv (llvm : BitOperators) (l r : OperandFacts w) :
    Except AssertionFailure (Option (KnownRange w)) :=
  match r.u, l.u with
  | some (lo', hi'), some (lo, hi) =>
    if lo' = 0#w then .ok none
    else do
      let least ← checkedUdiv lo hi'
      let most ← checkedUdiv hi lo'
      conclude llvm
        { u := some (least, most)
          bits := some (llvm.udiv l.known r.known)
          undefFree := l.undefFree && r.undefFree
          poisonFree := l.poisonFree && r.poisonFree }
  | _, _ => .ok none

/-- A constant amount, or the smallest value shifted the most up to the
largest shifted the least. -/
def lshrBounds (l r : Option (BitVec w × BitVec w)) (shift : Nat) :
    Except AssertionFailure (Option (BitVec w × BitVec w)) :=
  match l, r with
  | none, _ => .ok none
  | some (lo, hi), r =>
    if shift < w then .ok (some (lo >>> shift, hi >>> shift))
    else
      match r with
      | none => .ok none
      | some (lo', hi') => do
          let hiAmt ← checkedAmount w (limitedAmount hi')
          let loAmt ← checkedAmount w (limitedAmount lo')
          .ok (some (lo >>> hiAmt, hi >>> loAmt))

def transferLShr (llvm : BitOperators) (l r : OperandFacts w) (constant : Option Nat) :
    Except AssertionFailure (Option (KnownRange w)) :=
  let shift := shiftInRange constant r
  if !shift.1 then .ok none
  else do
    let u ← lshrBounds l.u r.u shift.2
    let result : KnownRange w :=
      { u := u
        bits := some (llvm.lshr l.known r.known)
        undefFree := l.undefFree && r.undefFree
        poisonFree := l.poisonFree && r.poisonFree }
    if result.isEmpty then .ok none else conclude llvm result

def ashrBounds (l r : Option (BitVec w × BitVec w)) (shift : Nat) :
    Except AssertionFailure (Option (BitVec w × BitVec w)) :=
  match l, r with
  | none, _ => .ok none
  | some (lo, hi), r =>
    if shift < w then
      .ok (some (lo.sshiftRight shift, hi.sshiftRight shift))
    else
      match r with
      | none => .ok none
      | some (lo', _) => do
          let loAmt ← checkedAmount w (limitedAmount lo')
          .ok (some (lo.sshiftRight loAmt, hi.sshiftRight loAmt))

def transferAShr (llvm : BitOperators) (l r : OperandFacts w) (constant : Option Nat) :
    Except AssertionFailure (Option (KnownRange w)) :=
  let shift := shiftInRange constant r
  if !shift.1 then .ok none
  else do
    let s ← ashrBounds l.s r.u shift.2
    let result : KnownRange w :=
      { s := s
        bits := some (llvm.ashr l.known r.known)
        undefFree := l.undefFree && r.undefFree
        poisonFree := l.poisonFree && r.poisonFree }
    if result.isEmpty then .ok none else conclude llvm result

def shlBounds (amount : Nat) (bounds : BitVec w × BitVec w) : BitVec w × BitVec w :=
  (bounds.1 <<< amount, bounds.2 <<< amount)

def transferShl (llvm : BitOperators) (nuw nsw : Bool)
    (l r : OperandFacts w) (constant : Option Nat) :
    Except AssertionFailure (Option (KnownRange w)) :=
  let shift := shiftInRange constant r
  let result : KnownRange w :=
    { u := if shift.2 < w && nuw then l.u.map (shlBounds shift.2) else none
      s := if shift.2 < w && nsw then l.s.map (shlBounds shift.2) else none
      bits := some (llvm.shl nuw nsw l.known r.known)
      undefFree := l.undefFree && r.undefFree
      poisonFree := l.poisonFree && r.poisonFree }
  if !shift.1 || result.isEmpty then .ok none else conclude llvm result

/-- The end of `add`, `sub` and `mul`: with a flag, `poison_free` needs one of
the bounds. -/
def concludeWrapping (llvm : BitOperators) (nuw nsw : Bool)
    (u s : Option (BitVec w × BitVec w)) (known : KnownBits w) (l r : OperandFacts w) :
    Except AssertionFailure (Option (KnownRange w)) :=
  let result : KnownRange w :=
    { u := u
      s := s
      bits := some known
      undefFree := l.undefFree && r.undefFree
      poisonFree :=
        if !(nuw || nsw) || u.isSome || s.isSome then
          l.poisonFree && r.poisonFree
        else false }
  if result.isEmpty then .ok none else conclude llvm result

def transferAdd (llvm : BitOperators) (nuw nsw : Bool) (l r : OperandFacts w) :
    Except AssertionFailure (Option (KnownRange w)) :=
  let u := match nuw, l.u, r.u with
    | true, some (lo, hi), some (lo', hi') => some (lo + lo', hi + hi')
    | _, _, _ => none
  let s := match nsw, l.s, r.s with
    | true, some (lo, hi), some (lo', hi') => some (lo + lo', hi + hi')
    | _, _, _ => none
  concludeWrapping llvm nuw nsw u s (llvm.computeForAddSub true nsw nuw l.known r.known) l r

def transferSub (llvm : BitOperators) (nuw nsw : Bool) (l r : OperandFacts w) :
    Except AssertionFailure (Option (KnownRange w)) :=
  let u := match nuw, l.u, r.u with
    | true, some (_, hi), some (lo', _) =>
      if lo'.ule hi then some (0#w, hi - lo') else none
    | _, _, _ => none
  let s := match nsw, l.s, r.s with
    | true, some (lo, hi), some (lo', hi') =>
      if !lo.msb && !hi'.msb && lo'.sle hi then some (0#w, hi - lo')
      else none
    | _, _, _ => none
  concludeWrapping llvm nuw nsw u s (llvm.computeForAddSub false nsw nuw l.known r.known) l r

def transferMul (llvm : BitOperators) (nuw nsw : Bool) (l r : OperandFacts w) :
    Except AssertionFailure (Option (KnownRange w)) :=
  let u := match nuw, l.u, r.u with
    | true, some (lo, hi), some (lo', hi') => some (lo * lo', hi * hi')
    | _, _, _ => none
  let s := match nsw, l.s, r.s with
    | true, some (lo, hi), some (lo', hi') =>
      if !lo.msb && !lo'.msb then some (lo * lo', hi * hi') else none
    | _, _, _ => none
  concludeWrapping llvm nuw nsw u s (llvm.mul l.known r.known) l r

def zextBounds (w : Nat) (bounds : BitVec v × BitVec v) : BitVec w × BitVec w :=
  (bounds.1.setWidth w, bounds.2.setWidth w)

def transferZExt (llvm : BitOperators) (w : Nat) (a : OperandFacts v) :
    Except AssertionFailure (Option (KnownRange w)) :=
  let result : KnownRange w :=
    { u := match a.u, a.s with
        | some b, _ => some (zextBounds w b)
        | none, some b => if !b.1.msb then some (zextBounds w b) else none
        | none, none => none
      bits := some (llvm.zext w a.known)
      undefFree := a.undefFree
      poisonFree := a.poisonFree }
  if a.range.isNone || result.u.isNone && result.bitsUnknown then .ok none
  else conclude llvm result

def sextBounds (w : Nat) (bounds : BitVec v × BitVec v) : BitVec w × BitVec w :=
  (bounds.1.signExtend w, bounds.2.signExtend w)

def transferSExt (llvm : BitOperators) (w : Nat) (a : OperandFacts v) :
    Except AssertionFailure (Option (KnownRange w)) :=
  let result : KnownRange w :=
    { s := match a.s, a.u with
        | some b, _ => some (sextBounds w b)
        | none, some b => if !b.2.msb then some (sextBounds w b) else none
        | none, none => none
      bits := some (llvm.sext w a.known)
      undefFree := a.undefFree
      poisonFree := a.poisonFree }
  if a.range.isNone || result.s.isNone && result.bitsUnknown then .ok none
  else conclude llvm result

def truncBounds (w : Nat) (bounds : Option (BitVec v × BitVec v)) : Option (BitVec w × BitVec w) :=
  match bounds with
  | some (lo, hi) =>
    if activeBits hi ≤ w then some (lo.setWidth w, hi.setWidth w) else none
  | none => none

def transferTrunc (llvm : BitOperators) (w : Nat) (a : OperandFacts v) :
    Except AssertionFailure (Option (KnownRange w)) :=
  let result : KnownRange w :=
    { u := truncBounds w a.u
      bits := some (llvm.trunc w a.known)
      undefFree := a.undefFree
      poisonFree := a.poisonFree }
  if a.range.isNone || result.u.isNone && result.bitsUnknown then .ok none
  else conclude llvm result

/-- The binary operators of `transfer`. -/
def transferBinop (llvm : BitOperators) (op : BinOp) (l r : OperandFacts w)
    (constant : Option Nat) :
    Except AssertionFailure (Option (KnownRange w)) :=
  match op with
  | .and => transferAnd llvm l r
  | .or _ => transferOr llvm l r
  | .xor => transferXor llvm l r
  | .urem => transferURem llvm l r
  | .udiv _ => transferUDiv llvm l r
  | .lshr _ => transferLShr llvm l r constant
  | .ashr _ => transferAShr llvm l r constant
  | .shl nuw nsw => transferShl llvm nuw nsw l r constant
  | .add nuw nsw => transferAdd llvm nuw nsw l r
  | .sub nuw nsw => transferSub llvm nuw nsw l r
  | .mul nuw nsw => transferMul llvm nuw nsw l r
  | .sdiv _ | .srem => .ok none

def transfer (llvm : BitOperators) (map : RangeMap) :
    {w : Nat} → Rhs Reg w → Except AssertionFailure (Option (KnownRange w))
  | _, .select cond a b =>
    transferSelect llvm (factsOf map cond) (factsOf map a) (factsOf map b)
  | _, .freeze a => transferFreeze llvm (factsOf map a)
  | _, .binop op a b =>
    transferBinop llvm op (factsOf map a) (factsOf map b) (constShift b)
  | w, .zext _ _ a => transferZExt llvm w (factsOf map a)
  | w, .sext _ a => transferSExt llvm w (factsOf map a)
  | w, .trunc _ _ _ a => transferTrunc llvm w (factsOf map a)
  | _, .icmp _ _ _ | _, .withOverflow _ _ _ => .ok none

end

/-- One iteration of the loop of `computeRanges`. -/
def computeRange (llvm : BitOperators) (map : RangeMap)
    (inst : Instruction) : Except AssertionFailure RangeMap :=
  match inst.op with
  | .value rhs => do
      match ← transfer llvm map rhs with
      | some range => .ok (map.insert (.inst inst.id) range)
      | none => .ok map
  | .assume _ => .ok map

def computeRanges (llvm : BitOperators) (insts : List Instruction)
    (seed : RangeMap) : Except AssertionFailure RangeMap :=
  insts.foldlM (computeRange llvm) seed

end AliveNext.TvNext
