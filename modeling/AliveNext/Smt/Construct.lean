import AliveNext.Smt.Connectives

/-!
# Extraction, concatenation, extension and equality

`extract`, `concat`, `sext` and `cmp_eq` call one another. Each is given here as
one round: what it does with the constructors it calls as a parameter (`Calls`).
A round is a list of rewrite rules, tried in the order of the source, and the
plain application if none applies. `calls n` runs rounds nested at most `n` deep
and gives `none` beyond; the default depth of `extract` is 3, the limit of
`AndExpr::add` is 16.
-/

namespace AliveNext.Smt

/-- The constructors that call one another. -/
structure Calls where
  extract : Expr → (high low depth : Nat) → Option Expr
  concat : Expr → Expr → Option Expr
  sext : Expr → (amount : Nat) → Option Expr
  cmpEq : Expr → Expr → Option Expr

/-- A rewrite rule that may apply (`some (some t)`), not apply (`some none`), or
be cut off with the calls it makes (`none`). -/
abbrev Rule := Option (Option Expr)

namespace Rule

def fire (t : Option Expr) : Rule := t.map some

def skip : Rule := some none

def first : List Rule → Expr → Option Expr
  | [], plain => some plain
  | rule :: rest, plain => do
    match ← rule with
    | some t => some t
    | none => first rest plain

end Rule

open Rule

namespace Expr

variable (r : Calls) (z : Z3)

/-- `expr::isConcat`. Of a flattened concatenation the arguments from the second
on are concatenated again. -/
def isConcat : Expr → Option (Option (Expr × Expr))
  | .app .concat (a :: b :: rest) => do
    let b ← rest.foldlM r.concat b
    some (some (a, b))
  | _ => some none

/-- `expr::sign`. -/
def signWith (e : Expr) : Option Expr := r.extract e (e.bits - 1) (e.bits - 1) 3

/-- `expr::isNegative`. -/
def isNegativeWith (e : Expr) : Option Expr := do
  let bit ← signWith r e
  r.cmpEq bit (mkUInt 1 bit.bits)

/-- `expr::zext`. -/
def zextWith (e : Expr) (amount : Nat) : Option Expr :=
  if amount = 0 then some e else r.concat (mkUInt 0 amount) e

/-- `expr::ule`. -/
def uleWith (a b : Expr) : Option Expr :=
  if a = b ∨ a.isZero ∨ b.isAllOnes then some (.bool true)
  else if b.isZero ∨ a.isAllOnes then r.cmpEq a b
  else if a.minLeadingZeros + b.minTrailingOnes ≥ a.bits then some (.bool true)
  else some (binopFold z .ule a b)

/-- `expr::ult`. -/
def ultWith (a b : Expr) : Option Expr :=
  match b.isUInt with
  | some n => if n = 0 then some (.bool false) else uleWith r z a (mkUInt (n - 1) a.bits)
  | none => (uleWith r z b a).map not

def extractOfExtract (e : Expr) (high low : Nat) : Rule :=
  match e.isExtract with
  | some (sub, _, low2) => fire (r.extract sub (high + low2) (low + low2) 3)
  | none => skip

def extractOfSignExt (e : Expr) (high low : Nat) : Rule :=
  match e.isSignExt with
  | some val =>
    if low = 0 then
      if high < val.bits then fire (r.extract val high 0 3)
      else fire (r.sext val (high - val.bits + 1))
    else skip
  | none => skip

def extractOfAShr (e : Expr) (high low : Nat) : Rule :=
  match e.isAShr with
  | some (a, b) =>
    match b.isUInt with
    | some shift =>
      if shift < a.bits ∧ high + shift < a.bits then
        fire (r.extract a (high + shift) (low + shift) 3)
      else skip
    | none => skip
  | none => skip

def extractOfConcat (e : Expr) (high low : Nat) : Rule := do
  match ← isConcat r e with
  | some (a, b) =>
    if high < b.bits then fire (r.extract b high low 3)
    else if low ≥ b.bits then fire (r.extract a (high - b.bits) (low - b.bits) 3)
    else if low = 0 then
      fire (do
        let a ← r.extract a (high - b.bits) 0 3
        r.concat a b)
    else if a.isConst ∨ b.isConst then
      fire (do
        let a ← r.extract a (high - b.bits) 0 3
        let b ← r.extract b (b.bits - 1) low 3
        r.concat a b)
    else skip
  | none => skip

def extractOfIf (e : Expr) (high low depth : Nat) : Rule :=
  match e.isIf with
  | some (cond, then_, els) => do
    let then_ ← r.extract then_ high low depth
    let els ← r.extract els high low depth
    if then_ = els then fire (some then_)
    else if then_.isConst ∧ els.isConst then fire (some (mkIf z cond then_ els))
    else skip
  | none => skip

/-- The loop of `simpl_bitwise` over the arguments; `extracted` is the common
extract so far, `none` once two differ. -/
def simplBitwise (absorbs : Expr → Bool) (high low depth : Nat) :
    (extracted : Option Expr) → List Expr → Rule
  | extracted, [] => some extracted
  | extracted, arg :: rest => do
    let arg ← r.extract arg high low depth
    if absorbs arg then fire (some arg)
    else if extracted = some arg then simplBitwise absorbs high low depth extracted rest
    else simplBitwise absorbs high low depth none rest

def extractOfBitwise (op : BvOp) (absorbs : Expr → Bool) (e : Expr) (high low depth : Nat) :
    Rule :=
  match e with
  | .app (.bv op') (arg :: rest) =>
    if op' = op then do
      let arg ← r.extract arg high low depth
      if absorbs arg then fire (some arg)
      else simplBitwise r absorbs high low depth (some arg) rest
    else skip
  | _ => skip

/-- `expr::extract`. -/
def extractRound (e : Expr) (high low depth : Nat) : Option Expr :=
  let plain := simplifyConst z (.app (.extract high low) [e]) [e]
  if low = 0 ∧ high = e.bits - 1 then some e
  else
    match depth with
    | 0 => some plain
    | depth + 1 =>
      first
        [extractOfExtract r e high low, extractOfSignExt r e high low, extractOfAShr r e high low,
          extractOfConcat r e high low,
          extractOfIf r z e high low depth,
          extractOfBitwise r .and isZero e high low depth,
          extractOfBitwise r .or isAllOnes e high low depth]
        plain

def concatExtracts (lhs rhs : Expr) : Rule :=
  match lhs.isExtract, rhs.isExtract with
  | some (a, h, l), some (b, h2, l2) =>
    if l = h2 + 1 then
      if a = b then fire (r.extract a h l2 3)
      -- (concat (extract (concat const X)) (extract X))
      else if l2 = 0 then do
        match ← isConcat r a with
        | some (aa, ab) =>
          if ab = b ∧ h - aa.bits = b.bits then fire (r.concat aa b) else skip
        | none => skip
      else skip
    else skip
  | _, _ => skip

/-- `extract_l concat (concat extract_r foo)`. -/
def concatExtractConcat (lhs rhs : Expr) : Rule :=
  match lhs.isExtract with
  | some (a, h, l) => do
    match ← isConcat r rhs with
    | some (b, c) =>
      match b.isExtract with
      | some (d, h2, l2) =>
        if l = h2 + 1 ∧ a = d then
          fire (do
            let joined ← r.extract a h l2 3
            r.concat joined c)
        else skip
      | none => skip
    | none => skip
  | none => skip

/-- `(concat (concat x extract) extract)`. -/
def concatConcatExtract (lhs rhs : Expr) : Rule := do
  match ← isConcat r lhs with
  | some (a, b) =>
    match b.isExtract, rhs.isExtract with
    | some (c, h, l), some (d, h2, l2) =>
      if l = h2 + 1 ∧ c = d then
        fire (do
          let joined ← r.extract c h l2 3
          r.concat a joined)
      else skip
    | _, _ => skip
  | none => skip

/-- `(concat const (concat const2 x))`. -/
def concatConsts (lhs rhs : Expr) : Rule :=
  if lhs.isConst then do
    match ← isConcat r rhs with
    | some (a, b) =>
      if a.isConst then
        fire (do
          let joined ← r.concat lhs a
          r.concat joined b)
      else skip
    | none => skip
  else skip

/-- `expr::concat`. -/
def concatRound (lhs rhs : Expr) : Option Expr :=
  first
    [concatExtracts r lhs rhs, concatExtractConcat r lhs rhs, concatConcatExtract r lhs rhs,
      concatConsts r lhs rhs]
    (binopFold z .concat lhs rhs)

/-- `expr::sext`. -/
def sextRound (e : Expr) (amount : Nat) : Option Expr :=
  if amount = 0 then some e
  else
    match e.isSignExt with
    | some val => r.sext val (e.bits - val.bits + amount)
    | none => do
      let negative ← isNegativeWith r e
      if negative.isFalse then zextWith r e amount
      else some (simplifyConst z (.app (.signExt amount) [e]) [e])

/-- Equal terms, and constants, which go to the right. -/
def eqOfConst (lhs rhs : Expr) : Rule :=
  if lhs = rhs then fire (some (.bool true))
  else if lhs.isConst then
    if rhs.isConst then fire (some (.bool false)) else fire (r.cmpEq rhs lhs)
  else if rhs.isTrue then fire (some lhs)
  else if rhs.isFalse then fire (some (not lhs))
  else skip

/-- `(= (= a bit) (= b bit)) -> (= a b)`. -/
def eqOfOneBit (lhs rhs : Expr) : Rule :=
  match lhs.isEq, rhs.isEq with
  | some (a, b), some (c, d) =>
    if a.sort = .bv 1 ∧ a = c then fire (r.cmpEq b d) else skip
  | _, _ => skip

/-- `(= (+ a c1) (+ a c2)) -> false`. -/
def eqOfOffsets (lhs rhs : Expr) : Rule :=
  let (lhsBase, lhsOffset) := lhs.isBasePlusOffset
  let (rhsBase, rhsOffset) := rhs.isBasePlusOffset
  if lhsBase = rhsBase ∧ lhsOffset ≠ rhsOffset then fire (some (.bool false)) else skip

/-- The pieces of a concatenation against those of a constant, from the top. -/
def eqPieces (rhs : Expr) : (high : Nat) → List Expr → AndExpr → Option AndExpr
  | _, [], eqs => some eqs
  | high, arg :: rest, eqs => do
    let low := high - arg.bits
    let piece ← r.extract rhs (high - 1) low 3
    let eq ← r.cmpEq arg piece
    eqPieces rhs low rest (eqs.add z 16 eq)

/-- `(concat x y) == const -> x == const[..] /\ y == const[..]`. -/
def eqOfConcatConst (lhs rhs : Expr) : Rule :=
  match lhs with
  | .app .concat args =>
    if rhs.isConst then do
      let eqs ← eqPieces r z rhs lhs.bits args {}
      fire (some eqs.toExpr)
    else skip
  | _ => skip

/-- What two pieces that start at bits `l` and `r` from the top add. If they are
not aligned only constants are compared, where they overlap. -/
def eqOfPieces (lIdx rIdx : Nat) (lhs rhs : Expr) (eqs : AndExpr) : Option AndExpr :=
  if lIdx = rIdx ∧ lhs.bits = rhs.bits then do
    let eq ← r.cmpEq lhs rhs
    some (eqs.add z 16 eq)
  else if lhs.isConst ∧ rhs.isConst then
    if lIdx ≥ rIdx ∧ lIdx < rIdx + rhs.bits then do
      let overlap := min (rhs.bits - (lIdx - rIdx)) lhs.bits
      let rOff := rIdx + rhs.bits - (lIdx + overlap)
      let a ← r.extract lhs (lhs.bits - 1) (lhs.bits - overlap) 3
      let b ← r.extract rhs (rOff + overlap - 1) rOff 3
      let eq ← r.cmpEq a b
      some (eqs.add z 16 eq)
    else if rIdx ≥ lIdx ∧ rIdx < lIdx + lhs.bits then do
      let overlap := min (lhs.bits - (rIdx - lIdx)) rhs.bits
      let lOff := lIdx + lhs.bits - (rIdx + overlap)
      let a ← r.extract lhs (lOff + overlap - 1) lOff 3
      let b ← r.extract rhs (rhs.bits - 1) (rhs.bits - overlap) 3
      let eq ← r.cmpEq a b
      some (eqs.add z 16 eq)
    else some eqs
  else some eqs

/-- The pieces of two concatenations side by side; the flag says whether all are
of equal width. -/
def eqZip : (lIdx rIdx : Nat) → (allAligned : Bool) → AndExpr → List Expr → List Expr →
    Option (Bool × AndExpr)
  | lIdx, rIdx, allAligned, eqs, lhs :: ls, rhs :: rs => do
    let eqs ← eqOfPieces r z lIdx rIdx lhs rhs eqs
    eqZip (lIdx + lhs.bits) (rIdx + rhs.bits) (allAligned && lhs.bits == rhs.bits) eqs ls rs
  | _, _, allAligned, eqs, _, _ => some (allAligned, eqs)

/-- `(concat ..) == (concat ..)`. -/
def eqOfConcats (lhs rhs : Expr) : Rule :=
  match lhs, rhs with
  | .app .concat ls, .app .concat rs =>
    if ls.length = rs.length then do
      let (allAligned, eqs) ← eqZip r z 0 0 true {} ls rs
      if allAligned ∨ eqs.toBool = false then fire (some eqs.toExpr) else skip
    else skip
  | _, _ => skip

def isVar : Expr → Bool
  | .var _ _ => true
  | .app (.fn _ _) [] => true
  | _ => false

/-- The rules for a conditional. -/
def eqOfIf (lhs rhs : Expr) : Rule :=
  match lhs.isIf with
  | some (c, t, e) =>
    -- (= (ite c t e) (ite c2 t e)) -> c == c2
    match rhs.isIf with
    | some (c2, t2, e2) =>
      if t = t2 ∧ e = e2 ∧ t ≠ e ∧ t.isConst ∧ e.isConst then fire (r.cmpEq c c2)
      else pushed c t e
    | none => pushed c t e
  | none => if rhs.isIf.isSome then fire (r.cmpEq rhs lhs) else skip
where
  /-- `(= (ite c t e) x) -> (ite c (= t x) (= e x))`. -/
  pushed (c t e : Expr) : Rule :=
    if rhs.isConst ∧ (t.isConst ∨ e.isConst) ∨ t.isConst ∧ e.isConst ∧ ¬rhs.isVar then
      fire (do
        let first ← r.cmpEq t rhs
        let second ← r.cmpEq e rhs
        some (mkIf z c first second))
    else skip

/-- `a + b == rhs -> false` if neither is negative and `rhs` is below one. -/
def eqOfAdd (lhs rhs : Expr) : Rule :=
  match lhs.isAdd with
  | some (a, b) => do
    let aNegative ← isNegativeWith r a
    let bNegative ← isNegativeWith r b
    let belowA ← ultWith r z rhs a
    let belowB ← ultWith r z rhs b
    if aNegative.isFalse ∧ bNegative.isFalse ∧ (belowA.isTrue ∨ belowB.isTrue) then
      fire (some (.bool false))
    else skip
  | none => skip

/-- `(a u% b) == c -> false if c u>= b`. -/
def eqOfURem (lhs rhs : Expr) : Rule :=
  match lhs.isURem with
  | some (_, b) => do
    let above ← uleWith r z b rhs
    if above.isTrue then fire (some (.bool false)) else skip
  | none => skip

def eqOfSignExt (lhs rhs : Expr) : Rule :=
  match lhs.isSignExt with
  | some a =>
    match rhs.isSignExt with
    | some b =>
      if a.bits = b.bits then fire (r.cmpEq a b) else zero a
    | none => zero a
  | none => skip
where
  /-- `(sext a) == 0 -> a == 0`. -/
  zero (a : Expr) : Rule :=
    if rhs.isZero then fire (r.cmpEq a (mkUInt 0 a.bits)) else skip

/-- `expr::cmp_eq` with simplification. -/
def cmpEqRound (lhs rhs : Expr) : Option Expr :=
  first
    [eqOfConst r lhs rhs, eqOfOneBit r lhs rhs, eqOfOffsets lhs rhs, eqOfConcatConst r z lhs rhs,
      eqOfConcats r z lhs rhs,
      eqOfIf r z lhs rhs,
      eqOfAdd r z lhs rhs,
      eqOfURem r z lhs rhs,
      eqOfSignExt r lhs rhs]
    (binopOrdered z .eq lhs rhs)

end Expr

/-- Rounds nested at most so deep. -/
def calls (z : Z3) : Nat → Calls
  | 0 => ⟨fun _ _ _ _ => none, fun _ _ => none, fun _ _ => none, fun _ _ => none⟩
  | depth + 1 =>
    let r := calls z depth
    { extract := Expr.extractRound r z
      concat := Expr.concatRound r z
      sext := Expr.sextRound r z
      cmpEq := Expr.cmpEqRound r z }

end AliveNext.Smt
