import AliveNext.Smt.StandsFor

/-!
# Constants, shapes and folding

The predicates with which `smt/expr.cpp` looks at terms, and what it asks of the
solver library when it puts them together: an order on terms (their ids), and a
simplifier that folds applications to constants.
-/

namespace AliveNext.Smt

def Op.folds : Op → Bool
  | .constArray _ | .store | .select | .fn _ _ => false
  | _ => true

/-- `std::bit_width`. -/
def bitWidth (n : Nat) : Nat := if n = 0 then 0 else Nat.log2 n + 1

def countrOne (n : Nat) : Nat := ((List.range 64).takeWhile n.testBit).length

def countrZero (n : Nat) : Nat := ((List.range 64).takeWhile fun i => !n.testBit i).length

def countlZero (n : Nat) : Nat := 64 - bitWidth n

namespace Expr

/-- `expr::isConst`: a numeral or one of the two boolean constants. -/
def isConst : Expr → Bool
  | .num _ _ | .bool _ => true
  | _ => false

def isTrue : Expr → Bool
  | .bool true => true
  | _ => false

def isFalse : Expr → Bool
  | .bool false => true
  | _ => false

/-- `expr::isUInt`: the value of a numeral that fits 64 bits. -/
def isUInt : Expr → Option Nat
  | .num _ value => if value.toNat < 2 ^ 64 then some value.toNat else none
  | _ => none

/-- `expr::isInt`: the signed value of a numeral of at most 64 bits. The solver
refuses a 64-bit numeral that does not fit `int64_t`; narrower ones are sign
extended. -/
def isInt : Expr → Option Int
  | .num bits value =>
    if bits > 64 ∨ 2 ^ 63 ≤ value.toNat then none else some value.toInt
  | _ => none

def isZero (e : Expr) : Bool := e.isUInt == some 0

def isOne (e : Expr) : Bool := e.isUInt == some 1

def alwaysFalse (_ : Expr) : Bool := false

def mkUInt (n bits : Nat) : Expr := .num bits (BitVec.ofNat bits n)

def mkInt (n : Int) (bits : Nat) : Expr := .num bits (BitVec.ofInt bits n)

def isAllOnes (e : Expr) : Bool := e == mkInt (-1) e.bits

def isEq : Expr → Option (Expr × Expr)
  | .app .eq [a, b] => some (a, b)
  | _ => none

def isIf : Expr → Option (Expr × Expr × Expr)
  | .app .ite [cond, then_, els] => some (cond, then_, els)
  | _ => none

def isExtract : Expr → Option (Expr × Nat × Nat)
  | .app (.extract high low) [e] => some (e, high, low)
  | _ => none

def isSignExt : Expr → Option Expr
  | .app (.signExt _) [val] => some val
  | _ => none

def isBinOp (op : Op) : Expr → Option (Expr × Expr)
  | .app op' [a, b] => if op' = op then some (a, b) else none
  | _ => none

def isAShr : Expr → Option (Expr × Expr) := isBinOp (.bv .ashr)

def isAnd : Expr → Option (Expr × Expr) := isBinOp .and

def isAdd : Expr → Option (Expr × Expr) := isBinOp (.bv .add)

def isURem : Expr → Option (Expr × Expr) := isBinOp (.bv .urem)

def isNot : Expr → Option Expr
  | .app .not [neg] => some neg
  | _ => none

/-- `expr::isBasePlusOffset`; every term has this shape. -/
def isBasePlusOffset (e : Expr) : Expr × Nat :=
  match e.isAdd with
  | some (a, b) =>
    match a.isUInt, b.isUInt with
    | some offset, _ => (b, offset)
    | none, some offset => (a, offset)
    | none, none => (e, 0)
  | none => (e, 0)

/-- `expr::min_leading_zeros`. Of the two halves `isConcat` gives only the first
is used. -/
def minLeadingZeros : Expr → Nat
  | .app .concat (a :: _ :: _) => a.minLeadingZeros
  | .num bits value =>
    if value.toNat < 2 ^ 64 then bits - bitWidth value.toNat else 0
  | _ => 0

def minTrailingOnes (e : Expr) : Nat :=
  match e.isUInt with
  | some n => countrOne n
  | none => 0

end Expr

/-- What the constructors use of the solver library. -/
structure Z3 where
  less : Expr → Expr → Bool
  simplify : Expr → Expr
  equal : ∀ e : Expr, e.wellSorted = true →
    (simplify e).wellSorted = true ∧ ∀ M, (simplify e).eval M = e.eval M
  folds : ∀ op args, op.folds = true → (Expr.app op args).wellSorted = true →
    (∀ a ∈ args, a.isConst = true) → (simplify (.app op args)).isConst = true

namespace Expr

variable (z : Z3)

/-- `simplify_const`: the term is simplified if all its inputs are constants. -/
def simplifyConst (e : Expr) (inputs : List Expr) : Expr :=
  if inputs.all isConst then z.simplify e else e

/-- `binop_fold`, with the solver's constructor given by its operator. -/
def binopFold (op : Op) (a b : Expr) : Expr :=
  simplifyConst z (.app op [a, b]) [a, b]

def unopFold (op : Op) (a : Expr) : Expr :=
  simplifyConst z (.app op [a]) [a]

/-- `binop_commutative` with two arguments: the operands by id. -/
def binopOrdered (op : Op) (a b : Expr) : Expr :=
  if z.less a b then binopFold z op a b else binopFold z op b a

section

variable {e a b : Expr} {w : Nat}

section

variable (const : e.isConst = true)

include const

theorem size_of_isConst : e.size = 1 := by
  cases e with
  | num bits value => rfl
  | bool value => rfl
  | var name s => cases const
  | bound index s => cases const
  | app op args => cases const
  | lambda domain name body => cases const

theorem nonzeroDivisors_of_isConst (M : Model) : e.NonzeroDivisors M := by
  cases e with
  | num bits value => trivial
  | bool value => trivial
  | var name s => cases const
  | bound index s => cases const
  | app op args => cases const
  | lambda domain name body => cases const

theorem eq_num_of_isConst (sorted : e.HasSort (.bv w)) : ∃ x : BitVec w, e = .num w x := by
  cases e with
  | num bits value =>
    obtain ⟨-, same⟩ := hasSort_num.1 sorted
    cases same
    exact ⟨value, rfl⟩
  | bool value => cases hasSort_bool.1 sorted
  | var name s => cases const
  | bound index s => cases const
  | app op args => cases const
  | lambda domain name body => cases const

theorem eq_bool_of_isConst (sorted : e.HasSort .bool) : ∃ x, e = .bool x := by
  cases e with
  | num bits value => cases (hasSort_num.1 sorted).2
  | bool value => exact ⟨value, rfl⟩
  | var name s => cases const
  | bound index s => cases const
  | app op args => cases const
  | lambda domain name body => cases const

end

theorem isTrue_iff : e.isTrue = true ↔ e = .bool true := by
  unfold isTrue
  split <;> simp_all

theorem isFalse_iff : e.isFalse = true ↔ e = .bool false := by
  unfold isFalse
  split <;> simp_all

theorem isUInt_eq_some {n : Nat} : e.isUInt = some n ↔
      ∃ (v : Nat) (x : BitVec v), e = .num v x ∧ x.toNat = n ∧ n < 2 ^ 64 := by
  unfold isUInt
  constructor
  · intro known
    split at known
    · next v x =>
      split at known
      · next small =>
        cases known
        exact ⟨v, x, rfl, rfl, small⟩
      · cases known
    · cases known
  · rintro ⟨v, x, rfl, rfl, small⟩
    exact if_pos small

variable (sorted : e.HasSort (.bv w))

include sorted

theorem isUInt_sorted {n : Nat} (known : e.isUInt = some n) :
    e = mkUInt n w ∧ n < 2 ^ w ∧ n < 2 ^ 64 := by
  obtain ⟨v, x, rfl, rfl, small⟩ := isUInt_eq_some.1 known
  obtain ⟨-, same⟩ := hasSort_num.1 sorted
  cases same
  exact ⟨by rw [mkUInt, BitVec.ofNat_toNat, BitVec.setWidth_eq], x.isLt, small⟩

theorem isZero_sorted : e.isZero = true ↔ e = mkUInt 0 w := by
  rw [isZero, beq_iff_eq]
  constructor
  · intro known
    exact (isUInt_sorted sorted known).1
  · rintro rfl
    simp [mkUInt, isUInt]

theorem isOne_sorted : e.isOne = true ↔ e = mkUInt 1 w := by
  rw [isOne, beq_iff_eq]
  constructor
  · intro known
    exact (isUInt_sorted sorted known).1
  · rintro rfl
    have small : 1 % 2 ^ w = 1 :=
      Nat.mod_eq_of_lt (Nat.one_lt_two_pow sorted.pos.ne')
    simp [mkUInt, isUInt, small]

theorem isAllOnes_sorted : e.isAllOnes = true ↔ e = .num w (BitVec.allOnes w) := by
  have ones : BitVec.ofInt w (-1) = BitVec.allOnes w := by
    rw [BitVec.ofInt_neg, ← BitVec.neg_one_eq_allOnes]
    rfl
  rw [isAllOnes, beq_iff_eq, sorted.bits_eq, mkInt, ones]

end

variable {op : Op} {args : List Expr} {s : Srt}

variable (folds : op.folds = true) (sorted : HasSort (.app op args) s)

include folds sorted

theorem isConst_simplify (const : ∀ a ∈ args, a.isConst = true) :
    (simplifyConst z (.app op args) args).isConst = true := by
  rw [simplifyConst, if_pos (List.all_eq_true.2 const)]
  exact z.folds op args folds sorted.wellSorted const

theorem simplifyConst_same : (simplifyConst z (.app op args) args).Same (.app op args) := by
  rw [simplifyConst]
  split
  · next const =>
    have isConst := z.folds op args folds sorted.wellSorted (List.all_eq_true.1 const)
    obtain ⟨wellSorted, equal⟩ := z.equal _ sorted.wellSorted
    constructor
    · intro t sorted'
      refine ⟨wellSorted, ?_⟩
      rw [← sorted'.sort_eq, ← eval_sort default wellSorted,
        ← eval_sort default sorted'.wellSorted, equal]
    · exact fun M _ => nonzeroDivisors_of_isConst isConst M
    · exact equal
  · exact .refl _

theorem size_simplifyConst : (simplifyConst z (.app op args) args).size ≤ size (.app op args) := by
  rw [simplifyConst]
  split
  · next const =>
    rw [size_of_isConst (z.folds op args folds sorted.wellSorted (List.all_eq_true.1 const))]
    exact size_pos _
  · exact le_refl _

end Expr

end AliveNext.Smt
