import Mathlib

/-!
# Terms of the solver

`smt::expr` is a handle on a hash-consed solver term, so pointer equality
(`expr::eq`) is equality of terms. This module has the sorts, the terms the
constructors of `smt/expr.cpp` take apart and put together, and their value in
a model. Operators the constructors never look at (floating point, uninterpreted
functions) are applications of a named function that the model interprets.
-/

namespace AliveNext.Smt

/-- Sorts of terms; `other` numbers the sorts without operators of their own
here (floating point). -/
inductive Srt where
  | bool
  | bv (bits : Nat)
  | array (domain range : Srt)
  | other (kind : Nat)
  deriving DecidableEq, Repr

/-- Bit-vectors have at least one bit (`mkBVSort` asserts it). -/
def Srt.wf : Srt → Bool
  | .bool => true
  | .bv bits => 0 < bits
  | .array domain range => domain.wf && range.wf
  | .other _ => true

def Srt.isBV : Srt → Bool
  | .bv _ => true
  | _ => false

def Srt.bits : Srt → Nat
  | .bv bits => bits
  | _ => 0

def Srt.Val : Srt → Type
  | .bool => Bool
  | .bv bits => BitVec bits
  | .array domain range => domain.Val → range.Val
  | .other _ => Nat

def Srt.default : (s : Srt) → s.Val
  | .bool => false
  | .bv bits => BitVec.ofNat bits 0
  | .array _ range => fun _ => range.default
  | .other _ => (0 : Nat)

inductive Value where
  | bool (value : Bool)
  | bv (bits : Nat) (value : BitVec bits)
  | array (domain range : Srt) (value : domain.Val → range.Val)
  | other (kind : Nat) (value : Nat)

namespace Value

def sort : Value → Srt
  | .bool _ => .bool
  | .bv bits _ => .bv bits
  | .array domain range _ => .array domain range
  | .other kind _ => .other kind

def of : (s : Srt) → s.Val → Value
  | .bool, value => .bool value
  | .bv bits, value => .bv bits value
  | .array domain range, value => .array domain range value
  | .other kind, value => .other kind value

def toBV (bits : Nat) : Value → BitVec bits
  | .bv _ value => value.setWidth bits
  | _ => 0

def toBool : Value → Bool
  | .bool value => value
  | _ => false

def toNat : Value → Nat
  | .bv _ value => value.toNat
  | _ => 0

def val : (v : Value) → v.sort.Val
  | .bool value => value
  | .bv _ value => value
  | .array _ _ value => value
  | .other _ value => value

def get (s : Srt) (v : Value) : s.Val :=
  if same : v.sort = s then same ▸ v.val else s.default

noncomputable def same : Value → Value → Bool
  | .bool a, .bool b => a == b
  | .bv v a, .bv w b => v == w && a.toNat == b.toNat
  | a, b => @decide (a = b) (Classical.propDecidable _)

def append : Value → Value → Value
  | .bv v a, .bv w b => .bv (v + w) (a ++ b)
  | a, _ => a

end Value

/-- Operators on bit-vectors of one width. -/
inductive BvOp where
  | add | mul | sdiv | udiv | srem | urem | shl | ashr | lshr | and | or | xor
  deriving DecidableEq, Repr

/-- What SMT-LIB says the operator computes. -/
def BvOp.denote {w : Nat} : BvOp → BitVec w → BitVec w → BitVec w
  | .add, a, b => a + b
  | .mul, a, b => a * b
  | .sdiv, a, b => a.smtSDiv b
  | .udiv, a, b => a.smtUDiv b
  | .srem, a, b => a.srem b
  | .urem, a, b => a % b
  | .shl, a, b => a <<< b
  | .ashr, a, b => a.sshiftRight' b
  | .lshr, a, b => a >>> b
  | .and, a, b => a &&& b
  | .or, a, b => a ||| b
  | .xor, a, b => a ^^^ b

/-- The operators that the solver's simplifier flattens, so that an application
may have more than two arguments. -/
def BvOp.flattens : BvOp → Bool
  | .add | .mul | .and | .or | .xor => true
  | _ => false

inductive Op where
  | bv (op : BvOp)
  | bvnot
  | ule
  | sle
  | concat
  | extract (high low : Nat)
  | signExt (amount : Nat)
  | eq
  | ite
  | and
  | or
  | not
  | constArray (domain : Srt)
  | store
  | select
  | fn (name : String) (range : Srt)
  deriving DecidableEq, Repr

namespace Op

/-- The sorts an application of the operator may have as arguments. -/
def accepts (op : Op) (sorts : List Srt) : Bool :=
  match op with
  | .bv op =>
    match sorts with
    | .bv w :: s :: rest =>
      (s :: rest).all (· == .bv w) && (op.flattens || rest.isEmpty)
    | _ => false
  | .bvnot | .signExt _ =>
    match sorts with
    | [s] => s.isBV
    | _ => false
  | .ule | .sle =>
    match sorts with
    | [s, t] => s.isBV && s == t
    | _ => false
  | .concat => 2 ≤ sorts.length && sorts.all Srt.isBV
  | .extract high low =>
    match sorts with
    | [.bv w] => low ≤ high && high < w
    | _ => false
  | .eq =>
    match sorts with
    | [s, t] => s == t
    | _ => false
  | .ite =>
    match sorts with
    | [c, s, t] => c == .bool && s == t
    | _ => false
  | .and | .or => 2 ≤ sorts.length && sorts.all (· == .bool)
  | .not => sorts == [.bool]
  | .constArray domain => sorts.length == 1 && domain.wf
  | .store =>
    match sorts with
    | [.array domain range, i, v] => domain == i && range == v
    | _ => false
  | .select =>
    match sorts with
    | [.array domain _, i] => domain == i
    | _ => false
  | .fn _ range => range.wf

def sort (op : Op) (sorts : List Srt) : Srt :=
  match op with
  | .bv _ | .bvnot | .store => sorts.headD .bool
  | .concat => .bv (sorts.map Srt.bits).sum
  | .extract high low => .bv (high - low + 1)
  | .signExt amount => .bv ((sorts.headD .bool).bits + amount)
  | .ite => sorts.getD 1 .bool
  | .constArray domain => .array domain (sorts.headD .bool)
  | .select =>
    match sorts with
    | .array _ range :: _ => range
    | _ => .bool
  | .fn _ range => range
  | .ule | .sle | .eq | .and | .or | .not => .bool

end Op

/-- An interpretation of the free constants and functions, with the values of
the variables that an enclosing binder introduces (numbered from the inside). -/
structure Model where
  var : String → (s : Srt) → s.Val
  fn : String → List Value → (s : Srt) → s.Val
  bound : Nat → (s : Srt) → s.Val

instance : Inhabited Model :=
  ⟨fun _ s => s.default, fun _ _ s => s.default, fun _ s => s.default⟩

def Model.push (M : Model) (domain : Srt) (index : domain.Val) : Model :=
  { M with bound := fun
      | 0, s => (Value.of domain index).get s
      | k + 1, s => M.bound k s }

noncomputable def Op.denote (op : Op) (M : Model) (args : List Value) : Value :=
  match op with
  | .bv op =>
    match args with
    | .bv w a :: rest => .bv w (rest.foldl (fun acc b => op.denote acc (b.toBV w)) a)
    | _ => .bool false
  | .bvnot =>
    match args with
    | [.bv w a] => .bv w (~~~a)
    | _ => .bool false
  | .ule =>
    match args with
    | [.bv w a, b] => .bool (a.ule (b.toBV w))
    | _ => .bool false
  | .sle =>
    match args with
    | [.bv w a, b] => .bool (a.sle (b.toBV w))
    | _ => .bool false
  | .concat =>
    match args with
    | a :: rest => rest.foldl Value.append a
    | _ => .bool false
  | .extract high low =>
    match args with
    | [.bv _ a] => .bv (high - low + 1) (a.extractLsb high low)
    | _ => .bool false
  | .signExt amount =>
    match args with
    | [.bv w a] => .bv (w + amount) (a.signExtend (w + amount))
    | _ => .bool false
  | .eq =>
    match args with
    | [a, b] => .bool (a.same b)
    | _ => .bool false
  | .ite =>
    match args with
    | [c, a, b] => if c.toBool then a else b
    | _ => .bool false
  | .and => .bool (args.all Value.toBool)
  | .or => .bool (args.any Value.toBool)
  | .not => .bool (!args.any Value.toBool)
  | .constArray domain =>
    match args with
    | [a] => .array domain a.sort fun _ => a.val
    | _ => .bool false
  | .store =>
    match args with
    | [.array domain range a, i, v] =>
      .array domain range fun j =>
        if (Value.of domain j).same i then v.get range else a j
    | _ => .bool false
  | .select =>
    match args with
    | [.array domain range a, i] => .of range (a (i.get domain))
    | _ => .bool false
  | .fn name range => .of range (M.fn name args range)

/-- Terms: numerals, the two boolean constants, free and bound variables,
applications (`Z3_APP_AST`) and lambdas over one variable. -/
inductive Expr where
  | num (bits : Nat) (value : BitVec bits)
  | bool (value : Bool)
  | var (name : String) (sort : Srt)
  | bound (index : Nat) (sort : Srt)
  | app (op : Op) (args : List Expr)
  | lambda (domain : Srt) (name : String) (body : Expr)
  deriving Repr

namespace Expr

mutual

/-- Terms are compared by their structure, which hash consing makes the
comparison of two pointers. -/
def decEq : (a b : Expr) → Decidable (a = b)
  | .num v x, b =>
    match b with
    | .num w y => decidable_of_iff (∃ h : v = w, h ▸ x = y) (by
        constructor
        · rintro ⟨rfl, rfl⟩
          rfl
        · rintro ⟨⟩
          exact ⟨rfl, rfl⟩)
    | .bool _ | .var _ _ | .bound _ _ | .app _ _ | .lambda _ _ _ =>
      .isFalse (by simp)
  | .bool x, b =>
    match b with
    | .bool y => decidable_of_iff (x = y) (by simp)
    | .num _ _ | .var _ _ | .bound _ _ | .app _ _ | .lambda _ _ _ =>
      .isFalse (by simp)
  | .var x s, b =>
    match b with
    | .var y t => decidable_of_iff (x = y ∧ s = t) (by simp)
    | .num _ _ | .bool _ | .bound _ _ | .app _ _ | .lambda _ _ _ =>
      .isFalse (by simp)
  | .bound i s, b =>
    match b with
    | .bound j t => decidable_of_iff (i = j ∧ s = t) (by simp)
    | .num _ _ | .bool _ | .var _ _ | .app _ _ | .lambda _ _ _ =>
      .isFalse (by simp)
  | .app op args, b =>
    match b with
    | .app op' args' =>
      have : Decidable (args = args') := decEqs args args'
      decidable_of_iff (op = op' ∧ args = args') (by simp)
    | .num _ _ | .bool _ | .var _ _ | .bound _ _ | .lambda _ _ _ =>
      .isFalse (by simp)
  | .lambda d x body, b =>
    match b with
    | .lambda d' y body' =>
      have : Decidable (body = body') := decEq body body'
      decidable_of_iff (d = d' ∧ x = y ∧ body = body') (by simp)
    | .num _ _ | .bool _ | .var _ _ | .bound _ _ | .app _ _ =>
      .isFalse (by simp)

def decEqs : (a b : List Expr) → Decidable (a = b)
  | [], [] => .isTrue rfl
  | [], _ :: _ => .isFalse (by simp)
  | _ :: _, [] => .isFalse (by simp)
  | a :: as, b :: bs =>
    have : Decidable (a = b) := decEq a b
    have : Decidable (as = bs) := decEqs as bs
    decidable_of_iff (a = b ∧ as = bs) (by simp)

end

instance : DecidableEq Expr := decEq

mutual

/-- The sort of a term (`Z3_get_sort`). -/
def sort : Expr → Srt
  | .num bits _ => .bv bits
  | .bool _ => .bool
  | .var _ s => s
  | .bound _ s => s
  | .app op args => op.sort (sorts args)
  | .lambda domain _ body => .array domain body.sort

def sorts : List Expr → List Srt
  | [] => []
  | e :: es => e.sort :: sorts es

end

mutual

/-- Every application has arguments of the sorts that its operator takes. -/
def wellSorted : Expr → Bool
  | .num bits _ => 0 < bits
  | .bool _ => true
  | .var _ s => s.wf
  | .bound _ s => s.wf
  | .app op args => wellSortedAll args && op.accepts (sorts args)
  | .lambda domain _ body => domain.wf && body.wellSorted

def wellSortedAll : List Expr → Bool
  | [] => true
  | e :: es => e.wellSorted && wellSortedAll es

end

mutual

noncomputable def eval : Expr → Model → Value
  | .num bits value, _ => .bv bits value
  | .bool value, _ => .bool value
  | .var name s, M => .of s (M.var name s)
  | .bound index s, M => .of s (M.bound index s)
  | .app op args, M => op.denote M (evals args M)
  | .lambda domain _ body, M =>
    .array domain body.sort fun i => (body.eval (M.push domain i)).get body.sort

noncomputable def evals : List Expr → Model → List Value
  | [], _ => []
  | e :: es, M => e.eval M :: evals es M

end

mutual

/-- No remainder inside the term is taken by zero in the model. -/
def NonzeroDivisors : Expr → Model → Prop
  | .app op args, M =>
    NonzeroDivisorsAll args M ∧ (op = .bv .urem → ∀ b ∈ (evals args M).tail, b.toNat ≠ 0)
  | .lambda domain _ body, M =>
    ∀ i : domain.Val, body.NonzeroDivisors (M.push domain i)
  | _, _ => True

def NonzeroDivisorsAll : List Expr → Model → Prop
  | [], _ => True
  | e :: es, M => e.NonzeroDivisors M ∧ NonzeroDivisorsAll es M

end

mutual

/-- The number of nodes, an application to `n + 1` arguments counted as `n`
nested ones and a sign extension as the concatenation it may become. -/
def size : Expr → Nat
  | .app (.signExt _) args => sizes args + 2
  | .app _ args => sizes args + max 1 (args.length - 1)
  | .lambda _ _ body => body.size + 1
  | _ => 1

def sizes : List Expr → Nat
  | [] => 0
  | e :: es => e.size + sizes es

end

end Expr

end AliveNext.Smt
