import AliveNext.Smt.Solver

/-!
# Boolean connectives, conditionals, and sets of conjuncts

`operator!`, `operator&&`, `operator||`, `implies`, `mkIf` and the accumulators
`AndExpr` and `OrExpr`. All of them keep the value in every model.
-/

namespace AliveNext.Smt

namespace Expr

/-- `operator!`. -/
def not (e : Expr) : Expr :=
  if e.isTrue then .bool false
  else if e.isFalse then .bool true
  else
    match e.isNot with
    | some neg => neg
    | none => .app .not [e]

/-- `operator&&`. -/
def and (a b : Expr) : Expr :=
  if a = b ∨ a.isFalse ∨ b.isTrue then a
  else if a.isTrue ∨ b.isFalse then b
  else .app .and [a, b]

/-- `b` when the terms are `(x & b)` and `(!x & b)`. -/
def commonConjunct (e f : Expr) : Option Expr :=
  match e.isAnd, f.isAnd with
  | some (a, b), some (c, d) =>
    if b = d ∧ (a.isNot = some c ∨ c.isNot = some a) then some b else none
  | _, _ => none

/-- `operator||`. -/
def or (a b : Expr) : Expr :=
  if a = b ∨ b.isFalse ∨ a.isTrue then a
  else if b.isTrue ∨ a.isFalse then b
  else if a.isNot = some b ∨ b.isNot = some a then .bool true
  else
    match commonConjunct a b with
    | some common => common
    | none => .app .or [a, b]

def implies (a b : Expr) : Expr :=
  if a = b then .bool true else or (not a) b

def notImplies (a b : Expr) : Expr :=
  if a = b then .bool false else and a (not b)

def mkAnd (vals : List Expr) : Expr := vals.foldl and (.bool true)

def mkOr (vals : List Expr) : Expr := vals.foldl or (.bool false)

/-- `(ite (= x 1) 1 0) -> x` and `(ite (= x 1) 0 1) -> (not x)` on one bit. -/
def oneBitIf (z : Z3) (cond then_ els : Expr) : Option Expr :=
  match cond.isEq with
  | some (lhs, rhs) =>
    if then_.sort = .bv 1 ∧ lhs.sort = .bv 1 then
      if then_.isOne ∧ els.isZero ∧ lhs.isOne then some rhs
      else if then_.isOne ∧ els.isZero ∧ rhs.isOne then some lhs
      else if then_.isZero ∧ els.isOne ∧ lhs.isOne then some (unopFold z .bvnot rhs)
      else if then_.isZero ∧ els.isOne ∧ rhs.isOne then some (unopFold z .bvnot lhs)
      else none
    else none
  | none => none

/-- `mkIf`, which calls itself; `none` when it needs more calls than given. -/
def mkIfWithin (z : Z3) : Nat → Expr → Expr → Expr → Option Expr
  | 0, _, _, _ => none
  | calls + 1, cond, then_, els =>
    if cond.isTrue ∨ then_ = els then some then_
    else if cond.isFalse then some els
    else if then_.isTrue ∨ cond = then_ then some (or cond els)
    else if then_.isFalse then some (and (not cond) els)
    else if els.isTrue then some (or (not cond) then_)
    else if els.isFalse then some (and cond then_)
    else
      match cond.isNot with
      | some notcond => mkIfWithin z calls notcond els then_
      | none =>
        match oneBitIf z cond then_ els with
        | some bit => some bit
        | none =>
          match els.isIf with
          | some (cond2, then2, else2) =>
            if then_ = then2 then mkIfWithin z calls (or cond cond2) then_ else2
            else some (.app .ite [cond, then_, els])
          | none => some (.app .ite [cond, then_, els])

def mkIfCalls (cond then_ els : Expr) : Nat :=
  2 * (then_.size + els.size) + cond.size

def mkIf (z : Z3) (cond then_ els : Expr) : Expr :=
  (mkIfWithin z (mkIfCalls cond then_ els) cond then_ els).getD (.app .ite [cond, then_, els])

def toBVBool (z : Z3) (e : Expr) : Expr := mkIf z e (mkUInt 1 1) (mkUInt 0 1)

end Expr

/-- `std::set<expr>`, which is ordered by ids. -/
structure ExprSet where
  elements : List Expr := []
  nodup : elements.Nodup := by simp

namespace ExprSet

def empty : ExprSet := {}

@[simp] theorem elements_empty : empty.elements = [] := rfl

def insert (z : Z3) (self : ExprSet) (e : Expr) : ExprSet :=
  if absent : e ∉ self.elements then
    { elements := self.elements.orderedInsert (fun a b => z.less a b = true) e
      nodup := (List.perm_orderedInsert _ e self.elements).nodup_iff.2
        (List.nodup_cons.2 ⟨absent, self.nodup⟩) }
  else self

def erase (self : ExprSet) (e : Expr) : ExprSet :=
  { elements := self.elements.erase e
    nodup := self.nodup.erase e }

variable {z : Z3} {self : ExprSet} {e f : Expr}

@[simp] theorem mem_insert : f ∈ (self.insert z e).elements ↔ f = e ∨ f ∈ self.elements := by
  rw [insert]
  split
  · rw [List.mem_orderedInsert]
  · next present =>
    rw [not_not] at present
    constructor
    · exact Or.inr
    · rintro (rfl | member)
      · exact present
      · exact member

@[simp] theorem mem_erase : f ∈ (self.erase e).elements ↔ f ≠ e ∧ f ∈ self.elements :=
  self.nodup.mem_erase_iff

theorem mem_foldl_insert (list : List Expr) :
    f ∈ (list.foldl (insert z) self).elements ↔ f ∈ list ∨ f ∈ self.elements := by
  induction list generalizing self with
  | nil => simp
  | cons e rest ih =>
    rw [List.foldl_cons, ih, mem_insert, List.mem_cons]
    tauto

theorem mem_foldl_erase (list : List Expr) :
    f ∈ (list.foldl erase self).elements ↔ f ∉ list ∧ f ∈ self.elements := by
  induction list generalizing self with
  | nil => simp
  | cons e rest ih =>
    rw [List.foldl_cons, ih, mem_erase, List.mem_cons]
    tauto

end ExprSet

structure AndExpr where
  exprs : ExprSet := ExprSet.empty

namespace AndExpr

/-- `AndExpr::add`, which splits a conjunction at most `limit` times deep. -/
def add (z : Z3) : (limit : Nat) → AndExpr → Expr → AndExpr
  | 0, self, e => if e.isTrue then self else ⟨self.exprs.insert z e⟩
  | limit + 1, self, e =>
    if e.isTrue then self
    else
      match e.isAnd with
      | some (a, b) => add z limit (add z limit self a) b
      | none => ⟨self.exprs.insert z e⟩

/-- `AndExpr::add` of another accumulator. -/
def addAll (z : Z3) (self other : AndExpr) : AndExpr :=
  ⟨other.exprs.elements.foldl (ExprSet.insert z) self.exprs⟩

def del (self other : AndExpr) : AndExpr :=
  ⟨other.exprs.elements.foldl ExprSet.erase self.exprs⟩

def contains (self : AndExpr) (e : Expr) : Bool := e ∈ self.exprs.elements

/-- `operator()`. -/
def toExpr (self : AndExpr) : Expr := Expr.mkAnd self.exprs.elements

/-- `operator bool`. -/
def toBool (self : AndExpr) : Bool := !self.contains (.bool false)

end AndExpr

structure OrExpr where
  exprs : ExprSet := ExprSet.empty

namespace OrExpr

def add (z : Z3) (self : OrExpr) (e : Expr) : OrExpr :=
  if e.isFalse then self else ⟨self.exprs.insert z e⟩

/-- `OrExpr::add` of another accumulator. -/
def addAll (z : Z3) (self other : OrExpr) : OrExpr :=
  ⟨other.exprs.elements.foldl (ExprSet.insert z) self.exprs⟩

/-- `operator()`. -/
def toExpr (self : OrExpr) : Expr := Expr.mkOr self.exprs.elements

end OrExpr

end AliveNext.Smt
