import AliveNext.Smt.Solver

/-!
# Bound variables

Lambdas bind variables that are numbered from the inside. A term in the scope of
some binders depends on the values of their variables only, and replacing the
innermost variable by a term gives it the value of that term.
-/

namespace AliveNext.Smt

namespace Model

def rebind (M : Model) (place : Nat → Nat) : Model :=
  { M with bound := fun i s => M.bound (place i) s }

def assign (M : Model) (k : Nat) (value : Value) : Model :=
  { M with bound := fun i s => if i = k then value.get s else M.bound i s }

/-- The models give one value to each variable of the context, and differ in
bound variables at most. -/
structure Agree (context : List Srt) (M N : Model) : Prop where
  var : M.var = N.var
  fn : M.fn = N.fn
  bound : ∀ i s, context[i]? = some s → M.bound i s = N.bound i s

/-- Raising the numbers from `c` on by `k`. -/
def raised (k c i : Nat) : Nat := if i < c then i else i + k

variable {domain : Srt}

theorem rebind_push (M : Model) (k c : Nat) (index : domain.Val) :
    (M.rebind (raised k c)).push domain index =
      (M.push domain index).rebind (raised k (c + 1)) := by
  unfold rebind push
  congr 1
  funext i s
  cases i with
  | zero => simp [raised]
  | succ i =>
    by_cases below : i < c
    · simp [raised, below]
    · simp [raised, below, show i + 1 + k = i + k + 1 by omega]

theorem push_rebind (M : Model) (k : Nat) (index : domain.Val) :
    (M.push domain index).rebind (· + (k + 1)) = M.rebind (· + k) := rfl

theorem assign_push (M : Model) (k : Nat) (value : Value) (index : domain.Val) :
    (M.assign k value).push domain index = (M.push domain index).assign (k + 1) value := by
  unfold assign push
  congr 1
  funext i s
  cases i with
  | zero => simp
  | succ i => simp

theorem Agree.push {context : List Srt} {M N : Model} (agree : Agree context M N)
    (index : domain.Val) :
    Agree (domain :: context) (M.push domain index) (N.push domain index) where
  var := agree.var
  fn := agree.fn
  bound i s known := by
    cases i with
    | zero => rfl
    | succ i => exact agree.bound i s known

theorem agree_assign_push (M : Model) {value : Value} :
    Agree [domain] (M.assign 0 value) (M.push domain (value.get domain)) where
  var := rfl
  fn := rfl
  bound i s known := by
    cases i with
    | zero =>
      cases known
      exact (Value.get_of _ _).symm
    | succ i => cases known

end Model

namespace Expr

mutual

def inScope : List Srt → Expr → Bool
  | context, .bound i s => context[i]? == some s
  | context, .app _ args => inScopeAll context args
  | context, .lambda domain _ body => body.inScope (domain :: context)
  | _, _ => true

def inScopeAll : List Srt → List Expr → Bool
  | _, [] => true
  | context, e :: es => e.inScope context && inScopeAll context es

end

mutual

/-- The term below `k` more binders, `c` of its own crossed already. -/
def raise (k : Nat) : Nat → Expr → Expr
  | c, .bound i s => .bound (Model.raised k c i) s
  | c, .app op args => .app op (raiseAll k c args)
  | c, .lambda domain name body => .lambda domain name (raise k (c + 1) body)
  | _, e => e

def raiseAll (k : Nat) : Nat → List Expr → List Expr
  | _, [] => []
  | c, e :: es => raise k c e :: raiseAll k c es

end

mutual

/-- `Z3_substitute_vars` with one term, `k` binders down: the variable with that
number is replaced, the others stay. -/
def substAt (repl : Expr) : Nat → Expr → Expr
  | k, .bound i s => if i = k then raise k 0 repl else .bound i s
  | k, .app op args => .app op (substAll repl k args)
  | k, .lambda domain name body => .lambda domain name (substAt repl (k + 1) body)
  | _, e => e

def substAll (repl : Expr) : Nat → List Expr → List Expr
  | _, [] => []
  | k, e :: es => substAt repl k e :: substAll repl k es

end

def substVar (body repl : Expr) : Expr := substAt repl 0 body

mutual

def height : Expr → Nat
  | .app _ args => heights args + 1
  | .lambda _ _ body => body.height + 1
  | _ => 0

def heights : List Expr → Nat
  | [] => 0
  | e :: es => max e.height (heights es)

end

section

variable {context : List Srt} {k c n : Nat} {e repl : Expr} {args : List Expr}

@[simp] theorem inScopeAll_iff :
    inScopeAll context args = true ↔ ∀ e ∈ args, e.inScope context = true := by
  induction args with
  | nil => simp [inScopeAll]
  | cons e es ih => simp [inScopeAll, ih]

@[simp] theorem raiseAll_eq_map : raiseAll k c args = args.map (raise k c) := by
  induction args with
  | nil => rfl
  | cons e es ih => simp [raiseAll, ih]

@[simp] theorem substAll_eq_map : substAll repl k args = args.map (substAt repl k) := by
  induction args with
  | nil => rfl
  | cons e es ih => simp [substAll, ih]

theorem heights_le : heights args ≤ n ↔ ∀ e ∈ args, e.height ≤ n := by
  induction args with
  | nil => simp [heights]
  | cons e es ih => simp [heights, ih]

theorem height_arg {op : Op} (member : e ∈ args) : e.height < height (.app op args) :=
  Nat.lt_succ_of_le (heights_le.1 (le_refl _) e member)

theorem height_of_isConst (const : e.isConst = true) : e.height = 0 := by
  cases e with
  | num bits value => rfl
  | bool value => rfl
  | _ => cases const

end

section

variable {context : List Srt} {e : Expr} {M N : Model}

theorem eval_scope (visible : e.inScope context = true)
    (agree : Model.Agree context M N) : e.eval M = e.eval N := by
  induction e using Expr.induction generalizing context M N with
  | num bits value => rfl
  | bool value => rfl
  | var name s => rw [eval, eval, agree.var]
  | bound i s =>
    rw [inScope, beq_iff_eq] at visible
    rw [eval, eval, agree.bound i s visible]
  | app op args ih =>
    rw [inScope, inScopeAll_iff] at visible
    have values : args.map (eval · M) = args.map (eval · N) :=
      List.map_congr_left fun e member => ih e member (visible e member) agree
    rw [eval, eval, evals_eq_map, evals_eq_map, values]
    cases op with
    | fn name range => rw [Op.denote, Op.denote, agree.fn]
    | _ => rfl
  | lambda domain name body ih =>
    rw [inScope] at visible
    rw [eval, eval]
    congr 1
    funext i
    rw [ih visible (agree.push i)]

theorem nonzeroDivisors_scope (visible : e.inScope context = true)
    (agree : Model.Agree context M N) : e.NonzeroDivisors M ↔ e.NonzeroDivisors N := by
  induction e using Expr.induction generalizing context M N with
  | num bits value => rfl
  | bool value => rfl
  | var name s => rfl
  | bound i s => rfl
  | app op args ih =>
    rw [inScope, inScopeAll_iff] at visible
    have values : args.map (eval · M) = args.map (eval · N) :=
      List.map_congr_left fun e member => eval_scope (visible e member) agree
    rw [NonzeroDivisors, NonzeroDivisors, nonzeroDivisorsAll_iff, nonzeroDivisorsAll_iff,
      evals_eq_map, evals_eq_map, values]
    have parts : (∀ e ∈ args, e.NonzeroDivisors M) ↔ ∀ e ∈ args, e.NonzeroDivisors N :=
      forall₂_congr fun e member => ih e member (visible e member) agree
    rw [parts]
  | lambda domain name body ih =>
    rw [inScope] at visible
    exact forall_congr' fun i => ih visible (agree.push i)

theorem inScope_append (more : List Srt)
    (visible : e.inScope context = true) : e.inScope (context ++ more) = true := by
  induction e using Expr.induction generalizing context with
  | num bits value => rfl
  | bool value => rfl
  | var name s => rfl
  | bound i s =>
    rw [inScope, beq_iff_eq] at visible ⊢
    obtain ⟨inside, -⟩ := List.getElem?_eq_some_iff.1 visible
    rw [List.getElem?_append_left inside, visible]
  | app op args ih =>
    rw [inScope, inScopeAll_iff] at visible ⊢
    exact fun e member => ih e member (visible e member)
  | lambda domain name body ih =>
    rw [inScope] at visible ⊢
    exact ih visible

end

section

variable {k c : Nat} {e : Expr}

@[simp] theorem sort_raise : (raise k c e).sort = e.sort := by
  induction e using Expr.induction generalizing c with
  | app op args ih =>
    have same : (args.map (raise k c)).map sort = args.map sort := by
      rw [List.map_map]
      exact List.map_congr_left fun e member => ih e member
    rw [raise, sort, sort, raiseAll_eq_map, sorts_eq_map, sorts_eq_map, same]
  | lambda domain name body ih => rw [raise, sort, sort, ih]
  | _ => rfl

@[simp] theorem wellSorted_raise : (raise k c e).wellSorted = e.wellSorted := by
  induction e using Expr.induction generalizing c with
  | app op args ih =>
    have same : (args.map (raise k c)).map sort = args.map sort := by
      rw [List.map_map]
      exact List.map_congr_left fun e _ => sort_raise
    rw [raise, wellSorted, wellSorted, raiseAll_eq_map, sorts_eq_map, sorts_eq_map, same]
    congr 1
    rw [Bool.eq_iff_iff, wellSortedAll_iff, wellSortedAll_iff, List.forall_mem_map]
    exact forall₂_congr fun e member => by rw [ih e member]
  | lambda domain name body ih => rw [raise, wellSorted, wellSorted, ih]
  | _ => rfl

theorem eval_raise (M : Model) : (raise k c e).eval M = e.eval (M.rebind (Model.raised k c)) := by
  induction e using Expr.induction generalizing c M with
  | app op args ih =>
    have values : (args.map (raise k c)).map (eval · M) =
        args.map (eval · (M.rebind (Model.raised k c))) := by
      rw [List.map_map]
      exact List.map_congr_left fun e member => ih e member M
    rw [raise, eval, eval, raiseAll_eq_map, evals_eq_map, evals_eq_map, values]
    cases op with
    | fn name range => rfl
    | _ => rfl
  | lambda domain name body ih =>
    rw [raise, eval, eval, sort_raise]
    congr 1
    funext i
    rw [ih, Model.rebind_push]
  | _ => rfl

theorem nonzeroDivisors_raise (M : Model) :
    (raise k c e).NonzeroDivisors M ↔ e.NonzeroDivisors (M.rebind (Model.raised k c)) := by
  induction e using Expr.induction generalizing c M with
  | app op args ih =>
    have values : (args.map (raise k c)).map (eval · M) =
        args.map (eval · (M.rebind (Model.raised k c))) := by
      rw [List.map_map]
      exact List.map_congr_left fun e _ => eval_raise M
    have parts : (∀ e ∈ args.map (raise k c), e.NonzeroDivisors M) ↔
        ∀ e ∈ args, e.NonzeroDivisors (M.rebind (Model.raised k c)) := by
      rw [List.forall_mem_map]
      exact forall₂_congr fun e member => ih e member M
    rw [raise, NonzeroDivisors, NonzeroDivisors, raiseAll_eq_map, nonzeroDivisorsAll_iff,
      nonzeroDivisorsAll_iff, evals_eq_map, evals_eq_map, values, parts]
  | lambda domain name body ih =>
    rw [raise, NonzeroDivisors, NonzeroDivisors]
    exact forall_congr' fun i => by rw [ih, Model.rebind_push]
  | _ => rfl

theorem height_raise : (raise k c e).height = e.height := by
  induction e using Expr.induction generalizing c with
  | app op args ih =>
    have same : heights (args.map (raise k c)) = heights args := by
      apply eq_of_forall_ge_iff
      intro n
      rw [heights_le, heights_le, List.forall_mem_map]
      exact forall₂_congr fun e member => by rw [ih e member]
    rw [raise, height, height, raiseAll_eq_map, same]
  | lambda domain name body ih => rw [raise, height, height, ih]
  | _ => rfl

theorem raise_of_inScope {context : List Srt} (visible : e.inScope context = true)
    (enough : context.length ≤ c) : raise k c e = e := by
  induction e using Expr.induction generalizing c context with
  | bound i s =>
    rw [inScope, beq_iff_eq] at visible
    obtain ⟨inside, -⟩ := List.getElem?_eq_some_iff.1 visible
    rw [raise, Model.raised, if_pos (by omega)]
  | app op args ih =>
    rw [inScope, inScopeAll_iff] at visible
    have same : args.map (raise k c) = args := by
      rw [List.map_congr_left fun e member => ih e member (visible e member) enough, List.map_id']
    rw [raise, raiseAll_eq_map, same]
  | lambda domain name body ih =>
    rw [inScope] at visible
    rw [raise, ih visible (by simpa using enough)]
  | _ => rfl

end

end Expr

end AliveNext.Smt
