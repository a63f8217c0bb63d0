import AliveNext.IR.UndefStrip

/-!
# Expressions over inputs, and the terms that stripping builds

What the masks of `Input::mkInput` select, when the solver answers exactly, and what the
conditions and the replacements of `strip_undef_and_add_ub` mean in a model.
-/

namespace AliveNext.IR.UndefStrip

open Smt

section

variable (p : Params) (attrBits : Nat) (ptrCompare : Bool)

mutual

theorem eqExceptPadding_equivalence : ∀ ty : Ty,
    Equivalence fun a b => eqExceptPadding p attrBits ptrCompare ty a b = true
  | .int _ => by
    simp only [eqExceptPadding, beq_iff_eq]
    exact ⟨fun _ => rfl, Eq.symm, Eq.trans⟩
  | .ptr => by
    cases ptrCompare with
    | false =>
      simp only [eqExceptPadding, Bool.false_eq_true, if_false, beq_iff_eq]
      exact ⟨fun _ => rfl, Eq.symm, Eq.trans⟩
    | true =>
      simp only [eqExceptPadding, if_true, beq_iff_eq]
      exact ⟨fun _ => rfl, Eq.symm, Eq.trans⟩
  | .vector elements width => by
    simp only [eqExceptPadding, List.all_eq_true, beq_iff_eq]
    exact ⟨fun _ _ _ => rfl, fun same i member => (same i member).symm,
      fun first second i member => (first i member).trans (second i member)⟩
  | .aggregate isVector children => by
    simp only [eqExceptPadding]
    exact eqChildrenExceptPadding_equivalence (.aggregate isVector children) 0 children

theorem eqChildrenExceptPadding_equivalence (whole : Ty) : ∀ (i : Nat) (children : Children),
    Equivalence fun a b =>
      eqChildrenExceptPadding p attrBits ptrCompare whole i children a b = true
  | _, .nil => by
    simp only [eqChildrenExceptPadding]
    exact ⟨fun _ => trivial, fun _ => trivial, fun _ _ => trivial⟩
  | i, .field ty rest => by
    simp only [eqChildrenExceptPadding, Bool.and_eq_true]
    have first := eqExceptPadding_equivalence ty
    have others := eqChildrenExceptPadding_equivalence whole (i + 1) rest
    exact ⟨fun _ => ⟨first.refl _, others.refl _⟩,
      fun same => ⟨first.symm same.1, others.symm same.2⟩,
      fun one two => ⟨first.trans one.1 two.1, others.trans one.2 two.2⟩⟩
  | i, .padding width rest => by
    simp only [eqChildrenExceptPadding]
    exact eqChildrenExceptPadding_equivalence whole (i + 1) rest

end

end

def Setting.same (S : Setting) (a b : Value) : Bool :=
  eqExceptPadding S.p S.attrBits S.ptrCompare S.ty (bitsOf a) (bitsOf b)

theorem Setting.same_equivalence (S : Setting) : Equivalence fun a b => S.same a b = true where
  refl _ := (eqExceptPadding_equivalence _ _ _ _).refl _
  symm := (eqExceptPadding_equivalence _ _ _ _).symm
  trans := (eqExceptPadding_equivalence _ _ _ _).trans

noncomputable def Cond.holds (S : Setting) (M : Model) : Cond → Bool
  | .term e => e.truth M
  | .eqExceptPadding a b => S.same (a.eval M) (b.eval M)

abbrev Functions := String → List Value → (s : Srt) → s.Val

/-- Some model meets the conditions and the tests, and in it `e` differs from its copy for all
values of the variables under the quantifier. -/
def Query.Satisfiable (S : Setting) (fn : Functions) (q : Query) : Prop :=
  ∃ M : Model, M.fn = fn ∧ (∀ c ∈ q.conds, c.truth M = true) ∧ (∀ t ∈ q.tests, t.1.truth M = t.2) ∧
    ∀ N, Model.Varies q.qvars M N → S.same (q.e.eval N) (q.e2.eval N) = false

/-- The choice between an input and its undef value. -/
structure Selection where
  mask : String
  val : Expr
  undef : Expr
  var : Const

def Selection.maskVar (sel : Selection) : Expr := .var sel.mask (.bv 1)

/-- The term that `Input::mkInput` builds. -/
def Selection.expr (sel : Selection) (S : Setting) : Expr :=
  .app .ite [S.isZero sel.maskVar, sel.val, sel.undef]

def IsInput (x : Expr) : Prop := isUndefMask x = false ∧ isUndefName x = false

/-- The undef value is built from the undef variable as the input is from its own variable, so
that it can have the value that the input has. -/
structure Selection.Built (sel : Selection) : Prop where
  named : isUndefMask sel.maskVar = true
  closed : sel.val.inScope [] = true ∧ sel.undef.inScope [] = true
  val : ∀ x ∈ sel.val.vars, IsInput x
  undef : ∀ x ∈ sel.undef.vars, x = sel.var.expr
  covers : ∀ M : Model, ∃ value : sel.var.sort.Val,
    sel.undef.eval (M.set sel.var value) = sel.val.eval M

/-- Expressions over inputs, masks that select between an input and its undef value, and undef
variables. -/
inductive OverInputs (S : Setting) (undefVars : List Expr) (sels : List Selection) : Expr → Prop
  | select (sel : Selection) (member : sel ∈ sels) : OverInputs S undefVars sels (sel.expr S)
  | input (name : String) (s : Srt) (input : IsInput (.var name s)) :
      OverInputs S undefVars sels (.var name s)
  | undef (c : Const) (known : c.expr ∈ undefVars) (free : ∀ sel ∈ sels, sel.var ≠ c) :
      OverInputs S undefVars sels c.expr
  | num (bits : Nat) (value : BitVec bits) : OverInputs S undefVars sels (.num bits value)
  | bool (value : Bool) : OverInputs S undefVars sels (.bool value)
  | bound (index : Nat) (s : Srt) : OverInputs S undefVars sels (.bound index s)
  | app (op : Op) (args : List Expr) (some : args ≠ [])
      (each : ∀ a ∈ args, OverInputs S undefVars sels a) :
      OverInputs S undefVars sels (.app op args)
  | lambda (domain : Srt) (name : String) (body : Expr) (inner : OverInputs S undefVars sels body) :
      OverInputs S undefVars sels (.lambda domain name body)

structure Setting.Fresh (S : Setting) (stem : String) (undefVars : List Expr) (e : Expr) :
    Prop where
  isVar : ∀ u ∈ undefVars, ∃ name, S.fresh stem u = .var name u.sort
  new : ∀ u ∈ undefVars, S.fresh stem u ∉ e.vars ∧ S.fresh stem u ∉ undefVars
  input : ∀ u ∈ undefVars, isUndefMask (S.fresh stem u) = false
  distinct : ∀ u ∈ undefVars, ∀ v ∈ undefVars, S.fresh stem u = S.fresh stem v → u = v

/-- The expression, the state and the solver that the claim speaks of. -/
structure Stripping (S : Setting) (fn : Functions) (s : State) (sels : List Selection) (e : Expr) :
    Prop where
  answers : ∀ q, S.isSat q = true ↔ q.Satisfiable S fn
  order : ∀ (xs : List Expr) (x : Expr), x ∈ S.order xs ↔ x ∈ xs
  sorted : ∃ w, e.HasSort (.bv w)
  closed : e.inScope [] = true
  overInputs : OverInputs S s.undefVars sels e
  built : ∀ sel ∈ sels, sel.Built
  known : ∀ sel ∈ sels, sel.var.expr ∈ s.undefVars
  own : ∀ sel ∈ sels, ∀ other ∈ sels, sel.var = other.var → sel = other
  undefVars : ∀ u ∈ s.undefVars, (∃ c : Const, u = c.expr) ∧ isUndefName u = true
  fresh : ∀ stem ∈ ["undef", "#undef'"], S.Fresh stem s.undefVars e

section

variable (S : Setting) {name : String} {M N : Model}

theorem isZero_eq (name : String) :
    S.isZero (.var name (.bv 1)) = .app .eq [.var name (.bv 1), Expr.mkUInt 0 1] ∨
      S.isZero (.var name (.bv 1)) = .app .eq [Expr.mkUInt 0 1, .var name (.bv 1)] := by
  unfold Setting.isZero Expr.binopOrdered
  split
  · exact .inl rfl
  · exact .inr rfl

theorem hasSort_isZero (name : String) : (S.isZero (.var name (.bv 1))).HasSort .bool := by
  rcases isZero_eq S name with shape | shape <;> rw [shape] <;> exact ⟨rfl, rfl⟩

theorem vars_isZero (name : String) :
    (S.isZero (.var name (.bv 1))).vars = [.var name (.bv 1)] := by
  rcases isZero_eq S name with shape | shape <;> rw [shape] <;> rfl

theorem truth_isZero_of_eq (same : N.var name (.bv 1) = M.var name (.bv 1)) :
    (S.isZero (.var name (.bv 1))).truth N = (S.isZero (.var name (.bv 1))).truth M := by
  rcases isZero_eq S name with shape | shape <;>
    rw [shape, Expr.truth, Expr.truth, Expr.eval, Expr.eval, Expr.evals, Expr.evals, Expr.evals,
      Expr.evals, Expr.evals, Expr.evals, Expr.eval, Expr.eval, same] <;> rfl

theorem inScope_isZero (name : String) (context : List Srt) :
    (S.isZero (.var name (.bv 1))).inScope context = true := by
  rcases isZero_eq S name with shape | shape <;> rw [shape] <;> rfl

end

section

variable {S : Setting} {sel : Selection} {M N : Model}

theorem Selection.vars_expr (sel : Selection) (S : Setting) :
    (sel.expr S).vars = sel.maskVar :: (sel.val.vars ++ sel.undef.vars) := by
  change (S.isZero sel.maskVar).vars ++ (sel.val.vars ++ (sel.undef.vars ++ [])) = _
  rw [Selection.maskVar, vars_isZero, List.append_nil]
  rfl

theorem Selection.eval_expr (sel : Selection) (S : Setting) (M : Model) : (sel.expr S).eval M =
      if (S.isZero sel.maskVar).truth M then sel.val.eval M else sel.undef.eval M := by
  rw [Selection.expr, Expr.eval]
  rfl

theorem Selection.Built.closed_expr (built : sel.Built) : (sel.expr S).inScope [] = true := by
  rw [Selection.expr, Expr.inScope, Expr.inScopeAll_iff]
  intro a member
  rcases List.mem_cons.1 member with rfl | member
  · exact inScope_isZero S sel.mask []
  rcases List.mem_cons.1 member with rfl | member
  · exact built.closed.1
  rw [List.mem_singleton.1 member]
  exact built.closed.2

variable {undefVars : List Expr} {sels : List Selection}

theorem OverInputs.exists_selection {e x : Expr} (expression : OverInputs S undefVars sels e)
    (built : ∀ sel ∈ sels, sel.Built) (known : ∀ sel ∈ sels, sel.var.expr ∈ undefVars)
    (undefs : ∀ u ∈ undefVars, isUndefMask u = false) (member : x ∈ e.vars)
    (named : isUndefMask x = true) : ∃ sel ∈ sels, x = sel.maskVar := by
  have other : ∀ y, isUndefMask y = false → x ≠ y := by
    intro y different same
    rw [← same, named] at different
    cases different
  induction expression with
  | select sel inside =>
    rw [sel.vars_expr] at member
    rcases List.mem_cons.1 member with rfl | member
    · exact ⟨sel, inside, rfl⟩
    rcases List.mem_append.1 member with member | member
    · exact absurd rfl (other x ((built sel inside).val x member).1)
    · exact absurd ((built sel inside).undef x member) (other _ (undefs _ (known sel inside)))
  | input name s isInput => exact absurd (List.mem_singleton.1 member) (other _ isInput.1)
  | undef c isUndef free => exact absurd (List.mem_singleton.1 member) (other _ (undefs _ isUndef))
  | num bits value => cases member
  | bool value =>
    refine absurd (List.mem_singleton.1 member) (other _ ?_)
    cases value <;> decide
  | bound index s => exact absurd (List.mem_singleton.1 member) (other _ rfl)
  | app op args some each ih =>
    rw [Expr.vars, if_neg (by simpa using some), Expr.varsAll_eq] at member
    obtain ⟨a, isArg, inside⟩ := List.mem_flatMap.1 member
    exact ih a isArg inside
  | lambda domain name body inner ih => exact ih member

theorem OverInputs.eval_eq {e : Expr}
    (expression : OverInputs S undefVars sels e) (built : ∀ sel ∈ sels, sel.Built)
    (fn : N.fn = M.fn) (bound : N.bound = M.bound)
    (select : ∀ sel ∈ sels, (sel.expr S).vars ⊆ e.vars → (sel.expr S).eval N = (sel.expr S).eval M)
    (input : ∀ name s, .var name s ∈ e.vars → IsInput (.var name s) → N.var name s = M.var name s)
    (undef : ∀ c : Const, c.expr ∈ undefVars → (∀ sel ∈ sels, sel.var ≠ c) →
      N.var c.name c.sort = M.var c.name c.sort) : e.eval N = e.eval M := by
  induction expression generalizing M N with
  | select sel member => exact select sel member (List.Subset.refl _)
  | input name s isInput =>
    rw [Expr.eval, Expr.eval, input name s (List.mem_singleton_self _) isInput]
  | undef c known free =>
    rw [Const.expr, Expr.eval, Expr.eval, undef c known free]
  | num bits value => rfl
  | bool value => rfl
  | bound index s => rw [Expr.eval, Expr.eval, bound]
  | app op args some each ih =>
    have values : args.map (Expr.eval · N) = args.map (Expr.eval · M) := by
      refine List.map_congr_left fun a member => ?_
      have inside : a.vars ⊆ (Expr.app op args).vars := by
        rw [Expr.vars, if_neg (by simpa using List.ne_nil_of_mem member), Expr.varsAll_eq]
        exact fun x found => List.mem_flatMap.2 ⟨a, member, found⟩
      exact ih a member fn bound
        (fun sel known sub => select sel known fun x found => inside (sub found))
        (fun name s found => input name s (inside found)) undef
    rw [Expr.eval, Expr.eval, Expr.evals_eq_map, Expr.evals_eq_map, values]
    cases op with
    | fn name range => rw [Op.denote, Op.denote, fn]
    | _ => rfl
  | lambda domain name body inner ih =>
    rw [Expr.eval, Expr.eval]
    congr 1
    funext i
    have below : (N.push domain i).bound = (M.push domain i).bound := by
      unfold Model.push
      rw [bound]
    rw [ih (M := M.push domain i) (N := N.push domain i) fn below
      (fun sel known sub => by
        rw [Expr.eval_push_of_closed (built sel known).closed_expr,
          Expr.eval_push_of_closed (built sel known).closed_expr]
        exact select sel known sub) input undef]

end

end AliveNext.IR.UndefStrip
