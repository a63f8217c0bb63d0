import AliveNext.Smt.Binders

/-!
# Replacing a bound variable

A term with its innermost variable replaced has the sort and the value that the
term has when the variable stands for the value of the replacement.
-/

namespace AliveNext.Smt

namespace Expr

variable {context : List Srt} {domain : Srt} {k : Nat} {e repl : Expr}
  (visible : e.inScope context = true)
  (replaced : context[k]? = some domain)
  (sorted : repl.HasSort domain)

include visible replaced sorted

theorem sort_substAt : (substAt repl k e).sort = e.sort := by
  induction e using Expr.induction generalizing k context with
  | bound i s =>
    rw [inScope, beq_iff_eq] at visible
    rw [substAt]
    split
    · next same =>
      subst same
      rw [replaced] at visible
      cases visible
      rw [sort_raise, sorted.sort_eq, sort]
    · rfl
  | app op args ih =>
    rw [inScope, inScopeAll_iff] at visible
    have same : (args.map (substAt repl k)).map sort = args.map sort := by
      rw [List.map_map]
      exact List.map_congr_left fun e member => ih e member (visible e member) replaced
    rw [substAt, sort, sort, substAll_eq_map, sorts_eq_map, sorts_eq_map, same]
  | lambda d name body ih =>
    rw [inScope] at visible
    rw [substAt, sort, sort, ih visible replaced]
  | _ => rfl

theorem wellSorted_substAt
    (whole : e.wellSorted = true) : (substAt repl k e).wellSorted = true := by
  induction e using Expr.induction generalizing k context with
  | bound i s =>
    rw [substAt]
    split
    · rw [wellSorted_raise, sorted.wellSorted]
    · exact whole
  | app op args ih =>
    rw [inScope, inScopeAll_iff] at visible
    rw [wellSorted, Bool.and_eq_true, wellSortedAll_iff, sorts_eq_map] at whole
    have same : (args.map (substAt repl k)).map sort = args.map sort := by
      rw [List.map_map]
      exact List.map_congr_left fun e member =>
        sort_substAt (visible e member) replaced sorted
    rw [substAt, wellSorted, Bool.and_eq_true, wellSortedAll_iff, sorts_eq_map,
      substAll_eq_map, same, List.forall_mem_map]
    exact ⟨fun e member => ih e member (visible e member) replaced (whole.1 e member), whole.2⟩
  | lambda d name body ih =>
    rw [inScope] at visible
    rw [wellSorted, Bool.and_eq_true] at whole
    rw [substAt, wellSorted, Bool.and_eq_true]
    exact ⟨whole.1, ih visible replaced whole.2⟩
  | _ => exact whole

theorem eval_substAt (M : Model) :
    (substAt repl k e).eval M = e.eval (M.assign k (repl.eval (M.rebind (· + k)))) := by
  induction e using Expr.induction generalizing k context M with
  | bound i s =>
    rw [inScope, beq_iff_eq] at visible
    by_cases same : i = k
    · subst same
      rw [replaced] at visible
      cases visible
      have value : (repl.eval (M.rebind (· + i))).sort = domain := by
        rw [eval_sort _ sorted.wellSorted, sorted.sort_eq]
      have assigned : eval (.bound i domain) (M.assign i (repl.eval (M.rebind (· + i)))) =
          Value.of domain ((repl.eval (M.rebind (· + i))).get domain) := by
        simp [eval, Model.assign]
      rw [substAt, if_pos rfl, eval_raise, assigned, Value.of_get value]
      rfl
    · rw [substAt, if_neg same, eval, eval]
      simp [Model.assign, same]
  | app op args ih =>
    rw [inScope, inScopeAll_iff] at visible
    have values : (args.map (substAt repl k)).map (eval · M) =
        args.map (eval · (M.assign k (repl.eval (M.rebind (· + k))))) := by
      rw [List.map_map]
      exact List.map_congr_left fun e member => ih e member (visible e member) replaced M
    rw [substAt, eval, eval, substAll_eq_map, evals_eq_map, evals_eq_map, values]
    cases op with
    | fn name range => rfl
    | _ => rfl
  | lambda d name body ih =>
    rw [inScope] at visible
    rw [substAt, eval, eval, sort_substAt visible replaced sorted]
    congr 1
    funext i
    rw [ih visible replaced, Model.assign_push, Model.push_rebind]
  | _ => rfl

theorem nonzeroDivisors_substAt (M : Model) (quiet : repl.NonzeroDivisors (M.rebind (· + k)))
    (safe : e.NonzeroDivisors (M.assign k (repl.eval (M.rebind (· + k))))) :
    (substAt repl k e).NonzeroDivisors M := by
  induction e using Expr.induction generalizing k context M with
  | bound i s =>
    rw [substAt]
    split
    · rw [nonzeroDivisors_raise]
      exact quiet
    · trivial
  | app op args ih =>
    rw [inScope, inScopeAll_iff] at visible
    have values : (args.map (substAt repl k)).map (eval · M) =
        args.map (eval · (M.assign k (repl.eval (M.rebind (· + k))))) := by
      rw [List.map_map]
      exact List.map_congr_left fun e member =>
        eval_substAt (visible e member) replaced sorted M
    rw [NonzeroDivisors, nonzeroDivisorsAll_iff, evals_eq_map] at safe
    rw [substAt, NonzeroDivisors, substAll_eq_map, nonzeroDivisorsAll_iff, evals_eq_map, values,
      List.forall_mem_map]
    exact ⟨fun e member => ih e member (visible e member) replaced M quiet (safe.1 e member),
      safe.2⟩
  | lambda d name body ih =>
    rw [inScope] at visible
    rw [substAt, NonzeroDivisors]
    intro i
    apply ih visible replaced
    · rw [Model.push_rebind]
      exact quiet
    · rw [Model.push_rebind, ← Model.assign_push]
      exact safe i
  | _ => trivial

omit visible replaced sorted in
theorem height_substAt : (substAt repl k e).height ≤ e.height + repl.height := by
  induction e using Expr.induction generalizing k with
  | bound i s =>
    rw [substAt]
    split
    · rw [height_raise]
      omega
    · exact Nat.zero_le _
  | app op args ih =>
    have parts : heights (args.map (substAt repl k)) ≤ heights args + repl.height := by
      rw [heights_le, List.forall_mem_map]
      intro e member
      have below := heights_le.1 (le_refl (heights args)) e member
      have this := @ih e member k
      omega
    rw [substAt, height, height, substAll_eq_map]
    omega
  | lambda d name body ih =>
    have this := @ih (k + 1)
    rw [substAt, height, height]
    omega
  | _ => exact Nat.zero_le _

omit visible replaced sorted in
theorem inScope_substAt (visible : e.inScope (context ++ [domain]) = true)
    (closed : repl.inScope [] = true) : (substAt repl context.length e).inScope context = true := by
  induction e using Expr.induction generalizing context with
  | bound i s =>
    rw [inScope, beq_iff_eq] at visible
    rw [substAt]
    split
    · rw [raise_of_inScope closed (le_refl 0)]
      exact inScope_append context closed
    · next other =>
      obtain ⟨inside, -⟩ := List.getElem?_eq_some_iff.1 visible
      rw [List.length_append, List.length_singleton] at inside
      rw [List.getElem?_append_left (by omega)] at visible
      rw [inScope, visible, beq_self_eq_true]
  | app op args ih =>
    rw [inScope, inScopeAll_iff] at visible
    rw [substAt, inScope, inScopeAll_iff, substAll_eq_map, List.forall_mem_map]
    exact fun e member => ih e member (visible e member)
  | lambda d name body ih =>
    rw [inScope] at visible
    rw [substAt, inScope]
    exact @ih (d :: context) visible
  | _ => rfl

/-- A kind of terms in which every lambda is closed where a load meets it. -/
structure Scope where
  holds : Expr → Prop
  arg : ∀ {op args e}, holds (.app op args) → e ∈ args → holds e
  app : ∀ {op args}, (∀ e ∈ args, holds e) → holds (.app op args)
  const : ∀ {e : Expr}, e.isConst = true → holds e
  body : ∀ {domain name body}, holds (.lambda domain name body) → body.inScope [domain] = true
  beta : ∀ {domain name body repl}, holds (.lambda domain name body) → holds repl →
    holds (substVar body repl)
  part : ∀ {domain name op args e}, holds (.lambda domain name (.app op args)) → e ∈ args →
    holds (.lambda domain name e)
  inner : ∀ {domain name body}, holds (.lambda domain name body) → body.inScope [] = true →
    holds body

/-- Terms without variables of an outer binder. -/
def Scope.closed : Scope where
  holds e := e.inScope [] = true
  arg whole member := by
    rw [inScope, inScopeAll_iff] at whole
    exact whole _ member
  app parts := by
    rw [inScope, inScopeAll_iff]
    exact parts
  const {e} const := by
    cases e with
    | num bits value => rfl
    | bool value => rfl
    | _ => cases const
  body whole := by
    rw [inScope] at whole
    exact whole
  beta whole visible := by
    rw [inScope] at whole
    exact @inScope_substAt [] _ _ _ whole visible
  part whole member := by
    rw [inScope, inScope, inScopeAll_iff] at whole
    rw [inScope]
    exact whole _ member
  inner _ visible := visible

end Expr

/-- The simplifier takes a term to one of the same kind, without new remainders. -/
structure Z3.Plain (z : Z3) (S : Expr.Scope) : Prop where
  holds : ∀ {e : Expr}, S.holds e → S.holds (z.simplify e)
  safe : ∀ {e : Expr} {M : Model}, e.NonzeroDivisors M → (z.simplify e).NonzeroDivisors M

end AliveNext.Smt
