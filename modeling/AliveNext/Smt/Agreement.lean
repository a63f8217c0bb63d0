import AliveNext.Smt.Quantify
import AliveNext.Smt.ArraysSound

/-!
# The variables that a value depends on

The value of a term depends on the free variables that occur in it. A term with some
of its variables replaced has the value that the term has where they stand for the replacements.
-/

namespace AliveNext.Smt

namespace Model

def mix (test : Expr → Bool) (chosen M : Model) : Model :=
  { M with var := fun name s => if test (.var name s) then chosen.var name s else M.var name s }

/-- The models differ at most in the values of these variables. -/
structure Varies (vars : List Expr) (M N : Model) : Prop where
  fn : N.fn = M.fn
  bound : N.bound = M.bound
  var : ∀ name s, .var name s ∉ vars → N.var name s = M.var name s

namespace Varies

variable {vars more : List Expr} {M N K : Model}

theorem refl (vars : List Expr) (M : Model) : Varies vars M M :=
  ⟨rfl, rfl, fun _ _ _ => rfl⟩

theorem trans (first : Varies vars M N) (second : Varies vars N K) : Varies vars M K where
  fn := second.fn.trans first.fn
  bound := second.bound.trans first.bound
  var name s other := (second.var name s other).trans (first.var name s other)

theorem mono (varies : Varies vars M N) (sub : vars ⊆ more) : Varies more M N :=
  ⟨varies.fn, varies.bound, fun name s other => varies.var name s fun member => other (sub member)⟩

end Varies

theorem varies_mix {vars : List Expr} {test : Expr → Bool} (chosen M : Model)
    (only : ∀ name s, test (.var name s) = true → .var name s ∈ vars) :
    Varies vars M (mix test chosen M) where
  fn := rfl
  bound := rfl
  var name s other := if_neg fun holds => other (only name s holds)

end Model

namespace Expr

variable {repls : List (Expr × Expr)} {e : Expr} {M N : Model}

theorem eval_of_agree (fn : M.fn = N.fn) (bound : M.bound = N.bound)
    (agree : ∀ name s, .var name s ∈ e.vars → M.var name s = N.var name s) :
    e.eval M = e.eval N := by
  induction e using Expr.induction generalizing M N with
  | num bits value => rfl
  | bool value => rfl
  | var name s => rw [eval, eval, agree name s (List.mem_singleton_self _)]
  | bound i s => rw [eval, eval, bound]
  | app op args ih =>
    have values : args.map (eval · M) = args.map (eval · N) := by
      refine List.map_congr_left fun a member => ?_
      refine ih a member fn bound fun name s inside => agree name s ?_
      rw [vars, if_neg (by simpa using List.ne_nil_of_mem member), varsAll_eq]
      exact List.mem_flatMap.2 ⟨a, member, inside⟩
    rw [eval, eval, evals_eq_map, evals_eq_map, values]
    cases op with
    | fn name range => rw [Op.denote, Op.denote, fn]
    | _ => rfl
  | lambda domain name body ih =>
    rw [eval, eval]
    congr 1
    funext i
    have below : (M.push domain i).bound = (N.push domain i).bound := by
      unfold Model.push
      rw [bound]
    rw [ih (M := M.push domain i) (N := N.push domain i) fn below agree]

theorem eval_of_varies {vars : List Expr} (varies : Model.Varies vars M N)
    (absent : ∀ x ∈ vars, x ∉ e.vars) : e.eval N = e.eval M :=
  eval_of_agree varies.fn varies.bound fun name s inside =>
    varies.var name s fun member => absent _ member inside

theorem eval_of_agree_closed (closed : e.inScope [] = true) (fn : M.fn = N.fn)
    (agree : ∀ name s, .var name s ∈ e.vars → M.var name s = N.var name s) :
    e.eval M = e.eval N := by
  have other : e.eval M = e.eval { M with bound := N.bound } :=
    eval_scope closed ⟨rfl, rfl, fun i s impossible => by cases impossible⟩
  rw [other]
  exact eval_of_agree fn rfl agree

theorem replacement_raiseEach_eq_none
    {name : String} {s : Srt} (kept : replacement (raiseEach repls) (.var name s) = none) :
    replacement repls (.var name s) = none := by
  unfold replacement raiseEach at *
  rw [Option.map_eq_none_iff, List.find?_eq_none] at *
  intro repl member
  have other := kept (raise 1 0 repl.1, raise 1 0 repl.2) (List.mem_map_of_mem member)
  simp only [decide_eq_true_eq] at other ⊢
  intro same
  rw [same] at other
  exact other rfl

theorem eval_replaced_of {plain : Expr} (equal : ∀ repl ∈ repls, repl.2.eval M = repl.1.eval N)
    (kept : replacement repls e = none → plain.eval M = e.eval N) :
    ((replacement repls e).getD plain).eval M = e.eval N := by
  cases known : replacement repls e with
  | none => exact kept known
  | some t => exact equal _ (mem_of_replacement known)

/-- A term with replacements has the value of the term in a model where what is replaced has the
values of the replacements. -/
theorem eval_substitute_of (sorts : SameSorts repls) (fn : M.fn = N.fn) (bound : M.bound = N.bound)
    (equal : ∀ repl ∈ repls, repl.2.eval M = repl.1.eval N)
    (others : ∀ name s, .var name s ∈ e.vars → replacement repls (.var name s) = none →
      M.var name s = N.var name s) : (substitute repls e).eval M = e.eval N := by
  induction e using Expr.induction generalizing repls M N with
  | app op args ih =>
    have values : (args.map (substitute repls)).map (eval · M) = args.map (eval · N) := by
      rw [List.map_map]
      refine List.map_congr_left fun a member =>
        ih a member sorts fn bound equal fun name s inside => others name s ?_
      rw [vars, if_neg (by simpa using List.ne_nil_of_mem member), varsAll_eq]
      exact List.mem_flatMap.2 ⟨a, member, inside⟩
    rw [substitute]
    refine eval_replaced_of equal fun _ => ?_
    rw [eval, eval, evals_eq_map, evals_eq_map, substituteAll_eq_map, values]
    cases op with
    | fn name range => rw [Op.denote, Op.denote, fn]
    | _ => rfl
  | lambda domain name body ih =>
    rw [substitute]
    refine eval_replaced_of equal fun _ => ?_
    have below : ∀ index : domain.Val, ∀ repl ∈ raiseEach repls,
        repl.2.eval (M.push domain index) = repl.1.eval (N.push domain index) := by
      intro index repl member
      obtain ⟨old, inside, rfl⟩ := List.mem_map.1 member
      rw [eval_raise_push, eval_raise_push, equal old inside]
    rw [eval, eval, sort_substitute sorts.raiseEach]
    congr 1
    funext index
    have same : (M.push domain index).bound = (N.push domain index).bound := by
      unfold Model.push
      rw [bound]
    rw [ih (M := M.push domain index) (N := N.push domain index) sorts.raiseEach fn same
      (below index) fun name s inside kept =>
        others name s inside (replacement_raiseEach_eq_none kept)]
  | num bits value => exact eval_replaced_of equal fun _ => rfl
  | bool value => exact eval_replaced_of equal fun _ => rfl
  | var name s =>
    refine eval_replaced_of equal fun kept => ?_
    rw [eval, eval, others name s (List.mem_singleton_self _) kept]
  | bound index s =>
    refine eval_replaced_of equal fun _ => ?_
    rw [eval, eval, bound]

end Expr

end AliveNext.Smt
