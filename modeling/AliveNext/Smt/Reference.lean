import AliveNext.Smt.Solver

/-!
# A solver that folds

The assumptions on the solver library can be met: applications to constants are
replaced by the constant that is their value, and nothing else is simplified.
-/

namespace AliveNext.Smt

def Srt.hasConstants : Srt → Bool
  | .bool | .bv _ => true
  | _ => false

namespace Op

theorem hasConstants_sort
    {op : Op} {sorts : List Srt} (folds : op.folds = true) (accepted : op.accepts sorts = true)
    (basic : ∀ s ∈ sorts, s.hasConstants = true) : (op.sort sorts).hasConstants = true := by
  cases op with
  | bv op =>
    obtain ⟨w, s, rest, rfl, -⟩ := accepts_bv.1 accepted
    rfl
  | bvnot =>
    obtain ⟨w, rfl⟩ := accepts_bvnot.1 accepted
    rfl
  | ite =>
    obtain ⟨s, rfl⟩ := accepts_ite.1 accepted
    exact basic s (by simp)
  | ule | sle | concat | extract | signExt | eq | and | or | not => rfl
  | constArray domain => cases folds
  | store => cases folds
  | select => cases folds
  | fn name range => cases folds

theorem denote_const {op : Op} (folds : op.folds = true) (M N : Model) (args : List Value) :
    op.denote M args = op.denote N args := by
  cases op with
  | fn name range => cases folds
  | _ => rfl

end Op

def Value.toExpr : Value → Option Expr
  | .bool value => some (.bool value)
  | .bv bits value => some (.num bits value)
  | _ => none

namespace Expr

variable {e : Expr}

theorem hasConstants_of_isConst (const : e.isConst = true) : e.sort.hasConstants = true := by
  cases e with
  | num bits value => rfl
  | bool value => rfl
  | var name s => cases const
  | bound index s => cases const
  | app op args => cases const
  | lambda domain name body => cases const

theorem eval_of_isConst (const : e.isConst = true) (M N : Model) : e.eval M = e.eval N := by
  cases e with
  | num bits value => rfl
  | bool value => rfl
  | var name s => cases const
  | bound index s => cases const
  | app op args => cases const
  | lambda domain name body => cases const

noncomputable def foldConst : Expr → Expr
  | .app op args =>
    if op.folds && wellSorted (.app op args) && args.all isConst then
      (eval (.app op args) default).toExpr.getD (.app op args)
    else .app op args
  | e => e

theorem foldConst_spec {op : Op} {args : List Expr} (folds : op.folds = true)
    (sorted : wellSorted (.app op args) = true) (const : ∀ a ∈ args, a.isConst = true) :
    (foldConst (.app op args)).isConst = true ∧ (foldConst (.app op args)).wellSorted = true ∧
      ∀ M, (foldConst (.app op args)).eval M = eval (.app op args) M := by
  have value : ∀ M, eval (.app op args) M = eval (.app op args) default := by
    intro M
    rw [eval, eval, evals_eq_map, evals_eq_map, Op.denote_const folds M default]
    congr 1
    apply List.map_congr_left
    intro a member
    exact eval_of_isConst (const a member) M default
  have wf := sort_wf sorted
  have result := eval_sort default sorted
  have basic : (sort (.app op args)).hasConstants = true := by
    rw [wellSorted, Bool.and_eq_true, sorts_eq_map] at sorted
    rw [sort, sorts_eq_map]
    apply Op.hasConstants_sort folds sorted.2
    intro s member
    obtain ⟨a, inside, rfl⟩ := List.mem_map.1 member
    exact hasConstants_of_isConst (const a inside)
  rw [foldConst, folds, sorted, List.all_eq_true.2 const, Bool.and_self, Bool.and_self, if_pos rfl]
  rw [← result] at basic wf
  cases known : eval (.app op args) default with
  | bool x =>
    refine ⟨rfl, rfl, fun M => ?_⟩
    rw [value M, known]
    rfl
  | bv w x =>
    rw [known] at wf
    refine ⟨rfl, wf, fun M => ?_⟩
    rw [value M, known]
    rfl
  | array domain range x =>
    rw [known] at basic
    cases basic
  | other kind x =>
    rw [known] at basic
    cases basic

end Expr

noncomputable def Z3.reference : Z3 where
  less a b := a.size < b.size
  simplify := Expr.foldConst
  equal := by
    intro e sorted
    cases e with
    | app op args =>
      by_cases folds : (op.folds && Expr.wellSorted (.app op args) && args.all Expr.isConst) = true
      · rw [Bool.and_eq_true, Bool.and_eq_true] at folds
        exact (Expr.foldConst_spec folds.1.1 sorted (List.all_eq_true.1 folds.2)).2
      · rw [Expr.foldConst, if_neg folds]
        exact ⟨sorted, fun M => rfl⟩
    | _ => exact ⟨sorted, fun M => rfl⟩
  folds op args folds sorted const := (Expr.foldConst_spec folds sorted const).1

end AliveNext.Smt
