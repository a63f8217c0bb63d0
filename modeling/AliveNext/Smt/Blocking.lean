import AliveNext.Lib.Blocking
import AliveNext.Smt.Agreement

/-!
# Solvers and the cubes that they block

`smt::Solver` wraps a solver of the library with two flags of its own: an assertion that is
the constant `false` and one that is no term are never handed to the library. `block` excludes
a model from a solver, and with it what a second solver, the one for the negated constraint,
shows to satisfy the constraint as well.
-/

namespace AliveNext.Smt

/-- `Model`: the variables with their values, and for each function its entries, an application
to constants with its value. -/
structure Interp where
  consts : List (Expr × Expr) := []
  fns : List (String × List (Expr × Expr)) := []

/-- What `Z3_solver_check` returns, with the model or with the reason. -/
inductive Answer where
  | unsat
  | sat (m : Interp)
  | undef (reason : String)

inductive Result where
  | unsat
  | sat (m : Interp)
  | invalid
  | skip
  | timeout
  | error (reason : String)

namespace Result

def isUnsat : Result → Bool
  | .unsat => true
  | _ => false

def isSat : Result → Bool
  | .sat _ => true
  | _ => false

/-- `getModel`, which asserts that there is one. -/
def getModel : Result → Option Interp
  | .sat m => some m
  | _ => none

end Result

/-- `Solver`: the assertions of the library's solver, those at each `Z3_solver_push` that is
not popped yet, and the two flags. -/
structure Solver where
  asserted : List Expr := []
  scopes : List (List Expr) := []
  valid : Bool := true
  isUnsat : Bool := false

/-- `SolverPush`: the flags to restore. -/
structure SolverPush where
  valid : Bool
  isUnsat : Bool

namespace Solver

/-- `Solver::add`; an `expr` may be no term. -/
def add (s : Solver) (e : Option Expr) : Solver :=
  match e with
  | some e =>
    if e.isFalse then { s with isUnsat := true }
    else { s with asserted := s.asserted ++ [e] }
  | none => { s with valid := false }

/-- `Solver::check`, with the option `skip_smt`. -/
def check (answer : List Expr → Answer) (skipSmt : Bool) (s : Solver) : Result :=
  if !s.valid then .invalid
  else if s.isUnsat then .unsat
  else if skipSmt then .skip
  else
    match answer s.asserted with
    | .unsat => .unsat
    | .sat m => .sat m
    | .undef reason => if reason = "timeout" then .timeout else .error reason

/-- `SolverPush::SolverPush`. -/
def push (s : Solver) : SolverPush × Solver :=
  (⟨s.valid, s.isUnsat⟩, { s with scopes := s.asserted :: s.scopes })

end Solver

/-- `SolverPush::~SolverPush`. -/
def SolverPush.pop (saved : SolverPush) (s : Solver) : Solver :=
  { asserted := s.scopes.headD s.asserted
    scopes := s.scopes.tail
    valid := saved.valid
    isUnsat := saved.isUnsat }

namespace Solver

variable (z : Z3) (answer : List Expr → Answer) (skipSmt : Bool)

def assignments (m : Interp) : ExprSet :=
  let vars := m.consts.foldl (fun set (var, val) => set.insert z (Expr.cmpEq z var val)) .empty
  m.fns.foldl (fun set (_, model) =>
    model.foldl (fun set (fn, val) => set.insert z (Expr.cmpEq z fn val)) set) vars

/-- A round of the loop of `block`, which stands at `val`: without it, are there models of the
negated constraint? -/
def discard (state : Solver × ExprSet) (val : Expr) : Solver × ExprSet :=
  let (saved, sneg) := state.1.push
  let assignments := state.2.erase val
  let sneg := sneg.add (some (Expr.mkAnd assignments.elements))
  let assignments :=
    if (sneg.check answer skipSmt).isUnsat then assignments else assignments.insert z val
  (saved.pop sneg, assignments)

/-- The loop of `block`. An equation that is put back stands before the iterator, so what is
ahead of it are the rest of the equations that the loop began with. -/
def minimise (sneg : Solver) (assignments : ExprSet) : Solver × ExprSet :=
  assignments.elements.foldl (discard z answer skipSmt) (sneg, assignments)

/-- `Solver::block`, the solver for the negated constraint being optional. -/
def block (self : Solver) (m : Interp) (sneg : Option Solver) : Solver × Option Solver :=
  let assignments := assignments z m
  match sneg with
  | some sneg =>
    let (sneg, assignments) := minimise z answer skipSmt sneg assignments
    (self.add (some (Expr.not (Expr.mkAnd assignments.elements))), some sneg)
  | none => (self.add (some (Expr.not (Expr.mkAnd assignments.elements))), none)

section

variable {z answer skipSmt}

end

end Solver

namespace Expr

mutual

/-- Terms without binders and uninterpreted functions over boolean and bit-vector variables. -/
def finitary : Expr → Bool
  | .num _ _ | .bool _ => true
  | .var _ s => s.hasConstants
  | .bound _ _ | .lambda _ _ _ => false
  | .app (.fn _ _) _ => false
  | .app _ args => finitaryAll args

def finitaryAll : List Expr → Bool
  | [] => true
  | e :: es => e.finitary && finitaryAll es

end

@[simp] theorem finitaryAll_iff (args : List Expr) :
    finitaryAll args = true ↔ ∀ e ∈ args, e.finitary = true := by
  induction args with
  | nil => simp [finitaryAll]
  | cons e es ih => simp [finitaryAll, ih]

variable {op : Op} {args : List Expr} {e : Expr}

theorem finitary_app (finite : (Expr.app op args).finitary = true) :
    (∀ name range, op ≠ .fn name range) ∧ ∀ e ∈ args, e.finitary = true := by
  cases op with
  | fn name range => simp [finitary] at finite
  | _ =>
    rw [finitary, finitaryAll_iff] at finite
    · exact ⟨by simp, finite⟩
    · simp

theorem vars_app (some_ : args ≠ []) : (Expr.app op args).vars = args.flatMap Expr.vars := by
  rw [vars, if_neg (by simpa using some_), varsAll_eq]

theorem eval_of_finitary {M N : Model} (finite : e.finitary = true)
    (agree : ∀ name s, .var name s ∈ e.vars → M.var name s = N.var name s) :
    e.eval M = e.eval N := by
  induction e using Expr.induction with
  | num bits value => rfl
  | bool value => rfl
  | var name s => rw [eval, eval, agree name s (by simp [vars])]
  | bound i s => simp [finitary] at finite
  | lambda domain name body => simp [finitary] at finite
  | app op args ih =>
    obtain ⟨other, inner⟩ := finitary_app finite
    have values : args.map (eval · M) = args.map (eval · N) := by
      refine List.map_congr_left fun a member => ih a member (inner a member) ?_
      intro name s inside
      refine agree name s ?_
      rw [vars_app (List.ne_nil_of_mem member)]
      exact List.mem_flatMap.2 ⟨a, member, inside⟩
    rw [eval, eval, evals_eq_map, evals_eq_map, values]
    cases op with
    | fn name range => exact absurd rfl (other name range)
    | _ => rfl

theorem of_mem_vars {P : Expr → Prop} {name : String} {s : Srt}
    (down : ∀ op args, P (.app op args) → ∀ a ∈ args, P a) (finite : e.finitary = true)
    (holds : P e) (inside : .var name s ∈ e.vars) : P (.var name s) := by
  induction e using Expr.induction with
  | num bits value => simp [vars] at inside
  | bool value => simp [vars] at inside
  | var name' s' =>
    have same : Expr.var name s = .var name' s' := by simpa [vars] using inside
    exact same ▸ holds
  | bound i s => simp [finitary] at finite
  | lambda domain name body => simp [finitary] at finite
  | app op args ih =>
    obtain ⟨-, inner⟩ := finitary_app finite
    by_cases none_ : args = []
    · subst none_
      simp [vars] at inside
    · rw [vars_app none_] at inside
      obtain ⟨a, member, inside⟩ := List.mem_flatMap.1 inside
      exact ih a member (inner a member) (down op args holds a member) inside

/-- A boolean term over these variables. -/
structure Constraint (vars : List Expr) (e : Expr) : Prop where
  sorted : e.HasSort .bool
  finite : e.finitary = true
  within : ∀ name s, .var name s ∈ e.vars → .var name s ∈ vars

section

variable {vars : List Expr} {a b e : Expr}

theorem Constraint.bool (vars : List Expr) (x : Bool) : Constraint vars (.bool x) :=
  ⟨hasSort_bool.2 rfl, rfl, by simp [Expr.vars]⟩

theorem Constraint.not (constraint : Constraint vars e) : Constraint vars (not e) := by
  have sorted := hasSort_not_eq constraint.sorted
  unfold Expr.not at sorted ⊢
  split
  · exact .bool vars false
  split
  · exact .bool vars true
  split
  · next neg shape =>
    have same := isNot_eq_some.1 shape
    have finite := constraint.finite
    have within := constraint.within
    rw [same] at finite within
    rw [vars_app (by simp)] at within
    refine ⟨?_, (finitary_app finite).2 neg (by simp), by simpa using within⟩
    exact (hasSort_not.1 (same ▸ constraint.sorted)).2
  · refine ⟨hasSort_not.2 ⟨rfl, constraint.sorted⟩, ?_, ?_⟩
    · simpa [finitary] using constraint.finite
    · rw [vars_app (by simp)]
      simpa using constraint.within

theorem Constraint.and
    (left : Constraint vars a) (right : Constraint vars b) : Constraint vars (and a b) := by
  have sorted := hasSort_and_eq left.sorted right.sorted
  unfold Expr.and at sorted ⊢
  split
  · exact left
  split
  · exact right
  · next first second =>
    rw [if_neg first, if_neg second] at sorted
    refine ⟨sorted, ?_, ?_⟩
    · simpa [finitary] using ⟨left.finite, right.finite⟩
    · rw [vars_app (by simp)]
      intro name s inside
      have either : .var name s ∈ a.vars ∨ .var name s ∈ b.vars := by simpa using inside
      exact either.elim (left.within name s) (right.within name s)

theorem Constraint.mkAnd {vals : List Expr}
    (constraints : ∀ e ∈ vals, Constraint vars e) : Constraint vars (mkAnd vals) := by
  have each : ∀ start, Constraint vars start → Constraint vars (vals.foldl Expr.and start) := by
    induction vals with
    | nil => exact fun start constraint => constraint
    | cons e rest ih =>
      rw [List.forall_mem_cons] at constraints
      intro start constraint
      exact ih constraints.2 _ (constraint.and constraints.1)
  exact each _ (.bool vars true)

theorem Constraint.truth_eq {M N : Model} (constraint : Constraint vars e)
    (agree : ∀ name s, .var name s ∈ vars → M.var name s = N.var name s) :
    e.truth M = e.truth N := by
  rw [truth, truth, eval_of_finitary constraint.finite fun name s inside =>
    agree name s (constraint.within name s inside)]

end

structure Binding (vars : List Expr) (entry : Expr × Expr) : Prop where
  isVar : ∃ name s, entry.1 = .var name s ∧ entry.2.HasSort s
  const : entry.2.isConst = true
  member : entry.1 ∈ vars

section

variable {z : Z3} {vars : List Expr} {entry : Expr × Expr}

theorem cmpEq_var {name : String} {s : Srt} {val : Expr} (const : val.isConst = true) :
    cmpEq z (.var name s) val =
      if val.isTrue then .var name s
      else if val.isFalse then not (.var name s)
      else binopOrdered z .eq (.var name s) val := by
  have rank : cmpEqRank (.var name s) val ≠ 0 := by
    have positive := val.size_pos
    unfold cmpEqRank
    omega
  obtain ⟨depth, deep⟩ := Nat.exists_eq_succ_of_ne_zero rank
  unfold cmpEq
  rw [deep]
  show (cmpEqRound (calls z depth) z (.var name s) val).getD _ = _
  cases val with
  | num bits value => rfl
  | bool value =>
    cases value with
    | true => rfl
    | false => rfl
  | var name s => cases const
  | bound index s => cases const
  | app op args => cases const
  | lambda domain name body => cases const

theorem hasConstants_of_const {val : Expr} {s : Srt} (const : val.isConst = true)
    (sorted : val.HasSort s) : s.wf = true ∧ s.hasConstants = true := by
  have basic := hasConstants_of_isConst const
  rw [sorted.sort_eq] at basic
  refine ⟨?_, basic⟩
  cases s with
  | bool => rfl
  | bv w => exact decide_eq_true sorted.pos
  | array domain range => cases basic
  | other kind => cases basic

theorem Binding.constraint
    (binding : Binding vars entry) : Constraint vars (cmpEq z entry.1 entry.2) := by
  obtain ⟨name, s, var, sorted⟩ := binding.isVar
  have const := binding.const
  have member := binding.member
  obtain ⟨x, val⟩ := entry
  cases var
  dsimp only at *
  obtain ⟨wf, basic⟩ := hasConstants_of_const const sorted
  have hasSort : HasSort (.var name s) s := ⟨wf, rfl⟩
  have bare : s = .bool → Constraint vars (.var name s) := by
    rintro rfl
    exact ⟨hasSort, rfl, by simpa [Expr.vars] using member⟩
  rw [cmpEq_var const]
  split
  · next holds =>
    rw [isTrue_iff] at holds
    subst holds
    exact bare (hasSort_bool.1 sorted)
  split
  · next fails =>
    rw [isFalse_iff] at fails
    subst fails
    exact (bare (hasSort_bool.1 sorted)).not
  · have constant : val.finitary = true := by
      cases val with
      | num bits value => rfl
      | bool value => rfl
      | _ => cases const
    have noVars : ∀ name s, .var name s ∉ val.vars := by
      cases val with
      | num bits value => simp [Expr.vars]
      | bool value => simp [Expr.vars]
      | _ => cases const
    have open_ : simplifyConst z (.app .eq [.var name s, val]) [.var name s, val] =
        .app .eq [.var name s, val] := by simp [simplifyConst, isConst]
    have open' : simplifyConst z (.app .eq [val, .var name s]) [val, .var name s] =
        .app .eq [val, .var name s] := by simp [simplifyConst, isConst]
    rw [binopOrdered, binopFold, binopFold, open_, open']
    have within : ∀ args : List Expr, args ⊆ [.var name s, val] →
        ∀ n t, .var n t ∈ args.flatMap Expr.vars → .var n t ∈ vars := by
      intro args sub n t inside
      obtain ⟨a, among, inside⟩ := List.mem_flatMap.1 inside
      rcases List.mem_pair.1 (sub among) with rfl | rfl
      · have same : Expr.var n t = .var name s := by simpa [Expr.vars] using inside
        exact same ▸ member
      · exact absurd inside (noVars n t)
    split
    · refine ⟨hasSort_eq_of hasSort sorted, by simp [finitary, constant, basic], ?_⟩
      rw [vars_app (by simp)]
      exact within _ (List.Subset.refl _)
    · refine ⟨hasSort_eq_of sorted hasSort, by simp [finitary, constant, basic], ?_⟩
      rw [vars_app (by simp)]
      exact within _ (by simp)

theorem Binding.truth_iff (binding : Binding vars entry) (M : Model) :
    (cmpEq z entry.1 entry.2).truth M = true ↔ entry.1.eval M = entry.2.eval M := by
  obtain ⟨name, s, var, sorted⟩ := binding.isVar
  obtain ⟨wf, basic⟩ := hasConstants_of_const binding.const sorted
  have hasSort : entry.1.HasSort s := by
    rw [var]
    exact ⟨wf, rfl⟩
  refine (cmpEq_decides z hasSort sorted).truth M ?_
  rw [safe_pair]
  refine ⟨?_, nonzeroDivisors_of_isConst binding.const M⟩
  rw [var]
  trivial

end

end Expr

end AliveNext.Smt
