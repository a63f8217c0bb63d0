import AliveNext.Smt.Blocking

/-!
# What a blocked cube contains

With exact answers the loop of `block` keeps that the equations left imply the constraint, and
gives the other solver back as it was. So the cube that a round excludes has the model it
began with, and solutions only.
-/

namespace AliveNext.Smt

def Interp.Agrees (m : Interp) (M : Model) : Prop :=
  ∀ entry ∈ m.consts, entry.1.eval M = entry.2.eval M

def AllTrue (asserted : List Expr) (M : Model) : Prop :=
  ∀ e ∈ asserted, e.truth M = true

/-- A model gives constants to variables of the assertions; those it leaves out do not matter. -/
structure Interp.ModelOf (m : Interp) (vars asserted : List Expr) : Prop where
  bindings : ∀ entry ∈ m.consts, Expr.Binding vars entry
  noFunctions : m.fns = []
  consistent : ∃ M, m.Agrees M
  satisfies : ∀ M, m.Agrees M → AllTrue asserted M

/-- The library decides constraints over finitely many variables with finitely many values. -/
def Exact (answer : List Expr → Answer) : Prop :=
  ∀ vars asserted, (∀ e ∈ asserted, Expr.Constraint vars e) →
    match answer asserted with
    | .unsat => ∀ M, ¬AllTrue asserted M
    | .sat m => m.ModelOf vars asserted
    | .undef _ => False

def Interp.of (asserted : List Expr) (M : Model) : Interp where
  consts := (asserted.flatMap Expr.vars).filterMap fun
    | .var name s => (Value.of s (M.var name s)).toExpr.map fun val => (.var name s, val)
    | _ => none

theorem Interp.mem_of {asserted : List Expr} {M : Model} {entry : Expr × Expr} :
    entry ∈ (of asserted M).consts ↔ ∃ name s, .var name s ∈ asserted.flatMap Expr.vars ∧
      entry.1 = .var name s ∧ (Value.of s (M.var name s)).toExpr = some entry.2 := by
  obtain ⟨x, val⟩ := entry
  rw [of, List.mem_filterMap]
  constructor
  · rintro ⟨x, inside, known⟩
    split at known
    · next name s =>
      obtain ⟨val, value, same⟩ := Option.map_eq_some_iff.1 known
      cases same
      exact ⟨name, s, inside, rfl, value⟩
    · cases known
  · rintro ⟨name, s, inside, rfl, value⟩
    exact ⟨.var name s, inside, by dsimp only at value ⊢; rw [value]; rfl⟩

theorem toExpr_of {s : Srt} (value : s.Val) (wf : s.wf = true) (basic : s.hasConstants = true) :
    ∃ val, (Value.of s value).toExpr = some val ∧ val.HasSort s ∧ val.isConst = true ∧
      ∀ M, val.eval M = .of s value := by
  cases s with
  | bool => exact ⟨.bool value, rfl, Expr.hasSort_bool.2 rfl, rfl, fun _ => rfl⟩
  | bv w =>
    exact ⟨.num w value, rfl, Expr.hasSort_num.2 ⟨of_decide_eq_true wf, rfl⟩, rfl, fun _ => rfl⟩
  | array domain range => cases basic
  | other kind => cases basic

open Classical in
noncomputable def exhaustive (asserted : List Expr) : Answer :=
  if satisfiable : ∃ M, AllTrue asserted M then .sat (.of asserted satisfiable.choose) else .unsat

theorem Interp.of_var {vars asserted : List Expr} (M : Model) {name : String} {s : Srt}
    (constraints : ∀ e ∈ asserted, Expr.Constraint vars e)
    (inside : .var name s ∈ asserted.flatMap Expr.vars) :
    .var name s ∈ vars ∧
      ∃ val, (.var name s, val) ∈ (of asserted M).consts ∧ val.HasSort s ∧ val.isConst = true ∧
        ∀ N, val.eval N = .of s (M.var name s) := by
  have found := inside
  rw [List.mem_flatMap] at found
  obtain ⟨e, member, occurs⟩ := found
  have constraint := constraints e member
  have basic : (Expr.var name s).finitary = true :=
    Expr.of_mem_vars (fun _ _ whole => (Expr.finitary_app whole).2)
      constraint.finite constraint.finite occurs
  have wf : (Expr.var name s).wellSorted = true := by
    refine Expr.of_mem_vars (P := fun a => a.wellSorted = true) (fun op args whole a among => ?_)
      constraint.finite constraint.sorted.wellSorted occurs
    rw [Expr.wellSorted, Bool.and_eq_true, Expr.wellSortedAll_iff] at whole
    exact whole.1 a among
  obtain ⟨val, known, sorted, const, value⟩ := toExpr_of (M.var name s) wf basic
  exact ⟨constraint.within name s occurs,
    val, mem_of.2 ⟨name, s, inside, rfl, known⟩, sorted, const, value⟩

theorem exact_exhaustive : Exact exhaustive := by
  intro vars asserted constraints
  by_cases satisfiable : ∃ M, AllTrue asserted M
  · rw [exhaustive, dif_pos satisfiable]
    have holds := satisfiable.choose_spec
    generalize satisfiable.choose = M at holds ⊢
    have entries : ∀ entry ∈ (Interp.of asserted M).consts,
        Expr.Binding vars entry ∧ entry.1.eval M = entry.2.eval M := by
      intro entry member
      obtain ⟨name, s, inside, var, known⟩ := Interp.mem_of.1 member
      obtain ⟨within, val, listed, sorted, const, value⟩ := Interp.of_var M constraints inside
      obtain ⟨name', s', -, same, known'⟩ := Interp.mem_of.1 listed
      cases same
      have equal : entry.2 = val := Option.some.inj (known.symm.trans known')
      refine ⟨⟨⟨name, s, var, equal ▸ sorted⟩, equal ▸ const, var ▸ within⟩, ?_⟩
      rw [equal, value M, var]
      rfl
    refine ⟨fun entry member => (entries entry member).1, rfl,
      ⟨M, fun entry member => (entries entry member).2⟩, fun N agrees e member => ?_⟩
    rw [← holds e member, Expr.truth, Expr.truth]
    rw [Expr.eval_of_finitary (constraints e member).finite fun name s occurs => ?_]
    obtain ⟨-, val, listed, -, -, value⟩ :=
      Interp.of_var M constraints (List.mem_flatMap.2 ⟨e, member, occurs⟩)
    have read := agrees _ listed
    rw [value N] at read
    have values := congrArg (Value.get s) read
    rwa [Expr.eval, Value.get_of, Value.get_of] at values
  · rw [exhaustive, dif_neg satisfiable]
    exact not_exists.1 satisfiable

namespace Solver

structure Means (vars : List Expr) (s : Solver) (p : Model → Prop) : Prop where
  valid : s.valid = true
  constraints : ∀ e ∈ s.asserted, Expr.Constraint vars e
  models : ∀ M, s.isUnsat = false ∧ AllTrue s.asserted M ↔ p M

section

variable {z : Z3} {answer : List Expr → Answer} {vars : List Expr} {s sneg : Solver}
  {p : Model → Prop} {e : Expr}

theorem means_new (vars : List Expr) : Means vars {} fun _ => True :=
  ⟨rfl, by simp, by simp [AllTrue]⟩

theorem Means.congr
    {p' : Model → Prop} (means : s.Means vars p) (same : ∀ M, p M ↔ p' M) : s.Means vars p' :=
  ⟨means.valid, means.constraints, fun M => (means.models M).trans (same M)⟩

theorem Means.add (means : s.Means vars p) (constraint : Expr.Constraint vars e) :
    (s.add (some e)).Means vars fun M => p M ∧ e.truth M = true := by
  unfold Solver.add
  dsimp only
  split
  · next falsum =>
    refine ⟨means.valid, means.constraints, fun M => ?_⟩
    have fails := Expr.truth_of_isFalse falsum M
    simp [fails]
  · refine ⟨means.valid, ?_, fun M => ?_⟩
    · rw [List.forall_mem_append, List.forall_mem_singleton]
      exact ⟨means.constraints, constraint⟩
    · rw [← means.models M]
      simp only [AllTrue, List.forall_mem_append, List.forall_mem_singleton]
      tauto

/-- With exact answers `check` decides. -/
theorem Means.check (means : s.Means vars p) (exactly : Exact answer) :
    s.check answer false = .unsat ∧ (∀ M, ¬p M) ∨ ∃ m : Interp, s.check answer false = .sat m ∧
        (∀ entry ∈ m.consts, Expr.Binding vars entry) ∧ m.fns = [] ∧
        (∃ M, m.Agrees M) ∧ ∀ M, m.Agrees M → p M := by
  have decided := exactly vars s.asserted means.constraints
  unfold Solver.check
  rw [means.valid]
  cases flag : s.isUnsat with
  | true =>
    refine .inl ⟨by simp, fun M holds => ?_⟩
    rw [← means.models M, flag] at holds
    exact Bool.noConfusion holds.1
  | false =>
    cases known : answer s.asserted with
    | unsat =>
      rw [known] at decided
      refine .inl ⟨by simp, fun M holds => ?_⟩
      rw [← means.models M] at holds
      exact decided M holds.2
    | sat m =>
      rw [known] at decided
      refine .inr ⟨m, by simp, decided.bindings, decided.noFunctions, decided.consistent, ?_⟩
      intro M agrees
      rw [← means.models M]
      exact ⟨flag, decided.satisfies M agrees⟩
    | undef reason =>
      rw [known] at decided
      exact decided.elim

theorem discard_sneg (state : Solver × ExprSet) (val : Expr) (skipSmt : Bool) :
    (discard z answer skipSmt state val).1 = state.1 := by
  unfold discard push SolverPush.pop Solver.add
  dsimp only
  split <;> rfl

variable {set start : ExprSet} {val : Expr} {q : Model → Prop}

theorem truth_mkAnd_iff {vals : List Expr} (constraints : ∀ e ∈ vals, Expr.Constraint vars e)
    (M : Model) : (Expr.mkAnd vals).truth M = true ↔ AllTrue vals M := by
  rw [(Expr.mkAnd_spec fun e member => (constraints e member).sorted).2 M, List.all_eq_true]
  rfl

section

variable (exactly : Exact answer) (negated : sneg.Means vars fun M => ¬q M)
    (constraints : ∀ e ∈ start.elements, Expr.Constraint vars e)

include exactly negated constraints

/-- If no model of the negated constraint satisfies the other equations, they imply the
constraint; otherwise the equation is put back. -/
theorem discard_implies (part : set.elements ⊆ start.elements) (member : val ∈ start.elements)
    (implies : ∀ M, AllTrue set.elements M → q M) :
    (discard z answer false (sneg, set) val).2.elements ⊆ start.elements ∧
      ∀ M, AllTrue (discard z answer false (sneg, set) val).2.elements M → q M := by
  have less : (set.erase val).elements ⊆ set.elements := fun e inside =>
    (ExprSet.mem_erase.1 inside).2
  have each : ∀ e ∈ (set.erase val).elements, Expr.Constraint vars e := fun e inside =>
    constraints e (part (less inside))
  have pushed : sneg.push.2.Means vars fun M => ¬q M :=
    ⟨negated.valid, negated.constraints, negated.models⟩
  have decided := (pushed.add (.mkAnd each)).check exactly
  unfold discard
  dsimp only
  split
  · next dropped =>
    refine ⟨List.Subset.trans less part, fun M holds => ?_⟩
    rcases decided with ⟨-, none_⟩ | ⟨m, known, -⟩
    · by_contra fails
      exact none_ M ⟨fails, (truth_mkAnd_iff each M).2 holds⟩
    · rw [known] at dropped
      exact Bool.noConfusion dropped
  · refine ⟨fun e inside => ?_, fun M holds => implies M fun e inside => ?_⟩
    · rw [ExprSet.mem_insert] at inside
      rcases inside with rfl | inside
      · exact member
      · exact part (less inside)
    · refine holds e (ExprSet.mem_insert.2 ?_)
      by_cases same : e = val
      · exact .inl same
      · exact .inr (ExprSet.mem_erase.2 ⟨same, inside⟩)

theorem minimise_spec (implies : ∀ M, AllTrue start.elements M → q M) :
    (minimise z answer false sneg start).1 = sneg ∧
      (minimise z answer false sneg start).2.elements ⊆ start.elements ∧
      ∀ M, AllTrue (minimise z answer false sneg start).2.elements M → q M := by
  have loop : ∀ (ahead : List Expr) (set : ExprSet), ahead ⊆ start.elements →
      set.elements ⊆ start.elements → (∀ M, AllTrue set.elements M → q M) →
      (ahead.foldl (discard z answer false) (sneg, set)).1 = sneg ∧
        (ahead.foldl (discard z answer false) (sneg, set)).2.elements ⊆ start.elements ∧
        ∀ M, AllTrue (ahead.foldl (discard z answer false) (sneg, set)).2.elements M → q M := by
    intro ahead
    induction ahead with
    | nil => exact fun set _ part implies => ⟨rfl, part, implies⟩
    | cons val rest ih =>
      intro set inside part implies
      rw [List.cons_subset] at inside
      have next := discard_implies (z := z) exactly negated constraints part inside.1 implies
      have same : discard z answer false (sneg, set) val =
          (sneg, (discard z answer false (sneg, set) val).2) :=
        Prod.ext (discard_sneg (sneg, set) val false) rfl
      rw [List.foldl_cons, same]
      exact ih _ inside.2 next.1 next.2
  exact loop _ start (List.Subset.refl _) (List.Subset.refl _) implies

end

theorem mem_assignments {m : Interp} (noFunctions : m.fns = []) :
    e ∈ (assignments z m).elements ↔ ∃ entry ∈ m.consts, e = Expr.cmpEq z entry.1 entry.2 := by
  have each : ∀ (entries : List (Expr × Expr)) (set : ExprSet),
      e ∈ (entries.foldl (fun set entry => set.insert z (Expr.cmpEq z entry.1 entry.2))
          set).elements ↔
        e ∈ set.elements ∨ ∃ entry ∈ entries, e = Expr.cmpEq z entry.1 entry.2 := by
    intro entries
    induction entries with
    | nil => simp
    | cons entry rest ih =>
      intro set
      rw [List.foldl_cons, ih, ExprSet.mem_insert, List.exists_mem_cons_iff]
      tauto
  rw [assignments, noFunctions]
  exact (each m.consts .empty).trans (or_iff_right List.not_mem_nil)

theorem assignments_spec {m : Interp} (bindings : ∀ entry ∈ m.consts, Expr.Binding vars entry)
    (noFunctions : m.fns = []) :
    (∀ e ∈ (assignments z m).elements, Expr.Constraint vars e) ∧
      ∀ M, AllTrue (assignments z m).elements M ↔ m.Agrees M := by
  refine ⟨fun e inside => ?_, fun M => ?_⟩
  · obtain ⟨entry, member, rfl⟩ := (mem_assignments noFunctions).1 inside
    exact (bindings entry member).constraint
  · constructor
    · intro holds entry member
      rw [← (bindings entry member).truth_iff (z := z)]
      exact holds _ ((mem_assignments noFunctions).2 ⟨entry, member, rfl⟩)
    · intro agrees e inside
      obtain ⟨entry, member, rfl⟩ := (mem_assignments noFunctions).1 inside
      exact ((bindings entry member).truth_iff M).2 (agrees entry member)

end

end Solver

end AliveNext.Smt
