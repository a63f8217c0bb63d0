import AliveNext.Smt.ConnectivesSound

/-!
# What the accumulators hold

`AndExpr` is a set of conjuncts: `add` splits a conjunction before it inserts
the parts, `del` removes the conjuncts of another accumulator. Over any sequence
of these operations the accumulator holds the conjuncts that were added and not
deleted since, and `operator()` is their conjunction.
-/

namespace AliveNext.Smt

namespace Expr

variable {start : Expr} {vals : List Expr}

theorem foldl_and_spec (sorted : start.HasSort .bool) (sorts : ∀ e ∈ vals, e.HasSort .bool) :
    (vals.foldl and start).HasSort .bool ∧
      ∀ M, (vals.foldl and start).truth M = (start.truth M && vals.all (truth · M)) := by
  induction vals generalizing start with
  | nil => simp [sorted]
  | cons e rest ih =>
    rw [List.forall_mem_cons] at sorts
    have next := ih (hasSort_and_eq sorted sorts.1) sorts.2
    refine ⟨next.1, fun M => ?_⟩
    rw [List.foldl_cons, next.2 M, truth_and_eq sorted sorts.1, List.all_cons, Bool.and_assoc]

theorem mkAnd_spec (sorts : ∀ e ∈ vals, e.HasSort .bool) : (mkAnd vals).HasSort .bool ∧
      ∀ M, (mkAnd vals).truth M = vals.all (truth · M) := by
  have sorted : HasSort (.bool true) .bool := hasSort_bool.2 rfl
  have spec := foldl_and_spec sorted sorts
  refine ⟨spec.1, fun M => ?_⟩
  rw [mkAnd, spec.2 M, truth_bool, Bool.true_and]

theorem foldl_or_spec (sorted : start.HasSort .bool) (sorts : ∀ e ∈ vals, e.HasSort .bool) :
    (vals.foldl or start).HasSort .bool ∧
      ∀ M, (vals.foldl or start).truth M = (start.truth M || vals.any (truth · M)) := by
  induction vals generalizing start with
  | nil => simp [sorted]
  | cons e rest ih =>
    rw [List.forall_mem_cons] at sorts
    have next := ih (hasSort_or_eq sorted sorts.1) sorts.2
    refine ⟨next.1, fun M => ?_⟩
    rw [List.foldl_cons, next.2 M, truth_or_eq sorted sorts.1, List.any_cons, Bool.or_assoc]

theorem mkOr_spec (sorts : ∀ e ∈ vals, e.HasSort .bool) : (mkOr vals).HasSort .bool ∧
      ∀ M, (mkOr vals).truth M = vals.any (truth · M) := by
  have sorted : HasSort (.bool false) .bool := hasSort_bool.2 rfl
  have spec := foldl_or_spec sorted sorts
  refine ⟨spec.1, fun M => ?_⟩
  rw [mkOr, spec.2 M, truth_bool, Bool.false_or]

theorem foldl_and_false
    (falsum : start = .bool false ∨ .bool false ∈ vals) : vals.foldl and start = .bool false := by
  have absorbs : ∀ e, and (.bool false) e = .bool false := fun e => by simp [and, isFalse]
  have absorbed : ∀ e, and e (.bool false) = .bool false := by
    intro e
    unfold and
    split
    · next known => simpa [isFalse_iff, isTrue] using known
    · simp [isFalse]
  induction vals generalizing start with
  | nil => simpa using falsum
  | cons e rest ih =>
    rw [List.foldl_cons]
    apply ih
    rcases falsum with rfl | member
    · exact .inl (absorbs e)
    · rcases List.mem_cons.1 member with rfl | member
      · exact .inl (absorbed start)
      · exact .inr member

end Expr

namespace AndExpr

variable {z : Z3} {limit : Nat} {e f : Expr} {M : Model}

/-- The parts that `add` splits a term into. -/
def conjuncts : (limit : Nat) → Expr → List Expr
  | 0, e => if e.isTrue then [] else [e]
  | limit + 1, e =>
    if e.isTrue then []
    else
      match e.isAnd with
      | some (a, b) => conjuncts limit a ++ conjuncts limit b
      | none => [e]

theorem mem_add {self : AndExpr} : f ∈ (add z limit self e).exprs.elements ↔
      f ∈ conjuncts limit e ∨ f ∈ self.exprs.elements := by
  induction limit generalizing self e with
  | zero =>
    unfold add conjuncts
    split <;> simp
  | succ limit ih =>
    unfold add conjuncts
    by_cases holds : e.isTrue = true
    · simp [holds]
    · rw [if_neg holds, if_neg holds]
      cases shape : e.isAnd with
      | none => simp
      | some parts =>
        rw [ih, ih, List.mem_append]
        tauto

theorem conjuncts_spec (sorted : e.HasSort .bool) : (∀ f ∈ conjuncts limit e, f.HasSort .bool) ∧
      ∀ M, (conjuncts limit e).all (Expr.truth · M) = e.truth M := by
  induction limit generalizing e with
  | zero =>
    unfold conjuncts
    split
    · next holds => simp [Expr.truth_of_isTrue holds]
    · simp [sorted]
  | succ limit ih =>
    unfold conjuncts
    split
    · next holds => simp [Expr.truth_of_isTrue holds]
    split
    · next a b shape =>
      rw [Expr.isAnd_eq_some] at shape
      subst shape
      obtain ⟨-, left, right⟩ := Expr.hasSort_and.1 sorted
      have first := ih left
      have second := ih right
      constructor
      · exact List.forall_mem_append.2 ⟨first.1, second.1⟩
      · intro M
        rw [List.all_append, first.2 M, second.2 M, Expr.truth_and]
    · simp [sorted]

/-- The operations on an accumulator. -/
inductive Action where
  | add (e : Expr) (limit : Nat)
  | addAll (other : AndExpr)
  | del (other : AndExpr)

namespace Action

def run (z : Z3) (self : AndExpr) : Action → AndExpr
  | .add e limit => AndExpr.add z limit self e
  | .addAll other => AndExpr.addAll z self other
  | .del other => AndExpr.del self other

def added : Action → List Expr
  | .add e limit => conjuncts limit e
  | .addAll other => other.exprs.elements
  | .del _ => []

def deleted : Action → List Expr
  | .del other => other.exprs.elements
  | _ => []

def Boolean : Action → Prop
  | .add e _ => e.HasSort .bool
  | .addAll other => ∀ e ∈ other.exprs.elements, e.HasSort .bool
  | .del _ => True

theorem mem_run {self : AndExpr} {action : Action} : f ∈ (action.run z self).exprs.elements ↔
      f ∈ action.added ∨ f ∉ action.deleted ∧ f ∈ self.exprs.elements := by
  cases action with
  | add e limit => simp [run, added, deleted, mem_add]
  | addAll other => simp [run, added, deleted, AndExpr.addAll, ExprSet.mem_foldl_insert]
  | del other => simp [run, added, deleted, AndExpr.del, ExprSet.mem_foldl_erase]

theorem Boolean.added
    {action : Action} (boolean : action.Boolean) (member : f ∈ action.added) : f.HasSort .bool := by
  cases action with
  | add e limit => exact (conjuncts_spec boolean).1 f member
  | addAll other => exact boolean f member
  | del other => exact absurd member List.not_mem_nil

end Action

def runAll (z : Z3) (actions : List Action) : AndExpr :=
  actions.foldl (Action.run z) {}

def Kept (actions : List Action) (f : Expr) : Prop :=
  ∃ before action after, actions = before ++ action :: after ∧
    f ∈ action.added ∧ ∀ later ∈ after, f ∉ later.deleted

variable {actions : List Action}

theorem kept_snoc {action : Action} : Kept (actions ++ [action]) f ↔
      f ∈ action.added ∨ f ∉ action.deleted ∧ Kept actions f := by
  constructor
  · rintro ⟨before, chosen, after, shape, member, late⟩
    induction after using List.reverseRecOn with
    | nil =>
      obtain ⟨-, same⟩ := List.append_inj' shape rfl
      cases same
      exact .inl member
    | append_singleton after final _ =>
      rw [← List.cons_append, ← List.append_assoc] at shape
      obtain ⟨front, same⟩ := List.append_inj' shape rfl
      cases same
      rw [List.forall_mem_append] at late
      exact .inr ⟨late.2 action (by simp), before, chosen, after, front, member, late.1⟩
  · rintro (member | ⟨absent, before, chosen, after, rfl, member, late⟩)
    · exact ⟨actions, action, [], rfl, member, by simp⟩
    · refine ⟨before, chosen, after ++ [action], by simp, member, ?_⟩
      exact List.forall_mem_append.2 ⟨late, by simpa using absent⟩

theorem mem_runAll : f ∈ (runAll z actions).exprs.elements ↔ Kept actions f := by
  induction actions using List.reverseRecOn with
  | nil =>
    simp only [runAll, List.foldl_nil, ExprSet.elements_empty, List.not_mem_nil, false_iff]
    rintro ⟨before, action, after, shape, -⟩
    simp at shape
  | append_singleton actions action ih =>
    rw [kept_snoc, ← ih, runAll, List.foldl_append, List.foldl_cons, List.foldl_nil,
      Action.mem_run, runAll]

theorem Kept.boolean (boolean : ∀ action ∈ actions, action.Boolean)
    (kept : Kept actions f) : f.HasSort .bool := by
  obtain ⟨before, action, after, rfl, member, -⟩ := kept
  exact (boolean action (by simp)).added member

theorem toExpr_runAll (boolean : ∀ action ∈ actions, action.Boolean) :
    (runAll z actions).toExpr.HasSort .bool ∧ ∀ M, (runAll z actions).toExpr.truth M = true ↔
        ∀ f, Kept actions f → f.truth M = true := by
  have sorts : ∀ f ∈ (runAll z actions).exprs.elements, f.HasSort .bool :=
    fun f member => (mem_runAll.1 member).boolean boolean
  have spec := Expr.mkAnd_spec sorts
  refine ⟨spec.1, fun M => ?_⟩
  rw [toExpr, spec.2 M, List.all_eq_true]
  simp only [mem_runAll]

theorem kept_of_added (none_deleted : ∀ action ∈ actions, action.deleted = []) :
    Kept actions f ↔ ∃ action ∈ actions, f ∈ action.added := by
  constructor
  · rintro ⟨before, action, after, rfl, member, -⟩
    exact ⟨action, by simp, member⟩
  · rintro ⟨action, member, inside⟩
    obtain ⟨before, after, rfl⟩ := List.append_of_mem member
    refine ⟨before, action, after, rfl, inside, fun later late => ?_⟩
    rw [none_deleted later (by simp [late])]
    exact List.not_mem_nil

end AndExpr

namespace OrExpr

variable {z : Z3} {f : Expr}

inductive Action where
  | add (e : Expr)
  | addAll (other : OrExpr)

namespace Action

def run (z : Z3) (self : OrExpr) : Action → OrExpr
  | .add e => OrExpr.add z self e
  | .addAll other => OrExpr.addAll z self other

def added : Action → List Expr
  | .add e => [e]
  | .addAll other => other.exprs.elements

end Action

def runAll (z : Z3) (actions : List Action) : OrExpr :=
  actions.foldl (Action.run z) {}

variable {actions : List Action} {self : OrExpr}

theorem mem_foldl_run : f ∈ (actions.foldl (Action.run z) self).exprs.elements →
      (∃ action ∈ actions, f ∈ action.added) ∨ f ∈ self.exprs.elements := by
  induction actions generalizing self with
  | nil => exact .inr
  | cons action rest ih =>
    intro member
    rcases ih member with ⟨later, inside, given⟩ | member
    · exact .inl ⟨later, List.mem_cons_of_mem action inside, given⟩
    cases action with
    | add e =>
      rw [Action.run, OrExpr.add] at member
      split at member
      · exact .inr member
      · rcases ExprSet.mem_insert.1 member with rfl | old
        · exact .inl ⟨.add f, List.mem_cons_self, List.mem_singleton_self f⟩
        · exact .inr old
    | addAll other =>
      rcases (ExprSet.mem_foldl_insert _).1 member with given | old
      · exact .inl ⟨.addAll other, List.mem_cons_self, given⟩
      · exact .inr old

theorem foldl_run_mem (present : (∃ action ∈ actions, f ∈ action.added) ∨ f ∈ self.exprs.elements)
    (notFalse : ¬f.isFalse = true) : f ∈ (actions.foldl (Action.run z) self).exprs.elements := by
  induction actions generalizing self with
  | nil => simpa using present
  | cons action rest ih =>
    apply ih
    rcases present with ⟨chosen, member, given⟩ | old
    · rcases List.mem_cons.1 member with rfl | later
      · right
        cases chosen with
        | add e =>
          obtain rfl := List.mem_singleton.1 given
          rw [Action.run, OrExpr.add, if_neg notFalse]
          exact ExprSet.mem_insert.2 (.inl rfl)
        | addAll other => exact (ExprSet.mem_foldl_insert _).2 (.inl given)
      · exact .inl ⟨chosen, later, given⟩
    · right
      cases action with
      | add e =>
        rw [Action.run, OrExpr.add]
        split
        · exact old
        · exact ExprSet.mem_insert.2 (.inr old)
      | addAll other => exact (ExprSet.mem_foldl_insert _).2 (.inr old)

theorem toExpr_runAll (boolean : ∀ action ∈ actions, ∀ e ∈ action.added, e.HasSort .bool) :
    (runAll z actions).toExpr.HasSort .bool ∧ ∀ M, (runAll z actions).toExpr.truth M = true ↔
        ∃ action ∈ actions, ∃ e ∈ action.added, e.truth M = true := by
  have sorts : ∀ e ∈ (runAll z actions).exprs.elements, e.HasSort .bool := by
    intro e member
    rcases mem_foldl_run member with ⟨action, inside, given⟩ | empty
    · exact boolean action inside e given
    · exact absurd empty List.not_mem_nil
  have spec := Expr.mkOr_spec sorts
  refine ⟨spec.1, fun M => ?_⟩
  rw [toExpr, spec.2 M, List.any_eq_true]
  constructor
  · rintro ⟨e, member, holds⟩
    rcases mem_foldl_run member with ⟨action, inside, given⟩ | empty
    · exact ⟨action, inside, e, given, holds⟩
    · exact absurd empty List.not_mem_nil
  · rintro ⟨action, inside, e, given, holds⟩
    refine ⟨e, foldl_run_mem (.inl ⟨action, inside, given⟩) ?_, holds⟩
    intro fails
    rw [Expr.truth_of_isFalse fails] at holds
    cases holds

end OrExpr

/-- Every boolean constructor has the value of its connective in every model,
`mkIf` that of the branch it selects at any sort, and the accumulators those of
the conjunction and the disjunction of what they were given. -/
theorem boolean_construction (z : Z3) :
    (∀ (e : Expr) M, e.HasSort .bool → (Expr.not e).eval M = .bool (!e.truth M)) ∧
    (∀ (a b : Expr) M, a.HasSort .bool → b.HasSort .bool →
      (Expr.and a b).eval M = .bool (a.truth M && b.truth M) ∧
      (Expr.or a b).eval M = .bool (a.truth M || b.truth M) ∧
      (Expr.implies a b).truth M = (!a.truth M || b.truth M) ∧
      (Expr.notImplies a b).truth M = (a.truth M && !b.truth M)) ∧
    (∀ (cond then_ els : Expr) s M, cond.HasSort .bool → then_.HasSort s → els.HasSort s →
      (∃ t, Expr.mkIfWithin z (Expr.mkIfCalls cond then_ els) cond then_ els = some t ∧
        t = Expr.mkIf z cond then_ els) ∧
      (Expr.mkIf z cond then_ els).eval M =
        if cond.truth M then then_.eval M else els.eval M) ∧
    (∀ (e : Expr) M, e.HasSort .bool →
      (Expr.toBVBool z e).eval M = .bv 1 (BitVec.ofBool (e.truth M))) ∧
    (∀ actions : List AndExpr.Action, (∀ action ∈ actions, action.Boolean) →
      (∀ f, (AndExpr.runAll z actions).contains f = true ↔ AndExpr.Kept actions f) ∧
      ((AndExpr.runAll z actions).toBool = false ↔ AndExpr.Kept actions (.bool false)) ∧
      ((AndExpr.runAll z actions).toBool = false →
        (AndExpr.runAll z actions).toExpr = .bool false) ∧
      (∀ M, (AndExpr.runAll z actions).toExpr.truth M = true ↔
        ∀ f, AndExpr.Kept actions f → f.truth M = true)) ∧
    (∀ (e : Expr) limit M, e.HasSort .bool →
      ((∀ f ∈ AndExpr.conjuncts limit e, f.truth M = true) ↔ e.truth M = true)) ∧
    (∀ actions : List OrExpr.Action,
      (∀ action ∈ actions, ∀ e ∈ action.added, e.HasSort .bool) → ∀ M,
      ((OrExpr.runAll z actions).toExpr.truth M = true ↔
        ∃ action ∈ actions, ∃ e ∈ action.added, e.truth M = true)) := by
  refine ⟨?_, ?_, ?_, ?_, ?_, ?_, ?_⟩
  · intro e M sorted
    rw [(Expr.hasSort_not_eq sorted).eval_bool, Expr.truth_not_eq sorted]
  · intro a b M left right
    refine ⟨?_, ?_, Expr.truth_implies left right M, Expr.truth_notImplies left right M⟩
    · rw [(Expr.hasSort_and_eq left right).eval_bool, Expr.truth_and_eq left right]
    · rw [(Expr.hasSort_or_eq left right).eval_bool, Expr.truth_or_eq left right]
  · intro cond then_ els s M sortedCond sortedThen sortedEls
    have sorted := Expr.hasSort_ite.2 ⟨sortedCond, sortedThen, sortedEls⟩
    obtain ⟨t, built, spec⟩ := Expr.mkIfWithin_spec z _ sorted (le_refl _)
    have same : t = Expr.mkIf z cond then_ els := by rw [Expr.mkIf, built, Option.getD_some]
    exact ⟨⟨t, built, same⟩, by rw [← same, spec.same.eval_eq M, Expr.eval_ite]⟩
  · intro e M sorted
    rw [(Expr.toBVBool_spec z sorted).same.eval_eq M, Expr.eval_ite]
    cases e.truth M <;> rfl
  · intro actions boolean
    have contains : ∀ f, (AndExpr.runAll z actions).contains f = true ↔ AndExpr.Kept actions f := by
      intro f
      rw [AndExpr.contains, decide_eq_true_iff, AndExpr.mem_runAll]
    have toBool : (AndExpr.runAll z actions).toBool = false ↔
        AndExpr.Kept actions (.bool false) := by
      rw [AndExpr.toBool, Bool.not_eq_false', contains]
    refine ⟨contains, toBool, ?_, (AndExpr.toExpr_runAll boolean).2⟩
    intro fails
    exact Expr.foldl_and_false (.inr (AndExpr.mem_runAll.2 (toBool.1 fails)))
  · intro e limit M sorted
    rw [← (AndExpr.conjuncts_spec sorted).2 M, List.all_eq_true]
  · intro actions boolean M
    exact (OrExpr.toExpr_runAll boolean).2 M

end AliveNext.Smt
