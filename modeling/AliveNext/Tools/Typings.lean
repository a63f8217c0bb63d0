import AliveNext.Smt.BlockingSound

/-!
# Enumerating the typings of a transformation

`TypingAssignments` of `tools/transform.cpp`: a loop `for (; types; ++types)` over the
solutions of the typing constraint. Each round blocks a cube around the model at hand, until
the solver finds no other model.
-/

namespace AliveNext.Tools.Typings

open AliveNext.Smt

structure TypingAssignments where
  s : Solver
  sneg : Solver
  r : Result := .error ""
  hasOnlyOneSolution : Bool := false
  isUnsat : Bool := false

namespace TypingAssignments

variable (z : Z3) (answer : List Expr → Answer)

/-- `TypingAssignments::TypingAssignments`. `EnableSMTQueriesTMP` switches `skip_smt` off for
as long as the constructor runs. -/
def new (e : Expr) : TypingAssignments :=
  if e.isTrue then { s := {}, sneg := {}, hasOnlyOneSolution := true }
  else
    let s := Solver.add {} (some e)
    let sneg := Solver.add {} (some e.not)
    { s := s, sneg := sneg, r := s.check answer false }

/-- `TypingAssignments::operator bool`. -/
def toBool (t : TypingAssignments) : Bool :=
  !t.isUnsat && (t.hasOnlyOneSolution || t.r.isSat)

/-- `TypingAssignments::operator++`, unless an assertion fails. -/
def next (t : TypingAssignments) : Option TypingAssignments :=
  if t.hasOnlyOneSolution then some { t with isUnsat := true }
  else do
    let m ← t.r.getModel
    let (s, sneg) := t.s.block z answer false m (some t.sneg)
    let t := { t with s := s, sneg := sneg.getD t.sneg, r := s.check answer false }
    if t.r.isSat || t.r.isUnsat then some t else none

/-- The equations that `operator++` excludes; with one solution, all assignments. -/
def cube (t : TypingAssignments) : ExprSet :=
  match t.hasOnlyOneSolution, t.r.getModel with
  | false, some m => (Solver.minimise z answer false t.sneg (Solver.assignments z m)).2
  | _, _ => .empty

def Yields (t : TypingAssignments) (M : Model) : Prop :=
  t.hasOnlyOneSolution = true ∨ ∃ m, t.r.getModel = some m ∧ m.Agrees M

def after (start : TypingAssignments) : Nat → TypingAssignments
  | 0 => start
  | k + 1 => ((start.after k).next z answer).getD (start.after k)

end TypingAssignments

def varsOf (e : Expr) : List Expr :=
  e.vars.filter fun
    | .var _ s => s.hasConstants
    | _ => false

variable {e : Expr} {vars : List Expr} {z : Z3} {answer : List Expr → Answer}

theorem mem_varsOf (finite : e.finitary = true) (name : String) (s : Srt)
    (inside : .var name s ∈ e.vars) : .var name s ∈ varsOf e := by
  rw [varsOf, List.mem_filter]
  have basic : (Expr.var name s).finitary = true :=
    Expr.of_mem_vars (fun _ _ whole => (Expr.finitary_app whole).2) finite finite inside
  exact ⟨inside, basic⟩

theorem basic_varsOf (e : Expr) :
    ∀ x ∈ varsOf e, ∃ name s, x = .var name s ∧ s.hasConstants = true := by
  intro x inside
  have kind := (List.mem_filter.1 inside).2
  split at kind
  · next name s => exact ⟨name, s, rfl, kind⟩
  · exact Bool.noConfusion kind

def valuesOf (vars : List Expr) (M : Model) : List Value :=
  vars.map fun
    | .var name s => .of s (M.var name s)
    | _ => .bool false

theorem finite_values
    {s : Srt} (basic : s.hasConstants = true) : (Set.range (Value.of s)).Finite := by
  cases s with
  | bool =>
    have : Finite (Srt.Val .bool) := inferInstanceAs (Finite Bool)
    exact Set.finite_range _
  | bv w =>
    have : Finite (Srt.Val (.bv w)) := inferInstanceAs (Finite (BitVec w))
    exact Set.finite_range _
  | array domain range => cases basic
  | other kind => cases basic

theorem finite_valuesOf (basic : ∀ x ∈ vars, ∃ name s, x = .var name s ∧ s.hasConstants = true) :
    (Set.range (valuesOf vars)).Finite := by
  induction vars with
  | nil =>
    refine (Set.finite_singleton []).subset ?_
    rintro _ ⟨M, rfl⟩
    rfl
  | cons x rest ih =>
    rw [List.forall_mem_cons] at basic
    obtain ⟨⟨name, s, rfl, finite⟩, others⟩ := basic
    refine ((finite_values finite).image2 List.cons (ih others)).subset ?_
    rintro _ ⟨M, rfl⟩
    exact ⟨_, ⟨M.var name s, rfl⟩, _, ⟨M, rfl⟩, rfl⟩

theorem var_eq_of_valuesOf {M N : Model} (same : valuesOf vars M = valuesOf vars N)
    (name : String) (s : Srt) (inside : .var name s ∈ vars) : M.var name s = N.var name s := by
  have values := List.map_inj_left.1 same _ inside
  dsimp only at values
  have read := congrArg (Value.get s) values
  rwa [Value.get_of, Value.get_of] at read

namespace TypingAssignments

variable {z : Z3} {answer : List Expr → Answer} {e : Expr} {t : TypingAssignments}

/-- The state before a round: the first solver is left with the solutions that are in no cube of
an earlier round, the second one with those of the negation. -/
structure Ready (z : Z3) (answer : List Expr → Answer) (e : Expr)
    (excluded : Model → Prop) (sneg : Solver) (t : TypingAssignments) : Prop where
  several : t.hasOnlyOneSolution = false
  notDone : t.isUnsat = false
  restored : t.sneg = sneg
  left : t.s.Means (varsOf e) fun M => e.truth M = true ∧ ¬excluded M
  checked : t.r = t.s.check answer false

/-- What a round does: the solver finds nothing any more, or a new solution, whose cube it
excludes. -/
theorem Ready.round
    {excluded : Model → Prop} {sneg : Solver} (ready : Ready z answer e excluded sneg t)
    (exactly : Exact answer) (negated : sneg.Means (varsOf e) fun M => ¬e.truth M = true) :
    t.toBool = false ∧ (∀ M, e.truth M = true → excluded M) ∨
      ∃ t', t.toBool = true ∧ t.next z answer = some t' ∧
        (∃ M, t.Yields M) ∧ (∀ M, t.Yields M → e.truth M = true ∧ ¬excluded M) ∧
        (∀ M, t.Yields M → AllTrue (t.cube z answer).elements M) ∧
        (∀ M, AllTrue (t.cube z answer).elements M → e.truth M = true) ∧
        (∀ f ∈ (t.cube z answer).elements, Expr.Constraint (varsOf e) f) ∧
        t'.s = t.s.add (some (Expr.not (Expr.mkAnd (t.cube z answer).elements))) ∧
        Ready z answer e (fun M => excluded M ∨ AllTrue (t.cube z answer).elements M) sneg t' := by
  have restored := ready.restored
  subst restored
  rcases ready.left.check exactly with ⟨unsat, none_⟩ | ⟨m, sat, bindings, noFns, some_, holds⟩
  · left
    rw [← ready.checked] at unsat
    refine ⟨by simp [toBool, ready.several, unsat, Result.isSat], fun M solves => ?_⟩
    by_contra outside
    exact none_ M ⟨solves, outside⟩
  · right
    rw [← ready.checked] at sat
    have yields : ∀ M, t.Yields M ↔ m.Agrees M := by
      intro M
      simp [Yields, ready.several, sat, Result.getModel]
    obtain ⟨equations, agree⟩ := Solver.assignments_spec (z := z) bindings noFns
    obtain ⟨same, part, implies⟩ := Solver.minimise_spec (z := z) exactly negated equations
      fun M all => (holds M ((agree M).1 all)).1
    have isCube : t.cube z answer =
        (Solver.minimise z answer false t.sneg (Solver.assignments z m)).2 := by
      simp [cube, ready.several, sat, Result.getModel]
    rw [← isCube] at part implies
    have constraints : ∀ f ∈ (t.cube z answer).elements, Expr.Constraint (varsOf e) f :=
      fun f inside => equations f (part inside)
    have conjunction := Expr.Constraint.mkAnd constraints
    have leaves : ∀ M, (e.truth M = true ∧ ¬excluded M) ∧
        (Expr.not (Expr.mkAnd (t.cube z answer).elements)).truth M = true ↔
          e.truth M = true ∧ ¬(excluded M ∨ AllTrue (t.cube z answer).elements M) := by
      intro M
      rw [Expr.truth_not_eq conjunction.sorted, Bool.not_eq_true', ← Bool.not_eq_true,
        Solver.truth_mkAnd_iff constraints, not_or, and_assoc]
    have left := (ready.left.add conjunction.not).congr leaves
    have answered : ∀ r, r = Solver.check answer false
        (t.s.add (some (Expr.not (Expr.mkAnd (t.cube z answer).elements)))) →
        (r.isSat || r.isUnsat) = true := by
      rintro r rfl
      rcases left.check exactly with ⟨unsat, -⟩ | ⟨m', sat', -⟩
      · rw [unsat]
        rfl
      · rw [sat']
        rfl
    have again : Ready z answer e
        (fun M => excluded M ∨ AllTrue (t.cube z answer).elements M) t.sneg
        { t with
          s := t.s.add (some (Expr.not (Expr.mkAnd (t.cube z answer).elements)))
          r := Solver.check answer false
            (t.s.add (some (Expr.not (Expr.mkAnd (t.cube z answer).elements)))) } :=
      ⟨ready.several, ready.notDone, rfl, left, rfl⟩
    refine ⟨_, by simp [toBool, ready.several, ready.notDone, sat, Result.isSat], ?_, ?_, ?_, ?_,
      implies, constraints, rfl, again⟩
    · rw [next, if_neg (by rw [ready.several]; exact Bool.false_ne_true), sat]
      dsimp only [Result.getModel, Option.bind_eq_bind, Option.bind_some, Solver.block]
      rw [← isCube, same]
      exact if_pos (answered _ rfl)
    · obtain ⟨M, agrees⟩ := some_
      exact ⟨M, (yields M).2 agrees⟩
    · exact fun M yielded => holds M ((yields M).1 yielded)
    · intro M yielded f inside
      exact (agree M).2 ((yields M).1 yielded) f (part inside)

theorem constraint_of_finitary
    (sorted : e.HasSort .bool) (finite : e.finitary = true) : Expr.Constraint (varsOf e) e :=
  ⟨sorted, finite, mem_varsOf finite⟩

theorem negated_new (constraint : Expr.Constraint (varsOf e) e) :
    (Solver.add {} (some e.not)).Means (varsOf e) fun M => ¬e.truth M = true := by
  refine ((Solver.means_new _).add constraint.not).congr fun M => ?_
  rw [Expr.truth_not_eq constraint.sorted, Bool.not_eq_true', ← Bool.not_eq_true]
  rw [true_and]

theorem ready_new (answer : List Expr → Answer) (constraint : Expr.Constraint (varsOf e) e)
    (several : e.isTrue = false) :
    Ready z answer e (fun _ => False) (Solver.add {} (some e.not)) (new answer e) := by
  rw [new, if_neg (by rw [several]; exact Bool.false_ne_true)]
  refine ⟨rfl, rfl, rfl, ?_, rfl⟩
  refine ((Solver.means_new _).add constraint).congr fun M => ?_
  rw [not_false_iff, and_true, true_and]

theorem ready_after (exactly : Exact answer) (constraint : Expr.Constraint (varsOf e) e)
    (several : e.isTrue = false) (k : Nat)
    (before : ∀ j < k, ((new answer e).after z answer j).toBool = true) :
    Ready z answer e
      (fun M => ∃ j < k, AllTrue (((new answer e).after z answer j).cube z answer).elements M)
      (Solver.add {} (some e.not)) ((new answer e).after z answer k) := by
  induction k with
  | zero =>
    have ready := ready_new (z := z) answer constraint several
    exact ⟨ready.several, ready.notDone, ready.restored,
      ready.left.congr fun M => by simp, ready.checked⟩
  | succ k ih =>
    have ready := ih fun j less => before j (less.trans k.lt_succ_self)
    have more := before k k.lt_succ_self
    rcases ready.round exactly (negated_new constraint) with
      ⟨ended, -⟩ | ⟨t', -, step, -, -, -, -, -, -, next⟩
    · rw [more] at ended
      exact Bool.noConfusion ended
    · rw [after, step, Option.getD_some]
      refine ⟨next.several, next.notDone, next.restored, next.left.congr fun M => ?_, next.checked⟩
      rw [Nat.exists_lt_succ_right]

end TypingAssignments

open TypingAssignments

/-- The loop over the typings of a constraint: how it ends, and what it yields and excludes. -/
structure Enumerates (z : Z3) (answer : List Expr → Answer) (e : Expr)
    (state : Nat → TypingAssignments) (rounds : Nat) : Prop where
  starts : state 0 = new answer e
  continues : ∀ k < rounds, (state k).toBool = true ∧ (state k).next z answer = some (state (k + 1))
  stops : (state rounds).toBool = false
  yields : ∀ k < rounds, (∃ M, (state k).Yields M) ∧ ∀ M, (state k).Yields M → e.truth M = true
  blocks : ∀ k < rounds, (state k).hasOnlyOneSolution = false → (state (k + 1)).s =
    (state k).s.add (some (Expr.not (Expr.mkAnd ((state k).cube z answer).elements)))
  contains : ∀ k < rounds, ∀ M, (state k).Yields M → AllTrue ((state k).cube z answer).elements M
  solutions : ∀ k < rounds, ∀ M, AllTrue ((state k).cube z answer).elements M → e.truth M = true
  covers : ∀ M, e.truth M = true → ∃ k < rounds, AllTrue ((state k).cube z answer).elements M
  restores : ∀ k ≤ rounds, (state k).sneg = (state 0).sneg
  restoresEach : ∀ k < rounds, ∀ assignments val,
    (Solver.discard z answer false ((state k).sneg, assignments) val).1 = (state 0).sneg

/-- The constant `true` is a single round. -/
theorem enumerates_true
    (single : e.isTrue = true) : Enumerates z answer e ((new answer e).after z answer) 1 := by
  have start : new answer e = { s := {}, sneg := {}, hasOnlyOneSolution := true } := if_pos single
  have holds : ∀ M, e.truth M = true := Expr.truth_of_isTrue single
  have next_ : (new answer e).next z answer = some { new answer e with isUnsat := true } := by
    rw [start]
    rfl
  have after_ : (new answer e).after z answer 1 = { new answer e with isUnsat := true } := by
    rw [after, after, next_, Option.getD_some]
  refine ⟨rfl, ?_, ?_, ?_, ?_, ?_, fun k _ M _ => holds M, ?_, ?_, ?_⟩
  · intro k less
    rw [Nat.lt_one_iff] at less
    subst less
    refine ⟨by rw [after, start]; rfl, ?_⟩
    rw [after_]
    exact next_
  · rw [after_]
    rfl
  · intro k less
    rw [Nat.lt_one_iff] at less
    subst less
    exact ⟨⟨default, .inl (by rw [after, start])⟩, fun M _ => holds M⟩
  · intro k less several
    rw [Nat.lt_one_iff] at less
    subst less
    rw [after, start] at several
    cases several
  · intro k less M _
    rw [Nat.lt_one_iff] at less
    subst less
    rw [after, start]
    exact List.forall_mem_nil _
  · intro M _
    refine ⟨0, Nat.one_pos, ?_⟩
    rw [after, start]
    exact List.forall_mem_nil _
  · intro k le
    rcases Nat.le_one_iff_eq_zero_or_eq_one.1 le with rfl | rfl
    · rfl
    · rw [after_]
      rfl
  · intro k less assignments val
    rw [Nat.lt_one_iff] at less
    subst less
    exact Solver.discard_sneg _ val false

theorem blocks_new (exactly : Exact answer)
    (constraint : Expr.Constraint (varsOf e) e) (several : e.isTrue = false) :
    Lib.Blocks (valuesOf (varsOf e)) (fun k => ((new answer e).after z answer k).toBool = true)
      (fun k => {M | AllTrue (((new answer e).after z answer k).cube z answer).elements M}) := by
  have negated := negated_new constraint
  constructor
  · intro k more
    have ready := ready_after (z := z) exactly constraint several k fun j less => more j less.le
    rcases ready.round exactly negated with
      ⟨ended, -⟩ | ⟨t', -, -, ⟨M, yielded⟩, holds, contains, -⟩
    · rw [more k le_rfl] at ended
      exact Bool.noConfusion ended
    · refine ⟨M, contains M yielded, fun j less inside => ?_⟩
      exact (holds M yielded).2 ⟨j, less, inside⟩
  · intro k more M N same inside
    have ready := ready_after (z := z) exactly constraint several k fun j less => more j less.le
    rcases ready.round exactly negated with
      ⟨ended, -⟩ | ⟨t', -, -, -, -, -, -, constraints, -⟩
    · rw [more k le_rfl] at ended
      exact Bool.noConfusion ended
    · intro f member
      rw [← inside f member]
      exact (constraints f member).truth_eq fun name s var =>
        (var_eq_of_valuesOf same name s var).symm

/-- The enumeration of typings comes to an end, yields and excludes solutions only, and excludes
them all. -/
theorem typings_enumerated
    (z : Z3) (answer : List Expr → Answer) (exactly : Exact answer) (e : Expr)
    (sorted : e.HasSort .bool) (finite : e.finitary = true) :
    ∃ rounds, Enumerates z answer e ((new answer e).after z answer) rounds := by
  by_cases single : e.isTrue = true
  · exact ⟨1, enumerates_true single⟩
  rw [Bool.not_eq_true] at single
  have constraint := constraint_of_finitary sorted finite
  have negated := negated_new constraint
  let state := (new answer e).after z answer
  let cube := fun k => {M | AllTrue ((state k).cube z answer).elements M}
  have ready : ∀ k, (∀ j < k, (state j).toBool = true) → Ready z answer e
      (fun M => ∃ j < k, M ∈ cube j) (Solver.add {} (some e.not)) (state k) :=
    ready_after exactly constraint single
  have blocks := blocks_new (z := z) exactly constraint single
  obtain ⟨rounds, more, stops⟩ := blocks.ends (finite_valuesOf (basic_varsOf e))
  rw [Bool.not_eq_true] at stops
  have round : ∀ k < rounds, ∃ t', (state k).next z answer = some t' ∧ t'.s = (state k).s.add
        (some (Expr.not (Expr.mkAnd ((state k).cube z answer).elements))) ∧
      (∃ M, (state k).Yields M) ∧ (∀ M, (state k).Yields M → e.truth M = true) ∧
      (∀ M, (state k).Yields M → M ∈ cube k) ∧ ∀ M ∈ cube k, e.truth M = true := by
    intro k less
    rcases (ready k fun j before => more j (before.trans less)).round exactly negated with
      ⟨ended, -⟩ | ⟨t', -, step, yields, holds, contains, solutions, -, blocked, -⟩
    · rw [more k less] at ended
      exact Bool.noConfusion ended
    · exact ⟨t', step, blocked, yields, fun M yielded => (holds M yielded).1, contains, solutions⟩
  have following : ∀ k t', (state k).next z answer = some t' → state (k + 1) = t' := by
    intro k t' step
    show ((state k).next z answer).getD (state k) = t'
    rw [step, Option.getD_some]
  have restored : ∀ k ≤ rounds, (state k).sneg = (state 0).sneg := by
    intro k le
    have start := (ready 0 (by simp)).restored
    rw [(ready k fun j before => more j (before.trans_le le)).restored, start]
  refine ⟨rounds, rfl, ?_, stops, ?_, ?_, ?_, ?_, ?_, restored, ?_⟩
  · intro k less
    obtain ⟨t', step, -⟩ := round k less
    exact ⟨more k less, step.trans (congrArg some (following k t' step).symm)⟩
  · intro k less
    obtain ⟨-, -, -, yields, holds, -⟩ := round k less
    exact ⟨yields, holds⟩
  · intro k less _
    obtain ⟨t', step, blocked, -⟩ := round k less
    exact (congrArg TypingAssignments.s (following k t' step)).trans blocked
  · intro k less
    obtain ⟨-, -, -, -, -, contains, -⟩ := round k less
    exact contains
  · intro k less
    obtain ⟨-, -, -, -, -, -, solutions⟩ := round k less
    exact solutions
  · intro M solves
    rcases (ready rounds more).round exactly negated with ⟨-, covered⟩ | ⟨-, continues, -⟩
    · exact covered M solves
    · rw [stops] at continues
      exact Bool.noConfusion continues
  · intro k less assignments val
    rw [Solver.discard_sneg, restored k less.le]

theorem typings_enumerated_atMostOne :
    ∃ rounds, Enumerates Z3.reference exhaustive (.app .ule [.var "x" (.bv 2), .num 2 1])
      ((new exhaustive (.app .ule [.var "x" (.bv 2), .num 2 1])).after Z3.reference exhaustive)
      rounds :=
  typings_enumerated Z3.reference exhaustive exact_exhaustive _ ⟨by decide, by decide⟩ (by decide)

end AliveNext.Tools.Typings
