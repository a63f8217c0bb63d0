import AliveNext.Smt.Factor

/-!
# Free constants and quantifiers

`expr::subst` replaces a free constant, and `expr::mkForAll` binds some of them.
A quantifier is a function of the solver, applied to a lambda.
-/

namespace AliveNext.Smt

structure Const where
  name : String
  sort : Srt
  wf : sort.wf = true
  deriving DecidableEq

namespace Const

def expr (c : Const) : Expr := .var c.name c.sort

end Const

namespace Model

def valueOf (M : Model) (c : Const) : c.sort.Val := M.var c.name c.sort

def set (M : Model) (c : Const) (value : c.sort.Val) : Model :=
  { M with var := fun name s =>
      if name = c.name ∧ s = c.sort then (Value.of c.sort value).get s else M.var name s }

structure Differ (consts : List Const) (M N : Model) : Prop where
  fn : N.fn = M.fn
  bound : N.bound = M.bound
  var : ∀ name s, (∀ c ∈ consts, ¬(name = c.name ∧ s = c.sort)) → N.var name s = M.var name s

section

variable {M N : Model} {c d : Const} {consts : List Const}

theorem ext_of (var : ∀ name s, M.var name s = N.var name s) (fn : M.fn = N.fn)
    (bound : M.bound = N.bound) : M = N := by
  obtain ⟨_, _, _⟩ := M
  obtain ⟨_, _, _⟩ := N
  cases fn
  cases bound
  congr
  funext name s
  exact var name s

theorem valueOf_set (M : Model) (c : Const) (value : c.sort.Val) :
    (M.set c value).valueOf c = value := by
  unfold valueOf set
  exact (if_pos ⟨rfl, rfl⟩).trans (Value.get_of _ _)

theorem valueOf_set_of_ne
    (other : d ≠ c) (value : c.sort.Val) : (M.set c value).valueOf d = M.valueOf d := by
  refine if_neg fun same => other ?_
  obtain ⟨name, s, wf⟩ := d
  obtain ⟨name', s', wf'⟩ := c
  obtain ⟨rfl, rfl⟩ := same
  rfl

theorem set_valueOf (M : Model) (c : Const) : M.set c (M.valueOf c) = M := by
  refine ext_of (fun name s => ?_) rfl rfl
  by_cases same : name = c.name ∧ s = c.sort
  · refine (if_pos same).trans ?_
    obtain ⟨rfl, rfl⟩ := same
    exact Value.get_of _ _
  · exact if_neg same

theorem set_set (M : Model) (c : Const) (x y : c.sort.Val) : (M.set c x).set c y = M.set c y := by
  refine ext_of (fun name s => ?_) rfl rfl
  by_cases same : name = c.name ∧ s = c.sort
  · exact (if_pos same).trans (if_pos same).symm
  · exact (if_neg same).trans ((if_neg same).trans (if_neg same).symm)

theorem set_push (M : Model) (c : Const) (value : c.sort.Val) {domain : Srt}
    (index : domain.Val) : (M.push domain index).set c value =
      (M.set c value).push domain index := rfl

theorem Differ.refl (consts : List Const) (M : Model) : Differ consts M M :=
  ⟨rfl, rfl, fun _ _ _ => rfl⟩

theorem Differ.valueOf
    (differ : Differ consts M N) (other : c ∉ consts) : N.valueOf c = M.valueOf c := by
  refine differ.var _ _ fun d member same => other ?_
  obtain ⟨name, s, wf⟩ := d
  obtain ⟨name', s', wf'⟩ := c
  obtain ⟨rfl, rfl⟩ := same
  exact member

theorem Differ.set (differ : Differ consts M N) (value : c.sort.Val) :
    Differ consts (M.set c value) (N.set c value) := by
  refine ⟨differ.fn, differ.bound, fun name s other => ?_⟩
  by_cases same : name = c.name ∧ s = c.sort
  · exact (if_pos same).trans (if_pos same).symm
  · exact (if_neg same).trans ((differ.var name s other).trans (if_neg same).symm)

theorem differ_cons : Differ (c :: consts) M N ↔ ∃ value, Differ consts (M.set c value) N := by
  constructor
  · intro differ
    refine ⟨N.valueOf c, differ.fn, differ.bound, fun name s other => ?_⟩
    by_cases same : name = c.name ∧ s = c.sort
    · refine Eq.trans ?_ (if_pos same).symm
      obtain ⟨rfl, rfl⟩ := same
      exact (Value.get_of _ _).symm
    · refine (differ.var name s fun d member => ?_).trans (if_neg same).symm
      rcases List.mem_cons.1 member with rfl | inside
      · exact same
      · exact other d inside
  · rintro ⟨value, differ⟩
    refine ⟨differ.fn, differ.bound, fun name s other => ?_⟩
    exact (differ.var name s fun d member => other d (List.mem_cons_of_mem c member)).trans
      (if_neg (other c List.mem_cons_self))

end

end Model

namespace Expr

mutual

def mentions (c : Const) : Expr → Bool
  | .var name s => name = c.name ∧ s = c.sort
  | .app _ args => mentionsAny c args
  | .lambda _ _ body => mentions c body
  | _ => false

def mentionsAny (c : Const) : List Expr → Bool
  | [] => false
  | e :: es => mentions c e || mentionsAny c es

end

/-- `expr::subst` of one term. -/
def subst (e source target : Expr) : Expr := substitute [(source, target)] e

section

variable {c d : Const} {e value : Expr} {args : List Expr} {M : Model}

theorem mentionsAny_eq_any : mentionsAny c args = args.any (mentions c) := by
  induction args with
  | nil => rfl
  | cons e es ih => rw [mentionsAny, ih, List.any_cons]

theorem mentionsAny_eq_false : mentionsAny c args = false ↔ ∀ e ∈ args, mentions c e = false := by
  rw [mentionsAny_eq_any, List.any_eq_false]
  exact forall₂_congr fun e _ => Bool.not_eq_true (mentions c e) ▸ Iff.rfl

theorem eval_set
    (absent : mentions c e = false) (v : c.sort.Val) : e.eval (M.set c v) = e.eval M := by
  induction e using Expr.induction generalizing M with
  | var name s =>
    have other : ¬(name = c.name ∧ s = c.sort) := of_decide_eq_false absent
    have same : (M.set c v).var name s = M.var name s := if_neg other
    rw [eval, eval, same]
  | app op args ih =>
    have each := mentionsAny_eq_false.1 absent
    rw [eval, eval, evals_eq_map, evals_eq_map,
      List.map_congr_left fun e member => ih e member (each e member)]
    cases op with
    | fn name range => rfl
    | _ => rfl
  | lambda domain name body ih =>
    rw [mentions] at absent
    rw [eval, eval]
    congr 1
    funext i
    rw [← Model.set_push, ih absent]
  | _ => rfl

theorem raiseEach_const
    (const : value.isConst = true) : raiseEach [(c.expr, value)] = [(c.expr, value)] := by
  cases value with
  | num bits value => rfl
  | bool value => rfl
  | _ => cases const

theorem replacement_self (c : Const) (value : Expr) :
    replacement [(c.expr, value)] c.expr = some value := by
  simp [replacement]

theorem replacement_other (other : c.expr ≠ e) : replacement [(c.expr, value)] e = none := by
  simp [replacement, other]

theorem subst_of_absent
    (const : value.isConst = true) (absent : mentions c e = false) : subst e c.expr value = e := by
  unfold subst
  induction e using Expr.induction with
  | var name s =>
    have other : c.expr ≠ .var name s := by
      rintro ⟨⟩
      exact absurd absent (by simp [mentions])
    change (replacement _ (var name s)).getD (var name s) = var name s
    rw [replacement_other other, Option.getD_none]
  | app op args ih =>
    have each := mentionsAny_eq_false.1 absent
    rw [substitute, replacement_other (fun same => Expr.noConfusion same), Option.getD_none,
      substituteAll_eq_map]
    congr 1
    exact (List.map_congr_left fun e member =>
      ih e member (each e member)).trans (List.map_id args)
  | lambda domain name body ih =>
    rw [mentions] at absent
    rw [substitute, replacement_other (fun same => Expr.noConfusion same), Option.getD_none,
      raiseEach_const const, ih absent]
  | num bits value => rfl
  | bool value => rfl
  | bound index s => rfl

theorem mentions_subst (const : value.isConst = true)
    (absent : d = c ∨ mentions d e = false) : mentions d (subst e c.expr value) = false := by
  have constant : mentions d value = false := by
    cases value with
    | num bits value => rfl
    | bool value => rfl
    | _ => cases const
  unfold subst
  induction e using Expr.induction with
  | var name s =>
    change mentions d ((replacement _ (var name s)).getD (var name s)) = false
    by_cases same : c.expr = var name s
    · rw [← same, replacement_self, Option.getD_some]
      exact constant
    · rw [replacement_other same, Option.getD_none]
      rcases absent with rfl | absent
      · refine decide_eq_false fun equal => same ?_
        rw [Const.expr, equal.1, equal.2]
      · exact absent
  | app op args ih =>
    rw [substitute, replacement_other (fun same => Expr.noConfusion same), Option.getD_none,
      substituteAll_eq_map, mentions, mentionsAny_eq_false]
    intro e member
    obtain ⟨old, inside, rfl⟩ := List.mem_map.1 member
    exact ih old inside (absent.imp_right fun absent =>
      mentionsAny_eq_false.1 absent old inside)
  | lambda domain name body ih =>
    rw [substitute, replacement_other (fun same => Expr.noConfusion same), Option.getD_none,
      raiseEach_const const, mentions]
    exact ih absent
  | num bits value => rfl
  | bool value => rfl
  | bound index s => rfl

theorem sameSorts_const (sorted : value.HasSort c.sort) : SameSorts [(c.expr, value)] := by
  intro repl member
  cases List.mem_singleton.1 member
  exact ⟨sorted.sort_eq, sorted.wellSorted⟩

theorem hasSort_subst {s : Srt} (sorted : value.HasSort c.sort)
    (whole : e.HasSort s) : (subst e c.expr value).HasSort s where
  wellSorted := wellSorted_substitute (sameSorts_const sorted) whole.wellSorted
  sort_eq := (sort_substitute (sameSorts_const sorted)).trans whole.sort_eq

theorem eval_subst
    (sorted : value.HasSort c.sort) (same : value.eval M = .of c.sort (M.valueOf c)) :
    (subst e c.expr value).eval M = e.eval M := by
  refine eval_substitute (sameSorts_const sorted) fun repl member => ?_
  cases List.mem_singleton.1 member
  exact same

end

mutual

/-- The constant becomes the variable of a new binder, `k` binders up. -/
def abstractAt (c : Const) : Nat → Expr → Expr
  | k, .var name s => if name = c.name ∧ s = c.sort then .bound k s else .var name s
  | k, .bound i s => .bound (Model.raised 1 k i) s
  | k, .app op args => .app op (abstractAll c k args)
  | k, .lambda domain name body => .lambda domain name (abstractAt c (k + 1) body)
  | _, e => e

def abstractAll (c : Const) : Nat → List Expr → List Expr
  | _, [] => []
  | k, e :: es => abstractAt c k e :: abstractAll c k es

end

/-- `Z3_mk_forall_const`, with one binder for each constant. -/
def mkForAllConst : List Const → Expr → Expr
  | [], val => val
  | c :: vars, val =>
    .app (.fn "forall" .bool) [.lambda c.sort c.name (abstractAt c 0 (mkForAllConst vars val))]

def mkForAll (vars : List Const) (val : Expr) : Expr :=
  if vars.isEmpty || val.isConst then val else mkForAllConst vars val

end Expr

/-- What the functions of the solver mean: the quantifier, and others. -/
structure Theory where
  meets : (String → List Value → (s : Srt) → s.Val) → Prop
  forAll : ∀ fn, meets fn → ∀ (domain : Srt) (holds : domain.Val → Bool),
    (fn "forall" [.array domain .bool holds] .bool : Bool) = true ↔ ∀ i, holds i = true

namespace Expr

section

variable {T : Theory} {c d : Const} {e : Expr} {args : List Expr} {M : Model} {k : Nat}
  {vars : List Const}

theorem abstractAll_eq_map : abstractAll c k args = args.map (abstractAt c k) := by
  induction args with
  | nil => rfl
  | cons e es ih => rw [abstractAll, ih, List.map_cons]

theorem sort_abstractAt : (abstractAt c k e).sort = e.sort := by
  induction e using Expr.induction generalizing k with
  | var name s =>
    rw [abstractAt]
    split <;> rfl
  | app op args ih =>
    have same : (args.map (abstractAt c k)).map sort = args.map sort := by
      rw [List.map_map]
      exact List.map_congr_left fun e member => ih e member
    rw [abstractAt, sort, sort, sorts_eq_map, sorts_eq_map, abstractAll_eq_map, same]
  | lambda domain name body ih => rw [abstractAt, sort, sort, ih]
  | _ => rfl

theorem wellSorted_abstractAt
    (sorted : e.wellSorted = true) : (abstractAt c k e).wellSorted = true := by
  induction e using Expr.induction generalizing k with
  | var name s =>
    rw [abstractAt]
    split
    · exact sorted
    · exact sorted
  | app op args ih =>
    have same : (args.map (abstractAt c k)).map sort = args.map sort := by
      rw [List.map_map]
      exact List.map_congr_left fun e _ => sort_abstractAt
    rw [wellSorted, Bool.and_eq_true, wellSortedAll_iff, sorts_eq_map] at sorted
    rw [abstractAt, wellSorted, Bool.and_eq_true, wellSortedAll_iff, sorts_eq_map,
      abstractAll_eq_map, same, List.forall_mem_map]
    exact ⟨fun e member => ih e member (sorted.1 e member), sorted.2⟩
  | lambda domain name body ih =>
    rw [wellSorted, Bool.and_eq_true] at sorted
    rw [abstractAt, wellSorted, Bool.and_eq_true]
    exact ⟨sorted.1, ih sorted.2⟩
  | _ => exact sorted

theorem eval_abstractAt : (abstractAt c k e).eval M =
      e.eval ((M.rebind (Model.raised 1 k)).set c (M.bound k c.sort)) := by
  induction e using Expr.induction generalizing k M with
  | var name s =>
    rw [abstractAt]
    by_cases same : name = c.name ∧ s = c.sort
    · obtain ⟨rfl, rfl⟩ := same
      rw [if_pos ⟨rfl, rfl⟩, eval, eval]
      exact congrArg (Value.of c.sort) (Model.valueOf_set _ c _).symm
    · rw [if_neg same, eval, eval]
      exact congrArg (Value.of s) (if_neg same).symm
  | app op args ih =>
    have values : (args.map (abstractAt c k)).map (eval · M) =
        args.map (eval · ((M.rebind (Model.raised 1 k)).set c (M.bound k c.sort))) := by
      rw [List.map_map]
      exact List.map_congr_left fun e member => ih e member
    rw [abstractAt, eval, eval, abstractAll_eq_map, evals_eq_map, evals_eq_map, values]
    cases op with
    | fn name range => rfl
    | _ => rfl
  | lambda domain name body ih =>
    rw [abstractAt, eval, eval, sort_abstractAt]
    congr 1
    funext i
    rw [ih, ← Model.rebind_push, Model.set_push]
    rfl
  | _ => rfl

theorem hasSort_mkForAllConst
    (sorted : e.HasSort .bool) : (mkForAllConst vars e).HasSort .bool := by
  induction vars with
  | nil => exact sorted
  | cons c vars ih =>
    rw [mkForAllConst]
    refine ⟨?_, rfl⟩
    rw [wellSorted, Bool.and_eq_true, wellSortedAll_iff]
    refine ⟨fun t member => ?_, rfl⟩
    cases List.mem_singleton.1 member
    rw [wellSorted, Bool.and_eq_true]
    exact ⟨c.wf, wellSorted_abstractAt ih.wellSorted⟩

theorem hasSort_mkForAll (vars : List Const)
    (sorted : e.HasSort .bool) : (mkForAll vars e).HasSort .bool := by
  unfold mkForAll
  split
  · exact sorted
  · exact hasSort_mkForAllConst sorted

theorem eval_lambda_bool {domain : Srt} {name : String} (sorted : e.HasSort .bool) :
    (lambda domain name e).eval M = .array domain .bool fun i => e.truth (M.push domain i) := by
  have values : ∀ i, e.eval (M.push domain i) = .bool (e.truth (M.push domain i)) :=
    fun i => sorted.eval_bool _
  rw [eval, sorted.sort_eq]
  simp only [values]
  rfl

theorem truth_forAll (sorted : e.HasSort .bool) (meets : T.meets M.fn) :
    truth (.app (.fn "forall" .bool) [.lambda c.sort c.name (abstractAt c 0 e)]) M = true ↔
      ∀ value, e.truth (M.set c value) = true := by
  have inner : (abstractAt c 0 e).HasSort .bool :=
    ⟨wellSorted_abstractAt sorted.wellSorted, sort_abstractAt.trans sorted.sort_eq⟩
  rw [truth, eval, evals_eq_map, List.map_singleton, eval_lambda_bool inner]
  refine (T.forAll M.fn meets c.sort _).trans (forall_congr' fun value => ?_)
  have bound : (M.push c.sort value).bound 0 c.sort = value := Value.get_of _ _
  have below : (M.push c.sort value).rebind (Model.raised 1 0) = M := rfl
  rw [truth, truth, eval_abstractAt, bound, below]

theorem truth_mkForAllConst (vars : List Const) (sorted : e.HasSort .bool) (meets : T.meets M.fn) :
    (mkForAllConst vars e).truth M = true ↔ ∀ N, Model.Differ vars M N → e.truth N = true := by
  induction vars generalizing M with
  | nil =>
    constructor
    · intro holds N differ
      have same : N = M := Model.ext_of (fun name s => differ.var name s (List.forall_mem_nil _))
        differ.fn differ.bound
      rw [same]
      exact holds
    · exact fun all => all M (.refl [] M)
  | cons c vars ih =>
    rw [mkForAllConst, truth_forAll (hasSort_mkForAllConst sorted) meets]
    constructor
    · intro holds N differ
      obtain ⟨value, differ⟩ := Model.differ_cons.1 differ
      exact (ih (M := M.set c value) meets).1 (holds value) N differ
    · intro all value
      exact (ih (M := M.set c value) meets).2 fun N differ =>
        all N (Model.differ_cons.2 ⟨value, differ⟩)

theorem truth_mkForAll (sorted : e.HasSort .bool) (meets : T.meets M.fn) :
    (mkForAll vars e).truth M = true ↔ ∀ N, Model.Differ vars M N → e.truth N = true := by
  unfold mkForAll
  split
  · next trivial =>
      constructor
      · intro holds N differ
        rcases Bool.or_eq_true_iff.1 trivial with none | const
        · rw [List.isEmpty_iff.1 none] at differ
          exact (truth_mkForAllConst [] sorted meets).1 holds N differ
        · cases e with
          | num bits value => exact holds
          | bool value => exact holds
          | _ => cases const
      · exact fun all => all M (.refl vars M)
  · exact truth_mkForAllConst vars sorted meets

end

end Expr

end AliveNext.Smt
