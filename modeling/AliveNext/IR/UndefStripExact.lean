import AliveNext.IR.UndefStripFacts

/-!
# Undef is stripped exactly

Where a mask is found to be non-undef, the value takes two values for every other choice of
inputs and masks too: an input whose mask is set can have the value of the input as undef value.
What is not decided is compared for two choices of the undef variables.
-/

namespace AliveNext.IR.UndefStrip

open Smt

def choices (S : Setting) (s : State) : List Expr :=
  s.undefVars ++ s.undefVars.map (S.fresh "#undef'")

/-- For the inputs and masks of a model, the value differs for two choices of the undef
variables. -/
def TakesTwo (S : Setting) (s : State) (e : Expr) (M : Model) : Prop :=
  ∃ N N', Model.Varies s.undefVars M N ∧ Model.Varies s.undefVars M N' ∧
    S.same (e.eval N) (e.eval N') = false

/-- The result is right for the inputs and masks of a model. -/
structure Exact (S : Setting) (s : State) (e : Expr) (M : Model) (r : Stripped) : Prop where
  violated_iff :
    (∃ N, Model.Varies (choices S s) M N ∧ ∃ c ∈ r.ub, c.holds S N = false) ↔ TakesTwo S s e M
  value : (∀ N, Model.Varies (choices S s) M N → ∀ c ∈ r.ub, c.holds S N = true) →
    ∀ N N', Model.Varies (choices S s) M N → Model.Varies (choices S s) M N' →
      S.same (r.value.eval N) (e.eval N') = true

def assign (undefVars : List Expr) (x : (c : Const) → c.sort.Val) (M : Model) : Model :=
  { M with var := fun name t =>
      if known : t.wf = true ∧ .var name t ∈ undefVars then x ⟨name, t, known.1⟩
      else M.var name t }

def IsCopy (S : Setting) (s : State) (name : String) (t : Srt) : Prop :=
  ∃ u ∈ s.undefVars, S.fresh "#undef'" u = .var name t

open Classical in
noncomputable def primed (S : Setting) (s : State) (N N' : Model) : Model :=
  { N with var := fun name t =>
      if copy : IsCopy S s name t then (copy.choose.eval N').get t else N.var name t }

theorem isUndefName_of_isUndefMask
    {x : Expr} (named : isUndefMask x = true) : isUndefName x = false := by
  unfold isUndefMask isUndefName at *
  cases letters : (fnName x).toList with
  | nil =>
    rw [letters] at named
    exact absurd named (by decide)
  | cons first rest =>
    rw [letters] at named
    have head : first = 'i' := by
      have starts : "isundef_".toList = 'i' :: "sundef_".toList := by decide
      rw [starts, List.isPrefixOf, Bool.and_eq_true, beq_iff_eq] at named
      exact named.1.symm
    have other : "undef!".toList = 'u' :: "ndef!".toList := by decide
    rw [other, List.isPrefixOf, head]
    rfl

section Exactness

variable {S : Setting} {fn : Functions} {s : State} {sels : List Selection} {e : Expr}
  (given : Stripping S fn s sels e)

include given

/-! ## Choices do not change inputs and masks -/

theorem input_not_mem {x : Expr} (input : IsInput x) : x ∉ s.undefVars := by
  intro known
  have undefName := (given.undefVars x known).2
  rw [input.2] at undefName
  cases undefName

variable {name : String} {M N : Model}

theorem mask_not_mem_choices {t : Srt}
    (named : isUndefMask (.var name t) = true) : .var name t ∉ choices S s := by
  intro member
  rcases List.mem_append.1 member with member | member
  · have undefName := (given.undefVars _ member).2
    rw [isUndefName_of_isUndefMask named] at undefName
    cases undefName
  · obtain ⟨u, known, same⟩ := List.mem_map.1 member
    have input := (given.fresh "#undef'" (by decide)).input u known
    rw [same, named] at input
    cases input

theorem truth_isZero_of_varies
    (varies : Model.Varies (choices S s) M N) (named : isUndefMask (.var name (.bv 1)) = true) :
    (S.isZero (.var name (.bv 1))).truth N = (S.isZero (.var name (.bv 1))).truth M :=
  truth_isZero_of_eq S (varies.var name _ (mask_not_mem_choices given named))

theorem primed_not_mem_vars : ∀ x ∈ s.undefVars.map (S.fresh "#undef'"), x ∉ e.vars := by
  intro x member
  obtain ⟨u, known, rfl⟩ := List.mem_map.1 member
  exact ((given.fresh "#undef'" (by decide)).new u known).1

omit given in
theorem varies_choices (varies : Model.Varies s.undefVars M N) : Model.Varies (choices S s) M N :=
  varies.mono (List.subset_append_left _ _)

/-! ## Undef values that have the values of the inputs -/

structure Tested (S : Setting) (sels : List Selection) (e mask : Expr) (M K : Model) : Prop where
  fn : K.fn = M.fn
  bound : K.bound = M.bound
  masks : ∀ sel ∈ sels, sel.maskVar ∈ e.vars →
    (S.isZero sel.maskVar).truth K = !decide (sel.maskVar = mask)
  inputs : ∀ name t, .var name t ∈ e.vars → IsInput (.var name t) → K.var name t = M.var name t

omit given in
theorem eval_undef {sel : Selection} (built : sel.Built) (fn : N.fn = M.fn)
    (same : N.valueOf sel.var = M.valueOf sel.var) : sel.undef.eval N = sel.undef.eval M := by
  refine Expr.eval_of_agree_closed built.closed.2 fn fun name t inside => ?_
  have var := built.undef _ inside
  rw [Const.expr] at var
  injection var with sameName sameSort
  subst sameName
  subst sameSort
  exact same

def Opened (S : Setting) (mask : Expr) (M : Model) (sel : Selection) : Prop :=
  sel.maskVar ≠ mask ∧ (S.isZero sel.maskVar).truth M = false

theorem exists_value (mask : Expr) (M K : Model) (c : Const) : ∃ x : c.sort.Val,
      (∀ sel ∈ sels, sel.var = c → Opened S mask M sel →
        sel.undef.eval (M.set c x) = sel.val.eval M) ∧
      ((∀ sel ∈ sels, sel.var = c → ¬Opened S mask M sel) → x = K.valueOf c) := by
  by_cases opened : ∃ sel ∈ sels, sel.var = c ∧ Opened S mask M sel
  · obtain ⟨sel, member, rfl, isOpen⟩ := opened
    obtain ⟨value, covers⟩ := (given.built sel member).covers M
    refine ⟨value, fun other known isVar _ => ?_, fun none => absurd isOpen (none sel member rfl)⟩
    rw [given.own other known sel member isVar]
    exact covers
  · exact ⟨K.valueOf c, fun sel member isVar isOpen => absurd ⟨sel, member, isVar, isOpen⟩ opened,
      fun _ => rfl⟩

/-- The undef variables of set masks have the values of the inputs, the others are as in the
query. -/
theorem exists_fill {mask : Expr} {K : Model} (tested : Tested S sels e mask M K)
    (isSet : (S.isZero mask).truth M = false) :
    ∃ N, Model.Varies s.undefVars M N ∧ e.eval N = e.eval K := by
  choose x opened closed using exists_value given mask M K
  let N := assign s.undefVars x M
  have valueOf : ∀ c : Const, c.expr ∈ s.undefVars → N.valueOf c = x c := fun c known =>
    dif_pos ⟨c.wf, known⟩
  have varies : Model.Varies s.undefVars M N :=
    ⟨rfl, rfl, fun name t other => dif_neg fun known => other known.2⟩
  refine ⟨N, varies, given.overInputs.eval_eq given.built tested.fn.symm tested.bound.symm ?_ ?_ ?_⟩
  · intro sel member inside
    rw [sel.vars_expr] at inside
    have visible := tested.masks sel member (inside List.mem_cons_self)
    have named := (given.built sel member).named
    have sameMask : (S.isZero sel.maskVar).truth N = (S.isZero sel.maskVar).truth M :=
      truth_isZero_of_varies given (varies_choices varies) named
    have inputs : sel.val.eval N = sel.val.eval K := by
      refine Expr.eval_of_agree_closed (given.built sel member).closed.1 tested.fn.symm
        fun name t found => ?_
      have input := (given.built sel member).val _ found
      rw [tested.inputs name t (inside (List.mem_cons_of_mem _ (List.mem_append_left _ found)))
        input]
      exact varies.var name t (input_not_mem given input)
    have known := given.known sel member
    rw [sel.eval_expr, sel.eval_expr, sameMask, visible]
    by_cases other : sel.maskVar = mask
    · rw [other, isSet, decide_eq_true rfl]
      refine eval_undef (given.built sel member) tested.fn.symm ?_
      rw [valueOf _ known]
      refine closed sel.var fun same sameMember isVar isOpen => isOpen.1 ?_
      rw [given.own same sameMember sel member isVar, other]
    · rw [decide_eq_false other]
      cases isOpen : (S.isZero sel.maskVar).truth M with
      | true => exact inputs
      | false =>
        have covered := opened sel.var sel member rfl ⟨other, isOpen⟩
        have sameInput : sel.val.eval M = sel.val.eval K := by
          rw [← inputs]
          exact (Expr.eval_of_varies varies fun u knownVar found =>
            input_not_mem given ((given.built sel member).val _ found) knownVar).symm
        have sameUndef : sel.undef.eval N = sel.undef.eval (M.set sel.var (x sel.var)) := by
          refine eval_undef (given.built sel member) rfl ?_
          rw [Model.valueOf_set, valueOf _ known]
        change sel.undef.eval N = sel.val.eval K
        rw [sameUndef, covered, sameInput]
  · intro name t inside input
    rw [tested.inputs name t inside input]
    exact varies.var name t (input_not_mem given input)
  · intro c known free
    change N.valueOf c = K.valueOf c
    rw [valueOf c known]
    exact closed c fun sel member isVar => absurd isVar (free sel member)

/-! ## What the replaced terms mean -/

def copied (S : Setting) (stem : String) (undefVars : List Expr) (M : Model) : Model :=
  { M with var := fun name t =>
      if .var name t ∈ undefVars then M.var (fnName (S.fresh stem (.var name t))) t
      else M.var name t }

omit given in
theorem varies_copied (stem : String) (undefVars : List Expr) (M : Model) :
    Model.Varies undefVars M (copied S stem undefVars M) :=
  ⟨rfl, rfl, fun _ _ other => if_neg other⟩

/-- With tests that hold, the expression with the replacements has the value that the expression
has for the copies. -/
theorem eval_copied
    {masks undefVars : List Expr} {stem : String} (isStem : stem ∈ ["undef", "#undef'"])
    (named : ∀ mask ∈ masks, ∃ name, mask = .var name (.bv 1) ∧ isUndefMask mask = true)
    (holds : ∀ mask ∈ masks, (S.isZero mask).truth M = true) (sub : undefVars ⊆ s.undefVars) :
    (Expr.substitute (S.testRepls masks ++ S.undefRepls stem undefVars) e).eval M =
      e.eval (copied S stem undefVars M) := by
  have varies := varies_copied (S := S) stem undefVars M
  refine Expr.eval_substitute_of ?_ rfl rfl ?_ ?_
  · intro repl member
    rcases List.mem_append.1 member with member | member
    · obtain ⟨mask, isMask, rfl⟩ := List.mem_map.1 member
      obtain ⟨name, rfl, _⟩ := named mask isMask
      exact ⟨(hasSort_isZero S name).sort_eq.symm, rfl⟩
    · obtain ⟨u, known, rfl⟩ := List.mem_map.1 member
      obtain ⟨name, isVar⟩ := (given.fresh stem isStem).isVar u (sub known)
      obtain ⟨⟨c, rfl⟩, _⟩ := given.undefVars u (sub known)
      rw [isVar]
      exact ⟨rfl, c.wf⟩
  · intro repl member
    rcases List.mem_append.1 member with member | member
    · obtain ⟨mask, isMask, rfl⟩ := List.mem_map.1 member
      obtain ⟨name, rfl, isUndef⟩ := named mask isMask
      have same := truth_isZero_of_varies given (varies_choices (varies.mono sub)) isUndef
      rw [holds _ isMask] at same
      rw [(hasSort_isZero S name).eval_bool, same]
      rfl
    · obtain ⟨u, known, rfl⟩ := List.mem_map.1 member
      obtain ⟨name, isVar⟩ := (given.fresh stem isStem).isVar u (sub known)
      obtain ⟨⟨c, rfl⟩, _⟩ := given.undefVars u (sub known)
      have copy : (copied S stem undefVars M).var c.name c.sort = M.var name c.sort := by
        refine (if_pos known).trans ?_
        change M.var (fnName (S.fresh stem c.expr)) c.sort = _
        rw [isVar]
        rfl
      rw [isVar, Const.expr, Expr.eval, Expr.eval, copy]
      rfl
  · intro name t inside kept
    refine (varies.var name t fun known => ?_).symm
    have member : (Expr.var name t, S.fresh stem (.var name t)) ∈
        S.testRepls masks ++ S.undefRepls stem undefVars :=
      List.mem_append_right _ (List.mem_map_of_mem known)
    rw [Expr.replacement, Option.map_eq_none_iff, List.find?_eq_none] at kept
    exact kept _ member (decide_eq_true rfl)

section

variable {known undefVars missing vars : List Expr} {M : Model}

theorem exists_selection {mask : Expr} (member : mask ∈ e.vars)
    (named : isUndefMask mask = true) : ∃ sel ∈ sels, mask = sel.maskVar := by
  refine given.overInputs.exists_selection given.built given.known (fun u isUndef => ?_)
    member named
  cases isMask : isUndefMask u with
  | false => rfl
  | true =>
    have undefName := (given.undefVars u isUndef).2
    rw [isUndefName_of_isUndefMask isMask] at undefName
    cases undefName

structure Asked (S : Setting) (s : State) (e : Expr) (known undefVars missing vars : List Expr) :
    Prop where
  mem_vars : ∀ x, x ∈ vars ↔ x ∈ e.vars
  mem_undefVars : ∀ x, x ∈ undefVars ↔ x ∈ vars ∧ x ∈ s.undefVars
  mem_known : ∀ x, x ∈ known ↔ (x ∈ vars ∧ isUndefMask x = true) ∧ Cond.term (S.isZero x) ∈ s.ub
  mem_missing : ∀ x, x ∈ missing ↔ (x ∈ vars ∧ isUndefMask x = true) ∧ Cond.term (S.isZero x) ∉ s.ub

theorem takesTwo_of_isSat {mask : Expr} (asked : Asked S s e known undefVars missing vars)
    (member : mask ∈ missing) (sat : S.isSat (S.query known undefVars missing vars e mask) = true)
    (functions : M.fn = fn) (isSet : (S.isZero mask).truth M = false) : TakesTwo S s e M := by
  obtain ⟨M₀, fn₀, conds, tests, differ⟩ := (given.answers _).1 sat
  have sub : undefVars ⊆ s.undefVars := fun x isUndef => ((asked.mem_undefVars x).1 isUndef).2
  -- the solver's model with the inputs of this one
  let qvars := (S.query known undefVars missing vars e mask).qvars
  let K := Model.mix (· ∈ qvars) M M₀
  have varies : Model.Varies qvars M₀ K :=
    Model.varies_mix M M₀ fun name t holds => of_decide_eq_true holds
  have maskKept : ∀ name, isUndefMask (.var name (.bv 1)) = true →
      (S.isZero (.var name (.bv 1))).truth K = (S.isZero (.var name (.bv 1))).truth M₀ := by
    intro name named
    refine truth_isZero_of_eq S (varies.var name _ fun inside => ?_)
    have input := (List.mem_filter.1 inside).2
    rw [named] at input
    cases input
  have knownNamed : ∀ k ∈ known, ∃ name, k = .var name (.bv 1) ∧ isUndefMask k = true := by
    intro k isKnown
    have facts := ((asked.mem_known k).1 isKnown).1
    obtain ⟨sel, _, rfl⟩ := exists_selection given ((asked.mem_vars k).1 facts.1) facts.2
    exact ⟨sel.mask, rfl, facts.2⟩
  have knownHolds : ∀ k ∈ known, (S.isZero k).truth K = true := by
    intro k isKnown
    obtain ⟨name, rfl, named⟩ := knownNamed k isKnown
    rw [maskKept name named]
    exact conds _ (List.mem_map_of_mem isKnown)
  have stem : "undef" ∈ ["undef", "#undef'"] := by decide
  have copies := eval_copied given stem knownNamed knownHolds sub
  have different := differ K varies
  -- both models are as the query has them, whatever the bound variables are
  have tested : ∀ L : Model, Model.Varies undefVars K L →
      Tested S sels e mask M { L with bound := M.bound } := by
    intro L choice
    constructor
    · change L.fn = M.fn
      rw [choice.fn, functions, ← fn₀]
      rfl
    · rfl
    · intro sel isSel inside
      have named := (given.built sel isSel).named
      have kept : (S.isZero sel.maskVar).truth { L with bound := M.bound } =
          (S.isZero sel.maskVar).truth M₀ := by
        refine Eq.trans (truth_isZero_of_eq S ?_) (maskKept sel.mask named)
        refine choice.var sel.mask _ fun isUndef => ?_
        have undefName := (given.undefVars _ (sub isUndef)).2
        rw [Selection.maskVar] at named
        rw [isUndefName_of_isUndefMask named] at undefName
        cases undefName
      rw [kept]
      by_cases inUb : Cond.term (S.isZero sel.maskVar) ∈ s.ub
      · have other : sel.maskVar ≠ mask := by
          rintro rfl
          exact ((asked.mem_missing _).1 member).2 inUb
        rw [decide_eq_false other]
        exact conds _ (List.mem_map_of_mem ((asked.mem_known _).2
          ⟨⟨(asked.mem_vars _).2 inside, named⟩, inUb⟩))
      · exact tests (S.isZero sel.maskVar, !decide (sel.maskVar = mask))
          (List.mem_map.2 ⟨sel.maskVar, (asked.mem_missing _).2
            ⟨⟨(asked.mem_vars _).2 inside, named⟩, inUb⟩, rfl⟩)
    · intro name t inside input
      refine (choice.var name t fun isUndef => input_not_mem given input (sub isUndef)).trans ?_
      refine if_pos (decide_eq_true (List.mem_filter.2 ⟨(asked.mem_vars _).2 inside, ?_⟩))
      rw [input.1, input.2]
      rfl
  have unbound : ∀ L : Model, e.eval { L with bound := M.bound } = e.eval L := fun L =>
    Expr.eval_of_agree_closed given.closed rfl fun _ _ _ => rfl
  obtain ⟨N, choice, value⟩ := exists_fill given (tested K (Model.Varies.refl _ _)) isSet
  obtain ⟨N', choice', value'⟩ := exists_fill given (tested _ (varies_copied "undef" _ _)) isSet
  refine ⟨N, N', choice, choice', ?_⟩
  rw [value, value', unbound, unbound, ← copies]
  exact different

end

section

variable {M N : Model}

theorem exists_restricted (varies : Model.Varies (choices S s) M N) :
    ∃ K, Model.Varies s.undefVars M K ∧ e.eval K = e.eval N := by
  refine ⟨Model.mix (· ∈ s.undefVars) N M,
    Model.varies_mix N M fun name t holds => of_decide_eq_true holds, ?_⟩
  refine Expr.eval_of_agree varies.fn.symm varies.bound.symm fun name t inside => ?_
  by_cases known : Expr.var name t ∈ s.undefVars
  · exact if_pos (decide_eq_true known)
  · refine (if_neg (by simpa using known)).trans (varies.var name t fun member => ?_).symm
    rcases List.mem_append.1 member with member | member
    · exact known member
    · exact primed_not_mem_vars given _ member inside

theorem exact_of {r : Stripped}
    (violated_iff : (∃ N, Model.Varies (choices S s) M N ∧ ∃ c ∈ r.ub, c.holds S N = false) ↔
      TakesTwo S s e M)
    (value : ∀ N, Model.Varies (choices S s) M N → (∀ c ∈ r.ub, c.holds S N = true) →
      r.value.eval N = e.eval N) : Exact S s e M r := by
  refine ⟨violated_iff, fun holds N N' choice choice' => ?_⟩
  rw [value N choice (holds N choice)]
  cases same : S.same (e.eval N) (e.eval N') with
  | true => rfl
  | false =>
    obtain ⟨K, varies, equal⟩ := exists_restricted given choice
    obtain ⟨K', varies', equal'⟩ := exists_restricted given choice'
    rw [← equal, ← equal'] at same
    obtain ⟨L, choiceL, c, member, fails⟩ := violated_iff.2 ⟨K, K', varies, varies', same⟩
    rw [holds L choiceL c member] at fails
    cases fails

theorem exact_unchanged (none : ∀ u ∈ s.undefVars, u ∉ e.vars) :
    Exact S s e M (s.unchanged e []) := by
  refine exact_of given ⟨fun violated => ?_, fun two => ?_⟩ fun _ _ _ => rfl
  · obtain ⟨_, _, c, member, _⟩ := violated
    cases member
  · obtain ⟨K, K', varies, varies', differ⟩ := two
    rw [Expr.eval_of_varies varies none, Expr.eval_of_varies varies' none,
      S.same_equivalence.refl] at differ
    cases differ

theorem exists_choice_of_isUndef {part : Expr} {w : Nat} (isUndef : s.isUndef part = true)
    (sorted : part.HasSort (.bv w)) (x : BitVec w) (M : Model) :
    ∃ N, Model.Varies s.undefVars M N ∧ part.eval N = .bv w x := by
  fun_induction State.isUndef s part generalizing w with
  | case1 high low v ih =>
    obtain ⟨width, ordered, w', inside, whole⟩ := Expr.hasSort_extract.1 sorted
    injection width with width
    subst width
    obtain ⟨N, varies, value⟩ := ih isUndef whole (x.setWidth w' <<< low)
    refine ⟨N, varies, ?_⟩
    rw [Expr.eval, Expr.evals, Expr.evals, value]
    refine congrArg (Value.bv (high - low + 1)) (BitVec.eq_of_getLsbD_eq fun i small => ?_)
    rw [BitVec.getLsbD_extractLsb]
    have first : i ≤ high - low := by omega
    have second : low + i < w' := by omega
    simp [first, second]
  | case2 part other =>
    obtain ⟨⟨⟨name, t, wf⟩, rfl⟩, _⟩ := given.undefVars part (of_decide_eq_true isUndef)
    have sort : t = .bv w := sorted.sort_eq
    subst sort
    refine ⟨M.set ⟨name, .bv w, wf⟩ x, ⟨rfl, rfl, fun name' t' absent => if_neg ?_⟩, ?_⟩
    · rintro ⟨rfl, rfl⟩
      exact absent (of_decide_eq_true isUndef)
    · exact congrArg (Value.of (.bv w)) (Model.valueOf_set M ⟨name, .bv w, wf⟩ x)

def Distinguishes (S : Setting) (w : Nat) : Prop :=
  ∃ x y : BitVec w, S.same (.bv w x) (.bv w y) = false

theorem exact_isUndef (isUndef : s.isUndef e = true) (distinguishes : Distinguishes S e.bits) :
    Exact S s e M (s.unchanged (Expr.mkUInt 0 e.bits) [.term (.bool false)]) := by
  refine exact_of given ⟨fun _ => ?_, fun _ => ?_⟩ fun N _ holds => ?_
  · obtain ⟨w, sorted⟩ := given.sorted
    rw [sorted.bits_eq] at distinguishes
    obtain ⟨x, y, differ⟩ := distinguishes
    obtain ⟨K, varies, value⟩ := exists_choice_of_isUndef given isUndef sorted x M
    obtain ⟨K', varies', value'⟩ := exists_choice_of_isUndef given isUndef sorted y M
    exact ⟨K, K', varies, varies', by rw [value, value', differ]⟩
  · exact ⟨M, Model.Varies.refl _ M, _, List.mem_singleton_self _, rfl⟩
  · have falsum := holds _ (List.mem_singleton_self _)
    cases falsum

section

variable {known undefVars missing vars decided : List Expr}
  (asked : Asked S s e known undefVars missing vars)
  (sub : decided ⊆ missing)
  (sat : ∀ mask ∈ decided, S.isSat (S.query known undefVars missing vars e mask) = true)
  (functions : M.fn = fn)
  (ub : ∀ c ∈ s.ub, c.holds S M = true)

def Tests (S : Setting) (known decided : List Expr) (M : Model) : Prop :=
  ∀ mask ∈ known ++ decided, (S.isZero mask).truth M = true

include asked sub

theorem named_of_mem :
    ∀ mask ∈ known ++ decided, ∃ name, mask = .var name (.bv 1) ∧ isUndefMask mask = true := by
  intro mask member
  have facts : mask ∈ vars ∧ isUndefMask mask = true := by
    rcases List.mem_append.1 member with member | member
    · exact ((asked.mem_known mask).1 member).1
    · exact ((asked.mem_missing mask).1 (sub member)).1
  obtain ⟨sel, _, rfl⟩ := exists_selection given ((asked.mem_vars mask).1 facts.1) facts.2
  exact ⟨sel.mask, rfl, facts.2⟩

theorem tests_iff (varies : Model.Varies (choices S s) M N) :
    Tests S known decided N ↔ Tests S known decided M := by
  refine forall₂_congr fun mask member => ?_
  obtain ⟨name, rfl, named⟩ := named_of_mem given asked sub mask member
  rw [truth_isZero_of_varies given varies named]

theorem eval_substSimplify (tests : Tests S known decided M) :
    (S.substSimplify (S.testRepls known ++ S.testRepls decided) e).eval M = e.eval M := by
  have sorts : Expr.SameSorts (S.testRepls (known ++ decided)) := by
    intro repl member
    obtain ⟨mask, isMask, rfl⟩ := List.mem_map.1 member
    obtain ⟨name, rfl, _⟩ := named_of_mem given asked sub mask isMask
    exact ⟨(hasSort_isZero S name).sort_eq.symm, rfl⟩
  rw [Setting.testRepls, Setting.testRepls, ← List.map_append, Setting.substSimplify]
  change Expr.SameSorts (List.map _ _) at sorts
  split
  · rfl
  · obtain ⟨w, sorted⟩ := given.sorted
    rw [(S.z.equal _ (Expr.wellSorted_substitute sorts sorted.wellSorted)).2]
    refine Expr.eval_substitute sorts fun repl member => ?_
    obtain ⟨mask, isMask, rfl⟩ := List.mem_map.1 member
    obtain ⟨name, rfl, _⟩ := named_of_mem given asked sub mask isMask
    rw [(hasSort_isZero S name).eval_bool, tests _ isMask]
    rfl

include ub in
omit given sub in
theorem tests_of_decided (holds : ∀ mask ∈ decided, (S.isZero mask).truth M = true) :
    Tests S known decided M := by
  intro mask member
  rcases List.mem_append.1 member with member | member
  · exact ub _ ((asked.mem_known mask).1 member).2
  · exact holds mask member

include sat functions in
theorem takesTwo_of_fails {c : Cond} (varies : Model.Varies (choices S s) M N)
    (member : c ∈ decided.map fun mask => Cond.term (S.isZero mask))
    (fails : c.holds S N = false) : TakesTwo S s e M := by
  obtain ⟨mask, isMask, rfl⟩ := List.mem_map.1 member
  obtain ⟨name, rfl, named⟩ :=
    named_of_mem given asked sub mask (List.mem_append_right _ isMask)
  refine takesTwo_of_isSat given asked (sub isMask) (sat _ isMask) functions ?_
  rw [← truth_isZero_of_varies given varies named]
  exact fails

include sat functions ub in
theorem exact_decided
    (none : ∀ u ∈ s.undefVars,
      u ∉ (S.substSimplify (S.testRepls known ++ S.testRepls decided) e).vars)
    (nonUndefVals : List (String × Expr)) :
    Exact S s e M ⟨S.substSimplify (S.testRepls known ++ S.testRepls decided) e,
      decided.map fun mask => .term (S.isZero mask), nonUndefVals, []⟩ := by
  refine exact_of given ⟨fun violated => ?_, fun two => ?_⟩ fun N varies holds => ?_
  · obtain ⟨N, varies, c, member, fails⟩ := violated
    exact takesTwo_of_fails given asked sub sat functions varies member fails
  · by_contra held
    have holds : ∀ mask ∈ decided, (S.isZero mask).truth M = true := by
      intro mask member
      by_contra fails
      exact held ⟨M, Model.Varies.refl _ M, _, List.mem_map_of_mem member,
        Bool.eq_false_iff.2 fails⟩
    have tests := tests_of_decided asked ub holds
    have value : ∀ K, Model.Varies s.undefVars M K → e.eval K =
        (S.substSimplify (S.testRepls known ++ S.testRepls decided) e).eval M := by
      intro K varies
      have testsK := (tests_iff given asked sub (varies_choices varies)).2 tests
      rw [← eval_substSimplify given asked sub testsK, Expr.eval_of_varies varies none]
    obtain ⟨K, K', varies, varies', differ⟩ := two
    rw [value K varies, value K' varies', S.same_equivalence.refl] at differ
    cases differ
  · refine eval_substSimplify given asked sub ?_
    refine (tests_iff given asked sub varies).2 (tests_of_decided asked ub ?_)
    intro mask member
    obtain ⟨name, rfl, named⟩ :=
      named_of_mem given asked sub mask (List.mem_append_right _ member)
    rw [← truth_isZero_of_varies given varies named]
    exact holds _ (List.mem_map_of_mem member)

omit sub in
theorem exists_primed {N N' : Model} (varies : Model.Varies s.undefVars M N)
    (varies' : Model.Varies s.undefVars M N') :
    ∃ L, Model.Varies (choices S s) M L ∧ e.eval L = e.eval N ∧
      e.eval (copied S "#undef'" undefVars L) = e.eval N' := by
  have fresh := given.fresh "#undef'" (by decide)
  let L := primed S s N N'
  have onCopy : ∀ c : Const, c.expr ∈ s.undefVars → ∀ name,
      S.fresh "#undef'" c.expr = .var name c.sort → L.var name c.sort = N'.var c.name c.sort := by
    intro c known name isVar
    have copy : IsCopy S s name c.sort := ⟨c.expr, known, isVar⟩
    have same : copy.choose = c.expr :=
      fresh.distinct _ copy.choose_spec.1 _ known (copy.choose_spec.2.trans isVar.symm)
    refine (dif_pos copy).trans ?_
    rw [same]
    exact Value.get_of c.sort _
  have offCopy : ∀ name t, ¬IsCopy S s name t → L.var name t = N.var name t := fun name t none =>
    dif_neg none
  have notCopy : ∀ name t, .var name t ∈ e.vars → ¬IsCopy S s name t := by
    rintro name t inside ⟨u, known, same⟩
    exact (fresh.new u known).1 (same ▸ inside)
  have ofVars : ∀ name t, .var name t ∈ e.vars → L.var name t = N.var name t :=
    fun name t inside => offCopy name t (notCopy name t inside)
  refine ⟨L, ⟨varies.fn, varies.bound, fun name t other => ?_⟩, ?_, ?_⟩
  · refine (offCopy name t ?_).trans (varies.var name t fun member =>
      other (List.mem_append_left _ member))
    rintro ⟨u, known, same⟩
    exact other (List.mem_append_right _ (List.mem_map.2 ⟨u, known, same⟩))
  · exact Expr.eval_of_agree rfl rfl ofVars
  · refine Expr.eval_of_agree (varies.fn.trans varies'.fn.symm)
      (varies.bound.trans varies'.bound.symm) fun name t inside => ?_
    by_cases isUndef : Expr.var name t ∈ undefVars
    · have known := ((asked.mem_undefVars _).1 isUndef).2
      obtain ⟨⟨c, same⟩, _⟩ := given.undefVars _ known
      injection same with sameName sameSort
      subst sameName
      subst sameSort
      obtain ⟨copy, isVar⟩ := fresh.isVar _ known
      refine (if_pos isUndef).trans ?_
      rw [isVar]
      exact onCopy c known copy isVar
    · have other : Expr.var name t ∉ s.undefVars := fun known =>
        isUndef ((asked.mem_undefVars _).2 ⟨(asked.mem_vars _).2 inside, known⟩)
      refine (if_neg isUndef).trans ((ofVars name t inside).trans ?_)
      rw [varies.var name t other, varies'.var name t other]

include sat functions ub in
theorem exact_compared (nonUndefVals : List (String × Expr)) (quantVars : List Expr) : Exact S s e M
      { value := S.substSimplify (S.testRepls known ++ S.testRepls decided) e
        ub := (decided.map fun mask => .term (S.isZero mask)) ++ [.eqExceptPadding e
          (Expr.substitute (S.testRepls known ++ S.testRepls decided ++
            S.undefRepls "#undef'" undefVars) e)]
        nonUndefVals := nonUndefVals
        quantVars := quantVars } := by
  have named := named_of_mem given asked sub
  have inState : undefVars ⊆ s.undefVars := fun x isUndef => ((asked.mem_undefVars x).1 isUndef).2
  have stem : "#undef'" ∈ ["undef", "#undef'"] := by decide
  have compared : ∀ N, Tests S known decided N →
      (Cond.eqExceptPadding e (Expr.substitute (S.testRepls known ++ S.testRepls decided ++
        S.undefRepls "#undef'" undefVars) e)).holds S N =
      S.same (e.eval N) (e.eval (copied S "#undef'" undefVars N)) := by
    intro N tests
    have copies := eval_copied given stem named tests inState
    rw [Setting.testRepls, List.map_append] at copies
    rw [Cond.holds, Setting.testRepls, Setting.testRepls, copies]
  have tests_of : ∀ N, Model.Varies (choices S s) M N →
      (∀ mask ∈ decided, (S.isZero mask).truth N = true) → Tests S known decided N := by
    intro N varies holds
    refine (tests_iff given asked sub varies).2 (tests_of_decided asked ub fun mask member => ?_)
    obtain ⟨name, rfl, isMask⟩ := named mask (List.mem_append_right _ member)
    rw [← truth_isZero_of_varies given varies isMask]
    exact holds _ member
  refine exact_of given ⟨fun violated => ?_, fun two => ?_⟩ fun N varies holds => ?_
  · obtain ⟨N, varies, c, member, fails⟩ := violated
    by_cases decidedHold : ∀ mask ∈ decided, (S.isZero mask).truth N = true
    · rcases List.mem_append.1 member with member | member
      · exact takesTwo_of_fails given asked sub sat functions varies member fails
      · rw [List.mem_singleton.1 member, compared N (tests_of N varies decidedHold)] at fails
        obtain ⟨K, choice, value⟩ := exists_restricted given varies
        have both : Model.Varies (choices S s) M (copied S "#undef'" undefVars N) :=
          varies.trans (varies_choices ((varies_copied "#undef'" undefVars N).mono inState))
        obtain ⟨K', choice', value'⟩ := exists_restricted given both
        exact ⟨K, K', choice, choice', by rw [value, value', fails]⟩
    · push Not at decidedHold
      obtain ⟨mask, isMask, isSet⟩ := decidedHold
      exact takesTwo_of_fails given asked sub sat functions varies
        (List.mem_map_of_mem isMask) (Bool.eq_false_iff.2 isSet)
  · by_cases decidedHold : ∀ mask ∈ decided, (S.isZero mask).truth M = true
    · obtain ⟨K, K', choice, choice', differ⟩ := two
      obtain ⟨L, varies, value, value'⟩ := exists_primed given asked choice choice'
      have tests := (tests_iff given asked sub varies).2 (tests_of_decided asked ub decidedHold)
      refine ⟨L, varies, _, List.mem_append_right _ (List.mem_singleton_self _), ?_⟩
      rw [compared L tests, value, value', differ]
    · push Not at decidedHold
      obtain ⟨mask, isMask, isSet⟩ := decidedHold
      exact ⟨M, Model.Varies.refl _ M, _, List.mem_append_left _ (List.mem_map_of_mem isMask),
        Bool.eq_false_iff.2 isSet⟩
  · refine eval_substSimplify given asked sub (tests_of N varies fun mask member => ?_)
    exact holds _ (List.mem_append_left _ (List.mem_map_of_mem member))

end

end

/-! ## The function -/

theorem isUndef_of_mem {u : Expr} (known : u ∈ s.undefVars) : s.isUndef u = true := by
  obtain ⟨⟨c, rfl⟩, _⟩ := given.undefVars u known
  exact decide_eq_true known

omit given in
theorem decideMasks_spec (known undefVars missing vars : List Expr) (masks : List Expr) :
    (S.decideMasks known undefVars missing vars e masks).1 ⊆ masks ∧
      ∀ mask ∈ (S.decideMasks known undefVars missing vars e masks).1,
        S.isSat (S.query known undefVars missing vars e mask) = true := by
  induction masks with
  | nil => exact ⟨List.Subset.refl _, fun _ member => by cases member⟩
  | cons mask rest ih =>
    rw [Setting.decideMasks]
    split
    · next sat =>
      refine ⟨List.cons_subset_cons mask ih.1, fun other member => ?_⟩
      rcases List.mem_cons.1 member with rfl | member
      · exact sat
      · exact ih.2 other member
    · exact ⟨List.nil_subset _, fun _ member => by cases member⟩

/-- In every model in which the UB condition so far holds, the added condition is violated for
some choice of the undef variables and their copies if and only if the value takes two values,
and otherwise the result is the value. -/
theorem strip_exact
    {M : Model} (functions : M.fn = fn) (ub : ∀ c ∈ s.ub, c.holds S M = true)
    (distinguishes : s.isUndef e = true → Distinguishes S e.bits) :
    Exact S s e M (S.strip s e) := by
  unfold Setting.strip
  split
  · next trivial =>
    refine exact_unchanged given fun u known inside => ?_
    rcases Bool.or_eq_true_iff.1 trivial with empty | const
    · rw [List.isEmpty_iff.1 empty] at known
      cases known
    · cases e with
      | num bits value => cases inside
      | bool value =>
        rw [List.mem_singleton.1 inside] at known
        obtain ⟨⟨c, same⟩, _⟩ := given.undefVars _ known
        cases same
      | _ => cases const
  split
  · next isUndef => exact exact_isUndef given isUndef (distinguishes isUndef)
  dsimp only
  split
  · next empty =>
    refine exact_unchanged given fun u known inside => ?_
    rw [List.isEmpty_iff, List.filter_eq_nil_iff] at empty
    exact empty u ((given.order _ _).2 inside) (decide_eq_true known)
  next undefs =>
  have asked : Asked S s e (S.knownMasks s (S.order e.vars))
      ((S.order e.vars).filter fun var => var ∈ s.undefVars)
      (S.missingTests s (S.order e.vars)) (S.order e.vars) := by
    constructor
    · exact given.order e.vars
    · intro x
      rw [List.mem_filter, decide_eq_true_iff]
    · intro x
      rw [Setting.knownMasks, List.mem_filter, List.mem_filter, decide_eq_true_iff]
    · intro x
      rw [Setting.missingTests, List.mem_filter, List.mem_filter, decide_eq_true_iff]
  split
  · next nothing =>
    -- an undef variable that occurs is not a mask
    rw [List.isEmpty_iff, List.filter_eq_nil_iff] at undefs
    push Not at undefs
    obtain ⟨u, member, known⟩ := undefs
    have hasUndef : ((S.order e.vars).any fun var => !isUndefMask var && s.isUndef var) = true := by
      refine List.any_eq_true.2 ⟨u, member, ?_⟩
      have undefName := (given.undefVars u (of_decide_eq_true known)).2
      rw [isUndef_of_mem given (of_decide_eq_true known)]
      cases isMask : isUndefMask u with
      | false => rfl
      | true =>
        rw [isUndefName_of_isUndefMask isMask] at undefName
        cases undefName
    rw [hasUndef] at nothing
    simp at nothing
  have spec := decideMasks_spec (S := S) (e := e) (S.knownMasks s (S.order e.vars))
    ((S.order e.vars).filter fun var => var ∈ s.undefVars)
    (S.missingTests s (S.order e.vars)) (S.order e.vars) (S.missingTests s (S.order e.vars))
  split
  · next finished =>
    refine exact_decided given asked spec.1 spec.2 functions ub (fun u known inside => ?_) _
    have left := (Bool.and_eq_true_iff.1 finished).2
    rw [Bool.not_eq_true', List.any_eq_false] at left
    exact left u inside (isUndef_of_mem given known)
  · exact exact_compared given asked spec.1 spec.2 functions ub _ _

end Exactness

/-! ## One input -/

/-- The reference solver, with a choice by `true` simplified too. -/
noncomputable def folding : Z3 where
  less a b := a.size < b.size
  simplify
    | .app .ite [.bool true, a, _] => a
    | e => Z3.reference.simplify e
  equal := by
    intro e sorted
    split
    · next a b =>
      rw [Expr.wellSorted, Bool.and_eq_true] at sorted
      have each := (Expr.wellSortedAll_iff _).1 sorted.1
      exact ⟨each a (List.mem_cons_of_mem _ List.mem_cons_self), fun M => rfl⟩
    · exact Z3.reference.equal e sorted
  folds := by
    intro op args folds sorted const
    split
    · next a b same =>
      injection same with _ sameArgs
      subst sameArgs
      exact const a (List.mem_cons_of_mem _ List.mem_cons_self)
    · exact Z3.reference.folds op args folds sorted const

/-- Values of a type, with a solver that answers exactly. -/
noncomputable def asking (ty : Ty) (isSat : Query → Bool) : Setting where
  z := folding
  p := ⟨8, 1, 3, 64, 64, true, false, false, false, false, false, id, id⟩
  attrBits := 0
  ptrCompare := false
  ty := ty
  order := id
  fresh stem u := .var (stem ++ "!1") u.sort
  isSat := isSat

open Classical in
noncomputable def exactly (ty : Ty) : Setting :=
  asking ty fun q => decide (q.Satisfiable (asking ty fun _ => false) (default : Model).fn)

def undefX : Const := ⟨"undef!0", .bv 8, rfl⟩

/-- The input `x`, or its undef value. -/
def selectX : Selection where
  mask := "isundef_x"
  val := .var "x" (.bv 8)
  undef := undefX.expr
  var := undefX

theorem selectX_built : selectX.Built where
  named := by decide
  closed := ⟨rfl, rfl⟩
  val x member := by
    rw [List.mem_singleton.1 member]
    exact ⟨by decide, by decide⟩
  undef x member := List.mem_singleton.1 member
  covers M := ⟨M.var "x" (.bv 8), congrArg (Value.of (.bv 8)) (M.valueOf_set undefX _)⟩

open Classical in
theorem exactly_isSat (ty : Ty) (q : Query) :
    (exactly ty).isSat q = true ↔ q.Satisfiable (exactly ty) (default : Model).fn :=
  decide_eq_true_iff

def reading (ub : List Cond) : State where
  undefVars := [undefX.expr]
  ub := ub
  values := []
  nonUndefVals := []

theorem exactly_fresh {ty : Ty} {e : Expr}
    (vars : ∀ x ∈ e.vars, ∃ name ∈ ["x", "isundef_x", "undef!0"], fnName x = name) :
    ∀ stem ∈ ["undef", "#undef'"], (exactly ty).Fresh stem [undefX.expr] e := by
  intro stem isStem
  have names : fnName ((exactly ty).fresh stem undefX.expr) ∈ ["undef!1", "#undef'!1"] := by
    simp only [List.mem_cons, List.not_mem_nil, or_false] at isStem
    rcases isStem with rfl | rfl
    · exact List.mem_cons_self
    · exact List.mem_cons_of_mem _ (List.mem_singleton_self _)
  constructor
  · intro u member
    exact ⟨_, rfl⟩
  · intro u member
    rw [List.mem_singleton.1 member]
    refine ⟨fun inside => ?_, fun inside => ?_⟩
    · obtain ⟨name, isName, same⟩ := vars _ inside
      rw [same] at names
      simp only [List.mem_cons, List.not_mem_nil, or_false] at isName names
      rcases isName with rfl | rfl | rfl <;> rcases names with names | names <;>
        exact absurd names (by decide)
    · rw [List.mem_singleton.1 inside] at names
      exact absurd names (by decide)
  · intro u member
    rw [List.mem_singleton.1 member]
    simp only [List.mem_cons, List.not_mem_nil, or_false] at isStem
    rcases isStem with rfl | rfl
    · change isUndefMask (.var ("undef" ++ "!1") (.bv 8)) = false
      decide
    · change isUndefMask (.var ("#undef'" ++ "!1") (.bv 8)) = false
      decide
  · intro u member v member' _
    rw [List.mem_singleton.1 member, List.mem_singleton.1 member']

theorem stripping_selectX (ub : List Cond) :
    Stripping (exactly (.int 8)) (default : Model).fn (reading ub) [selectX]
      (selectX.expr (exactly (.int 8))) where
  answers := exactly_isSat _
  order _ _ := Iff.rfl
  sorted := ⟨8, Expr.hasSort_ite.2 ⟨hasSort_isZero _ _, ⟨rfl, rfl⟩, ⟨rfl, rfl⟩⟩⟩
  closed := selectX_built.closed_expr
  overInputs := .select selectX (List.mem_singleton_self _)
  built sel member := by
    rw [List.mem_singleton.1 member]
    exact selectX_built
  known sel member := by
    rw [List.mem_singleton.1 member]
    exact List.mem_singleton_self _
  own sel member other member' _ := by
    rw [List.mem_singleton.1 member, List.mem_singleton.1 member']
  undefVars u member := by
    rw [List.mem_singleton.1 member]
    exact ⟨⟨undefX, rfl⟩, by decide⟩
  fresh := by
    refine exactly_fresh fun x member => ?_
    rw [selectX.vars_expr] at member
    rcases List.mem_cons.1 member with rfl | member
    · exact ⟨"isundef_x", by decide, rfl⟩
    rcases List.mem_append.1 member with member | member
    · rw [List.mem_singleton.1 member]
      exact ⟨"x", by decide, rfl⟩
    · rw [List.mem_singleton.1 member]
      exact ⟨"undef!0", by decide, rfl⟩

theorem strip_exact_input :
    Exact (exactly (.int 8)) (reading []) (selectX.expr (exactly (.int 8))) default
      ((exactly (.int 8)).strip (reading []) (selectX.expr (exactly (.int 8)))) := by
  refine strip_exact (stripping_selectX []) rfl (fun c member => ?_) fun isUndef => ?_
  · cases member
  · exact absurd isUndef (by decide)

def masked : Model where
  var name t := if name = "isundef_x" then (Value.bv 1 1).get t else t.default
  fn := (default : Model).fn
  bound := (default : Model).bound

theorem strip_known :
    (exactly (.int 8)).strip (reading [.term ((exactly (.int 8)).isZero selectX.maskVar)])
      (selectX.expr (exactly (.int 8))) = ⟨.var "x" (.bv 8), [], [], []⟩ := by
  rfl

theorem eval_masked (value : BitVec 8) :
    (selectX.expr (exactly (.int 8))).eval (masked.set undefX value) = .bv 8 value := by
  have isSet : ((exactly (.int 8)).isZero selectX.maskVar).truth (masked.set undefX value) =
      false := by
    rcases isZero_eq (exactly (.int 8)) selectX.mask with shape | shape <;>
      rw [Selection.maskVar, shape] <;> rfl
  rw [selectX.eval_expr, isSet]
  exact congrArg (Value.of (.bv 8)) (masked.valueOf_set undefX value)

theorem takesTwo_masked (ub : List Cond) :
    TakesTwo (exactly (.int 8)) (reading ub) (selectX.expr (exactly (.int 8))) masked := by
  have varies : ∀ value : BitVec 8,
      Model.Varies [undefX.expr] masked (masked.set undefX value) := fun value =>
    ⟨rfl, rfl, fun name t other => if_neg fun same => other (by
      rw [same.1, same.2]
      exact List.mem_singleton_self _)⟩
  refine ⟨_, _, varies 0, varies 1, ?_⟩
  rw [eval_masked, eval_masked]
  rfl

theorem stripping_undefX :
    Stripping (exactly (.aggregate false .nil)) (default : Model).fn (reading []) []
      undefX.expr where
  answers := exactly_isSat _
  order _ _ := Iff.rfl
  sorted := ⟨8, rfl, rfl⟩
  closed := rfl
  overInputs := .undef undefX (List.mem_singleton_self _) fun _ member => by cases member
  built _ member := by cases member
  known _ member := by cases member
  own _ member := by cases member
  undefVars u member := by
    rw [List.mem_singleton.1 member]
    exact ⟨⟨undefX, rfl⟩, by decide⟩
  fresh := by
    refine exactly_fresh fun x member => ?_
    rw [List.mem_singleton.1 member]
    exact ⟨"undef!0", by decide, rfl⟩

/-- Neither condition can be dropped: a test that is in the UB condition is not added again, and an
undef variable is UB even as a value of an empty type. -/
theorem exact_needs_conditions :
    (¬∀ (S : Setting) (fn : Functions) (s : State) (sels : List Selection) (e : Expr) (M : Model),
      Stripping S fn s sels e → M.fn = fn → (s.isUndef e = true → Distinguishes S e.bits) →
        Exact S s e M (S.strip s e)) ∧
    ¬∀ (S : Setting) (fn : Functions) (s : State) (sels : List Selection) (e : Expr) (M : Model),
      Stripping S fn s sels e → M.fn = fn → (∀ c ∈ s.ub, c.holds S M = true) →
        Exact S s e M (S.strip s e) := by
  constructor
  · intro claim
    have exactness := claim _ _ _ _ _ masked
      (stripping_selectX [.term ((exactly (.int 8)).isZero selectX.maskVar)]) rfl fun isUndef =>
        absurd isUndef (by decide)
    rw [strip_known] at exactness
    obtain ⟨_, _, c, member, _⟩ := exactness.violated_iff.2 (takesTwo_masked _)
    cases member
  · intro claim
    have exactness := claim _ _ _ _ _ default stripping_undefX rfl fun _ member => by cases member
    obtain ⟨N, N', _, _, differ⟩ := exactness.violated_iff.1
      ⟨default, Model.Varies.refl _ _, .term (.bool false), List.mem_singleton_self _, rfl⟩
    cases differ

end AliveNext.IR.UndefStrip
