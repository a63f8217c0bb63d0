import AliveNext.IR.InputLeaves
import AliveNext.Smt.Quantify

/-!
# Instances of the undef masks

`preprocess` expands quantified booleans and tries both values of the variables
that say whether an input is undef, before the solver is asked
(`tools/transform.cpp`). Both stop when the solver uses too much memory.
-/

namespace AliveNext.Tools.Instances

open AliveNext.Smt
open AliveNext.Smt.Expr
open AliveNext.IR.Leaves
open AliveNext.LLVM.Types

/-- `expr::simplify`: what the library promises about it. -/
structure Simplifier (T : Theory) where
  simplify : Expr → Expr
  sorted : ∀ (e : Expr) (s : Srt), e.HasSort s → (simplify e).HasSort s
  equal : ∀ (e : Expr) (M : Model), e.wellSorted = true → T.meets M.fn →
    (simplify e).eval M = e.eval M
  mentions : ∀ (c : Const) (e : Expr), mentions c e = false → mentions c (simplify e) = false

/-- `map<expr, expr>`. -/
abbrev Map := List (Expr × Expr)

namespace Map

def contains (m : Map) (key : Expr) : Bool := m.any fun p => p.1 = key

/-- `m[key] = value`. -/
def assign (m : Map) (key value : Expr) : Map :=
  m.filter (fun p => p.1 ≠ key) ++ [(key, value)]

/-- `m.try_emplace(key, value)`: the first value stays. -/
def tryEmplace (m : Map) (key value : Expr) : Map :=
  if m.contains key then m else m ++ [(key, value)]

/-- `m.insert(first, last)`. -/
def insertAll (m other : Map) : Map := other.foldl (fun m p => m.tryEmplace p.1 p.2) m

end Map

/-- What is outside: the order of the ids of terms, and what `hit_half_memory_limit` says when
it is called for the n-th time. -/
structure Runtime where
  order : Map → Map
  perm : ∀ m, (order m).Perm m
  limit : Nat → Bool

def maskVar (name : String) : Const := ⟨name, .bv 1, rfl⟩

/-- `var == n` of a variable and a numeral. -/
def isValue (c : Const) (value : Expr) : Expr := .app .eq [c.expr, value]

section

variable {T : Theory} (S : Simplifier T) (runtime : Runtime)

def expand (mask : Const) (e v : Expr) : List Expr → Map → Map
  | [], instances2 => instances2
  | value :: values, instances2 =>
    let newexpr := subst e mask.expr value
    if newexpr = e then instances2.assign newexpr v
    else
      let newexpr := S.simplify newexpr
      if newexpr.isFalse then expand mask e v values instances2
      else
        expand mask e v values (instances2.tryEmplace newexpr (Expr.and v (isValue mask value)))

def nums : List Expr := [mkUInt 0 1, mkUInt 1 1]

/-- The loop over the instances, with the calls of `hit_half_memory_limit` so far. -/
def expandAll (mask : Const) : Nat → Map → Map → Nat × Map
  | calls, [], instances2 => (calls, instances2)
  | calls, (e, v) :: rest, instances2 =>
    if runtime.limit calls then (calls + 1, instances2.insertAll ((e, v) :: rest))
    else expandAll mask (calls + 1) rest (expand S mask e v nums instances2)

/-- `instantiate_undef` of a scalar. -/
def visitMask (name : String) (state : Nat × Map) : Nat × Map :=
  if 128 ≤ state.2.length then state
  else if runtime.limit state.1 then (state.1 + 1, state.2)
  else expandAll S runtime (maskVar name) (state.1 + 1) (runtime.order state.2) []

structure Input where
  smtName : String
  ty : AType

/-- What the loop that eliminates booleans leaves. -/
structure Eliminated where
  qvars : List Const
  e : Expr
  calls : Nat

/-- The loop over the quantified variables, in the order of their ids. -/
def eliminate : List Const → Nat → Nat → Expr → Eliminated
  | [], calls, _, e => ⟨[], e, calls⟩
  | qvar :: qvars, calls, numQvarsSubst, e =>
    if qvar.sort ≠ .bool then
      let rest := eliminate qvars calls numQvarsSubst e
      { rest with qvars := qvar :: rest.qvars }
    else if runtime.limit calls then ⟨qvar :: qvars, e, calls + 1⟩
    else
      let t := subst e qvar.expr (.bool true)
      let changed := t ≠ e
      let e := if changed then S.simplify (Expr.and t (subst e qvar.expr (.bool false))) else e
      -- counted twice if the formula has changed
      let numQvarsSubst := (if changed then numQvarsSubst + 1 else numQvarsSubst) + 1
      if numQvarsSubst > 9 then ⟨qvars, e, calls + 1⟩
      else eliminate qvars (calls + 1) numQvarsSubst e

/-- `instantiate_undef` of every input. -/
def instances (inputs : List Input) (state : Nat × Map) : Nat × Map :=
  inputs.foldl (fun state input =>
    instantiateUndef (visitMask S runtime) input.smtName input.ty 0 input.ty state) state

def disjunction (qvars : List Const) (m : Map) : Expr :=
  m.foldl (fun insts p => Expr.or insts (Expr.and (mkForAll qvars p.1) p.2)) (.bool false)

def preprocess (disableUndefInput : Bool) (inputs : List Input) (qvars0 undefQvars : List Const)
    (e : Expr) : Expr :=
  if runtime.limit 0 then mkForAll qvars0 e
  else
    let left := eliminate S runtime qvars0 1 0 e
    if disableUndefInput || undefQvars.isEmpty || runtime.limit left.calls then
      mkForAll left.qvars left.e
    else
      let insts := instances S runtime inputs (left.calls + 1, [(left.e, .bool true)])
      disjunction left.qvars (runtime.order insts.2)

end

/-- `forall qvars. e` is true in the model. -/
def ForAll (qvars : List Const) (e : Expr) (M : Model) : Prop :=
  ∀ N, Model.Differ qvars M N → e.truth N = true

section

variable {T : Theory} {qvars : List Const} {c : Const} {e value : Expr} {M N : Model}

theorem truth_congr {f : Expr} (same : e.eval M = f.eval N) : e.truth M = f.truth N :=
  congrArg Value.toBool same

theorem forAll_cons : ForAll (c :: qvars) e M ↔ ∀ x, ForAll qvars e (M.set c x) := by
  constructor
  · exact fun all x N differ => all N (Model.differ_cons.2 ⟨x, differ⟩)
  · intro all N differ
    obtain ⟨x, differ⟩ := Model.differ_cons.1 differ
    exact all x N differ

theorem forAll_cons_inner : ForAll (c :: qvars) e M ↔
      ∀ N, Model.Differ qvars M N → ∀ x, e.truth (N.set c x) = true := by
  constructor
  · intro all N differ x
    exact all (N.set c x) (Model.differ_cons.2 ⟨x, differ.set x⟩)
  · intro all N differ
    have other : Model.Differ qvars M (N.set c (M.valueOf c)) := by
      obtain ⟨x, differ⟩ := Model.differ_cons.1 differ
      have back := differ.set (M.valueOf c)
      rw [Model.set_set, Model.set_valueOf] at back
      exact back
    have same := all _ other (N.valueOf c)
    rw [Model.set_set, Model.set_valueOf] at same
    exact same

theorem truth_subst {x : c.sort.Val} (const : value.isConst = true)
    (sorted : value.HasSort c.sort) (known : ∀ M, value.eval M = .of c.sort x) :
    (subst e c.expr value).truth M = e.truth (M.set c x) := by
  have absent := mentions_subst (e := e) (d := c) const (.inl rfl)
  refine (truth_congr (eval_set absent x).symm).trans (truth_congr (eval_subst sorted ?_))
  rw [known, Model.valueOf_set]

end

section

variable {T : Theory} (S : Simplifier T) (runtime : Runtime) {qvars : List Const} {c : Const}
  {e : Expr} {M : Model}

theorem truth_simplify
    (sorted : e.HasSort .bool) (meets : T.meets M.fn) : (S.simplify e).truth M = e.truth M :=
  truth_congr (S.equal e M sorted.wellSorted meets)

theorem hasSort_boolConst (b : Bool) : (Expr.bool b).HasSort .bool := ⟨rfl, rfl⟩

theorem eliminated_absent (same : subst e c.expr (.bool true) = e) :
    ForAll (c :: qvars) e M ↔ ForAll qvars e M := by
  have absent : mentions c e = false := same ▸ mentions_subst rfl (.inl rfl)
  rw [forAll_cons_inner]
  refine forall₂_congr fun N _ => ?_
  constructor
  · exact fun all => (truth_congr (eval_set absent (N.valueOf c))).symm.trans (all _)
  · exact fun holds x => (truth_congr (eval_set absent x)).trans holds

theorem eliminated_both
    (boolean : c.sort = .bool) (sorted : e.HasSort .bool) (meets : T.meets M.fn) :
    ForAll (c :: qvars) e M ↔
      ForAll qvars (S.simplify (Expr.and (subst e c.expr (.bool true))
        (subst e c.expr (.bool false)))) M := by
  obtain ⟨name, s, wf⟩ := c
  subst boolean
  have part : ∀ b, (Expr.bool b).HasSort (Const.mk name .bool wf).sort := hasSort_boolConst
  have left := hasSort_subst (part true) sorted
  have right := hasSort_subst (part false) sorted
  rw [forAll_cons_inner]
  refine forall₂_congr fun N differ => ?_
  have meets : T.meets N.fn := differ.fn ▸ meets
  have both : ∀ x : Bool, (subst e (Const.expr ⟨name, .bool, wf⟩) (.bool x)).truth N =
        e.truth (N.set ⟨name, .bool, wf⟩ x) := by
    intro x
    exact @truth_subst ⟨name, .bool, wf⟩ e (.bool x) N x rfl (part x) fun _ => rfl
  rw [truth_simplify S (hasSort_and_eq left right) meets, truth_and_eq left right, both, both,
    Bool.and_eq_true]
  constructor
  · exact fun all => ⟨all true, all false⟩
  · rintro ⟨first, second⟩ x
    cases x with
    | true => exact first
    | false => exact second

theorem eliminate_spec (qvars : List Const) : ∀ (calls n : Nat) (e : Expr), e.HasSort .bool →
      (eliminate S runtime qvars calls n e).e.HasSort .bool ∧
        (∀ c ∈ (eliminate S runtime qvars calls n e).qvars, c ∈ qvars) ∧
        ∀ M, T.meets M.fn →
          (ForAll (eliminate S runtime qvars calls n e).qvars
              (eliminate S runtime qvars calls n e).e M ↔ ForAll qvars e M) := by
  induction qvars with
  | nil => exact fun calls n e sorted => ⟨sorted, fun _ member => member, fun _ _ => Iff.rfl⟩
  | cons c qvars ih =>
    intro calls n e sorted
    rw [eliminate]
    split
    · obtain ⟨boolean, fewer, same⟩ := ih calls n e sorted
      refine ⟨boolean, fun d member => ?_, fun M meets => ?_⟩
      · exact (List.mem_cons.1 member).elim (fun same => same ▸ List.mem_cons_self)
          fun inside => List.mem_cons_of_mem c (fewer d inside)
      · rw [forAll_cons, forAll_cons]
        exact forall_congr' fun x => same (M.set c x) meets
    next boolean =>
    have boolean : c.sort = .bool := not_not.1 boolean
    split
    · exact ⟨sorted, fun _ member => member, fun _ _ => Iff.rfl⟩
    -- the formula after the step
    obtain ⟨f, changed⟩ : ∃ f, f = if subst e c.expr (.bool true) ≠ e then
        S.simplify (Expr.and (subst e c.expr (.bool true)) (subst e c.expr (.bool false)))
      else e := ⟨_, rfl⟩
    have step : f.HasSort .bool ∧ ∀ M, T.meets M.fn →
        (ForAll qvars f M ↔ ForAll (c :: qvars) e M) := by
      by_cases same : subst e c.expr (.bool true) = e
      · rw [changed, if_neg (not_not.2 same)]
        exact ⟨sorted, fun M _ => (eliminated_absent same).symm⟩
      · rw [changed, if_pos same]
        have part : ∀ b, (Expr.bool b).HasSort c.sort := fun b => boolean ▸ hasSort_boolConst b
        exact ⟨S.sorted _ _ (hasSort_and_eq (hasSort_subst (part true) sorted)
          (hasSort_subst (part false) sorted)),
          fun M meets => (eliminated_both S boolean sorted meets).symm⟩
    simp only [← changed]
    generalize (if subst e c.expr (.bool true) ≠ e then n + 1 else n) + 1 = m
    split
    · exact ⟨step.1, fun d member => List.mem_cons_of_mem c member, step.2⟩
    · obtain ⟨result, fewer, same⟩ := ih (calls + 1) _ f step.1
      exact ⟨result, fun d member => List.mem_cons_of_mem c (fewer d member),
        fun M meets => (same M meets).trans (step.2 M meets)⟩

end

section

variable {T : Theory} (S : Simplifier T) (runtime : Runtime) {qvars : List Const}
  {e v e0 key value : Expr} {p : Expr × Expr} {m other : Map} {M : Model} {name : String}

/-- The side condition of an instance says what was substituted to get there, and the
instance mentions none of these variables any more. -/
structure Records (e v : Expr) (taken : List (String × BitVec 1)) : Prop where
  nodup : (taken.map Prod.fst).Nodup
  gone : ∀ t ∈ taken, mentions (maskVar t.1) e = false
  sorted : v.HasSort .bool
  truth : ∀ M : Model, v.truth M = true ↔ ∀ t ∈ taken, M.valueOf (maskVar t.1) = t.2

/-- An instance of a formula. -/
structure Valid (T : Theory) (qvars : List Const) (e0 : Expr) (p : Expr × Expr) : Prop where
  boolean : p.1.HasSort .bool
  records : ∃ taken, Records p.1 p.2 taken
  sound : ∀ M, T.meets M.fn → ForAll qvars p.1 M → p.2.truth M = true → ForAll qvars e0 M

def Covered (qvars : List Const) (m : Map) (M : Model) : Prop :=
  ∃ key ∈ m.map Prod.fst, ForAll qvars key M

theorem forAll_set {c : Const} (gone : mentions c e = false) (holds : ForAll qvars e M)
    (x : c.sort.Val) : ForAll qvars e (M.set c x) := by
  intro N differ
  have back := differ.set (M.valueOf c)
  rw [Model.set_set, Model.set_valueOf] at back
  exact (truth_congr (eval_set gone (M.valueOf c))).symm.trans (holds _ back)

theorem maskVar_inj {x y : String} (same : maskVar x = maskVar y) : x = y :=
  congrArg Const.name same

theorem exists_recorded (taken : List (String × BitVec 1)) :
    (taken.map Prod.fst).Nodup → (∀ t ∈ taken, mentions (maskVar t.1) e = false) →
      T.meets M.fn → ForAll qvars e M → ∃ N : Model, T.meets N.fn ∧ ForAll qvars e N ∧
          ∀ t ∈ taken, N.valueOf (maskVar t.1) = t.2 := by
  induction taken with
  | nil => exact fun _ _ meets holds => ⟨M, meets, holds, List.forall_mem_nil _⟩
  | cons t taken ih =>
    intro nodup gone meets holds
    obtain ⟨first, nodup⟩ := List.nodup_cons.1 nodup
    obtain ⟨N, meets, holds, values⟩ := ih nodup
      (fun u member => gone u (List.mem_cons_of_mem t member)) meets holds
    refine ⟨N.set (maskVar t.1) t.2, meets, forAll_set (gone t List.mem_cons_self) holds t.2,
      fun u member => ?_⟩
    rcases List.mem_cons.1 member with rfl | inside
    · exact Model.valueOf_set N (maskVar u.1) u.2
    · have other : maskVar u.1 ≠ maskVar t.1 := fun same =>
        first (maskVar_inj same ▸ List.mem_map_of_mem inside)
      exact (Model.valueOf_set_of_ne (M := N) other t.2).trans (values u inside)

theorem Valid.satisfiable
    (valid : Valid T qvars e0 p) (meets : T.meets M.fn) (holds : ForAll qvars p.1 M) :
    ∃ N : Model, T.meets N.fn ∧ ForAll qvars p.1 N ∧ p.2.truth N = true := by
  obtain ⟨taken, records⟩ := valid.records
  obtain ⟨N, meets, holds, values⟩ :=
    exists_recorded taken records.nodup records.gone meets holds
  exact ⟨N, meets, holds, (records.truth N).2 values⟩

/-! ### The map -/

theorem contains_iff : m.contains key = true ↔ key ∈ m.map Prod.fst := by
  rw [Map.contains, List.any_eq_true, List.mem_map]
  exact exists_congr fun p => and_congr_right fun _ => decide_eq_true_iff

theorem mem_assign (member : p ∈ m.assign key value) : p ∈ m ∨ p = (key, value) := by
  rcases List.mem_append.1 member with old | new
  · exact .inl (List.mem_filter.1 old).1
  · exact .inr (List.mem_singleton.1 new)

theorem mem_tryEmplace (member : p ∈ m.tryEmplace key value) : p ∈ m ∨ p = (key, value) := by
  unfold Map.tryEmplace at member
  split at member
  · exact .inl member
  · exact (List.mem_append.1 member).imp_right List.mem_singleton.1

theorem Covered.assign (covered : Covered qvars m M) : Covered qvars (m.assign key value) M := by
  obtain ⟨k, member, holds⟩ := covered
  refine ⟨k, ?_, holds⟩
  rw [Map.assign, List.map_append, List.mem_append]
  by_cases same : k = key
  · exact .inr (same ▸ List.mem_cons_self)
  · obtain ⟨p, inside, rfl⟩ := List.mem_map.1 member
    exact .inl (List.mem_map_of_mem (List.mem_filter.2 ⟨inside, decide_eq_true same⟩))

theorem covered_assign (holds : ForAll qvars key M) : Covered qvars (m.assign key value) M := by
  refine ⟨key, ?_, holds⟩
  rw [Map.assign, List.map_append]
  exact List.mem_append_right _ List.mem_cons_self

theorem Covered.tryEmplace
    (covered : Covered qvars m M) : Covered qvars (m.tryEmplace key value) M := by
  unfold Map.tryEmplace
  split
  · exact covered
  · obtain ⟨k, member, holds⟩ := covered
    refine ⟨k, ?_, holds⟩
    rw [List.map_append]
    exact List.mem_append_left _ member

theorem covered_tryEmplace
    (holds : ForAll qvars key M) : Covered qvars (m.tryEmplace key value) M := by
  unfold Map.tryEmplace
  split
  · next present => exact ⟨key, contains_iff.1 present, holds⟩
  · refine ⟨key, ?_, holds⟩
    rw [List.map_append]
    exact List.mem_append_right _ List.mem_cons_self

theorem mem_insertAll (other : Map) : ∀ m : Map, p ∈ m.insertAll other → p ∈ m ∨ p ∈ other := by
  induction other with
  | nil => exact fun m member => .inl member
  | cons q other ih =>
    intro m member
    rcases ih (m.tryEmplace q.1 q.2) member with early | late
    · rcases mem_tryEmplace early with old | rfl
      · exact .inl old
      · exact .inr List.mem_cons_self
    · exact .inr (List.mem_cons_of_mem q late)

theorem covered_insertAll (other : Map) : ∀ m : Map, Covered qvars m M ∨ Covered qvars other M →
      Covered qvars (m.insertAll other) M := by
  induction other with
  | nil =>
    rintro m (covered | ⟨key, none, -⟩)
    · exact covered
    · exact absurd none List.not_mem_nil
  | cons q other ih =>
    rintro m (covered | ⟨key, member, holds⟩)
    · exact ih _ (.inl covered.tryEmplace)
    · rcases List.mem_cons.1 member with rfl | inside
      · exact ih _ (.inl (covered_tryEmplace holds))
      · exact ih _ (.inr ⟨key, inside, holds⟩)

/-! ### One variable -/

theorem hasSort_bit (name : String) (b : BitVec 1) :
    (Expr.num 1 b).HasSort (maskVar name).sort := ⟨rfl, rfl⟩

theorem truth_bit (b : BitVec 1) :
    (subst e (maskVar name).expr (.num 1 b)).truth M = e.truth (M.set (maskVar name) b) :=
  truth_subst (c := maskVar name) (x := b) rfl (hasSort_bit name b) fun _ => rfl

theorem hasSort_isValue (b : BitVec 1) : (isValue (maskVar name) (.num 1 b)).HasSort .bool :=
  hasSort_eq.2 ⟨rfl, .bv 1, ⟨rfl, rfl⟩, ⟨rfl, rfl⟩⟩

theorem truth_isValue (b : BitVec 1) :
    (isValue (maskVar name) (.num 1 b)).truth M = true ↔ M.valueOf (maskVar name) = b := by
  rw [isValue, truth_eq]
  constructor
  · exact fun same => eq_of_heq (Value.bv.inj same).2
  · exact fun same => congrArg (Value.bv 1) same

theorem Valid.instance (valid : Valid T qvars e0 (e, v)) (unquantified : maskVar name ∉ qvars)
    (b : BitVec 1) (changed : subst e (maskVar name).expr (.num 1 b) ≠ e) :
    Valid T qvars e0 (S.simplify (subst e (maskVar name).expr (.num 1 b)),
      Expr.and v (isValue (maskVar name) (.num 1 b))) := by
  obtain ⟨taken, records⟩ := valid.records
  have replaced := hasSort_subst (hasSort_bit name b) valid.boolean
  have present : mentions (maskVar name) e = true := by
    by_contra absent
    exact changed (subst_of_absent rfl (Bool.eq_false_of_not_eq_true absent))
  refine ⟨S.sorted _ _ replaced, ⟨(name, b) :: taken, ?_, fun t member => ?_,
    hasSort_and_eq records.sorted (hasSort_isValue b), fun M => ?_⟩, fun M meets holds side => ?_⟩
  · refine List.nodup_cons.2 ⟨fun member => ?_, records.nodup⟩
    obtain ⟨t, inside, rfl⟩ := List.mem_map.1 member
    exact absurd present (by rw [records.gone t inside]; decide)
  · refine S.mentions _ _ (mentions_subst rfl ?_)
    rcases List.mem_cons.1 member with rfl | inside
    · exact .inl rfl
    · exact .inr (records.gone t inside)
  · rw [truth_and_eq records.sorted (hasSort_isValue b), Bool.and_eq_true, records.truth,
      truth_isValue, List.forall_mem_cons]
    exact and_comm
  · rw [truth_and_eq records.sorted (hasSort_isValue b), Bool.and_eq_true, truth_isValue] at side
    refine valid.sound M meets (fun N differ => ?_) side.1
    have same := holds N differ
    rw [truth_simplify S replaced (differ.fn ▸ meets), truth_bit] at same
    have value : N.valueOf (maskVar name) = b := (differ.valueOf unquantified).trans side.2
    rw [← value, Model.set_valueOf] at same
    exact same

theorem expand_valid
    (valid : Valid T qvars e0 (e, v)) (unquantified : maskVar name ∉ qvars) (values : List Expr) :
    (∀ value ∈ values, ∃ b, value = .num 1 b) → ∀ m : Map, (∀ p ∈ m, Valid T qvars e0 p) →
        ∀ p ∈ expand S (maskVar name) e v values m, Valid T qvars e0 p := by
  induction values with
  | nil => exact fun _ m each => each
  | cons value values ih =>
    intro bits m each
    obtain ⟨b, rfl⟩ := bits value List.mem_cons_self
    have rest := ih fun value member => bits value (List.mem_cons_of_mem _ member)
    rw [expand]
    split
    · next same =>
        intro p member
        rcases mem_assign member with old | rfl
        · exact each p old
        · rw [same]
          exact valid
    next changed =>
    dsimp only
    split
    · exact rest m each
    · refine rest _ fun p member => ?_
      rcases mem_tryEmplace member with old | rfl
      · exact each p old
      · exact valid.instance S unquantified b changed

theorem Covered.expand (values : List Expr) :
    ∀ m : Map, Covered qvars m M → Covered qvars (expand S (maskVar name) e v values m) M := by
  induction values with
  | nil => exact fun m covered => covered
  | cons value values ih =>
    intro m covered
    rw [Instances.expand]
    split
    · exact covered.assign
    · dsimp only
      split
      · exact ih m covered
      · exact ih _ covered.tryEmplace

theorem covered_expand (boolean : e.HasSort .bool) (unquantified : maskVar name ∉ qvars)
    (meets : T.meets M.fn) (holds : ForAll qvars e M) {b : BitVec 1}
    (known : M.valueOf (maskVar name) = b) (values : List Expr) :
    .num 1 b ∈ values →
      ∀ m : Map, Covered qvars (Instances.expand S (maskVar name) e v values m) M := by
  induction values with
  | nil => exact fun none => absurd none List.not_mem_nil
  | cons value values ih =>
    intro member m
    rw [Instances.expand]
    split
    · next same => exact covered_assign (same.symm ▸ holds)
    dsimp only
    rcases List.mem_cons.1 member with rfl | later
    · -- the value of the variable: the instance holds, and is not `false`
      have replaced := hasSort_subst (hasSort_bit name b) boolean
      have instance_holds :
          ForAll qvars (S.simplify (subst e (maskVar name).expr (.num 1 b))) M := by
        intro N differ
        have value : N.valueOf (maskVar name) = b := (differ.valueOf unquantified).trans known
        rw [truth_simplify S replaced (differ.fn ▸ meets), truth_bit, ← value, Model.set_valueOf]
        exact holds N differ
      split
      · next absurdity =>
          have contra := instance_holds M (.refl qvars M)
          rw [isFalse_iff.1 absurdity] at contra
          exact absurd contra Bool.false_ne_true
      · exact Covered.expand S values _ (covered_tryEmplace instance_holds)
    · split
      · exact ih later m
      · exact ih later _

theorem mem_nums (b : BitVec 1) : .num 1 b ∈ nums := by
  have cases : b = 0 ∨ b = 1 := by
    revert b
    decide
  rcases cases with rfl | rfl
  · exact List.mem_cons_self
  · exact List.mem_cons_of_mem _ List.mem_cons_self

/-- The instances are those of a formula, and one of them holds wherever it does. -/
structure Represents (T : Theory) (qvars : List Const) (e0 : Expr) (m : Map) : Prop where
  valid : ∀ p ∈ m, Valid T qvars e0 p
  covered : ∀ M, T.meets M.fn → ForAll qvars e0 M → Covered qvars m M

theorem Represents.order
    (represents : Represents T qvars e0 m) : Represents T qvars e0 (runtime.order m) where
  valid p member := represents.valid p ((runtime.perm m).mem_iff.1 member)
  covered M meets holds := by
    obtain ⟨key, member, inner⟩ := represents.covered M meets holds
    exact ⟨key, ((runtime.perm m).map Prod.fst).mem_iff.2 member, inner⟩

theorem expandAll_represents (unquantified : maskVar name ∉ qvars) (rest : Map) :
    ∀ (calls : Nat) (m : Map), (∀ p ∈ rest, Valid T qvars e0 p) → (∀ p ∈ m, Valid T qvars e0 p) →
      (∀ M, T.meets M.fn → ForAll qvars e0 M → Covered qvars m M ∨ Covered qvars rest M) →
      Represents T qvars e0 (expandAll S runtime (maskVar name) calls rest m).2 := by
  induction rest with
  | nil =>
    intro calls m _ valid covered
    refine ⟨valid, fun M meets holds => ?_⟩
    rcases covered M meets holds with done | ⟨key, none, -⟩
    · exact done
    · exact absurd none List.not_mem_nil
  | cons p rest ih =>
    intro calls m valid_rest valid covered
    obtain ⟨e, v⟩ := p
    rw [expandAll]
    split
    · refine ⟨fun p member => ?_, fun M meets holds =>
        covered_insertAll _ m (covered M meets holds)⟩
      rcases mem_insertAll _ m member with old | new
      · exact valid p old
      · exact valid_rest p new
    · have first := valid_rest (e, v) List.mem_cons_self
      refine ih _ _ (fun p member => valid_rest p (List.mem_cons_of_mem _ member))
        (expand_valid S first unquantified nums (fun value member => ?_) m valid)
        fun M meets holds => ?_
      · rcases List.mem_cons.1 member with rfl | member
        · exact ⟨_, rfl⟩
        · cases List.mem_singleton.1 member
          exact ⟨_, rfl⟩
      · rcases covered M meets holds with done | ⟨key, member, inner⟩
        · exact .inl (done.expand S nums m)
        · rcases List.mem_cons.1 member with rfl | inside
          · exact .inl (covered_expand S first.boolean unquantified meets inner rfl nums
              (mem_nums _) m)
          · exact .inr ⟨key, inside, inner⟩

theorem visitMask_represents {state : Nat × Map} (unquantified : maskVar name ∉ qvars)
    (represents : Represents T qvars e0 state.2) :
    Represents T qvars e0 (visitMask S runtime name state).2 := by
  unfold visitMask
  split
  · exact represents
  split
  · exact represents
  · have ordered := represents.order runtime
    exact expandAll_represents S runtime unquantified _ _ [] ordered.valid (List.forall_mem_nil _)
      fun M meets holds => .inr (ordered.covered M meets holds)

def Unquantified (inputs : List Input) (qvars : List Const) : Prop :=
  ∀ input ∈ inputs, ∀ leaf ∈ mkInputLeaves [] 0 input.ty,
    maskVar (undefVarName input.smtName input.ty leaf.child) ∉ qvars

theorem instances_represents (inputs : List Input) :
    ∀ state : Nat × Map, Unquantified inputs qvars → Represents T qvars e0 state.2 →
      Represents T qvars e0 (instances S runtime inputs state).2 := by
  induction inputs with
  | nil => exact fun state _ represents => represents
  | cons input inputs ih =>
    intro state unquantified represents
    refine ih _ (fun other member => unquantified other (List.mem_cons_of_mem input member)) ?_
    dsimp only
    rw [instantiateUndef_eq _ _ _ [] 0]
    have leaves := unquantified input List.mem_cons_self
    -- the leaves of one input
    have general : ∀ (todo : List Leaf) (state : Nat × Map),
        (∀ leaf ∈ todo, leaf ∈ mkInputLeaves [] 0 input.ty) →
        Represents T qvars e0 state.2 →
        Represents T qvars e0 (todo.foldl (fun state leaf => visitMask S runtime
          (undefVarName input.smtName input.ty leaf.child) state) state).2 := by
      intro todo
      induction todo with
      | nil => exact fun state _ represents => represents
      | cons leaf todo ih =>
        intro state inside represents
        exact ih _ (fun other member => inside other (List.mem_cons_of_mem leaf member))
          (visitMask_represents S runtime (leaves leaf (inside leaf List.mem_cons_self)) represents)
    exact general _ state (fun leaf member => member) represents

theorem disjunction_spec (m : Map) :
    (∀ p ∈ m, p.1.HasSort .bool ∧ p.2.HasSort .bool) → T.meets M.fn →
      ((disjunction qvars m).truth M = true ↔
        ∃ p ∈ m, ForAll qvars p.1 M ∧ p.2.truth M = true) := by
  have general : ∀ (m : Map) (insts : Expr), insts.HasSort .bool →
      (∀ p ∈ m, p.1.HasSort .bool ∧ p.2.HasSort .bool) → T.meets M.fn →
        ((m.foldl (fun insts p => Expr.or insts (Expr.and (mkForAll qvars p.1) p.2))
            insts).truth M = true ↔
          insts.truth M = true ∨ ∃ p ∈ m, ForAll qvars p.1 M ∧ p.2.truth M = true) := by
    intro m
    induction m with
    | nil =>
      intro insts _ _ _
      simp
    | cons p m ih =>
      intro insts sorted each meets
      obtain ⟨left, right⟩ := each p List.mem_cons_self
      have inner := hasSort_and_eq (hasSort_mkForAll qvars left) right
      rw [List.foldl_cons, ih _ (hasSort_or_eq sorted inner)
        (fun q member => each q (List.mem_cons_of_mem p member)) meets,
        truth_or_eq sorted inner, truth_and_eq (hasSort_mkForAll qvars left) right,
        Bool.or_eq_true, Bool.and_eq_true, truth_mkForAll left meets, List.exists_mem_cons_iff,
        or_assoc]
      rfl
  intro each meets
  rw [disjunction, general m _ (hasSort_boolConst false) each meets]
  exact or_iff_right Bool.false_ne_true

end

/-- What `preprocess` returns can be satisfied if and only if `forall qvars. e` can, and each of
its models is one of `forall qvars. e`. Such a model has the recorded values of the masks. -/
theorem preprocess_equisatisfiable
    {T : Theory} (S : Simplifier T) (runtime : Runtime) (disableUndefInput : Bool)
    (inputs : List Input) (qvars0 undefQvars : List Const) (e : Expr) (boolean : e.HasSort .bool)
    (unquantified : Unquantified inputs qvars0) :
    ((∃ M, T.meets M.fn ∧
        (preprocess S runtime disableUndefInput inputs qvars0 undefQvars e).truth M = true) ↔
      ∃ M, T.meets M.fn ∧ ForAll qvars0 e M) ∧
    ∀ M, T.meets M.fn →
      (preprocess S runtime disableUndefInput inputs qvars0 undefQvars e).truth M = true →
        ForAll qvars0 e M := by
  have plain : ∀ (qvars : List Const) (f : Expr), f.HasSort .bool → ∀ M : Model, T.meets M.fn →
      ((mkForAll qvars f).truth M = true ↔ ForAll qvars f M) :=
    fun qvars f sorted M meets => truth_mkForAll sorted meets
  unfold preprocess
  split
  · refine ⟨exists_congr fun M => and_congr_right (plain _ _ boolean M), fun M meets => ?_⟩
    exact (plain _ _ boolean M meets).1
  dsimp only
  obtain ⟨sorted, fewer, same⟩ := eliminate_spec S runtime qvars0 1 0 e boolean
  split
  · refine ⟨exists_congr fun M => and_congr_right fun meets =>
      (plain _ _ sorted M meets).trans (same M meets), fun M meets holds => ?_⟩
    exact (same M meets).1 ((plain _ _ sorted M meets).1 holds)
  · -- one instance, the formula itself
    have start : Represents T (eliminate S runtime qvars0 1 0 e).qvars
        (eliminate S runtime qvars0 1 0 e).e
        [((eliminate S runtime qvars0 1 0 e).e, .bool true)] := by
      refine ⟨fun p member => ?_, fun M _ holds => ⟨_, List.mem_cons_self, holds⟩⟩
      cases List.mem_singleton.1 member
      refine ⟨sorted, ⟨[], List.nodup_nil, fun t none => absurd none List.not_mem_nil,
        hasSort_boolConst true, fun M => ?_⟩, fun M _ holds _ => holds⟩
      exact ⟨fun _ t none => absurd none List.not_mem_nil, fun _ => rfl⟩
    have represents := (instances_represents S runtime inputs
      ((eliminate S runtime qvars0 1 0 e).calls + 1, [((eliminate S runtime qvars0 1 0 e).e, _)])
      (fun input member leaf inside quantified =>
        unquantified input member leaf inside (fewer _ quantified)) start).order runtime
    have sorts : ∀ p ∈ runtime.order (instances S runtime inputs
        ((eliminate S runtime qvars0 1 0 e).calls + 1,
          [((eliminate S runtime qvars0 1 0 e).e, .bool true)])).2,
        p.1.HasSort .bool ∧ p.2.HasSort .bool := by
      intro p member
      have valid := represents.valid p member
      obtain ⟨taken, records⟩ := valid.records
      exact ⟨valid.boolean, records.sorted⟩
    have sound : ∀ M, T.meets M.fn → _ → ForAll qvars0 e M := fun M meets holds => by
      obtain ⟨p, member, inner, side⟩ := (disjunction_spec _ sorts meets).1 holds
      exact (same M meets).1 ((represents.valid p member).sound M meets inner side)
    refine ⟨⟨?_, ?_⟩, sound⟩
    · rintro ⟨M, meets, holds⟩
      exact ⟨M, meets, sound M meets holds⟩
    · rintro ⟨M, meets, holds⟩
      obtain ⟨key, member, inner⟩ := represents.covered M meets ((same M meets).2 holds)
      obtain ⟨p, inside, rfl⟩ := List.mem_map.1 member
      obtain ⟨N, meets, inner, side⟩ := (represents.valid p inside).satisfiable meets inner
      exact ⟨N, meets, (disjunction_spec _ sorts meets).2 ⟨p, inside, inner, side⟩⟩

def quantifiers : Theory where
  meets fn := ∀ (domain : Srt) (holds : domain.Val → Bool),
    (fn "forall" [.array domain .bool holds] .bool : Bool) = true ↔ ∀ i, holds i = true
  forAll _ meets := meets

def foldEq : Expr → Expr
  | .app .eq [.num v a, .num w b] => .bool (v == w && a.toNat == b.toNat)
  | e => e

theorem foldEq_cases (e : Expr) : foldEq e = e ∨ ∃ v a w b, e = .app .eq [.num v a, .num w b] ∧
      foldEq e = .bool (v == w && a.toNat == b.toNat) := by
  unfold foldEq
  split
  · exact .inr ⟨_, _, _, _, rfl, rfl⟩
  · exact .inl rfl

def foldingSimplifier : Simplifier quantifiers where
  simplify := foldEq
  sorted e s sorted := by
    rcases foldEq_cases e with same | ⟨v, a, w, b, rfl, folded⟩
    · rw [same]
      exact sorted
    · rw [folded]
      exact ⟨rfl, sorted.sort_eq⟩
  equal e M _ _ := by
    rcases foldEq_cases e with same | ⟨v, a, w, b, rfl, folded⟩
    · rw [same]
    · rw [folded]
      rfl
  mentions c e absent := by
    rcases foldEq_cases e with same | ⟨v, a, w, b, rfl, folded⟩
    · rw [same]
      exact absent
    · rw [folded]
      rfl

def unlimited : Runtime where
  order m := m
  perm m := .refl m
  limit _ := false

/-- The input `i8 %a`. -/
def byteInput : Input := ⟨"%a", .scalar (.integer 8)⟩

def boolConst : Const := ⟨"b", .bool, rfl⟩

/-- `isundef_%a == 0`. -/
def notUndef : Expr := isValue (maskVar "isundef_%a") (mkUInt 0 1)

theorem preprocess_equisatisfiable_mask :
    ((∃ M : Model, quantifiers.meets M.fn ∧ (preprocess foldingSimplifier unlimited false
        [byteInput] [boolConst] [boolConst] notUndef).truth M = true) ↔
      ∃ M : Model, quantifiers.meets M.fn ∧ ForAll [boolConst] notUndef M) ∧
    ∀ M : Model, quantifiers.meets M.fn → (preprocess foldingSimplifier unlimited false
      [byteInput] [boolConst] [boolConst] notUndef).truth M = true →
        ForAll [boolConst] notUndef M := by
  refine preprocess_equisatisfiable foldingSimplifier unlimited false [byteInput] [boolConst]
    [boolConst] notUndef (hasSort_isValue 0) fun input member leaf inside => ?_
  cases List.mem_singleton.1 member
  cases List.mem_singleton.1 inside
  decide

/-- The value 1 of the mask is dropped. -/
example : preprocess foldingSimplifier unlimited false [byteInput] [boolConst] [boolConst]
    notUndef = Expr.or (.bool false) (Expr.and (.bool true) (Expr.and (.bool true) notUndef)) := by
  decide

end AliveNext.Tools.Instances
