import AliveNext.Smt.Choice
import AliveNext.Smt.Compose

/-!
# Decomposition into disjoint cases

`DisjointExpr<expr>` takes a term apart at its conditionals, also below
concatenations and extracts, into values under disjoint domains.
-/

namespace AliveNext.Smt

namespace DisjointExpr

/-! ## The constructor -/

/-- `(bvadd Z ((_ extract ..) (ite cond X Y)))` with the branch that the condition
chooses. -/
def simplifyAdd (z : Z3) (cond : Expr) (negate : Bool) (a b : Expr) : Option Expr :=
  match b.isExtract with
  | some (sub, high, low) =>
    match sub.isIf with
    | some (ifcond, then_, els) =>
      if ifcond = cond then
        some (Expr.add z a (Expr.extract z (if negate then els else then_) high low 3))
      else none
    | none => none
  | none => none

/-- `simplify`, where the condition holds, or with `negate` fails. -/
def simplify (z : Z3) (e cond : Expr) (negate : Bool) : Expr :=
  match e.isAdd with
  | some (a, b) => ((simplifyAdd z cond negate a b).or (simplifyAdd z cond negate b a)).getD e
  | none => e

def decided (domain : Expr) : Expr × Bool :=
  match domain.isNot with
  | some cond => (cond, true)
  | none => (domain, false)

/-- The cases of a concatenation for one case of the left half. The right half is
the one with the same domain, or each one, simplified, under both domains. -/
def rightCases (z : Z3) (c : Expr) (rhs : DisjointExpr Expr) (left : Expr × Expr) :
    List (Expr × Expr) :=
  match rhs.lookup left.2 with
  | some rhsVal => [(Expr.concat z left.1 rhsVal, Expr.and c left.2)]
  | none =>
    rhs.vals.entries.map fun right =>
      (Expr.concat z left.1 (simplify z right.1 (decided left.2).1 (decided left.2).2),
        Expr.and (Expr.and c left.2) right.2)

def concatCases (z : Z3) (c : Expr) (lhs rhs : DisjointExpr Expr) : List (Expr × Expr) :=
  lhs.vals.entries.flatMap (rightCases z c rhs)

def extractCases (z : Z3) (c : Expr) (high low : Nat) (cases : DisjointExpr Expr) :
    List (Expr × Expr) :=
  cases.vals.entries.map fun entry => (Expr.extract z entry.1 high low 3, Expr.and c entry.2)

/-- What becomes of a term of the worklist: the terms to look at, and the cases to
add. The halves of a concatenation are decomposed by `inner`. -/
def visit (z : Z3) (inner : Nat → Expr → DisjointExpr Expr) (v c : Expr) :
    List (Expr × Expr) × List (Expr × Expr) :=
  match v.isIf with
  | some (cond, then_, els) =>
    ([(els, Expr.and c (Expr.not cond)), (then_, Expr.and c cond)], [])
  | none =>
    match Expr.isConcatOf z v with
    | some (a, b) =>
      let lhs := inner 0 a
      let rhs := inner 1 b
      if lhs.size = 1 ∧ rhs.size = 1 then ([], [(v, c)])
      else ([], concatCases z c lhs rhs)
    | none =>
      match v.isExtract with
      | some (a, high, low) =>
        let cases := inner 0 a
        if cases.size = 1 then ([], [(v, c)])
        else ([], extractCases z c high low cases)
      | none => ([], [(v, c)])

/-- The loop over the worklist, with a number of rounds at most. The top of the
worklist is its head; `hit` says in which round memory is short. -/
def explore (z : Z3) (hit : Nat → Bool) (inner : Nat → Nat → Expr → DisjointExpr Expr) :
    Nat → List (Expr × Expr) → DisjointExpr Expr → Option (DisjointExpr Expr)
  | 0, _, _ => none
  | _ + 1, [], vals => some vals
  | n + 1, (v, c) :: rest, vals =>
    if rest.length + 1 + vals.size ≥ 32 ∨ hit n then
      some (vals.addEach z.less ((v, c) :: rest).reverse)
    else
      let (pushed, added) := visit z (inner n) v c
      explore z hit inner n (pushed ++ rest) (vals.addEach z.less added)

/-- `DisjointExpr<expr>::DisjointExpr`. Whether memory is short is asked once for each
round of each call: `hit` is given the rounds and sides that lead to the call. -/
def decompose (z : Z3) : (depth : Nat) → (hit : List Nat → Bool) → Expr → DisjointExpr Expr
  | 0, _, e => add z.less {} e (.bool true)
  | depth + 1, hit, e =>
    (explore z (fun n => hit [n])
      (fun n side => decompose z depth fun path => hit (n :: side :: path))
      (e.size + 1) [(e, .bool true)] {}).getD {}

/-! ## The cases of a term -/

def Means (M : Model) (t e : Expr) : Prop :=
  e.NonzeroDivisors M → t.NonzeroDivisors M ∧ t.eval M = e.eval M

/-- In every model one domain is true, and its value is that of the term. -/
structure Cases (entries : List (Expr × Expr)) (e : Expr) (s : Srt) : Prop where
  conditions : Conditions entries
  sorts : ∀ t ∈ entries.map Prod.fst, t.HasSort s
  single : ∀ M, ∃ t, picked M entries = [t] ∧ Means M t e

structure CasesUnder (entries : List (Expr × Expr)) (c e : Expr) (s : Srt) : Prop where
  conditions : Conditions entries
  sorts : ∀ t ∈ entries.map Prod.fst, t.HasSort s
  unpicked : ∀ M, c.truth M = false → picked M entries = []
  single : ∀ M, c.truth M = true → ∃ t, picked M entries = [t] ∧ Means M t e

section

variable {e t c : Expr} {s : Srt} {M : Model} {entries rest pieces : List (Expr × Expr)}

theorem Means.refl (M : Model) (e : Expr) : Means M e e := fun safe => ⟨safe, rfl⟩

theorem Means.trans {u : Expr} (first : Means M t u) (second : Means M u e) : Means M t e := by
  intro safe
  obtain ⟨safe', value⟩ := second safe
  obtain ⟨safe'', value'⟩ := first safe'
  exact ⟨safe'', value'.trans value⟩

theorem Means.of_stands (stands : t.StandsFor e) : Means M t e :=
  fun safe => ⟨stands.safe M safe, stands.eval_eq M safe⟩

theorem Means.pair {op : Op} {a b a' b' : Expr} (other : op ≠ .bv .urem) (first : Means M a' a)
    (second : Means M b' b) : Means M (.app op [a', b']) (.app op [a, b]) := by
  intro safe
  have parts := (Expr.safe_app other).1 safe
  rw [Expr.safe_pair] at parts
  obtain ⟨safeA, valueA⟩ := first parts.1
  obtain ⟨safeB, valueB⟩ := second parts.2
  refine ⟨(Expr.safe_app other).2 (Expr.safe_pair.2 ⟨safeA, safeB⟩), ?_⟩
  simp only [Expr.eval, Expr.evals, valueA, valueB]

theorem Means.single {op : Op} {a a' : Expr} (other : op ≠ .bv .urem)
    (first : Means M a' a) : Means M (.app op [a']) (.app op [a]) := by
  intro safe
  have parts := (Expr.safe_app other).1 safe
  rw [Expr.safe_single] at parts
  obtain ⟨safeA, valueA⟩ := first parts
  refine ⟨(Expr.safe_app other).2 (Expr.safe_single.2 safeA), ?_⟩
  simp only [Expr.eval, Expr.evals, valueA]

theorem Cases.perm (cases : Cases entries e s) (same : entries.Perm rest) : Cases rest e s where
  conditions := (conditions_perm same).1 cases.conditions
  sorts t member := cases.sorts t (((same.map Prod.fst).mem_iff).2 member)
  single M := by
    obtain ⟨t, single, means⟩ := cases.single M
    have perm := picked_perm (M := M) same
    rw [single] at perm
    exact ⟨t, perm.symm.eq_singleton, means⟩

theorem Cases.split (cases : Cases ((t, c) :: rest) e s)
    (under : CasesUnder pieces c t s) : Cases (pieces ++ rest) e s where
  conditions := conditions_append.2 ⟨under.conditions, (conditions_cons.1 cases.conditions).2⟩
  sorts := by
    have sorts := cases.sorts
    rw [List.map_cons, List.forall_mem_cons] at sorts
    rw [List.map_append, List.forall_mem_append]
    exact ⟨under.sorts, sorts.2⟩
  single M := by
    obtain ⟨u, single, means⟩ := cases.single M
    rw [picked_cons] at single
    rw [picked_append]
    by_cases holds : c.truth M = true
    · rw [if_pos holds, List.cons.injEq] at single
      obtain ⟨rfl, none_left⟩ := single
      obtain ⟨v, picks, means'⟩ := under.single M holds
      exact ⟨v, by rw [picks, none_left]; rfl, means'.trans means⟩
    · rw [if_neg holds] at single
      rw [Bool.not_eq_true] at holds
      exact ⟨u, by rw [under.unpicked M holds, single]; rfl, means⟩

theorem Cases.addEach {z : Z3} {vals : DisjointExpr Expr}
    (cases : Cases (rest ++ (pieces ++ vals.vals.entries)) e s) :
    Cases (rest ++ (vals.addEach z.less pieces).vals.entries) e s := by
  obtain ⟨left, right⟩ := conditions_append.1 cases.conditions
  obtain ⟨sorted, conditions⟩ := conditions_append.1 right
  refine ⟨conditions_append.2 ⟨left, conditions_addEach conditions sorted⟩, ?_, fun M => ?_⟩
  · intro t member
    apply cases.sorts t
    rw [List.map_append, List.mem_append] at member ⊢
    rw [List.map_append, List.mem_append]
    exact member.imp id mem_addEach
  · obtain ⟨t, single, means⟩ := cases.single M
    refine ⟨t, ?_, means⟩
    rw [picked_append] at single ⊢
    have total := congrArg List.length single
    rw [List.length_append, List.length_singleton] at total
    rw [picked_addEach conditions sorted (by omega), single]

theorem casesUnder_self
    (sorted : c.HasSort .bool) (sortedE : e.HasSort s) : CasesUnder [(e, c)] c e s where
  conditions := conditions_cons.2 ⟨sorted, List.forall_mem_nil _⟩
  sorts := List.forall_mem_singleton.2 sortedE
  unpicked M fails := by rw [picked_cons, fails]; rfl
  single M holds := ⟨e, by rw [picked_cons, if_pos holds]; rfl, .refl M e⟩

end

section

variable (z : Z3) {a b c cond e t v : Expr} {s : Srt} {M : Model} {negate : Bool}

variable {then_ els domain : Expr} {w : Nat} {entries : List (Expr × Expr)}
  {rhs : DisjointExpr Expr}

theorem chosen_branch (negate : Bool) (truth : cond.truth M = !negate) :
    Means M (if negate then els else then_) (.app .ite [cond, then_, els]) := by
  intro safe
  have parts := (Expr.safe_app (by simp)).1 safe
  rw [Expr.safe_triple] at parts
  rw [Expr.eval_ite, truth]
  cases negate with
  | false => exact ⟨parts.2.1, rfl⟩
  | true => exact ⟨parts.2.2, rfl⟩

theorem add_means (left : a.HasSort (.bv w)) (right : b.HasSort (.bv w)) :
    (Expr.add z a b).HasSort (.bv w) ∧ ∀ M, Means M (Expr.add z a b) (.app (.bv .add) [a, b]) := by
  have flattens : BvOp.add.flattens = true := rfl
  have sum := Expr.operator_denotes z flattens left right
  have whole : Expr.HasSort (.app (.bv .add) [a, b]) (.bv w) := Expr.hasSort_bv.2 ⟨left, right⟩
  refine ⟨sum.sorted, fun M safe => ?_⟩
  have parts := (Expr.safe_app (by simp)).1 safe
  refine ⟨sum.safe M parts, ?_⟩
  rw [Expr.add, sum.sorted.eval_bv M, whole.eval_bv M, sum.value M parts, Expr.bv_bv M left]

theorem simplifyAdd_spec (left : a.HasSort (.bv w)) (right : b.HasSort (.bv w))
    (known : simplifyAdd z cond negate a b = some t) :
    t.HasSort (.bv w) ∧ ∀ M, cond.truth M = (!negate) → Means M t (.app (.bv .add) [a, b]) := by
  unfold simplifyAdd at known
  split at known
  · next sub high low shape =>
    rw [Expr.isExtract_eq_some] at shape
    subst shape
    split at known
    · next ifcond then_ els shape =>
      rw [Expr.isIf_eq_some] at shape
      subst shape
      split at known
      · next same =>
        subst same
        cases known
        obtain ⟨width, ordered, u, inside, sortedIf⟩ := Expr.hasSort_extract.1 right
        obtain ⟨-, sortedThen, sortedEls⟩ := Expr.hasSort_ite.1 sortedIf
        have sortedBranch : (if negate = true then els else then_).HasSort (.bv u) := by
          cases negate with
          | false => exact sortedThen
          | true => exact sortedEls
        have extracted := (Expr.extract_answer z 3 sortedBranch ordered inside).1.stands
        have sortedPart : (Expr.extract z (if negate = true then els else then_) high low 3).HasSort
            (.bv w) := by
          rw [width]
          exact extracted.sorted _ (sortedBranch.extract ordered inside)
        have sum := add_means z left sortedPart
        refine ⟨sum.1, fun M truth => (sum.2 M).trans (Means.pair (by simp) (.refl M a) ?_)⟩
        exact (Means.of_stands extracted).trans
          (Means.single (by simp) (chosen_branch negate truth))
      · cases known
    · cases known
  · cases known

theorem simplify_spec (sorted : e.HasSort s) : (simplify z e cond negate).HasSort s ∧
      ∀ M, cond.truth M = (!negate) → Means M (simplify z e cond negate) e := by
  unfold simplify
  split
  · next a b shape =>
    have shape : e = .app (.bv .add) [a, b] := Expr.isBinOp_eq_some.1 shape
    subst shape
    obtain ⟨w, rfl⟩ := Expr.exists_width sorted
    obtain ⟨left, right⟩ := Expr.hasSort_bv.1 sorted
    cases first : simplifyAdd z cond negate a b with
    | some t => exact simplifyAdd_spec z left right first
    | none =>
      cases second : simplifyAdd z cond negate b a with
      | some t =>
        obtain ⟨sortedT, means⟩ := simplifyAdd_spec z right left second
        refine ⟨sortedT, fun M truth => (means M truth).trans fun safe => ?_⟩
        rw [Expr.safe_app (by simp), Expr.safe_pair] at safe ⊢
        refine ⟨safe.symm, ?_⟩
        have swapped : Expr.HasSort (.app (.bv .add) [b, a]) (.bv w) :=
          Expr.hasSort_bv.2 ⟨right, left⟩
        rw [swapped.eval_bv M, sorted.eval_bv M, Expr.bv_bv M right, Expr.bv_bv M left]
        simp only [BvOp.denote, BitVec.add_comm]
      | none => exact ⟨sorted, fun M _ => .refl M _⟩
  · exact ⟨sorted, fun M _ => .refl M e⟩

theorem ite_under (sorted : Expr.HasSort (.app .ite [cond, then_, els]) s)
    (condition : c.HasSort .bool) :
    CasesUnder [(els, Expr.and c (Expr.not cond)), (then_, Expr.and c cond)] c
      (.app .ite [cond, then_, els]) s := by
  obtain ⟨sortedCond, sortedThen, sortedEls⟩ := Expr.hasSort_ite.1 sorted
  have sortedNot := Expr.hasSort_not_eq sortedCond
  have truths : ∀ M, (Expr.and c cond).truth M = (c.truth M && cond.truth M) ∧
      (Expr.and c (Expr.not cond)).truth M = (c.truth M && !cond.truth M) := by
    intro M
    rw [Expr.truth_and_eq condition sortedCond, Expr.truth_and_eq condition sortedNot,
      Expr.truth_not_eq sortedCond]
    exact ⟨rfl, rfl⟩
  refine ⟨?_, ?_, fun M fails => ?_, fun M holds => ?_⟩
  · exact conditions_cons.2 ⟨Expr.hasSort_and_eq condition sortedNot,
      conditions_cons.2 ⟨Expr.hasSort_and_eq condition sortedCond, List.forall_mem_nil _⟩⟩
  · exact List.forall_mem_cons.2 ⟨sortedEls, List.forall_mem_singleton.2 sortedThen⟩
  · rw [picked_cons, picked_cons, (truths M).1, (truths M).2, fails]
    rfl
  · rw [picked_cons, picked_cons, (truths M).1, (truths M).2, holds, Bool.true_and, Bool.true_and]
    cases truth : cond.truth M with
    | true => exact ⟨then_, rfl, chosen_branch false truth⟩
    | false => exact ⟨els, rfl, chosen_branch true truth⟩

theorem extractCases_under {high low : Nat} {cases : DisjointExpr Expr} (ordered : low ≤ high)
    (inside : high < w) (condition : c.HasSort .bool) (split : Cases cases.vals.entries a (.bv w)) :
    CasesUnder (extractCases z c high low cases) c (.app (.extract high low) [a])
      (.bv (high - low + 1)) := by
  have picks : ∀ M, picked M (extractCases z c high low cases) =
      if c.truth M then (picked M cases.vals.entries).map (Expr.extract z · high low 3) else [] :=
    fun M => picked_map_and (fun t => Expr.extract z t high low 3) condition split.conditions
  have extracted : ∀ t, t.HasSort (.bv w) →
      (Expr.extract z t high low 3).StandsFor (.app (.extract high low) [t]) :=
    fun t sorted => (Expr.extract_answer z 3 sorted ordered inside).1.stands
  refine ⟨?_, ?_, fun M fails => ?_, fun M holds => ?_⟩
  · intro entry member
    obtain ⟨old, present, rfl⟩ := List.mem_map.1 member
    exact Expr.hasSort_and_eq condition (split.conditions old present)
  · intro t member
    rw [extractCases, List.map_map] at member
    obtain ⟨old, present, rfl⟩ := List.mem_map.1 member
    have sorted := split.sorts _ (List.mem_map_of_mem present)
    exact (extracted _ sorted).sorted _ (sorted.extract ordered inside)
  · rw [picks M, fails]
    rfl
  · obtain ⟨t, single, means⟩ := split.single M
    have member : t ∈ cases.vals.entries.map Prod.fst := by
      obtain ⟨d, present, -⟩ := mem_picked.1 (single ▸ List.mem_singleton_self t)
      exact List.mem_map_of_mem present
    refine ⟨Expr.extract z t high low 3, ?_, ?_⟩
    · rw [picks M, if_pos holds, single]
      rfl
    · exact (Means.of_stands (extracted t (split.sorts t member))).trans
        (Means.single (by simp) means)

theorem decided_spec
    (holds : domain.truth M = true) : (decided domain).1.truth M = !(decided domain).2 := by
  unfold decided
  split
  · next neg shape =>
    rw [Expr.isNot_eq_some.1 shape, Expr.truth_not, Bool.not_eq_true'] at holds
    exact holds
  · exact holds

theorem concat_means {t u : Expr} {v : Nat} (left : t.HasSort (.bv v)) (right : u.HasSort (.bv w))
    (first : Means M t a)
    (second : Means M u b) : Means M (Expr.concat z t u) (.app .concat [a, b]) :=
  (Means.of_stands (Expr.concat_answer z left right).1.stands).trans
    (Means.pair (by simp) first second)

theorem hasSort_concat_of {t u : Expr} {v : Nat} (left : t.HasSort (.bv v))
    (right : u.HasSort (.bv w)) : (Expr.concat z t u).HasSort (.bv (v + w)) :=
  (Expr.concat_answer z left right).1.stands.sorted _ (left.concat right)

theorem mem_lookup {self : DisjointExpr Expr}
    (known : self.lookup domain = some t) : (t, domain) ∈ self.vals.entries := by
  obtain ⟨entry, found, rfl⟩ := Option.map_eq_some_iff.1 known
  have same := List.find?_some found
  rw [decide_eq_true_iff] at same
  subst same
  exact List.mem_of_find?_eq_some found

theorem Cases.picked_of_mem (cases : Cases entries e s) (member : (t, domain) ∈ entries)
    (holds : domain.truth M = true) : picked M entries = [t] ∧ Means M t e := by
  obtain ⟨u, single, means⟩ := cases.single M
  have chosen := mem_picked.2 ⟨domain, member, holds⟩
  rw [single, List.mem_singleton] at chosen
  rw [chosen]
  exact ⟨single, means⟩

theorem rightCases_under {left : Expr × Expr} {v : Nat}
    (condition : c.HasSort .bool) (sortedDomain : left.2.HasSort .bool)
    (sorted : left.1.HasSort (.bv v)) (split : Cases rhs.vals.entries b (.bv w)) :
    CasesUnder (rightCases z c rhs left) (Expr.and c left.2) (.app .concat [left.1, b])
      (.bv (v + w)) := by
  have both := Expr.hasSort_and_eq condition sortedDomain
  unfold rightCases
  split
  · next rhsVal known =>
    have member := mem_lookup known
    have sortedVal := split.sorts _ (List.mem_map_of_mem member)
    have own := casesUnder_self both (hasSort_concat_of z sorted sortedVal)
    refine ⟨own.conditions, own.sorts, own.unpicked, fun M holds => ?_⟩
    obtain ⟨t, single, means⟩ := own.single M holds
    rw [Expr.truth_and_eq condition sortedDomain, Bool.and_eq_true] at holds
    refine ⟨t, single, means.trans ?_⟩
    exact concat_means z sorted sortedVal (.refl M _) (split.picked_of_mem member holds.2).2
  · have simplified : ∀ t, t.HasSort (.bv w) →
        (simplify z t (decided left.2).1 (decided left.2).2).HasSort (.bv w) ∧
          ∀ M, (decided left.2).1.truth M = (!(decided left.2).2) →
            Means M (simplify z t (decided left.2).1 (decided left.2).2) t :=
      fun t sortedT => simplify_spec z sortedT
    have picks := fun M => picked_map_and (M := M) (fun t => Expr.concat z left.1
      (simplify z t (decided left.2).1 (decided left.2).2)) both split.conditions
    refine ⟨?_, ?_, fun M fails => ?_, fun M holds => ?_⟩
    · intro entry member
      obtain ⟨old, present, rfl⟩ := List.mem_map.1 member
      exact Expr.hasSort_and_eq both (split.conditions old present)
    · intro t member
      rw [List.map_map] at member
      obtain ⟨old, present, rfl⟩ := List.mem_map.1 member
      exact hasSort_concat_of z sorted
        (simplified _ (split.sorts _ (List.mem_map_of_mem present))).1
    · rw [picks M, fails]
      rfl
    · obtain ⟨t, single, means⟩ := split.single M
      obtain ⟨d, present, -⟩ := mem_picked.1 (single ▸ List.mem_singleton_self t)
      have sortedT := split.sorts t (List.mem_map_of_mem present)
      refine ⟨_, by rw [picks M, if_pos holds, single]; rfl, ?_⟩
      rw [Expr.truth_and_eq condition sortedDomain, Bool.and_eq_true] at holds
      have spec := simplified t sortedT
      exact concat_means z sorted spec.1 (.refl M _) ((spec.2 M (decided_spec holds.2)).trans means)

theorem concatCases_under {lhs : DisjointExpr Expr} {v : Nat} (condition : c.HasSort .bool)
    (split : Cases lhs.vals.entries a (.bv v)) (split' : Cases rhs.vals.entries b (.bv w)) :
    CasesUnder (concatCases z c lhs rhs) c (.app .concat [a, b]) (.bv (v + w)) := by
  have each : ∀ left ∈ lhs.vals.entries, CasesUnder (rightCases z c rhs left)
      (Expr.and c left.2) (.app .concat [left.1, b]) (.bv (v + w)) :=
    fun left member => rightCases_under z condition (split.conditions left member)
      (split.sorts _ (List.mem_map_of_mem member)) split'
  have truths : ∀ left ∈ lhs.vals.entries, ∀ M,
      (Expr.and c left.2).truth M = (c.truth M && left.2.truth M) :=
    fun left member => Expr.truth_and_eq condition (split.conditions left member)
  refine ⟨?_, ?_, fun M fails => ?_, fun M holds => ?_⟩
  · intro entry member
    obtain ⟨left, present, given⟩ := List.mem_flatMap.1 member
    exact (each left present).conditions entry given
  · intro t member
    obtain ⟨entry, inside, rfl⟩ := List.mem_map.1 member
    obtain ⟨left, present, given⟩ := List.mem_flatMap.1 inside
    exact (each left present).sorts _ (List.mem_map_of_mem given)
  · rw [picked_eq_nil]
    intro entry member
    obtain ⟨left, present, given⟩ := List.mem_flatMap.1 member
    have none_left := (each left present).unpicked M (by rw [truths left present, fails]; rfl)
    exact picked_eq_nil.1 none_left entry given
  · obtain ⟨t, single, means⟩ := split.single M
    obtain ⟨d, member, truth, result⟩ := picked_flatMap (f := rightCases z c rhs)
      (fun left present fails => (each left present).unpicked M
        (by rw [truths left present, fails, Bool.and_false])) single
    obtain ⟨u, only, means'⟩ := (each _ member).single M
      (by rw [truths _ member, holds, truth]; rfl)
    exact ⟨u, result.trans only, means'.trans (Means.pair (by simp) means (.refl M b))⟩

theorem CasesUnder.of_means (under : CasesUnder entries c t s)
    (means : ∀ M, Means M t e) : CasesUnder entries c e s where
  conditions := under.conditions
  sorts := under.sorts
  unpicked := under.unpicked
  single M holds := by
    obtain ⟨u, single, means'⟩ := under.single M holds
    exact ⟨u, single, means'.trans (means M)⟩

theorem visit_spec {inner : Nat → Expr → DisjointExpr Expr}
    (inside : ∀ side sub t, sub.HasSort t → Cases (inner side sub).vals.entries sub t)
    (condition : c.HasSort .bool) (sorted : v.HasSort s) :
    CasesUnder ((visit z inner v c).1 ++ (visit z inner v c).2) c v s ∧
      ((visit z inner v c).1.map fun entry => entry.1.size).sum < v.size := by
  have own : CasesUnder ([] ++ [(v, c)]) c v s := casesUnder_self condition sorted
  have positive := v.size_pos
  unfold visit
  split
  · next cond then_ els shape =>
    rw [Expr.isIf_eq_some] at shape
    subst shape
    have total : Expr.size (.app .ite [cond, then_, els]) = cond.size + then_.size + els.size + 2 :=
      Expr.size_triple (by simp)
    refine ⟨ite_under sorted condition, ?_⟩
    simp only [List.map_cons, List.map_nil, List.sum_cons, List.sum_nil]
    omega
  split
  · next a b shape =>
    obtain ⟨-, -, stands, u, w, rfl, left, right⟩ := Expr.isConcatOf_spec z sorted shape
    dsimp only
    split
    · exact ⟨own, positive⟩
    · have under := concatCases_under z condition (inside 0 a _ left) (inside 1 b _ right)
      exact ⟨under.of_means fun M => .of_stands stands, positive⟩
  split
  · next a high low shape =>
    rw [Expr.isExtract_eq_some] at shape
    subst shape
    obtain ⟨rfl, ordered, w, bound, sortedA⟩ := Expr.hasSort_extract.1 sorted
    dsimp only
    split
    · exact ⟨own, positive⟩
    · exact ⟨extractCases_under z ordered bound condition (inside 0 a _ sortedA), positive⟩
  · exact ⟨own, positive⟩

theorem explore_spec {hit : Nat → Bool} {inner : Nat → Nat → Expr → DisjointExpr Expr} {n : Nat}
    {worklist : List (Expr × Expr)} {vals : DisjointExpr Expr}
    (inside : ∀ n side sub t, sub.HasSort t → Cases (inner n side sub).vals.entries sub t)
    (cases : Cases (worklist ++ vals.vals.entries) e s)
    (enough : (worklist.map fun entry => entry.1.size).sum < n) :
    ∃ result, explore z hit inner n worklist vals = some result ∧
      Cases result.vals.entries e s := by
  induction n generalizing worklist vals with
  | zero => exact absurd enough (Nat.not_lt_zero _)
  | succ n ih =>
    cases worklist with
    | nil => exact ⟨vals, rfl, cases⟩
    | cons entry rest =>
      obtain ⟨v, c⟩ := entry
      rw [explore]
      split
      · have order : Cases ([] ++ (((v, c) :: rest).reverse ++ vals.vals.entries)) e s :=
          cases.perm ((List.reverse_perm _).symm.append_right _)
        exact ⟨_, rfl, order.addEach⟩
      · have sorts := cases.sorts v (by simp)
        have condition := cases.conditions (v, c) (by simp)
        obtain ⟨under, smaller⟩ := visit_spec z (inside n) condition sorts
        rw [List.map_cons, List.sum_cons] at enough
        generalize visit z (inner n) v c = visited at under smaller ⊢
        obtain ⟨pushed, added⟩ := visited
        dsimp only at under smaller ⊢
        have split := Cases.split cases under
        have order : (pushed ++ added ++ (rest ++ vals.vals.entries)).Perm
            (pushed ++ rest ++ (added ++ vals.vals.entries)) := by
          rw [List.append_assoc, List.append_assoc]
          refine List.Perm.append_left pushed ?_
          rw [← List.append_assoc, ← List.append_assoc]
          exact List.perm_append_comm.append_right _
        apply ih (Cases.addEach (split.perm order))
        rw [List.map_append, List.sum_append]
        dsimp only at enough
        omega

end

variable {e : Expr} {s : Srt}

theorem cases_start (sorted : e.HasSort s) :
    Cases ([(e, .bool true)] ++ ({} : DisjointExpr Expr).vals.entries) e s := by
  have own := casesUnder_self (c := .bool true) (Expr.hasSort_bool.2 rfl) sorted
  exact ⟨own.conditions, own.sorts, fun M => own.single M (Expr.truth_bool M true)⟩

theorem decompose_cases (z : Z3) (depth : Nat) (hit : List Nat → Bool)
    (sorted : e.HasSort s) : Cases (decompose z depth hit e).vals.entries e s := by
  induction depth generalizing hit e s with
  | zero =>
    have start : Cases ([] ++ ([(e, .bool true)] ++ ({} : DisjointExpr Expr).vals.entries)) e s :=
      cases_start sorted
    exact start.addEach (z := z)
  | succ depth ih =>
    have enough : ([(e, Expr.bool true)].map fun entry => entry.1.size).sum < e.size + 1 := by simp
    obtain ⟨result, known, cases⟩ := explore_spec z
      (fun n side sub t sortedSub => ih _ sortedSub) (cases_start sorted) enough
    rw [decompose, known]
    exact cases

theorem explore_returns (z : Z3) (depth : Nat) (hit : List Nat → Bool) (sorted : e.HasSort s) :
    explore z (fun n => hit [n])
      (fun n side => decompose z depth fun path => hit (n :: side :: path)) (e.size + 1)
      [(e, .bool true)] {} = some (decompose z (depth + 1) hit e) := by
  have enough : ([(e, Expr.bool true)].map fun entry => entry.1.size).sum < e.size + 1 := by simp
  obtain ⟨result, known, -⟩ := explore_spec z
    (fun n side sub t sortedSub => decompose_cases z depth _ sortedSub) (cases_start sorted) enough
  rw [decompose, known, Option.getD_some]

/-- In every model exactly one domain is true; its value is that of the term, and so is
the value that `operator()` makes of the map, if the term divides by zero nowhere. -/
theorem decomposition_exact
    (z : Z3) (depth : Nat) (hit : List Nat → Bool) {e : Expr} {s : Srt} (sorted : e.HasSort s) :
    (∀ M, ∃ entry ∈ (decompose z depth hit e).vals.entries, entry.2.truth M = true ∧
      (∀ other ∈ (decompose z depth hit e).vals.entries, other.2.truth M = true →
        other = entry) ∧
      (e.NonzeroDivisors M → entry.1.eval M = e.eval M)) ∧
    ∃ t, (decompose z depth hit e).toValue (Expr.mkIf z) = some t ∧ t.HasSort s ∧
      ∀ M, e.NonzeroDivisors M → t.eval M = e.eval M := by
  have cases := decompose_cases z depth hit sorted
  have sorts : ∀ t ∈ (decompose z depth hit e).vals.entries.map Prod.fst,
      (Expr.meaning z s).Sorted t := cases.sorts
  have value : ∀ M, ∃ t, (decompose z depth hit e).toValue (Expr.mkIf z) = some t ∧
      t.HasSort s ∧ (e.NonzeroDivisors M → t.eval M = e.eval M) := by
    intro M
    obtain ⟨v, single, means⟩ := cases.single M
    obtain ⟨t, known, sortedT, same⟩ := toValue_of_picked cases.conditions sorts single
    exact ⟨t, known, sortedT, fun safe => same.trans (means safe).2⟩
  constructor
  · intro M
    obtain ⟨v, single, means⟩ := cases.single M
    obtain ⟨d, member, holds⟩ := mem_picked.1 (single ▸ List.mem_singleton_self v)
    refine ⟨(v, d), member, holds, fun other inside truth => ?_, fun safe => (means safe).2⟩
    have chosen : other.1 ∈ picked M (decompose z depth hit e).vals.entries :=
      mem_picked.2 ⟨other.2, inside, truth⟩
    rw [single, List.mem_singleton] at chosen
    exact List.inj_on_of_nodup_map (decompose z depth hit e).vals.nodup inside member chosen
  · obtain ⟨t, known, sortedT, -⟩ := value default
    refine ⟨t, known, sortedT, fun M safe => ?_⟩
    obtain ⟨t', known', -, same⟩ := value M
    rw [known] at known'
    cases known'
    exact same safe

theorem decomposition_exact_extract :
    ∃ t, (decompose Z3.reference 3 (fun _ => false) (.app (.extract 3 0)
        [.app .ite [.var "c" .bool, .num 8 5, .var "x" (.bv 8)]])).toValue
        (Expr.mkIf Z3.reference) = some t ∧ t.HasSort (.bv 4) ∧
      ∀ M, Expr.NonzeroDivisors (.app (.extract 3 0)
        [.app .ite [.var "c" .bool, .num 8 5, .var "x" (.bv 8)]]) M →
        t.eval M = Expr.eval (.app (.extract 3 0)
          [.app .ite [.var "c" .bool, .num 8 5, .var "x" (.bv 8)]]) M :=
  (decomposition_exact Z3.reference 3 (fun _ => false) ⟨rfl, rfl⟩).2

/-- The extract of an extended remainder is an extension of it, which is one by zeros:
the value is lost where the divisor is zero. -/
def splitRemainder : Expr :=
  .app (.extract 2 0)
    [.app .ite [.var "c" .bool, .num 4 0, .app (.signExt 3) [Expr.oneBitRemainder]]]

theorem decomposition_of_division_by_zero :
    ¬∀ (depth : Nat) (hit : List Nat → Bool) (e : Expr) (s : Srt) (M : Model), e.HasSort s →
      ∃ entry ∈ (decompose Z3.reference depth hit e).vals.entries, entry.2.truth M = true ∧
        entry.1.eval M = e.eval M := by
  intro claim
  obtain ⟨entry, member, holds, value⟩ := claim 3 (fun _ => false) splitRemainder (.bv 3)
    Expr.divisionByZero ⟨rfl, rfl⟩
  have known : (decompose Z3.reference 3 (fun _ => false) splitRemainder).vals.entries =
      [(.num 3 0, .var "c" .bool),
        (.app .concat [.num 2 0, Expr.oneBitRemainder], .app .not [.var "c" .bool])] := by
    decide
  rw [known, List.mem_cons, List.mem_singleton] at member
  have number : ∀ t : Expr, t.eval Expr.divisionByZero = splitRemainder.eval Expr.divisionByZero →
      t.bv Expr.divisionByZero 3 = splitRemainder.bv Expr.divisionByZero 3 := by
    intro t same
    rw [Expr.bv, Expr.bv, same]
  rcases member with rfl | rfl
  · exact absurd holds (by decide)
  · exact absurd (number _ value) (by decide)

end DisjointExpr

end AliveNext.Smt
