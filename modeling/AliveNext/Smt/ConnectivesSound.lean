import AliveNext.Smt.Connectives

/-!
# The connectives keep their meaning

Each constructor returns a term that is the same as the plain application:
`and_same`, `or_same`, `not_same`, and `mkIf_same` for conditionals of any sort.
-/

namespace AliveNext.Smt

namespace Expr

section

variable {e a b c : Expr} {op : Op}

theorem isNot_eq_some : e.isNot = some a ↔ e = .app .not [a] := by
  unfold isNot
  split <;> simp_all

theorem isBinOp_eq_some : isBinOp op e = some (a, b) ↔ e = .app op [a, b] := by
  unfold isBinOp
  split
  · split
    · next same =>
      subst same
      simp
    · next different =>
      simp [different]
  · next other =>
    constructor
    · intro contra
      cases contra
    · rintro rfl
      exact absurd rfl (other op a b)

theorem isAnd_eq_some : e.isAnd = some (a, b) ↔ e = .app .and [a, b] := isBinOp_eq_some

theorem isEq_eq_some : e.isEq = some (a, b) ↔ e = .app .eq [a, b] := by
  unfold isEq
  split <;> simp_all

theorem isIf_eq_some : e.isIf = some (c, a, b) ↔ e = .app .ite [c, a, b] := by
  unfold isIf
  split <;> simp_all

variable (other : ∀ amount, op ≠ .signExt amount)

include other

theorem size_single : size (.app op [a]) = a.size + 1 := by
  simp [size_app _ other]

theorem size_pair : size (.app op [a, b]) = a.size + b.size + 1 := by
  simp [size_app _ other]

theorem size_triple : size (.app op [a, b, c]) = a.size + b.size + c.size + 2 := by
  simp only [size_app _ other, List.map_cons, List.map_nil, List.sum_cons, List.sum_nil,
    List.length_cons, List.length_nil]
  omega

end

section

variable {e t a b : Expr}

theorem truth_of_isTrue (holds : e.isTrue = true) (M : Model) : e.truth M = true := by
  rw [isTrue_iff.1 holds, truth_bool]

theorem truth_of_isFalse (fails : e.isFalse = true) (M : Model) : e.truth M = false := by
  rw [isFalse_iff.1 fails, truth_bool]

theorem not_same (sorted : e.HasSort .bool) : (not e).Same (.app .not [e]) := by
  have whole : HasSort (.app .not [e]) .bool := hasSort_not.2 ⟨rfl, sorted⟩
  unfold not
  split
  · next holds =>
    apply Same.of_truth (by simp) whole (fun M _ => nonzeroDivisors_bool _)
    intro M
    rw [truth_bool, truth_not, truth_of_isTrue holds, Bool.not_true]
  split
  · next fails =>
    apply Same.of_truth (by simp) whole (fun M _ => nonzeroDivisors_bool _)
    intro M
    rw [truth_bool, truth_not, truth_of_isFalse fails, Bool.not_false]
  split
  · next neg shape =>
    rw [isNot_eq_some] at shape
    subst shape
    apply Same.of_truth (hasSort_not.1 sorted).2 whole
    · intro M safe
      exact (safe.arg List.mem_cons_self).arg List.mem_cons_self
    · intro M
      rw [truth_not, truth_not, Bool.not_not]
  · exact .refl _

section

variable (left : a.HasSort .bool) (right : b.HasSort .bool)

include left right

theorem and_same : (and a b).Same (.app .and [a, b]) := by
  have whole : HasSort (.app .and [a, b]) .bool := hasSort_and.2 ⟨rfl, left, right⟩
  unfold and
  split
  · next known =>
    apply Same.of_truth left whole (fun M safe => safe.arg List.mem_cons_self)
    intro M
    rw [truth_and]
    rcases known with rfl | fails | holds
    · rw [Bool.and_self]
    · rw [truth_of_isFalse fails, Bool.false_and]
    · rw [truth_of_isTrue holds, Bool.and_true]
  split
  · next known =>
    apply Same.of_truth right whole (fun M safe => safe.arg (by simp))
    intro M
    rw [truth_and]
    rcases known with holds | fails
    · rw [truth_of_isTrue holds, Bool.true_and]
    · rw [truth_of_isFalse fails, Bool.and_false]
  · exact .refl _

theorem commonConjunct_spec {common : Expr} (known : commonConjunct a b = some common) :
    common.Same (.app .or [a, b]) ∧ common.size < a.size := by
  have whole : HasSort (.app .or [a, b]) .bool := hasSort_or.2 ⟨rfl, left, right⟩
  unfold commonConjunct at known
  split at known
  · next x y x' y' first second =>
    rw [isAnd_eq_some] at first second
    subst first second
    split at known
    · next condition =>
      obtain ⟨rfl, opposite⟩ := condition
      cases known
      obtain ⟨-, sortedX, sortedY⟩ := hasSort_and.1 left
      constructor
      · apply Same.of_truth sortedY whole
        · intro M safe
          exact (safe.arg List.mem_cons_self).arg (by simp)
        · intro M
          rw [truth_or, truth_and, truth_and]
          rcases opposite with negated | negated
          · rw [isNot_eq_some] at negated
            rw [negated, truth_not]
            cases x'.truth M <;> cases common.truth M <;> rfl
          · rw [isNot_eq_some] at negated
            rw [negated, truth_not]
            cases x.truth M <;> cases common.truth M <;> rfl
      · rw [size_pair (by simp)]
        omega
    · cases known
  · cases known

theorem or_same : (or a b).Same (.app .or [a, b]) := by
  have whole : HasSort (.app .or [a, b]) .bool := hasSort_or.2 ⟨rfl, left, right⟩
  unfold or
  split
  · next known =>
    apply Same.of_truth left whole (fun M safe => safe.arg List.mem_cons_self)
    intro M
    rw [truth_or]
    rcases known with rfl | fails | holds
    · rw [Bool.or_self]
    · rw [truth_of_isFalse fails, Bool.or_false]
    · rw [truth_of_isTrue holds, Bool.true_or]
  split
  · next known =>
    apply Same.of_truth right whole (fun M safe => safe.arg (by simp))
    intro M
    rw [truth_or]
    rcases known with holds | fails
    · rw [truth_of_isTrue holds, Bool.or_true]
    · rw [truth_of_isFalse fails, Bool.false_or]
  split
  · next opposite =>
    apply Same.of_truth (by simp) whole (fun M _ => nonzeroDivisors_bool _)
    intro M
    rw [truth_bool, truth_or]
    rcases opposite with negated | negated
    · rw [isNot_eq_some.1 negated, truth_not, Bool.not_or_self]
    · rw [isNot_eq_some.1 negated, truth_not, Bool.or_not_self]
  split
  · next common known => exact (commonConjunct_spec left right known).1
  · exact .refl _

end

theorem truth_not_eq (sorted : e.HasSort .bool) (M : Model) : (not e).truth M = !e.truth M := by
  rw [(not_same sorted).truth_eq, truth_not]

theorem truth_and_eq (left : a.HasSort .bool) (right : b.HasSort .bool) (M : Model) :
    (and a b).truth M = (a.truth M && b.truth M) := by
  rw [(and_same left right).truth_eq, truth_and]

theorem truth_or_eq (left : a.HasSort .bool) (right : b.HasSort .bool) (M : Model) :
    (or a b).truth M = (a.truth M || b.truth M) := by
  rw [(or_same left right).truth_eq, truth_or]

theorem hasSort_not_eq (sorted : e.HasSort .bool) : (not e).HasSort .bool :=
  (not_same sorted).sorted _ (hasSort_not.2 ⟨rfl, sorted⟩)

section

variable (left : a.HasSort .bool) (right : b.HasSort .bool)

include left right

theorem hasSort_and_eq : (and a b).HasSort .bool :=
  (and_same left right).sorted _ (hasSort_and.2 ⟨rfl, left, right⟩)

theorem hasSort_or_eq : (or a b).HasSort .bool :=
  (or_same left right).sorted _ (hasSort_or.2 ⟨rfl, left, right⟩)

theorem truth_implies (M : Model) : (implies a b).truth M = (!a.truth M || b.truth M) := by
  unfold implies
  split
  · next same =>
    subst same
    rw [truth_bool, Bool.not_or_self]
  · rw [truth_or_eq (hasSort_not_eq left) right, truth_not_eq left]

theorem truth_notImplies (M : Model) : (notImplies a b).truth M = (a.truth M && !b.truth M) := by
  unfold notImplies
  split
  · next same =>
    subst same
    rw [truth_bool, Bool.and_not_self]
  · rw [truth_and_eq left (hasSort_not_eq right), truth_not_eq right]

end

/-! Sizes, for the calls that `mkIf` makes. -/

theorem size_not_le (e : Expr) : (not e).size ≤ e.size + 1 := by
  unfold not
  split
  · exact Nat.succ_le_succ (Nat.zero_le _)
  split
  · exact Nat.succ_le_succ (Nat.zero_le _)
  split
  · next neg shape =>
    rw [isNot_eq_some.1 shape, size_single (by simp)]
    omega
  · rw [size_single (by simp)]

theorem size_and_le (a b : Expr) : (and a b).size ≤ a.size + b.size + 1 := by
  unfold and
  split
  · omega
  split
  · omega
  · rw [size_pair (by simp)]

theorem size_or_le
    (left : a.HasSort .bool) (right : b.HasSort .bool) : (or a b).size ≤ a.size + b.size + 1 := by
  unfold or
  split
  · omega
  split
  · omega
  split
  · exact Nat.succ_le_succ (Nat.zero_le _)
  split
  · next common known =>
    have smaller := (commonConjunct_spec left right known).2
    omega
  · rw [size_pair (by simp)]

end

section

variable (z : Z3) {cond then_ els t : Expr} {s : Srt}

/-- What `mkIf` returns. -/
structure IfSpec (cond then_ els t : Expr) : Prop where
  same : t.Same (.app .ite [cond, then_, els])
  size_le : t.size ≤ cond.size + then_.size + els.size + 2
  const : cond.isConst = true → then_.isConst = true → els.isConst = true → t.isConst = true

theorem hasSort_mkUInt {n w : Nat} (positive : 0 < w) : (mkUInt n w).HasSort (.bv w) :=
  hasSort_num.2 ⟨positive, rfl⟩

@[simp] theorem toNat_mkUInt (n w : Nat) (M : Model) : (mkUInt n w).toNat M = n % 2 ^ w := by
  rw [mkUInt, toNat_num, BitVec.toNat_ofNat]

variable {x a b : Expr} {M : Model}

section

variable (sorted : x.HasSort (.bv 1)) (sortedCond : cond.HasSort .bool)
    (safe : ∀ M, cond.NonzeroDivisors M → x.NonzeroDivisors M)
    (condition : ∀ M, cond.truth M = decide (x.toNat M = 1))

include sorted sortedCond safe condition

theorem oneBit_same : x.Same (.app .ite [cond, mkUInt 1 1, mkUInt 0 1]) := by
  have bit : ∀ n, (mkUInt n 1).HasSort (.bv 1) := fun n => hasSort_mkUInt Nat.one_pos
  apply Same.of_toNat sorted (hasSort_ite.2 ⟨sortedCond, bit _, bit _⟩)
  · exact fun M known => safe M (known.arg List.mem_cons_self)
  · intro M
    have range := sorted.toNat_lt M
    rw [toNat_ite, condition M, toNat_mkUInt, toNat_mkUInt]
    by_cases one : x.toNat M = 1
    · simp [one]
    · simp only [one, decide_false, Bool.false_eq_true, if_false]
      omega

theorem oneBit_not_same : Same (.app .bvnot [x]) (.app .ite [cond, mkUInt 0 1, mkUInt 1 1]) := by
  have bit : ∀ n, (mkUInt n 1).HasSort (.bv 1) := fun n => hasSort_mkUInt Nat.one_pos
  apply Same.of_toNat (hasSort_bvnot.2 sorted) (hasSort_ite.2 ⟨sortedCond, bit _, bit _⟩)
  · intro M known
    rw [nonzeroDivisors_app (by simp)]
    simpa using safe M (known.arg List.mem_cons_self)
  · intro M
    have range := sorted.toNat_lt M
    rw [toNat_ite, condition M, toNat_mkUInt, toNat_mkUInt, toNat_bvnot M sorted]
    by_cases one : x.toNat M = 1
    · simp [one]
    · simp only [one, decide_false, Bool.false_eq_true, if_false]
      omega

end

theorem unopFold_bvnot (sorted : x.HasSort (.bv 1)) : (unopFold z .bvnot x).Same (.app .bvnot [x]) ∧
      (unopFold z .bvnot x).size ≤ x.size + 1 := by
  have whole := hasSort_bvnot.2 sorted
  exact ⟨simplifyConst_same z rfl whole,
    (size_simplifyConst z rfl whole).trans (size_single (by simp)).le⟩

/-- The rewrites of a conditional on `x = 1` over one bit. -/
theorem oneBitIf_spec (sorted : HasSort (.app .ite [cond, then_, els]) s)
    (known : oneBitIf z cond then_ els = some t) : IfSpec cond then_ els t := by
  obtain ⟨sortedCond, sortedThen, sortedEls⟩ := hasSort_ite.1 sorted
  unfold oneBitIf at known
  split at known
  · next lhs rhs shape =>
    rw [isEq_eq_some] at shape
    subst shape
    split at known
    · next bits =>
      obtain ⟨-, u, left, right⟩ := hasSort_eq.1 sortedCond
      obtain rfl : u = .bv 1 := left.sort_eq.symm.trans bits.2
      obtain rfl : s = .bv 1 := sortedThen.sort_eq.symm.trans bits.1
      have sizes : size (.app .eq [lhs, rhs]) = lhs.size + rhs.size + 1 := size_pair (by simp)
      have notConst : isConst (.app .eq [lhs, rhs]) = true → t.isConst = true :=
        fun const => by cases const
      have safeLeft : ∀ M, NonzeroDivisors (.app .eq [lhs, rhs]) M → lhs.NonzeroDivisors M :=
        fun M safe => safe.arg List.mem_cons_self
      have safeRight : ∀ M, NonzeroDivisors (.app .eq [lhs, rhs]) M → rhs.NonzeroDivisors M :=
        fun M safe => safe.arg (by simp)
      have onLeft : lhs.isOne = true →
          ∀ M, truth (.app .eq [lhs, rhs]) M = decide (rhs.toNat M = 1) := by
        intro one M
        rw [isOne_sorted left] at one
        rw [truth_eq_bv M left right, one, toNat_mkUInt]
        simp [eq_comm]
      have onRight : rhs.isOne = true →
          ∀ M, truth (.app .eq [lhs, rhs]) M = decide (lhs.toNat M = 1) := by
        intro one M
        rw [isOne_sorted right] at one
        rw [truth_eq_bv M left right, one, toNat_mkUInt]
        simp
      split at known
      · next shapes =>
        obtain ⟨first, second, one⟩ := shapes
        obtain rfl := (isOne_sorted sortedThen).1 first
        obtain rfl := (isZero_sorted sortedEls).1 second
        cases known
        exact ⟨oneBit_same right sortedCond safeRight (onLeft one), by omega,
          fun const _ _ => notConst const⟩
      split at known
      · next shapes =>
        obtain ⟨first, second, one⟩ := shapes
        obtain rfl := (isOne_sorted sortedThen).1 first
        obtain rfl := (isZero_sorted sortedEls).1 second
        cases known
        exact ⟨oneBit_same left sortedCond safeLeft (onRight one), by omega,
          fun const _ _ => notConst const⟩
      split at known
      · next shapes =>
        obtain ⟨first, second, one⟩ := shapes
        obtain rfl := (isZero_sorted sortedThen).1 first
        obtain rfl := (isOne_sorted sortedEls).1 second
        cases known
        obtain ⟨same, size_le⟩ := unopFold_bvnot z right
        exact ⟨same.trans (oneBit_not_same right sortedCond safeRight (onLeft one)), by omega,
          fun const _ _ => notConst const⟩
      split at known
      · next shapes =>
        obtain ⟨first, second, one⟩ := shapes
        obtain rfl := (isZero_sorted sortedThen).1 first
        obtain rfl := (isOne_sorted sortedEls).1 second
        cases known
        obtain ⟨same, size_le⟩ := unopFold_bvnot z left
        exact ⟨same.trans (oneBit_not_same left sortedCond safeLeft (onRight one)), by omega,
          fun const _ _ => notConst const⟩
      · cases known
    · cases known
  · cases known

theorem boolIf_spec
    (sorted : HasSort (.app .ite [cond, then_, els]) .bool) (sortedT : t.HasSort .bool)
    (safe : ∀ M, cond.NonzeroDivisors M → then_.NonzeroDivisors M →
      els.NonzeroDivisors M → t.NonzeroDivisors M)
    (truth_eq : ∀ M, t.truth M = if cond.truth M then then_.truth M else els.truth M) :
    t.Same (.app .ite [cond, then_, els]) := by
  apply Same.of_truth sortedT sorted
  · intro M known
    exact safe M (known.arg (by simp)) (known.arg (by simp)) (known.arg (by simp))
  · intro M
    rw [truth_ite, truth_eq M]

theorem nonzeroDivisors_not {e : Expr} (sorted : e.HasSort .bool)
    (safe : e.NonzeroDivisors M) : (not e).NonzeroDivisors M :=
  (not_same sorted).safe M ((nonzeroDivisors_app (by simp)).2 (by simpa using safe))

section

variable (left : a.HasSort .bool) (right : b.HasSort .bool) (safe : a.NonzeroDivisors M)
    (safe' : b.NonzeroDivisors M)

include left right safe safe'

theorem nonzeroDivisors_and : (and a b).NonzeroDivisors M :=
  (and_same left right).safe M ((nonzeroDivisors_app (by simp)).2 (by simp [safe, safe']))

theorem nonzeroDivisors_or : (or a b).NonzeroDivisors M :=
  (or_same left right).safe M ((nonzeroDivisors_app (by simp)).2 (by simp [safe, safe']))

end

theorem IfSpec.swap {notcond : Expr}
    (sorted : HasSort (.app .ite [.app .not [notcond], then_, els]) s)
    (swapped : IfSpec notcond els then_ t) : IfSpec (.app .not [notcond]) then_ els t := by
  obtain ⟨sortedCond, sortedThen, sortedEls⟩ := hasSort_ite.1 sorted
  refine ⟨swapped.same.trans (Same.of_eval
    (hasSort_ite.2 ⟨(hasSort_not.1 sortedCond).2, sortedEls, sortedThen⟩) sorted ?_ ?_), ?_, ?_⟩
  · intro M safe
    rw [nonzeroDivisors_app (by simp)]
    have inner : notcond.NonzeroDivisors M :=
      (safe.arg List.mem_cons_self).arg List.mem_cons_self
    have first : then_.NonzeroDivisors M := safe.arg (by simp)
    have second : els.NonzeroDivisors M := safe.arg (by simp)
    simp [inner, first, second]
  · intro M
    rw [eval_ite, eval_ite, truth_not]
    cases notcond.truth M <;> rfl
  · have bound := swapped.size_le
    rw [size_single (by simp)]
    omega
  · intro const
    cases const

/-- `(ite c a (ite c2 a b)) -> (ite (or c c2) a b)`. -/
theorem IfSpec.merge {cond2 else2 : Expr}
    (sorted : HasSort (.app .ite [cond, then_, .app .ite [cond2, then_, else2]]) s)
    (merged : IfSpec (or cond cond2) then_ else2 t) :
    IfSpec cond then_ (.app .ite [cond2, then_, else2]) t := by
  obtain ⟨sortedCond, sortedThen, sortedEls⟩ := hasSort_ite.1 sorted
  obtain ⟨sortedCond2, -, sortedElse2⟩ := hasSort_ite.1 sortedEls
  have sortedOr := hasSort_or_eq sortedCond sortedCond2
  refine ⟨merged.same.trans (Same.of_eval
    (hasSort_ite.2 ⟨sortedOr, sortedThen, sortedElse2⟩) sorted ?_ ?_), ?_, ?_⟩
  · intro M safe
    rw [nonzeroDivisors_app (by simp)]
    have inner : NonzeroDivisors (.app .ite [cond2, then_, else2]) M := safe.arg (by simp)
    have condition := nonzeroDivisors_or sortedCond sortedCond2
      (safe.arg List.mem_cons_self) (inner.arg List.mem_cons_self)
    have first : then_.NonzeroDivisors M := safe.arg (by simp)
    have second : else2.NonzeroDivisors M := inner.arg (by simp)
    simp [condition, first, second]
  · intro M
    rw [eval_ite, eval_ite, eval_ite, truth_or_eq sortedCond sortedCond2]
    cases cond.truth M <;> simp
  · have bound := merged.size_le
    have orBound := size_or_le sortedCond sortedCond2
    rw [size_triple (by simp)]
    omega
  · intro _ _ const
    cases const

theorem mkIfWithin_spec (calls : Nat) (sorted : HasSort (.app .ite [cond, then_, els]) s)
    (enough : mkIfCalls cond then_ els ≤ calls) :
    ∃ t, mkIfWithin z calls cond then_ els = some t ∧ IfSpec cond then_ els t := by
  induction calls generalizing cond then_ els with
  | zero =>
    have positive := cond.size_pos
    unfold mkIfCalls at enough
    omega
  | succ calls ih =>
    obtain ⟨sortedCond, sortedThen, sortedEls⟩ := hasSort_ite.1 sorted
    have sizes := And.intro cond.size_pos (And.intro then_.size_pos els.size_pos)
    have constCond : cond.isConst = true → cond.isTrue = true ∨ cond.isFalse = true := by
      intro const
      obtain ⟨x, rfl⟩ := eq_bool_of_isConst const sortedCond
      cases x <;> simp [isTrue, isFalse]
    unfold mkIfWithin
    split
    · next known =>
      refine ⟨then_, rfl, ⟨Same.of_eval sortedThen sorted ?_ ?_, by omega, fun _ const _ => const⟩⟩
      · exact fun M safe => safe.arg (by simp)
      · intro M
        rw [eval_ite]
        rcases known with holds | rfl
        · rw [truth_of_isTrue holds, if_pos rfl]
        · rw [ite_self]
    next notTrue =>
    split
    · next fails =>
      refine ⟨els, rfl, ⟨Same.of_eval sortedEls sorted ?_ ?_, by omega, fun _ _ const => const⟩⟩
      · exact fun M safe => safe.arg (by simp)
      · intro M
        rw [eval_ite, truth_of_isFalse fails, if_neg Bool.false_ne_true]
    next notFalse =>
    have notConst : ¬cond.isConst = true := by
      intro const
      rcases constCond const with holds | fails
      · exact notTrue (Or.inl holds)
      · exact notFalse fails
    split
    · next known =>
      obtain rfl : s = .bool := by
        rcases known with holds | rfl
        · rw [isTrue_iff.1 holds] at sortedThen
          exact hasSort_bool.1 sortedThen
        · exact sortedThen.unique sortedCond
      refine ⟨_, rfl, boolIf_spec sorted (hasSort_or_eq sortedCond sortedEls) ?_ ?_,
        (size_or_le sortedCond sortedEls).trans (by omega), fun const => absurd const notConst⟩
      · exact fun M safe _ safe' => nonzeroDivisors_or sortedCond sortedEls safe safe'
      · intro M
        rw [truth_or_eq sortedCond sortedEls]
        rcases known with holds | rfl
        · rw [truth_of_isTrue holds]
          cases cond.truth M <;> simp
        · cases cond.truth M <;> simp
    split
    · next known =>
      obtain rfl : s = .bool := by
        rw [isFalse_iff.1 known] at sortedThen
        exact hasSort_bool.1 sortedThen
      have sortedNot := hasSort_not_eq sortedCond
      have bound := size_not_le cond
      refine ⟨_, rfl, boolIf_spec sorted (hasSort_and_eq sortedNot sortedEls) ?_ ?_,
        (size_and_le _ _).trans (by omega), fun const => absurd const notConst⟩
      · exact fun M safe _ safe' =>
          nonzeroDivisors_and sortedNot sortedEls (nonzeroDivisors_not sortedCond safe) safe'
      · intro M
        rw [truth_and_eq sortedNot sortedEls, truth_not_eq sortedCond, truth_of_isFalse known]
        cases cond.truth M <;> simp
    split
    · next known =>
      obtain rfl : s = .bool := by
        rw [isTrue_iff.1 known] at sortedEls
        exact hasSort_bool.1 sortedEls
      have sortedNot := hasSort_not_eq sortedCond
      have bound := size_not_le cond
      refine ⟨_, rfl, boolIf_spec sorted (hasSort_or_eq sortedNot sortedThen) ?_ ?_,
        (size_or_le sortedNot sortedThen).trans (by omega), fun const => absurd const notConst⟩
      · exact fun M safe safe' _ =>
          nonzeroDivisors_or sortedNot sortedThen (nonzeroDivisors_not sortedCond safe) safe'
      · intro M
        rw [truth_or_eq sortedNot sortedThen, truth_not_eq sortedCond, truth_of_isTrue known]
        cases cond.truth M <;> simp
    split
    · next known =>
      obtain rfl : s = .bool := by
        rw [isFalse_iff.1 known] at sortedEls
        exact hasSort_bool.1 sortedEls
      refine ⟨_, rfl, boolIf_spec sorted (hasSort_and_eq sortedCond sortedThen) ?_ ?_,
        (size_and_le _ _).trans (by omega), fun const => absurd const notConst⟩
      · exact fun M safe safe' _ => nonzeroDivisors_and sortedCond sortedThen safe safe'
      · intro M
        rw [truth_and_eq sortedCond sortedThen, truth_of_isFalse known]
        cases cond.truth M <;> simp
    have plain : IfSpec cond then_ els (.app .ite [cond, then_, els]) :=
      ⟨.refl _, (size_triple (by simp)).le, fun const => absurd const notConst⟩
    split
    · next notcond shape =>
      rw [isNot_eq_some] at shape
      subst shape
      have swappedSort := hasSort_ite.2 ⟨(hasSort_not.1 sortedCond).2, sortedEls, sortedThen⟩
      have fewer : mkIfCalls notcond els then_ ≤ calls := by
        unfold mkIfCalls at enough ⊢
        rw [size_single (by simp)] at enough
        omega
      obtain ⟨t, built, spec⟩ := ih swappedSort fewer
      exact ⟨t, built, spec.swap sorted⟩
    split
    · next bit known => exact ⟨bit, rfl, oneBitIf_spec z sorted known⟩
    split
    · next cond2 then2 else2 shape =>
      rw [isIf_eq_some] at shape
      subst shape
      split
      · next sameThen =>
        subst sameThen
        obtain ⟨sortedCond2, -, sortedElse2⟩ := hasSort_ite.1 sortedEls
        have mergedSort := hasSort_ite.2
          ⟨hasSort_or_eq sortedCond sortedCond2, sortedThen, sortedElse2⟩
        have fewer : mkIfCalls (or cond cond2) then_ else2 ≤ calls := by
          have bound := size_or_le sortedCond sortedCond2
          unfold mkIfCalls at enough ⊢
          rw [size_triple (by simp)] at enough
          omega
        obtain ⟨t, built, spec⟩ := ih mergedSort fewer
        exact ⟨t, built, spec.merge sorted⟩
      · exact ⟨_, rfl, plain⟩
    · exact ⟨_, rfl, plain⟩

theorem mkIf_spec (sorted : HasSort (.app .ite [cond, then_, els]) s) :
    IfSpec cond then_ els (mkIf z cond then_ els) := by
  obtain ⟨t, built, spec⟩ := mkIfWithin_spec z _ sorted (le_refl _)
  rw [mkIf, built]
  exact spec

theorem toBVBool_spec (sorted : cond.HasSort .bool) :
    IfSpec cond (mkUInt 1 1) (mkUInt 0 1) (toBVBool z cond) := by
  have bit : ∀ n, (mkUInt n 1).HasSort (.bv 1) := fun n => hasSort_mkUInt Nat.one_pos
  exact mkIf_spec z (hasSort_ite.2 ⟨sorted, bit 1, bit 0⟩)

end

end Expr

end AliveNext.Smt
