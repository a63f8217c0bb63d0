import AliveNext.Smt.Bitwise

/-!
# A round of `+` and `*`, and the operators tied together
-/

namespace AliveNext.Smt

namespace Expr

variable (z : Z3) {a b e t : Expr} {w : Nat}

theorem isConcatOf_spec {s : Srt} (sorted : e.HasSort s) (known : isConcatOf z e = some (a, b)) :
    e.isConst = false ∧ a.size + b.size + 1 ≤ e.size ∧ StandsFor (.app .concat [a, b]) e ∧
      ∃ v w, s = .bv (v + w) ∧ a.HasSort (.bv v) ∧ b.HasSort (.bv w) := by
  obtain ⟨o, answer, parts⟩ := isConcat_spec (calls_good z (4 * e.size)) sorted (le_refl _)
  rw [isConcatOf, answer, Option.getD_some] at known
  exact parts a b known

theorem allOnes_mul (x : BitVec w) : BitVec.allOnes w * x = -x := by
  rw [← BitVec.neg_one_eq_allOnes, BitVec.neg_mul, BitVec.one_mul]

section

variable {r : Operators} {k : Nat} (good : r.Good k)

include good

theorem const_spec {op : BvOp} (flattens : op.flattens = true) (left : a.HasSort (.bv w))
    (right : b.HasSort (.bv w)) (constA : a.isConst = true) (constB : b.isConst = true)
    (enough : opRank op a b ≤ k) :
    Gives (r op a b) fun t => t.isConst = true ∧ t.HasSort (.bv w) ∧
      ∀ M, t.bv M w = op.denote (a.bv M w) (b.bv M w) := by
  have other : Op.bv op ≠ .bv .urem := by
    intro same
    cases same
    cases flattens
  obtain ⟨t, known, folded⟩ := good flattens left right enough
  refine ⟨t, known, folded.const constA constB,
    folded.stands.sorted _ (hasSort_bv.2 ⟨left, right⟩), fun M => ?_⟩
  have safe : NonzeroDivisors (.app (.bv op) [a, b]) M :=
    (nonzeroDivisors_pair other).2 ⟨nonzeroDivisors_of_isConst constA M,
      nonzeroDivisors_of_isConst constB M⟩
  rw [folded.stands.bv_eq safe, bv_bv M left]

section

variable (left : a.HasSort (.bv w)) (right : b.HasSort (.bv w))

include left right

theorem subWith_spec (constA : a.isConst = true)
    (constB : b.isConst = true) (enough : 6 ≤ k ∨ b.isOne = true ∧ (a = b ∨ 5 ≤ k)) :
    Gives (subWith r a b) fun t => t.isConst = true ∧ t.HasSort (.bv w) ∧
      ∀ M, t.bv M w = a.bv M w - b.bv M w := by
  unfold subWith
  rw [left.bits_eq]
  by_cases same : a = b
  · subst same
    rw [if_pos rfl]
    refine ⟨_, rfl, rfl, hasSort_mkUInt left.pos, fun M => ?_⟩
    rw [bv_mkUInt, BitVec.sub_self]
  · rw [if_neg same]
    have ones : (mkInt (-1) w).HasSort (.bv w) := hasSort_mkInt left.pos
    have sizes := And.intro (size_of_isConst constA) (size_of_isConst constB)
    have oneI : (mkInt (-1) w).size = 1 := rfl
    have rank : opRank .mul (mkInt (-1) w) b ≤ k := by
      rw [opRank, if_pos rfl]
      rcases enough with deep | ⟨one, equal | deep⟩
      · split <;> omega
      · exact absurd equal same
      · rw [if_pos one]
        omega
    obtain ⟨negated, known, const, sorted, value⟩ :=
      const_spec good rfl ones right rfl constB rank
    have oneN := size_of_isConst const
    have rank' : opRank .add a negated ≤ k := by
      have least := le_opRank .mul (mkInt (-1) w) b
      rw [opRank_eq (by decide)]
      omega
    obtain ⟨t, known', const', sorted', value'⟩ :=
      const_spec good rfl left sorted constA const rank'
    refine ⟨t, by rw [known]; exact known', const', sorted', fun M => ?_⟩
    rw [value' M, value M, BvOp.denote, BvOp.denote, mkInt_neg_one, bv_num, allOnes_mul,
      BitVec.sub_eq_add_neg]

theorem addNoUOverflowWith_spec (constB : b.isConst = true) (enough : 6 ≤ k) :
    Gives (addNoUOverflowWith z r a b) fun t =>
      t.Decides [a, b] fun M => a.toNat M + b.toNat M < 2 ^ w := by
  unfold addNoUOverflowWith
  rw [if_pos constB]
  split
  · next zeros =>
    refine ⟨_, rfl, .const fun M safe => iff_of_true rfl ?_⟩
    rw [safe_pair] at safe
    have bound : ∀ {e : Expr}, e.HasSort (.bv w) → e.NonzeroDivisors M →
        e.minLeadingZeros ≥ 1 → e.toNat M < 2 ^ (w - 1) := by
      intro e sorted safe some_zeros
      obtain ⟨-, unset⟩ := minLeadingZeros_spec sorted safe
      apply Nat.lt_pow_two_of_testBit
      intro i above
      exact unset i (by omega)
    have half := two_pow_half left.pos
    have smallA := bound left safe.1 zeros.1
    have smallB := bound right safe.2 zeros.2
    omega
  · rw [right.bits_eq]
    have ones : (mkInt (-1) w).HasSort (.bv w) := hasSort_mkInt left.pos
    obtain ⟨most, known, const, sorted, value⟩ :=
      subWith_spec good ones right rfl constB (.inl enough)
    have decides := ule_decides z left sorted
    refine ⟨_, by rw [known]; rfl, decides.sorted, fun M safe => ?_, fun M safe => ?_⟩
    · exact decides.safe M (safe_pair.2 ⟨(safe_pair.1 safe).1, nonzeroDivisors_of_isConst const M⟩)
    · rw [decides.truth M (safe_pair.2 ⟨(safe_pair.1 safe).1, nonzeroDivisors_of_isConst const M⟩),
        sorted.toNat_eq M, value M, mkInt_neg_one, bv_num]
      have bound := right.toNat_lt M
      have most_eq : (BitVec.allOnes w - b.bv M w).toNat = 2 ^ w - 1 - b.toNat M := by
        rw [BitVec.allOnes_sub_eq_not, BitVec.toNat_not, right.toNat_eq M]
      rw [most_eq]
      omega

theorem addConcat_gives (enough : 2 * (a.size + b.size) ≤ k + 1) :
    RuleGives (addConcat z r a b) fun t => t.Folded .add a b := by
  unfold addConcat
  split
  · next constB =>
    split
    · next x y known =>
      obtain ⟨notConst, sizes, stands, u, v, width, sortedX, sortedY⟩ :=
        isConcatOf_spec z left known
      cases width
      have positive := And.intro x.size_pos y.size_pos
      have one := size_of_isConst constB
      split
      · next constY =>
        dsimp only
        rw [sortedY.bits_eq, right.bits_eq]
        have low := trunc_computes z right sortedY.pos (show v ≤ u + v by omega)
        have constLow : (trunc z b v).isConst = true :=
          extract_const z right (Nat.zero_le _) (by have := sortedY.pos; omega) constB
        split
        · next same =>
          -- the constant fits the lower half
          have fits : ∀ M, b.toNat M = (trunc z b v).toNat M := by
            intro M
            have extended := zextOrTrunc_computes z low.sorted (show 0 < u + v by
              have := sortedX.pos
              omega)
            rw [same] at extended
            rw [extended.value M (safe_single.2 (nonzeroDivisors_of_isConst constLow M))]
            apply Nat.mod_eq_of_lt
            exact (low.sorted.toNat_lt M).trans_le
              (Nat.pow_le_pow_right Nat.two_pos (Nat.le_add_left v u))
          obtain ⟨noOverflow, knownO, decides⟩ := addNoUOverflowWith_spec z good sortedY
            low.sorted constLow (by omega)
          rw [knownO]
          simp only [Option.bind_eq_bind, Option.bind_some]
          split
          · next holds =>
            have sizeL := And.intro (size_of_isConst constY) (size_of_isConst constLow)
            obtain ⟨sum, knownS, constS, sortedS, valueS⟩ := const_spec good
              (show BvOp.add.flattens = true from rfl) sortedY low.sorted constY constLow (by
                rw [opRank_eq (by decide)]
                omega)
            apply ruleGives_fire
            rw [knownS]
            refine ⟨_, rfl, ?_, fun constA => ?_⟩
            · have joined := concat_computes z sortedX sortedS
              have safe : ∀ M, Safe [a, b] M → Safe [x, sum] M := fun M parts =>
                safe_pair.2 ⟨(stands.safe M (safe_pair.1 parts).1).arg (by simp),
                  nonzeroDivisors_of_isConst constS M⟩
              apply stands_bv left right (by decide) joined.sorted
                fun M parts => joined.safe M (safe M parts)
              intro M parts
              have whole : a.toNat M = x.toNat M * 2 ^ v + y.toNat M := by
                rw [← stands.toNat_eq (safe_pair.1 parts).1, toNat_concat_pair sortedX sortedY]
              have small := decides.of_isTrue holds (safe_pair.2
                ⟨nonzeroDivisors_of_isConst constY M, nonzeroDivisors_of_isConst constLow M⟩)
              have total : sum.toNat M = y.toNat M + b.toNat M := by
                rw [sortedS.toNat_eq M, valueS M, BvOp.denote, BitVec.toNat_add,
                  ← sortedY.toNat_eq M, ← low.sorted.toNat_eq M, Nat.mod_eq_of_lt small, fits M]
              apply BitVec.eq_of_toNat_eq
              rw [← joined.sorted.toNat_eq M, joined.value M (safe M parts), total, BvOp.denote,
                BitVec.toNat_add, ← left.toNat_eq M, ← right.toNat_eq M, whole, ← Nat.add_assoc,
                Nat.mod_eq_of_lt]
              have bound := joined.sorted.toNat_lt M
              rwa [joined.value M (safe M parts), total, ← Nat.add_assoc] at bound
            · rw [notConst] at constA
              cases constA
          · exact ruleGives_skip
        · exact ruleGives_skip
      · exact ruleGives_skip
    · exact ruleGives_skip
  · exact ruleGives_skip

theorem addRound_gives (enough : 2 * (a.size + b.size) ≤ k + 1) :
    Gives (addRound z r a b) fun t => t.Folded .add a b := by
  obtain ⟨o, known, fires⟩ := addConcat_gives z good left right enough
  unfold addRound
  rw [known]
  cases o with
  | some t => exact ⟨t, rfl, fires t rfl⟩
  | none => exact binopCommutative_gives commutes_add good z left right enough

end

omit good in
theorem extract_bit_isAllOnes {i : Nat} (sorted : e.HasSort (.bv w)) (const : e.isConst = true)
    (inside : i < w) (M : Model) : (extract z e i i 3).isAllOnes = (e.toNat M).testBit i := by
  have bit := extract_computes z 3 sorted (le_refl i) inside
  rw [Nat.sub_self, Nat.zero_add] at bit
  have constBit := extract_const z sorted (le_refl i) inside const
  have value := bit.value M (safe_single.2 (nonzeroDivisors_of_isConst const M))
  rw [Bool.eq_iff_iff, isAllOnes_sorted bit.sorted]
  rw [eq_mkUInt bit.sorted constBit value, Nat.testBit_eq_decide_div_mod_eq, decide_eq_true_iff,
    Nat.pow_one]
  rcases Nat.mod_two_eq_zero_or_one (e.toNat M / 2 ^ i) with zero | one
  · rw [zero]
    decide
  · rw [one]
    decide

theorem isPower2With_spec (sorted : e.HasSort (.bv w)) (const : e.isConst = true) (enough : 4 ≤ k)
    (deeper : e.isOne = false → 5 ≤ k) (M : Model) :
    ∃ o, isPower2With z r e = some o ∧ ∀ power, o = some power ↔ e.toNat M = 2 ^ power := by
  unfold isPower2With
  split
  · next zero =>
    refine ⟨none, rfl, fun power => iff_of_false (by simp) ?_⟩
    rw [(isZero_sorted sorted).1 zero, toNat_mkUInt, Nat.zero_mod]
    exact (Nat.two_pow_pos power).ne
  next notZero =>
  have one : (mkUInt 1 w).HasSort (.bv w) := hasSort_mkUInt sorted.pos
  have oneSize : (mkUInt 1 w).size = 1 := rfl
  have deep : 6 ≤ k ∨ (mkUInt 1 w).isOne = true ∧ (e = mkUInt 1 w ∨ 5 ≤ k) := by
    refine .inr ⟨(isOne_sorted one).2 rfl, ?_⟩
    by_cases isOne : e.isOne = true
    · exact .inl ((isOne_sorted sorted).1 isOne)
    · exact .inr (deeper (by simpa using isOne))
  obtain ⟨below, known, constB, sortedB, valueB⟩ :=
    subWith_spec good sorted one const rfl deep
  have sizes := And.intro (size_of_isConst const) (size_of_isConst constB)
  obtain ⟨masked, knownM, constM, sortedM, valueM⟩ := const_spec good
    (show BvOp.and.flattens = true from rfl) sorted sortedB const constB (by
      rw [opRank_eq (by decide)]
      omega)
  rw [sorted.bits_eq, known]
  simp only [Option.bind_eq_bind, Option.bind_some, knownM]
  have nonzero : e.toNat M ≠ 0 := by
    intro isZero
    exact notZero ((isZero_sorted sorted).2 (eq_mkUInt sorted const isZero))
  have maskedValue : masked.toNat M = e.toNat M &&& (e.toNat M - 1) := by
    have fits : 1 < 2 ^ w := Nat.one_lt_two_pow sorted.pos.ne'
    have bound := sorted.toNat_lt M
    have minusOne : (e.bv M w - 1#w).toNat = e.toNat M - 1 := by
      rw [BitVec.toNat_sub, ← sorted.toNat_eq M, BitVec.toNat_ofNat, Nat.mod_eq_of_lt fits,
        show 2 ^ w - 1 + e.toNat M = (e.toNat M - 1) + 2 ^ w by omega, Nat.add_mod_right,
        Nat.mod_eq_of_lt (by omega)]
    rw [sortedM.toNat_eq M, valueM M, BvOp.denote, BitVec.toNat_and, valueB M, bv_mkUInt,
      minusOne, ← sorted.toNat_eq M]
  have isPower : masked.isZero = true ↔ isPower2Nat (e.toNat M) = true := by
    rw [isZero_sorted sortedM, isPower2Nat, decide_eq_true_iff, ← maskedValue]
    constructor
    · intro zero
      refine ⟨nonzero, ?_⟩
      rw [zero, toNat_mkUInt, Nat.zero_mod]
    · intro zero
      exact eq_mkUInt sortedM constM zero.2
  split
  · next zero =>
    obtain ⟨log, value⟩ := isPower2Nat_iff.1 (isPower.1 zero)
    have inside : log < w := by
      rw [← Nat.pow_lt_pow_iff_right (show 1 < 2 by decide), ← value]
      exact sorted.toNat_lt M
    have test : ∀ i ∈ List.range w, ((extract z e i i 3).isAllOnes = true ↔ i = log) := by
      intro i member
      rw [extract_bit_isAllOnes z sorted const (List.mem_range.1 member) M, value,
        Nat.testBit_two_pow, decide_eq_true_iff, Eq.comm]
    have found : (List.range w).find? (fun i => (extract z e i i 3).isAllOnes) = some log := by
      cases result : (List.range w).find? (fun i => (extract z e i i 3).isAllOnes) with
      | none =>
        have member : log ∈ List.range w := List.mem_range.2 inside
        have unset := List.find?_eq_none.1 result log member
        exact absurd ((test log member).2 rfl) unset
      | some i =>
        have set : (extract z e i i 3).isAllOnes = true := by simpa using List.find?_some result
        rw [(test i (List.mem_of_find?_eq_some result)).1 set]
    refine ⟨_, rfl, fun power => ?_⟩
    rw [found, value, Option.some.injEq]
    exact (Nat.pow_right_injective (le_refl 2)).eq_iff.symm
  · next nonzeroMask =>
    refine ⟨none, rfl, fun power => iff_of_false (by simp) fun value => ?_⟩
    exact nonzeroMask (isPower.2 (isPower2Nat_iff.2 ⟨power, value⟩))

theorem mulPower2_gives (left : a.HasSort (.bv w)) (right : b.HasSort (.bv w)) (enough : 4 ≤ k)
    (deeper : b.isOne = false → 5 ≤ k) :
    ∃ o, mulPower2 z r a b = some o ∧ (∀ t, o = some t → t.Folded .mul a b) ∧
      (o = none → b.isOne = false) := by
  unfold mulPower2
  split
  · next constB =>
    obtain ⟨o, known, exponent⟩ := isPower2With_spec z good right constB enough deeper default
    rw [known]
    cases o with
    | none =>
      refine ⟨none, rfl, fun t known => absurd known (by simp), fun _ => ?_⟩
      by_contra one
      rw [Bool.not_eq_false, isOne_sorted right] at one
      have none_found := (exponent 0).2 (by
        rw [one, toNat_mkUInt, Nat.mod_eq_of_lt (Nat.one_lt_two_pow right.pos.ne')]
        rfl)
      cases none_found
    | some power =>
      have value := (exponent power).1 rfl
      have isPower := eq_mkUInt right constB value
      have inside : power < w := by
        rw [← Nat.pow_lt_pow_iff_right (show 1 < 2 by decide), ← value]
        exact right.toNat_lt default
      have amount : (mkUInt power w).HasSort (.bv w) := hasSort_mkUInt left.pos
      have stands := shl_stands z left amount
      have small : power < 2 ^ w := inside.trans Nat.lt_two_pow_self
      rw [left.bits_eq]
      refine ⟨some (shl z a (mkUInt power w)), rfl, fun t known => ?_, fun known => by cases known⟩
      cases known
      refine ⟨stands.trans ?_, fun constA _ => shl_const z left amount constA rfl⟩
      apply stands_bv left right (by decide) (hasSort_bv.2 ⟨left, amount⟩)
      · exact fun M safe => (safe_app (by simp)).2 (safe_pair.2 ⟨(safe_pair.1 safe).1, trivial⟩)
      · intro M _
        rw [bv_bv M left, isPower, bv_mkUInt, bv_mkUInt, BvOp.denote, BvOp.denote,
          BitVec.shiftLeft_eq', BitVec.toNat_ofNat, Nat.mod_eq_of_lt small,
          BitVec.shiftLeft_eq_mul_twoPow]
        congr 1
        apply BitVec.eq_of_toNat_eq
        rw [BitVec.toNat_twoPow, BitVec.toNat_ofNat]
  · next notConst =>
    refine ⟨none, rfl, fun t known => absurd known (by simp), fun _ => ?_⟩
    by_contra one
    rw [Bool.not_eq_false, isOne_sorted right] at one
    rw [one] at notConst
    exact notConst rfl

theorem mulRound_gives (left : a.HasSort (.bv w)) (right : b.HasSort (.bv w))
    (enough : opRank .mul a b ≤ k + 1) : Gives (mulRound z r a b) fun t => t.Folded .mul a b := by
  have sizes := And.intro a.size_pos b.size_pos
  have rank := enough
  rw [opRank, if_pos rfl] at rank
  have four : 4 ≤ k := by split at rank <;> omega
  have five : b.isOne = false → 5 ≤ k := by
    intro notOne
    rw [notOne, if_neg (by decide)] at rank
    omega
  obtain ⟨o, known, fires, skips⟩ := mulPower2_gives z good left right four five
  unfold mulRound
  rw [known]
  cases o with
  | some t => exact ⟨t, rfl, fires t rfl⟩
  | none =>
    obtain ⟨o', known', fires', -⟩ := mulPower2_gives z good right left four
      fun _ => five (skips rfl)
    simp only [Option.bind_eq_bind, Option.bind_some, known']
    cases o' with
    | some t =>
      have folded := fires' t rfl
      exact ⟨t, rfl, folded.stands.trans (commutes_mul.swap left right),
        fun constA constB => folded.const constB constA⟩
    | none =>
      exact binopCommutative_gives commutes_mul good z left right
        ((le_opRank .mul a b).trans enough)

end

end Expr

theorem operators_good (z : Z3) (depth : Nat) : (operators z depth).Good depth := by
  induction depth with
  | zero =>
    intro op a b w flattens left right enough
    have sizes := a.size_pos
    have least := Expr.le_opRank op a b
    omega
  | succ depth good =>
    intro op a b w flattens left right enough
    have least := (Expr.le_opRank op a b).trans enough
    cases op with
    | add => exact Expr.addRound_gives z good left right least
    | mul => exact Expr.mulRound_gives z good left right enough
    | and => exact Expr.andRound_gives z good left right least
    | or => exact Expr.orRound_gives z good left right least
    | xor => exact Expr.xorRound_gives z good left right least
    | sdiv | udiv | srem | urem | shl | ashr | lshr => cases flattens

def Operators.Upto (r r' : Operators) : Prop := ∀ op a b, Smt.Upto (r op a b) (r' op a b)

namespace Expr

section

variable (z : Z3) {r r' : Operators} (upto : r.Upto r')

include upto

theorem binopCommutative_upto (op : BvOp) (identity absorbent : Expr → Bool) (a b : Expr) :
    Upto (binopCommutative z r op identity absorbent a b)
      (binopCommutative z r' op identity absorbent a b) := by
  have joined : ∀ c x y, Upto (Rule.fire do
        let joined ← r op c x
        r op joined y)
      (Rule.fire do
        let joined ← r' op c x
        r' op joined y) := fun c x y =>
    ((upto op c x).bind fun joined => upto op joined y).fire
  have rule : ∀ c e, Upto (reassociate r op c e) (reassociate r' op c e) := by
    intro c e
    unfold reassociate
    split
    · exact .ite (.ite (joined c _ _) (.ite (joined c _ _) (.refl _))) (.refl _)
    · exact .refl _
  refine .ite (.refl _) (.ite (.refl _) (.ite ?_ (.ite ?_ (.refl _))))
  · exact .first (.cons (rule a b) .nil)
  · exact .first (.cons (rule b a) .nil)

variable (a b : Expr)

include a b

theorem subWith_upto : Upto (subWith r a b) (subWith r' a b) :=
  .ite (.refl _) ((upto .mul _ b).bind fun negated => upto .add a negated)

theorem addNoUOverflowWith_upto :
    Upto (addNoUOverflowWith z r a b) (addNoUOverflowWith z r' a b) := by
  refine .ite (.refl _) (.ite ?_ (.ite ?_ ?_))
  · exact (subWith_upto upto _ b).bind fun most => .refl _
  · exact (subWith_upto upto _ a).bind fun most => .refl _
  · exact (upto .add _ _).bind fun sum => .refl _

theorem addRound_upto : Upto (addRound z r a b) (addRound z r' a b) := by
  have concat : Upto (addConcat z r a b) (addConcat z r' a b) := by
    refine .ite ?_ (.refl _)
    split
    · refine .ite (.ite ?_ (.refl _)) (.refl _)
      refine (addNoUOverflowWith_upto z upto _ _).bind fun fits => ?_
      exact .ite ((upto .add _ _).bind fun sum => .refl _).fire (.refl _)
    · exact .refl _
  refine concat.bind fun o => ?_
  cases o with
  | some t => exact .refl _
  | none => exact binopCommutative_upto z upto .add isZero alwaysFalse a b

theorem mulRound_upto : Upto (mulRound z r a b) (mulRound z r' a b) := by
  have power : ∀ e, Upto (isPower2With z r e) (isPower2With z r' e) := by
    intro e
    refine .ite (.refl _) ((subWith_upto upto e _).bind fun below => ?_)
    exact (upto .and e below).bind fun masked => .refl _
  have factor : ∀ a b, Upto (mulPower2 z r a b) (mulPower2 z r' a b) := fun a b =>
    .ite ((power b).bind fun o => .refl _) (.refl _)
  refine (factor a b).bind fun o => ?_
  cases o with
  | some t => exact .refl _
  | none =>
    refine (factor b a).bind fun o' => ?_
    cases o' with
    | some t => exact .refl _
    | none => exact binopCommutative_upto z upto .mul isOne isZero a b

theorem andRound_upto : Upto (andRound z r a b) (andRound z r' a b) := by
  refine .ite (.refl _) (.ite (.refl _) ?_)
  dsimp only
  split
  · exact .refl _
  · exact binopCommutative_upto z upto .and isAllOnes isZero a b

theorem orRound_upto : Upto (orRound z r a b) (orRound z r' a b) := by
  refine .ite (.refl _) (.ite (.refl _) ?_)
  split
  · exact .refl _
  · exact binopCommutative_upto z upto .or isZero isAllOnes a b

theorem xorRound_upto : Upto (xorRound z r a b) (xorRound z r' a b) :=
  .ite (.refl _) (.ite (.refl _) (.ite (.refl _)
    (binopCommutative_upto z upto .xor isZero alwaysFalse a b)))

end

end Expr

theorem operators_upto_succ (z : Z3) (depth : Nat) :
    (operators z depth).Upto (operators z (depth + 1)) := by
  induction depth with
  | zero =>
    intro op a b t known
    cases known
  | succ depth upto =>
    intro op a b
    cases op with
    | add => exact Expr.addRound_upto z upto a b
    | mul => exact Expr.mulRound_upto z upto a b
    | and => exact Expr.andRound_upto z upto a b
    | or => exact Expr.orRound_upto z upto a b
    | xor => exact Expr.xorRound_upto z upto a b
    | sdiv | udiv | srem | urem | shl | ashr | lshr => exact .refl _

theorem operators_upto (z : Z3) {depth depth' : Nat}
    (le : depth ≤ depth') : (operators z depth).Upto (operators z depth') := by
  induction le with
  | refl => exact fun op a b => .refl _
  | step _ ih =>
    intro op a b t known
    exact operators_upto_succ z _ op a b t (ih op a b t known)

namespace Expr

variable (z : Z3)

def operator (op : BvOp) (a b : Expr) : Expr :=
  (operators z (opRank op a b) op a b).getD (.app (.bv op) [a, b])

/-- `operator+`. -/
def add (a b : Expr) : Expr := operator z .add a b

/-- `operator*`. -/
def mul (a b : Expr) : Expr := operator z .mul a b

/-- `operator&`. -/
def bitAnd (a b : Expr) : Expr := operator z .and a b

/-- `operator|`. -/
def bitOr (a b : Expr) : Expr := operator z .or a b

/-- `operator^`. -/
def bitXor (a b : Expr) : Expr := operator z .xor a b

/-- `operator-`. -/
def sub (a b : Expr) : Expr :=
  if a = b then mkUInt 0 a.bits else add z a (mul z (mkInt (-1) a.bits) b)

section

variable {a b e : Expr} {w : Nat} {op : BvOp}

theorem operator_answer
    (flattens : op.flattens = true) (left : a.HasSort (.bv w)) (right : b.HasSort (.bv w)) :
    (operator z op a b).Folded op a b ∧
      ∀ k, opRank op a b ≤ k → operators z k op a b = some (operator z op a b) := by
  obtain ⟨t, known, folded⟩ := operators_good z _ flattens left right (le_refl _)
  rw [operator, known, Option.getD_some]
  exact ⟨folded, fun k enough => operators_upto z enough op a b t known⟩

theorem operator_denotes
    (flattens : op.flattens = true) (left : a.HasSort (.bv w)) (right : b.HasSort (.bv w)) :
    (operator z op a b).Denotes w [a, b] fun M => op.denote (a.bv M w) (b.bv M w) := by
  have other : Op.bv op ≠ .bv .urem := by
    intro same
    cases same
    cases flattens
  have stands := (operator_answer z flattens left right).1.stands
  refine ⟨stands.sorted _ (hasSort_bv.2 ⟨left, right⟩), fun M safe => ?_, fun M safe => ?_⟩
  · exact stands.safe M ((safe_app other).2 safe)
  · rw [stands.bv_eq ((safe_app other).2 safe), bv_bv M left]

end

end Expr

end AliveNext.Smt
