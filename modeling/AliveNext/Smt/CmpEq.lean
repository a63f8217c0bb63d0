import AliveNext.Smt.Pieces

/-!
# A round of `cmp_eq`, and the constructors tied together

Each rule of `cmp_eq` gives a term that stands for the equality of the operands.
The rule for remainders is the one that needs divisors that are not zero. With
it every round is right, hence so is a call of any rank nested deep enough
(`calls_good`).
-/

namespace AliveNext.Smt

/-! ## Bit counts -/

theorem lt_two_pow_bitWidth (n : Nat) : n < 2 ^ bitWidth n := by
  unfold bitWidth
  by_cases zero : n = 0
  · rw [if_pos zero, zero]
    exact Nat.one_pos
  · rw [if_neg zero]
    exact Nat.lt_log2_self

variable {n w i : Nat}

theorem bitWidth_le (fits : n < 2 ^ w) : bitWidth n ≤ w := by
  unfold bitWidth
  by_cases zero : n = 0
  · rw [if_pos zero]
    exact Nat.zero_le w
  · rw [if_neg zero]
    exact (Nat.log2_lt zero).2 fits

theorem testBit_last (positive : 0 < w)
    (fits : n < 2 ^ w) : n.testBit (w - 1) = true ↔ 2 ^ (w - 1) ≤ n := by
  have half := two_pow_half positive
  constructor
  · exact Nat.ge_two_pow_of_testBit
  · intro above
    by_contra unset
    rw [Bool.not_eq_true] at unset
    have zeros : ∀ i, w - 1 ≤ i → n.testBit i = false := by
      intro i high
      by_cases last : i = w - 1
      · rw [last, unset]
      · exact Nat.testBit_lt_two_pow (fits.trans_le (Nat.pow_le_pow_right Nat.two_pos (by omega)))
    have below := Nat.lt_pow_two_of_testBit n zeros
    omega

theorem of_lt_takeWhile {p : Nat → Bool}
    (inside : i < ((List.range n).takeWhile p).length) : p i = true := by
  have holds : p ((List.range n).takeWhile p)[i] = true :=
    List.mem_takeWhile_imp (List.getElem_mem inside)
  rwa [(List.takeWhile_prefix p).getElem inside, List.getElem_range] at holds

theorem testBit_of_lt_countrOne (inside : i < countrOne n) : n.testBit i = true :=
  of_lt_takeWhile inside

theorem testBit_of_lt_countrZero (inside : i < countrZero n) : n.testBit i = false := by
  have unset := of_lt_takeWhile inside
  simpa using unset

namespace Expr

section

variable {e : Expr} {w : Nat} {M : Model}

theorem minLeadingZeros_spec (sorted : e.HasSort (.bv w)) (safe : e.NonzeroDivisors M) :
    e.minLeadingZeros ≤ w ∧ ∀ i, w - e.minLeadingZeros ≤ i → (e.toNat M).testBit i = false := by
  have unknown : 0 ≤ w ∧ ∀ i, w - 0 ≤ i → (e.toNat M).testBit i = false :=
    ⟨Nat.zero_le w, fun i above => sorted.testBit_ge M above⟩
  induction e using Expr.induction generalizing w with
  | bool value => cases hasSort_bool.1 sorted
  | var name s => exact unknown
  | bound index s => exact unknown
  | lambda domain name body => exact unknown
  | num bits value =>
    obtain ⟨-, same⟩ := hasSort_num.1 sorted
    cases same
    rw [minLeadingZeros]
    by_cases small : value.toNat < 2 ^ 64
    · rw [if_pos small]
      have width := bitWidth_le value.isLt
      refine ⟨by omega, fun i above => Nat.testBit_lt_two_pow ?_⟩
      have fits : value.toNat < 2 ^ bitWidth value.toNat := lt_two_pow_bitWidth _
      exact fits.trans_le (Nat.pow_le_pow_right Nat.two_pos (by omega))
    · rw [if_neg small]
      exact unknown
  | app op args ih =>
    unfold minLeadingZeros
    split
    · next a b rest shape =>
      cases shape
      obtain ⟨width, -, -⟩ := hasSort_concat.1 sorted
      cases width
      have piece := @concat_piece [] (b :: rest) a _ sorted
      obtain ⟨le, zeros⟩ := ih a (by simp) piece.sorted (piece.safe M safe)
        ⟨Nat.zero_le _, fun i above => piece.sorted.testBit_ge M above⟩
      rw [List.map_cons, List.sum_cons]
      refine ⟨by omega, fun i above => ?_⟩
      by_cases inside : i < a.bits + ((b :: rest).map bits).sum
      · have bit := piece.bit M safe (i - ((b :: rest).map bits).sum) (by omega)
        rw [List.nil_append, Nat.add_sub_cancel' (by omega)] at bit
        rw [bit]
        exact zeros _ (by omega)
      · exact sorted.testBit_ge M (by simpa using inside)
    · next shape => cases shape
    · exact unknown

theorem minTrailingOnes_spec (sorted : e.HasSort (.bv w)) :
    ∀ i, i < e.minTrailingOnes → (e.toNat M).testBit i = true := by
  intro i inside
  unfold minTrailingOnes at inside
  split at inside
  · next n known =>
    obtain ⟨rfl, small, -⟩ := isUInt_sorted sorted known
    rw [toNat_mkUInt, Nat.mod_eq_of_lt small]
    exact testBit_of_lt_countrOne inside
  · omega

end

section

variable {a b : Expr} {w : Nat}

theorem hasSort_ule_of
    (left : a.HasSort (.bv w)) (right : b.HasSort (.bv w)) : HasSort (.app .ule [a, b]) .bool :=
  hasSort_ule.2 ⟨rfl, w, left, right⟩

theorem truth_ule_toNat (left : a.HasSort (.bv w)) (right : b.HasSort (.bv w)) (M : Model) :
    truth (.app .ule [a, b]) M = true ↔ a.toNat M ≤ b.toNat M := by
  rw [truth_ule M left, left.toNat_eq M, right.toNat_eq M, BitVec.ule, decide_eq_true_iff]

theorem le_of_bits {m n low : Nat} (zeros : ∀ i, low ≤ i → m.testBit i = false)
    (ones : ∀ i, i < low → n.testBit i = true) : m ≤ n := by
  have small : m < 2 ^ low := Nat.lt_pow_two_of_testBit m zeros
  have bottom : n % 2 ^ low = 2 ^ low - 1 := by
    apply Nat.eq_of_testBit_eq
    intro i
    rw [Nat.testBit_mod_two_pow, Nat.testBit_two_pow_sub_one]
    by_cases inside : i < low
    · rw [ones i inside, Bool.and_true]
    · rw [decide_eq_false inside, Bool.false_and]
  have le := Nat.mod_le n (2 ^ low)
  omega

variable {r : Calls} {k : Nat} (z : Z3) (good : r.Good k) (left : a.HasSort (.bv w))
  (right : b.HasSort (.bv w))

include good left right

theorem ule_spec (enough : 4 * (a.size + b.size) + 1 ≤ k) :
    Gives (uleWith r z a b) fun t => t.Decides [a, b] fun M => a.toNat M ≤ b.toNat M := by
  unfold uleWith
  split
  · next trivial =>
    refine ⟨_, rfl, .const fun M safe => iff_of_true rfl ?_⟩
    rcases trivial with rfl | zero | ones
    · exact le_refl _
    · rw [(isZero_sorted left).1 zero, toNat_mkUInt, Nat.zero_mod]
      exact Nat.zero_le _
    · rw [(isAllOnes_sorted right).1 ones, toNat_num, BitVec.toNat_allOnes]
      exact Nat.le_sub_one_of_lt (left.toNat_lt M)
  split
  · next extreme =>
    obtain ⟨t, known, stands⟩ := good.cmpEq left right ((cmpEqRank_le a b).trans enough)
    refine ⟨t, known, ((decides_eq left right).of_stands stands).congr fun M safe => ?_⟩
    rw [left.bv_congr right]
    rcases extreme with zero | ones
    · rw [(isZero_sorted right).1 zero, toNat_mkUInt, Nat.zero_mod]
      omega
    · have bound := right.toNat_lt M
      rw [(isAllOnes_sorted left).1 ones, toNat_num, BitVec.toNat_allOnes]
      omega
  split
  · next enoughBits =>
    refine ⟨_, rfl, .const fun M safe => iff_of_true rfl ?_⟩
    rw [safe_pair] at safe
    rw [left.bits_eq] at enoughBits
    obtain ⟨le, zeros⟩ := minLeadingZeros_spec left safe.1
    apply le_of_bits zeros
    intro i inside
    exact minTrailingOnes_spec right i (by omega)
  · have whole := hasSort_ule_of left right
    have plain := Decides.plain (by simp) whole (truth_ule_toNat left right)
    exact ⟨_, rfl, plain.of_stands (simplifyConst_same z rfl whole).standsFor⟩

theorem ult_spec (enough : 4 * (a.size + b.size) + 1 ≤ k) :
    Gives (ultWith r z a b) fun t => t.Decides [a, b] fun M => a.toNat M < b.toNat M := by
  unfold ultWith
  split
  · next n known =>
    obtain ⟨rfl, small, -⟩ := isUInt_sorted right known
    by_cases zero : n = 0
    · subst zero
      rw [if_pos rfl]
      refine ⟨_, rfl, .const fun M safe => ?_⟩
      simp
    · rw [if_neg zero, left.bits_eq]
      have one : (mkUInt (n - 1) w).size = (mkUInt n w).size := rfl
      have below : (mkUInt (n - 1) w).HasSort (.bv w) := hasSort_mkUInt left.pos
      obtain ⟨t, known, decides⟩ := ule_spec z good left below (by omega)
      refine ⟨t, known, decides.sorted, fun M safe => ?_, fun M safe => ?_⟩
      · exact decides.safe M (safe_pair.2 ⟨(safe_pair.1 safe).1, trivial⟩)
      · rw [decides.truth M (safe_pair.2 ⟨(safe_pair.1 safe).1, trivial⟩), toNat_mkUInt,
          toNat_mkUInt, Nat.mod_eq_of_lt small, Nat.mod_eq_of_lt (by omega)]
        omega
  · obtain ⟨t, known, decides⟩ := ule_spec z good right left (by omega)
    refine ⟨_, by rw [known]; rfl, ?_⟩
    have swapped : ([b, a] : List Expr) ⊆ [a, b] := by simp
    exact (decides.not.mono swapped).congr fun M _ => Nat.not_le

end

/-! ## The rules of `cmp_eq` -/

def RuleEquates (rule : Rule) (a b : Expr) : Prop :=
  RuleGives rule fun t => t.StandsFor (.app .eq [a, b])

section Equality

variable {a b c d e : Expr} {s s' : Srt} {w : Nat}

theorem size_concat_arg {args : List Expr} (long : 2 ≤ args.length)
    (member : e ∈ args) : e.size + 2 ≤ size (.app .concat args) := by
  have positive : ∀ l : List Expr, l.length ≤ (l.map size).sum := by
    intro l
    have each : ∀ n ∈ l.map size, 1 ≤ n := by
      intro n inside
      obtain ⟨f, -, rfl⟩ := List.mem_map.1 inside
      exact f.size_pos
    simpa using List.length_le_sum_of_one_le _ each
  obtain ⟨before, after, rfl⟩ := List.append_of_mem member
  have others := And.intro (positive before) (positive after)
  rw [List.length_append, List.length_cons] at long
  rw [size_app _ (by simp), List.map_append, List.map_cons, List.sum_append, List.sum_cons]
  omega

theorem eq_of_eq (inner : c.HasSort s') (inner' : d.HasSort s') (left : a.HasSort s)
    (right : b.HasSort s) (safe : ∀ M, Safe [a, b] M → Safe [c, d] M)
    (same : ∀ M, Safe [a, b] M → (c.eval M = d.eval M ↔ a.eval M = b.eval M)) :
    StandsFor (.app .eq [c, d]) (.app .eq [a, b]) := by
  have plain := decides_eq inner inner'
  apply Decides.eq _ left right
  refine ⟨plain.sorted, fun M parts => plain.safe M (safe M parts), fun M parts => ?_⟩
  rw [plain.truth M (safe M parts), same M parts]

section

variable (left : a.HasSort s) (right : b.HasSort s)

include left right

theorem eq_comm : StandsFor (.app .eq [b, a]) (.app .eq [a, b]) := by
  apply eq_of_eq right left left right
  · intro M safe
    exact safe_pair.2 (safe_pair.1 safe).symm
  · exact fun M _ => Eq.comm

theorem eq_false (different : ∀ M, Safe [a, b] M → a.eval M ≠ b.eval M) :
    StandsFor (.bool false) (.app .eq [a, b]) :=
  (Decides.const fun M safe => iff_of_false Bool.false_ne_true (different M safe)).eq left right

theorem eval_ne_of_isConst (constA : a.isConst = true)
    (constB : b.isConst = true) (different : a ≠ b) (M : Model) : a.eval M ≠ b.eval M := by
  cases s with
  | bool =>
    obtain ⟨x, rfl⟩ := eq_bool_of_isConst constA left
    obtain ⟨y, rfl⟩ := eq_bool_of_isConst constB right
    simpa [eval] using different
  | bv w =>
    obtain ⟨x, rfl⟩ := eq_num_of_isConst constA left
    obtain ⟨y, rfl⟩ := eq_num_of_isConst constB right
    simpa [eval] using different
  | array domain range =>
    cases a with
    | num bits value => cases (hasSort_num.1 left).2
    | bool value => cases hasSort_bool.1 left
    | var name s => cases constA
    | bound index s => cases constA
    | app op args => cases constA
    | lambda domain name body => cases constA
  | other kind =>
    cases a with
    | num bits value => cases (hasSort_num.1 left).2
    | bool value => cases hasSort_bool.1 left
    | var name s => cases constA
    | bound index s => cases constA
    | app op args => cases constA
    | lambda domain name body => cases constA

end

theorem isBasePlusOffset_spec (sorted : e.HasSort (.bv w)) :
    e.isBasePlusOffset.1.HasSort (.bv w) ∧ e.isBasePlusOffset.2 < 2 ^ w ∧
      ∀ M, e.toNat M = (e.isBasePlusOffset.1.toNat M + e.isBasePlusOffset.2) % 2 ^ w := by
  have itself : e.HasSort (.bv w) ∧ 0 < 2 ^ w ∧ ∀ M, e.toNat M = (e.toNat M + 0) % 2 ^ w :=
    ⟨sorted, Nat.two_pow_pos w, fun M => (Nat.mod_eq_of_lt (sorted.toNat_lt M)).symm⟩
  unfold isBasePlusOffset
  split
  · next x y shape =>
    rw [isAdd, isBinOp_eq_some] at shape
    subst shape
    obtain ⟨left, right⟩ := hasSort_bv.1 sorted
    have sum : ∀ M, toNat (.app (.bv .add) [x, y]) M = (x.toNat M + y.toNat M) % 2 ^ w := by
      intro M
      rw [sorted.toNat_eq M, bv_bv M left, BvOp.denote, BitVec.toNat_add, ← left.toNat_eq M,
        ← right.toNat_eq M]
    split
    · next offset known =>
      obtain ⟨rfl, small, -⟩ := isUInt_sorted left known
      refine ⟨right, small, fun M => ?_⟩
      rw [sum M, toNat_mkUInt, Nat.mod_eq_of_lt small, Nat.add_comm]
    · next offset _ known =>
      obtain ⟨rfl, small, -⟩ := isUInt_sorted right known
      refine ⟨left, small, fun M => ?_⟩
      rw [sum M, toNat_mkUInt, Nat.mod_eq_of_lt small]
    · exact itself
  · exact itself

theorem exists_width
    {op : BvOp} {args : List Expr} (sorted : HasSort (.app (.bv op) args) s) : ∃ w, s = .bv w := by
  obtain ⟨-, accepted, result⟩ := hasSort_app.1 sorted
  obtain ⟨v, t, rest, shape, -⟩ := Op.accepts_bv.1 accepted
  rw [shape] at result
  exact ⟨v, result.symm⟩

theorem isBasePlusOffset_zero
    (sorted : e.HasSort s) (other : ∀ w, s ≠ .bv w) : e.isBasePlusOffset.2 = 0 := by
  unfold isBasePlusOffset
  split
  · next x y shape =>
    rw [isAdd, isBinOp_eq_some] at shape
    subst shape
    obtain ⟨w, width⟩ := exists_width sorted
    exact absurd width (other w)
  · rfl

theorem eqOfOffsets_equates
    (left : a.HasSort s) (right : b.HasSort s) : RuleEquates (eqOfOffsets a b) a b := by
  show RuleEquates (if a.isBasePlusOffset.1 = b.isBasePlusOffset.1 ∧
      a.isBasePlusOffset.2 ≠ b.isBasePlusOffset.2 then .fire (some (.bool false)) else .skip) a b
  by_cases offsets : a.isBasePlusOffset.1 = b.isBasePlusOffset.1 ∧
      a.isBasePlusOffset.2 ≠ b.isBasePlusOffset.2
  · rw [if_pos offsets]
    by_cases other : ∀ w, s ≠ .bv w
    · rw [isBasePlusOffset_zero left other, isBasePlusOffset_zero right other] at offsets
      exact absurd rfl offsets.2
    · rw [not_forall_not] at other
      obtain ⟨w, rfl⟩ := other
      apply ruleGives_fire
      refine ⟨_, rfl, eq_false left right fun M _ => ?_⟩
      obtain ⟨-, smallA, valueA⟩ := isBasePlusOffset_spec left
      obtain ⟨-, smallB, valueB⟩ := isBasePlusOffset_spec right
      rw [Ne, left.bv_congr right, valueA M, valueB M, offsets.1]
      intro equal
      have congruent := Nat.ModEq.add_left_cancel' _ equal
      exact offsets.2 (Nat.ModEq.eq_of_lt_of_lt congruent smallA smallB)
  · rw [if_neg offsets]
    exact ruleGives_skip

variable {r : Calls} {k : Nat} (z : Z3) (good : r.Good k) (left : a.HasSort s) (right : b.HasSort s)
  (enough : a.cmpEqRank b ≤ k + 1)

include good left right enough

omit z in
theorem eqOfConst_equates : RuleEquates (eqOfConst r a b) a b := by
  unfold eqOfConst
  split
  · next same =>
    subst same
    apply ruleGives_fire
    exact ⟨_, rfl, (Decides.const fun M _ => iff_of_true rfl rfl).eq left right⟩
  next different =>
  split
  · next constA =>
    split
    · next constB =>
      apply ruleGives_fire
      refine ⟨_, rfl, eq_false left right fun M _ => ?_⟩
      exact eval_ne_of_isConst left right constA constB different M
    · next constB =>
      have rank : b.cmpEqRank a ≤ k := by
        have swapped : swaps a b = true := by simp [swaps, constA, constB]
        have noIf : a.isIf = none := by
          cases a <;> first | rfl | cases constA
        have straight : swaps b a = false := by simp [swaps, constB, noIf]
        rw [cmpEqRank, swapped] at enough
        rw [cmpEqRank, straight]
        simp only [Bool.toNat_true, Bool.toNat_false] at enough ⊢
        omega
      obtain ⟨t, known, stands⟩ := good.cmpEq right left rank
      exact ruleGives_fire ⟨t, known, stands.trans (eq_comm left right)⟩
  split
  · next holds =>
    rw [isTrue_iff] at holds
    subst holds
    cases hasSort_bool.1 right
    apply ruleGives_fire
    refine ⟨_, rfl, Decides.eq ?_ left right⟩
    refine ⟨left, fun M safe => (safe_pair.1 safe).1, fun M _ => ?_⟩
    rw [left.bool_congr right, truth_bool]
  split
  · next fails =>
    rw [isFalse_iff] at fails
    subst fails
    cases hasSort_bool.1 right
    apply ruleGives_fire
    refine ⟨_, rfl, Decides.eq ?_ left right⟩
    refine ⟨hasSort_not_eq left,
      fun M safe => nonzeroDivisors_not left (safe_pair.1 safe).1, fun M _ => ?_⟩
    rw [left.bool_congr right, truth_bool, truth_not_eq left, Bool.not_eq_true']
  · exact ruleGives_skip

omit z in
theorem eqOfOneBit_equates : RuleEquates (eqOfOneBit r a b) a b := by
  unfold eqOfOneBit
  split
  · next x y x' y' shapeA shapeB =>
    rw [isEq_eq_some] at shapeA shapeB
    subst shapeA shapeB
    by_cases oneBit : x.sort = .bv 1 ∧ x = x'
    · rw [if_pos oneBit]
      obtain ⟨width, rfl⟩ := oneBit
      obtain ⟨rfl, t, first, second⟩ := hasSort_eq.1 left
      obtain ⟨-, t', first', second'⟩ := hasSort_eq.1 right
      cases first.unique first'
      have wide : t = .bv 1 := first.sort_eq.symm.trans width
      subst wide
      have rank : y.cmpEqRank y' ≤ k := by
        have sizes := cmpEqRank_le y y'
        have sizeA : size (.app .eq [x, y]) = x.size + y.size + 1 := size_pair (by simp)
        have sizeB : size (.app .eq [x, y']) = x.size + y'.size + 1 := size_pair (by simp)
        rw [cmpEqRank] at enough
        omega
      obtain ⟨t, known, stands⟩ := good.cmpEq second second' rank
      apply ruleGives_fire
      refine ⟨t, known, stands.trans (eq_of_eq second second' left right ?_ ?_)⟩
      · intro M safe
        rw [safe_pair] at safe ⊢
        exact ⟨safe.1.arg (by simp), safe.2.arg (by simp)⟩
      · intro M safe
        rw [second.bv_congr second', left.bool_congr right, truth_eq_bv M first second,
          truth_eq_bv M first second', decide_eq_decide]
        have boundX := first.toNat_lt M
        have boundY := second.toNat_lt M
        have boundY' := second'.toNat_lt M
        omega
    · rw [if_neg oneBit]
      exact ruleGives_skip
  · exact ruleGives_skip

theorem eqOfConcatConst_equates : RuleEquates (eqOfConcatConst r z a b) a b := by
  unfold eqOfConcatConst
  split
  · next args =>
    by_cases const : b.isConst = true
    · rw [if_pos const]
      obtain ⟨width, long, parts⟩ := hasSort_concat.1 left
      subst width
      rw [cmpEqRank, size_of_isConst const] at enough
      have each : ∀ e ∈ args, 4 * (e.size + 1) + 1 ≤ k := by
        intro e member
        have smaller := size_concat_arg long member
        omega
      obtain ⟨e, member⟩ := List.exists_mem_of_length_pos (show 0 < args.length by omega)
      have least := And.intro (size_concat_arg long member) e.size_pos
      have shape : Expr.app .concat args = .app .concat ([] ++ args) := rfl
      have none_yet : AndExpr.AgreeFrom {} (.app .concat args) b (args.map bits).sum := by
        intro M _ _ _ i above
        rw [left.testBit_ge M above, right.testBit_ge M above]
      obtain ⟨eqs, known, follows, agree⟩ := eqPieces_spec z good shape left right (le_refl _)
        const (by omega) each .empty none_yet
      rw [left.bits_eq, known]
      exact ruleGives_fire ⟨eqs.toExpr, rfl, follows.standsFor left right (.inl agree)⟩
    · rw [if_neg const]
      exact ruleGives_skip
  · exact ruleGives_skip

theorem eqOfConcats_equates : RuleEquates (eqOfConcats r z a b) a b := by
  unfold eqOfConcats
  split
  · next ls rs =>
    by_cases length : ls.length = rs.length
    · rw [if_pos length]
      obtain ⟨width, longL, -⟩ := hasSort_concat.1 left
      obtain ⟨width', longR, -⟩ := hasSort_concat.1 right
      subst width
      have total := Srt.bv.inj width'
      rw [cmpEqRank] at enough
      have each : ∀ e ∈ ls, ∀ f ∈ rs, 4 * (e.size + f.size) + 9 ≤ k := by
        intro e inL f inR
        have smaller := And.intro (size_concat_arg longL inL) (size_concat_arg longR inR)
        omega
      have shapeL : Expr.app .concat ls = .app .concat ([] ++ ls) := rfl
      have shapeR : Expr.app .concat rs = .app .concat ([] ++ rs) := rfl
      have none_yet : true = true → 0 = 0 ∧
          AndExpr.AgreeFrom {} (.app .concat ls) (.app .concat rs) (ls.map bits).sum := by
        refine fun _ => ⟨rfl, fun M _ _ _ i above => ?_⟩
        rw [left.testBit_ge M above, right.testBit_ge M above]
      obtain ⟨aligned, eqs, known, follows, agree⟩ := eqZip_spec z good shapeL shapeR left right
        length (Nat.zero_add _) (by rw [Nat.zero_add, total]) each .empty none_yet
      rw [known]
      simp only [Option.bind_eq_bind, Option.bind_some]
      by_cases decided : aligned = true ∨ eqs.toBool = false
      · rw [if_pos decided]
        have complete := decided.imp_left agree
        exact ruleGives_fire ⟨eqs.toExpr, rfl, follows.standsFor left right complete⟩
      · rw [if_neg decided]
        exact ruleGives_skip
    · rw [if_neg length]
      exact ruleGives_skip
  · exact ruleGives_skip

/-- `pushed` is the rule for a conditional against any term. -/
theorem eqOfIf_pushed_equates {x y : Expr} (shape : a = .app .ite [c, x, y]) :
    RuleEquates (eqOfIf.pushed r z b c x y) a b := by
  subst shape
  obtain ⟨cond, first, second⟩ := hasSort_ite.1 left
  unfold eqOfIf.pushed
  split
  · have sizes : size (.app .ite [c, x, y]) = c.size + x.size + y.size + 2 :=
      size_triple (by simp)
    have positive := And.intro x.size_pos y.size_pos
    rw [cmpEqRank] at enough
    obtain ⟨t, knownT, standsT⟩ := good.cmpEq first right ((cmpEqRank_le x b).trans (by omega))
    obtain ⟨u, knownU, standsU⟩ := good.cmpEq second right ((cmpEqRank_le y b).trans (by omega))
    have decidesT := (decides_eq first right).of_stands standsT
    have decidesU := (decides_eq second right).of_stands standsU
    have spec := mkIf_spec z (hasSort_ite.2 ⟨cond, decidesT.sorted, decidesU.sorted⟩)
    have whole : HasSort (.app .ite [c, t, u]) .bool :=
      hasSort_ite.2 ⟨cond, decidesT.sorted, decidesU.sorted⟩
    have plain : Decides (.app .ite [c, t, u]) [.app .ite [c, x, y], b]
        fun M => eval (.app .ite [c, x, y]) M = b.eval M := by
      refine ⟨whole, fun M safe => ?_, fun M safe => ?_⟩
      · rw [safe_pair, safe_app (by simp), safe_triple] at safe
        exact (nonzeroDivisors_triple (by simp)).2 ⟨safe.1.1,
          decidesT.safe M (safe_pair.2 ⟨safe.1.2.1, safe.2⟩),
          decidesU.safe M (safe_pair.2 ⟨safe.1.2.2, safe.2⟩)⟩
      · rw [safe_pair, safe_app (by simp), safe_triple] at safe
        rw [truth_ite, eval_ite]
        by_cases holds : c.truth M = true
        · rw [if_pos holds, if_pos holds, decidesT.truth M (safe_pair.2 ⟨safe.1.2.1, safe.2⟩)]
        · rw [if_neg holds, if_neg holds, decidesU.truth M (safe_pair.2 ⟨safe.1.2.2, safe.2⟩)]
    apply ruleGives_fire
    rw [knownT, knownU]
    exact ⟨_, rfl, (plain.of_stands spec.same.standsFor).eq left right⟩
  · exact ruleGives_skip

theorem eqOfIf_equates : RuleEquates (eqOfIf r z a b) a b := by
  unfold eqOfIf
  split
  · next c x y shape =>
    rw [isIf_eq_some] at shape
    split
    · next c' x' y' shape' =>
      rw [isIf_eq_some] at shape'
      split
      · next same =>
        subst shape shape'
        obtain ⟨rfl, rfl, different, constX, constY⟩ := same
        obtain ⟨cond, first, second⟩ := hasSort_ite.1 left
        obtain ⟨cond', -, -⟩ := hasSort_ite.1 right
        have ne : ∀ M, x.eval M ≠ y.eval M := fun M =>
          eval_ne_of_isConst first second constX constY different M
        have rank : c.cmpEqRank c' ≤ k := by
          have sizes := cmpEqRank_le c c'
          have sizeA : size (.app .ite [c, x, y]) = c.size + x.size + y.size + 2 :=
            size_triple (by simp)
          have sizeB : size (.app .ite [c', x, y]) = c'.size + x.size + y.size + 2 :=
            size_triple (by simp)
          rw [cmpEqRank] at enough
          omega
        obtain ⟨t, known, stands⟩ := good.cmpEq cond cond' rank
        apply ruleGives_fire
        refine ⟨t, known, stands.trans (eq_of_eq cond cond' left right ?_ ?_)⟩
        · intro M safe
          rw [safe_pair] at safe ⊢
          exact ⟨safe.1.arg (by simp), safe.2.arg (by simp)⟩
        · intro M _
          rw [cond.bool_congr cond', eval_ite, eval_ite]
          cases c.truth M <;> cases c'.truth M <;> simp [ne M, (ne M).symm]
      · exact eqOfIf_pushed_equates z good left right enough shape
    · exact eqOfIf_pushed_equates z good left right enough shape
  · next noIf =>
    split
    · next isIf =>
      have rank : b.cmpEqRank a ≤ k := by
        have swapped : swaps a b = true := by simp [swaps, noIf, isIf]
        have notConst : b.isConst = false := by
          cases b <;> first | rfl | cases isIf
        have straight : swaps b a = false := by simp [swaps, noIf, notConst]
        rw [cmpEqRank, swapped] at enough
        rw [cmpEqRank, straight]
        simp only [Bool.toNat_true, Bool.toNat_false] at enough ⊢
        omega
      obtain ⟨t, known, stands⟩ := good.cmpEq right left rank
      exact ruleGives_fire ⟨t, known, stands.trans (eq_comm left right)⟩
    · exact ruleGives_skip

theorem eqOfAdd_equates : RuleEquates (eqOfAdd r z a b) a b := by
  unfold eqOfAdd
  split
  · next x y shape =>
    rw [isAdd, isBinOp_eq_some] at shape
    subst shape
    obtain ⟨w, rfl⟩ := exists_width left
    obtain ⟨first, second⟩ := hasSort_bv.1 left
    have sizes : size (.app (.bv .add) [x, y]) = x.size + y.size + 1 := size_pair (by simp)
    have positive := And.intro x.size_pos (And.intro y.size_pos b.size_pos)
    rw [cmpEqRank] at enough
    obtain ⟨signX, knownX, decidesX⟩ := isNegative_spec good first (by omega)
    obtain ⟨signY, knownY, decidesY⟩ := isNegative_spec good second (by omega)
    obtain ⟨belowX, knownBX, decidesBX⟩ := ult_spec z good right first (by omega)
    obtain ⟨belowY, knownBY, decidesBY⟩ := ult_spec z good right second (by omega)
    rw [knownX, knownY, knownBX, knownBY]
    simp only [Option.bind_eq_bind, Option.bind_some]
    split
    · next known =>
      obtain ⟨positiveX, positiveY, below⟩ := known
      apply ruleGives_fire
      refine ⟨_, rfl, eq_false left right fun M safe => ?_⟩
      rw [safe_pair, safe_app (by simp), safe_pair] at safe
      have smallX := decidesX.of_isFalse positiveX (safe_single.2 safe.1.1)
      have smallY := decidesY.of_isFalse positiveY (safe_single.2 safe.1.2)
      have less : b.toNat M < x.toNat M ∨ b.toNat M < y.toNat M := by
        rcases below with belowA | belowB
        · exact .inl (decidesBX.of_isTrue belowA (safe_pair.2 ⟨safe.2, safe.1.1⟩))
        · exact .inr (decidesBY.of_isTrue belowB (safe_pair.2 ⟨safe.2, safe.1.2⟩))
      rw [Ne, left.bv_congr right, left.toNat_eq M, bv_bv M first, BvOp.denote,
        BitVec.toNat_add, ← first.toNat_eq M, ← second.toNat_eq M]
      rw [testBit_last first.pos (first.toNat_lt M)] at smallX
      rw [testBit_last second.pos (second.toNat_lt M)] at smallY
      have half := two_pow_half first.pos
      rw [Nat.mod_eq_of_lt (by omega)]
      omega
    · exact ruleGives_skip
  · exact ruleGives_skip

theorem eqOfURem_equates : RuleEquates (eqOfURem r z a b) a b := by
  unfold eqOfURem
  split
  · next x y shape =>
    rw [isURem, isBinOp_eq_some] at shape
    subst shape
    obtain ⟨w, rfl⟩ := exists_width left
    obtain ⟨first, second⟩ := hasSort_bv.1 left
    have sizes : size (.app (.bv .urem) [x, y]) = x.size + y.size + 1 := size_pair (by simp)
    have positive := x.size_pos
    rw [cmpEqRank] at enough
    obtain ⟨above, known, decides⟩ := ule_spec z good second right (by omega)
    rw [known]
    simp only [Option.bind_eq_bind, Option.bind_some]
    split
    · next holds =>
      apply ruleGives_fire
      refine ⟨_, rfl, eq_false left right fun M safe => ?_⟩
      rw [safe_pair, nonzeroDivisors_urem] at safe
      have le := decides.of_isTrue holds (safe_pair.2 ⟨safe.1.2.1, safe.2⟩)
      have nonzero : 0 < y.toNat M := Nat.pos_of_ne_zero safe.1.2.2
      have less := Nat.mod_lt (x.toNat M) nonzero
      rw [Ne, left.bv_congr right, left.toNat_eq M, bv_bv M first, BvOp.denote,
        BitVec.toNat_umod, ← first.toNat_eq M, ← second.toNat_eq M]
      omega
    · exact ruleGives_skip
  · exact ruleGives_skip

omit z in
theorem eqOfSignExt_zero_equates {amount : Nat} {x : Expr}
    (shape : a = .app (.signExt amount) [x]) : RuleEquates (eqOfSignExt.zero r b x) a b := by
  subst shape
  obtain ⟨w, rfl, inner⟩ := hasSort_signExt.1 left
  unfold eqOfSignExt.zero
  split
  · next zero =>
    rw [isZero_sorted right] at zero
    subst zero
    have zeros : (mkUInt 0 w).HasSort (.bv w) := hasSort_mkUInt inner.pos
    have rank : x.cmpEqRank (mkUInt 0 w) ≤ k := by
      have le := cmpEqRank_le x (mkUInt 0 w)
      have sizes : size (.app (.signExt amount) [x]) = x.size + 2 := by simp [size]
      have one : (mkUInt 0 w).size = 1 := rfl
      have one' : (mkUInt 0 (w + amount)).size = 1 := rfl
      rw [cmpEqRank] at enough
      omega
    obtain ⟨t, known, stands⟩ := good.cmpEq inner zeros rank
    apply ruleGives_fire
    rw [inner.bits_eq]
    refine ⟨t, known, stands.trans (eq_of_eq inner zeros left right ?_ ?_)⟩
    · intro M safe
      rw [safe_pair] at safe ⊢
      exact ⟨safe.1.arg (by simp), trivial⟩
    · intro M _
      rw [← truth_eq, ← truth_eq, truth_eq_bits inner zeros, truth_eq_bits left right]
      simp only [testBit_signExt M inner, toNat_mkUInt, Nat.zero_mod, Nat.zero_testBit]
      have positive := inner.pos
      constructor
      · intro none_set i inside
        by_cases low : i < w
        · simp [low, none_set i low]
        · simp [low, none_set (w - 1) (by omega)]
      · intro none_set i inside
        have bit := none_set i (by omega)
        simpa [inside, show i < w + amount by omega] using bit
  · exact ruleGives_skip

omit z in
theorem eqOfSignExt_equates : RuleEquates (eqOfSignExt r a b) a b := by
  unfold eqOfSignExt
  split
  · next x shapeX =>
    obtain ⟨amount, shapeA⟩ := isSignExt_eq_some.1 shapeX
    have zero := eqOfSignExt_zero_equates good left right enough shapeA
    split
    · next y shapeY =>
      obtain ⟨amount', shapeB⟩ := isSignExt_eq_some.1 shapeY
      split
      · next width =>
        subst shapeA shapeB
        obtain ⟨v, rfl, first⟩ := hasSort_signExt.1 left
        obtain ⟨v', total, second⟩ := hasSort_signExt.1 right
        rw [first.bits_eq, second.bits_eq] at width
        subst width
        have rank : x.cmpEqRank y ≤ k := by
          have le := cmpEqRank_le x y
          have sizeA : size (.app (.signExt amount) [x]) = x.size + 2 := by simp [size]
          have sizeB : size (.app (.signExt amount') [y]) = y.size + 2 := by simp [size]
          rw [cmpEqRank] at enough
          omega
        obtain ⟨t, known, stands⟩ := good.cmpEq first second rank
        apply ruleGives_fire
        refine ⟨t, known, stands.trans (eq_of_eq first second left right ?_ ?_)⟩
        · intro M safe
          rw [safe_pair] at safe ⊢
          exact ⟨safe.1.arg (by simp), safe.2.arg (by simp)⟩
        · intro M _
          rw [← truth_eq, ← truth_eq, truth_eq_bits first second, truth_eq_bits left right]
          simp only [testBit_signExt M first, testBit_signExt M second]
          have amounts : amount' = amount := by
            have widths := Srt.bv.inj total
            omega
          subst amounts
          have positive := first.pos
          constructor
          · intro same i inside
            by_cases low : i < v
            · simp [low, same i low]
            · simp [low, same (v - 1) (by omega)]
          · intro same i inside
            have bit := same i (by omega)
            simpa [inside, show i < v + amount' by omega] using bit
      · exact zero
    · exact zero
  · exact ruleGives_skip

theorem cmpEqRound_equates : Gives (cmpEqRound r z a b) fun t => t.StandsFor (.app .eq [a, b]) := by
  have plain : (binopOrdered z .eq a b).StandsFor (.app .eq [a, b]) := by
    unfold binopOrdered
    split
    · exact (simplifyConst_same z rfl (hasSort_eq_of left right)).standsFor
    · exact (simplifyConst_same z rfl (hasSort_eq_of right left)).standsFor.trans
        (eq_comm left right)
  refine gives_first ?_ plain
  simp only [List.forall_mem_cons]
  refine ⟨eqOfConst_equates good left right enough, eqOfOneBit_equates good left right enough,
    eqOfOffsets_equates left right,
    eqOfConcatConst_equates z good left right enough,
    eqOfConcats_equates z good left right enough,
    eqOfIf_equates z good left right enough,
    eqOfAdd_equates z good left right enough,
    eqOfURem_equates z good left right enough,
    eqOfSignExt_equates good left right enough,
    List.forall_mem_nil _⟩

end Equality

end Expr

/-! ## The knot -/

theorem calls_good (z : Z3) (depth : Nat) : (calls z depth).Good depth := by
  induction depth with
  | zero =>
    constructor
    · intro e w high low depth sorted ordered inside enough
      unfold Expr.extractRank at enough
      omega
    · intro a b v w left right enough
      unfold Expr.concatRank at enough
      omega
    · intro e w amount sorted enough
      unfold Expr.sextRank at enough
      omega
    · intro a b s left right enough
      have positive := a.size_pos
      unfold Expr.cmpEqRank at enough
      omega
  | succ depth good =>
    constructor
    · intro e w high low n sorted ordered inside enough
      exact Expr.extractRound_builds z good n sorted ordered inside enough
    · intro a b v w left right enough
      exact Expr.concatRound_builds z good left right enough
    · intro e w amount sorted enough
      exact Expr.sextRound_builds z good amount sorted enough
    · intro a b s left right enough
      exact Expr.cmpEqRound_equates z good left right enough

end AliveNext.Smt
