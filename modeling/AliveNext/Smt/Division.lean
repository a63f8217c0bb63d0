import AliveNext.Smt.Operators

/-!
# Comparisons, shifts and divisions keep their meaning
-/

namespace AliveNext.Smt

theorem isPower2Nat_iff {n : Nat} : isPower2Nat n = true ↔ ∃ log, n = 2 ^ log := by
  rw [isPower2Nat, decide_eq_true_iff]
  exact Nat.ne_zero_and_sub_one_eq_zero_iff_isPowerOfTwo

theorem smtSDiv_eq_sdiv
    {w : Nat} (x : BitVec w) {y : BitVec w} (nonzero : y ≠ 0#w) : x.smtSDiv y = x.sdiv y := by
  have negated : -y ≠ 0#w := by simpa using nonzero
  simp [BitVec.smtSDiv_eq, BitVec.sdiv_eq, BitVec.smtUDiv_eq, nonzero, negated]

namespace Expr

variable (z : Z3)

section

variable {a b e : Expr} {w n : Nat} {M : Model}

@[simp] theorem bv_mkUInt : (mkUInt n w).bv M w = BitVec.ofNat w n := bv_num M _

@[simp] theorem nonzeroDivisors_mkUInt : (mkUInt n w).NonzeroDivisors M := trivial

section

variable (sorted : e.HasSort (.bv w))

include sorted

theorem eq_mkUInt (const : e.isConst = true) (value : e.toNat M = n) : e = mkUInt n w := by
  obtain ⟨x, rfl⟩ := eq_num_of_isConst const sorted
  rw [mkUInt, ← value, toNat_num, BitVec.ofNat_toNat, BitVec.setWidth_eq]

theorem bv_of_isZero (zero : e.isZero = true) : e.bv M w = 0#w := by
  rw [(isZero_sorted sorted).1 zero, bv_mkUInt]

theorem bv_of_isOne (one : e.isOne = true) : e.bv M w = 1#w := by
  rw [(isOne_sorted sorted).1 one, bv_mkUInt]

theorem bv_of_isAllOnes (ones : e.isAllOnes = true) : e.bv M w = BitVec.allOnes w := by
  rw [(isAllOnes_sorted sorted).1 ones, bv_num]

end

theorem concat_const {v : Nat} (left : a.HasSort (.bv v)) (right : b.HasSort (.bv w))
    (constA : a.isConst = true) (constB : b.isConst = true) : (concat z a b).isConst = true :=
  (concat_answer z left right).1.const (by simp [constArgs, constA, constB])

theorem extract_const {high low : Nat} (sorted : e.HasSort (.bv w)) (ordered : low ≤ high)
    (inside : high < w) (const : e.isConst = true) : (extract z e high low 3).isConst = true :=
  (extract_answer z 3 sorted ordered inside).1.const (by simp [constArgs, const])

theorem zext_const (sorted : e.HasSort (.bv w)) {amount : Nat}
    (const : e.isConst = true) : (zext z e amount).isConst = true := by
  unfold zext
  split
  · exact const
  · exact concat_const z (hasSort_mkUInt (by omega)) sorted rfl const

theorem concatZeros_const (sorted : e.HasSort (.bv w)) {bits : Nat}
    (const : e.isConst = true) : (concatZeros z e bits).isConst = true := by
  unfold concatZeros
  split
  · exact const
  · exact concat_const z sorted (hasSort_mkUInt (by omega)) const rfl

theorem hasSort_mkInt {i : Int} (positive : 0 < w) : (mkInt i w).HasSort (.bv w) :=
  hasSort_num.2 ⟨positive, rfl⟩

theorem mkInt_neg_one : mkInt (-1) w = .num w (BitVec.allOnes w) := by
  rw [mkInt, BitVec.ofInt_neg, ← BitVec.neg_one_eq_allOnes]
  rfl

theorem intSMin_eq (positive : 0 < w) : intSMin z w = .num w (BitVec.intMin w) := by
  have value : BitVec.intMin w = BitVec.ofNat w (2 ^ (w - 1)) := by
    apply BitVec.eq_of_toNat_eq
    rw [BitVec.toNat_intMin, BitVec.toNat_ofNat]
  rw [value]
  unfold intSMin
  by_cases wide : w > 1
  · rw [if_pos wide]
    have top : (mkUInt 1 1).HasSort (.bv 1) := hasSort_mkUInt Nat.one_pos
    have low : (mkUInt 0 (w - 1)).HasSort (.bv (w - 1)) := hasSort_mkUInt (by omega)
    have computes := concat_computes z top low
    rw [Nat.add_sub_cancel' positive] at computes
    apply eq_mkUInt computes.sorted (concat_const z top low rfl rfl)
    rw [computes.value default (by simp), toNat_mkUInt, toNat_mkUInt, Nat.zero_mod]
    simp
  · rw [if_neg wide, show w = 1 by omega]
    rfl

theorem intSMax_eq (positive : 0 < w) : intSMax z w = .num w (BitVec.intMax w) := by
  have value : BitVec.intMax w = BitVec.ofNat w (2 ^ (w - 1) - 1) := by
    apply BitVec.eq_of_toNat_eq
    rw [BitVec.toNat_intMax, BitVec.toNat_ofNat, Nat.mod_eq_of_lt]
    have below : 2 ^ (w - 1) ≤ 2 ^ w := Nat.pow_le_pow_right Nat.two_pos (Nat.sub_le w 1)
    have some_bit := Nat.two_pow_pos (w - 1)
    omega
  rw [value]
  unfold intSMax
  by_cases wide : w > 1
  · rw [if_pos wide]
    have top : (mkUInt 0 1).HasSort (.bv 1) := hasSort_mkUInt Nat.one_pos
    have low : (mkInt (-1) (w - 1)).HasSort (.bv (w - 1)) := hasSort_mkInt (by omega)
    have computes := concat_computes z top low
    rw [Nat.add_sub_cancel' positive] at computes
    apply eq_mkUInt computes.sorted (concat_const z top low rfl rfl)
    rw [computes.value default (by simp [mkInt]), toNat_mkUInt, mkInt_neg_one, toNat_num,
      BitVec.toNat_allOnes]
    simp
  · rw [if_neg wide, show w = 1 by omega]
    rfl

theorem isSMin_sorted (sorted : e.HasSort (.bv w)) :
    isSMin z e = true ↔ e = .num w (BitVec.intMin w) := by
  rw [isSMin, decide_eq_true_iff, sorted.bits_eq, intSMin_eq z sorted.pos]

theorem isSMax_sorted (sorted : e.HasSort (.bv w)) :
    isSMax z e = true ↔ e = .num w (BitVec.intMax w) := by
  rw [isSMax, decide_eq_true_iff, sorted.bits_eq, intSMax_eq z sorted.pos]

end

/-- A division of `a` by `b`, where the divisor is not zero. -/
structure Divides (t a b : Expr) (w : Nat) (f : BitVec w → BitVec w → BitVec w)
    (allowed : BitVec w → BitVec w → Prop) : Prop where
  sorted : t.HasSort (.bv w)
  safe : ∀ M, Safe [a, b] M → b.bv M w ≠ 0#w → t.NonzeroDivisors M
  value : ∀ M, Safe [a, b] M → b.bv M w ≠ 0#w → allowed (a.bv M w) (b.bv M w) →
    t.bv M w = f (a.bv M w) (b.bv M w)

section

variable {a b e t : Expr} {w : Nat} {op : BvOp}

section

variable (left : a.HasSort (.bv w)) (right : b.HasSort (.bv w))

include left right

theorem toNat_bv (M : Model) :
    toNat (.app (.bv op) [a, b]) M = (op.denote (a.bv M w) (b.bv M w)).toNat := by
  rw [(hasSort_bv.2 ⟨left, right⟩).toNat_eq M, bv_bv M left]

theorem stands_bv (other : op ≠ .urem)
    (sorted : t.HasSort (.bv w)) (safe : ∀ M, Safe [a, b] M → t.NonzeroDivisors M)
    (value : ∀ M, Safe [a, b] M → t.bv M w = op.denote (a.bv M w) (b.bv M w)) :
    t.StandsFor (.app (.bv op) [a, b]) := by
  have computes : t.Computes w [a, b] fun M => (op.denote (a.bv M w) (b.bv M w)).toNat := by
    refine ⟨sorted, safe, fun M parts => ?_⟩
    rw [sorted.toNat_eq M, value M parts]
  exact computes.standsFor (by simpa using other) (hasSort_bv.2 ⟨left, right⟩)
    fun M _ => toNat_bv left right M

theorem binopFold_stands : (binopFold z (.bv op) a b).StandsFor (.app (.bv op) [a, b]) :=
  (simplifyConst_same z rfl (hasSort_bv.2 ⟨left, right⟩)).standsFor

theorem binopFold_const (constA : a.isConst = true)
    (constB : b.isConst = true) : (binopFold z (.bv op) a b).isConst = true :=
  isConst_simplify z rfl (hasSort_bv.2 ⟨left, right⟩) (by simp [constA, constB])

end

variable (left : a.HasSort (.bv w)) (right : b.HasSort (.bv w))

include left right

theorem ule_decides : (ule z a b).Decides [a, b] fun M => a.toNat M ≤ b.toNat M := by
  obtain ⟨k, enough⟩ : ∃ k, 4 * (a.size + b.size) + 1 ≤ k := ⟨_, le_refl _⟩
  obtain ⟨t, known, decides⟩ := ule_spec z (calls_good z k) left right enough
  have same : uleWith (calls z k) z a b = some (ule z a b) := by
    unfold uleWith ule
    rw [(cmpEq_answer z left right).2 k ((cmpEqRank_le a b).trans enough)]
    split
    · rfl
    split
    · rfl
    split
    · rfl
    · rfl
  rw [same] at known
  rwa [Option.some.inj known]

theorem stands_of_isZero (other : op ≠ .urem) (zeroLeft : ∀ y : BitVec w, op.denote 0#w y = 0#w)
    (zeroRight : ∀ x : BitVec w, op.denote x 0#w = x)
    (zero : a.isZero ∨ b.isZero) : a.StandsFor (.app (.bv op) [a, b]) := by
  apply stands_bv left right other left fun M safe => (safe_pair.1 safe).1
  intro M _
  rcases zero with zeroA | zeroB
  · rw [bv_of_isZero left zeroA, zeroLeft]
  · rw [bv_of_isZero right zeroB, zeroRight]

theorem shl_stands : (shl z a b).StandsFor (.app (.bv .shl) [a, b]) := by
  unfold shl
  by_cases zero : a.isZero ∨ b.isZero
  · rw [if_pos zero]
    refine stands_of_isZero left right (by decide) (fun y => ?_) (fun x => ?_) zero
    · rw [BvOp.denote, BitVec.shiftLeft_eq', BitVec.zero_shiftLeft]
    · rw [BvOp.denote, BitVec.shiftLeft_eq', BitVec.toNat_ofNat, Nat.zero_mod,
        BitVec.shiftLeft_zero]
  · rw [if_neg zero]
    split
    · next shift known =>
      obtain ⟨rfl, small, -⟩ := isUInt_sorted right known
      rw [left.bits_eq]
      by_cases out : shift ≥ w
      · rw [if_pos out]
        apply stands_bv left right (by decide) (hasSort_mkUInt left.pos) fun M _ => trivial
        intro M _
        rw [BvOp.denote, BitVec.shiftLeft_eq', bv_mkUInt, bv_mkUInt, BitVec.toNat_ofNat,
          Nat.mod_eq_of_lt small, BitVec.shiftLeft_eq_zero out]
      · rw [if_neg out]
        have shifted : shift ≠ 0 := by
          rintro rfl
          exact zero (.inr ((isZero_sorted right).2 rfl))
        have upper := extract_computes z 3 left (Nat.zero_le (w - shift - 1)) (by omega)
        have zeros : (mkUInt 0 shift).HasSort (.bv shift) := hasSort_mkUInt (by omega)
        have joined := concat_computes z upper.sorted zeros
        rw [show w - shift - 1 - 0 + 1 + shift = w by omega] at joined
        have safe : ∀ M, Safe [a, mkUInt shift w] M →
            Safe [extract z a (w - shift - 1) 0 3, mkUInt 0 shift] M := fun M safe =>
          safe_pair.2 ⟨upper.safe M (safe_single.2 (safe_pair.1 safe).1), trivial⟩
        apply stands_bv left right (by decide) joined.sorted
          fun M parts => joined.safe M (safe M parts)
        intro M parts
        apply BitVec.eq_of_toNat_eq
        rw [← joined.sorted.toNat_eq M, joined.value M (safe M parts),
          upper.value M (safe_single.2 (safe_pair.1 parts).1), BvOp.denote, BitVec.shiftLeft_eq',
          BitVec.toNat_shiftLeft, bv_mkUInt, BitVec.toNat_ofNat, Nat.mod_eq_of_lt small,
          toNat_mkUInt, Nat.zero_mod, Nat.add_zero, Nat.pow_zero, Nat.div_one,
          Nat.shiftLeft_eq, ← left.toNat_eq M]
        have split : 2 ^ w = 2 ^ (w - shift) * 2 ^ shift := by
          rw [← Nat.pow_add, Nat.sub_add_cancel (by omega)]
        rw [split, Nat.mul_mod_mul_right, show w - shift - 1 - 0 + 1 = w - shift by omega]
    · exact binopFold_stands z left right

theorem shl_const
    (constA : a.isConst = true) (constB : b.isConst = true) : (shl z a b).isConst = true := by
  unfold shl
  split
  · exact constA
  next zero =>
  split
  · next shift known =>
    obtain ⟨rfl, small, -⟩ := isUInt_sorted right known
    rw [left.bits_eq]
    split
    · rfl
    · next inside =>
      have shifted : shift ≠ 0 := by
        rintro rfl
        exact zero (.inr ((isZero_sorted right).2 rfl))
      have upper := extract_computes z 3 left (Nat.zero_le (w - shift - 1)) (by omega)
      exact concat_const z upper.sorted (hasSort_mkUInt (by omega))
        (extract_const z left (Nat.zero_le _) (by omega) constA) rfl
  · exact binopFold_const z left right constA constB

theorem ashr_stands : (ashr z a b).StandsFor (.app (.bv .ashr) [a, b]) := by
  unfold ashr
  by_cases zero : a.isZero ∨ b.isZero
  · rw [if_pos zero]
    refine stands_of_isZero left right (by decide) (fun y => ?_) (fun x => ?_) zero
    · rw [BvOp.denote, BitVec.sshiftRight_eq', BitVec.zero_sshiftRight]
    · rw [BvOp.denote, BitVec.sshiftRight_eq', BitVec.toNat_ofNat, Nat.zero_mod,
        BitVec.sshiftRight_zero]
  · rw [if_neg zero]
    exact binopFold_stands z left right

theorem lshr_stands : (lshr z a b).StandsFor (.app (.bv .lshr) [a, b]) := by
  unfold lshr
  by_cases zero : a.isZero ∨ b.isZero
  · rw [if_pos zero]
    refine stands_of_isZero left right (by decide) (fun y => ?_) (fun x => ?_) zero
    · rw [BvOp.denote, BitVec.ushiftRight_eq', BitVec.zero_ushiftRight]
    · rw [BvOp.denote, BitVec.ushiftRight_eq', BitVec.toNat_ofNat, Nat.zero_mod,
        BitVec.ushiftRight_zero]
  · rw [if_neg zero]
    split
    · next shift known =>
      obtain ⟨rfl, small, -⟩ := isUInt_sorted right known
      rw [left.bits_eq]
      by_cases out : shift ≥ w
      · rw [if_pos out]
        apply stands_bv left right (by decide) (hasSort_mkUInt left.pos) fun M _ => trivial
        intro M _
        rw [BvOp.denote, BitVec.ushiftRight_eq', bv_mkUInt, bv_mkUInt, BitVec.toNat_ofNat,
          Nat.mod_eq_of_lt small, BitVec.ushiftRight_eq_zero out]
      · rw [if_neg out]
        have shifted : shift ≠ 0 := by
          rintro rfl
          exact zero (.inr ((isZero_sorted right).2 rfl))
        have lower := extract_computes z 3 left (show shift ≤ w - 1 by omega) (by omega)
        have zeros : (mkUInt 0 shift).HasSort (.bv shift) := hasSort_mkUInt (by omega)
        have joined := concat_computes z zeros lower.sorted
        rw [show shift + (w - 1 - shift + 1) = w by omega] at joined
        have safe : ∀ M, Safe [a, mkUInt shift w] M →
            Safe [mkUInt 0 shift, extract z a (w - 1) shift 3] M := fun M safe =>
          safe_pair.2 ⟨trivial, lower.safe M (safe_single.2 (safe_pair.1 safe).1)⟩
        apply stands_bv left right (by decide) joined.sorted
          fun M parts => joined.safe M (safe M parts)
        intro M parts
        apply BitVec.eq_of_toNat_eq
        have bound : a.toNat M / 2 ^ shift < 2 ^ (w - 1 - shift + 1) := by
          rw [Nat.div_lt_iff_lt_mul (Nat.two_pow_pos shift), ← Nat.pow_add,
            show w - 1 - shift + 1 + shift = w by omega]
          exact left.toNat_lt M
        rw [← joined.sorted.toNat_eq M, joined.value M (safe M parts),
          lower.value M (safe_single.2 (safe_pair.1 parts).1), BvOp.denote,
          BitVec.ushiftRight_eq', BitVec.toNat_ushiftRight, bv_mkUInt, BitVec.toNat_ofNat,
          Nat.mod_eq_of_lt small, toNat_mkUInt, Nat.zero_mod, Nat.zero_mul, Nat.zero_add,
          Nat.shiftRight_eq_div_pow, ← left.toNat_eq M, Nat.mod_eq_of_lt bound]
    · exact binopFold_stands z left right

omit right in
theorem bv_ne_zero (M : Model) : a.bv M w ≠ 0#w ↔ a.toNat M ≠ 0 := by
  rw [left.toNat_eq M, Ne, Ne, ← BitVec.toNat_inj, BitVec.toNat_ofNat, Nat.zero_mod]

theorem urem_stands : (urem z a b).StandsFor (.app (.bv .urem) [a, b]) := by
  have whole : HasSort (.app (.bv .urem) [a, b]) (.bv w) := hasSort_bv.2 ⟨left, right⟩
  -- the zero that is returned for equal operands, a zero dividend or a divisor of one
  have zero : (∀ M, b.toNat M ≠ 0 → a.toNat M % b.toNat M = 0) →
      (mkUInt 0 a.bits).StandsFor (.app (.bv .urem) [a, b]) := by
    intro divides
    rw [left.bits_eq]
    have sorted : (mkUInt 0 w).HasSort (.bv w) := hasSort_mkUInt left.pos
    refine ⟨fun s other => whole.unique other ▸ sorted, fun M _ => trivial, fun M safe => ?_⟩
    rw [nonzeroDivisors_urem] at safe
    rw [sorted.bv_congr whole, toNat_mkUInt, Nat.zero_mod, toNat_bv left right, BvOp.denote,
      BitVec.toNat_umod, ← left.toNat_eq M, ← right.toNat_eq M, divides M safe.2.2]
  unfold urem
  split
  · next trivially =>
    apply zero
    intro M _
    rcases trivially with rfl | zeroA
    · exact Nat.mod_self _
    · rw [(isZero_sorted left).1 zeroA, toNat_mkUInt, Nat.zero_mod, Nat.zero_mod]
  split
  · next n known =>
    obtain ⟨rfl, small, -⟩ := isUInt_sorted right known
    split
    · next tiny =>
      apply zero
      intro M nonzero
      rw [toNat_mkUInt, Nat.mod_eq_of_lt small] at nonzero ⊢
      rw [show n = 1 by omega, Nat.mod_one]
    split
    · next more power =>
      obtain ⟨log, rfl⟩ := isPower2Nat_iff.1 power
      rw [Nat.log2_two_pow, left.bits_eq]
      have some_bits : log ≠ 0 := by
        rintro rfl
        exact more (le_refl _)
      have inside : log < w := (Nat.pow_lt_pow_iff_right (by decide)).1 small
      have lower := extract_computes z 3 left (Nat.zero_le (log - 1)) (show log - 1 < w by omega)
      have zeros : (mkUInt 0 (w - log)).HasSort (.bv (w - log)) := hasSort_mkUInt (by omega)
      have joined := concat_computes z zeros lower.sorted
      rw [show w - log + (log - 1 - 0 + 1) = w by omega] at joined
      have safe : ∀ M, NonzeroDivisors (.app (.bv .urem) [a, mkUInt (2 ^ log) w]) M →
          Safe [mkUInt 0 (w - log), extract z a (log - 1) 0 3] M := fun M safe =>
        safe_pair.2 ⟨trivial, lower.safe M (safe_single.2 (nonzeroDivisors_urem.1 safe).1)⟩
      refine ⟨fun s other => whole.unique other ▸ joined.sorted,
        fun M parts => joined.safe M (safe M parts), fun M parts => ?_⟩
      rw [joined.sorted.bv_congr whole, joined.value M (safe M parts),
        lower.value M (safe_single.2 (nonzeroDivisors_urem.1 parts).1), toNat_bv left right,
        BvOp.denote, BitVec.toNat_umod, ← left.toNat_eq M, bv_mkUInt, BitVec.toNat_ofNat,
        Nat.mod_eq_of_lt small, toNat_mkUInt, Nat.zero_mod, Nat.zero_mul, Nat.zero_add,
        Nat.pow_zero, Nat.div_one, show log - 1 - 0 + 1 = log by omega]
    · exact binopFold_stands z left right
  · exact binopFold_stands z left right

theorem binopFold_divides {allowed : BitVec w → BitVec w → Prop} (other : op ≠ .urem) :
    (binopFold z (.bv op) a b).Divides a b w op.denote allowed := by
  have stands : (binopFold z (.bv op) a b).StandsFor (.app (.bv op) [a, b]) :=
    binopFold_stands z left right
  have parts : ∀ M, Safe [a, b] M → NonzeroDivisors (.app (.bv op) [a, b]) M := fun M safe =>
    (safe_app (by simpa using other)).2 safe
  refine ⟨stands.sorted _ (hasSort_bv.2 ⟨left, right⟩),
    fun M safe _ => stands.safe M (parts M safe), fun M safe _ _ => ?_⟩
  rw [stands.bv_eq (parts M safe), bv_bv M left]

theorem udiv_divides : (udiv z a b).Divides a b w BitVec.smtUDiv fun _ _ => True := by
  have one : (mkUInt 1 w).HasSort (.bv w) := hasSort_mkUInt left.pos
  unfold udiv
  split
  · next same =>
    subst same
    rw [left.bits_eq]
    refine ⟨one, fun M _ _ => trivial, fun M _ nonzero _ => ?_⟩
    rw [BitVec.smtUDiv_eq, if_neg nonzero, bv_mkUInt, BitVec.udiv_self, if_neg (by simpa)]
  split
  · next zero =>
    refine ⟨right, fun M safe _ => (safe_pair.1 safe).2, fun M _ nonzero _ => ?_⟩
    exact absurd (bv_of_isZero right zero) nonzero
  split
  · next trivially =>
    refine ⟨left, fun M safe _ => (safe_pair.1 safe).1, fun M _ nonzero _ => ?_⟩
    rw [BitVec.smtUDiv_eq, if_neg nonzero]
    rcases trivially with zeroA | oneB
    · rw [bv_of_isZero left zeroA, BitVec.zero_udiv]
    · rw [bv_of_isOne right oneB, BitVec.udiv_one]
  · exact binopFold_divides z left right (by decide)

theorem sdiv_divides : (sdiv z a b).Divides a b w BitVec.smtSDiv
      fun x y => ¬(x = BitVec.intMin w ∧ y = BitVec.allOnes w) := by
  have one : (mkUInt 1 w).HasSort (.bv w) := hasSort_mkUInt left.pos
  unfold sdiv
  split
  · next same =>
    subst same
    rw [left.bits_eq]
    refine ⟨one, fun M _ _ => trivial, fun M _ nonzero _ => ?_⟩
    rw [smtSDiv_eq_sdiv _ nonzero, bv_mkUInt, BitVec.sdiv_self, if_neg (by simpa)]
  split
  · next zero =>
    refine ⟨right, fun M safe _ => (safe_pair.1 safe).2, fun M _ nonzero _ => ?_⟩
    exact absurd (bv_of_isZero right zero) nonzero
  split
  · next trivially =>
    refine ⟨left, fun M safe _ => (safe_pair.1 safe).1, fun M _ nonzero _ => ?_⟩
    rw [smtSDiv_eq_sdiv _ nonzero]
    rcases trivially with zeroA | oneB
    · rw [bv_of_isZero left zeroA, BitVec.zero_sdiv]
    · rw [bv_of_isOne right oneB, BitVec.sdiv_one]
  split
  · next overflow =>
    rw [left.bits_eq]
    refine ⟨hasSort_mkUInt left.pos, fun M _ _ => trivial, fun M _ _ allowed => ?_⟩
    apply absurd _ allowed
    rw [(isSMin_sorted z left).1 overflow.1, bv_num, bv_of_isAllOnes right overflow.2]
    exact ⟨rfl, rfl⟩
  · exact binopFold_divides z left right (by decide)

omit right in
theorem msb_of_isNegative {M : Model} (positive : (isNegative z a).isFalse = true)
    (safe : a.NonzeroDivisors M) : (a.bv M w).msb = false := by
  have below := (isNegative_decides z left).of_isFalse positive (safe_single.2 safe)
  have half := two_pow_half left.pos
  rw [BitVec.msb_eq_false_iff_two_mul_lt, ← left.toNat_eq M]
  omega

theorem srem_divides : (srem z a b).Divides a b w BitVec.srem fun _ _ => True := by
  unfold srem
  split
  · next trivially =>
    rw [left.bits_eq]
    refine ⟨hasSort_mkUInt left.pos, fun M _ _ => trivial, fun M _ nonzero _ => ?_⟩
    rw [bv_mkUInt]
    rcases trivially with rfl | zeroA | overflow
    · exact BitVec.srem_self.symm
    · rw [bv_of_isZero left zeroA, BitVec.zero_srem]
    · rw [(isSMin_sorted z left).1 overflow.1, bv_num, bv_of_isAllOnes right overflow.2]
      symm
      apply BitVec.srem_zero_of_dvd
      rw [BitVec.toInt_allOnes, if_pos left.pos]
      exact Int.neg_dvd.2 (one_dvd _)
  split
  · next zero =>
    refine ⟨right, fun M safe _ => (safe_pair.1 safe).2, fun M _ nonzero _ => ?_⟩
    exact absurd (bv_of_isZero right zero) nonzero
  split
  · next positive =>
    have stands := urem_stands z left right
    have divisors : ∀ M, Safe [a, b] M → b.bv M w ≠ 0#w →
        NonzeroDivisors (.app (.bv .urem) [a, b]) M := by
      intro M safe nonzero
      rw [safe_pair] at safe
      exact nonzeroDivisors_urem.2 ⟨safe.1, safe.2, (bv_ne_zero right M).1 nonzero⟩
    refine ⟨stands.sorted _ (hasSort_bv.2 ⟨left, right⟩),
      fun M safe nonzero => stands.safe M (divisors M safe nonzero), fun M safe nonzero _ => ?_⟩
    rw [stands.bv_eq (divisors M safe nonzero), bv_bv M left, BvOp.denote]
    rw [safe_pair] at safe
    rw [BitVec.srem_eq, msb_of_isNegative z left positive.1 safe.1,
      msb_of_isNegative z right positive.2 safe.2]
  · exact binopFold_divides z left right (by decide)

end

end Expr

end AliveNext.Smt
