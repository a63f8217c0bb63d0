import AliveNext.Smt.Compare
import AliveNext.Smt.Ranges

/-!
# Overflow predicates

Each predicate holds exactly if the integer result is representable. The fast
paths for constants and for terms with leading zeros agree with the widened
computation.
-/

namespace AliveNext.Smt

namespace Expr

variable (z : Z3)

/-- `add_no_soverflow` with a constant on the right. -/
def addNoSOverflowConst (a b : Expr) : Expr :=
  let v := sub z (intSMin z a.bits) b
  if (isNegative z b).isTrue then sge z a v else sle z a (sub z v (mkUInt 1 b.bits))

def addNoSOverflow (a b : Expr) : Expr :=
  if a.minLeadingZeros ≥ 2 ∧ b.minLeadingZeros ≥ 2 then .bool true
  else if b.isConst then addNoSOverflowConst z a b
  else if a.isConst then addNoSOverflowConst z b a
  else cmpEq z (add z (sext z a 1) (sext z b 1)) (sext z (add z a b) 1)

/-- A constant on the left makes it call itself with the operands swapped. -/
def addNoUOverflow (a b : Expr) : Expr :=
  if a.minLeadingZeros ≥ 1 ∧ b.minLeadingZeros ≥ 1 then .bool true
  else if b.isConst then ule z a (sub z (mkInt (-1) b.bits) b)
  else if a.isConst then ule z b (sub z (mkInt (-1) a.bits) a)
  else
    let bit := sign z (add z (zext z a 1) (zext z b 1))
    cmpEq z bit (mkUInt 0 bit.bits)

def addNoUSOverflow (a b : Expr) : Expr :=
  if a.minLeadingZeros ≥ 1 ∧ b.minLeadingZeros ≥ 1 then .bool true
  else
    let bit := sign z (add z (zext z a 1) (sext z b 1))
    cmpEq z bit (mkUInt 0 bit.bits)

def subNoSOverflow (a b : Expr) : Expr :=
  if a.minLeadingZeros ≥ 1 ∧ b.minLeadingZeros ≥ 1 then .bool true
  else cmpEq z (sub z (sext z a 1) (sext z b 1)) (sext z (sub z a b) 1)

def subNoUOverflow (a b : Expr) : Expr :=
  let bit := sign z (sub z (zext z a 1) (zext z b 1))
  cmpEq z bit (mkUInt 0 bit.bits)

def mulNoSOverflow (a b : Expr) : Expr :=
  let bw := a.bits
  cmpEq z (mul z (sext z a bw) (sext z b bw)) (sext z (mul z a b) bw)

def mulNoUOverflow (a b : Expr) : Expr :=
  let bw := a.bits
  let high := extract z (mul z (zext z a bw) (zext z b bw)) (2 * bw - 1) bw 3
  cmpEq z high (mkUInt 0 high.bits)

def sdivExact (a b : Expr) : Expr := cmpEq z (mul z (sdiv z a b) b) a

def udivExact (a b : Expr) : Expr := cmpEq z (mul z (udiv z a b) b) a

def shlNoSOverflow (a b : Expr) : Expr := cmpEq z (ashr z (shl z a b) b) a

def shlNoUOverflow (a b : Expr) : Expr := cmpEq z (lshr z (shl z a b) b) a

def ashrExact (a b : Expr) : Expr := cmpEq z (shl z (ashr z a b) b) a

def lshrExact (a b : Expr) : Expr := cmpEq z (shl z (lshr z a b) b) a

section

variable {a b e : Expr} {w : Nat} {parts : List Expr} {x y : Model → BitVec w}

theorem toNat_lt_of_minLeadingZeros
    {n : Nat} {M : Model} (sorted : e.HasSort (.bv w)) (safe : e.NonzeroDivisors M)
    (zeros : e.minLeadingZeros ≥ n) : e.toNat M < 2 ^ (w - n) ∧ n ≤ w := by
  obtain ⟨le, unset⟩ := minLeadingZeros_spec sorted safe
  refine ⟨Nat.lt_pow_two_of_testBit _ fun i above => unset i (by omega), by omega⟩

theorem sign_zero_decides (denotes : e.Denotes w parts x) :
    (cmpEq z (sign z e) (mkUInt 0 (sign z e).bits)).Decides parts fun M => (x M).msb = false := by
  have sign := denotes.sign z
  rw [sign.sorted.bits_eq]
  apply (sign.cmpEq z (denotes_mkUInt Nat.one_pos 0)).congr
  intro M _
  cases (x M).msb <;> decide

variable (left : a.HasSort (.bv w)) (right : b.HasSort (.bv w))

include left right

theorem denotes_pair :
    a.Denotes w [a, b] (fun M => a.bv M w) ∧ b.Denotes w [a, b] (fun M => b.bv M w) :=
  ⟨(Denotes.refl left).mono (by simp), (Denotes.refl right).mono (by simp)⟩

omit left in
theorem isNegative_const (const : b.isConst = true) : (isNegative z b).isConst = true := by
  have positive := right.pos
  have bit := sign_computes z right
  have constBit : (sign z b).isConst = true := by
    rw [sign, right.bits_eq]
    exact extract_const z right (le_refl _) (by omega) const
  rw [isNegative, bit.sorted.bits_eq]
  exact cmpEq_const z bit.sorted (hasSort_mkUInt Nat.one_pos) constBit rfl

theorem addNoSOverflowConst_decides (const : b.isConst = true) :
    (addNoSOverflowConst z a b).Decides [a, b]
      fun M => SFits w ((a.bv M w).toInt + (b.bv M w).toInt) := by
  obtain ⟨first, second⟩ := denotes_pair left right
  have positive := left.pos
  have half := int_two_pow_half positive
  have least : (BitVec.intMin w).toInt = -2 ^ (w - 1) := BitVec.toInt_intMin_of_pos positive
  have low := (denotes_intSMin z positive).sub z second
  unfold addNoSOverflowConst
  rw [left.bits_eq, right.bits_eq]
  dsimp only
  split
  · next negative =>
    apply (first.sge z low).congr
    intro M safe
    have sign := (second.isNegative z).of_isTrue negative safe
    have rangeA := sFits_toInt (a.bv M w)
    have rangeB := sFits_toInt (b.bv M w)
    have below : (b.bv M w).toInt < 0 := BitVec.toInt_neg_of_msb_true sign
    have exact : (BitVec.intMin w - b.bv M w).toInt = -2 ^ (w - 1) - (b.bv M w).toInt := by
      rw [BitVec.toInt_sub, least]
      apply bmod_of_sFits positive
      unfold SFits at *
      omega
    rw [exact]
    unfold SFits at *
    omega
  · next negative =>
    apply (first.sle z (low.sub z (denotes_mkUInt positive 1))).congr
    intro M safe
    have rangeA := sFits_toInt (a.bv M w)
    have rangeB := sFits_toInt (b.bv M w)
    have sign : (b.bv M w).msb = false := by
      obtain ⟨known, equal⟩ := eq_bool_of_isConst (isNegative_const z right const)
        (second.isNegative z).sorted
      have isFalse : (isNegative z b).isFalse = true := by
        cases known with
        | true =>
          rw [equal] at negative
          exact absurd rfl negative
        | false =>
          rw [equal]
          rfl
      simpa using (second.isNegative z).of_isFalse isFalse safe
    have above : 0 ≤ (b.bv M w).toInt := BitVec.toInt_nonneg_of_msb_false sign
    have exact : (BitVec.intMin w - b.bv M w - BitVec.ofNat w 1).toInt =
        2 ^ (w - 1) - 1 - (b.bv M w).toInt := by
      have greatest : BitVec.intMin w - b.bv M w - 1#w = BitVec.intMax w - b.bv M w := by
        rw [← BitVec.intMax_add_one]
        ring
      rw [greatest, BitVec.toInt_sub, BitVec.toInt_intMax]
      apply bmod_of_sFits positive
      unfold SFits at *
      omega
    rw [exact]
    unfold SFits at *
    omega

theorem addNoSOverflow_decides : (addNoSOverflow z a b).Decides [a, b]
      fun M => SFits w ((a.bv M w).toInt + (b.bv M w).toInt) := by
  obtain ⟨first, second⟩ := denotes_pair left right
  have positive := left.pos
  unfold addNoSOverflow
  split
  · next zeros =>
    refine .const fun M safe => iff_of_true rfl ?_
    rw [safe_pair] at safe
    obtain ⟨smallA, wide⟩ := toNat_lt_of_minLeadingZeros left safe.1 zeros.1
    obtain ⟨smallB, -⟩ := toNat_lt_of_minLeadingZeros right safe.2 zeros.2
    have quarter := two_pow_half (show 0 < w - 1 by omega)
    rw [show w - 1 - 1 = w - 2 by omega] at quarter
    have cast : ((2 ^ (w - 1) : Nat) : Int) = 2 ^ (w - 1) := by push_cast; rfl
    rw [left.toNat_eq M] at smallA
    rw [right.toNat_eq M] at smallB
    rw [toInt_of_lt_half positive (x := a.bv M w) (by omega),
      toInt_of_lt_half positive (x := b.bv M w) (by omega), SFits, ← cast]
    omega
  split
  · next const => exact addNoSOverflowConst_decides z left right const
  split
  · next const =>
    apply ((addNoSOverflowConst_decides z right left const).mono (by simp)).congr
    intro M _
    rw [Int.add_comm]
  · have decides := ((first.sext z 1).add z (second.sext z 1)).cmpEq z
      ((first.add z second).sext z 1)
    exact decides.congr fun M _ => signExtend_add_eq_iff positive

theorem addNoUOverflow_decides :
    (addNoUOverflow z a b).Decides [a, b] fun M => a.toNat M + b.toNat M < 2 ^ w := by
  obtain ⟨first, second⟩ := denotes_pair left right
  have positive := left.pos
  have most : ∀ {x y : BitVec w}, x.toNat ≤ (BitVec.allOnes w - y).toNat ↔
      x.toNat + y.toNat < 2 ^ w := by
    intro x y
    have bound := y.isLt
    rw [BitVec.allOnes_sub_eq_not, BitVec.toNat_not]
    omega
  unfold addNoUOverflow
  split
  · next zeros =>
    refine .const fun M safe => iff_of_true rfl ?_
    rw [safe_pair] at safe
    obtain ⟨smallA, -⟩ := toNat_lt_of_minLeadingZeros left safe.1 zeros.1
    obtain ⟨smallB, -⟩ := toNat_lt_of_minLeadingZeros right safe.2 zeros.2
    have half := two_pow_half positive
    omega
  split
  · rw [right.bits_eq]
    apply (first.ule z ((denotes_mkInt_neg_one positive).sub z second)).congr
    intro M _
    rw [most, left.toNat_eq M, right.toNat_eq M]
  split
  · rw [left.bits_eq]
    apply (second.ule z ((denotes_mkInt_neg_one positive).sub z first)).congr
    intro M _
    rw [most, left.toNat_eq M, right.toNat_eq M, Nat.add_comm]
  · apply (sign_zero_decides z ((first.zext z 1).add z (second.zext z 1))).congr
    intro M _
    rw [msb_setWidth_add, left.toNat_eq M, right.toNat_eq M]

theorem addNoUSOverflow_decides : (addNoUSOverflow z a b).Decides [a, b] fun M =>
      0 ≤ (a.toNat M : Int) + (b.bv M w).toInt ∧ (a.toNat M : Int) + (b.bv M w).toInt < 2 ^ w := by
  obtain ⟨first, second⟩ := denotes_pair left right
  have positive := left.pos
  unfold addNoUSOverflow
  split
  · next zeros =>
    refine .const fun M safe => iff_of_true rfl ?_
    rw [safe_pair] at safe
    obtain ⟨smallA, -⟩ := toNat_lt_of_minLeadingZeros left safe.1 zeros.1
    obtain ⟨smallB, -⟩ := toNat_lt_of_minLeadingZeros right safe.2 zeros.2
    have half := two_pow_half positive
    have cast : ((2 ^ w : Nat) : Int) = 2 ^ w := by push_cast; rfl
    rw [right.toNat_eq M] at smallB
    rw [toInt_of_lt_half positive smallB, ← cast]
    omega
  · apply (sign_zero_decides z ((first.zext z 1).add z (second.sext z 1))).congr
    intro M _
    rw [msb_setWidth_add_signExtend, left.toNat_eq M]

theorem subNoSOverflow_decides : (subNoSOverflow z a b).Decides [a, b]
      fun M => SFits w ((a.bv M w).toInt - (b.bv M w).toInt) := by
  obtain ⟨first, second⟩ := denotes_pair left right
  have positive := left.pos
  unfold subNoSOverflow
  split
  · next zeros =>
    refine .const fun M safe => iff_of_true rfl ?_
    rw [safe_pair] at safe
    obtain ⟨smallA, -⟩ := toNat_lt_of_minLeadingZeros left safe.1 zeros.1
    obtain ⟨smallB, -⟩ := toNat_lt_of_minLeadingZeros right safe.2 zeros.2
    have cast : ((2 ^ (w - 1) : Nat) : Int) = 2 ^ (w - 1) := by push_cast; rfl
    rw [left.toNat_eq M] at smallA
    rw [right.toNat_eq M] at smallB
    rw [toInt_of_lt_half positive smallA, toInt_of_lt_half positive smallB, SFits, ← cast]
    omega
  · have decides := ((first.sext z 1).sub z (second.sext z 1)).cmpEq z
      ((first.sub z second).sext z 1)
    exact decides.congr fun M _ => signExtend_sub_eq_iff positive

theorem subNoUOverflow_decides :
    (subNoUOverflow z a b).Decides [a, b] fun M => b.toNat M ≤ a.toNat M := by
  obtain ⟨first, second⟩ := denotes_pair left right
  apply (sign_zero_decides z ((first.zext z 1).sub z (second.zext z 1))).congr
  intro M _
  rw [msb_setWidth_sub, left.toNat_eq M, right.toNat_eq M]

theorem mulNoSOverflow_decides : (mulNoSOverflow z a b).Decides [a, b]
      fun M => SFits w ((a.bv M w).toInt * (b.bv M w).toInt) := by
  obtain ⟨first, second⟩ := denotes_pair left right
  unfold mulNoSOverflow
  rw [left.bits_eq]
  have decides := ((first.sext z w).mul z (second.sext z w)).cmpEq z ((first.mul z second).sext z w)
  exact decides.congr fun M _ => signExtend_mul_eq_iff left.pos

theorem mulNoUOverflow_decides :
    (mulNoUOverflow z a b).Decides [a, b] fun M => a.toNat M * b.toNat M < 2 ^ w := by
  obtain ⟨first, second⟩ := denotes_pair left right
  have positive := left.pos
  unfold mulNoUOverflow
  dsimp only
  rw [left.bits_eq]
  have product := (first.zext z w).mul z (second.zext z w)
  have high := product.extract z 3 (show w ≤ 2 * w - 1 by omega) (by omega)
  rw [high.sorted.bits_eq]
  apply (high.cmpEq z (denotes_mkUInt (by omega) 0)).congr
  intro M _
  rw [extractLsb_high_eq_zero_iff positive, Lib.toNat_setWidth_mul le_rfl, left.toNat_eq M,
    right.toNat_eq M]

theorem shlNoSOverflow_decides : (shlNoSOverflow z a b).Decides [a, b]
      fun M => (a.bv M w <<< b.toNat M).sshiftRight (b.toNat M) = a.bv M w := by
  obtain ⟨first, second⟩ := denotes_pair left right
  apply (((first.shl z second).ashr z second).cmpEq z first).congr
  intro M _
  rw [right.toNat_eq M]
  rfl

theorem shlNoUOverflow_decides : (shlNoUOverflow z a b).Decides [a, b]
      fun M => (a.bv M w <<< b.toNat M) >>> b.toNat M = a.bv M w := by
  obtain ⟨first, second⟩ := denotes_pair left right
  apply (((first.shl z second).lshr z second).cmpEq z first).congr
  intro M _
  rw [right.toNat_eq M]
  rfl

theorem ashrExact_decides :
    (ashrExact z a b).Decides [a, b] fun M => a.toNat M % 2 ^ b.toNat M = 0 := by
  obtain ⟨first, second⟩ := denotes_pair left right
  apply (((first.ashr z second).shl z second).cmpEq z first).congr
  intro M _
  rw [left.toNat_eq M, right.toNat_eq M]
  exact sshiftRight_shiftLeft_eq_iff

theorem lshrExact_decides :
    (lshrExact z a b).Decides [a, b] fun M => a.toNat M % 2 ^ b.toNat M = 0 := by
  obtain ⟨first, second⟩ := denotes_pair left right
  apply (((first.lshr z second).shl z second).cmpEq z first).congr
  intro M _
  rw [left.toNat_eq M, right.toNat_eq M]
  exact ushiftRight_shiftLeft_eq_iff

theorem exact_decides {t : Expr} (sorted : t.HasSort (.bv w)) :
    (cmpEq z (mul z t b) a).Decides [t, a, b] fun M => t.bv M w * b.bv M w = a.bv M w := by
  have quotient : t.Denotes w [t, a, b] fun M => t.bv M w := (Denotes.refl sorted).mono (by simp)
  have dividend : a.Denotes w [t, a, b] fun M => a.bv M w := (Denotes.refl left).mono (by simp)
  have divisor : b.Denotes w [t, a, b] fun M => b.bv M w := (Denotes.refl right).mono (by simp)
  exact (quotient.mul z divisor).cmpEq z dividend

theorem sdivExact_truth {M : Model} (safe : Safe [a, b] M) (nonzero : b.bv M w ≠ 0#w)
    (noOverflow : ¬(a.bv M w = BitVec.intMin w ∧ b.bv M w = BitVec.allOnes w)) :
    (sdivExact z a b).truth M = true ↔ (a.bv M w).toInt.tmod (b.bv M w).toInt = 0 := by
  have divides := sdiv_divides z left right
  have all : Safe [sdiv z a b, a, b] M :=
    safe_triple.2 ⟨divides.safe M safe nonzero, safe_pair.1 safe⟩
  rw [sdivExact, (exact_decides z left right divides.sorted).truth M all,
    divides.value M safe nonzero noOverflow, smtSDiv_eq_sdiv _ nonzero]
  exact Lib.sdiv_mul_eq_iff.trans Int.dvd_iff_tmod_eq_zero

theorem udivExact_truth {M : Model} (safe : Safe [a, b] M) (nonzero : b.bv M w ≠ 0#w) :
    (udivExact z a b).truth M = true ↔ a.toNat M % b.toNat M = 0 := by
  have divides := udiv_divides z left right
  have all : Safe [udiv z a b, a, b] M :=
    safe_triple.2 ⟨divides.safe M safe nonzero, safe_pair.1 safe⟩
  rw [udivExact, (exact_decides z left right divides.sorted).truth M all,
    divides.value M safe nonzero trivial, BitVec.smtUDiv_eq, if_neg nonzero, left.toNat_eq M,
    right.toNat_eq M]
  exact Lib.udiv_mul_eq_iff.trans Nat.dvd_iff_mod_eq_zero

end

/-- Every predicate holds exactly if the result is representable, or if nothing
is lost, in the models in which the operands divide by zero nowhere. -/
theorem overflow_construction
    {a b : Expr} {w : Nat} (left : a.HasSort (.bv w)) (right : b.HasSort (.bv w)) :
    (addNoSOverflow z a b).Decides [a, b]
      (fun M => SFits w ((a.bv M w).toInt + (b.bv M w).toInt)) ∧
    (addNoUOverflow z a b).Decides [a, b] (fun M => a.toNat M + b.toNat M < 2 ^ w) ∧
    (addNoUSOverflow z a b).Decides [a, b] (fun M =>
      0 ≤ (a.toNat M : Int) + (b.bv M w).toInt ∧ (a.toNat M : Int) + (b.bv M w).toInt < 2 ^ w) ∧
    (subNoSOverflow z a b).Decides [a, b]
      (fun M => SFits w ((a.bv M w).toInt - (b.bv M w).toInt)) ∧
    (subNoUOverflow z a b).Decides [a, b] (fun M => b.toNat M ≤ a.toNat M) ∧
    (mulNoSOverflow z a b).Decides [a, b]
      (fun M => SFits w ((a.bv M w).toInt * (b.bv M w).toInt)) ∧
    (mulNoUOverflow z a b).Decides [a, b] (fun M => a.toNat M * b.toNat M < 2 ^ w) ∧
    ∀ M, Safe [a, b] M →
      (b.toNat M < w →
        ((shlNoSOverflow z a b).truth M = true ↔
          SFits w ((a.bv M w).toInt * 2 ^ b.toNat M)) ∧
        ((shlNoUOverflow z a b).truth M = true ↔ a.toNat M * 2 ^ b.toNat M < 2 ^ w) ∧
        ((ashrExact z a b).truth M = true ↔ a.toNat M % 2 ^ b.toNat M = 0) ∧
        ((lshrExact z a b).truth M = true ↔ a.toNat M % 2 ^ b.toNat M = 0)) ∧
      (b.bv M w ≠ 0#w →
        (¬(a.bv M w = BitVec.intMin w ∧ b.bv M w = BitVec.allOnes w) →
          ((sdivExact z a b).truth M = true ↔
            (a.bv M w).toInt.tmod (b.bv M w).toInt = 0)) ∧
        ((udivExact z a b).truth M = true ↔ a.toNat M % b.toNat M = 0)) := by
  refine ⟨addNoSOverflow_decides z left right, addNoUOverflow_decides z left right,
    addNoUSOverflow_decides z left right, subNoSOverflow_decides z left right,
    subNoUOverflow_decides z left right, mulNoSOverflow_decides z left right,
    mulNoUOverflow_decides z left right, fun M safe => ⟨fun inside => ?_, fun nonzero => ?_⟩⟩
  · refine ⟨?_, ?_, (ashrExact_decides z left right).truth M safe,
      (lshrExact_decides z left right).truth M safe⟩
    · rw [(shlNoSOverflow_decides z left right).truth M safe]
      exact shiftLeft_sshiftRight_eq_iff inside
    · rw [(shlNoUOverflow_decides z left right).truth M safe, left.toNat_eq M]
      exact Lib.shiftLeft_ushiftRight_eq_iff inside
  · exact ⟨sdivExact_truth z left right safe nonzero, udivExact_truth z left right safe nonzero⟩

theorem overflow_construction_const :
    (addNoSOverflow Z3.reference (.var "x" (.bv 8)) (.num 8 0x80)).Decides
      [.var "x" (.bv 8), .num 8 0x80]
      fun M => SFits 8 ((bv (.var "x" (.bv 8)) M 8).toInt + (bv (.num 8 0x80) M 8).toInt) :=
  (@overflow_construction Z3.reference (.var "x" (.bv 8)) (.num 8 0x80) 8 ⟨rfl, rfl⟩
    ⟨rfl, rfl⟩).1

/-- A divisor that is zero makes a remainder of one bit positive when it is
widened. -/
theorem subNoSOverflow_of_division_by_zero :
    ¬∀ (a b : Expr) (w : Nat) (M : Model), a.HasSort (.bv w) → b.HasSort (.bv w) →
      ((subNoSOverflow Z3.reference a b).truth M = true ↔
        SFits w ((a.bv M w).toInt - (b.bv M w).toInt)) := by
  intro claim
  have known : (subNoSOverflow Z3.reference oneBitRemainder (.num 1 1)).truth divisionByZero =
      false := rfl
  have values := claim oneBitRemainder (.num 1 1) 1 divisionByZero ⟨rfl, rfl⟩ ⟨rfl, rfl⟩
  rw [known] at values
  exact absurd (values.2 (by decide)) Bool.false_ne_true

end Expr

end AliveNext.Smt
