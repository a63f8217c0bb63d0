import AliveNext.Smt.Overflow

/-!
# Saturating, funnel-shift and fixed-point operators

The exact integer result, clamped to the range of the type, shifted or scaled.
The intermediate results are wide enough to be exact.
-/

namespace AliveNext.Smt

namespace Expr

variable (z : Z3)

def betweenBounds (ext result : Expr) (bw : Nat) : Expr :=
  let min := intSMin z bw
  let max := intSMax z bw
  mkIf z (sle z ext (sext z min 1)) min (mkIf z (sge z ext (sext z max 1)) max result)

def saddSat (a b : Expr) : Expr :=
  betweenBounds z (add z (sext z a 1) (sext z b 1)) (add z a b) a.bits

def uaddSat (a b : Expr) : Expr :=
  mkIf z (addNoUOverflow z a b) (add z a b) (intUMax a.bits)

def ssubSat (a b : Expr) : Expr :=
  betweenBounds z (sub z (sext z a 1) (sext z b 1)) (sub z a b) a.bits

def usubSat (a b : Expr) : Expr :=
  mkIf z (uge z b a) (mkUInt 0 a.bits) (sub z a b)

def sshlSat (a b : Expr) : Expr :=
  mkIf z (shlNoSOverflow z a b) (shl z a b)
    (mkIf z (isNegative z a) (intSMin z a.bits) (intSMax z a.bits))

def ushlSat (a b : Expr) : Expr :=
  mkIf z (shlNoUOverflow z a b) (shl z a b) (intUMax a.bits)

def fshl (a b c : Expr) : Expr :=
  let width := mkUInt a.bits a.bits
  let cModWidth := urem z c width
  bitOr z (shl z a cModWidth) (lshr z b (sub z width cModWidth))

def fshr (a b c : Expr) : Expr :=
  let width := mkUInt a.bits a.bits
  let cModWidth := urem z c width
  bitOr z (shl z a (sub z width cModWidth)) (lshr z b cModWidth)

def smulFixHelper (a b c : Expr) : Expr :=
  let width := a.bits
  let product := mul z (sext z a width) (sext z b width)
  ashr z product (zextOrTrunc z c (2 * width))

def smulFix (a b c : Expr) : Expr := trunc z (smulFixHelper z a b c) a.bits

def smulFixNoSOverflow (a b c : Expr) : Expr :=
  let r := smulFixHelper z a b c
  cmpEq z (sext z (trunc z r a.bits) a.bits) r

def smulFixSat (a b c : Expr) : Expr :=
  let r := smulFixHelper z a b c
  mkIf z (smulFixNoSOverflow z a b c) (smulFix z a b c)
    (mkIf z (isNegative z r) (intSMin z a.bits) (intSMax z a.bits))

def umulFixHelper (a b c : Expr) : Expr :=
  let width := a.bits
  let product := mul z (zext z a width) (zext z b width)
  lshr z product (zextOrTrunc z c (2 * width))

def umulFix (a b c : Expr) : Expr := trunc z (umulFixHelper z a b c) a.bits

def umulFixNoUOverflow (a b c : Expr) : Expr :=
  let high := extract z (umulFixHelper z a b c) (a.bits * 2 - 1) a.bits 3
  cmpEq z high (mkUInt 0 high.bits)

def umulFixSat (a b c : Expr) : Expr :=
  mkIf z (umulFixNoUOverflow z a b c) (umulFix z a b c) (intUMax a.bits)

section

variable {a b : Expr} {w : Nat} {M : Model}

theorem betweenBounds_denotes {ext result : Expr} {parts : List Expr}
    {wide : Model → BitVec (w + 1)} {narrow : Model → BitVec w}
    (exact : ext.Denotes (w + 1) parts wide) (wrapped : result.Denotes w parts narrow) :
    (betweenBounds z ext result w).Denotes w parts fun M =>
      if (wide M).toInt ≤ ((BitVec.intMin w).signExtend (w + 1)).toInt then BitVec.intMin w
      else if ((BitVec.intMax w).signExtend (w + 1)).toInt ≤ (wide M).toInt then BitVec.intMax w
      else narrow M := by
  have positive := wrapped.sorted.pos
  have least : (intSMin z w).Denotes w parts fun _ => BitVec.intMin w :=
    denotes_intSMin z positive
  have greatest : (intSMax z w).Denotes w parts fun _ => BitVec.intMax w :=
    denotes_intSMax z positive
  have upper := greatest.mkIf z wrapped (exact.sge z (greatest.sext z 1))
  exact least.mkIf z upper (exact.sle z (least.sext z 1))

variable (left : a.HasSort (.bv w)) (right : b.HasSort (.bv w)) (safe : Safe [a, b] M)

include left right safe

theorem toInt_saddSat :
    ((saddSat z a b).bv M w).toInt = clampS w ((a.bv M w).toInt + (b.bv M w).toInt) := by
  obtain ⟨first, second⟩ := denotes_pair left right
  have denotes := betweenBounds_denotes z ((first.sext z 1).add z (second.sext z 1))
    (first.add z second)
  rw [saddSat, left.bits_eq, denotes.value M safe]
  exact toInt_between_bounds left.pos (Lib.toInt_signExtend_add w.lt_succ_self _ _)
    (BitVec.toInt_add _ _)

theorem toInt_ssubSat :
    ((ssubSat z a b).bv M w).toInt = clampS w ((a.bv M w).toInt - (b.bv M w).toInt) := by
  obtain ⟨first, second⟩ := denotes_pair left right
  have denotes := betweenBounds_denotes z ((first.sext z 1).sub z (second.sext z 1))
    (first.sub z second)
  rw [ssubSat, left.bits_eq, denotes.value M safe]
  exact toInt_between_bounds left.pos (Lib.toInt_signExtend_sub w.lt_succ_self _ _) BitVec.toInt_sub

theorem toNat_uaddSat : ((uaddSat z a b).toNat M : Int) = clampU w (a.toNat M + b.toNat M) := by
  obtain ⟨first, second⟩ := denotes_pair left right
  have denotes := (first.add z second).mkIf z (denotes_mkInt_neg_one left.pos)
    (addNoUOverflow_decides z left right)
  rw [uaddSat, intUMax, left.bits_eq, denotes.sorted.toNat_eq M, denotes.value M safe]
  apply toNat_or_allOnes
  rw [BitVec.toNat_add, left.toNat_eq M, right.toNat_eq M]

theorem toNat_usubSat : ((usubSat z a b).toNat M : Int) = clampU w (a.toNat M - b.toNat M) := by
  obtain ⟨first, second⟩ := denotes_pair left right
  have denotes := (denotes_mkUInt left.pos 0).mkIf z (first.sub z second) (second.uge z first)
  rw [usubSat, left.bits_eq, denotes.sorted.toNat_eq M, denotes.value M safe,
    left.toNat_eq M, right.toNat_eq M]
  exact toNat_sub_or_zero

theorem toInt_sshlSat (inside : b.toNat M < w) :
    ((sshlSat z a b).bv M w).toInt = clampS w ((a.bv M w).toInt * 2 ^ b.toNat M) := by
  obtain ⟨first, second⟩ := denotes_pair left right
  have positive := left.pos
  have bound : (mkIf z (isNegative z a) (intSMin z w) (intSMax z w)).Denotes w [a, b] fun M =>
      if (a.bv M w).msb = true then BitVec.intMin w else BitVec.intMax w :=
    (denotes_intSMin z positive).mkIf z (denotes_intSMax z positive) (first.isNegative z)
  have denotes := (first.shl z second).mkIf z bound (shlNoSOverflow_decides z left right)
  rw [sshlSat, left.bits_eq, denotes.value M safe]
  simp only [shiftLeft_sshiftRight_eq_iff inside]
  apply toInt_by_sign positive
  · rw [BitVec.shiftLeft_eq', ← right.toNat_eq M]
    exact Lib.toInt_shiftLeft_eq _ _
  · rw [BitVec.msb_eq_toInt, decide_eq_true_iff, mul_neg_iff]
    have some_bit : (0 : Int) < 2 ^ b.toNat M := by positivity
    omega

theorem toNat_ushlSat (inside : b.toNat M < w) :
    ((ushlSat z a b).toNat M : Int) = clampU w (a.toNat M * 2 ^ b.toNat M) := by
  obtain ⟨first, second⟩ := denotes_pair left right
  have denotes := (first.shl z second).mkIf z (denotes_mkInt_neg_one left.pos)
    (shlNoUOverflow_decides z left right)
  rw [ushlSat, intUMax, left.bits_eq, denotes.sorted.toNat_eq M, denotes.value M safe]
  simp only [Lib.shiftLeft_ushiftRight_eq_iff inside]
  have clamped : ((if (a.bv M w).toNat * 2 ^ b.toNat M < 2 ^ w then a.bv M w <<< b.bv M w
      else BitVec.allOnes w).toNat : Int) =
      clampU w ((a.bv M w).toNat * 2 ^ b.toNat M : Nat) := by
    apply toNat_or_allOnes
    rw [BitVec.shiftLeft_eq', ← right.toNat_eq M, BitVec.toNat_shiftLeft, Nat.shiftLeft_eq]
  rw [clamped, left.toNat_eq M]
  push_cast
  rfl

end

theorem denotes_triple {a b c : Expr} {v w : Nat} (left : a.HasSort (.bv w))
    (right : b.HasSort (.bv w)) (third : c.HasSort (.bv v)) :
    a.Denotes w [a, b, c] (fun M => a.bv M w) ∧ b.Denotes w [a, b, c] (fun M => b.bv M w) ∧
      c.Denotes v [a, b, c] (fun M => c.bv M v) :=
  ⟨(Denotes.refl left).mono (by simp), (Denotes.refl right).mono (by simp),
    (Denotes.refl third).mono (by simp)⟩

section

variable {a b c : Expr} {w : Nat}

theorem width_facts (w : Nat) (y : BitVec w) (positive : 0 < w) :
    BitVec.ofNat w w ≠ 0#w ∧ (y % BitVec.ofNat w w).toNat = y.toNat % w ∧
      (BitVec.ofNat w w - y % BitVec.ofNat w w).toNat = w - y.toNat % w := by
  have fits : w < 2 ^ w := Nat.lt_two_pow_self
  have less : y.toNat % w < w := Nat.mod_lt _ positive
  have amount : (y % BitVec.ofNat w w).toNat = y.toNat % w := by
    rw [BitVec.toNat_umod, BitVec.toNat_ofNat, Nat.mod_eq_of_lt fits]
  refine ⟨?_, amount, ?_⟩
  · rw [Ne, ← BitVec.toNat_inj, BitVec.toNat_ofNat, BitVec.toNat_ofNat, Nat.mod_eq_of_lt fits,
      Nat.zero_mod]
    omega
  · rw [BitVec.toNat_sub, amount, BitVec.toNat_ofNat, Nat.mod_eq_of_lt fits,
      show 2 ^ w - y.toNat % w + w = (w - y.toNat % w) + 2 ^ w by omega, Nat.add_mod_right,
      Nat.mod_eq_of_lt (by omega)]

variable (left : a.HasSort (.bv w)) (right : b.HasSort (.bv w)) (third : c.HasSort (.bv w))

include left right third

theorem fshl_denotes : (fshl z a b c).Denotes w [a, b, c] fun M =>
      ((a.bv M w ++ b.bv M w) <<< (c.toNat M % w)).extractLsb' w w := by
  obtain ⟨high, low, shift⟩ := denotes_triple left right third
  have positive := left.pos
  have width : (mkUInt w w).Denotes w [a, b, c] fun _ => BitVec.ofNat w w :=
    denotes_mkUInt positive w
  have amount := shift.urem z width fun M _ => (width_facts w (c.bv M w) positive).1
  unfold fshl
  rw [left.bits_eq]
  apply ((high.shl z amount).bitOr z (low.lshr z (width.sub z amount))).congr
  intro M _
  obtain ⟨-, modulo, rest⟩ := width_facts w (c.bv M w) positive
  rw [BitVec.shiftLeft_eq', BitVec.ushiftRight_eq', modulo, rest, third.toNat_eq M]
  exact (funnel_left (Nat.mod_lt _ positive)).symm

theorem fshr_denotes : (fshr z a b c).Denotes w [a, b, c] fun M =>
      ((a.bv M w ++ b.bv M w) >>> (c.toNat M % w)).setWidth w := by
  obtain ⟨high, low, shift⟩ := denotes_triple left right third
  have positive := left.pos
  have width : (mkUInt w w).Denotes w [a, b, c] fun _ => BitVec.ofNat w w :=
    denotes_mkUInt positive w
  have amount := shift.urem z width fun M _ => (width_facts w (c.bv M w) positive).1
  unfold fshr
  rw [left.bits_eq]
  apply ((high.shl z (width.sub z amount)).bitOr z (low.lshr z amount)).congr
  intro M _
  obtain ⟨-, modulo, rest⟩ := width_facts w (c.bv M w) positive
  rw [BitVec.shiftLeft_eq', BitVec.ushiftRight_eq', modulo, rest, third.toNat_eq M]
  exact (funnel_right (Nat.mod_lt _ positive)).symm

end

section

variable {a b c : Expr} {v w : Nat} (left : a.HasSort (.bv w)) (right : b.HasSort (.bv w))
  (scale : c.HasSort (.bv v))

include left right scale

theorem smulFixHelper_denotes : (smulFixHelper z a b c).Denotes (w + w) [a, b, c] fun M =>
      ((a.bv M w).signExtend (w + w) * (b.bv M w).signExtend (w + w)).sshiftRight'
        ((c.bv M v).setWidth (w + w)) := by
  obtain ⟨first, second, third⟩ := denotes_triple left right scale
  have positive := left.pos
  unfold smulFixHelper
  dsimp only
  rw [left.bits_eq, Nat.two_mul]
  exact ((first.sext z w).mul z (second.sext z w)).ashr z (third.zextOrTrunc z (by omega))

theorem umulFixHelper_denotes : (umulFixHelper z a b c).Denotes (w + w) [a, b, c] fun M =>
      ((a.bv M w).setWidth (w + w) * (b.bv M w).setWidth (w + w)) >>>
        (c.bv M v).setWidth (w + w) := by
  obtain ⟨first, second, third⟩ := denotes_triple left right scale
  have positive := left.pos
  unfold umulFixHelper
  dsimp only
  rw [left.bits_eq, Nat.two_mul]
  exact ((first.zext z w).mul z (second.zext z w)).lshr z (third.zextOrTrunc z (by omega))

variable {M : Model} (safe : Safe [a, b, c] M) (small : c.toNat M < 2 ^ (2 * w))

include safe small

omit left right safe in
theorem toNat_scale : ((c.bv M v).setWidth (w + w)).toNat = c.toNat M := by
  rw [BitVec.toNat_setWidth, ← scale.toNat_eq M, ← Nat.two_mul, Nat.mod_eq_of_lt small]

theorem toInt_smulFixHelper : ((smulFixHelper z a b c).bv M (w + w)).toInt =
      (a.bv M w).toInt * (b.bv M w).toInt / 2 ^ c.toNat M := by
  rw [(smulFixHelper_denotes z left right scale).value M safe, BitVec.sshiftRight_eq',
    toNat_scale scale small, BitVec.toInt_sshiftRight, Lib.toInt_signExtend_mul le_rfl,
    Int.shiftRight_eq_div_pow]
  push_cast
  rfl

theorem toNat_umulFixHelper :
    (umulFixHelper z a b c).toNat M = a.toNat M * b.toNat M / 2 ^ c.toNat M := by
  have denotes := umulFixHelper_denotes z left right scale
  rw [denotes.sorted.toNat_eq M, denotes.value M safe, BitVec.ushiftRight_eq',
    toNat_scale scale small, BitVec.toNat_ushiftRight, Lib.toNat_setWidth_mul le_rfl,
    Nat.shiftRight_eq_div_pow, left.toNat_eq M, right.toNat_eq M]

omit safe small in
theorem smulFix_denotes : (smulFix z a b c).Denotes w [a, b, c] fun M =>
      ((smulFixHelper z a b c).bv M (w + w)).setWidth w := by
  have helper := smulFixHelper_denotes z left right scale
  unfold smulFix
  rw [left.bits_eq]
  apply (helper.trunc z left.pos (Nat.le_add_left w w)).congr
  intro M safe
  rw [helper.value M safe]

omit safe small in
theorem smulFixNoSOverflow_decides : (smulFixNoSOverflow z a b c).Decides [a, b, c] fun M =>
      SFits w ((smulFixHelper z a b c).bv M (w + w)).toInt := by
  have helper := smulFixHelper_denotes z left right scale
  have narrow := helper.trunc z left.pos (Nat.le_add_left w w)
  unfold smulFixNoSOverflow
  rw [left.bits_eq]
  apply ((narrow.sext z w).cmpEq z helper).congr
  intro M safe
  rw [helper.value M safe, Eq.comm]
  exact eq_signExtend_iff left.pos (Nat.le_add_left w w) rfl
    (toInt_setWidth_of_le (Nat.le_add_left w w))

theorem toInt_smulFixSat : ((smulFixSat z a b c).bv M w).toInt =
      clampS w ((a.bv M w).toInt * (b.bv M w).toInt / 2 ^ c.toNat M) := by
  have positive := left.pos
  have helper := smulFixHelper_denotes z left right scale
  have bound : (mkIf z (isNegative z (smulFixHelper z a b c)) (intSMin z w)
      (intSMax z w)).Denotes w [a, b, c] _ :=
    (denotes_intSMin z positive).mkIf z (denotes_intSMax z positive) (helper.isNegative z)
  have denotes := (smulFix_denotes z left right scale).mkIf z bound
    (smulFixNoSOverflow_decides z left right scale)
  rw [smulFixSat, left.bits_eq, denotes.value M safe,
    ← toInt_smulFixHelper z left right scale safe small]
  apply toInt_by_sign positive (toInt_setWidth_of_le (Nat.le_add_left w w))
  rw [← helper.value M safe, BitVec.msb_eq_toInt, decide_eq_true_iff]

omit safe small in
theorem umulFix_denotes : (umulFix z a b c).Denotes w [a, b, c] fun M =>
      ((umulFixHelper z a b c).bv M (w + w)).setWidth w := by
  have helper := umulFixHelper_denotes z left right scale
  unfold umulFix
  rw [left.bits_eq]
  apply (helper.trunc z left.pos (Nat.le_add_left w w)).congr
  intro M safe
  rw [helper.value M safe]

omit safe small in
theorem umulFixNoUOverflow_decides : (umulFixNoUOverflow z a b c).Decides [a, b, c] fun M =>
      (umulFixHelper z a b c).toNat M < 2 ^ w := by
  have helper := umulFixHelper_denotes z left right scale
  have positive := left.pos
  unfold umulFixNoUOverflow
  dsimp only
  rw [left.bits_eq, Nat.mul_comm w 2]
  have high := helper.extract z 3 (show w ≤ 2 * w - 1 by omega) (by omega)
  rw [high.sorted.bits_eq]
  apply (high.cmpEq z (denotes_mkUInt (by omega) 0)).congr
  intro M safe
  rw [extractLsb_high_eq_zero_iff positive, helper.sorted.toNat_eq M, helper.value M safe]

theorem toNat_umulFixSat : ((umulFixSat z a b c).toNat M : Int) =
      clampU w (a.toNat M * b.toNat M / 2 ^ c.toNat M) := by
  have helper := umulFixHelper_denotes z left right scale
  have denotes := (umulFix_denotes z left right scale).mkIf z (denotes_mkInt_neg_one left.pos)
    (umulFixNoUOverflow_decides z left right scale)
  have value := toNat_umulFixHelper z left right scale safe small
  rw [umulFixSat, intUMax, left.bits_eq, denotes.sorted.toNat_eq M, denotes.value M safe]
  rw [toNat_or_allOnes (n := (umulFixHelper z a b c).toNat M), value]
  · push_cast
    rfl
  · rw [BitVec.toNat_setWidth, helper.sorted.toNat_eq M]

end

/-- Every operator gives the exact result, clamped, shifted or scaled as its name
says, in the models in which the operands divide by zero nowhere. A scale is any
number that twice the width can hold; the signed product is rounded toward
negative infinity. -/
theorem saturation_construction
    {a b c d : Expr} {v w : Nat} (left : a.HasSort (.bv w)) (right : b.HasSort (.bv w))
    (third : c.HasSort (.bv w)) (scale : d.HasSort (.bv v)) :
    (∀ M, Safe [a, b] M →
      ((saddSat z a b).bv M w).toInt = clampS w ((a.bv M w).toInt + (b.bv M w).toInt) ∧
      ((uaddSat z a b).toNat M : Int) = clampU w (a.toNat M + b.toNat M) ∧
      ((ssubSat z a b).bv M w).toInt = clampS w ((a.bv M w).toInt - (b.bv M w).toInt) ∧
      ((usubSat z a b).toNat M : Int) = clampU w (a.toNat M - b.toNat M) ∧
      (b.toNat M < w →
        ((sshlSat z a b).bv M w).toInt = clampS w ((a.bv M w).toInt * 2 ^ b.toNat M) ∧
        ((ushlSat z a b).toNat M : Int) = clampU w (a.toNat M * 2 ^ b.toNat M))) ∧
    (fshl z a b c).Denotes w [a, b, c] (fun M =>
      ((a.bv M w ++ b.bv M w) <<< (c.toNat M % w)).extractLsb' w w) ∧
    (fshr z a b c).Denotes w [a, b, c] (fun M =>
      ((a.bv M w ++ b.bv M w) >>> (c.toNat M % w)).setWidth w) ∧
    ∀ M, Safe [a, b, d] M → d.toNat M < 2 ^ (2 * w) →
      ((smulFix z a b d).bv M w).toInt =
        ((a.bv M w).toInt * (b.bv M w).toInt / 2 ^ d.toNat M).bmod (2 ^ w) ∧
      ((smulFixNoSOverflow z a b d).truth M = true ↔
        SFits w ((a.bv M w).toInt * (b.bv M w).toInt / 2 ^ d.toNat M)) ∧
      ((smulFixSat z a b d).bv M w).toInt =
        clampS w ((a.bv M w).toInt * (b.bv M w).toInt / 2 ^ d.toNat M) ∧
      (umulFix z a b d).toNat M = a.toNat M * b.toNat M / 2 ^ d.toNat M % 2 ^ w ∧
      ((umulFixNoUOverflow z a b d).truth M = true ↔
        a.toNat M * b.toNat M / 2 ^ d.toNat M < 2 ^ w) ∧
      ((umulFixSat z a b d).toNat M : Int) =
        clampU w (a.toNat M * b.toNat M / 2 ^ d.toNat M) := by
  refine ⟨fun M safe => ⟨toInt_saddSat z left right safe, toNat_uaddSat z left right safe,
    toInt_ssubSat z left right safe, toNat_usubSat z left right safe, fun inside =>
      ⟨toInt_sshlSat z left right safe inside, toNat_ushlSat z left right safe inside⟩⟩,
    fshl_denotes z left right third, fshr_denotes z left right third, fun M safe small => ?_⟩
  have signed := toInt_smulFixHelper z left right scale safe small
  have unsigned := toNat_umulFixHelper z left right scale safe small
  refine ⟨?_, ?_, toInt_smulFixSat z left right scale safe small, ?_, ?_,
    toNat_umulFixSat z left right scale safe small⟩
  · rw [(smulFix_denotes z left right scale).value M safe,
      toInt_setWidth_of_le (Nat.le_add_left w w), signed]
  · rw [(smulFixNoSOverflow_decides z left right scale).truth M safe, signed]
  · have denotes := umulFix_denotes z left right scale
    have helper := umulFixHelper_denotes z left right scale
    rw [denotes.sorted.toNat_eq M, denotes.value M safe, BitVec.toNat_setWidth,
      ← helper.sorted.toNat_eq M, unsigned]
  · rw [(umulFixNoUOverflow_decides z left right scale).truth M safe, unsigned]

theorem saturation_construction_funnel :
    (fshl Z3.reference (.var "a" (.bv 24)) (.var "b" (.bv 24)) (.var "c" (.bv 24))).Denotes 24
      [.var "a" (.bv 24), .var "b" (.bv 24), .var "c" (.bv 24)] fun M =>
        ((bv (.var "a" (.bv 24)) M 24 ++ bv (.var "b" (.bv 24)) M 24) <<<
          (toNat (.var "c" (.bv 24)) M % 24)).extractLsb' 24 24 :=
  (@saturation_construction Z3.reference (.var "a" (.bv 24)) (.var "b" (.bv 24))
    (.var "c" (.bv 24)) (.var "d" (.bv 32)) 32 24 ⟨rfl, rfl⟩ ⟨rfl, rfl⟩ ⟨rfl, rfl⟩
    ⟨rfl, rfl⟩).2.1

/-- A divisor that is zero makes a remainder of one bit positive when it is
widened. -/
theorem saddSat_of_division_by_zero :
    ¬∀ (a b : Expr) (w : Nat) (M : Model), a.HasSort (.bv w) → b.HasSort (.bv w) →
      ((saddSat Z3.reference a b).bv M w).toInt =
        clampS w ((a.bv M w).toInt + (b.bv M w).toInt) := by
  intro claim
  have values := claim oneBitRemainder (.num 1 0) 1 divisionByZero ⟨rfl, rfl⟩ ⟨rfl, rfl⟩
  have known : ((saddSat Z3.reference oneBitRemainder (.num 1 0)).bv divisionByZero 1).toInt =
      0 := rfl
  rw [known] at values
  exact absurd values (by decide)

end Expr

end AliveNext.Smt
