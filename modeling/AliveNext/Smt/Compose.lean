import AliveNext.Smt.Arithmetic

/-!
# Terms built from terms that are known

One rule for each constructor: what it makes of parts whose value, or truth, is
described already.
-/

namespace AliveNext.Smt

namespace Expr

variable (z : Z3) {a b c e : Expr} {v w : Nat} {parts : List Expr}
  {x y : Model → BitVec w} {p q : Model → Prop}

theorem denotes_mkUInt
    (positive : 0 < w) (n : Nat) : (mkUInt n w).Denotes w parts fun _ => BitVec.ofNat w n :=
  .num positive _

theorem denotes_mkInt_neg_one (positive : 0 < w) :
    (mkInt (-1) w).Denotes w parts fun _ => BitVec.allOnes w := by
  rw [mkInt_neg_one]
  exact .num positive _

theorem denotes_intSMin (positive : 0 < w) :
    (intSMin z w).Denotes w parts fun _ => BitVec.intMin w := by
  rw [intSMin_eq z positive]
  exact .num positive _

theorem denotes_intSMax (positive : 0 < w) :
    (intSMax z w).Denotes w parts fun _ => BitVec.intMax w := by
  rw [intSMax_eq z positive]
  exact .num positive _

namespace Denotes

section

variable {y' : Model → BitVec v}

theorem concat (first : a.Denotes w parts x) (second : b.Denotes v parts y') :
    (concat z a b).Denotes (w + v) parts fun M => x M ++ y' M := by
  apply (first.computes.concat z second.computes).denotes
  intro M _
  rw [BitVec.toNat_append, Nat.shiftLeft_eq, Nat.mul_comm,
    Nat.two_pow_add_eq_or_of_lt (y' M).isLt, Nat.mul_comm]

theorem extract {high low : Nat} (depth : Nat) (denotes : e.Denotes w parts x)
    (ordered : low ≤ high) (inside : high < w) :
    (extract z e high low depth).Denotes (high - low + 1) parts
      fun M => (x M).extractLsb high low := by
  apply (denotes.computes.extract z depth ordered inside).denotes
  intro M _
  rw [BitVec.extractLsb_toNat, Nat.shiftRight_eq_div_pow]

section

variable (denotes : e.Denotes w parts x)

include denotes

theorem zext (amount : Nat) :
    (zext z e amount).Denotes (w + amount) parts fun M => (x M).setWidth (w + amount) := by
  apply (denotes.computes.zext z amount).denotes
  intro M _
  rw [BitVec.toNat_setWidth, Nat.mod_eq_of_lt]
  exact (x M).isLt.trans_le (Nat.pow_le_pow_right Nat.two_pos (Nat.le_add_right w amount))

theorem sext (amount : Nat) :
    (sext z e amount).Denotes (w + amount) parts fun M => (x M).signExtend (w + amount) := by
  have computes := sext_computes z denotes.sorted amount
  apply (computes.within (fun M safe => safe_single.2 (denotes.safe M safe)) ?_).denotes
  · exact fun M _ => rfl
  · intro M safe
    rw [denotes.value M safe]

theorem trunc {tobw : Nat} (positive : 0 < tobw)
    (narrower : tobw ≤ w) : (trunc z e tobw).Denotes tobw parts fun M => (x M).setWidth tobw := by
  have computes := trunc_computes z denotes.sorted positive narrower
  apply (computes.within (fun M safe => safe_single.2 (denotes.safe M safe)) ?_).denotes
  · intro M _
    exact (BitVec.toNat_setWidth tobw (x M)).symm
  · intro M safe
    rw [denotes.sorted.toNat_eq M, denotes.value M safe]

theorem zextOrTrunc {tobw : Nat} (positive : 0 < tobw) :
    (zextOrTrunc z e tobw).Denotes tobw parts fun M => (x M).setWidth tobw := by
  have computes := zextOrTrunc_computes z denotes.sorted positive
  apply (computes.within (fun M safe => safe_single.2 (denotes.safe M safe)) ?_).denotes
  · intro M _
    exact (BitVec.toNat_setWidth tobw (x M)).symm
  · intro M safe
    rw [denotes.sorted.toNat_eq M, denotes.value M safe]

end

theorem bit {i : Nat} (depth : Nat) (denotes : e.Denotes w parts x) (inside : i < w) :
    (Expr.extract z e i i depth).Denotes 1 parts fun M => BitVec.ofBool ((x M).getLsbD i) := by
  have computes := denotes.computes.extract z depth (le_refl i) inside
  rw [Nat.sub_self, Nat.zero_add] at computes
  apply computes.denotes
  intro M _
  rw [BitVec.toNat_ofBool, ← BitVec.testBit_toNat, Nat.testBit_eq_decide_div_mod_eq, Nat.pow_one]
  rcases Nat.mod_two_eq_zero_or_one ((x M).toNat / 2 ^ i) with zero | one
  · rw [zero]
    rfl
  · rw [one]
    rfl

theorem sign (denotes : e.Denotes w parts x) :
    (sign z e).Denotes 1 parts fun M => BitVec.ofBool (x M).msb := by
  have positive := denotes.sorted.pos
  rw [Expr.sign, denotes.sorted.bits_eq]
  apply (denotes.bit z 3 (show w - 1 < w by omega)).congr
  intro M _
  rw [BitVec.msb_eq_getLsbD_last]

end

section

variable (first : a.Denotes w parts x) (second : b.Denotes w parts y)

include first second

theorem operator {op : BvOp} (flattens : op.flattens = true) :
    (operator z op a b).Denotes w parts fun M => op.denote (x M) (y M) := by
  have other : op ≠ .urem := by
    rintro rfl
    cases flattens
  exact of_stands_bv other (operator_answer z flattens first.sorted second.sorted).1.stands
    first second

theorem add : (add z a b).Denotes w parts fun M => x M + y M := first.operator z second rfl

theorem mul : (mul z a b).Denotes w parts fun M => x M * y M := first.operator z second rfl

theorem bitAnd : (bitAnd z a b).Denotes w parts fun M => x M &&& y M :=
  first.operator z second rfl

theorem bitOr : (bitOr z a b).Denotes w parts fun M => x M ||| y M :=
  first.operator z second rfl

theorem bitXor : (bitXor z a b).Denotes w parts fun M => x M ^^^ y M :=
  first.operator z second rfl

theorem sub : (sub z a b).Denotes w parts fun M => x M - y M := by
  have positive := first.sorted.pos
  unfold Expr.sub
  rw [first.sorted.bits_eq]
  by_cases same : a = b
  · subst same
    rw [if_pos rfl]
    apply (denotes_mkUInt positive 0).congr
    intro M safe
    rw [← first.value M safe, second.value M safe, BitVec.sub_self]
  · rw [if_neg same]
    apply (first.add z ((denotes_mkInt_neg_one positive).mul z second)).congr
    intro M _
    rw [allOnes_mul, BitVec.sub_eq_add_neg]

theorem shl : (shl z a b).Denotes w parts fun M => x M <<< y M :=
  of_stands_bv (by decide) (shl_stands z first.sorted second.sorted) first second

theorem ashr : (ashr z a b).Denotes w parts fun M => (x M).sshiftRight' (y M) :=
  of_stands_bv (by decide) (ashr_stands z first.sorted second.sorted) first second

theorem lshr : (lshr z a b).Denotes w parts fun M => x M >>> y M :=
  of_stands_bv (by decide) (lshr_stands z first.sorted second.sorted) first second

theorem urem (nonzero : ∀ M, Safe parts M → y M ≠ 0#w) :
    (urem z a b).Denotes w parts fun M => x M % y M := by
  have stands := urem_stands z first.sorted second.sorted
  have divisors : ∀ M, Safe parts M → NonzeroDivisors (.app (.bv .urem) [a, b]) M := by
    intro M safe
    refine nonzeroDivisors_urem.2 ⟨first.safe M safe, second.safe M safe, ?_⟩
    rw [← bv_ne_zero second.sorted, second.value M safe]
    exact nonzero M safe
  refine ⟨stands.sorted _ (hasSort_bv.2 ⟨first.sorted, second.sorted⟩),
    fun M safe => stands.safe M (divisors M safe), fun M safe => ?_⟩
  rw [stands.bv_eq (divisors M safe), bv_bv M first.sorted, first.value M safe,
    second.value M safe, BvOp.denote]

theorem cmpEq : (cmpEq z a b).Decides parts fun M => x M = y M := by
  have decides := cmpEq_decides_bv z first.sorted second.sorted
  refine ⟨decides.sorted, fun M safe => ?_, fun M safe => ?_⟩
  · exact decides.safe M (safe_pair.2 ⟨first.safe M safe, second.safe M safe⟩)
  · rw [decides.truth M (safe_pair.2 ⟨first.safe M safe, second.safe M safe⟩),
      first.sorted.toNat_eq M, second.sorted.toNat_eq M, first.value M safe,
      second.value M safe, BitVec.toNat_inj]

theorem ule : (ule z a b).Decides parts fun M => (x M).toNat ≤ (y M).toNat := by
  have decides := ule_decides z first.sorted second.sorted
  refine ⟨decides.sorted, fun M safe => ?_, fun M safe => ?_⟩
  · exact decides.safe M (safe_pair.2 ⟨first.safe M safe, second.safe M safe⟩)
  · rw [decides.truth M (safe_pair.2 ⟨first.safe M safe, second.safe M safe⟩),
      first.sorted.toNat_eq M, second.sorted.toNat_eq M, first.value M safe,
      second.value M safe]

theorem mkIf (cond : c.Decides parts p) [∀ M, Decidable (p M)] :
    (mkIf z c a b).Denotes w parts fun M => if p M then x M else y M := by
  have whole : HasSort (.app .ite [c, a, b]) (.bv w) :=
    hasSort_ite.2 ⟨cond.sorted, first.sorted, second.sorted⟩
  have same := (mkIf_spec z whole).same
  refine ⟨same.sorted _ whole, fun M safe => ?_, fun M safe => ?_⟩
  · exact same.safe M ((nonzeroDivisors_triple (by simp)).2
      ⟨cond.safe M safe, first.safe M safe, second.safe M safe⟩)
  · rw [bv, same.eval_eq M, eval_ite]
    by_cases holds : p M
    · rw [if_pos holds, if_pos ((cond.truth M safe).2 holds)]
      exact first.value M safe
    · rw [if_neg holds, if_neg fun contra => holds ((cond.truth M safe).1 contra)]
      exact second.value M safe

end

theorem bitNot (denotes : e.Denotes w parts x) :
    (bitNot z e).Denotes w parts fun M => ~~~(x M) := by
  have whole : HasSort (.app .bvnot [e]) (.bv w) := hasSort_bvnot.2 denotes.sorted
  have same : (Expr.bitNot z e).Same (.app .bvnot [e]) := simplifyConst_same z rfl whole
  refine ⟨same.sorted _ whole, fun M safe => ?_, fun M safe => ?_⟩
  · exact same.safe M (by simpa using denotes.safe M safe)
  · rw [bv, same.eval_eq M, ← bv, bv_bvnot M denotes.sorted, denotes.value M safe]

theorem isNegative (denotes : e.Denotes w parts x) :
    (isNegative z e).Decides parts fun M => (x M).msb = true := by
  have sign := denotes.sign z
  unfold Expr.isNegative
  rw [sign.sorted.bits_eq]
  apply (sign.cmpEq z (denotes_mkUInt Nat.one_pos 1)).congr
  intro M _
  cases (x M).msb <;> decide

end Denotes

/-- Every operator gives the value of SMT-LIB, in the models in which nothing is
divided by zero. -/
theorem arithmetic_construction (left : a.HasSort (.bv w)) (right : b.HasSort (.bv w)) :
    (∀ op k, op.flattens = true → opRank op a b ≤ k →
      operators z k op a b = some (operator z op a b)) ∧
    (add z a b).Denotes w [a, b] (fun M => a.bv M w + b.bv M w) ∧
    (sub z a b).Denotes w [a, b] (fun M => a.bv M w - b.bv M w) ∧
    (mul z a b).Denotes w [a, b] (fun M => a.bv M w * b.bv M w) ∧
    (shl z a b).Denotes w [a, b] (fun M => a.bv M w <<< b.bv M w) ∧
    (ashr z a b).Denotes w [a, b] (fun M => (a.bv M w).sshiftRight' (b.bv M w)) ∧
    (lshr z a b).Denotes w [a, b] (fun M => a.bv M w >>> b.bv M w) ∧
    (bitAnd z a b).Denotes w [a, b] (fun M => a.bv M w &&& b.bv M w) ∧
    (bitOr z a b).Denotes w [a, b] (fun M => a.bv M w ||| b.bv M w) ∧
    (bitXor z a b).Denotes w [a, b] (fun M => a.bv M w ^^^ b.bv M w) ∧
    (bitNot z a).Denotes w [a] (fun M => ~~~(a.bv M w)) ∧
    (sdiv z a b).HasSort (.bv w) ∧ (udiv z a b).HasSort (.bv w) ∧
    (srem z a b).HasSort (.bv w) ∧ (urem z a b).HasSort (.bv w) ∧
    ∀ M, Safe [a, b] M → b.bv M w ≠ 0#w →
      (¬(a.bv M w = BitVec.intMin w ∧ b.bv M w = BitVec.allOnes w) →
        (sdiv z a b).bv M w = (a.bv M w).smtSDiv (b.bv M w)) ∧
      (udiv z a b).bv M w = (a.bv M w).smtUDiv (b.bv M w) ∧
      (srem z a b).bv M w = (a.bv M w).srem (b.bv M w) ∧
      (urem z a b).bv M w = a.bv M w % b.bv M w := by
  have first : a.Denotes w [a, b] fun M => a.bv M w := (Denotes.refl left).mono (by simp)
  have second : b.Denotes w [a, b] fun M => b.bv M w := (Denotes.refl right).mono (by simp)
  have whole : HasSort (.app (.bv .urem) [a, b]) (.bv w) := hasSort_bv.2 ⟨left, right⟩
  have quotient := sdiv_divides z left right
  have quotient' := udiv_divides z left right
  have remainder := srem_divides z left right
  have remainder' := urem_stands z left right
  refine ⟨fun op k flattens => (operator_answer z flattens left right).2 k, first.add z second,
    first.sub z second, first.mul z second, first.shl z second, first.ashr z second,
    first.lshr z second, first.bitAnd z second, first.bitOr z second, first.bitXor z second,
    (Denotes.refl left).bitNot z, quotient.sorted, quotient'.sorted, remainder.sorted,
    remainder'.sorted _ whole, fun M safe nonzero => ?_⟩
  refine ⟨quotient.value M safe nonzero, quotient'.value M safe nonzero trivial,
    remainder.value M safe nonzero trivial, ?_⟩
  rw [safe_pair] at safe
  have divisors : NonzeroDivisors (.app (.bv .urem) [a, b]) M :=
    nonzeroDivisors_urem.2 ⟨safe.1, safe.2, (bv_ne_zero right M).1 nonzero⟩
  rw [remainder'.bv_eq divisors, bv_bv M left, BvOp.denote]

theorem arithmetic_construction_mask :
    (bitAnd Z3.reference (.var "x" (.bv 8)) (.num 8 0x3c)).Denotes 8
      [.var "x" (.bv 8), .num 8 0x3c]
      fun M => bv (.var "x" (.bv 8)) M 8 &&& bv (.num 8 0x3c) M 8 :=
  (@arithmetic_construction Z3.reference (.var "x" (.bv 8)) (.num 8 0x3c) 8 ⟨rfl, rfl⟩
    ⟨rfl, rfl⟩).2.2.2.2.2.2.2.1

end Expr

end AliveNext.Smt
