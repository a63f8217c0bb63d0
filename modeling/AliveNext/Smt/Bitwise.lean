import AliveNext.Smt.Reassociate

/-!
# A round of `&`, `|` and `^`

A mask that is a run of ones is an extract between zeros, and one-bit
conditionals are joined by a connective.
-/

namespace AliveNext.Smt

theorem run_of_isPower2
    {n : Nat} (nonzero : n ≠ 0) (power : isPower2Nat ((n >>> countrZero n) + 1) = true) :
    ∃ m, 0 < m ∧ n = (2 ^ m - 1) * 2 ^ countrZero n ∧ bitWidth n = countrZero n + m := by
  obtain ⟨m, equal⟩ := isPower2Nat_iff.1 power
  have high : n / 2 ^ countrZero n = 2 ^ m - 1 := by
    rw [← Nat.shiftRight_eq_div_pow]
    exact Nat.eq_sub_of_add_eq equal
  have low : n % 2 ^ countrZero n = 0 := by
    apply Nat.eq_of_testBit_eq
    intro i
    rw [Nat.testBit_mod_two_pow, Nat.zero_testBit]
    by_cases inside : i < countrZero n
    · rw [testBit_of_lt_countrZero inside, Bool.and_false]
    · rw [decide_eq_false inside, Bool.false_and]
  have whole : n = (2 ^ m - 1) * 2 ^ countrZero n := by
    have split := Nat.div_add_mod n (2 ^ countrZero n)
    rw [high, low, Nat.add_zero, Nat.mul_comm] at split
    exact split.symm
  have some_ones : m ≠ 0 := by
    rintro rfl
    rw [Nat.pow_zero, Nat.sub_self, Nat.zero_mul] at whole
    exact nonzero whole
  refine ⟨m, Nat.pos_of_ne_zero some_ones, whole, ?_⟩
  have lower : 2 ^ (countrZero n + m - 1) ≤ n := by
    have half : 2 ^ (m - 1) ≤ 2 ^ m - 1 := by
      have double : 2 ^ m = 2 * 2 ^ (m - 1) := by
        rw [← Nat.pow_succ', Nat.succ_eq_add_one, Nat.sub_add_cancel (by omega)]
      have positive := Nat.two_pow_pos (m - 1)
      omega
    calc 2 ^ (countrZero n + m - 1) = 2 ^ (m - 1) * 2 ^ countrZero n := by
          rw [← Nat.pow_add]
          congr 1
          omega
      _ ≤ (2 ^ m - 1) * 2 ^ countrZero n := Nat.mul_le_mul_right _ half
      _ = n := whole.symm
  have upper : n < 2 ^ (countrZero n + m) := by
    have positive := Nat.two_pow_pos m
    calc n = (2 ^ m - 1) * 2 ^ countrZero n := whole
      _ < 2 ^ m * 2 ^ countrZero n :=
        Nat.mul_lt_mul_of_pos_right (by omega) (Nat.two_pow_pos _)
      _ = 2 ^ (countrZero n + m) := by rw [← Nat.pow_add, Nat.add_comm]
  rw [bitWidth, if_neg nonzero]
  have log : Nat.log2 n = countrZero n + m - 1 :=
    (Nat.log2_eq_iff nonzero).2 ⟨lower, by rwa [Nat.sub_add_cancel (by omega)]⟩
  omega

theorem and_run (m trail x : Nat) :
    ((2 ^ m - 1) * 2 ^ trail) &&& x = ((x / 2 ^ trail) % 2 ^ m) * 2 ^ trail := by
  apply Nat.eq_of_testBit_eq
  intro i
  rw [Nat.testBit_and, Nat.testBit_mul_two_pow, Nat.testBit_mul_two_pow,
    Nat.testBit_two_pow_sub_one, Nat.testBit_mod_two_pow, Nat.testBit_div_two_pow]
  by_cases above : trail ≤ i
  · rw [Nat.sub_add_cancel above]
    simp [above]
  · simp [above]

namespace Expr

variable (z : Z3) {a b e t : Expr} {w : Nat}

theorem foldExtract_spec (left : a.HasSort (.bv w)) (right : b.HasSort (.bv w)) (narrow : w ≤ 64)
    (known : foldExtract z a b = some t) :
    t.StandsFor (.app (.bv .and) [a, b]) ∧ (b.isConst = true → t.isConst = true) := by
  unfold foldExtract at known
  split at known
  · next n isN =>
    obtain ⟨rfl, small, -⟩ := isUInt_sorted left isN
    split at known
    · cases known
    next nonzero =>
    rw [not_or] at nonzero
    dsimp only at known
    split at known
    · next power =>
      obtain ⟨m, positive, run, width⟩ := run_of_isPower2 nonzero.1 power
      have inside : countrZero n + m ≤ w := width ▸ bitWidth_le small
      rw [countlZero, width, left.bits_eq,
        show 63 - (64 - (countrZero n + m)) = countrZero n + m - 1 by omega,
        show 64 - (countrZero n + m) - (64 - w) = w - (countrZero n + m) by omega] at known
      have ordered : countrZero n ≤ countrZero n + m - 1 := by omega
      have middle := (Computes.refl right).extract z 3 ordered (by omega)
      rw [show countrZero n + m - 1 - countrZero n + 1 = m by omega] at middle
      have upper := middle.zext z (w - (countrZero n + m))
      rw [show m + (w - (countrZero n + m)) = w - countrZero n by omega] at upper
      have whole := upper.concatZeros z (countrZero n)
      rw [show w - countrZero n + countrZero n = w by omega] at whole
      have shape : t = concatZeros z (zext z (extract z b (countrZero n + m - 1) (countrZero n) 3)
          (w - (countrZero n + m))) (countrZero n) := by
        rw [← Option.some.inj known]
        unfold concatZeros zext
        simp only [gt_iff_lt, Nat.pos_iff_ne_zero, ne_eq, ite_not]
      rw [← shape] at whole
      constructor
      · apply stands_bv left right (by decide) whole.sorted
        · exact fun M safe => whole.safe M (safe_single.2 (safe_pair.1 safe).2)
        · intro M safe
          apply BitVec.eq_of_toNat_eq
          rw [← whole.sorted.toNat_eq M, whole.value M (safe_single.2 (safe_pair.1 safe).2),
            BvOp.denote, BitVec.toNat_and, bv_mkUInt, BitVec.toNat_ofNat, Nat.mod_eq_of_lt small,
            ← right.toNat_eq M, ← and_run m, ← run]
      · intro const
        rw [shape]
        apply concatZeros_const z upper.sorted
        apply zext_const z middle.sorted
        exact extract_const z right ordered (by omega) const
    · cases known
  · cases known

theorem bit_ext : ∀ x y : BitVec 1, (x = 1#1 ↔ y = 1#1) → x = y := by decide

theorem getBool_spec {c : Expr} (sorted : e.HasSort (.bv 1)) (known : getBool e = some c) :
    e.isConst = false ∧ c.Decides [e] fun M => e.bv M 1 = 1#1 := by
  unfold getBool at known
  split at known
  · next cond x y shape =>
    rw [isIf_eq_some] at shape
    subst shape
    obtain ⟨sortedCond, sortedX, sortedY⟩ := hasSort_ite.1 sorted
    have plain : cond.Decides [.app .ite [cond, x, y]] fun M => cond.truth M = true :=
      ⟨sortedCond, fun M safe => (safe_single.1 safe).arg (by simp), fun M _ => Iff.rfl⟩
    have value : ∀ M, bv (.app .ite [cond, x, y]) M 1 =
        if cond.truth M then x.bv M 1 else y.bv M 1 := by
      intro M
      rw [bv, eval_ite]
      split <;> rfl
    refine ⟨rfl, ?_⟩
    split at known
    · next bits =>
      cases known
      apply plain.congr
      intro M _
      rw [value M, bv_of_isOne sortedX bits.1, bv_of_isZero sortedY bits.2]
      split <;> simp_all
    split at known
    · next bits =>
      cases known
      apply plain.not.congr
      intro M _
      rw [value M, bv_of_isZero sortedX bits.1, bv_of_isOne sortedY bits.2]
      split <;> simp_all
    · cases known
  · cases known

theorem toBVBool_denotes
    {cond : Expr} {parts : List Expr} {p : Model → Prop} (decides : cond.Decides parts p) :
    (toBVBool z cond).HasSort (.bv 1) ∧ ∀ M, Safe parts M → (toBVBool z cond).NonzeroDivisors M ∧
        ((toBVBool z cond).bv M 1 = 1#1 ↔ p M) := by
  have bit : ∀ n, (mkUInt n 1).HasSort (.bv 1) := fun n => hasSort_mkUInt Nat.one_pos
  have same := (toBVBool_spec z decides.sorted).same
  have whole : HasSort (.app .ite [cond, mkUInt 1 1, mkUInt 0 1]) (.bv 1) :=
    hasSort_ite.2 ⟨decides.sorted, bit 1, bit 0⟩
  refine ⟨same.sorted _ whole, fun M safe => ⟨?_, ?_⟩⟩
  · exact same.safe M ((nonzeroDivisors_triple (by simp)).2 ⟨decides.safe M safe, trivial, trivial⟩)
  · rw [bv, same.eval_eq M, eval_ite, ← decides.truth M safe]
    cases cond.truth M <;> simp [mkUInt, eval, Value.toBV]

theorem boolOp_spec {connective : Expr → Expr → Expr} {op : BvOp} {join : Prop → Prop → Prop}
    (decides : ∀ {c d : Expr} {parts : List Expr} {p q : Model → Prop}, c.Decides parts p →
      d.Decides parts q → (connective c d).Decides parts fun M => join (p M) (q M))
    (bits : ∀ x y : BitVec 1, op.denote x y = 1#1 ↔ join (x = 1#1) (y = 1#1)) (other : op ≠ .urem)
    (left : a.HasSort (.bv w)) (right : b.HasSort (.bv w))
    (known : boolOp z connective a b = some t) :
    t.Folded op a b := by
  unfold boolOp at known
  rw [left.bits_eq] at known
  split at known
  · next oneBit =>
    subst oneBit
    split at known
    · next c d knownA knownB =>
      cases known
      obtain ⟨notConst, decidesA⟩ := getBool_spec left knownA
      obtain ⟨-, decidesB⟩ := getBool_spec right knownB
      have joined := toBVBool_denotes z (decides
        (decidesA.mono (show [a] ⊆ [a, b] by simp)) (decidesB.mono (show [b] ⊆ [a, b] by simp)))
      refine ⟨?_, fun constA => ?_⟩
      · apply stands_bv left right other joined.1 fun M safe => (joined.2 M safe).1
        intro M safe
        apply bit_ext
        rw [(joined.2 M safe).2, bits]
      · rw [notConst] at constA
        cases constA
    · cases known
  · cases known

section

variable {r : Operators} {k : Nat} (good : r.Good k) (left : a.HasSort (.bv w))
  (right : b.HasSort (.bv w))
  (enough : 2 * (a.size + b.size) ≤ k + 1)

omit z in
theorem folded_left
    {op : BvOp} (left : a.HasSort (.bv w)) (right : b.HasSort (.bv w)) (other : op ≠ .urem)
    (value : ∀ M, a.bv M w = op.denote (a.bv M w) (b.bv M w)) : a.Folded op a b :=
  ⟨stands_bv left right other left (fun _ safe => (safe_pair.1 safe).1) fun M _ => value M,
    fun constA _ => constA⟩

omit z in
theorem folded_right
    {op : BvOp} (left : a.HasSort (.bv w)) (right : b.HasSort (.bv w)) (other : op ≠ .urem)
    (value : ∀ M, b.bv M w = op.denote (a.bv M w) (b.bv M w)) : b.Folded op a b :=
  ⟨stands_bv left right other right (fun _ safe => (safe_pair.1 safe).2) fun M _ => value M,
    fun _ constB => constB⟩

include good left right enough

theorem andRound_gives : Gives (andRound z r a b) fun t => t.Folded .and a b := by
  unfold andRound
  split
  · next first =>
    refine ⟨a, rfl, folded_left left right (by decide) fun M => ?_⟩
    rw [BvOp.denote]
    rcases first with rfl | zero | ones
    · exact BitVec.and_self.symm
    · rw [bv_of_isZero left zero, BitVec.zero_and]
    · rw [bv_of_isAllOnes right ones, BitVec.and_allOnes]
  split
  · next second =>
    refine ⟨b, rfl, folded_right left right (by decide) fun M => ?_⟩
    rw [BvOp.denote]
    rcases second with ones | zero
    · rw [bv_of_isAllOnes left ones, BitVec.allOnes_and]
    · rw [bv_of_isZero right zero, BitVec.and_zero]
  dsimp only
  split
  · next t known =>
    refine ⟨t, rfl, ?_⟩
    rw [left.bits_eq] at known
    split at known
    · next narrow =>
      rw [Option.or_eq_some_iff, Option.or_eq_some_iff] at known
      rcases known with foldA | ⟨-, foldB | ⟨-, bits⟩⟩
      · have spec := foldExtract_spec z left right narrow foldA
        exact ⟨spec.1, fun _ constB => spec.2 constB⟩
      · have spec := foldExtract_spec z right left narrow foldB
        exact ⟨spec.1.trans (commutes_and.swap left right), fun constA _ => spec.2 constA⟩
      · exact boolOp_spec z .and (by decide) (by decide) left right bits
    · cases known
  · exact binopCommutative_gives commutes_and good z left right enough

theorem orRound_gives : Gives (orRound z r a b) fun t => t.Folded .or a b := by
  unfold orRound
  split
  · next first =>
    refine ⟨a, rfl, folded_left left right (by decide) fun M => ?_⟩
    rw [BvOp.denote]
    rcases first with rfl | ones | zero
    · exact BitVec.or_self.symm
    · rw [bv_of_isAllOnes left ones, BitVec.allOnes_or]
    · rw [bv_of_isZero right zero, BitVec.or_zero]
  split
  · next second =>
    refine ⟨b, rfl, folded_right left right (by decide) fun M => ?_⟩
    rw [BvOp.denote]
    rcases second with zero | ones
    · rw [bv_of_isZero left zero, BitVec.zero_or]
    · rw [bv_of_isAllOnes right ones, BitVec.or_allOnes]
  split
  · next t known =>
    exact ⟨t, rfl, boolOp_spec z .or (by decide) (by decide) left right known⟩
  · exact binopCommutative_gives commutes_or good z left right enough

omit good right enough in
theorem cmpEq_const (right : b.HasSort (.bv w)) (constA : a.isConst = true)
    (constB : b.isConst = true) : (cmpEq z a b).isConst = true := by
  have answer := (cmpEq_answer z left right).2 (a.cmpEqRank b + 1) (Nat.le_succ _)
  have round : (calls z (a.cmpEqRank b + 1)).cmpEq a b = some (.bool (a = b)) := by
    show cmpEqRound _ z a b = _
    unfold cmpEqRound eqOfConst
    by_cases same : a = b
    · rw [if_pos same, decide_eq_true same]
      rfl
    · rw [if_neg same, if_pos constA, if_pos constB, decide_eq_false same]
      rfl
  rw [round] at answer
  rw [← Option.some.inj answer]
  rfl

omit good right enough in
theorem complement_spec : (complement z a).HasSort (.bv w) ∧
      (∀ M, a.NonzeroDivisors M → (complement z a).NonzeroDivisors M ∧
        (complement z a).bv M w = ~~~(a.bv M w)) ∧
      (a.isConst = true → (complement z a).isConst = true) := by
  unfold complement
  rw [left.bits_eq]
  split
  · next oneBit =>
    subst oneBit
    have zero : (mkUInt 0 1).HasSort (.bv 1) := hasSort_mkUInt Nat.one_pos
    have decides := cmpEq_const_decides z (Computes.refl left) 0
    have bits := toBVBool_denotes z decides
    refine ⟨bits.1, fun M safe => ?_, fun const => ?_⟩
    · obtain ⟨safe', iff⟩ := bits.2 M (safe_single.2 safe)
      refine ⟨safe', bit_ext _ _ ?_⟩
      rw [iff, left.toNat_eq M]
      have each : ∀ x : BitVec 1, x.toNat = 0 % 2 ^ 1 ↔ ~~~x = 1#1 := by decide
      exact each _
    · have spec := toBVBool_spec z decides.sorted
      exact spec.const (cmpEq_const z left zero const rfl) rfl rfl
  · have whole : HasSort (.app .bvnot [a]) (.bv w) := hasSort_bvnot.2 left
    have same : (bitNot z a).Same (.app .bvnot [a]) := simplifyConst_same z rfl whole
    refine ⟨same.sorted _ whole, fun M safe => ⟨?_, ?_⟩, fun const => ?_⟩
    · exact same.safe M (by simpa using safe)
    · rw [bv, same.eval_eq M, ← bv, bv_bvnot M left]
    · exact isConst_simplify z rfl whole (by simpa using const)

theorem xorRound_gives : Gives (xorRound z r a b) fun t => t.Folded .xor a b := by
  unfold xorRound
  split
  · next same =>
    subst same
    rw [left.bits_eq]
    refine ⟨_, rfl, ?_, fun _ _ => rfl⟩
    apply stands_bv left right (by decide) (hasSort_mkUInt left.pos) fun M _ => trivial
    intro M _
    rw [bv_mkUInt, BvOp.denote, BitVec.xor_self]
  split
  · next ones =>
    obtain ⟨sorted, values, const⟩ := complement_spec z right
    refine ⟨_, rfl, ?_, fun _ constB => const constB⟩
    apply stands_bv left right (by decide) sorted
    · exact fun M safe => (values M (safe_pair.1 safe).2).1
    · intro M safe
      rw [(values M (safe_pair.1 safe).2).2, BvOp.denote, bv_of_isAllOnes left ones,
        BitVec.allOnes_xor]
  split
  · next ones =>
    obtain ⟨sorted, values, const⟩ := complement_spec z left
    refine ⟨_, rfl, ?_, fun constA _ => const constA⟩
    apply stands_bv left right (by decide) sorted
    · exact fun M safe => (values M (safe_pair.1 safe).1).1
    · intro M safe
      rw [(values M (safe_pair.1 safe).1).2, BvOp.denote, bv_of_isAllOnes right ones,
        BitVec.xor_allOnes]
  · exact binopCommutative_gives commutes_xor good z left right enough

end

end Expr

end AliveNext.Smt
