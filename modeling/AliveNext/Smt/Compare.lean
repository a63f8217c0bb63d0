import AliveNext.Smt.Compose

/-!
# Order comparisons

A strict comparison with a constant is a non-strict one with the number next to
it, which is still in range.
-/

namespace AliveNext.Smt

namespace Expr

variable (z : Z3)

def ult (a b : Expr) : Expr :=
  match b.isUInt with
  | some n => if n = 0 then .bool false else ule z a (mkUInt (n - 1) a.bits)
  | none => not (ule z b a)

def uge (a b : Expr) : Expr := ule z b a

def ugt (a b : Expr) : Expr :=
  if b.isAllOnes then .bool false
  else
    match b.isUInt with
    | some n => uge z a (add z (mkUInt n a.bits) (mkUInt 1 a.bits))
    | none => not (ule z a b)

def sle (a b : Expr) : Expr :=
  if a = b ∨ isSMax z b then .bool true else binopFold z .sle a b

def slt (a b : Expr) : Expr :=
  if isSMin z b then .bool false
  else
    match b.isInt with
    | some n => sle z a (mkInt (n - 1) a.bits)
    | none => not (sle z b a)

def sge (a b : Expr) : Expr := sle z b a

def sgt (a b : Expr) : Expr := not (sle z a b)

/-- `ule` with a number of 64 bits. -/
def uleUInt (e : Expr) (n : Nat) : Expr := ule z e (mkUInt n e.bits)

def uleExtend (e : Expr) (n : Nat) : Expr :=
  if bitWidth n > e.bits then .bool true else uleUInt z e n

section

variable {a b e : Expr} {w : Nat}

theorem isInt_sorted {n : Int} (sorted : e.HasSort (.bv w)) (known : e.isInt = some n) :
    e = mkInt n w ∧ -2 ^ (w - 1) ≤ n ∧ n < 2 ^ (w - 1) ∧ w ≤ 64 ∧ e.toNat default < 2 ^ 63 := by
  unfold isInt at known
  split at known
  · next bits value =>
    obtain ⟨-, same⟩ := hasSort_num.1 sorted
    cases same
    split at known
    · cases known
    · next small =>
      cases known
      rw [not_or] at small
      refine ⟨?_, BitVec.le_toInt value, BitVec.toInt_lt, by omega, by simpa using small.2⟩
      rw [mkInt, BitVec.ofInt_toInt]
  · cases known

theorem pred_in_range {n : Int} (sorted : b.HasSort (.bv w)) (known : b.isInt = some n)
    (notMin : ¬isSMin z b = true) : -2 ^ (w - 1) ≤ n - 1 ∧ n - 1 < 2 ^ (w - 1) := by
  obtain ⟨rfl, low, high, -⟩ := isInt_sorted sorted known
  rw [isSMin_sorted z sorted] at notMin
  have positive := sorted.pos
  have least : n ≠ -2 ^ (w - 1) := by
    rintro rfl
    apply notMin
    rw [mkInt, BitVec.intMin_eq_neg_two_pow]
  omega

theorem succ_in_range {n : Nat} (sorted : b.HasSort (.bv w)) (known : b.isUInt = some n)
    (notMax : ¬b.isAllOnes = true) : n + 1 < 2 ^ w := by
  obtain ⟨rfl, small, -⟩ := isUInt_sorted sorted known
  rw [isAllOnes_sorted sorted] at notMax
  by_contra greatest
  apply notMax
  have value : n = 2 ^ w - 1 := by omega
  rw [mkUInt, value, BitVec.allOnes]
  congr 1
  apply BitVec.eq_of_toNat_eq
  simp

variable (left : a.HasSort (.bv w)) (right : b.HasSort (.bv w))

include left right

theorem uge_decides : (uge z a b).Decides [a, b] fun M => b.toNat M ≤ a.toNat M :=
  (ule_decides z right left).mono (by simp)

theorem ult_decides : (ult z a b).Decides [a, b] fun M => a.toNat M < b.toNat M := by
  unfold ult
  split
  · next n known =>
    obtain ⟨rfl, small, -⟩ := isUInt_sorted right known
    split
    · next zero =>
      subst zero
      exact .const fun M _ => by simp
    · next nonzero =>
      rw [left.bits_eq]
      have below : (mkUInt (n - 1) w).Denotes w [a, mkUInt n w] fun _ => BitVec.ofNat w (n - 1) :=
        denotes_mkUInt left.pos (n - 1)
      have first : a.Denotes w [a, mkUInt n w] fun M => a.bv M w :=
        (Denotes.refl left).mono (by simp)
      apply (first.ule z below).congr
      intro M _
      rw [BitVec.toNat_ofNat, toNat_mkUInt, Nat.mod_eq_of_lt small,
        Nat.mod_eq_of_lt (by omega), left.toNat_eq M]
      omega
  · exact ((ule_decides z right left).not.mono (by simp)).congr fun M _ => Nat.not_le

theorem ugt_decides : (ugt z a b).Decides [a, b] fun M => b.toNat M < a.toNat M := by
  unfold ugt
  split
  · next ones =>
    refine .const fun M _ => iff_of_false Bool.false_ne_true ?_
    have bound := left.toNat_lt M
    rw [(isAllOnes_sorted right).1 ones, toNat_num, BitVec.toNat_allOnes]
    omega
  next notMax =>
  split
  · next n known =>
    have fits := succ_in_range right known notMax
    obtain ⟨rfl, small, -⟩ := isUInt_sorted right known
    rw [left.bits_eq]
    have positive := left.pos
    have above : (add z (mkUInt n w) (mkUInt 1 w)).Denotes w [a, mkUInt n w]
        fun _ => BitVec.ofNat w n + BitVec.ofNat w 1 :=
      (denotes_mkUInt positive n).add z (denotes_mkUInt positive 1)
    have first : a.Denotes w [a, mkUInt n w] fun M => a.bv M w :=
      (Denotes.refl left).mono (by simp)
    apply (above.ule z first).congr
    intro M _
    rw [BitVec.ofNat_add_ofNat, BitVec.toNat_ofNat, toNat_mkUInt, Nat.mod_eq_of_lt small,
      Nat.mod_eq_of_lt fits, left.toNat_eq M]
    omega
  · exact ((ule_decides z left right).not).congr fun M _ => Nat.not_le

theorem sle_decides : (sle z a b).Decides [a, b] fun M => (a.bv M w).toInt ≤ (b.bv M w).toInt := by
  unfold sle
  split
  · next trivially =>
    refine .const fun M _ => iff_of_true rfl ?_
    rcases trivially with rfl | greatest
    · exact le_refl _
    · rw [(isSMax_sorted z right).1 greatest, bv_num, BitVec.toInt_intMax]
      exact BitVec.toInt_le
  · have whole : HasSort (.app .sle [a, b]) .bool := hasSort_sle.2 ⟨rfl, w, left, right⟩
    have plain : Decides (.app .sle [a, b]) [a, b]
        fun M => (a.bv M w).toInt ≤ (b.bv M w).toInt := by
      apply Decides.plain (by simp) whole
      intro M
      rw [truth_sle M left, BitVec.sle_iff_toInt_le]
    exact plain.of_stands (simplifyConst_same z rfl whole).standsFor

theorem sge_decides : (sge z a b).Decides [a, b] fun M => (b.bv M w).toInt ≤ (a.bv M w).toInt :=
  (sle_decides z right left).mono (by simp)

theorem sgt_decides : (sgt z a b).Decides [a, b] fun M => (b.bv M w).toInt < (a.bv M w).toInt :=
  (sle_decides z left right).not.congr fun _ _ => not_le

theorem slt_decides : (slt z a b).Decides [a, b] fun M => (a.bv M w).toInt < (b.bv M w).toInt := by
  unfold slt
  split
  · next least =>
    refine .const fun M _ => iff_of_false Bool.false_ne_true ?_
    rw [(isSMin_sorted z right).1 least, bv_num, BitVec.toInt_intMin_of_pos left.pos, not_lt]
    exact BitVec.le_toInt _
  next notMin =>
  split
  · next n known =>
    have range := pred_in_range z right known notMin
    obtain ⟨rfl, low, high, -⟩ := isInt_sorted right known
    rw [left.bits_eq]
    have below : (mkInt (n - 1) w).HasSort (.bv w) := hasSort_mkInt left.pos
    have decides := sle_decides z left below
    refine ⟨decides.sorted, fun M safe => ?_, fun M safe => ?_⟩
    · exact decides.safe M (safe_pair.2 ⟨(safe_pair.1 safe).1, trivial⟩)
    · rw [decides.truth M (safe_pair.2 ⟨(safe_pair.1 safe).1, trivial⟩), mkInt, mkInt, bv_num,
        bv_num, BitVec.toInt_ofInt_eq_self left.pos range.1 range.2,
        BitVec.toInt_ofInt_eq_self left.pos low high]
      omega
  · exact ((sle_decides z right left).not.mono (by simp)).congr fun _ _ => not_le

omit right in
theorem uleExtend_decides (n : Nat) : (uleExtend z a n).Decides [a] fun M => a.toNat M ≤ n := by
  unfold uleExtend
  rw [left.bits_eq]
  split
  · next wide =>
    refine .const fun M _ => iff_of_true rfl ?_
    by_contra less
    have bound := left.toNat_lt M
    have width := bitWidth_le (show n < 2 ^ w by omega)
    omega
  · next narrow =>
    have fits : n < 2 ^ w :=
      (lt_two_pow_bitWidth n).trans_le (Nat.pow_le_pow_right Nat.two_pos (by omega))
    have const : (mkUInt n w).HasSort (.bv w) := hasSort_mkUInt left.pos
    have decides := ule_decides z left const
    rw [uleUInt, left.bits_eq]
    refine ⟨decides.sorted, fun M safe => ?_, fun M safe => ?_⟩
    · exact decides.safe M (safe_pair.2 ⟨safe_single.1 safe, trivial⟩)
    · rw [decides.truth M (safe_pair.2 ⟨safe_single.1 safe, trivial⟩), toNat_mkUInt,
        Nat.mod_eq_of_lt fits]

end

section

variable {a b : Expr} {w : Nat} {parts : List Expr} {x y : Model → BitVec w}
  (first : a.Denotes w parts x)
  (second : b.Denotes w parts y)

include first second

theorem Denotes.uge : (uge z a b).Decides parts fun M => (y M).toNat ≤ (x M).toNat :=
  second.ule z first

theorem Denotes.sle : (sle z a b).Decides parts fun M => (x M).toInt ≤ (y M).toInt := by
  have decides := sle_decides z first.sorted second.sorted
  refine ⟨decides.sorted, fun M safe => ?_, fun M safe => ?_⟩
  · exact decides.safe M (safe_pair.2 ⟨first.safe M safe, second.safe M safe⟩)
  · rw [decides.truth M (safe_pair.2 ⟨first.safe M safe, second.safe M safe⟩),
      first.value M safe, second.value M safe]

theorem Denotes.sge : (sge z a b).Decides parts fun M => (y M).toInt ≤ (x M).toInt :=
  second.sle z first

end

/-- Every comparison is the one of the values, in the models in which nothing is
divided by zero. The numbers next to a constant do not wrap, neither at the width
of the term nor in the 64 bits of the host, and the shortcut through leading
zeros and trailing ones is right. -/
theorem comparison_construction
    {a b : Expr} {w : Nat} (left : a.HasSort (.bv w)) (right : b.HasSort (.bv w)) :
    (ule z a b).Decides [a, b] (fun M => a.toNat M ≤ b.toNat M) ∧
    (ult z a b).Decides [a, b] (fun M => a.toNat M < b.toNat M) ∧
    (uge z a b).Decides [a, b] (fun M => a.toNat M ≥ b.toNat M) ∧
    (ugt z a b).Decides [a, b] (fun M => a.toNat M > b.toNat M) ∧
    (sle z a b).Decides [a, b] (fun M => (a.bv M w).toInt ≤ (b.bv M w).toInt) ∧
    (slt z a b).Decides [a, b] (fun M => (a.bv M w).toInt < (b.bv M w).toInt) ∧
    (sge z a b).Decides [a, b] (fun M => (a.bv M w).toInt ≥ (b.bv M w).toInt) ∧
    (sgt z a b).Decides [a, b] (fun M => (a.bv M w).toInt > (b.bv M w).toInt) ∧
    (∀ n, n < 2 ^ 64 → (uleExtend z a n).Decides [a] fun M => a.toNat M ≤ n) ∧
    (∀ n, b.isUInt = some n → ¬b.isAllOnes = true → n + 1 < 2 ^ w) ∧
    (∀ n, b.isInt = some n → ¬isSMin z b = true →
      -2 ^ (w - 1) ≤ n - 1 ∧ (-2 ^ 63 : Int) ≤ n - 1) ∧
    (a.minLeadingZeros + b.minTrailingOnes ≥ w → ∀ M, Safe [a, b] M →
      a.toNat M ≤ b.toNat M) := by
  refine ⟨ule_decides z left right, ult_decides z left right, uge_decides z left right,
    ugt_decides z left right, sle_decides z left right, slt_decides z left right,
    sge_decides z left right, sgt_decides z left right,
    fun n _ => uleExtend_decides z left n, fun n => succ_in_range right, ?_, ?_⟩
  · intro n known notMin
    have range := pred_in_range z right known notMin
    obtain ⟨-, -, -, narrow, -⟩ := isInt_sorted right known
    have host : (2 : Int) ^ (w - 1) ≤ 2 ^ 63 := pow_le_pow_right₀ (by decide) (by omega)
    exact ⟨range.1, by omega⟩
  · intro enough M safe
    rw [safe_pair] at safe
    obtain ⟨le, zeros⟩ := minLeadingZeros_spec left safe.1
    apply le_of_bits zeros
    intro i inside
    exact minTrailingOnes_spec right i (by omega)

theorem comparison_construction_const :
    (ult Z3.reference (.var "x" (.bv 65)) (.num 65 0)).Decides [.var "x" (.bv 65), .num 65 0]
      fun M => toNat (.var "x" (.bv 65)) M < toNat (.num 65 0) M :=
  (@comparison_construction Z3.reference (.var "x" (.bv 65)) (.num 65 0) 65 ⟨rfl, rfl⟩
    ⟨rfl, rfl⟩).2.1

/-- A divisor that is zero makes `ule` take a remainder for less than all ones. -/
theorem ule_of_division_by_zero :
    ¬∀ (a b : Expr) (w : Nat) (M : Model), a.HasSort (.bv w) → b.HasSort (.bv w) →
      ((ule Z3.reference a b).truth M = true ↔ a.toNat M ≤ b.toNat M) := by
  intro claim
  have known : ule Z3.reference (.num 1 1) oneBitRemainder = .bool false := rfl
  have values := claim (.num 1 1) oneBitRemainder 1 divisionByZero ⟨rfl, rfl⟩ ⟨rfl, rfl⟩
  rw [known, truth_bool] at values
  exact absurd (values.2 (by decide)) Bool.false_ne_true

end Expr

end AliveNext.Smt
