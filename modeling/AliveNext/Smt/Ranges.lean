import AliveNext.Lib.Overflow
import AliveNext.Smt.TermFacts

/-!
# Ranges of bit-vectors

When a sum, difference, product or shift of bit-vectors is the exact one, and
when a division loses nothing.
-/

namespace AliveNext.Smt

/-- The integer is in the signed range of `w` bits. -/
def SFits (w : Nat) (i : Int) : Prop := -2 ^ (w - 1) ≤ i ∧ i < 2 ^ (w - 1)

instance SFits.decidable (w : Nat) (i : Int) : Decidable (SFits w i) :=
  inferInstanceAs (Decidable (_ ∧ _))

theorem int_two_pow_half {w : Nat} (positive : 0 < w) : (2 : Int) ^ w = 2 * 2 ^ (w - 1) := by
  exact_mod_cast two_pow_half positive

section

variable {w : Nat} {i : Int} {x y : BitVec w}

theorem sFits_toInt (x : BitVec w) : SFits w x.toInt := ⟨x.le_toInt, BitVec.toInt_lt⟩

section

variable (positive : 0 < w)

include positive

theorem toInt_of_lt_half (small : x.toNat < 2 ^ (w - 1)) : x.toInt = x.toNat := by
  have half := two_pow_half positive
  exact BitVec.toInt_eq_toNat_of_lt (by omega)

theorem fitsS_iff : Lib.FitsS w i ↔ SFits w i := Lib.fitsS_iff_of_pos positive

theorem bmod_of_sFits (fits : SFits w i) : i.bmod (2 ^ w) = i :=
  ((fitsS_iff positive).2 fits).bmod_eq

theorem eq_signExtend_iff {v : Nat} {wide : BitVec v} {narrow : BitVec w} (wider : w ≤ v)
    (exact : wide.toInt = i) (wrapped : narrow.toInt = i.bmod (2 ^ w)) :
    wide = narrow.signExtend v ↔ SFits w i := by
  rw [← BitVec.toInt_inj, BitVec.toInt_signExtend_of_le wider, exact, wrapped, Eq.comm,
    Lib.bmod_eq_self_iff, fitsS_iff positive]

theorem signExtend_add_eq_iff :
    x.signExtend (w + 1) + y.signExtend (w + 1) = (x + y).signExtend (w + 1) ↔
      SFits w (x.toInt + y.toInt) :=
  eq_signExtend_iff positive (Nat.le_succ w) (Lib.toInt_signExtend_add w.lt_succ_self x y)
    (BitVec.toInt_add x y)

theorem signExtend_sub_eq_iff :
    x.signExtend (w + 1) - y.signExtend (w + 1) = (x - y).signExtend (w + 1) ↔
      SFits w (x.toInt - y.toInt) :=
  eq_signExtend_iff positive (Nat.le_succ w) (Lib.toInt_signExtend_sub w.lt_succ_self x y)
    BitVec.toInt_sub

theorem signExtend_mul_eq_iff :
    x.signExtend (w + w) * y.signExtend (w + w) = (x * y).signExtend (w + w) ↔
      SFits w (x.toInt * y.toInt) :=
  eq_signExtend_iff positive (Nat.le_add_left w w) (Lib.toInt_signExtend_mul le_rfl x y)
    (BitVec.toInt_mul x y)

end

theorem shiftLeft_sshiftRight_eq_iff {s : Nat} (inside : s < w) :
    (x <<< s).sshiftRight s = x ↔ SFits w (x.toInt * 2 ^ s) :=
  (Lib.shiftLeft_sshiftRight_eq_iff inside).trans (fitsS_iff (by omega))

end

section

variable {w : Nat} {x y : BitVec w}

theorem ushiftRight_shiftLeft_eq_iff {s : Nat} : (x >>> s) <<< s = x ↔ x.toNat % 2 ^ s = 0 :=
  Lib.ushiftRight_shiftLeft_eq_iff.trans Nat.dvd_iff_mod_eq_zero

theorem sshiftRight_shiftLeft_eq_iff
    {s : Nat} : (x.sshiftRight s) <<< s = x ↔ x.toNat % 2 ^ s = 0 := by
  have same : (x.sshiftRight s) <<< s = (x >>> s) <<< s := by
    apply BitVec.eq_of_getLsbD_eq
    intro i bound
    rw [BitVec.getLsbD_shiftLeft, BitVec.getLsbD_shiftLeft, BitVec.getLsbD_sshiftRight,
      BitVec.getLsbD_ushiftRight]
    by_cases low : i < s
    · simp [low]
    · simp [low, show s + (i - s) < w by omega, show ¬w ≤ i - s by omega]
  rw [same, ushiftRight_shiftLeft_eq_iff]

theorem msb_succ_eq_false_iff {v : BitVec (w + 1)} : v.msb = false ↔ v.toNat < 2 ^ w := by
  rw [BitVec.msb_eq_false_iff_two_mul_lt, Nat.pow_succ]
  omega

theorem msb_setWidth_add :
    (x.setWidth (w + 1) + y.setWidth (w + 1)).msb = false ↔ x.toNat + y.toNat < 2 ^ w := by
  have wide : 2 ^ w ≤ 2 ^ (w + 1) := Nat.pow_le_pow_right Nat.two_pos (Nat.le_succ w)
  have boundX := x.isLt
  have boundY := y.isLt
  have sum : 2 ^ (w + 1) = 2 * 2 ^ w := Nat.pow_succ'
  rw [msb_succ_eq_false_iff, BitVec.toNat_add, BitVec.toNat_setWidth, BitVec.toNat_setWidth,
    Nat.mod_eq_of_lt (show x.toNat < 2 ^ (w + 1) by omega),
    Nat.mod_eq_of_lt (show y.toNat < 2 ^ (w + 1) by omega),
    Nat.mod_eq_of_lt (show x.toNat + y.toNat < 2 ^ (w + 1) by omega)]

theorem msb_setWidth_sub :
    (x.setWidth (w + 1) - y.setWidth (w + 1)).msb = false ↔ y.toNat ≤ x.toNat := by
  have boundX := x.isLt
  have boundY := y.isLt
  have sum : 2 ^ (w + 1) = 2 * 2 ^ w := Nat.pow_succ'
  rw [msb_succ_eq_false_iff, BitVec.toNat_sub, BitVec.toNat_setWidth, BitVec.toNat_setWidth,
    Nat.mod_eq_of_lt (show x.toNat < 2 ^ (w + 1) by omega),
    Nat.mod_eq_of_lt (show y.toNat < 2 ^ (w + 1) by omega)]
  by_cases le : y.toNat ≤ x.toNat
  · rw [show 2 ^ (w + 1) - y.toNat + x.toNat = (x.toNat - y.toNat) + 2 ^ (w + 1) by omega,
      Nat.add_mod_right, Nat.mod_eq_of_lt (by omega)]
    omega
  · rw [Nat.mod_eq_of_lt (by omega)]
    omega

theorem msb_setWidth_add_signExtend : (x.setWidth (w + 1) + y.signExtend (w + 1)).msb = false ↔
      0 ≤ (x.toNat : Int) + y.toInt ∧ (x.toNat : Int) + y.toInt < 2 ^ w := by
  have boundX := x.isLt
  have boundY := y.isLt
  have sum : 2 ^ (w + 1) = 2 * 2 ^ w := Nat.pow_succ'
  have cast : ((2 ^ w : Nat) : Int) = 2 ^ w := by push_cast; rfl
  rw [msb_succ_eq_false_iff, BitVec.toNat_add, BitVec.toNat_setWidth, BitVec.toNat_signExtend,
    BitVec.toNat_setWidth, BitVec.toInt_eq_msb_cond,
    Nat.mod_eq_of_lt (show x.toNat < 2 ^ (w + 1) by omega),
    Nat.mod_eq_of_lt (show y.toNat < 2 ^ (w + 1) by omega), ← cast]
  by_cases negative : y.msb = true
  · rw [if_pos negative, if_pos negative]
    by_cases carries : 2 ^ w ≤ x.toNat + y.toNat
    · rw [show x.toNat + (y.toNat + (2 ^ (w + 1) - 2 ^ w)) =
        (x.toNat + y.toNat - 2 ^ w) + 2 ^ (w + 1) by omega, Nat.add_mod_right,
        Nat.mod_eq_of_lt (by omega)]
      omega
    · rw [Nat.mod_eq_of_lt (by omega)]
      omega
  · rw [if_neg negative, if_neg negative, Nat.mod_eq_of_lt (by omega)]
    omega

theorem extractLsb_high_eq_zero_iff {v : BitVec (w + w)} (positive : 0 < w) :
    v.extractLsb (2 * w - 1) w = BitVec.ofNat (2 * w - 1 - w + 1) 0 ↔ v.toNat < 2 ^ w := by
  have width : 2 * w - 1 - w + 1 = w := by omega
  have high : v.toNat / 2 ^ w < 2 ^ w := by
    apply Nat.div_lt_of_lt_mul
    rw [← Nat.pow_add]
    exact v.isLt
  rw [← BitVec.toNat_inj, BitVec.extractLsb_toNat, width, Nat.shiftRight_eq_div_pow,
    Nat.mod_eq_of_lt high, BitVec.toNat_ofNat, Nat.zero_mod, Nat.div_eq_zero_iff]
  have some_bit := Nat.two_pow_pos w
  omega

end

/-- The signed number of `w` bits next to an integer. -/
def clampS (w : Nat) (i : Int) : Int := max (-2 ^ (w - 1)) (min i (2 ^ (w - 1) - 1))

/-- The unsigned number of `w` bits next to an integer. -/
def clampU (w : Nat) (i : Int) : Int := max 0 (min i (2 ^ w - 1))

section

variable {w : Nat} {i : Int} {x y narrow : BitVec w}

theorem toInt_between_bounds {wide : BitVec (w + 1)} (positive : 0 < w) (exact : wide.toInt = i)
    (wrapped : narrow.toInt = i.bmod (2 ^ w)) :
    (if wide.toInt ≤ ((BitVec.intMin w).signExtend (w + 1)).toInt then BitVec.intMin w
      else if ((BitVec.intMax w).signExtend (w + 1)).toInt ≤ wide.toInt then BitVec.intMax w
      else narrow).toInt = clampS w i := by
  have some_bit : (0 : Int) < 2 ^ (w - 1) := by positivity
  have least := BitVec.toInt_intMin_of_pos positive
  have greatest : (BitVec.intMax w).toInt = 2 ^ (w - 1) - 1 := BitVec.toInt_intMax
  rw [exact, BitVec.toInt_signExtend_of_le (Nat.le_succ w),
    BitVec.toInt_signExtend_of_le (Nat.le_succ w), least, greatest]
  unfold clampS
  split
  · rw [least]
    omega
  split
  · rw [greatest]
    omega
  · rw [wrapped, bmod_of_sFits positive (by unfold SFits; omega)]
    omega

theorem toInt_by_sign {negative : Prop} [Decidable negative] (positive : 0 < w)
    (wrapped : narrow.toInt = i.bmod (2 ^ w)) (sign : negative ↔ i < 0) :
    (if SFits w i then narrow
      else if negative then BitVec.intMin w else BitVec.intMax w).toInt = clampS w i := by
  have some_bit : (0 : Int) < 2 ^ (w - 1) := by positivity
  have least := BitVec.toInt_intMin_of_pos positive
  have greatest : (BitVec.intMax w).toInt = 2 ^ (w - 1) - 1 := BitVec.toInt_intMax
  unfold clampS
  by_cases fits : SFits w i
  · rw [if_pos fits, wrapped, bmod_of_sFits positive fits]
    unfold SFits at fits
    omega
  rw [if_neg fits]
  unfold SFits at fits
  by_cases below : negative
  · rw [if_pos below, least]
    have less := sign.1 below
    omega
  · rw [if_neg below, greatest]
    have less := mt sign.2 below
    omega

theorem toNat_or_allOnes {n : Nat} (wrapped : narrow.toNat = n % 2 ^ w) :
    ((if n < 2 ^ w then narrow else BitVec.allOnes w).toNat : Int) = clampU w n := by
  have some_bit := Nat.two_pow_pos w
  have cast : ((2 ^ w : Nat) : Int) = 2 ^ w := by push_cast; rfl
  unfold clampU
  rw [← cast]
  split
  · next fits =>
    rw [wrapped, Nat.mod_eq_of_lt fits]
    omega
  · rw [BitVec.toNat_allOnes]
    omega

theorem toNat_sub_or_zero : ((if x.toNat ≤ y.toNat then BitVec.ofNat w 0 else x - y).toNat : Int) =
      clampU w (x.toNat - y.toNat) := by
  have boundX := x.isLt
  have boundY := y.isLt
  have cast : ((2 ^ w : Nat) : Int) = 2 ^ w := by push_cast; rfl
  unfold clampU
  rw [← cast]
  split
  · next le =>
    rw [BitVec.toNat_ofNat, Nat.zero_mod]
    omega
  · next less =>
    rw [BitVec.toNat_sub, show 2 ^ w - y.toNat + x.toNat = (x.toNat - y.toNat) + 2 ^ w by omega,
      Nat.add_mod_right, Nat.mod_eq_of_lt (by omega)]
    omega

theorem toInt_setWidth_of_le {v : Nat} {wide : BitVec v}
    (narrower : w ≤ v) : (wide.setWidth w).toInt = wide.toInt.bmod (2 ^ w) := by
  rw [← BitVec.signExtend_eq_setWidth_of_le _ narrower, BitVec.toInt_signExtend,
    Nat.min_eq_left narrower]

end

section

variable {w s : Nat} {x y : BitVec w}

theorem funnel_left (inside : s < w) :
    ((x ++ y) <<< s).extractLsb' w w = x <<< s ||| y >>> (w - s) := by
  apply BitVec.eq_of_getLsbD_eq
  intro i bound
  rw [BitVec.getLsbD_extractLsb', BitVec.getLsbD_shiftLeft, BitVec.getLsbD_append,
    BitVec.getLsbD_or, BitVec.getLsbD_shiftLeft, BitVec.getLsbD_ushiftRight]
  by_cases low : i < s
  · simp [bound, low, show w + i < w + w by omega, show ¬w + i < s by omega,
      show w + i - s < w by omega, show w - s + i = w + i - s by omega]
  · simp [bound, low, show w + i < w + w by omega, show ¬w + i < s by omega,
      show ¬w + i - s < w by omega, show w + i - s - w = i - s by omega,
      BitVec.getLsbD_of_ge y (w - s + i) (by omega)]

theorem funnel_right (inside : s < w) :
    ((x ++ y) >>> s).setWidth w = x <<< (w - s) ||| y >>> s := by
  apply BitVec.eq_of_getLsbD_eq
  intro i bound
  rw [BitVec.getLsbD_setWidth, BitVec.getLsbD_ushiftRight, BitVec.getLsbD_append,
    BitVec.getLsbD_or, BitVec.getLsbD_shiftLeft, BitVec.getLsbD_ushiftRight]
  by_cases low : s + i < w
  · simp [bound, low, show i < w - s by omega]
  · simp [bound, low, show ¬i < w - s by omega, show s + i - w = i - (w - s) by omega,
      BitVec.getLsbD_of_ge y (s + i) (by omega)]

end

end AliveNext.Smt
