import AliveNext.Lib.BitFacts

/-!
# Overflow and exactness in terms of integers

The wrapping operators on bit vectors, read as operations on integers.  An
overflow test says that the integer result does not fit the width; a round
trip through a shift or a division gives the operand back when nothing is lost
on the way.
-/

namespace AliveNext.Lib

variable {w : Nat}

def FitsS (w : Nat) (n : Int) : Prop :=
  -(2 ^ w : Int) ≤ n * 2 ∧ n * 2 < 2 ^ w

instance (w : Nat) (n : Int) : Decidable (FitsS w n) :=
  inferInstanceAs (Decidable (_ ∧ _))

theorem fitsS_toInt (x : BitVec w) : FitsS w x.toInt := by
  have upper := x.two_mul_toInt_lt
  have lower := x.le_two_mul_toInt
  constructor
  · omega
  · omega

theorem FitsS.bmod_eq {n : Int} (fits : FitsS w n) : n.bmod (2 ^ w) = n := by
  refine Int.bmod_eq_of_le_mul_two ?_ ?_
  · exact_mod_cast fits.1
  · exact_mod_cast fits.2

theorem fitsS_bmod (w : Nat) (n : Int) : FitsS w (n.bmod (2 ^ w)) := by
  have same : (BitVec.ofInt w n).toInt = n.bmod (2 ^ w) :=
    BitVec.toInt_ofInt n
  rw [← same]
  exact fitsS_toInt _

theorem bmod_eq_self_iff {n : Int} : n.bmod (2 ^ w) = n ↔ FitsS w n := by
  constructor
  · intro same
    rw [← same]
    exact fitsS_bmod w n
  · exact FitsS.bmod_eq

theorem FitsS.between {lo hi n : Int} (lower : FitsS w lo) (upper : FitsS w hi)
    (below : lo ≤ n) (above : n ≤ hi) : FitsS w n := by
  obtain ⟨lower, -⟩ := lower
  obtain ⟨-, upper⟩ := upper
  constructor <;> omega

section

variable {x y : BitVec w}

private theorem half_pow (w : Nat) (positive : 0 < w) : (2 ^ w : Int) = 2 * 2 ^ (w - 1) := by
  rw [← pow_succ']
  congr 1
  omega

theorem fitsS_iff_of_pos (positive : 0 < w) {n : Int} :
    FitsS w n ↔ -(2 ^ (w - 1) : Int) ≤ n ∧ n < 2 ^ (w - 1) := by
  rw [FitsS, half_pow w positive]
  constructor
  · rintro ⟨lower, upper⟩
    constructor <;> omega
  · rintro ⟨lower, upper⟩
    constructor <;> omega

private theorem overflow_false_iff {n : Int} (zero : w = 0 → n = 0) :
    ((decide (n ≥ 2 ^ (w - 1)) || decide (n < -2 ^ (w - 1))) = false) ↔ FitsS w n := by
  rw [Bool.or_eq_false_iff, decide_eq_false_iff_not, decide_eq_false_iff_not]
  rcases Nat.eq_zero_or_pos w with rfl | positive
  · cases zero rfl
    simp [FitsS]
  · rw [fitsS_iff_of_pos positive]
    constructor
    · rintro ⟨upper, lower⟩
      constructor <;> omega
    · rintro ⟨lower, upper⟩
      constructor <;> omega

theorem saddOverflow_eq_false_iff : x.saddOverflow y = false ↔ FitsS w (x.toInt + y.toInt) := by
  refine overflow_false_iff ?_
  rintro rfl
  simp [BitVec.of_length_zero]

theorem ssubOverflow_eq_false_iff : x.ssubOverflow y = false ↔ FitsS w (x.toInt - y.toInt) := by
  refine overflow_false_iff ?_
  rintro rfl
  simp [BitVec.of_length_zero]

theorem smulOverflow_eq_false_iff : x.smulOverflow y = false ↔ FitsS w (x.toInt * y.toInt) := by
  refine overflow_false_iff ?_
  rintro rfl
  simp [BitVec.of_length_zero]

theorem uaddOverflow_eq_false_iff : x.uaddOverflow y = false ↔ x.toNat + y.toNat < 2 ^ w := by
  simp [BitVec.uaddOverflow]

theorem usubOverflow_eq_false_iff : x.usubOverflow y = false ↔ y.toNat ≤ x.toNat := by
  simp [BitVec.usubOverflow]

theorem umulOverflow_eq_false_iff : x.umulOverflow y = false ↔ x.toNat * y.toNat < 2 ^ w := by
  simp [BitVec.umulOverflow]

end

section

variable {lo hi z : BitVec w}

/-- The multiple of `2 ^ w` that a natural number loses. -/
def lostU (w n : Nat) : Nat :=
  2 ^ w * (n / 2 ^ w)

/-- The multiple of `2 ^ w` that an integer loses in the signed reading. -/
def lostS (w : Nat) (n : Int) : Int :=
  2 ^ w * n.bdiv (2 ^ w)

theorem FitsS.lostS_eq {n : Int} (fits : FitsS w n) : lostS w n = 0 := by
  have split := Int.bmod_add_bdiv n (2 ^ w)
  rw [fits.bmod_eq] at split
  push_cast at split
  unfold lostS
  omega

theorem betweenU_wrapped_iff {least most value : Nat} (lower : lo.toNat = least % 2 ^ w)
    (upper : hi.toNat = most % 2 ^ w) (same : z.toNat = value) (above : least ≤ value) :
    BetweenU lo hi z ↔ value + lostU w most ≤ most := by
  have small : least < 2 ^ w := by
    have size := z.isLt
    omega
  have split := Nat.mod_add_div most (2 ^ w)
  rw [BetweenU, lower, upper, same, Nat.mod_eq_of_lt small, lostU]
  constructor
  · rintro ⟨-, below⟩
    omega
  · intro below
    exact ⟨above, by omega⟩

theorem betweenS_wrapped_iff {least most value : Int} (lower : lo.toInt = least.bmod (2 ^ w))
    (upper : hi.toInt = most.bmod (2 ^ w)) (same : z.toInt = value) :
    BetweenS lo hi z ↔ least ≤ value + lostS w least ∧ value + lostS w most ≤ most := by
  have first := Int.bmod_add_bdiv least (2 ^ w)
  have second := Int.bmod_add_bdiv most (2 ^ w)
  push_cast at first second
  rw [BetweenS, lower, upper, same, lostS, lostS]
  constructor
  · rintro ⟨above, below⟩
    constructor <;> omega
  · rintro ⟨above, below⟩
    constructor <;> omega

end

section

variable {x y : BitVec w} {k : Nat}

theorem toNat_shiftLeft_eq (x : BitVec w) (k : Nat) :
    (x <<< k).toNat = x.toNat * 2 ^ k % 2 ^ w := by
  rw [BitVec.toNat_shiftLeft, Nat.shiftLeft_eq]

theorem toInt_shiftLeft_eq (x : BitVec w) (k : Nat) :
    (x <<< k).toInt = (x.toInt * 2 ^ k).bmod (2 ^ w) := by
  have congruent : ((x.toNat : Int) * 2 ^ k).bmod (2 ^ w) = (x.toInt * 2 ^ k).bmod (2 ^ w) := by
    rw [BitVec.toInt_eq_toNat_bmod, Int.bmod_mul_bmod]
  rw [BitVec.toInt_shiftLeft, ← congruent, Nat.shiftLeft_eq]
  push_cast
  rfl

theorem toInt_sshiftRight_eq (x : BitVec w) (k : Nat) :
    (x.sshiftRight k).toInt = x.toInt / 2 ^ k := by
  rw [BitVec.toInt_sshiftRight, Int.shiftRight_eq_div_pow]
  push_cast
  rfl

theorem BetweenS.sshiftRight {lo hi : BitVec w} (member : BetweenS lo hi x) (k : Nat) :
    BetweenS (lo.sshiftRight k) (hi.sshiftRight k) (x.sshiftRight k) := by
  have positive : (0 : Int) < 2 ^ k := by positivity
  rw [BetweenS, toInt_sshiftRight_eq, toInt_sshiftRight_eq, toInt_sshiftRight_eq]
  exact ⟨Int.ediv_le_ediv positive member.1, Int.ediv_le_ediv positive member.2⟩

theorem shiftLeft_ushiftRight_eq_iff (small : k < w) :
    (x <<< k) >>> k = x ↔ x.toNat * 2 ^ k < 2 ^ w := by
  have positive : 0 < 2 ^ k := Nat.two_pow_pos k
  rw [← BitVec.toNat_inj, BitVec.toNat_ushiftRight, BitVec.toNat_shiftLeft,
    Nat.shiftLeft_eq, Nat.shiftRight_eq_div_pow]
  constructor
  · intro same
    have bound := Nat.mod_lt (x.toNat * 2 ^ k) (Nat.two_pow_pos w)
    have divides : 2 ^ k ∣ x.toNat * 2 ^ k % 2 ^ w := by
      rw [Nat.dvd_mod_iff (Nat.pow_dvd_pow 2 small.le)]
      exact Nat.dvd_mul_left _ _
    rw [← Nat.eq_mul_of_div_eq_left divides same]
    exact bound
  · intro fits
    rw [Nat.mod_eq_of_lt fits, Nat.mul_div_cancel _ positive]

theorem shiftLeft_sshiftRight_eq_iff (small : k < w) :
    (x <<< k).sshiftRight k = x ↔ FitsS w (x.toInt * 2 ^ k) := by
  have positive : (0 : Int) < 2 ^ k := by positivity
  rw [← BitVec.toInt_inj, toInt_sshiftRight_eq, toInt_shiftLeft_eq]
  constructor
  · intro same
    have divides : (2 ^ k : Int) ∣ (x.toInt * 2 ^ k).bmod (2 ^ w) := by
      have multiple : (2 ^ k : Int) ∣ ((2 ^ w : Nat) : Int) := by
        push_cast
        exact pow_dvd_pow 2 small.le
      rw [Int.bmod_eq_self_sub_mul_bdiv]
      exact Int.dvd_sub (Dvd.intro_left _ rfl) (multiple.mul_right _)
    rw [← bmod_eq_self_iff]
    calc (x.toInt * 2 ^ k).bmod (2 ^ w) = (x.toInt * 2 ^ k).bmod (2 ^ w) / 2 ^ k * 2 ^ k :=
          (Int.ediv_mul_cancel divides).symm
      _ = x.toInt * 2 ^ k := by rw [same]
  · intro fits
    rw [fits.bmod_eq, Int.mul_ediv_cancel _ positive.ne']

theorem ushiftRight_shiftLeft_eq_iff : (x >>> k) <<< k = x ↔ 2 ^ k ∣ x.toNat := by
  have below : x.toNat / 2 ^ k * 2 ^ k < 2 ^ w :=
    (Nat.div_mul_le_self _ _).trans_lt x.isLt
  rw [← BitVec.toNat_inj, BitVec.toNat_shiftLeft, BitVec.toNat_ushiftRight,
    Nat.shiftLeft_eq, Nat.shiftRight_eq_div_pow, Nat.mod_eq_of_lt below]
  exact ⟨fun same => Dvd.intro_left _ same, Nat.div_mul_cancel⟩

theorem fitsS_ediv_mul (small : k < w) {n : Int} (fits : FitsS w n) :
    FitsS w (n / 2 ^ k * 2 ^ k) := by
  have positive : (0 : Int) < 2 ^ k := by positivity
  have below : n / 2 ^ k * 2 ^ k ≤ n := Int.ediv_mul_le n positive.ne'
  refine ⟨?_, by linarith [fits.2]⟩
  obtain ⟨rest, rfl⟩ : ∃ rest, w = k + rest + 1 :=
    ⟨w - k - 1, by omega⟩
  have scaled : (2 ^ (k + rest + 1) : Int) = 2 ^ rest * 2 ^ k * 2 := by ring
  have least : -(2 ^ rest * 2 ^ k : Int) ≤ n := by
    have lower := fits.1
    rw [scaled] at lower
    linarith
  have quotient : -(2 ^ rest : Int) ≤ n / 2 ^ k := by
    rw [Int.le_ediv_iff_mul_le positive]
    linarith
  rw [scaled]
  nlinarith [mul_le_mul_of_nonneg_right quotient positive.le]

theorem sshiftRight_shiftLeft_eq_iff (small : k < w) :
    (x.sshiftRight k) <<< k = x ↔ (2 ^ k : Int) ∣ x.toInt := by
  rw [← BitVec.toInt_inj, toInt_shiftLeft_eq, toInt_sshiftRight_eq,
    (fitsS_ediv_mul small (fitsS_toInt x)).bmod_eq]
  exact ⟨fun same => Dvd.intro_left _ same, Int.ediv_mul_cancel⟩

theorem udiv_mul_eq_iff : x / y * y = x ↔ y.toNat ∣ x.toNat := by
  have below : x.toNat / y.toNat * y.toNat < 2 ^ w :=
    (Nat.div_mul_le_self _ _).trans_lt x.isLt
  rw [← BitVec.toNat_inj, BitVec.toNat_mul, BitVec.toNat_udiv, Nat.mod_eq_of_lt below]
  exact ⟨fun same => Dvd.intro_left _ same, Nat.div_mul_cancel⟩

theorem umod_eq_zero_iff : x % y = 0#w ↔ y.toNat ∣ x.toNat := by
  rw [← BitVec.toNat_inj, BitVec.toNat_umod, BitVec.toNat_zero]
  exact (Nat.dvd_iff_mod_eq_zero).symm

theorem srem_eq_zero_iff : x.srem y = 0#w ↔ y.toInt ∣ x.toInt := by
  rw [← BitVec.toInt_inj, BitVec.toInt_srem, BitVec.toInt_zero]
  exact (Int.dvd_iff_tmod_eq_zero).symm

theorem fitsS_tdiv_mul {n m : Int} (fits : FitsS w n) : FitsS w (n.tdiv m * m) := by
  have split := Int.tdiv_mul_add_tmod n m
  have size : (n.tmod m).natAbs ≤ n.natAbs := by
    rw [Int.natAbs_tmod]
    exact Nat.mod_le _ _
  obtain ⟨lower, upper⟩ := fits
  rcases Int.le_total 0 n with nonneg | nonpos
  · have sign := Int.tmod_nonneg m nonneg
    constructor <;> omega
  · have sign : n.tmod m ≤ 0 := by
      have flipped := Int.tmod_nonneg m (Int.neg_nonneg_of_nonpos nonpos)
      rw [Int.neg_tmod] at flipped
      omega
    constructor <;> omega

theorem sdiv_mul_eq_iff : x.sdiv y * y = x ↔ y.toInt ∣ x.toInt := by
  rw [← BitVec.toInt_inj, BitVec.toInt_mul, BitVec.toInt_sdiv,
    Int.bmod_mul_bmod, (fitsS_tdiv_mul (fitsS_toInt x)).bmod_eq]
  exact ⟨fun same => Dvd.intro_left _ same, Int.tdiv_mul_cancel⟩

theorem and_eq_zero_iff : x &&& y = 0#w ↔ ¬∃ i, x.getLsbD i = true ∧ y.getLsbD i = true := by
  constructor
  · rintro none ⟨i, first, second⟩
    have bit := congrArg (fun z => z.getLsbD i) none
    simp [first, second] at bit
  · intro none
    ext i inside
    rw [BitVec.getElem_and, BitVec.getElem_zero, Bool.and_eq_false_iff]
    by_contra both
    rw [not_or, Bool.not_eq_false, Bool.not_eq_false] at both
    refine none ⟨i, ?_, ?_⟩
    · rw [BitVec.getLsbD_eq_getElem inside]
      exact both.1
    · rw [BitVec.getLsbD_eq_getElem inside]
      exact both.2

end

section

variable {v : Nat}

theorem FitsS.mono {n : Int} (fits : FitsS w n) (room : w ≤ v) : FitsS v n := by
  have larger : (2 ^ w : Int) ≤ 2 ^ v := pow_le_pow_right₀ (by decide) room
  obtain ⟨lower, upper⟩ := fits
  constructor <;> omega

theorem toInt_signExtend_add (room : w < v) (x y : BitVec w) :
    (x.signExtend v + y.signExtend v).toInt = x.toInt + y.toInt := by
  have fits : FitsS (w + 1) (x.toInt + y.toInt) := by
    obtain ⟨lower, upper⟩ := fitsS_toInt x
    obtain ⟨lower', upper'⟩ := fitsS_toInt y
    constructor <;> rw [pow_succ] <;> omega
  rw [BitVec.toInt_add, BitVec.toInt_signExtend_of_le room.le,
    BitVec.toInt_signExtend_of_le room.le, (fits.mono room).bmod_eq]

theorem toInt_signExtend_sub (room : w < v) (x y : BitVec w) :
    (x.signExtend v - y.signExtend v).toInt = x.toInt - y.toInt := by
  have fits : FitsS (w + 1) (x.toInt - y.toInt) := by
    obtain ⟨lower, upper⟩ := fitsS_toInt x
    obtain ⟨lower', upper'⟩ := fitsS_toInt y
    constructor <;> rw [pow_succ] <;> omega
  rw [BitVec.toInt_sub, BitVec.toInt_signExtend_of_le room.le,
    BitVec.toInt_signExtend_of_le room.le, (fits.mono room).bmod_eq]

theorem toInt_signExtend_mul (room : w + w ≤ v) (x y : BitVec w) :
    (x.signExtend v * y.signExtend v).toInt = x.toInt * y.toInt := by
  have fits : FitsS (w + w) (x.toInt * y.toInt) := by
    obtain ⟨lower, upper⟩ := fitsS_toInt x
    obtain ⟨lower', upper'⟩ := fitsS_toInt y
    have positive : (0 : Int) < 2 ^ w := by positivity
    rw [FitsS, pow_add]
    constructor
    · nlinarith
    · nlinarith
  have widens : w ≤ v := by omega
  rw [BitVec.toInt_mul, BitVec.toInt_signExtend_of_le widens,
    BitVec.toInt_signExtend_of_le widens, (fits.mono room).bmod_eq]

theorem toNat_setWidth_add (room : w < v) (x y : BitVec w) :
    (x.setWidth v + y.setWidth v).toNat = x.toNat + y.toNat := by
  have larger : 2 ^ (w + 1) ≤ 2 ^ v := Nat.pow_le_pow_right (by decide) room
  have first := x.isLt
  have second := y.isLt
  rw [Nat.pow_succ] at larger
  rw [BitVec.toNat_add, BitVec.toNat_setWidth_of_le room.le, BitVec.toNat_setWidth_of_le room.le]
  exact Nat.mod_eq_of_lt (by omega)

theorem toNat_setWidth_sub (room : w ≤ v) {x y : BitVec w} (below : y.toNat ≤ x.toNat) :
    (x.setWidth v - y.setWidth v).toNat = x.toNat - y.toNat := by
  have ordered : y.setWidth v ≤ x.setWidth v := by
    rw [BitVec.le_def, BitVec.toNat_setWidth_of_le room, BitVec.toNat_setWidth_of_le room]
    exact below
  rw [BitVec.toNat_sub_of_le ordered, BitVec.toNat_setWidth_of_le room,
    BitVec.toNat_setWidth_of_le room]

theorem toNat_mul_lt (x y : BitVec w) : x.toNat * y.toNat < 2 ^ (w + w) := by
  rw [Nat.pow_add]
  exact Nat.mul_lt_mul'' x.isLt y.isLt

theorem toNat_setWidth_mul (room : w + w ≤ v) (x y : BitVec w) :
    (x.setWidth v * y.setWidth v).toNat = x.toNat * y.toNat := by
  have larger : 2 ^ (w + w) ≤ 2 ^ v := Nat.pow_le_pow_right (by decide) room
  have widens : w ≤ v := by omega
  rw [BitVec.toNat_mul, BitVec.toNat_setWidth_of_le widens, BitVec.toNat_setWidth_of_le widens]
  exact Nat.mod_eq_of_lt ((toNat_mul_lt x y).trans_le larger)

theorem toInt_one (wide : 1 < v) : (1#v).toInt = 1 := by
  have large : 2 ^ 2 ≤ 2 ^ v := Nat.pow_le_pow_right (by decide) wide
  have one : (1#v).toNat = 1 := by
    rw [BitVec.toNat_ofNat]
    exact Nat.mod_eq_of_lt (by omega)
  rw [BitVec.toInt_eq_toNat_of_lt (by omega), one]
  rfl

theorem toInt_twoPow {k : Nat} (room : k + 1 < v) : (BitVec.twoPow v k).toInt = 2 ^ k := by
  have larger : 2 ^ (k + 1) < 2 ^ v := Nat.pow_lt_pow_right (by decide) room
  have value := BitVec.toNat_twoPow_of_lt (show k < v by omega)
  rw [BitVec.toInt_eq_toNat_of_lt (by rw [value]; omega), value]
  push_cast
  rfl

theorem toInt_twoPow_sub_one {k : Nat} (room : k + 1 < v) :
    (BitVec.twoPow v k - 1#v).toInt = 2 ^ k - 1 := by
  have larger : (2 ^ (k + 1) : Int) ≤ 2 ^ v :=
    pow_le_pow_right₀ (by decide) room.le
  have positive : (0 : Int) < 2 ^ k := by positivity
  have fits : FitsS v (2 ^ k - 1 : Int) := by
    rw [pow_succ] at larger
    constructor <;> omega
  rw [BitVec.toInt_sub, toInt_twoPow room, toInt_one (by omega), fits.bmod_eq]

theorem toInt_neg_sub_one (wide : 1 < v) (x : BitVec v) : (-x - 1#v).toInt = -x.toInt - 1 := by
  have fits : FitsS v (-x.toInt - 1) := by
    obtain ⟨lower, upper⟩ := fitsS_toInt x
    have even := half_pow v (by omega)
    constructor <;> omega
  rw [BitVec.toInt_sub, BitVec.toInt_neg, toInt_one wide, Int.bmod_sub_bmod, fits.bmod_eq]

end

section

variable {α β γ : Type} [LinearOrder α] [LinearOrder β] [LinearOrder γ]

theorem between_ends {f : α → γ} (moves : Monotone f ∨ Antitone f) {lo hi x : α} (above : lo ≤ x)
    (below : x ≤ hi) : min (f lo) (f hi) ≤ f x ∧ f x ≤ max (f lo) (f hi) := by
  rcases moves with up | down
  · exact ⟨(min_le_left _ _).trans (up above), (up below).trans (le_max_right _ _)⟩
  · exact ⟨(min_le_right _ _).trans (down below), (down above).trans (le_max_left _ _)⟩

theorem between_corners {f : α → β → γ} (first : ∀ y, Monotone (f · y) ∨ Antitone (f · y))
    (second : ∀ x, Monotone (f x) ∨ Antitone (f x)) {a b x : α} {c d y : β} (left : a ≤ x)
    (right : x ≤ b) (bottom : c ≤ y) (top : y ≤ d) :
    min (min (f a c) (f a d)) (min (f b c) (f b d)) ≤ f x y ∧
      f x y ≤ max (max (f a c) (f a d)) (max (f b c) (f b d)) := by
  obtain ⟨lower, upper⟩ := between_ends (first y) left right
  obtain ⟨lower₁, upper₁⟩ := between_ends (second a) bottom top
  obtain ⟨lower₂, upper₂⟩ := between_ends (second b) bottom top
  exact ⟨(min_le_min lower₁ lower₂).trans lower, upper.trans (max_le_max upper₁ upper₂)⟩

end

end AliveNext.Lib
