import Mathlib

/-!
# Facts about a bit vector: known bits and closed intervals

Three ways to say that a bit vector lies in a set: masks of the bits known to
be zero and known to be one, a closed interval in the unsigned order, and a
closed interval in the signed order.  The lemmas say how the bounds move under
the operators that keep an interval an interval.
-/

namespace AliveNext.Lib

@[ext]
structure KnownBits (w : Nat) where
  zero : BitVec w
  one : BitVec w
  deriving DecidableEq, Repr

namespace KnownBits

variable {w : Nat}

def unknown (w : Nat) : KnownBits w :=
  ⟨0#w, 0#w⟩

def isUnknown (known : KnownBits w) : Bool :=
  known.zero == 0#w && known.one == 0#w

def makeConstant (x : BitVec w) : KnownBits w :=
  ⟨~~~x, x⟩

/-- `x` has a zero wherever one is known, and a one wherever one is known. -/
def Covers (known : KnownBits w) (x : BitVec w) : Prop :=
  x &&& known.zero = 0#w ∧ x &&& known.one = known.one

instance (known : KnownBits w) (x : BitVec w) : Decidable (known.Covers x) :=
  inferInstanceAs (Decidable (_ ∧ _))

theorem covers_iff {known : KnownBits w} {x : BitVec w} : known.Covers x ↔ ∀ i < w,
      (known.zero.getLsbD i = true → x.getLsbD i = false) ∧
        (known.one.getLsbD i = true → x.getLsbD i = true) := by
  constructor
  · intro covered i inside
    have zero := congrArg (fun y => y.getLsbD i) covered.1
    have one := congrArg (fun y => y.getLsbD i) covered.2
    simp only [BitVec.getLsbD_and, BitVec.getLsbD_zero] at zero one
    grind
  · intro bits
    constructor
    · ext i inside
      have bit := bits i inside
      simp only [← BitVec.getLsbD_eq_getElem, BitVec.getLsbD_and, BitVec.getLsbD_zero]
      grind
    · ext i inside
      have bit := bits i inside
      simp only [← BitVec.getLsbD_eq_getElem, BitVec.getLsbD_and]
      grind

def unionWith (first second : KnownBits w) : KnownBits w :=
  ⟨first.zero ||| second.zero, first.one ||| second.one⟩

@[simp]
theorem unknown_covers (x : BitVec w) : (unknown w).Covers x := by
  simp [Covers, unknown]

@[simp]
theorem makeConstant_covers (x : BitVec w) : (makeConstant x).Covers x := by
  constructor
  · ext i inside
    simp [makeConstant]
  · exact BitVec.and_self

theorem Covers.unionWith {first second : KnownBits w} {x : BitVec w} (left : first.Covers x)
    (right : second.Covers x) : (first.unionWith second).Covers x := by
  constructor
  · rw [KnownBits.unionWith, BitVec.and_or_distrib_left, left.1, right.1]
    exact BitVec.or_self
  · rw [KnownBits.unionWith, BitVec.and_or_distrib_left, left.2, right.2]

end KnownBits

/-- A half-open, possibly wrapping range. -/
structure ConstantRange (w : Nat) where
  lower : BitVec w
  upper : BitVec w
  deriving DecidableEq, Repr

namespace ConstantRange

variable {w : Nat}

def valid (range : ConstantRange w) : Bool :=
  range.lower != range.upper || range.lower == BitVec.allOnes w || range.lower == 0#w

def isFullSet (range : ConstantRange w) : Bool :=
  range.lower == range.upper && range.lower == BitVec.allOnes w

def isEmptySet (range : ConstantRange w) : Bool :=
  range.lower == range.upper && range.lower == 0#w

def contains (range : ConstantRange w) (x : BitVec w) : Bool :=
  if range.lower == range.upper then range.isFullSet
  else if range.lower.ule range.upper then
    range.lower.ule x && x.ult range.upper
  else range.lower.ule x || x.ult range.upper

end ConstantRange

/-- `lo ≤ x ≤ hi` in the unsigned order. -/
def BetweenU {w : Nat} (lo hi x : BitVec w) : Prop :=
  lo.toNat ≤ x.toNat ∧ x.toNat ≤ hi.toNat

/-- `lo ≤ x ≤ hi` in the signed order. -/
def BetweenS {w : Nat} (lo hi x : BitVec w) : Prop :=
  lo.toInt ≤ x.toInt ∧ x.toInt ≤ hi.toInt

instance {w : Nat} (lo hi x : BitVec w) : Decidable (BetweenU lo hi x) :=
  inferInstanceAs (Decidable (_ ∧ _))

instance {w : Nat} (lo hi x : BitVec w) : Decidable (BetweenS lo hi x) :=
  inferInstanceAs (Decidable (_ ∧ _))

section

variable {w : Nat} {lo hi lo' hi' x y : BitVec w}

theorem BetweenU.self (x : BitVec w) : BetweenU x x x :=
  ⟨Nat.le_refl _, Nat.le_refl _⟩

theorem BetweenS.self (x : BitVec w) : BetweenS x x x :=
  ⟨Int.le_refl _, Int.le_refl _⟩

theorem msb_eq_false_of_toNat_le (below : x.toNat ≤ y.toNat) (nonneg : y.msb = false) :
    x.msb = false := by
  rw [BitVec.msb_eq_false_iff_two_mul_lt] at nonneg ⊢
  omega

theorem msb_eq_false_of_toInt_le (below : x.toInt ≤ y.toInt) (nonneg : x.msb = false) :
    y.msb = false := by
  have lower := BitVec.toInt_nonneg_of_msb_false nonneg
  cases sign : y.msb with
  | false => rfl
  | true =>
    have negative := BitVec.toInt_neg_iff.mpr (BitVec.msb_eq_true_iff_two_mul_ge.mp sign)
    omega

theorem BetweenU.toS (member : BetweenU lo hi x) (nonneg : hi.msb = false) : BetweenS lo hi x := by
  have middle := msb_eq_false_of_toNat_le member.2 nonneg
  have lowest := msb_eq_false_of_toNat_le member.1 middle
  unfold BetweenS
  rw [BitVec.toInt_eq_toNat_of_msb nonneg, BitVec.toInt_eq_toNat_of_msb middle,
    BitVec.toInt_eq_toNat_of_msb lowest]
  exact ⟨Int.ofNat_le.mpr member.1, Int.ofNat_le.mpr member.2⟩

theorem BetweenS.toU (member : BetweenS lo hi x) (nonneg : lo.msb = false) : BetweenU lo hi x := by
  have middle := msb_eq_false_of_toInt_le member.1 nonneg
  have highest := msb_eq_false_of_toInt_le member.2 middle
  unfold BetweenS at member
  rw [BitVec.toInt_eq_toNat_of_msb nonneg, BitVec.toInt_eq_toNat_of_msb middle,
    BitVec.toInt_eq_toNat_of_msb highest] at member
  exact ⟨Int.ofNat_le.mp member.1, Int.ofNat_le.mp member.2⟩

theorem BetweenU.contains (member : BetweenU lo hi x) (proper : lo ≠ hi + 1#w) :
    (ConstantRange.mk lo (hi + 1#w)).contains x = true := by
  obtain ⟨below, above⟩ := member
  have bound := hi.isLt
  have size := x.isLt
  have different : lo.toNat ≠ (hi.toNat + 1) % 2 ^ w := by
    intro same
    exact proper (BitVec.eq_of_toNat_eq (by simpa [BitVec.toNat_add] using same))
  have successor : (hi + 1#w).toNat = (hi.toNat + 1) % 2 ^ w := by
    simp [BitVec.toNat_add]
  simp only [ConstantRange.contains, beq_eq_false_iff_ne.mpr proper, Bool.false_eq_true, if_false]
  by_cases wraps : hi.toNat + 1 = 2 ^ w
  · have zero : (hi + 1#w).toNat = 0 := by
      rw [successor, wraps, Nat.mod_self]
    rw [if_neg (by rw [BitVec.ule_iff_toNat_le]; omega), Bool.or_eq_true]
    exact Or.inl (BitVec.ule_iff_toNat_le.mpr below)
  · have plain : (hi + 1#w).toNat = hi.toNat + 1 := by
      rw [successor, Nat.mod_eq_of_lt (by omega)]
    rw [if_pos (by rw [BitVec.ule_iff_toNat_le]; omega), Bool.and_eq_true,
      BitVec.ule_iff_toNat_le, BitVec.ult_iff_toNat_lt]
    omega

theorem BetweenS.toU_of_ult (member : BetweenS lo hi x) (proper : lo.toNat < (hi + 1#w).toNat) :
    BetweenU lo hi x := by
  obtain ⟨below, above⟩ := member
  have bounds : lo.toNat < 2 ^ w ∧ hi.toNat < 2 ^ w ∧ x.toNat < 2 ^ w :=
    ⟨lo.isLt, hi.isLt, x.isLt⟩
  have successor : (hi + 1#w).toNat = (hi.toNat + 1) % 2 ^ w := by
    simp [BitVec.toNat_add]
  have small : hi.toNat + 1 < 2 ^ w := by
    rcases Nat.lt_or_ge (hi.toNat + 1) (2 ^ w) with small | large
    · exact small
    · have wraps : hi.toNat + 1 = 2 ^ w := by omega
      rw [successor, wraps, Nat.mod_self] at proper
      exact absurd proper (Nat.not_lt_zero _)
  rw [successor, Nat.mod_eq_of_lt small] at proper
  unfold BetweenU
  simp only [BitVec.toInt_eq_toNat_cond] at below above
  split at below <;> split at below <;> split at above <;> omega

theorem toNat_and_le_left (x y : BitVec w) : (x &&& y).toNat ≤ x.toNat := by
  rw [BitVec.toNat_and]
  exact Nat.and_le_left

theorem toNat_and_le_right (x y : BitVec w) : (x &&& y).toNat ≤ y.toNat := by
  rw [BitVec.toNat_and]
  exact Nat.and_le_right

theorem toNat_le_or_left (x y : BitVec w) : x.toNat ≤ (x ||| y).toNat := by
  rw [BitVec.toNat_or]
  exact Nat.left_le_or

theorem toNat_le_or_right (x y : BitVec w) : y.toNat ≤ (x ||| y).toNat := by
  rw [BitVec.toNat_or]
  exact Nat.right_le_or

def activeBits (x : BitVec w) : Nat :=
  if x = 0#w then 0 else Nat.log2 x.toNat + 1

theorem toNat_lt_two_pow_activeBits (x : BitVec w) : x.toNat < 2 ^ activeBits x := by
  unfold activeBits
  split
  next zero => simp [zero]
  next => exact Nat.lt_log2_self

theorem activeBits_le_iff {k : Nat} : activeBits x ≤ k ↔ x.toNat < 2 ^ k := by
  unfold activeBits
  split
  next zero => simp [zero, Nat.two_pow_pos k]
  next nonzero =>
    have positive : x.toNat ≠ 0 := fun same =>
      nonzero (BitVec.eq_of_toNat_eq (by simpa using same))
    exact Nat.log2_lt positive

theorem activeBits_le (x : BitVec w) : activeBits x ≤ w :=
  activeBits_le_iff.mpr x.isLt

/-- The `count` lowest bits. -/
def lowBitsSet (w count : Nat) : BitVec w :=
  BitVec.ofNat w (2 ^ count - 1)

variable {count v : Nat}

theorem toNat_lowBitsSet (fits : count ≤ w) : (lowBitsSet w count).toNat = 2 ^ count - 1 := by
  have small : 2 ^ count ≤ 2 ^ w := Nat.pow_le_pow_right (by decide) fits
  have positive : 0 < 2 ^ count := Nat.two_pow_pos count
  simp only [lowBitsSet, BitVec.toNat_ofNat]
  exact Nat.mod_eq_of_lt (by omega)

theorem toNat_or_le_lowBitsSet (fits : count ≤ w) (first : x.toNat < 2 ^ count)
    (second : y.toNat < 2 ^ count) : (x ||| y).toNat ≤ (lowBitsSet w count).toNat := by
  have small := Nat.or_lt_two_pow first second
  rw [toNat_lowBitsSet fits, BitVec.toNat_or]
  omega

theorem BetweenU.udiv (dividend : BetweenU lo hi x) (divisor : BetweenU lo' hi' y)
    (positive : lo'.toNat ≠ 0) : BetweenU (lo / hi') (hi / lo') (x / y) := by
  unfold BetweenU
  simp only [BitVec.toNat_udiv]
  constructor
  · exact (Nat.div_le_div_left divisor.2 (by have := divisor.1; omega)).trans
      (Nat.div_le_div_right dividend.1)
  · exact (Nat.div_le_div_right dividend.2).trans (Nat.div_le_div_left divisor.1 (by omega))

theorem BetweenU.ushiftRight {least most amount : Nat}
    (shifted : BetweenU lo hi x) (above : least ≤ amount) (below : amount ≤ most) :
    BetweenU (lo >>> most) (hi >>> least) (x >>> amount) := by
  unfold BetweenU
  simp only [BitVec.toNat_ushiftRight, Nat.shiftRight_eq_div_pow]
  constructor
  · exact (Nat.div_le_div_left (Nat.pow_le_pow_right (by decide) below)
      (Nat.two_pow_pos amount)).trans (Nat.div_le_div_right shifted.1)
  · exact (Nat.div_le_div_right shifted.2).trans
      (Nat.div_le_div_left (Nat.pow_le_pow_right (by decide) above) (Nat.two_pow_pos least))

theorem BetweenU.zeroExtend (member : BetweenU lo hi x) (widens : w ≤ v) :
    BetweenU (lo.setWidth v) (hi.setWidth v) (x.setWidth v) := by
  unfold BetweenU
  simp only [BitVec.toNat_setWidth_of_le widens]
  exact member

theorem BetweenS.signExtend (member : BetweenS lo hi x) (widens : w ≤ v) :
    BetweenS (lo.signExtend v) (hi.signExtend v) (x.signExtend v) := by
  unfold BetweenS
  simp only [BitVec.toInt_signExtend_of_le widens]
  exact member

theorem BetweenU.truncate (member : BetweenU lo hi x) (fits : hi.toNat < 2 ^ v) :
    BetweenU (lo.setWidth v) (hi.setWidth v) (x.setWidth v) := by
  obtain ⟨below, above⟩ := member
  unfold BetweenU
  simp only [BitVec.toNat_setWidth]
  rw [Nat.mod_eq_of_lt fits, Nat.mod_eq_of_lt (by omega), Nat.mod_eq_of_lt (by omega)]
  exact ⟨below, above⟩

end

section

variable {w : Nat}

/-- The bits from `count` on. -/
def clearLowBits (x : BitVec w) (count : Nat) : BitVec w :=
  (x >>> count) <<< count

theorem getLsbD_clearLowBits (x : BitVec w) (count i : Nat) : (clearLowBits x count).getLsbD i =
      (decide (count ≤ i) && x.getLsbD i) := by
  by_cases inside : i < w
  · by_cases low : i < count
    · simp [clearLowBits, low, Nat.not_le.mpr low]
    · have high : count ≤ i := Nat.not_lt.mp low
      simp [clearLowBits, inside, low, high]
  · simp [BitVec.getLsbD_of_ge _ _ (Nat.not_lt.mp inside)]

/-- `ConstantRange::getUnsignedMin`. -/
def ConstantRange.unsignedMin (range : ConstantRange w) : BitVec w :=
  if range.isFullSet || range.upper.ult range.lower && range.upper != 0#w then
    0#w
  else range.lower

/-- `ConstantRange::getUnsignedMax`. -/
def ConstantRange.unsignedMax (range : ConstantRange w) : BitVec w :=
  if range.isFullSet || range.upper.ult range.lower then BitVec.allOnes w
  else range.upper - 1#w

variable {range : ConstantRange w} {x : BitVec w}

theorem ConstantRange.between_of_contains
    (member : range.contains x = true) : BetweenU range.unsignedMin range.unsignedMax x := by
  have size := x.isLt
  have top : (BitVec.allOnes w).toNat = 2 ^ w - 1 := BitVec.toNat_allOnes
  obtain ⟨lower, upper⟩ := range
  by_cases same : lower = upper
  · subst same
    have full : isFullSet ⟨lower, lower⟩ = true := by
      simpa [contains] using member
    simp only [unsignedMin, unsignedMax, full, Bool.true_or, if_true]
    exact ⟨by simp, by omega⟩
  · have notFull : isFullSet ⟨lower, upper⟩ = false := by
      simp [isFullSet, same]
    simp only [contains, beq_eq_false_iff_ne.mpr same, Bool.false_eq_true, if_false] at member
    simp only [unsignedMin, unsignedMax, notFull, Bool.false_or]
    by_cases ordered : lower.toNat ≤ upper.toNat
    · rw [if_pos (BitVec.ule_iff_toNat_le.mpr ordered), Bool.and_eq_true,
        BitVec.ule_iff_toNat_le, BitVec.ult_iff_toNat_lt] at member
      have notWrapped : upper.ult lower = false := by
        simpa [BitVec.ult] using ordered
      have predecessor : (upper - 1#w).toNat = upper.toNat - 1 := by
        have limit := upper.isLt
        have one : (1#w).toNat = 1 := by
          rw [BitVec.toNat_ofNat]
          exact Nat.mod_eq_of_lt (by omega)
        rw [BitVec.toNat_sub_of_le (by rw [BitVec.le_def]; omega), one]
      simp only [notWrapped, Bool.false_and, Bool.false_eq_true, if_false]
      exact ⟨member.1, by omega⟩
    · rw [if_neg (by rw [BitVec.ule_iff_toNat_le]; exact ordered),
        Bool.or_eq_true, BitVec.ule_iff_toNat_le,
        BitVec.ult_iff_toNat_lt] at member
      have wrapped : upper.ult lower = true :=
        BitVec.ult_iff_toNat_lt.mpr (by omega)
      simp only [wrapped, Bool.true_and, if_true]
      refine ⟨?_, by omega⟩
      by_cases zero : upper = 0#w
      · subst zero
        rw [BitVec.toNat_zero] at member
        simp only [bne_self_eq_false, Bool.false_eq_true, if_false]
        omega
      · simp [zero]

/-- The bits that the smallest and the largest member have in common, as
`ConstantRange::toKnownBits` computes them. -/
def commonBits (range : ConstantRange w) : KnownBits w :=
  let different := activeBits (range.unsignedMin ^^^ range.unsignedMax)
  if range.isEmptySet then .unknown w
  else ⟨clearLowBits (~~~range.unsignedMin) different, clearLowBits range.unsignedMin different⟩

theorem getLsbD_eq_of_between {lo hi : BitVec w} (member : BetweenU lo hi x) {i : Nat}
    (high : activeBits (lo ^^^ hi) ≤ i) : x.getLsbD i = lo.getLsbD i := by
  have small : (lo ^^^ hi).toNat < 2 ^ i := activeBits_le_iff.mp high
  have zero : (lo.toNat ^^^ hi.toNat) / 2 ^ i = 0 := by
    rw [BitVec.toNat_xor] at small
    exact Nat.div_eq_of_lt small
  have same : lo.toNat / 2 ^ i = hi.toNat / 2 ^ i := by
    rw [Nat.xor_div_two_pow] at zero
    exact Nat.xor_eq_zero_iff.mp zero
  have below := Nat.div_le_div_right (c := 2 ^ i) member.1
  have above := Nat.div_le_div_right (c := 2 ^ i) member.2
  have equal : x.toNat / 2 ^ i = lo.toNat / 2 ^ i := by omega
  simp only [BitVec.getLsbD, Nat.testBit_eq_decide_div_mod_eq, equal]

theorem commonBits_covers (member : range.contains x = true) : (commonBits range).Covers x := by
  unfold commonBits
  split
  next => exact KnownBits.unknown_covers x
  next =>
    rw [KnownBits.covers_iff]
    intro i inside
    have shared := getLsbD_eq_of_between (ConstantRange.between_of_contains member) (i := i)
    simp only [getLsbD_clearLowBits, BitVec.getLsbD_not, inside, decide_true,
      Bool.true_and, Bool.and_eq_true, decide_eq_true_eq]
    constructor
    · intro known
      rw [shared known.1]
      simpa using known.2
    · intro known
      rw [shared known.1]
      exact known.2

end

end AliveNext.Lib
