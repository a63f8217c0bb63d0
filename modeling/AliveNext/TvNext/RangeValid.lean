import AliveNext.TvNext.Proposer
import AliveNext.TvNext.RangeSound

/-!
# Intervals that become ranges

`deriveBitsFromIntervals` adds one to the upper end of a closed interval and
constructs a `ConstantRange`, which must not have equal bounds other than zero
or all ones.  The unsigned interval is always admissible.  The signed interval
of all numbers is not, from two bits on, and it is what every argument starts
with.  The result says exactly on which recorded intervals an instruction
meets it.
-/

namespace AliveNext.TvNext

open AliveNext.Lib
open AliveNext.LLVM

section

variable {w : Nat} {llvm : BitOperators} {r : KnownRange w} {failure : AssertionFailure}

def IsFull (bounds : Option (BitVec w × BitVec w)) : Prop :=
  1 < w ∧ bounds = some (BitVec.intMin w, BitVec.intMax w)

theorem not_isFull_none : ¬IsFull (none : Option (BitVec w × BitVec w)) := by
  rintro ⟨-, same⟩
  cases same

variable {lo hi : BitVec w}

theorem isFull_some : IsFull (some (lo, hi)) ↔
    1 < w ∧ lo = BitVec.intMin w ∧ hi = BitVec.intMax w := by
  rw [IsFull, Option.some.injEq, Prod.mk.injEq]

theorem not_isFull_zero : ¬IsFull (some (0#w, hi)) := by
  rintro ⟨wide, same⟩
  have lower := (Prod.mk.inj (Option.some.inj same)).1
  have zero := BitVec.intMin_eq_zero_iff.mp lower.symm
  omega

theorem not_valid_iff {range : ConstantRange w} : range.valid = false ↔ range.lower = range.upper ∧
      range.lower ≠ BitVec.allOnes w ∧ range.lower ≠ 0#w := by
  simp [ConstantRange.valid, and_assoc]

theorem unsigned_valid (below : lo.ule hi = true) :
    (⟨lo, hi + 1#w⟩ : ConstantRange w).valid = true := by
  by_contra invalid
  obtain ⟨same, -, nonzero⟩ := not_valid_iff.mp (Bool.eq_false_iff.mpr invalid)
  dsimp only at same nonzero
  have before : hi = lo - 1#w := by rw [same, BitVec.add_sub_cancel]
  have positive : 0 < lo.toNat := by
    rw [Nat.pos_iff_ne_zero]
    exact fun zero => nonzero (BitVec.eq_of_toNat_eq zero)
  have some_bit : 0 < w := by
    by_contra none_
    obtain rfl : w = 0 := by omega
    exact nonzero (BitVec.of_length_zero)
  have one : (1#w).toNat = 1 := BitVec.toNat_one some_bit
  have less : (lo - 1#w).toNat = lo.toNat - 1 := by
    rw [BitVec.toNat_sub_of_le (by rw [BitVec.le_def, one]; exact positive), one]
  rw [before, BitVec.ule_eq_decide, decide_eq_true_iff, less] at below
  omega

theorem intMax_msb (w : Nat) : (BitVec.intMax w).msb = false := by
  have some_bit : (0 : Int) < 2 ^ (w - 1) := by positivity
  rw [BitVec.msb_eq_toInt, BitVec.toInt_intMax, decide_eq_false_iff_not]
  omega

theorem intMin_ne_allOnes (wide : 1 < w) : BitVec.intMin w ≠ BitVec.allOnes w := by
  intro same
  have values := congrArg BitVec.toNat same
  have half : 2 ^ w = 2 * 2 ^ (w - 1) := by
    rw [← Nat.pow_succ', Nat.succ_eq_add_one, Nat.sub_add_cancel (by omega)]
  have large : 2 ^ 1 ≤ 2 ^ (w - 1) := Nat.pow_le_pow_right (by decide) (by omega)
  rw [BitVec.toNat_intMin_of_pos (by omega), BitVec.toNat_allOnes] at values
  omega

theorem eq_intMax_of_sle (some_bit : 0 < w)
    (wraps : (hi + 1#w).sle hi = true) : hi = BitVec.intMax w := by
  have sum : hi + 1#w = BitVec.ofInt w (hi.toInt + 1) := by
    rw [BitVec.ofInt_add, BitVec.ofInt_toInt]
    rfl
  have upper : hi.toInt ≤ 2 ^ (w - 1) - 1 := by
    have less := BitVec.toInt_lt (x := hi)
    omega
  have lower := BitVec.le_toInt hi
  apply BitVec.eq_of_toInt_eq
  rw [BitVec.toInt_intMax]
  by_contra smaller
  have exact : (BitVec.ofInt w (hi.toInt + 1)).toInt = hi.toInt + 1 :=
    BitVec.toInt_ofInt_eq_self some_bit (by omega) (by omega)
  rw [BitVec.sle_eq_decide, decide_eq_true_iff, sum, exact] at wraps
  omega

theorem signed_not_valid_iff (below : lo.sle hi = true) :
    (⟨lo, hi + 1#w⟩ : ConstantRange w).valid = false ↔ IsFull (some (lo, hi)) := by
  rw [not_valid_iff]
  dsimp only
  constructor
  · rintro ⟨rfl, notOnes, nonzero⟩
    have some_bit : 0 < w := by
      by_contra none_
      obtain rfl : w = 0 := by omega
      exact nonzero BitVec.of_length_zero
    obtain rfl := eq_intMax_of_sle some_bit below
    rw [BitVec.intMax_add_one] at notOnes ⊢
    refine ⟨?_, rfl⟩
    by_contra narrow
    obtain rfl : w = 1 := by omega
    exact notOnes rfl
  · rintro ⟨wide, same⟩
    obtain ⟨rfl, rfl⟩ := Prod.mk.inj (Option.some.inj same)
    refine ⟨BitVec.intMax_add_one.symm, intMin_ne_allOnes wide, ?_⟩
    rw [Ne, BitVec.intMin_eq_zero_iff]
    omega

variable (llvm) in
theorem addUnsigned_ok (u : Option (BitVec w × BitVec w)) (acc : KnownBits w) :
    ∃ acc', addUnsigned llvm u acc = .ok acc' := by
  unfold addUnsigned
  split
  next lo hi =>
    split
    next below =>
      rw [addRange, if_pos (unsigned_valid below)]
      exact ⟨_, rfl⟩
    next => exact ⟨_, rfl⟩
  next => exact ⟨_, rfl⟩

variable (llvm) in
theorem addSigned_error_iff (s : Option (BitVec w × BitVec w)) (acc : KnownBits w) :
    addSigned llvm s acc = .error failure ↔ failure = .constantRange ∧ IsFull s := by
  unfold addSigned
  split
  next lo hi =>
    split
    next ordered =>
      rw [Bool.and_eq_true] at ordered
      rw [← signed_not_valid_iff ordered.1, addRange]
      cases (⟨lo, hi + 1#w⟩ : ConstantRange w).valid with
      | true => simp
      | false => simp [eq_comm]
    next disordered =>
      refine iff_of_false (by simp) ?_
      rintro ⟨-, wide, same⟩
      obtain ⟨rfl, rfl⟩ := Prod.mk.inj (Option.some.inj same)
      apply disordered
      have some_bit : (0 : Int) < 2 ^ (w - 1) := by positivity
      rw [BitVec.intMax_add_one, BitVec.sle_eq_decide, BitVec.toInt_intMax,
        BitVec.toInt_intMin_of_pos (by omega), BitVec.ule_eq_decide,
        decide_eq_true (le_refl _), Bool.and_true, decide_eq_true_iff]
      omega
  next =>
    refine iff_of_false (by simp) ?_
    rintro ⟨-, -, same⟩
    cases same

theorem deriveBits_error_iff : deriveBitsFromIntervals llvm r = .error failure ↔
      failure = .constantRange ∧ IsFull r.s := by
  unfold deriveBitsFromIntervals
  split
  next empty =>
    refine iff_of_false (by simp) ?_
    rintro ⟨-, wide, -⟩
    omega
  next =>
    obtain ⟨acc, added⟩ := addUnsigned_ok llvm r.u (r.bits.getD (.unknown w))
    rw [added, ← addSigned_error_iff llvm r.s acc]
    cases signed : addSigned llvm r.s acc with
    | ok acc' => simp [bind, Except.bind, signed]
    | error other => simp [bind, Except.bind, signed]

theorem crossDerive_full_iff : IsFull (crossDerive r).s ↔ IsFull r.s ∨ r.s = none ∧ IsFull r.u := by
  obtain ⟨u, s, bits, undefFree, poisonFree⟩ := r
  cases s with
  | some bounds =>
    have kept : (crossDerive ⟨u, some bounds, bits, undefFree, poisonFree⟩).s = some bounds := by
      cases u with
      | none => cases sign : bounds.1.msb <;> simp [crossDerive, sign]
      | some other => rfl
    simp [kept]
  | none =>
    cases u with
    | none => simp [crossDerive, IsFull]
    | some bounds =>
      cases sign : bounds.2.msb with
      | false => simp [crossDerive, sign, IsFull]
      | true =>
        have negative : ¬IsFull (some bounds) := by
          rintro ⟨wide, same⟩
          obtain rfl := Option.some.inj same
          exact Bool.false_ne_true ((intMax_msb w).symm.trans sign)
        simp [crossDerive, sign, negative, not_isFull_none]

variable (llvm r) in
theorem derived_error_iff : (deriveBitsFromIntervals llvm r).map some = .error .constantRange ↔
      IsFull r.s := by
  have reached : deriveBitsFromIntervals llvm r = .error .constantRange ↔
      AssertionFailure.constantRange = .constantRange ∧ IsFull r.s :=
    deriveBits_error_iff
  cases derived : deriveBitsFromIntervals llvm r with
  | ok range => simpa [derived, Except.map] using reached
  | error other => simpa [derived, Except.map] using reached

variable (llvm r) in
theorem conclude_error_iff : conclude llvm r = .error .constantRange ↔
      IsFull r.s ∨ r.s = none ∧ IsFull r.u := by
  rw [conclude, derived_error_iff, crossDerive_full_iff]

theorem unless_error_iff {skip : Prop} [Decidable skip] (empty : skip → r.u = none ∧ r.s = none) :
    (if skip then .ok none else conclude llvm r) = .error .constantRange ↔
      IsFull r.s ∨ r.s = none ∧ IsFull r.u := by
  split
  next skipped =>
    obtain ⟨noU, noS⟩ := empty skipped
    simp [noU, noS, not_isFull_none]
  next => exact conclude_error_iff llvm r

theorem KnownRange.isEmpty_intervals (empty : r.isEmpty = true) : r.u = none ∧ r.s = none := by
  simp only [KnownRange.isEmpty, Bool.and_eq_true, Option.isNone_iff_eq_none] at empty
  exact empty.1.1

end

section

variable {v w : Nat}

def BothKnown (flag : Bool) (first second : Option (BitVec w × BitVec w)) : Prop :=
  flag = true ∧ first.isSome ∧ second.isSome

/-- Both intervals are there, and their ends combine to the interval of all
signed numbers. -/
def CombinesToFull (flag : Bool)
    (ends : BitVec w × BitVec w → BitVec w × BitVec w → BitVec w × BitVec w)
    (first second : Option (BitVec w × BitVec w)) : Prop :=
  flag = true ∧ ∃ bounds bounds', first = some bounds ∧
    second = some bounds' ∧ IsFull (some (ends bounds bounds'))

def SpansSigned (first second : Option (BitVec w × BitVec w)) : Prop :=
  1 < w ∧ ∃ lo hi lo' hi', first = some (lo, hi) ∧ second = some (lo', hi') ∧
    (lo = BitVec.intMin w ∨ lo' = BitVec.intMin w) ∧
    (hi = BitVec.intMax w ∨ hi' = BitVec.intMax w)

def sums (bounds bounds' : BitVec w × BitVec w) : BitVec w × BitVec w :=
  (bounds.1 + bounds'.1, bounds.2 + bounds'.2)

def products (bounds bounds' : BitVec w × BitVec w) : BitVec w × BitVec w :=
  (bounds.1 * bounds'.1, bounds.2 * bounds'.2)

def nonNegative (bounds : Option (BitVec w × BitVec w)) : Bool :=
  bounds.any fun bounds => !bounds.1.msb

/-- The signed intervals combine to all numbers, or there are none to combine
and the unsigned ones do. -/
def WrapsToFull (nuw nsw : Bool)
    (ends : BitVec w × BitVec w → BitVec w × BitVec w → BitVec w × BitVec w)
    (l r : OperandFacts w) : Prop :=
  CombinesToFull nsw ends l.s r.s ∨ ¬BothKnown nsw l.s r.s ∧ CombinesToFull nuw ends l.u r.u

variable {flag : Bool} {first second : Option (BitVec w × BitVec w)}
  {ends : BitVec w × BitVec w → BitVec w × BitVec w → BitVec w × BitVec w}

theorem bothKnown {bounds bounds' : BitVec w × BitVec w} (known : first = some bounds)
    (known' : second = some bounds') : BothKnown true first second :=
  ⟨rfl, by rw [known]; rfl, by rw [known']; rfl⟩

theorem combined_iff {written : Option (BitVec w × BitVec w)}
    (both : ∀ bounds bounds', flag = true → first = some bounds →
      second = some bounds' → written = some (ends bounds bounds'))
    (missing : ¬BothKnown flag first second → written = none) :
    (IsFull written ↔ CombinesToFull flag ends first second) ∧
      (written = none ↔ ¬BothKnown flag first second) := by
  by_cases known : BothKnown flag first second
  · obtain ⟨set, known, known'⟩ := known
    obtain ⟨bounds, rfl⟩ := Option.isSome_iff_exists.mp known
    obtain ⟨bounds', rfl⟩ := Option.isSome_iff_exists.mp known'
    rw [both bounds bounds' set rfl rfl]
    simp [CombinesToFull, BothKnown, set]
  · refine ⟨?_, iff_of_true (missing known) known⟩
    rw [missing known]
    refine iff_of_false not_isFull_none ?_
    rintro ⟨set, bounds, bounds', rfl, rfl, -⟩
    exact known ⟨set, rfl, rfl⟩

theorem eq_intMin_iff (wide : 1 < w) {x : BitVec w} :
    x = BitVec.intMin w ↔ x.toInt = -2 ^ (w - 1) := by
  rw [← BitVec.toInt_inj, BitVec.toInt_intMin_of_pos (by omega)]

theorem eq_intMax_iff {x : BitVec w} : x = BitVec.intMax w ↔ x.toInt = 2 ^ (w - 1) - 1 := by
  rw [← BitVec.toInt_inj, BitVec.toInt_intMax]

theorem hull_full_iff : IsFull (hull BitVec.slt first second) ↔ SpansSigned first second := by
  cases first with
  | none => simp [hull, SpansSigned, not_isFull_none]
  | some bounds =>
    cases second with
    | none => simp [hull, SpansSigned, not_isFull_none]
    | some bounds' =>
      obtain ⟨lo, hi⟩ := bounds
      obtain ⟨lo', hi'⟩ := bounds'
      have least := BitVec.le_toInt lo
      have least' := BitVec.le_toInt lo'
      have greatest := BitVec.toInt_lt (x := hi)
      have greatest' := BitVec.toInt_lt (x := hi')
      have spans : SpansSigned (some (lo, hi)) (some (lo', hi')) ↔ 1 < w ∧
          (lo = BitVec.intMin w ∨ lo' = BitVec.intMin w) ∧
          (hi = BitVec.intMax w ∨ hi' = BitVec.intMax w) := by
        constructor
        · rintro ⟨wide, _, _, _, _, ⟨⟩, ⟨⟩, ends⟩
          exact ⟨wide, ends⟩
        · rintro ⟨wide, ends⟩
          exact ⟨wide, lo, hi, lo', hi', rfl, rfl, ends⟩
      rw [spans, hull, IsFull, Option.some.injEq, Prod.mk.injEq]
      refine and_congr_right fun wide => and_congr ?_ ?_
      · simp only [eq_intMin_iff wide, BitVec.slt_eq_decide, decide_eq_true_iff]
        split
        next => omega
        next => omega
      · simp only [eq_intMax_iff, BitVec.slt_eq_decide, decide_eq_true_iff]
        split
        next => omega
        next => omega

end

section

variable {v w : Nat}

theorem setWidth_ne_intMin (widens : v < w) (x : BitVec v) : x.setWidth w ≠ BitVec.intMin w := by
  intro same
  have values := congrArg BitVec.toNat same
  have small : 2 ^ v ≤ 2 ^ (w - 1) :=
    Nat.pow_le_pow_right (by decide) (by omega)
  rw [BitVec.toNat_setWidth_of_le (by omega), BitVec.toNat_intMin_of_pos (by omega)] at values
  have less := x.isLt
  omega

theorem signExtend_ne_intMin (wide : 1 < w) (widens : v < w) (x : BitVec v) :
    x.signExtend w ≠ BitVec.intMin w := by
  rw [Ne, eq_intMin_iff wide, BitVec.toInt_signExtend_of_le (by omega)]
  have above := BitVec.le_toInt x
  have less : (2 : Int) ^ (v - 1) < 2 ^ (w - 1) :=
    pow_lt_pow_right₀ (by norm_num) (by omega)
  omega

variable {x : BitVec w} {amount : Nat}

theorem ushiftRight_eq_intMin (wide : 1 < w) :
    x >>> amount = BitVec.intMin w ↔ amount = 0 ∧ x = BitVec.intMin w := by
  constructor
  · intro same
    rcases Nat.eq_zero_or_pos amount with rfl | some_
    · exact ⟨rfl, by simpa using same⟩
    · exfalso
      have sign := congrArg BitVec.msb same
      rw [BitVec.msb_ushiftRight, BitVec.msb_intMin, decide_eq_true some_,
        Bool.not_true, Bool.false_and, eq_comm, decide_eq_false_iff_not] at sign
      omega
  · rintro ⟨rfl, rfl⟩
    simp

theorem sshiftRight_eq_intMin (wide : 1 < w) : x.sshiftRight amount = BitVec.intMin w ↔
      amount = 0 ∧ x = BitVec.intMin w := by
  constructor
  · intro same
    rcases Nat.eq_zero_or_pos amount with rfl | some_
    · exact ⟨rfl, by simpa using same⟩
    · exfalso
      rw [eq_intMin_iff wide, BitVec.toInt_sshiftRight, Int.shiftRight_eq_div_pow] at same
      have above := BitVec.le_toInt x
      have half : (2 : Int) ^ (w - 1) = 2 * 2 ^ (w - 2) := by
        rw [← pow_succ', show w - 2 + 1 = w - 1 by omega]
      have positive : (0 : Int) < 2 ^ (w - 2) := by positivity
      have large : (2 : Int) ≤ 2 ^ amount := by
        calc (2 : Int) = 2 ^ 1 := (pow_one 2).symm
          _ ≤ 2 ^ amount := pow_le_pow_right₀ (by norm_num) some_
      have bound : -2 ^ (w - 2) ≤ x.toInt / ((2 ^ amount : Nat) : Int) := by
        rw [Int.le_ediv_iff_mul_le (by positivity), Nat.cast_pow, Nat.cast_ofNat]
        nlinarith
      omega
  · rintro ⟨rfl, rfl⟩
    simp

theorem shiftLeft_eq_intMax (wide : 1 < w) :
    x <<< amount = BitVec.intMax w ↔ amount = 0 ∧ x = BitVec.intMax w := by
  constructor
  · intro same
    rcases Nat.eq_zero_or_pos amount with rfl | some_
    · exact ⟨rfl, by simpa using same⟩
    · exfalso
      have low := congrArg (fun y : BitVec w => y.getLsbD 0) same
      rw [BitVec.getLsbD_shiftLeft, decide_eq_true some_] at low
      simp [BitVec.getLsbD_intMax] at low
      omega
  · rintro ⟨rfl, rfl⟩
    simp

end

section Operands

variable {v w : Nat}

/-- `select`: the signed hull is full, or the unsigned one runs from the least
signed number round to the greatest. -/
def SelectFull (t f : OperandFacts w) : Prop :=
  SpansSigned t.s f.s ∨ (t.s = none ∨ f.s = none) ∧ IsFull (hull BitVec.ult t.u f.u)

/-- `or`: the larger lower end is the sign bit, which no upper end has. -/
def OrFull (l r : OperandFacts w) : Prop :=
  1 < w ∧ ∃ lo hi lo' hi', l.u = some (lo, hi) ∧ r.u = some (lo', hi') ∧
    max lo.toNat lo'.toNat = 2 ^ (w - 1) ∧
    max (activeBits hi) (activeBits hi') = w - 1

def UDivFull (l r : OperandFacts w) : Prop :=
  ∃ lo hi lo' hi', l.u = some (lo, hi) ∧ r.u = some (lo', hi') ∧
    lo' ≠ 0#w ∧ hi' ≠ 0#w ∧ IsFull (some (lo / hi', hi / lo'))

/-- `lshr`: by a constant zero, or by no more than a zero upper end. -/
def LShrFull (l r : OperandFacts w) : Option Nat → Prop
  | some amount => amount = 0 ∧ IsFull l.u
  | none => ∃ lo hi lo' hi', l.u = some (lo, hi) ∧ r.u = some (lo', hi') ∧
      hi'.toNat < w ∧ limitedAmount hi' = 0 ∧ limitedAmount lo' ≤ w ∧
      IsFull (some (lo, hi >>> limitedAmount lo'))

/-- `ashr`: by a constant zero, or by an interval that starts at zero. -/
def AShrFull (l r : OperandFacts w) : Option Nat → Prop
  | some amount => amount = 0 ∧ IsFull l.s
  | none => ∃ lo' hi', r.u = some (lo', hi') ∧ hi'.toNat < w ∧ limitedAmount lo' = 0 ∧ IsFull l.s

/-- `shl`: by a constant zero, with the flag of the interval that is kept. -/
def ShlFull (nuw nsw : Bool) (l : OperandFacts w) (constant : Option Nat) :
    Prop :=
  constant = some 0 ∧
    (nsw = true ∧ IsFull l.s ∨ (nsw = false ∨ l.s = none) ∧ nuw = true ∧ IsFull l.u)

/-- `trunc`: of an interval whose upper end fits. -/
def TruncFull (w : Nat) (a : OperandFacts v) : Prop :=
  ∃ lo hi, a.u = some (lo, hi) ∧ activeBits hi ≤ w ∧ IsFull (some (lo.setWidth w, hi.setWidth w))

/-- The binary operators.  The intervals of the others start at zero or are
not there at all. -/
def BinopFull (op : BinOp) (l r : OperandFacts w) (constant : Option Nat) :
    Prop :=
  match op with
  | .or _ => OrFull l r
  | .udiv _ => UDivFull l r
  | .lshr _ => LShrFull l r constant
  | .ashr _ => AShrFull l r constant
  | .shl nuw nsw => ShlFull nuw nsw l constant
  | .add nuw nsw => WrapsToFull nuw nsw sums l r
  | .mul nuw nsw =>
    WrapsToFull nuw (nsw && nonNegative l.s && nonNegative r.s) products l r
  | .and | .xor | .urem | .sub _ _ | .sdiv _ | .srem => False

/-- The recorded intervals of the operands of an instruction lead to the
range of all signed numbers. -/
def ReadsFull (map : RangeMap) : {w : Nat} → Rhs Reg w → Prop
  | _, .freeze a => IsFull (factsOf map a).s
  | _, .select _ a b => SelectFull (factsOf map a) (factsOf map b)
  | _, .binop op a b =>
    BinopFull op (factsOf map a) (factsOf map b) (constShift b)
  | w, .trunc _ _ _ a => TruncFull w (factsOf map a)
  | _, .zext _ _ _ | _, .sext _ _ => False
  | _, .icmp _ _ _ | _, .withOverflow _ _ _ => False

variable (llvm : BitOperators) (t f l r : OperandFacts w)

theorem OperandFacts.intervals_none {a : OperandFacts v}
    (missing : a.range = none) : a.u = none ∧ a.s = none := by
  rw [OperandFacts.u, OperandFacts.s, missing]
  exact ⟨rfl, rfl⟩

theorem transferFreeze_error_iff (a : OperandFacts w) :
    transferFreeze llvm a = .error .constantRange ↔ IsFull a.s :=
  derived_error_iff llvm _

theorem transferSelect_error_iff (cond : OperandFacts 1) :
    transferSelect llvm cond t f = .error .constantRange ↔ SelectFull t f := by
  have missing : hull BitVec.slt t.s f.s = none ↔ t.s = none ∨ f.s = none := by
    cases t.s <;> cases f.s <;> simp [hull]
  unfold transferSelect
  dsimp only
  split
  next unknown =>
    rw [Bool.and_eq_true, Option.isNone_iff_eq_none, Option.isNone_iff_eq_none] at unknown
    obtain ⟨noU, noS⟩ := OperandFacts.intervals_none unknown.1
    refine iff_of_false (by simp) ?_
    rw [SelectFull, ← hull_full_iff, noS, noU]
    rintro (full | ⟨-, full⟩)
    · exact not_isFull_none full
    · exact not_isFull_none full
  next =>
    rw [SelectFull, ← hull_full_iff, ← missing]
    apply unless_error_iff
    intro skipped
    rw [Bool.and_eq_true, Bool.and_eq_true, Option.isNone_iff_eq_none,
      Option.isNone_iff_eq_none] at skipped
    exact skipped.1

theorem transferAnd_ne_error : transferAnd llvm l r ≠ .error .constantRange := by
  have starts : ∀ u, u = (tryConst r.u).or ((tryConst l.u).or
      (smallerBound l.u r.u)) → ¬IsFull u := by
    rintro u rfl
    cases r.u with
    | none =>
      cases l.u with
      | none => exact not_isFull_none
      | some bounds =>
        cases sign : bounds.2.msb with
        | true => simpa [tryConst, smallerBound, sign] using not_isFull_none
        | false => simpa [tryConst, sign] using not_isFull_zero
    | some other =>
      cases signOther : other.2.msb with
      | false => simpa [tryConst, signOther] using not_isFull_zero
      | true =>
        cases l.u with
        | none => simpa [tryConst, smallerBound, signOther] using not_isFull_none
        | some bounds =>
          cases sign : bounds.2.msb with
          | true =>
            simpa [tryConst, smallerBound, sign, signOther] using not_isFull_zero
          | false => simpa [tryConst, sign, signOther] using not_isFull_zero
  unfold transferAnd
  dsimp only
  rw [Ne, unless_error_iff]
  · rintro (full | ⟨-, full⟩)
    · exact not_isFull_none full
    · exact starts _ rfl full
  · intro skipped
    rw [Bool.and_eq_true, Option.isNone_iff_eq_none] at skipped
    exact ⟨skipped.1, rfl⟩

variable {lo lo' : BitVec w} {bounds : Option (BitVec w × BitVec w)} {amount : Nat}

theorem larger_eq_intMin_iff (wide : 1 < w) : (if lo'.ult lo then lo else lo') = BitVec.intMin w ↔
      max lo.toNat lo'.toNat = 2 ^ (w - 1) := by
  rw [← BitVec.toNat_inj, BitVec.toNat_intMin_of_pos (by omega)]
  simp only [BitVec.ult_eq_decide, decide_eq_true_iff]
  split
  next => omega
  next => omega

theorem lowBits_eq_intMax_iff {count : Nat} (fits : count ≤ w) :
    (if count = 0 then 0#w else lowBitsSet w count) = BitVec.intMax w ↔ count = w - 1 := by
  have value : (if count = 0 then 0#w else lowBitsSet w count).toNat = 2 ^ count - 1 := by
    split
    next zero => simp [zero]
    next => exact toNat_lowBitsSet fits
  have power := Nat.two_pow_pos count
  have power' := Nat.two_pow_pos (w - 1)
  rw [← BitVec.toNat_inj, value, BitVec.toNat_intMax]
  constructor
  · intro same
    exact Nat.pow_right_injective (le_refl 2) (show 2 ^ count = 2 ^ (w - 1) by omega)
  · rintro rfl
    rfl

theorem orBounds_full_iff : IsFull (orBounds l.u r.u) ↔ OrFull l r := by
  rw [OrFull]
  cases l.u with
  | none => simp [orBounds, not_isFull_none]
  | some bounds =>
    cases r.u with
    | none => simp [orBounds, not_isFull_none]
    | some bounds' =>
      obtain ⟨lo, hi⟩ := bounds
      obtain ⟨lo', hi'⟩ := bounds'
      rw [orBounds, isFull_some]
      refine and_congr_right fun wide => ?_
      have fits : max (activeBits hi) (activeBits hi') ≤ w :=
        Nat.max_le.mpr ⟨activeBits_le hi, activeBits_le hi'⟩
      rw [larger_eq_intMin_iff wide, lowBits_eq_intMax_iff fits]
      constructor
      · intro ends
        exact ⟨lo, hi, lo', hi', rfl, rfl, ends⟩
      · rintro ⟨_, _, _, _, ⟨⟩, ⟨⟩, ends⟩
        exact ends

theorem transferOr_error_iff : transferOr llvm l r = .error .constantRange ↔ OrFull l r := by
  unfold transferOr
  dsimp only
  rw [unless_error_iff]
  · simp [orBounds_full_iff, not_isFull_none]
  · intro skipped
    rw [Bool.and_eq_true, Option.isNone_iff_eq_none] at skipped
    exact ⟨skipped.1, rfl⟩

theorem transferXor_ne_error : transferXor llvm l r ≠ .error .constantRange := by
  unfold transferXor
  dsimp only
  split
  next => simp
  next =>
    rw [Ne, derived_error_iff]
    exact not_isFull_none

theorem transferURem_ne_error : transferURem llvm l r ≠ .error .constantRange := by
  unfold transferURem
  split
  next lo hi known =>
    split
    next => simp
    next =>
      rw [Ne, conclude_error_iff]
      rintro (full | ⟨-, full⟩)
      · exact not_isFull_none full
      · exact not_isFull_zero full
  next => simp

theorem transferUDiv_error_iff : transferUDiv llvm l r = .error .constantRange ↔ UDivFull l r := by
  unfold transferUDiv
  split
  next lo' hi' lo hi rangeR rangeL =>
    have full : UDivFull l r ↔ lo' ≠ 0#w ∧ hi' ≠ 0#w ∧ IsFull (some (lo / hi', hi / lo')) := by
      rw [UDivFull, rangeR, rangeL]
      constructor
      · rintro ⟨_, _, _, _, ⟨⟩, ⟨⟩, ends⟩
        exact ends
      · intro ends
        exact ⟨lo, hi, lo', hi', rfl, rfl, ends⟩
    rw [full]
    split
    next zero => simp [zero]
    next nonzero =>
      by_cases zero : hi' = 0#w
      · simp [checkedUdiv, zero, bind, Except.bind]
      · simp only [checkedUdiv, if_neg zero, if_neg nonzero, bind, Except.bind]
        rw [conclude_error_iff]
        simp [zero, nonzero, not_isFull_none]
  next missing =>
    refine iff_of_false (by simp) ?_
    rintro ⟨lo, hi, lo', hi', rangeL, rangeR, -⟩
    exact missing lo' hi' lo hi rangeR rangeL

def ushiftRightBounds (amount : Nat) (bounds : BitVec w × BitVec w) : BitVec w × BitVec w :=
  (bounds.1 >>> amount, bounds.2 >>> amount)

def sshiftRightBounds (amount : Nat) (bounds : BitVec w × BitVec w) : BitVec w × BitVec w :=
  (bounds.1.sshiftRight amount, bounds.2.sshiftRight amount)

theorem shifted_full_iff {shifted : BitVec w × BitVec w → BitVec w × BitVec w}
    (kept : amount = 0 → ∀ bounds, shifted bounds = bounds)
    (only : 1 < w → ∀ bounds, shifted bounds = (BitVec.intMin w, BitVec.intMax w) → amount = 0) :
    IsFull (bounds.map shifted) ↔ amount = 0 ∧ IsFull bounds := by
  cases bounds with
  | none => simp [not_isFull_none]
  | some bounds =>
    rw [Option.map_some, IsFull, IsFull, Option.some.injEq, Option.some.injEq]
    constructor
    · rintro ⟨wide, same⟩
      have zero := only wide bounds same
      rw [kept zero] at same
      exact ⟨zero, wide, same⟩
    · rintro ⟨zero, wide, same⟩
      exact ⟨wide, (kept zero bounds).trans same⟩

theorem ushiftRightBounds_full_iff :
    IsFull (bounds.map (ushiftRightBounds amount)) ↔ amount = 0 ∧ IsFull bounds := by
  refine shifted_full_iff ?_ fun wide bounds same => ?_
  · rintro rfl bounds
    simp [ushiftRightBounds]
  · exact ((ushiftRight_eq_intMin wide).mp (Prod.mk.inj same).1).1

theorem sshiftRightBounds_full_iff :
    IsFull (bounds.map (sshiftRightBounds amount)) ↔ amount = 0 ∧ IsFull bounds := by
  refine shifted_full_iff ?_ fun wide bounds same => ?_
  · rintro rfl bounds
    simp [sshiftRightBounds]
  · exact ((sshiftRight_eq_intMin wide).mp (Prod.mk.inj same).1).1

theorem shlBounds_full_iff :
    IsFull (bounds.map (shlBounds amount)) ↔ amount = 0 ∧ IsFull bounds := by
  refine shifted_full_iff ?_ fun wide bounds same => ?_
  · rintro rfl bounds
    simp [shlBounds]
  · exact ((shiftLeft_eq_intMax wide).mp (Prod.mk.inj same).2).1

theorem outside_not_full (outside : ¬amount < w) : ¬(amount = 0 ∧ IsFull bounds) := by
  rintro ⟨rfl, wide, -⟩
  omega

variable {l r} in
theorem variableLShr_full_iff {hi hi' : BitVec w}
    (rangeL : l.u = some (lo, hi)) (rangeR : r.u = some (lo', hi')) (inside : hi'.toNat < w) :
    LShrFull l r none ↔ limitedAmount hi' ≤ w ∧ limitedAmount lo' ≤ w ∧
      IsFull (some (lo >>> limitedAmount hi', hi >>> limitedAmount lo')) := by
  simp only [LShrFull, isFull_some]
  rw [rangeL, rangeR]
  constructor
  · rintro ⟨_, _, _, _, ⟨⟩, ⟨⟩, -, zero, fits, wide, lower, upper⟩
    rw [zero]
    exact ⟨Nat.zero_le w, fits, wide, by simpa using lower, upper⟩
  · rintro ⟨-, fits, wide, lower, upper⟩
    obtain ⟨zero, least⟩ := (ushiftRight_eq_intMin wide).mp lower
    exact ⟨lo, hi, lo', hi', rfl, rfl, inside, zero, fits, wide, least, upper⟩

theorem transferLShr_error_iff (constant : Option Nat) :
    transferLShr llvm l r constant = .error .constantRange ↔ LShrFull l r constant := by
  cases constant with
  | some amount =>
    by_cases inside : amount < w
    · have ends : lshrBounds l.u r.u amount = .ok (l.u.map (ushiftRightBounds amount)) := by
        cases l.u <;> simp [lshrBounds, ushiftRightBounds, inside]
      simp only [transferLShr, shiftInRange, ends, inside, LShrFull,
        decide_true, Bool.not_true, Bool.false_eq_true, if_false, bind,
        Except.bind]
      rw [unless_error_iff KnownRange.isEmpty_intervals, ushiftRightBounds_full_iff]
      simp [not_isFull_none]
    · simp only [transferLShr, shiftInRange, inside, decide_false,
        Bool.not_false, if_true, LShrFull]
      exact iff_of_false (by simp) (outside_not_full inside)
  | none =>
    unfold transferLShr shiftInRange
    cases rangeR : r.u with
    | none => simp [LShrFull, rangeR]
    | some bounds' =>
      obtain ⟨lo', hi'⟩ := bounds'
      by_cases inside : hi'.toNat < w
      · simp only [inside, decide_true, Bool.not_true, Bool.false_eq_true, if_false]
        cases rangeL : l.u with
        | none =>
          simp only [lshrBounds, bind, Except.bind]
          rw [unless_error_iff KnownRange.isEmpty_intervals]
          simp [not_isFull_none, LShrFull, rangeL]
        | some bounds =>
          obtain ⟨lo, hi⟩ := bounds
          rw [variableLShr_full_iff rangeL rangeR inside]
          by_cases shifted : limitedAmount hi' ≤ w ∧ limitedAmount lo' ≤ w
          · simp only [lshrBounds, checkedAmount, shifted, lt_irrefl,
              if_false, if_true, bind, Except.bind]
            rw [unless_error_iff KnownRange.isEmpty_intervals]
            simp [not_isFull_none]
          · refine iff_of_false ?_ fun full => shifted ⟨full.1, full.2.1⟩
            by_cases first : limitedAmount hi' ≤ w
            · have second : ¬limitedAmount lo' ≤ w := fun fits =>
                shifted ⟨first, fits⟩
              simp [lshrBounds, checkedAmount, first, second, bind, Except.bind]
            · simp [lshrBounds, checkedAmount, first, bind, Except.bind]
      · simp [inside, LShrFull, rangeR]

theorem transferAShr_error_iff (constant : Option Nat) :
    transferAShr llvm l r constant = .error .constantRange ↔ AShrFull l r constant := by
  cases constant with
  | some amount =>
    by_cases inside : amount < w
    · have ends : ashrBounds l.s r.u amount = .ok (l.s.map (sshiftRightBounds amount)) := by
        cases l.s <;> simp [ashrBounds, sshiftRightBounds, inside]
      simp only [transferAShr, shiftInRange, ends, inside, AShrFull,
        decide_true, Bool.not_true, Bool.false_eq_true, if_false, bind,
        Except.bind]
      rw [unless_error_iff KnownRange.isEmpty_intervals, sshiftRightBounds_full_iff]
      simp [not_isFull_none]
    · simp only [transferAShr, shiftInRange, inside, decide_false,
        Bool.not_false, if_true, AShrFull]
      exact iff_of_false (by simp) (outside_not_full inside)
  | none =>
    unfold transferAShr shiftInRange
    cases rangeR : r.u with
    | none => simp [AShrFull, rangeR]
    | some bounds' =>
      obtain ⟨lo', hi'⟩ := bounds'
      by_cases inside : hi'.toNat < w
      · have full : AShrFull l r none ↔ limitedAmount lo' ≤ w ∧
            IsFull (l.s.map (sshiftRightBounds (limitedAmount lo'))) := by
          rw [AShrFull, rangeR, sshiftRightBounds_full_iff]
          constructor
          · rintro ⟨_, _, ⟨⟩, -, zero, bounds⟩
            exact ⟨zero.trans_le (Nat.zero_le w), zero, bounds⟩
          · rintro ⟨-, zero, bounds⟩
            exact ⟨lo', hi', rfl, inside, zero, bounds⟩
        rw [full]
        simp only [inside, decide_true, Bool.not_true, Bool.false_eq_true, if_false]
        cases rangeL : l.s with
        | none =>
          simp only [ashrBounds, bind, Except.bind]
          rw [unless_error_iff KnownRange.isEmpty_intervals]
          simp [not_isFull_none]
        | some bounds =>
          obtain ⟨lo, hi⟩ := bounds
          by_cases fits : limitedAmount lo' ≤ w
          · simp only [ashrBounds, checkedAmount, fits, lt_irrefl, if_false,
              if_true, bind, Except.bind]
            rw [unless_error_iff KnownRange.isEmpty_intervals]
            simp [not_isFull_none, sshiftRightBounds]
          · simp [ashrBounds, checkedAmount, fits, bind, Except.bind]
      · simp [inside, AShrFull, rangeR]

theorem transferShl_error_iff (nuw nsw : Bool) (constant : Option Nat) :
    transferShl llvm nuw nsw l r constant = .error .constantRange ↔ ShlFull nuw nsw l constant := by
  cases constant with
  | some amount =>
    by_cases inside : amount < w
    · have kept : (transferShl llvm nuw nsw l r (some amount) = .error .constantRange) ↔
          IsFull (if nsw then l.s.map (shlBounds amount) else none) ∨
            (if nsw then l.s.map (shlBounds amount) else none) = none ∧
              IsFull (if nuw then l.u.map (shlBounds amount) else none) := by
        simp only [transferShl, shiftInRange, inside, decide_true,
          Bool.not_true, Bool.false_or, Bool.true_and]
        rw [unless_error_iff KnownRange.isEmpty_intervals]
      rw [kept, ShlFull, Option.some.injEq]
      cases nsw with
      | false =>
        cases nuw with
        | false => simp [not_isFull_none]
        | true => simp [not_isFull_none, shlBounds_full_iff]
      | true =>
        cases nuw with
        | false => simp [not_isFull_none, shlBounds_full_iff]
        | true =>
          simp only [shlBounds_full_iff, if_true, Option.map_eq_none_iff,
            true_and, Bool.true_eq_false, false_or, and_or_left]
          exact or_congr_right (by rw [and_left_comm])
    · have left : transferShl llvm nuw nsw l r (some amount) = .ok none := by
        simp [transferShl, shiftInRange, inside]
      rw [left]
      refine iff_of_false (by simp) ?_
      rintro ⟨⟨⟩, ⟨-, wide, -⟩ | ⟨-, -, wide, -⟩⟩
      · omega
      · omega
  | none =>
    have variable_ : (shiftInRange none r).2 = w := by
      unfold shiftInRange
      dsimp only
      split
      next => rfl
      next => rfl
    refine iff_of_false ?_ ?_
    · unfold transferShl
      dsimp only
      rw [variable_, unless_error_iff]
      · simp [not_isFull_none]
      · simp
    · rintro ⟨⟨⟩, -⟩

theorem concludeWrapping_error_iff (nuw nsw : Bool)
    (u s : Option (BitVec w × BitVec w)) (known : KnownBits w) :
    concludeWrapping llvm nuw nsw u s known l r = .error .constantRange ↔
      IsFull s ∨ s = none ∧ IsFull u := by
  unfold concludeWrapping
  dsimp only
  rw [unless_error_iff KnownRange.isEmpty_intervals]

variable {l r} in
theorem wraps_iff {nuw nsw : Bool} {u s : Option (BitVec w × BitVec w)}
    {ends : BitVec w × BitVec w → BitVec w × BitVec w → BitVec w × BitVec w}
    (unsigned : ∀ bounds bounds', nuw = true → l.u = some bounds →
      r.u = some bounds' → u = some (ends bounds bounds'))
    (noUnsigned : ¬BothKnown nuw l.u r.u → u = none)
    (signed : ∀ bounds bounds', nsw = true → l.s = some bounds →
      r.s = some bounds' → s = some (ends bounds bounds'))
    (noSigned : ¬BothKnown nsw l.s r.s → s = none) :
    (IsFull s ∨ s = none ∧ IsFull u) ↔ WrapsToFull nuw nsw ends l r := by
  obtain ⟨fullU, -⟩ := combined_iff unsigned noUnsigned
  obtain ⟨fullS, noneS⟩ := combined_iff signed noSigned
  rw [WrapsToFull, fullU, fullS, noneS]

theorem transferAdd_error_iff (nuw nsw : Bool) :
    transferAdd llvm nuw nsw l r = .error .constantRange ↔ WrapsToFull nuw nsw sums l r := by
  unfold transferAdd
  dsimp only
  rw [concludeWrapping_error_iff]
  apply wraps_iff
  · rintro bounds bounds' rfl known known'
    rw [known, known']
    rfl
  · intro missing
    split
    next known known' => exact absurd (bothKnown known known') missing
    next => rfl
  · rintro bounds bounds' rfl known known'
    rw [known, known']
    rfl
  · intro missing
    split
    next known known' => exact absurd (bothKnown known known') missing
    next => rfl

theorem transferSub_ne_error (nuw nsw : Bool) :
    transferSub llvm nuw nsw l r ≠ .error .constantRange := by
  unfold transferSub
  dsimp only
  rw [Ne, concludeWrapping_error_iff]
  rintro (full | ⟨-, full⟩)
  · split at full
    next =>
      split at full
      next => exact not_isFull_zero full
      next => exact not_isFull_none full
    next => exact not_isFull_none full
  · split at full
    next =>
      split at full
      next => exact not_isFull_zero full
      next => exact not_isFull_none full
    next => exact not_isFull_none full

theorem transferMul_error_iff (nuw nsw : Bool) :
    transferMul llvm nuw nsw l r = .error .constantRange ↔
      WrapsToFull nuw (nsw && nonNegative l.s && nonNegative r.s) products l r := by
  unfold transferMul
  dsimp only
  rw [concludeWrapping_error_iff]
  apply wraps_iff
  · rintro bounds bounds' rfl known known'
    rw [known, known']
    rfl
  · intro missing
    split
    next known known' => exact absurd (bothKnown known known') missing
    next => rfl
  · rintro bounds bounds' signs known known'
    rw [known, known', Bool.and_eq_true, Bool.and_eq_true] at signs
    obtain ⟨⟨rfl, sign⟩, sign'⟩ := signs
    simp only [nonNegative, Option.any_some] at sign sign'
    rw [known, known']
    simp only [sign, sign', Bool.and_self, if_true]
    rfl
  · intro missing
    split
    next known known' =>
      split
      next signs =>
        refine absurd ⟨?_, (bothKnown known known').2⟩ missing
        rw [known, known']
        simpa [nonNegative] using signs
      next => rfl
    next => rfl

theorem transferZExt_ne_error (widens : v < w) (a : OperandFacts v) :
    transferZExt llvm w a ≠ .error .constantRange := by
  have wider : ∀ bounds : BitVec v × BitVec v, ¬IsFull (some (zextBounds w bounds)) := by
    rintro bounds ⟨-, same⟩
    exact setWidth_ne_intMin widens bounds.1 (Prod.mk.inj (Option.some.inj same)).1
  unfold transferZExt
  dsimp only
  rw [Ne, unless_error_iff]
  · rintro (full | ⟨-, full⟩)
    · exact not_isFull_none full
    · split at full
      next => exact wider _ full
      next =>
        split at full
        next => exact wider _ full
        next => exact not_isFull_none full
      next => exact not_isFull_none full
  · intro skipped
    rw [Bool.or_eq_true, Bool.and_eq_true, Option.isNone_iff_eq_none,
      Option.isNone_iff_eq_none] at skipped
    rcases skipped with missing | ⟨left, -⟩
    · obtain ⟨noU, noS⟩ := OperandFacts.intervals_none missing
      rw [noU, noS]
      exact ⟨rfl, rfl⟩
    · exact ⟨left, rfl⟩

theorem transferSExt_ne_error (widens : v < w) (a : OperandFacts v) :
    transferSExt llvm w a ≠ .error .constantRange := by
  have wider : ∀ bounds : BitVec v × BitVec v, ¬IsFull (some (sextBounds w bounds)) := by
    rintro bounds ⟨wide, same⟩
    exact signExtend_ne_intMin wide widens bounds.1 (Prod.mk.inj (Option.some.inj same)).1
  unfold transferSExt
  dsimp only
  rw [Ne, unless_error_iff]
  · rintro (full | ⟨-, full⟩)
    · split at full
      next => exact wider _ full
      next =>
        split at full
        next => exact wider _ full
        next => exact not_isFull_none full
      next => exact not_isFull_none full
    · exact not_isFull_none full
  · intro skipped
    rw [Bool.or_eq_true, Bool.and_eq_true, Option.isNone_iff_eq_none,
      Option.isNone_iff_eq_none] at skipped
    rcases skipped with missing | ⟨left, -⟩
    · obtain ⟨noU, noS⟩ := OperandFacts.intervals_none missing
      rw [noU, noS]
      exact ⟨rfl, rfl⟩
    · exact ⟨rfl, left⟩

theorem transferTrunc_error_iff (a : OperandFacts v) :
    transferTrunc llvm w a = .error .constantRange ↔ TruncFull w a := by
  have bounds : IsFull (truncBounds w a.u) ↔ TruncFull w a := by
    rw [TruncFull]
    cases a.u with
    | none => simp [truncBounds, not_isFull_none]
    | some bounds =>
      obtain ⟨lo, hi⟩ := bounds
      rw [truncBounds]
      split
      next fits =>
        constructor
        · intro full
          exact ⟨lo, hi, rfl, fits, full⟩
        · rintro ⟨_, _, ⟨⟩, -, full⟩
          exact full
      next wide =>
        refine iff_of_false not_isFull_none ?_
        rintro ⟨_, _, ⟨⟩, fits, -⟩
        exact wide fits
  unfold transferTrunc
  dsimp only
  rw [unless_error_iff]
  · simp [not_isFull_none, bounds]
  · intro skipped
    rw [Bool.or_eq_true, Bool.and_eq_true, Option.isNone_iff_eq_none,
      Option.isNone_iff_eq_none] at skipped
    rcases skipped with missing | ⟨left, -⟩
    · obtain ⟨noU, noS⟩ := OperandFacts.intervals_none missing
      rw [noU]
      exact ⟨rfl, rfl⟩
    · exact ⟨left, rfl⟩

theorem transferBinop_error_iff (op : BinOp) (constant : Option Nat) :
    transferBinop llvm op l r constant = .error .constantRange ↔ BinopFull op l r constant := by
  cases op with
  | add nuw nsw => exact transferAdd_error_iff llvm l r nuw nsw
  | sub nuw nsw => exact iff_false_intro (transferSub_ne_error llvm l r nuw nsw)
  | mul nuw nsw => exact transferMul_error_iff llvm l r nuw nsw
  | udiv _ => exact transferUDiv_error_iff llvm l r
  | shl nuw nsw => exact transferShl_error_iff llvm l r nuw nsw constant
  | lshr _ => exact transferLShr_error_iff llvm l r constant
  | ashr _ => exact transferAShr_error_iff llvm l r constant
  | and => exact iff_false_intro (transferAnd_ne_error llvm l r)
  | or _ => exact transferOr_error_iff llvm l r
  | xor => exact iff_false_intro (transferXor_ne_error llvm l r)
  | urem => exact iff_false_intro (transferURem_ne_error llvm l r)
  | sdiv _ => exact iff_false_intro nofun
  | srem => exact iff_false_intro nofun

end Operands

section

variable {llvm : BitOperators} {map : RangeMap}

variable (llvm map) in
theorem transfer_error_iff {w : Nat} (rhs : Rhs Reg w) :
    transfer llvm map rhs = .error .constantRange ↔ ReadsFull map rhs := by
  cases rhs with
  | binop op a b => exact transferBinop_error_iff llvm _ _ op _
  | icmp pred a b => exact iff_false_intro nofun
  | select cond a b => exact transferSelect_error_iff llvm _ _ _
  | freeze a => exact transferFreeze_error_iff llvm _
  | zext widens nneg a => exact iff_false_intro (transferZExt_ne_error llvm widens _)
  | sext widens a => exact iff_false_intro (transferSExt_ne_error llvm widens _)
  | trunc narrows nuw nsw a => exact transferTrunc_error_iff llvm _
  | withOverflow op a b => exact iff_false_intro nofun

def MeetsFull (map : RangeMap) (inst : Instruction) : Prop :=
  match inst.op with
  | .value rhs => ReadsFull map rhs
  | .assume _ => False

theorem computeRange_error_iff {inst : Instruction} :
    computeRange llvm map inst = .error .constantRange ↔ MeetsFull map inst := by
  obtain ⟨id, name, op, metadata⟩ := inst
  cases op with
  | assume cond => exact iff_false_intro nofun
  | value rhs =>
    refine Iff.trans ?_ (transfer_error_iff llvm map rhs)
    unfold computeRange
    dsimp only
    cases computed : transfer llvm map rhs with
    | error failure => simp [bind, Except.bind]
    | ok range => cases range <;> simp [bind, Except.bind]

variable (llvm) in
/-- No range that the pass constructs is inadmissible exactly when no
instruction that it reaches has operands recorded as above. -/
theorem computeRanges_valid_iff (insts : List Instruction) (seed : RangeMap) :
    computeRanges llvm insts seed ≠ .error .constantRange ↔
      ∀ before inst after ranges, insts = before ++ inst :: after →
        computeRanges llvm before seed = .ok ranges →
          ¬MeetsFull ranges inst := by
  rw [Ne, computeRanges, foldlM_eq_error]
  constructor
  · intro valid before inst after ranges same reached full
    exact valid ⟨before, inst, after, ranges, same, reached, computeRange_error_iff.mpr full⟩
  · rintro clean ⟨before, inst, after, ranges, same, reached, failed⟩
    exact clean before inst after ranges same reached (computeRange_error_iff.mp failed)

/-- `freeze` of an argument of eight bits. -/
theorem computeRanges_invalid :
    ¬∀ (llvm : BitOperators) (insts : List Instruction) (args : List Argument),
      computeRanges llvm insts (argumentSeed args) ≠ .error .constantRange := by
  intro valid
  exact valid prefixOperators
    [⟨0, ascii "f", .value (.freeze (w := 8) (.reg (.arg 0))), []⟩] [⟨ascii "a", 8⟩] rfl

end

end AliveNext.TvNext
