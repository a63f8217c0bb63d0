import AliveNext.Lib.Overflow
import AliveNext.TvNext.Proposer
import AliveNext.TvNext.RangeSound

/-!
# End points that wrap

The transfer functions of `add`, `sub`, `mul` and `shl` compute the end points
of a flagged result in the native bit width, where they can wrap although the
flagged operation on the operands does not.  `ashr` shifts both end points by
the least amount.  The results say exactly on which operands the recorded
intervals still hold.
-/

namespace AliveNext.TvNext

open AliveNext.Lib
open AliveNext.LLVM

variable {w : Nat}

section

/-- The exact sums of the end points do not wrap, or the sum of the operands
is so far inside that it stays inside. -/
def AddFits (nuw nsw : Bool) (l r : OperandFacts w) (x y : BitVec w) : Prop :=
  (nuw = true → ∀ lo hi lo' hi' : BitVec w, l.u = some (lo, hi) → r.u = some (lo', hi') →
      x.toNat + y.toNat + lostU w (hi.toNat + hi'.toNat) ≤ hi.toNat + hi'.toNat) ∧
  (nsw = true → ∀ lo hi lo' hi' : BitVec w, l.s = some (lo, hi) → r.s = some (lo', hi') →
      lo.toInt + lo'.toInt ≤ x.toInt + y.toInt + lostS w (lo.toInt + lo'.toInt) ∧
        x.toInt + y.toInt + lostS w (hi.toInt + hi'.toInt) ≤ hi.toInt + hi'.toInt)

/-- The lower end point zero needs ordered operands; the upper one is positive
and must not wrap.  The unsigned interval always fits. -/
def SubFits (nsw : Bool) (l r : OperandFacts w) (x y : BitVec w) : Prop :=
  nsw = true → ∀ lo hi lo' hi' : BitVec w, l.s = some (lo, hi) → r.s = some (lo', hi') →
      0 ≤ lo.toInt → 0 ≤ hi'.toInt → lo'.toInt ≤ hi.toInt →
        y.toInt ≤ x.toInt ∧ FitsS w (hi.toInt - lo'.toInt)

/-- The exact products of the upper end points do not wrap, or the product of
the operands is so far below that it stays below. -/
def MulFits (nuw nsw : Bool) (l r : OperandFacts w) (x y : BitVec w) : Prop :=
  (nuw = true → ∀ lo hi lo' hi' : BitVec w, l.u = some (lo, hi) → r.u = some (lo', hi') →
      x.toNat * y.toNat + lostU w (hi.toNat * hi'.toNat) ≤ hi.toNat * hi'.toNat) ∧
  (nsw = true → ∀ lo hi lo' hi' : BitVec w, l.s = some (lo, hi) → r.s = some (lo', hi') →
      0 ≤ lo.toInt → 0 ≤ lo'.toInt → x.toInt * y.toInt + lostS w (hi.toInt * hi'.toInt) ≤
          hi.toInt * hi'.toInt)

/-- The same for a left shift by a constant amount. -/
def ShlFits (nuw nsw : Bool) (l : OperandFacts w) (amount : Nat) (x : BitVec w) : Prop :=
  (nuw = true → ∀ lo hi : BitVec w, l.u = some (lo, hi) →
    x.toNat * 2 ^ amount + lostU w (hi.toNat * 2 ^ amount) ≤ hi.toNat * 2 ^ amount) ∧
  (nsw = true → ∀ lo hi : BitVec w, l.s = some (lo, hi) → lo.toInt * 2 ^ amount ≤
        x.toInt * 2 ^ amount + lostS w (lo.toInt * 2 ^ amount) ∧
      x.toInt * 2 ^ amount + lostS w (hi.toInt * 2 ^ amount) ≤ hi.toInt * 2 ^ amount)

def EndPointsFit (op : BinOp) (l r : OperandFacts w) (constant : Option Nat)
    (x y : BitVec w) : Prop :=
  match op with
  | .add nuw nsw => AddFits nuw nsw l r x y
  | .sub _ nsw => SubFits nsw l r x y
  | .mul nuw nsw => MulFits nuw nsw l r x y
  | .shl nuw nsw => constant.isSome = true → ShlFits nuw nsw l y.toNat x
  | _ => True

end

/-! ## The flagged operators -/

def hasWrapFlags : BinOp → Bool
  | .add _ _ | .sub _ _ | .mul _ _ | .shl _ _ => true
  | _ => false

section

variable {llvm : BitOperators} {l r : OperandFacts w} {result : KnownRange w}
  {x y z : BitVec w} {nuw nsw : Bool}

theorem guarded_wrapping {unsigned signed : Bool}
    (evaluated : BinOp.guarded (nuw && unsigned || nsw && signed) x = some (some z)) :
    z = x ∧ (nuw = true → unsigned = false) ∧ (nsw = true → signed = false) := by
  refine ⟨eq_of_guarded evaluated, ?_, ?_⟩
  · rintro rfl
    cases unsigned with
    | false => rfl
    | true => simp [BinOp.guarded] at evaluated
  · rintro rfl
    cases signed with
    | false => rfl
    | true => simp [BinOp.guarded] at evaluated

theorem concludeWrapping_bounds {u s : Option (BitVec w × BitVec w)} {known : KnownBits w}
    (concluded : concludeWrapping llvm nuw nsw u s known l r = .ok (some result)) :
    result.Bounds z ↔ (∀ lo hi, u = some (lo, hi) → BetweenU lo hi z) ∧
        (∀ lo hi, s = some (lo, hi) → BetweenS lo hi z) := by
  rw [conclude_bounds (not_skipped concluded rfl)]
  constructor
  · intro holds
    exact ⟨fun _ _ => holds.unsigned, fun _ _ => holds.signed⟩
  · rintro ⟨unsigned, signed⟩
    exact ⟨unsigned _ _, signed _ _⟩

variable {flag : Bool} {P : BitVec w → BitVec w → Prop} {lo hi lo' hi' : BitVec w}

theorem forall_interval_iff
    {p q interval : Option (BitVec w × BitVec w)} {f : BitVec w → BitVec w → BitVec w → BitVec w →
      Option (BitVec w × BitVec w)}
    {Q : BitVec w → BitVec w → BitVec w → BitVec w → Prop}
    (computed : interval = if flag then
      p.bind fun a => q.bind fun b => f a.1 a.2 b.1 b.2 else none)
    (step : flag = true → ∀ lo hi lo' hi', p = some (lo, hi) → q = some (lo', hi') →
        ((∀ least most, f lo hi lo' hi' = some (least, most) → P least most) ↔ Q lo hi lo' hi')) :
    (∀ lo hi, interval = some (lo, hi) → P lo hi) ↔
      (flag = true → ∀ lo hi lo' hi', p = some (lo, hi) →
        q = some (lo', hi') → Q lo hi lo' hi') := by
  subst computed
  constructor
  · rintro holds rfl lo hi lo' hi' rfl rfl
    exact (step rfl lo hi lo' hi' rfl rfl).mp holds
  · intro fits least most
    cases flag with
    | false => exact nofun
    | true =>
      rw [if_pos rfl, Option.bind_eq_some_iff]
      rintro ⟨⟨lo, hi⟩, rfl, second⟩
      obtain ⟨⟨lo', hi'⟩, rfl, same⟩ := Option.bind_eq_some_iff.mp second
      exact (step rfl lo hi lo' hi' rfl rfl).mpr (fits rfl lo hi lo' hi' rfl rfl) least most same

private theorem forall_guarded_iff {cond : Bool} :
    (∀ least most, (if cond then some (lo, hi) else none) = some (least, most) →
      P least most) ↔ (cond = true → P lo hi) := by
  cases cond with
  | false => simp
  | true =>
    constructor
    · intro holds _
      exact holds lo hi rfl
    · rintro holds _ _ ⟨⟩
      exact holds rfl

private theorem forall_some_iff :
    (∀ least most, some (lo, hi) = some (least, most) → P least most) ↔ P lo hi := by
  constructor
  · intro holds
    exact holds lo hi rfl
  · rintro holds _ _ ⟨⟩
    exact holds

theorem not_msb_iff : (!x.msb) = true ↔ 0 ≤ x.toInt := by
  rw [Bool.not_eq_true', BitVec.msb_eq_false_iff_two_mul_lt, ← Int.not_lt,
    BitVec.toInt_neg_iff, Nat.not_le]

theorem transferAdd_bounds (left : l.Bounds x) (right : r.Bounds y)
    (evaluated : (BinOp.add nuw nsw).eval x y = some (some z))
    (transferred : transferAdd llvm nuw nsw l r = .ok (some result)) :
    result.Bounds z ↔ AddFits nuw nsw l r x y := by
  obtain ⟨rfl, unsigned, signed⟩ := guarded_wrapping evaluated
  rw [concludeWrapping_bounds transferred]
  refine and_congr (forall_interval_iff (f := fun lo hi lo' hi' => some (lo + lo', hi + hi')) ?_ ?_)
    (forall_interval_iff (f := fun lo hi lo' hi' => some (lo + lo', hi + hi')) ?_ ?_)
  · cases nuw <;> cases l.u <;> cases r.u <;> rfl
  · intro flag lo hi lo' hi' first second
    have fits := uaddOverflow_eq_false_iff.mp (unsigned flag)
    have below := (left.unsigned first).1
    have below' := (right.unsigned second).1
    rw [forall_some_iff]
    refine betweenU_wrapped_iff (BitVec.toNat_add ..) (BitVec.toNat_add ..) ?_
      (Nat.add_le_add below below')
    rw [BitVec.toNat_add, Nat.mod_eq_of_lt fits]
  · cases nsw <;> cases l.s <;> cases r.s <;> rfl
  · intro flag lo hi lo' hi' first second
    have fits := saddOverflow_eq_false_iff.mp (signed flag)
    rw [forall_some_iff]
    refine betweenS_wrapped_iff (BitVec.toInt_add ..) (BitVec.toInt_add ..) ?_
    rw [BitVec.toInt_add, fits.bmod_eq]

theorem subNUW_between (below : x.toNat ≤ hi.toNat) (above : lo'.toNat ≤ y.toNat)
    (ordered : y.toNat ≤ x.toNat) : BetweenU 0#w (hi - lo') (x - y) := by
  have first : (x - y).toNat = x.toNat - y.toNat :=
    BitVec.toNat_sub_of_le ordered
  have second : (hi - lo').toNat = hi.toNat - lo'.toNat :=
    BitVec.toNat_sub_of_le (BitVec.le_def.mpr (by omega))
  rw [BetweenU, first, second, BitVec.toNat_zero]
  constructor <;> omega

theorem subNSW_between_iff
    (first : BetweenS lo hi x) (second : BetweenS lo' hi' y) (fits : FitsS w (x.toInt - y.toInt)) :
    BetweenS 0#w (hi - lo') (x - y) ↔ y.toInt ≤ x.toInt ∧ FitsS w (hi.toInt - lo'.toInt) := by
  obtain ⟨-, below⟩ := first
  obtain ⟨above, -⟩ := second
  have difference : (x - y).toInt = x.toInt - y.toInt := by
    rw [BitVec.toInt_sub, fits.bmod_eq]
  have most : (hi - lo').toInt = (hi.toInt - lo'.toInt).bmod (2 ^ w) :=
    BitVec.toInt_sub
  rw [BetweenS, difference, most, BitVec.toInt_zero]
  constructor
  · rintro ⟨lower, upper⟩
    refine ⟨by omega, ?_⟩
    by_contra wraps
    have top := (fitsS_toInt hi).2
    have bottom := (fitsS_toInt lo').1
    have shifted : FitsS w (hi.toInt - lo'.toInt - 2 ^ w) := by
      rw [FitsS] at wraps
      constructor <;> omega
    have wrapped : (hi.toInt - lo'.toInt).bmod (2 ^ w) = hi.toInt - lo'.toInt - 2 ^ w := by
      rw [← shifted.bmod_eq]
      exact_mod_cast (Int.sub_bmod_right ..).symm
    omega
  · rintro ⟨sorted, fits'⟩
    rw [fits'.bmod_eq]
    constructor <;> omega

theorem transferSub_bounds (left : l.Bounds x) (right : r.Bounds y)
    (evaluated : (BinOp.sub nuw nsw).eval x y = some (some z))
    (transferred : transferSub llvm nuw nsw l r = .ok (some result)) :
    result.Bounds z ↔ SubFits nsw l r x y := by
  obtain ⟨rfl, unsigned, signed⟩ := guarded_wrapping evaluated
  rw [concludeWrapping_bounds transferred]
  refine Iff.trans (and_iff_right ?_) (forall_interval_iff
    (f := fun lo hi lo' hi' =>
      if !lo.msb && !hi'.msb && lo'.sle hi then some (0#w, hi - lo') else none)
    ?_ ?_)
  · intro lo hi computed
    split at computed
    next first second =>
      split at computed
      next =>
        cases computed
        exact subNUW_between (left.unsigned first).2 (right.unsigned second).1
          (usubOverflow_eq_false_iff.mp (unsigned rfl))
      next => cases computed
    next => cases computed
  · cases nsw <;> cases l.s <;> cases r.s <;> rfl
  · intro flag lo hi lo' hi' first second
    have fits := ssubOverflow_eq_false_iff.mp (signed flag)
    rw [forall_guarded_iff, Bool.and_eq_true, Bool.and_eq_true, not_msb_iff,
      not_msb_iff, BitVec.sle_iff_toInt_le, and_imp, and_imp]
    refine forall_congr' fun _ => forall_congr' fun _ => forall_congr' fun _ => ?_
    exact subNSW_between_iff (left.signed first) (right.signed second) fits

theorem mulNSW_between_iff (first : BetweenS lo hi x) (second : BetweenS lo' hi' y)
    (nonneg : 0 ≤ lo.toInt) (nonneg' : 0 ≤ lo'.toInt) (fits : FitsS w (x.toInt * y.toInt)) :
    BetweenS (lo * lo') (hi * hi') (x * y) ↔ x.toInt * y.toInt + lostS w (hi.toInt * hi'.toInt) ≤
        hi.toInt * hi'.toInt := by
  have product : (x * y).toInt = x.toInt * y.toInt := by
    rw [BitVec.toInt_mul, fits.bmod_eq]
  have least : lo.toInt * lo'.toInt ≤ x.toInt * y.toInt :=
    Int.mul_le_mul first.1 second.1 nonneg' (nonneg.trans first.1)
  have positive : 0 ≤ lo.toInt * lo'.toInt := Int.mul_nonneg nonneg nonneg'
  have zero : FitsS w 0 := ⟨by simp, by simp⟩
  have inside : FitsS w (lo.toInt * lo'.toInt) :=
    zero.between fits positive least
  rw [betweenS_wrapped_iff (BitVec.toInt_mul ..) (BitVec.toInt_mul ..) product, inside.lostS_eq]
  refine and_iff_right ?_
  omega

theorem transferMul_bounds (left : l.Bounds x) (right : r.Bounds y)
    (evaluated : (BinOp.mul nuw nsw).eval x y = some (some z))
    (transferred : transferMul llvm nuw nsw l r = .ok (some result)) :
    result.Bounds z ↔ MulFits nuw nsw l r x y := by
  obtain ⟨rfl, unsigned, signed⟩ := guarded_wrapping evaluated
  rw [concludeWrapping_bounds transferred]
  refine and_congr (forall_interval_iff (f := fun lo hi lo' hi' => some (lo * lo', hi * hi')) ?_ ?_)
    (forall_interval_iff (f := fun lo hi lo' hi' =>
      if !lo.msb && !lo'.msb then some (lo * lo', hi * hi') else none) ?_ ?_)
  · cases nuw <;> cases l.u <;> cases r.u <;> rfl
  · intro flag lo hi lo' hi' first second
    have fits := umulOverflow_eq_false_iff.mp (unsigned flag)
    have below := (left.unsigned first).1
    have below' := (right.unsigned second).1
    rw [forall_some_iff]
    refine betweenU_wrapped_iff (BitVec.toNat_mul ..) (BitVec.toNat_mul ..) ?_
      (Nat.mul_le_mul below below')
    rw [BitVec.toNat_mul, Nat.mod_eq_of_lt fits]
  · cases nsw <;> cases l.s <;> cases r.s <;> rfl
  · intro flag lo hi lo' hi' first second
    have fits := smulOverflow_eq_false_iff.mp (signed flag)
    rw [forall_guarded_iff, Bool.and_eq_true, not_msb_iff, not_msb_iff, and_imp]
    refine forall_congr' fun nonneg => forall_congr' fun nonneg' => ?_
    exact mulNSW_between_iff (left.signed first) (right.signed second) nonneg nonneg' fits

theorem eval_shl_eq (evaluated : (BinOp.shl nuw nsw).eval x y = some (some z)) :
    y.toNat < w ∧ z = x <<< y.toNat ∧ (nuw = true → x.toNat * 2 ^ y.toNat < 2 ^ w) ∧
        (nsw = true → FitsS w (x.toInt * 2 ^ y.toNat)) := by
  have guarded : BinOp.guarded
      (decide (w ≤ y.toNat) || (nuw && (x <<< y) >>> y != x) ||
        (nsw && (x <<< y).sshiftRight' y != x)) (x <<< y) = some (some z) :=
    evaluated
  have same := eq_of_guarded guarded
  have kept : (decide (w ≤ y.toNat) || (nuw && (x <<< y) >>> y != x) ||
      (nsw && (x <<< y).sshiftRight' y != x)) = false := by
    rw [← Bool.not_eq_true]
    intro violated
    rw [violated] at guarded
    cases guarded
  rw [Bool.or_eq_false_iff, Bool.or_eq_false_iff, decide_eq_false_iff_not, Nat.not_le] at kept
  obtain ⟨⟨small, unsigned⟩, signed⟩ := kept
  refine ⟨small, same, ?_, ?_⟩
  · rintro rfl
    rw [Bool.true_and, bne_eq_false_iff_eq] at unsigned
    exact (shiftLeft_ushiftRight_eq_iff small).mp unsigned
  · rintro rfl
    rw [Bool.true_and, bne_eq_false_iff_eq] at signed
    exact (shiftLeft_sshiftRight_eq_iff small).mp signed

private theorem forall_map_iff {p : Option (BitVec w × BitVec w)}
    {f : BitVec w × BitVec w → BitVec w × BitVec w}
    {Q : BitVec w → BitVec w → Prop}
    (step : flag = true → ∀ lo hi, p = some (lo, hi) →
      (P (f (lo, hi)).1 (f (lo, hi)).2 ↔ Q lo hi)) :
    (∀ lo hi, (if flag then p.map f else none) = some (lo, hi) → P lo hi) ↔
      (flag = true → ∀ lo hi, p = some (lo, hi) → Q lo hi) := by
  constructor
  · rintro holds rfl lo hi rfl
    exact (step rfl lo hi rfl).mp (holds _ _ rfl)
  · intro fits lo hi
    cases flag with
    | false => exact nofun
    | true =>
      rw [if_pos rfl, Option.map_eq_some_iff]
      rintro ⟨⟨lo, hi⟩, rfl, same⟩
      have inside := (step rfl lo hi rfl).mpr (fits rfl lo hi rfl)
      rw [same] at inside
      exact inside

theorem shlBounds_iff {amount : Nat} (left : l.Bounds x)
    (unsigned : nuw = true → x.toNat * 2 ^ amount < 2 ^ w)
    (signed : nsw = true → FitsS w (x.toInt * 2 ^ amount))
    (same : result.u = if nuw then l.u.map (shlBounds amount) else none)
    (same' : result.s = if nsw then l.s.map (shlBounds amount) else none) :
    result.Bounds (x <<< amount) ↔ ShlFits nuw nsw l amount x := by
  have split : result.Bounds (x <<< amount) ↔
      (∀ lo hi, (if nuw then l.u.map (shlBounds amount) else none) =
        some (lo, hi) → BetweenU lo hi (x <<< amount)) ∧
      (∀ lo hi, (if nsw then l.s.map (shlBounds amount) else none) =
        some (lo, hi) → BetweenS lo hi (x <<< amount)) := by
    rw [← same, ← same']
    constructor
    · intro holds
      exact ⟨fun _ _ => holds.unsigned, fun _ _ => holds.signed⟩
    · rintro ⟨first, second⟩
      exact ⟨first _ _, second _ _⟩
  refine split.trans (and_congr (forall_map_iff ?_) (forall_map_iff ?_))
  · intro flag lo hi known
    refine betweenU_wrapped_iff (toNat_shiftLeft_eq lo _) (toNat_shiftLeft_eq hi _) ?_
      (Nat.mul_le_mul_right _ (left.unsigned known).1)
    rw [toNat_shiftLeft_eq, Nat.mod_eq_of_lt (unsigned flag)]
  · intro flag lo hi known
    refine betweenS_wrapped_iff (toInt_shiftLeft_eq lo _) (toInt_shiftLeft_eq hi _) ?_
    rw [toInt_shiftLeft_eq, (signed flag).bmod_eq]

theorem transferShl_bounds {constant : Option Nat} (left : l.Bounds x)
    (amount : ∀ {value : Nat}, constant = some value → value = min y.toNat w)
    (evaluated : (BinOp.shl nuw nsw).eval x y = some (some z))
    (transferred : transferShl llvm nuw nsw l r constant = .ok (some result)) :
    result.Bounds z ↔ (constant.isSome = true → ShlFits nuw nsw l y.toNat x) := by
  obtain ⟨small, rfl, unsigned, signed⟩ := eval_shl_eq evaluated
  rw [conclude_bounds (not_skipped transferred rfl)]
  cases constant with
  | none =>
    have least : (shiftInRange none r).2 = w := by
      unfold shiftInRange
      cases r.u <;> rfl
    simp only [least, lt_irrefl, decide_false, Bool.false_and]
    exact iff_of_true ⟨nofun, nofun⟩ nofun
  | some value =>
    obtain rfl : value = y.toNat := by
      have capped := amount rfl
      omega
    refine (shlBounds_iff left unsigned signed ?_ ?_).trans
      ⟨fun fits _ => fits, fun fits => fits rfl⟩
    · simp [shiftInRange, small]
    · simp [shiftInRange, small]

end

/-- Both end points are shifted by the least amount `2 ^ least`.  A negative
lower and a non-negative upper end point are safe; otherwise the operand must
be that much inside. -/
def AShrFits (l r : OperandFacts w) (x y : BitVec w) : Prop :=
  ∀ lo hi least most : BitVec w, l.s = some (lo, hi) → r.u = some (least, most) →
      (lo.toInt < 0 ∨ lo.toInt / 2 ^ least.toNat * 2 ^ y.toNat ≤ x.toInt) ∧
        (0 ≤ hi.toInt ∨ x.toInt < (hi.toInt / 2 ^ least.toNat + 1) * 2 ^ y.toNat)

/-- The recorded interval of a right shift fits the operands: always for
`lshr` and for a constant amount. -/
def RightShiftFits (op : BinOp) (l r : OperandFacts w) (constant : Option Nat)
    (x y : BitVec w) : Prop :=
  match op with
  | .ashr _ => constant = none → AShrFits l r x y
  | _ => True

def isRightShift : BinOp → Bool
  | .lshr _ | .ashr _ => true
  | _ => false

section

variable {llvm : BitOperators} {l r : OperandFacts w} {result : KnownRange w} {x y z : BitVec w}

theorem ediv_between_iff {lo hi n : Int} {k m : Nat} (more : k ≤ m)
    (above : lo ≤ n) (below : n ≤ hi) :
    (lo / 2 ^ k ≤ n / 2 ^ m ∧ n / 2 ^ m ≤ hi / 2 ^ k) ↔ (lo < 0 ∨ lo / 2 ^ k * 2 ^ m ≤ n) ∧
        (0 ≤ hi ∨ n < (hi / 2 ^ k + 1) * 2 ^ m) := by
  have positive : (0 : Int) < 2 ^ k := by positivity
  have positive' : (0 : Int) < 2 ^ m := by positivity
  have larger : (2 ^ k : Int) ≤ 2 ^ m := pow_le_pow_right₀ (by decide) more
  have lower : lo / 2 ^ k ≤ n / 2 ^ m ↔ lo / 2 ^ k * 2 ^ m ≤ n :=
    Int.le_ediv_iff_mul_le positive'
  have upper : n / 2 ^ m ≤ hi / 2 ^ k ↔ n < (hi / 2 ^ k + 1) * 2 ^ m :=
    Int.lt_add_one_iff.symm.trans (Int.ediv_lt_iff_lt_mul positive')
  rw [lower, upper]
  refine and_congr ⟨Or.inr, ?_⟩ ⟨Or.inr, ?_⟩
  · rintro (negative | inside)
    · have quotient : lo / 2 ^ k < 0 := Int.ediv_neg_of_neg_of_pos negative positive
      have rounded : lo / 2 ^ k * 2 ^ k ≤ lo := Int.ediv_mul_le lo positive.ne'
      nlinarith
    · exact inside
  · rintro (nonneg | inside)
    · have quotient : 0 ≤ hi / 2 ^ k := Int.ediv_nonneg nonneg positive.le
      have rounded : hi < (hi / 2 ^ k + 1) * 2 ^ k :=
        Int.lt_ediv_add_one_mul_self hi positive
      nlinarith
    · exact inside

variable {constant : Option Nat}

theorem transferLShr_bounds (width : w ≤ 2 ^ 32) (left : l.Bounds x)
    (right : r.Bounds y) (amount : ∀ {value : Nat}, constant = some value → value = min y.toNat w)
    (transferred : transferLShr llvm l r constant = .ok (some result)) :
    result.Bounds (x >>> y) := by
  obtain ⟨inRange, u, bounded, concluded⟩ := transferLShr_cases transferred
  rw [conclude_bounds concluded]
  refine ⟨?_, nofun⟩
  rintro lo hi rfl
  exact lshrBounds_between width left right amount inRange bounded

theorem transferAShr_cases (transferred : transferAShr llvm l r constant = .ok (some result)) :
    (shiftInRange constant r).1 = true ∧
      ∃ s, ashrBounds l.s r.u (shiftInRange constant r).2 = .ok s ∧ conclude llvm
          { s := s
            bits := some (llvm.ashr l.known r.known)
            undefFree := l.undefFree && r.undefFree
            poisonFree := l.poisonFree && r.poisonFree } =
          .ok (some result) := by
  have inRange : (shiftInRange constant r).1 = true := by
    cases inRange : (shiftInRange constant r).1 with
    | false => simp [transferAShr, inRange] at transferred
    | true => rfl
  have rest := not_skipped transferred rfl
  obtain ⟨s, bounded, rest⟩ := bind_eq_ok.mp rest
  exact ⟨inRange, s, bounded, not_skipped rest rfl⟩

variable (width : w ≤ 2 ^ 32) (left : l.Bounds x) (right : r.Bounds y)
    (amount : ∀ {value : Nat}, constant = some value → value = min y.toNat w)

include width left right amount

theorem ashrBounds_between_iff (inRange : (shiftInRange constant r).1 = true)
    {s : Option (BitVec w × BitVec w)}
    (bounded : ashrBounds l.s r.u (shiftInRange constant r).2 = .ok s) :
    (∀ lo hi, s = some (lo, hi) → BetweenS lo hi (x.sshiftRight' y)) ↔
      (constant = none → AShrFits l r x y) := by
  cases known : l.s with
  | none =>
    obtain rfl : none = s := by simpa [ashrBounds, known] using bounded
    refine iff_of_true nofun fun _ => ?_
    intro lo hi least most first
    rw [known] at first
    cases first
  | some bounds =>
    obtain ⟨lo, hi⟩ := bounds
    have shifted := left.signed known
    cases constant with
    | some value =>
      have small : value < w := of_decide_eq_true inRange
      obtain rfl : value = y.toNat := by
        have capped := amount rfl
        omega
      simp only [ashrBounds, known, shiftInRange, small, if_true, Except.ok.injEq] at bounded
      subst bounded
      refine iff_of_true ?_ nofun
      rintro - - ⟨⟩
      exact shifted.sshiftRight y.toNat
    | none =>
      cases known' : r.u with
      | none => simp [shiftInRange, known'] at inRange
      | some amounts =>
        obtain ⟨least, most⟩ := amounts
        obtain ⟨below, above⟩ := right.unsigned known'
        have small : most.toNat < w := by
          simpa [shiftInRange, known'] using inRange
        have exact_ : limitedAmount least = least.toNat :=
          limitedAmount_of_lt (by omega)
        have fits : least.toNat ≤ w := by omega
        simp only [ashrBounds, known, known', shiftInRange, lt_irrefl,
          if_false, checkedAmount, exact_, fits, if_true, bind,
          Except.bind, Except.ok.injEq] at bounded
        subst bounded
        rw [forall_some_iff, BetweenS, BitVec.sshiftRight',
          toInt_sshiftRight_eq, toInt_sshiftRight_eq,
          toInt_sshiftRight_eq,
          ediv_between_iff below shifted.1 shifted.2]
        constructor
        · intro inside _ lo' hi' least' most' first second
          rw [known] at first
          rw [known'] at second
          cases first
          cases second
          exact inside
        · intro inside
          exact inside rfl lo hi least most known known'

theorem transferAShr_bounds (transferred : transferAShr llvm l r constant = .ok (some result)) :
    result.Bounds (x.sshiftRight' y) ↔ (constant = none → AShrFits l r x y) := by
  obtain ⟨inRange, s, bounded, concluded⟩ := transferAShr_cases transferred
  rw [conclude_bounds concluded, ← ashrBounds_between_iff width left right amount inRange bounded]
  constructor
  · intro holds lo hi
    exact holds.signed
  · intro holds
    exact ⟨nofun, holds _ _⟩

end

def shiftSeed (shifted amount : KnownRange 8) : RangeMap :=
  (noRanges.insert (.arg 0) shifted).insert (.arg 1) amount

end AliveNext.TvNext
