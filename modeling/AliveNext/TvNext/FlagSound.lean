import AliveNext.Lib.Overflow
import AliveNext.TvNext.FlagClaim
import AliveNext.TvNext.RangeSound

/-!
# The flags, their claims and their fit tests

A poison-generating flag is violated when the mathematical result does not fit
the type, or when bits are lost.  The predicate that the proposer builds for a
flag is true exactly when the flag is not violated, and a fit test that passes
means that no operands in the ranges violate it.
-/

namespace AliveNext.TvNext

open AliveNext.Lib
open AliveNext.LLVM

variable {v w : Nat}

/-! ## Violations -/

def FlagKind.Defined (kind : FlagKind) (x y : BitVec w) : Prop :=
  match kind with
  | .shlNSW | .shlNUW | .lshrExact | .ashrExact => y.toNat < w
  | .udivExact => y ≠ 0#w
  | .sdivExact =>
    y ≠ 0#w ∧ ¬(x = BitVec.intMin w ∧ y = BitVec.allOnes w)
  | _ => True

def FlagKind.Violated (kind : FlagKind) (x y : BitVec w) : Prop :=
  match kind with
  | .addNSW => ¬FitsS w (x.toInt + y.toInt)
  | .subNSW => ¬FitsS w (x.toInt - y.toInt)
  | .mulNSW => ¬FitsS w (x.toInt * y.toInt)
  | .shlNSW => ¬FitsS w (x.toInt * 2 ^ y.toNat)
  | .addNUW => 2 ^ w ≤ x.toNat + y.toNat
  | .subNUW => x.toNat < y.toNat
  | .mulNUW => 2 ^ w ≤ x.toNat * y.toNat
  | .shlNUW => 2 ^ w ≤ x.toNat * 2 ^ y.toNat
  | .zextNNeg => x.toInt < 0
  | .orDisjoint => ∃ i, x.getLsbD i = true ∧ y.getLsbD i = true
  | .lshrExact => ¬2 ^ y.toNat ∣ x.toNat
  | .ashrExact => ¬(2 ^ y.toNat : Int) ∣ x.toInt
  | .udivExact => ¬y.toNat ∣ x.toNat
  | .sdivExact => ¬y.toInt ∣ x.toInt

/-- The operator with this flag only; `zext` is not a binary operator. -/
def FlagKind.binop : FlagKind → Option BinOp
  | .addNSW => some (.add false true)
  | .addNUW => some (.add true false)
  | .subNSW => some (.sub false true)
  | .subNUW => some (.sub true false)
  | .mulNSW => some (.mul false true)
  | .mulNUW => some (.mul true false)
  | .shlNSW => some (.shl false true)
  | .shlNUW => some (.shl true false)
  | .zextNNeg => none
  | .udivExact => some (.udiv true)
  | .sdivExact => some (.sdiv true)
  | .lshrExact => some (.lshr true)
  | .ashrExact => some (.ashr true)
  | .orDisjoint => some (.or true)

def FlagKind.flagged (kind : FlagKind) (widens : w < v)
    (a b : Operand Reg w) : Σ result, Rhs Reg result :=
  match kind.binop with
  | some op => ⟨w, .binop op a b⟩
  | none => ⟨v, .zext widens true a⟩

def NotPoison (env : Env Reg) (rhs : Σ result, Rhs Reg result) : Prop :=
  ∃ z, rhs.2.outcomes env = Outcomes.pure (.single (some z))

variable {holds : Prop} {x y : BitVec w} {kind : FlagKind} {env : Env Reg}

private theorem iff_not_of_false {test : Bool}
    (tested : test = false ↔ holds) : test = true ↔ ¬holds := by
  rw [← tested, Bool.not_eq_false]

private theorem bne_iff (same : x = y ↔ holds) : (x != y) = true ↔ ¬holds := by
  rw [bne_iff_ne, ne_eq, same]

def FlagKind.violates (kind : FlagKind) (x y : BitVec w) : Bool :=
  match kind with
  | .addNSW => x.saddOverflow y
  | .addNUW => x.uaddOverflow y
  | .subNSW => x.ssubOverflow y
  | .subNUW => x.usubOverflow y
  | .mulNSW => x.smulOverflow y
  | .mulNUW => x.umulOverflow y
  | .shlNSW => (x <<< y).sshiftRight' y != x
  | .shlNUW => (x <<< y) >>> y != x
  | .zextNNeg => x.msb
  | .lshrExact => (x >>> y) <<< y != x
  | .ashrExact => (x.sshiftRight' y) <<< y != x
  | .udivExact => x % y != 0#w
  | .sdivExact => x.srem y != 0#w
  | .orDisjoint => x &&& y != 0#w

theorem FlagKind.violates_iff (defined : kind.Defined x y) :
    kind.violates x y = true ↔ kind.Violated x y := by
  cases kind with
  | addNSW => exact iff_not_of_false saddOverflow_eq_false_iff
  | addNUW =>
    exact (iff_not_of_false uaddOverflow_eq_false_iff).trans Nat.not_lt
  | subNSW => exact iff_not_of_false ssubOverflow_eq_false_iff
  | subNUW =>
    exact (iff_not_of_false usubOverflow_eq_false_iff).trans Nat.not_le
  | mulNSW => exact iff_not_of_false smulOverflow_eq_false_iff
  | mulNUW =>
    exact (iff_not_of_false umulOverflow_eq_false_iff).trans Nat.not_lt
  | shlNSW => exact bne_iff (shiftLeft_sshiftRight_eq_iff defined)
  | shlNUW =>
    exact (bne_iff (shiftLeft_ushiftRight_eq_iff defined)).trans Nat.not_lt
  | zextNNeg =>
    exact BitVec.msb_eq_true_iff_two_mul_ge.trans BitVec.toInt_neg_iff.symm
  | lshrExact => exact bne_iff ushiftRight_shiftLeft_eq_iff
  | ashrExact => exact bne_iff (sshiftRight_shiftLeft_eq_iff defined)
  | udivExact => exact bne_iff umod_eq_zero_iff
  | sdivExact => exact bne_iff srem_eq_zero_iff
  | orDisjoint => exact (bne_iff and_eq_zero_iff).trans not_not

/-- A flagged operator on integers is poison exactly when the flag is
violated. -/
theorem FlagKind.binop_eval {op : BinOp} (flagged : kind.binop = some op)
    (defined : kind.Defined x y) : ∃ z, op.eval x y = BinOp.guarded (kind.violates x y) z := by
  cases kind <;> cases flagged
  case addNSW | addNUW =>
    exact ⟨x + y, by simp [BinOp.eval, FlagKind.violates]⟩
  case subNSW | subNUW =>
    exact ⟨x - y, by simp [BinOp.eval, FlagKind.violates]⟩
  case mulNSW | mulNUW =>
    exact ⟨x * y, by simp [BinOp.eval, FlagKind.violates]⟩
  case orDisjoint =>
    exact ⟨x ||| y, by simp [BinOp.eval, FlagKind.violates]⟩
  case shlNSW | shlNUW =>
    have small := Nat.not_le.mpr (show y.toNat < w from defined)
    exact ⟨x <<< y, by simp [BinOp.eval, FlagKind.violates, small]⟩
  case lshrExact =>
    have small := Nat.not_le.mpr (show y.toNat < w from defined)
    exact ⟨x >>> y, by simp [BinOp.eval, FlagKind.violates, small]⟩
  case ashrExact =>
    have small := Nat.not_le.mpr (show y.toNat < w from defined)
    exact ⟨x.sshiftRight' y, by simp [BinOp.eval, FlagKind.violates, small]⟩
  case udivExact =>
    have nonzero : y ≠ 0#w := defined
    exact ⟨x / y, by simp [BinOp.eval, FlagKind.violates, nonzero]⟩
  case sdivExact =>
    obtain ⟨nonzero, noOverflow⟩ :
      y ≠ 0#w ∧ ¬(x = BitVec.intMin w ∧ y = BitVec.allOnes w) := defined
    exact ⟨x.sdiv y, by
      simp [BinOp.eval, FlagKind.violates, nonzero, noOverflow]⟩

private theorem zext_outcomes (widens : w < v) {a : Operand Reg w}
    (operand : a.content env = .single (some x)) :
    (Rhs.zext widens true a).outcomes env =
      Outcomes.pure (.single (if x.msb then none else some (x.setWidth v))) := by
  refine (congrArg collect ?_).trans (collect_singleton _)
  ext outcome
  simp [Rhs.evaluations, operand, strict₁]

theorem pure_single_inj {sample sample' : Sample w} : Outcomes.pure (Content.single sample) =
        Outcomes.pure (Content.single sample') ↔ sample = sample' := by
  constructor
  · intro same
    have content : some (Content.single sample) ∈
        Outcomes.pure (Content.single sample') := same ▸ rfl
    have member : sample ∈ (Content.single sample').samples :=
      Option.some.inj content ▸ rfl
    exact member
  · intro same
    rw [same]

private theorem exists_pure_iff {violated : Bool} {z : BitVec w} :
    (∃ z', Outcomes.pure (Content.single (if violated then none else some z)) =
        Outcomes.pure (.single (some z'))) ↔ ¬violated = true := by
  simp only [pure_single_inj]
  cases violated <;> simp

theorem FlagKind.notPoison_iff (kind : FlagKind) (widens : w < v) {a b : Operand Reg w}
    (first : a.content env = .single (some x))
    (second : b.content env = .single (some y)) (defined : kind.Defined x y) :
    NotPoison env (kind.flagged widens a b) ↔ ¬kind.Violated x y := by
  cases flagged : kind.binop with
  | some op =>
    obtain ⟨z, evaluated⟩ := kind.binop_eval flagged defined
    have outcomes : (Rhs.binop op a b).outcomes env = Outcomes.pure
        (.single (if kind.violates x y then none else some z)) :=
      Rhs.outcomes_binop_single first second evaluated
    rw [FlagKind.flagged, flagged, NotPoison, outcomes, ← kind.violates_iff defined]
    exact exists_pure_iff
  | none =>
    obtain rfl : kind = .zextNNeg := by
      cases kind <;> first | rfl | cases flagged
    rw [FlagKind.flagged, flagged, NotPoison, zext_outcomes widens first,
      ← FlagKind.violates_iff defined]
    exact exists_pure_iff

section

variable {a b : Operand Reg w} {env : Env Reg} {x y : BitVec w}

theorem eval_shl (small : y.toNat < w) :
    (BinOp.shl false false).eval x y = some (some (x <<< y)) := by
  simp [BinOp.eval, BinOp.guarded, Nat.not_le.mpr small]

theorem eval_lshr (small : y.toNat < w) : (BinOp.lshr false).eval x y = some (some (x >>> y)) := by
  simp [BinOp.eval, BinOp.guarded, Nat.not_le.mpr small]

theorem eval_ashr (small : y.toNat < w) :
    (BinOp.ashr false).eval x y = some (some (x.sshiftRight' y)) := by
  simp [BinOp.eval, BinOp.guarded, Nat.not_le.mpr small]

theorem leaf_outcomes (content : a.content env = .single (some x)) :
    (Term.leaf a).outcomes env = Outcomes.pure (.single (some x)) :=
  congrArg Outcomes.pure content

theorem overflowClaim_outcomes (op : OverflowOp)
    (first : a.content env = .single (some x)) (second : b.content env = .single (some y)) :
    (overflowClaim op a b).outcomes env =
      Outcomes.pure (.single (some (BitVec.ofBool (!op.overflows x y)))) := by
  have leafA := leaf_outcomes first
  have leafB := leaf_outcomes second
  have overflow : (Term.node [] (.withOverflow op) (.leaf a) (.leaf b)).outcomes env =
        Outcomes.pure (.single (some (BitVec.ofBool (op.overflows x y)))) := by
    rw [Term.outcomes_node leafA leafB, BinNode.apply_withOverflow_single]
  have one : (Term.leaf (.const 1#1 : Operand Reg 1)).outcomes env =
      Outcomes.pure (.single (some 1#1)) := rfl
  rw [overflowClaim, Term.outcomes_node overflow one]
  refine BinNode.apply_binop_single ?_
  cases op.overflows x y <;> rfl

variable {op op' : BinOp} {u z : BitVec w} {violated : Prop}

section

variable (first : a.content env = .single (some x)) (second : b.content env = .single (some y))

include first second

theorem roundTripClaim_outcomes
    (there : op.eval x y = some (some u)) (back : op'.eval u y = some (some z)) :
    (roundTripClaim op op' a b).outcomes env =
      Outcomes.pure (.single (some (BitVec.ofBool (z == x)))) := by
  have leafA := leaf_outcomes first
  have leafB := leaf_outcomes second
  have inner : (Term.node [] (.binop op) (.leaf a) (.leaf b)).outcomes env =
      Outcomes.pure (.single (some u)) := by
    rw [Term.outcomes_node leafA leafB]
    exact BinNode.apply_binop_single there
  have outer : (Term.node [] (.binop op')
      (.node [] (.binop op) (.leaf a) (.leaf b)) (.leaf b)).outcomes env =
        Outcomes.pure (.single (some z)) := by
    rw [Term.outcomes_node inner leafB]
    exact BinNode.apply_binop_single back
  rw [roundTripClaim, Term.outcomes_node outer leafA, BinNode.apply_icmp_single]
  rfl

private theorem overflow_claimed {op : OverflowOp} (same : op.overflows x y = false ↔ ¬violated) :
    ∃ test, (overflowClaim op a b).outcomes env =
        Outcomes.pure (.single (some (BitVec.ofBool test))) ∧
      (test = true ↔ ¬violated) := by
  refine ⟨_, overflowClaim_outcomes op first second, ?_⟩
  rw [Bool.not_eq_true', same]

private theorem roundTrip_claimed (there : op.eval x y = some (some u))
    (back : op'.eval u y = some (some z)) (same : z = x ↔ ¬violated) :
    ∃ test, (roundTripClaim op op' a b).outcomes env =
        Outcomes.pure (.single (some (BitVec.ofBool test))) ∧
      (test = true ↔ ¬violated) := by
  refine ⟨_, roundTripClaim_outcomes first second there back, ?_⟩
  rw [beq_iff_eq, same]

end

/-- The predicate of a flag is a test that tells whether the flag is
violated. -/
theorem FlagKind.claim_outcomes (kind : FlagKind) (first : a.content env = .single (some x))
    (second : b.content env = .single (some y)) (defined : kind.Defined x y) :
    ∃ test, (kind.claim a b).outcomes env = Outcomes.pure (.single (some (BitVec.ofBool test))) ∧
      (test = true ↔ ¬kind.Violated x y) := by
  have leafA := leaf_outcomes first
  have leafB := leaf_outcomes second
  have zero : (Term.leaf (.const 0#w : Operand Reg w)).outcomes env =
      Outcomes.pure (.single (some 0#w)) := rfl
  cases kind with
  | addNSW =>
    exact overflow_claimed first second (saddOverflow_eq_false_iff.trans not_not.symm)
  | addNUW =>
    exact overflow_claimed first second (uaddOverflow_eq_false_iff.trans Nat.not_le.symm)
  | subNSW =>
    exact overflow_claimed first second (ssubOverflow_eq_false_iff.trans not_not.symm)
  | subNUW =>
    exact overflow_claimed first second (usubOverflow_eq_false_iff.trans Nat.not_lt.symm)
  | mulNSW =>
    exact overflow_claimed first second (smulOverflow_eq_false_iff.trans not_not.symm)
  | mulNUW =>
    exact overflow_claimed first second (umulOverflow_eq_false_iff.trans Nat.not_le.symm)
  | shlNSW =>
    exact roundTrip_claimed first second (eval_shl defined) (eval_ashr defined)
      ((shiftLeft_sshiftRight_eq_iff defined).trans not_not.symm)
  | shlNUW =>
    exact roundTrip_claimed first second (eval_shl defined) (eval_lshr defined)
      ((shiftLeft_ushiftRight_eq_iff defined).trans Nat.not_le.symm)
  | lshrExact =>
    exact roundTrip_claimed first second (eval_lshr defined) (eval_shl defined)
      (ushiftRight_shiftLeft_eq_iff.trans not_not.symm)
  | ashrExact =>
    exact roundTrip_claimed first second (eval_ashr defined) (eval_shl defined)
      ((sshiftRight_shiftLeft_eq_iff defined).trans not_not.symm)
  | udivExact =>
    have nonzero : y ≠ 0#w := defined
    have there : (BinOp.udiv false).eval x y = some (some (x / y)) := by
      simp [BinOp.eval, BinOp.guarded, nonzero]
    exact roundTrip_claimed first second there rfl (udiv_mul_eq_iff.trans not_not.symm)
  | sdivExact =>
    obtain ⟨nonzero, noOverflow⟩ :
      y ≠ 0#w ∧ ¬(x = BitVec.intMin w ∧ y = BitVec.allOnes w) := defined
    have there : (BinOp.sdiv false).eval x y = some (some (x.sdiv y)) := by
      simp [BinOp.eval, BinOp.guarded, nonzero, noOverflow]
    exact roundTrip_claimed first second there rfl (sdiv_mul_eq_iff.trans not_not.symm)
  | zextNNeg =>
    refine ⟨(0#w).sle x, ?_, ?_⟩
    · rw [FlagKind.claim, Term.outcomes_node leafA zero, BinNode.apply_icmp_single]
      rfl
    · rw [BitVec.sle_iff_toInt_le, BitVec.toInt_zero]
      exact Int.not_lt.symm
  | orDisjoint =>
    refine ⟨x &&& y == 0#w, ?_, ?_⟩
    · have both : (Term.node [] (.binop .and) (.leaf a) (.leaf b)).outcomes env =
            Outcomes.pure (.single (some (x &&& y))) := by
        rw [Term.outcomes_node leafA leafB]
        exact BinNode.apply_binop_single rfl
      rw [FlagKind.claim, Term.outcomes_node both zero, BinNode.apply_icmp_single]
      rfl
    · rw [beq_iff_eq]
      exact and_eq_zero_iff

end

/-- The predicate that `buildFlagClaim` builds on the operands of the flagged
instruction is a true integer exactly when that instruction is not poison,
which is when the flag is not violated. -/
theorem buildFlagClaim_exact (kind : FlagKind) (widens : w < v)
    {a b : Operand Reg w} {env : Env Reg} {x y : BitVec w}
    (first : a.content env = .single (some x)) (second : b.content env = .single (some y))
    (defined : kind.Defined x y) :
    ∃ claim,
      buildFlagClaim kind (kind.flagged widens a b).2.operands = .ok claim ∧
      (claim.outcomes env = Outcomes.pure (.single (some 1#1)) ↔
        NotPoison env (kind.flagged widens a b)) ∧
      (claim.outcomes env = Outcomes.pure (.single (some 1#1)) ↔
        ¬kind.Violated x y) := by
  have built : buildFlagClaim kind (kind.flagged widens a b).2.operands = .ok (kind.claim a b) := by
    cases kind <;> simp [FlagKind.flagged, FlagKind.binop, Rhs.operands,
      buildFlagClaim, FlagKind.claim]
  obtain ⟨test, outcomes, same⟩ := kind.claim_outcomes first second defined
  have holds : (kind.claim a b).outcomes env =
      Outcomes.pure (.single (some 1#1)) ↔ ¬kind.Violated x y := by
    rw [outcomes, ← same, pure_single_inj]
    cases test <;> decide
  refine ⟨kind.claim a b, built, ?_, holds⟩
  rw [kind.notPoison_iff widens first second defined]
  exact holds

theorem buildFlagClaim_exact_constants :
    ∃ claim, buildFlagClaim .shlNSW
        (FlagKind.shlNSW.flagged (by decide : 8 < 9) (.const 3#8)
          (.const 2#8)).2.operands = .ok claim ∧
      claim.outcomes (fun _ _ => .single none) =
        Outcomes.pure (.single (some 1#1)) := by
  let env : Env Reg := fun _ _ => .single none
  have first : (.const 3#8 : Operand Reg 8).content env = .single (some 3#8) :=
    rfl
  have second : (.const 2#8 : Operand Reg 8).content env = .single (some 2#8) := rfl
  obtain ⟨claim, built, -, holds⟩ :=
    buildFlagClaim_exact .shlNSW (by decide : 8 < 9) first second (show 2 < 8 by decide)
  refine ⟨claim, built, holds.mpr ?_⟩
  exact not_not.mpr (show FitsS 8 12 by decide)

section

variable {x y : BitVec w}

theorem toInt_smin (x y : BitVec w) : (smin x y).toInt = min x.toInt y.toInt := by
  unfold smin
  by_cases below : x.toInt < y.toInt
  · rw [if_pos (BitVec.slt_iff_toInt_lt.mpr below), min_eq_left below.le]
  · rw [if_neg (by rwa [BitVec.slt_iff_toInt_lt]), min_eq_right (Int.not_lt.mp below)]

theorem toInt_smax (x y : BitVec w) : (smax x y).toInt = max x.toInt y.toInt := by
  unfold smax
  by_cases below : y.toInt < x.toInt
  · rw [if_pos (BitVec.slt_iff_toInt_lt.mpr below), max_eq_left below.le]
  · rw [if_neg (by rwa [BitVec.slt_iff_toInt_lt]), max_eq_right (Int.not_lt.mp below)]

variable {bounds : BitVec v × BitVec v} {a b : KnownRange w} {known : KnownBits w} {k : Nat}

theorem fitsS_of_fitsSignedRange (fits : fitsSignedRange bounds w = true) (room : w ≤ v) {n : Int}
    (above : bounds.1.toInt ≤ n) (below : n ≤ bounds.2.toInt) : FitsS w n := by
  rw [fitsSignedRange, Bool.and_eq_true, BitVec.sle_iff_toInt_le,
    BitVec.sle_iff_toInt_le, BitVec.toInt_signExtend_of_le room,
    BitVec.toInt_signExtend_of_le room] at fits
  exact (fitsS_toInt (BitVec.intMin w)).between (fitsS_toInt (BitVec.intMax w))
    (fits.1.trans above) (below.trans fits.2)

theorem lt_of_fitsUnsignedRange (fits : fitsUnsignedRange bounds w = true) (room : w < v)
    (small : 2 * bounds.2.toNat < 2 ^ v) : bounds.2.toNat < 2 ^ w := by
  have larger : 2 ^ (w + 1) ≤ 2 ^ v := Nat.pow_le_pow_right (by decide) room
  have positive := Nat.two_pow_pos w
  have top : ((BitVec.allOnes w).setWidth v).toNat = 2 ^ w - 1 := by
    rw [BitVec.toNat_setWidth_of_le room.le, BitVec.toNat_allOnes]
  rw [Nat.pow_succ] at larger
  rw [fitsUnsignedRange, Bool.and_eq_true] at fits
  have upper := BitVec.sle_iff_toInt_le.mp fits.2
  rw [BitVec.toInt_eq_toNat_of_lt small, BitVec.toInt_eq_toNat_of_lt (by omega), top] at upper
  omega

theorem fitsSigned_sound {op : {v : Nat} → BitVec v → BitVec v → BitVec v}
    {f : Int → Int → Int} (exact_ : ∀ p q : BitVec w,
      (op (p.signExtend (max w (2 * w + 4)))
        (q.signExtend (max w (2 * w + 4)))).toInt = f p.toInt q.toInt)
    (first : ∀ n, Monotone (f · n) ∨ Antitone (f · n))
    (second : ∀ n, Monotone (f n) ∨ Antitone (f n))
    (left : a.Contains x) (right : b.Contains y)
    (safe : fitsSigned op a b w = true) :
    FitsS w (f x.toInt y.toInt) := by
  unfold fitsSigned at safe
  split at safe
  next al ah bl bh signed signed' =>
    obtain ⟨above, below⟩ := left.signed signed
    obtain ⟨above', below'⟩ := right.signed signed'
    obtain ⟨lower, upper⟩ :=
      between_corners first second above below above' below'
    refine fitsS_of_fitsSignedRange safe (by omega) ?_ ?_
    · simp only [combineCorners, toInt_smin, exact_]
      exact lower
    · simp only [combineCorners, toInt_smax, exact_]
      exact upper
  next => cases safe

section

variable (left : a.Contains x) (right : b.Contains y)

include left right

theorem fitsUnsigned_sound {op : {v : Nat} → BitVec v × BitVec v →
      BitVec v × BitVec v → Option (BitVec v × BitVec v)}
    {holds : Prop} (safe : fitsUnsigned op a b w = true) (step : ∀ {al ah bl bh : BitVec w}
      {bounds : BitVec (max w (2 * w + 4)) × BitVec (max w (2 * w + 4))},
      BetweenU al ah x → BetweenU bl bh y →
      op (al.setWidth _, ah.setWidth _) (bl.setWidth _, bh.setWidth _) = some bounds →
      fitsUnsignedRange bounds w = true → holds) : holds := by
  unfold fitsUnsigned at safe
  split at safe
  next al ah bl bh unsigned unsigned' =>
    dsimp only at safe
    split at safe
    next bounds computed =>
      exact step (left.unsigned unsigned) (right.unsigned unsigned') computed safe
    next => cases safe
  next => cases safe

theorem fitsShlNSW_sound (safe : fitsShlNSW a b w = true) : FitsS w (x.toInt * 2 ^ y.toNat) := by
  unfold fitsShlNSW at safe
  split at safe
  next lo hi _ shi signed unsigned =>
    obtain ⟨above, below⟩ := left.signed signed
    have amount : y.toNat ≤ shi.toNat := (right.unsigned unsigned).2
    split at safe
    next => cases safe
    next small =>
      dsimp only at safe
      rw [Bool.and_eq_true, BitVec.sle_iff_toInt_le, BitVec.sle_iff_toInt_le,
        toInt_neg_sub_one (by omega), toInt_twoPow_sub_one (by omega),
        BitVec.toInt_signExtend_of_le (by omega),
        BitVec.toInt_signExtend_of_le (by omega)] at safe
      have split : (2 ^ (w - 1) : Int) = 2 ^ (w - 1 - shi.toNat) * 2 ^ shi.toNat := by
        rw [← pow_add]
        congr 1
        omega
      have scale : (2 ^ y.toNat : Int) ≤ 2 ^ shi.toNat :=
        pow_le_pow_right₀ (by decide) amount
      have positive : (0 : Int) < 2 ^ y.toNat := by positivity
      rw [fitsS_iff_of_pos (by omega), split]
      constructor
      · nlinarith [safe.1, above]
      · nlinarith [safe.2, below]
  next => cases safe

theorem fitsShlNUW_sound (safe : fitsShlNUW a b w = true) : x.toNat * 2 ^ y.toNat < 2 ^ w := by
  unfold fitsShlNUW at safe
  split at safe
  next hi _ shi unsigned unsigned' =>
    have below : x.toNat ≤ hi.toNat := (left.unsigned unsigned).2
    have amount : y.toNat ≤ shi.toNat := (right.unsigned unsigned').2
    split at safe
    next => cases safe
    next small =>
      dsimp only at safe
      rw [BitVec.ult_iff_toNat_lt, BitVec.toNat_setWidth_of_le (by omega),
        BitVec.toNat_twoPow_of_lt (by omega)] at safe
      calc x.toNat * 2 ^ y.toNat ≤ x.toNat * 2 ^ shi.toNat :=
            Nat.mul_le_mul_left _ (Nat.pow_le_pow_right (by decide) amount)
        _ < 2 ^ (w - shi.toNat) * 2 ^ shi.toNat :=
            Nat.mul_lt_mul_of_pos_right (below.trans_lt safe) (Nat.two_pow_pos _)
        _ = 2 ^ w := by
            rw [← Nat.pow_add]
            congr 1
            omega
  next => cases safe

end

/-! ### Bit counts -/

theorem getLsbD_of_lt_countTrailingOnes {i : Nat}
    (low : i < countTrailingOnes x) : x.getLsbD i = true := by
  have inside : i < ((List.range w).takeWhile x.getLsbD).length := low
  have same : ((List.range w).takeWhile x.getLsbD)[i] = i := by
    rw [(List.takeWhile_prefix _).getElem, List.getElem_range]
  have all := List.all_takeWhile (p := x.getLsbD) (l := List.range w)
  rw [List.all_eq_true] at all
  rw [← same]
  exact all _ (List.getElem_mem inside)

theorem two_pow_dvd_of_covers (covers : known.Covers x)
    (low : k ≤ countTrailingOnes known.zero) : 2 ^ k ∣ x.toNat := by
  refine Nat.dvd_of_mod_eq_zero (Nat.eq_of_testBit_eq fun i => ?_)
  rw [Nat.testBit_mod_two_pow, Nat.zero_testBit, Bool.and_eq_false_iff,
    decide_eq_false_iff_not, or_iff_not_imp_left, not_not]
  intro below
  have zero := getLsbD_of_lt_countTrailingOnes (below.trans_le low)
  exact (KnownBits.covers_iff.mp covers i (BitVec.lt_of_getLsbD zero)).1 zero

theorem two_pow_dvd_toInt (small : k ≤ w) (divides : 2 ^ k ∣ x.toNat) :
    (2 ^ k : Int) ∣ x.toInt := by
  have whole : (2 ^ k : Int) ∣ 2 ^ w := pow_dvd_pow 2 small
  have value : (2 ^ k : Int) ∣ x.toNat := by exact_mod_cast divides
  rw [BitVec.toInt_eq_toNat_cond]
  split
  · exact value
  · push_cast
    exact Int.dvd_sub value whole

theorem countP_add_countP {α : Type} {p q : α → Bool} (l : List α)
    (disjoint : ∀ i ∈ l, ¬(p i = true ∧ q i = true)) :
    l.countP p + l.countP q = l.countP fun i => p i || q i := by
  induction l with
  | nil => rfl
  | cons i rest step =>
    have here := disjoint i List.mem_cons_self
    have later := step fun j member =>
      disjoint j (List.mem_cons_of_mem _ member)
    simp only [List.countP_cons]
    cases first : p i <;> cases second : q i <;> simp_all <;> omega

/-- `KnownBits::getConstant`. -/
theorem eq_one_of_isConstantBits (covers : known.Covers x)
    (constant : isConstantBits known = true) : x = known.one := by
  have bits := KnownBits.covers_iff.mp covers
  rw [isConstantBits, beq_iff_eq, popcount, popcount, countP_add_countP] at constant
  · have all : ∀ i ∈ List.range w, (known.zero.getLsbD i || known.one.getLsbD i) = true := by
      rw [← List.countP_eq_length, constant, List.length_range]
    ext i inside
    have either := all i (List.mem_range.mpr inside)
    obtain ⟨zero, one⟩ := bits i inside
    rw [← BitVec.getLsbD_eq_getElem, ← BitVec.getLsbD_eq_getElem]
    rw [Bool.or_eq_true] at either
    rcases either with off | on
    · have clear := zero off
      cases value : known.one.getLsbD i with
      | false => exact clear
      | true =>
        have set := one value
        rw [clear] at set
        cases set
    · rw [one on, on]
  · intro i member both
    obtain ⟨zero, one⟩ := bits i (List.mem_range.mp member)
    have off := zero both.1
    have on := one both.2
    rw [off] at on
    cases on

theorem eq_twoPow_of_popcount (single : popcount x = 1) : ∃ k < w, x = BitVec.twoPow w k := by
  rw [popcount, List.countP_eq_length_filter, List.length_eq_one_iff] at single
  obtain ⟨k, only⟩ := single
  have member : ∀ i, i ∈ (List.range w).filter x.getLsbD ↔ i = k := by
    intro i
    rw [only, List.mem_singleton]
  simp only [List.mem_filter, List.mem_range] at member
  refine ⟨k, ((member k).mpr rfl).1, ?_⟩
  ext i inside
  rw [← BitVec.getLsbD_eq_getElem, ← BitVec.getLsbD_eq_getElem,
    BitVec.getLsbD_twoPow, Bool.eq_iff_iff]
  simp only [Bool.and_eq_true, decide_eq_true_eq]
  constructor
  · intro on
    have same := (member i).mp ⟨inside, on⟩
    exact ⟨same ▸ inside, same.symm⟩
  · rintro ⟨-, rfl⟩
    exact ((member k).mpr rfl).2

theorem fitsExactShift_sound (left : a.Contains x) (right : b.Contains y)
    (small : y.toNat < w) (safe : fitsExactShift a b w = true) : 2 ^ y.toNat ∣ x.toNat := by
  unfold fitsExactShift at safe
  split at safe
  next known _ hi bits unsigned =>
    have amount : y.toNat ≤ hi.toNat := (right.unsigned unsigned).2
    dsimp only at safe
    split at safe
    next none =>
      obtain zero : y.toNat = 0 := by omega
      rw [zero, Nat.pow_zero]
      exact Nat.one_dvd _
    next =>
      split at safe
      next => cases safe
      next =>
        rw [decide_eq_true_eq] at safe
        exact two_pow_dvd_of_covers (left.bits bits) (by omega)
  next => cases safe

theorem log2_of_popcount (single : popcount x = 1) : x.toNat = 2 ^ (activeBits x - 1) := by
  obtain ⟨k, inside, rfl⟩ := eq_twoPow_of_popcount single
  have value := BitVec.toNat_twoPow_of_lt inside
  have nonzero : BitVec.twoPow w k ≠ 0#w := by
    intro zero
    have same := congrArg BitVec.toNat zero
    rw [value, BitVec.toNat_zero] at same
    exact (Nat.two_pow_pos k).ne' same
  rw [activeBits, if_neg nonzero, value, Nat.log2_two_pow]
  rfl

/-- The divisor is a power of two up to its sign, which divides the
dividend. -/
theorem fitsExactDivision_sound {signed : Bool}
    (left : a.Contains x) (right : b.Contains y) (safe : fitsExactDivision signed a b = true) :
    ∃ k ≤ w, 2 ^ k ∣ x.toNat ∧ (if signed && y.msb then 0#w - y else y).toNat = 2 ^ k := by
  unfold fitsExactDivision at safe
  split at safe
  next known divisor bits bits' =>
    split at safe
    next => cases safe
    next constant =>
      have same : y = divisor.one :=
        eq_one_of_isConstantBits (right.bits bits') (by simpa using constant)
      dsimp only at safe
      rw [← same] at safe
      split at safe
      next => cases safe
      next =>
        generalize (if signed && y.msb then 0#w - y else y) = absC at safe ⊢
        split at safe
        next => cases safe
        next single =>
          rw [decide_eq_true_eq] at safe
          refine ⟨_, ?_, two_pow_dvd_of_covers (left.bits bits) safe,
            log2_of_popcount (not_not.mp single)⟩
          exact (Nat.sub_le _ _).trans (activeBits_le _)
  next => cases safe

end

/-- No operation on widened end points wraps. -/
def WideExact (w : Nat) : Prop :=
  ∀ p q : BitVec w,
    let wide := max w (2 * w + 4)
    (p.signExtend wide + q.signExtend wide).toInt = p.toInt + q.toInt ∧
    (p.signExtend wide - q.signExtend wide).toInt = p.toInt - q.toInt ∧
    (p.signExtend wide * q.signExtend wide).toInt = p.toInt * q.toInt ∧
    (p.setWidth wide + q.setWidth wide).toNat = p.toNat + q.toNat ∧
    (q.toNat ≤ p.toNat → (p.setWidth wide - q.setWidth wide).toNat = p.toNat - q.toNat) ∧
    (p.setWidth wide * q.setWidth wide).toNat = p.toNat * q.toNat

theorem wideExact (w : Nat) : WideExact w := by
  intro p q
  have room : w < max w (2 * w + 4) := by omega
  have double : w + w ≤ max w (2 * w + 4) := by omega
  exact ⟨toInt_signExtend_add room p q, toInt_signExtend_sub room p q,
    toInt_signExtend_mul double p q, toNat_setWidth_add room p q,
    toNat_setWidth_sub room.le, toNat_setWidth_mul double p q⟩

theorem mul_monotone_or_antitone (n : Int) : Monotone (n * ·) ∨ Antitone (n * ·) := by
  rcases Int.le_total 0 n with nonneg | nonpos
  · exact .inl fun _ _ below => Int.mul_le_mul_of_nonneg_left below nonneg
  · exact .inr fun _ _ below => Int.mul_le_mul_of_nonpos_left nonpos below

section

variable {a b : KnownRange w} {x y : BitVec w}

private theorem wide_room (w : Nat) : w < max w (2 * w + 4) := by
  omega

private theorem wide_grown (w : Nat) : 2 ^ (w + w) * 16 ≤ 2 ^ max w (2 * w + 4) := by
  rw [← Nat.pow_add 2 (w + w) 4]
  exact Nat.pow_le_pow_right (by decide) (by omega)

section

variable (left : a.Contains x) (right : b.Contains y)

include left right

theorem addNSW_sound (safe : canProveSafe .addNSW a b w = true) : FitsS w (x.toInt + y.toInt) := by
  have fits : fitsSigned (fun x y => x + y) a b w = true := safe
  refine fitsSigned_sound (f := fun n m => n + m)
    (fun p q => (wideExact w p q).1) (fun n => .inl ?_) (fun n => .inl ?_)
    left right fits
  · intro m m' below
    exact Int.add_le_add_right below n
  · intro m m' below
    exact Int.add_le_add_left below n

theorem subNSW_sound (safe : canProveSafe .subNSW a b w = true) : FitsS w (x.toInt - y.toInt) := by
  have fits : fitsSigned (fun x y => x - y) a b w = true := safe
  refine fitsSigned_sound (f := fun n m => n - m)
    (fun p q => (wideExact w p q).2.1) (fun n => .inl ?_) (fun n => .inr ?_)
    left right fits
  · intro m m' below
    exact Int.sub_le_sub_right below n
  · intro m m' below
    exact Int.sub_le_sub_left below n

theorem mulNSW_sound (safe : canProveSafe .mulNSW a b w = true) : FitsS w (x.toInt * y.toInt) := by
  have fits : fitsSigned (fun x y => x * y) a b w = true := safe
  refine fitsSigned_sound (f := fun n m => n * m) (fun p q => (wideExact w p q).2.2.1) (fun n => ?_)
    mul_monotone_or_antitone left right fits
  simpa only [Int.mul_comm _ n] using mul_monotone_or_antitone n

theorem addNUW_sound (safe : canProveSafe .addNUW a b w = true) : x.toNat + y.toNat < 2 ^ w := by
  have fits : fitsUnsigned (fun x y => some (x.1 + y.1, x.2 + y.2)) a b w =
    true := safe
  refine fitsUnsigned_sound left right fits ?_
  rintro al ah bl bh bounds ⟨-, below⟩ ⟨-, below'⟩ ⟨⟩ fits
  have sum : (ah.setWidth _ + bh.setWidth _).toNat = ah.toNat + bh.toNat :=
    (wideExact w ah bh).2.2.2.1
  have first := ah.isLt
  have second := bh.isLt
  have square : 2 ^ w ≤ 2 ^ (w + w) :=
    Nat.pow_le_pow_right (by decide) (by omega)
  have large := wide_grown w
  have upper := lt_of_fitsUnsignedRange fits (wide_room w) (by rw [sum]; omega)
  rw [sum] at upper
  omega

theorem subNUW_sound (safe : canProveSafe .subNUW a b w = true) : y.toNat ≤ x.toNat := by
  have fits : fitsUnsigned (fun x y => if x.1.ult y.2 then none
    else some (x.1 - y.2, x.2 - y.1)) a b w = true := safe
  refine fitsUnsigned_sound left right fits ?_
  rintro al ah bl bh bounds ⟨above, -⟩ ⟨-, below⟩ computed -
  dsimp only at computed
  split at computed
  next => cases computed
  next ordered =>
    rw [BitVec.ult_iff_toNat_lt, BitVec.toNat_setWidth_of_le (wide_room w).le,
      BitVec.toNat_setWidth_of_le (wide_room w).le] at ordered
    omega

theorem mulNUW_sound (safe : canProveSafe .mulNUW a b w = true) : x.toNat * y.toNat < 2 ^ w := by
  have fits : fitsUnsigned (fun x y => some (x.1 * y.1, x.2 * y.2)) a b w =
    true := safe
  refine fitsUnsigned_sound left right fits ?_
  rintro al ah bl bh bounds ⟨-, below⟩ ⟨-, below'⟩ ⟨⟩ fits
  have product : (ah.setWidth _ * bh.setWidth _).toNat = ah.toNat * bh.toNat :=
    (wideExact w ah bh).2.2.2.2.2
  have small := toNat_mul_lt ah bh
  have large := wide_grown w
  have upper := lt_of_fitsUnsignedRange fits (wide_room w) (by rw [product]; omega)
  rw [product] at upper
  exact (Nat.mul_le_mul below below').trans_lt upper

end

theorem zextNNeg_sound (left : a.Contains x) {resultBw : Nat}
    (safe : canProveSafe .zextNNeg a b resultBw = true) : 0 ≤ x.toInt := by
  have nonneg : (a.s.any fun bounds => !bounds.1.msb) = true := safe
  rw [Option.any_eq_true] at nonneg
  obtain ⟨⟨lo, hi⟩, signed, sign⟩ := nonneg
  have least : 0 ≤ lo.toInt :=
    BitVec.toInt_nonneg_of_msb_false (by simpa using sign)
  exact least.trans (left.signed signed).1

theorem orDisjoint_sound (left : a.Contains x) (right : b.Contains y)
    (safe : canProveSafe .orDisjoint a b w = true) (i : Nat) :
    ¬(x.getLsbD i = true ∧ y.getLsbD i = true) := by
  unfold canProveSafe at safe
  dsimp only at safe
  split at safe
  next first second bits bits' =>
    rintro ⟨on, on'⟩
    have inside := BitVec.lt_of_getLsbD on
    have covered := congrArg (fun z => z.getLsbD i) (beq_iff_eq.mp safe)
    simp only [BitVec.getLsbD_or, BitVec.getLsbD_allOnes, inside,
      decide_true, Bool.or_eq_true] at covered
    have off := (KnownBits.covers_iff.mp (left.bits bits) i inside).1
    have off' := (KnownBits.covers_iff.mp (right.bits bits') i inside).1
    rcases covered with zero | zero
    · rw [off zero] at on
      cases on
    · rw [off' zero] at on'
      cases on'
  next => cases safe

theorem toInt_of_abs_eq_twoPow {k : Nat} (value : (if y.msb then 0#w - y else y).toNat = 2 ^ k) :
    y.toInt = 2 ^ k ∨ y.toInt = -2 ^ k := by
  cases sign : y.msb with
  | false =>
    rw [sign, if_neg (by decide)] at value
    rw [BitVec.toInt_eq_toNat_of_msb sign, value]
    push_cast
    exact .inl rfl
  | true =>
    have negative := BitVec.msb_eq_true_iff_two_mul_ge.mp sign
    have size := y.isLt
    rw [sign, if_pos rfl, BitVec.toNat_sub, BitVec.toNat_zero, Nat.mod_eq_of_lt (by omega)] at value
    refine .inr ?_
    rw [BitVec.toInt_eq_toNat_cond, if_neg (by omega)]
    have cast : ((2 ^ w : Nat) : Int) - y.toNat = ((2 ^ k : Nat) : Int) := by
      omega
    push_cast at cast ⊢
    omega

variable (left : a.Contains x) (right : b.Contains y)

include left right

theorem sdivExact_sound (safe : canProveSafe .sdivExact a b w = true) : y.toInt ∣ x.toInt := by
  obtain ⟨k, small, divides, value⟩ := fitsExactDivision_sound left right safe
  have power := two_pow_dvd_toInt small divides
  rw [Bool.true_and] at value
  rcases toInt_of_abs_eq_twoPow value with positive | negative
  · rw [positive]
    exact power
  · rw [negative, Int.neg_dvd]
    exact power

theorem udivExact_sound (safe : canProveSafe .udivExact a b w = true) : y.toNat ∣ x.toNat := by
  obtain ⟨k, -, divides, value⟩ := fitsExactDivision_sound left right safe
  rw [Bool.false_and] at value
  exact value ▸ divides

theorem not_violated_of_canProveSafe {kind : FlagKind} (defined : kind.Defined x y) {resultBw : Nat}
    (width : kind ≠ .zextNNeg → resultBw = w) (safe : canProveSafe kind a b resultBw = true) :
    ¬kind.Violated x y := by
  cases kind
  case zextNNeg => exact Int.not_lt.mpr (zextNNeg_sound left safe)
  all_goals
    obtain rfl := width (by decide)
  case addNSW => exact not_not.mpr (addNSW_sound left right safe)
  case addNUW => exact Nat.not_le.mpr (addNUW_sound left right safe)
  case subNSW => exact not_not.mpr (subNSW_sound left right safe)
  case subNUW => exact Nat.not_lt.mpr (subNUW_sound left right safe)
  case mulNSW => exact not_not.mpr (mulNSW_sound left right safe)
  case mulNUW => exact Nat.not_le.mpr (mulNUW_sound left right safe)
  case shlNSW => exact not_not.mpr (fitsShlNSW_sound left right safe)
  case shlNUW => exact Nat.not_le.mpr (fitsShlNUW_sound left right safe)
  case orDisjoint => exact not_exists.mpr (orDisjoint_sound left right safe)
  case lshrExact =>
    exact not_not.mpr (fitsExactShift_sound left right defined safe)
  case ashrExact =>
    have small : y.toNat < resultBw := defined
    exact not_not.mpr (two_pow_dvd_toInt small.le (fitsExactShift_sound left right small safe))
  case udivExact => exact not_not.mpr (udivExact_sound left right safe)
  case sdivExact => exact not_not.mpr (sdivExact_sound left right safe)

end

/-- A fit test that passes rules the violation out: on operands in the ranges
the instruction with the flag is not poison, and the test itself computes with
no overflow. -/
theorem canProveSafe_sound (kind : FlagKind) (widens : w < v)
    {p q : Operand Reg w} {env : Env Reg} {x y : BitVec w}
    (first : p.content env = .single (some x)) (second : q.content env = .single (some y))
    (defined : kind.Defined x y) {a b : KnownRange w} (left : a.Contains x) (right : b.Contains y)
    (safe : canProveSafe kind a b (kind.flagged widens p q).1 = true) :
    ¬kind.Violated x y ∧ NotPoison env (kind.flagged widens p q) ∧
      WideExact w := by
  have width : kind ≠ .zextNNeg → (kind.flagged widens p q).1 = w := by
    intro binary
    cases kind <;> first | rfl | exact absurd rfl binary
  have kept := not_violated_of_canProveSafe left right defined width safe
  exact ⟨kept, (kind.notPoison_iff widens first second defined).mpr kept, wideExact w⟩

theorem canProveSafe_sound_product :
    NotPoison (fun _ _ => .single none)
      (FlagKind.mulNSW.flagged (by decide : 8 < 9) (.const (-8#8))
        (.const 15#8)) := by
  have left : KnownRange.Contains { s := some (-8#8, 7#8) } (-8#8) :=
    ⟨nofun, by rintro _ _ ⟨⟩; decide, nofun⟩
  have right : KnownRange.Contains { s := some (0#8, 15#8) } 15#8 :=
    ⟨nofun, by rintro _ _ ⟨⟩; decide, nofun⟩
  exact (canProveSafe_sound .mulNSW (by decide) (x := -8#8) (y := 15#8) rfl rfl
    trivial left right (by decide)).2.1

end AliveNext.TvNext
