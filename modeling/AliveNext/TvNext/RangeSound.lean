import AliveNext.Lib.Fallible
import AliveNext.TvNext.Range

/-!
# Soundness of the ranges on the bitwise fragment

Every fact that `computeRanges` records for a value of the bitwise, division,
cast and select fragment holds of every integer the value can be.  The three
domains are carried through one predicate, `KnownRange.Contains`: the helpers
keep it, each transfer function produces it from the facts of its operands,
and the loop keeps it for the whole map.
-/

namespace AliveNext.TvNext

open AliveNext.Lib
open AliveNext.LLVM

/-- What the documentation of `llvm::KnownBits` and `llvm::ConstantRange`
promises about the operators that the fragment uses: the result of an operator
covers the results of the values that the operands cover. -/
structure BitOperators.Sound (llvm : BitOperators) : Prop where
  intersectWith_left : ∀ {w : Nat} {a b : KnownBits w} {x : BitVec w},
    a.Covers x → (llvm.intersectWith a b).Covers x
  intersectWith_right : ∀ {w : Nat} {a b : KnownBits w} {x : BitVec w},
    b.Covers x → (llvm.intersectWith a b).Covers x
  and : ∀ {w : Nat} {a b : KnownBits w} {x y : BitVec w},
    a.Covers x → b.Covers y → (llvm.and a b).Covers (x &&& y)
  or : ∀ {w : Nat} {a b : KnownBits w} {x y : BitVec w},
    a.Covers x → b.Covers y → (llvm.or a b).Covers (x ||| y)
  xor : ∀ {w : Nat} {a b : KnownBits w} {x y : BitVec w},
    a.Covers x → b.Covers y → (llvm.xor a b).Covers (x ^^^ y)
  urem : ∀ {w : Nat} {a b : KnownBits w} {x y : BitVec w},
    a.Covers x → b.Covers y → y ≠ 0#w → (llvm.urem a b).Covers (x % y)
  udiv : ∀ {w : Nat} {a b : KnownBits w} {x y : BitVec w},
    a.Covers x → b.Covers y → y ≠ 0#w → (llvm.udiv a b).Covers (x / y)
  lshr : ∀ {w : Nat} {a b : KnownBits w} {x y : BitVec w}, a.Covers x → b.Covers y → y.toNat < w →
      (llvm.lshr a b).Covers (x >>> y)
  zext : ∀ {v w : Nat} {a : KnownBits v} {x : BitVec v},
    v < w → a.Covers x → (llvm.zext w a).Covers (x.setWidth w)
  sext : ∀ {v w : Nat} {a : KnownBits v} {x : BitVec v},
    v < w → a.Covers x → (llvm.sext w a).Covers (x.signExtend w)
  trunc : ∀ {v w : Nat} {a : KnownBits v} {x : BitVec v},
    w < v → a.Covers x → (llvm.trunc w a).Covers (x.setWidth w)
  toKnownBits : ∀ {w : Nat} {range : ConstantRange w} {x : BitVec w},
    range.contains x = true → (llvm.toKnownBits range).Covers x
  toKnownBits_empty : ∀ {w : Nat} {range : ConstantRange w},
    range.isEmptySet = true → llvm.toKnownBits range = .unknown w

/-! ## Facts that hold of a value -/

/-- Every fact of a range holds of `x`. -/
structure KnownRange.Contains {w : Nat} (r : KnownRange w) (x : BitVec w) : Prop where
  unsigned : ∀ {lo hi : BitVec w}, r.u = some (lo, hi) → BetweenU lo hi x
  signed : ∀ {lo hi : BitVec w}, r.s = some (lo, hi) → BetweenS lo hi x
  bits : ∀ {known : KnownBits w}, r.bits = some known → known.Covers x

/-- The value lies in the intervals of a range. -/
structure KnownRange.Bounds {w : Nat} (r : KnownRange w) (x : BitVec w) : Prop where
  unsigned : ∀ {lo hi : BitVec w}, r.u = some (lo, hi) → BetweenU lo hi x
  signed : ∀ {lo hi : BitVec w}, r.s = some (lo, hi) → BetweenS lo hi x

/-- Every fact looked up about an operand holds of `x`. -/
structure OperandFacts.Contains {w : Nat} (facts : OperandFacts w) (x : BitVec w) : Prop where
  range : ∀ {r : KnownRange w}, facts.range = some r → r.Contains x
  known : facts.known.Covers x

/-- The value lies in the intervals looked up for an operand. -/
structure OperandFacts.Bounds {w : Nat} (facts : OperandFacts w) (x : BitVec w) : Prop where
  unsigned : ∀ {lo hi : BitVec w}, facts.u = some (lo, hi) → BetweenU lo hi x
  signed : ∀ {lo hi : BitVec w}, facts.s = some (lo, hi) → BetweenS lo hi x

/-- Every entry of a value that is not computed `later` holds of every integer
that the value can be. -/
def RangeMap.Sound (map : RangeMap) (later : List (Nat × Reg)) (env : Env Reg) : Prop :=
  ∀ ⦃w : Nat⦄ ⦃operand : Operand Reg w⦄ ⦃r : KnownRange w⦄,
    (∀ use ∈ operand.regs, use ∉ later) → map w operand = some r → ∀ ⦃x : BitVec w⦄,
        some x ∈ (operand.content env).samples → r.Contains x

section

variable {w : Nat} {map : RangeMap} {later : List (Nat × Reg)}
  {env : Env Reg} {operand : Operand Reg w} {x : BitVec w}

theorem constantRange_contains (x : BitVec w) : (constantRange x).Contains x where
  unsigned := by
    rintro lo hi ⟨⟩
    exact .self x
  signed := by
    rintro lo hi ⟨⟩
    exact .self x
  bits := by
    rintro known ⟨⟩
    exact KnownBits.makeConstant_covers x

section

variable (sound : map.Sound later env) (computed : ∀ use ∈ operand.regs, use ∉ later)
    (observed : some x ∈ (operand.content env).samples)

include sound computed observed

theorem rangeOf_contains {r : KnownRange w}
    (found : rangeOf map operand = some r) : r.Contains x := by
  unfold rangeOf at found
  split at found
  next entry recorded =>
    obtain rfl := Option.some.inj found
    exact sound computed recorded observed
  next =>
    cases operand with
    | const value =>
      obtain rfl := Option.some.inj found
      obtain rfl : x = value := Option.some.inj observed
      exact constantRange_contains x
    | undef => cases found
    | poison => cases found
    | reg r => cases found

theorem knownBitsOf_covers : (knownBitsOf map operand).Covers x := by
  unfold knownBitsOf
  split
  next value =>
    obtain rfl : x = value := Option.some.inj observed
    exact KnownBits.makeConstant_covers x
  next =>
    cases recorded : map w operand with
    | none => simp
    | some entry =>
      cases bits : entry.bits with
      | none => simp [bits]
      | some known =>
        simpa [bits] using (sound computed recorded observed).bits bits

theorem factsOf_contains : (factsOf map operand).Contains x where
  range := rangeOf_contains sound computed observed
  known := knownBitsOf_covers sound computed observed

end

variable {facts : OperandFacts w} {lo hi : BitVec w}

theorem OperandFacts.Contains.unsigned (holds : facts.Contains x)
    (bounds : facts.u = some (lo, hi)) : BetweenU lo hi x := by
  obtain ⟨r, recorded, bounds⟩ := Option.bind_eq_some_iff.mp bounds
  exact (holds.range recorded).unsigned bounds

theorem OperandFacts.Contains.signed (holds : facts.Contains x)
    (bounds : facts.s = some (lo, hi)) : BetweenS lo hi x := by
  obtain ⟨r, recorded, bounds⟩ := Option.bind_eq_some_iff.mp bounds
  exact (holds.range recorded).signed bounds

theorem OperandFacts.Contains.bounds (holds : facts.Contains x) : facts.Bounds x :=
  ⟨holds.unsigned, holds.signed⟩

end

section

variable {w : Nat} {llvm : BitOperators} {r r' : KnownRange w}
  {acc acc' : KnownBits w} {x : BitVec w}

theorem KnownRange.Contains.bounds (holds : r.Contains x) : r.Bounds x :=
  ⟨holds.unsigned, holds.signed⟩

theorem crossDerive_bounds : (crossDerive r).Bounds x ↔ r.Bounds x := by
  obtain ⟨u, s, bits, undefFree, poisonFree⟩ := r
  cases u with
  | none =>
    cases s with
    | none => exact Iff.rfl
    | some bounds =>
      cases sign : bounds.1.msb with
      | true => simp [crossDerive, sign]
      | false =>
        simp only [crossDerive, sign, Bool.not_false, if_true]
        constructor
        · intro holds
          exact ⟨nofun, holds.signed⟩
        · intro holds
          refine ⟨?_, holds.signed⟩
          rintro lo hi ⟨⟩
          exact (holds.signed rfl).toU sign
  | some bounds =>
    cases s with
    | some other => exact Iff.rfl
    | none =>
      cases sign : bounds.2.msb with
      | true => simp [crossDerive, sign]
      | false =>
        simp only [crossDerive, sign, Bool.not_false, if_true]
        constructor
        · intro holds
          exact ⟨holds.unsigned, nofun⟩
        · intro holds
          refine ⟨holds.unsigned, ?_⟩
          rintro lo hi ⟨⟩
          exact (holds.unsigned rfl).toS sign

theorem crossDerive_eq : ∃ u s, crossDerive r = { r with u := u, s := s } := by
  obtain ⟨u, s, bits, undefFree, poisonFree⟩ := r
  cases u with
  | none =>
    cases s with
    | none => exact ⟨none, none, rfl⟩
    | some bounds =>
      cases sign : bounds.1.msb <;> simp [crossDerive, sign]
  | some bounds =>
    cases s with
    | some other => exact ⟨some bounds, some other, rfl⟩
    | none =>
      cases sign : bounds.2.msb <;> simp [crossDerive, sign]

theorem crossDerive_contains (holds : r.Contains x) : (crossDerive r).Contains x := by
  have bounds := crossDerive_bounds.mpr holds.bounds
  obtain ⟨u, s, derived⟩ := crossDerive_eq (r := r)
  refine ⟨bounds.unsigned, bounds.signed, ?_⟩
  rw [derived]
  exact holds.bits

theorem addRange_covers (sound : llvm.Sound) {range : ConstantRange w} (covered : acc.Covers x)
    (member : range.lower ≠ range.upper → range.contains x = true)
    (added : addRange llvm acc range = .ok acc') : acc'.Covers x := by
  unfold addRange at added
  split at added
  next valid =>
    obtain rfl := Except.ok.inj added
    refine covered.unionWith ?_
    by_cases same : range.lower = range.upper
    · have edge : range.lower = BitVec.allOnes w ∨ range.lower = 0#w := by
        simpa [ConstantRange.valid, same] using valid
      rcases edge with full | empty
      · apply sound.toKnownBits
        simp [ConstantRange.contains, ConstantRange.isFullSet, ← same, full]
      · rw [sound.toKnownBits_empty]
        · exact KnownBits.unknown_covers x
        · simp [ConstantRange.isEmptySet, ← same, empty]
    · exact sound.toKnownBits (member same)
  next => cases added

theorem addUnsigned_covers (sound : llvm.Sound) (holds : r.Contains x) (covered : acc.Covers x)
    (added : addUnsigned llvm r.u acc = .ok acc') : acc'.Covers x := by
  unfold addUnsigned at added
  split at added
  next lo hi bounds =>
    split at added
    next =>
      exact addRange_covers sound covered
        (fun proper => (holds.unsigned bounds).contains proper) added
    next =>
      obtain rfl := Except.ok.inj added
      exact covered
  next =>
    obtain rfl := Except.ok.inj added
    exact covered

theorem addSigned_covers (sound : llvm.Sound) (holds : r.Contains x) (covered : acc.Covers x)
    (added : addSigned llvm r.s acc = .ok acc') : acc'.Covers x := by
  unfold addSigned at added
  split at added
  next lo hi bounds =>
    split at added
    next ordered =>
      rw [Bool.and_eq_true, BitVec.ule_iff_toNat_le] at ordered
      refine addRange_covers sound covered (fun proper => ?_) added
      have strict : lo.toNat < (hi + 1#w).toNat :=
        Nat.lt_of_le_of_ne ordered.2 fun same => proper (BitVec.eq_of_toNat_eq same)
      exact ((holds.signed bounds).toU_of_ult strict).contains proper
    next =>
      obtain rfl := Except.ok.inj added
      exact covered
  next =>
    obtain rfl := Except.ok.inj added
    exact covered

theorem deriveBitsFromIntervals_cases (derived : deriveBitsFromIntervals llvm r = .ok r') :
    r' = r ∨ ∃ acc acc', addUnsigned llvm r.u (r.bits.getD (.unknown w)) = .ok acc ∧
      addSigned llvm r.s acc = .ok acc' ∧ r' = { r with bits := some acc' } := by
  unfold deriveBitsFromIntervals at derived
  split at derived
  next => exact .inl (Except.ok.inj derived).symm
  next =>
    obtain ⟨acc, first, derived⟩ := bind_eq_ok.mp derived
    obtain ⟨acc', second, derived⟩ := bind_eq_ok.mp derived
    have same := Except.ok.inj derived
    split at same
    next => exact .inl same.symm
    next => exact .inr ⟨acc, acc', first, second, same.symm⟩

theorem deriveBitsFromIntervals_contains (sound : llvm.Sound) (holds : r.Contains x)
    (derived : deriveBitsFromIntervals llvm r = .ok r') : r'.Contains x := by
  have start : (r.bits.getD (.unknown w)).Covers x := by
    cases bits : r.bits with
    | none => exact KnownBits.unknown_covers x
    | some known => exact holds.bits bits
  rcases deriveBitsFromIntervals_cases derived with
    rfl | ⟨acc, acc', first, second, rfl⟩
  · exact holds
  · refine ⟨holds.unsigned, holds.signed, ?_⟩
    rintro known ⟨⟩
    exact addSigned_covers sound holds (addUnsigned_covers sound holds start first) second

private theorem map_some_eq_ok {α : Type} {attempt : Except AssertionFailure α} {result : α}
    (finished : attempt.map some = .ok (some result)) : attempt = .ok result := by
  cases attempt with
  | error failure => cases finished
  | ok other =>
    obtain rfl := Option.some.inj (Except.ok.inj finished)
    rfl

theorem derived_contains (sound : llvm.Sound) (holds : r.Contains x)
    (derived : (deriveBitsFromIntervals llvm r).map some = .ok (some r')) : r'.Contains x :=
  deriveBitsFromIntervals_contains sound holds (map_some_eq_ok derived)

theorem derived_eq (derived : (deriveBitsFromIntervals llvm r).map some = .ok (some r')) :
    ∃ bits, r' = { r with bits := bits } := by
  rcases deriveBitsFromIntervals_cases (map_some_eq_ok derived) with
    rfl | ⟨-, acc', -, -, rfl⟩
  · exact ⟨_, rfl⟩
  · exact ⟨_, rfl⟩

theorem conclude_contains (sound : llvm.Sound) (holds : r.Contains x)
    (concluded : conclude llvm r = .ok (some r')) : r'.Contains x :=
  derived_contains sound (crossDerive_contains holds) concluded

theorem conclude_bounds (concluded : conclude llvm r = .ok (some r')) :
    r'.Bounds x ↔ r.Bounds x := by
  obtain ⟨bits, rfl⟩ := derived_eq concluded
  refine Iff.trans ?_ crossDerive_bounds
  exact ⟨fun holds => ⟨holds.unsigned, holds.signed⟩, fun holds => ⟨holds.unsigned, holds.signed⟩⟩

theorem conclude_flags (concluded : conclude llvm r = .ok (some r')) :
    r'.undefFree = r.undefFree ∧ r'.poisonFree = r.poisonFree := by
  obtain ⟨bits, rfl⟩ := derived_eq concluded
  obtain ⟨u, s, derived⟩ := crossDerive_eq (r := r)
  rw [derived]
  exact ⟨rfl, rfl⟩

end

section

variable {v w : Nat} {llvm : BitOperators} {l r : OperandFacts w}
  {result : KnownRange w} {x y : BitVec w}

theorem not_skipped {skip : Bool} {ranged : Option (KnownRange w)}
    {rest : Except AssertionFailure (Option (KnownRange w))}
    (transferred : (if skip then .ok none else rest) = .ok ranged)
    (recorded : ranged.isSome = true) : rest = .ok ranged := by
  cases skip with
  | false => simpa using transferred
  | true =>
    obtain rfl : none = ranged := by simpa using transferred
    cases recorded

variable {lo hi : BitVec w} {constant : Option Nat} {a : OperandFacts v}

theorem tryConst_between {bounds : Option (BitVec w × BitVec w)}
    (holds : ∀ {lo hi : BitVec w}, bounds = some (lo, hi) → BetweenU lo hi y)
    (below : x.toNat ≤ y.toNat) (tried : tryConst bounds = some (lo, hi)) : BetweenU lo hi x := by
  unfold tryConst at tried
  split at tried
  next lo' hi' =>
    split at tried
    next =>
      cases tried
      exact ⟨by simp, below.trans (holds rfl).2⟩
    next => cases tried
  next => cases tried

theorem smallerBound_between {l r : Option (BitVec w × BitVec w)}
    (first : ∀ {lo hi : BitVec w}, l = some (lo, hi) → x.toNat ≤ hi.toNat)
    (second : ∀ {lo hi : BitVec w}, r = some (lo, hi) → x.toNat ≤ hi.toNat)
    (bounds : smallerBound l r = some (lo, hi)) : BetweenU lo hi x := by
  unfold smallerBound at bounds
  split at bounds
  next =>
    cases bounds
    refine ⟨by simp, ?_⟩
    split
    next => exact first rfl
    next => exact second rfl
  next => cases bounds

theorem transferAnd_contains (sound : llvm.Sound) (first : l.Contains x) (second : r.Contains y)
    (transferred : transferAnd llvm l r = .ok (some result)) : result.Contains (x &&& y) := by
  refine conclude_contains sound ?_ (not_skipped transferred rfl)
  refine ⟨?_, nofun, ?_⟩
  · intro lo hi bounds
    have left := toNat_and_le_left x y
    have right := toNat_and_le_right x y
    rcases Option.or_eq_some_iff.mp bounds with bounds | ⟨-, bounds⟩
    · exact tryConst_between second.unsigned right bounds
    · rcases Option.or_eq_some_iff.mp bounds with bounds | ⟨-, bounds⟩
      · exact tryConst_between first.unsigned left bounds
      · exact smallerBound_between (fun known => left.trans (first.unsigned known).2)
          (fun known => right.trans (second.unsigned known).2) bounds
  · rintro known ⟨⟩
    exact sound.and first.known second.known

theorem orBounds_between {l r : Option (BitVec w × BitVec w)}
    (first : ∀ {lo hi : BitVec w}, l = some (lo, hi) → BetweenU lo hi x)
    (second : ∀ {lo hi : BitVec w}, r = some (lo, hi) → BetweenU lo hi y)
    (bounds : orBounds l r = some (lo, hi)) : BetweenU lo hi (x ||| y) := by
  unfold orBounds at bounds
  split at bounds
  next lo₁ hi₁ lo₂ hi₂ =>
    cases bounds
    obtain ⟨below, above⟩ := first rfl
    obtain ⟨below', above'⟩ := second rfl
    have left : x.toNat < 2 ^ max (activeBits hi₁) (activeBits hi₂) :=
      (above.trans_lt (toNat_lt_two_pow_activeBits hi₁)).trans_le
        (Nat.pow_le_pow_right (by decide) (Nat.le_max_left _ _))
    have right : y.toNat < 2 ^ max (activeBits hi₁) (activeBits hi₂) :=
      (above'.trans_lt (toNat_lt_two_pow_activeBits hi₂)).trans_le
        (Nat.pow_le_pow_right (by decide) (Nat.le_max_right _ _))
    constructor
    · split
      next => exact below.trans (toNat_le_or_left x y)
      next => exact below'.trans (toNat_le_or_right x y)
    · split
      next zero =>
        rw [zero, pow_zero, Nat.lt_one_iff] at left right
        simp [left, right]
      next =>
        exact toNat_or_le_lowBitsSet
          (Nat.max_le.mpr ⟨activeBits_le hi₁, activeBits_le hi₂⟩) left right
  next => cases bounds

theorem transferOr_contains (sound : llvm.Sound) (first : l.Contains x) (second : r.Contains y)
    (transferred : transferOr llvm l r = .ok (some result)) : result.Contains (x ||| y) := by
  refine conclude_contains sound ?_ (not_skipped transferred rfl)
  refine ⟨?_, nofun, ?_⟩
  · exact orBounds_between first.unsigned second.unsigned
  · rintro known ⟨⟩
    exact sound.or first.known second.known

theorem transferXor_contains (sound : llvm.Sound) (first : l.Contains x) (second : r.Contains y)
    (transferred : transferXor llvm l r = .ok (some result)) : result.Contains (x ^^^ y) := by
  refine derived_contains sound ?_ (not_skipped transferred rfl)
  refine ⟨nofun, nofun, ?_⟩
  rintro known ⟨⟩
  exact sound.xor first.known second.known

theorem remainder_between (divisor : BetweenU lo hi y) (nonzero : y ≠ 0#w) :
    BetweenU 0#w (hi - 1#w) (x % y) := by
  obtain ⟨-, below⟩ := divisor
  have positive : 0 < y.toNat := Nat.pos_of_ne_zero fun zero =>
    nonzero (BitVec.eq_of_toNat_eq (by simpa using zero))
  have size := hi.isLt
  have one : (1#w).toNat = 1 := by
    rw [BitVec.toNat_ofNat]
    exact Nat.mod_eq_of_lt (by omega)
  have predecessor : (hi - 1#w).toNat = hi.toNat - 1 := by
    rw [BitVec.toNat_sub_of_le (by rw [BitVec.le_def]; omega), one]
  refine ⟨by simp, ?_⟩
  have remainder := Nat.mod_lt x.toNat positive
  rw [predecessor, BitVec.toNat_umod]
  omega

theorem transferURem_contains (sound : llvm.Sound) (first : l.Contains x) (second : r.Contains y)
    (nonzero : y ≠ 0#w) (transferred : transferURem llvm l r = .ok (some result)) :
    result.Contains (x % y) := by
  unfold transferURem at transferred
  split at transferred
  next lo hi known =>
    split at transferred
    next => cases transferred
    next =>
      refine conclude_contains sound ?_ transferred
      refine ⟨?_, nofun, ?_⟩
      · rintro - - ⟨⟩
        exact remainder_between (second.unsigned known) nonzero
      · rintro known ⟨⟩
        exact sound.urem first.known second.known nonzero
  next => cases transferred

theorem transferUDiv_contains (sound : llvm.Sound) (first : l.Contains x) (second : r.Contains y)
    (nonzero : y ≠ 0#w) (transferred : transferUDiv llvm l r = .ok (some result)) :
    result.Contains (x / y) := by
  unfold transferUDiv at transferred
  split at transferred
  next lo' hi' lo hi known' known =>
    split at transferred
    next => cases transferred
    next positive =>
      have divisor : BetweenU lo' hi' y := second.unsigned known'
      have lower : lo'.toNat ≠ 0 := fun zero =>
        positive (BitVec.eq_of_toNat_eq (by simpa using zero))
      have upper : hi' ≠ 0#w := by
        rintro rfl
        have bound := divisor.1.trans divisor.2
        rw [BitVec.toNat_zero] at bound
        omega
      simp only [checkedUdiv, upper, positive, if_false, bind, Except.bind] at transferred
      refine conclude_contains sound ?_ transferred
      refine ⟨?_, nofun, ?_⟩
      · rintro - - ⟨⟩
        exact (first.unsigned known).udiv divisor lower
      · rintro known ⟨⟩
        exact sound.udiv first.known second.known nonzero
  next => cases transferred

theorem limitedAmount_of_lt {amount : BitVec w} (small : amount.toNat < 2 ^ 32) :
    limitedAmount amount = amount.toNat := by
  unfold limitedAmount
  omega

theorem shiftInRange_cases (amount : ∀ {value : Nat}, constant = some value → value = min y.toNat w)
    (inRange : (shiftInRange constant r).1 = true) :
    (y.toNat < w ∧ (shiftInRange constant r).2 = y.toNat) ∨
      ((shiftInRange constant r).2 = w ∧ ∃ lo hi, r.u = some (lo, hi) ∧ hi.toNat < w) := by
  unfold shiftInRange at inRange ⊢
  cases constant with
  | some value =>
    have capped : value = min y.toNat w := amount rfl
    have small : value < w := of_decide_eq_true inRange
    exact Or.inl ⟨by omega, by show value = _; omega⟩
  | none =>
    cases known : r.u with
    | none => simp [known] at inRange
    | some bounds =>
      simp only [known, decide_eq_true_eq] at inRange
      exact Or.inr ⟨rfl, bounds.1, bounds.2, rfl, inRange⟩

theorem shiftInRange_lt (holds : r.Contains y)
    (amount : ∀ {value : Nat}, constant = some value → value = min y.toNat w)
    (inRange : (shiftInRange constant r).1 = true) : y.toNat < w := by
  rcases shiftInRange_cases amount inRange with ⟨small, -⟩ | ⟨-, lo, hi, known, small⟩
  · exact small
  · exact (holds.unsigned known).2.trans_lt small

theorem lshrBounds_between (width : w ≤ 2 ^ 32) (first : l.Bounds x) (second : r.Bounds y)
    (amount : ∀ {value : Nat}, constant = some value → value = min y.toNat w)
    (inRange : (shiftInRange constant r).1 = true)
    (bounded : lshrBounds l.u r.u (shiftInRange constant r).2 = .ok (some (lo, hi))) :
    BetweenU lo hi (x >>> y) := by
  cases known : l.u with
  | none => simp [lshrBounds, known] at bounded
  | some bounds =>
    have shifted : BetweenU bounds.1 bounds.2 x := first.unsigned known
    rcases shiftInRange_cases amount inRange with
      ⟨small, same⟩ | ⟨same, lo', hi', known', small⟩
    · simp only [lshrBounds, known, same, small, if_true, Except.ok.injEq,
        Option.some.injEq, Prod.mk.injEq] at bounded
      obtain ⟨rfl, rfl⟩ := bounded
      exact shifted.ushiftRight (Nat.le_refl _) (Nat.le_refl _)
    · obtain ⟨below, above⟩ := second.unsigned known'
      have most : limitedAmount hi' = hi'.toNat :=
        limitedAmount_of_lt (by omega)
      have least : limitedAmount lo' = lo'.toNat :=
        limitedAmount_of_lt (by omega)
      have mostFits : hi'.toNat ≤ w := by omega
      have leastFits : lo'.toNat ≤ w := by omega
      simp only [lshrBounds, known, known', same, lt_irrefl, if_false,
        checkedAmount, most, least, mostFits, leastFits, if_true, bind,
        Except.bind, Except.ok.injEq, Option.some.injEq,
        Prod.mk.injEq] at bounded
      obtain ⟨rfl, rfl⟩ := bounded
      exact shifted.ushiftRight below above

theorem transferLShr_cases (transferred : transferLShr llvm l r constant = .ok (some result)) :
    (shiftInRange constant r).1 = true ∧
      ∃ u, lshrBounds l.u r.u (shiftInRange constant r).2 = .ok u ∧ conclude llvm
          { u := u
            bits := some (llvm.lshr l.known r.known)
            undefFree := l.undefFree && r.undefFree
            poisonFree := l.poisonFree && r.poisonFree } =
          .ok (some result) := by
  have inRange : (shiftInRange constant r).1 = true := by
    cases inRange : (shiftInRange constant r).1 with
    | false => simp [transferLShr, inRange] at transferred
    | true => rfl
  have rest := not_skipped transferred rfl
  obtain ⟨u, bounded, rest⟩ := bind_eq_ok.mp rest
  exact ⟨inRange, u, bounded, not_skipped rest rfl⟩

theorem transferLShr_contains (sound : llvm.Sound)
    (width : w ≤ 2 ^ 32) (first : l.Contains x) (second : r.Contains y)
    (amount : ∀ {value : Nat}, constant = some value → value = min y.toNat w)
    (transferred : transferLShr llvm l r constant = .ok (some result)) :
    result.Contains (x >>> y) := by
  obtain ⟨inRange, u, bounded, concluded⟩ := transferLShr_cases transferred
  refine conclude_contains sound ?_ concluded
  refine ⟨?_, nofun, ?_⟩
  · rintro lo hi rfl
    exact lshrBounds_between width first.bounds second.bounds amount inRange bounded
  · rintro known ⟨⟩
    exact sound.lshr first.known second.known (shiftInRange_lt second amount inRange)

theorem hull_between (P : BitVec w → BitVec w → Prop)
    {less : BitVec w → BitVec w → Bool} (strict : ∀ {a b : BitVec w}, less a b = true → P a b)
    (connex : ∀ {a b : BitVec w}, less a b = false → P b a)
    (trans : ∀ {a b c : BitVec w}, P a b → P b c → P a c)
    {first second : Option (BitVec w × BitVec w)} (member :
      (∀ {lo hi : BitVec w}, first = some (lo, hi) → P lo x ∧ P x hi) ∨
      (∀ {lo hi : BitVec w}, second = some (lo, hi) → P lo x ∧ P x hi))
    (bounds : hull less first second = some (lo, hi)) :
    P lo x ∧ P x hi := by
  unfold hull at bounds
  split at bounds
  next lo₁ hi₁ lo₂ hi₂ =>
    cases bounds
    rcases member with member | member
    · obtain ⟨below, above⟩ := member rfl
      constructor
      · split
        next => exact below
        next other => exact trans (connex (eq_false_of_ne_true other)) below
      · split
        next => exact above
        next other => exact trans above (connex (eq_false_of_ne_true other))
    · obtain ⟨below, above⟩ := member rfl
      constructor
      · split
        next other => exact trans (strict other) below
        next => exact below
      · split
        next other => exact trans above (strict other)
        next => exact above
  next => cases bounds

theorem transferSelect_contains (sound : llvm.Sound) {cond : OperandFacts 1}
    (holds : l.Contains x ∨ r.Contains x)
    (transferred : transferSelect llvm cond l r = .ok (some result)) : result.Contains x := by
  refine conclude_contains sound ?_ (not_skipped (not_skipped transferred rfl) rfl)
  refine ⟨?_, ?_, ?_⟩
  · refine hull_between (fun a b => a.toNat ≤ b.toNat)
      (fun less => ?_) (fun other => ?_) Nat.le_trans
      (holds.imp (fun member => member.unsigned) (fun member => member.unsigned))
    · exact (BitVec.ult_iff_toNat_lt.mp less).le
    · simpa [BitVec.ult] using other
  · refine hull_between (fun a b => a.toInt ≤ b.toInt)
      (fun less => ?_) (fun other => ?_) Int.le_trans
      (holds.imp (fun member => member.signed) (fun member => member.signed))
    · exact (BitVec.slt_iff_toInt_lt.mp less).le
    · simpa [BitVec.slt] using other
  · rintro known ⟨⟩
    rcases holds with holds | holds
    · exact sound.intersectWith_left holds.known
    · exact sound.intersectWith_right holds.known

theorem transferZExt_contains (sound : llvm.Sound) {result : KnownRange w}
    {x : BitVec v} (widens : v < w) (holds : a.Contains x)
    (transferred : transferZExt llvm w a = .ok (some result)) : result.Contains (x.setWidth w) := by
  refine conclude_contains sound ?_ (not_skipped transferred rfl)
  refine ⟨?_, nofun, ?_⟩
  · intro lo hi bounds
    simp only at bounds
    split at bounds
    next b _ known =>
      cases bounds
      exact (holds.unsigned known).zeroExtend widens.le
    next b _ known =>
      split at bounds
      next nonneg =>
        cases bounds
        exact ((holds.signed known).toU (by simpa using nonneg)).zeroExtend widens.le
      next => cases bounds
    next => cases bounds
  · rintro known ⟨⟩
    exact sound.zext widens holds.known

theorem transferSExt_contains (sound : llvm.Sound)
    {result : KnownRange w} {x : BitVec v} (widens : v < w) (holds : a.Contains x)
    (transferred : transferSExt llvm w a = .ok (some result)) :
    result.Contains (x.signExtend w) := by
  refine conclude_contains sound ?_ (not_skipped transferred rfl)
  refine ⟨nofun, ?_, ?_⟩
  · intro lo hi bounds
    simp only at bounds
    split at bounds
    next b _ known =>
      cases bounds
      exact (holds.signed known).signExtend widens.le
    next b _ known =>
      split at bounds
      next nonneg =>
        cases bounds
        exact ((holds.unsigned known).toS (by simpa using nonneg)).signExtend widens.le
      next => cases bounds
    next => cases bounds
  · rintro known ⟨⟩
    exact sound.sext widens holds.known

theorem transferTrunc_contains (sound : llvm.Sound)
    {result : KnownRange w} {x : BitVec v} (narrows : w < v) (holds : a.Contains x)
    (transferred : transferTrunc llvm w a = .ok (some result)) :
    result.Contains (x.setWidth w) := by
  refine conclude_contains sound ?_ (not_skipped transferred rfl)
  refine ⟨?_, nofun, ?_⟩
  · intro lo hi bounds
    simp only [truncBounds] at bounds
    split at bounds
    next lo' hi' known =>
      split at bounds
      next fits =>
        cases bounds
        exact (holds.unsigned known).truncate (activeBits_le_iff.mp fits)
      next => cases bounds
    next => cases bounds
  · rintro known ⟨⟩
    exact sound.trunc narrows holds.known

end

/-! ## The pass -/

def inRangeFragmentOp : BinOp → Bool
  | .and | .or _ | .xor | .urem | .udiv _ | .lshr _ => true
  | _ => false

def inRangeFragment : {w : Nat} → Rhs Reg w → Bool
  | _, .binop op _ _ => inRangeFragmentOp op
  | _, .select _ _ _ | _, .zext _ _ _ | _, .sext _ _ | _, .trunc _ _ _ _ =>
    true
  | _, _ => false

/-- `llvm::IntegerType::MAX_INT_BITS`. -/
def maxIntBits : Nat :=
  2 ^ 23

def inRangeFragmentInst (inst : Instruction) : Bool :=
  match inst.op with
  | .value (w := w) rhs => inRangeFragment rhs && decide (w ≤ maxIntBits)
  | .assume _ => false

theorem lane_eq_integer {w : Nat} {op : BinOp} {p q : Sample w}
    {x : BitVec w} (evaluated : op.lane p q = some (some x)) :
    ∃ y z, p = some y ∧ q = some z ∧ op.eval y z = some (some x) := by
  cases q with
  | none => cases p <;> simp [BinOp.lane] at evaluated
  | some z =>
    cases p with
    | none => simp [BinOp.lane] at evaluated
    | some y => exact ⟨y, z, rfl, rfl, evaluated⟩

theorem eq_of_guarded {w : Nat} {violated : Bool} {x y : BitVec w}
    (evaluated : BinOp.guarded violated x = some (some y)) : y = x := by
  cases violated with
  | false => simpa [BinOp.guarded, eq_comm] using evaluated
  | true => simp [BinOp.guarded] at evaluated

theorem samples_of_collect {w : Nat} {evaluations : Set (Evaluated w)}
    {content : Content w} (produced : some content ∈ collect evaluations) :
    content.samples = {sample | some sample ∈ evaluations} := by
  rcases produced with ⟨-, impossible⟩ | ⟨-, content', same, samples⟩
  · cases impossible
  · cases same
    exact samples

section

variable {w : Nat} {llvm : BitOperators} {map seed : RangeMap}
  {later : List (Nat × Reg)} {env : Env Reg}

variable {y x : BitVec w} {result : KnownRange w} {rhs : Rhs Reg w} {v id : Nat} {name : Name}
  {metadata : List Text} {inst : Instruction} {insts : List Instruction} {operand : Operand Reg v}

theorem constShift_eq {operand : Operand Reg w}
    (observed : some y ∈ (operand.content env).samples) {value : Nat}
    (constant : constShift operand = some value) : value = min y.toNat w := by
  cases operand with
  | const c =>
    obtain rfl : y = c := Option.some.inj observed
    exact (Option.some.inj constant).symm
  | undef => cases constant
  | poison => cases constant
  | reg r => cases constant

theorem transferBinop_contains (sound : llvm.Sound) (width : w ≤ 2 ^ 32) {op : BinOp}
    {l r : OperandFacts w} {constant : Option Nat} {z : BitVec w}
    (fragment : inRangeFragmentOp op = true) (first : l.Contains x) (second : r.Contains y)
    (amount : ∀ {value : Nat}, constant = some value → value = min y.toNat w)
    (evaluated : op.eval x y = some (some z))
    (transferred : transferBinop llvm op l r constant = .ok (some result)) : result.Contains z := by
  cases op with
  | and =>
    rw [eq_of_guarded evaluated]
    exact transferAnd_contains sound first second transferred
  | or disjoint =>
    rw [eq_of_guarded evaluated]
    exact transferOr_contains sound first second transferred
  | xor =>
    rw [eq_of_guarded evaluated]
    exact transferXor_contains sound first second transferred
  | urem =>
    by_cases zero : y = 0#w
    · simp [BinOp.eval, zero] at evaluated
    · have guarded : BinOp.guarded false (x % y) = some (some z) := by
        simpa [BinOp.eval, zero] using evaluated
      rw [eq_of_guarded guarded]
      exact transferURem_contains sound first second zero transferred
  | udiv exact =>
    by_cases zero : y = 0#w
    · simp [BinOp.eval, zero] at evaluated
    · have guarded : BinOp.guarded (exact && x % y != 0#w) (x / y) = some (some z) := by
        simpa [BinOp.eval, zero] using evaluated
      rw [eq_of_guarded guarded]
      exact transferUDiv_contains sound first second zero transferred
  | lshr exact =>
    rw [eq_of_guarded evaluated]
    exact transferLShr_contains sound width first second amount transferred
  | add | sub | mul | shl | sdiv | srem | ashr => cases fragment

/-- What `transfer` records holds of every integer the instruction can
produce, when the facts of its operands do. -/
theorem transfer_contains (sound : llvm.Sound)
    (width : w ≤ 2 ^ 32) (fragment : inRangeFragment rhs = true)
    (operands : ∀ operand ∈ rhs.operands, ∀ x, some x ∈ (operand.2.content env).samples →
        (factsOf map operand.2).Contains x)
    (transferred : transfer llvm map rhs = .ok (some result))
    (evaluated : some (some x) ∈ rhs.evaluations env) :
    result.Contains x := by
  cases rhs with
  | binop op a b =>
    obtain ⟨p, first, q, second, same⟩ := evaluated
    obtain ⟨y, z, rfl, rfl, computed⟩ := lane_eq_integer same.symm
    exact transferBinop_contains sound width fragment
      (operands ⟨w, a⟩ (by simp [Rhs.operands]) y first)
      (operands ⟨w, b⟩ (by simp [Rhs.operands]) z second)
      (constShift_eq second) computed transferred
  | select cond a b =>
    obtain ⟨c, -, p, first, q, second, same⟩ := evaluated
    refine transferSelect_contains sound ?_ transferred
    cases c with
    | none => simp [selectLane] at same
    | some bit =>
      simp only [selectLane, Option.some.injEq] at same
      split at same
      next =>
        subst same
        exact Or.inl (operands ⟨w, a⟩ (by simp [Rhs.operands]) x first)
      next =>
        subst same
        exact Or.inr (operands ⟨w, b⟩ (by simp [Rhs.operands]) x second)
  | @zext v w widens nneg a =>
    obtain ⟨p, first, same⟩ := evaluated
    cases p with
    | none => simp [strict₁] at same
    | some y =>
      have value : y.setWidth w = x := by
        simp only [strict₁, Option.some.injEq] at same
        split at same
        next => cases same
        next => exact (Option.some.inj same).symm
      rw [← value]
      exact transferZExt_contains sound widens
        (operands ⟨v, a⟩ (by simp [Rhs.operands]) y first) transferred
  | @sext v w widens a =>
    obtain ⟨p, first, same⟩ := evaluated
    cases p with
    | none => simp [strict₁] at same
    | some y =>
      have value : y.signExtend w = x := by
        simpa [strict₁, eq_comm] using same
      rw [← value]
      exact transferSExt_contains sound widens
        (operands ⟨v, a⟩ (by simp [Rhs.operands]) y first) transferred
  | @trunc v w narrows nuw nsw a =>
    obtain ⟨p, first, same⟩ := evaluated
    cases p with
    | none => simp [strict₁] at same
    | some y =>
      have value : y.setWidth w = x := by
        simp only [strict₁, Option.some.injEq] at same
        split at same
        next => cases same
        next => exact (Option.some.inj same).symm
      rw [← value]
      exact transferTrunc_contains sound narrows
        (operands ⟨v, a⟩ (by simp [Rhs.operands]) y first) transferred
  | icmp pred a b => cases fragment
  | freeze a => cases fragment
  | withOverflow op a b => cases fragment

theorem RangeMap.insert_self (map : RangeMap) (r : Reg) (range : KnownRange w) :
    map.insert r range w (.reg r) = some range := by
  simp [RangeMap.insert]

theorem RangeMap.insert_of_ne (map : RangeMap) {r : Reg} (range : KnownRange w)
    (different : (w, r) ∉ operand.regs) : map.insert r range v operand = map v operand := by
  by_cases sameWidth : v = w
  · subst sameWidth
    have differentOperand : operand ≠ .reg r := by
      rintro rfl
      exact different (List.mem_singleton.mpr rfl)
    simp [RangeMap.insert, differentOperand]
  · simp [RangeMap.insert, sameWidth]

theorem produced_of_step
    (executed : some env ∈ (⟨id, name, .value rhs, metadata⟩ : Instruction).step env) :
    some (env w (.inst id)) ∈ rhs.outcomes env := by
  obtain ⟨content, produced, same⟩ := Outcomes.some_mem_map.mp executed
  have held : env w (.inst id) = content :=
    (congrFun (congrFun same.symm w) (.inst id)).trans (Env.set_self env w (.inst id) content)
  rw [held]
  exact produced

theorem evaluations_of_step (fragment : inRangeFragment rhs = true)
    (executed : some env ∈ (⟨id, name, .value rhs, metadata⟩ : Instruction).step env)
    (observed : some x ∈ (env w (.inst id)).samples) : some (some x) ∈ rhs.evaluations env := by
  have produced := produced_of_step executed
  have collected : some (env w (.inst id)) ∈ collect (rhs.evaluations env) := by
    cases rhs <;> first | exact produced | cases fragment
  rw [samples_of_collect collected] at observed
  exact observed

theorem computeRange_cases
    (computed : computeRange llvm seed ⟨id, name, .value rhs, metadata⟩ = .ok map) :
    seed = map ∨ ∃ range, transfer llvm seed rhs = .ok (some range) ∧
      seed.insert (.inst id) range = map := by
  obtain ⟨outcome, transferred, rest⟩ := bind_eq_ok.mp computed
  cases outcome with
  | none => exact .inl (Except.ok.inj rest)
  | some range => exact .inr ⟨range, transferred, Except.ok.inj rest⟩

theorem computeRange_sound (sound : llvm.Sound)
    (fragment : inRangeFragmentInst inst = true) (executed : some env ∈ inst.step env)
    (uses : ∀ use ∈ inst.op.regs, use ∉ later) (seeded : seed.Sound later env)
    (computed : computeRange llvm seed inst = .ok map) : map.Sound later env := by
  obtain ⟨id, name, op, metadata⟩ := inst
  cases op with
  | assume cond => cases fragment
  | @value w rhs =>
    obtain ⟨fragment, width⟩ : inRangeFragment rhs = true ∧ w ≤ maxIntBits := by
      simpa [inRangeFragmentInst] using fragment
    have small : w ≤ 2 ^ 32 := width.trans (by decide)
    have operands : ∀ operand ∈ rhs.operands, ∀ x, some x ∈ (operand.2.content env).samples →
          (factsOf seed operand.2).Contains x :=
      fun operand member x observed => factsOf_contains seeded
        (fun use used => uses use (List.mem_flatMap.mpr ⟨operand, member, used⟩)) observed
    rcases computeRange_cases computed with
      rfl | ⟨range, transferred, rfl⟩
    · exact seeded
    · intro v operand r present recorded x observed
      by_cases defined : (w, Reg.inst id) ∈ operand.regs
      · cases operand with
        | reg other =>
          cases List.mem_singleton.mp defined
          rw [RangeMap.insert_self] at recorded
          cases recorded
          exact transfer_contains sound small fragment operands transferred
            (evaluations_of_step fragment executed observed)
        | const value => exact absurd defined List.not_mem_nil
        | undef => exact absurd defined List.not_mem_nil
        | poison => exact absurd defined List.not_mem_nil
      · rw [RangeMap.insert_of_ne _ _ defined] at recorded
        exact seeded present recorded observed

theorem computeRanges_cons {rest : List Instruction}
    (computed : computeRanges llvm (inst :: rest) seed = .ok map) :
    ∃ middle, computeRange llvm seed inst = .ok middle ∧ computeRanges llvm rest middle = .ok map :=
  foldlM_cons_eq_ok.mp computed

theorem computeRanges_append {first second : List Instruction}
    (computed : computeRanges llvm (first ++ second) seed = .ok map) :
    ∃ middle, computeRanges llvm first seed = .ok middle ∧
      computeRanges llvm second middle = .ok map := by
  rw [computeRanges, List.foldlM_append] at computed
  exact bind_eq_ok.mp computed

theorem computeRanges_sound_of_steps (sound : llvm.Sound)
    (fragment : ∀ inst ∈ insts, inRangeFragmentInst inst = true)
    (executed : ∀ inst ∈ insts, some env ∈ inst.step env)
    (uses : ∀ inst ∈ insts, ∀ use ∈ inst.op.regs, use ∉ later) (seeded : seed.Sound later env)
    (computed : computeRanges llvm insts seed = .ok map) : map.Sound later env := by
  induction insts generalizing seed with
  | nil =>
    obtain rfl : seed = map := Except.ok.inj computed
    exact seeded
  | cons inst rest ih =>
    obtain ⟨middle, first, second⟩ := computeRanges_cons computed
    have head := List.mem_cons_self (a := inst) (l := rest)
    have kept : middle.Sound later env :=
      computeRange_sound sound (fragment inst head) (executed inst head)
        (uses inst head) seeded first
    exact ih (fun other member => fragment other (List.mem_cons_of_mem inst member))
      (fun other member => executed other (List.mem_cons_of_mem inst member))
      (fun other member => uses other (List.mem_cons_of_mem inst member))
      kept second

theorem computeRanges_frame (other : ∀ use ∈ operand.regs, use ∉ bodyScope insts)
    (computed : computeRanges llvm insts seed = .ok map) : map v operand = seed v operand := by
  induction insts generalizing seed with
  | nil =>
    obtain rfl : seed = map := Except.ok.inj computed
    rfl
  | cons inst rest ih =>
    obtain ⟨middle, first, second⟩ := computeRanges_cons computed
    have split : bodyScope (inst :: rest) = inst.defines ++ bodyScope rest :=
      List.flatMap_cons
    rw [ih (fun use used visited => other use used
      (by rw [split]; exact List.mem_append_right _ visited)) second]
    have skipped : ∀ use ∈ operand.regs, use ∉ inst.defines :=
      fun use used defined => other use used (by rw [split]; exact List.mem_append_left _ defined)
    obtain ⟨id, name, op, metadata⟩ := inst
    cases op with
    | assume cond =>
      obtain rfl : seed = middle := Except.ok.inj first
      rfl
    | @value w rhs =>
      rcases computeRange_cases first with rfl | ⟨range, -, rfl⟩
      · rfl
      · refine RangeMap.insert_of_ne _ _ fun used => ?_
        exact skipped _ used (List.mem_singleton.mpr rfl)

end

section

variable {scope : List (Nat × Reg)} {executed rest : List Instruction}

private theorem bodyScope_split :
    bodyScope (executed ++ rest) = bodyScope executed ++ bodyScope rest :=
  List.flatMap_append

variable (wellScoped : Scoped scope (executed ++ rest))
    (nodup : ((executed ++ rest).map Instruction.id).Nodup)
    (apart : ∀ use ∈ scope, use ∉ bodyScope (executed ++ rest))

include wellScoped nodup apart

theorem executed_steps {start env : Env Reg}
    (reached : some env ∈ runs executed start) : ∀ inst ∈ executed, some env ∈ inst.step env := by
  rw [List.map_append, List.nodup_append] at nodup
  refine step_of_runs wellScoped.of_append nodup.1 ?_ reached
  intro use inScope defined
  refine apart use inScope ?_
  rw [bodyScope_split]
  exact List.mem_append_left _ defined

theorem executed_uses : ∀ inst ∈ executed, ∀ use ∈ inst.op.regs, use ∉ bodyScope rest := by
  rw [List.map_append, List.nodup_append] at nodup
  intro inst member use used inRest
  rcases wellScoped.of_append.uses member used with inScope | defined
  · refine apart use inScope ?_
    rw [bodyScope_split]
    exact List.mem_append_right _ inRest
  · obtain ⟨w, r⟩ := use
    obtain ⟨first, firstMember, -, rfl⟩ := mem_bodyScope.mp defined
    obtain ⟨second, secondMember, -, same⟩ := mem_bodyScope.mp inRest
    exact nodup.2.2 first.id (List.mem_map_of_mem firstMember) second.id
      (List.mem_map_of_mem secondMember) (Reg.inst.inj same)

end

/-- In static single assignment form, for every prefix of the sequence that
executes: if the seeds hold of the seeded values, what `computeRanges` records
for the whole sequence holds of every value computed so far. -/
theorem computeRanges_sound {llvm : BitOperators} (sound : llvm.Sound)
    {scope : List (Nat × Reg)} {executed rest : List Instruction}
    (wellScoped : Scoped scope (executed ++ rest))
    (nodup : ((executed ++ rest).map Instruction.id).Nodup)
    (apart : ∀ use ∈ scope, use ∉ bodyScope (executed ++ rest))
    (fragment : ∀ inst ∈ executed ++ rest, inRangeFragmentInst inst = true) {seed map : RangeMap}
    (computed : computeRanges llvm (executed ++ rest) seed = .ok map)
    {start env : Env Reg} (reached : some env ∈ runs executed start)
    (seeded : seed.Sound (bodyScope rest) env) :
    map.Sound (bodyScope rest) env := by
  obtain ⟨middle, first, second⟩ := computeRanges_append computed
  have kept : middle.Sound (bodyScope rest) env :=
    computeRanges_sound_of_steps sound
      (fun inst member => fragment inst (List.mem_append_left _ member))
      (executed_steps wellScoped nodup apart reached)
      (executed_uses wellScoped nodup apart) seeded first
  intro w operand r present recorded x observed
  rw [computeRanges_frame present second] at recorded
  exact kept present recorded observed

/-! ## A masked value -/

/-- The operators of the bitwise, cast and range part as LLVM computes them;
the others say nothing. -/
def prefixOperators : BitOperators where
  intersectWith a b := ⟨a.zero &&& b.zero, a.one &&& b.one⟩
  and a b := ⟨a.zero ||| b.zero, a.one &&& b.one⟩
  or a b := ⟨a.zero &&& b.zero, a.one ||| b.one⟩
  xor a b :=
    ⟨(a.zero &&& b.zero) ||| (a.one &&& b.one), (a.zero &&& b.one) ||| (a.one &&& b.zero)⟩
  urem {w} _ _ := .unknown w
  udiv {w} _ _ := .unknown w
  lshr {w} _ _ := .unknown w
  ashr {w} _ _ := .unknown w
  shl {w} _ _ _ _ := .unknown w
  computeForAddSub {w} _ _ _ _ _ := .unknown w
  mul {w} _ _ := .unknown w
  zext w a := ⟨~~~((~~~a.zero).setWidth w), a.one.setWidth w⟩
  sext w a := ⟨a.zero.signExtend w, a.one.signExtend w⟩
  trunc w a := ⟨a.zero.setWidth w, a.one.setWidth w⟩
  toKnownBits := commonBits

theorem prefixOperators_sound : prefixOperators.Sound where
  intersectWith_left := by
    intro w a b x covered
    rw [KnownBits.covers_iff] at *
    intro i inside
    have bit := covered i inside
    simp only [prefixOperators, BitVec.getLsbD_and]
    grind
  intersectWith_right := by
    intro w a b x covered
    rw [KnownBits.covers_iff] at *
    intro i inside
    have bit := covered i inside
    simp only [prefixOperators, BitVec.getLsbD_and]
    grind
  and := by
    intro w a b x y first second
    rw [KnownBits.covers_iff] at *
    intro i inside
    have bit := first i inside
    have bit' := second i inside
    simp only [prefixOperators, BitVec.getLsbD_and, BitVec.getLsbD_or]
    grind
  or := by
    intro w a b x y first second
    rw [KnownBits.covers_iff] at *
    intro i inside
    have bit := first i inside
    have bit' := second i inside
    simp only [prefixOperators, BitVec.getLsbD_and, BitVec.getLsbD_or]
    grind
  xor := by
    intro w a b x y first second
    rw [KnownBits.covers_iff] at *
    intro i inside
    have bit := first i inside
    have bit' := second i inside
    simp only [prefixOperators, BitVec.getLsbD_and, BitVec.getLsbD_or, BitVec.getLsbD_xor]
    grind
  urem _ _ _ := KnownBits.unknown_covers _
  udiv _ _ _ := KnownBits.unknown_covers _
  lshr _ _ _ := KnownBits.unknown_covers _
  zext := by
    intro v w a x widens covered
    rw [KnownBits.covers_iff] at *
    intro i inside
    have bit := covered i
    simp only [prefixOperators, BitVec.getLsbD_not, BitVec.getLsbD_setWidth]
    by_cases old : i < v
    · grind
    · simp [BitVec.getLsbD_of_ge _ _ (Nat.not_lt.mp old)]
  sext := by
    intro v w a x widens covered
    rw [KnownBits.covers_iff] at *
    intro i inside
    have bit := covered i
    have top := covered (v - 1)
    simp only [prefixOperators, BitVec.getLsbD_signExtend, inside,
      decide_true, Bool.true_and, BitVec.msb_eq_getLsbD_last]
    by_cases old : i < v
    · simpa [old] using bit old
    · by_cases empty : v = 0
      · subst empty
        simp [old]
      · simpa [old] using top (by omega)
  trunc := by
    intro v w a x narrows covered
    rw [KnownBits.covers_iff] at *
    intro i inside
    simpa [prefixOperators, inside] using covered i (by omega)
  toKnownBits := commonBits_covers
  toKnownBits_empty empty := by simp [prefixOperators, commonBits, empty]

def masked : List Instruction :=
  [⟨0, ascii "m", .value (.binop .and (.reg (.arg 0)) (.const 15#8)), []⟩,
    ⟨1, ascii "z", .value (w := 16)
      (.zext (v := 8) (by decide) false (.reg (.inst 0))), []⟩]

def noRanges : RangeMap :=
  fun _ _ => none

theorem runs_masked (start : Env Reg) {x : BitVec 8}
    (argument : start 8 (.arg 0) = .single (some x)) : ∃ env, some env ∈ runs masked start := by
  have first : (Rhs.binop .and (.reg (.arg 0)) (.const 15#8)).outcomes start =
      Outcomes.pure (.single (some (x &&& 15#8))) :=
    Rhs.outcomes_binop_single argument rfl rfl
  have second : (Rhs.zext (w := 16) (by decide) false (.reg (.inst 0) : Operand Reg 8)).outcomes
        (start.set 8 (.inst 0) (.single (some (x &&& 15#8)))) =
      Outcomes.pure (.single (some ((x &&& 15#8).setWidth 16))) := by
    refine (congrArg collect ?_).trans (collect_singleton _)
    ext outcome
    simp [Rhs.evaluations, Operand.content, strict₁]
  rw [masked, runs_value first, runs_value second, runs_nil]
  exact ⟨_, rfl⟩

theorem computeRanges_sound_masked :
    ∃ map env, computeRanges prefixOperators masked noRanges = .ok map ∧
      some env ∈ runs masked (fun w _ => .single (some (.ofNat w 171))) ∧
      (map 16 (.reg (.inst 1))).bind KnownRange.u = some (0#16, 15#16) ∧
      map.Sound [] env := by
  obtain ⟨map, computed⟩ : ∃ map, computeRanges prefixOperators masked noRanges = .ok map :=
    ⟨_, rfl⟩
  obtain ⟨env, reached⟩ :=
    runs_masked (fun w _ => .single (some (.ofNat w 171))) rfl
  refine ⟨map, env, computed, reached, ?_, ?_⟩
  · cases computed
    decide +kernel
  · have wellScoped : Scoped [(8, .arg 0)] (masked ++ []) := by decide
    exact computeRanges_sound prefixOperators_sound wellScoped (by decide)
      (by decide) (by decide) computed reached nofun

end AliveNext.TvNext
