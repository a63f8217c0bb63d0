import Mathlib

/-!
# Bounds of an access

The condition of `Pointer::isDereferenceable` (`ir/pointer.cpp`) that an access through a
logical pointer is in the bounds of its block. There are three formulas for it; which one is
taken depends on what the simplifier knows.
-/

namespace AliveNext.IR.Bounds

variable {sizeBits offsetBits byteBits : Nat}

/-- What the simplifier knows of the terms. -/
structure Known where
  isUndef : Bool
  bytesTooMany : Bool
  offsetOutside : Bool
  sizeIsConst : Bool
  bytesIsConst : Bool
  bytesIsOne : Bool
  sizeNonNegative : Bool

def blockSizeOffsetT (size : BitVec sizeBits) (offsetBits : Nat) : BitVec offsetBits :=
  size.setWidth offsetBits

/-- The bounds in `log_ptr`. -/
def logPtr (known : Known) (size : BitVec sizeBits) (offset : BitVec offsetBits)
    (bytes0 : BitVec byteBits) : Bool :=
  let bytes := bytes0.setWidth offsetBits
  let blockSz := blockSizeOffsetT size offsetBits
  if known.isUndef || known.bytesTooMany || known.offsetOutside then false
  else if known.sizeIsConst && known.bytesIsConst then offset.ule (blockSz - bytes)
  else if sizeBits < offsetBits && known.bytesIsOne then offset.ult blockSz
  else (offset + bytes).ule blockSz && !offset.msb &&
    (known.sizeNonNegative || !offset.saddOverflow bytes)

/-- The bounds that `isDereferenceable` asks for. -/
def accessBounds (known : Known) (size : BitVec sizeBits) (offset : BitVec offsetBits)
    (bytes0 : BitVec byteBits) : Bool :=
  bytes0.setWidth offsetBits = 0 || logPtr known size offset bytes0

/-- What the simplifier knows is so, and it knows how two constants compare. -/
structure Known.Sound (known : Known) (size : BitVec sizeBits) (offset : BitVec offsetBits)
    (bytes0 : BitVec byteBits) : Prop where
  tooMany : known.bytesTooMany = true →
    blockSizeOffsetT size offsetBits < bytes0.setWidth offsetBits
  outside : known.offsetOutside = true → blockSizeOffsetT size offsetBits ≤ offset
  one : known.bytesIsOne = true → bytes0.setWidth offsetBits = 1
  nonNegative : known.sizeNonNegative = true → (blockSizeOffsetT size offsetBits).msb = false
  folded : known.sizeIsConst = true → known.bytesIsConst = true →
    blockSizeOffsetT size offsetBits < bytes0.setWidth offsetBits → known.bytesTooMany = true

def InBounds (size : BitVec sizeBits) (offset : BitVec offsetBits) (bytes0 : BitVec byteBits) :
    Prop :=
  0 ≤ offset.toInt ∧ offset.toInt + bytes0.toNat ≤ size.toNat

theorem inBounds_iff
    {size : BitVec sizeBits} {offset : BitVec offsetBits} {bytes0 : BitVec byteBits} :
    InBounds size offset bytes0 ↔
      offset.msb = false ∧ offset.toNat + bytes0.toNat ≤ size.toNat := by
  unfold InBounds
  cases sign : offset.msb with
  | false =>
    rw [BitVec.toInt_eq_toNat_of_msb sign, and_iff_right (Int.natCast_nonneg _), and_iff_right rfl]
    omega
  | true =>
    have negative := BitVec.toInt_neg_of_msb_true sign
    constructor
    · intro ⟨positive, _⟩
      omega
    · rintro ⟨⟨⟩, _⟩

section

variable {known : Known} {size : BitVec sizeBits} {offset : BitVec offsetBits}
  {bytes0 : BitVec byteBits}

variable {a b : BitVec offsetBits}

theorem saddOverflow_of_small (first : a.msb = false) (second : b.msb = false) :
    a.saddOverflow b = decide (2 ^ (offsetBits - 1) ≤ a.toNat + b.toNat) := by
  unfold BitVec.saddOverflow
  rw [BitVec.toInt_eq_toNat_of_msb first, BitVec.toInt_eq_toNat_of_msb second]
  have low : ¬((a.toNat : Int) + b.toNat < -2 ^ (offsetBits - 1)) := by
    have positive : (0 : Int) ≤ 2 ^ (offsetBits - 1) := by positivity
    omega
  rw [decide_eq_false low, Bool.or_false]
  refine decide_eq_decide.2 ?_
  norm_cast

theorem lt_half_of_msb
    (nonneg : a.msb = false) : a.toNat < 2 ^ (offsetBits - 1) ∨ offsetBits = 0 := by
  cases offsetBits with
  | zero => exact .inr rfl
  | succ n =>
    rw [BitVec.msb_eq_decide, decide_eq_false_iff_not] at nonneg
    exact .inl (not_le.1 nonneg)

theorem msb_of_le (le : a.toNat ≤ b.toNat) (nonneg : b.msb = false) : a.msb = false := by
  rcases lt_half_of_msb nonneg with half | rfl
  · rw [BitVec.msb_eq_decide, decide_eq_false_iff_not]
    omega
  · rw [Subsingleton.elim a 0]
    rfl

section

variable {offset bytes blockSz : BitVec offsetBits}

theorem const_iff (nonneg : blockSz.msb = false) (enough : bytes.toNat ≤ blockSz.toNat) :
    offset.ule (blockSz - bytes) = true ↔
      offset.msb = false ∧ offset.toNat + bytes.toNat ≤ blockSz.toNat := by
  rw [BitVec.ule, decide_eq_true_eq, BitVec.toNat_sub_of_le (BitVec.le_def.2 enough)]
  constructor
  · intro le
    exact ⟨msb_of_le (by omega) nonneg, by omega⟩
  · intro ⟨_, le⟩
    omega

theorem oneByte_iff (nonneg : blockSz.msb = false) (wide : 0 < offsetBits) (one : bytes = 1) :
    offset.ult blockSz = true ↔
      offset.msb = false ∧ offset.toNat + bytes.toNat ≤ blockSz.toNat := by
  have number : bytes.toNat = 1 := by
    rw [one]
    exact Nat.mod_eq_of_lt (Nat.one_lt_two_pow (by omega))
  rw [BitVec.ult, decide_eq_true_eq, number]
  constructor
  · intro lt
    exact ⟨msb_of_le (Nat.le_of_lt lt) nonneg, lt⟩
  · intro ⟨_, le⟩
    exact le

theorem general_iff {sizeNonNegative : Bool} (nonneg : blockSz.msb = false)
    (no_wrap : offset.msb = false → offset.toNat + bytes.toNat < 2 ^ offsetBits) :
    ((offset + bytes).ule blockSz && !offset.msb &&
        (sizeNonNegative || !offset.saddOverflow bytes)) = true ↔
      offset.msb = false ∧ offset.toNat + bytes.toNat ≤ blockSz.toNat := by
  cases sign : offset.msb with
  | true => simp
  | false =>
    have sum := no_wrap sign
    have number : (offset + bytes).toNat = offset.toNat + bytes.toNat := by
      rw [BitVec.toNat_add, Nat.mod_eq_of_lt sum]
    rw [Bool.not_false, Bool.and_true, and_iff_right rfl, Bool.and_eq_true, BitVec.ule,
      decide_eq_true_eq, number]
    refine and_iff_left_of_imp fun le => ?_
    -- a sum below the size is below half of the offsets
    have no_overflow : offset.saddOverflow bytes = false := by
      rcases lt_half_of_msb nonneg with half | rfl
      · rw [saddOverflow_of_small sign (msb_of_le (by omega) nonneg)]
        exact decide_eq_false (by omega)
      · rw [Subsingleton.elim offset 0, Subsingleton.elim bytes 0]
        rfl
    rw [no_overflow, Bool.not_false, Bool.or_true]

end

/-- The bounds are exact for pointers that are not undefined, where the size is not negative as
an offset and the end of the access is an offset, but for empty accesses that are known to be
at the end of the block; those are allowed anyway. -/
theorem logPtr_iff
    (widths : sizeBits ≤ offsetBits) (small : bytes0.toNat < 2 ^ sizeBits)
    (sound : known.Sound size offset bytes0) (defined : known.isUndef = false)
    (nonneg : (blockSizeOffsetT size offsetBits).msb = false)
    (no_wrap : 0 ≤ offset.toInt → offset.toNat + bytes0.toNat < 2 ^ offsetBits) :
    (logPtr known size offset bytes0 = true ↔
      InBounds size offset bytes0 ∧ (known.offsetOutside = true → bytes0.toNat ≠ 0)) ∧
    (accessBounds known size offset bytes0 = true ↔
      bytes0.toNat = 0 ∨ InBounds size offset bytes0) := by
  have room : 2 ^ sizeBits ≤ 2 ^ offsetBits := Nat.pow_le_pow_right (by decide) widths
  have bytes_eq : (bytes0.setWidth offsetBits).toNat = bytes0.toNat := by
    rw [BitVec.toNat_setWidth, Nat.mod_eq_of_lt (by omega)]
  have size_eq : (blockSizeOffsetT size offsetBits).toNat = size.toNat := by
    rw [blockSizeOffsetT, BitVec.toNat_setWidth, Nat.mod_eq_of_lt (by omega)]
  have tooMany := sound.tooMany
  have outside := sound.outside
  have folded := sound.folded
  rw [BitVec.lt_def, size_eq, bytes_eq] at tooMany folded
  rw [BitVec.le_def, size_eq] at outside
  have bounds : logPtr known size offset bytes0 = true ↔
      InBounds size offset bytes0 ∧ (known.offsetOutside = true → bytes0.toNat ≠ 0) := by
    rw [inBounds_iff]
    unfold logPtr
    dsimp only
    rw [defined, Bool.false_or]
    cases larger : known.bytesTooMany with
    | true =>
      have more := tooMany larger
      simp only [Bool.true_or, if_true, Bool.false_eq_true, false_iff]
      omega
    | false =>
      rw [larger] at folded
      cases past : known.offsetOutside with
      | true =>
        have more := outside past
        simp only [Bool.or_true, if_true, Bool.false_eq_true, false_iff]
        intro ⟨⟨_, le⟩, some_byte⟩
        have positive := some_byte trivial
        omega
      | false =>
        rw [Bool.or_false, if_neg Bool.false_ne_true, and_iff_left (nofun), ← size_eq, ← bytes_eq]
        split
        · next consts =>
          rw [Bool.and_eq_true] at consts
          refine const_iff nonneg ?_
          rw [bytes_eq, size_eq]
          exact not_lt.1 fun more => nomatch folded consts.1 consts.2 more
        · split
          · next single =>
            rw [Bool.and_eq_true, decide_eq_true_eq] at single
            exact oneByte_iff nonneg (by omega) (sound.one single.2)
          · refine general_iff nonneg fun sign => ?_
            rw [bytes_eq]
            refine no_wrap ?_
            rw [BitVec.toInt_eq_toNat_of_msb sign]
            exact Int.natCast_nonneg _
  refine ⟨bounds, ?_⟩
  have empty : bytes0.setWidth offsetBits = 0 ↔ bytes0.toNat = 0 := by
    rw [← BitVec.toNat_inj, bytes_eq]
    rfl
  unfold accessBounds
  rw [Bool.or_eq_true, decide_eq_true_eq, empty, bounds]
  constructor
  · rintro (zero | ⟨inside, _⟩)
    · exact .inl zero
    · exact .inr inside
  · rintro (zero | inside)
    · exact .inl zero
    · by_cases zero : bytes0.toNat = 0
      · exact .inl zero
      · exact .inr ⟨inside, fun _ => zero⟩

/-- The simplifier knows nothing. -/
def unknown : Known where
  isUndef := false
  bytesTooMany := false
  offsetOutside := false
  sizeIsConst := false
  bytesIsConst := false
  bytesIsOne := false
  sizeNonNegative := false

theorem unknown_sound
    (size : BitVec sizeBits) (offset : BitVec offsetBits) (bytes0 : BitVec byteBits) :
    unknown.Sound size offset bytes0 where
  tooMany := nofun
  outside := nofun
  one := nofun
  nonNegative := nofun
  folded := nofun

theorem logPtr_within :
    logPtr unknown (8 : BitVec 8) (4 : BitVec 16) (4 : BitVec 64) = true :=
  (logPtr_iff (by decide) (by decide) (unknown_sound 8 4 4) rfl (by decide) (by decide)).1.2
    ⟨by unfold InBounds; decide, nofun⟩

def emptyAtEnd : Known where
  isUndef := false
  bytesTooMany := false
  offsetOutside := true
  sizeIsConst := true
  bytesIsConst := true
  bytesIsOne := false
  sizeNonNegative := true

/-- The condition is false for an empty access at the end of a block, for a pointer that is
undefined, and for a size that is negative as an offset. -/
theorem logPtr_of_design :
    (∃ known : Known, known.isUndef = false ∧
      known.Sound (8 : BitVec 8) (8 : BitVec 16) (0 : BitVec 8) ∧
      InBounds (8 : BitVec 8) (8 : BitVec 16) (0 : BitVec 8) ∧
      logPtr known (8 : BitVec 8) (8 : BitVec 16) (0 : BitVec 8) = false) ∧
    (∃ known : Known, known.Sound (8 : BitVec 8) (4 : BitVec 16) (1 : BitVec 8) ∧
      InBounds (8 : BitVec 8) (4 : BitVec 16) (1 : BitVec 8) ∧
      logPtr known (8 : BitVec 8) (4 : BitVec 16) (1 : BitVec 8) = false) ∧
    ∃ known : Known, known.isUndef = false ∧ known.sizeIsConst = false ∧
      known.Sound (200 : BitVec 8) (100 : BitVec 8) (50 : BitVec 8) ∧
      InBounds (200 : BitVec 8) (100 : BitVec 8) (50 : BitVec 8) ∧
      logPtr known (200 : BitVec 8) (100 : BitVec 8) (50 : BitVec 8) = false := by
  refine ⟨⟨emptyAtEnd, rfl, ⟨nofun, fun _ => by decide, nofun, fun _ => by decide,
    fun _ _ more => absurd more (by decide)⟩, by unfold InBounds; decide, by decide⟩, ?_, ?_⟩
  · exact ⟨{ unknown with isUndef := true }, ⟨nofun, nofun, nofun, nofun, nofun⟩,
      by unfold InBounds; decide, by decide⟩
  · exact ⟨unknown, rfl, rfl, unknown_sound _ _ _, by unfold InBounds; decide, by decide⟩

end

end AliveNext.IR.Bounds
