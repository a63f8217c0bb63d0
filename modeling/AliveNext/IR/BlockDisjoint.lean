import Mathlib

/-!
# Disjoint blocks

The condition that two blocks do not share addresses (`disjoint` of `ir/memory.cpp`), which
the axioms about addresses are made of. Of two blocks with the same alignment it asks for
different addresses only.
-/

namespace AliveNext.IR.BlockDisjoint

variable {addressBits alignBits : Nat}

structure Num (w : Nat) where
  value : BitVec w
  numeral : Bool

/-- `expr::isUInt`. -/
def Num.isUInt {w : Nat} (e : Num w) : Option UInt64 :=
  if e.numeral && e.value.toNat < 2 ^ 64 then some (UInt64.ofNat e.value.toNat) else none

def alignGeSize (align : Num alignBits) (size : Num addressBits) : Bool :=
  match align.isUInt, size.isUInt with
  | some algn, some sz => 1 <<< algn ≥ sz
  | _, _ => false

structure Block (addressBits alignBits : Nat) where
  start : BitVec addressBits
  len : Num addressBits
  align : Num alignBits

/-- The test for the shortcut, where `sameTerm` is `align1.eq(align2)`. -/
def shortcut (sameTerm : Bool) (a b : Block addressBits alignBits) : Bool :=
  sameTerm && alignGeSize a.align a.len && alignGeSize b.align b.len

def disjoint (sameTerm : Bool) (a b : Block addressBits alignBits) : Bool :=
  if shortcut sameTerm a b then a.start != b.start
  else (b.start + b.len.value).ule a.start || (a.start + a.len.value).ule b.start

namespace Block

variable (a b : Block addressBits alignBits)

def Aligned : Prop := 2 ^ a.align.value.toNat ∣ a.start.toNat

def NoOverflow : Prop := a.start.toNat + a.len.value.toNat < 2 ^ addressBits

instance : Decidable a.Aligned := inferInstanceAs (Decidable (_ ∣ _))

instance : Decidable a.NoOverflow := inferInstanceAs (Decidable (_ < _))

def Has (address : Nat) : Prop :=
  a.start.toNat ≤ address ∧ address < a.start.toNat + a.len.value.toNat

def Overlap : Prop := ∃ address, a.Has address ∧ b.Has address

def EmptyWithin : Prop := a.len.value = 0#(addressBits) ∧ a.start ≠ b.start ∧ b.Has a.start.toNat

/-- One of the blocks is empty where the condition tells them apart from each other: at the
address of the other one in the shortcut, and within the other one in the general form. -/
def EmptyApart (sameTerm : Bool) : Prop :=
  if shortcut sameTerm a b then
    a.start = b.start ∧ (a.len.value = 0#(addressBits) ∨ b.len.value = 0#(addressBits))
  else a.EmptyWithin b ∨ b.EmptyWithin a

end Block

variable {sameTerm : Bool} {a b : Block addressBits alignBits}

theorem overlap_iff : a.Overlap b ↔ a.len.value.toNat ≠ 0 ∧ b.len.value.toNat ≠ 0 ∧
      a.start.toNat < b.start.toNat + b.len.value.toNat ∧
      b.start.toNat < a.start.toNat + a.len.value.toNat := by
  unfold Block.Overlap Block.Has
  constructor
  · rintro ⟨address, first, second⟩
    omega
  · rintro ⟨some, some', left, right⟩
    exact ⟨max a.start.toNat b.start.toNat, by omega, by omega⟩

theorem len_le_of_alignGeSize {align : Num alignBits} {size : Num addressBits}
    (reach : alignGeSize align size = true) : size.value.toNat ≤ 2 ^ align.value.toNat := by
  unfold alignGeSize Num.isUInt at reach
  split at reach
  · next algn sz known known' =>
      obtain ⟨fits, ⟨⟩⟩ := Option.ite_none_right_eq_some.1 known
      obtain ⟨fits', ⟨⟩⟩ := Option.ite_none_right_eq_some.1 known'
      have small := of_decide_eq_true (Bool.and_eq_true_iff.1 fits).2
      have small' := of_decide_eq_true (Bool.and_eq_true_iff.1 fits').2
      have le := UInt64.le_iff_toNat_le.1 (of_decide_eq_true reach)
      rw [UInt64.toNat_shiftLeft, UInt64.toNat_ofNat_of_lt' small,
        UInt64.toNat_ofNat_of_lt' small'] at le
      calc size.value.toNat ≤ 1 <<< (align.value.toNat % 64) % 2 ^ 64 := le
        _ ≤ 1 <<< (align.value.toNat % 64) := Nat.mod_le _ _
        _ = 2 ^ (align.value.toNat % 64) := Nat.one_shiftLeft _
        _ ≤ 2 ^ align.value.toNat := Nat.pow_le_pow_right (by decide) (Nat.mod_le _ _)
  · exact absurd reach Bool.false_ne_true

theorem le_of_aligned {step m n len : Nat} (first : step ∣ m) (second : step ∣ n)
    (reach : len ≤ step) (less : m < n) : m + len ≤ n := by
  have gap := Nat.le_of_dvd (Nat.sub_pos_of_lt less) (Nat.dvd_sub second first)
  omega

theorem ule_end (ends : a.NoOverflow) : (a.start + a.len.value).ule b.start = true ↔
      a.start.toNat + a.len.value.toNat ≤ b.start.toNat := by
  rw [BitVec.ule_eq_decide, decide_eq_true_iff, BitVec.toNat_add, Nat.mod_eq_of_lt ends]

theorem disjoint_of_shortcut (same : sameTerm = true → a.align.value = b.align.value)
    (aligned : a.Aligned) (aligned' : b.Aligned) (short : shortcut sameTerm a b = true) :
    (disjoint sameTerm a b = true ↔ ¬a.Overlap b) ↔ ¬a.EmptyApart b sameTerm := by
  unfold disjoint Block.EmptyApart
  rw [if_pos short, if_pos short, bne_iff_ne, overlap_iff]
  unfold shortcut at short
  rw [Bool.and_eq_true, Bool.and_eq_true] at short
  obtain ⟨⟨term, reach⟩, reach'⟩ := short
  have reach := len_le_of_alignGeSize reach
  have reach' := len_le_of_alignGeSize reach'
  unfold Block.Aligned at aligned aligned'
  rw [same term] at aligned reach
  rw [ne_eq, ← BitVec.toNat_inj, ← BitVec.toNat_inj, ← BitVec.toNat_inj, BitVec.toNat_zero]
  rcases lt_trichotomy a.start.toNat b.start.toNat with less | equal | more
  · have apart := le_of_aligned aligned aligned' reach less
    omega
  · omega
  · have apart := le_of_aligned aligned' aligned reach' more
    omega

theorem disjoint_of_general
    (ends : a.NoOverflow) (ends' : b.NoOverflow) (general : shortcut sameTerm a b = false) :
    (disjoint sameTerm a b = true ↔ ¬a.Overlap b) ↔ ¬a.EmptyApart b sameTerm := by
  unfold disjoint Block.EmptyApart Block.EmptyWithin Block.Has
  rw [general, if_neg Bool.false_ne_true, if_neg Bool.false_ne_true, Bool.or_eq_true,
    ule_end ends, ule_end ends', overlap_iff, ← BitVec.toNat_inj, ← BitVec.toNat_inj,
    BitVec.toNat_zero, ← BitVec.toNat_ne_iff_ne, ← BitVec.toNat_ne_iff_ne]
  omega

/-- The condition says that the blocks do not overlap, up to the empty ones that it keeps
apart from a block at the same address or around them. -/
theorem disjoint_iff_not_overlap
    (same : sameTerm = true → a.align.value = b.align.value) (aligned : a.Aligned)
    (aligned' : b.Aligned) (ends : a.NoOverflow) (ends' : b.NoOverflow) :
    (disjoint sameTerm a b = true ↔ ¬a.Overlap b) ↔ ¬a.EmptyApart b sameTerm := by
  cases short : shortcut sameTerm a b with
  | true => exact disjoint_of_shortcut same aligned aligned' short
  | false => exact disjoint_of_general ends ends' short

def emptyBlock (numeral : Bool) : Block 64 6 := ⟨8, ⟨0, numeral⟩, ⟨3, true⟩⟩

theorem disjoint_iff_not_overlap_emptyBlock :
    (disjoint true (emptyBlock false) (emptyBlock false) = true ↔
      ¬(emptyBlock false).Overlap (emptyBlock false)) ↔
      ¬(emptyBlock false).EmptyApart (emptyBlock false) true :=
  disjoint_iff_not_overlap (fun _ => rfl) (by decide) (by decide) (by decide) (by decide)

/-- Known to be empty, they are kept apart, though they share no address. -/
theorem shortcut_parts_empty_blocks :
    (emptyBlock true).Aligned ∧ (emptyBlock true).NoOverflow ∧
      ¬(emptyBlock true).Overlap (emptyBlock true) ∧
      disjoint true (emptyBlock true) (emptyBlock true) = false ∧
      disjoint false (emptyBlock true) (emptyBlock true) = true := by
  refine ⟨by decide, by decide, ?_, by decide, by decide⟩
  rw [overlap_iff]
  exact fun overlap => overlap.1 rfl

end AliveNext.IR.BlockDisjoint
