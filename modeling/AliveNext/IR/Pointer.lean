import Mathlib

/-!
# Pointers

The layout of `ir/pointer.cpp`. From its highest bit a logical pointer has the bit that
tells it apart from physical ones (only if integers are cast to pointers), padding, the
block, the offset and the attributes; a physical one has the bit, padding, the address and
the attributes.
-/

namespace AliveNext.IR

/-- The widths of the fields (`ir/globals.h`); there is a bit for each attribute in use. -/
structure Layout where
  hasInt2ptr : Bool
  hasNocapture : Bool
  hasNoread : Bool
  hasNowrite : Bool
  hasPtrArg : Bool
  hasLocalBit : Bool
  bitsForBid : Nat
  bitsForOffset : Nat
  bitsPtrAddress : Nat
  bid_positive : 0 < bitsForBid
  offset_positive : 0 < bitsForOffset
  address_positive : 0 < bitsPtrAddress

namespace Layout

variable (l : Layout)

def bitsForPtrattrs : Nat :=
  l.hasNocapture.toNat + l.hasNoread.toNat + l.hasNowrite.toNat + l.hasPtrArg.toNat

def hasLogicalBit : Bool := l.hasInt2ptr

def totalBitsLogical : Nat :=
  l.hasLogicalBit.toNat + l.bitsForPtrattrs + l.bitsForBid + l.bitsForOffset

def totalBitsPhysical : Nat :=
  l.hasLogicalBit.toNat * (1 + l.bitsForPtrattrs + l.bitsPtrAddress)

def paddingLogical : Nat := l.totalBitsPhysical - l.totalBitsLogical

def paddingPhysical : Nat := l.totalBitsLogical - l.totalBitsPhysical

def totalBits : Nat := max l.totalBitsLogical l.totalBitsPhysical

def upperBits : Nat := if l.hasLogicalBit then 1 + l.paddingLogical else 0

theorem upperBits_total :
    l.upperBits + (l.bitsForBid + l.bitsForOffset) + l.bitsForPtrattrs = l.totalBits := by
  unfold upperBits paddingLogical totalBits
  cases logical : l.hasLogicalBit with
  | true =>
    simp only [if_true, totalBitsLogical, totalBitsPhysical, logical, Bool.toNat_true]
    omega
  | false =>
    simp [totalBitsLogical, totalBitsPhysical, logical]
    omega

theorem physical_total (logical : l.hasLogicalBit = true) :
    1 + l.paddingPhysical + l.bitsPtrAddress + l.bitsForPtrattrs = l.totalBits := by
  unfold paddingPhysical totalBits totalBitsLogical totalBitsPhysical
  simp only [logical, Bool.toNat_true]
  omega

end Layout

/-- The attributes that pointers have bits for. -/
structure ParamAttrs where
  noCapture : Bool := false
  noRead : Bool := false
  noWrite : Bool := false
  isArg : Bool := false

/-- `Pointer`: its representation. -/
abbrev Pointer (l : Layout) : Type := BitVec l.totalBits

/-- `attr_to_bitvec`: each attribute in use takes the next bit. -/
def attrToBitvec (l : Layout) (attrs : ParamAttrs) : BitVec l.bitsForPtrattrs :=
  let add (state : Nat × Nat) (b a : Bool) : Nat × Nat :=
    if b then (state.1 ||| a.toNat <<< state.2, state.2 + 1) else state
  let state := add (0, 0) l.hasNocapture attrs.noCapture
  let state := add state l.hasNoread attrs.noRead
  let state := add state l.hasNowrite attrs.noWrite
  let state := add state l.hasPtrArg attrs.isArg
  BitVec.ofNat l.bitsForPtrattrs state.1

namespace Pointer

variable {l : Layout}

def mkLogical (bid : BitVec l.bitsForBid) (offset : BitVec l.bitsForOffset)
    (attr : BitVec l.bitsForPtrattrs) : Pointer l :=
  ((0#l.upperBits ++ (bid ++ offset)) ++ attr).cast l.upperBits_total

def mkPhysical (logical : l.hasLogicalBit = true) (addr : BitVec l.bitsPtrAddress)
    (attr : BitVec l.bitsForPtrattrs) : Pointer l :=
  (((1#1 ++ 0#l.paddingPhysical) ++ addr) ++ attr).cast (l.physical_total logical)

def isLogical (p : Pointer l) : Bool := if l.hasLogicalBit then !p.msb else true

def getBid (p : Pointer l) : BitVec l.bitsForBid :=
  p.extractLsb' (l.bitsForOffset + l.bitsForPtrattrs) l.bitsForBid

def getOffset (p : Pointer l) : BitVec l.bitsForOffset :=
  p.extractLsb' l.bitsForPtrattrs l.bitsForOffset

def getAttrs (p : Pointer l) : BitVec l.bitsForPtrattrs := p.extractLsb' 0 l.bitsForPtrattrs

def getPhysicalAddress (p : Pointer l) : BitVec l.bitsPtrAddress :=
  p.extractLsb' l.bitsForPtrattrs l.bitsPtrAddress

def reprWithoutAttrs (p : Pointer l) : BitVec (l.totalBits - l.bitsForPtrattrs) :=
  p.extractLsb' l.bitsForPtrattrs (l.totalBits - l.bitsForPtrattrs)

/-- `getLogAddress`, where `base` has the addresses of the blocks. -/
def getLogAddress (base : BitVec l.bitsForBid → BitVec l.bitsPtrAddress) (p : Pointer l) :
    BitVec l.bitsPtrAddress :=
  base p.getBid + p.getOffset.signExtend l.bitsPtrAddress

def getAddress (base : BitVec l.bitsForBid → BitVec l.bitsPtrAddress) (p : Pointer l) :
    BitVec l.bitsPtrAddress :=
  if p.isLogical then p.getLogAddress base else p.getPhysicalAddress

def setAttrs (p : Pointer l) (attr : ParamAttrs) : Pointer l :=
  mkLogical p.getBid p.getOffset (p.getAttrs ||| attrToBitvec l attr)

def setIsBasedOnArg (p : Pointer l) : Pointer l :=
  let idx := l.hasNocapture.toNat + l.hasNoread.toNat + l.hasNowrite.toNat
  mkLogical p.getBid p.getOffset (p.getAttrs ||| BitVec.ofNat l.bitsForPtrattrs (1 <<< idx))

section

variable (bid : BitVec l.bitsForBid) (offset : BitVec l.bitsForOffset)
  (attr : BitVec l.bitsForPtrattrs) (addr : BitVec l.bitsPtrAddress)

theorem getBid_mkLogical : (mkLogical bid offset attr).getBid = bid := by
  unfold getBid mkLogical
  ext i inside
  simp only [BitVec.getElem_extractLsb', BitVec.getLsbD_cast, BitVec.getLsbD_append]
  rw [if_neg (by omega), if_pos (by omega), if_neg (by omega)]
  rw [show l.bitsForOffset + l.bitsForPtrattrs + i - l.bitsForPtrattrs - l.bitsForOffset = i by
    omega]
  exact BitVec.getLsbD_eq_getElem inside

theorem getOffset_mkLogical : (mkLogical bid offset attr).getOffset = offset := by
  unfold getOffset mkLogical
  ext i inside
  simp only [BitVec.getElem_extractLsb', BitVec.getLsbD_cast, BitVec.getLsbD_append]
  rw [if_neg (by omega), if_pos (by omega), if_pos (by omega), Nat.add_sub_cancel_left]
  exact BitVec.getLsbD_eq_getElem inside

theorem getAttrs_mkLogical : (mkLogical bid offset attr).getAttrs = attr := by
  unfold getAttrs mkLogical
  ext i inside
  simp only [BitVec.getElem_extractLsb', BitVec.getLsbD_cast, BitVec.getLsbD_append]
  rw [if_pos (by omega), Nat.zero_add]
  exact BitVec.getLsbD_eq_getElem inside

theorem getLsbD_mkLogical_upper
    {i : Nat} (above : l.bitsForPtrattrs + l.bitsForOffset + l.bitsForBid ≤ i) :
    (mkLogical bid offset attr).getLsbD i = false := by
  unfold mkLogical
  simp only [BitVec.getLsbD_cast, BitVec.getLsbD_append]
  rw [if_neg (by omega), if_neg (by omega)]
  exact BitVec.getLsbD_zero

theorem fields_le_total :
    l.bitsForPtrattrs + l.bitsForOffset + l.bitsForBid + l.hasLogicalBit.toNat ≤ l.totalBits := by
  unfold Layout.totalBits Layout.totalBitsLogical
  omega

theorem isLogical_mkLogical : (mkLogical bid offset attr).isLogical = true := by
  unfold isLogical
  split
  · next logical =>
    have room := fields_le_total (l := l)
    rw [logical, Bool.toNat_true] at room
    rw [BitVec.msb_eq_getLsbD_last, getLsbD_mkLogical_upper _ _ _ (by omega)]
    rfl
  · rfl

variable (logical : l.hasLogicalBit = true)

theorem getPhysicalAddress_mkPhysical :
    (mkPhysical logical addr attr).getPhysicalAddress = addr := by
  unfold getPhysicalAddress mkPhysical
  ext i inside
  simp only [BitVec.getElem_extractLsb', BitVec.getLsbD_cast, BitVec.getLsbD_append]
  rw [if_neg (by omega), if_pos (by omega), Nat.add_sub_cancel_left]
  exact BitVec.getLsbD_eq_getElem inside

theorem getAttrs_mkPhysical : (mkPhysical logical addr attr).getAttrs = attr := by
  unfold getAttrs mkPhysical
  ext i inside
  simp only [BitVec.getElem_extractLsb', BitVec.getLsbD_cast, BitVec.getLsbD_append]
  rw [if_pos (by omega), Nat.zero_add]
  exact BitVec.getLsbD_eq_getElem inside

theorem isLogical_mkPhysical : (mkPhysical logical addr attr).isLogical = false := by
  have total := l.physical_total logical
  unfold isLogical mkPhysical
  rw [if_pos logical, BitVec.msb_eq_getLsbD_last]
  simp only [BitVec.getLsbD_cast, BitVec.getLsbD_append]
  rw [if_neg (by omega), if_neg (by omega), if_neg (by omega)]
  rw [show l.totalBits - 1 - l.bitsForPtrattrs - l.bitsPtrAddress - l.paddingPhysical = 0 by omega]
  rfl

end

section

variable {p q : Pointer l} {base : BitVec l.bitsForBid → BitVec l.bitsPtrAddress}

structure Keeps (base : BitVec l.bitsForBid → BitVec l.bitsPtrAddress) (p q : Pointer l) :
    Prop where
  isLogical : q.isLogical = p.isLogical
  address : q.getAddress base = p.getAddress base
  repr : q.reprWithoutAttrs = p.reprWithoutAttrs

def Canonical (p : Pointer l) : Prop :=
  p.extractLsb' (l.bitsForPtrattrs + l.bitsForOffset + l.bitsForBid) l.upperBits = 0

theorem repr_eq_iff : q.reprWithoutAttrs = p.reprWithoutAttrs ↔
      ∀ i, l.bitsForPtrattrs ≤ i → q.getLsbD i = p.getLsbD i := by
  unfold reprWithoutAttrs
  constructor
  · intro same i above
    by_cases inside : i < l.totalBits
    · have bit := congrArg (fun x => x.getLsbD (i - l.bitsForPtrattrs)) same
      rw [BitVec.getLsbD_extractLsb', BitVec.getLsbD_extractLsb', Nat.add_sub_cancel' above,
        decide_eq_true (by omega), Bool.true_and, Bool.true_and] at bit
      exact bit
    · rw [BitVec.getLsbD_of_ge q i (not_lt.1 inside), BitVec.getLsbD_of_ge p i (not_lt.1 inside)]
  · intro same
    ext i inside
    rw [BitVec.getElem_extractLsb', BitVec.getElem_extractLsb', same _ (Nat.le_add_right _ i)]

theorem Keeps.of_repr (same : q.reprWithoutAttrs = p.reprWithoutAttrs) : Keeps base p q := by
  have bits := repr_eq_iff.1 same
  have part : ∀ start width, l.bitsForPtrattrs ≤ start →
      q.extractLsb' start width = p.extractLsb' start width := by
    intro start width above
    ext i inside
    rw [BitVec.getElem_extractLsb', BitVec.getElem_extractLsb', bits _ (by omega)]
  have logical : q.isLogical = p.isLogical := by
    have room := fields_le_total (l := l)
    have some_bit := l.bid_positive
    unfold Pointer.isLogical
    rw [BitVec.msb_eq_getLsbD_last, BitVec.msb_eq_getLsbD_last, bits _ (by omega)]
  refine ⟨logical, ?_, same⟩
  have bid : q.getBid = p.getBid := part _ _ (Nat.le_add_left _ _)
  have offset : q.getOffset = p.getOffset := part _ _ (le_refl _)
  have address : q.getPhysicalAddress = p.getPhysicalAddress := part _ _ (le_refl _)
  unfold getAddress getLogAddress
  rw [logical, bid, offset, address]

variable {attr : BitVec l.bitsForPtrattrs}

theorem getLsbD_rebuild {i : Nat} (above : l.bitsForPtrattrs ≤ i) :
    (mkLogical p.getBid p.getOffset attr).getLsbD i =
      (decide (i < l.bitsForPtrattrs + l.bitsForOffset + l.bitsForBid) && p.getLsbD i) := by
  by_cases inside : i < l.bitsForPtrattrs + l.bitsForOffset + l.bitsForBid
  · rw [decide_eq_true inside, Bool.true_and]
    unfold mkLogical getBid getOffset
    simp only [BitVec.getLsbD_cast, BitVec.getLsbD_append, BitVec.getLsbD_extractLsb']
    rw [if_neg (by omega), if_pos (by omega)]
    by_cases in_offset : i - l.bitsForPtrattrs < l.bitsForOffset
    · rw [if_pos in_offset, decide_eq_true in_offset, Bool.true_and, Nat.add_sub_cancel' above]
    · rw [if_neg in_offset, decide_eq_true (by omega), Bool.true_and]
      congr 1
      omega
  · rw [decide_eq_false inside, Bool.false_and]
    exact getLsbD_mkLogical_upper _ _ _ (not_lt.1 inside)

theorem keeps_rebuild_iff : Keeps base p (mkLogical p.getBid p.getOffset attr) ↔ p.Canonical := by
  have total := l.upperBits_total
  unfold Canonical
  constructor
  · intro keeps
    have bits := repr_eq_iff.1 keeps.repr
    ext i inside
    have bit := bits (l.bitsForPtrattrs + l.bitsForOffset + l.bitsForBid + i) (by omega)
    rw [getLsbD_mkLogical_upper _ _ _ (by omega)] at bit
    rw [BitVec.getElem_extractLsb', ← bit]
    simp
  · intro zero
    refine .of_repr (repr_eq_iff.2 fun i above => ?_)
    rw [getLsbD_rebuild above]
    by_cases inside : i < l.bitsForPtrattrs + l.bitsForOffset + l.bitsForBid
    · rw [decide_eq_true inside, Bool.true_and]
    · rw [decide_eq_false inside, Bool.false_and]
      by_cases fits : i < l.totalBits
      · have bit := congrArg (fun x => x.getLsbD
          (i - (l.bitsForPtrattrs + l.bitsForOffset + l.bitsForBid))) zero
        rw [BitVec.getLsbD_extractLsb', Nat.add_sub_cancel' (not_lt.1 inside),
          decide_eq_true (by omega), Bool.true_and] at bit
        rw [bit]
        exact BitVec.getLsbD_zero.symm
      · rw [BitVec.getLsbD_of_ge p i (not_lt.1 fits)]

end

/-- The fields of a new pointer are read back. Setting attributes keeps the rest of a
pointer exactly if it is logical and its padding is zero. -/
theorem attributes_keep_iff (l : Layout) (base : BitVec l.bitsForBid → BitVec l.bitsPtrAddress) :
    (∀ bid offset attr, (mkLogical bid offset attr : Pointer l).getBid = bid ∧
      (mkLogical bid offset attr).getOffset = offset ∧
      (mkLogical bid offset attr).getAttrs = attr ∧
      (mkLogical bid offset attr).isLogical = true) ∧
    (∀ logical addr attr, (mkPhysical logical addr attr : Pointer l).getPhysicalAddress = addr ∧
      (mkPhysical logical addr attr).getAttrs = attr ∧
      (mkPhysical logical addr attr).isLogical = false) ∧
    ∀ p : Pointer l, (∀ attr, Keeps base p (p.setAttrs attr) ↔ p.Canonical) ∧
      (Keeps base p p.setIsBasedOnArg ↔ p.Canonical) :=
  ⟨fun bid offset attr => ⟨getBid_mkLogical bid offset attr, getOffset_mkLogical bid offset attr,
      getAttrs_mkLogical bid offset attr, isLogical_mkLogical bid offset attr⟩,
    fun logical addr attr => ⟨getPhysicalAddress_mkPhysical attr addr logical,
      getAttrs_mkPhysical attr addr logical, isLogical_mkPhysical attr addr logical⟩,
    fun _ => ⟨fun _ => keeps_rebuild_iff, keeps_rebuild_iff⟩⟩

def smallLayout : Layout where
  hasInt2ptr := true
  hasNocapture := false
  hasNoread := false
  hasNowrite := true
  hasPtrArg := false
  hasLocalBit := false
  bitsForBid := 1
  bitsForOffset := 4
  bitsPtrAddress := 4
  bid_positive := Nat.one_pos
  offset_positive := by decide
  address_positive := by decide

theorem attributes_keep_smallLayout :
    (mkPhysical rfl 5 0 : Pointer smallLayout).getPhysicalAddress = 5 ∧
      Keeps (fun _ => 0) (mkLogical 1 3 0 : Pointer smallLayout)
        ((mkLogical 1 3 0 : Pointer smallLayout).setAttrs { noWrite := true }) :=
  have fields := attributes_keep_iff smallLayout fun _ => 0
  ⟨(fields.2.1 rfl 5 0).1, ((fields.2.2 _).1 _).2 (by unfold Canonical; decide)⟩

/-- A physical pointer becomes a logical one. -/
theorem attributes_of_physical :
    ¬∀ (l : Layout) (base : BitVec l.bitsForBid → BitVec l.bitsPtrAddress) (p : Pointer l)
      (attr : ParamAttrs), Keeps base p (p.setAttrs attr) := by
  intro claim
  have kept := (claim smallLayout (fun _ => 0) (mkPhysical rfl 5 0) { noWrite := true }).isLogical
  have before : (mkPhysical rfl 5 0 : Pointer smallLayout).isLogical = false := by decide
  have after : ((mkPhysical rfl 5 0 : Pointer smallLayout).setAttrs
      { noWrite := true }).isLogical = true := by decide
  rw [before, after] at kept
  cases kept

end Pointer

end AliveNext.IR
