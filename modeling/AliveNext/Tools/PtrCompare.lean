import AliveNext.IR.LogicalLocal
import AliveNext.Tools.BaseRuns
import AliveNext.Tools.EncodingConsistent

/-!
# Shortcuts of pointer comparisons

`optimize_ptrcmp` (`tools/transform.cpp`) lets some comparisons of pointers look at the offsets
only, or at the representation. In bounds of a block offsets are ordered as addresses are, and
one block has one address.
-/

namespace AliveNext.Tools.BasePointer

open IR IR.Pointer
open IR.Accesses (PtrCmpMode)

namespace Cond

def isEq : Cond → Bool
  | .eq | .ne => true
  | _ => false

def isSigned : Cond → Bool
  | .sle | .slt | .sge | .sgt => true
  | _ => false

/-- The comparison in `ICmp::toSMT`, which is not reached for `Any`. -/
def compare {n : Nat} (cond : Cond) (a b : BitVec n) : Bool :=
  match cond with
  | .eq => a == b
  | .ne => a != b
  | .sle => a.sle b
  | .slt => a.slt b
  | .sge => b.sle a
  | .sgt => b.slt a
  | .ule => a.ule b
  | .ult => a.ult b
  | .uge => b.ule a
  | .ugt => b.ult a
  | .any => false

end Cond

/-- `build_icmp_chain`: the tests of the variable start with that for `EQ`. -/
def buildIcmpChain (var : BitVec 4) (fn : Cond → Bool) : Bool :=
  [(0, Cond.eq), (1, .ne), (2, .sle), (3, .slt), (4, .sge), (5, .sgt), (6, .ule), (7, .ult),
    (8, .uge)].foldr
    (fun (test : Nat × Cond) last => if var == BitVec.ofNat 4 test.1 then fn test.2 else last)
    (fn .ugt)

namespace Fn

variable (f : Fn)

def getInt (v : Nat) : Option Int :=
  match f.value v with
  | .intConst c => c.int
  | _ => none

def isNullPointer (v : Nat) : Bool :=
  match f.value v with
  | .nullPointer => true
  | _ => false

/-- The function `is_inbounds` in `optimize_ptrcmp`. -/
def isInbounds (v : Nat) : Bool :=
  match f.value v with
  | .gep inbounds _ _ _ idxs =>
    inbounds && idxs.any fun idx => idx.1 ≠ 0 && (f.getInt idx.2).getD 0 ≠ 0
  | .fnCall attrs =>
    (attrs.noAlias || attrs.isAlloc) && (0 < attrs.derefBytes || 0 < attrs.derefOrNullBytes)
  | .alloc => true
  | _ => false

/-- What `optimize_ptrcmp` makes of a comparison. -/
def ptrCmpMode (cond : Cond) (op0 op1 : Nat) : PtrCmpMode :=
  let mode : PtrCmpMode :=
    if cond.isEq && (f.isInbounds op0 && f.isNullPointer op1 ||
        f.isInbounds op1 && f.isNullPointer op0) then .provenance
    else .integral
  let base0 := f.getBasePtr op0
  let base1 := f.getBasePtr op1
  if base0.isSome && base0 = base1 then
    if cond.isEq || f.isInbounds op0 && f.isInbounds op1 && !cond.isSigned then .offsetOnly
    else mode
  else mode

end Fn

/-! ## Memory -/

structure PtrLayout (t : Widths.Transform) extends Layout where
  bid_width : bitsForBid = (Widths.calculateAndInitConstants t).bitsForBid
  offset_width : bitsForOffset = (Widths.calculateAndInitConstants t).bitsForOffset
  address_width : bitsPtrAddress = (Widths.calculateAndInitConstants t).bitsPtrAddress

variable {t : Widths.Transform} {l : PtrLayout t}

theorem PtrLayout.offset_eq_address (l : PtrLayout t) : l.bitsForOffset = l.bitsPtrAddress := by
  rw [l.offset_width, l.address_width]
  exact max_eq_left (Widths.bitsOfGeps_le_address t)

/-- The blocks of one execution: their addresses and sizes, with the axioms about both. -/
structure Mem (t : Widths.Transform) (l : PtrLayout t) where
  hasNullBlock : Bool
  isAsmMode : Bool
  base : BitVec l.bitsForBid → BitVec l.bitsPtrAddress
  maxSize : BitVec l.bitsForBid → BitVec (Widths.calculateAndInitConstants t).bitsSizeT
  Block : BitVec l.bitsForBid → Prop
  null : hasNullBlock = true → Block 0 ∧ base 0 = 0
  placed : ∀ bid, Block bid → hasNullBlock = true ∧ bid = 0 ∨
    base bid ≠ 0 ∧ (base bid).toNat + (maxSize bid).toNat < 2 ^ l.bitsPtrAddress

namespace Mem

variable (m : Mem t l)

def bitsSizeT (_ : Mem t l) : Nat := (Widths.calculateAndInitConstants t).bitsSizeT

def nullPointer (_ : Mem t l) : Pointer l.toLayout := mkLogical 0 0 0

def isInbounds (p : Pointer l.toLayout) : Bool :=
  let width := max l.bitsForOffset m.bitsSizeT
  let offset := p.getOffset.signExtend width
  let size := (m.maxSize p.getBid).setWidth width
  offset.ule size && (decide (m.bitsSizeT < l.bitsForOffset) || !offset.msb)

def Known (p : Pointer l.toLayout) : Prop := p.isLogical = true → m.Block p.getBid

def InSomeBlock (p : Pointer l.toLayout) (bytes : Nat) : Prop :=
  ∃ bid, m.Block bid ∧ (m.base bid).toNat ≤ (p.getAddress m.base).toNat ∧
    (p.getAddress m.base).toNat + bytes ≤ (m.base bid).toNat + (m.maxSize bid).toNat

/-- `isDereferenceable`, but for alignment and liveness; a block has at most its maximal size. -/
def IsDereferenceable (p : Pointer l.toLayout) (bytes : Nat) : Prop :=
  p.isLogical = true ∧
      (p.getOffset.toNat + bytes ≤ (m.maxSize p.getBid).toNat ∧ p.getOffset.msb = false) ∨
    (p.isLogical = false ∨ m.isAsmMode = true) ∧ m.InSomeBlock p bytes

/-! ### `ICmp::toSMT` -/

/-- The comparison of two pointers; `PROVENANCE` is for `EQ` and `NE`. -/
def ptrCompare (mode : PtrCmpMode) (cond : Cond) (p q : Pointer l.toLayout) : Bool :=
  match mode with
  | .integral => cond.compare (p.getAddress m.base) (q.getAddress m.base)
  | .provenance =>
    if cond = .eq then p.reprWithoutAttrs == q.reprWithoutAttrs
    else p.reprWithoutAttrs != q.reprWithoutAttrs
  | .offsetOnly => cond.compare p.getOffset q.getOffset

/-- A lane of a comparison of pointers that are not poison: its value and whether it is not
poison. -/
def icmpToSMT (mode : PtrCmpMode) (cond : Cond) (condVar : BitVec 4) (sameSign : Bool)
    (p q : Pointer l.toLayout) : Bool × Bool :=
  let fn2 (c : Cond) : Bool := m.ptrCompare mode c p q
  let v := if cond ≠ .any then fn2 cond else buildIcmpChain condVar fn2
  (v, !sameSign || (p.getAddress m.base).msb == (q.getAddress m.base).msb)

/-! ### `GEP::toSMT` -/

def addNoUsoverflow {n : Nat} (a b : BitVec n) : Bool :=
  !(a.setWidth (n + 1) + b.signExtend (n + 1)).msb

def addNoUSOverflow (p : Pointer l.toLayout) (offset : BitVec l.bitsForOffset)
    (offsetOnly : Bool) : Bool :=
  if offsetOnly then !p.getOffset.saddOverflow offset
  else addNoUsoverflow (p.getAddress m.base) (offset.signExtend l.bitsPtrAddress)

def addNoUOverflow (p : Pointer l.toLayout) (offset : BitVec l.bitsForOffset)
    (offsetOnly : Bool) : Bool :=
  if offsetOnly then !p.getOffset.uaddOverflow offset
  else !(p.getAddress m.base).uaddOverflow (offset.signExtend l.bitsPtrAddress)

abbrev Index : Type := Nat × (width : Nat) × BitVec width

/-- The variables of the loop over the indices. -/
structure GepState (l : PtrLayout t) where
  ptr : Pointer l.toLayout
  nonPoison : Bool
  inboundsNp : Bool
  idxAllZeros : Bool
  offsetSum : BitVec l.bitsForOffset

/-- One round of the loop; the constructor sets `nusw` if `inbounds` is set. -/
def gepStep (inbounds nusw nuw : Bool) (s : GepState l) : Index → GepState l
  | (sz, ⟨width, v⟩) =>
    let program := t.target.bitsPointers
    let multiplier := BitVec.ofNat l.bitsForOffset sz
    let val := v.signExtend l.bitsForOffset
    let inc := multiplier * val
    let noWrap := !nusw ||
      ((decide (width ≤ program) || (v.setWidth program).signExtend width == v) &&
        !multiplier.smulOverflow val && m.addNoUSOverflow s.ptr inc inbounds &&
        (inbounds || !s.offsetSum.saddOverflow inc))
    let noUnsignedWrap := !nuw || ((decide (width ≤ program) || decide (v.toNat < 2 ^ program)) &&
      !multiplier.umulOverflow val && m.addNoUOverflow s.ptr inc inbounds)
    let ptr := s.ptr.add inc
    { ptr := ptr
      nonPoison := s.nonPoison && noWrap && noUnsignedWrap
      inboundsNp := s.inboundsNp && (!inbounds || m.isInbounds ptr)
      idxAllZeros := s.idxAllZeros && (!(inbounds && sz ≠ 0) || v == 0)
      offsetSum := if nusw && !inbounds then s.offsetSum + inc else s.offsetSum }

/-- A lane of a GEP whose operands are not poison; `none` if it is poison or its execution
undefined. Where the source simplifies the pointer it is in bounds, which keeps it. -/
def gepToSMT (inbounds nusw nuw : Bool) (ptr : Pointer l.toLayout) (offsets : List Index) :
    Option (Pointer l.toLayout) :=
  let start : GepState l := ⟨ptr, true, !inbounds || m.isInbounds ptr, true, 0⟩
  let s := offsets.foldl (m.gepStep inbounds (nusw || inbounds) nuw) start
  if inbounds && !ptr.isLogical then none
  else if s.nonPoison && (!inbounds || s.idxAllZeros || s.inboundsNp) then some s.ptr
  else none

/-! ## What values read as -/

end Mem

/-- What a lane that is not poison reads as. -/
inductive Reading (l : PtrLayout t) where
  | ptr (p : Pointer l.toLayout)
  | int (value : (width : Nat) × BitVec width)

namespace Mem

/-- The result of a call: `Memory::alloc` makes a block or fails. -/
def CallResult (m : Mem t l) (attrs : FnAttrs) (p : Pointer l.toLayout) : Prop :=
  if attrs.allocates then
    m.hasNullBlock = true ∧ p = m.nullPointer ∨ ∃ bid, m.Block bid ∧ p = mkLogical bid 0 0
  else
    m.Known p ∧ (0 < attrs.derefBytes → m.IsDereferenceable p attrs.derefBytes) ∧
      (0 < attrs.derefOrNullBytes → p.getAddress m.base = 0 ∨
        m.IsDereferenceable p attrs.derefOrNullBytes)

/-- What a value reads as in an execution that is not undefined. The condition of a select is not
looked at, and a pointer from elsewhere is to any block. -/
def Means (m : Mem t l) (value : Value) (env : Fn.Env (Reading l)) (read : Nat → Set (Reading l)) :
    Prop :=
  match value with
  | .gep inbounds nusw nuw ptr idxs =>
    ∀ lane, read lane = {x | ∃ p q offsets, .ptr p ∈ env ptr lane ∧
      List.Forall₂ (fun (idx : Nat × Nat) (offset : Index) =>
        offset.1 = idx.1 ∧ .int offset.2 ∈ env idx.2 lane) idxs offsets ∧
      m.gepToSMT inbounds nusw nuw p offsets = some q ∧ x = .ptr q}
  | .noOp value => read = env value
  | .phi _ => False
  | .select onTrue onFalse => ∀ lane, read lane ⊆ env onTrue lane ∪ env onFalse lane
  | .nullPointer => m.hasNullBlock = true ∧ ∀ lane, read lane = {.ptr m.nullPointer}
  | .alloc => ∃ bid, m.Block bid ∧ ∀ lane, read lane = {.ptr (mkLogical bid 0 0)}
  | .fnCall attrs => ∀ lane p, .ptr p ∈ read lane → m.CallResult attrs p
  | .intConst c => ∀ lane,
    (∀ n, c.int = some n → read lane = {.int ⟨c.bits, BitVec.ofInt c.bits n⟩}) ∧
      ∀ p, .ptr p ∉ read lane
  | .icmp _ _ _ => ∀ lane p, .ptr p ∉ read lane
  | .other => ∀ lane p, .ptr p ∈ read lane → m.Known p

def SameBlock (x y : Reading l) : Prop :=
  match x, y with
  | .ptr p, .ptr q => p.isLogical = q.isLogical ∧ (p.isLogical = true → p.getBid = q.getBid)
  | .int _, .int _ => True
  | _, _ => False

structure Regular (m : Mem t l) (p : Pointer l.toLayout) : Prop where
  inbounds : p.isLogical = true → m.isInbounds p = true
  null : p.getAddress m.base = 0 → p.reprWithoutAttrs = m.nullPointer.reprWithoutAttrs

variable {m : Mem t l} {p q : Pointer l.toLayout}

theorem SameBlock.refl (x : Reading l) : SameBlock x x := by
  cases x with
  | ptr p => exact ⟨rfl, fun _ => rfl⟩
  | int i => trivial

variable {x y : Reading l} {width n v lane : Nat} {nusw nuw inbounds : Bool} {offsets : List Index}
  {cond : Cond} {a : BitVec n} {b : BitVec n} {c : BitVec n}

theorem SameBlock.symm (same : SameBlock x y) : SameBlock y x := by
  cases x with
  | ptr p =>
    cases y with
    | ptr q => exact ⟨same.1.symm, fun logical => (same.2 (same.1.trans logical)).symm⟩
    | int i => exact same.elim
  | int i =>
    cases y with
    | ptr q => exact same.elim
    | int j => trivial

theorem SameBlock.trans
    {z : Reading l} (first : SameBlock x y) (second : SameBlock y z) : SameBlock x z := by
  cases x with
  | ptr p =>
    cases y with
    | ptr q =>
      cases z with
      | ptr r =>
        exact ⟨first.1.trans second.1,
          fun logical => (first.2 logical).trans (second.2 (first.1 ▸ logical))⟩
      | int i => exact second.elim
    | int i => exact first.elim
  | int i =>
    cases y with
    | ptr q => exact first.elim
    | int j =>
      cases z with
      | ptr r => exact second.elim
      | int k => trivial

/-! ### Addition -/

theorem isLogical_add (bytes : BitVec width) : (p.add bytes).isLogical = p.isLogical := by
  unfold add
  split
  · next physical => rw [isLogical_mkPhysical, physical.2]
  · next logical =>
    rw [isLogical_mkLogical]
    cases known : p.isLogical with
    | true => rfl
    | false =>
      refine absurd ⟨?_, known⟩ logical
      unfold Pointer.isLogical at known
      split at known
      · next bit => exact bit
      · cases known

theorem add_logical (bytes : BitVec width) (logical : p.isLogical = true) :
    p.add bytes = mkLogical p.getBid (p.getOffset + bytes.setWidth l.bitsForOffset) p.getAttrs := by
  unfold add
  rw [dif_neg (by rw [logical]; exact fun both => Bool.noConfusion both.2)]

theorem canonical_mkLogical {l : Layout} (bid : BitVec l.bitsForBid)
    (offset : BitVec l.bitsForOffset) (attr : BitVec l.bitsForPtrattrs) :
    (mkLogical bid offset attr).Canonical := by
  unfold Canonical
  ext i inside
  rw [BitVec.getElem_extractLsb', getLsbD_mkLogical_upper _ _ _ (by omega)]
  simp

/-! ### GEPs -/

theorem gepStep_ptr (inbounds nusw nuw : Bool) (s : GepState l) (idx : Index) :
    ∃ inc : BitVec l.bitsForOffset, (m.gepStep inbounds nusw nuw s idx).ptr = s.ptr.add inc :=
  ⟨_, rfl⟩

theorem gepLoop_sameBlock (inbounds nusw nuw : Bool) (offsets : List Index) (s : GepState l) :
    SameBlock (.ptr (offsets.foldl (m.gepStep inbounds nusw nuw) s).ptr) (.ptr s.ptr) := by
  induction offsets generalizing s with
  | nil => exact ⟨rfl, fun _ => rfl⟩
  | cons idx offsets ih =>
    obtain ⟨logical, bid⟩ := ih (m.gepStep inbounds nusw nuw s idx)
    obtain ⟨inc, shape⟩ := gepStep_ptr (m := m) inbounds nusw nuw s idx
    rw [shape, isLogical_add] at logical
    refine ⟨logical, fun known => ?_⟩
    rw [List.foldl_cons, bid known, shape, add_logical inc (logical ▸ known), getBid_mkLogical]

/-- In bounds after each index, and made by adding the last one. -/
structure GepDone (m : Mem t l) (s : GepState l) : Prop where
  inbounds : s.inboundsNp = true → m.isInbounds s.ptr = true
  canonical : s.ptr.isLogical = true → s.ptr.Canonical

theorem gepStep_done (nusw nuw : Bool) (s : GepState l) (idx : Index) :
    m.GepDone (m.gepStep true nusw nuw s idx) := by
  constructor
  · intro np
    exact (Bool.and_eq_true _ _ ▸ np).2
  · obtain ⟨inc, shape⟩ := gepStep_ptr (m := m) true nusw nuw s idx
    rw [shape, isLogical_add]
    intro logical
    rw [add_logical inc logical]
    exact canonical_mkLogical _ _ _

theorem gepLoop_done (nusw nuw : Bool) (offsets : List Index) (s : GepState l)
    (nonempty : offsets ≠ []) : m.GepDone (offsets.foldl (m.gepStep true nusw nuw) s) := by
  obtain ⟨init, last, split⟩ := (List.eq_nil_or_concat offsets).resolve_left nonempty
  rw [split, List.concat_eq_append, List.foldl_append]
  exact gepStep_done nusw nuw _ last

theorem gepLoop_idxAllZeros {s : GepState l}
    (zeros : (offsets.foldl (m.gepStep true nusw nuw) s).idxAllZeros = true) :
    s.idxAllZeros = true ∧ ∀ idx ∈ offsets, idx.1 ≠ 0 → idx.2.2 = 0 := by
  induction offsets generalizing s with
  | nil => exact ⟨zeros, List.forall_mem_nil _⟩
  | cons idx offsets ih =>
    obtain ⟨first, others⟩ := ih zeros
    have both : s.idxAllZeros = true ∧ (!(true && decide (idx.1 ≠ 0)) || idx.2.2 == 0) = true :=
      (Bool.and_eq_true _ _).mp first
    refine ⟨both.1, fun other member size => ?_⟩
    rcases List.mem_cons.1 member with rfl | later
    · simpa [size] using both.2
    · exact others other later size

theorem gepToSMT_inbounds {idx : Index} (result : m.gepToSMT true nusw nuw p offsets = some q)
    (member : idx ∈ offsets) (size : idx.1 ≠ 0) (nonzero : idx.2.2 ≠ 0) :
    q.isLogical = true ∧ m.isInbounds q = true ∧ q.Canonical := by
  unfold gepToSMT at result
  dsimp only at result
  split at result
  · cases result
  · next defined =>
    split at result
    · next np =>
      cases result
      have logical : p.isLogical = true := by simpa using defined
      rw [Bool.and_eq_true, Bool.or_eq_true, Bool.or_eq_true] at np
      have inside := np.2.resolve_left fun zeros => by
        rcases zeros with impossible | zeros
        · cases impossible
        · exact nonzero ((gepLoop_idxAllZeros zeros).2 idx member size)
      obtain ⟨inbounds, canonical⟩ := gepLoop_done (m := m) (nusw || true) nuw offsets
        ⟨p, true, !true || m.isInbounds p, true, 0⟩ (List.ne_nil_of_mem member)
      have same := (gepLoop_sameBlock (m := m) true (nusw || true) nuw offsets
        ⟨p, true, !true || m.isInbounds p, true, 0⟩).1
      have logical' := same.trans logical
      exact ⟨logical', inbounds inside, canonical logical'⟩
    · cases result

theorem gepToSMT_sameBlock
    (result : m.gepToSMT inbounds nusw nuw p offsets = some q) : SameBlock (.ptr q) (.ptr p) := by
  unfold gepToSMT at result
  dsimp only at result
  split at result
  · cases result
  · split at result
    · cases result
      exact gepLoop_sameBlock _ _ _ _ _
    · cases result

/-! ### Addresses -/

theorem getAddress_logical (logical : p.isLogical = true) :
    p.getAddress m.base = m.base p.getBid + p.getOffset.setWidth l.bitsPtrAddress := by
  unfold getAddress getLogAddress
  rw [if_pos logical, BitVec.signExtend_eq_setWidth_of_le _ l.offset_eq_address.ge]

theorem getAddress_physical (physical : p.isLogical = false) :
    p.getAddress m.base = p.getOffset.setWidth l.bitsPtrAddress := by
  unfold getAddress getPhysicalAddress getOffset
  rw [physical, if_neg Bool.false_ne_true]
  ext i inside
  rw [BitVec.getElem_extractLsb', BitVec.getElem_setWidth, BitVec.getLsbD_extractLsb',
    decide_eq_true (by rw [l.offset_eq_address]; exact inside), Bool.true_and]

theorem getOffset_lt (p : Pointer l.toLayout) : p.getOffset.toNat < 2 ^ l.bitsPtrAddress :=
  p.getOffset.isLt.trans_eq (congrArg _ l.offset_eq_address)

theorem toNat_offset (p : Pointer l.toLayout) :
    (p.getOffset.setWidth l.bitsPtrAddress).toNat = p.getOffset.toNat := by
  rw [BitVec.toNat_setWidth, Nat.mod_eq_of_lt (getOffset_lt p)]

theorem isInbounds_eq (p : Pointer l.toLayout) :
    m.isInbounds p = (p.getOffset.ule ((m.maxSize p.getBid).setWidth l.bitsForOffset) &&
      (decide (m.bitsSizeT < l.bitsForOffset) || !p.getOffset.msb)) := by
  have width : max l.bitsForOffset m.bitsSizeT = l.bitsForOffset :=
    max_eq_left (l.offset_eq_address.symm ▸ l.address_width ▸ Widths.bitsSizeT_le t)
  unfold isInbounds
  dsimp only
  rw [width, BitVec.signExtend_eq]

theorem isInbounds_le
    (inbounds : m.isInbounds p = true) : p.getOffset.toNat ≤ (m.maxSize p.getBid).toNat := by
  rw [isInbounds_eq, Bool.and_eq_true, BitVec.ule, decide_eq_true_eq] at inbounds
  refine inbounds.1.trans ?_
  rw [BitVec.toNat_setWidth]
  exact Nat.mod_le _ _

theorem toNat_getAddress
    (known : m.Known p) (logical : p.isLogical = true) (inbounds : m.isInbounds p = true) :
    (p.getAddress m.base).toNat = (m.base p.getBid).toNat + p.getOffset.toNat ∧
      (m.base p.getBid = 0 → m.hasNullBlock = true ∧ p.getBid = 0) := by
  have most := isInbounds_le inbounds
  have fits := getOffset_lt p
  rw [getAddress_logical logical, BitVec.toNat_add, toNat_offset]
  rcases m.placed p.getBid (known logical) with ⟨null, bid⟩ | ⟨nonzero, room⟩
  · have start : m.base p.getBid = 0 := bid ▸ (m.null null).2
    refine ⟨?_, fun _ => ⟨null, bid⟩⟩
    rw [start, BitVec.ofNat_eq_ofNat, BitVec.toNat_ofNat, Nat.zero_mod, Nat.zero_add,
      Nat.mod_eq_of_lt fits]
  · exact ⟨Nat.mod_eq_of_lt (by omega), fun start => absurd start nonzero⟩

theorem Regular.of_inbounds (known : m.Known p) (logical : p.isLogical = true)
    (inbounds : m.isInbounds p = true) (canonical : p.Canonical) : m.Regular p := by
  refine ⟨fun _ => inbounds, fun null => ?_⟩
  obtain ⟨address, start⟩ := toNat_getAddress known logical inbounds
  rw [null, BitVec.ofNat_eq_ofNat, BitVec.toNat_ofNat, Nat.zero_mod] at address
  have offset : p.getOffset = 0 := BitVec.eq_of_toNat_eq (by simp; omega)
  have bid : p.getBid = 0 := (start (BitVec.eq_of_toNat_eq (by simp; omega))).2
  have keeps : Keeps m.base p (mkLogical p.getBid p.getOffset 0) :=
    keeps_rebuild_iff.2 canonical
  rw [bid, offset] at keeps
  exact keeps.repr.symm

theorem isInbounds_start (m : Mem t l) (bid : BitVec l.bitsForBid) :
    m.isInbounds (mkLogical bid 0 0) = true := by
  rw [isInbounds_eq, getOffset_mkLogical, getBid_mkLogical]
  simp [BitVec.ule]

theorem regular_start
    {bid : BitVec l.bitsForBid} (block : m.Block bid) : m.Regular (mkLogical bid 0 0) :=
  .of_inbounds (fun _ => (getBid_mkLogical (l := l.toLayout) bid 0 0).symm ▸ block)
    (isLogical_mkLogical _ _ _) (m.isInbounds_start bid) (canonical_mkLogical _ _ _)

/-! ### Comparisons -/

theorem compare_setWidth {k : Nat}
    (same : n = k) : cond.compare (a.setWidth k) (b.setWidth k) = cond.compare a b := by
  subst same
  rw [BitVec.setWidth_eq, BitVec.setWidth_eq]

theorem compare_add_isEq
    (isEq : cond.isEq = true) : cond.compare (c + a) (c + b) = cond.compare a b := by
  cases cond with
  | eq =>
    show (c + a == c + b) = (a == b)
    rw [Bool.eq_iff_iff, beq_iff_eq, beq_iff_eq]
    exact add_right_inj c
  | ne =>
    show (!(c + a == c + b)) = !(a == b)
    rw [Bool.eq_iff_iff, Bool.not_eq_true', Bool.not_eq_true', beq_eq_false_iff_ne,
      beq_eq_false_iff_ne]
    exact (add_right_injective c).ne_iff
  | _ => cases isEq

theorem compare_add_unsigned (specified : cond ≠ .any) (unsigned : cond.isSigned = false)
    (left : (c + a).toNat = c.toNat + a.toNat) (right : (c + b).toNat = c.toNat + b.toNat) :
    cond.compare (c + a) (c + b) = cond.compare a b := by
  have ule : ∀ x y : BitVec n, (c + x).toNat = c.toNat + x.toNat →
      (c + y).toNat = c.toNat + y.toNat → (c + x).ule (c + y) = x.ule y := by
    intro x y first second
    rw [BitVec.ule, BitVec.ule, first, second, decide_eq_decide]
    omega
  have ult : ∀ x y : BitVec n, (c + x).toNat = c.toNat + x.toNat →
      (c + y).toNat = c.toNat + y.toNat → (c + x).ult (c + y) = x.ult y := by
    intro x y first second
    rw [BitVec.ult, BitVec.ult, first, second, decide_eq_decide]
    omega
  cases cond with
  | eq => exact compare_add_isEq rfl
  | ne => exact compare_add_isEq rfl
  | ule => exact ule a b left right
  | ult => exact ult a b left right
  | uge => exact ule b a right left
  | ugt => exact ult b a right left
  | any => exact absurd rfl specified
  | _ => cases unsigned

theorem offsetonly_agrees (specified : cond ≠ .any) (same : SameBlock (.ptr p) (.ptr q))
    (known : m.Known p ∧ m.Known q) (order : cond.isEq = true ∨ cond.isSigned = false ∧
      (p.isLogical = true → m.isInbounds p = true ∧ m.isInbounds q = true)) :
    m.ptrCompare .offsetOnly cond p q = m.ptrCompare .integral cond p q := by
  obtain ⟨kind, bid⟩ := same
  show cond.compare p.getOffset q.getOffset = cond.compare (p.getAddress m.base)
    (q.getAddress m.base)
  rw [← compare_setWidth l.offset_eq_address]
  cases logical : p.isLogical with
  | false => rw [getAddress_physical logical, getAddress_physical (kind ▸ logical)]
  | true =>
    have logical' : q.isLogical = true := kind ▸ logical
    have bid := bid logical
    have leftAddress := getAddress_logical (m := m) logical
    have rightAddress := getAddress_logical (m := m) logical'
    rw [← bid] at rightAddress
    rcases order with isEq | ⟨unsigned, inside⟩
    · rw [leftAddress, rightAddress, compare_add_isEq isEq]
    · obtain ⟨inP, inQ⟩ := inside logical
      have left := (toNat_getAddress known.1 logical inP).1
      have right := (toNat_getAddress known.2 logical' inQ).1
      rw [leftAddress, ← toNat_offset] at left
      rw [← bid, rightAddress, ← toNat_offset] at right
      rw [leftAddress, rightAddress, compare_add_unsigned specified unsigned left right]

theorem provenance_agrees
    (isEq : cond.isEq = true) (null : m.hasNullBlock = true) (regular : m.Regular p) :
    m.ptrCompare .provenance cond p m.nullPointer = m.ptrCompare .integral cond p m.nullPointer ∧
      m.ptrCompare .provenance cond m.nullPointer p =
        m.ptrCompare .integral cond m.nullPointer p := by
  have address : m.nullPointer.getAddress m.base = 0 := by
    unfold nullPointer
    rw [getAddress_logical (isLogical_mkLogical _ _ _), getBid_mkLogical, getOffset_mkLogical,
      (m.null null).2]
    simp
  have iff : p.reprWithoutAttrs = m.nullPointer.reprWithoutAttrs ↔
      p.getAddress m.base = m.nullPointer.getAddress m.base := by
    constructor
    · intro same
      exact (Keeps.of_repr same).address
    · intro same
      exact regular.null (same.trans address)
  have forward : (p.reprWithoutAttrs == m.nullPointer.reprWithoutAttrs) =
      (p.getAddress m.base == m.nullPointer.getAddress m.base) := by
    rw [Bool.eq_iff_iff, beq_iff_eq, beq_iff_eq, iff]
  have backward : (m.nullPointer.reprWithoutAttrs == p.reprWithoutAttrs) =
      (m.nullPointer.getAddress m.base == p.getAddress m.base) := by
    rw [Bool.eq_iff_iff, beq_iff_eq, beq_iff_eq, eq_comm, iff, eq_comm]
  cases cond with
  | eq => exact ⟨forward, backward⟩
  | ne => exact ⟨congrArg not forward, congrArg not backward⟩
  | _ => cases isEq

/-! ### Runs -/

theorem ofInt_ne_zero
    {w : Nat} {n : Int} (fits : n.natAbs < 2 ^ w) (nonzero : n ≠ 0) : BitVec.ofInt w n ≠ 0 := by
  intro zero
  have residue : n % (2 ^ w : Nat) = 0 := by
    have integer := congrArg BitVec.toNat zero
    rw [BitVec.toNat_ofInt] at integer
    have positive := Int.emod_nonneg n (b := (2 ^ w : Nat)) (by positivity)
    simp only [BitVec.ofNat_eq_ofNat, BitVec.toNat_ofNat, Nat.zero_mod] at integer
    omega
  refine nonzero (Int.eq_zero_of_dvd_of_natAbs_lt_natAbs (Int.dvd_of_emod_eq_zero residue) ?_)
  rwa [Int.natAbs_natCast]

variable {f : Fn} {env : Fn.Env (Reading l)} {read : Nat → Set (Reading l)}

def Made (m : Mem t l) (f : Fn) (v : Nat) : Reading l → Prop
  | .ptr p =>
    m.Known p ∧
    (f.isInbounds v = true → (∀ attrs, f.value v = .fnCall attrs → m.CallResult attrs p) ∧
      ((∀ attrs, f.value v ≠ .fnCall attrs) → m.Regular p)) ∧
    (f.isNullPointer v = true → m.hasNullBlock = true ∧ p = m.nullPointer)
  | .int i => ∀ c n, f.value v = .intConst c → c.int = some n → i = ⟨c.bits, BitVec.ofInt c.bits n⟩

theorem Made.of_known (known : m.Known p) (inbounds : f.isInbounds v = false)
    (null : f.isNullPointer v = false) : m.Made f v (.ptr p) := by
  refine ⟨known, fun impossible => ?_, fun impossible => ?_⟩
  · rw [inbounds] at impossible
    cases impossible
  · rw [null] at impossible
    cases impossible

theorem SameBlock.known (same : SameBlock (.ptr q) (.ptr p)) (known : m.Known p) : m.Known q := by
  intro logical
  rw [same.2 logical]
  exact known (same.1 ▸ logical)

theorem gep_constant {ptr : Nat} {idxs : List (Nat × Nat)}
    (shape : f.value v = .gep inbounds nusw nuw ptr idxs)
    (marked : f.isInbounds v = true) (before : ∀ o lane, ∀ x ∈ env o lane, m.Made f o x)
    (indices : List.Forall₂ (fun (idx : Nat × Nat) (offset : Index) =>
      offset.1 = idx.1 ∧ .int offset.2 ∈ env idx.2 lane) idxs offsets) :
    inbounds = true ∧ ∃ idx ∈ offsets, idx.1 ≠ 0 ∧ idx.2.2 ≠ 0 := by
  unfold Fn.isInbounds at marked
  rw [shape] at marked
  dsimp only at marked
  rw [Bool.and_eq_true, List.any_eq_true] at marked
  obtain ⟨isInbounds, idx, member, test⟩ := marked
  rw [Bool.and_eq_true, decide_eq_true_eq, decide_eq_true_eq] at test
  refine ⟨isInbounds, ?_⟩
  obtain ⟨i, inside, rfl⟩ := List.mem_iff_getElem.1 member
  have inside' : i < offsets.length := indices.length_eq ▸ inside
  obtain ⟨size, reads⟩ := List.forall₂_iff_get.1 indices |>.2 i inside inside'
  refine ⟨offsets[i], List.getElem_mem inside', ?_, ?_⟩
  · exact size.symm ▸ test.1
  · obtain ⟨n, c, value, int, nonzero⟩ :
        ∃ n c, f.value idxs[i].2 = .intConst c ∧ c.int = some n ∧ n ≠ 0 := by
      have nonzero := test.2
      unfold Fn.getInt at nonzero
      split at nonzero
      · next c value =>
        cases int : c.int with
        | none =>
          rw [int] at nonzero
          exact absurd rfl nonzero
        | some n =>
          rw [int] at nonzero
          exact ⟨n, c, value, int, nonzero⟩
      · exact absurd rfl nonzero
    have constant := before _ lane _ reads c n value int
    rw [List.get_eq_getElem] at constant
    rw [constant]
    exact ofInt_ne_zero (c.fits n int) nonzero

theorem Means.made (before : ∀ o lane, ∀ x ∈ env o lane, m.Made f o x)
    (means : m.Means (f.value v) env read) : ∀ lane, ∀ x ∈ read lane, m.Made f v x := by
  intro lane x member
  have notInbounds : ∀ {value}, f.value v = value → (∀ i n u p idxs, value ≠ .gep i n u p idxs) →
      (∀ attrs, value ≠ .fnCall attrs) → value ≠ .alloc → f.isInbounds v = false := by
    rintro value shape notGep notCall notAlloc
    unfold Fn.isInbounds
    rw [shape]
    cases value with
    | gep i n u p idxs => exact absurd rfl (notGep i n u p idxs)
    | fnCall attrs => exact absurd rfl (notCall attrs)
    | alloc => exact absurd rfl notAlloc
    | _ => rfl
  have notNull : ∀ {value}, f.value v = value → value ≠ .nullPointer →
      f.isNullPointer v = false := by
    rintro value shape other
    unfold Fn.isNullPointer
    rw [shape]
    cases value with
    | nullPointer => exact absurd rfl other
    | _ => rfl
  cases shape : f.value v with
  | gep inbounds nusw nuw ptr idxs =>
    rw [shape] at means
    rw [means lane] at member
    obtain ⟨p, q, offsets, reads, indices, result, rfl⟩ := member
    have known : m.Known q := (gepToSMT_sameBlock result).known (before ptr lane _ reads).1
    refine ⟨known, fun marked => ⟨fun attrs call => ?_, fun _ => ?_⟩, fun null => ?_⟩
    · cases shape.symm.trans call
    · obtain ⟨rfl, idx, inside, size, nonzero⟩ := gep_constant shape marked before indices
      obtain ⟨logical, inbounds, canonical⟩ := gepToSMT_inbounds result inside size nonzero
      exact .of_inbounds known logical inbounds canonical
    · rw [notNull shape (fun same => Value.noConfusion same)] at null
      cases null
  | noOp value =>
    rw [shape] at means
    cases means
    cases x with
    | ptr p =>
      refine .of_known (before value lane _ member).1 (notInbounds shape ?_ ?_ ?_)
        (notNull shape ?_) <;> intros <;> exact Value.noConfusion
    | int i =>
      intro c n constant
      cases shape.symm.trans constant
  | phi values =>
    rw [shape] at means
    exact means.elim
  | select onTrue onFalse =>
    rw [shape] at means
    cases x with
    | ptr p =>
      have known : m.Known p := by
        rcases means lane member with first | second
        · exact (before onTrue lane _ first).1
        · exact (before onFalse lane _ second).1
      refine .of_known known (notInbounds shape ?_ ?_ ?_) (notNull shape ?_) <;>
        intros <;> exact Value.noConfusion
    | int i =>
      intro c n constant
      cases shape.symm.trans constant
  | nullPointer =>
    rw [shape] at means
    rw [means.2 lane] at member
    cases member
    refine ⟨fun _ => ?_, fun marked => ?_, fun _ => ⟨means.1, rfl⟩⟩
    · rw [nullPointer, getBid_mkLogical]
      exact (m.null means.1).1
    · rw [notInbounds shape] at marked
      · cases marked
      all_goals intros; exact Value.noConfusion
  | alloc =>
    rw [shape] at means
    obtain ⟨bid, block, shapes⟩ := means
    rw [shapes lane] at member
    cases member
    refine ⟨fun _ => ?_, fun _ => ⟨fun attrs call => ?_, fun _ => regular_start block⟩,
      fun null => ?_⟩
    · rw [getBid_mkLogical]
      exact block
    · cases shape.symm.trans call
    · rw [notNull shape (fun same => Value.noConfusion same)] at null
      cases null
  | fnCall attrs =>
    rw [shape] at means
    cases x with
    | ptr p =>
      have result := means lane p member
      refine ⟨?_, fun _ => ⟨fun attrs' call => ?_, fun other => absurd shape (other attrs)⟩,
        fun null => ?_⟩
      · unfold CallResult at result
        split at result
        · rcases result with ⟨null, rfl⟩ | ⟨bid, block, rfl⟩
          · intro _
            rw [nullPointer, getBid_mkLogical]
            exact (m.null null).1
          · intro _
            rw [getBid_mkLogical]
            exact block
        · exact result.1
      · cases shape.symm.trans call
        exact result
      · rw [notNull shape (fun same => Value.noConfusion same)] at null
        cases null
    | int i =>
      intro c n constant
      cases shape.symm.trans constant
  | intConst c =>
    rw [shape] at means
    cases x with
    | ptr p => exact absurd member ((means lane).2 p)
    | int i =>
      intro c' n constant int
      cases shape.symm.trans constant
      rw [(means lane).1 n int] at member
      cases member
      rfl
  | icmp cond a b =>
    rw [shape] at means
    cases x with
    | ptr p => exact absurd member (means lane p)
    | int i =>
      intro c n constant
      cases shape.symm.trans constant
  | other =>
    rw [shape] at means
    cases x with
    | ptr p =>
      refine .of_known (means lane p member) (notInbounds shape ?_ ?_ ?_)
        (notNull shape ?_) <;> intros <;> exact Value.noConfusion
    | int i =>
      intro c n constant
      cases shape.symm.trans constant

theorem Means.follows {value : Value} {ops : List Nat} (known : value.sources = some ops)
    (means : m.Means value env read) :
    ∀ lane, ∀ x ∈ read lane, ∃ o ∈ ops, ∃ y ∈ env o lane, SameBlock x y := by
  intro lane x member
  cases value with
  | gep inbounds nusw nuw ptr idxs =>
    cases known
    rw [means lane] at member
    obtain ⟨p, q, offsets, reads, indices, result, rfl⟩ := member
    exact ⟨ptr, List.mem_cons_self, .ptr p, reads, gepToSMT_sameBlock result⟩
  | noOp value =>
    cases known
    cases means
    exact ⟨value, List.mem_cons_self, x, member, SameBlock.refl x⟩
  | phi values => exact means.elim
  | select onTrue onFalse =>
    cases known
    rcases means lane member with first | second
    · exact ⟨onTrue, List.mem_cons_self, x, first, SameBlock.refl x⟩
    · exact ⟨onFalse, List.mem_cons_of_mem _ List.mem_cons_self, x, second, SameBlock.refl x⟩
  | nullPointer => cases known
  | alloc => cases known
  | fnCall attrs => cases known
  | intConst c => cases known
  | icmp cond a b => cases known
  | other => cases known

/-- What is left to ask of a call that allocates nothing and whose result is compared: only the
null pointer has address zero, and if it may be null or lie in another block it is in bounds. -/
def CallsRegular (m : Mem t l) (f : Fn) (env : Fn.Env (Reading l)) (o : Nat) : Prop :=
  ∀ attrs, f.value o = .fnCall attrs → attrs.allocates = false → ∀ lane p, .ptr p ∈ env o lane →
    (p.getAddress m.base = 0 → p.reprWithoutAttrs = m.nullPointer.reprWithoutAttrs) ∧
      (attrs.derefBytes = 0 ∨ m.isAsmMode = true → p.isLogical = true → m.isInbounds p = true)

/-- What `is_inbounds` says of an operand. -/
theorem Made.regular {o : Nat} (made : m.Made f o (.ptr p)) (calls : m.CallsRegular f env o)
    (marked : f.isInbounds o = true) (reads : .ptr p ∈ env o lane) : m.Regular p := by
  obtain ⟨ofCall, ofOther⟩ := made.2.1 marked
  by_cases call : ∃ attrs, f.value o = .fnCall attrs
  · obtain ⟨attrs, call⟩ := call
    have result := ofCall attrs call
    unfold CallResult at result
    split at result
    · rcases result with ⟨null, rfl⟩ | ⟨bid, block, rfl⟩
      · exact regular_start (m.null null).1
      · exact regular_start block
    · next noAlloc =>
      obtain ⟨null, inbounds⟩ :=
        calls attrs call (Bool.eq_false_of_not_eq_true noAlloc) lane p reads
      refine ⟨fun logical => ?_, null⟩
      by_cases open_ : attrs.derefBytes = 0 ∨ m.isAsmMode = true
      · exact inbounds open_ logical
      · rw [not_or] at open_
        rcases result.2.1 (Nat.pos_of_ne_zero open_.1) with ⟨-, room, positive⟩ | ⟨other, -⟩
        · have fits := getOffset_lt p
          have sizes : (m.maxSize p.getBid).toNat < 2 ^ l.bitsForOffset :=
            (m.maxSize p.getBid).isLt.trans_le (Nat.pow_le_pow_right (by omega)
              (l.offset_eq_address.symm ▸ l.address_width ▸ Widths.bitsSizeT_le t))
          rw [isInbounds_eq, positive, Bool.not_false, Bool.or_true, Bool.and_true, BitVec.ule,
            decide_eq_true_eq, BitVec.toNat_setWidth, Nat.mod_eq_of_lt sizes]
          omega
        · rcases other with physical | asm
          · rw [logical] at physical
            cases physical
          · exact absurd asm open_.2
  · exact ofOther fun attrs found => call ⟨attrs, found⟩

end Mem

/-! ## The shortcuts -/

open Fn Mem

variable {m : Mem t l} {f : Fn} {env : Env (Reading l)}

def straight (values : List Value) (order : List Nat) : Fn where
  flow := ⟨[[]], by decide, by decide, by decide⟩
  values := values
  body b := if b = 0 then order else []

variable {values : List Value} {order : List Nat}

theorem value_outside {v : Nat}
    (outside : values.length ≤ v) : (straight values order).value v = .other := by
  unfold Fn.value straight
  rw [List.getElem?_eq_none outside]
  rfl

theorem straight_ssa (nodup : order.Nodup)
    (noPhi : ∀ v ∈ order, ((straight values order).value v).isPhi = false)
    (constants : ∀ v < values.length, v ∉ order → ((straight values order).value v).sources = none)
    (use : ∀ i (inside : i < order.length), ∀ o ∈ ((straight values order).value order[i]).operands,
      o ∉ order ∨ o ∈ order.take i) : (straight values order).Ssa := by
  have only : ∀ {b v}, v ∈ (straight values order).body b → b = 0 ∧ v ∈ order := by
    intro b v member
    by_cases entry : b = 0
    · subst entry
      exact ⟨rfl, member⟩
    · rw [straight] at member
      dsimp only at member
      rw [if_neg entry] at member
      cases member
  have none : ∀ b, (straight values order).phis b = [] := by
    intro b
    refine List.filter_eq_nil_iff.2 fun v member phi => ?_
    rw [Fn.isPhi, noPhi v (only member).2] at phi
    cases phi
  refine {
    nodup := fun b => ?_
    once := fun b d v first second => (only first).1.trans (only second).1.symm
    entry := none 0
    fixed := fun v constant => ?_
    phisFirst := fun b => none b ▸ List.nil_prefix
    use := fun b pre v post place o operand => ?_
    phiUse := fun b v member values' shape => ?_
    phiEdge := fun b v member values' shape => ?_ }
  · rw [straight]
    dsimp only
    split
    · exact nodup
    · exact List.nodup_nil
  · by_cases inside : v < values.length
    · exact constants v inside (constant 0)
    · rw [value_outside (not_lt.1 inside)]
      rfl
  · have member : v ∈ (straight values order).body b :=
      place ▸ List.mem_append_right _ List.mem_cons_self
    obtain ⟨rfl, -⟩ := only member
    have place : order = pre ++ v :: post := place
    have inside : pre.length < order.length := by
      rw [place, List.length_append, List.length_cons]
      omega
    have here : order[pre.length] = v := by
      simp [place]
    have operand' : o ∈ ((straight values order).value order[pre.length]).operands := by
      rw [here]
      exact operand
    rcases use pre.length inside o operand' with constant | before
    · exact .inl fun b member => constant (only member).2
    · refine .inr (.inl ?_)
      rwa [place, List.take_left'] at before
      rfl
  · have phi := noPhi v (only member).2
    rw [shape] at phi
    cases phi
  · have phi := noPhi v (only member).2
    rw [shape] at phi
    cases phi

theorem eight_pos : 0 < 8 := by decide

theorem eight_le : 8 ≤ 64 := by decide

def comparing (instrs : List IR.Accesses.Instr) : Widths.Transform :=
  let f : Widths.Function :=
    ⟨Widths.noAttrs, [], [], [⟨.ptr, some ⟨fun _ => false, 0, 0, 0, 1, []⟩⟩],
      instrs.map fun i => ⟨i, .ptr, [.null]⟩⟩
  ⟨f, f, ⟨8, 8, 8, 8, eight_pos, eight_le⟩, 0⟩

def layoutOf (t : Widths.Transform)
    (positive : 0 < (Widths.calculateAndInitConstants t).bitsForBid ∧
      0 < (Widths.calculateAndInitConstants t).bitsForOffset ∧
      0 < (Widths.calculateAndInitConstants t).bitsPtrAddress) : PtrLayout t where
  hasInt2ptr := false
  hasNocapture := false
  hasNoread := false
  hasNowrite := false
  hasPtrArg := false
  hasLocalBit := false
  bitsForBid := (Widths.calculateAndInitConstants t).bitsForBid
  bitsForOffset := (Widths.calculateAndInitConstants t).bitsForOffset
  bitsPtrAddress := (Widths.calculateAndInitConstants t).bitsPtrAddress
  bid_positive := positive.1
  offset_positive := positive.2.1
  address_positive := positive.2.2
  bid_width := rfl
  offset_width := rfl
  address_width := rfl

def twoBlocks {t : Widths.Transform} (l : PtrLayout t) (bid : BitVec l.bitsForBid)
    (addr : BitVec l.bitsPtrAddress)
    (other : bid ≠ 0 ∧ addr ≠ 0 ∧ addr.toNat + 8 < 2 ^ l.bitsPtrAddress) : Mem t l where
  hasNullBlock := true
  isAsmMode := false
  base b := if b = bid then addr else 0
  maxSize b := if b = bid then 8 else 0
  Block b := b = 0 ∨ b = bid
  null _ := ⟨.inl rfl, if_neg other.1.symm⟩
  placed := by
    rintro b (rfl | rfl)
    · exact .inl ⟨rfl, rfl⟩
    · refine .inr ⟨by rw [if_pos rfl]; exact other.2.1, ?_⟩
      rw [if_pos rfl, if_pos rfl]
      have size : ((8 : BitVec (Widths.calculateAndInitConstants t).bitsSizeT)).toNat ≤ 8 := by
        rw [BitVec.ofNat_eq_ofNat, BitVec.toNat_ofNat]
        exact Nat.mod_le _ _
      omega

/-- `icmp eq p, p`, where `p` is undef. -/
def undefBase : Fn := straight [.other, .icmp .eq 0 0] [1]

/-- `icmp (gep inbounds p, 1), (gep inbounds p, 4)`. -/
def acrossSign (cond : Cond) : Fn :=
  straight [.other, .intConst ⟨8, some 1, by decide⟩, .intConst ⟨8, some 4, by decide⟩,
    .gep true false false 0 [(1, 1)], .gep true false false 0 [(1, 2)], .icmp cond 3 4] [3, 4, 5]

/-- `icmp eq p, null`, where `p` is what a call returned that is `dereferenceable_or_null`. -/
def nullCall : Fn :=
  straight [.fnCall ⟨true, false, false, 0, 8, fun allocates => allocates⟩, .nullPointer,
    .icmp .eq 0 1] [0, 2]

def Disagrees (m : Mem t l) (f : Fn) (cond : Cond) (op0 op1 : Nat) (done todo : List Nat) : Prop :=
  f.Ssa ∧ ∃ env p q, Run f m.Means [0] done todo env ∧ .ptr p ∈ env op0 0 ∧ .ptr q ∈ env op1 0 ∧
    m.icmpToSMT (f.ptrCmpMode cond op0 op1) cond 3 false p q ≠
      m.icmpToSMT .integral cond 3 false p q

def constants (reads : List (Set (Reading l))) : Env (Reading l) := fun v _ => (reads[v]?).getD ∅

theorem straight_entry {reads : List (Set (Reading l))}
    (length : reads.length ≤ values.length) (means : ∀ v < values.length, v ∉ order →
      m.Means ((straight values order).value v) (fun _ _ => ∅) (constants reads v))
    (instrs : ∀ v ∈ order, reads[v]?.getD ∅ = ∅) :
    Run (straight values order) m.Means [0] [] order (constants reads) := by
  refine .entry (fun v constant => ?_) (fun v other => ?_)
  · by_cases inside : v < values.length
    · exact means v inside (constant 0)
    · rw [value_outside (not_lt.1 inside)]
      intro lane p member
      unfold constants at member
      rw [List.getElem?_eq_none (length.trans (not_lt.1 inside))] at member
      exact member.elim
  · funext lane
    refine instrs v ?_
    by_contra outside
    refine other fun b member => ?_
    unfold straight at member
    dsimp only at member
    split at member
    · exact outside member
    · cases member

theorem undefBase_ssa : undefBase.Ssa :=
  straight_ssa (by decide) (by decide) (by decide) (by decide)

theorem acrossSign_ssa (cond : Cond) : (acrossSign cond).Ssa := by
  cases cond <;> exact straight_ssa (by decide) (by decide) (by decide) (by decide)

theorem nullCall_ssa : nullCall.Ssa :=
  straight_ssa (by decide) (by decide) (by decide) (by decide)

def icmpOnly : Widths.Transform := comparing [.icmp true .integral]

def icmpLayout : PtrLayout icmpOnly := layoutOf icmpOnly (by decide)

def icmpMem : Mem icmpOnly icmpLayout := twoBlocks icmpLayout 1 126 (by decide)

theorem undefBase_disagrees : Disagrees icmpMem undefBase .eq 0 0 [] [1] := by
  refine ⟨undefBase_ssa, constants [{.ptr (mkLogical 0 0 0), .ptr (mkLogical 1 0 0)}],
    mkLogical 0 0 0, mkLogical 1 0 0, straight_entry (by decide) ?_ ?_, .inl rfl, .inr rfl, ?_⟩
  · intro v inside outside
    have inside : v < 2 := inside
    interval_cases v
    · rintro lane p (same | same) <;> cases same
      · exact fun _ => .inl (by decide)
      · exact fun _ => .inr (by decide)
    · exact absurd List.mem_cons_self outside
  · intro v member
    rw [List.mem_singleton.1 member]
    rfl
  · decide

def gepReads (m : Mem t l) (env : Env (Reading l)) (ptr : Nat) (idxs : List (Nat × Nat))
    (lane : Nat) : Set (Reading l) :=
  {x | ∃ p q offsets, .ptr p ∈ env ptr lane ∧
    List.Forall₂ (fun (idx : Nat × Nat) (offset : Index) =>
      offset.1 = idx.1 ∧ .int offset.2 ∈ env idx.2 lane) idxs offsets ∧
    m.gepToSMT true false false p offsets = some q ∧ x = .ptr q}

def acrossStart : Env (Reading icmpLayout) :=
  constants [{.ptr (mkLogical 1 0 0)}, {.int ⟨8, 1⟩}, {.int ⟨8, 4⟩}]

theorem acrossSign_run (cond : Cond) :
    ∃ env, Run (acrossSign cond) icmpMem.Means [0] [3, 4] [5] env ∧
      .ptr (mkLogical 1 1 0) ∈ env 3 0 ∧ .ptr (mkLogical 1 4 0) ∈ env 4 0 ∧
      env 0 = acrossStart 0 := by
  have entry : Run (acrossSign cond) icmpMem.Means [0] [] [3, 4, 5] acrossStart := by
    refine straight_entry (by decide : 3 ≤ 6) (fun v inside outside => ?_) (fun v member => ?_)
    · have inside : v < 6 := inside
      interval_cases v
      · intro lane p same
        cases same
        exact fun _ => .inr (by decide)
      · intro lane
        refine ⟨fun n known => ?_, fun p impossible => by cases impossible⟩
        cases known
        rfl
      · intro lane
        refine ⟨fun n known => ?_, fun p impossible => by cases impossible⟩
        cases known
        rfl
      all_goals exact absurd (by decide) outside
    · have member : v = 3 ∨ v = 4 ∨ v = 5 := by simpa using member
      rcases member with rfl | rfl | rfl <;> rfl
  have first : Run (acrossSign cond) icmpMem.Means [0] [3] [4, 5]
      (Function.update acrossStart 3 (gepReads icmpMem acrossStart 0 [(1, 1)])) :=
    .instr entry rfl fun lane => rfl
  have second : Run (acrossSign cond) icmpMem.Means [0] [3, 4] [5]
      (Function.update _ 4 (gepReads icmpMem _ 0 [(1, 2)])) :=
    .instr first rfl fun lane => rfl
  refine ⟨_, second, ?_, ?_, rfl⟩
  · exact ⟨mkLogical 1 0 0, mkLogical 1 1 0, [(1, ⟨8, 1⟩)], rfl,
      .cons ⟨rfl, rfl⟩ .nil, by decide, rfl⟩
  · exact ⟨mkLogical 1 0 0, mkLogical 1 4 0, [(1, ⟨8, 4⟩)], rfl,
      .cons ⟨rfl, rfl⟩ .nil, by decide, rfl⟩

theorem acrossSign_disagrees : Disagrees icmpMem (acrossSign .any) .any 3 4 [3, 4] [5] := by
  obtain ⟨env, run, first, second, -⟩ := acrossSign_run .any
  exact ⟨acrossSign_ssa .any, env, _, _, run, first, second, by decide⟩

def callAndIcmp : Widths.Transform :=
  comparing [.fnCall ⟨"f", "f", false, { Widths.noAttrs with
    has := fun a => a == .noAlias, derefOrNullBytes := 8 }, []⟩, .icmp true .integral]

def callLayout : PtrLayout callAndIcmp := layoutOf callAndIcmp (by decide)

def callMem : Mem callAndIcmp callLayout := twoBlocks callLayout 2 200 (by decide)

theorem nullCall_disagrees : Disagrees callMem nullCall .eq 0 1 [0] [2] := by
  have entry : Run nullCall callMem.Means [0] [] [0, 2]
      (constants [∅, {.ptr (mkLogical 0 0 0)}]) := by
    refine straight_entry (by decide : 2 ≤ 3) (fun v inside outside => ?_) (fun v member => ?_)
    · have inside : v < 3 := inside
      interval_cases v
      · exact absurd (by decide) outside
      · exact ⟨rfl, fun lane => rfl⟩
      · exact absurd (by decide) outside
    · have member : v = 0 ∨ v = 2 := by simpa using member
      rcases member with rfl | rfl <;> rfl
  have call : Run nullCall callMem.Means [0] [0] [2]
      (Function.update (constants [∅, {.ptr (mkLogical 0 0 0)}]) 0 fun _ =>
        {.ptr (mkLogical 2 56 0)}) := by
    refine .instr entry rfl ?_
    rintro lane p same
    cases same
    exact ⟨fun _ => .inr (by decide), fun impossible => absurd impossible (by decide),
      fun _ => .inl (by decide)⟩
  exact ⟨nullCall_ssa, _, _, _, call, rfl, rfl, by decide⟩

end AliveNext.Tools.BasePointer
