import AliveNext.IR.AliasSet
import AliveNext.IR.Bytes
import AliveNext.IR.StoredSound
import AliveNext.Smt.ArraysSound
import AliveNext.Smt.FunctionExpr

/-!
# The memory after a join

`Memory::mkIf` merges the memories of two paths component by component: the terms by the
condition, the sets by union, and the attributes of the blocks by their keys. The number of
the next local block is shared by all paths, so two paths never allocate the same block.
-/

namespace AliveNext.IR.Joined

open AliveNext.Smt

/-- The widths and the numbers of blocks that one memory is encoded with. -/
structure Shape where
  config : Stored.Config
  numLocals : Nat
  numNonlocals : Nat
  bitsShortBid : Nat
  bitsShortOffset : Nat
  bitsByte : Nat
  bitsSizeT : Nat
  hasInitializesAttr : Bool
  bid_positive : 0 < bitsShortBid
  offset_positive : 0 < bitsShortOffset
  byte_positive : 0 < bitsByte
  size_positive : 0 < bitsSizeT
  locals_fit : numLocals ≤ 2 ^ bitsShortBid

namespace Shape

variable (shape : Shape)

def offsetSort : Srt := .bv shape.bitsShortOffset

def byteSort : Srt := .bv shape.bitsByte

/-- The index of `has_stored_arg`: a block and an offset. -/
def placeSort : Srt := .bv (shape.bitsShortBid + shape.bitsShortOffset)

def IsBlock (val : Expr) : Prop :=
  val.HasSort shape.byteSort ∨ val.HasSort (.array shape.offsetSort shape.byteSort)

/-- `getShortBid` of a pointer to a block with a known number. -/
def shortBid (bid : Nat) : Expr := Expr.mkUInt bid shape.bitsShortBid

end Shape

structure MemBlock where
  val : Expr
  undef : Finset Expr
  type : DataType

/-- `Memory`, but for the state it belongs to. -/
structure Memory (shape : Shape) where
  nonLocalBlockVal : Fin shape.numNonlocals → MemBlock
  localBlockVal : Fin shape.numLocals → MemBlock
  nonLocalBlockLiveness : Expr
  localBlockLiveness : Expr
  hasStoredArg : Expr
  storedPointers : Fin shape.numNonlocals → Stored.Record Expr
  localBlkAddr : FunctionExpr
  localBlkSize : FunctionExpr
  localBlkAlign : FunctionExpr
  localBlkKind : FunctionExpr
  nonLocalBlkSize : FunctionExpr
  nonLocalBlkAlign : FunctionExpr
  nonLocalBlkKind : FunctionExpr
  byvalBlks : List (Nat × Bool)
  escapedLocalBlks : AliasSet
  observedAddrs : AliasSet
  ptrAlias : Expr → Option AliasSet
  nextNonlocalBid : Nat

section

variable (z : Z3) (less : Expr → Expr → Bool) {shape : Shape} (cond : Expr)

def mkBlockIf (shape : Shape) (then_ els : Expr) : Expr :=
  if cond.isTrue then then_
  else if cond.isFalse then els
  else
    let isBv1 := then_.sort.isBV
    let isBv2 := els.sort.isBV
    let offset := Expr.mkUInt 0 shape.bitsShortOffset
    if isBv1 ≠ isBv2 then
      if isBv1 then Expr.mkIf z cond (Expr.mkConstArray offset then_) els
      else Expr.mkIf z cond then_ (Expr.mkConstArray offset els)
    else Expr.mkIf z cond then_ els

def MemBlock.mkIf (shape : Shape) (blk other : MemBlock) : MemBlock where
  val := mkBlockIf z cond shape blk.val other.val
  undef := blk.undef ∪ other.undef
  type := ⟨blk.type.int || other.type.int, blk.type.ptr || other.type.ptr⟩

/-- `ptr_alias`: an entry of one side is kept, two are united. -/
def mergeAlias : Option AliasSet → Option AliasSet → Option AliasSet
  | some set, some other => some (set.unionWith other)
  | some set, none => some set
  | none, other => other

def Memory.mkIf (then_ els : Memory shape) : Memory shape where
  nonLocalBlockVal bid :=
    if shape.config.alwaysNowrite bid false true then then_.nonLocalBlockVal bid
    else MemBlock.mkIf z cond shape (then_.nonLocalBlockVal bid) (els.nonLocalBlockVal bid)
  localBlockVal bid := MemBlock.mkIf z cond shape (then_.localBlockVal bid) (els.localBlockVal bid)
  nonLocalBlockLiveness :=
    Expr.mkIf z cond then_.nonLocalBlockLiveness els.nonLocalBlockLiveness
  localBlockLiveness := Expr.mkIf z cond then_.localBlockLiveness els.localBlockLiveness
  hasStoredArg := Expr.mkIf z cond then_.hasStoredArg els.hasStoredArg
  storedPointers bid := (then_.storedPointers bid).merge (els.storedPointers bid)
  localBlkAddr := then_.localBlkAddr.addAll less els.localBlkAddr
  localBlkSize := then_.localBlkSize.addAll less els.localBlkSize
  localBlkAlign := then_.localBlkAlign.addAll less els.localBlkAlign
  localBlkKind := then_.localBlkKind.addAll less els.localBlkKind
  nonLocalBlkSize := FunctionExpr.mkIf z cond then_.nonLocalBlkSize els.nonLocalBlkSize
  nonLocalBlkAlign := then_.nonLocalBlkAlign.addAll less els.nonLocalBlkAlign
  nonLocalBlkKind := then_.nonLocalBlkKind.addAll less els.nonLocalBlkKind
  byvalBlks := then_.byvalBlks
  escapedLocalBlks := then_.escapedLocalBlks.unionWith els.escapedLocalBlks
  observedAddrs := then_.observedAddrs.unionWith els.observedAddrs
  ptrAlias e := mergeAlias (then_.ptrAlias e) (els.ptrAlias e)
  nextNonlocalBid := max then_.nextNonlocalBid els.nextNonlocalBid

end

section

variable (z : Z3) (less : Expr → Expr → Bool) {shape : Shape} (m : Memory shape) (M : Model)

/-- The byte of a block at an offset, as `raw_load` gives it. -/
noncomputable def content (shape : Shape) (val : Expr) (offset : BitVec shape.bitsShortOffset) :
    Value :=
  if val.sort.isBV then val.eval M
  else .of shape.byteSort (val.val (.array shape.offsetSort shape.byteSort) M offset)

/-- The bit of a block in the liveness, as `load_bv` gives it. -/
noncomputable def Memory.alive (islocal : Bool) (bid : Nat) : Bool :=
  if islocal then (m.localBlockLiveness.bv M shape.numLocals).getLsbD bid
  else (m.nonLocalBlockLiveness.bv M shape.config.numNonlocals).getLsbD bid

/-- The bit of `has_stored_arg` at a place. -/
noncomputable def Memory.storedArg
    (place : BitVec (shape.bitsShortBid + shape.bitsShortOffset)) : Bool :=
  m.hasStoredArg.val (.array shape.placeSort .bool) M place

/-- The value of `getValue` for a block that is not local. -/
def nonLocalValue (name : String) (nonlocalFn : FunctionExpr) (retType : Srt) (bid : Expr) :
    Expr :=
  match nonlocalFn.lookup bid with
  | some val => val
  | none => .app (.fn name retType) [bid]

/-- `Pointer::getValue`, for a pointer with the given `isLocal()` and `getShortBid()`. -/
def getValue (name : String) (localFn nonlocalFn : FunctionExpr) (retType : Srt)
    (isLocal bid : Expr) : Expr :=
  let nonLocal := nonLocalValue name nonlocalFn retType bid
  match localFn.apply z less bid with
  | some local_ => Expr.mkIf z isLocal local_ nonLocal
  | none => nonLocal

/-- `Pointer::blockSize`. -/
def Memory.blockSize (isLocal bid : Expr) : Expr :=
  getValue z less "blk_size" m.localBlkSize m.nonLocalBlkSize (.bv shape.bitsSizeT) isLocal bid

end

section

variable (z : Z3) (less : Expr → Expr → Bool) {shape : Shape}

def Shape.numBlocks (shape : Shape) (islocal : Bool) : Nat :=
  if islocal then shape.numLocals else shape.numNonlocals

def Shape.IsAlias (shape : Shape) (set : AliasSet) : Prop :=
  ∀ islocal, set.size islocal = shape.numBlocks islocal

/-- The terms of a memory have their sorts. -/
structure WellSorted (m : Memory shape) : Prop where
  localBlocks : ∀ bid, shape.IsBlock (m.localBlockVal bid).val
  nonLocalBlocks : ∀ bid, shape.IsBlock (m.nonLocalBlockVal bid).val
  localLiveness : 0 < shape.numLocals → m.localBlockLiveness.HasSort (.bv shape.numLocals)
  nonLocalLiveness : 0 < shape.config.numNonlocals →
    m.nonLocalBlockLiveness.HasSort (.bv shape.config.numNonlocals)
  storedArg : shape.hasInitializesAttr = true →
    m.hasStoredArg.HasSort (.array shape.placeSort .bool)
  localSizes : m.localBlkSize.Sorted shape.bitsShortBid (.bv shape.bitsSizeT)
  nonLocalSizes : m.nonLocalBlkSize.Sorted shape.bitsShortBid (.bv shape.bitsSizeT)
  escaped : shape.IsAlias m.escapedLocalBlks
  observed : shape.IsAlias m.observedAddrs
  aliases : ∀ e set, m.ptrAlias e = some set → shape.IsAlias set

/-- What an operation may change, with `next_local_bid` before and after. -/
inductive Change : Nat → Memory shape → Nat → Memory shape → Prop
  | writeLocal {next : Nat} {m : Memory shape} (bid : Fin shape.numLocals) (blk : MemBlock) :
      shape.IsBlock blk.val →
      Change next m next { m with localBlockVal := Function.update m.localBlockVal bid blk }
  | writeNonLocal {next : Nat} {m : Memory shape} (bid : Fin shape.numNonlocals) (blk : MemBlock) :
      shape.IsBlock blk.val → shape.config.alwaysNowrite bid false true = false →
      Change next m next { m with nonLocalBlockVal := Function.update m.nonLocalBlockVal bid blk }
  | recordStores {next : Nat} {m : Memory shape}
      (stored : Fin shape.numNonlocals → Stored.Record Expr) :
      Change next m next { m with storedPointers := stored }
  | setLiveness {next : Nat} {m : Memory shape} (locals nonLocals : Expr) :
      (0 < shape.numLocals → locals.HasSort (.bv shape.numLocals)) →
      (0 < shape.config.numNonlocals → nonLocals.HasSort (.bv shape.config.numNonlocals)) →
      Change next m next { m with localBlockLiveness := locals, nonLocalBlockLiveness := nonLocals }
  | recordStoredArg {next : Nat} {m : Memory shape} (stored : Expr) :
      (shape.hasInitializesAttr = true → stored.HasSort (.array shape.placeSort .bool)) →
      Change next m next { m with hasStoredArg := stored }
  | growBlock {next : Nat} {m : Memory shape} (bid size : Expr) :
      bid ∈ m.nonLocalBlkSize.keys → size.HasSort (.bv shape.bitsSizeT) →
      Change next m next { m with nonLocalBlkSize := m.nonLocalBlkSize.replace less bid size }
  | escape {next : Nat} {m : Memory shape} (escaped observed : AliasSet) :
      shape.IsAlias escaped → shape.IsAlias observed →
      Change next m next { m with escapedLocalBlks := escaped, observedAddrs := observed }
  | recordAlias {next : Nat} {m : Memory shape} (ptrAlias : Expr → Option AliasSet)
      (nextNonlocalBid : Nat) :
      (∀ e set, ptrAlias e = some set → shape.IsAlias set) →
      Change next m next { m with ptrAlias := ptrAlias, nextNonlocalBid := nextNonlocalBid }
  | allocLocal {next : Nat} {m : Memory shape} (addr : Option Expr) (size align kind : Expr) :
      next < shape.numLocals → size.HasSort (.bv shape.bitsSizeT) →
      Change next m (next + 1)
        { m with
          localBlkAddr := match addr with
            | some addr => m.localBlkAddr.add less (shape.shortBid next) addr
            | none => m.localBlkAddr
          localBlkSize := m.localBlkSize.replace less (shape.shortBid next) size
          localBlkAlign := m.localBlkAlign.add less (shape.shortBid next) align
          localBlkKind := m.localBlkKind.add less (shape.shortBid next) kind }

structure Memories (shape : Shape) where
  nextLocalBid : Nat
  points : List (Memory shape)

inductive Reached (init : Memory shape) : Memories shape → Prop
  | init : Reached init ⟨0, [init]⟩
  | change {all : Memories shape} {m m' : Memory shape} {next : Nat} :
      Reached init all → m ∈ all.points → Change less all.nextLocalBid m next m' →
      Reached init ⟨next, m' :: all.points⟩
  | mkIf {all : Memories shape} {then_ els : Memory shape} {cond : Expr} :
      Reached init all → then_ ∈ all.points → els ∈ all.points → cond.HasSort .bool →
      Reached init ⟨all.nextLocalBid, Memory.mkIf z less cond then_ els :: all.points⟩

structure Initial (init : Memory shape) : Prop where
  sorted : WellSorted init
  no_locals : init.localBlkSize.fn = []

end

section

variable {z : Z3} {less : Expr → Expr → Bool} {shape : Shape} {cond then_ els : Expr} {M : Model}

variable {s : Srt} {val : Expr}

theorem sorted_mkIf (condition : cond.HasSort .bool) (first : then_.HasSort s)
    (second : els.HasSort s) : (Expr.mkIf z cond then_ els).HasSort s :=
  (Expr.meaning z s).sorted_mkIf condition first second

theorem eval_mkIf
    (condition : cond.HasSort .bool) (first : then_.HasSort s) (second : els.HasSort s) :
    (Expr.mkIf z cond then_ els).eval M = if cond.truth M then then_.eval M else els.eval M :=
  (Expr.meaning z s).value_mkIf M condition first second

theorem sorted_mkConstArray (byte : val.HasSort shape.byteSort) :
    (Expr.mkConstArray (Expr.mkUInt 0 shape.bitsShortOffset) val).HasSort
      (.array shape.offsetSort shape.byteSort) := by
  refine Expr.hasSort_constArray.2 ⟨shape.byteSort, rfl, ?_, byte⟩
  show decide (0 < shape.bitsShortOffset) = true
  exact decide_eq_true shape.offset_positive

theorem isBV_byte (byte : val.HasSort shape.byteSort) : val.sort.isBV = true := by
  rw [byte.sort_eq]
  rfl

theorem isBV_array
    (array : val.HasSort (.array shape.offsetSort shape.byteSort)) : val.sort.isBV = false := by
  rw [array.sort_eq]
  rfl

theorem content_byte (byte : val.HasSort shape.byteSort)
    (offset : BitVec shape.bitsShortOffset) : content M shape val offset = val.eval M := by
  rw [content, if_pos (isBV_byte byte)]

theorem content_array (array : val.HasSort (.array shape.offsetSort shape.byteSort))
    (offset : BitVec shape.bitsShortOffset) :
    content M shape val offset =
      .of shape.byteSort (val.val (.array shape.offsetSort shape.byteSort) M offset) := by
  rw [content, if_neg (by rw [isBV_array array]; exact Bool.false_ne_true)]

theorem content_mkConstArray
    (byte : val.HasSort shape.byteSort) (offset : BitVec shape.bitsShortOffset) :
    content M shape (Expr.mkConstArray (Expr.mkUInt 0 shape.bitsShortOffset) val) offset =
      content M shape val offset := by
  have whole : (Expr.mkConstArray (Expr.mkUInt 0 shape.bitsShortOffset) val).eval M =
      .array shape.offsetSort shape.byteSort fun _ => val.val shape.byteSort M := by
    simp only [Expr.mkConstArray, Expr.eval, Expr.evals, byte.eval_val M, Op.denote]
    rfl
  rw [content_array (sorted_mkConstArray byte), Expr.val_array _ _ whole, content_byte byte]
  exact (byte.eval_val M).symm

theorem content_mkIf (condition : cond.HasSort .bool) (first : then_.HasSort s)
    (second : els.HasSort s) (offset : BitVec shape.bitsShortOffset) :
    content M shape (Expr.mkIf z cond then_ els) offset =
      if cond.truth M then content M shape then_ offset else content M shape els offset := by
  have whole := sorted_mkIf (z := z) condition first second
  unfold content Expr.val
  rw [whole.sort_eq, first.sort_eq, second.sort_eq, eval_mkIf condition first second]
  by_cases holds : cond.truth M = true
  · rw [if_pos holds, if_pos holds]
  · rw [if_neg holds, if_neg holds]

/-- `mk_block_if` gives a block again, with the bytes of the selected one. -/
theorem mkBlockIf_spec
    (condition : cond.HasSort .bool) (first : shape.IsBlock then_) (second : shape.IsBlock els) :
    shape.IsBlock (mkBlockIf z cond shape then_ els) ∧ ∀ M offset,
      content M shape (mkBlockIf z cond shape then_ els) offset =
        if cond.truth M then content M shape then_ offset else content M shape els offset := by
  unfold mkBlockIf
  split
  · next known => exact ⟨first, fun M _ => (if_pos (Expr.truth_of_isTrue known M)).symm⟩
  split
  · next known =>
    refine ⟨second, fun M offset => ?_⟩
    rw [Expr.truth_of_isFalse known M, if_neg Bool.false_ne_true]
  rcases first with byte | array
  · rcases second with byte' | array'
    · rw [isBV_byte byte, isBV_byte byte', if_neg (not_not.2 rfl)]
      exact ⟨.inl (sorted_mkIf condition byte byte'), fun M => content_mkIf condition byte byte'⟩
    · have converted := sorted_mkConstArray byte
      rw [isBV_byte byte, isBV_array array', if_pos Bool.false_ne_true.symm]
      refine ⟨.inr (sorted_mkIf condition converted array'), fun M offset => ?_⟩
      rw [if_pos rfl, content_mkIf condition converted array', content_mkConstArray byte]
  · rcases second with byte' | array'
    · have converted := sorted_mkConstArray byte'
      rw [isBV_array array, isBV_byte byte', if_pos Bool.false_ne_true, if_neg Bool.false_ne_true]
      refine ⟨.inr (sorted_mkIf condition array converted), fun M offset => ?_⟩
      rw [content_mkIf condition array converted, content_mkConstArray byte']
    · rw [isBV_array array, isBV_array array', if_neg (not_not.2 rfl)]
      exact ⟨.inr (sorted_mkIf condition array array'),
        fun M => content_mkIf condition array array'⟩

end

section

variable {z : Z3} {less : Expr → Expr → Bool} {shape : Shape} {init m m' then_ els : Memory shape}
  {sizes : Nat → Expr} {next next' : Nat} {cond : Expr}

/-- A memory that is derived from the common one. -/
structure Derived (init : Memory shape) (next : Nat) (sizes : Nat → Expr) (m : Memory shape) :
    Prop where
  sorted : WellSorted m
  constants : ∀ bid : Fin shape.numNonlocals, shape.config.alwaysNowrite bid false true = true →
    m.nonLocalBlockVal bid = init.nonLocalBlockVal bid
  size_keys : m.nonLocalBlkSize.keys = init.nonLocalBlkSize.keys
  allocated : ∀ entry ∈ m.localBlkSize.fn, ∃ bid < next, entry = (shape.shortBid bid, sizes bid)

theorem Initial.derived (initial : Initial init) : Derived init 0 sizes init where
  sorted := initial.sorted
  constants _ _ := rfl
  size_keys := rfl
  allocated entry member := by
    rw [initial.no_locals] at member
    cases member

theorem Derived.later
    {sizes' : Nat → Expr} (derived : Derived init next sizes m) (le : next ≤ next')
    (same : ∀ bid < next, sizes' bid = sizes bid) : Derived init next' sizes' m where
  sorted := derived.sorted
  constants := derived.constants
  size_keys := derived.size_keys
  allocated entry member := by
    obtain ⟨bid, before, value⟩ := derived.allocated entry member
    refine ⟨bid, before.trans_le le, ?_⟩
    rw [same bid before]
    exact value

theorem sorted_replace
    {f : FunctionExpr} {key val : Expr} {w : Nat} {s : Srt} (sorted : f.Sorted w s)
    (sorted_key : key.HasSort (.bv w))
    (sorted_val : val.HasSort s) : (f.replace less key val).Sorted w s where
  keys entry member := by
    rcases FunctionExpr.mem_of_mem_replace member with rfl | old
    · exact sorted_key
    · exact sorted.keys entry old
  vals entry member := by
    rcases FunctionExpr.mem_of_mem_replace member with rfl | old
    · exact sorted_val
    · exact sorted.vals entry old

theorem sorted_shortBid (bid : Nat) : (shape.shortBid bid).HasSort (.bv shape.bitsShortBid) :=
  Expr.hasSort_mkUInt shape.bid_positive

theorem isBlock_update {count : Nat} {vals : Fin count → MemBlock} {blk : MemBlock}
    (blocks : ∀ bid, shape.IsBlock (vals bid).val) (bid : Fin count)
    (block : shape.IsBlock blk.val) :
    ∀ other, shape.IsBlock (Function.update vals bid blk other).val :=
  (Function.forall_update_iff vals fun _ blk => shape.IsBlock blk.val).2
    ⟨block, fun other _ => blocks other⟩

theorem Change.derived
    (change : Change less next m next' m') (derived : Derived init next sizes m) :
    next ≤ next' ∧ ∃ sizes', (∀ bid < next, sizes' bid = sizes bid) ∧
      Derived init next' sizes' m' := by
  have unchanged : ∀ bid < next, sizes bid = sizes bid := fun _ _ => rfl
  have sorted := derived.sorted
  cases change with
  | writeLocal bid blk block =>
    refine ⟨le_refl _, sizes, unchanged, { derived with sorted := ?_ }⟩
    exact { sorted with localBlocks := isBlock_update sorted.localBlocks bid block }
  | writeNonLocal bid blk block writable =>
    refine ⟨le_refl _, sizes, unchanged, { derived with sorted := ?_, constants := ?_ }⟩
    · exact { sorted with nonLocalBlocks := isBlock_update sorted.nonLocalBlocks bid block }
    · intro other constant
      have ne : other ≠ bid := by
        rintro rfl
        rw [writable] at constant
        cases constant
      rw [← derived.constants other constant]
      exact Function.update_of_ne ne _ _
  | recordStores stored =>
    exact ⟨le_refl _, sizes, unchanged, { derived with sorted := { sorted with } }⟩
  | setLiveness locals nonLocals sorted_locals sorted_nonLocals =>
    refine ⟨le_refl _, sizes, unchanged, { derived with sorted := ?_ }⟩
    exact { sorted with localLiveness := sorted_locals, nonLocalLiveness := sorted_nonLocals }
  | recordStoredArg stored sorted_stored =>
    refine ⟨le_refl _, sizes, unchanged, { derived with sorted := ?_ }⟩
    exact { sorted with storedArg := sorted_stored }
  | growBlock bid size present sorted_size =>
    refine ⟨le_refl _, sizes, unchanged, { derived with sorted := ?_, size_keys := ?_ }⟩
    · obtain ⟨old, member⟩ := FunctionExpr.mem_keys.1 present
      have sorted_bid := sorted.nonLocalSizes.keys _ member
      exact { sorted with
        nonLocalSizes := sorted_replace sorted.nonLocalSizes sorted_bid sorted_size }
    · exact (FunctionExpr.keys_replace present).trans derived.size_keys
  | escape escaped observed sized_escaped sized_observed =>
    refine ⟨le_refl _, sizes, unchanged, { derived with sorted := ?_ }⟩
    exact { sorted with escaped := sized_escaped, observed := sized_observed }
  | recordAlias ptrAlias nextNonlocalBid sized =>
    refine ⟨le_refl _, sizes, unchanged, { derived with sorted := ?_ }⟩
    exact { sorted with aliases := sized }
  | allocLocal addr size align kind room sorted_size =>
    refine ⟨Nat.le_succ next, Function.update sizes next size, ?_,
      { derived with sorted := ?_, allocated := ?_ }⟩
    · intro bid before
      exact Function.update_of_ne before.ne _ _
    · exact { sorted with
        localSizes := sorted_replace sorted.localSizes (sorted_shortBid next) sorted_size }
    · intro entry member
      rcases FunctionExpr.mem_of_mem_replace member with rfl | old
      · refine ⟨next, Nat.lt_succ_self next, ?_⟩
        rw [Function.update_self]
      · obtain ⟨bid, before, value⟩ := derived.allocated entry old
        refine ⟨bid, before.trans (Nat.lt_succ_self next), ?_⟩
        rw [Function.update_of_ne before.ne]
        exact value

theorem isAlias_unionWith
    {set other : AliasSet} (sized : shape.IsAlias set) : shape.IsAlias (set.unionWith other) := by
  intro islocal
  rw [← sized islocal]
  cases islocal <;> exact AliasSet.length_combine _ _ _

theorem Derived.mkIf (condition : cond.HasSort .bool) (first : Derived init next sizes then_)
    (second : Derived init next sizes els) :
    Derived init next sizes (Memory.mkIf z less cond then_ els) where
  sorted :=
    { localBlocks := fun bid =>
        (mkBlockIf_spec condition (first.sorted.localBlocks bid) (second.sorted.localBlocks bid)).1
      nonLocalBlocks := fun bid => by
        show shape.IsBlock (ite _ _ _ : MemBlock).val
        split
        · exact first.sorted.nonLocalBlocks bid
        · exact (mkBlockIf_spec condition (first.sorted.nonLocalBlocks bid)
            (second.sorted.nonLocalBlocks bid)).1
      localLiveness := fun some_block =>
        sorted_mkIf condition (first.sorted.localLiveness some_block)
          (second.sorted.localLiveness some_block)
      nonLocalLiveness := fun some_block =>
        sorted_mkIf condition (first.sorted.nonLocalLiveness some_block)
          (second.sorted.nonLocalLiveness some_block)
      storedArg := fun has =>
        sorted_mkIf condition (first.sorted.storedArg has) (second.sorted.storedArg has)
      localSizes := by
        constructor
        · intro entry member
          rcases FunctionExpr.mem_of_mem_addEach member with mine | other
          · exact first.sorted.localSizes.keys entry mine
          · exact second.sorted.localSizes.keys entry other
        · intro entry member
          rcases FunctionExpr.mem_of_mem_addEach member with mine | other
          · exact first.sorted.localSizes.vals entry mine
          · exact second.sorted.localSizes.vals entry other
      nonLocalSizes := by
        have same_keys := first.size_keys.trans second.size_keys.symm
        constructor
        · intro entry member
          obtain ⟨a, _, mine, _⟩ := FunctionExpr.mem_mkIf same_keys member
          exact first.sorted.nonLocalSizes.keys (entry.1, a) mine
        · intro entry member
          obtain ⟨a, b, mine, other, value⟩ := FunctionExpr.mem_mkIf same_keys member
          rw [value]
          exact sorted_mkIf condition (first.sorted.nonLocalSizes.vals _ mine)
            (second.sorted.nonLocalSizes.vals _ other)
      escaped := isAlias_unionWith first.sorted.escaped
      observed := isAlias_unionWith first.sorted.observed
      aliases := by
        intro e set known
        change mergeAlias (then_.ptrAlias e) (els.ptrAlias e) = some set at known
        cases mine : then_.ptrAlias e with
        | some a =>
          have sized := first.sorted.aliases e a mine
          rw [mine] at known
          cases other : els.ptrAlias e with
          | some b =>
            rw [other] at known
            cases known
            exact isAlias_unionWith sized
          | none =>
            rw [other] at known
            cases known
            exact sized
        | none =>
          rw [mine] at known
          exact second.sorted.aliases e set known }
  constants bid constant := by
    rw [← first.constants bid constant]
    exact if_pos constant
  size_keys := (FunctionExpr.keys_mkIf (first.size_keys.trans second.size_keys.symm)).trans
    first.size_keys
  allocated entry member := by
    rcases FunctionExpr.mem_of_mem_addEach member with mine | other
    · exact first.allocated entry mine
    · exact second.allocated entry other

theorem Reached.derived
    {all : Memories shape} (initial : Initial init) (reached : Reached z less init all) :
    all.nextLocalBid ≤ shape.numLocals ∧
      ∃ sizes, ∀ m ∈ all.points, Derived init all.nextLocalBid sizes m := by
  induction reached with
  | init =>
    refine ⟨Nat.zero_le _, fun _ => .bool false, ?_⟩
    intro m member
    rw [List.mem_singleton.1 member]
    exact initial.derived
  | change reached member change ih =>
    obtain ⟨room, sizes, derived⟩ := ih
    obtain ⟨le, sizes', same, changed⟩ := change.derived (derived _ member)
    refine ⟨?_, sizes', ?_⟩
    · cases change with
      | allocLocal addr size align kind free _ => exact free
      | writeLocal | writeNonLocal | recordStores | setLiveness | recordStoredArg | growBlock
        | escape | recordAlias => exact room
    · intro other inside
      rcases List.mem_cons.1 inside with rfl | old
      · exact changed
      · exact (derived other old).later le same
  | mkIf reached first second condition ih =>
    obtain ⟨room, sizes, derived⟩ := ih
    refine ⟨room, sizes, ?_⟩
    intro other inside
    rcases List.mem_cons.1 inside with rfl | old
    · exact (derived _ first).mkIf condition (derived _ second)
    · exact derived other old

end

section

variable {z : Z3} {less : Expr → Expr → Bool} {shape : Shape} {init then_ els : Memory shape}
  {sizes : Nat → Expr} {next : Nat} {cond : Expr} {M : Model}

variable {name : String} {localFn nonlocalFn f : FunctionExpr} {s : Srt} {isLocal bid : Expr}
  {w : Nat}

theorem eval_getValue_local
    {t : Expr} (sorted_nonLocal : (nonLocalValue name nonlocalFn s bid).HasSort s)
    (sorted_isLocal : isLocal.HasSort .bool) (onLocal : isLocal.truth M = true)
    (sorted : t.HasSort s) (known : localFn.apply z less bid = some t) :
    (getValue z less name localFn nonlocalFn s isLocal bid).eval M = t.eval M := by
  unfold getValue
  rw [known]
  exact (eval_mkIf sorted_isLocal sorted sorted_nonLocal).trans (if_pos onLocal)

theorem eval_getValue_nonLocal (sorted_local : localFn.Sorted w s)
    (sorted_nonLocal : (nonLocalValue name nonlocalFn s bid).HasSort s)
    (sorted_isLocal : isLocal.HasSort .bool) (sorted_bid : bid.HasSort (.bv w))
    (outside : ¬isLocal.truth M = true) :
    (getValue z less name localFn nonlocalFn s isLocal bid).eval M =
      (nonLocalValue name nonlocalFn s bid).eval M := by
  unfold getValue
  cases known : localFn.apply z less bid with
  | none => rfl
  | some val =>
    have sorted := FunctionExpr.apply_sorted sorted_local sorted_bid known
    exact (eval_mkIf sorted_isLocal sorted sorted_nonLocal).trans (if_neg outside)

theorem sorted_nonLocalValue {size : Nat}
    (positive : 0 < size) (sorted : f.Sorted w (.bv size)) (sorted_bid : bid.HasSort (.bv w)) :
    (nonLocalValue name f (.bv size) bid).HasSort (.bv size) := by
  unfold nonLocalValue
  cases known : f.lookup bid with
  | none =>
    refine Expr.hasSort_app.2 ⟨?_, decide_eq_true positive, rfl⟩
    intro e member
    rw [List.mem_singleton.1 member]
    exact sorted_bid.wellSorted
  | some val => exact sorted.vals _ (FunctionExpr.lookup_eq_some.1 known)

theorem eval_nonLocalValue_mkIf {first second : FunctionExpr}
    (condition : cond.HasSort .bool) (same_keys : first.keys = second.keys)
    (sorted_first : first.Sorted w s) (sorted_second : second.Sorted w s) :
    (nonLocalValue name (FunctionExpr.mkIf z cond first second) s bid).eval M =
      if cond.truth M then (nonLocalValue name first s bid).eval M
      else (nonLocalValue name second s bid).eval M := by
  unfold nonLocalValue
  cases known : (FunctionExpr.mkIf z cond first second).lookup bid with
  | none =>
    have absent := FunctionExpr.lookup_eq_none.1 known
    rw [FunctionExpr.keys_mkIf same_keys] at absent
    rw [FunctionExpr.lookup_eq_none.2 absent,
      FunctionExpr.lookup_eq_none.2 (same_keys ▸ absent), ite_self]
  | some val =>
    obtain ⟨a, b, mine, other, rfl⟩ := FunctionExpr.mem_mkIf same_keys
      (FunctionExpr.lookup_eq_some.1 known)
    rw [FunctionExpr.lookup_eq_some.2 mine, FunctionExpr.lookup_eq_some.2 other]
    exact eval_mkIf condition (sorted_first.vals _ mine) (sorted_second.vals _ other)

theorem shortBid_inj {a b : Nat} (first : a < shape.numLocals) (second : b < shape.numLocals)
    (same : (shape.shortBid a).toNat M = (shape.shortBid b).toNat M) : a = b := by
  rw [Shape.shortBid, Shape.shortBid, Expr.toNat_mkUInt, Expr.toNat_mkUInt,
    Nat.mod_eq_of_lt (first.trans_le shape.locals_fit),
    Nat.mod_eq_of_lt (second.trans_le shape.locals_fit)] at same
  exact same

theorem apply_allocated {i : Nat} (room : next ≤ shape.numLocals)
    (sorted : f.Sorted shape.bitsShortBid (.bv shape.bitsSizeT))
    (allocated : ∀ entry ∈ f.fn, ∃ bid < next, entry = (shape.shortBid bid, sizes bid))
    (sorted_bid : bid.HasSort (.bv shape.bitsShortBid)) (safe : bid.NonzeroDivisors M)
    (before : i < next) (member : shape.shortBid i ∈ f.keys)
    (here : (shape.shortBid i).toNat M = bid.toNat M) :
    ∃ t, f.apply z less bid = some t ∧ t.HasSort (.bv shape.bitsSizeT) ∧
      t.eval M = (sizes i).eval M := by
  have entry : (shape.shortBid i, sizes i) ∈ f.fn := by
    obtain ⟨val, inside⟩ := FunctionExpr.mem_keys.1 member
    obtain ⟨j, before_j, same⟩ := allocated _ inside
    rw [Prod.mk.injEq] at same
    have equal : i = j := shortBid_inj (M := M) (before.trans_le room) (before_j.trans_le room)
      (by rw [same.1])
    rw [same.2, ← equal] at inside
    exact inside
  have constants : ∀ entry ∈ f.fn, entry.1.NonzeroDivisors M := by
    intro entry inside
    obtain ⟨j, _, rfl⟩ := allocated entry inside
    trivial
  have apart : (f.fn.map fun entry => entry.1.toNat M).Nodup := by
    have numbers : f.fn.map (fun entry => entry.1.toNat M) = f.keys.map fun key => key.toNat M := by
      unfold FunctionExpr.keys
      rw [List.map_map]
      rfl
    rw [numbers]
    refine f.nodup.map_on fun a first b second same => ?_
    obtain ⟨entry, inside, rfl⟩ := List.mem_map.1 first
    obtain ⟨entry', inside', rfl⟩ := List.mem_map.1 second
    obtain ⟨j, before_j, rfl⟩ := allocated entry inside
    obtain ⟨k, before_k, rfl⟩ := allocated entry' inside'
    rw [shortBid_inj (before_j.trans_le room) (before_k.trans_le room) same]
  exact FunctionExpr.apply_of_mem sorted constants sorted_bid safe apart entry here

/-- Reading one memory gives what reading the other one gives. -/
structure ReadsAs (z : Z3) (less : Expr → Expr → Bool) (M : Model) (m selected : Memory shape) :
    Prop where
  localContent : ∀ bid offset, content M shape (m.localBlockVal bid).val offset =
    content M shape (selected.localBlockVal bid).val offset
  nonLocalContent : ∀ bid offset, content M shape (m.nonLocalBlockVal bid).val offset =
    content M shape (selected.nonLocalBlockVal bid).val offset
  alive : ∀ islocal bid, m.alive M islocal bid = selected.alive M islocal bid
  storedArg : shape.hasInitializesAttr = true → ∀ place,
    m.storedArg M place = selected.storedArg M place
  blockSize : ∀ isLocal bid : Expr, isLocal.HasSort .bool →
    bid.HasSort (.bv shape.bitsShortBid) → bid.NonzeroDivisors M →
    (isLocal.truth M = true → ∃ key ∈ selected.localBlkSize.keys, key.toNat M = bid.toNat M) →
    (m.blockSize z less isLocal bid).eval M = (selected.blockSize z less isLocal bid).eval M

structure RecordsInclude (m branch : Memory shape) : Prop where
  escaped : ∀ islocal, branch.escapedLocalBlks.members islocal ⊆ m.escapedLocalBlks.members islocal
  observed : ∀ islocal, branch.observedAddrs.members islocal ⊆ m.observedAddrs.members islocal
  aliases : ∀ e set, branch.ptrAlias e = some set → ∃ set', m.ptrAlias e = some set' ∧
    ∀ islocal, set.members islocal ⊆ set'.members islocal
  stored : ∀ bid, (m.storedPointers bid).second = true ∨
    (branch.storedPointers bid).second = false ∧
      (branch.storedPointers bid).first ⊆ (m.storedPointers bid).first

theorem bv_mkIf {first second : Expr} (condition : cond.HasSort .bool)
    (sorted_first : 0 < w → first.HasSort (.bv w))
    (sorted_second : 0 < w → second.HasSort (.bv w)) (i : Nat) :
    ((Expr.mkIf z cond first second).bv M w).getLsbD i =
      if cond.truth M then (first.bv M w).getLsbD i else (second.bv M w).getLsbD i := by
  by_cases positive : 0 < w
  · unfold Expr.bv
    rw [eval_mkIf condition (sorted_first positive) (sorted_second positive)]
    split <;> rfl
  · have none : w = 0 := Nat.eq_zero_of_not_pos positive
    rw [BitVec.getLsbD_of_ge _ i (by omega), BitVec.getLsbD_of_ge _ i (by omega),
      BitVec.getLsbD_of_ge _ i (by omega), ite_self]

theorem blockSize_eq {m selected : Memory shape} (room : next ≤ shape.numLocals)
    (first : Derived init next sizes m) (second : Derived init next sizes selected)
    (included : ∀ key ∈ selected.localBlkSize.keys, key ∈ m.localBlkSize.keys)
    (nonLocal : (nonLocalValue "blk_size" m.nonLocalBlkSize (.bv shape.bitsSizeT) bid).eval M =
      (nonLocalValue "blk_size" selected.nonLocalBlkSize (.bv shape.bitsSizeT) bid).eval M)
    (sorted_isLocal : isLocal.HasSort .bool) (sorted_bid : bid.HasSort (.bv shape.bitsShortBid))
    (safe : bid.NonzeroDivisors M) (recorded : isLocal.truth M = true →
      ∃ key ∈ selected.localBlkSize.keys, key.toNat M = bid.toNat M) :
    (m.blockSize z less isLocal bid).eval M = (selected.blockSize z less isLocal bid).eval M := by
  have sorted_nonLocal : ∀ {m : Memory shape}, Derived init next sizes m →
      (nonLocalValue "blk_size" m.nonLocalBlkSize (.bv shape.bitsSizeT) bid).HasSort
        (.bv shape.bitsSizeT) := fun derived =>
    sorted_nonLocalValue shape.size_positive derived.sorted.nonLocalSizes sorted_bid
  by_cases onLocal : isLocal.truth M = true
  · obtain ⟨key, member, here⟩ := recorded onLocal
    obtain ⟨val, inside⟩ := FunctionExpr.mem_keys.1 member
    obtain ⟨i, before, same⟩ := second.allocated _ inside
    rw [Prod.mk.injEq] at same
    rw [same.1] at member here
    have read : ∀ {m : Memory shape}, Derived init next sizes m →
        shape.shortBid i ∈ m.localBlkSize.keys →
        (m.blockSize z less isLocal bid).eval M = (sizes i).eval M := by
      intro m derived present
      obtain ⟨t, known, sorted, value⟩ := apply_allocated room derived.sorted.localSizes
        derived.allocated sorted_bid safe before present here
      exact (eval_getValue_local (sorted_nonLocal derived) sorted_isLocal onLocal sorted
        known).trans value
    rw [read first (included _ member), read second member]
  · have read : ∀ {m : Memory shape}, Derived init next sizes m →
        (m.blockSize z less isLocal bid).eval M =
          (nonLocalValue "blk_size" m.nonLocalBlkSize (.bv shape.bitsSizeT) bid).eval M :=
      fun derived => eval_getValue_nonLocal derived.sorted.localSizes (sorted_nonLocal derived)
        sorted_isLocal sorted_bid onLocal
    rw [read first, read second, nonLocal]

theorem Derived.reads (room : next ≤ shape.numLocals) (condition : cond.HasSort .bool)
    (first : Derived init next sizes then_) (second : Derived init next sizes els) :
    ReadsAs z less M (Memory.mkIf z less cond then_ els) (if cond.truth M then then_ else els) where
  localContent bid offset := by
    refine ((mkBlockIf_spec condition (first.sorted.localBlocks bid)
      (second.sorted.localBlocks bid)).2 M offset).trans ?_
    split <;> rfl
  nonLocalContent bid offset := by
    by_cases constant : shape.config.alwaysNowrite bid false true = true
    · have same := (first.constants bid constant).trans (second.constants bid constant).symm
      have kept : (Memory.mkIf z less cond then_ els).nonLocalBlockVal bid =
          then_.nonLocalBlockVal bid := if_pos constant
      rw [kept]
      split
      · rfl
      · rw [same]
    · have merged : (Memory.mkIf z less cond then_ els).nonLocalBlockVal bid =
          MemBlock.mkIf z cond shape (then_.nonLocalBlockVal bid) (els.nonLocalBlockVal bid) :=
        if_neg constant
      rw [merged]
      refine ((mkBlockIf_spec condition (first.sorted.nonLocalBlocks bid)
        (second.sorted.nonLocalBlocks bid)).2 M offset).trans ?_
      split <;> rfl
  alive islocal bid := by
    cases islocal with
    | true =>
      refine (bv_mkIf condition first.sorted.localLiveness second.sorted.localLiveness bid).trans ?_
      split <;> rfl
    | false =>
      refine (bv_mkIf condition first.sorted.nonLocalLiveness second.sorted.nonLocalLiveness
        bid).trans ?_
      split <;> rfl
  storedArg has place := by
    have value := eval_mkIf (z := z) (M := M) condition (first.sorted.storedArg has)
      (second.sorted.storedArg has)
    have merged : (Memory.mkIf z less cond then_ els).storedArg M place =
        ((Expr.mkIf z cond then_.hasStoredArg els.hasStoredArg).eval M).get
          (.array shape.placeSort .bool) place := rfl
    rw [merged, value]
    split <;> rfl
  blockSize isLocal bid sorted_isLocal sorted_bid safe recorded := by
    have merged : Derived init next sizes (Memory.mkIf z less cond then_ els) :=
      first.mkIf condition second
    have nonLocal : (nonLocalValue "blk_size"
        (FunctionExpr.mkIf z cond then_.nonLocalBlkSize els.nonLocalBlkSize)
        (.bv shape.bitsSizeT) bid).eval M = _ :=
      eval_nonLocalValue_mkIf condition (first.size_keys.trans second.size_keys.symm)
        first.sorted.nonLocalSizes second.sorted.nonLocalSizes
    by_cases holds : cond.truth M = true
    · rw [if_pos holds] at recorded nonLocal ⊢
      exact blockSize_eq room merged first
        (fun key member => FunctionExpr.mem_keys_addEach.2 (.inl member)) nonLocal
        sorted_isLocal sorted_bid safe recorded
    · rw [if_neg holds] at recorded nonLocal ⊢
      exact blockSize_eq room merged second
        (fun key member => FunctionExpr.mem_keys_addEach.2 (.inr member)) nonLocal
        sorted_isLocal sorted_bid safe recorded

theorem members_unionWith {set other : AliasSet} (sized : shape.IsAlias set)
    (sized_other : shape.IsAlias other) (islocal : Bool) :
    set.members islocal ⊆ (set.unionWith other).members islocal ∧
      other.members islocal ⊆ (set.unionWith other).members islocal := by
  constructor
  · intro bid member
    have known : set.mayAlias islocal bid = true := member
    show (set.unionWith other).mayAlias islocal bid = true
    rw [AliasSet.mayAlias_unionWith, known, Bool.true_or]
  · intro bid member
    have known : other.mayAlias islocal bid = true := member
    have inside := AliasSet.mayAlias_lt known
    rw [sized_other islocal, ← sized islocal] at inside
    show (set.unionWith other).mayAlias islocal bid = true
    rw [AliasSet.mayAlias_unionWith, known, decide_eq_true inside, Bool.and_self, Bool.or_true]

theorem merge_includes (set other : Stored.Record Expr) : (set.merge other).second = true ∨
      (set.second = false ∧ set.first ⊆ (set.merge other).first) ∧
        (other.second = false ∧ other.first ⊆ (set.merge other).first) := by
  unfold Stored.Record.merge
  split
  · exact .inl rfl
  · next partial_ =>
    rw [Bool.or_eq_true, Bool.or_eq_true, not_or, not_or] at partial_
    exact .inr ⟨⟨Bool.eq_false_of_not_eq_true partial_.1.1, Finset.subset_union_left⟩,
      Bool.eq_false_of_not_eq_true partial_.1.2, Finset.subset_union_right⟩

theorem Derived.records
    (first : Derived init next sizes then_) (second : Derived init next sizes els) :
    RecordsInclude (Memory.mkIf z less cond then_ els) then_ ∧
      RecordsInclude (Memory.mkIf z less cond then_ els) els := by
  have merged : ∀ e, (Memory.mkIf z less cond then_ els).ptrAlias e =
      mergeAlias (then_.ptrAlias e) (els.ptrAlias e) := fun _ => rfl
  have stored := fun bid => merge_includes (then_.storedPointers bid) (els.storedPointers bid)
  constructor
  · refine ⟨fun islocal => (members_unionWith first.sorted.escaped second.sorted.escaped islocal).1,
      fun islocal => (members_unionWith first.sorted.observed second.sorted.observed islocal).1,
      ?_, fun bid => (stored bid).imp id And.left⟩
    intro e set known
    rw [merged, known]
    cases other : els.ptrAlias e with
    | none => exact ⟨set, rfl, fun _ => subset_rfl⟩
    | some set' =>
      exact ⟨set.unionWith set', rfl, fun islocal => (members_unionWith
        (first.sorted.aliases e set known) (second.sorted.aliases e set' other) islocal).1⟩
  · refine ⟨fun islocal => (members_unionWith first.sorted.escaped second.sorted.escaped islocal).2,
      fun islocal => (members_unionWith first.sorted.observed second.sorted.observed islocal).2,
      ?_, fun bid => (stored bid).imp id And.right⟩
    intro e set known
    rw [merged, known]
    cases mine : then_.ptrAlias e with
    | none => exact ⟨set, rfl, fun _ => subset_rfl⟩
    | some set' =>
      exact ⟨set'.unionWith set, rfl, fun islocal => (members_unionWith
        (first.sorted.aliases e set' mine) (second.sorted.aliases e set known) islocal).2⟩

end

section

variable (z : Z3) (less : Expr → Expr → Bool) {shape : Shape} {init then_ els : Memory shape}
  {all : Memories shape} {cond : Expr}

/-- Reading the join of two memories that are derived from a common one gives what the
selected memory gives, and its records include those of both. -/
theorem Memory.mkIf_keeps_reads
    (initial : Initial init) (reached : Reached z less init all) (first : then_ ∈ all.points)
    (second : els ∈ all.points) (condition : cond.HasSort .bool) :
    (∀ M, ReadsAs z less M (Memory.mkIf z less cond then_ els)
      (if cond.truth M then then_ else els)) ∧
      RecordsInclude (Memory.mkIf z less cond then_ els) then_ ∧
      RecordsInclude (Memory.mkIf z less cond then_ els) els := by
  obtain ⟨room, sizes, derived⟩ := reached.derived initial
  have derived_then := derived then_ first
  have derived_els := derived els second
  exact ⟨fun M => derived_then.reads room condition derived_els, derived_then.records derived_els⟩

end

/-! ## A block of one path -/

def oneLocal : Shape where
  config := Stored.threeBlocks
  numLocals := 1
  numNonlocals := 3
  bitsShortBid := 2
  bitsShortOffset := 8
  bitsByte := 10
  bitsSizeT := 16
  hasInitializesAttr := false
  bid_positive := by decide
  offset_positive := by decide
  byte_positive := by decide
  size_positive := by decide
  locals_fit := by decide

def beforePaths : Memory oneLocal where
  nonLocalBlockVal _ := ⟨.num 10 0, ∅, {}⟩
  localBlockVal _ := ⟨.num 10 0, ∅, {}⟩
  nonLocalBlockLiveness := .num 3 7
  localBlockLiveness := .num 1 0
  hasStoredArg := .bool false
  storedPointers _ := ⟨∅, false⟩
  localBlkAddr := .empty
  localBlkSize := .empty
  localBlkAlign := .empty
  localBlkKind := .empty
  nonLocalBlkSize :=
    { fn := [(oneLocal.shortBid 0, .num 16 0), (oneLocal.shortBid 1, .num 16 16),
        (oneLocal.shortBid 2, .num 16 16)]
      nodup := by decide }
  nonLocalBlkAlign := .empty
  nonLocalBlkKind := .empty
  byvalBlks := []
  escapedLocalBlks := .empty 1 3
  observedAddrs := .empty 1 3
  ptrAlias _ := none
  nextNonlocalBid := 2

theorem beforePaths_initial : Initial beforePaths where
  sorted :=
    { localBlocks := fun _ => .inl ⟨rfl, rfl⟩
      nonLocalBlocks := fun _ => .inl ⟨rfl, rfl⟩
      localLiveness := fun _ => ⟨rfl, rfl⟩
      nonLocalLiveness := fun _ => ⟨rfl, rfl⟩
      storedArg := fun absent => by cases absent
      localSizes := ⟨List.forall_mem_nil _, List.forall_mem_nil _⟩
      nonLocalSizes := by
        constructor
        · exact List.forall_mem_cons.2 ⟨⟨rfl, rfl⟩, List.forall_mem_cons.2 ⟨⟨rfl, rfl⟩,
            List.forall_mem_singleton.2 ⟨rfl, rfl⟩⟩⟩
        · exact List.forall_mem_cons.2 ⟨⟨rfl, rfl⟩, List.forall_mem_cons.2 ⟨⟨rfl, rfl⟩,
            List.forall_mem_singleton.2 ⟨rfl, rfl⟩⟩⟩
      escaped := fun islocal => by cases islocal <;> rfl
      observed := fun islocal => by cases islocal <;> rfl
      aliases := fun _ _ absent => by cases absent }
  no_locals := rfl

def anyOrder (_ _ : Expr) : Bool := true

def afterAlloc : Memory oneLocal :=
  { beforePaths with
    localBlkSize := beforePaths.localBlkSize.replace anyOrder (oneLocal.shortBid 0) (.num 16 8)
    localBlkAlign := beforePaths.localBlkAlign.add anyOrder (oneLocal.shortBid 0) (.num 6 0)
    localBlkKind := beforePaths.localBlkKind.add anyOrder (oneLocal.shortBid 0) (.num 3 0) }

theorem reached_afterAlloc :
    Reached Z3.reference anyOrder beforePaths ⟨1, [afterAlloc, beforePaths]⟩ :=
  .change .init (List.mem_singleton_self _)
    (.allocLocal none (.num 16 8) (.num 6 0) (.num 3 0) (by decide) ⟨rfl, rfl⟩)

def branch : Expr := .var "c" .bool

theorem mkIf_keeps_reads_afterAlloc :
    Reached Z3.reference anyOrder beforePaths ⟨1, [afterAlloc, beforePaths]⟩ ∧
      ∀ M, ReadsAs Z3.reference anyOrder M
        (Memory.mkIf Z3.reference anyOrder branch afterAlloc beforePaths)
        (if branch.truth M then afterAlloc else beforePaths) :=
  ⟨reached_afterAlloc, (Memory.mkIf_keeps_reads Z3.reference anyOrder beforePaths_initial
    reached_afterAlloc List.mem_cons_self (List.mem_cons_of_mem _ (List.mem_singleton_self _))
    ⟨rfl, rfl⟩).1⟩

/-- In a model of the other path, where the block does not exist, the join has its size. -/
theorem join_reads_other_path :
    Reached Z3.reference anyOrder beforePaths ⟨1, [afterAlloc, beforePaths]⟩ ∧
      branch.truth default = false ∧
      ((Memory.mkIf Z3.reference anyOrder branch afterAlloc beforePaths).blockSize Z3.reference
        anyOrder (.bool true) (oneLocal.shortBid 0)).eval default = .bv 16 8 ∧
      (beforePaths.blockSize Z3.reference anyOrder (.bool true) (oneLocal.shortBid 0)).eval
        default = .bv 16 0 := by
  refine ⟨reached_afterAlloc, rfl, ?_, ?_⟩
  · rfl
  · rfl

end AliveNext.IR.Joined
