import AliveNext.IR.AccessSizes

/-!
# Widths of the encoding

`calculateAndInitConstants` (`tools/transform.cpp`) goes over both functions and chooses the
numbers of bits of block ids, offsets, sizes, addresses and bytes.
-/

namespace AliveNext.Tools.Widths

open IR IR.Accesses

mutual

inductive Operand
  | null
  | undef (ty : Ty)
  | aggregate (ty : Ty) (vals : Operands)
  | other (ty : Ty)

inductive Operands
  | nil
  | cons (val : Operand) (vals : Operands)

end

mutual

def hasNullptr : Operand → Bool
  | .null => true
  | .undef ty => ty.hasPtr
  | .aggregate _ vals => anyNullptr vals
  | .other _ => false

def anyNullptr : Operands → Bool
  | .nil => false
  | .cons val vals => hasNullptr val || anyNullptr vals

end

def Operand.getType : Operand → Ty
  | .null => .ptr
  | .undef ty | .aggregate ty _ | .other ty => ty

structure Stmt where
  instr : Instr
  ty : Ty
  operands : List Operand

structure GlobalVariable where
  name : String
  size : Nat
  align : Nat

structure Input where
  ty : Ty
  attrs : Option Accesses.ParamAttrs

namespace Input

def hasAttribute (input : Input) (a : ParamAttr) : Bool :=
  input.attrs.any fun attrs => attrs.has a

end Input

structure Function where
  attrs : FnAttrs
  constants : List String
  globals : List GlobalVariable
  inputs : List Input
  stmts : List Stmt

def Function.instrs (f : Function) : List Instr := f.stmts.map Stmt.instr

/-- What the data layout and the options bound the widths by. -/
structure Target where
  bitsPointers : Nat
  bitsPtrOffset : Nat
  maxOffsetBits : Nat
  maxSizetBits : Nat
  /-- `initBitsProgramPointer` asserts this. -/
  positive : 0 < bitsPointers
  at_most : bitsPointers ≤ 64

/-- Source and target, and what the data flow over the source counts. -/
structure Transform where
  src : Function
  tgt : Function
  target : Target
  numNonlocalsInst : Nat

/-- `std::bit_width`, `ilog2` and `ilog2_ceil(n, false)`. -/
def ilog2 (n : Nat) : Nat := if n = 0 then 0 else bitWidth n - 1

def isPower2 (n : Nat) : Bool := n = 2 ^ ilog2 n

def ilog2Ceil (n : Nat) : Nat := if isPower2 n then ilog2 n else ilog2 n + 1

def alignedAllocSize (size align : Nat) : Nat :=
  if size ≤ align then align else addSaturate size (align - 1)

namespace Transform

variable (t : Transform)

def instrs : List Instr := t.src.instrs ++ t.tgt.instrs

def inputs : List Input := t.src.inputs ++ t.tgt.inputs

def globals : List GlobalVariable := t.src.globals ++ t.tgt.globals

/-- `getByteAccessInfo` of all memory instructions. -/
def accessInfos : List AccessInfo :=
  (t.instrs.filter Instr.isMemInstr).map (Instr.getByteAccessInfo t.target.bitsPointers)

/-- `num_locals_src` and `num_locals_tgt`. -/
def numLocals (f : Function) : Nat := f.instrs.countP Instr.returnsLocal % 2 ^ 32

/-- `emplace` of a set, with a counter. -/
def emplace (s : List String × Nat) (name : String) : List String × Nat :=
  if name ∈ s.1 then s else (name :: s.1, s.2 + 1)

/-- What a call does with `inaccessiblememonly_fns` and its counter. -/
def inaccessibleStep (isSrc : Bool) (f : Function) (s : List String × Nat) :
    Instr → List String × Nat
  | .fnCall call =>
    let s :=
      if call.attrs.isAlloc then s
      else
        let s :=
          if call.attrs.mem.canOnlyWrite .inaccessible then emplace s call.name
          else if call.attrs.mem.canOnlyRead .inaccessible then emplace s call.name
          else s
        if !call.isIndirect && f.constants.contains (call.fnName.drop 1).toString then
          emplace s call.name
        else s
    if call.isIndirect && isSrc then (s.1, s.2 + 1) else s
  | _ => s

def numInaccessiblememonlyFns : Nat :=
  let s := t.src.instrs.foldl (inaccessibleStep true t.src) ([], 0)
  (t.tgt.instrs.foldl (inaccessibleStep false t.tgt) s).2

def hasFncall : Bool := t.instrs.any fun i => match i with | .fnCall _ => true | _ => false

def hasWriteFncall : Bool :=
  t.instrs.any fun i => match i with
    | .fnCall call => !call.attrs.isAlloc && !call.attrs.mem.canOnlyWrite .inaccessible &&
        call.attrs.mem.canWriteSomething
    | _ => false

def hasInt2Ptr : Bool := t.instrs.any fun i => match i with | .int2Ptr => true | _ => false

def hasPtr2Int : Bool := t.instrs.any fun i => match i with | .ptr2Int => true | _ => false

def hasNullPointer : Bool :=
  (t.src.stmts ++ t.tgt.stmts).any fun stmt => stmt.operands.any hasNullptr

def doesPtrLoad : Bool := t.accessInfos.any (·.doesPtrLoad)

def doesMemAccess : Bool :=
  t.inputs.any (fun input => input.hasAttribute .dereferenceable ||
    input.hasAttribute .dereferenceableOrNull || input.hasAttribute .byVal) ||
  t.accessInfos.any (·.doesMemAccess)

def countPtrs (p : Input → Bool) : Nat :=
  ((t.src.inputs.filter p).map fun input => numPtrs input.ty).sum

def numByVal : Nat := t.countPtrs (·.hasAttribute .byVal)

def numPtrinputs : Nat := t.countPtrs fun input => !input.hasAttribute .byVal

def numNullPtrinputs : Nat :=
  t.countPtrs fun input => !input.hasAttribute .byVal && !input.hasAttribute .nonNull

def hasNullBlock : Bool :=
  t.numNullPtrinputs % 2 ^ 32 ≠ 0 || t.hasNullPointer || t.doesPtrLoad || t.hasFncall ||
    t.hasInt2Ptr

def numGlobalsTgtOnly : Nat :=
  t.tgt.globals.countP fun glb => !t.src.globals.any fun other => other.name = glb.name

def numNonlocals : Nat :=
  let numNonlocalsSrc := t.src.globals.length + t.numByVal + t.numPtrinputs + t.numNonlocalsInst +
    t.numInaccessiblememonlyFns + t.hasNullBlock.toNat + t.hasWriteFncall.toNat
  let n := (numNonlocalsSrc + t.numGlobalsTgtOnly) % 2 ^ 32
  if (t.hasPtr2Int || t.doesMemAccess) && n = 0 then n + 1 else n

/-- `observes_addresses`. An `Assume` is a memory instruction, so its kind does not matter. -/
def observesAddresses : Bool :=
  t.src.attrs.has .asm || t.tgt.attrs.has .asm ||
  t.inputs.any (fun input => input.hasAttribute .align || input.hasAttribute .dereferenceable ||
    input.hasAttribute .dereferenceableOrNull) ||
  t.accessInfos.any (·.observesAddresses) ||
  t.instrs.any fun i => match i with
    | .int2Ptr | .ptr2Int | .ptr2Addr => true
    | .icmp isPtrCmp mode => isPtrCmp && mode = .integral
    | _ => false

/-- `getMaxAccessSize` of the memory instructions of a function. -/
def instrSizes (f : Function) : List Nat :=
  (f.instrs.filter Instr.isMemInstr).map (Instr.getMaxAccessSize t.target.bitsPointers)

def inputSizes (f : Function) : List Nat :=
  f.inputs.filterMap fun input => input.attrs.map Accesses.ParamAttrs.maxAccessSize

def globalSizes : List Nat := t.globals.map fun glb => max glb.size 1

/-- What one function does with `max_access_size`. -/
def accessSizeStep (size : Nat) (f : Function) : Nat :=
  let size := (inputSizes f).foldl max size
  let size := roundUp size heapBlockAlignment
  (t.instrSizes f).foldl max size

def maxAccessSize : Nat :=
  if t.observesAddresses then uint64Max
  else t.globalSizes.foldl max (t.accessSizeStep (t.accessSizeStep 0 t.src) t.tgt)

/-- `max_gep_src` and `max_gep_tgt`. -/
def maxGep (f : Function) : Nat :=
  ((f.instrs.filter Instr.isMemInstr).map Instr.getMaxGEPOffset).foldl addSaturate 0

def allocSizes (f : Function) : List (Nat × Nat) :=
  (f.instrs.filter Instr.isMemInstr).map Instr.getMaxAllocSize

def maxAllocSize : Nat :=
  if t.observesAddresses then uint64Max
  else ((allocSizes t.src ++ allocSizes t.tgt).map Prod.fst).foldl max 0

def alignedSizes (sizes : List (Nat × Nat)) : Nat :=
  sizes.foldl (fun sum size => addSaturate sum (alignedAllocSize size.1 size.2)) 0

def glbAllocAlignedSize : Nat :=
  if t.observesAddresses then uint64Max
  else alignedSizes (t.globals.map fun glb => (glb.size, glb.align))

def locAllocAlignedSize : Nat :=
  max (alignedSizes (allocSizes t.src)) (alignedSizes (allocSizes t.tgt))

/-- What an instruction contributes to `min_access_size`. -/
def byteSizeOf : Instr → Nat
  | .bitCast ty => ty.commonAccessSize t.target.bitsPointers
  | i => if i.isMemInstr then (i.getByteAccessInfo t.target.bitsPointers).byteSize else 0

def minAccessSize : Option Nat := (t.instrs.map t.byteSizeOf).foldl gcdOpt none

def minVectElemSz : Nat :=
  let elems (ty : Ty) := ty.minVectorElemSize t.target.bitsPointers
  let inputs (f : Function) := f.inputs.filterMap fun input => input.attrs.map fun _ => input.ty
  let stmts (f : Function) := f.stmts.flatMap fun stmt =>
    stmt.operands.map Operand.getType ++ [stmt.ty]
  ((inputs t.src ++ stmts t.src ++ (inputs t.tgt ++ stmts t.tgt)).map elems).foldl gcdNonzero 0

end Transform

/-- What is chosen. -/
structure Constants where
  numLocalsSrc : Nat
  numLocalsTgt : Nat
  numNonlocals : Nat
  bitsProgramPointer : Nat
  bitsForBid : Nat
  bitsForOffset : Nat
  bitsSizeT : Nat
  bitsPtrAddress : Nat
  bitsByte : Nat
  bitsPoisonPerByte : Nat
  deriving DecidableEq

/-- `Pointer::hasLocalBit`. -/
def Constants.hasLocalBit (c : Constants) : Bool :=
  (c.numLocalsSrc ≠ 0 || c.numLocalsTgt ≠ 0) && c.numNonlocals ≠ 0

/-- `Pointer::bitsShortBid`. -/
def Constants.bitsShortBid (c : Constants) : Nat := c.bitsForBid - c.hasLocalBit.toNat

section

variable (t : Transform)

def bitsForBid : Nat :=
  let numLocals := max (Transform.numLocals t.src) (Transform.numLocals t.tgt)
  max 1 (ilog2Ceil (max numLocals t.numNonlocals)) +
    (numLocals ≠ 0 && t.numNonlocals ≠ 0 : Bool).toNat

/-- `bits_for_offset`, without the bits of addresses. -/
def bitsOfGeps : Nat :=
  let maxGeps := bitWidth (addSaturate (max (Transform.maxGep t.src) (Transform.maxGep t.tgt))
    t.maxAccessSize) + 1
  min (min (min (roundUp maxGeps 4) t.target.bitsPtrOffset) t.target.maxOffsetBits)
    t.target.bitsPointers

def bitsSizeT : Nat :=
  min (min (max (bitsOfGeps t) (bitWidth t.maxAllocSize)) (t.target.bitsPointers - 1))
    t.target.maxSizetBits

def bitsPtrAddress : Nat :=
  let hasLocalBit := (Transform.numLocals t.src ≠ 0 || Transform.numLocals t.tgt ≠ 0) &&
    t.numNonlocals ≠ 0
  let bits := addSaturate (bitWidth (max t.glbAllocAlignedSize t.locAllocAlignedSize)) 1
  min (max (max (bitsOfGeps t) (bitsSizeT t)) bits + hasLocalBit.toNat) t.target.bitsPointers

/-- `bits_byte`, an `unsigned`. -/
def bitsByte : Nat :=
  8 * (if t.doesMemAccess then t.minAccessSize.getD 1 % 2 ^ 32 else 1) % 2 ^ 32

def bitsPoisonPerByte : Nat :=
  if t.minVectElemSz = 0 then 1
  else if t.minVectElemSz % 8 ≠ 0 then bitsByte t
  else bitsByte t / Nat.gcd (bitsByte t) t.minVectElemSz

def calculateAndInitConstants : Constants where
  numLocalsSrc := Transform.numLocals t.src
  numLocalsTgt := Transform.numLocals t.tgt
  numNonlocals := t.numNonlocals
  bitsProgramPointer := t.target.bitsPointers
  bitsForBid := bitsForBid t
  bitsForOffset := max (bitsPtrAddress t) (bitsOfGeps t)
  bitsSizeT := bitsSizeT t
  bitsPtrAddress := bitsPtrAddress t
  bitsByte := bitsByte t
  bitsPoisonPerByte := bitsPoisonPerByte t

end

end AliveNext.Tools.Widths
