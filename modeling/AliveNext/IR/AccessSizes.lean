import AliveNext.IR.CallRanges
import AliveNext.IR.Constants

/-!
# What instructions ask of the encoding

`getMaxAllocSize`, `getMaxAccessSize`, `getMaxGEPOffset` and `getByteAccessInfo` of the
memory instructions (`ir/instr.cpp`), and the attributes of parameters and functions that
they read (`ir/attrs.cpp`).
-/

namespace AliveNext.IR.Accesses

def uint64Max : Nat := 2 ^ 64 - 1

/-- A signed number as a `uint64_t`. -/
def asUint64 (n : Int) : Nat := (n % 2 ^ 64).toNat

def addSaturate (a b : Nat) : Nat := if a + b < 2 ^ 64 then a + b else uint64Max

def mulSaturate (a b : Nat) : Nat := if a * b < 2 ^ 64 then a * b else uint64Max

/-- `round_up`, whose sum may wrap. -/
def roundUp (n amount : Nat) : Nat := (n + amount - 1) % 2 ^ 64 / amount * amount

/-- `getIntOr`, for the value of a constant. -/
def getIntOr (n : Option Int) (default_value : Nat) : Nat :=
  match n with
  | some n => asUint64 n
  | none => default_value

def heapBlockAlignment : Nat := 8

mutual

/-- `Memory::getStoreByteSize`. -/
def storeByteSize (bitsProgramPointer : Nat) : Ty → Nat
  | .int width => divideUp width 8
  | .ptr => divideUp bitsProgramPointer 8
  | .vector elements width => divideUp (if elements = 0 then 1 else elements * width) 8
  | .aggregate _ children => childrenByteSize bitsProgramPointer children

def childrenByteSize (bitsProgramPointer : Nat) : Children → Nat
  | .nil => 0
  | .field ty rest =>
    storeByteSize bitsProgramPointer ty + childrenByteSize bitsProgramPointer rest
  | .padding width rest => divideUp width 8 + childrenByteSize bitsProgramPointer rest

end

mutual

def numPtrs : Ty → Nat
  | .int _ | .vector _ _ => 0
  | .ptr => 1
  | .aggregate _ children => numPointerElements children

def numPointerElements : Children → Nat
  | .nil => 0
  | .field ty rest => numPtrs ty + numPointerElements rest
  | .padding _ rest => numPointerElements rest

end

def isPtrType : Ty → Bool
  | .ptr => true
  | _ => false

structure MemoryAccess where
  canRead : AccessType → Bool
  canWrite : AccessType → Bool

namespace MemoryAccess

def canOnlyRead (mem : MemoryAccess) (ty : AccessType) : Bool :=
  mem.canRead ty && AccessType.all.all fun i => i = ty || !mem.canRead i

def canOnlyWrite (mem : MemoryAccess) (ty : AccessType) : Bool :=
  mem.canWrite ty && AccessType.all.all fun i => i = ty || !mem.canWrite i

def canWriteSomething (mem : MemoryAccess) : Bool := AccessType.all.any mem.canWrite

end MemoryAccess

/-- `ParamAttrs::Attribute`. -/
inductive ParamAttr
  | nonNull | byVal | noCapture | dereferenceable | align | dereferenceableOrNull | allocAlign
  deriving DecidableEq

structure ParamAttrs where
  has : ParamAttr → Bool
  derefBytes : Nat
  derefOrNullBytes : Nat
  blockSize : Nat
  align : Nat
  initializes : List (Nat × Nat)

namespace ParamAttrs

def getDerefBytes (attrs : ParamAttrs) : Nat :=
  let bytes := if attrs.has .dereferenceable then attrs.derefBytes else 0
  if attrs.has .byVal then max bytes attrs.blockSize else bytes

/-- The bytes that `maxAccessSize` rounds up. -/
def accessBytes (attrs : ParamAttrs) : Nat :=
  let bytes := attrs.getDerefBytes
  let bytes := if attrs.has .dereferenceableOrNull then max bytes attrs.derefOrNullBytes else bytes
  attrs.initializes.foldl (fun bytes range => max bytes range.2) bytes

def maxAccessSize (attrs : ParamAttrs) : Nat := roundUp attrs.accessBytes attrs.align

end ParamAttrs

/-- `FnAttrs::Attribute`. -/
inductive FnAttr
  | dereferenceable | align | noAlias | dereferenceableOrNull | allocSize | asm
  deriving DecidableEq

inductive AllocKind
  | alloc | realloc | free | uninitialized | zeroed | aligned
  deriving DecidableEq

def AllocKind.all : List AllocKind := [alloc, realloc, free, uninitialized, zeroed, aligned]

structure FnAttrs where
  has : FnAttr → Bool
  allockind : AllocKind → Bool
  derefBytes : Nat
  derefOrNullBytes : Nat
  align : Nat
  allocsize0 : Nat
  allocsize1 : Option Nat
  mem : MemoryAccess

def FnAttrs.isAlloc (attrs : FnAttrs) : Bool :=
  AllocKind.all.any attrs.allockind || attrs.has .allocSize

/-- An argument of a call, with its value if it is a constant. -/
structure Arg where
  ty : Ty
  value : Option Int
  attrs : ParamAttrs

structure FnCall where
  name : String
  fnName : String
  isIndirect : Bool
  attrs : FnAttrs
  args : List Arg

inductive Index
  | const (n : Int) (width : Nat)
  | sext (v : Index)
  | int (width : Nat)
  | other

inductive AssumeKind
  | andNonPoison | wellDefined | align | dereferenceable | dereferenceableOrNull | nonNull
  deriving DecidableEq

inductive AssumeValKind
  | align | nonNull | range
  deriving DecidableEq

inductive PtrCmpMode
  | integral | provenance | offsetOnly
  deriving DecidableEq

/-- Instructions. Sizes and masks are constants or not, and the argument of `strlen` may be a
global of known size. -/
inductive Instr
  | assume (kind : AssumeKind) (bytes : Option Int)
  | assumeVal (kind : AssumeValKind) (align : Option Int)
  | alloc (size : Option Int) (mul : Option (Option Int)) (align : Nat)
  | startLifetime
  | endLifetime
  | gep (idxs : List (Nat × Index))
  | ptrMask (mask : Option Int)
  | load (ty : Ty) (align : Nat)
  | store (ty : Ty) (align : Nat)
  | memset (bytes : Option Int) (align : Nat)
  | memsetPattern (bytes : Option Int) (patternLength : Nat)
  | memcpy (bytes : Option Int) (alignDst alignSrc : Nat)
  | memcmp (num : Option Int)
  | strlen (globalSize : Option Nat)
  | fnCall (call : FnCall)
  | int2Ptr
  | ptr2Int
  | ptr2Addr
  | bitCast (ty : Ty)
  | icmp (isPtrCmp : Bool) (mode : PtrCmpMode)
  | other

namespace FnCall

def getAlignArg (call : FnCall) : Option Arg := call.args.find? fun arg => arg.attrs.has .allocAlign

def getAlign (call : FnCall) : Nat :=
  let align := match call.getAlignArg with
    | some arg => getIntOr arg.value 1
    | none => 1
  max align (if call.attrs.has .align then call.attrs.align
    else if call.attrs.isAlloc then heapBlockAlignment else 1)

/-- `getInt(*args[i].first)`. -/
def argInt (call : FnCall) (i : Nat) : Option Int := call.args[i]?.bind Arg.value

def getMaxAllocSize (call : FnCall) : Nat × Nat :=
  if !call.attrs.has .allocSize then (0, 1)
  else
    match call.argInt call.attrs.allocsize0 with
    | some sz =>
      match call.attrs.allocsize1 with
      | none => (asUint64 sz, call.getAlign)
      | some i =>
        match call.argInt i with
        | some n => (mulSaturate (asUint64 sz) (asUint64 n), call.getAlign)
        | none => (uint64Max, call.getAlign)
    | none => (uint64Max, call.getAlign)

def getMaxAccessSize (call : FnCall) : Nat :=
  let sz := if call.attrs.has .dereferenceable then call.attrs.derefBytes else 0
  let sz := if call.attrs.has .dereferenceableOrNull then max sz call.attrs.derefOrNullBytes else sz
  call.args.foldl (fun sz arg =>
    let sz := if arg.attrs.has .dereferenceable then max sz arg.attrs.derefBytes else sz
    if arg.attrs.has .dereferenceableOrNull then max sz arg.attrs.derefOrNullBytes else sz) sz

/-- `UPDATE`: the alignment is the one of the returned value, also for an argument. -/
def updateByteSize (call : FnCall) (dereferenceable orNull : Bool) (derefBytes orNullBytes : Nat)
    (bytesize : Nat) : Nat :=
  let sz := if dereferenceable then derefBytes else 0
  let sz := if orNull then Nat.gcd sz orNullBytes else sz
  if sz ≠ 0 then
    let sz := Nat.gcd sz (if call.attrs.align ≠ 0 then call.attrs.align else 1)
    if bytesize ≠ 0 then Nat.gcd bytesize sz else sz
  else bytesize

/-- What the attributes of a call that allocates nothing contribute. -/
def derefByteSize (call : FnCall) : Nat :=
  let bytesize := call.updateByteSize (call.attrs.has .dereferenceable)
    (call.attrs.has .dereferenceableOrNull) call.attrs.derefBytes call.attrs.derefOrNullBytes 0
  call.args.foldl (fun bytesize arg =>
    if isPtrType arg.ty then
      call.updateByteSize (arg.attrs.has .dereferenceable) (arg.attrs.has .dereferenceableOrNull)
        arg.attrs.derefBytes arg.attrs.derefOrNullBytes bytesize
    else bytesize) bytesize

def hasPtrArgs (call : FnCall) : Bool :=
  call.args.any fun arg => arg.ty.hasPtr && !arg.attrs.has .byVal && !arg.attrs.has .noCapture

end FnCall

/-- `MemInstr::ByteAccessInfo`; the size is an `unsigned`. -/
structure AccessInfo extends ByteAccessInfo where
  observesAddresses : Bool := false

namespace AccessInfo

def intLoad (bytesz : Nat) : AccessInfo where
  byteSize := bytesz % 2 ^ 32
  doesIntLoad := true
  observesAddresses := true

def intStore (bytesz : Nat) : AccessInfo where
  byteSize := bytesz % 2 ^ 32
  doesIntStore := true

/-- `ByteAccessInfo::get`, whose alignment is an `unsigned`. -/
def get (bitsProgramPointer : Nat) (ty : Ty) (store : Bool) (align : Nat) : AccessInfo where
  doesIntLoad := !ty.hasPtr && !store
  doesIntStore := !ty.hasPtr && store
  doesPtrLoad := ty.hasPtr && !store
  doesPtrStore := ty.hasPtr && store
  byteSize := Nat.gcd (align % 2 ^ 32) (ty.commonAccessSize bitsProgramPointer) % 2 ^ 32
  subByteAccess := ty.maxSubBitAccess
  observesAddresses := !ty.hasPtr && !store

end AccessInfo

def FnCall.getByteAccessInfo (call : FnCall) : AccessInfo :=
  if call.attrs.allockind .uninitialized || call.attrs.allockind .free then {}
  else if call.attrs.allockind .zeroed then
    let (alloc, align) := call.getMaxAllocSize
    { AccessInfo.intStore 1 with
      byteSize := if alloc ≠ 0 then Nat.gcd alloc align % 2 ^ 32 else 1
      observesAddresses := call.hasPtrArgs }
  else { byteSize := call.derefByteSize % 2 ^ 32, observesAddresses := call.hasPtrArgs }

namespace Index

def getInt : Index → Option Int
  | .const n _ => some n
  | _ => none

def offUsedBits : Index → Nat
  | .sext v => v.offUsedBits
  | .const _ width | .int width => min width 64
  | .other => 64

end Index

/-- `GEP::getMaxGEPOffset`, from some index on. -/
def maxGEPOffset : List (Nat × Index) → Nat → Nat
  | [], off => off
  | (mul, v) :: idxs, off =>
    if mul = 0 then maxGEPOffset idxs off
    else if 2 ^ 63 - 1 ≤ mul then uint64Max
    else
      match v.getInt with
      | some n => maxGEPOffset idxs (addSaturate off (asUint64 (mul * n)))
      | none => maxGEPOffset idxs (addSaturate off (mulSaturate mul (2 ^ v.offUsedBits - 1)))

namespace Instr

/-- `dynamic_cast<const MemInstr*>`. -/
def isMemInstr : Instr → Bool
  | .int2Ptr | .ptr2Int | .ptr2Addr | .bitCast _ | .icmp _ _ | .other => false
  | _ => true

def getMaxAllocSize : Instr → Nat × Nat
  | .alloc (some bytes) (some mul) align =>
    if bytes = 0 then (0, align)
    else
      match mul with
      | some n => (asUint64 (n * |bytes|), align)
      | none => (uint64Max, align)
  | .alloc (some bytes) none align => (asUint64 bytes, align)
  | .alloc none _ align => (uint64Max, align)
  | .fnCall call => call.getMaxAllocSize
  | _ => (0, 1)

def getMaxAccessSize (bitsProgramPointer : Nat) : Instr → Nat
  | .assume .align bytes | .assume .dereferenceable bytes
  | .assume .dereferenceableOrNull bytes => getIntOr bytes uint64Max
  | .assumeVal .align align => getIntOr align uint64Max
  | .load ty _ | .store ty _ => storeByteSize bitsProgramPointer ty
  | .memset bytes _ | .memsetPattern bytes _ | .memcpy bytes _ _ | .memcmp bytes =>
    getIntOr bytes uint64Max
  | .strlen globalSize => globalSize.getD uint64Max
  | .fnCall call => call.getMaxAccessSize
  | _ => 0

def getMaxGEPOffset : Instr → Nat
  | .gep idxs => maxGEPOffset idxs 0
  | .ptrMask (some n) => asUint64 (-n - 1)
  | .ptrMask none => uint64Max
  | _ => 0

def getByteAccessInfo (bitsProgramPointer : Nat) : Instr → AccessInfo
  | .load ty align => .get bitsProgramPointer ty false align
  | .store ty align => .get bitsProgramPointer ty true align
  | .memset bytes align =>
    .intStore (match bytes with | some bs => Nat.gcd align bs.natAbs | none => 1)
  | .memsetPattern bytes _ =>
    .intStore (match bytes with | some bs => asUint64 bs | none => 1)
  | .memcpy _ _ _ => { doesIntStore := true, doesPtrStore := true, byteSize := 1 }
  | .memcmp _ | .strlen _ => .intLoad 1
  | .fnCall call => call.getByteAccessInfo
  | _ => {}

def returnsLocal : Instr → Bool
  | .fnCall call => call.attrs.has .noAlias || call.attrs.isAlloc
  | .alloc _ _ _ => true
  | _ => false

end Instr

end AliveNext.IR.Accesses
