import AliveNext.IR.Types

/-!
# Memory bytes

The representation of one memory byte (`Byte` and `TypedByte` of
`ir/memory.cpp`), the conversion of values to bytes and back, and stores and
loads of a value at one place of a block.  Assembly mode is left out.

A byte is, from its highest bit: the pointer tag if both kinds of bytes occur,
the poison bits, the value, and zeros up to the common width.  The value of a
pointer byte is the pointer with the number of the byte in it; that of an
integer byte is followed by the tag of a sub-byte access.
-/

namespace AliveNext.IR

namespace Params

def doesIntMemAccess (p : Params) : Bool :=
  p.doesIntLoad || p.doesIntStore

def doesPtrMemAccess (p : Params) : Bool :=
  p.doesPtrLoad || p.doesPtrStore

def byteHasPtrBit (p : Params) : Bool :=
  p.doesIntMemAccess && p.doesPtrMemAccess

def sizeByteNumber (p : Params) : Nat :=
  if p.numSubByteBits = 0 then 0
  else max (Nat.clog 2 (divideUp (2 ^ p.numSubByteBits) p.bitsByte)) 1

def subByteBits (p : Params) : Nat :=
  p.numSubByteBits + p.sizeByteNumber

/-- `std::countr_zero` of a positive number. -/
def countrZero (n : Nat) : Nat :=
  ((List.range n).takeWhile fun i => n % 2 ^ (i + 1) = 0).length

def bitsPtrByteOffset (p : Params) : Nat :=
  if p.bitsProgramPointer ≤ p.bitsByte then 0
  else countrZero (p.bitsProgramPointer / p.bitsByte)

def ptrByteBits (p : Params) : Nat :=
  if p.doesPtrMemAccess then 1 + p.pointerBits + p.bitsPtrByteOffset else 0

def intByteBits (p : Params) : Nat :=
  (if p.doesIntMemAccess then p.bitsByte + p.bitsPoisonPerByte else 0) + p.subByteBits

/-- `Byte::bitsByte`. -/
def byteWidth (p : Params) : Nat :=
  max 1 (p.byteHasPtrBit.toNat + max p.ptrByteBits p.intByteBits)

def paddingPtrByte (p : Params) : Nat :=
  p.byteWidth - p.byteHasPtrBit.toNat - 1 - p.pointerBits - p.bitsPtrByteOffset

def paddingNonptrByte (p : Params) : Nat :=
  p.byteWidth - p.byteHasPtrBit.toNat - p.bitsByte - p.bitsPoisonPerByte - p.numSubByteBits -
    p.sizeByteNumber

end Params

def tag (p : Params) (isPtr : Bool) : Bits :=
  if p.byteHasPtrBit then [isPtr] else []

/-- The constructor of a pointer byte: byte `i` of the pointer. -/
def ptrByte (p : Params) (ptr : Bits) (nonPoison : Bool) (i : Nat) : Bits :=
  if p.doesPtrMemAccess then
    Bits.zeros p.paddingPtrByte ++ (Bits.ofNat i p.bitsPtrByteOffset ++
      (ptr ++ ([nonPoison] ++ tag p true)))
  else Bits.zeros p.byteWidth

/-- The constructor of an integer byte: byte `byteNumber` of a value of
`bitsRead` bits. -/
def intByte (p : Params) (value nonPoison : Bits) (bitsRead byteNumber : Nat) : Bits :=
  if p.doesIntMemAccess then
    let bitsRead := if bitsRead % 8 = 0 then 0 else bitsRead
    let sub := if p.numSubByteBits = 0 then []
      else Bits.ofNat byteNumber p.sizeByteNumber ++ Bits.ofNat bitsRead p.numSubByteBits
    Bits.zeros p.paddingNonptrByte ++ (sub ++ (value ++ (nonPoison ++ tag p false)))
  else Bits.zeros p.byteWidth

/-- `enum DataType`: which kinds of bytes a block may hold. -/
structure DataType where
  int : Bool := false
  ptr : Bool := false
  deriving DecidableEq, Repr

structure TypedByte where
  byte : Bits
  type : DataType

namespace TypedByte

variable (p : Params)

/-- `Byte::isPtr`. -/
def byteIsPtr (b : Bits) : Bool :=
  if p.byteHasPtrBit then b.bit (p.byteWidth - 1) else p.doesPtrMemAccess

def isPtr (b : TypedByte) : Bool :=
  b.type.ptr && byteIsPtr p b.byte

/-- `Byte::ptrNonpoison`. -/
def ptrNonpoison (b : Bits) : Bool :=
  b.bit (p.byteWidth - 1 - p.byteHasPtrBit.toNat)

/-- `Byte::ptrValue`. -/
def ptrValue (b : Bits) : Bits :=
  if p.doesPtrMemAccess then
    b.slice (p.bitsPtrByteOffset + p.paddingPtrByte) p.pointerBits
  else Bits.zeros p.pointerBits

/-- `Byte::ptrByteoffset`. -/
def ptrByteoffset (b : Bits) : Bits :=
  if p.doesPtrMemAccess then
    if p.bitsPtrByteOffset = 0 then Bits.zeros 1
    else b.slice p.paddingPtrByte p.bitsPtrByteOffset
  else Bits.zeros p.bitsPtrByteOffset

/-- `Byte::nonptrNonpoison`. -/
def nonptrNonpoison (b : Bits) : Bits :=
  if p.doesIntMemAccess then
    b.slice (p.paddingNonptrByte + p.bitsByte + p.subByteBits) p.bitsPoisonPerByte
  else Bits.zeros 1

/-- `Byte::nonptrValue`. -/
def nonptrValue (b : Bits) : Bits :=
  if p.doesIntMemAccess then b.slice (p.paddingNonptrByte + p.subByteBits) p.bitsByte
  else Bits.zeros p.bitsByte

/-- `Byte::numStoredBits`. -/
def numStoredBits (b : Bits) : Bits :=
  b.slice (p.paddingNonptrByte + p.sizeByteNumber) p.numSubByteBits

/-- `Byte::byteNumber`. -/
def byteNumber (b : Bits) : Bits :=
  b.slice p.paddingNonptrByte p.sizeByteNumber

/-- `Byte::isPoison`. -/
def byteIsPoison (b : Bits) : Bool :=
  if !p.doesIntMemAccess then
    if p.doesPtrMemAccess then !ptrNonpoison p b else true
  else if p.byteHasPtrBit && p.bitsPoisonPerByte = 1 then !(nonptrNonpoison p b).isOnes
  else if byteIsPtr p b then !ptrNonpoison p b
  else !(nonptrNonpoison p b).isOnes

def isPoison (b : TypedByte) : Bool :=
  match b.type.int, b.type.ptr with
  | false, false => true
  | false, true => !ptrNonpoison p b.byte
  | true, true => byteIsPoison p b.byte
  | true, false => !(nonptrNonpoison p b.byte).isOnes

/-- `Byte::castPtrToInt`; the bits to skip are counted in the width of an address. -/
def castPtrToInt (b : Bits) : Bits :=
  let address := p.getAddress (ptrValue p b)
  let offset := (ptrByteoffset p b).foldr (fun bit n => 2 * n + bit.toNat) 0
  Bits.slice (address.drop (offset * p.bitsByte % 2 ^ address.length) ++ Bits.zeros p.bitsByte) 0
    p.bitsByte

def forceCastToInt (b : TypedByte) : Bits :=
  match b.type.int, b.type.ptr with
  | false, false => Bits.zeros p.bitsByte
  | true, false => nonptrValue p b.byte
  | false, true => castPtrToInt p b.byte
  | true, true => if byteIsPtr p b.byte then castPtrToInt p b.byte else nonptrValue p b.byte

end TypedByte

/-- The variables that `pad` invents, for the value stored at each offset. -/
structure Padding where
  value : Nat → Nat → Bool
  nonPoison : Nat → Nat → Bool

def pad (bits : Bits) (amount : Nat) (fresh : Nat → Bool) : Bits :=
  Bits.concat ((List.range amount).map fresh) bits

/-- `valueToBytes` of a pointer. -/
def ptrToBytes (p : Params) (v : StateValue) : List Bits :=
  (List.range (p.bitsProgramPointer / p.bitsByte)).map fun i =>
    ptrByte p v.value v.nonPoison.isOnes i

/-- `valueToBytes` of an integer or a vector of integers, in integer form. -/
def intToBytes (p : Params) (padding : Padding) (offset : Nat) (v : StateValue) : List Bits :=
  let bitsize := v.value.length
  let bytesize := divideUp bitsize p.bitsByte
  let amount := bytesize * p.bitsByte - bitsize
  let value := pad v.value amount (padding.value offset)
  let nonPoison := pad v.nonPoison.bits amount (padding.nonPoison offset)
  (List.range bytesize).map fun i =>
    intByte p (value.slice (i * p.bitsByte) p.bitsByte)
      (nonPoison.slice (i * p.bitsPoisonPerByte) p.bitsPoisonPerByte) bitsize i

/-- `bytesToValue` of a pointer, with the precondition that it adds. -/
def bytesToPtr (p : Params) (bytes : List TypedByte) : StateValue × Bool :=
  let loadedPtr := match bytes with
    | [] => []
    | b :: _ => TypedByte.ptrValue p b.byte
  let allArePtr := bytes.all (TypedByte.isPtr p)
  let intCast := (bytes.map (TypedByte.forceCastToInt p)).flatten
  let byteOffsetNp := (bytes.zipIdx).all fun b =>
    TypedByte.ptrByteoffset p b.1.byte =
        Bits.ofNat b.2 (TypedByte.ptrByteoffset p b.1.byte).length &&
      TypedByte.ptrValue p b.1.byte = loadedPtr
  let noPoison := bytes.all fun b => !TypedByte.isPoison p b
  let cond := !allArePtr || byteOffsetNp
  let value := if allArePtr then loadedPtr else p.autoCast intCast
  if p.disallowUbExploitation then (⟨value, .bool noPoison⟩, cond)
  else (⟨value, .bool (noPoison && cond)⟩, true)

/-- One turn of the loop of `bytesToValue` for integers. -/
def byteToInt (p : Params) (bitsize : Nat) (b : TypedByte) (byteNumber : Nat) : StateValue :=
  let bits := if bitsize % 8 = 0 then 0 else bitsize
  let exprNp := p.numSubByteBits = 0 ||
    (TypedByte.numStoredBits p b.byte = Bits.ofNat bits p.numSubByteBits &&
      TypedByte.byteNumber p b.byte = Bits.ofNat byteNumber p.sizeByteNumber)
  let orig := TypedByte.nonptrNonpoison p b.byte
  let np := Bits.and (List.replicate orig.length exprNp) orig
  let np := if p.doesPtrMemAccess && TypedByte.isPtr p b then
      List.replicate np.length (TypedByte.ptrNonpoison p b.byte && bitsize % 8 = 0)
    else np
  ⟨TypedByte.forceCastToInt p b, .bv np⟩

/-- `bytesToValue` of the other types. -/
def bytesToInt (p : Params) (ty : Ty) (bytes : List TypedByte) : StateValue :=
  let bitsize := ty.bits p
  let values := bytes.zipIdx.map fun b => byteToInt p bitsize b.1 b.2
  match values with
  | [] => ⟨[], .bv []⟩
  | first :: rest =>
    let val := rest.foldl (fun val v => v.concat val) first
    ty.fromInt p (val.trunc bitsize (ty.npBits p true))

/-- A block: its contents in units of `bits_byte`, and the kinds of bytes it may
hold. -/
structure MemBlock where
  val : Nat → Bits
  type : DataType

def placeBytes (p : Params) (offset : Nat) (bytes : List Bits) : List (Nat × Bits) :=
  bytes.zipIdx.map fun b =>
    (offset + (if p.littleEndian then b.2 else bytes.length - b.2 - 1) * (p.bitsByte / 8), b.1)

mutual

/-- `Memory::store` of a value: the offsets and bytes to store. -/
def storeData (p : Params) (padding : Padding) : Ty → StateValue → Nat → List (Nat × Bits)
  | .ptr, v, offset => placeBytes p offset (ptrToBytes p v)
  | .int width, v, offset =>
    placeBytes p offset (intToBytes p padding offset ((Ty.int width).toInt p v))
  | .vector elements width, v, offset =>
    placeBytes p offset (intToBytes p padding offset ((Ty.vector elements width).toInt p v))
  | .aggregate isVector children, v, offset =>
    storeChildren p padding (.aggregate isVector children) children 0 v offset

/-- The loop over the children, from child `index` on. -/
def storeChildren (p : Params) (padding : Padding) (whole : Ty) :
    Children → Nat → StateValue → Nat → List (Nat × Bits)
  | .nil, _, _, _ => []
  | .field ty rest, index, v, offset =>
    if ty.bits p = 0 then storeChildren p padding whole rest (index + 1) v offset
    else
      storeData p padding ty (whole.extract p v index false) offset ++
        storeChildren p padding whole rest (index + 1) v (offset + ty.storeByteSize p)
  | .padding width rest, index, v, offset =>
    if width = 0 then storeChildren p padding whole rest (index + 1) v offset
    else
      placeBytes p offset (intToBytes p padding offset
        (intToInt p width (whole.extract p v index false))) ++
        storeChildren p padding whole rest (index + 1) v (offset + intStoreByteSize width)

end

/-- `Memory::data_type`; `mayBeZero` is the simplifier's view of a byte. -/
def dataType (p : Params) (mayBeZero : Bits → Bool) (data : List (Nat × Bits))
    (fullStore : Bool) : DataType :=
  let zeros := (data.filter fun d => !TypedByte.byteIsPtr p d.2 && mayBeZero d.2).length
  { int := data.any fun d => !TypedByte.byteIsPtr p d.2
    ptr := (data.any fun d => TypedByte.byteIsPtr p d.2) ||
      (if fullStore then p.bitsProgramPointer / p.bitsByte ≤ zeros else 0 < zeros) }

/-- The writes of `Memory::store`, which leaves out those that the default
already holds. -/
def writeAll (p : Params) (offset : Nat) (skip : Option Bits) :
    List (Nat × Bits) → (Nat → Bits) → Nat → Bits
  | [], mem => mem
  | (idx, byte) :: data, mem =>
    if skip = some byte then writeAll p offset skip data mem
    else writeAll p offset skip data
      (Function.update mem (offset / (p.bitsByte / 8) + idx / (p.bitsByte / 8)) byte)

/-- `Memory::store` of bytes at `offset` of a block that the pointer is known to
denote; `size` is the size of the block if it is constant. -/
def MemBlock.store (p : Params) (mayBeZero : Bits → Bool) (size : Option Nat)
    (blk : MemBlock) (offset : Nat) (data : List (Nat × Bits)) : MemBlock :=
  match data with
  | [] => blk
  | (_, first) :: _ =>
    if size = some (data.length * (p.bitsByte / 8)) then
      { val := writeAll p offset (some first) data fun _ => first
        type := dataType p mayBeZero data true }
    else
      let stored := dataType p mayBeZero data false
      { val := writeAll p offset none data blk.val
        type := ⟨blk.type.int || stored.int, blk.type.ptr || stored.ptr⟩ }

/-- `Memory::load` of `bytes` bytes at `offset`. -/
def MemBlock.load (p : Params) (size : Option Nat) (blk : MemBlock) (offset bytes : Nat) :
    List TypedByte :=
  let loadedBytes := bytes / (p.bitsByte / 8)
  let start := if size = some bytes then 0 else offset / (p.bitsByte / 8)
  (List.range loadedBytes).map fun i =>
    let idx := if p.littleEndian then i else loadedBytes - i - 1
    ⟨blk.val (start + idx), blk.type⟩

mutual

/-- `Memory::load` of a value, with the preconditions that it adds. -/
def loadValue (p : Params) (size : Option Nat) (blk : MemBlock) : Ty → Nat → StateValue × Bool
  | .ptr, offset => bytesToPtr p (blk.load p size offset (Ty.ptr.storeByteSize p))
  | .int width, offset =>
    (bytesToInt p (.int width) (blk.load p size offset ((Ty.int width).storeByteSize p)), true)
  | .vector elements width, offset =>
    (bytesToInt p (.vector elements width)
      (blk.load p size offset ((Ty.vector elements width).storeByteSize p)), true)
  | .aggregate _ children, offset =>
    let (vals, pre) := loadChildren p size blk children offset
    (children.aggregateVals p vals, pre)

def loadChildren (p : Params) (size : Option Nat) (blk : MemBlock) :
    Children → Nat → List StateValue × Bool
  | .nil, _ => ([], true)
  | .field ty rest, offset =>
    let (v, pre) := loadValue p size blk ty offset
    let (vals, pres) := loadChildren p size blk rest (offset + ty.storeByteSize p)
    (v :: vals, pre && pres)
  | .padding width rest, offset =>
    loadChildren p size blk rest (offset + intStoreByteSize width)

end

end AliveNext.IR
