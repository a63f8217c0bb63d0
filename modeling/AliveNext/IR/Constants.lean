import AliveNext.IR.Bytes

/-!
# The parameters of the byte encoding

`calculateAndInitConstants` (`tools/transform.cpp`) reads the memory
instructions and the types of both functions and chooses the smallest byte
encoding that is enough for them.  Only the parameters of the byte encoding are
modelled.
-/

namespace AliveNext.IR

structure Target where
  bitsProgramPointer : Nat
  pointerBits : Nat
  littleEndian : Bool
  disallowUbExploitation : Bool
  getAddress : Bits → Bits
  autoCast : Bits → Bits

/-- `MemInstr::ByteAccessInfo`. -/
structure ByteAccessInfo where
  doesIntLoad : Bool := false
  doesIntStore : Bool := false
  doesPtrLoad : Bool := false
  doesPtrStore : Bool := false
  byteSize : Nat := 0
  subByteAccess : Nat := 0

def ByteAccessInfo.doesMemAccess (info : ByteAccessInfo) : Bool :=
  info.byteSize ≠ 0

mutual

/-- `getCommonAccessSize`. -/
def Ty.commonAccessSize (bitsProgramPointer : Nat) : Ty → Nat
  | .int width => divideUp width 8
  | .ptr => bitsProgramPointer / 8
  | .vector elements width => divideUp (elements * width) 8
  | .aggregate _ .nil => 1
  | .aggregate _ (.field ty rest) =>
    rest.commonAccessSize bitsProgramPointer (ty.commonAccessSize bitsProgramPointer)
  | .aggregate _ (.padding width rest) =>
    rest.commonAccessSize bitsProgramPointer (divideUp width 8)

def Children.commonAccessSize (bitsProgramPointer : Nat) : Children → Nat → Nat
  | .nil, size => size
  | .field ty rest, size =>
    rest.commonAccessSize bitsProgramPointer (Nat.gcd size (ty.commonAccessSize bitsProgramPointer))
  | .padding width rest, size =>
    rest.commonAccessSize bitsProgramPointer (Nat.gcd size (divideUp width 8))

end

def gcdNonzero (a b : Nat) : Nat :=
  if b = 0 then a else if a = 0 then b else Nat.gcd a b

mutual

/-- `minVectorElemSize`; zero if there is no vector. -/
def Ty.minVectorElemSize (bitsProgramPointer : Nat) : Ty → Nat
  | .int _ => 0
  | .ptr => 0
  | .vector _ width => width
  | .aggregate true _ => bitsProgramPointer
  | .aggregate false children => children.minVectorElemSize bitsProgramPointer 0

def Children.minVectorElemSize (bitsProgramPointer : Nat) : Children → Nat → Nat
  | .nil, val => val
  | .field ty rest, val =>
    rest.minVectorElemSize bitsProgramPointer
      (gcdNonzero val (ty.minVectorElemSize bitsProgramPointer))
  | .padding _ rest, val => rest.minVectorElemSize bitsProgramPointer val

end

/-- `maxSubBitAccess` of an integer type. -/
def intMaxSubBitAccess (width : Nat) : Nat :=
  if width % 8 = 0 then 0 else width

mutual

def Ty.maxSubBitAccess : Ty → Nat
  | .int width => intMaxSubBitAccess width
  | .ptr => 0
  | .vector elements width => elements * intMaxSubBitAccess width
  | .aggregate _ children => children.maxSubBitAccess

def Children.maxSubBitAccess : Children → Nat
  | .nil => 0
  | .field ty rest => max ty.maxSubBitAccess rest.maxSubBitAccess
  | .padding width rest => max (intMaxSubBitAccess width) rest.maxSubBitAccess

end

/-- `ByteAccessInfo::get`: the access of a load or a store of the type. -/
def ByteAccessInfo.get (target : Target) (ty : Ty) (store : Bool) (align : Nat) :
    ByteAccessInfo where
  doesIntLoad := !ty.hasPtr && !store
  doesIntStore := !ty.hasPtr && store
  doesPtrLoad := ty.hasPtr && !store
  doesPtrStore := ty.hasPtr && store
  byteSize := Nat.gcd align (ty.commonAccessSize target.bitsProgramPointer)
  subByteAccess := ty.maxSubBitAccess

/-- `std::bit_width`. -/
def bitWidth (n : Nat) : Nat :=
  if n = 0 then 0 else Nat.log2 n + 1

def gcdOpt (a : Option Nat) (b : Nat) : Option Nat :=
  if b = 0 then a
  else match a with
    | none => some b
    | some a => some (Nat.gcd a b)

/-- What the encoding parameters depend on: the accesses of the memory
instructions, the sizes of bit casts, whether some attribute accesses memory,
and the types of all values. -/
structure Program where
  accesses : List ByteAccessInfo
  castSizes : List Nat
  attributeAccess : Bool
  types : List Ty

/-- `calculateAndInitConstants`, for the parameters of the byte encoding. -/
def calculateAndInitConstants (target : Target) (program : Program) : Params :=
  let intLoad := program.accesses.any (·.doesIntLoad)
  let intStore := program.accesses.any (·.doesIntStore)
  let ptrLoad := program.accesses.any (·.doesPtrLoad)
  let ptrStore := program.accesses.any (·.doesPtrStore)
  let memAccess := program.attributeAccess || program.accesses.any (·.doesMemAccess)
  let minAccessSize :=
    (program.accesses.map (·.byteSize) ++ program.castSizes).foldl gcdOpt none
  let minVectElemSz := program.types.foldl
    (fun val ty => gcdNonzero val (ty.minVectorElemSize target.bitsProgramPointer)) 0
  let bitsByte := 8 * (if memAccess then minAccessSize.getD 1 else 1)
  { bitsByte := bitsByte
    bitsPoisonPerByte :=
      if minVectElemSz = 0 then 1
      else if minVectElemSz % 8 ≠ 0 then bitsByte
      else bitsByte / Nat.gcd bitsByte minVectElemSz
    numSubByteBits :=
      (program.accesses.map fun info => bitWidth info.subByteAccess).foldl max 0
    bitsProgramPointer := target.bitsProgramPointer
    pointerBits := target.pointerBits
    littleEndian := target.littleEndian
    doesIntLoad := intLoad
    doesIntStore := intStore || (memAccess && !intLoad && !ptrLoad && !ptrStore)
    doesPtrLoad := ptrLoad
    doesPtrStore := ptrStore
    disallowUbExploitation := target.disallowUbExploitation
    getAddress := target.getAddress
    autoCast := target.autoCast }

end AliveNext.IR
