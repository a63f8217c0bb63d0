import AliveNext.Lib.Bits

/-!
# Types and their values

The first-class types of `ir/type.cpp` without floats, and the two bit-vector
forms of their values: the aggregate form, with one poison bit for each scalar,
and the integer form that memory stores, with the poison bits that
`bits_poison_per_byte` asks for.
-/

namespace AliveNext.IR

/-- The global parameters that the byte encoding reads (`ir/globals.h`), the
width of a pointer, and the two casts between pointers and integers. -/
structure Params where
  bitsByte : Nat
  bitsPoisonPerByte : Nat
  numSubByteBits : Nat
  bitsProgramPointer : Nat
  pointerBits : Nat
  littleEndian : Bool
  doesIntLoad : Bool
  doesIntStore : Bool
  doesPtrLoad : Bool
  doesPtrStore : Bool
  disallowUbExploitation : Bool
  getAddress : Bits → Bits
  autoCast : Bits → Bits

mutual

/-- Types.  A vector of pointers is an aggregate with the flag `isVector`. -/
inductive Ty where
  | int (width : Nat)
  | ptr
  | vector (elements width : Nat)
  | aggregate (isVector : Bool) (children : Children)

inductive Children where
  | nil
  | field (ty : Ty) (rest : Children)
  | padding (width : Nat) (rest : Children)

end

def divideUp (n amount : Nat) : Nat :=
  (n + amount - 1) / amount

/-- `non_poison` of a state value, which is a boolean for a scalar. -/
inductive NonPoison where
  | bool (b : Bool)
  | bv (bits : Bits)
  deriving DecidableEq, Repr

/-- `NonPoison` as a bit-vector (`toBVBool`). -/
def NonPoison.bits : NonPoison → Bits
  | .bool b => [b]
  | .bv bits => bits

def NonPoison.isOnes : NonPoison → Bool
  | .bool b => b
  | .bv bits => bits.isOnes

structure StateValue where
  value : Bits
  nonPoison : NonPoison
  deriving DecidableEq, Repr

namespace StateValue

def concat (high low : StateValue) : StateValue where
  value := high.value.concat low.value
  nonPoison := match high.nonPoison, low.nonPoison with
    | .bool a, .bool b => .bool (a && b)
    | a, b => .bv (a.bits.concat b.bits)

def trunc (v : StateValue) (valueBits npBits : Nat) : StateValue where
  value := v.value.slice 0 valueBits
  nonPoison := match v.nonPoison with
    | .bool b => .bool b
    | .bv bits => .bv (bits.slice 0 npBits)

end StateValue

mutual

/-- `bits`; an empty aggregate has one bit. -/
def Ty.bits (p : Params) : Ty → Nat
  | .int width => width
  | .ptr => p.pointerBits
  | .vector elements width => if elements = 0 then 1 else elements * width
  | .aggregate _ .nil => 1
  | .aggregate _ (.field ty rest) => ty.bits p + rest.bits p
  | .aggregate _ (.padding width rest) => width + rest.bits p

/-- The sum of the children's `bits`. -/
def Children.bits (p : Params) : Children → Nat
  | .nil => 0
  | .field ty rest => ty.bits p + rest.bits p
  | .padding width rest => width + rest.bits p

end

/-- `np_bits` of an integer type. -/
def intNpBits (p : Params) (fromInt : Bool) (width : Nat) : Nat :=
  if fromInt then min width (divideUp (width * p.bitsPoisonPerByte) p.bitsByte) else 1

mutual

def Ty.npBits (p : Params) (fromInt : Bool) : Ty → Nat
  | .int width => intNpBits p fromInt width
  | .ptr => 1
  | .vector elements width => if elements = 0 then 1 else elements * intNpBits p fromInt width
  | .aggregate _ .nil => 1
  | .aggregate _ (.field ty rest) => ty.npBits p fromInt + rest.npBits p fromInt
  | .aggregate _ (.padding width rest) => intNpBits p fromInt width + rest.npBits p fromInt

/-- The sum of the children's `np_bits`. -/
def Children.npBits (p : Params) (fromInt : Bool) : Children → Nat
  | .nil => 0
  | .field ty rest => ty.npBits p fromInt + rest.npBits p fromInt
  | .padding width rest => intNpBits p fromInt width + rest.npBits p fromInt

end

mutual

def Ty.hasPtr : Ty → Bool
  | .int _ => false
  | .ptr => true
  | .vector _ _ => false
  | .aggregate _ children => children.hasPtr

/-- `hasPtr` of some child. -/
def Children.hasPtr : Children → Bool
  | .nil => false
  | .field ty rest => ty.hasPtr || rest.hasPtr
  | .padding _ rest => rest.hasPtr

end

/-- The children of an aggregate type, each with `is_padding`. -/
def Children.toList : Children → List (Bool × Ty)
  | .nil => []
  | .field ty rest => (false, ty) :: rest.toList
  | .padding width rest => (true, .int width) :: rest.toList

/-- The children of `AggregateType`. -/
def Ty.children : Ty → List (Bool × Ty)
  | .int _ => []
  | .ptr => []
  | .vector elements width => List.replicate elements (false, .int width)
  | .aggregate _ children => children.toList

/-- `getStoreByteSize` of an integer or of a vector that is stored at once. -/
def intStoreByteSize (bits : Nat) : Nat :=
  divideUp bits 8

mutual

/-- `Memory::getStoreByteSize`. -/
def Ty.storeByteSize (p : Params) : Ty → Nat
  | .int width => intStoreByteSize width
  | .ptr => divideUp p.bitsProgramPointer 8
  | .vector elements width => intStoreByteSize ((Ty.vector elements width).bits p)
  | .aggregate _ children => children.storeByteSize p

def Children.storeByteSize (p : Params) : Children → Nat
  | .nil => 0
  | .field ty rest => ty.storeByteSize p + rest.storeByteSize p
  | .padding width rest => intStoreByteSize width + rest.storeByteSize p

end

def Ty.toBV : Ty → StateValue → StateValue
  | .int _, v => ⟨v.value, .bv v.nonPoison.bits⟩
  | .ptr, v => ⟨v.value, .bv v.nonPoison.bits⟩
  | _, v => v

def Ty.fromBV : Ty → StateValue → StateValue
  | .int _, v => ⟨v.value, .bool v.nonPoison.isOnes⟩
  | .ptr, v => ⟨v.value, .bool v.nonPoison.isOnes⟩
  | _, v => v

/-- `Type::fromInt` of a scalar. -/
def fromIntScalar (v : StateValue) : StateValue :=
  ⟨v.value, .bool v.nonPoison.isOnes⟩

/-- The sum of a size over the children before `index`. -/
def totalBefore (size : Ty → Nat) (children : List (Bool × Ty)) (index : Nat) : Nat :=
  ((children.take index).map fun child => size child.2).sum

/-- `AggregateType::extract`. -/
def Ty.extract (p : Params) (ty : Ty) (v : StateValue) (index : Nat) (fromInt : Bool) :
    StateValue :=
  match ty.children[index]? with
  | none => v
  | some (_, child) =>
    let totalValue := totalBefore (Ty.bits p) ty.children index
    let totalNp := totalBefore (Ty.npBits p fromInt) ty.children index
    let lowBits := if fromInt && p.littleEndian then totalValue
      else ty.bits p - totalValue - child.bits p
    let lowNp := if fromInt && p.littleEndian then totalNp
      else ty.npBits p fromInt - totalNp - child.npBits p fromInt
    let sv : StateValue :=
      ⟨v.value.slice lowBits (child.bits p),
        .bv (v.nonPoison.bits.slice lowNp (child.npBits p fromInt))⟩
    if fromInt then fromIntScalar sv else child.fromBV sv

/-- The loop of `AggregateType::aggregateVals`, with the value so far. -/
def aggregateLoop (p : Params) : Option StateValue → Children → List StateValue → Option StateValue
  | acc, .nil, _ => acc
  | acc, .field ty rest, v :: vals =>
    if ty.bits p = 0 then aggregateLoop p acc rest vals
    else
      let vv := ty.toBV v
      aggregateLoop p (some (match acc with | none => vv | some a => a.concat vv)) rest vals
  | acc, .field _ _, [] => acc
  | acc, .padding width rest, vals =>
    if width = 0 then aggregateLoop p acc rest vals
    else
      -- `getDummyValue(false)` of the padding's integer type
      let vv : StateValue := ⟨Bits.zeros width, .bv [false]⟩
      aggregateLoop p (some (match acc with | none => vv | some a => a.concat vv)) rest vals

/-- `AggregateType::aggregateVals`; an empty aggregate is a zero bit. -/
def Children.aggregateVals (p : Params) (children : Children) (vals : List StateValue) :
    StateValue :=
  (aggregateLoop p none children vals).getD ⟨[false], .bv [false]⟩

def Children.ints (width : Nat) : Nat → Children
  | 0 => .nil
  | n + 1 => .field (.int width) (Children.ints width n)

/-- `Type::toInt` of an integer type. -/
def intToInt (p : Params) (width : Nat) (v : StateValue) : StateValue :=
  ⟨v.value, .bv (List.replicate (intNpBits p true width) v.nonPoison.isOnes)⟩

/-- `toInt` of the types that `valueToBytes` stores at once. -/
def Ty.toInt (p : Params) : Ty → StateValue → StateValue
  | .vector elements width, v =>
    let values := (List.range elements).map fun i =>
      intToInt p width ((Ty.vector elements width).extract p v i false)
    match values with
    | [] => ⟨[false], .bv [true]⟩
    | first :: rest =>
      rest.foldl (fun ret vv => if p.littleEndian then vv.concat ret else ret.concat vv) first
  | .int width, v => intToInt p width v
  | _, v => v

/-- `fromInt` of the types that `bytesToValue` loads at once. -/
def Ty.fromInt (p : Params) : Ty → StateValue → StateValue
  | .vector elements width, v =>
    (Children.ints width elements).aggregateVals p
      ((List.range elements).map fun i => (Ty.vector elements width).extract p v i true)
  | _, v => fromIntScalar v

end AliveNext.IR
