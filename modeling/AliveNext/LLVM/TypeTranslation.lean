import AliveNext.IR.Types

/-!
# Translation of types

`llvm_type2alive` makes the padding of structs and arrays explicit
(`llvm_util/utils.cpp`, `ir/type.cpp`). Types without a scalable part.
-/

namespace AliveNext.LLVM.Types

open AliveNext.IR (divideUp)

inductive FloatKind
  | half
  | float
  | double
  | quad
  | bfloat
  deriving DecidableEq

def FloatKind.bits : FloatKind → Nat
  | .half => 16
  | .float => 32
  | .double => 64
  | .quad => 128
  | .bfloat => 16

/-- The types that a vector can have as elements. -/
inductive Scalar
  | integer (bits : Nat)
  | float (kind : FloatKind)
  | pointer (addressSpace : Nat)
  deriving DecidableEq

/-- LLVM's types. -/
inductive LType
  | void
  | scalar (ty : Scalar)
  | opaqueStruct
  | struct (packed : Bool) (elems : List LType)
  | fixedVector (elems : Nat) (elem : Scalar)
  | array (elems : Nat) (elem : LType)
  | unsupported (id : Nat)

inductive AggregateKind
  | struct
  | vector
  | array
  deriving DecidableEq

/-- The types of `ir/type.h`. -/
inductive AType
  | void
  | scalar (ty : Scalar)
  | aggregate (kind : AggregateKind) (children : List AType) (isPadding : List Bool)

/-- What `llvm::DataLayout` says of sizes and offsets, in bytes. -/
structure DataLayout where
  pointerSize : Nat
  typeStoreSize : LType → Nat
  typeAllocSize : LType → Nat
  elementOffset : Bool → List LType → Nat → Nat
  store_integer : ∀ bits, typeStoreSize (.scalar (.integer bits)) = divideUp bits 8
  store_float : ∀ kind, typeStoreSize (.scalar (.float kind)) = divideUp kind.bits 8
  store_pointer : ∀ as, typeStoreSize (.scalar (.pointer as)) = pointerSize
  store_integerVector : ∀ n bits,
    typeStoreSize (.fixedVector n (.integer bits)) = divideUp (n * bits) 8
  store_floatVector : ∀ n kind,
    typeStoreSize (.fixedVector n (.float kind)) = divideUp (n * kind.bits) 8
  store_pointerVector : ∀ n as, typeStoreSize (.fixedVector n (.pointer as)) = n * pointerSize
  store_array : ∀ n elem, typeStoreSize (.array n elem) = n * typeAllocSize elem
  store_struct : ∀ packed elems,
    typeStoreSize (.struct packed elems) = typeAllocSize (.struct packed elems)
  alloc_empty : ∀ packed, typeAllocSize (.struct packed []) = 0
  store_le_alloc : ∀ ty, typeStoreSize ty ≤ typeAllocSize ty
  offset_first : ∀ packed elems, elementOffset packed elems 0 = 0
  offset_next : ∀ packed elems i (inside : i + 1 < elems.length),
    elementOffset packed elems i + typeStoreSize elems[i] ≤ elementOffset packed elems (i + 1)
  offset_last : ∀ packed elems i (last : i + 1 = elems.length),
    elementOffset packed elems i + typeStoreSize elems[i] ≤ typeAllocSize (.struct packed elems)

def getIntType (bits : Nat) : Option AType :=
  if bits > 16 * 1024 then none else some (.scalar (.integer bits))

/-- The number of bits of a padding of so many bytes, an `unsigned`. -/
def paddingBits (bytes : Nat) : Nat := 8 * bytes % 2 ^ 32

def paddingMember (bytes : Nat) : Option (List (Bool × AType)) :=
  if bytes = 0 then some []
  else (getIntType (paddingBits bytes)).map fun ty => [(true, ty)]

def scalarType2Alive : Scalar → Option AType
  | .integer bits => getIntType bits
  | .float kind => some (.scalar (.float kind))
  | .pointer as => if as ≠ 0 then none else some (.scalar (.pointer as))

section

variable (dl : DataLayout)

def offsetNext (packed : Bool) (elems : List LType) (i : Nat) : Nat :=
  if i + 1 = elems.length then dl.typeAllocSize (.struct packed elems)
  else dl.elementOffset packed elems (i + 1)

/-- The bytes between the `i`-th element and the next one. -/
def structPadding (packed : Bool) (elems : List LType) (i : Nat) (elem : LType) : Nat :=
  offsetNext dl packed elems i - dl.elementOffset packed elems i - dl.typeStoreSize elem

def arrayPadding (elem : LType) : Nat :=
  dl.typeAllocSize elem - dl.typeStoreSize elem

def arrayType (elements : Nat) (elementTy : AType) : Option AType → AType
  | some paddingTy =>
    .aggregate .array (List.replicate elements [elementTy, paddingTy]).flatten
      (List.replicate elements [false, true]).flatten
  | none => .aggregate .array (List.replicate elements elementTy) (List.replicate elements false)

mutual

def llvmType2Alive : LType → Option AType
  | .void => some .void
  | .scalar ty => scalarType2Alive ty
  | .opaqueStruct => getIntType 8
  | .struct packed elems => do
      let members ← structMembers (structPadding dl packed elems) 0 elems
      some (.aggregate .struct (members.map Prod.snd) (members.map Prod.fst))
  | .fixedVector elems elem => do
      let ety ← scalarType2Alive elem
      if elems > 1024 then none
      else some (.aggregate .vector (List.replicate elems ety) (List.replicate elems false))
  | .array elems elem => do
      let ety ← llvmType2Alive elem
      if elems > 100 * 1024 then none
      else
        let paddingTy := if arrayPadding dl elem = 0 then none
          else getIntType (paddingBits (arrayPadding dl elem))
        some (arrayType elems ety paddingTy)
  | .unsupported _ => none

/-- The loop over the elements of a struct from the `i`-th on: the children, each with
`is_padding`. -/
def structMembers (padding : Nat → LType → Nat) (i : Nat) :
    List LType → Option (List (Bool × AType))
  | [] => some []
  | elem :: rest => do
      let ty ← llvmType2Alive elem
      let padded ← paddingMember (padding i elem)
      let later ← structMembers padding (i + 1) rest
      some ((false, ty) :: padded ++ later)

end

end

section

def alignTo (size align : Nat) : Nat :=
  if align = 0 then size else divideUp size align * align

theorem le_alignTo (size align : Nat) : size ≤ alignTo size align := by
  unfold alignTo divideUp
  split
  · exact Nat.le_refl size
  · next positive =>
      have := Nat.div_add_mod' (size + align - 1) align
      have := Nat.mod_lt (size + align - 1) (Nat.pos_of_ne_zero positive)
      omega

theorem alignTo_of_dvd {size align : Nat} (aligned : align ∣ size) : alignTo size align = size := by
  obtain ⟨count, rfl⟩ := aligned
  unfold alignTo divideUp
  split
  · rfl
  · next positive =>
      have positive : 0 < align := Nat.pos_of_ne_zero positive
      rw [Nat.add_sub_assoc positive, Nat.mul_add_div positive,
        Nat.div_eq_of_lt (Nat.sub_lt positive Nat.one_pos), Nat.add_zero, Nat.mul_comm]

theorem alignTo_alignTo (size align : Nat) :
    alignTo (alignTo size align) align = alignTo size align := by
  by_cases none : align = 0
  · rw [alignTo, if_pos none]
  · refine alignTo_of_dvd ?_
    rw [alignTo, if_neg none]
    exact Nat.dvd_mul_left _ _

def Scalar.bits : Scalar → Nat
  | .integer bits => bits
  | .float kind => kind.bits
  | .pointer _ => 64

def Scalar.align : Scalar → Nat
  | .integer bits =>
    if bits ≤ 8 then 1 else if bits ≤ 16 then 2 else if bits ≤ 32 then 4
    else if bits ≤ 64 then 8 else 16
  | .float kind => kind.bits / 8
  | .pointer _ => 8

def powerOf2Ceil (n : Nat) : Nat :=
  (((List.range 64).map (2 ^ ·)).find? (n ≤ ·)).getD 0

def memberOffset (packed : Bool) (start align : Nat) : Nat :=
  if packed then start else alignTo start align

/-- The offset of a member, and the end of the last one. The members are given by their size and
alignment. -/
def layoutOffset (packed : Bool) (start : Nat) : List (Nat × Nat) → Nat → Nat
  | [], _ => start
  | (_, align) :: _, 0 => memberOffset packed start align
  | (size, align) :: rest, i + 1 =>
    layoutOffset packed (memberOffset packed start align + alignTo size align) rest i

def layoutEnd (packed : Bool) (start : Nat) : List (Nat × Nat) → Nat
  | [] => start
  | (size, align) :: rest =>
    layoutEnd packed (memberOffset packed start align + alignTo size align) rest

mutual

def x86Size : LType → Nat × Nat
  | .scalar ty => (divideUp ty.bits 8, ty.align)
  | .struct packed elems =>
    let align := if packed then 1 else ((x86Sizes elems).map Prod.snd).foldr max 1
    (alignTo (layoutEnd packed 0 (x86Sizes elems)) align, align)
  | .fixedVector n elem =>
    (divideUp (n * elem.bits) 8, powerOf2Ceil (divideUp (n * elem.bits) 8))
  | .array n elem => (n * alignTo (x86Size elem).1 (x86Size elem).2, (x86Size elem).2)
  | _ => (0, 1)

def x86Sizes : List LType → List (Nat × Nat)
  | [] => []
  | elem :: rest => x86Size elem :: x86Sizes rest

end

theorem x86Sizes_eq (elems : List LType) : x86Sizes elems = elems.map x86Size := by
  induction elems with
  | nil => rw [x86Sizes, List.map_nil]
  | cons elem elems ih => rw [x86Sizes, List.map_cons, ih]

theorem le_memberOffset (packed : Bool) (start align : Nat) :
    start ≤ memberOffset packed start align := by
  unfold memberOffset
  split
  · exact Nat.le_refl start
  · exact le_alignTo start align

variable {i : Nat} {members : List (Nat × Nat)}

theorem layoutOffset_next (packed : Bool) (start : Nat) (inside : i + 1 < members.length) :
    layoutOffset packed start members i + members[i].1 ≤
      layoutOffset packed start members (i + 1) := by
  induction i generalizing start members with
  | zero =>
    match members, inside with
    | (size, align) :: (size', align') :: rest, _ =>
      have room := le_alignTo size align
      have next := le_memberOffset packed (memberOffset packed start align +
        alignTo size align) align'
      simp only [layoutOffset, List.getElem_cons_zero]
      omega
  | succ i ih =>
    match members, inside with
    | (size, align) :: rest, inside =>
      exact ih _ (Nat.lt_of_succ_lt_succ inside)

theorem layoutOffset_last (packed : Bool) (start : Nat) (last : i + 1 = members.length) :
    layoutOffset packed start members i + members[i].1 ≤ layoutEnd packed start members := by
  induction i generalizing start members with
  | zero =>
    match members, last with
    | [(size, align)], _ =>
      have room := le_alignTo size align
      simp only [layoutOffset, layoutEnd, List.getElem_cons_zero]
      omega
  | succ i ih =>
    match members, last with
    | (size, align) :: rest, last => exact ih _ (Nat.succ.inj last)

def x86Layout : DataLayout where
  pointerSize := 8
  typeStoreSize ty := (x86Size ty).1
  typeAllocSize ty := alignTo (x86Size ty).1 (x86Size ty).2
  elementOffset packed elems i := layoutOffset packed 0 (x86Sizes elems) i
  store_integer bits := by rw [x86Size, Scalar.bits]
  store_float kind := by rw [x86Size, Scalar.bits]
  store_pointer as := by
    rw [x86Size]
    simp only [Scalar.bits, divideUp]
  store_integerVector n bits := by rw [x86Size, Scalar.bits]
  store_floatVector n kind := by rw [x86Size, Scalar.bits]
  store_pointerVector n as := by
    rw [x86Size]
    simp only [Scalar.bits, divideUp]
    omega
  store_array n elem := by rw [x86Size]
  store_struct packed elems := by rw [x86Size, alignTo_alignTo]
  alloc_empty packed := by
    rw [x86Size, alignTo_alignTo, x86Sizes, layoutEnd]
    exact alignTo_of_dvd (Nat.dvd_zero _)
  store_le_alloc ty := le_alignTo _ _
  offset_first packed elems := by
    cases elems with
    | nil => rw [x86Sizes, layoutOffset]
    | cons elem elems =>
      rw [x86Sizes, layoutOffset, memberOffset]
      split
      · rfl
      · exact alignTo_of_dvd (Nat.dvd_zero _)
  offset_next packed elems i inside := by
    have inside' : i + 1 < (x86Sizes elems).length := by
      rw [x86Sizes_eq, List.length_map]
      exact inside
    have next := layoutOffset_next packed 0 inside'
    simpa only [x86Sizes_eq, List.getElem_map] using next
  offset_last packed elems i last := by
    have last' : i + 1 = (x86Sizes elems).length := by
      rw [x86Sizes_eq, List.length_map]
      exact last
    have next := layoutOffset_last packed 0 last'
    rw [x86Size, alignTo_alignTo]
    refine le_trans ?_ (le_alignTo _ _)
    simpa only [x86Sizes_eq, List.getElem_map] using next

end

end AliveNext.LLVM.Types
