import AliveNext.LLVM.AggregateIndex

/-!
# Offsets of stored aggregates

`Memory::store` and `Memory::load` place the children of an aggregate by the sum
of their sizes (`ir/memory.cpp`, `ir/type.cpp`).
-/

namespace AliveNext.LLVM.Types

open AliveNext.IR (divideUp)
open AliveNext.Lib

/-- The value of an `unsigned`. -/
def unsigned (n : Nat) : Nat := n % 2 ^ 32

section

-- `Pointer::totalBits`
variable (totalBits : Nat)

mutual

/-- `Type::bits`. -/
def AType.bits : AType → Nat
  | .void => 0
  | .scalar (.integer bits) => bits
  | .scalar (.float kind) => kind.bits
  | .scalar (.pointer _) => totalBits
  | .aggregate _ children _ => if children.isEmpty then 1 else childrenBits children

def childrenBits : List AType → Nat
  | [] => 0
  | ty :: rest => unsigned (ty.bits + childrenBits rest)

end

def AType.isPtrType : AType → Bool
  | .scalar (.pointer _) => true
  | _ => false

def isNonPtrVector (kind : AggregateKind) (children : List AType) : Bool :=
  kind = .vector && !(children.head?.any AType.isPtrType)

-- `bits_program_pointer`
variable (bitsProgramPointer : Nat)

mutual

/-- `Memory::getStoreByteSize`. -/
def getStoreByteSize : AType → Nat
  | .scalar (.pointer _) => divideUp bitsProgramPointer 8
  | .aggregate kind children isPadding =>
    if isNonPtrVector kind children then
      divideUp ((AType.aggregate kind children isPadding).bits totalBits) 8
    else unsigned (childrenByteSize children)
  | ty => divideUp (ty.bits totalBits) 8

/-- The sum of the sizes, before it is taken as an `unsigned`. -/
def childrenByteSize : List AType → Nat
  | [] => 0
  | ty :: rest => getStoreByteSize ty + childrenByteSize rest

end

/-- The loop of `Memory::store`: the children that are stored, with their offsets. -/
def storeOffsets (i byteofs : Nat) : List AType → List (Nat × Nat)
  | [] => []
  | child :: rest =>
    if child.bits totalBits = 0 then storeOffsets (i + 1) byteofs rest
    else (i, byteofs) :: storeOffsets (i + 1)
      (unsigned (byteofs + getStoreByteSize totalBits bitsProgramPointer child)) rest

/-- The loop of `Memory::load`: the children that are loaded, with their offsets. -/
def loadOffsets (isPadding : List Bool) (i byteofs : Nat) : List AType → List (Nat × Nat)
  | [] => []
  | child :: rest =>
    let later := loadOffsets isPadding (i + 1)
      (unsigned (byteofs + getStoreByteSize totalBits bitsProgramPointer child)) rest
    if isPadding[i]? = some true then later else (i, byteofs) :: later

end

mutual

def LType.InMemory : LType → Prop
  | .scalar _ => True
  | .struct _ elems => membersInMemory elems
  | .fixedVector n _ => 0 < n
  | .array _ elem => elem.InMemory
  | _ => False

def membersInMemory : List LType → Prop
  | [] => True
  | elem :: rest => elem.InMemory ∧ membersInMemory rest

end

section

variable (dl : DataLayout)

def elementOffset : LType → Nat → Nat
  | .struct packed elems, k => dl.elementOffset packed elems k
  | .array _ elem, k => k * dl.typeAllocSize elem
  | _, _ => 0

def SmallPadding (bytes : Nat) : Prop := 8 * bytes ≤ 16 * 1024

mutual

/-- Sizes fit an `unsigned`, and no padding is larger than the largest integer type. -/
def Fits : LType → Prop
  | .struct packed elems =>
    dl.typeStoreSize (.struct packed elems) < 2 ^ 32 ∧
      MembersFit (structPadding dl packed elems) 0 elems
  | .fixedVector n elem => dl.typeStoreSize (.fixedVector n elem) < 2 ^ 32
  | .array n elem =>
    dl.typeStoreSize (.array n elem) < 2 ^ 32 ∧
      (n = 0 ∨ Fits elem ∧ SmallPadding (arrayPadding dl elem))
  | _ => True

def MembersFit (padding : Nat → LType → Nat) (i : Nat) : List LType → Prop
  | [] => True
  | elem :: rest =>
    Fits elem ∧ SmallPadding (padding i elem) ∧ MembersFit padding (i + 1) rest

end

structure PreservesLayout (totalBits : Nat) (ty : LType) (aty : AType) : Prop where
  size : getStoreByteSize totalBits (8 * dl.pointerSize) aty = dl.typeStoreSize ty
  offsets : ∀ k elem kind children isPadding, ty.elementType k = some elem →
    aty = .aggregate kind children isPadding →
    ∃ place, fieldAt isPadding k = some place ∧ (place, elementOffset dl ty k) ∈
        storeOffsets totalBits (8 * dl.pointerSize) 0 0 children ∧
      (place, elementOffset dl ty k) ∈
        loadOffsets totalBits (8 * dl.pointerSize) isPadding 0 0 children

end

section

variable {dl : DataLayout} {totalBits : Nat} {ty elem : LType} {aty : AType}
  {padding : Nat → LType → Nat} {elems : List LType}
  {members : List (Bool × AType)} {i n : Nat}

theorem getStoreByteSize_struct (p : Nat) (children : List AType) (isPadding : List Bool) :
    getStoreByteSize totalBits p (.aggregate .struct children isPadding) =
      unsigned (childrenByteSize totalBits p children) := by
  rw [getStoreByteSize]
  exact if_neg (by simp [isNonPtrVector])

theorem getStoreByteSize_array (p : Nat) (children : List AType) (isPadding : List Bool) :
    getStoreByteSize totalBits p (.aggregate .array children isPadding) =
      unsigned (childrenByteSize totalBits p children) := by
  rw [getStoreByteSize]
  exact if_neg (by simp [isNonPtrVector])

theorem getStoreByteSize_integer (p bits : Nat) :
    getStoreByteSize totalBits p (.scalar (.integer bits)) = divideUp bits 8 := by
  simp only [getStoreByteSize, AType.bits]

theorem childrenByteSize_append (p : Nat) (left right : List AType) :
    childrenByteSize totalBits p (left ++ right) =
      childrenByteSize totalBits p left + childrenByteSize totalBits p right := by
  induction left with
  | nil => rw [List.nil_append, childrenByteSize, Nat.zero_add]
  | cons ty left ih =>
    rw [List.cons_append, childrenByteSize, childrenByteSize, ih, Nat.add_assoc]

theorem paddingSize_le (bytes : Nat) : divideUp (paddingBits bytes) 8 ≤ bytes := by
  unfold divideUp paddingBits
  omega

variable {bytes : Nat} {padded : List (Bool × AType)} {packed : Bool} {s : Scalar}

theorem paddingSize_eq_iff (int : paddingBits bytes ≤ 16 * 1024) :
    divideUp (paddingBits bytes) 8 = bytes ↔ SmallPadding bytes := by
  unfold divideUp SmallPadding
  unfold paddingBits at *
  omega

def SizeSpec (dl : DataLayout) (totalBits : Nat) (ty : LType) : Prop :=
  ∀ aty, llvmType2Alive dl ty = some aty →
    getStoreByteSize totalBits (8 * dl.pointerSize) aty ≤ dl.typeStoreSize ty ∧
      (getStoreByteSize totalBits (8 * dl.pointerSize) aty = dl.typeStoreSize ty ↔ Fits dl ty)

theorem paddingMember_size (totalBits p : Nat)
    (padded_cases : bytes = 0 ∧ padded = [] ∨ bytes ≠ 0 ∧ paddingBits bytes ≤ 16 * 1024 ∧
        padded = [(true, .scalar (.integer (paddingBits bytes)))]) :
    childrenByteSize totalBits p (padded.map Prod.snd) ≤ bytes ∧
      (childrenByteSize totalBits p (padded.map Prod.snd) = bytes ↔ SmallPadding bytes) := by
  rcases padded_cases with ⟨rfl, rfl⟩ | ⟨-, int, rfl⟩
  · exact ⟨Nat.le_refl 0, iff_of_true rfl (Nat.zero_le _)⟩
  · rw [List.map_singleton, childrenByteSize, childrenByteSize, getStoreByteSize_integer,
      Nat.add_zero]
    exact ⟨paddingSize_le bytes, paddingSize_eq_iff int⟩

theorem structMembers_size
    (offset : Nat → Nat) (translated : structMembers dl padding i elems = some members)
    (specs : ∀ elem ∈ elems, SizeSpec dl totalBits elem) (room : ∀ j elem, elems[j]? = some elem →
      offset (i + j) + dl.typeStoreSize elem + padding (i + j) elem ≤ offset (i + j + 1)) :
    offset i + childrenByteSize totalBits (8 * dl.pointerSize) (members.map Prod.snd) ≤
        offset (i + elems.length) ∧
      (offset i + childrenByteSize totalBits (8 * dl.pointerSize) (members.map Prod.snd) =
          offset (i + elems.length) ↔
        MembersFit dl padding i elems ∧ ∀ j elem, elems[j]? = some elem →
          offset (i + j) + dl.typeStoreSize elem + padding (i + j) elem = offset (i + j + 1)) := by
  induction elems generalizing i members with
  | nil =>
    cases translated
    refine ⟨Nat.le_refl _, iff_of_true rfl ⟨?_, fun j elem known => ?_⟩⟩
    · unfold MembersFit
      trivial
    · cases known
  | cons elem elems ih =>
    obtain ⟨ty, padded, later, translatedElem, rest, rfl, padded_cases⟩ :=
      structMembers_cons translated
    obtain ⟨sizeLe, sizeIff⟩ := specs elem List.mem_cons_self ty translatedElem
    obtain ⟨padLe, padIff⟩ :=
      paddingMember_size totalBits (8 * dl.pointerSize) padded_cases
    have here := room 0 elem rfl
    have roomRest : ∀ j other, elems[j]? = some other →
        offset (i + 1 + j) + dl.typeStoreSize other + padding (i + 1 + j) other ≤
          offset (i + 1 + j + 1) := by
      intro j other known
      have later := room (j + 1) other known
      rwa [show i + (j + 1) = i + 1 + j by omega] at later
    obtain ⟨restLe, restIff⟩ := ih rest
      (fun other member => specs other (List.mem_cons_of_mem _ member)) roomRest
    have split : childrenByteSize totalBits (8 * dl.pointerSize)
        (((false, ty) :: padded ++ later).map Prod.snd) =
          getStoreByteSize totalBits (8 * dl.pointerSize) ty +
            childrenByteSize totalBits (8 * dl.pointerSize) (padded.map Prod.snd) +
            childrenByteSize totalBits (8 * dl.pointerSize) (later.map Prod.snd) := by
      rw [List.map_append, childrenByteSize_append, List.map_cons, childrenByteSize]
    have stop : i + (elem :: elems).length = i + 1 + elems.length := by
      rw [List.length_cons]
      omega
    rw [Nat.add_zero] at here
    rw [split, stop, MembersFit, ← sizeIff, ← padIff]
    refine ⟨by omega, ?_⟩
    constructor
    · intro same
      obtain ⟨fit, tight⟩ := restIff.1 (by omega)
      refine ⟨⟨by omega, by omega, fit⟩, fun j other known => ?_⟩
      cases j with
      | zero =>
        cases known
        rw [Nat.add_zero]
        omega
      | succ j =>
        rw [show i + (j + 1) = i + 1 + j by omega]
        exact tight j other known
    · rintro ⟨⟨size, pad, fit⟩, tight⟩
      have first := tight 0 elem rfl
      rw [Nat.add_zero] at first
      have last := restIff.2 ⟨fit, fun j other known => by
        have next := tight (j + 1) other known
        rwa [show i + (j + 1) = i + 1 + j by omega] at next⟩
      omega

theorem unsigned_le (n : Nat) : unsigned n ≤ n := Nat.mod_le n _

theorem unsigned_eq_iff {m : Nat} (le : n ≤ m) : unsigned n = m ↔ m < 2 ^ 32 ∧ n = m := by
  unfold unsigned
  omega

def structOffset (dl : DataLayout) (packed : Bool) (elems : List LType) (j : Nat) : Nat :=
  if j = elems.length then dl.typeAllocSize (.struct packed elems)
  else dl.elementOffset packed elems j

theorem structOffset_zero (packed : Bool) (elems : List LType) :
    structOffset dl packed elems 0 = 0 := by
  unfold structOffset
  split
  · next none =>
      rw [List.eq_nil_of_length_eq_zero none.symm]
      exact dl.alloc_empty packed
  · exact dl.offset_first packed elems

theorem structOffset_next {j : Nat} (known : elems[j]? = some elem) :
    structOffset dl packed elems j + dl.typeStoreSize elem + structPadding dl packed elems j elem =
      structOffset dl packed elems (j + 1) := by
  obtain ⟨inside, rfl⟩ := List.getElem?_eq_some_iff.1 known
  unfold structPadding offsetNext structOffset
  rw [if_neg (Nat.ne_of_lt inside)]
  split
  · next last =>
      have := dl.offset_last packed elems j last
      omega
  · next more =>
      have := dl.offset_next packed elems j (by omega)
      omega

theorem sizeSpec_struct (specs : ∀ elem ∈ elems, SizeSpec dl totalBits elem) :
    SizeSpec dl totalBits (.struct packed elems) := by
  intro aty translated
  unfold llvmType2Alive at translated
  simp only [Option.bind_eq_bind, Option.bind_eq_some_iff, Option.some.injEq] at translated
  obtain ⟨members, inner, rfl⟩ := translated
  have gaps : ∀ j elem, elems[j]? = some elem →
      structOffset dl packed elems (0 + j) + dl.typeStoreSize elem +
        structPadding dl packed elems (0 + j) elem = structOffset dl packed elems (0 + j + 1) := by
    intro j elem known
    rw [Nat.zero_add]
    exact structOffset_next known
  obtain ⟨le, same⟩ := structMembers_size (structOffset dl packed elems) inner specs
    fun j elem known => (gaps j elem known).le
  have stop : structOffset dl packed elems (0 + elems.length) =
      dl.typeStoreSize (.struct packed elems) := by
    rw [Nat.zero_add, structOffset, if_pos rfl, dl.store_struct]
  rw [structOffset_zero, Nat.zero_add, stop] at le same
  rw [getStoreByteSize_struct, unsigned_eq_iff le, Fits, same]
  exact ⟨(unsigned_le _).trans le, and_congr_right fun _ => and_iff_left gaps⟩

theorem structMembers_replicate {ety : AType}
    (inner : llvmType2Alive dl elem = some ety) (member : paddingMember bytes = some padded) :
    structMembers dl (fun _ _ => bytes) i (List.replicate n elem) =
      some (List.replicate n ((false, ety) :: padded)).flatten := by
  induction n generalizing i with
  | zero =>
    rw [List.replicate_zero, structMembers]
    rfl
  | succ n ih =>
    rw [List.replicate_succ, structMembers, inner, member, ih]
    rfl

theorem membersFit_replicate (dl : DataLayout) (elem : LType) (bytes n i : Nat) :
    MembersFit dl (fun _ _ => bytes) i (List.replicate n elem) ↔
      n = 0 ∨ Fits dl elem ∧ SmallPadding bytes := by
  induction n generalizing i with
  | zero =>
    rw [List.replicate_zero, MembersFit]
    exact iff_of_true trivial (.inl rfl)
  | succ n ih =>
    rw [List.replicate_succ, MembersFit, ih]
    constructor
    · exact fun fit => .inr ⟨fit.1, fit.2.1⟩
    · rintro (none | fit)
      · exact absurd none (Nat.succ_ne_zero n)
      · exact ⟨fit.1, fit.2, .inr fit⟩

theorem array_members (translated : llvmType2Alive dl (.array n elem) = some aty) :
    ∃ bytes members, aty = .aggregate .array (members.map Prod.snd) (members.map Prod.fst) ∧
      structMembers dl (fun _ _ => bytes) 0 (List.replicate n elem) = some members ∧
      (bytes = arrayPadding dl elem ∨
        bytes = 0 ∧ arrayPadding dl elem ≠ 0 ∧ ¬SmallPadding (arrayPadding dl elem)) := by
  unfold llvmType2Alive at translated
  simp only [Option.bind_eq_bind, Option.bind_eq_some_iff] at translated
  obtain ⟨ety, inner, result⟩ := translated
  split at result
  · cases result
  · rw [arrayPaddingTy_cases] at result
    by_cases gap : arrayPadding dl elem ≠ 0 ∧ paddingBits (arrayPadding dl elem) ≤ 16 * 1024
    · rw [if_pos gap] at result
      cases result
      have member : paddingMember (arrayPadding dl elem) =
          some [(true, .scalar (.integer (paddingBits (arrayPadding dl elem))))] := by
        unfold paddingMember getIntType
        rw [if_neg gap.1, if_neg (not_lt.2 gap.2)]
        rfl
      refine ⟨_, _, ?_, structMembers_replicate inner member, .inl rfl⟩
      rw [arrayType, List.map_flatten, List.map_flatten, List.map_replicate, List.map_replicate]
      rfl
    · rw [if_neg gap] at result
      cases result
      have member : paddingMember 0 = some [] := rfl
      refine ⟨0, _, ?_, structMembers_replicate inner member, ?_⟩
      · rw [arrayType, List.map_flatten, List.map_flatten, List.map_replicate, List.map_replicate]
        exact congrArg₂ _ List.flatten_replicate_singleton.symm
          List.flatten_replicate_singleton.symm
      · by_cases none : arrayPadding dl elem = 0
        · exact .inl none.symm
        · refine .inr ⟨rfl, none, fun small => gap ⟨none, ?_⟩⟩
          exact (Nat.mod_le _ _).trans small

theorem sizeSpec_array
    (spec : SizeSpec dl totalBits elem) : SizeSpec dl totalBits (.array n elem) := by
  intro aty translated
  obtain ⟨bytes, members, rfl, inner, padding⟩ := array_members translated
  have alloc := dl.store_le_alloc elem
  have gap : arrayPadding dl elem = dl.typeAllocSize elem - dl.typeStoreSize elem := rfl
  have room : ∀ j other, (List.replicate n elem)[j]? = some other →
      (0 + j) * dl.typeAllocSize elem + dl.typeStoreSize other + bytes ≤
        (0 + j + 1) * dl.typeAllocSize elem := by
    intro j other known
    cases (List.mem_replicate.1 (List.mem_of_getElem? known)).2
    rw [Nat.succ_mul (0 + j)]
    omega
  obtain ⟨le, same⟩ := structMembers_size (· * dl.typeAllocSize elem) inner
    (fun other member => (List.mem_replicate.1 member).2 ▸ spec) room
  have stop : (0 + (List.replicate n elem).length) * dl.typeAllocSize elem =
      dl.typeStoreSize (.array n elem) := by
    rw [Nat.zero_add, List.length_replicate, dl.store_array]
  have tight : (∀ j other, (List.replicate n elem)[j]? = some other →
      (0 + j) * dl.typeAllocSize elem + dl.typeStoreSize other + bytes =
        (0 + j + 1) * dl.typeAllocSize elem) ↔ n = 0 ∨ bytes = arrayPadding dl elem := by
    constructor
    · intro all
      by_cases none : n = 0
      · exact .inl none
      · have first := all 0 elem (List.getElem?_replicate_of_lt (Nat.pos_of_ne_zero none))
        exact .inr (by omega)
    · rintro (rfl | same) j other known
      · cases known
      · cases (List.mem_replicate.1 (List.mem_of_getElem? known)).2
        rw [Nat.succ_mul (0 + j)]
        omega
  rw [stop, Nat.zero_mul, Nat.zero_add] at le same
  rw [getStoreByteSize_array, unsigned_eq_iff le, Fits, same, membersFit_replicate, tight]
  refine ⟨(unsigned_le _).trans le, and_congr_right fun _ => ?_⟩
  rcases padding with rfl | ⟨rfl, some, large⟩
  · constructor
    · exact And.left
    · exact fun fit => ⟨fit, .inr rfl⟩
  · constructor
    · rintro ⟨-, none | none⟩
      · exact .inl none
      · exact absurd none.symm some
    · rintro (none | ⟨-, small⟩)
      · exact ⟨.inl none, .inl none⟩
      · exact absurd small large

/-! ### Vectors and scalars -/

theorem scalarType2Alive_cases (translated : scalarType2Alive s = some aty) :
    aty = .scalar s ∧ ∀ bits, s = .integer bits → bits ≤ 16 * 1024 := by
  cases s with
  | integer bits =>
    rw [scalarType2Alive, getIntType] at translated
    split at translated
    · cases translated
    · next small =>
        cases translated
        refine ⟨rfl, fun other same => ?_⟩
        cases same
        exact not_lt.1 small
  | float kind =>
    cases translated
    exact ⟨rfl, fun bits same => by cases same⟩
  | pointer as =>
    rw [scalarType2Alive] at translated
    split at translated
    · cases translated
    · cases translated
      exact ⟨rfl, fun bits same => by cases same⟩

theorem getStoreByteSize_scalar (dl : DataLayout) (totalBits : Nat) (s : Scalar) :
    getStoreByteSize totalBits (8 * dl.pointerSize) (.scalar s) = dl.typeStoreSize (.scalar s) := by
  cases s with
  | integer bits => rw [getStoreByteSize_integer, dl.store_integer]
  | float kind => simp only [getStoreByteSize, AType.bits, dl.store_float]
  | pointer as =>
    rw [getStoreByteSize, dl.store_pointer, divideUp]
    omega

theorem sizeSpec_scalar (s : Scalar) : SizeSpec dl totalBits (.scalar s) := by
  intro aty translated
  unfold llvmType2Alive at translated
  obtain ⟨rfl, -⟩ := scalarType2Alive_cases translated
  rw [getStoreByteSize_scalar, Fits]
  · exact ⟨Nat.le_refl _, iff_of_true rfl trivial⟩
  all_goals exact fun _ _ same => by cases same

theorem childrenBits_replicate (ty : AType) (small : n * ty.bits totalBits < 2 ^ 32) :
    childrenBits totalBits (List.replicate n ty) = n * ty.bits totalBits := by
  induction n with
  | zero =>
    rw [List.replicate_zero, childrenBits, Nat.zero_mul]
  | succ n ih =>
    rw [Nat.succ_mul] at small ⊢
    rw [List.replicate_succ, childrenBits, ih (by omega), Nat.add_comm]
    exact Nat.mod_eq_of_lt small

theorem childrenByteSize_replicate (p : Nat) (ty : AType) (n : Nat) :
    childrenByteSize totalBits p (List.replicate n ty) = n * getStoreByteSize totalBits p ty := by
  induction n with
  | zero => rw [List.replicate_zero, childrenByteSize, Nat.zero_mul]
  | succ n ih =>
    rw [List.replicate_succ, childrenByteSize, ih, Nat.succ_mul, Nat.add_comm]

theorem sizeSpec_vector (positive : 0 < n) : SizeSpec dl totalBits (.fixedVector n s) := by
  intro aty translated
  unfold llvmType2Alive at translated
  simp only [Option.bind_eq_bind, Option.bind_eq_some_iff] at translated
  obtain ⟨ety, inner, result⟩ := translated
  obtain ⟨rfl, int⟩ := scalarType2Alive_cases inner
  split at result
  · cases result
  next elements =>
    cases result
    obtain ⟨k, rfl⟩ := Nat.exists_eq_succ_of_ne_zero (Nat.ne_of_gt positive)
    have sized (ty : AType) (notPtr : ty.isPtrType = false)
        (small : ty.bits totalBits ≤ 16 * 1024) :
        getStoreByteSize totalBits (8 * dl.pointerSize) (.aggregate .vector
          (List.replicate (k + 1) ty) (List.replicate (k + 1) false)) =
            divideUp ((k + 1) * ty.bits totalBits) 8 ∧
          divideUp ((k + 1) * ty.bits totalBits) 8 < 2 ^ 32 := by
      have bound : (k + 1) * ty.bits totalBits ≤ 1024 * (16 * 1024) :=
        Nat.mul_le_mul (not_lt.1 elements) small
      have flag : isNonPtrVector .vector (List.replicate (k + 1) ty) = true := by
        rw [isNonPtrVector, List.replicate_succ, List.head?_cons, Option.any_some, notPtr]
        rfl
      constructor
      · rw [getStoreByteSize, if_pos flag, AType.bits, if_neg (by simp),
          childrenBits_replicate ty (by omega)]
      · unfold divideUp
        omega
    have whole (ty : AType) (notPtr : ty.isPtrType = false) (small : ty.bits totalBits ≤ 16 * 1024)
        (store : dl.typeStoreSize (.fixedVector (k + 1) s) =
          divideUp ((k + 1) * ty.bits totalBits) 8) :
        getStoreByteSize totalBits (8 * dl.pointerSize) (.aggregate .vector
          (List.replicate (k + 1) ty) (List.replicate (k + 1) false)) ≤
            dl.typeStoreSize (.fixedVector (k + 1) s) ∧
          (getStoreByteSize totalBits (8 * dl.pointerSize) (.aggregate .vector
            (List.replicate (k + 1) ty) (List.replicate (k + 1) false)) =
              dl.typeStoreSize (.fixedVector (k + 1) s) ↔ Fits dl (.fixedVector (k + 1) s)) := by
      obtain ⟨size, bound⟩ := sized ty notPtr small
      rw [size, Fits, store]
      exact ⟨Nat.le_refl _, iff_of_true rfl bound⟩
    cases s with
    | integer bits =>
      exact whole _ rfl (by rw [AType.bits]; exact int bits rfl) (dl.store_integerVector _ _)
    | float kind =>
      have small : kind.bits ≤ 16 * 1024 := by cases kind <;> decide
      exact whole _ rfl (by rw [AType.bits]; exact small) (dl.store_floatVector _ _)
    | pointer as =>
      rw [getStoreByteSize, if_neg (by simp [isNonPtrVector, List.replicate_succ,
        AType.isPtrType]), childrenByteSize_replicate, getStoreByteSize_scalar, Fits,
        dl.store_pointerVector, dl.store_pointer, unsigned_eq_iff (Nat.le_refl _)]
      exact ⟨unsigned_le _, and_iff_left rfl⟩

end

section

variable {dl : DataLayout} (totalBits : Nat)

mutual

theorem sizeSpec : ∀ ty : LType, ty.InMemory → SizeSpec dl totalBits ty
  | .scalar s, _ => sizeSpec_scalar s
  | .struct _ elems, inMemory => sizeSpec_struct (sizeSpecs elems inMemory)
  | .fixedVector _ _, inMemory => sizeSpec_vector inMemory
  | .array _ _, inMemory => sizeSpec_array (sizeSpec _ inMemory)

theorem sizeSpecs : ∀ elems : List LType, membersInMemory elems →
    ∀ ty ∈ elems, SizeSpec dl totalBits ty
  | [], _ => List.forall_mem_nil _
  | first :: rest, inMemory => fun _ member =>
    (List.mem_cons.1 member).elim (fun same => same ▸ sizeSpec first inMemory.1)
      (sizeSpecs rest inMemory.2 _)

end

end

section

variable {dl : DataLayout} {totalBits p i n place byteofs : Nat} {ty elem : LType} {aty : AType}
  {children : List AType} {isPadding : List Bool} {padding : Nat → LType → Nat}
  {elems : List LType} {members : List (Bool × AType)}

def allOffsets (totalBits p i byteofs : Nat) : List AType → List (Nat × Nat)
  | [] => []
  | child :: rest =>
    (i, byteofs) :: allOffsets totalBits p (i + 1)
        (unsigned (byteofs + getStoreByteSize totalBits p child)) rest

theorem storeOffsets_eq (visible : ∀ child ∈ children, child.bits totalBits ≠ 0) :
    storeOffsets totalBits p i byteofs children = allOffsets totalBits p i byteofs children := by
  induction children generalizing i byteofs with
  | nil => rfl
  | cons child rest ih =>
    rw [storeOffsets, if_neg (visible child List.mem_cons_self), allOffsets,
      ih fun other member => visible other (List.mem_cons_of_mem _ member)]

theorem bits_of_mem_storeOffsets
    {entry : Nat × Nat} (member : entry ∈ storeOffsets totalBits p i byteofs children) :
    i ≤ entry.1 ∧ ∃ child, children[entry.1 - i]? = some child ∧ child.bits totalBits ≠ 0 := by
  induction children generalizing i byteofs with
  | nil => exact absurd member List.not_mem_nil
  | cons first rest ih =>
    have later {ofs : Nat} (inside : entry ∈ storeOffsets totalBits p (i + 1) ofs rest) :
        i ≤ entry.1 ∧
          ∃ child, (first :: rest)[entry.1 - i]? = some child ∧ child.bits totalBits ≠ 0 := by
      obtain ⟨le, child, found, bits⟩ := ih inside
      refine ⟨by omega, child, ?_, bits⟩
      rw [show entry.1 - i = entry.1 - (i + 1) + 1 by omega]
      exact found
    rw [storeOffsets] at member
    split at member
    · exact later member
    · next bits =>
        rcases List.mem_cons.1 member with rfl | inside
        · exact ⟨Nat.le_refl i, first, by rw [Nat.sub_self]; rfl, bits⟩
        · exact later inside

theorem mem_loadOffsets_iff {entry : Nat × Nat} :
    entry ∈ loadOffsets totalBits p isPadding i byteofs children ↔
      entry ∈ allOffsets totalBits p i byteofs children ∧ isPadding[entry.1]? ≠ some true := by
  induction children generalizing i byteofs with
  | nil => simp [loadOffsets, allOffsets]
  | cons child rest ih =>
    rw [loadOffsets, allOffsets, List.mem_cons]
    split
    · next flag =>
        rw [ih]
        constructor
        · exact fun both => ⟨.inr both.1, both.2⟩
        · rintro ⟨rfl | later, other⟩
          · exact absurd flag other
          · exact ⟨later, other⟩
    · next flag =>
        rw [List.mem_cons, ih]
        constructor
        · rintro (rfl | both)
          · exact ⟨.inl rfl, flag⟩
          · exact ⟨.inr both.1, both.2⟩
        · rintro ⟨rfl | later, other⟩
          · exact .inl rfl
          · exact .inr ⟨later, other⟩

theorem structMembers_visible (translated : structMembers dl padding i elems = some members)
    (fit : MembersFit dl padding i elems)
    (visible : ∀ elem ∈ elems, ∀ child, llvmType2Alive dl elem = some child →
      child.bits totalBits ≠ 0) :
    ∀ child ∈ members.map Prod.snd, child.bits totalBits ≠ 0 := by
  induction elems generalizing i members with
  | nil =>
    cases translated
    exact List.forall_mem_nil _
  | cons elem elems ih =>
    obtain ⟨ty, padded, later, translatedElem, rest, rfl, padded_cases⟩ :=
      structMembers_cons translated
    rw [MembersFit] at fit
    have visibleRest := ih rest fit.2.2
      fun other member => visible other (List.mem_cons_of_mem _ member)
    intro child member
    rw [List.map_append, List.mem_append, List.map_cons, List.mem_cons] at member
    rcases member with (rfl | inPadding) | inRest
    · exact visible elem List.mem_cons_self child translatedElem
    · rcases padded_cases with ⟨-, rfl⟩ | ⟨some, -, rfl⟩
      · exact absurd inPadding List.not_mem_nil
      · cases List.mem_singleton.1 inPadding
        have small := fit.2.1
        unfold SmallPadding at small
        rw [AType.bits, paddingBits]
        omega
    · exact visibleRest child inRest

theorem structMembers_offset {j : Nat} (offset : Nat → Nat) (base : Nat)
    (translated : structMembers dl padding i elems = some members)
    (specs : ∀ elem ∈ elems, SizeSpec dl totalBits elem) (fit : MembersFit dl padding i elems)
    (gaps : ∀ j elem, elems[j]? = some elem →
      offset (i + j) + dl.typeStoreSize elem + padding (i + j) elem = offset (i + j + 1))
    (small : offset (i + elems.length) < 2 ^ 32)
    (field : fieldAt (members.map Prod.fst) j = some place) :
    (base + place, offset (i + j)) ∈
      allOffsets totalBits (8 * dl.pointerSize) base (offset i) (members.map Prod.snd) := by
  induction elems generalizing i members base j place with
  | nil =>
    cases translated
    cases field
  | cons elem elems ih =>
    obtain ⟨ty, padded, later, translatedElem, rest, rfl, padded_cases⟩ :=
      structMembers_cons translated
    rw [MembersFit] at fit
    have size : getStoreByteSize totalBits (8 * dl.pointerSize) ty = dl.typeStoreSize elem :=
      (specs elem List.mem_cons_self ty translatedElem).2.2 fit.1
    have first := gaps 0 elem rfl
    have gapsRest : ∀ j other, elems[j]? = some other →
        offset (i + 1 + j) + dl.typeStoreSize other + padding (i + 1 + j) other =
          offset (i + 1 + j + 1) := by
      intro j other known
      have next := gaps (j + 1) other known
      rwa [show i + (j + 1) = i + 1 + j by omega] at next
    have specsRest : ∀ other ∈ elems, SizeSpec dl totalBits other :=
      fun other member => specs other (List.mem_cons_of_mem _ member)
    rw [show i + (elem :: elems).length = i + 1 + elems.length by rw [List.length_cons]; omega]
      at small
    have bound := (structMembers_size offset rest specsRest
      fun j other known => (gapsRest j other known).le).1
    rw [Nat.add_zero] at first
    have inner : unsigned (offset i + dl.typeStoreSize elem) = offset i + dl.typeStoreSize elem :=
      Nat.mod_eq_of_lt (by omega)
    rw [List.map_append, List.map_cons, List.cons_append, allOffsets]
    cases j with
    | zero =>
      cases field
      exact List.mem_cons_self
    | succ j =>
      refine List.mem_cons_of_mem _ ?_
      rw [size, inner, show i + (j + 1) = i + 1 + j by omega]
      rcases padded_cases with ⟨none, rfl⟩ | ⟨some, -, rfl⟩
      · obtain ⟨before, earlier, rfl⟩ := Option.map_eq_some_iff.1 field
        have next : offset i + dl.typeStoreSize elem = offset (i + 1) := by omega
        rw [next, show base + (before + 1) = base + 1 + before by omega]
        exact ih (base + 1) rest specsRest fit.2.2 gapsRest small earlier
      · obtain ⟨_, middle, rfl⟩ := Option.map_eq_some_iff.1 field
        obtain ⟨before, earlier, rfl⟩ := Option.map_eq_some_iff.1 middle
        have fits : paddingBits (padding i elem) ≤ 16 * 1024 :=
          (Nat.mod_le _ _).trans fit.2.1
        have next : unsigned (offset i + dl.typeStoreSize elem +
            getStoreByteSize totalBits (8 * dl.pointerSize)
              (.scalar (.integer (paddingBits (padding i elem))))) = offset (i + 1) := by
          rw [getStoreByteSize_integer, (paddingSize_eq_iff fits).2 fit.2.1, first]
          exact Nat.mod_eq_of_lt (by omega)
        rw [List.map_singleton, List.singleton_append, allOffsets, next,
          show base + (before + 1 + 1) = base + 1 + 1 + before by omega]
        exact List.mem_cons_of_mem _
          (ih (base + 1 + 1) rest specsRest fit.2.2 gapsRest small earlier)

/-- `Memory::store` skips no element: its `bits` is not a multiple of `2 ^ 32`. -/
def ElementsVisible (dl : DataLayout) (totalBits : Nat) (ty : LType) : Prop :=
  ∀ k elem child, ty.elementType k = some elem → llvmType2Alive dl elem = some child →
    child.bits totalBits ≠ 0

theorem offsets_of_fits {k : Nat} {kind : AggregateKind} (inMemory : ty.InMemory)
    (translated : llvmType2Alive dl ty = some (.aggregate kind children isPadding))
    (fits : Fits dl ty) (visible : ElementsVisible dl totalBits ty)
    (known : ty.elementType k = some elem) (field : fieldAt isPadding k = some place) :
    (∀ child ∈ children, child.bits totalBits ≠ 0) ∧
      (place, elementOffset dl ty k) ∈ allOffsets totalBits (8 * dl.pointerSize) 0 0 children := by
  cases ty with
  | struct packed elems =>
    unfold llvmType2Alive at translated
    simp only [Option.bind_eq_bind, Option.bind_eq_some_iff, Option.some.injEq,
      AType.aggregate.injEq] at translated
    obtain ⟨members, inner, -, rfl, rfl⟩ := translated
    rw [Fits] at fits
    have inside : k < elems.length := (List.getElem?_eq_some_iff.1 known).1
    refine ⟨structMembers_visible inner fits.2 fun elem member child => ?_, ?_⟩
    · obtain ⟨j, known⟩ := List.mem_iff_getElem?.1 member
      exact visible j elem child known
    · have offset := structMembers_offset (structOffset dl packed elems) 0 inner
        (sizeSpecs totalBits elems inMemory) fits.2
        (fun j elem known => by
          rw [Nat.zero_add]
          exact structOffset_next known)
        (by
          rw [Nat.zero_add, structOffset, if_pos rfl, ← dl.store_struct]
          exact fits.1) field
      rw [structOffset_zero, Nat.zero_add, Nat.zero_add, structOffset,
        if_neg (Nat.ne_of_lt inside)] at offset
      exact offset
  | array n arrayElem =>
    obtain ⟨bytes, members, same, inner, padding⟩ := array_members translated
    cases same
    rw [elementType_array] at known
    split at known
    · next inside =>
        cases known
        rw [Fits] at fits
        obtain ⟨fitsElem, small⟩ := fits.2.resolve_left (Nat.ne_of_gt (Nat.zero_lt_of_lt inside))
        obtain rfl := padding.resolve_right fun other => other.2.2 small
        have membersFit := (membersFit_replicate dl elem (arrayPadding dl elem) n 0).2
          (.inr ⟨fitsElem, small⟩)
        have alloc := dl.store_le_alloc elem
        have gap : arrayPadding dl elem = dl.typeAllocSize elem - dl.typeStoreSize elem := rfl
        refine ⟨structMembers_visible inner membersFit fun other member child translated => ?_, ?_⟩
        · cases (List.mem_replicate.1 member).2
          exact visible k elem child (if_pos inside) translated
        · have offset := structMembers_offset (· * dl.typeAllocSize elem) 0 inner
            (fun other member =>
              (List.mem_replicate.1 member).2 ▸ sizeSpec totalBits elem inMemory)
            membersFit
            (fun j other known => by
              cases (List.mem_replicate.1 (List.mem_of_getElem? known)).2
              rw [Nat.succ_mul (0 + j)]
              omega)
            (by
              rw [Nat.zero_add, List.length_replicate, ← dl.store_array]
              exact fits.1) field
          rw [Nat.zero_mul, Nat.zero_add, Nat.zero_add] at offset
          exact offset
    · cases known
  | _ => cases known

/-- The translated type is laid out as the data layout says if and only if the sizes fit an
`unsigned`, the padding fits an integer type, and no element is skipped. -/
theorem storeLayout_preserves_iff
    (inMemory : ty.InMemory) (translated : llvmType2Alive dl ty = some aty) :
    PreservesLayout dl totalBits ty aty ↔ Fits dl ty ∧ ElementsVisible dl totalBits ty := by
  have sizeIff := (sizeSpec totalBits ty inMemory aty translated).2
  constructor
  · intro preserves
    refine ⟨sizeIff.1 preserves.size, fun k elem child known translatedElem => ?_⟩
    obtain ⟨kind, children, isPadding, place, found, rfl, element⟩ :=
      translated_element translated known
    obtain ⟨other, field, stored, -⟩ :=
      preserves.offsets k elem kind children isPadding known rfl
    cases element.field.symm.trans field
    obtain ⟨-, child', here, bits⟩ := bits_of_mem_storeOffsets stored
    rw [Nat.sub_zero, element.found] at here
    cases here
    cases element.translated.symm.trans translatedElem
    exact bits
  · rintro ⟨fits, visible⟩
    refine ⟨sizeIff.2 fits, ?_⟩
    rintro k elem kind children isPadding known rfl
    obtain ⟨_, _, _, place, child, same, element⟩ := translated_element translated known
    cases same
    obtain ⟨bits, offset⟩ := offsets_of_fits inMemory translated fits visible known element.field
    refine ⟨place, element.field, ?_, ?_⟩
    · rw [storeOffsets_eq bits]
      exact offset
    · rw [mem_loadOffsets_iff, fieldAt_get element.field]
      exact ⟨offset, by decide⟩

end

theorem storeLayout_preserves_nested :
    PreservesLayout x86Layout 72 (.array 3 (.struct false [int 8, int 32, int 8]))
      (arrayType 3 (.aggregate .struct
        [.scalar (.integer 8), .scalar (.integer 24), .scalar (.integer 32),
          .scalar (.integer 8), .scalar (.integer 24)]
        [false, true, false, false, true]) none) := by
  have translated : llvmType2Alive x86Layout (.array 3 (.struct false [int 8, int 32, int 8])) =
      some (arrayType 3 (.aggregate .struct
        [.scalar (.integer 8), .scalar (.integer 24), .scalar (.integer 32),
          .scalar (.integer 8), .scalar (.integer 24)] [false, true, false, false, true]) none) :=
    rfl
  have inMemory : (LType.array 3 (.struct false [int 8, int 32, int 8])).InMemory := by
    simp only [LType.InMemory, membersInMemory, int, and_self]
  refine (storeLayout_preserves_iff inMemory translated).2 ⟨?_, ?_⟩
  · simp only [Fits, MembersFit, SmallPadding, int]
    decide
  · rintro k elem child known inner
    rw [elementType_array] at known
    split at known
    · cases known
      cases inner
      decide
    · cases known

/-- An array of two vectors of 4104 bytes each, which are 8192 bytes apart: the 4088 bytes of
padding have no integer type. -/
theorem storeLayout_drops_padding :
    ¬∀ (dl : DataLayout) (totalBits : Nat) (ty : LType) (aty : AType), ty.InMemory →
      llvmType2Alive dl ty = some aty → PreservesLayout dl totalBits ty aty := by
  intro claim
  have inMemory : (LType.array 2 (.fixedVector 513 (.integer 64))).InMemory := by
    simp only [LType.InMemory]
    decide
  have translated : llvmType2Alive x86Layout (.array 2 (.fixedVector 513 (.integer 64))) =
      some (arrayType 2 (.aggregate .vector (List.replicate 513 (.scalar (.integer 64)))
        (List.replicate 513 false)) none) :=
    rfl
  have fits := (sizeSpec 72 _ inMemory _ translated).2.1
    (claim x86Layout 72 _ _ inMemory translated).size
  rw [Fits] at fits
  rcases fits.2 with none | ⟨-, small⟩
  · exact absurd none (by decide)
  · unfold SmallPadding at small
    exact absurd small (by decide)

end AliveNext.LLVM.Types
