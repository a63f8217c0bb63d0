import AliveNext.IR.LeafFacts

/-!
# Refinement of bytes

`TypedByte::refined` of `ir/memory.cpp`. Integer bytes are compared one poison group at a
time, in three encodings that depend on the number of poison bits; a pointer byte may be
replaced with an integer if it has no provenance.
-/

namespace AliveNext.IR

/-- What the comparison asks of the pointers in bytes: `noProvenance` is that a logical
pointer is one of block 0. -/
structure PtrView where
  noProvenance : Bits → Bool
  refined : Bits → Bits → Bool

namespace TypedByte

variable (p : Params)

/-! ## Assembly mode -/

/-- `Byte::nonptrNonpoison`, where there is no poison in assembly mode. -/
def nonptrNonpoisonIn (asm : Bool) (b : Bits) : Bits :=
  if p.doesIntMemAccess && asm then Bits.ones p.bitsPoisonPerByte else nonptrNonpoison p b

/-- `Byte::ptrNonpoison`. -/
def ptrNonpoisonIn (asm : Bool) (b : Bits) : Bool := asm || ptrNonpoison p b

/-- `Byte::boolNonptrNonpoison`. -/
def boolNonptrNonpoison (asm : Bool) (b : Bits) : Bool := (nonptrNonpoisonIn p asm b).isOnes

/-- `Byte::nonPoison`. -/
def byteNonPoison (asm : Bool) (b : Bits) : Bits :=
  if asm then Bits.ones p.bitsPoisonPerByte
  else if !p.doesIntMemAccess then [ptrNonpoison p b]
  else
    let np := nonptrNonpoison p b
    if p.byteHasPtrBit && p.bitsPoisonPerByte = 1 then np
    else if byteIsPtr p b then List.replicate np.length (ptrNonpoison p b)
    else np

def nonPoison (asm : Bool) (b : TypedByte) : Bits :=
  if asm then Bits.ones p.bitsPoisonPerByte
  else match b.type.int, b.type.ptr with
    | false, false => Bits.zeros p.bitsPoisonPerByte
    | true, false => nonptrNonpoison p b.byte
    | true, true => byteNonPoison p false b.byte
    | false, true =>
      if !p.doesIntMemAccess then [ptrNonpoison p b.byte]
      else List.replicate p.bitsPoisonPerByte (ptrNonpoison p b.byte)

/-! ## Refinement -/

def bitsVal : Nat := p.bitsByte / p.bitsPoisonPerByte

/-- The values and poison bits of integer bytes. `same i` is that the simplifier sees the
same term in both bits `i` of the poison bits. -/
def valuesRefined (same : Nat → Bool) (v1 v2 np1 np2 : Bits) : Bool :=
  if !p.doesIntStore then true
  else if p.bitsPoisonPerByte = p.bitsByte then
    Bits.and np2 np1 = np1 && Bits.and v1 np1 = Bits.and v2 np1
  else if 1 < p.bitsPoisonPerByte then
    (List.range p.bitsPoisonPerByte).all fun i =>
      let ev1 := v1.slice (i * bitsVal p) (bitsVal p)
      let ev2 := v2.slice (i * bitsVal p) (bitsVal p)
      !np1.bit i || ((same i || np2.bit i) && ev1 = ev2)
  else !np1.bit 0 || ((same 0 || np2.bit 0) && v1 = v2)

def intRefined (asm asm' : Bool) (same : Nat → Bool) (a b : TypedByte) : Bool :=
  let np1 := nonptrNonpoisonIn p asm a.byte
  let tags := asm' || p.numSubByteBits = 0 || np1 = Bits.zeros np1.length ||
    (numStoredBits p a.byte = numStoredBits p b.byte && byteNumber p a.byte = byteNumber p b.byte)
  tags && valuesRefined p same (nonptrValue p a.byte) (forceCastToInt p b) np1 (nonPoison p asm' b)

/-- `zextOrTrunc(bits_byte)` of an address. -/
def lowByte (address : Bits) : Bits :=
  Bits.slice (address ++ Bits.zeros p.bitsByte) 0 p.bitsByte

/-- The constraint on pointer bytes. -/
def ptrRefined (view : PtrView) (asm asm' : Bool) (a b : TypedByte) : Bool :=
  let samePtr := ptrNonpoisonIn p asm' b.byte && ptrByteoffset p a.byte = ptrByteoffset p b.byte &&
      view.refined (ptrValue p a.byte) (ptrValue p b.byte)
  if !p.doesPtrStore then true
  else if !p.doesIntStore then !ptrNonpoisonIn p asm a.byte || samePtr
  else
    let otherInt := nonptrValue p b.byte
    !ptrNonpoisonIn p asm a.byte ||
      if isPtr p b then samePtr
      else boolNonptrNonpoison p asm' b.byte &&
        if asm' then castPtrToInt p a.byte = otherInt
        else view.noProvenance (ptrValue p a.byte) &&
          lowByte p (p.getAddress (ptrValue p a.byte)) = otherInt

/-- `TypedByte::refined`; `asm` and `asm'` are the modes of the two memories. -/
def refined (view : PtrView) (asm asm' : Bool) (same : Nat → Bool) (a b : TypedByte) : Bool :=
  if isPtr p a then ptrRefined p view asm asm' a b else intRefined p asm asm' same a b

end TypedByte

section

open TypedByte

variable {p : Params}

/-- An integer byte in a block that may hold integers. Other blocks hold only poison. -/
structure TypedByte.NonPointer (p : Params) (b : TypedByte) : Prop where
  width : b.byte.length = p.byteWidth
  isPtr : isPtr p b = false
  typed : b.type.int = true ∨ nonptrNonpoison p b.byte = Bits.zeros p.bitsPoisonPerByte

def TypedByte.GroupRefined (p : Params) (a b : TypedByte) : Prop :=
  ∀ i < p.bitsPoisonPerByte, (nonptrNonpoison p a.byte).bit i = true →
    (nonptrNonpoison p b.byte).bit i = true ∧
      (nonptrValue p a.byte).slice (i * bitsVal p) (bitsVal p) =
        (nonptrValue p b.byte).slice (i * bitsVal p) (bitsVal p)

theorem length_nonptrValue {b : Bits} (ints : p.doesIntMemAccess = true)
    (width : b.length = p.byteWidth) : (nonptrValue p b).length = p.bitsByte := by
  have fields := int_width ints
  rw [nonptrValue, if_pos ints]
  exact Bits.length_slice (by omega)

theorem length_nonptrNonpoison {b : Bits} (ints : p.doesIntMemAccess = true)
    (width : b.length = p.byteWidth) : (nonptrNonpoison p b).length = p.bitsPoisonPerByte := by
  have fields := int_width ints
  rw [nonptrNonpoison, if_pos ints]
  exact Bits.length_slice (by omega)

theorem nonPoison_of_nonPointer {b : TypedByte} (ints : p.doesIntMemAccess = true)
    (some_bit : 0 < p.bitsPoisonPerByte) (nonptr : NonPointer p b) :
    nonPoison p false b = nonptrNonpoison p b.byte := by
  have fields := int_width ints
  have not_ptr := nonptr.isPtr
  unfold isPtr at not_ptr
  unfold nonPoison
  rw [if_neg Bool.noConfusion]
  rcases nonptr.typed with typed | poison
  · rw [typed]
    cases pointers : b.type.ptr with
    | false => rfl
    | true =>
      rw [pointers, Bool.true_and] at not_ptr
      simp [byteNonPoison, ints, not_ptr]
  · have top : ptrNonpoison p b.byte = false := by
      have bit := congrArg (fun x => Bits.bit x (p.bitsPoisonPerByte - 1)) poison
      rw [nonptrNonpoison, if_pos ints, Bits.bit_slice (by omega), Bits.bit_zeros] at bit
      rw [ptrNonpoison, ← bit]
      congr 1
      omega
    cases b.type.int with
    | true =>
      cases pointers : b.type.ptr with
      | false => rfl
      | true =>
        rw [pointers, Bool.true_and] at not_ptr
        simp [byteNonPoison, ints, not_ptr]
    | false =>
      cases b.type.ptr with
      | true =>
        simp only [ints, top]
        exact poison.symm
      | false => exact poison.symm

theorem forceCastToInt_of_nonPointer {b : TypedByte} (nonptr : NonPointer p b)
    (typed : b.type.int = true) : forceCastToInt p b = nonptrValue p b.byte := by
  have not_ptr := nonptr.isPtr
  unfold isPtr at not_ptr
  unfold forceCastToInt
  rw [typed]
  cases pointers : b.type.ptr with
  | false => rfl
  | true =>
    rw [pointers, Bool.true_and] at not_ptr
    simp only [not_ptr, Bool.false_eq_true, if_false]

section

variable {same : Nat → Bool} {v1 v2 np1 np2 : Bits}

theorem valuesRefined_iff (stores : p.doesIntStore = true) (some_bit : 0 < p.bitsPoisonPerByte)
    (size1 : v1.length = p.bitsByte) (size2 : v2.length = p.bitsByte)
    (np_size1 : np1.length = p.bitsPoisonPerByte) (np_size2 : np2.length = p.bitsPoisonPerByte)
    (sound : ∀ i, same i = true → np1.bit i = np2.bit i) :
    valuesRefined p same v1 v2 np1 np2 = true ↔ ∀ i < p.bitsPoisonPerByte, np1.bit i = true →
      np2.bit i = true ∧
        v1.slice (i * bitsVal p) (bitsVal p) = v2.slice (i * bitsVal p) (bitsVal p) := by
  have group : ∀ i (e : Bool), (!np1.bit i || ((same i || np2.bit i) && e)) = true ↔
      (np1.bit i = true → np2.bit i = true ∧ e = true) := by
    intro i e
    have known := sound i
    cases set : np1.bit i with
    | false => simp
    | true =>
      cases seen : same i with
      | false => simp
      | true =>
        have other := known seen
        rw [set] at other
        simp [← other]
  unfold valuesRefined
  rw [stores, Bool.not_true, if_neg Bool.noConfusion]
  split
  · next whole =>
    have single : bitsVal p = 1 := by
      rw [bitsVal, whole, Nat.div_self (by omega)]
    have slices : ∀ i < p.bitsByte, (v1.slice (i * 1) 1 = v2.slice (i * 1) 1 ↔
        v1.bit i = v2.bit i) := by
      intro i inside
      rw [Nat.mul_one]
      constructor
      · intro equal
        have bit := congrArg (fun x => Bits.bit x 0) equal
        rw [Bits.bit_slice Nat.one_pos, Bits.bit_slice Nat.one_pos] at bit
        exact bit
      · intro equal
        refine Bits.ext_bit (Bits.length_slice (by omega)) (Bits.length_slice (by omega)) ?_
        intro j below
        obtain rfl : j = 0 := by omega
        rw [Bits.bit_slice Nat.one_pos, Bits.bit_slice Nat.one_pos]
        exact equal
    rw [whole] at np_size1 np_size2
    rw [Bool.and_eq_true, decide_eq_true_eq, decide_eq_true_eq, single, whole]
    constructor
    · rintro ⟨nps, values⟩ i inside set
      have np := congrArg (fun x => Bits.bit x i) nps
      have value := congrArg (fun x => Bits.bit x i) values
      rw [Bits.bit_and np_size2 np_size1 inside, set, Bool.and_true] at np
      rw [Bits.bit_and size1 np_size1 inside, Bits.bit_and size2 np_size1 inside, set,
        Bool.and_true, Bool.and_true] at value
      exact ⟨np, (slices i inside).2 value⟩
    · intro groups
      constructor
      · refine Bits.ext_bit (Bits.length_and np_size2 np_size1) np_size1 fun i inside => ?_
        rw [Bits.bit_and np_size2 np_size1 inside]
        cases set : np1.bit i with
        | false => exact Bool.and_false _
        | true => rw [(groups i inside set).1, Bool.and_true]
      · refine Bits.ext_bit (Bits.length_and size1 np_size1) (Bits.length_and size2 np_size1)
          fun i inside => ?_
        rw [Bits.bit_and size1 np_size1 inside, Bits.bit_and size2 np_size1 inside]
        cases set : np1.bit i with
        | false => rw [Bool.and_false, Bool.and_false]
        | true => rw [(slices i inside).1 (groups i inside set).2]
  · split
    · rw [List.all_eq_true]
      simp only [List.mem_range]
      refine forall_congr' fun i => forall_congr' fun _ => ?_
      rw [group i, decide_eq_true_eq]
    · obtain single : p.bitsPoisonPerByte = 1 := by omega
      have whole : bitsVal p = p.bitsByte := by
        rw [bitsVal, single, Nat.div_one]
      rw [group 0, decide_eq_true_eq, single, whole]
      constructor
      · intro first i inside set
        obtain rfl : i = 0 := by omega
        rw [Nat.zero_mul, Bits.slice_whole size1, Bits.slice_whole size2]
        exact first set
      · intro groups set
        have first := groups 0 Nat.one_pos set
        rw [Nat.zero_mul, Bits.slice_whole size1, Bits.slice_whole size2] at first
        exact first

end

section

variable {same : Nat → Bool} {a b c : TypedByte}

def TypedByte.SeesSame (p : Params) (a b : TypedByte) (same : Nat → Bool) : Prop :=
  ∀ i, same i = true → (nonptrNonpoison p a.byte).bit i = (nonPoison p false b).bit i

def TypedByte.SameTags (p : Params) (a b : TypedByte) : Prop :=
  p.numSubByteBits = 0 ∨ nonptrNonpoison p a.byte = Bits.zeros p.bitsPoisonPerByte ∨
    (numStoredBits p a.byte = numStoredBits p b.byte ∧ byteNumber p a.byte = byteNumber p b.byte)

theorem length_forceCastToInt_of_ints (ints : p.doesIntMemAccess = true)
    (width : b.byte.length = p.byteWidth) : (forceCastToInt p b).length = p.bitsByte := by
  unfold forceCastToInt
  cases b.type.int with
  | false =>
    cases b.type.ptr with
    | false => exact Bits.length_zeros _
    | true => exact length_castPtrToInt p b.byte
  | true =>
    cases b.type.ptr with
    | false => exact length_nonptrValue ints width
    | true =>
      dsimp only
      split
      · exact length_castPtrToInt p b.byte
      · exact length_nonptrValue ints width

theorem value_of_bit (ints : p.doesIntMemAccess = true) (nonptr : NonPointer p b) {i : Nat}
    (set : (nonPoison p false b).bit i = true) (some_bit : 0 < p.bitsPoisonPerByte) :
    forceCastToInt p b = nonptrValue p b.byte := by
  rcases nonptr.typed with typed | poison
  · exact forceCastToInt_of_nonPointer nonptr typed
  · rw [nonPoison_of_nonPointer ints some_bit nonptr, poison, Bits.bit_zeros] at set
    cases set

theorem refined_nonPointer_iff (view : PtrView) (stores : p.doesIntStore = true)
    (some_bit : 0 < p.bitsPoisonPerByte) (source : NonPointer p a) (target : NonPointer p b)
    (sees : SeesSame p a b same) :
    refined p view false false same a b = true ↔ SameTags p a b ∧ GroupRefined p a b := by
  have ints : p.doesIntMemAccess = true := by
    rw [Params.doesIntMemAccess, stores, Bool.or_true]
  have np_eq : nonptrNonpoisonIn p false a.byte = nonptrNonpoison p a.byte := by
    rw [nonptrNonpoisonIn, Bool.and_false, if_neg Bool.noConfusion]
  have np_size := length_nonptrNonpoison ints source.width
  have np_other := nonPoison_of_nonPointer ints some_bit target
  have np_size' : (nonPoison p false b).length = p.bitsPoisonPerByte := by
    rw [np_other]
    exact length_nonptrNonpoison ints target.width
  have values := valuesRefined_iff stores some_bit (length_nonptrValue ints source.width)
    (length_forceCastToInt_of_ints ints target.width) np_size np_size' sees
  have groups : valuesRefined p same (nonptrValue p a.byte) (forceCastToInt p b)
      (nonptrNonpoison p a.byte) (nonPoison p false b) = true ↔ GroupRefined p a b := by
    rw [values]
    refine forall_congr' fun i => forall_congr' fun _ => forall_congr' fun _ => ?_
    constructor
    · intro ⟨set, equal⟩
      rw [value_of_bit ints target set some_bit] at equal
      rw [np_other] at set
      exact ⟨set, equal⟩
    · intro ⟨set, equal⟩
      rw [← np_other] at set
      rw [value_of_bit ints target set some_bit]
      exact ⟨set, equal⟩
  unfold refined
  rw [source.isPtr, if_neg Bool.noConfusion]
  unfold intRefined
  dsimp only
  rw [np_eq, np_size, Bool.and_eq_true, groups]
  refine and_congr_left fun _ => ?_
  simp [SameTags, or_assoc]

theorem groupRefined_refl (a : TypedByte) : GroupRefined p a a :=
  fun _ _ set => ⟨set, rfl⟩

theorem groupRefined_trans (first : GroupRefined p a b) (second : GroupRefined p b c) :
    GroupRefined p a c := by
  intro i inside set
  have ⟨set', equal⟩ := first i inside set
  have ⟨set'', equal'⟩ := second i inside set'
  exact ⟨set'', equal.trans equal'⟩

theorem sameTags_trans (width : a.byte.length = p.byteWidth) (ints : p.doesIntMemAccess = true)
    (tags : SameTags p a b) (tags' : SameTags p b c) (groups : GroupRefined p a b) :
    SameTags p a c := by
  rcases tags with none | poison | ⟨stored, number⟩
  · exact .inl none
  · exact .inr (.inl poison)
  · rcases tags' with none | poison | ⟨stored', number'⟩
    · exact .inl none
    · refine .inr (.inl ?_)
      refine Bits.ext_bit (length_nonptrNonpoison ints width) (Bits.length_zeros _) ?_
      intro i inside
      rw [Bits.bit_zeros, Bool.eq_false_iff]
      intro set
      have set' := (groups i inside set).1
      rw [poison, Bits.bit_zeros] at set'
      cases set'
    · exact .inr (.inr ⟨stored.trans stored', number.trans number'⟩)

end

/-- Where integers are stored, the refinement of integer bytes outside assembly mode is that
of their poison groups, and it is a preorder. -/
theorem TypedByte.refined_groups (p : Params) (stores : p.doesIntStore = true)
    (some_bit : 0 < p.bitsPoisonPerByte) (view : PtrView) :
    (∀ same a b, NonPointer p a → NonPointer p b → SeesSame p a b same →
      (refined p view false false same a b = true → GroupRefined p a b) ∧
      (p.numSubByteBits = 0 →
        (refined p view false false same a b = true ↔ GroupRefined p a b))) ∧
    (∀ same a, NonPointer p a → SeesSame p a a same →
      refined p view false false same a a = true) ∧
    (∀ same same' same'' a b c, NonPointer p a → NonPointer p b → NonPointer p c →
      SeesSame p a b same → SeesSame p b c same' → SeesSame p a c same'' →
      refined p view false false same a b = true → refined p view false false same' b c = true →
      refined p view false false same'' a c = true) := by
  have ints : p.doesIntMemAccess = true := by
    rw [Params.doesIntMemAccess, stores, Bool.or_true]
  refine ⟨?_, ?_, ?_⟩
  · intro same a b source target sees
    have both := refined_nonPointer_iff view stores some_bit source target sees
    constructor
    · intro holds
      exact (both.1 holds).2
    · intro no_tags
      rw [both]
      exact and_iff_right (.inl no_tags)
  · intro same a source sees
    rw [refined_nonPointer_iff view stores some_bit source source sees]
    exact ⟨.inr (.inr ⟨rfl, rfl⟩), groupRefined_refl a⟩
  · intro same same' same'' a b c one two three sees sees' sees'' first second
    rw [refined_nonPointer_iff view stores some_bit one two sees] at first
    rw [refined_nonPointer_iff view stores some_bit two three sees'] at second
    rw [refined_nonPointer_iff view stores some_bit one three sees'']
    exact ⟨sameTags_trans one.width ints first.1 second.1 first.2,
      groupRefined_trans first.2 second.2⟩

/-- Bytes of 8 bits with one poison bit, and physical pointers of 16 bits: an address with a
bit above it. -/
def smallParams (doesIntStore : Bool) : Params where
  bitsByte := 8
  bitsPoisonPerByte := 1
  numSubByteBits := 0
  bitsProgramPointer := 16
  pointerBits := 17
  littleEndian := true
  doesIntLoad := true
  doesIntStore := doesIntStore
  doesPtrLoad := false
  doesPtrStore := true
  disallowUbExploitation := false
  getAddress := List.take 16
  autoCast := id

def valueByte (p : Params) (value : Nat) : TypedByte where
  byte := intByte p (Bits.ofNat value 8) [true] 8 0
  type := { int := true }

theorem refined_groups_smallParams :
    TypedByte.refined (smallParams true) ⟨fun _ => true, fun _ _ => true⟩ false false
      (fun _ => false) (valueByte (smallParams true) 1) (valueByte (smallParams true) 1) = true :=
  (TypedByte.refined_groups (smallParams true) rfl Nat.one_pos ⟨_, _⟩).2.1 _ _
    ⟨by decide, by decide, .inl rfl⟩ fun _ seen => absurd seen Bool.false_ne_true

/-- Where only pointers are stored, integer bytes are not compared. -/
theorem refined_groups_of_no_store :
    ¬∀ (p : Params) (view : PtrView) (same : Nat → Bool) (a b : TypedByte),
      0 < p.bitsPoisonPerByte → p.numSubByteBits = 0 → NonPointer p a → NonPointer p b →
      SeesSame p a b same →
      (refined p view false false same a b = true ↔ GroupRefined p a b) := by
  intro claim
  have groups := (claim (smallParams false) ⟨fun _ => true, fun _ _ => true⟩ (fun _ => false)
    (valueByte (smallParams false) 1) (valueByte (smallParams false) 2) Nat.one_pos rfl
    ⟨by decide, by decide, .inl rfl⟩ ⟨by decide, by decide, .inl rfl⟩
    fun _ seen => nomatch seen).1 (by decide)
  have values := (groups 0 Nat.one_pos (by decide)).2
  revert values
  decide

end

section

open TypedByte

variable {p : Params}

def addressByte (p : Params) (address : Bits) (start : Nat) : Bits :=
  Bits.slice (address.drop start ++ Bits.zeros p.bitsByte) 0 p.bitsByte

theorem length_addressByte (p : Params) (address : Bits) (start : Nat) :
    (addressByte p address start).length = p.bitsByte :=
  Bits.length_slice (by rw [List.length_append, Bits.length_zeros]; omega)

theorem lowByte_eq (p : Params) (address : Bits) : lowByte p address = addressByte p address 0 := by
  rw [addressByte, List.drop_zero]
  rfl

/-- The position that `castPtrToInt` reads the byte of an address at. -/
def readPosition (p : Params) (addressBits i : Nat) : Nat :=
  i % 2 ^ p.bitsPtrByteOffset * p.bitsByte % 2 ^ addressBits

variable {view : PtrView} {ptr : Bits} {i : Nat}

theorem castPtrToInt_ptrByte (ptrs : p.doesPtrMemAccess = true)
    (size : ptr.length = p.pointerBits) {nonPoison : Bool} :
    castPtrToInt p (ptrByte p ptr nonPoison i) =
      addressByte p (p.getAddress ptr) (readPosition p (p.getAddress ptr).length i) := by
  have number : (ptrByteoffset p (ptrByte p ptr nonPoison i)).foldr
      (fun bit n => 2 * n + bit.toNat) 0 = i % 2 ^ p.bitsPtrByteOffset := by
    rw [ptrByteoffset_ptrByte ptrs]
    split
    · next none =>
      rw [none, Nat.pow_zero, Nat.mod_one]
      rfl
    · exact Bits.foldr_ofNat i _
  unfold castPtrToInt
  rw [ptrValue_ptrByte ptrs size, number]
  rfl

theorem refined_ptrByte_iff (asm asm' : Bool) (same : Nat → Bool)
    (ptr_stores : p.doesPtrStore = true) (int_stores : p.doesIntStore = true)
    (size : ptr.length = p.pointerBits) {type : DataType}
    (typed : type.ptr = true) (free : view.noProvenance ptr = true) {b : TypedByte}
    (other : isPtr p b = false) (nonpoison : boolNonptrNonpoison p asm' b.byte = true) :
    refined p view asm asm' same ⟨ptrByte p ptr true i, type⟩ b = true ↔
      nonptrValue p b.byte = addressByte p (p.getAddress ptr)
        (if asm' then readPosition p (p.getAddress ptr).length i else 0) := by
  have ptrs : p.doesPtrMemAccess = true := by
    rw [Params.doesPtrMemAccess, ptr_stores, Bool.or_true]
  have source : isPtr p ⟨ptrByte p ptr true i, type⟩ = true := by
    rw [isPtr, typed, Bool.true_and]
    exact byteIsPtr_ptrByte ptrs size
  have set : ptrNonpoisonIn p asm (ptrByte p ptr true i) = true := by
    rw [ptrNonpoisonIn, ptrNonpoison_ptrByte ptrs size, Bool.or_true]
  unfold refined ptrRefined
  rw [source, if_pos rfl, ptr_stores, int_stores, Bool.not_true, if_neg Bool.noConfusion,
    if_neg Bool.noConfusion]
  dsimp only
  rw [set, other, nonpoison, castPtrToInt_ptrByte ptrs size, ptrValue_ptrByte ptrs size, free,
    lowByte_eq]
  cases asm' with
  | true => simp [eq_comm]
  | false => simp [eq_comm]

/-- An integer may stand for byte `i` of a pointer exactly if it is byte `i` of the address,
as long as `castPtrToInt` reads that byte and, outside assembly mode, the lowest byte of the
address is the same. -/
theorem TypedByte.refined_address_iff (p : Params) (ptr_stores : p.doesPtrStore = true)
    (int_stores : p.doesIntStore = true) (view : PtrView) (asm asm' : Bool) (same : Nat → Bool)
    (ptr : Bits) (size : ptr.length = p.pointerBits) (free : view.noProvenance ptr = true)
    (type : DataType) (typed : type.ptr = true) (i : Nat) :
    ((∀ b, isPtr p b = false → boolNonptrNonpoison p asm' b.byte = true →
        (refined p view asm asm' same ⟨ptrByte p ptr true i, type⟩ b = true ↔
          nonptrValue p b.byte = addressByte p (p.getAddress ptr) (i * p.bitsByte))) ∧
      castPtrToInt p (ptrByte p ptr true i) =
        addressByte p (p.getAddress ptr) (i * p.bitsByte)) ↔
    addressByte p (p.getAddress ptr) (readPosition p (p.getAddress ptr).length i) =
        addressByte p (p.getAddress ptr) (i * p.bitsByte) ∧
      (asm' = true ∨ addressByte p (p.getAddress ptr) 0 =
        addressByte p (p.getAddress ptr) (i * p.bitsByte)) := by
  have ptrs : p.doesPtrMemAccess = true := by
    rw [Params.doesPtrMemAccess, ptr_stores, Bool.or_true]
  have ints : p.doesIntMemAccess = true := by
    rw [Params.doesIntMemAccess, int_stores, Bool.or_true]
  rw [castPtrToInt_ptrByte ptrs size]
  constructor
  · intro ⟨accepts, cast⟩
    refine ⟨cast, ?_⟩
    by_cases mode : asm' = true
    · exact .inl mode
    · rw [Bool.not_eq_true] at mode
      subst mode
      -- the lowest byte of the address, as an integer
      have value_size := length_addressByte p (p.getAddress ptr) 0
      have nonpoison : boolNonptrNonpoison p false (intByte p (addressByte p (p.getAddress ptr) 0)
          (Bits.ones p.bitsPoisonPerByte) 8 0) = true := by
        rw [boolNonptrNonpoison, nonptrNonpoisonIn, Bool.and_false, if_neg Bool.noConfusion,
          nonptrNonpoison_intByte ints value_size (Bits.length_ones _)]
        exact (Bits.isOnes_iff (Bits.length_ones _)).2 fun _ inside =>
          Bits.bit_replicate true inside
      have expected := accepts ⟨intByte p (addressByte p (p.getAddress ptr) 0)
        (Bits.ones p.bitsPoisonPerByte) 8 0, { int := true }⟩ rfl nonpoison
      have accepted : refined p view asm false same ⟨ptrByte p ptr true i, type⟩
          ⟨intByte p (addressByte p (p.getAddress ptr) 0) (Bits.ones p.bitsPoisonPerByte) 8 0,
            { int := true }⟩ = true ↔ _ :=
        refined_ptrByte_iff asm false same ptr_stores int_stores size typed free rfl nonpoison
      have both := accepted.symm.trans expected
      rw [nonptrValue_intByte ints value_size] at both
      exact .inr (both.1 rfl)
  · intro ⟨cast, mode⟩
    refine ⟨?_, cast⟩
    intro b other nonpoison
    rw [refined_ptrByte_iff asm asm' same ptr_stores int_stores size typed free other nonpoison]
    by_cases assembly : asm' = true
    · rw [if_pos assembly, cast]
    · rw [if_neg assembly, mode.resolve_left assembly]

def physical258 : Bits :=
  Bits.ofNat 258 16 ++ [true]

theorem refined_address_physical258 :
    refined (smallParams true) ⟨fun _ => true, fun _ _ => true⟩ false false (fun _ => false)
      ⟨ptrByte (smallParams true) physical258 true 0, { ptr := true }⟩
      (valueByte (smallParams true) 2) = true :=
  (((TypedByte.refined_address_iff (smallParams true) rfl rfl ⟨fun _ => true, fun _ _ => true⟩
    false false (fun _ => false) physical258 rfl rfl { ptr := true } rfl 0).2
      ⟨by decide, .inr (by decide)⟩).1 _ rfl (by decide)).2 (by decide)

/-- Byte 1 of that address is 1, and the comparison wants the lowest byte, which is 2. -/
theorem refined_address_of_upper_byte :
    ¬∀ (p : Params) (view : PtrView) (same : Nat → Bool) (ptr : Bits) (i : Nat) (b : TypedByte),
      p.doesPtrStore = true → p.doesIntStore = true → ptr.length = p.pointerBits →
      view.noProvenance ptr = true → isPtr p b = false →
      boolNonptrNonpoison p false b.byte = true →
      (refined p view false false same ⟨ptrByte p ptr true i, { ptr := true }⟩ b = true ↔
        nonptrValue p b.byte = addressByte p (p.getAddress ptr) (i * p.bitsByte)) := by
  intro claim
  have accepted := (claim (smallParams true) ⟨fun _ => true, fun _ _ => true⟩ (fun _ => false)
    physical258 1 (valueByte (smallParams true) 1) rfl rfl rfl rfl rfl (by decide)).2 (by decide)
  revert accepted
  decide

end

end AliveNext.IR
