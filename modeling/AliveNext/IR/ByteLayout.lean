import AliveNext.IR.ByteFacts

/-!
# The layout of a byte

The constructors of `Byte` place the fields in the order in which they concatenate them, and
the accessors compute the place of each field from formulas of their own
(`ir/memory.cpp`). Assembly mode is left out.
-/

namespace AliveNext.IR

open TypedByte

namespace ByteLayout

variable (p : Params)

def storedNonPoison (nonPoison : NonPoison) : Bits :=
  match nonPoison with
  | .bool b => if b then Bits.ones p.bitsPoisonPerByte else Bits.zeros p.bitsPoisonPerByte
  | .bv bits => bits

def ofInt (v : StateValue) (bitsRead byteNumber : Nat) : Bits :=
  intByte p v.value (storedNonPoison p v.nonPoison) bitsRead byteNumber

def ofPtr (ptr : Bits) (nonPoison : Bool) (i : Nat) : Bits := ptrByte p ptr nonPoison i

/-- `Byte::mkPoisonByte`. -/
def mkPoisonByte : Bits := ofInt p ⟨Bits.zeros p.bitsByte, .bool false⟩ 0 1

structure WellSized (v : StateValue) : Prop where
  value : v.value.length = p.bitsByte
  nonPoison : ∀ bits, v.nonPoison = .bv bits → bits.length = p.bitsPoisonPerByte

structure Field where
  start : Nat
  width : Nat

def Field.Apart (a b : Field) : Prop := a.start + a.width ≤ b.start ∨ b.start + b.width ≤ a.start

def ptrFields : List Field :=
  [⟨p.paddingPtrByte, p.bitsPtrByteOffset⟩, ⟨p.bitsPtrByteOffset + p.paddingPtrByte, p.pointerBits⟩,
    ⟨p.byteWidth - 1 - p.byteHasPtrBit.toNat, 1⟩,
    ⟨p.byteWidth - p.byteHasPtrBit.toNat, p.byteHasPtrBit.toNat⟩]

/-- Where the accessors of integer bytes read. -/
def intFields : List Field :=
  [⟨p.paddingNonptrByte, p.sizeByteNumber⟩,
    ⟨p.paddingNonptrByte + p.sizeByteNumber, p.numSubByteBits⟩,
    ⟨p.paddingNonptrByte + p.subByteBits, p.bitsByte⟩,
    ⟨p.paddingNonptrByte + p.bitsByte + p.subByteBits, p.bitsPoisonPerByte⟩,
    ⟨p.byteWidth - p.byteHasPtrBit.toNat, p.byteHasPtrBit.toNat⟩]

/-- What the accessors read in a pointer byte. -/
structure ReadsPtr (b ptr : Bits) (nonPoison : Bool) (i : Nat) : Prop where
  width : b.length = p.byteWidth
  isPtr : byteIsPtr p b = true
  np : ptrNonpoison p b = nonPoison
  value : ptrValue p b = ptr
  offset : ptrByteoffset p b = Bits.ofNat i (max 1 p.bitsPtrByteOffset)
  poison : byteIsPoison p b = !nonPoison

/-- What the accessors read in an integer byte. -/
structure ReadsInt (b : Bits) (v : StateValue) (bitsRead byteNumber : Nat) : Prop where
  width : b.length = p.byteWidth
  isPtr : byteIsPtr p b = false
  np : nonptrNonpoison p b = storedNonPoison p v.nonPoison
  value : nonptrValue p b = v.value
  storedBits : p.numSubByteBits ≠ 0 → numStoredBits p b =
    Bits.ofNat (if bitsRead % 8 = 0 then 0 else bitsRead) p.numSubByteBits
  number : p.numSubByteBits ≠ 0 → TypedByte.byteNumber p b = Bits.ofNat byteNumber p.sizeByteNumber
  poison : byteIsPoison p b = !v.nonPoison.isOnes

/-- What they read in a byte whose kind does not occur. -/
structure ReadsNothing (b : Bits) : Prop where
  width : b.length = p.byteWidth
  value : ptrValue p b = Bits.zeros p.pointerBits
  value' : nonptrValue p b = Bits.zeros p.bitsByte
  poison : byteIsPoison p b = true

structure Layout (fields : List Field) : Prop where
  apart : fields.Pairwise Field.Apart
  inside : ∀ f ∈ fields, f.start + f.width ≤ p.byteWidth

variable {p}

theorem ptrFields_layout (ptrs : p.doesPtrMemAccess = true) : Layout p (ptrFields p) := by
  have width := ptr_width ptrs
  constructor
  · simp only [ptrFields, List.pairwise_cons, List.forall_mem_cons, Field.Apart]
    refine ⟨⟨?_, ?_, ?_, by simp⟩, ⟨?_, ?_, by simp⟩, ⟨?_, by simp⟩, by simp⟩ <;> omega
  · simp only [ptrFields, List.forall_mem_cons]
    refine ⟨?_, ?_, ?_, ?_, by simp⟩ <;> omega

theorem intFields_layout (ints : p.doesIntMemAccess = true) : Layout p (intFields p) := by
  have width := int_width ints
  have sub : p.subByteBits = p.numSubByteBits + p.sizeByteNumber := rfl
  constructor
  · simp only [intFields, List.pairwise_cons, List.forall_mem_cons, Field.Apart]
    refine ⟨⟨?_, ?_, ?_, ?_, by simp⟩, ⟨?_, ?_, ?_, by simp⟩, ⟨?_, ?_, by simp⟩, ⟨?_, by simp⟩,
      by simp⟩ <;> omega
  · simp only [intFields, List.forall_mem_cons]
    refine ⟨?_, ?_, ?_, ?_, ?_, by simp⟩ <;> omega

section

variable {ptr : Bits} {nonPoison : Bool} {i : Nat}

variable (ptrs : p.doesPtrMemAccess = true) (size : ptr.length = p.pointerBits)

include ptrs size

theorem length_ofPtr : (ofPtr p ptr nonPoison i).length = p.byteWidth := by
  have width := ptr_width ptrs
  rw [ofPtr, ptrByte_eq ptrs]
  simp [length_tag, size]
  omega

theorem byteIsPoison_ofPtr : byteIsPoison p (ofPtr p ptr nonPoison i) = !nonPoison := by
  have same : isPoison p ⟨ptrByte p ptr nonPoison i, ⟨true, true⟩⟩ = !nonPoison :=
    isPoison_ptrByte ptrs size rfl
  exact same

theorem readsPtr (number : i = 0 ∨ 0 < p.bitsPtrByteOffset) :
    ReadsPtr p (ofPtr p ptr nonPoison i) ptr nonPoison i where
  width := length_ofPtr ptrs size
  isPtr := byteIsPtr_ptrByte ptrs size
  np := ptrNonpoison_ptrByte ptrs size
  value := ptrValue_ptrByte ptrs size
  offset := by
    rw [ofPtr, ptrByteoffset_ptrByte ptrs]
    split
    · next none =>
        rcases number with rfl | some
        · rw [none]
          rfl
        · omega
    · next some => rw [max_eq_right (Nat.pos_of_ne_zero some)]
  poison := byteIsPoison_ofPtr ptrs size

end

section

variable {v : StateValue} {bitsRead number : Nat}

theorem length_storedNonPoison
    (sized : WellSized p v) : (storedNonPoison p v.nonPoison).length = p.bitsPoisonPerByte := by
  cases same : v.nonPoison with
  | bool b => cases b <;> simp [storedNonPoison]
  | bv bits => exact sized.nonPoison bits same

theorem isOnes_storedNonPoison (some : 0 < p.bitsPoisonPerByte) (nonPoison : NonPoison) :
    (storedNonPoison p nonPoison).isOnes = nonPoison.isOnes := by
  cases nonPoison with
  | bv bits => rfl
  | bool b =>
    cases b with
    | false => exact Bits.isOnes_replicate some false
    | true => exact Bits.isOnes_replicate some true

theorem length_ofInt (ints : p.doesIntMemAccess = true)
    (sized : WellSized p v) : (ofInt p v bitsRead number).length = p.byteWidth := by
  have width := int_width ints
  rw [ofInt, intByte_eq ints]
  simp [length_tag, length_subTag, sized.value, length_storedNonPoison sized]
  omega

theorem readsInt (ints : p.doesIntMemAccess = true) (some : 0 < p.bitsPoisonPerByte)
    (sized : WellSized p v) : ReadsInt p (ofInt p v bitsRead number) v bitsRead number := by
  have size := length_storedNonPoison sized
  have isPtr : byteIsPtr p (ofInt p v bitsRead number) = false :=
    byteIsPtr_intByte ints sized.value size
  have np : nonptrNonpoison p (ofInt p v bitsRead number) = storedNonPoison p v.nonPoison :=
    nonptrNonpoison_intByte ints sized.value size
  refine ⟨length_ofInt ints sized, isPtr, np, nonptrValue_intByte ints sized.value,
    fun sub => numStoredBits_intByte ints sub, fun sub => byteNumber_intByte ints sub, ?_⟩
  unfold byteIsPoison
  rw [ints, np, isPtr, isOnes_storedNonPoison some, Bool.not_true, if_neg Bool.false_ne_true,
    if_neg Bool.false_ne_true, ite_self]

end

theorem readsNothing
    (some : 0 < p.bitsPoisonPerByte) : ReadsNothing p (Bits.zeros p.byteWidth) := by
  have slices : ∀ low width, low + width ≤ p.byteWidth →
      (Bits.zeros p.byteWidth).slice low width = Bits.zeros width :=
    fun low width fits => Bits.slice_replicate false fits
  have value : ptrValue p (Bits.zeros p.byteWidth) = Bits.zeros p.pointerBits := by
    unfold ptrValue
    split
    · next ptrs =>
        have width := ptr_width ptrs
        exact slices _ _ (by omega)
    · rfl
  have value' : nonptrValue p (Bits.zeros p.byteWidth) = Bits.zeros p.bitsByte := by
    unfold nonptrValue
    split
    · next ints =>
        have width := int_width ints
        exact slices _ _ (by omega)
    · rfl
  refine ⟨Bits.length_zeros _, value, value', ?_⟩
  have np : ptrNonpoison p (Bits.zeros p.byteWidth) = false := Bits.bit_zeros _ _
  unfold byteIsPoison
  split
  · rw [np]
    split <;> rfl
  · next ints =>
      have ints : p.doesIntMemAccess = true := by simpa using ints
      have width := int_width ints
      have poison : nonptrNonpoison p (Bits.zeros p.byteWidth) =
          Bits.zeros p.bitsPoisonPerByte := by
        rw [nonptrNonpoison, if_pos ints]
        exact slices _ _ (by omega)
      have notOnes : (Bits.zeros p.bitsPoisonPerByte).isOnes = false :=
        Bits.isOnes_replicate some false
      rw [poison, notOnes, np]
      split
      · rfl
      · split <;> rfl

theorem mkPoisonByte_poison
    (some : 0 < p.bitsPoisonPerByte) : byteIsPoison p (mkPoisonByte p) = true := by
  cases ints : p.doesIntMemAccess with
  | true =>
    have sized : WellSized p ⟨Bits.zeros p.bitsByte, .bool false⟩ :=
      ⟨Bits.length_zeros _, fun _ same => NonPoison.noConfusion same⟩
    exact (readsInt ints some sized).poison
  | false =>
    unfold mkPoisonByte ofInt intByte
    rw [ints]
    exact (readsNothing some).poison

/-- A byte of a kind that occurs reads back as what it was made of, and its fields are apart.
A byte of a kind that does not occur is poison. -/
theorem byte_round_trip (some : 0 < p.bitsPoisonPerByte) :
    (p.doesPtrMemAccess = true → Layout p (ptrFields p) ∧
      ∀ (ptr : Bits) (nonPoison : Bool) (i : Nat), ptr.length = p.pointerBits →
        (i = 0 ∨ 0 < p.bitsPtrByteOffset) →
        ReadsPtr p (ofPtr p ptr nonPoison i) ptr nonPoison i) ∧
    (p.doesIntMemAccess = true → Layout p (intFields p) ∧
      ∀ (v : StateValue) (bitsRead number : Nat), WellSized p v →
        ReadsInt p (ofInt p v bitsRead number) v bitsRead number) ∧
    (p.doesPtrMemAccess = false → ∀ ptr nonPoison i, ReadsNothing p (ofPtr p ptr nonPoison i)) ∧
    (p.doesIntMemAccess = false → ∀ v bitsRead number,
      ReadsNothing p (ofInt p v bitsRead number)) := by
  refine ⟨fun ptrs => ⟨ptrFields_layout ptrs, fun ptr nonPoison i size number =>
      readsPtr ptrs size number⟩,
    fun ints => ⟨intFields_layout ints, fun v bitsRead number sized => readsInt ints some sized⟩,
    fun ptrs ptr nonPoison i => ?_, fun ints v bitsRead number => ?_⟩
  · rw [ofPtr, ptrByte, ptrs]
    exact readsNothing some
  · rw [ofInt, intByte, ints]
    exact readsNothing some

def mixed : Params where
  bitsByte := 8
  bitsPoisonPerByte := 1
  numSubByteBits := 5
  bitsProgramPointer := 64
  pointerBits := 68
  littleEndian := true
  doesIntLoad := true
  doesIntStore := true
  doesPtrLoad := true
  doesPtrStore := false
  disallowUbExploitation := false
  getAddress := id
  autoCast := id

theorem byte_round_trip_mixed :
    ReadsInt mixed (ofInt mixed ⟨Bits.zeros 8, .bool true⟩ 17 2) ⟨Bits.zeros 8, .bool true⟩ 17 2 :=
  ((byte_round_trip (p := mixed) Nat.zero_lt_one).2.1 rfl).2 _ 17 2
    ⟨rfl, fun _ same => NonPoison.noConfusion same⟩

/-- The number of stored bits of an access to 24 bits does not read back. -/
theorem stored_bits_of_whole_bytes :
    numStoredBits mixed (ofInt mixed ⟨Bits.zeros 8, .bool true⟩ 24 0) = Bits.ofNat 0 5 ∧
      Bits.ofNat 0 5 ≠ Bits.ofNat 24 5 := by
  have read : numStoredBits mixed (ofInt mixed ⟨Bits.zeros 8, .bool true⟩ 24 0) =
      Bits.ofNat 0 5 := numStoredBits_intByte rfl (by decide)
  exact ⟨read, by decide⟩

end ByteLayout

end AliveNext.IR
