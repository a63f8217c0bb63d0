import AliveNext.IR.Constants

/-!
# Reading a byte back

Each accessor of a byte returns the segment that the constructor put there.
-/

namespace AliveNext.IR

open TypedByte

variable {p : Params}

theorem length_tag (p : Params) (isPtr : Bool) : (tag p isPtr).length = p.byteHasPtrBit.toNat := by
  unfold tag
  cases p.byteHasPtrBit <;> rfl

theorem bit_append_right {x y : Bits} {i j : Nat} (position : x.length + j = i) :
    Bits.bit (x ++ y) i = Bits.bit y j := by
  subst position
  simp [Bits.bit, List.getElem?_append_right]

def subTag (p : Params) (bitsRead byteNumber : Nat) : Bits :=
  if p.numSubByteBits = 0 then []
  else Bits.ofNat byteNumber p.sizeByteNumber ++
    Bits.ofNat (if bitsRead % 8 = 0 then 0 else bitsRead) p.numSubByteBits

theorem length_subTag (p : Params) (bitsRead byteNumber : Nat) :
    (subTag p bitsRead byteNumber).length = p.subByteBits := by
  unfold subTag Params.subByteBits
  split
  · rename_i none
    simp [none, Params.sizeByteNumber]
  · simp [Nat.add_comm]

theorem intByte_eq (ints : p.doesIntMemAccess = true) (value nonPoison : Bits)
    (bitsRead byteNumber : Nat) :
    intByte p value nonPoison bitsRead byteNumber = Bits.zeros p.paddingNonptrByte ++
        (subTag p bitsRead byteNumber ++ (value ++ (nonPoison ++ tag p false))) := by
  rw [intByte, if_pos ints]
  rfl

theorem int_width (ints : p.doesIntMemAccess = true) :
    p.paddingNonptrByte + p.subByteBits + p.bitsByte + p.bitsPoisonPerByte +
      p.byteHasPtrBit.toNat = p.byteWidth := by
  unfold Params.paddingNonptrByte Params.byteWidth Params.intByteBits Params.subByteBits
  rw [if_pos ints]
  omega

section

variable {value nonPoison : Bits} {bitsRead number : Nat}

variable (ints : p.doesIntMemAccess = true)

include ints

theorem nonptrValue_intByte (value_size : value.length = p.bitsByte) :
    nonptrValue p (intByte p value nonPoison bitsRead number) = value := by
  rw [nonptrValue, if_pos ints, intByte_eq ints, ← List.append_assoc,
    Bits.slice_above (by simp [length_subTag]), Bits.slice_first value_size]

theorem nonptrNonpoison_intByte (value_size : value.length = p.bitsByte)
    (np_size : nonPoison.length = p.bitsPoisonPerByte) :
    nonptrNonpoison p (intByte p value nonPoison bitsRead number) = nonPoison := by
  rw [nonptrNonpoison, if_pos ints, intByte_eq ints, ← List.append_assoc, ← List.append_assoc,
    Bits.slice_above (by simp [length_subTag, value_size]; omega), Bits.slice_first np_size]

theorem numStoredBits_intByte (sub : p.numSubByteBits ≠ 0) :
    numStoredBits p (intByte p value nonPoison bitsRead number) =
      Bits.ofNat (if bitsRead % 8 = 0 then 0 else bitsRead) p.numSubByteBits := by
  rw [numStoredBits, intByte_eq ints, subTag, if_neg sub, List.append_assoc, ← List.append_assoc,
    Bits.slice_above (by simp), Bits.slice_first (by simp)]

theorem byteNumber_intByte (sub : p.numSubByteBits ≠ 0) :
    byteNumber p (intByte p value nonPoison bitsRead number) =
      Bits.ofNat number p.sizeByteNumber := by
  rw [byteNumber, intByte_eq ints, subTag, if_neg sub, List.append_assoc,
    Bits.slice_above (by simp), Bits.slice_first (by simp)]

variable (value_size : value.length = p.bitsByte) (np_size : nonPoison.length = p.bitsPoisonPerByte)

include value_size np_size

theorem byteIsPtr_intByte : byteIsPtr p (intByte p value nonPoison bitsRead number) = false := by
  unfold byteIsPtr
  split
  · rename_i tagged
    have width := int_width ints
    rw [tagged, Bool.toNat_true] at width
    rw [intByte_eq ints, ← List.append_assoc, ← List.append_assoc, ← List.append_assoc,
      bit_append_right (j := 0) (by simp [length_subTag, value_size, np_size]; omega),
      tag, if_pos tagged]
    rfl
  · rename_i untagged
    simpa [Params.byteHasPtrBit, ints] using untagged

/-- A stored integer byte reads back as its value, and as poison if its tags are not those of
the byte that is read. -/
theorem byteToInt_tags {type : DataType} (typed : type.int = true) {bitsize place : Nat}
    {same : Bool}
    (tags : (decide (p.numSubByteBits = 0) ||
      (decide (numStoredBits p (intByte p value nonPoison bitsRead number) =
        Bits.ofNat (if bitsize % 8 = 0 then 0 else bitsize) p.numSubByteBits) &&
      decide (byteNumber p (intByte p value nonPoison bitsRead number) =
        Bits.ofNat place p.sizeByteNumber))) = same) :
    byteToInt p bitsize ⟨intByte p value nonPoison bitsRead number, type⟩ place =
      ⟨value, .bv (Bits.and (List.replicate p.bitsPoisonPerByte same) nonPoison)⟩ := by
  have not_ptr : byteIsPtr p (intByte p value nonPoison bitsRead number) = false :=
    byteIsPtr_intByte ints value_size np_size
  have is_ptr : isPtr p ⟨intByte p value nonPoison bitsRead number, type⟩ = false := by
    rw [isPtr, not_ptr, Bool.and_false]
  have cast : forceCastToInt p ⟨intByte p value nonPoison bitsRead number, type⟩ = value := by
    unfold forceCastToInt
    rw [typed]
    cases type.ptr with
    | false => exact nonptrValue_intByte ints value_size
    | true =>
      simp only [not_ptr, Bool.false_eq_true, if_false]
      exact nonptrValue_intByte ints value_size
  unfold byteToInt
  simp only [tags, is_ptr, Bool.and_false, Bool.false_eq_true, if_false, cast,
    nonptrNonpoison_intByte ints value_size np_size, np_size]

theorem byteToInt_intByte {type : DataType} (typed : type.int = true) (bitsize : Nat) :
    byteToInt p bitsize ⟨intByte p value nonPoison bitsize number, type⟩ number =
      ⟨value, .bv nonPoison⟩ := by
  have tags : (decide (p.numSubByteBits = 0) ||
      (decide (numStoredBits p (intByte p value nonPoison bitsize number) =
        Bits.ofNat (if bitsize % 8 = 0 then 0 else bitsize) p.numSubByteBits) &&
      decide (byteNumber p (intByte p value nonPoison bitsize number) =
        Bits.ofNat number p.sizeByteNumber))) = true := by
    by_cases sub : p.numSubByteBits = 0
    · simp [sub]
    · simp [numStoredBits_intByte ints sub, byteNumber_intByte ints sub]
  rw [byteToInt_tags ints value_size np_size typed tags]
  rw [show List.replicate p.bitsPoisonPerByte true = Bits.ones p.bitsPoisonPerByte from rfl,
    Bits.ones_and np_size]

end

theorem ptrByte_eq (ptrs : p.doesPtrMemAccess = true) (ptr : Bits) (nonPoison : Bool) (i : Nat) :
    ptrByte p ptr nonPoison i =
      Bits.zeros p.paddingPtrByte ++ (Bits.ofNat i p.bitsPtrByteOffset ++
        (ptr ++ ([nonPoison] ++ tag p true))) := by
  rw [ptrByte, if_pos ptrs]

theorem ptr_width (ptrs : p.doesPtrMemAccess = true) :
    p.paddingPtrByte + p.bitsPtrByteOffset + p.pointerBits + 1 + p.byteHasPtrBit.toNat =
      p.byteWidth := by
  unfold Params.paddingPtrByte Params.byteWidth Params.ptrByteBits
  rw [if_pos ptrs]
  omega

section

variable {ptr : Bits} {nonPoison : Bool} {i : Nat}

variable (ptrs : p.doesPtrMemAccess = true)

include ptrs

theorem ptrValue_ptrByte (size : ptr.length = p.pointerBits) :
    ptrValue p (ptrByte p ptr nonPoison i) = ptr := by
  rw [ptrValue, if_pos ptrs, ptrByte_eq ptrs, ← List.append_assoc,
    Bits.slice_above (by simp; omega), Bits.slice_first size]

theorem ptrByteoffset_ptrByte : ptrByteoffset p (ptrByte p ptr nonPoison i) =
      if p.bitsPtrByteOffset = 0 then Bits.zeros 1 else Bits.ofNat i p.bitsPtrByteOffset := by
  rw [ptrByteoffset, if_pos ptrs]
  split
  · rfl
  · rw [ptrByte_eq ptrs, Bits.slice_above (by simp), Bits.slice_first (by simp)]

theorem ptrNonpoison_ptrByte (size : ptr.length = p.pointerBits) :
    ptrNonpoison p (ptrByte p ptr nonPoison i) = nonPoison := by
  have width := ptr_width ptrs
  rw [ptrNonpoison, ptrByte_eq ptrs, ← List.append_assoc, ← List.append_assoc,
    bit_append_right (j := 0) (by simp [size]; omega)]
  rfl

theorem byteIsPtr_ptrByte (size : ptr.length = p.pointerBits) :
    byteIsPtr p (ptrByte p ptr nonPoison i) = true := by
  unfold byteIsPtr
  split
  · rename_i tagged
    have width := ptr_width ptrs
    rw [tagged, Bool.toNat_true] at width
    rw [ptrByte_eq ptrs, ← List.append_assoc, ← List.append_assoc, ← List.append_assoc,
      bit_append_right (j := 0) (by simp [size]; omega), tag, if_pos tagged]
    rfl
  · exact ptrs

theorem nonptrNonpoison_ptrByte (ints : p.doesIntMemAccess = true)
    (single : p.bitsPoisonPerByte = 1) (size : ptr.length = p.pointerBits) :
    nonptrNonpoison p (ptrByte p ptr nonPoison i) = [nonPoison] := by
  have width := ptr_width ptrs
  have width' := int_width ints
  rw [single] at width'
  rw [nonptrNonpoison, if_pos ints, ptrByte_eq ptrs, ← List.append_assoc, ← List.append_assoc,
    single, Bits.slice_above (by simp [size]; omega), Bits.slice_first (by simp)]

theorem isPoison_ptrByte (size : ptr.length = p.pointerBits) {type : DataType}
    (typed : type.ptr = true) : isPoison p ⟨ptrByte p ptr nonPoison i, type⟩ = !nonPoison := by
  have np : ptrNonpoison p (ptrByte p ptr nonPoison i) = nonPoison :=
    ptrNonpoison_ptrByte ptrs size
  have is_ptr : byteIsPtr p (ptrByte p ptr nonPoison i) = true := byteIsPtr_ptrByte ptrs size
  unfold isPoison
  rw [typed]
  cases type.int with
  | false => rw [np]
  | true =>
    show byteIsPoison p (ptrByte p ptr nonPoison i) = !nonPoison
    unfold byteIsPoison
    split
    · rw [np]
    · rename_i ints
      have ints : p.doesIntMemAccess = true := by simpa using ints
      split
      · rename_i single
        simp only [Bool.and_eq_true, decide_eq_true_eq] at single
        rw [nonptrNonpoison_ptrByte ptrs ints single.2 size]
        simp [Bits.isOnes]
      · rw [np]

end

end AliveNext.IR
