import AliveNext.IR.RoundTrip

/-!
# Loading a part of an integer

An integer of whole bytes is stored, and a part of it is loaded as an integer. Where some
access of the functions is not of whole bytes, each stored byte has its number in the value,
and a load wants its bytes numbered from zero.
-/

namespace AliveNext.IR

open TypedByte

variable {p : Params}

/-- The lowest unit of an integer of `count` units that a load of `size` units at `start`
reads. -/
def firstUnit (p : Params) (count start size : Nat) : Nat :=
  if p.littleEndian then start else count - start - size

def numbersAgree (p : Params) (first : Nat) : Bool :=
  p.numSubByteBits = 0 || first % 2 ^ p.sizeByteNumber = 0

theorem bitsByte_mod (whole : Whole p) (count : Nat) : count * p.bitsByte % 8 = 0 := by
  rw [whole.bitsByte_eq, Nat.mul_left_comm, Nat.mul_mod_right]

variable {value : Bits} {grain count : Nat}

theorem byteToInt_numbered (whole : Whole p) (ints : p.doesIntMemAccess = true) {nonPoison : Bits}
    (value_size : value.length = p.bitsByte) (np_size : nonPoison.length = p.bitsPoisonPerByte)
    {type : DataType} (typed : type.int = true) (count size first i : Nat) :
    byteToInt p (size * p.bitsByte)
        ⟨intByte p value nonPoison (count * p.bitsByte) (first + i), type⟩ i =
      ⟨value, .bv (Bits.and (List.replicate p.bitsPoisonPerByte (numbersAgree p first))
        nonPoison)⟩ := by
  have numbers : (first + i) % 2 ^ p.sizeByteNumber = i % 2 ^ p.sizeByteNumber ↔
      first % 2 ^ p.sizeByteNumber = 0 := by
    have shift : first + i ≡ 0 + i [MOD 2 ^ p.sizeByteNumber] ↔
        first ≡ 0 [MOD 2 ^ p.sizeByteNumber] :=
      ⟨Nat.ModEq.add_right_cancel' i, Nat.ModEq.add_right i⟩
    unfold Nat.ModEq at shift
    rwa [Nat.zero_add, Nat.zero_mod] at shift
  have tags : (decide (p.numSubByteBits = 0) ||
      (decide (numStoredBits p (intByte p value nonPoison (count * p.bitsByte) (first + i)) =
        Bits.ofNat (if size * p.bitsByte % 8 = 0 then 0 else size * p.bitsByte) p.numSubByteBits) &&
      decide (byteNumber p (intByte p value nonPoison (count * p.bitsByte) (first + i)) =
        Bits.ofNat i p.sizeByteNumber))) = numbersAgree p first := by
    unfold numbersAgree
    by_cases sub : p.numSubByteBits = 0
    · simp [sub]
    · rw [numStoredBits_intByte ints sub, byteNumber_intByte ints sub,
        if_pos (bitsByte_mod whole _), if_pos (bitsByte_mod whole _), decide_eq_true rfl,
        Bool.true_and]
      congr 1
      exact decide_eq_decide.2 (Bits.ofNat_eq_iff.trans numbers)
  exact byteToInt_tags ints value_size np_size typed tags

theorem intNpBits_whole (grained : Grained p grain) (count : Nat) :
    intNpBits p true (count * p.bitsByte) = count * p.bitsPoisonPerByte := by
  rw [intNpBits_eq grained, grained.bitsByte_eq, ← Nat.mul_assoc]
  exact Nat.eq_of_mul_eq_mul_right grained.positive
    (divideUp_mul_of_dvd grained.positive (Nat.dvd_mul_left _ _))

theorem intToBytes_whole (grained : Grained p grain)
    (size : value.length = count * p.bitsByte) (b : Bool) (padding : Padding) (offset : Nat) :
    intToBytes p padding offset (intToInt p (count * p.bitsByte) ⟨value, .bool b⟩) =
      (List.range count).map fun i =>
        intByte p (value.slice (i * p.bitsByte) p.bitsByte) (List.replicate p.bitsPoisonPerByte b)
          (count * p.bitsByte) i := by
  have units : divideUp (count * p.bitsByte) p.bitsByte = count :=
    Nat.eq_of_mul_eq_mul_right grained.byte_positive
      (divideUp_mul_of_dvd grained.byte_positive (Nat.dvd_mul_left _ _))
  unfold intToBytes intToInt
  simp only [size, units, Nat.sub_self, pad, List.range_zero, List.map_nil, Bits.concat,
    List.append_nil, intNpBits_whole grained, NonPoison.bits, NonPoison.isOnes]
  refine List.map_congr_left fun i member => ?_
  have inside : (i + 1) * p.bitsPoisonPerByte ≤ count * p.bitsPoisonPerByte :=
    Nat.mul_le_mul_right _ (List.mem_range.1 member)
  rw [Bits.slice_replicate b (by rw [← Nat.succ_mul]; exact inside)]

section

variable {blk : MemBlock} {base : Nat} {size : Option Nat} {bytes : List Bits} {start units : Nat}

theorem load_some (whole : Whole p)
    (stored : Stored p blk base (placeBytes p 0 bytes)) (inside : start + units ≤ bytes.length)
    (fits : ∀ s, size = some s → base + bytes.length * unit p ≤ s) :
    blk.load p size (base + start * unit p) (units * unit p) = (List.range units).map fun i =>
        ⟨bytes.getD (firstUnit p bytes.length start units + i) [], blk.type⟩ := by
  have place : (if size = some (units * unit p) then 0 else (base + start * unit p) / unit p) =
      base / unit p + start := by
    rw [Nat.add_mul_div_right _ _ whole.positive]
    split
    · next exact_size =>
      have room := fits _ exact_size
      have few := Nat.mul_le_mul_right (unit p) inside
      rw [Nat.add_mul] at few
      have zero : base = 0 := by omega
      have none : start * unit p = 0 := by omega
      have positive := whole.positive
      rw [zero, Nat.zero_div, (Nat.mul_eq_zero.1 none).resolve_right (by omega)]
    · rfl
  unfold MemBlock.load
  rw [← unit, Nat.mul_div_cancel _ whole.positive, place]
  refine List.map_congr_left fun i member => ?_
  have below := List.mem_range.1 member
  have in_range : firstUnit p bytes.length start units + i < bytes.length := by
    unfold firstUnit
    split <;> omega
  have here : (0 + bytePlace p bytes.length (firstUnit p bytes.length start units + i) * unit p,
      bytes[firstUnit p bytes.length start units + i]) ∈ placeBytes p 0 bytes := by
    rw [placeBytes_eq]
    exact List.mem_map.2 ⟨(_, _), List.mem_zipIdx_iff_getElem?.2
      (List.getElem?_eq_getElem in_range), rfl⟩
  have value : blk.val (base / unit p + bytePlace p bytes.length
      (firstUnit p bytes.length start units + i)) =
      bytes[firstUnit p bytes.length start units + i] := by
    have read := stored.value _ here
    rwa [Nat.zero_add, Nat.mul_div_cancel _ whole.positive] at read
  rw [List.getD_eq_getElem _ _ in_range, ← value]
  have index : base / unit p + start + (if p.littleEndian then i else units - i - 1) =
      base / unit p + bytePlace p bytes.length (firstUnit p bytes.length start units + i) := by
    unfold bytePlace firstUnit
    split <;> omega
  dsimp only
  rw [index]

end

theorem loadValue_part (whole : Whole p) (grained : Grained p grain)
    (ints : p.doesIntMemAccess = true) {start units : Nat} (positive : 0 < units)
    (inside : start + units ≤ count) (blk : MemBlock) (mayBeZero : Bits → Bool)
    {size : Option Nat} {base : Nat} (fits : ∀ s, size = some s → base + count * unit p ≤ s)
    (value_size : value.length = count * p.bitsByte) (b : Bool) (padding : Padding) :
    (loadValue p size (blk.store p mayBeZero size base
        (storeData p padding (.int (count * p.bitsByte)) ⟨value, .bool b⟩ 0))
      (.int (units * p.bitsByte)) (base + start * unit p)).1 =
      ⟨value.slice (firstUnit p count start units * p.bitsByte) (units * p.bitsByte),
        .bool (numbersAgree p (firstUnit p count start units) && b)⟩ := by
  have bytes_eq := intToBytes_whole grained value_size b padding 0
  have bytes_length : (intToBytes p padding 0
      (intToInt p (count * p.bitsByte) ⟨value, .bool b⟩)).length = count := by
    rw [bytes_eq, List.length_map, List.length_range]
  have stored := store_stored (placeBytes_spread whole (Nat.dvd_zero (unit p))
    (intToBytes p padding 0 (intToInt p (count * p.bitsByte) ⟨value, .bool b⟩))) mayBeZero size
    blk base
  have bytes_size : (Ty.int (units * p.bitsByte)).storeByteSize p = units * unit p := by
    rw [Ty.storeByteSize, intStoreByteSize, whole.bitsByte_eq]
    refine Nat.eq_of_mul_eq_mul_right (by decide : 0 < 8) ?_
    rw [divideUp_mul_of_dvd (by decide) ⟨units * unit p, by ring⟩]
    ring
  rw [storeData, Ty.toInt]
  set blk' := blk.store p mayBeZero size base (placeBytes p 0 (intToBytes p padding 0
    (intToInt p (count * p.bitsByte) ⟨value, .bool b⟩))) with blk'_eq
  rw [loadValue, bytes_size, load_some whole stored (by rw [bytes_length]; exact inside)
    (by rw [bytes_length]; exact fits), bytes_length, bytes_eq]
  have room : firstUnit p count start units + units ≤ count := by
    unfold firstUnit
    split <;> omega
  have value_sizes : ∀ i < count, (value.slice (i * p.bitsByte) p.bitsByte).length = p.bitsByte :=
    fun i below => Bits.length_slice (by
      rw [value_size, ← Nat.succ_mul]
      exact Nat.mul_le_mul_right _ below)
  have np_size : (List.replicate p.bitsPoisonPerByte b).length = p.bitsPoisonPerByte :=
    List.length_replicate
  have typed : blk'.type.int = true := by
    have first : intByte p (value.slice (0 * p.bitsByte) p.bitsByte)
        (List.replicate p.bitsPoisonPerByte b) (count * p.bitsByte) 0 ∈
        (placeBytes p 0 (intToBytes p padding 0
          (intToInt p (count * p.bitsByte) ⟨value, .bool b⟩))).map Prod.snd := by
      rw [placeBytes_eq, List.map_map, bytes_eq]
      refine List.mem_map.2 ⟨(_, 0), List.mem_zipIdx_iff_getElem?.2 ?_, rfl⟩
      rw [List.getElem?_map, List.getElem?_range (by omega)]
      rfl
    obtain ⟨d, member, kind⟩ := List.mem_map.1 first
    refine stored.int d member ?_
    rw [kind]
    exact byteIsPtr_intByte ints (value_sizes 0 (by omega)) np_size
  have loaded : ((List.range units).map fun i => (⟨((List.range count).map fun i =>
      intByte p (value.slice (i * p.bitsByte) p.bitsByte) (List.replicate p.bitsPoisonPerByte b)
        (count * p.bitsByte) i).getD (firstUnit p count start units + i) [], blk'.type⟩ :
        TypedByte)) =
      (List.range units).map fun i => ⟨intByte p
        (value.slice ((firstUnit p count start units + i) * p.bitsByte) p.bitsByte)
        (List.replicate p.bitsPoisonPerByte b) (count * p.bitsByte)
        (firstUnit p count start units + i), blk'.type⟩ := by
    refine List.map_congr_left fun i member => ?_
    have below := List.mem_range.1 member
    rw [List.getD_eq_getElem _ _ (by rw [List.length_map, List.length_range]; omega),
      List.getElem_map, List.getElem_range]
  rw [loaded, bytesToInt_eq _ _ (by simp; omega), zipIdx_map_range]
  have values : ((List.range units).map fun i => byteToInt p
      ((Ty.int (units * p.bitsByte)).bits p) ⟨intByte p
        (value.slice ((firstUnit p count start units + i) * p.bitsByte) p.bitsByte)
        (List.replicate p.bitsPoisonPerByte b) (count * p.bitsByte)
        (firstUnit p count start units + i), blk'.type⟩ i) =
      (List.range units).map fun i =>
        ⟨value.slice ((firstUnit p count start units + i) * p.bitsByte) p.bitsByte,
          .bv (List.replicate p.bitsPoisonPerByte
            (numbersAgree p (firstUnit p count start units) && b))⟩ := by
    refine List.map_congr_left fun i member => ?_
    have below := List.mem_range.1 member
    rw [Ty.bits, byteToInt_numbered whole ints (value_sizes _ (by omega)) np_size typed, Bits.and,
      List.zipWith_replicate']
  have flat : ∀ n, ((List.range n).map fun _ => List.replicate p.bitsPoisonPerByte
      (numbersAgree p (firstUnit p count start units) && b)).flatten =
      List.replicate (n * p.bitsPoisonPerByte)
        (numbersAgree p (firstUnit p count start units) && b) := by
    intro n
    rw [List.map_const', List.length_range, List.flatten_replicate_replicate]
  have value_part : (value.slice (firstUnit p count start units * p.bitsByte)
      (units * p.bitsByte)).length = units * p.bitsByte := by
    refine Bits.length_slice ?_
    rw [value_size, ← Nat.add_mul]
    exact Nat.mul_le_mul_right _ room
  dsimp only
  rw [values, List.map_map, List.map_map]
  simp only [Function.comp_def, NonPoison.bits]
  rw [Bits.flatten_slices_from, flat, Ty.bits, Ty.npBits, intNpBits_whole grained,
    Bits.slice_whole value_part, Bits.slice_whole List.length_replicate, Ty.fromInt,
    fromIntScalar, NonPoison.isOnes,
    Bits.isOnes_replicate (Nat.mul_pos positive grained.poison_positive)]
  intro elements child absurdity
  cases absurdity

/-- Loading a part of a stored integer gives the bits of that part. It is poison although the
integer is not exactly if the bytes are numbered and the part does not start at a number that
looks like zero. -/
theorem loadValue_part_iff (whole : Whole p) {grain : Nat} (grained : Grained p grain)
    (ints : p.doesIntMemAccess = true) {count start units : Nat} (positive : 0 < units)
    (inside : start + units ≤ count) (blk : MemBlock) (mayBeZero : Bits → Bool)
    {size : Option Nat} {base : Nat} (fits : ∀ s, size = some s → base + count * unit p ≤ s)
    {value : Bits} (value_size : value.length = count * p.bitsByte) (b : Bool) (padding : Padding) :
    let loaded := (loadValue p size (blk.store p mayBeZero size base
        (storeData p padding (.int (count * p.bitsByte)) ⟨value, .bool b⟩ 0))
      (.int (units * p.bitsByte)) (base + start * unit p)).1
    (loaded.value = value.slice (firstUnit p count start units * p.bitsByte) (units * p.bitsByte) ∧
        (b = true → loaded.nonPoison.isOnes = true)) ↔
      p.numSubByteBits = 0 ∨ firstUnit p count start units % 2 ^ p.sizeByteNumber = 0 ∨
        b = false := by
  intro loaded
  have loaded_eq : loaded = ⟨_, _⟩ := loadValue_part whole grained ints positive inside blk
    mayBeZero fits value_size b padding
  rw [loaded_eq]
  cases b with
  | false => simp
  | true => simp [NonPoison.isOnes, numbersAgree]

def fourBitAccess : Params where
  bitsByte := 8
  bitsPoisonPerByte := 1
  numSubByteBits := 3
  bitsProgramPointer := 64
  pointerBits := 64
  littleEndian := true
  doesIntLoad := true
  doesIntStore := true
  doesPtrLoad := false
  doesPtrStore := false
  disallowUbExploitation := false
  getAddress := id
  autoCast := id

def loadedByte (start : Nat) : StateValue :=
  (loadValue fourBitAccess (some 2)
    (MemBlock.store fourBitAccess (fun _ => false) (some 2) ⟨fun _ => [], {}⟩ 0
      (storeData fourBitAccess ⟨fun _ _ => false, fun _ _ => false⟩ (.int (2 * 8))
        ⟨Bits.ofNat 258 16, .bool true⟩ 0)) (.int (1 * 8)) (0 + start * 1)).1

theorem loadValue_part_lowByte : (loadedByte 0).nonPoison.isOnes = true :=
  ((@loadValue_part_iff fourBitAccess ⟨by decide, rfl⟩ 8 ⟨by decide, by decide, rfl⟩ rfl 2 0 1
    (by decide) (by decide) ⟨fun _ => [], {}⟩ (fun _ => false) (some 2) 0 (by decide)
    (Bits.ofNat 258 16) rfl true ⟨fun _ _ => false, fun _ _ => false⟩).2
      (.inr (.inl (by decide)))).2 rfl

/-- The upper byte is poison. -/
theorem loadValue_part_upperByte :
    ¬∀ (p : Params) (grain count start units : Nat) (blk : MemBlock) (mayBeZero : Bits → Bool)
      (size : Option Nat) (base : Nat) (value : Bits) (padding : Padding),
      Whole p → Grained p grain → p.doesIntMemAccess = true → 0 < units →
      start + units ≤ count → (∀ s, size = some s → base + count * unit p ≤ s) →
      value.length = count * p.bitsByte →
      (loadValue p size (blk.store p mayBeZero size base
        (storeData p padding (.int (count * p.bitsByte)) ⟨value, .bool true⟩ 0))
        (.int (units * p.bitsByte)) (base + start * unit p)).1.nonPoison.isOnes = true := by
  intro claim
  have upper := claim fourBitAccess 8 2 1 1 ⟨fun _ => [], {}⟩ (fun _ => false) (some 2) 0
    (Bits.ofNat 258 16) ⟨fun _ _ => false, fun _ _ => false⟩ ⟨by decide, rfl⟩
    ⟨by decide, by decide, rfl⟩ rfl (by decide) (by decide) (by decide) rfl
  have read : (loadedByte 1).nonPoison.isOnes = false := by decide +kernel
  exact absurd (read.symm.trans upper) (by decide)

end AliveNext.IR
