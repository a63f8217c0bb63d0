import AliveNext.IR.StoreFacts

/-!
# Scalars and vectors of integers as bytes

What a scalar or a vector of integers becomes on the way through its bytes: an
integer comes back unchanged if there are integer bytes at all, and as poison if
there are none; a pointer comes back if the number of the byte fits into the
bits that are kept for it.
-/

namespace AliveNext.IR

open TypedByte

variable {p : Params}

variable {n amount bits grain i : Nat} {value x : Bits} {v : StateValue} {ty : Ty} {type : DataType}

theorem divideUp_le {bound : Nat} (positive : 0 < amount) :
    divideUp n amount ≤ bound ↔ n ≤ bound * amount := by
  rw [divideUp, ← Nat.ceilDiv_eq_add_pred_div, ceilDiv_le_iff_le_mul positive, Nat.mul_comm]

theorem le_divideUp_mul (positive : 0 < amount) : n ≤ divideUp n amount * amount :=
  (divideUp_le positive).1 (Nat.le_refl _)

theorem divideUp_pos (positive : 0 < n) (amount_positive : 0 < amount) : 0 < divideUp n amount :=
  Nat.div_pos (by omega) amount_positive

theorem divideUp_mul_of_dvd (positive : 0 < amount) (dvd : amount ∣ n) :
    divideUp n amount * amount = n := by
  obtain ⟨m, rfl⟩ := dvd
  refine Nat.le_antisymm ?_ (le_divideUp_mul positive)
  rw [Nat.mul_comm]
  exact Nat.mul_le_mul_left _ ((divideUp_le positive).2 (by rw [Nat.mul_comm]))

theorem divideUp_mul_unit (whole : Whole p) (aligned : unit p ∣ divideUp bits 8) :
    divideUp bits p.bitsByte * unit p = divideUp bits 8 := by
  have positive : 0 < p.bitsByte := by
    rw [whole.bitsByte_eq]
    exact Nat.mul_pos (by decide) whole.positive
  obtain ⟨count, count_eq⟩ := aligned
  have enough : bits ≤ count * p.bitsByte := by
    have cover : bits ≤ divideUp bits 8 * 8 := le_divideUp_mul (by decide)
    rw [count_eq] at cover
    calc bits ≤ unit p * count * 8 := cover
      _ = count * p.bitsByte := by rw [whole.bitsByte_eq]; ring
  have upper : divideUp bits p.bitsByte ≤ count := (divideUp_le positive).2 enough
  have lower : divideUp bits 8 ≤ divideUp bits p.bitsByte * unit p := by
    refine (divideUp_le (by decide)).2 ?_
    calc bits ≤ divideUp bits p.bitsByte * p.bitsByte := le_divideUp_mul positive
      _ = divideUp bits p.bitsByte * unit p * 8 := by
        rw [Nat.mul_assoc, Nat.mul_comm (unit p), ← whole.bitsByte_eq]
  refine Nat.le_antisymm ?_ lower
  rw [count_eq, Nat.mul_comm]
  exact Nat.mul_le_mul_left _ upper

/-- A poison bit stands for `grain` bits of the value. -/
structure Grained (p : Params) (grain : Nat) : Prop where
  positive : 0 < grain
  poison_positive : 0 < p.bitsPoisonPerByte
  bitsByte_eq : p.bitsByte = p.bitsPoisonPerByte * grain

theorem Grained.byte_positive (grained : Grained p grain) : 0 < p.bitsByte := by
  rw [grained.bitsByte_eq]
  exact Nat.mul_pos grained.poison_positive grained.positive

theorem intNpBits_eq (grained : Grained p grain) (width : Nat) :
    intNpBits p true width = divideUp width grain := by
  have scaled : divideUp (width * p.bitsPoisonPerByte) p.bitsByte = divideUp width grain := by
    have pos : 0 < p.bitsPoisonPerByte * grain :=
      Nat.mul_pos grained.poison_positive grained.positive
    rw [grained.bitsByte_eq]
    refine Nat.le_antisymm ((divideUp_le pos).2 ?_) ((divideUp_le grained.positive).2 ?_)
    · calc width * p.bitsPoisonPerByte ≤ divideUp width grain * grain * p.bitsPoisonPerByte :=
            Nat.mul_le_mul_right _ (le_divideUp_mul grained.positive)
        _ = divideUp width grain * (p.bitsPoisonPerByte * grain) := by ring
    · refine Nat.le_of_mul_le_mul_right ?_ grained.poison_positive
      calc width * p.bitsPoisonPerByte ≤ _ := le_divideUp_mul pos
        _ = _ := by ring
  have small : divideUp width grain ≤ width :=
    (divideUp_le grained.positive).2 (Nat.le_mul_of_pos_right _ grained.positive)
  unfold intNpBits
  rw [if_pos rfl, scaled, Nat.min_eq_right small]

theorem poison_fits (grained : Grained p grain) (bits : Nat) :
    divideUp bits grain ≤ divideUp bits p.bitsByte * p.bitsPoisonPerByte ∧
      divideUp bits p.bitsByte * p.bitsPoisonPerByte ≤
        divideUp bits grain + (divideUp bits p.bitsByte * p.bitsByte - bits) := by
  have cover := le_divideUp_mul (n := bits) grained.byte_positive
  have same : divideUp bits p.bitsByte * p.bitsByte =
      divideUp bits p.bitsByte * p.bitsPoisonPerByte * grain := by
    rw [Nat.mul_assoc, ← grained.bitsByte_eq]
  rw [same] at cover
  refine ⟨(divideUp_le grained.positive).2 cover, ?_⟩
  rw [same]
  generalize divideUp bits p.bitsByte * p.bitsPoisonPerByte = total at cover ⊢
  have exact_cover := le_divideUp_mul (n := bits) grained.positive
  have least := (divideUp_le grained.positive).2 cover
  generalize divideUp bits grain = count at exact_cover least ⊢
  have rest : total - count ≤ (total - count) * grain := Nat.le_mul_of_pos_right _ grained.positive
  rw [Nat.sub_mul] at rest
  omega

theorem bytesToInt_eq (p : Params) (ty : Ty) {bytes : List TypedByte} (nonempty : bytes ≠ []) :
    bytesToInt p ty bytes = ty.fromInt p
        ⟨Bits.slice ((bytes.zipIdx.map fun b => byteToInt p (ty.bits p) b.1 b.2).map
            StateValue.value).flatten 0 (ty.bits p),
          .bv (Bits.slice ((bytes.zipIdx.map fun b => byteToInt p (ty.bits p) b.1 b.2).map
            fun v => v.nonPoison.bits).flatten 0 (ty.npBits p true))⟩ := by
  have bvs : ∀ v ∈ bytes.zipIdx.map fun b => byteToInt p (ty.bits p) b.1 b.2,
      ∃ x, v.nonPoison = .bv x := by
    intro v member
    obtain ⟨b, -, rfl⟩ := List.mem_map.1 member
    exact ⟨_, rfl⟩
  unfold bytesToInt
  simp only
  cases shape : bytes.zipIdx.map fun b => byteToInt p (ty.bits p) b.1 b.2 with
  | nil =>
    rw [List.map_eq_nil_iff, List.zipIdx_eq_nil_iff] at shape
    exact absurd shape nonempty
  | cons first rest =>
    rw [shape] at bvs
    simp only
    rw [foldl_concat_above bvs]
    rfl

theorem zipIdx_map_range {α β : Type} (n : Nat) (f : Nat → α) (g : α × Nat → β) :
    ((List.range n).map f).zipIdx.map g = (List.range n).map fun i => g (f i, i) := by
  refine List.ext_getElem (by simp) ?_
  intro i i_lt i_lt'
  simp

theorem length_intToBytes (p : Params) (padding : Padding) (offset : Nat) (v : StateValue) :
    (intToBytes p padding offset v).length = divideUp v.value.length p.bitsByte := by
  simp [intToBytes]

theorem padded_sizes (grained : Grained p grain) {nonPoison : Bits}
    (size : value.length = bits) (np_size : nonPoison.length = divideUp bits grain)
    (in_range : i < divideUp bits p.bitsByte) (fresh freshNp : Nat → Bool) :
    (Bits.slice (pad value (divideUp bits p.bitsByte * p.bitsByte - bits) fresh)
        (i * p.bitsByte) p.bitsByte).length = p.bitsByte ∧
      (Bits.slice (pad nonPoison (divideUp bits p.bitsByte * p.bitsByte - bits) freshNp)
        (i * p.bitsPoisonPerByte) p.bitsPoisonPerByte).length = p.bitsPoisonPerByte := by
  have cover := le_divideUp_mul (n := bits) grained.byte_positive
  have np_enough := (poison_fits grained bits).2
  have below (n : Nat) : (i + 1) * n ≤ divideUp bits p.bitsByte * n :=
    Nat.mul_le_mul_right _ in_range
  refine ⟨Bits.length_slice ?_, Bits.length_slice ?_⟩
  · rw [pad, Bits.length_concat, List.length_map, List.length_range, size, ← Nat.succ_mul]
    refine Nat.le_trans (below _) ?_
    omega
  · rw [pad, Bits.length_concat, List.length_map, List.length_range, np_size, ← Nat.succ_mul]
    exact Nat.le_trans (below _) np_enough

theorem intToBytes_kind (ints : p.doesIntMemAccess = true)
    (grained : Grained p grain) (np : v.nonPoison = .bv x)
    (np_size : x.length = divideUp v.value.length grain) (padding : Padding) (offset : Nat) :
    ∀ b ∈ intToBytes p padding offset v, byteIsPtr p b = false := by
  intro b member
  obtain ⟨i, in_range, rfl⟩ := List.mem_map.1 member
  rw [np]
  obtain ⟨value_size, nonPoison_size⟩ := padded_sizes grained rfl np_size
    (List.mem_range.1 in_range) (padding.value offset) (padding.nonPoison offset)
  exact byteIsPtr_intByte ints value_size nonPoison_size

theorem bytesToInt_intToBytes (ints : p.doesIntMemAccess = true) (grained : Grained p grain)
    (size : v.value.length = ty.bits p) (positive : 0 < ty.bits p) (np : v.nonPoison = .bv x)
    (np_size : x.length = ty.npBits p true)
    (np_eq : ty.npBits p true = divideUp (ty.bits p) grain) (typed : type.int = true)
    (padding : Padding) (offset : Nat) :
    bytesToInt p ty ((intToBytes p padding offset v).map fun b => ⟨b, type⟩) = ty.fromInt p v := by
  have byte_positive := grained.byte_positive
  have count_positive := divideUp_pos positive byte_positive
  have cover := le_divideUp_mul (n := ty.bits p) byte_positive
  have np_cover := (poison_fits grained (ty.bits p)).1
  rw [← np_eq] at np_cover
  have nonempty : ((intToBytes p padding offset v).map fun b => (⟨b, type⟩ : TypedByte)) ≠ [] := by
    rw [← List.length_pos_iff, List.length_map, length_intToBytes, size]
    exact count_positive
  set count := divideUp (ty.bits p) p.bitsByte with count_eq
  set amount := count * p.bitsByte - ty.bits p with amount_eq
  set value := pad v.value amount (padding.value offset) with value_eq
  set nonPoison := pad x amount (padding.nonPoison offset) with nonPoison_eq
  have bytes_eq : (intToBytes p padding offset v).map (fun b => (⟨b, type⟩ : TypedByte)) =
      (List.range count).map fun i =>
        ⟨intByte p (value.slice (i * p.bitsByte) p.bitsByte)
          (nonPoison.slice (i * p.bitsPoisonPerByte) p.bitsPoisonPerByte) (ty.bits p) i, type⟩ := by
    unfold intToBytes
    rw [size, np, List.map_map]
    rfl
  have values_eq : (((intToBytes p padding offset v).map fun b =>
      (⟨b, type⟩ : TypedByte)).zipIdx.map fun b => byteToInt p (ty.bits p) b.1 b.2) =
      (List.range count).map fun i =>
        ⟨value.slice (i * p.bitsByte) p.bitsByte,
          .bv (nonPoison.slice (i * p.bitsPoisonPerByte) p.bitsPoisonPerByte)⟩ := by
    rw [bytes_eq, zipIdx_map_range]
    refine List.map_congr_left fun i member => ?_
    obtain ⟨value_size, nonPoison_size⟩ := padded_sizes grained size (np_size.trans np_eq)
      (List.mem_range.1 member) (padding.value offset) (padding.nonPoison offset)
    exact byteToInt_intByte ints value_size nonPoison_size typed _
  rw [bytesToInt_eq p ty nonempty, values_eq, List.map_map, List.map_map]
  change ty.fromInt p
    ⟨Bits.slice (((List.range count).map fun i =>
        value.slice (i * p.bitsByte) p.bitsByte).flatten) 0 (ty.bits p),
      .bv (Bits.slice (((List.range count).map fun i =>
        nonPoison.slice (i * p.bitsPoisonPerByte) p.bitsPoisonPerByte).flatten) 0
          (ty.npBits p true))⟩ = ty.fromInt p v
  rw [Bits.flatten_slices, Bits.flatten_slices, Bits.slice_slice cover,
    Bits.slice_slice np_cover, value_eq, nonPoison_eq, pad, pad, Bits.concat, Bits.concat,
    Bits.slice_first size, Bits.slice_first np_size, ← np]

theorem intByte_no_ints (no_ints : p.doesIntMemAccess = false) (value nonPoison : Bits)
    (bitsRead number : Nat) :
    intByte p value nonPoison bitsRead number = Bits.zeros p.byteWidth := by
  rw [intByte, if_neg (by rw [no_ints]; decide)]

theorem length_castPtrToInt (p : Params) (b : Bits) : (castPtrToInt p b).length = p.bitsByte := by
  refine Bits.length_slice ?_
  rw [List.length_append, Bits.length_zeros]
  omega

theorem length_forceCastToInt (no_ints : p.doesIntMemAccess = false) (b : TypedByte) :
    (forceCastToInt p b).length = p.bitsByte := by
  have value : (nonptrValue p b.byte).length = p.bitsByte := by
    rw [nonptrValue, if_neg (by rw [no_ints]; decide), Bits.length_zeros]
  unfold forceCastToInt
  split
  · exact Bits.length_zeros _
  · exact value
  · exact length_castPtrToInt p b.byte
  · split
    · exact length_castPtrToInt p b.byte
    · exact value

theorem byteToInt_zeros (no_ints : p.doesIntMemAccess = false) (type : DataType)
    (bitsize number : Nat) :
    (byteToInt p bitsize ⟨Bits.zeros p.byteWidth, type⟩ number).nonPoison = .bv [false] := by
  have np : nonptrNonpoison p (Bits.zeros p.byteWidth) = [false] := by
    rw [nonptrNonpoison, if_neg (by rw [no_ints]; decide)]
    rfl
  have ptr_np : ptrNonpoison p (Bits.zeros p.byteWidth) = false := Bits.bit_zeros _ _
  have none_set (b : Bool) : Bits.and (List.replicate (List.length [false]) b) [false] =
      [false] := by
    cases b <;> rfl
  unfold byteToInt
  simp only [np, ptr_np, none_set, Bool.false_and]
  split <;> rfl

theorem bytesToInt_no_ints (no_ints : p.doesIntMemAccess = false)
    (byte_positive : 0 < p.bitsByte) (size : v.value.length = ty.bits p) (positive : 0 < ty.bits p)
    (type : DataType) (padding : Padding) (offset : Nat) :
    ∃ loaded : StateValue, ∃ count : Nat,
      bytesToInt p ty ((intToBytes p padding offset v).map fun b => ⟨b, type⟩) =
        ty.fromInt p loaded ∧
      loaded.value.length = ty.bits p ∧ 0 < count ∧
      loaded.nonPoison = .bv (Bits.slice (List.replicate count false) 0 (ty.npBits p true)) := by
  have count_positive := divideUp_pos positive byte_positive
  have cover := le_divideUp_mul (n := ty.bits p) byte_positive
  have nonempty : ((intToBytes p padding offset v).map fun b => (⟨b, type⟩ : TypedByte)) ≠ [] := by
    rw [← List.length_pos_iff, List.length_map, length_intToBytes, size]
    exact count_positive
  set count := divideUp (ty.bits p) p.bitsByte with count_eq
  have bytes_eq : (intToBytes p padding offset v).map (fun b => (⟨b, type⟩ : TypedByte)) =
      (List.range count).map fun _ => ⟨Bits.zeros p.byteWidth, type⟩ := by
    unfold intToBytes
    simp only [intByte_no_ints no_ints, size, List.map_map]
    rfl
  have values : ((List.range count).map fun i =>
      (byteToInt p (ty.bits p) ⟨Bits.zeros p.byteWidth, type⟩ i).value).flatten.length =
      count * p.bitsByte := by
    have each : ((List.range count).map fun i =>
        (byteToInt p (ty.bits p) ⟨Bits.zeros p.byteWidth, type⟩ i).value.length) =
        List.replicate count p.bitsByte := by
      rw [List.eq_replicate_iff]
      refine ⟨by simp, ?_⟩
      intro n member
      obtain ⟨i, -, rfl⟩ := List.mem_map.1 member
      exact length_forceCastToInt no_ints _
    rw [List.length_flatten, List.map_map]
    change ((List.range count).map fun i =>
        (byteToInt p (ty.bits p) ⟨Bits.zeros p.byteWidth, type⟩ i).value.length).sum = _
    rw [each]
    simp
  have nps : ((List.range count).map fun i =>
      (byteToInt p (ty.bits p) ⟨Bits.zeros p.byteWidth, type⟩ i).nonPoison.bits).flatten =
      List.replicate count false := by
    have each : ((List.range count).map fun i =>
        (byteToInt p (ty.bits p) ⟨Bits.zeros p.byteWidth, type⟩ i).nonPoison.bits) =
        List.replicate count [false] := by
      rw [List.eq_replicate_iff]
      refine ⟨by simp, ?_⟩
      intro x member
      obtain ⟨i, -, rfl⟩ := List.mem_map.1 member
      rw [byteToInt_zeros no_ints]
      rfl
    rw [each, List.flatten_replicate_singleton]
  refine ⟨_, count, bytesToInt_eq p ty nonempty, ?_, count_positive, ?_⟩
  · refine Bits.length_slice ?_
    rw [bytes_eq, zipIdx_map_range, List.map_map]
    refine Nat.le_trans ?_ (Nat.le_of_eq values.symm)
    omega
  · rw [bytes_eq, zipIdx_map_range, List.map_map, List.map_map]
    exact congrArg (fun x => NonPoison.bv (Bits.slice x 0 (ty.npBits p true))) nps

theorem isOnes_slice_falses {count width : Nat} (positive : 0 < count)
    (width_positive : 0 < width) :
    Bits.isOnes (Bits.slice (List.replicate count false) 0 width) = false := by
  rw [Bits.slice, List.drop_zero, List.take_replicate]
  exact Bits.isOnes_replicate (by omega) false

theorem countrZero_eq_zero (positive : 0 < n) : Params.countrZero n = 0 ↔ n % 2 = 1 := by
  obtain ⟨m, rfl⟩ := Nat.exists_eq_succ_of_ne_zero (Nat.pos_iff_ne_zero.1 positive)
  unfold Params.countrZero
  rw [List.range_succ_eq_map, List.takeWhile_cons]
  split
  · rename_i even
    simp only [Nat.zero_add, Nat.pow_one, decide_eq_true_eq] at even
    simp only [List.length_cons]
    omega
  · rename_i odd
    simp only [Nat.zero_add, Nat.pow_one, decide_eq_true_eq] at odd
    simp only [List.length_nil, true_iff]
    omega

def ptrBytes (p : Params) : Nat :=
  p.bitsProgramPointer / p.bitsByte

def numbersFit (p : Params) : Bool :=
  ptrBytes p = 1 || ptrBytes p % 2 = 0

theorem bitsPtrByteOffset_eq_zero (aligned : p.bitsByte ∣ p.bitsProgramPointer)
    (positive : 0 < ptrBytes p) :
    p.bitsPtrByteOffset = 0 ↔ ptrBytes p = 1 ∨ ptrBytes p % 2 = 1 := by
  have product : p.bitsProgramPointer = ptrBytes p * p.bitsByte :=
    (Nat.div_mul_cancel aligned).symm
  have byte_positive : 0 < p.bitsByte := by
    refine Nat.pos_of_ne_zero fun zero => ?_
    rw [ptrBytes, zero, Nat.div_zero] at positive
    exact Nat.lt_irrefl 0 positive
  unfold Params.bitsPtrByteOffset
  split
  · rename_i small
    have one : ptrBytes p ≤ 1 := by
      refine Nat.le_of_mul_le_mul_right ?_ byte_positive
      omega
    simp only [true_iff]
    exact .inl (by omega)
  · rename_i large
    rw [← ptrBytes, countrZero_eq_zero positive]
    constructor
    · exact .inr
    · rintro (one | odd)
      · rw [one, Nat.one_mul] at product
        exact absurd (Nat.le_of_eq product) large
      · exact odd

theorem zero_eq_ofNat_one : Bits.zeros 1 = Bits.ofNat i 1 ↔ i % 2 = 0 := by
  have bit : Bits.ofNat i 1 = [decide (i % 2 = 1)] := by
    simp [Bits.ofNat, Nat.testBit_zero]
  rw [bit]
  simp only [Bits.zeros, List.replicate_succ, List.replicate_zero, List.cons.injEq, and_true]
  rw [eq_comm, decide_eq_false_iff_not]
  omega

variable (ptrs : p.doesPtrMemAccess = true) (aligned : p.bitsByte ∣ p.bitsProgramPointer)
    (positive : 0 < ptrBytes p)

include ptrs aligned positive

theorem numbers_match (size : value.length = p.pointerBits) (b : Bool) :
    ((List.range (ptrBytes p)).all fun i =>
      ptrByteoffset p (ptrByte p value b i) =
          Bits.ofNat i (ptrByteoffset p (ptrByte p value b i)).length &&
        ptrValue p (ptrByte p value b i) = value) = numbersFit p := by
  have zero_iff := bitsPtrByteOffset_eq_zero aligned positive
  rw [Bool.eq_iff_iff, List.all_eq_true]
  simp only [ptrValue_ptrByte ptrs size, ptrByteoffset_ptrByte ptrs, decide_true, Bool.and_true,
    decide_eq_true_eq, List.mem_range, numbersFit, Bool.or_eq_true]
  constructor
  · intro numbers
    by_contra unfit
    rw [not_or] at unfit
    have zero : p.bitsPtrByteOffset = 0 := zero_iff.2 (.inr (by omega))
    have second := numbers 1 (by omega)
    rw [if_pos zero, Bits.length_zeros, zero_eq_ofNat_one] at second
    cases second
  · intro fit i in_range
    by_cases zero : p.bitsPtrByteOffset = 0
    · have one : ptrBytes p = 1 := by
        have := zero_iff.1 zero
        omega
      rw [if_pos zero, Bits.length_zeros, zero_eq_ofNat_one]
      omega
    · rw [if_neg zero, Bits.length_ofNat]

theorem bytesToPtr_ptrToBytes (size : v.value.length = p.pointerBits) (typed : type.ptr = true) :
    bytesToPtr p ((ptrToBytes p v).map fun b => ⟨b, type⟩) =
      if p.disallowUbExploitation then (⟨v.value, .bool v.nonPoison.isOnes⟩, numbersFit p)
      else (⟨v.value, .bool (v.nonPoison.isOnes && numbersFit p)⟩, true) := by
  set b := v.nonPoison.isOnes with b_eq
  have bytes_eq : (ptrToBytes p v).map (fun b => (⟨b, type⟩ : TypedByte)) =
      (List.range (ptrBytes p)).map fun i => ⟨ptrByte p v.value b i, type⟩ := by
    rw [ptrToBytes, List.map_map]
    rfl
  have all_ptr : ((List.range (ptrBytes p)).map fun i =>
      (⟨ptrByte p v.value b i, type⟩ : TypedByte)).all (isPtr p) = true := by
    rw [List.all_map, List.all_eq_true]
    intro i _
    show (type.ptr && byteIsPtr p (ptrByte p v.value b i)) = true
    rw [typed, byteIsPtr_ptrByte ptrs size]
    rfl
  have no_poison : (((List.range (ptrBytes p)).map fun i =>
      (⟨ptrByte p v.value b i, type⟩ : TypedByte)).all fun c => !isPoison p c) = b := by
    rw [List.all_map, Bool.eq_iff_iff, List.all_eq_true]
    simp only [Function.comp_apply, isPoison_ptrByte ptrs size typed, Bool.not_not]
    exact ⟨fun all => all 0 (List.mem_range.2 positive), fun set _ _ => set⟩
  have numbers : ((((List.range (ptrBytes p)).map fun i =>
      (⟨ptrByte p v.value b i, type⟩ : TypedByte)).zipIdx).all fun c =>
        ptrByteoffset p c.1.byte = Bits.ofNat c.2 (ptrByteoffset p c.1.byte).length &&
          ptrValue p c.1.byte = v.value) = numbersFit p := by
    have pairs := zipIdx_map_range (ptrBytes p)
      (fun i => (⟨ptrByte p v.value b i, type⟩ : TypedByte)) id
    rw [List.map_id] at pairs
    rw [pairs, List.all_map]
    exact numbers_match ptrs aligned positive size b
  have head : ((List.range (ptrBytes p)).map fun i =>
      (⟨ptrByte p v.value b i, type⟩ : TypedByte))[0]? = some ⟨ptrByte p v.value b 0, type⟩ := by
    rw [List.getElem?_map, List.getElem?_range positive]
    rfl
  rw [bytes_eq]
  generalize ((List.range (ptrBytes p)).map fun i =>
    (⟨ptrByte p v.value b i, type⟩ : TypedByte)) = bytes at all_ptr no_poison numbers head ⊢
  cases bytes with
  | nil => cases head
  | cons first rest =>
    cases head
    unfold bytesToPtr
    simp only [ptrValue_ptrByte ptrs size, all_ptr, no_poison, numbers, Bool.not_true,
      Bool.false_or, if_true]

end AliveNext.IR
