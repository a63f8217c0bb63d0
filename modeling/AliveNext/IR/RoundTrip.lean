import AliveNext.IR.LeafFacts

/-!
# Stores and loads of values

A value that is stored and loaded again: what each part of it becomes, by
induction over the type.
-/

namespace AliveNext.IR

open TypedByte

variable {p : Params}

mutual

/-- The bytes of each part are whole units, and the poison bits of a vector do
not cross the borders of its elements. -/
def Ty.Fits (p : Params) (grain : Nat) : Ty → Prop
  | .int width => unit p ∣ divideUp width 8
  | .ptr => p.doesPtrMemAccess = true ∧ p.bitsByte ∣ p.bitsProgramPointer ∧ 0 < ptrBytes p
  | .vector elements width => grain ∣ width ∧ unit p ∣ divideUp (elements * width) 8
  | .aggregate _ children => children.Fits p grain

def Children.Fits (p : Params) (grain : Nat) : Children → Prop
  | .nil => True
  | .field ty rest => ty.Fits p grain ∧ rest.Fits p grain
  | .padding width rest => unit p ∣ divideUp width 8 ∧ rest.Fits p grain

end

/-! ## Values that agree -/

/-- The loaded scalar is poison exactly if the stored one is, and otherwise has
the same value. -/
def AgreesScalar (stored loaded : StateValue) : Prop :=
  loaded.nonPoison.isOnes = stored.nonPoison.isOnes ∧
    (stored.nonPoison.isOnes = true → loaded.value = stored.value)

mutual

def Agrees (p : Params) : Ty → StateValue → StateValue → Prop
  | .int _, stored, loaded => AgreesScalar stored loaded
  | .ptr, stored, loaded => AgreesScalar stored loaded
  | .vector elements width, stored, loaded =>
    ∀ i < elements, AgreesScalar ((Ty.vector elements width).extract p stored i false)
      ((Ty.vector elements width).extract p loaded i false)
  | .aggregate isVector children, stored, loaded =>
    AgreesChildren p (.aggregate isVector children) children 0 stored loaded

/-- The same for the children from `index` on. -/
def AgreesChildren (p : Params) (whole : Ty) : Children → Nat → StateValue → StateValue → Prop
  | .nil, _, _, _ => True
  | .field ty rest, index, stored, loaded =>
    Agrees p ty (whole.extract p stored index false) (whole.extract p loaded index false) ∧
      AgreesChildren p whole rest (index + 1) stored loaded
  | .padding _ rest, index, stored, loaded =>
    AgreesChildren p whole rest (index + 1) stored loaded

end

/-- A value that is stored at a place of a block and loaded again agrees with
what was stored, and the load adds no precondition. -/
def RoundTrips (p : Params) (ty : Ty) : Prop :=
  ∀ v, Sized p ty v → ∀ (padding : Padding) (mayBeZero : Bits → Bool) (blk : MemBlock)
    (size : Option Nat) (offset : Nat), p.bitsByte / 8 ∣ offset →
    (∀ s, size = some s → offset + ty.storeByteSize p ≤ s) →
    let loaded := loadValue p size
      (blk.store p mayBeZero size offset (storeData p padding ty v 0)) ty offset
    Agrees p ty v loaded.1 ∧ loaded.2 = true

mutual

/-- What each part of a value becomes on the way through memory, with the
precondition that the load adds. -/
def Reads (p : Params) : Ty → StateValue → StateValue → Bool → Prop
  | .int _, stored, loaded, pre =>
    pre = true ∧ if p.doesIntMemAccess then loaded = stored
      else loaded.nonPoison.isOnes = false
  | .ptr, stored, loaded, pre =>
    if p.disallowUbExploitation then
      loaded = ⟨stored.value, .bool stored.nonPoison.isOnes⟩ ∧ pre = numbersFit p
    else
      loaded = ⟨stored.value, .bool (stored.nonPoison.isOnes && numbersFit p)⟩ ∧ pre = true
  | .vector elements width, stored, loaded, pre =>
    pre = true ∧ if p.doesIntMemAccess then
        ∀ i < elements, (Ty.vector elements width).extract p loaded i false =
          (Ty.vector elements width).extract p stored i false
      else
        ∃ i < elements,
          ((Ty.vector elements width).extract p loaded i false).nonPoison.isOnes = false
  | .aggregate isVector children, stored, loaded, pre =>
    ReadsChildren p (.aggregate isVector children) children 0 stored loaded pre

/-- The same for the children from `index` on. -/
def ReadsChildren (p : Params) (whole : Ty) : Children → Nat → StateValue → StateValue → Bool → Prop
  | .nil, _, _, _, pre => pre = true
  | .field ty rest, index, stored, loaded, pre =>
    ∃ first others, pre = (first && others) ∧
      Reads p ty (whole.extract p stored index false) (whole.extract p loaded index false) first ∧
      ReadsChildren p whole rest (index + 1) stored loaded others
  | .padding _ rest, index, stored, loaded, pre =>
    ReadsChildren p whole rest (index + 1) stored loaded pre

end

/-! ## Parts of a value -/

variable {ty : Ty} {v : StateValue} {grain width : Nat}

theorem Sized.extract {isVector isPadding : Bool} {children rest : Children} {i : Nat}
    (sized : Sized p (.aggregate isVector children) v)
    (dropped : children.toList.drop i = (isPadding, ty) :: rest.toList) :
    Sized p ty ((Ty.aggregate isVector children).extract p v i false) := by
  obtain ⟨size, bits, np, np_size⟩ := sized
  have found : (Ty.aggregate isVector children).kids.toList[i]? = some (isPadding, ty) := by
    rw [← List.head?_drop]
    exact congrArg List.head? dropped
  have room (size : Ty → Nat) :
      rest.total size + size ty ≤ (Ty.aggregate isVector children).kids.total size := by
    have split := total_split size dropped
    simp only [List.map_cons, List.sum_cons, ← Children.total_eq_sum] at split
    rw [Ty.kids, split]
    omega
  have value_size : (v.value.slice (rest.total (Ty.bits p)) (ty.bits p)).length = ty.bits p := by
    refine Bits.length_slice ?_
    rw [size, Ty.bits_eq found]
    exact room _
  have nps_size : (Bits.slice v.nonPoison.bits (rest.total (Ty.npBits p false))
      (ty.npBits p false)).length = ty.npBits p false := by
    refine Bits.length_slice ?_
    rw [np, NonPoison.bits, np_size, Ty.npBits_eq found]
    exact room _
  have dropped_kids : (Ty.aggregate isVector children).kids.toList.drop i =
      (isPadding, ty) :: rest.toList := dropped
  rw [Ty.extract_suffix dropped_kids]
  cases ty with
  | int width => exact ⟨value_size.trans (by rw [Ty.bits]), _, rfl⟩
  | ptr => exact ⟨value_size.trans (by rw [Ty.bits]), _, rfl⟩
  | vector elements width => exact ⟨value_size, _, rfl, nps_size⟩
  | aggregate isVector children => exact ⟨value_size, _, rfl, nps_size⟩

/-- The integer form of a type that is stored at once. -/
structure IntForm (p : Params) (grain : Nat) (ty : Ty) (v : StateValue) : Prop where
  size : v.value.length = ty.bits p
  nonPoison : ∃ x, v.nonPoison = .bv x ∧ x.length = ty.npBits p true
  npBits : ty.npBits p true = divideUp (ty.bits p) grain
  positive : 0 < ty.bits p
  aligned : unit p ∣ divideUp (ty.bits p) 8

theorem IntForm.length (form : IntForm p grain ty v) (whole : Whole p) (padding : Padding)
    (offset : Nat) : (intToBytes p padding offset v).length * unit p = divideUp (ty.bits p) 8 := by
  rw [length_intToBytes, form.size]
  exact divideUp_mul_unit whole form.aligned

theorem intForm_int (grained : Grained p grain) (positive : 0 < width)
    (aligned : unit p ∣ divideUp width 8) (size : v.value.length = width) :
    IntForm p grain (.int width) (intToInt p width v) where
  size := by rw [Ty.bits]; exact size
  nonPoison := ⟨_, rfl, by rw [List.length_replicate, Ty.npBits]⟩
  npBits := by rw [Ty.npBits, Ty.bits, intNpBits_eq grained]
  positive := by rwa [Ty.bits]
  aligned := by rwa [Ty.bits]

theorem intForm_vector {elements : Nat} (grained : Grained p grain) (some_element : 0 < elements)
    (positive : 0 < width) (dvd : grain ∣ width)
    (aligned : unit p ∣ divideUp (elements * width) 8) (size : v.value.length = elements * width) :
    IntForm p grain (.vector elements width) ((Ty.vector elements width).toInt p v) := by
  have nonzero : elements ≠ 0 := Nat.pos_iff_ne_zero.1 some_element
  have bits : (Ty.vector elements width).bits p = elements * width := by
    rw [Ty.bits, if_neg nonzero]
  have nps : (Ty.vector elements width).npBits p true = elements * intNpBits p true width := by
    rw [Ty.npBits, if_neg nonzero]
  obtain ⟨value_size, np_form⟩ := vector_toInt_sizes (p := p) some_element size
  refine ⟨by rw [bits]; exact value_size, by rw [nps]; exact np_form, ?_, ?_, by rwa [bits]⟩
  · rw [bits, nps, intNpBits_eq grained]
    refine Nat.eq_of_mul_eq_mul_right grained.positive ?_
    rw [divideUp_mul_of_dvd grained.positive (Dvd.dvd.mul_left dvd elements), Nat.mul_assoc,
      divideUp_mul_of_dvd grained.positive dvd]
  · rw [bits]
    exact Nat.mul_pos some_element positive

theorem ptr_storeByteSize (whole : Whole p) (aligned : p.bitsByte ∣ p.bitsProgramPointer) :
    Ty.ptr.storeByteSize p = ptrBytes p * unit p := by
  have bits : ptrBytes p * unit p * 8 = p.bitsProgramPointer := by
    rw [Nat.mul_assoc, Nat.mul_comm (unit p), ← whole.bitsByte_eq]
    exact Nat.div_mul_cancel aligned
  rw [Ty.storeByteSize]
  refine Nat.eq_of_mul_eq_mul_right (by decide : 0 < 8) ?_
  rw [divideUp_mul_of_dvd (by decide) ⟨_, by rw [← bits, Nat.mul_comm]⟩, bits]

theorem length_ptrToBytes (p : Params) (v : StateValue) : (ptrToBytes p v).length = ptrBytes p := by
  simp [ptrToBytes, ptrBytes]

mutual

theorem storeData_spread (whole : Whole p) (pointers : 0 < p.pointerBits) {grain : Nat}
    (grained : Grained p grain) (padding : Padding) :
    ∀ {ty : Ty} {v : StateValue} {offset : Nat},
      ty.WellFormed → ty.Fits p grain → Sized p ty v → unit p ∣ offset →
      unit p ∣ ty.storeByteSize p ∧
        Spread p offset (offset + ty.storeByteSize p) (storeData p padding ty v offset)
  | .int width, v, offset, wf, fits, sized, aligned => by
    rw [Ty.WellFormed] at wf
    rw [Ty.Fits] at fits
    have form : IntForm p grain (.int width) ((Ty.int width).toInt p v) :=
      intForm_int grained wf fits sized.1
    have spread := placeBytes_spread whole aligned
      (intToBytes p padding offset ((Ty.int width).toInt p v))
    rw [form.length whole] at spread
    rw [Ty.storeByteSize, storeData]
    rw [Ty.bits] at spread
    exact ⟨fits, spread⟩
  | .ptr, v, offset, _, fits, _, aligned => by
    rw [Ty.Fits] at fits
    have spread := placeBytes_spread whole aligned (ptrToBytes p v)
    rw [length_ptrToBytes] at spread
    rw [ptr_storeByteSize whole fits.2.1, storeData]
    exact ⟨Nat.dvd_mul_left _ _, spread⟩
  | .vector elements width, v, offset, wf, fits, sized, aligned => by
    rw [Ty.WellFormed] at wf
    rw [Ty.Fits] at fits
    have bits : (Ty.vector elements width).bits p = elements * width := by
      rw [Ty.bits, if_neg (Nat.pos_iff_ne_zero.1 wf.1)]
    have form := intForm_vector grained wf.1 wf.2 fits.1 fits.2 (sized.1.trans bits)
    have spread := placeBytes_spread whole aligned
      (intToBytes p padding offset ((Ty.vector elements width).toInt p v))
    rw [form.length whole] at spread
    rw [Ty.storeByteSize, storeData]
    exact ⟨form.aligned, spread⟩
  | .aggregate isVector children, v, offset, wf, fits, sized, aligned => by
    rw [Ty.WellFormed] at wf
    rw [Ty.Fits] at fits
    rw [Ty.storeByteSize, storeData]
    exact storeChildren_spread whole pointers grained padding wf.1 fits sized rfl aligned

theorem storeChildren_spread (whole : Whole p) (pointers : 0 < p.pointerBits) {grain : Nat}
    (grained : Grained p grain) (padding : Padding) {isVector : Bool} {all : Children} :
    ∀ {children : Children} {i : Nat} {v : StateValue} {offset : Nat},
      children.WellFormed → children.Fits p grain → Sized p (.aggregate isVector all) v →
      all.toList.drop i = children.toList → unit p ∣ offset →
      unit p ∣ children.storeByteSize p ∧ Spread p offset (offset + children.storeByteSize p)
          (storeChildren p padding (.aggregate isVector all) children i v offset)
  | .nil, i, v, offset, _, _, _, _, _ => by
    rw [Children.storeByteSize, storeChildren]
    exact ⟨Nat.dvd_zero _, Spread.nil _ _ _⟩
  | .field ty rest, i, v, offset, wf, fits, sized, dropped, aligned => by
    rw [Children.WellFormed] at wf
    rw [Children.Fits] at fits
    rw [Children.toList] at dropped
    obtain ⟨size, spread⟩ := storeData_spread whole pointers grained padding wf.1 fits.1
      (sized.extract dropped) aligned
    obtain ⟨rest_size, rest_spread⟩ := storeChildren_spread whole pointers grained padding wf.2
      fits.2 sized (i := i + 1) (by rw [← List.drop_drop, dropped]; rfl)
      (Nat.dvd_add aligned size)
    rw [Children.storeByteSize, storeChildren,
      if_neg (Nat.pos_iff_ne_zero.1 (Ty.bits_pos pointers wf.1))]
    rw [Nat.add_assoc] at rest_spread
    exact ⟨Nat.dvd_add size rest_size, spread.append rest_spread (by omega) (by omega)⟩
  | .padding width rest, i, v, offset, wf, fits, sized, dropped, aligned => by
    rw [Children.WellFormed] at wf
    rw [Children.Fits] at fits
    rw [Children.toList] at dropped
    have form := intForm_int grained wf.1 fits.1 (sized.extract dropped).1
    have spread := placeBytes_spread whole aligned (intToBytes p padding offset
      (intToInt p width ((Ty.aggregate isVector all).extract p v i false)))
    rw [form.length whole, Ty.bits] at spread
    obtain ⟨rest_size, rest_spread⟩ := storeChildren_spread whole pointers grained padding wf.2
      fits.2 sized (i := i + 1) (by rw [← List.drop_drop, dropped]; rfl)
      (Nat.dvd_add aligned fits.1)
    rw [Children.storeByteSize, storeChildren, if_neg (Nat.pos_iff_ne_zero.1 wf.1)]
    rw [Nat.add_assoc] at rest_spread
    exact ⟨Nat.dvd_add fits.1 rest_size, spread.append rest_spread (by omega) (by
      rw [intStoreByteSize]
      omega)⟩

end

section

variable {blk : MemBlock} {base : Nat} {size : Option Nat} {grain : Nat} {padding : Padding}

variable {ty : Ty} {v loaded : StateValue} {offset width : Nat}

theorem load_intForm (whole : Whole p)
    (form : IntForm p grain ty v) (base_aligned : unit p ∣ base) (aligned : unit p ∣ offset)
    (stored : Stored p blk base (placeBytes p offset (intToBytes p padding offset v)))
    (fits : ∀ s, size = some s → base + offset + divideUp (ty.bits p) 8 ≤ s) :
    blk.load p size (base + offset) (divideUp (ty.bits p) 8) =
      (intToBytes p padding offset v).map fun b => ⟨b, blk.type⟩ := by
  rw [← form.length whole padding offset] at fits ⊢
  exact load_placed whole base_aligned aligned stored fits

section

variable (grained : Grained p grain)

include grained

theorem typed_intForm (ints : p.doesIntMemAccess = true) (form : IntForm p grain ty v)
    (stored : Stored p blk base (placeBytes p offset (intToBytes p padding offset v))) :
    blk.type.int = true := by
  obtain ⟨x, np, np_size⟩ := form.nonPoison
  have np_size : x.length = divideUp v.value.length grain := by
    rw [np_size, form.npBits, form.size]
  have nonempty : 0 < (intToBytes p padding offset v).length := by
    rw [length_intToBytes, form.size]
    exact divideUp_pos form.positive grained.byte_positive
  obtain ⟨first, rest, shape⟩ := List.exists_cons_of_length_pos nonempty
  have kind : byteIsPtr p first = false :=
    intToBytes_kind ints grained np np_size padding offset first (by rw [shape]; simp)
  rw [shape, placeBytes_eq, List.zipIdx_cons, List.map_cons] at stored
  exact stored.int _ List.mem_cons_self kind

theorem bytesToInt_intForm (form : IntForm p grain ty v)
    (stored : Stored p blk base (placeBytes p offset (intToBytes p padding offset v))) :
    ∃ loaded : StateValue,
      bytesToInt p ty ((intToBytes p padding offset v).map fun b => ⟨b, blk.type⟩) =
        ty.fromInt p loaded ∧
      loaded.value.length = ty.bits p ∧
      if p.doesIntMemAccess then loaded = v
      else ∃ count, 0 < count ∧ loaded.nonPoison =
        .bv (Bits.slice (List.replicate count false) 0 (ty.npBits p true)) := by
  obtain ⟨x, np, np_size⟩ := form.nonPoison
  cases ints : p.doesIntMemAccess with
  | true =>
    refine ⟨v, ?_, form.size, by simp⟩
    exact bytesToInt_intToBytes ints grained form.size form.positive np np_size form.npBits
      (typed_intForm grained ints form stored) padding offset
  | false =>
    obtain ⟨loaded, count, loaded_eq, loaded_size, positive, loaded_np⟩ :=
      bytesToInt_no_ints ints grained.byte_positive form.size form.positive blk.type padding offset
    exact ⟨loaded, loaded_eq, loaded_size, by simpa using ⟨count, positive, loaded_np⟩⟩

theorem npBits_positive (positive : 0 < width) : 0 < intNpBits p true width := by
  rw [intNpBits_eq grained]
  exact divideUp_pos positive grained.positive

theorem reads_int (positive : 0 < width) (sized : Sized p (.int width) v)
    (loaded_size : loaded.value.length = (Ty.int width).bits p)
    (cases_eq : if p.doesIntMemAccess then loaded = intToInt p width v
      else ∃ count, 0 < count ∧ loaded.nonPoison =
        .bv (Bits.slice (List.replicate count false) 0 ((Ty.int width).npBits p true))) :
    Sized p (.int width) ((Ty.int width).fromInt p loaded) ∧
      Reads p (.int width) v ((Ty.int width).fromInt p loaded) true := by
  have np_positive := npBits_positive grained positive
  rw [Ty.bits] at loaded_size
  refine ⟨⟨loaded_size, _, rfl⟩, ?_⟩
  rw [Reads]
  refine ⟨rfl, ?_⟩
  cases ints : p.doesIntMemAccess with
  | true =>
    rw [ints, if_pos rfl] at cases_eq
    obtain ⟨value, np⟩ := v
    obtain ⟨-, b, rfl⟩ := sized
    simp only [if_true, cases_eq, Ty.fromInt, fromIntScalar, intToInt, NonPoison.isOnes,
      Bits.isOnes_replicate np_positive]
  | false =>
    rw [ints, if_neg Bool.false_ne_true] at cases_eq
    obtain ⟨count, count_positive, np⟩ := cases_eq
    rw [Ty.npBits] at np
    simp only [Bool.false_eq_true, if_false, Ty.fromInt, fromIntScalar, np, NonPoison.isOnes]
    exact isOnes_slice_falses count_positive np_positive

end

theorem reads_vector (pointers : 0 < p.pointerBits) (grained : Grained p grain)
    {elements : Nat} (some_element : 0 < elements) (positive : 0 < width)
    (size : v.value.length = elements * width)
    (loaded_size : loaded.value.length = elements * width)
    (cases_eq : if p.doesIntMemAccess then loaded = (Ty.vector elements width).toInt p v
      else ∃ count, 0 < count ∧ loaded.nonPoison =
        .bv (Bits.slice (List.replicate count false) 0
          ((Ty.vector elements width).npBits p true))) :
    Sized p (.vector elements width) ((Ty.vector elements width).fromInt p loaded) ∧
      Reads p (.vector elements width) v ((Ty.vector elements width).fromInt p loaded) true := by
  have np_positive := npBits_positive grained positive
  obtain ⟨loaded_sized, loaded_elements⟩ := vector_fromInt pointers some_element positive
    loaded_size
  refine ⟨loaded_sized, ?_⟩
  rw [Reads]
  refine ⟨rfl, ?_⟩
  cases ints : p.doesIntMemAccess with
  | true =>
    rw [ints, if_pos rfl] at cases_eq
    rw [if_pos rfl]
    intro i in_range
    rw [loaded_elements i in_range, cases_eq]
    exact vector_element_back in_range np_positive size
  | false =>
    rw [ints, if_neg Bool.false_ne_true] at cases_eq
    obtain ⟨count, count_positive, np⟩ := cases_eq
    rw [if_neg Bool.false_ne_true]
    -- the element at the lowest place, whose poison bits are surely there
    have lowest : position p elements (position p elements 0) = 0 := by
      unfold position
      split
      · rfl
      · omega
    have in_range : position p elements 0 < elements := by
      unfold position
      split <;> omega
    have np_bits : (Ty.vector elements width).npBits p true =
        elements * intNpBits p true width := by
      rw [Ty.npBits, if_neg (Nat.pos_iff_ne_zero.1 some_element)]
    refine ⟨position p elements 0, in_range, ?_⟩
    rw [loaded_elements _ in_range, vector_extract_fromInt in_range, lowest, np, Nat.zero_mul,
      Nat.zero_mul, NonPoison.bits, np_bits]
    simp only [fromIntScalar, NonPoison.isOnes]
    rw [Bits.slice_slice (Nat.le_mul_of_pos_left _ some_element)]
    exact isOnes_slice_falses count_positive np_positive

theorem typed_ptr (ptrs : p.doesPtrMemAccess = true) (positive : 0 < ptrBytes p)
    (v_size : v.value.length = p.pointerBits)
    (stored : Stored p blk base (placeBytes p offset (ptrToBytes p v))) : blk.type.ptr = true := by
  have first : (ptrToBytes p v)[0]? = some (ptrByte p v.value v.nonPoison.isOnes 0) := by
    rw [ptrToBytes, ← ptrBytes, List.getElem?_map, List.getElem?_range positive]
    rfl
  have member : (offset + bytePlace p (ptrToBytes p v).length 0 * unit p,
      ptrByte p v.value v.nonPoison.isOnes 0) ∈ placeBytes p offset (ptrToBytes p v) := by
    rw [placeBytes_eq]
    exact List.mem_map.2 ⟨(_, 0), List.mem_zipIdx_iff_getElem?.2 first, rfl⟩
  exact stored.ptr _ member (byteIsPtr_ptrByte ptrs v_size)

theorem aggregate_reads (pointers : 0 < p.pointerBits) {isVector : Bool} {children : Children}
    {vals : List StateValue} {pre : Bool}
    (wf : children.WellFormed) (some_child : children ≠ .nil) (sized : SizedVals p children vals)
    (reads : ∀ upperValue upperNp, ReadsChildren p (.aggregate isVector children) children 0 v
        ⟨layoutValue p children vals ++ upperValue, .bv (layoutNp p children vals ++ upperNp)⟩
        pre) :
    Sized p (.aggregate isVector children) (children.aggregateVals p vals) ∧
      ReadsChildren p (.aggregate isVector children) children 0 v
        (children.aggregateVals p vals) pre := by
  have some_kid : ∃ kid, (Ty.aggregate isVector children).kids.toList[0]? = some kid := by
    cases children with
    | nil => exact absurd rfl some_child
    | field ty rest => exact ⟨_, rfl⟩
    | padding width rest => exact ⟨_, rfl⟩
  obtain ⟨kid, found⟩ := some_kid
  have whole_reads := reads [] []
  rw [List.append_nil, List.append_nil] at whole_reads
  rw [aggregateVals_eq pointers wf sized some_child]
  refine ⟨⟨?_, _, rfl, ?_⟩, whole_reads⟩
  · rw [length_layoutValue sized, Ty.bits_eq found, Ty.kids]
  · rw [length_layoutNp sized, Ty.npBits_eq found, Ty.kids]

mutual

theorem loadValue_reads (whole : Whole p) (pointers : 0 < p.pointerBits)
    (grained : Grained p grain) (base_aligned : unit p ∣ base) :
    ∀ {ty : Ty} {v : StateValue} {offset : Nat},
      ty.WellFormed → ty.Fits p grain → Sized p ty v → unit p ∣ offset →
      Stored p blk base (storeData p padding ty v offset) →
      (∀ s, size = some s → base + offset + ty.storeByteSize p ≤ s) →
      Sized p ty (loadValue p size blk ty (base + offset)).1 ∧
        Reads p ty v (loadValue p size blk ty (base + offset)).1
          (loadValue p size blk ty (base + offset)).2
  | .int width, v, offset, wf, fits, sized, aligned, stored, room => by
    rw [Ty.WellFormed] at wf
    rw [Ty.Fits] at fits
    rw [storeData] at stored
    rw [Ty.storeByteSize] at room
    have form : IntForm p grain (.int width) ((Ty.int width).toInt p v) :=
      intForm_int grained wf fits sized.1
    have room_bits : ∀ s, size = some s →
        base + offset + divideUp ((Ty.int width).bits p) 8 ≤ s := by
      rw [Ty.bits]
      exact room
    have bytes_eq := load_intForm whole form base_aligned aligned stored room_bits
    rw [Ty.bits] at bytes_eq
    obtain ⟨loaded, loaded_eq, loaded_size, cases_eq⟩ := bytesToInt_intForm grained form stored
    rw [loadValue, Ty.storeByteSize, intStoreByteSize, bytes_eq, loaded_eq]
    exact reads_int grained wf sized loaded_size cases_eq
  | .ptr, v, offset, _, fits, sized, aligned, stored, room => by
    rw [Ty.Fits] at fits
    rw [storeData] at stored
    obtain ⟨ptrs, whole_ptr, positive⟩ := fits
    rw [ptr_storeByteSize whole whole_ptr, ← length_ptrToBytes p v] at room
    have bytes_eq := load_placed whole base_aligned aligned stored room
    have typed := typed_ptr ptrs positive sized.1 stored
    rw [loadValue, ptr_storeByteSize whole whole_ptr, ← length_ptrToBytes p v, bytes_eq,
      bytesToPtr_ptrToBytes ptrs whole_ptr positive sized.1 typed]
    split
    · rename_i disallow
      refine ⟨⟨sized.1, _, rfl⟩, ?_⟩
      rw [Reads, if_pos disallow]
      exact ⟨rfl, rfl⟩
    · rename_i allow
      refine ⟨⟨sized.1, _, rfl⟩, ?_⟩
      rw [Reads, if_neg allow]
      exact ⟨rfl, rfl⟩
  | .vector elements width, v, offset, wf, fits, sized, aligned, stored, room => by
    rw [Ty.WellFormed] at wf
    rw [Ty.Fits] at fits
    rw [storeData] at stored
    rw [Ty.storeByteSize] at room
    have bits : (Ty.vector elements width).bits p = elements * width := by
      rw [Ty.bits, if_neg (Nat.pos_iff_ne_zero.1 wf.1)]
    have v_size : v.value.length = elements * width := sized.1.trans bits
    have form := intForm_vector grained wf.1 wf.2 fits.1 fits.2 v_size
    have bytes_eq := load_intForm whole form base_aligned aligned stored room
    obtain ⟨loaded, loaded_eq, loaded_size, cases_eq⟩ := bytesToInt_intForm grained form stored
    rw [loadValue, Ty.storeByteSize, intStoreByteSize, bytes_eq, loaded_eq]
    exact reads_vector pointers grained wf.1 wf.2 v_size (loaded_size.trans bits) cases_eq
  | .aggregate isVector children, v, offset, wf, fits, sized, aligned, stored, room => by
    rw [Ty.WellFormed] at wf
    rw [Ty.Fits] at fits
    rw [storeData] at stored
    rw [Ty.storeByteSize] at room
    obtain ⟨vals_sized, reads⟩ := loadChildren_reads whole pointers grained base_aligned wf.1 fits
      sized rfl aligned stored room
    rw [loadValue, Reads]
    cases children with
    | nil =>
      rw [loadChildren] at reads ⊢
      refine ⟨⟨by rw [Ty.bits]; rfl, _, rfl, by rw [Ty.npBits]; rfl⟩, ?_⟩
      rw [ReadsChildren]
    | field ty rest =>
      exact aggregate_reads pointers wf.1 nofun vals_sized reads
    | padding width rest =>
      exact aggregate_reads pointers wf.1 nofun vals_sized reads

theorem loadChildren_reads (whole : Whole p) (pointers : 0 < p.pointerBits)
    (grained : Grained p grain) (base_aligned : unit p ∣ base) {isVector : Bool} {all : Children} :
    ∀ {children : Children} {i : Nat} {v : StateValue} {offset : Nat},
      children.WellFormed → children.Fits p grain → Sized p (.aggregate isVector all) v →
      all.toList.drop i = children.toList → unit p ∣ offset →
      Stored p blk base (storeChildren p padding (.aggregate isVector all) children i v offset) →
      (∀ s, size = some s → base + offset + children.storeByteSize p ≤ s) →
      SizedVals p children (loadChildren p size blk children (base + offset)).1 ∧
        ∀ upperValue upperNp, ReadsChildren p (.aggregate isVector all) children i v
            ⟨layoutValue p children (loadChildren p size blk children (base + offset)).1 ++
                upperValue,
              .bv (layoutNp p children (loadChildren p size blk children (base + offset)).1 ++
                upperNp)⟩
            (loadChildren p size blk children (base + offset)).2
  | .nil, i, v, offset, _, _, _, _, _, _, _ => by
    rw [loadChildren]
    refine ⟨rfl, ?_⟩
    intro upperValue upperNp
    rw [ReadsChildren]
  | .field ty rest, i, v, offset, wf, fits, sized, dropped, aligned, stored, room => by
    rw [Children.WellFormed] at wf
    rw [Children.Fits] at fits
    rw [Children.toList] at dropped
    rw [Children.storeByteSize] at room
    rw [storeChildren, if_neg (Nat.pos_iff_ne_zero.1 (Ty.bits_pos pointers wf.1))] at stored
    have child_sized := sized.extract dropped
    have size_aligned := (storeData_spread whole pointers grained padding wf.1 fits.1 child_sized
      aligned).1
    obtain ⟨first_sized, first_reads⟩ := loadValue_reads whole pointers grained base_aligned wf.1
      fits.1 child_sized aligned stored.left (fun s known => by have := room s known; omega)
    obtain ⟨rest_sized, rest_reads⟩ := loadChildren_reads whole pointers grained base_aligned wf.2
      fits.2 sized (i := i + 1) (by rw [← List.drop_drop, dropped]; rfl)
      (Nat.dvd_add aligned size_aligned) stored.right
      (fun s known => by have := room s known; omega)
    rw [← Nat.add_assoc] at rest_sized rest_reads
    rw [loadChildren]
    refine ⟨⟨_, _, rfl, first_sized, rest_sized⟩, ?_⟩
    intro upperValue upperNp
    rw [ReadsChildren]
    refine ⟨_, _, rfl, ?_, ?_⟩
    · have dropped_kids : (Ty.aggregate isVector all).kids.toList.drop i =
          (false, ty) :: rest.toList := dropped
      rw [extract_layout dropped_kids first_sized rest_sized, first_sized.fromBV_toBV]
      exact first_reads
    · simp only [layoutValue, layoutNp, List.append_assoc]
      exact rest_reads _ _
  | .padding width rest, i, v, offset, wf, fits, sized, dropped, aligned, stored, room => by
    rw [Children.WellFormed] at wf
    rw [Children.Fits] at fits
    rw [Children.toList] at dropped
    rw [Children.storeByteSize] at room
    rw [storeChildren, if_neg (Nat.pos_iff_ne_zero.1 wf.1)] at stored
    obtain ⟨rest_sized, rest_reads⟩ := loadChildren_reads whole pointers grained base_aligned wf.2
      fits.2 sized (i := i + 1) (by rw [← List.drop_drop, dropped]; rfl)
      (Nat.dvd_add aligned fits.1) stored.right
      (fun s known => by have := room s known; rw [intStoreByteSize] at this; omega)
    rw [← Nat.add_assoc] at rest_sized rest_reads
    rw [loadChildren]
    refine ⟨rest_sized, ?_⟩
    intro upperValue upperNp
    rw [ReadsChildren]
    simp only [layoutValue, layoutNp, List.append_assoc]
    exact rest_reads _ _

end

end

end AliveNext.IR
