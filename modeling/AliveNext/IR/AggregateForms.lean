import AliveNext.IR.ValueFacts

/-!
# Aggregates in their two forms

An aggregate is packed from its highest bit on, and a vector in integer form from the end
that the endianness says (`AggregateType` and `VectorType` of `ir/type.cpp`). An element at
an index that is a term is found by shifts. A float is packed like an integer of its width.
-/

namespace AliveNext.IR

variable {p : Params}

/-! ## Elements of any aggregate -/

/-- `val_idx` of a child: the children before it that are not padding. -/
def Children.valIdx (children : Children) (i : Nat) : Nat :=
  ((children.toList.take i).filter fun child => !child.1).length

theorem layout_field : ∀ {children : Children} {vals : List StateValue} {i : Nat} {ty : Ty},
    SizedVals p children vals → children.toList[i]? = some (false, ty) →
    ∃ v tail rest upperValue upperNp, vals[children.valIdx i]? = some v ∧
      children.toList.drop i = (false, ty) :: rest.toList ∧
      Sized p ty v ∧ SizedVals p rest tail ∧
      layoutValue p children vals = layoutValue p (.field ty rest) (v :: tail) ++ upperValue ∧
      layoutNp p children vals = layoutNp p (.field ty rest) (v :: tail) ++ upperNp
  | .nil, _, _, _, _, found => by cases found
  | .field _ rest, _, 0, _, ⟨v, tail, rfl, sized, sizedRest⟩, found => by
    cases found
    exact ⟨v, tail, rest, [], [], rfl, rfl, sized, sizedRest, (List.append_nil _).symm,
      (List.append_nil _).symm⟩
  | .field ty' rest, _, i + 1, ty, ⟨v', tail', rfl, sized', sizedRest'⟩, found => by
    obtain ⟨v, tail, later, upperValue, upperNp, at', dropped, sized, sizedRest, value, np⟩ :=
      layout_field sizedRest' found
    refine ⟨v, tail, later, upperValue ++ (ty'.toBV v').value,
      upperNp ++ (ty'.toBV v').nonPoison.bits, at', dropped, sized, sizedRest, ?_, ?_⟩
    · rw [layoutValue, value, List.append_assoc]
    · rw [layoutNp, np, List.append_assoc]
  | .padding _ _, _, 0, _, _, found => by cases found
  | .padding width rest, vals, i + 1, ty, sized', found => by
    obtain ⟨v, tail, later, upperValue, upperNp, at', dropped, sized, sizedRest, value, np⟩ :=
      layout_field (show SizedVals p rest vals from sized') found
    have here : layoutValue p (.padding width rest) vals =
        layoutValue p rest vals ++ Bits.zeros width := by rw [layoutValue]
    have here' : layoutNp p (.padding width rest) vals = layoutNp p rest vals ++ [false] := by
      rw [layoutNp]
    refine ⟨v, tail, later, upperValue ++ Bits.zeros width, upperNp ++ [false], at', dropped,
      sized, sizedRest, ?_, ?_⟩
    · rw [here, value, List.append_assoc]
    · rw [here', np, List.append_assoc]

theorem extract_field
    {whole ty : Ty} {vals : List StateValue} {i : Nat} (someBits : whole.kids.Nonempty p)
    (sized : SizedVals p whole.kids vals) (field : whole.children[i]? = some (false, ty)) :
    vals[whole.kids.valIdx i]? =
      some (whole.extract p (whole.kids.aggregateVals p vals) i false) := by
  rw [Ty.children_eq] at field
  have someChild : whole.kids ≠ .nil := by
    intro none
    rw [none] at field
    cases field
  obtain ⟨v, tail, rest, upperValue, upperNp, at', dropped, sized', sizedRest, value, np⟩ :=
    layout_field sized field
  rw [at', aggregateVals_layout someBits sized someChild, value, np,
    extract_layout dropped sized' sizedRest, sized'.fromBV_toBV]

/-! ## The integer form of vectors -/

inductive VecTy where
  | int (width : Nat)
  | vector (elements : Nat) (elem : VecTy)

namespace VecTy

def bits : VecTy → Nat
  | .int width => width
  | .vector elements elem => if elements = 0 then 1 else elements * elem.bits

def npBits (p : Params) (fromInt : Bool) : VecTy → Nat
  | .int width => intNpBits p fromInt width
  | .vector elements elem => if elements = 0 then 1 else elements * elem.npBits p fromInt

def toBV : VecTy → StateValue → StateValue
  | .int _, v => ⟨v.value, .bv v.nonPoison.bits⟩
  | .vector _ _, v => v

def fromBV : VecTy → StateValue → StateValue
  | .int _, v => ⟨v.value, .bool v.nonPoison.isOnes⟩
  | .vector _ _, v => v

/-- The bits of an element, in `extract`. -/
def slices (p : Params) (elements : Nat) (elem : VecTy) (v : StateValue) (index : Nat)
    (fromInt : Bool) : StateValue :=
  let ty := VecTy.vector elements elem
  let totalValue := index * elem.bits
  let totalNp := index * elem.npBits p fromInt
  let lowBits := if fromInt && p.littleEndian then totalValue
    else ty.bits - totalValue - elem.bits
  let lowNp := if fromInt && p.littleEndian then totalNp
    else ty.npBits p fromInt - totalNp - elem.npBits p fromInt
  ⟨v.value.slice lowBits elem.bits, .bv (v.nonPoison.bits.slice lowNp (elem.npBits p fromInt))⟩

/-- `aggregateVals`; there are no empty elements. -/
def aggregateVals (elem : VecTy) (vals : List StateValue) : StateValue :=
  match vals.map elem.toBV with
  | [] => ⟨[false], .bv [false]⟩
  | first :: rest => rest.foldl (fun v vv => v.concat vv) first

def toInt (p : Params) : VecTy → StateValue → StateValue
  | .int width, v => intToInt p width v
  | .vector elements elem, v =>
    let values := (List.range elements).map fun i =>
      elem.toInt p (elem.fromBV (slices p elements elem v i false))
    match values with
    | [] => ⟨[false], .bv [true]⟩
    | first :: rest =>
      rest.foldl (fun ret vv => if p.littleEndian then vv.concat ret else ret.concat vv) first

def fromInt (p : Params) : VecTy → StateValue → StateValue
  | .int _, v => fromIntScalar v
  | .vector elements elem, v =>
    elem.aggregateVals ((List.range elements).map fun i =>
      elem.fromInt p (slices p elements elem v i true))

def extract (p : Params) (elements : Nat) (elem : VecTy) (v : StateValue) (index : Nat)
    (fromInt : Bool) : StateValue :=
  let sv := slices p elements elem v index fromInt
  if fromInt then elem.fromInt p sv else elem.fromBV sv

def WellFormed : VecTy → Prop
  | .int width => 0 < width
  | .vector elements elem => 0 < elements ∧ elem.WellFormed

def Sized (p : Params) : VecTy → StateValue → Prop
  | .int width, v => v.value.length = width ∧ ∃ b, v.nonPoison = .bool b
  | .vector elements elem, v => v.value.length = (VecTy.vector elements elem).bits ∧
      ∃ bits, v.nonPoison = .bv bits ∧ bits.length = (VecTy.vector elements elem).npBits p false

structure Flat (v : StateValue) (valueBits npBits : Nat) : Prop where
  value : v.value.length = valueBits
  np : ∃ bits, v.nonPoison = .bv bits ∧ bits.length = npBits

section

variable {elements index : Nat} {elem ty : VecTy} {v : StateValue} {vals : List StateValue}
  {width npWidth : Nat}

theorem Flat.bits (flat : Flat v width npWidth) : v.nonPoison.bits.length = npWidth := by
  obtain ⟨bits, same, length⟩ := flat.np
  rw [same]
  exact length

theorem Flat.eq_bv (flat : Flat v width npWidth) : v.nonPoison = .bv v.nonPoison.bits := by
  obtain ⟨bits, same, -⟩ := flat.np
  rw [same]
  rfl

theorem toBV_flat (sized : Sized p ty v) : Flat (ty.toBV v) ty.bits (ty.npBits p false) := by
  cases ty with
  | int width =>
    obtain ⟨size, b, np⟩ := sized
    exact ⟨size, _, rfl, by rw [np]; rfl⟩
  | vector elements elem => exact ⟨sized.1, sized.2⟩

theorem fromBV_toBV (sized : Sized p ty v) : ty.fromBV (ty.toBV v) = v := by
  cases ty with
  | int width =>
    obtain ⟨value, np⟩ := v
    obtain ⟨-, b, rfl⟩ := sized
    simp [fromBV, toBV, NonPoison.bits, NonPoison.isOnes, Bits.isOnes]
  | vector elements elem => rfl

theorem toBV_fromBV (flat : Flat v ty.bits (ty.npBits p false)) : ty.toBV (ty.fromBV v) = v := by
  cases ty with
  | int width =>
    obtain ⟨value, np⟩ := v
    obtain ⟨bits, rfl, length⟩ := flat.np
    obtain ⟨b, rfl⟩ := List.length_eq_one_iff.1 (show bits.length = 1 from length)
    simp [fromBV, toBV, NonPoison.bits, NonPoison.isOnes, Bits.isOnes]
  | vector elements elem => rfl

theorem fromBV_sized (flat : Flat v ty.bits (ty.npBits p false)) : Sized p ty (ty.fromBV v) := by
  cases ty with
  | int width => exact ⟨flat.value, _, rfl⟩
  | vector elements elem => exact ⟨flat.value, flat.np⟩

def place (p : Params) (fromInt : Bool) (elements i : Nat) : Nat :=
  if fromInt && p.littleEndian then i else elements - 1 - i

variable {fromInt : Bool}

theorem place_lt (inside : index < elements) : place p fromInt elements index < elements := by
  unfold place
  split <;> omega

theorem slices_eq (inside : index < elements) : slices p elements elem v index fromInt =
      ⟨v.value.slice (place p fromInt elements index * elem.bits) elem.bits,
        .bv (v.nonPoison.bits.slice (place p fromInt elements index * elem.npBits p fromInt)
          (elem.npBits p fromInt))⟩ := by
  have some : elements ≠ 0 := Nat.ne_zero_of_lt inside
  have after : ∀ n, elements * n - index * n - n = (elements - 1 - index) * n := by
    intro n
    rw [← Nat.sub_mul, ← Nat.sub_one_mul]
    congr 1
    omega
  unfold slices place
  simp only [bits, npBits, if_neg some, after]
  cases fromInt && p.littleEndian <;> rfl

theorem slices_flat (inside : index < elements)
    (flat : Flat v (elements * elem.bits) (elements * elem.npBits p fromInt)) :
    Flat (slices p elements elem v index fromInt) elem.bits (elem.npBits p fromInt) := by
  have below : place p fromInt elements index + 1 ≤ elements := place_lt inside
  rw [slices_eq inside]
  refine ⟨Bits.length_slice ?_, _, rfl, Bits.length_slice ?_⟩
  · rw [flat.value, ← Nat.succ_mul]
    exact Nat.mul_le_mul_right _ below
  · rw [flat.bits, ← Nat.succ_mul]
    exact Nat.mul_le_mul_right _ below

def stack (vals : List StateValue) : StateValue :=
  ⟨(vals.map StateValue.value).flatten, .bv (vals.map fun v => v.nonPoison.bits).flatten⟩

theorem stack_flat (each : ∀ v ∈ vals, Flat v width npWidth) :
    Flat (stack vals) (vals.length * width) (vals.length * npWidth) := by
  have uniform : ∀ (size : StateValue → Nat) (n : Nat), (∀ v ∈ vals, size v = n) →
      (vals.map size).sum = vals.length * n := by
    intro size n same
    rw [List.map_congr_left same, List.map_const', List.sum_replicate, smul_eq_mul]
  refine ⟨?_, _, rfl, ?_⟩
  · rw [stack, List.length_flatten, List.map_map]
    exact uniform _ _ fun v member => (each v member).value
  · rw [List.length_flatten, List.map_map]
    exact uniform _ _ fun v member => (each v member).bits

theorem slice_stack (each : ∀ v ∈ vals, Flat v width npWidth) (found : vals[index]? = some v) :
    (⟨(stack vals).value.slice (index * width) width,
      .bv ((stack vals).nonPoison.bits.slice (index * npWidth) npWidth)⟩ : StateValue) = v := by
  have value := Bits.slice_flatten_uniform (i := index)
    (List.forall_mem_map.2 fun v member => (each v member).value)
    (by rw [List.getElem?_map, found]; rfl)
  have np := Bits.slice_flatten_uniform (i := index)
    (List.forall_mem_map.2 fun v member => (each v member).bits)
    (by rw [List.getElem?_map, found]; rfl)
  have flat := each v (List.mem_of_getElem? found)
  change (⟨Bits.slice (List.flatten _) _ _, .bv (Bits.slice (List.flatten _) _ _)⟩ : StateValue) = v
  rw [value, np, ← flat.eq_bv]

theorem stack_slices (flat : Flat v (elements * width) (elements * npWidth)) :
    stack ((List.range elements).map fun i =>
      ⟨v.value.slice (i * width) width, .bv (v.nonPoison.bits.slice (i * npWidth) npWidth)⟩) =
      v := by
  obtain ⟨value, np⟩ := v
  obtain ⟨bits, rfl, length⟩ := flat.np
  have values := Bits.flatten_slices value width elements
  have nps := Bits.flatten_slices bits npWidth elements
  rw [Bits.slice_whole flat.value] at values
  rw [Bits.slice_whole length] at nps
  simp only [stack, List.map_map, Function.comp_def, NonPoison.bits]
  rw [values, nps]

theorem foldl_toInt {first : StateValue} {rest : List StateValue}
    (each : ∀ v ∈ first :: rest, Flat v width npWidth) :
    rest.foldl (fun ret vv => if p.littleEndian then vv.concat ret else ret.concat vv) first =
      stack (if p.littleEndian then first :: rest else (first :: rest).reverse) := by
  have bvs : ∀ v ∈ first :: rest, ∃ x, v.nonPoison = .bv x := fun v member =>
    (each v member).np.imp fun _ both => both.1
  cases p.littleEndian with
  | true => exact foldl_concat_above bvs
  | false => exact foldl_concat_below bvs

/-- The elements that `toInt` makes. -/
def intElements (p : Params) (elements : Nat) (elem : VecTy) (v : StateValue) : List StateValue :=
  (List.range elements).map fun i => elem.toInt p (elem.fromBV (slices p elements elem v i false))

theorem toInt_vector
    (some : 0 < elements) (each : ∀ e ∈ intElements p elements elem v, Flat e width npWidth) :
    (VecTy.vector elements elem).toInt p v =
      stack (if p.littleEndian then intElements p elements elem v
        else (intElements p elements elem v).reverse) := by
  have length : (intElements p elements elem v).length = elements := by
    rw [intElements, List.length_map, List.length_range]
  have shape : (VecTy.vector elements elem).toInt p v = match intElements p elements elem v with
      | [] => (⟨[false], .bv [true]⟩ : StateValue)
      | first :: rest =>
        rest.foldl (fun ret vv => if p.littleEndian then vv.concat ret else ret.concat vv)
          first := by
    rw [toInt, intElements]
  rw [shape]
  cases shape : intElements p elements elem v with
  | nil =>
    rw [shape] at length
    exact absurd length some.ne
  | cons first rest =>
    rw [shape] at each
    exact foldl_toInt each

theorem aggregateVals_eq (some : vals ≠ []) (each : ∀ v ∈ vals, Sized p elem v) :
    elem.aggregateVals vals = stack (vals.map elem.toBV).reverse := by
  have flat : ∀ v ∈ vals.map elem.toBV, ∃ x, v.nonPoison = .bv x := by
    intro v member
    obtain ⟨w, inside, rfl⟩ := List.mem_map.1 member
    exact (toBV_flat (each w inside)).np.imp fun _ both => both.1
  unfold aggregateVals
  cases shape : vals.map elem.toBV with
  | nil => exact absurd (List.map_eq_nil_iff.1 shape) some
  | cons first rest =>
    rw [shape] at flat
    exact foldl_concat_below flat

theorem aggregateVals_elements (some : 0 < elements) (sized : Sized p (.vector elements elem) v) :
    elem.aggregateVals ((List.range elements).map fun i =>
      elem.fromBV (slices p elements elem v i false)) = v := by
  have flat : Flat v (elements * elem.bits) (elements * elem.npBits p false) := by
    have both := sized
    rw [Sized, bits, npBits, if_neg some.ne', if_neg some.ne'] at both
    exact ⟨both.1, both.2⟩
  rw [aggregateVals_eq (p := p) (by simpa using some.ne') fun e member => ?_]
  · conv_rhs => rw [← stack_slices flat]
    congr 1
    rw [List.map_map, ← List.map_reverse]
    refine List.ext_getElem (by simp) fun i first second => ?_
    have inside : i < elements := by simpa using second
    rw [List.getElem_map, List.getElem_reverse, List.getElem_map, List.getElem_range,
      List.getElem_range, List.length_range]
    have slice : Flat (slices p elements elem v (elements - 1 - i) false) elem.bits
        (elem.npBits p false) := slices_flat (by omega) flat
    rw [Function.comp_apply, toBV_fromBV slice, slices_eq (by omega)]
    have back : place p false elements (elements - 1 - i) = i := by
      change elements - 1 - (elements - 1 - i) = i
      omega
    rw [back]
  · obtain ⟨i, inside, rfl⟩ := List.mem_map.1 member
    exact fromBV_sized (slices_flat (List.mem_range.1 inside) flat)

/-! ### The round trip -/

variable {v : StateValue}

theorem intNpBits_pos (poison : 0 < p.bitsPoisonPerByte) (byte : 0 < p.bitsByte)
    (some : 0 < width) : 0 < intNpBits p true width := by
  unfold intNpBits divideUp
  rw [if_pos rfl, lt_min_iff]
  refine ⟨some, Nat.div_pos ?_ byte⟩
  have product := Nat.mul_pos some poison
  omega

theorem vector_flat (some : 0 < elements) (sized : Sized p (.vector elements elem) v) :
    Flat v (elements * elem.bits) (elements * elem.npBits p false) := by
  rw [Sized, bits, npBits, if_neg some.ne', if_neg some.ne'] at sized
  exact ⟨sized.1, sized.2⟩

theorem intElements_flat
    (each : ∀ e, Sized p elem e → Flat (elem.toInt p e) elem.bits (elem.npBits p true))
    (flat : Flat v (elements * elem.bits) (elements * elem.npBits p false)) :
    ∀ e ∈ intElements p elements elem v, Flat e elem.bits (elem.npBits p true) := by
  intro e member
  obtain ⟨i, inside, rfl⟩ := List.mem_map.1 member
  exact each _ (fromBV_sized (slices_flat (List.mem_range.1 inside) flat))

def placed (p : Params) (elements : Nat) (elem : VecTy) (v : StateValue) : List StateValue :=
  if p.littleEndian then intElements p elements elem v
  else (intElements p elements elem v).reverse

theorem mem_placed
    {e : StateValue} : e ∈ placed p elements elem v ↔ e ∈ intElements p elements elem v := by
  unfold placed
  split
  · rfl
  · exact List.mem_reverse

theorem length_placed (p : Params) (elements : Nat) (elem : VecTy) (v : StateValue) :
    (placed p elements elem v).length = elements := by
  unfold placed
  split <;> simp [intElements]

theorem placed_place (inside : index < elements) :
    (placed p elements elem v)[place p true elements index]? =
      some (elem.toInt p (elem.fromBV (slices p elements elem v index false))) := by
  unfold placed place
  cases p.littleEndian with
  | true => simp [intElements, inside]
  | false =>
    have back : elements - 1 - (elements - 1 - index) = index := by omega
    have below : elements - 1 - index < (intElements p elements elem v).length := by
      rw [intElements, List.length_map, List.length_range]
      omega
    rw [Bool.and_false, if_neg Bool.false_ne_true, if_neg Bool.false_ne_true,
      List.getElem?_reverse below]
    simp [intElements, back, inside]

theorem toInt_flat (wf : ty.WellFormed) :
    ∀ v, Sized p ty v → Flat (ty.toInt p v) ty.bits (ty.npBits p true) := by
  induction ty with
  | int width =>
    intro v sized
    exact ⟨sized.1, _, rfl, List.length_replicate⟩
  | vector elements elem ih =>
    intro v sized
    have each := intElements_flat (ih wf.2) (vector_flat wf.1 sized)
    have flat := stack_flat fun e (member : e ∈ placed p elements elem v) =>
      each e (mem_placed.1 member)
    rw [length_placed] at flat
    rw [toInt_vector wf.1 each, bits, npBits, if_neg wf.1.ne', if_neg wf.1.ne']
    exact flat

theorem slices_toInt (wf : (VecTy.vector elements elem).WellFormed)
    (sized : Sized p (.vector elements elem) v) (inside : index < elements) :
    slices p elements elem ((VecTy.vector elements elem).toInt p v) index true =
      elem.toInt p (elem.fromBV (slices p elements elem v index false)) := by
  have each := intElements_flat (toInt_flat wf.2) (vector_flat wf.1 sized)
  rw [slices_eq inside, toInt_vector wf.1 each]
  exact slice_stack (fun e member => each e (mem_placed.1 member)) (placed_place inside)

theorem fromInt_toInt (poison : 0 < p.bitsPoisonPerByte) (byte : 0 < p.bitsByte)
    (wf : ty.WellFormed) : ∀ v, Sized p ty v → ty.fromInt p (ty.toInt p v) = v := by
  induction ty with
  | int width =>
    rintro ⟨value, np⟩ ⟨-, b, rfl⟩
    have ones := Bits.isOnes_replicate (intNpBits_pos poison byte wf) b
    simp [fromInt, toInt, intToInt, fromIntScalar, NonPoison.isOnes, ones]
  | vector elements elem ih =>
    intro v sized
    have back : ∀ i ∈ List.range elements,
        elem.fromInt p (slices p elements elem ((VecTy.vector elements elem).toInt p v) i true) =
          elem.fromBV (slices p elements elem v i false) := by
      intro i member
      have inside := List.mem_range.1 member
      rw [slices_toInt wf sized inside]
      exact ih wf.2 _ (fromBV_sized (slices_flat inside (vector_flat wf.1 sized)))
    rw [fromInt, List.map_congr_left back]
    exact aggregateVals_elements wf.1 sized

theorem toInt_eq_vector (v : StateValue) :
    (VecTy.vector elements (.int width)).toInt p v = (Ty.vector elements width).toInt p v := by
  have same : ∀ i ∈ List.range elements, (VecTy.int width).toInt p
          ((VecTy.int width).fromBV (slices p elements (.int width) v i false)) =
        intToInt p width ((Ty.vector elements width).extract p v i false) := by
    intro i member
    have inside := List.mem_range.1 member
    rw [vector_extract inside, slices_eq inside]
    simp [toInt, fromBV, place, VecTy.bits, npBits, intNpBits, NonPoison.isOnes]
  simp only [toInt, Ty.toInt]
  rw [← List.map_congr_left same]
  rfl

end

end VecTy

namespace VectorType

variable {bw elements k k' : Nat}

def shift (elements bw : Nat) (index : BitVec k) : BitVec (elements * bw) :=
  index.setWidth (elements * bw) * BitVec.ofNat (elements * bw) bw

/-- `extract`, of the value or of the poison bits. -/
def extract (vector : BitVec (elements * bw)) (index : BitVec k) : BitVec bw :=
  (vector <<< shift elements bw index).extractLsb' ((elements - 1) * bw) bw

def atTop (elements : Nat) (x : BitVec bw) : BitVec (elements * bw) :=
  (x ++ 0#(elements * bw - bw)).setWidth (elements * bw)

/-- `update`, of the value or of the poison bits. -/
def update (vector : BitVec (elements * bw)) (val : BitVec bw) (index : BitVec k) :
    BitVec (elements * bw) :=
  if elements = 1 then val.setWidth (elements * bw)
  else
    let idx := shift elements bw index
    let mask := ~~~(atTop elements (BitVec.allOnes bw) >>> idx)
    (vector &&& mask) ||| (atTop elements val >>> idx)

inductive Element where
  | scalar (bits : Nat)
  | aggregate (bits npBits : Nat)

namespace Element

def bits : Element → Nat
  | .scalar bits => bits
  | .aggregate bits _ => bits

def npBits : Element → Nat
  | .scalar _ => 1
  | .aggregate _ npBits => npBits

/-- The type of `non_poison`. -/
abbrev NonPoison : Element → Type
  | .scalar _ => Bool
  | .aggregate _ npBits => BitVec npBits

def toBV : (elem : Element) → elem.NonPoison → BitVec elem.npBits
  | .scalar _, b => BitVec.ofBool b
  | .aggregate _ _, np => np

def fromBV : (elem : Element) → BitVec elem.npBits → elem.NonPoison
  | .scalar _, np => np == BitVec.allOnes 1
  | .aggregate _ _, np => np

theorem fromBV_toBV (elem : Element) (np : elem.NonPoison) : elem.fromBV (elem.toBV np) = np := by
  cases elem with
  | scalar bits =>
    change Bool at np
    cases np <;> rfl
  | aggregate bits npBits => rfl

end Element

structure Vector (elements : Nat) (elem : Element) where
  value : BitVec (elements * elem.bits)
  nonPoison : BitVec (elements * elem.npBits)

structure Lane (elem : Element) where
  value : BitVec elem.bits
  nonPoison : elem.NonPoison

variable {elem : Element}

/-- `VectorType::extract`. -/
def extractLane (vector : Vector elements elem) (index : BitVec k) : Lane elem :=
  ⟨extract vector.value index, elem.fromBV (extract vector.nonPoison index)⟩

/-- `VectorType::update`. -/
def updateLane (vector : Vector elements elem) (val : Lane elem) (index : BitVec k) :
    Vector elements elem :=
  ⟨update vector.value val.value index, update vector.nonPoison (elem.toBV val.nonPoison) index⟩

section

variable {vector : BitVec (elements * bw)} {x : BitVec bw} {i : BitVec k} {j : BitVec k'} {b : Nat}

theorem toNat_shift
    (some : 0 < bw) (inside : i.toNat < elements) : (shift elements bw i).toNat = i.toNat * bw := by
  have size : i.toNat * bw < elements * bw := (Nat.mul_lt_mul_right some).2 inside
  have room : elements * bw < 2 ^ (elements * bw) := Nat.lt_two_pow_self
  have index : i.toNat ≤ i.toNat * bw := Nat.le_mul_of_pos_right _ some
  have width : bw ≤ elements * bw := Nat.le_mul_of_pos_left _ (Nat.zero_lt_of_lt inside)
  rw [shift, BitVec.toNat_mul, BitVec.toNat_setWidth, BitVec.toNat_ofNat,
    Nat.mod_eq_of_lt (by omega : i.toNat < _), Nat.mod_eq_of_lt (by omega : bw < _),
    Nat.mod_eq_of_lt (by omega)]

def low (elements bw index : Nat) : Nat := (elements - 1 - index) * bw

theorem low_add {index : Nat}
    (inside : index < elements) : low elements bw index + index * bw = (elements - 1) * bw := by
  unfold low
  rw [← Nat.add_mul, Nat.sub_add_cancel (by omega)]

theorem low_end {index : Nat}
    (inside : index < elements) : low elements bw index + index * bw + bw = elements * bw := by
  rw [low_add inside, ← Nat.succ_mul, Nat.succ_eq_add_one, Nat.sub_add_cancel (by omega)]

theorem getLsbD_extract (some : 0 < bw) (inside : j.toNat < elements) (bit : b < bw) :
    (extract vector j).getLsbD b = vector.getLsbD (low elements bw j.toNat + b) := by
  have place : low elements bw j.toNat + j.toNat * bw = (elements - 1) * bw := low_add inside
  have last : low elements bw j.toNat + j.toNat * bw + bw = elements * bw := low_end inside
  rw [extract, BitVec.getLsbD_extractLsb', decide_eq_true bit, Bool.true_and,
    BitVec.shiftLeft_eq', BitVec.getLsbD_shiftLeft, toNat_shift some inside,
    decide_eq_true (by omega), decide_eq_false (by omega), Bool.true_and, Bool.not_false,
    Bool.true_and]
  congr 1
  omega

section

variable (some : 0 < bw) (inside : i.toNat < elements)

include some inside

theorem getLsbD_atTop : (atTop elements x >>> shift elements bw i).getLsbD b =
      (decide (low elements bw i.toNat ≤ b) && x.getLsbD (b - low elements bw i.toNat)) := by
  have place : low elements bw i.toNat + i.toNat * bw + bw = elements * bw := low_end inside
  rw [BitVec.ushiftRight_eq', BitVec.getLsbD_ushiftRight, toNat_shift some inside, atTop,
    BitVec.getLsbD_setWidth, BitVec.getLsbD_append]
  by_cases above : low elements bw i.toNat ≤ b
  · rw [decide_eq_true above, if_neg (by omega), Bool.true_and]
    by_cases short : i.toNat * bw + b < elements * bw
    · rw [decide_eq_true short, Bool.true_and]
      congr 1
      omega
    · rw [decide_eq_false short, Bool.false_and, BitVec.getLsbD_of_ge _ _ (by omega)]
  · rw [decide_eq_false above, Bool.false_and, if_pos (by omega), BitVec.getLsbD_zero,
      Bool.and_false]

theorem getLsbD_update (bit : b < elements * bw) : (update vector x i).getLsbD b =
      if low elements bw i.toNat ≤ b ∧ b < low elements bw i.toNat + bw
      then x.getLsbD (b - low elements bw i.toNat) else vector.getLsbD b := by
  unfold update
  split
  · next single =>
      subst single
      have zero : i.toNat = 0 := by omega
      have start : low 1 bw 0 = 0 := Nat.zero_mul bw
      rw [zero, start, if_pos ⟨Nat.zero_le b, by omega⟩, BitVec.getLsbD_setWidth,
        decide_eq_true bit]
      simp
  · rw [BitVec.getLsbD_or, BitVec.getLsbD_and, BitVec.getLsbD_not, getLsbD_atTop some inside,
      getLsbD_atTop some inside, decide_eq_true bit, BitVec.getLsbD_allOnes]
    by_cases above : low elements bw i.toNat ≤ b
    · by_cases below : b < low elements bw i.toNat + bw
      · have within : b - low elements bw i.toNat < bw := by omega
        simp [above, below, within]
      · have beyond : ¬b - low elements bw i.toNat < bw := by omega
        simp [above, below, beyond, BitVec.getLsbD_of_ge x _ (not_lt.1 beyond)]
    · simp [above]

theorem extract_update (inside' : j.toNat < elements) :
    extract (update vector x i) j = if i.toNat = j.toNat then x else extract vector j := by
  refine BitVec.eq_of_getLsbD_eq fun b bit => ?_
  have place : low elements bw j.toNat + j.toNat * bw + bw = elements * bw := low_end inside'
  rw [getLsbD_extract some inside' bit, getLsbD_update some inside (by omega)]
  by_cases same : i.toNat = j.toNat
  · rw [same, if_pos ⟨by omega, by omega⟩, if_pos rfl]
    congr 1
    omega
  · rw [if_neg ?_, if_neg same, getLsbD_extract some inside' bit]
    rintro ⟨above, below⟩
    unfold low at above below
    rcases Nat.lt_or_gt_of_ne same with less | more
    · have step : (elements - 1 - j.toNat + 1) * bw ≤ (elements - 1 - i.toNat) * bw :=
        Nat.mul_le_mul_right _ (by omega)
      rw [Nat.add_mul, Nat.one_mul] at step
      omega
    · have step : (elements - 1 - i.toNat + 1) * bw ≤ (elements - 1 - j.toNat) * bw :=
        Nat.mul_le_mul_right _ (by omega)
      rw [Nat.add_mul, Nat.one_mul] at step
      omega

end

theorem extractLane_updateLane
    {vector : Vector elements elem} {val : Lane elem} (some : 0 < elem.bits)
    (someNp : 0 < elem.npBits) (inside : i.toNat < elements) (inside' : j.toNat < elements) :
    extractLane (updateLane vector val i) j =
      if i.toNat = j.toNat then val else extractLane vector j := by
  unfold extractLane updateLane
  rw [extract_update some inside inside', extract_update someNp inside inside']
  split
  · rw [Element.fromBV_toBV]
  · rfl

end

end VectorType

/-- The fields of an aggregate, a vector in its integer form, and an updated vector read
back. -/
theorem aggregate_forms_round_trip :
    (∀ (p : Params) (whole : Ty) (vals : List StateValue), whole.kids.Nonempty p →
      SizedVals p whole.kids vals → ∀ (i : Nat) (ty : Ty), whole.children[i]? = some (false, ty) →
      vals[whole.kids.valIdx i]? =
        some (whole.extract p (whole.kids.aggregateVals p vals) i false)) ∧
    (∀ (p : Params) (ty : VecTy), 0 < p.bitsPoisonPerByte → 0 < p.bitsByte → ty.WellFormed →
      ∀ v, ty.Sized p v → ty.fromInt p (ty.toInt p v) = v) ∧
    (∀ (elem : VectorType.Element), 0 < elem.bits → 0 < elem.npBits →
      ∀ (elements k k' : Nat) (vector : VectorType.Vector elements elem)
        (val : VectorType.Lane elem) (i : BitVec k) (j : BitVec k'),
        i.toNat < elements → j.toNat < elements →
        VectorType.extractLane (VectorType.updateLane vector val i) j =
          if i.toNat = j.toNat then val else VectorType.extractLane vector j) :=
  ⟨fun _ _ _ someBits sized _ _ field => extract_field someBits sized field,
    fun _ _ poison byte wf => VecTy.fromInt_toInt poison byte wf,
    fun _ some someNp _ _ _ _ _ _ _ inside inside' =>
      VectorType.extractLane_updateLane some someNp inside inside'⟩

def fullPoison : Params where
  bitsByte := 8
  bitsPoisonPerByte := 8
  numSubByteBits := 0
  bitsProgramPointer := 64
  pointerBits := 68
  littleEndian := false
  doesIntLoad := true
  doesIntStore := true
  doesPtrLoad := false
  doesPtrStore := false
  disallowUbExploitation := false
  getAddress := id
  autoCast := id

theorem aggregate_forms_round_trip_small :
    [(⟨[true], .bool true⟩ : StateValue), ⟨[false, true], .bool false⟩][1]? =
      some ((Ty.aggregate false (.field (.int 1) (.padding 7 (.field (.int 2) .nil)))).extract
        fullPoison (Children.aggregateVals fullPoison
          (.field (.int 1) (.padding 7 (.field (.int 2) .nil)))
          [⟨[true], .bool true⟩, ⟨[false, true], .bool false⟩]) 2 false) ∧
    (VecTy.vector 1 (.int 1)).fromInt fullPoison
      ((VecTy.vector 1 (.int 1)).toInt fullPoison ⟨[true], .bv [true]⟩) =
      ⟨[true], .bv [true]⟩ ∧
    VectorType.extractLane (VectorType.updateLane
      (⟨0x21#8, 0b11#2⟩ : VectorType.Vector 2 (.scalar 4)) ⟨7#4, false⟩ 1#3) 1#5 =
      ⟨7#4, false⟩ := by
  obtain ⟨fields, forms, lanes⟩ := aggregate_forms_round_trip
  refine ⟨fields fullPoison (.aggregate false (.field (.int 1) (.padding 7 (.field (.int 2) .nil))))
    [⟨[true], .bool true⟩, ⟨[false, true], .bool false⟩] ?_ ?_ 2 (.int 2) rfl, ?_, ?_⟩
  · intro child member
    fin_cases member <;> decide
  · exact ⟨_, _, rfl, ⟨rfl, true, rfl⟩, _, _, rfl, ⟨rfl, false, rfl⟩, rfl⟩
  · exact forms fullPoison (.vector 1 (.int 1)) (by decide) (by decide)
      ⟨Nat.zero_lt_one, Nat.zero_lt_one⟩ _ ⟨rfl, _, rfl, rfl⟩
  · exact lanes (.scalar 4) (by decide) (by decide) 2 3 5 ⟨0x21#8, 0b11#2⟩ ⟨7#4, false⟩ 1#3 1#5
      (by decide) (by decide)

end AliveNext.IR
