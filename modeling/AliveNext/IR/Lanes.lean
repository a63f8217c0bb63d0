import AliveNext.Smt.Lanes

/-!
# Vectors of integers as terms

A vector is one term for the values of its elements and one for which of them are not poison,
both with the first element on top (`AggregateType` in `ir/type.cpp`).
-/

namespace AliveNext.IR.Lanes

open Smt Smt.Expr

structure StateValue where
  value : Expr
  nonPoison : Expr

/-- A vector of `elements` integers of `width` bits. -/
structure VectorType where
  elements : Nat
  width : Nat

variable (z : Z3)

/-- `Type::toBV`. -/
def toBV (v : StateValue) : StateValue := ⟨v.value, toBVBool z v.nonPoison⟩

/-- The concatenation of values, which `AggregateType::aggregateVals` makes. -/
def concatVals (vals : List StateValue) : StateValue :=
  ⟨concatAll z (vals.map StateValue.value), concatAll z (vals.map StateValue.nonPoison)⟩

namespace VectorType

/-- `aggregateVals` of a vector. -/
def aggregateVals (_ : VectorType) (vals : List StateValue) : StateValue :=
  concatVals z (vals.map (toBV z))

variable (ty : VectorType)

def extract (val : StateValue) (index : Nat) : StateValue :=
  let highVal := ty.elements * ty.width - index * ty.width
  let highNp := ty.elements - index
  ⟨Expr.extract z val.value (highVal - 1) (highVal - ty.width) 3,
    cmpEq z (Expr.extract z val.nonPoison (highNp - 1) (highNp - 1) 3) (mkInt (-1) 1)⟩

end VectorType

/-- An element that is not poison, or `none`. -/
noncomputable def read (value : BitVec w) (nonPoison : Prop) : Option (BitVec w) :=
  open Classical in if nonPoison then some value else none

namespace StateValue

variable (v : StateValue) (M : Model)

/-- The value of an element, below which there are `after` elements. -/
noncomputable def lane (w after : Nat) : BitVec w := v.value.bitsAt M (after * w) w

def LaneNonPoison (after : Nat) : Prop := v.nonPoison.bitsAt M after 1 = 1#1

/-- The two terms of a vector, which divide by zero nowhere in a model. -/
structure Vector (ty : VectorType) : Prop where
  value : v.value.HasSort (.bv (ty.elements * ty.width))
  nonPoison : v.nonPoison.HasSort (.bv ty.elements)
  safe : Safe [v.value, v.nonPoison] M

structure Scalar (width : Nat) : Prop where
  value : v.value.HasSort (.bv width)
  nonPoison : v.nonPoison.HasSort .bool
  safe : Safe [v.value, v.nonPoison] M

end StateValue

variable {M : Model} {v : StateValue} {ty : VectorType} {i : Nat}

/-- `extract` reads an element. -/
theorem extract_is (vector : v.Vector M ty) (inside : i < ty.elements) :
    (ty.extract z v i).value.Is M ty.width (v.lane M ty.width (ty.elements - 1 - i)) ∧
      (ty.extract z v i).nonPoison.Holds M (v.LaneNonPoison M (ty.elements - 1 - i)) := by
  obtain ⟨safeValue, safeNp⟩ := safe_pair.1 vector.safe
  have positive : 0 < ty.width := Nat.pos_of_mul_pos_left vector.value.pos
  have place : (ty.elements - 1 - i) * ty.width + ty.width = (ty.elements - i) * ty.width := by
    rw [← Nat.succ_mul]
    congr 1
    omega
  have within : (ty.elements - i) * ty.width ≤ ty.elements * ty.width :=
    Nat.mul_le_mul_right _ (Nat.sub_le _ _)
  have start : ty.elements * ty.width - i * ty.width = (ty.elements - i) * ty.width :=
    (Nat.sub_mul _ _ _).symm
  constructor
  · have whole := Is.refl vector.value safeValue
    have part := whole.slice z (ty.elements * ty.width - i * ty.width - 1)
      ((ty.elements - 1 - i) * ty.width) 3 positive (by omega) (by omega)
    have low : (ty.elements - 1 - i) * ty.width =
        ty.elements * ty.width - i * ty.width - ty.width := by omega
    unfold VectorType.extract StateValue.lane
    rwa [low] at part ⊢
  · have whole := Is.refl vector.nonPoison safeNp
    have part := whole.slice z (ty.elements - i - 1) (ty.elements - i - 1) 3 Nat.one_pos
      (by omega) (by omega)
    have holds := part.cmpEq z ((denotes_mkInt_neg_one Nat.one_pos).is vector.safe)
    unfold VectorType.extract StateValue.LaneNonPoison
    rw [show ty.elements - 1 - i = ty.elements - i - 1 by omega]
    exact holds

theorem widths_map (w : Nat) (xs : Nat → BitVec w) (is : List Nat) :
    Piece.widths (is.map fun i => (⟨w, xs i⟩ : Piece)) = is.length * w := by
  unfold Piece.widths
  rw [List.map_map]
  induction is with
  | nil => rw [List.map_nil, List.sum_nil, List.length_nil, Nat.zero_mul]
  | cons i is ih =>
    rw [List.map_cons, List.sum_cons, ih, List.length_cons, Nat.succ_mul, Nat.add_comm]
    rfl

theorem range_split {i n : Nat} (inside : i < n) :
    List.range n = List.range i ++ i :: (List.range (n - 1 - i)).map (i + 1 + ·) := by
  obtain ⟨k, rfl⟩ : ∃ k, n = i + (1 + k) := ⟨n - 1 - i, by omega⟩
  rw [List.range_add, List.range_add, show i + (1 + k) - 1 - i = k by omega]
  simp [List.range_succ, Nat.add_assoc, Function.comp_def]

variable {es : List Expr} {fields : List FieldType} {cs : List StateValue} {size : FieldType → Nat}
  {term : StateValue → Expr}

theorem concatAll_lanes {w n : Nat} {xs : Nat → BitVec w} (length : es.length = n)
    (positive : 0 < n) (each : ∀ i (inside : i < es.length), es[i].Is M w (xs i)) :
    (concatAll z es).HasSort (.bv (n * w)) ∧ (concatAll z es).NonzeroDivisors M ∧
      ∀ i < n, (concatAll z es).bitsAt M ((n - 1 - i) * w) w = xs i := by
  have pieces : List.Forall₂ (fun e (piece : Piece) => Is e M piece.1 piece.2) es
      ((List.range n).map fun i => ⟨w, xs i⟩) := by
    rw [List.forall₂_iff_get]
    refine ⟨by simp [length], fun i inside inside' => ?_⟩
    have same : ((List.range n).map fun i => (⟨w, xs i⟩ : Piece)).get ⟨i, inside'⟩ = ⟨w, xs i⟩ := by
      simp
    rw [same]
    exact each i inside
  have nonempty : es ≠ [] := List.ne_nil_of_length_pos (length ▸ positive)
  obtain ⟨sorted, safe⟩ := concatAll_sorted z nonempty pieces
  rw [widths_map, List.length_range] at sorted
  refine ⟨sorted, safe, fun i inside => ?_⟩
  rw [range_split inside, List.map_append, List.map_cons] at pieces
  have kept := bitsAt_concatAll z pieces
  rwa [widths_map, List.length_map, List.length_range] at kept

variable (ty) in
theorem aggregateVals_lanes {vals : List StateValue} {xs : Nat → BitVec ty.width} {ps : Nat → Prop}
    (length : vals.length = ty.elements) (positive : 0 < ty.elements)
    (each : ∀ i (inside : i < vals.length),
      vals[i].value.Is M ty.width (xs i) ∧ vals[i].nonPoison.Holds M (ps i)) :
    (ty.aggregateVals z vals).Vector M ty ∧ ∀ i < ty.elements,
      (ty.aggregateVals z vals).lane M ty.width (ty.elements - 1 - i) = xs i ∧
        ((ty.aggregateVals z vals).LaneNonPoison M (ty.elements - 1 - i) ↔ ps i) := by
  classical
  have values : ∀ i (inside : i < ((vals.map (toBV z)).map StateValue.value).length),
      ((vals.map (toBV z)).map StateValue.value)[i].Is M ty.width (xs i) := by
    intro i inside
    rw [List.length_map, List.length_map] at inside
    rw [List.getElem_map, List.getElem_map]
    exact (each i inside).1
  have bits : ∀ i (inside : i < ((vals.map (toBV z)).map StateValue.nonPoison).length),
      ((vals.map (toBV z)).map StateValue.nonPoison)[i].Is M 1 (BitVec.ofBool (decide (ps i))) := by
    intro i inside
    rw [List.length_map, List.length_map] at inside
    rw [List.getElem_map, List.getElem_map]
    exact (each i inside).2.toBVBool z
  obtain ⟨sortedValue, safeValue, lanes⟩ :=
    concatAll_lanes z (n := ty.elements) (by simp [length]) positive values
  obtain ⟨sortedNp, safeNp, laneBits⟩ :=
    concatAll_lanes z (n := ty.elements) (by simp [length]) positive bits
  rw [Nat.mul_one] at sortedNp
  refine ⟨⟨sortedValue, sortedNp, safe_pair.2 ⟨safeValue, safeNp⟩⟩, fun i inside =>
    ⟨lanes i inside, ?_⟩⟩
  have bit := laneBits i inside
  rw [Nat.mul_one] at bit
  show Expr.bitsAt _ _ _ _ = _ ↔ _
  rw [VectorType.aggregateVals, concatVals, bit]
  by_cases known : ps i <;> simp [known]

/-- A child of a structure. -/
inductive FieldType where
  | int (width : Nat)
  | vector (ty : VectorType)
  | padding (width : Nat)

namespace FieldType

def bits : FieldType → Nat
  | .int width | .padding width => width
  | .vector ty => ty.elements * ty.width

def npBits : FieldType → Nat
  | .int _ | .padding _ => 1
  | .vector ty => ty.elements

end FieldType

/-- The children as `aggregateVals` of a structure takes them, with values for the padding. -/
def childVals : List FieldType → List StateValue → List StateValue
  | .padding width :: fields, vals =>
    toBV z ⟨mkUInt 0 width, .bool false⟩ :: childVals fields vals
  | .int _ :: fields, v :: vals => toBV z v :: childVals fields vals
  | .vector _ :: fields, v :: vals => v :: childVals fields vals
  | _, _ => []

def aggregateStruct (fields : List FieldType) (vals : List StateValue) : StateValue :=
  concatVals z (childVals z fields vals)

/-- `extract` of a structure. -/
def extractField (fields : List FieldType) (val : StateValue) (index : Nat) : StateValue :=
  let total (size : FieldType → Nat) (fields : List FieldType) := (fields.map size).sum
  match fields[index]? with
  | none => val
  | some field =>
    let highVal := total FieldType.bits fields - total FieldType.bits (fields.take index)
    let highNp := total FieldType.npBits fields - total FieldType.npBits (fields.take index)
    let value := Expr.extract z val.value (highVal - 1) (highVal - field.bits) 3
    let nonPoison := Expr.extract z val.nonPoison (highNp - 1) (highNp - field.npBits) 3
    match field with
    | .vector _ => ⟨value, nonPoison⟩
    | _ => ⟨value, cmpEq z nonPoison (mkInt (-1) field.npBits)⟩

theorem slice_concatAll {before after : List Piece} {piece : Piece} {high low : Nat}
    (is : List.Forall₂ (fun e piece => Is e M piece.1 piece.2) es (before ++ piece :: after))
    (positive : 0 < piece.1) (place : low = Piece.widths after ∧ high = low + piece.1 - 1) :
    (Expr.extract z (concatAll z es) high low 3).Is M piece.1 piece.2 := by
  obtain ⟨rfl, rfl⟩ := place
  have nonempty : es ≠ [] := by
    rintro rfl
    cases before <;> cases is
  obtain ⟨sorted, safe⟩ := concatAll_sorted z nonempty is
  have part := (Is.refl sorted safe).slice z _ (Piece.widths after) 3 positive rfl (by
    simp only [Piece.widths, List.map_append, List.map_cons, List.sum_append, List.sum_cons]
    omega)
  rwa [bitsAt_concatAll z is] at part

structure ChildIs (M : Model) (field : FieldType) (c : StateValue) : Prop where
  value : c.value.Is M field.bits (c.value.bv M field.bits)
  nonPoison : c.nonPoison.Is M field.npBits (c.nonPoison.bv M field.npBits)

theorem pieces_of_children
    (children : List.Forall₂ (fun field c =>
      (term c).Is M (size field) ((term c).bv M (size field))) fields cs) :
    List.Forall₂ (fun e (piece : Piece) => e.Is M piece.1 piece.2) (cs.map term)
      ((fields.zip cs).map fun child => ⟨size child.1, (term child.2).bv M (size child.1)⟩) := by
  induction children with
  | nil => exact .nil
  | cons is _ ih => exact .cons is ih

theorem widths_children (size : FieldType → Nat)
    (term : StateValue → Expr) (length : fields.length = cs.length) :
    Piece.widths ((fields.zip cs).map fun child =>
      (⟨size child.1, (term child.2).bv M (size child.1)⟩ : Piece)) = (fields.map size).sum := by
  unfold Piece.widths
  rw [List.map_map]
  induction fields generalizing cs with
  | nil => rfl
  | cons field fields ih =>
    cases cs with
    | nil => cases length
    | cons c cs =>
      rw [List.zip_cons_cons, List.map_cons, List.map_cons, List.sum_cons, List.sum_cons,
        ih (Nat.succ.inj length)]
      rfl

theorem slice_child
    {before after : List FieldType} {field : FieldType} {front back : List StateValue}
    {c : StateValue}
    (children : List.Forall₂ (fun field c =>
      (term c).Is M (size field) ((term c).bv M (size field)))
        (before ++ field :: after) (front ++ c :: back))
    (length : before.length = front.length) (positive : 0 < size field) :
    (Expr.extract z (concatAll z ((front ++ c :: back).map term))
      (((before ++ field :: after).map size).sum - (before.map size).sum - 1)
      (((before ++ field :: after).map size).sum - (before.map size).sum - size field) 3).Is M
        (size field) ((term c).bv M (size field)) := by
  have pieces := pieces_of_children children
  have backLength : after.length = back.length := by
    have whole := children.length_eq
    simp only [List.length_append, List.length_cons] at whole
    omega
  rw [List.zip_append length, List.zip_cons_cons] at pieces
  simp only [List.map_append, List.map_cons] at pieces
  rw [List.map_append (f := term), List.map_cons (f := term)]
  have total : ((before ++ field :: after).map size).sum =
      (before.map size).sum + (size field + (after.map size).sum) := by
    rw [List.map_append, List.sum_append, List.map_cons, List.sum_cons]
  have place := widths_children (M := M) size term backLength
  refine slice_concatAll z pieces ?_ ?_
  · exact positive
  · rw [place, total]
    dsimp only
    omega

section

variable {before after : List FieldType} {field : FieldType} {front back : List StateValue}
  {c : StateValue}

theorem extractField_eq : extractField z (before ++ field :: after) v before.length =
      (let value := Expr.extract z v.value
        (((before ++ field :: after).map FieldType.bits).sum - (before.map FieldType.bits).sum - 1)
        (((before ++ field :: after).map FieldType.bits).sum -
          (before.map FieldType.bits).sum - field.bits) 3
      let nonPoison := Expr.extract z v.nonPoison
        (((before ++ field :: after).map FieldType.npBits).sum -
          (before.map FieldType.npBits).sum - 1)
        (((before ++ field :: after).map FieldType.npBits).sum -
          (before.map FieldType.npBits).sum - field.npBits) 3
      match field with
      | .vector _ => ⟨value, nonPoison⟩
      | _ => ⟨value, cmpEq z nonPoison (mkInt (-1) field.npBits)⟩) := by
  have found : (before ++ field :: after)[before.length]? = some field := by simp
  have front : (before ++ field :: after).take before.length = before := by simp
  rw [extractField, found, front]

variable (children : List.Forall₂ (ChildIs M) (before ++ field :: after) (front ++ c :: back))
  (length : before.length = front.length)

include children length

theorem extractField_terms (positiveBits : 0 < field.bits) (positiveNp : 0 < field.npBits) :
    (Expr.extract z (concatVals z (front ++ c :: back)).value
      (((before ++ field :: after).map FieldType.bits).sum - (before.map FieldType.bits).sum - 1)
      (((before ++ field :: after).map FieldType.bits).sum -
        (before.map FieldType.bits).sum - field.bits) 3).Is M field.bits (c.value.bv M field.bits) ∧
    (Expr.extract z (concatVals z (front ++ c :: back)).nonPoison
      (((before ++ field :: after).map FieldType.npBits).sum -
        (before.map FieldType.npBits).sum - 1)
      (((before ++ field :: after).map FieldType.npBits).sum -
        (before.map FieldType.npBits).sum - field.npBits) 3).Is M field.npBits
          (c.nonPoison.bv M field.npBits) :=
  ⟨slice_child z (children.imp fun _ _ child => child.value) length positiveBits,
    slice_child z (children.imp fun _ _ child => child.nonPoison) length positiveNp⟩

end

end AliveNext.IR.Lanes
