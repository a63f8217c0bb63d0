import AliveNext.IR.BinOpLane

/-!
# Binary operations on scalars and vectors

`BinOp::toSMT` as a whole: its undefined behaviour, and every element of its result, against
LLVM's definition on elements.
-/

namespace AliveNext.IR.Lanes.BinOp

open Smt Smt.Expr

namespace Shape

def elements : Shape → Nat
  | .scalar _ => 1
  | .vector ty => ty.elements

def Terms (shape : Shape) (M : Model) (v : StateValue) : Prop :=
  match shape with
  | .scalar width => v.Scalar M width
  | .vector ty => v.Vector M ty

/-- An element, or `none` if it is poison. -/
noncomputable def element (shape : Shape) (w : Nat) (M : Model) (v : StateValue) (i : Nat) :
    Option (BitVec w) :=
  match shape with
  | .scalar _ => read (v.value.bv M w) (v.nonPoison.truth M = true)
  | .vector ty => read (v.lane M w (ty.elements - 1 - i)) (v.LaneNonPoison M (ty.elements - 1 - i))

end Shape

/-- What LLVM says about an element of the result. -/
def Outcome (op : Op) (flags : Flags) (r : Nat) {w : Nat} (a : Option (BitVec w))
    (b : Option (BitVec (op.rhsBits w))) (x : Option (BitVec (op.resBits w r))) : Prop :=
  match a, b with
  | some a, some b => Poison op flags a b ∧ x = none ∨
      ¬Poison op flags a b ∧ ∃ v, x = some v ∧ Result op r a b v
  | _, _ => x = none

def PairOutcome (op : Op) (r : Nat) {w : Nat} (a : Option (BitVec w))
    (b : Option (BitVec (op.rhsBits w))) (x : Option (BitVec (op.resBits w r)))
    (overflow : Option (BitVec 1)) : Prop :=
  match a, b with
  | some a, some b => (∃ v, x = some v ∧ Result op r a b v) ∧
      ∃ o, overflow = some o ∧ (o = 1#1 ↔ Overflows op a b)
  | _, _ => x = none ∧ overflow = none

structure Element (M : Model) (w : Nat) (v : StateValue) (x : BitVec w) (p : Prop) : Prop where
  value : v.value.Is M w x
  nonPoison : v.nonPoison.Holds M p

section

variable {z : Z3} {M : Model} {w r : Nat} {a b : StateValue} {p q : Prop} {flags : Flags}

variable {x : BitVec w} {op : Op} {v : BitVec (op.resBits w r)} {y : BitVec (op.rhsBits w)}

theorem read_congr {y : BitVec w} (value : x = y) (nonPoison : p ↔ q) : read x p = read y q := by
  rw [value, propext nonPoison]

theorem outcome_read {np : Prop} (value : ¬Poison op flags x y → Result op r x y v)
    (nonPoison : p ∧ q → (np ↔ ¬Poison op flags x y)) :
    Outcome op flags r (read x p) (read y q) (read v ((p ∧ q) ∧ np)) := by
  by_cases known : p ∧ q
  · rw [(read_eq_some (p := p)).2 ⟨known.1, rfl⟩, (read_eq_some (p := q)).2 ⟨known.2, rfl⟩]
    by_cases poison : Poison op flags x y
    · exact .inl ⟨poison, read_eq_none.2 fun holds => (nonPoison known).1 holds.2 poison⟩
    · exact .inr ⟨poison, v, read_eq_some.2 ⟨⟨known, (nonPoison known).2 poison⟩, rfl⟩,
        value poison⟩
  · have none_ : read v ((p ∧ q) ∧ np) = none := read_eq_none.2 fun holds => known holds.1
    rw [none_]
    by_cases first : p
    · have second : read y q = none := read_eq_none.2 fun holds => known ⟨first, holds⟩
      rw [second, (read_eq_some (p := p)).2 ⟨first, rfl⟩]
      rfl
    · rw [read_eq_none.2 first]
      cases read y q <;> rfl

theorem pairOutcome_read
    {o : BitVec 1} (value : Result op r x y v) (overflow : o = 1#1 ↔ Overflows op x y) :
    PairOutcome op r (read x p) (read y q) (read v (p ∧ q)) (read o (p ∧ q)) := by
  by_cases known : p ∧ q
  · rw [(read_eq_some (p := p)).2 ⟨known.1, rfl⟩, (read_eq_some (p := q)).2 ⟨known.2, rfl⟩,
      (read_eq_some (x := v)).2 ⟨known, rfl⟩, (read_eq_some (x := o)).2 ⟨known, rfl⟩]
    exact ⟨⟨v, rfl, value⟩, o, rfl, overflow⟩
  · rw [read_eq_none.2 known, read_eq_none.2 known]
    by_cases first : p
    · have second : read y q = none := read_eq_none.2 fun holds => known ⟨first, holds⟩
      rw [second, (read_eq_some (p := p)).2 ⟨first, rfl⟩]
      exact ⟨rfl, rfl⟩
    · rw [read_eq_none.2 first]
      cases read y q <;> exact ⟨rfl, rfl⟩

theorem scalarOp_element
    (single : op.verticalZip = false) (positive : 0 < op.resBits w r) (first : Element M w a x p)
    (second : Element M (op.rhsBits w) b y q) (defined : ¬Undefined op (some x) (some y)) :
    ∃ v np, Element M (op.resBits w r) (scalarOp z op flags r a b) v np ∧
      Outcome op flags r (read x p) (read y q) (read v np) := by
  obtain ⟨⟨v, is, value⟩, np, holds, means⟩ := fn_computes (z := z) flags op
    single positive first.value first.nonPoison second.value second.nonPoison defined
  exact ⟨v, (p ∧ q) ∧ np, ⟨is, (first.nonPoison.and second.nonPoison).and holds⟩,
    outcome_read value means⟩

theorem zipOp_element (pair : op.verticalZip = true) (first : Element M w a x p)
    (second : Element M (op.rhsBits w) b y q) :
    ∃ v o np, Element M (op.resBits w 0) (zipOp z op flags a b).1 v np ∧
      Element M 1 (zipOp z op flags a b).2 o np ∧
      PairOutcome op 0 (read x p) (read y q) (read v np) (read o np) := by
  obtain ⟨⟨v, is, value⟩, o, overflow, means⟩ := fn_computesPair (z := z) (r := 0)
    flags a.nonPoison b.nonPoison op pair first.value second.value
  have both := first.nonPoison.and second.nonPoison
  exact ⟨v, o, p ∧ q, ⟨is, both⟩, ⟨overflow, both⟩, pairOutcome_read value means⟩

end

/-! ## Pairs -/

def child (z : Z3) (shape : Shape) (v : StateValue) : StateValue :=
  match shape with
  | .scalar _ => toBV z v
  | .vector _ => v

def paddingChild (z : Z3) (width : Nat) : StateValue :=
  toBV z ⟨mkUInt 0 width, .bool false⟩

section

variable {z : Z3} {M : Model} {v v1 v2 : StateValue} {shape : Shape} {padding : Padding}

theorem child_is (terms : shape.Terms M v) : ChildIs M shape.field (child z shape v) := by
  cases shape with
  | scalar width =>
    obtain ⟨safeValue, safeNp⟩ := safe_pair.1 terms.safe
    have holds : v.nonPoison.Holds M (v.nonPoison.truth M = true) :=
      ⟨terms.nonPoison, safeNp, Iff.rfl⟩
    have bit := holds.toBVBool z
    exact ⟨Is.refl terms.value safeValue, Is.refl bit.sorted bit.safe⟩
  | vector ty =>
    obtain ⟨safeValue, safeNp⟩ := safe_pair.1 terms.safe
    exact ⟨Is.refl terms.value safeValue, Is.refl terms.nonPoison safeNp⟩

theorem paddingChild_is
    {width : Nat} (positive : 0 < width) : ChildIs M (.padding width) (paddingChild z width) := by
  have zero : (mkUInt 0 width).Is M width (BitVec.ofNat width 0) := Is.num positive 0
  have bit := (Holds.const (M := M) false).toBVBool z
  exact ⟨Is.refl zero.sorted zero.safe, Is.refl bit.sorted bit.safe⟩

theorem childVals_padding (widths : List Nat) (vals : List StateValue) :
    childVals z (widths.map .padding) vals = widths.map (paddingChild z) := by
  induction widths with
  | nil => rw [List.map_nil, List.map_nil, childVals.eq_def]
  | cons width widths ih =>
    rw [List.map_cons, List.map_cons, ← ih, childVals]
    rfl

theorem childVals_pairFields : childVals z (pairFields shape padding) [v1, v2] =
      child z shape v1 :: (padding.between.toList.map (paddingChild z) ++
        child z (shape.withWidth 1) v2 :: padding.after.map (paddingChild z)) := by
  unfold pairFields
  cases shape with
  | scalar width =>
    cases padding.between with
    | none =>
      rw [← childVals_padding padding.after []]
      rfl
    | some gap =>
      rw [← childVals_padding padding.after []]
      rfl
  | vector ty =>
    cases padding.between with
    | none =>
      rw [← childVals_padding padding.after []]
      rfl
    | some gap =>
      rw [← childVals_padding padding.after []]
      rfl

def Padding.Positive (padding : Padding) : Prop :=
  ∀ width ∈ padding.between.toList ++ padding.after, 0 < width

theorem paddings_are {widths : List Nat} (positive : ∀ width ∈ widths, 0 < width) :
    List.Forall₂ (ChildIs M) (widths.map .padding) (widths.map (paddingChild z)) := by
  induction widths with
  | nil => exact .nil
  | cons width widths ih =>
    rw [List.forall_mem_cons] at positive
    exact .cons (paddingChild_is positive.1) (ih positive.2)

theorem pair_children (positive : padding.Positive) (first : shape.Terms M v1)
    (second : (shape.withWidth 1).Terms M v2) :
    List.Forall₂ (ChildIs M) (pairFields shape padding)
      (childVals z (pairFields shape padding) [v1, v2]) := by
  rw [childVals_pairFields]
  refine .cons (child_is first) (List.rel_append ?_ (.cons (child_is second) ?_))
  · exact paddings_are fun width member => positive width (List.mem_append_left _ member)
  · exact paddings_are fun width member => positive width (List.mem_append_right _ member)

theorem extractField_element
    (before after : List FieldType) (front back : List StateValue) (terms : shape.Terms M v)
    (children : List.Forall₂ (ChildIs M) (before ++ shape.field :: after)
      (front ++ child z shape v :: back))
    (length : before.length = front.length) (i : Nat) :
    shape.element shape.width M (extractField z (before ++ shape.field :: after)
      (concatVals z (front ++ child z shape v :: back)) before.length) i =
        shape.element shape.width M v i := by
  rw [extractField_eq]
  cases shape with
  | scalar width =>
    obtain ⟨safeValue, safeNp⟩ := safe_pair.1 terms.safe
    obtain ⟨value, bit⟩ := extractField_terms z children length terms.value.pos Nat.one_pos
    have holds : v.nonPoison.Holds M (v.nonPoison.truth M = true) :=
      ⟨terms.nonPoison, safeNp, Iff.rfl⟩
    have known : (child z (.scalar width) v).nonPoison.bv M 1 =
        BitVec.ofBool (decide (v.nonPoison.truth M = true)) := (holds.toBVBool z).value
    have set := bit.cmpEq z (Is.allOnes Nat.one_pos)
    refine read_congr value.value (set.truth.trans ?_)
    show (child z (.scalar width) v).nonPoison.bv M 1 = BitVec.allOnes 1 ↔ _
    rw [known]
    by_cases truth : v.nonPoison.truth M = true <;> simp [truth]
  | vector ty =>
    obtain ⟨safeValue, safeNp⟩ := safe_pair.1 terms.safe
    obtain ⟨value, bits⟩ := extractField_terms z children length terms.value.pos terms.nonPoison.pos
    have sameValue := value.toNat_eq.trans (Is.refl terms.value safeValue).toNat_eq.symm
    have sameBits := bits.toNat_eq.trans (Is.refl terms.nonPoison safeNp).toNat_eq.symm
    have lanes : ∀ low k, Expr.bitsAt _ M low k = v.value.bitsAt M low k :=
      fun low k => congrArg (fun n : Nat => BitVec.ofNat k (n >>> low)) sameValue
    have poisons : ∀ low k, Expr.bitsAt _ M low k = v.nonPoison.bitsAt M low k :=
      fun low k => congrArg (fun n : Nat => BitVec.ofNat k (n >>> low)) sameBits
    exact read_congr (lanes _ _) (Iff.of_eq (congrArg (· = 1#1) (poisons _ _)))

end

/-! ## Operands -/

def laneTerm (z : Z3) (shape : Shape) (v : StateValue) (i : Nat) : StateValue :=
  match shape with
  | .scalar _ => v
  | .vector ty => ty.extract z v i

section

variable {z : Z3} {M : Model} {v a b : StateValue} {shape : Shape} {op : Op} {i w : Nat}
  {p q : Prop}

theorem laneTerm_element
    (terms : shape.Terms M v) (inside : ∀ ty, shape = .vector ty → i < ty.elements) :
    ∃ (x : BitVec shape.width) (p : Prop), Element M shape.width (laneTerm z shape v i) x p ∧
      shape.element shape.width M v i = read x p := by
  cases shape with
  | scalar width =>
    obtain ⟨safeValue, safeNp⟩ := safe_pair.1 terms.safe
    exact ⟨_, _, ⟨Is.refl terms.value safeValue, terms.nonPoison, safeNp, Iff.rfl⟩, rfl⟩
  | vector ty =>
    obtain ⟨value, nonPoison⟩ := extract_is z terms (inside ty rfl)
    exact ⟨_, _, ⟨value, nonPoison⟩, rfl⟩

theorem rhs_width : (shape.rhs op).width = op.rhsBits shape.width := by
  cases op <;> cases shape <;> rfl

theorem rhs_of_isDivOrRem (isDiv : op.isDivOrRem = true) : shape.rhs op = shape := by
  cases op <;> first | rfl | cases isDiv

theorem mkInt_neg_one_bit {n k : Nat} (inside : k < n) : (mkInt (-1) n).bitsAt M k 1 = 1#1 := by
  have ones : (mkInt (-1) n).Is M n (BitVec.allOnes n) := Is.allOnes (by omega)
  rw [ones.bitsAt_eq]
  ext j single
  rw [BitVec.getElem_extractLsb', BitVec.getLsbD_allOnes]
  have first : j = 0 := by omega
  simp [first, inside]

theorem notPoison_holds (terms : shape.Terms M v) : (notPoison z shape v).truth M = true ↔
      ∀ i < shape.elements, shape.element w M v i ≠ none := by
  cases shape with
  | scalar width =>
    have only : (∀ i < 1, (Shape.scalar width).element w M v i ≠ none) ↔
        v.nonPoison.truth M = true := by
      constructor
      · exact fun all => read_ne_none.1 (all 0 Nat.one_pos)
      · exact fun known i _ => read_ne_none.2 known
    exact only.symm
  | vector ty =>
    have loop : ∀ k ≤ ty.elements, ((List.range k).foldl
        (fun result i => Expr.and result (ty.extract z v i).nonPoison) (.bool true)).Holds M
          (∀ i < k, v.LaneNonPoison M (ty.elements - 1 - i)) := by
      intro k within
      induction k with
      | zero => exact (Holds.const true).congr (by simp)
      | succ k ih =>
        rw [List.range_succ, List.foldl_append, List.foldl_cons, List.foldl_nil]
        have next := (extract_is z terms (show k < ty.elements by omega)).2
        refine ((ih (by omega)).and next).congr ?_
        rw [Nat.forall_lt_succ_right]
    refine (loop ty.elements le_rfl).truth.trans ?_
    refine forall₂_congr fun i inside => ?_
    exact read_ne_none.symm

theorem getAndAddPoisonUB_element (terms : shape.Terms M v) (inside : i < shape.elements) :
    ∃ (x : BitVec shape.width) (p : Prop),
      Element M shape.width (laneTerm z shape (getAndAddPoisonUB z shape v).2 i) x True ∧
        shape.element shape.width M v i = read x p := by
  cases shape with
  | scalar width =>
    obtain ⟨safeValue, -⟩ := safe_pair.1 terms.safe
    exact ⟨_, _, ⟨Is.refl terms.value safeValue, (Holds.const true).congr (by simp)⟩, rfl⟩
  | vector ty =>
    have inside : i < ty.elements := inside
    obtain ⟨safeValue, -⟩ := safe_pair.1 terms.safe
    have ones : (mkInt (-1) ty.elements).Is M ty.elements (BitVec.allOnes ty.elements) :=
      Is.allOnes terms.nonPoison.pos
    have vector : (getAndAddPoisonUB z (.vector ty) v).2.Vector M ty :=
      ⟨terms.value, ones.sorted, safe_pair.2 ⟨safeValue, ones.safe⟩⟩
    obtain ⟨value, nonPoison⟩ := extract_is z vector inside
    refine ⟨_, _, ⟨value, nonPoison.congr ?_⟩, rfl⟩
    have bit := mkInt_neg_one_bit (M := M) (show ty.elements - 1 - i < ty.elements by omega)
    exact iff_true_intro bit

/-- An element of the second operand as `fn` takes it: `q` is that it is not poison, and `k` what
`fn` is told about it. -/
structure RhsElement (z : Z3) (op : Op) (shape : Shape) (M : Model) (b : StateValue) (i : Nat)
    (y : BitVec (op.rhsBits shape.width)) (q k : Prop) : Prop where
  terms : Element M (op.rhsBits shape.width)
    (laneTerm z (shape.rhs op) (getRhs z op shape b).2 i) y k
  element : (shape.rhs op).element (op.rhsBits shape.width) M b i = read y q
  told : op.isDivOrRem = false → (k ↔ q)
  assumed : op.isDivOrRem = true → k

theorem getRhs_element (terms : (shape.rhs op).Terms M b)
    (inside : i < shape.elements) : ∃ y q k, RhsElement z op shape M b i y q k := by
  cases isDiv : op.isDivOrRem with
  | false =>
    have within : ∀ ty, shape.rhs op = .vector ty → i < ty.elements := by
      intro ty same
      unfold Shape.rhs at same
      split at same
      · cases same
      · rw [same] at inside
        exact inside
    have lane := laneTerm_element (z := z) terms within
    rw [rhs_width] at lane
    obtain ⟨y, q, element, known⟩ := lane
    refine ⟨y, q, q, ?_, known, fun _ => Iff.rfl, ?_⟩
    · rw [getRhs, isDiv]
      exact element
    · rw [isDiv]
      exact fun impossible => absurd impossible Bool.false_ne_true
  | true =>
    have same : shape.rhs op = shape := rhs_of_isDivOrRem isDiv
    have lane := getAndAddPoisonUB_element (z := z) terms (by rw [same]; exact inside)
    rw [rhs_width] at lane
    obtain ⟨y, q, element, known⟩ := lane
    refine ⟨y, q, True, ?_, known, ?_, fun _ => trivial⟩
    · rw [getRhs, isDiv]
      exact element
    · rw [isDiv]
      exact fun impossible => absurd impossible.symm Bool.false_ne_true

theorem getRhs_ub (terms : (shape.rhs op).Terms M b) :
    (∀ e ∈ (getRhs z op shape b).1, e.truth M = true) ↔ (op.isDivOrRem = true →
      ∀ i < shape.elements, (shape.rhs op).element (op.rhsBits shape.width) M b i ≠ none) := by
  rw [getRhs]
  split
  · next isDiv =>
    have same : shape.rhs op = shape := rhs_of_isDivOrRem isDiv
    rw [List.forall_mem_singleton]
    refine (notPoison_holds (w := op.rhsBits shape.width) terms).trans ?_
    rw [same]
    exact ⟨fun all _ => all, fun all => all isDiv⟩
  · next notDiv => simp [notDiv]

/-! ## Undefined behaviour -/

theorem undefined_read {x : Option (BitVec w)} {y : BitVec (op.rhsBits w)} :
    Undefined op x (read y q) ↔ op.isDivOrRem = true ∧ ¬q ∨ Undefined op x (some y) := by
  by_cases known : q
  · rw [(read_eq_some (p := q)).2 ⟨known, rfl⟩]
    simp [known]
  · rw [read_eq_none.2 known]
    cases op <;> simp [Undefined, Op.isDivOrRem, known]

theorem undefined_mono {x : BitVec w} {y : BitVec (op.rhsBits w)}
    (undefined : Undefined op (some x) (some y)) : Undefined op (read x p) (some y) := by
  by_cases known : p
  · rw [(read_eq_some (p := p)).2 ⟨known, rfl⟩]
    exact undefined
  · rw [read_eq_none.2 known]
    cases op with
    | sdiv =>
      rcases undefined with impossible | zero | ⟨ones, -⟩
      · cases impossible
      · exact .inr (.inl zero)
      · exact .inr (.inr ⟨ones, .inl rfl⟩)
    | srem =>
      rcases undefined with impossible | zero | ⟨ones, -⟩
      · cases impossible
      · exact .inr (.inl zero)
      · exact .inr (.inr ⟨ones, .inl rfl⟩)
    | _ => exact undefined

end

section

variable (z : Z3) {M : Model} {a b : StateValue} {shape : Shape} {op : Op} {flags : Flags}
  {padding : Padding} {r : Nat}

theorem firstElement (terms : shape.Terms M a) {i : Nat} (inside : i < shape.elements) :
    ∃ (x : BitVec shape.width) (p : Prop), Element M shape.width (laneTerm z shape a i) x p ∧
      shape.element shape.width M a i = read x p :=
  laneTerm_element terms fun _ same => by
    subst same
    exact inside

def lane (op : Op) (shape : Shape) (a b : StateValue) (i : Nat) : StateValue × StateValue :=
  (laneTerm z shape a i, laneTerm z (shape.rhs op) (getRhs z op shape b).2 i)

theorem lane_scalar (width i : Nat) :
    lane z op (.scalar width) a b i = (a, (getRhs z op (.scalar width) b).2) := by
  unfold lane Shape.rhs
  split <;> rfl

theorem lane_vector (ty : VectorType) (i : Nat) : lane z op (.vector ty) a b i =
      (ty.extract z a i, if op.hasFlagOperand then (getRhs z op (.vector ty) b).2
        else ty.extract z (getRhs z op (.vector ty) b).2 i) := by
  unfold lane Shape.rhs
  split <;> rfl

theorem toSMT_ub_eq : (toSMT z op flags shape r padding a b).1 = (getRhs z op shape b).1 ++
      (List.range shape.elements).flatMap fun i =>
        fnUB z op (lane z op shape a b i).1.value (lane z op shape a b i).1.nonPoison
          (lane z op shape a b i).2.value := by
  cases shape with
  | scalar width =>
    simp only [lane_scalar, Shape.elements, List.range_one, List.flatMap_cons, List.flatMap_nil,
      List.append_nil]
    unfold toSMT
    cases op.verticalZip <;> rfl
  | vector ty =>
    simp only [lane_vector, Shape.elements]
    unfold toSMT
    dsimp only
    rw [List.flatMap_map]
    cases op.verticalZip <;> rfl

theorem toSMT_single_eq (single : op.verticalZip = false) :
    (toSMT z op flags shape r padding a b).2 =
      match shape with
      | .scalar _ => scalarOp z op flags r (lane z op shape a b 0).1 (lane z op shape a b 0).2
      | .vector ty => ty.aggregateVals z ((List.range ty.elements).map fun i =>
        scalarOp z op flags r (lane z op shape a b i).1 (lane z op shape a b i).2) := by
  cases shape with
  | scalar width =>
    dsimp only
    rw [lane_scalar]
    unfold toSMT
    rw [single]
    rfl
  | vector ty =>
    simp only [lane_vector]
    unfold toSMT
    rw [single]
    dsimp only
    rw [if_neg Bool.false_ne_true, List.map_map]
    rfl

theorem toSMT_pair_eq (pair : op.verticalZip = true) : (toSMT z op flags shape r padding a b).2 =
      aggregateStruct z (pairFields shape padding)
        (match shape with
        | .scalar _ =>
          let (v1, v2) := zipOp z op flags (lane z op shape a b 0).1 (lane z op shape a b 0).2
          [v1, v2]
        | .vector ty =>
          let vals := (List.range ty.elements).map fun i =>
            zipOp z op flags (lane z op shape a b i).1 (lane z op shape a b i).2
          [ty.aggregateVals z (vals.map Prod.fst), ty.aggregateVals z (vals.map Prod.snd)]) := by
  cases shape with
  | scalar width =>
    dsimp only
    rw [lane_scalar]
    unfold toSMT
    rw [pair]
    rfl
  | vector ty =>
    simp only [lane_vector]
    unfold toSMT
    rw [pair]
    simp only [if_true, List.map_map]
    rfl

section

variable (first : shape.Terms M a) (second : (shape.rhs op).Terms M b)

include first second

theorem toSMT_ub : (∀ e ∈ (toSMT z op flags shape r padding a b).1, e.truth M = true) ↔
      ∀ i < shape.elements, ¬Undefined op (shape.element shape.width M a i)
        ((shape.rhs op).element (op.rhsBits shape.width) M b i) := by
  rw [toSMT_ub_eq, List.forall_mem_append, getRhs_ub second]
  have each : ∀ i < shape.elements,
      ((op.isDivOrRem = true → (shape.rhs op).element (op.rhsBits shape.width) M b i ≠ none) ∧
        ∀ e ∈ fnUB z op (lane z op shape a b i).1.value (lane z op shape a b i).1.nonPoison
          (lane z op shape a b i).2.value, e.truth M = true) ↔
      ¬Undefined op (shape.element shape.width M a i)
        ((shape.rhs op).element (op.rhsBits shape.width) M b i) := by
    intro i inside
    obtain ⟨x, p, left, known⟩ := firstElement z first inside
    obtain ⟨y, q, k, right⟩ := getRhs_element (z := z) second inside
    rw [known, right.element, undefined_read, read_ne_none]
    have holds := fnUB_holds (z := z) op left.value left.nonPoison right.terms.value
    unfold lane
    rw [holds]
    tauto
  constructor
  · intro both i inside
    refine (each i inside).1 ⟨fun isDiv => both.1 isDiv i inside, fun e member => ?_⟩
    exact both.2 e (List.mem_flatMap.2 ⟨i, List.mem_range.2 inside, member⟩)
  · intro all
    refine ⟨fun isDiv i inside => ((each i inside).2 (all i inside)).1 isDiv, ?_⟩
    intro e member
    obtain ⟨i, inside, member⟩ := List.mem_flatMap.1 member
    have inside := List.mem_range.1 inside
    exact ((each i inside).2 (all i inside)).2 e member

theorem lane_defined {i : Nat} (inside : i < shape.elements)
    (defined : ¬Undefined op (shape.element shape.width M a i)
      ((shape.rhs op).element (op.rhsBits shape.width) M b i)) :
    ∃ x p y q, Element M shape.width (lane z op shape a b i).1 x p ∧
      Element M (op.rhsBits shape.width) (lane z op shape a b i).2 y q ∧
        shape.element shape.width M a i = read x p ∧
          (shape.rhs op).element (op.rhsBits shape.width) M b i = read y q ∧
            ¬Undefined op (some x) (some y) := by
  obtain ⟨x, p, left, known⟩ := firstElement z first inside
  obtain ⟨y, q, k, right⟩ := getRhs_element (z := z) second inside
  rw [known, right.element, undefined_read, not_or] at defined
  have same : k ↔ q := by
    cases isDiv : op.isDivOrRem with
    | false => exact right.told isDiv
    | true => exact iff_of_true (right.assumed isDiv) (not_not.1 fun no => defined.1 ⟨isDiv, no⟩)
  refine ⟨x, p, y, k, left, right.terms, known, ?_, fun undefined => ?_⟩
  · rw [right.element, propext same]
  · exact defined.2 (undefined_mono undefined)

variable (flags) in
theorem lane_single
    {i : Nat} (single : op.verticalZip = false) (positive : 0 < op.resBits shape.width r)
    (inside : i < shape.elements) (defined : ¬Undefined op (shape.element shape.width M a i)
      ((shape.rhs op).element (op.rhsBits shape.width) M b i)) :
    ∃ v np, Element M (op.resBits shape.width r)
        (scalarOp z op flags r (lane z op shape a b i).1 (lane z op shape a b i).2) v np ∧
      Outcome op flags r (shape.element shape.width M a i)
        ((shape.rhs op).element (op.rhsBits shape.width) M b i) (read v np) := by
  obtain ⟨x, p, y, q, left, right, firstRead, secondRead, defined⟩ :=
    lane_defined z first second inside defined
  rw [firstRead, secondRead]
  exact scalarOp_element single positive left right defined

variable (flags) in
theorem lane_pair {i : Nat} (pair : op.verticalZip = true) (inside : i < shape.elements) :
    ∃ v o np, Element M (op.resBits shape.width 0)
        (zipOp z op flags (lane z op shape a b i).1 (lane z op shape a b i).2).1 v np ∧
      Element M 1 (zipOp z op flags (lane z op shape a b i).1 (lane z op shape a b i).2).2 o np ∧
      PairOutcome op 0 (shape.element shape.width M a i)
        ((shape.rhs op).element (op.rhsBits shape.width) M b i) (read v np) (read o np) := by
  have defined : ¬Undefined op (shape.element shape.width M a i)
      ((shape.rhs op).element (op.rhsBits shape.width) M b i) := by
    cases op <;> first | exact id | cases pair
  obtain ⟨x, p, y, q, left, right, firstRead, secondRead, -⟩ :=
    lane_defined z first second inside defined
  rw [firstRead, secondRead]
  exact zipOp_element pair left right

end

theorem withWidth_element (width w i : Nat) (v : StateValue) :
    (shape.withWidth width).element w M v i = shape.element w M v i := by
  cases shape <;> rfl

theorem withWidth_width : shape.withWidth shape.width = shape := by
  cases shape <;> rfl

theorem resBits_of_pair (pair : op.verticalZip = true) (w r : Nat) : op.resBits w r = w := by
  cases op <;> first | rfl | cases pair

theorem resBits_pos
    (positive : 0 < r) (first : shape.Terms M a) : 0 < op.resBits shape.width r := by
  have width : 0 < shape.width := by
    cases shape with
    | scalar width => exact first.value.pos
    | vector ty => exact Nat.pos_of_mul_pos_left first.value.pos
  cases op <;> first | exact width | exact positive

theorem element_of_scalar {w : Nat} {v : StateValue} {x : BitVec w} {np : Prop}
    (element : Element M w v x np) (width i : Nat) :
    ((Shape.scalar width).withWidth w).Terms M v ∧
      ((Shape.scalar width).withWidth w).element w M v i = read x np :=
  ⟨⟨element.value.sorted, element.nonPoison.sorted,
      safe_pair.2 ⟨element.value.safe, element.nonPoison.safe⟩⟩,
    read_congr element.value.value element.nonPoison.truth⟩

theorem element_of_vector {w : Nat} {ty : VectorType} {vals : Nat → StateValue}
    {xs : Nat → BitVec w} {nps : Nat → Prop} (positive : 0 < ty.elements)
    (elements : ∀ i < ty.elements, Element M w (vals i) (xs i) (nps i)) :
    ((Shape.vector ty).withWidth w).Terms M
        (ty.aggregateVals z ((List.range ty.elements).map vals)) ∧
      ∀ i < ty.elements, ((Shape.vector ty).withWidth w).element w M
        (ty.aggregateVals z ((List.range ty.elements).map vals)) i = read (xs i) (nps i) := by
  have each : ∀ i (inside : i < ((List.range ty.elements).map vals).length),
      ((List.range ty.elements).map vals)[i].value.Is M w (xs i) ∧
        ((List.range ty.elements).map vals)[i].nonPoison.Holds M (nps i) := by
    intro i inside
    rw [List.length_map, List.length_range] at inside
    rw [List.getElem_map, List.getElem_range]
    exact ⟨(elements i inside).value, (elements i inside).nonPoison⟩
  obtain ⟨vector, lanes⟩ := aggregateVals_lanes z ⟨ty.elements, w⟩ (by simp) positive each
  exact ⟨vector, fun i inside => read_congr (lanes i inside).1 (lanes i inside).2⟩

section

variable (first : shape.Terms M a) (second : (shape.rhs op).Terms M b)

include first second

theorem toSMT_single (single : op.verticalZip = false) (positive : 0 < r)
    (defined : ∀ i < shape.elements, ¬Undefined op (shape.element shape.width M a i)
      ((shape.rhs op).element (op.rhsBits shape.width) M b i)) :
    (shape.withWidth (op.resBits shape.width r)).Terms M (toSMT z op flags shape r padding a b).2 ∧
      ∀ i < shape.elements, Outcome op flags r (shape.element shape.width M a i)
        ((shape.rhs op).element (op.rhsBits shape.width) M b i)
        ((shape.withWidth (op.resBits shape.width r)).element (op.resBits shape.width r) M
          (toSMT z op flags shape r padding a b).2 i) := by
  have positive : 0 < op.resBits shape.width r := resBits_pos positive first
  have lanes := fun i inside =>
    lane_single z flags first second single positive inside (defined i inside)
  rw [toSMT_single_eq z single]
  cases shape with
  | scalar width =>
    obtain ⟨v, np, element, outcome⟩ := lanes 0 Nat.one_pos
    refine ⟨(element_of_scalar element width 0).1, fun i inside => ?_⟩
    obtain rfl : i = 0 := Nat.lt_one_iff.1 inside
    rw [(element_of_scalar element width 0).2]
    exact outcome
  | vector ty =>
    have positive : 0 < ty.elements := first.nonPoison.pos
    choose! xs nps elements outcomes using lanes
    obtain ⟨terms, reads⟩ := element_of_vector z positive elements
    refine ⟨terms, fun i inside => ?_⟩
    rw [reads i inside]
    exact outcomes i inside

variable (flags padding) in
theorem parts_of_pair (pair : op.verticalZip = true) :
    ∃ v1 v2, (toSMT z op flags shape r padding a b).2 =
        aggregateStruct z (pairFields shape padding) [v1, v2] ∧
      shape.Terms M v1 ∧ (shape.withWidth 1).Terms M v2 ∧
        ∀ i < shape.elements, PairOutcome op 0 (shape.element shape.width M a i)
          ((shape.rhs op).element (op.rhsBits shape.width) M b i)
          (shape.element (op.resBits shape.width 0) M v1 i)
          ((shape.withWidth 1).element 1 M v2 i) := by
  have width := resBits_of_pair pair shape.width 0
  have lanes := fun i inside => lane_pair z flags (i := i) first second pair inside
  rw [toSMT_pair_eq z pair]
  cases shape with
  | scalar width' =>
    obtain ⟨v, o, np, left, right, outcome⟩ := lanes 0 Nat.one_pos
    obtain ⟨terms, -⟩ := element_of_scalar left width' 0
    rw [width, withWidth_width] at terms
    refine ⟨_, _, rfl, terms, (element_of_scalar right width' 0).1, fun i inside => ?_⟩
    obtain rfl : i = 0 := Nat.lt_one_iff.1 inside
    have firstPart := (element_of_scalar left width' 0).2
    rw [withWidth_element] at firstPart
    have whole := outcome
    rw [← firstPart, ← (element_of_scalar right width' 0).2] at whole
    exact whole
  | vector ty =>
    have positive : 0 < ty.elements := first.nonPoison.pos
    choose! xs os nps left right outcomes using lanes
    obtain ⟨terms, reads⟩ := element_of_vector z positive left
    obtain ⟨terms', reads'⟩ := element_of_vector z positive right
    rw [width, withWidth_width] at terms
    dsimp only
    rw [List.map_map, List.map_map]
    refine ⟨_, _, rfl, terms, terms', fun i inside => ?_⟩
    have firstPart := reads i inside
    rw [withWidth_element] at firstPart
    have whole := outcomes i inside
    rw [← firstPart, ← reads' i inside] at whole
    exact whole

theorem toSMT_pair (pair : op.verticalZip = true) (positive : padding.Positive) :
    ∀ i < shape.elements, PairOutcome op 0 (shape.element shape.width M a i)
      ((shape.rhs op).element (op.rhsBits shape.width) M b i)
      (shape.element (op.resBits shape.width 0) M (extractField z (pairFields shape padding)
        (toSMT z op flags shape r padding a b).2 0) i)
      ((shape.withWidth 1).element 1 M (extractField z (pairFields shape padding)
        (toSMT z op flags shape r padding a b).2 (val2idx padding)) i) := by
  obtain ⟨v1, v2, whole, terms, terms', outcomes⟩ :=
    parts_of_pair z flags padding (r := r) first second pair
  have children := pair_children (z := z) positive terms terms'
  intro i inside
  have outcome := outcomes i inside
  rw [whole, aggregateStruct]
  rw [childVals_pairFields] at children ⊢
  have front : shape.element (op.resBits shape.width 0) M
      (extractField z (pairFields shape padding) (concatVals z (child z shape v1 ::
        (padding.between.toList.map (paddingChild z) ++
          child z (shape.withWidth 1) v2 :: padding.after.map (paddingChild z)))) 0) i =
      shape.element (op.resBits shape.width 0) M v1 i := by
    rw [resBits_of_pair pair]
    exact extractField_element [] _ [] _ terms children rfl i
  have back : (shape.withWidth 1).element 1 M
      (extractField z (pairFields shape padding) (concatVals z (child z shape v1 ::
        (padding.between.toList.map (paddingChild z) ++
          child z (shape.withWidth 1) v2 :: padding.after.map (paddingChild z))))
            (val2idx padding)) i = (shape.withWidth 1).element 1 M v2 i := by
    have place : val2idx padding =
        (shape.field :: padding.between.toList.map FieldType.padding).length := by
      cases known : padding.between <;> simp [val2idx, known]
    have width : (shape.withWidth 1).width = 1 := by cases shape <;> rfl
    have same := extractField_element (shape.field :: padding.between.toList.map .padding)
      (padding.after.map .padding) (child z shape v1 :: padding.between.toList.map (paddingChild z))
      (padding.after.map (paddingChild z)) terms' children (by simp) i
    rw [width, ← place] at same
    exact same
  rw [front, back]
  exact outcome

end

end

/-- In every model in which the operands divide by zero nowhere, `toSMT` adds undefined behaviour
exactly when an element is undefined, and otherwise every element of its result is what LLVM
says. -/
theorem binop_semantics
    (z : Z3) (op : Op) (flags : Flags) (shape : Shape) (r : Nat) (padding : Padding)
    {a b : StateValue} {M : Model} (width : 0 < r) (positive : padding.Positive)
    (first : shape.Terms M a) (second : (shape.rhs op).Terms M b) :
    ((∀ e ∈ (toSMT z op flags shape r padding a b).1, e.truth M = true) ↔
      ∀ i < shape.elements, ¬Undefined op (shape.element shape.width M a i)
        ((shape.rhs op).element (op.rhsBits shape.width) M b i)) ∧
    ((∀ i < shape.elements, ¬Undefined op (shape.element shape.width M a i)
        ((shape.rhs op).element (op.rhsBits shape.width) M b i)) →
      (op.verticalZip = false → ∀ i < shape.elements,
        Outcome op flags r (shape.element shape.width M a i)
          ((shape.rhs op).element (op.rhsBits shape.width) M b i)
          ((shape.withWidth (op.resBits shape.width r)).element (op.resBits shape.width r) M
            (toSMT z op flags shape r padding a b).2 i)) ∧
      (op.verticalZip = true → ∀ i < shape.elements,
        PairOutcome op 0 (shape.element shape.width M a i)
          ((shape.rhs op).element (op.rhsBits shape.width) M b i)
          (shape.element (op.resBits shape.width 0) M (extractField z (pairFields shape padding)
            (toSMT z op flags shape r padding a b).2 0) i)
          ((shape.withWidth 1).element 1 M (extractField z (pairFields shape padding)
            (toSMT z op flags shape r padding a b).2 (val2idx padding)) i))) := by
  refine ⟨toSMT_ub z first second, fun defined => ⟨fun single => ?_, fun pair => ?_⟩⟩
  · exact (toSMT_single z first second single width defined).2
  · exact toSMT_pair z first second pair positive

def twoBytes (name : String) : StateValue :=
  ⟨.var name (.bv 16), .var (name ++ ".np") (.bv 2)⟩

theorem binop_semantics_sdiv :
    (∀ e ∈ (toSMT Z3.reference .sdiv ⟨false, false, true, false⟩ (.vector ⟨2, 8⟩) 8 ⟨none, []⟩
        (twoBytes "a") (twoBytes "b")).1, e.truth divisionByZero = true) ↔
      ∀ i < 2, ¬Undefined .sdiv
        ((Shape.vector ⟨2, 8⟩).element 8 divisionByZero (twoBytes "a") i)
        ((Shape.vector ⟨2, 8⟩).element 8 divisionByZero (twoBytes "b") i) := by
  have terms : ∀ name, (Shape.vector ⟨2, 8⟩).Terms divisionByZero (twoBytes name) :=
    fun name => ⟨⟨rfl, rfl⟩, ⟨rfl, rfl⟩, safe_pair.2 ⟨trivial, trivial⟩⟩
  exact (binop_semantics Z3.reference .sdiv ⟨false, false, true, false⟩ (.vector ⟨2, 8⟩) 8
    ⟨none, []⟩ (by decide) (by simp [Padding.Positive]) (terms "a") (terms "b")).1

/-- In a model in which a remainder divides by zero, a subtraction of equal numbers that must not
wrap is poison. -/
theorem sub_of_division_by_zero :
    ¬∀ (a b : StateValue) (M : Model), a.value.HasSort (.bv 1) → a.nonPoison.HasSort .bool →
      b.value.HasSort (.bv 1) → b.nonPoison.HasSort .bool →
        Outcome .sub ⟨true, false, false, false⟩ 1 ((Shape.scalar 1).element 1 M a 0)
          ((Shape.scalar 1).element 1 M b 0) ((Shape.scalar 1).element 1 M
            (toSMT Z3.reference .sub ⟨true, false, false, false⟩ (.scalar 1) 1 ⟨none, []⟩ a b).2
              0) := by
  intro claim
  have outcome := claim ⟨oneBitRemainder, .bool true⟩ ⟨.num 1 1, .bool true⟩ divisionByZero
    ⟨rfl, rfl⟩ ⟨rfl, rfl⟩ ⟨rfl, rfl⟩ ⟨rfl, rfl⟩
  have ones : ∀ t : Expr, t.bv divisionByZero 1 = 1#1 →
      (Shape.scalar 1).element 1 divisionByZero ⟨t, .bool true⟩ 0 = some 1#1 :=
    fun t value => read_eq_some.2 ⟨truth_bool _ _, value⟩
  rw [ones oneBitRemainder (by decide), ones (.num 1 1) (by decide)] at outcome
  have poison : ((Shape.scalar 1).element 1 divisionByZero
      (toSMT Z3.reference .sub ⟨true, false, false, false⟩ (.scalar 1) 1 ⟨none, []⟩
        ⟨oneBitRemainder, .bool true⟩ ⟨.num 1 1, .bool true⟩).2 0 : Option (BitVec 1)) = none := by
    refine read_eq_none.2 ?_
    have known : (toSMT Z3.reference .sub ⟨true, false, false, false⟩ (.scalar 1) 1 ⟨none, []⟩
        ⟨oneBitRemainder, .bool true⟩ ⟨.num 1 1, .bool true⟩).2.nonPoison.truth divisionByZero =
          false := rfl
    rw [known]
    exact Bool.false_ne_true
  rw [poison] at outcome
  rcases outcome with ⟨overflow, -⟩ | ⟨-, v, impossible, -⟩
  · exact absurd overflow (by simp [Poison, SFits])
  · cases impossible

end AliveNext.IR.Lanes.BinOp
