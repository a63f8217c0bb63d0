import AliveNext.IR.ByteFacts

/-!
# Aggregates and their parts

The first child of an aggregate is its highest segment, so a child lies above
the children that follow it.  Taking an aggregate apart after putting it
together gives the parts back, and so does the way through the integer form of
a vector.
-/

namespace AliveNext.IR

variable {p : Params}

/-! ## Positions -/

def Children.total (size : Ty → Nat) : Children → Nat
  | .nil => 0
  | .field ty rest => size ty + rest.total size
  | .padding width rest => size (.int width) + rest.total size

theorem Children.bits_eq (p : Params) : ∀ children : Children,
    children.bits p = children.total (Ty.bits p)
  | .nil => by rw [Children.bits, Children.total]
  | .field ty rest => by rw [Children.bits, Children.total, Children.bits_eq p rest]
  | .padding width rest => by
    rw [Children.bits, Children.total, Children.bits_eq p rest, Ty.bits]

theorem Children.npBits_eq (p : Params) (fromInt : Bool) : ∀ children : Children,
    children.npBits p fromInt = children.total (Ty.npBits p fromInt)
  | .nil => by rw [Children.npBits, Children.total]
  | .field ty rest => by rw [Children.npBits, Children.total, Children.npBits_eq p fromInt rest]
  | .padding width rest => by
    rw [Children.npBits, Children.total, Children.npBits_eq p fromInt rest, Ty.npBits]

def Ty.kids : Ty → Children
  | .vector elements width => Children.ints width elements
  | .aggregate _ children => children
  | _ => .nil

theorem Children.ints_toList (width elements : Nat) :
    (Children.ints width elements).toList = List.replicate elements (false, .int width) := by
  induction elements with
  | zero => rfl
  | succ n ih => rw [Children.ints, Children.toList, ih, List.replicate_succ]

theorem Ty.children_eq (ty : Ty) : ty.children = ty.kids.toList := by
  cases ty with
  | int width => rfl
  | ptr => rfl
  | vector elements width => exact (Children.ints_toList width elements).symm
  | aggregate isVector children => rfl

theorem Children.ints_total (size : Ty → Nat) (width elements : Nat) :
    (Children.ints width elements).total size = elements * size (.int width) := by
  induction elements with
  | zero => simp [Children.ints, Children.total]
  | succ n ih => rw [Children.ints, Children.total, ih, Nat.succ_mul, Nat.add_comm]

variable {ty whole : Ty} {i width elements : Nat} {child : Bool × Ty} {children rest : Children}
  {v first : StateValue} {vals : List StateValue}

theorem Ty.bits_eq
    (found : ty.kids.toList[i]? = some child) : ty.bits p = ty.kids.total (Ty.bits p) := by
  cases ty with
  | int width => cases found
  | ptr => cases found
  | vector elements width =>
    rw [Ty.kids, Children.ints_toList] at found
    have some_element : elements ≠ 0 := by
      rintro rfl
      cases found
    rw [Ty.bits, if_neg some_element, Ty.kids, Children.ints_total, Ty.bits]
  | aggregate isVector children =>
    cases children with
    | nil => cases found
    | field ty rest => rw [Ty.bits, Ty.kids, Children.total, Children.bits_eq]
    | padding width rest => rw [Ty.bits, Ty.kids, Children.total, Children.bits_eq, Ty.bits]

theorem Ty.npBits_eq {fromInt : Bool} (found : ty.kids.toList[i]? = some child) :
    ty.npBits p fromInt = ty.kids.total (Ty.npBits p fromInt) := by
  cases ty with
  | int width => cases found
  | ptr => cases found
  | vector elements width =>
    rw [Ty.kids, Children.ints_toList] at found
    have some_element : elements ≠ 0 := by
      rintro rfl
      cases found
    rw [Ty.npBits, if_neg some_element, Ty.kids, Children.ints_total, Ty.npBits]
  | aggregate isVector children =>
    cases children with
    | nil => cases found
    | field ty rest => rw [Ty.npBits, Ty.kids, Children.total, Children.npBits_eq]
    | padding width rest => rw [Ty.npBits, Ty.kids, Children.total, Children.npBits_eq, Ty.npBits]

theorem Children.total_eq_sum (size : Ty → Nat) : ∀ children : Children,
    children.total size = (children.toList.map fun child => size child.2).sum
  | .nil => rfl
  | .field ty rest => by
    rw [Children.total, Children.toList, List.map_cons, List.sum_cons,
      Children.total_eq_sum size rest]
  | .padding width rest => by
    rw [Children.total, Children.toList, List.map_cons, List.sum_cons,
      Children.total_eq_sum size rest]

theorem total_split (size : Ty → Nat) {children suffix : List (Bool × Ty)}
    (dropped : children.drop i = suffix) :
    (children.map fun child => size child.2).sum =
      totalBefore size children i + (suffix.map fun child => size child.2).sum := by
  subst dropped
  unfold totalBefore
  rw [← List.sum_append, ← List.map_append, List.take_append_drop]

theorem Ty.extract_suffix {isPadding : Bool}
    (dropped : whole.kids.toList.drop i = (isPadding, ty) :: rest.toList) (v : StateValue) :
    whole.extract p v i false = ty.fromBV
        ⟨v.value.slice (rest.total (Ty.bits p)) (ty.bits p),
          .bv (v.nonPoison.bits.slice (rest.total (Ty.npBits p false)) (ty.npBits p false))⟩ := by
  have found : whole.kids.toList[i]? = some (isPadding, ty) := by
    rw [← List.head?_drop, dropped]
    rfl
  have bits := total_split (Ty.bits p) dropped
  have nps := total_split (Ty.npBits p false) dropped
  simp only [List.map_cons, List.sum_cons, ← Children.total_eq_sum] at bits nps
  unfold Ty.extract
  rw [Ty.children_eq, found]
  simp only [Bool.false_and, Bool.false_eq_true, if_false, Ty.bits_eq found, Ty.npBits_eq found]
  rw [bits, nps, Nat.sub_sub, Nat.sub_sub]
  congr 3
  · omega
  · congr 1
    omega

/-! ## Putting an aggregate together -/

def Sized (p : Params) : Ty → StateValue → Prop
  | .int width, v => v.value.length = width ∧ ∃ b, v.nonPoison = .bool b
  | .ptr, v => v.value.length = p.pointerBits ∧ ∃ b, v.nonPoison = .bool b
  | ty, v => v.value.length = ty.bits p ∧
      ∃ bits, v.nonPoison = .bv bits ∧ bits.length = ty.npBits p false

def SizedVals (p : Params) : Children → List StateValue → Prop
  | .nil, vals => vals = []
  | .field ty rest, vals => ∃ v tail, vals = v :: tail ∧ Sized p ty v ∧ SizedVals p rest tail
  | .padding _ rest, vals => SizedVals p rest vals

def layoutValue (p : Params) : Children → List StateValue → Bits
  | .nil, _ => []
  | .field _ _, [] => []
  | .field ty rest, v :: vals => layoutValue p rest vals ++ (ty.toBV v).value
  | .padding width rest, vals => layoutValue p rest vals ++ Bits.zeros width

def layoutNp (p : Params) : Children → List StateValue → Bits
  | .nil, _ => []
  | .field _ _, [] => []
  | .field ty rest, v :: vals => layoutNp p rest vals ++ (ty.toBV v).nonPoison.bits
  | .padding _ rest, vals => layoutNp p rest vals ++ [false]

theorem Sized.toBV (sized : Sized p ty v) : (ty.toBV v).value.length = ty.bits p ∧
      ∃ bits, (ty.toBV v).nonPoison = .bv bits ∧ bits.length = ty.npBits p false := by
  cases ty with
  | int width =>
    obtain ⟨size, b, np⟩ := sized
    exact ⟨by rw [Ty.bits]; exact size, _, rfl, by rw [np, Ty.npBits]; rfl⟩
  | ptr =>
    obtain ⟨size, b, np⟩ := sized
    exact ⟨by rw [Ty.bits]; exact size, _, rfl, by rw [np, Ty.npBits]; rfl⟩
  | vector elements width => exact sized
  | aggregate isVector children => exact sized

theorem Sized.fromBV_toBV (sized : Sized p ty v) : ty.fromBV (ty.toBV v) = v := by
  have back {value : Bits} (b : Bool) :
      (⟨value, .bool (NonPoison.isOnes (.bv (NonPoison.bool b).bits))⟩ : StateValue) =
        ⟨value, .bool b⟩ := by
    simp [NonPoison.bits, NonPoison.isOnes, Bits.isOnes]
  cases ty with
  | int width =>
    obtain ⟨value, np⟩ := v
    obtain ⟨-, b, rfl⟩ := sized
    exact back b
  | ptr =>
    obtain ⟨value, np⟩ := v
    obtain ⟨-, b, rfl⟩ := sized
    exact back b
  | vector elements width => rfl
  | aggregate isVector children => rfl

theorem length_layoutValue : ∀ {children : Children} {vals : List StateValue},
    SizedVals p children vals → (layoutValue p children vals).length = children.total (Ty.bits p)
  | .nil, _, _ => rfl
  | .field ty rest, _, ⟨v, tail, rfl, sized, sized_rest⟩ => by
    rw [layoutValue, List.length_append, length_layoutValue sized_rest, sized.toBV.1,
      Children.total, Nat.add_comm]
  | .padding width rest, vals, sized => by
    rw [layoutValue, List.length_append, length_layoutValue (show SizedVals p rest vals from sized),
      Bits.length_zeros, Children.total, Ty.bits, Nat.add_comm]

theorem length_layoutNp : ∀ {children : Children} {vals : List StateValue},
    SizedVals p children vals →
      (layoutNp p children vals).length = children.total (Ty.npBits p false)
  | .nil, _, _ => rfl
  | .field ty rest, _, ⟨v, tail, rfl, sized, sized_rest⟩ => by
    obtain ⟨-, bits, np, size⟩ := sized.toBV
    rw [layoutNp, List.length_append, length_layoutNp sized_rest, np, NonPoison.bits, size,
      Children.total, Nat.add_comm]
  | .padding width rest, vals, sized => by
    rw [layoutNp, List.length_append,
      length_layoutNp (show SizedVals p rest vals from sized), Children.total,
      Ty.npBits, Nat.add_comm]
    rfl

def Children.OnlyPtrs : Children → Prop
  | .nil => True
  | .field ty rest => ty = .ptr ∧ rest.OnlyPtrs
  | .padding _ _ => False

mutual

/-- The types that occur: no width is zero, and a vector that is an aggregate
has pointers only. -/
def Ty.WellFormed : Ty → Prop
  | .int width => 0 < width
  | .ptr => True
  | .vector elements width => 0 < elements ∧ 0 < width
  | .aggregate isVector children => children.WellFormed ∧ (isVector = true → children.OnlyPtrs)

def Children.WellFormed : Children → Prop
  | .nil => True
  | .field ty rest => ty.WellFormed ∧ rest.WellFormed
  | .padding width rest => 0 < width ∧ rest.WellFormed

end

theorem Ty.bits_pos (pointers : 0 < p.pointerBits) : ∀ {ty : Ty}, ty.WellFormed → 0 < ty.bits p
  | .int width, wf => by
    rw [Ty.WellFormed] at wf
    rwa [Ty.bits]
  | .ptr, _ => by rwa [Ty.bits]
  | .vector elements width, wf => by
    rw [Ty.WellFormed] at wf
    rw [Ty.bits, if_neg (Nat.pos_iff_ne_zero.1 wf.1)]
    exact Nat.mul_pos wf.1 wf.2
  | .aggregate _ .nil, _ => by
    rw [Ty.bits]
    exact Nat.one_pos
  | .aggregate _ (.field ty rest), wf => by
    rw [Ty.WellFormed, Children.WellFormed] at wf
    rw [Ty.bits]
    exact Nat.add_pos_left (Ty.bits_pos pointers wf.1.1) _
  | .aggregate _ (.padding width rest), wf => by
    rw [Ty.WellFormed, Children.WellFormed] at wf
    rw [Ty.bits]
    exact Nat.add_pos_left wf.1.1 _

theorem concat_bv {a b : StateValue} {x y : Bits} (high : a.nonPoison = .bv x)
    (low : b.nonPoison = .bv y) : a.concat b = ⟨b.value ++ a.value, .bv (y ++ x)⟩ := by
  unfold StateValue.concat
  rw [high, low]
  rfl

def Children.Nonempty (p : Params) (children : Children) : Prop :=
  ∀ child ∈ children.toList, 0 < child.2.bits p

theorem Children.WellFormed.nonempty (pointers : 0 < p.pointerBits) :
    ∀ {children : Children}, children.WellFormed → children.Nonempty p
  | .nil, _ => List.forall_mem_nil _
  | .field ty rest, wf => by
    rw [Children.WellFormed] at wf
    intro child member
    rcases List.mem_cons.1 member with rfl | member
    · exact Ty.bits_pos pointers wf.1
    · exact nonempty pointers wf.2 child member
  | .padding width rest, wf => by
    rw [Children.WellFormed] at wf
    intro child member
    rcases List.mem_cons.1 member with rfl | member
    · rw [Ty.bits]
      exact wf.1
    · exact nonempty pointers wf.2 child member

theorem Children.Nonempty.field
    (some_bits : (Children.field ty rest).Nonempty p) : 0 < ty.bits p ∧ rest.Nonempty p :=
  List.forall_mem_cons.1 some_bits

theorem Children.Nonempty.padding
    (some_bits : (Children.padding width rest).Nonempty p) : 0 < width ∧ rest.Nonempty p := by
  obtain ⟨here, rest⟩ := List.forall_mem_cons.1 some_bits
  rw [Ty.bits] at here
  exact ⟨here, rest⟩

theorem aggregateLoop_some :
    ∀ {children : Children} {vals : List StateValue} {a : StateValue} {x : Bits},
      children.Nonempty p → SizedVals p children vals → a.nonPoison = .bv x →
      aggregateLoop p (some a) children vals =
        some ⟨layoutValue p children vals ++ a.value, .bv (layoutNp p children vals ++ x)⟩
  | .nil, vals, a, x, _, _, np => by
    rw [aggregateLoop, layoutValue, layoutNp, List.nil_append, List.nil_append, ← np]
  | .field ty rest, _, a, x, some_bits, ⟨v, tail, rfl, sized, sized_rest⟩, np => by
    obtain ⟨-, bits, v_np, -⟩ := sized.toBV
    rw [aggregateLoop, if_neg (Nat.pos_iff_ne_zero.1 some_bits.field.1)]
    simp only [concat_bv np v_np]
    rw [aggregateLoop_some some_bits.field.2 sized_rest rfl, layoutValue, layoutNp, v_np,
      NonPoison.bits, List.append_assoc, List.append_assoc]
  | .padding width rest, vals, a, x, some_bits, sized, np => by
    have dummy : a.concat ⟨Bits.zeros width, .bv [false]⟩ =
        ⟨Bits.zeros width ++ a.value, .bv ([false] ++ x)⟩ := concat_bv np rfl
    rw [aggregateLoop, if_neg (Nat.pos_iff_ne_zero.1 some_bits.padding.1)]
    simp only [dummy]
    rw [aggregateLoop_some some_bits.padding.2 sized rfl, layoutValue, layoutNp, List.append_assoc,
      List.append_assoc]

theorem aggregateVals_layout (some_bits : children.Nonempty p) (sized : SizedVals p children vals)
    (some_child : children ≠ .nil) :
    children.aggregateVals p vals =
      ⟨layoutValue p children vals, .bv (layoutNp p children vals)⟩ := by
  unfold Children.aggregateVals
  cases children with
  | nil => exact absurd rfl some_child
  | field ty rest =>
    obtain ⟨v, tail, rfl, sized, sized_rest⟩ := sized
    obtain ⟨-, bits, v_np, -⟩ := sized.toBV
    rw [aggregateLoop, if_neg (Nat.pos_iff_ne_zero.1 some_bits.field.1)]
    simp only
    rw [aggregateLoop_some some_bits.field.2 sized_rest v_np, Option.getD_some, layoutValue,
      layoutNp, v_np, NonPoison.bits]
  | padding width rest =>
    rw [aggregateLoop, if_neg (Nat.pos_iff_ne_zero.1 some_bits.padding.1)]
    simp only
    rw [aggregateLoop_some some_bits.padding.2 sized rfl, Option.getD_some, layoutValue, layoutNp]

theorem aggregateVals_eq (pointers : 0 < p.pointerBits) (wf : children.WellFormed)
    (sized : SizedVals p children vals) (some_child : children ≠ .nil) :
    children.aggregateVals p vals = ⟨layoutValue p children vals, .bv (layoutNp p children vals)⟩ :=
  aggregateVals_layout (wf.nonempty pointers) sized some_child

theorem extract_layout {upperValue upperNp : Bits}
    (dropped : whole.kids.toList.drop i = (false, ty) :: rest.toList) (sized : Sized p ty v)
    (sized_rest : SizedVals p rest vals) :
    whole.extract p
      ⟨layoutValue p (.field ty rest) (v :: vals) ++ upperValue,
        .bv (layoutNp p (.field ty rest) (v :: vals) ++ upperNp)⟩ i false =
      ty.fromBV (ty.toBV v) := by
  obtain ⟨size, bits, np, np_size⟩ := sized.toBV
  rw [Ty.extract_suffix dropped]
  simp only [layoutValue, layoutNp, NonPoison.bits, np, List.append_assoc]
  rw [Bits.slice_above (length_layoutValue sized_rest), Bits.slice_first size,
    Bits.slice_above (length_layoutNp sized_rest), Bits.slice_first np_size, ← np]

/-! ## The integer form of a vector -/

theorem foldl_concat_above {rest : List StateValue}
    (bvs : ∀ v ∈ first :: rest, ∃ x, v.nonPoison = .bv x) :
    rest.foldl (fun acc v => v.concat acc) first =
      ⟨((first :: rest).map StateValue.value).flatten,
        .bv ((first :: rest).map fun v => v.nonPoison.bits).flatten⟩ := by
  induction rest generalizing first with
  | nil =>
    obtain ⟨x, np⟩ := bvs first List.mem_cons_self
    cases first
    simp_all [NonPoison.bits]
  | cons v rest ih =>
    obtain ⟨x, np⟩ := bvs first List.mem_cons_self
    obtain ⟨y, np'⟩ := bvs v (List.mem_cons_of_mem _ List.mem_cons_self)
    rw [List.foldl_cons, concat_bv np' np, ih]
    · simp [np, np', NonPoison.bits]
    · intro w member
      rcases List.mem_cons.1 member with rfl | member
      · exact ⟨_, rfl⟩
      · exact bvs w (List.mem_cons_of_mem _ (List.mem_cons_of_mem _ member))

theorem foldl_concat_below {rest : List StateValue}
    (bvs : ∀ v ∈ first :: rest, ∃ x, v.nonPoison = .bv x) :
    rest.foldl (fun acc v => acc.concat v) first =
      ⟨((first :: rest).reverse.map StateValue.value).flatten,
        .bv ((first :: rest).reverse.map fun v => v.nonPoison.bits).flatten⟩ := by
  induction rest generalizing first with
  | nil =>
    obtain ⟨x, np⟩ := bvs first List.mem_cons_self
    cases first
    simp_all [NonPoison.bits]
  | cons v rest ih =>
    obtain ⟨x, np⟩ := bvs first List.mem_cons_self
    obtain ⟨y, np'⟩ := bvs v (List.mem_cons_of_mem _ List.mem_cons_self)
    rw [List.foldl_cons, concat_bv np np', ih]
    · simp [np, np', NonPoison.bits]
    · intro w member
      rcases List.mem_cons.1 member with rfl | member
      · exact ⟨_, rfl⟩
      · exact bvs w (List.mem_cons_of_mem _ (List.mem_cons_of_mem _ member))

/-- The position of element `i` in the integer form. -/
def position (p : Params) (elements i : Nat) : Nat :=
  if p.littleEndian then i else elements - 1 - i

def intElements (p : Params) (elements width : Nat) (v : StateValue) : List StateValue :=
  (List.range elements).map fun i =>
    intToInt p width ((Ty.vector elements width).extract p v i false)

def placedElements (p : Params) (elements width : Nat) (v : StateValue) : List StateValue :=
  if p.littleEndian then intElements p elements width v
  else (intElements p elements width v).reverse

theorem toInt_vector (some_element : 0 < elements) (v : StateValue) :
    (Ty.vector elements width).toInt p v =
      ⟨((placedElements p elements width v).map StateValue.value).flatten,
        .bv ((placedElements p elements width v).map fun e => e.nonPoison.bits).flatten⟩ := by
  have bvs : ∀ e ∈ intElements p elements width v, ∃ x, e.nonPoison = .bv x := by
    intro e member
    obtain ⟨i, -, rfl⟩ := List.mem_map.1 member
    exact ⟨_, rfl⟩
  have nonempty : intElements p elements width v ≠ [] := by
    simpa [intElements] using Nat.pos_iff_ne_zero.1 some_element
  unfold placedElements
  have elements_eq : (List.range elements).map
      (fun i => intToInt p width ((Ty.vector elements width).extract p v i false)) =
        intElements p elements width v := rfl
  simp only [Ty.toInt, elements_eq]
  cases shape : intElements p elements width v with
  | nil => exact absurd shape nonempty
  | cons first rest =>
    rw [shape] at bvs
    cases p.littleEndian with
    | true => exact foldl_concat_above bvs
    | false => exact foldl_concat_below bvs

section

variable (in_range : i < elements)

include in_range

theorem placedElements_get (v : StateValue) :
    (placedElements p elements width v)[position p elements i]? =
      some (intToInt p width ((Ty.vector elements width).extract p v i false)) := by
  have size : (intElements p elements width v).length = elements := by simp [intElements]
  unfold placedElements position
  cases p.littleEndian with
  | true => simp [intElements, in_range]
  | false =>
    simp only [Bool.false_eq_true, if_false]
    rw [List.getElem?_reverse (by omega), size]
    have back : elements - 1 - (elements - 1 - i) = i := by omega
    simp [back, intElements, in_range]

theorem vector_kids_drop : (Ty.vector elements width).kids.toList.drop i =
      (false, Ty.int width) :: (Children.ints width (elements - 1 - i)).toList := by
  rw [Ty.kids, Children.ints_toList, Children.ints_toList, List.drop_replicate,
    ← List.replicate_succ]
  congr 1
  omega

theorem vector_extract (v : StateValue) : (Ty.vector elements width).extract p v i false =
      ⟨v.value.slice ((elements - 1 - i) * width) width,
        .bool (Bits.isOnes (v.nonPoison.bits.slice (elements - 1 - i) 1))⟩ := by
  rw [Ty.extract_suffix (vector_kids_drop in_range), Children.ints_total, Children.ints_total,
    Ty.bits, Ty.npBits, Ty.fromBV]
  simp [intNpBits, NonPoison.isOnes]

theorem vector_extract_fromInt (v : StateValue) :
    (Ty.vector elements width).extract p v i true = fromIntScalar
        ⟨v.value.slice (position p elements i * width) width,
          .bv (v.nonPoison.bits.slice (position p elements i * intNpBits p true width)
            (intNpBits p true width))⟩ := by
  have found : (Ty.vector elements width).children[i]? = some (false, .int width) := by
    simp [Ty.children, in_range]
  have before (size : Ty → Nat) :
      totalBefore size (Ty.vector elements width).children i = i * size (.int width) := by
    simp [totalBefore, Ty.children, List.take_replicate, Nat.min_eq_left (Nat.le_of_lt in_range)]
  have some_element : elements ≠ 0 := by omega
  have after (n : Nat) : elements * n - i * n - n = (elements - 1 - i) * n := by
    rw [← Nat.sub_mul, ← Nat.sub_one_mul]
    congr 1
    omega
  unfold Ty.extract
  rw [found]
  simp only [before, Bool.true_and, if_true, Ty.bits, Ty.npBits, if_neg some_element, after]
  unfold position
  cases p.littleEndian <;> rfl

theorem vector_element_size (size : v.value.length = elements * width) :
    ((Ty.vector elements width).extract p v i false).value.length = width := by
  rw [vector_extract in_range]
  refine Bits.length_slice ?_
  rw [size, ← Nat.succ_mul]
  exact Nat.mul_le_mul_right _ (by omega)

end

theorem placedElements_sizes (size : v.value.length = elements * width) :
    ∀ e ∈ placedElements p elements width v,
      e.value.length = width ∧ e.nonPoison.bits.length = intNpBits p true width := by
  intro e member
  have member : e ∈ intElements p elements width v := by
    unfold placedElements at member
    split at member
    · exact member
    · exact List.mem_reverse.1 member
  obtain ⟨i, in_range, rfl⟩ := List.mem_map.1 member
  exact ⟨vector_element_size (List.mem_range.1 in_range) size, by simp [intToInt, NonPoison.bits]⟩

theorem length_placedElements (p : Params) (elements width : Nat) (v : StateValue) :
    (placedElements p elements width v).length = elements := by
  unfold placedElements
  split <;> simp [intElements]

theorem vector_toInt_sizes (some_element : 0 < elements)
    (size : v.value.length = elements * width) :
    ((Ty.vector elements width).toInt p v).value.length = elements * width ∧
      ∃ x, ((Ty.vector elements width).toInt p v).nonPoison = .bv x ∧
        x.length = elements * intNpBits p true width := by
  have uniform {length : StateValue → Nat} {n : Nat}
      (each : ∀ e ∈ placedElements p elements width v, length e = n) :
      ((placedElements p elements width v).map length).sum = elements * n := by
    rw [List.map_congr_left each, List.map_const', length_placedElements]
    simp
  rw [toInt_vector some_element]
  refine ⟨?_, _, rfl, ?_⟩
  · rw [List.length_flatten, List.map_map]
    exact uniform fun e member => (placedElements_sizes size e member).1
  · rw [List.length_flatten, List.map_map]
    exact uniform fun e member => (placedElements_sizes size e member).2

theorem vector_element_back (in_range : i < elements) (np_positive : 0 < intNpBits p true width)
    (size : v.value.length = elements * width) :
    (Ty.vector elements width).extract p ((Ty.vector elements width).toInt p v) i true =
      (Ty.vector elements width).extract p v i false := by
  have here : (placedElements p elements width v)[position p elements i]? =
      some (intToInt p width ((Ty.vector elements width).extract p v i false)) :=
    placedElements_get in_range v
  have value_back := Bits.slice_flatten_uniform
    (List.forall_mem_map.2 fun e member => (placedElements_sizes size e member).1)
    (show ((placedElements p elements width v).map StateValue.value)[position p elements i]? = _
      by rw [List.getElem?_map, here]; rfl)
  have np_back := Bits.slice_flatten_uniform
    (List.forall_mem_map.2 fun e member => (placedElements_sizes size e member).2)
    (show ((placedElements p elements width v).map fun e => e.nonPoison.bits)[
      position p elements i]? = _ by rw [List.getElem?_map, here]; rfl)
  rw [vector_extract_fromInt in_range, toInt_vector (by omega)]
  change fromIntScalar ⟨Bits.slice _ _ _, .bv (Bits.slice (List.flatten _) _ _)⟩ = _
  rw [value_back, np_back, vector_extract in_range]
  simp only [fromIntScalar, intToInt, NonPoison.bits, NonPoison.isOnes,
    Bits.isOnes_replicate np_positive]

theorem sizedVals_ints (width : Nat) : ∀ {elements : Nat} {vals : List StateValue},
    vals.length = elements → (∀ v ∈ vals, Sized p (.int width) v) →
    SizedVals p (Children.ints width elements) vals
  | 0, vals, size, _ => List.length_eq_zero_iff.1 size
  | n + 1, [], size, _ => by cases size
  | n + 1, v :: vals, size, sized =>
    ⟨v, vals, rfl, sized v List.mem_cons_self,
      sizedVals_ints width (Nat.succ.inj size) fun w member =>
        sized w (List.mem_cons_of_mem _ member)⟩

theorem wellFormed_ints (positive : 0 < width) : ∀ elements : Nat,
    (Children.ints width elements).WellFormed
  | 0 => by
    rw [Children.ints, Children.WellFormed]
    trivial
  | n + 1 => by
    rw [Children.ints, Children.WellFormed, Ty.WellFormed]
    exact ⟨positive, wellFormed_ints positive n⟩

theorem layout_ints_split (width : Nat) : ∀ {elements i : Nat} {vals : List StateValue},
    vals.length = elements → i ≤ elements →
    ∃ upperValue upperNp, layoutValue p (Children.ints width elements) vals =
        layoutValue p (Children.ints width (elements - i)) (vals.drop i) ++ upperValue ∧
      layoutNp p (Children.ints width elements) vals =
        layoutNp p (Children.ints width (elements - i)) (vals.drop i) ++ upperNp
  | elements, 0, vals, _, _ => ⟨[], [], by simp, by simp⟩
  | 0, i + 1, _, _, le => absurd le (by omega)
  | n + 1, i + 1, [], size, _ => by cases size
  | n + 1, i + 1, v :: vals, size, le => by
    obtain ⟨upperValue, upperNp, value_eq, np_eq⟩ :=
      layout_ints_split width (Nat.succ.inj size) (Nat.le_of_succ_le_succ le)
    refine ⟨upperValue ++ ((Ty.int width).toBV v).value,
      upperNp ++ ((Ty.int width).toBV v).nonPoison.bits, ?_, ?_⟩
    · rw [Children.ints, layoutValue, value_eq, Nat.add_sub_add_right, List.drop_succ_cons,
        List.append_assoc]
    · rw [Children.ints, layoutNp, np_eq, Nat.add_sub_add_right, List.drop_succ_cons,
        List.append_assoc]

theorem vector_fromInt (pointers : 0 < p.pointerBits) (some_element : 0 < elements)
    (positive : 0 < width) (size : v.value.length = elements * width) :
    Sized p (.vector elements width) ((Ty.vector elements width).fromInt p v) ∧ ∀ i < elements,
        (Ty.vector elements width).extract p ((Ty.vector elements width).fromInt p v) i false =
          (Ty.vector elements width).extract p v i true := by
  have element (i : Nat) (in_range : i < elements) :
      Sized p (.int width) ((Ty.vector elements width).extract p v i true) := by
    rw [vector_extract_fromInt in_range]
    refine ⟨Bits.length_slice ?_, _, rfl⟩
    have below : position p elements i < elements := by
      unfold position
      split <;> omega
    rw [size, ← Nat.succ_mul]
    exact Nat.mul_le_mul_right _ below
  have count : ((List.range elements).map fun i =>
      (Ty.vector elements width).extract p v i true).length = elements := by simp
  have sized : SizedVals p (Children.ints width elements)
      ((List.range elements).map fun i => (Ty.vector elements width).extract p v i true) := by
    refine sizedVals_ints width count ?_
    intro e member
    obtain ⟨i, in_range, rfl⟩ := List.mem_map.1 member
    exact element i (List.mem_range.1 in_range)
  have some_child : Children.ints width elements ≠ .nil := by
    cases elements with
    | zero => exact absurd some_element (Nat.lt_irrefl 0)
    | succ n => exact nofun
  rw [Ty.fromInt, aggregateVals_eq pointers (wellFormed_ints positive _) sized some_child]
  refine ⟨⟨?_, _, rfl, ?_⟩, ?_⟩
  · rw [length_layoutValue sized, Children.ints_total, Ty.bits, Ty.bits,
      if_neg (Nat.pos_iff_ne_zero.1 some_element)]
  · rw [length_layoutNp sized, Children.ints_total, Ty.npBits, Ty.npBits,
      if_neg (Nat.pos_iff_ne_zero.1 some_element)]
  · intro i in_range
    obtain ⟨upperValue, upperNp, value_split, np_split⟩ :=
      layout_ints_split (p := p) width count (Nat.le_of_lt in_range)
    have drop_eq : ((List.range elements).map fun i =>
        (Ty.vector elements width).extract p v i true).drop i =
        (Ty.vector elements width).extract p v i true ::
          ((List.range elements).map fun i =>
            (Ty.vector elements width).extract p v i true).drop (i + 1) := by
      rw [List.drop_eq_getElem_cons (by rwa [count])]
      simp
    have shape : Children.ints width (elements - i) =
        .field (.int width) (Children.ints width (elements - 1 - i)) := by
      rw [← Children.ints]
      congr 1
      omega
    have tail_sized : SizedVals p (Children.ints width (elements - 1 - i))
        (((List.range elements).map fun i =>
          (Ty.vector elements width).extract p v i true).drop (i + 1)) := by
      refine sizedVals_ints width (by simp; omega) ?_
      intro e member
      obtain ⟨j, j_lt, rfl⟩ := List.mem_map.1 (List.mem_of_mem_drop member)
      exact element j (List.mem_range.1 j_lt)
    rw [value_split, np_split, drop_eq, shape,
      extract_layout (vector_kids_drop in_range) (element i in_range) tail_sized,
      (element i in_range).fromBV_toBV]

end AliveNext.IR
