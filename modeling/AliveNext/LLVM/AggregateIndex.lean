import AliveNext.LLVM.TypeTranslation
import AliveNext.Lib.Padded

/-!
# Indices into padded aggregates

`visitExtractValueInst` and `visitInsertValueInst` turn an index of LLVM into one
of the padded type (`llvm_util/llvm2alive.cpp`, `ir/type.cpp`).
-/

namespace AliveNext.LLVM.Types

open AliveNext.Lib

/-- `AggregateType::countPaddings`. -/
def countPaddings (isPadding : List Bool) (toIdx : Nat) : Nat :=
  (isPadding.take (toIdx + 1)).count true

/-- The loop over the indices; `none` where a child is taken of a scalar or behind the last
one. -/
def addIndices : AType → List Nat → Option (List Nat)
  | _, [] => some []
  | .aggregate _ children isPadding, idx :: rest => do
      let idxWithPaddings := countPaddings isPadding idx + idx
      let child ← children[idxWithPaddings]?
      let later ← addIndices child rest
      some (idxWithPaddings :: later)
  | _, _ :: _ => none

/-- The places of the elements that LLVM names. -/
def fieldPath : AType → List Nat → Option (List Nat)
  | _, [] => some []
  | .aggregate _ children isPadding, idx :: rest => do
      let place ← fieldAt isPadding idx
      let child ← children[place]?
      let later ← fieldPath child rest
      some (place :: later)
  | _, _ :: _ => none

/-! ## Values -/

/-- Values as trees; in the padded ones the padding is a child of its own. -/
inductive Val (α : Type)
  | scalar (a : α)
  | padding
  | aggregate (vals : List (Val α))

namespace Val

variable {α : Type}

mutual

def represent : AType → Val α → Val α
  | .aggregate _ children isPadding, .aggregate vals =>
    .aggregate (representMembers children isPadding vals)
  | _, v => v

/-- `AggregateType::aggregateVals`. -/
def representMembers : List AType → List Bool → List (Val α) → List (Val α)
  | _ :: children, true :: isPadding, vals => .padding :: representMembers children isPadding vals
  | child :: children, false :: isPadding, v :: vals =>
    represent child v :: representMembers children isPadding vals
  | _, _, _ => []

end

/-- LLVM's `extractvalue`, and `ExtractValue::toSMT` on the indices of the padded type. -/
def extract : Val α → List Nat → Option (Val α)
  | v, [] => some v
  | .aggregate vals, idx :: rest => do
      let v ← vals[idx]?
      extract v rest
  | _, _ :: _ => none

/-- LLVM's `insertvalue`. -/
def insert (elem : Val α) : Val α → List Nat → Option (Val α)
  | _, [] => some elem
  | .aggregate vals, idx :: rest => do
      let v ← vals[idx]?
      let new ← insert elem v rest
      some (.aggregate (vals.set idx new))
  | _, _ :: _ => none

/-- One level of `update_repack`: the children that are no padding, with the one at `curIdx`
replaced. -/
def repack (isPadding : List Bool) (vals : List (Val α)) (curIdx : Nat) (new : Val α) :
    List (Val α) :=
  vals.mapIdx fun i v =>
    if isPadding[i]? = some true then .padding else if i = curIdx then new else v

/-- `update_repack`, which `InsertValue::toSMT` calls. -/
def updateRepack (elem : Val α) : AType → Val α → List Nat → Option (Val α)
  | _, _, [] => some elem
  | .aggregate _ children isPadding, .aggregate vals, idx :: rest => do
      let child ← children[idx]?
      let v ← vals[idx]?
      let new ← updateRepack elem child v rest
      some (.aggregate (repack isPadding vals idx new))
  | _, _, _ :: _ => none

end Val

def AType.childAt : AType → List Nat → Option AType
  | ty, [] => some ty
  | .aggregate _ children _, idx :: rest => do
      let child ← children[idx]?
      child.childAt rest
  | _, _ :: _ => none

/-- The indices survive the padding: they are in range, they are the places of the elements that
LLVM names, `ExtractValue` reads them and `InsertValue` replaces them. -/
structure Survives (α : Type) (ty : AType) (idxs : List Nat) : Prop where
  places : ∃ path, addIndices ty idxs = some path ∧ fieldPath ty idxs = some path
  reads : ∀ path child, addIndices ty idxs = some path → ty.childAt path = some child →
    ∀ v x : Val α, v.extract idxs = some x →
      (v.represent ty).extract path = some (x.represent child)
  replaces : ∀ path child, addIndices ty idxs = some path → ty.childAt path = some child →
    ∀ v v' x : Val α, Val.insert x v idxs = some v' →
      Val.updateRepack (x.represent child) ty (v.represent ty) path = some (v'.represent ty)

/-! ## Where the padding is -/

def LType.elementType : LType → Nat → Option LType
  | .struct _ elems, i => elems[i]?
  | .array elems elem, i => if i < elems then some elem else none
  | _, _ => none

def LType.HasPath : LType → List Nat → Prop
  | _, [] => True
  | ty, idx :: rest => ∃ elem, ty.elementType idx = some elem ∧ elem.HasPath rest

section

variable (dl : DataLayout)

def membersFollowed (padding : Nat → LType → Nat) (i : Nat) : List LType → List Bool
  | [] => []
  | elem :: rest => decide (padding i elem ≠ 0) :: membersFollowed padding (i + 1) rest

def followed : LType → List Bool
  | .struct packed elems => membersFollowed (structPadding dl packed elems) 0 elems
  | .array elems elem =>
    List.replicate elems (arrayPadding dl elem ≠ 0 ∧ paddingBits (arrayPadding dl elem) ≤ 16 * 1024)
  | _ => []

/-- At every level of the path, the padding before the element is at a place that is no larger
than the index. -/
def EarlyPadding : LType → List Nat → Prop
  | _, [] => True
  | ty, idx :: rest =>
    (∀ j < idx, (followed dl ty)[j]? = some true →
      j + 1 + ((followed dl ty).take j).count true ≤ idx) ∧
    ∀ elem, ty.elementType idx = some elem → EarlyPadding elem rest

end

section

variable {dl : DataLayout} {ty elem : LType} {aty child : AType} {padding : Nat → LType → Nat}
  {elems : List LType} {members : List (Bool × AType)} {i idx place : Nat}

theorem structMembers_cons
    (translated : structMembers dl padding i (elem :: elems) = some members) :
    ∃ ty padded later, llvmType2Alive dl elem = some ty ∧
      structMembers dl padding (i + 1) elems = some later ∧
      members = (false, ty) :: padded ++ later ∧
      (padding i elem = 0 ∧ padded = [] ∨
        padding i elem ≠ 0 ∧ paddingBits (padding i elem) ≤ 16 * 1024 ∧
          padded = [(true, .scalar (.integer (paddingBits (padding i elem))))]) := by
  unfold structMembers at translated
  simp only [Option.bind_eq_bind, Option.bind_eq_some_iff, Option.some.injEq] at translated
  obtain ⟨ty, translatedElem, padded, filler, later, translatedRest, rfl⟩ := translated
  refine ⟨ty, padded, later, translatedElem, translatedRest, rfl, ?_⟩
  unfold paddingMember at filler
  split at filler
  · next none =>
      cases filler
      exact .inl ⟨none, rfl⟩
  · next some =>
      obtain ⟨fillerTy, int, rfl⟩ := Option.map_eq_some_iff.1 filler
      unfold getIntType at int
      split at int
      · cases int
      · next small =>
          cases int
          exact .inr ⟨some, not_lt.1 small, rfl⟩

theorem structMembers_isPadding (translated : structMembers dl padding i elems = some members) :
    members.map Prod.fst = fillers (membersFollowed padding i elems) := by
  induction elems generalizing i members with
  | nil =>
    cases translated
    rfl
  | cons elem elems ih =>
    obtain ⟨ty, padded, later, -, rest, rfl, ⟨none, rfl⟩ | ⟨some, -, rfl⟩⟩ :=
      structMembers_cons translated
    · rw [membersFollowed, decide_eq_false (not_not.2 none), fillers_cons_false, ← ih rest]
      rfl
    · rw [membersFollowed, decide_eq_true some, fillers_cons_true, ← ih rest]
      rfl

theorem structMembers_child (translated : structMembers dl padding i elems = some members)
    (known : elems[idx]? = some elem) (field : fieldAt (members.map Prod.fst) idx = some place) :
    ∃ child, (members.map Prod.snd)[place]? = some child ∧ llvmType2Alive dl elem = some child := by
  induction elems generalizing i members idx place with
  | nil => cases known
  | cons first elems ih =>
    obtain ⟨ty, padded, later, translatedFirst, rest, rfl, padding⟩ :=
      structMembers_cons translated
    cases idx with
    | zero =>
      cases known
      cases field
      exact ⟨ty, rfl, translatedFirst⟩
    | succ idx =>
      rw [List.getElem?_cons_succ] at known
      rcases padding with ⟨-, rfl⟩ | ⟨-, -, rfl⟩
      · obtain ⟨before, behind, rfl⟩ := Option.map_eq_some_iff.1 field
        obtain ⟨child, found, same⟩ := ih rest known behind
        exact ⟨child, found, same⟩
      · obtain ⟨before, middle, rfl⟩ := Option.map_eq_some_iff.1 field
        obtain ⟨before, behind, rfl⟩ := Option.map_eq_some_iff.1 middle
        obtain ⟨child, found, same⟩ := ih rest known behind
        exact ⟨child, found, same⟩

theorem arrayChildren_get {ety paddingTy : AType} {n : Nat}
    (field : fieldAt (List.replicate n [false, true]).flatten idx = some place) :
    (List.replicate n [ety, paddingTy]).flatten[place]? = some ety := by
  induction n generalizing idx place with
  | zero => cases field
  | succ n ih =>
    rw [List.replicate_succ, List.flatten_cons] at field ⊢
    cases idx with
    | zero =>
      cases field
      rfl
    | succ idx =>
      obtain ⟨before, middle, rfl⟩ := Option.map_eq_some_iff.1 field
      obtain ⟨before, later, rfl⟩ := Option.map_eq_some_iff.1 middle
      exact ih later

theorem membersFollowed_length : (membersFollowed padding i elems).length = elems.length := by
  induction elems generalizing i with
  | nil => rfl
  | cons elem elems ih => exact congrArg Nat.succ ih

theorem elementType_array (elems : Nat) (elem : LType) (i : Nat) :
    (LType.array elems elem).elementType i = if i < elems then some elem else none :=
  rfl

theorem lt_followed_length
    (known : ty.elementType idx = some elem) : idx < (followed dl ty).length := by
  cases ty with
  | struct packed elems =>
    rw [followed, membersFollowed_length]
    exact (List.getElem?_eq_some_iff.1 known).1
  | array elems elem =>
    rw [elementType_array] at known
    split at known
    · next inside =>
        rw [followed, List.length_replicate]
        exact inside
    · cases known
  | _ => cases known

structure ElementPlace (dl : DataLayout) (ty : LType) (idx : Nat) (elem : LType)
    (children : List AType) (isPadding : List Bool) (place : Nat) (child : AType) : Prop where
  flags : isPadding = fillers (followed dl ty)
  field : fieldAt isPadding idx = some place
  after : place = idx + ((followed dl ty).take idx).count true
  found : children[place]? = some child
  translated : llvmType2Alive dl elem = some child

theorem fieldAt_followed (dl : DataLayout) (known : ty.elementType idx = some elem) :
    fieldAt (fillers (followed dl ty)) idx = some (idx + ((followed dl ty).take idx).count true) :=
  fieldAt_fillers (lt_followed_length known)

theorem arrayPaddingTy_cases (dl : DataLayout) (elem : LType) :
    (if arrayPadding dl elem = 0 then none else getIntType (paddingBits (arrayPadding dl elem))) =
      if arrayPadding dl elem ≠ 0 ∧ paddingBits (arrayPadding dl elem) ≤ 16 * 1024
      then some (.scalar (.integer (paddingBits (arrayPadding dl elem)))) else none := by
  unfold getIntType
  by_cases none : arrayPadding dl elem = 0
  · rw [if_pos none, if_neg fun both => both.1 none]
  · by_cases large : paddingBits (arrayPadding dl elem) > 16 * 1024
    · rw [if_neg none, if_pos large, if_neg fun both => absurd both.2 (not_le.2 large)]
    · rw [if_neg none, if_neg large, if_pos ⟨none, not_lt.1 large⟩]

theorem translated_element
    (translated : llvmType2Alive dl ty = some aty) (known : ty.elementType idx = some elem) :
    ∃ kind children isPadding place child, aty = .aggregate kind children isPadding ∧
      ElementPlace dl ty idx elem children isPadding place child := by
  have field := fieldAt_followed dl known
  cases ty with
  | struct packed elems =>
    unfold llvmType2Alive at translated
    simp only [Option.bind_eq_bind, Option.bind_eq_some_iff, Option.some.injEq] at translated
    obtain ⟨members, inner, rfl⟩ := translated
    have isPadding : members.map Prod.fst = fillers (followed dl (.struct packed elems)) :=
      structMembers_isPadding inner
    rw [← isPadding] at field
    obtain ⟨child, found, same⟩ := structMembers_child inner known field
    exact ⟨_, _, _, _, child, rfl, isPadding, field, rfl, found, same⟩
  | array elems arrayElem =>
    rw [elementType_array] at known
    split at known
    · next inside =>
        cases known
        unfold llvmType2Alive at translated
        simp only [Option.bind_eq_bind, Option.bind_eq_some_iff] at translated
        obtain ⟨ety, inner, result⟩ := translated
        split at result
        · cases result
        · rw [arrayPaddingTy_cases] at result
          by_cases gap : arrayPadding dl elem ≠ 0 ∧ paddingBits (arrayPadding dl elem) ≤ 16 * 1024
          · rw [if_pos gap] at result
            cases result
            have isPadding : (List.replicate elems [false, true]).flatten =
                fillers (followed dl (.array elems elem)) := by
              rw [followed, decide_eq_true gap, fillers_replicate_true]
            rw [← isPadding] at field
            exact ⟨_, _, _, _, ety, rfl, isPadding, field, rfl, arrayChildren_get field, inner⟩
          · rw [if_neg gap] at result
            cases result
            have followedNone : followed dl (.array elems elem) = List.replicate elems false := by
              rw [followed, decide_eq_false gap]
            have isPadding : List.replicate elems false =
                fillers (followed dl (.array elems elem)) := by
              rw [followedNone, fillers_replicate_false]
            rw [← isPadding] at field
            refine ⟨_, _, _, _, ety, rfl, isPadding, field, rfl, ?_, inner⟩
            exact List.getElem?_replicate_of_lt ((fieldAt_lt field).trans_eq List.length_replicate)
    · cases known
  | _ => cases known

end

section

variable {dl : DataLayout} {ty elem : LType} {aty : AType} {idx : Nat} {idxs : List Nat}

theorem countPaddings_add_eq_iff (dl : DataLayout) (ty : LType) (idx : Nat) :
    countPaddings (fillers (followed dl ty)) idx + idx =
        idx + ((followed dl ty).take idx).count true ↔
      ∀ j < idx, (followed dl ty)[j]? = some true →
        j + 1 + ((followed dl ty).take j).count true ≤ idx := by
  rw [Nat.add_comm, Nat.add_left_cancel_iff, countPaddings,
    count_take_fillers_iff (Nat.le_refl (idx + 1))]
  simp only [Nat.lt_succ_iff]

theorem fieldPath_of_hasPath (translated : llvmType2Alive dl ty = some aty)
    (named : ty.HasPath idxs) : ∃ path, fieldPath aty idxs = some path := by
  induction idxs generalizing ty aty with
  | nil => exact ⟨[], by unfold fieldPath; rfl⟩
  | cons idx idxs ih =>
    obtain ⟨elem, known, rest⟩ := named
    obtain ⟨kind, children, isPadding, place, child, rfl, element⟩ :=
      translated_element translated known
    obtain ⟨path, later⟩ := ih element.translated rest
    refine ⟨place :: path, ?_⟩
    rw [fieldPath, element.field]
    simp only [Option.bind_eq_bind, Option.bind_some, element.found, later]

theorem addIndices_eq_fieldPath_iff
    (translated : llvmType2Alive dl ty = some aty) (named : ty.HasPath idxs) :
    addIndices aty idxs = fieldPath aty idxs ↔ EarlyPadding dl ty idxs := by
  induction idxs generalizing ty aty with
  | nil =>
    unfold addIndices fieldPath EarlyPadding
    exact iff_of_true rfl trivial
  | cons idx idxs ih =>
    obtain ⟨elem, known, rest⟩ := named
    obtain ⟨kind, children, isPadding, place, child, rfl, element⟩ :=
      translated_element translated known
    obtain ⟨path, later⟩ := fieldPath_of_hasPath element.translated rest
    have level := countPaddings_add_eq_iff dl ty idx
    rw [← element.flags, ← element.after] at level
    have deeper := ih element.translated rest
    have field : fieldPath (.aggregate kind children isPadding) (idx :: idxs) =
        some (place :: path) := by
      rw [fieldPath, element.field]
      simp only [Option.bind_eq_bind, Option.bind_some, element.found, later]
    have padding : EarlyPadding dl ty (idx :: idxs) ↔
        countPaddings isPadding idx + idx = place ∧ addIndices child idxs = some path := by
      rw [EarlyPadding, level, ← later, deeper]
      simp only [known, Option.some.injEq, forall_eq']
    rw [field, padding, addIndices]
    simp only [Option.bind_eq_bind, Option.bind_eq_some_iff, Option.some.injEq, List.cons.injEq]
    constructor
    · rintro ⟨other, found, path', later', same, rfl⟩
      rw [same, element.found] at found
      cases found
      exact ⟨same, later'⟩
    · rintro ⟨same, later'⟩
      exact ⟨child, same ▸ element.found, path, later', same, rfl⟩

end

section

variable {α : Type} {ty child : AType} {children : List AType} {isPadding : List Bool}
  {vals : List (Val α)} {v v' x : Val α} {idx place : Nat} {idxs path : List Nat}

theorem representMembers_get (field : fieldAt isPadding idx = some place)
    (found : children[place]? = some child) (known : vals[idx]? = some v) :
    (Val.representMembers children isPadding vals)[place]? = some (v.represent child) := by
  induction isPadding generalizing idx place children vals with
  | nil => cases field
  | cons flag isPadding ih =>
    cases children with
    | nil => cases found
    | cons first children =>
      cases flag with
      | true =>
        obtain ⟨before, earlier, rfl⟩ := Option.map_eq_some_iff.1 field
        rw [Val.representMembers, List.getElem?_cons_succ]
        exact ih earlier found known
      | false =>
        cases vals with
        | nil => cases known
        | cons w vals =>
          rw [Val.representMembers]
          cases idx with
          | zero =>
            cases field
            cases found
            cases known
            rfl
          | succ idx =>
            obtain ⟨before, earlier, rfl⟩ := Option.map_eq_some_iff.1 field
            rw [List.getElem?_cons_succ]
            exact ih earlier found known

theorem representMembers_padding (children : List AType) (isPadding : List Bool)
    (vals : List (Val α)) :
    ((Val.representMembers children isPadding vals).mapIdx fun i v =>
      if isPadding[i]? = some true then Val.padding else v) =
        Val.representMembers children isPadding vals := by
  induction isPadding generalizing children vals with
  | nil =>
    cases children with
    | nil => simp only [Val.representMembers, List.mapIdx_nil]
    | cons _ _ => simp only [Val.representMembers, List.mapIdx_nil]
  | cons flag isPadding ih =>
    cases children with
    | nil => simp only [Val.representMembers, List.mapIdx_nil]
    | cons first children =>
      cases flag with
      | true =>
        rw [Val.representMembers, List.mapIdx_cons]
        simp only [List.getElem?_cons_succ, ih, List.getElem?_cons_zero, if_true]
      | false =>
        cases vals with
        | nil => simp only [Val.representMembers, List.mapIdx_nil]
        | cons w vals =>
          rw [Val.representMembers, List.mapIdx_cons]
          simp only [List.getElem?_cons_succ, ih, List.getElem?_cons_zero,
            Option.some.injEq, Bool.false_eq_true, if_false]

theorem representMembers_set (field : fieldAt isPadding idx = some place)
    (found : children[place]? = some child) (known : vals[idx]? = some v) :
    Val.repack isPadding (Val.representMembers children isPadding vals) place (x.represent child) =
      Val.representMembers children isPadding (vals.set idx x) := by
  unfold Val.repack
  induction isPadding generalizing idx place children vals with
  | nil => cases field
  | cons flag isPadding ih =>
    cases children with
    | nil => cases found
    | cons first children =>
      cases flag with
      | true =>
        obtain ⟨before, earlier, rfl⟩ := Option.map_eq_some_iff.1 field
        rw [Val.representMembers, Val.representMembers, List.mapIdx_cons, ← ih earlier found known]
        simp only [List.getElem?_cons_succ, List.getElem?_cons_zero, if_true,
          Nat.add_right_cancel_iff]
      | false =>
        cases vals with
        | nil => cases known
        | cons w vals =>
          cases idx with
          | zero =>
            cases field
            cases found
            rw [List.set_cons_zero, Val.representMembers, Val.representMembers, List.mapIdx_cons]
            simp only [List.getElem?_cons_succ, List.getElem?_cons_zero,
              Option.some.injEq, Bool.false_eq_true, if_false, if_true,
              Nat.add_one_ne_zero, representMembers_padding]
          | succ idx =>
            obtain ⟨before, earlier, rfl⟩ := Option.map_eq_some_iff.1 field
            rw [List.set_cons_succ, Val.representMembers, Val.representMembers,
              List.mapIdx_cons, ← ih earlier found known]
            simp only [List.getElem?_cons_succ, List.getElem?_cons_zero,
              Option.some.injEq, Bool.false_eq_true, if_false,
              Nat.add_right_cancel_iff, (Nat.succ_ne_zero before).symm]

theorem fieldPath_cons (field : fieldPath ty (idx :: idxs) = some path) :
    ∃ kind children isPadding place child later, ty = .aggregate kind children isPadding ∧
      fieldAt isPadding idx = some place ∧ children[place]? = some child ∧
      fieldPath child idxs = some later ∧ path = place :: later := by
  cases ty with
  | void => cases field
  | scalar => cases field
  | aggregate kind children isPadding =>
    rw [fieldPath] at field
    simp only [Option.bind_eq_bind, Option.bind_eq_some_iff, Option.some.injEq] at field
    obtain ⟨place, here, child, found, later, deeper, rfl⟩ := field
    exact ⟨kind, children, isPadding, place, child, later, rfl, here, found, deeper, rfl⟩

/-- `ExtractValue` at the places of the elements. -/
theorem represent_extract (field : fieldPath ty idxs = some path)
    (target : ty.childAt path = some child) (extract : v.extract idxs = some x) :
    (v.represent ty).extract path = some (x.represent child) := by
  induction idxs generalizing ty v path with
  | nil =>
    unfold fieldPath at field
    cases field
    unfold AType.childAt at target
    cases target
    unfold Val.extract at extract ⊢
    cases extract
    rfl
  | cons idx idxs ih =>
    obtain ⟨kind, children, isPadding, place, inner, later, rfl, here, found, deeper, rfl⟩ :=
      fieldPath_cons field
    cases v with
    | scalar => cases extract
    | padding => cases extract
    | aggregate vals =>
      rw [Val.extract, Option.bind_eq_bind, Option.bind_eq_some_iff] at extract
      obtain ⟨w, known, rest⟩ := extract
      rw [AType.childAt, Option.bind_eq_bind, found, Option.bind_some] at target
      rw [Val.represent, Val.extract, Option.bind_eq_bind,
        representMembers_get here found known, Option.bind_some]
      exact ih deeper target rest

/-- `InsertValue` at the places of the elements. -/
theorem represent_insert (field : fieldPath ty idxs = some path)
    (target : ty.childAt path = some child) (insert : Val.insert x v idxs = some v') :
    Val.updateRepack (x.represent child) ty (v.represent ty) path = some (v'.represent ty) := by
  induction idxs generalizing ty v v' path with
  | nil =>
    unfold fieldPath at field
    cases field
    unfold AType.childAt at target
    cases target
    unfold Val.insert at insert
    cases insert
    unfold Val.updateRepack
    rfl
  | cons idx idxs ih =>
    obtain ⟨kind, children, isPadding, place, inner, later, rfl, here, found, deeper, rfl⟩ :=
      fieldPath_cons field
    cases v with
    | scalar => cases insert
    | padding => cases insert
    | aggregate vals =>
      rw [Val.insert] at insert
      simp only [Option.bind_eq_bind, Option.bind_eq_some_iff, Option.some.injEq] at insert
      obtain ⟨w, known, new, rest, rfl⟩ := insert
      rw [AType.childAt, Option.bind_eq_bind, found, Option.bind_some] at target
      rw [Val.represent, Val.represent, Val.updateRepack]
      simp only [Option.bind_eq_bind, found, Option.bind_some,
        representMembers_get here found known, ih deeper target rest,
        representMembers_set here found known]

end

/-- The indices into a translated struct or array survive the padding if and only if, at every
level, the padding before the element is at a place no larger than the index. -/
theorem aggregateIndex_survives_iff
    {α : Type} {dl : DataLayout} {ty : LType} {aty : AType} {idxs : List Nat}
    (translated : llvmType2Alive dl ty = some aty)
    (named : ty.HasPath idxs) : Survives α aty idxs ↔ EarlyPadding dl ty idxs := by
  rw [← addIndices_eq_fieldPath_iff translated named]
  constructor
  · rintro ⟨⟨path, added, field⟩, -, -⟩
    rw [added, field]
  · intro same
    obtain ⟨path, field⟩ := fieldPath_of_hasPath translated named
    rw [field] at same
    refine ⟨⟨path, same, field⟩, fun path' child added target v x extract => ?_,
      fun path' child added target v v' x insert => ?_⟩
    · cases same.symm.trans added
      exact represent_extract field target extract
    · cases same.symm.trans added
      exact represent_insert field target insert

def int (bits : Nat) : LType := .scalar (.integer bits)

theorem aggregateIndex_survives_small :
    Survives Bool (.aggregate .struct
      [.scalar (.integer 8), .scalar (.integer 24), .scalar (.integer 32)] [false, true, false])
      [1] := by
  have translated : llvmType2Alive x86Layout (.struct false [int 8, int 32]) =
      some (.aggregate .struct [.scalar (.integer 8), .scalar (.integer 24), .scalar (.integer 32)]
        [false, true, false]) :=
    rfl
  have named : (LType.struct false [int 8, int 32]).HasPath [1] := ⟨int 32, rfl, trivial⟩
  exact (aggregateIndex_survives_iff translated named).2 ⟨by decide, fun _ _ => trivial⟩

/-- An `{i32, i64, i8, i32}` as a padded type. -/
def paddedTwice : AType :=
  .aggregate .struct
    [.scalar (.integer 32), .scalar (.integer 32), .scalar (.integer 64), .scalar (.integer 8),
      .scalar (.integer 24), .scalar (.integer 32)]
    [false, true, false, false, true, false]

/-- The index of its last element is the one of the padding before it. -/
theorem aggregateIndex_reads_padding :
    ¬∀ (dl : DataLayout) (ty : LType) (aty : AType) (idxs : List Nat),
      llvmType2Alive dl ty = some aty → ty.HasPath idxs → Survives Bool aty idxs := by
  intro claim
  have survives := claim x86Layout (.struct false [int 32, int 64, int 8, int 32]) paddedTwice [3]
    rfl ⟨int 32, rfl, trivial⟩
  obtain ⟨path, added, field⟩ := survives.places
  exact absurd (added.trans field.symm) (by decide)

end AliveNext.LLVM.Types
