import AliveNext.LLVM.TypeTranslation

/-!
# The leaves of an input

`Input::mkInput` gives the scalars of an input their SMT variables, and
`instantiate_undef` goes through the variables of the undef masks
(`ir/value.cpp`, `tools/transform.cpp`).
-/

namespace AliveNext.IR.Leaves

open AliveNext.LLVM.Types

/-- A scalar of an input: where it is, the number that the recursion gives it, its type. -/
structure Leaf where
  path : List Nat
  child : Nat
  ty : Scalar
  deriving DecidableEq

mutual

def leafPaths : AType → List (List Nat × Scalar)
  | .void => []
  | .scalar ty => [([], ty)]
  | .aggregate _ children isPadding => memberPaths isPadding 0 children

def memberPaths (isPadding : List Bool) (i : Nat) : List AType → List (List Nat × Scalar)
  | [] => []
  | ty :: rest =>
    (if isPadding[i]? = some true then []
      else (leafPaths ty).map fun leaf => (i :: leaf.1, leaf.2)) ++
    memberPaths isPadding (i + 1) rest

end

/-- `child + i`, an `unsigned`. -/
def addIndex (child i : Nat) : Nat := (child + i) % 2 ^ 32

mutual

/-- The scalars for which `mkInput` makes variables, in this order. -/
def mkInputLeaves (path : List Nat) (child : Nat) : AType → List Leaf
  | .void => []
  | .scalar ty => [⟨path, child, ty⟩]
  | .aggregate _ children isPadding => mkMemberLeaves isPadding path child 0 children

def mkMemberLeaves (isPadding : List Bool) (path : List Nat) (child i : Nat) :
    List AType → List Leaf
  | [] => []
  | ty :: rest =>
    (if isPadding[i]? = some true then []
      else mkInputLeaves (path ++ [i]) (addIndex child i) ty) ++
    mkMemberLeaves isPadding path child (i + 1) rest

end

/-- `Type::isAggregateType`. -/
def isAggregateType : AType → Bool
  | .aggregate _ _ _ => true
  | _ => false

/-- `Input::getSMTName` of an input of this type. -/
def getSMTName (smtName : String) (ty : AType) (child : Nat) : String :=
  if isAggregateType ty then smtName ++ "#" ++ Nat.repr child else smtName

/-- The name of `Input::getUndefVar`. -/
def undefVarName (smtName : String) (ty : AType) (child : Nat) : String :=
  "isundef_" ++ getSMTName smtName ty child

def nonPoisonName (smtName : String) (ty : AType) (child : Nat) : String :=
  "np_" ++ getSMTName smtName ty child

section

variable {σ : Type} (visit : String → σ → σ) (smtName : String) (inputTy : AType)

mutual

/-- The recursion of `instantiate_undef`; `visit` is what it does with the variable of a mask. -/
def instantiateUndef (child : Nat) : AType → σ → σ
  | .void, instances => instances
  | .scalar _, instances => visit (undefVarName smtName inputTy child) instances
  | .aggregate _ children isPadding, instances =>
    instantiateMembers isPadding child 0 children instances

def instantiateMembers (isPadding : List Bool) (child i : Nat) : List AType → σ → σ
  | [], instances => instances
  | ty :: rest, instances =>
    instantiateMembers isPadding child (i + 1) rest
      (if isPadding[i]? = some true then instances
        else instantiateUndef (addIndex child i) ty instances)

end

end

/-- What `mkInput` reads besides the type: the flags of the configuration, the attributes of the
parameter, and what the memory says of input pointers. -/
structure Setting (V : Scalar → Type) where
  disableUndefInput : Bool
  disablePoisonInput : Bool
  asmMode : Bool
  poisonImpliesUB : Bool
  /-- The pointer to the block of a `byval` parameter. -/
  byVal : Option (∀ ty, V ty)
  /-- What `ParamAttrs::encode` asks for of a value that is not poison. -/
  attrs : ∀ ty, V ty → Bool
  /-- The axiom on the variable of a scalar, and the precondition on the one of its undef value. -/
  declared : List Nat → ∀ ty, V ty → Bool
  undefDeclared : ∀ ty, V ty → Bool

structure Model (V : Scalar → Type) where
  value : String → ∀ ty, V ty
  mask : String → Bool
  nonPoison : String → Bool
  undef : List Nat → ∀ ty, V ty

structure LeafValue (V : Scalar → Type) (ty : Scalar) where
  value : V ty
  nonPoison : Bool
  constraints : Bool

section

variable {V : Scalar → Type} (setting : Setting V) (smtName : String) (inputTy : AType)
  (model : Model V)

/-- `mkInput` of a scalar. The value of an aggregate is made of those of its scalars. -/
def mkLeaf (leaf : Leaf) : LeafValue V leaf.ty :=
  let var := model.value (getSMTName smtName inputTy leaf.child) leaf.ty
  let undef := model.undef leaf.path leaf.ty
  let undefMask := model.mask (undefVarName smtName inputTy leaf.child)
  let np := model.nonPoison (nonPoisonName smtName inputTy leaf.child)
  let noUndef := setting.disableUndefInput || setting.poisonImpliesUB
  let neverPoison := setting.disablePoisonInput || setting.poisonImpliesUB
  let input := match setting.byVal with
    | some ptr => ptr leaf.ty
    | none => var
  let val := if noUndef || setting.asmMode || !undefMask then input else undef
  let encoded := setting.attrs leaf.ty val
  { value := val
    nonPoison :=
      if neverPoison then setting.poisonImpliesUB || encoded
      else setting.asmMode || (encoded && np)
    constraints :=
      (setting.byVal.isSome || setting.declared leaf.path leaf.ty var) &&
      (noUndef || setting.asmMode || setting.undefDeclared leaf.ty undef) &&
      (!noUndef || !undefMask) && (!setting.poisonImpliesUB || encoded) && (!neverPoison || np) }

def LeafValue.state {ty : Scalar} (v : LeafValue V ty) : V ty × Bool := (v.value, v.nonPoison)

def Reads (leaf : Leaf) (state : V leaf.ty × Bool) : Prop :=
  (mkLeaf setting smtName inputTy model leaf).state = state ∧
    (mkLeaf setting smtName inputTy model leaf).constraints = true

end

def plainSetting (V : Scalar → Type) : Setting V where
  disableUndefInput := false
  disablePoisonInput := false
  asmMode := false
  poisonImpliesUB := false
  byVal := none
  attrs := fun _ _ => true
  declared := fun _ _ _ => true
  undefDeclared := fun _ _ => true

/-- The leaves of an input are independent: the values that they can have on their own they have
together in one model. -/
structure Independent (V : Scalar → Type) (smtName : String) (ty : AType) : Prop where
  names : (mkInputLeaves [] 0 ty).Pairwise fun a b =>
    getSMTName smtName ty a.child ≠ getSMTName smtName ty b.child ∧
      undefVarName smtName ty a.child ≠ undefVarName smtName ty b.child ∧
      nonPoisonName smtName ty a.child ≠ nonPoisonName smtName ty b.child
  masks : ∀ (σ : Type) (visit : String → σ → σ) (instances : σ),
    instantiateUndef visit smtName ty 0 ty instances = (mkInputLeaves [] 0 ty).foldl
        (fun instances leaf => visit (undefVarName smtName ty leaf.child) instances) instances
  values : ∀ (setting : Setting V) (states : ∀ leaf : Leaf, V leaf.ty × Bool),
    (∀ leaf ∈ mkInputLeaves [] 0 ty, ∃ model, Reads setting smtName ty model leaf (states leaf)) →
    ∃ model, ∀ leaf ∈ mkInputLeaves [] 0 ty, Reads setting smtName ty model leaf (states leaf)
  combinations : ∀ states : ∀ leaf : Leaf, V leaf.ty × Bool,
    ∃ model, ∀ leaf ∈ mkInputLeaves [] 0 ty,
      Reads (plainSetting V) smtName ty model leaf (states leaf)

section

mutual

theorem mkInputLeaves_eq (path : List Nat) {child : Nat} (small : child < 2 ^ 32) :
    ∀ ty : AType, mkInputLeaves path child ty =
      (leafPaths ty).map fun leaf => ⟨path ++ leaf.1, addIndex child leaf.1.sum, leaf.2⟩
  | .void => by rw [mkInputLeaves, leafPaths, List.map_nil]
  | .scalar ty => by
    rw [mkInputLeaves, leafPaths, List.map_singleton, List.append_nil, List.sum_nil, addIndex,
      Nat.add_zero, Nat.mod_eq_of_lt small]
  | .aggregate _ children isPadding => by
    rw [mkInputLeaves, leafPaths]
    exact mkMemberLeaves_eq isPadding path small 0 children

theorem mkMemberLeaves_eq (isPadding : List Bool) (path : List Nat) {child : Nat}
    (small : child < 2 ^ 32) (i : Nat) :
    ∀ children : List AType, mkMemberLeaves isPadding path child i children =
      (memberPaths isPadding i children).map fun leaf =>
        ⟨path ++ leaf.1, addIndex child leaf.1.sum, leaf.2⟩
  | [] => by rw [mkMemberLeaves, memberPaths, List.map_nil]
  | ty :: rest => by
    rw [mkMemberLeaves, memberPaths, List.map_append,
      mkMemberLeaves_eq isPadding path small (i + 1) rest]
    congr 1
    split
    · rfl
    · have smaller : addIndex child i < 2 ^ 32 := Nat.mod_lt _ (by decide)
      rw [mkInputLeaves_eq (path ++ [i]) smaller ty, List.map_map]
      refine List.map_congr_left fun leaf _ => ?_
      simp only [Function.comp_apply, List.append_assoc, List.singleton_append, List.sum_cons,
        addIndex, Nat.mod_add_mod, Nat.add_assoc]

end

mutual

theorem instantiateUndef_eq {σ : Type} (visit : String → σ → σ) (smtName : String)
    (inputTy : AType) (path : List Nat) (child : Nat) :
    ∀ (ty : AType) (instances : σ), instantiateUndef visit smtName inputTy child ty instances =
        (mkInputLeaves path child ty).foldl
          (fun instances leaf => visit (undefVarName smtName inputTy leaf.child) instances)
          instances
  | .void, instances => by rw [instantiateUndef, mkInputLeaves, List.foldl_nil]
  | .scalar ty, instances => by
    rw [instantiateUndef, mkInputLeaves, List.foldl_cons, List.foldl_nil]
  | .aggregate _ children isPadding, instances => by
    rw [instantiateUndef, mkInputLeaves]
    exact instantiateMembers_eq visit smtName inputTy isPadding path child 0 children instances

theorem instantiateMembers_eq {σ : Type} (visit : String → σ → σ) (smtName : String)
    (inputTy : AType) (isPadding : List Bool) (path : List Nat) (child i : Nat) :
    ∀ (children : List AType) (instances : σ),
      instantiateMembers visit smtName inputTy isPadding child i children instances =
        (mkMemberLeaves isPadding path child i children).foldl
          (fun instances leaf => visit (undefVarName smtName inputTy leaf.child) instances)
          instances
  | [], instances => by rw [instantiateMembers, mkMemberLeaves, List.foldl_nil]
  | ty :: rest, instances => by
    rw [instantiateMembers, mkMemberLeaves, List.foldl_append,
      instantiateMembers_eq visit smtName inputTy isPadding path child (i + 1) rest]
    congr 1
    split
    · rfl
    · exact instantiateUndef_eq visit smtName inputTy (path ++ [i]) (addIndex child i) ty instances

end

variable {smtName : String} {ty : AType} {a b : Nat}

theorem getSMTName_inj (aggregate : isAggregateType ty = true) :
    getSMTName smtName ty a = getSMTName smtName ty b ↔ a = b := by
  unfold getSMTName
  rw [if_pos aggregate, if_pos aggregate, String.append_right_inj, Nat.repr_inj]

def NumbersDistinct (ty : AType) : Prop :=
  ((leafPaths ty).map fun leaf => leaf.1.sum % 2 ^ 32).Nodup

theorem children_eq (ty : AType) : (mkInputLeaves [] 0 ty).map Leaf.child =
      (leafPaths ty).map fun leaf => leaf.1.sum % 2 ^ 32 := by
  rw [mkInputLeaves_eq [] (by decide) ty, List.map_map]
  refine List.map_congr_left fun leaf _ => ?_
  rw [Function.comp_apply, addIndex, Nat.zero_add]

variable {leaf other : Leaf}

theorem child_eq (member : leaf ∈ mkInputLeaves [] 0 ty) : leaf.child = leaf.path.sum % 2 ^ 32 := by
  rw [mkInputLeaves_eq [] (by decide) ty] at member
  obtain ⟨inner, -, rfl⟩ := List.mem_map.1 member
  simp only [addIndex, Nat.zero_add, List.nil_append]

theorem mkInputLeaves_of_scalar
    (scalar : isAggregateType ty = false) : (mkInputLeaves [] 0 ty).length ≤ 1 := by
  cases ty with
  | void => rw [mkInputLeaves]; exact Nat.zero_le 1
  | scalar ty => rw [mkInputLeaves]; exact Nat.le_refl 1
  | aggregate => cases scalar

theorem names_pairwise_iff (smtName : String) (ty : AType) :
    ((mkInputLeaves [] 0 ty).Pairwise fun a b =>
      getSMTName smtName ty a.child ≠ getSMTName smtName ty b.child) ↔ NumbersDistinct ty := by
  rw [NumbersDistinct, ← children_eq, List.Nodup, List.pairwise_map]
  cases aggregate : isAggregateType ty with
  | true => simp only [ne_eq, getSMTName_inj aggregate]
  | false =>
    have short := mkInputLeaves_of_scalar aggregate
    match leaves : mkInputLeaves [] 0 ty, short with
    | [], _ => exact iff_of_true .nil .nil
    | [leaf], _ => exact iff_of_true (List.pairwise_singleton _ _) (List.pairwise_singleton _ _)

variable (distinct : NumbersDistinct ty) (left : leaf ∈ mkInputLeaves [] 0 ty)
    (right : other ∈ mkInputLeaves [] 0 ty)

include distinct left right

theorem eq_of_name (same : getSMTName smtName ty leaf.child = getSMTName smtName ty other.child) :
    leaf = other := by
  have pairwise := (names_pairwise_iff smtName ty).2 distinct
  have nodup :
      ((mkInputLeaves [] 0 ty).map fun leaf => getSMTName smtName ty leaf.child).Nodup := by
    rw [List.Nodup, List.pairwise_map]
    exact pairwise
  exact List.inj_on_of_nodup_map nodup left right same

theorem eq_of_path (same : leaf.path = other.path) : leaf = other := by
  refine eq_of_name distinct left right (congrArg (getSMTName "" ty) ?_)
  rw [child_eq left, child_eq right, same]

end

section

variable {V : Scalar → Type} {setting : Setting V} {smtName : String} {ty : AType}
  {κ : Type} [DecidableEq κ]

def pickBy {β : Type} (leaves : List Leaf) (key : Leaf → κ) (part : Leaf → β) (none : β)
    (k : κ) : β :=
  match leaves.find? fun leaf => key leaf = k with
  | some leaf => part leaf
  | _ => none

theorem pickBy_eq
    {β : Type} {leaves : List Leaf} {part : Leaf → β} {none : β} {leaf : Leaf} (key : Leaf → κ)
    (member : leaf ∈ leaves) (unique : ∀ other ∈ leaves, key other = key leaf → other = leaf) :
    pickBy leaves key part none (key leaf) = part leaf := by
  unfold pickBy
  cases found : leaves.find? fun other => key other = key leaf with
  | none =>
    have different := List.find?_eq_none.1 found leaf member
    exact absurd (decide_eq_true rfl) different
  | some other =>
    have same := List.find?_some found
    rw [unique other (List.mem_of_find?_eq_some found) (of_decide_eq_true same)]

def joint (smtName : String) (ty : AType) (model : Leaf → Model V) (other : Model V) : Model V where
  value := pickBy (mkInputLeaves [] 0 ty) (fun leaf => getSMTName smtName ty leaf.child)
    (fun leaf => (model leaf).value (getSMTName smtName ty leaf.child)) (other.value "")
  mask := pickBy (mkInputLeaves [] 0 ty) (fun leaf => undefVarName smtName ty leaf.child)
    (fun leaf => (model leaf).mask (undefVarName smtName ty leaf.child)) false
  nonPoison := pickBy (mkInputLeaves [] 0 ty) (fun leaf => nonPoisonName smtName ty leaf.child)
    (fun leaf => (model leaf).nonPoison (nonPoisonName smtName ty leaf.child)) false
  undef := pickBy (mkInputLeaves [] 0 ty) Leaf.path
    (fun leaf => (model leaf).undef leaf.path) (other.undef [])

theorem mkLeaf_joint {leaf : Leaf} {model : Leaf → Model V} {other : Model V}
    (distinct : NumbersDistinct ty) (member : leaf ∈ mkInputLeaves [] 0 ty) :
    mkLeaf setting smtName ty (joint smtName ty model other) leaf =
      mkLeaf setting smtName ty (model leaf) leaf := by
  have byName : ∀ other ∈ mkInputLeaves [] 0 ty,
      getSMTName smtName ty other.child = getSMTName smtName ty leaf.child → other = leaf :=
    fun other inside same => eq_of_name distinct inside member same
  have value : (joint smtName ty model other).value (getSMTName smtName ty leaf.child) =
      (model leaf).value (getSMTName smtName ty leaf.child) :=
    pickBy_eq (fun leaf => getSMTName smtName ty leaf.child) member byName
  have mask : (joint smtName ty model other).mask (undefVarName smtName ty leaf.child) =
      (model leaf).mask (undefVarName smtName ty leaf.child) :=
    pickBy_eq (fun leaf => undefVarName smtName ty leaf.child) member
      fun other inside same => byName other inside ((String.append_right_inj _).1 same)
  have nonPoison : (joint smtName ty model other).nonPoison (nonPoisonName smtName ty leaf.child) =
        (model leaf).nonPoison (nonPoisonName smtName ty leaf.child) :=
    pickBy_eq (fun leaf => nonPoisonName smtName ty leaf.child) member
      fun other inside same => byName other inside ((String.append_right_inj _).1 same)
  have undef : (joint smtName ty model other).undef leaf.path = (model leaf).undef leaf.path :=
    pickBy_eq Leaf.path member fun other inside same => eq_of_path distinct inside member same
  unfold mkLeaf
  rw [value, mask, nonPoison, undef]

end

section

variable {V : Scalar → Type} [∀ ty, Inhabited (V ty)]

def Model.plain (V : Scalar → Type) [∀ ty, Inhabited (V ty)] : Model V where
  value := fun _ _ => default
  mask := fun _ => false
  nonPoison := fun _ => true
  undef := fun _ _ => default

theorem exists_joint
    {setting : Setting V} {smtName : String} {ty : AType} {states : ∀ leaf : Leaf, V leaf.ty × Bool}
    (distinct : NumbersDistinct ty) (possible : ∀ leaf ∈ mkInputLeaves [] 0 ty,
      ∃ model, Reads setting smtName ty model leaf (states leaf)) :
    ∃ model, ∀ leaf ∈ mkInputLeaves [] 0 ty, Reads setting smtName ty model leaf (states leaf) := by
  have : Nonempty (Model V) := ⟨Model.plain V⟩
  choose! model reads using possible
  refine ⟨joint smtName ty model (Model.plain V), fun leaf member => ?_⟩
  unfold Reads
  rw [mkLeaf_joint distinct member]
  exact reads leaf member

theorem plain_reads (smtName : String) (ty : AType) (leaf : Leaf) (state : V leaf.ty × Bool) :
    ∃ model, Reads (plainSetting V) smtName ty model leaf state := by
  refine ⟨{ Model.plain V with
    value := fun _ other => if same : leaf.ty = other then same ▸ state.1 else default
    nonPoison := fun _ => state.2 }, ?_, rfl⟩
  refine Prod.ext ?_ (Bool.true_and _)
  simp [mkLeaf, plainSetting, LeafValue.state, Model.plain]

/-- The leaves of an input are independent if and only if the sums of the padded indices on the
paths to any two of them differ. -/
theorem mkInput_independent_iff (smtName : String) (ty : AType) :
    Independent V smtName ty ↔ NumbersDistinct ty := by
  constructor
  · intro independent
    exact (names_pairwise_iff smtName ty).1 (independent.names.imp fun names => names.1)
  · intro distinct
    refine ⟨?_, fun σ visit instances => instantiateUndef_eq visit smtName ty [] 0 ty instances,
      fun setting states => exists_joint distinct,
      fun states => exists_joint distinct fun leaf _ => plain_reads smtName ty leaf (states leaf)⟩
    refine ((names_pairwise_iff smtName ty).2 distinct).imp fun different => ⟨different, ?_, ?_⟩
    · exact fun same => different ((String.append_right_inj _).1 same)
    · exact fun same => different ((String.append_right_inj _).1 same)

end

/-- An `{{i8, i8}, i8}`. -/
def nestedPair : AType :=
  .aggregate .struct
    [.aggregate .struct [.scalar (.integer 8), .scalar (.integer 8)] [false, false],
      .scalar (.integer 8)] [false, false]

/-- The second and the third byte have the same number. -/
theorem mkInput_shares_names :
    ¬∀ (dl : DataLayout) (ty : LType) (aty : AType) (smtName : String),
      llvmType2Alive dl ty = some aty → Independent (fun _ => Bool) smtName aty := by
  intro claim
  have independent := claim x86Layout
    (.struct false [.struct false [.scalar (.integer 8), .scalar (.integer 8)],
      .scalar (.integer 8)]) nestedPair "%x" rfl
  have names := (names_pairwise_iff "%x" nestedPair).1 (independent.names.imp fun names => names.1)
  unfold NumbersDistinct at names
  exact absurd names (by decide)

end AliveNext.IR.Leaves
