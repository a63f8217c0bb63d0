import AliveNext.IR.Types

/-!
# Attributes of indirect calls

`FnCall::toSMT` unpacks the arguments of a call, and `State::addFnCall` adds to the pointers of an
indirect call the attributes that the declarations give to their parameters (`ir/instr.cpp`,
`ir/state.cpp`). The expressions are given by their values in one model.
-/

namespace AliveNext.IR.IndirectCalls

variable {V : Type}

/-- The attributes of a parameter that calls pass on. -/
structure ParamAttrs where
  blockSize : Nat
  noRead : Bool
  noWrite : Bool
  noCapture : Bool
  deriving DecidableEq

structure PtrInput (V : Type) where
  idx : Nat
  val : V
  byval : BitVec 64
  noread : Bool
  nowrite : Bool
  nocapture : Bool
  deriving DecidableEq

/-- An argument: its two values, and what the attributes make of a value. -/
structure Arg (V : Type) where
  ty : Ty
  attrs : ParamAttrs
  encode : V → V
  sv : V
  sv2 : V

structure FnCall (V : Type) where
  output : Ty
  args : List (Arg V)
  varArgIdx : Option Nat

/-- `Function::FnDecl`. -/
structure FnDecl where
  name : String
  inputs : List (Ty × ParamAttrs)
  isVarargs : Bool
  output : Ty

/-- `FnDecl::hash` of the types. -/
abbrev TypeHash := List Ty → Ty → Bool → BitVec 32

def FnDecl.hash (typeHash : TypeHash) (decl : FnDecl) : BitVec 32 :=
  typeHash (decl.inputs.map Prod.fst) decl.output decl.isVarargs

/-- `indirect_hash`: of the arguments before the variable ones. -/
def FnCall.hash (typeHash : TypeHash) (call : FnCall V) : BitVec 32 :=
  let fixed := match call.varArgIdx with
    | some idx => call.args.take idx
    | none => call.args
  typeHash (fixed.map Arg.ty) call.output call.varArgIdx.isSome

section

variable (extract : V → Nat → V) (argflag : ParamAttrs) (encode : V → V) (idx : Nat)

/-- An entry of `ptr_inputs`. -/
def ptrInput (value : V) : PtrInput V where
  idx := idx
  val := encode value
  byval := BitVec.ofNat 64 argflag.blockSize
  noread := argflag.noRead
  nowrite := argflag.noWrite
  nocapture := argflag.noCapture

mutual

/-- `unpack_inputs`, as far as pointers go. -/
def unpackInputs : Ty → V → V → List (PtrInput V)
  | .int _, _, _ | .vector _ _, _, _ => []
  | .ptr, value, value2 =>
    [ptrInput argflag encode idx value, ptrInput argflag encode idx value2]
  | .aggregate _ children, value, value2 => unpackChildren children 0 value value2

def unpackChildren : Children → Nat → V → V → List (PtrInput V)
  | .nil, _, _, _ => []
  | .field ty rest, i, value, value2 =>
    unpackInputs ty (extract value i) (extract value2 i) ++ unpackChildren rest (i + 1) value value2
  | .padding _ rest, i, value, value2 => unpackChildren rest (i + 1) value value2

end

end

section

variable (extract : V → Nat → V)

/-- The pointers of an argument, numbered with the index that `toSMT` gives. -/
def Arg.ptrInputs (idx : Nat) (arg : Arg V) : List (PtrInput V) :=
  unpackInputs extract arg.attrs arg.encode idx arg.ty arg.sv arg.sv2

/-- `ptr_inputs`: the index starts with 0, and nothing adds to it. -/
def FnCall.ptrInputs (call : FnCall V) : List (PtrInput V) :=
  call.args.flatMap (Arg.ptrInputs extract 0)

/-- What a declaration does with a pointer; `cmp` says whether the called function is the declared
one. -/
def adjust (decl : FnDecl) (cmp : Bool) (numArgs : Nat) (ptr : PtrInput V) : PtrInput V :=
  if decl.inputs.length ≠ numArgs ∨ decl.isVarargs ∧ ptr.idx < decl.inputs.length then ptr
  else
    match decl.inputs[ptr.idx]? with
    | none => ptr
    | some (_, attrs) =>
      { ptr with
        byval := if cmp then BitVec.ofNat 64 attrs.blockSize else ptr.byval
        noread := if attrs.noRead then ptr.noread || cmp else ptr.noread
        nowrite := if attrs.noWrite then ptr.nowrite || cmp else ptr.nowrite
        nocapture := if attrs.noCapture then ptr.nocapture || cmp else ptr.nocapture }

abbrev Globals := String → Option Nat

/-- Compares the block of the called pointer with the one of a declared function, if there is
one. -/
def isgvar (getGlobalVar : Globals) (fnPtrBid : Nat) (decl : FnDecl) : Option Bool :=
  (getGlobalVar decl.name).map fun bid => fnPtrBid == bid

def adjustRound (typeHash : TypeHash) (getGlobalVar : Globals) (fnPtrBid : Nat) (call : FnCall V)
    (ptrs : List (PtrInput V)) (decl : FnDecl) : List (PtrInput V) :=
  if decl.hash typeHash ≠ call.hash typeHash then ptrs
  else
    match isgvar getGlobalVar fnPtrBid decl with
    | none => ptrs
    | some cmp => ptrs.map (adjust decl cmp call.args.length)

def adjustAll (typeHash : TypeHash) (getGlobalVar : Globals) (fnPtrBid : Nat)
    (decls : List FnDecl) (call : FnCall V) : List (PtrInput V) :=
  decls.foldl (adjustRound typeHash getGlobalVar fnPtrBid call) (call.ptrInputs extract)

end

def combine (attrs : ParamAttrs) (ptr : PtrInput V) : PtrInput V :=
  { ptr with
    byval := BitVec.ofNat 64 attrs.blockSize
    noread := ptr.noread || attrs.noRead
    nowrite := ptr.nowrite || attrs.noWrite
    nocapture := ptr.nocapture || attrs.noCapture }

def ownAttributes (decl : FnDecl) (position : Nat) (ptr : PtrInput V) : PtrInput V :=
  match decl.inputs[position]? with
  | some (_, attrs) => combine attrs ptr
  | none => ptr

def expected (extract : V → Nat → V) (decl : FnDecl) : Nat → List (Arg V) → List (PtrInput V)
  | _, [] => []
  | position, arg :: args =>
    (arg.ptrInputs extract 0).map (ownAttributes decl position) ++
      expected extract decl (position + 1) args

structure SameOver (site a b : ParamAttrs) : Prop where
  blockSize : a.blockSize % 2 ^ 64 = b.blockSize % 2 ^ 64
  noRead : site.noRead = true ∨ a.noRead = b.noRead
  noWrite : site.noWrite = true ∨ a.noWrite = b.noWrite
  noCapture : site.noCapture = true ∨ a.noCapture = b.noCapture

/-- The attributes that are used: the ones of the first parameter if the declaration has as many
parameters as there are arguments and no variable ones, and those of the call site otherwise. -/
def usedAttrs (decl : FnDecl) (numArgs : Nat) (site : ParamAttrs) : ParamAttrs :=
  if decl.inputs.length = numArgs ∧ decl.isVarargs = false then
    (decl.inputs[0]?.map Prod.snd).getD site
  else site

def declaredAttrs (decl : FnDecl) (position : Nat) (site : ParamAttrs) : ParamAttrs :=
  (decl.inputs[position]?.map Prod.snd).getD site

def AttributesMeet (decl : FnDecl) (call : FnCall V) : Prop :=
  ∀ position arg, call.args[position]? = some arg → arg.ty.hasPtr = true →
    SameOver arg.attrs (usedAttrs decl call.args.length arg.attrs)
      (declaredAttrs decl position arg.attrs)

section

variable {extract : V → Nat → V} {argflag : ParamAttrs} {encode : V → V} {idx : Nat}
  {ptr : PtrInput V} {decl : FnDecl} {arg : Arg V}

mutual

theorem unpackInputs_ne_nil (ty : Ty) (value value2 : V) :
    unpackInputs extract argflag encode idx ty value value2 ≠ [] ↔ ty.hasPtr = true := by
  cases ty with
  | int width => simp [unpackInputs, Ty.hasPtr]
  | vector elements width => simp [unpackInputs, Ty.hasPtr]
  | ptr => simp [unpackInputs, Ty.hasPtr]
  | aggregate isVector children =>
    rw [unpackInputs, Ty.hasPtr]
    exact unpackChildren_ne_nil children 0 value value2

theorem unpackChildren_ne_nil (children : Children) (i : Nat) (value value2 : V) :
    unpackChildren extract argflag encode idx children i value value2 ≠ [] ↔
      children.hasPtr = true := by
  cases children with
  | nil => simp [unpackChildren, Children.hasPtr]
  | field ty rest =>
    rw [unpackChildren, Children.hasPtr, Bool.or_eq_true, ← unpackInputs_ne_nil ty _ _,
      ← unpackChildren_ne_nil rest (i + 1) value value2, ne_eq, List.append_eq_nil_iff,
      not_and_or]
  | padding width rest =>
    rw [unpackChildren, Children.hasPtr]
    exact unpackChildren_ne_nil rest (i + 1) value value2

end

mutual

theorem mem_unpackInputs (ty : Ty) (value value2 : V)
    (member : ptr ∈ unpackInputs extract argflag encode idx ty value value2) :
    ∃ v, ptr = ptrInput argflag encode idx v := by
  cases ty with
  | int width => exact absurd member List.not_mem_nil
  | vector elements width => exact absurd member List.not_mem_nil
  | ptr =>
    rw [unpackInputs] at member
    rcases List.mem_cons.1 member with same | last
    · exact ⟨value, same⟩
    · exact ⟨value2, List.mem_singleton.1 last⟩
  | aggregate isVector children => exact mem_unpackChildren children 0 value value2 member

theorem mem_unpackChildren (children : Children) (i : Nat) (value value2 : V)
    (member : ptr ∈ unpackChildren extract argflag encode idx children i value value2) :
    ∃ v, ptr = ptrInput argflag encode idx v := by
  cases children with
  | nil => exact absurd member List.not_mem_nil
  | field ty rest =>
    rcases List.mem_append.1 member with first | later
    · exact mem_unpackInputs ty _ _ first
    · exact mem_unpackChildren rest (i + 1) value value2 later
  | padding width rest => exact mem_unpackChildren rest (i + 1) value value2 member

end

theorem combine_site (v : V) : combine argflag (ptrInput argflag encode idx v) =
    ptrInput argflag encode idx v := by
  simp [combine, ptrInput]

theorem combine_eq_iff (a b : ParamAttrs) (v : V) :
    combine a (ptrInput argflag encode idx v) = combine b (ptrInput argflag encode idx v) ↔
      SameOver argflag a b := by
  have sizes : BitVec.ofNat 64 a.blockSize = BitVec.ofNat 64 b.blockSize ↔
      a.blockSize % 2 ^ 64 = b.blockSize % 2 ^ 64 := by
    rw [← BitVec.toNat_inj, BitVec.toNat_ofNat, BitVec.toNat_ofNat]
  have flags : ∀ site x y : Bool, (site || x) = (site || y) ↔ site = true ∨ x = y := by decide
  constructor
  · intro same
    injection same with _ _ byval noread nowrite nocapture
    exact ⟨sizes.1 byval, (flags _ _ _).1 noread, (flags _ _ _).1 nowrite,
      (flags _ _ _).1 nocapture⟩
  · intro same
    unfold combine
    congr 1
    · exact sizes.2 same.blockSize
    · exact (flags _ _ _).2 same.noRead
    · exact (flags _ _ _).2 same.noWrite
    · exact (flags _ _ _).2 same.noCapture

theorem adjust_false (numArgs : Nat) : adjust decl false numArgs ptr = ptr := by
  unfold adjust
  split
  · rfl
  · split
    · rfl
    · simp

theorem adjust_true (numArgs : Nat) (args : 0 < numArgs) (v : V) :
    adjust decl true numArgs (ptrInput argflag encode 0 v) =
      combine (usedAttrs decl numArgs argflag) (ptrInput argflag encode 0 v) := by
  have zero : (ptrInput argflag encode 0 v).idx = 0 := rfl
  unfold adjust usedAttrs
  rw [zero]
  by_cases arity : decl.inputs.length = numArgs
  · have first : 0 < decl.inputs.length := arity ▸ args
    cases varargs : decl.isVarargs with
    | true =>
      rw [if_pos (.inr ⟨rfl, first⟩), if_neg fun both => Bool.noConfusion both.2]
      exact (combine_site v).symm
    | false =>
      rw [if_neg (by simp [arity]), if_pos ⟨arity, rfl⟩, List.getElem?_eq_getElem first]
      dsimp only [Option.map_some, Option.getD_some]
      unfold combine
      congr 1
      · cases decl.inputs[0].2.noRead <;> simp
      · cases decl.inputs[0].2.noWrite <;> simp
      · cases decl.inputs[0].2.noCapture <;> simp
  · rw [if_pos (.inl arity), if_neg fun both => arity both.1]
    exact (combine_site v).symm

theorem ownAttributes_eq (position : Nat) (v : V) :
    ownAttributes decl position (ptrInput argflag encode idx v) =
      combine (declaredAttrs decl position argflag) (ptrInput argflag encode idx v) := by
  unfold ownAttributes declaredAttrs
  cases decl.inputs[position]? with
  | none => exact (combine_site v).symm
  | some input => rfl

theorem arg_eq_iff (position numArgs : Nat) (args : 0 < numArgs) :
    (arg.ptrInputs extract 0).map (adjust decl true numArgs) =
        (arg.ptrInputs extract 0).map (ownAttributes decl position) ↔
      (arg.ty.hasPtr = true → SameOver arg.attrs (usedAttrs decl numArgs arg.attrs)
        (declaredAttrs decl position arg.attrs)) := by
  rw [List.map_inj_left]
  constructor
  · intro same pointers
    have nonempty : arg.ptrInputs extract 0 ≠ [] :=
      (unpackInputs_ne_nil arg.ty arg.sv arg.sv2).2 pointers
    obtain ⟨ptr, member⟩ := List.exists_mem_of_ne_nil _ nonempty
    obtain ⟨v, rfl⟩ := mem_unpackInputs arg.ty arg.sv arg.sv2 member
    have equal := same _ member
    rw [adjust_true numArgs args, ownAttributes_eq] at equal
    exact (combine_eq_iff _ _ v).1 equal
  · intro agrees ptr member
    have pointers := (unpackInputs_ne_nil arg.ty arg.sv arg.sv2).1 (List.ne_nil_of_mem member)
    obtain ⟨v, rfl⟩ := mem_unpackInputs arg.ty arg.sv arg.sv2 member
    rw [adjust_true numArgs args, ownAttributes_eq]
    exact (combine_eq_iff _ _ v).2 (agrees pointers)

theorem args_eq_iff (numArgs : Nat) (pos : 0 < numArgs) (position : Nat) (args : List (Arg V)) :
    (args.flatMap (Arg.ptrInputs extract 0)).map (adjust decl true numArgs) =
        expected extract decl position args ↔
      ∀ i arg, args[i]? = some arg → arg.ty.hasPtr = true →
        SameOver arg.attrs (usedAttrs decl numArgs arg.attrs)
          (declaredAttrs decl (position + i) arg.attrs) := by
  induction args generalizing position with
  | nil => simp [expected]
  | cons first rest ih =>
    have lengths : ((first.ptrInputs extract 0).map (adjust decl true numArgs)).length =
        ((first.ptrInputs extract 0).map (ownAttributes decl position)).length := by
      rw [List.length_map, List.length_map]
    have split : (first.ptrInputs extract 0).map (adjust decl true numArgs) ++
          (rest.flatMap (Arg.ptrInputs extract 0)).map (adjust decl true numArgs) =
        (first.ptrInputs extract 0).map (ownAttributes decl position) ++
          expected extract decl (position + 1) rest ↔
        (first.ptrInputs extract 0).map (adjust decl true numArgs) =
            (first.ptrInputs extract 0).map (ownAttributes decl position) ∧
          (rest.flatMap (Arg.ptrInputs extract 0)).map (adjust decl true numArgs) =
            expected extract decl (position + 1) rest :=
      ⟨fun same => List.append_inj same lengths, fun both => by rw [both.1, both.2]⟩
    rw [List.flatMap_cons, List.map_append, expected, split, arg_eq_iff position numArgs pos,
      ih (position + 1)]
    constructor
    · intro both i arg found
      cases i with
      | zero =>
        cases Option.some.inj found
        exact both.1
      | succ i =>
        have later := both.2 i arg found
        rwa [Nat.add_right_comm, Nat.add_assoc] at later
    · intro every
      refine ⟨every 0 first rfl, fun i arg found => ?_⟩
      have later := every (i + 1) arg found
      rwa [← Nat.add_assoc, Nat.add_right_comm] at later

end

section

variable {extract : V → Nat → V} {typeHash : TypeHash} {getGlobalVar : Globals} {fnPtrBid : Nat}
  {call : FnCall V} {decl : FnDecl} {decls pre post : List FnDecl} {ptrs : List (PtrInput V)}

theorem adjustRound_other (other : isgvar getGlobalVar fnPtrBid decl ≠ some true) :
    adjustRound typeHash getGlobalVar fnPtrBid call ptrs decl = ptrs := by
  unfold adjustRound
  split
  · rfl
  · cases called : isgvar getGlobalVar fnPtrBid decl with
    | none => rfl
    | some cmp =>
      cases cmp with
      | true => exact absurd called other
      | false =>
        have unchanged : adjust (V := V) decl false call.args.length = id :=
          funext fun ptr => adjust_false call.args.length
        dsimp only
        rw [unchanged, List.map_id]

theorem rounds_others (others : ∀ decl ∈ decls, isgvar getGlobalVar fnPtrBid decl ≠ some true) :
    decls.foldl (adjustRound typeHash getGlobalVar fnPtrBid call) ptrs = ptrs := by
  induction decls with
  | nil => rfl
  | cons first rest ih =>
    rw [List.foldl_cons, adjustRound_other (others first List.mem_cons_self)]
    exact ih fun decl member => others decl (List.mem_cons_of_mem first member)

variable (hash : decl.hash typeHash = call.hash typeHash)
    (called : isgvar getGlobalVar fnPtrBid decl = some true)

include hash called

theorem adjustRound_called : adjustRound typeHash getGlobalVar fnPtrBid call ptrs decl =
      ptrs.map (adjust decl true call.args.length) := by
  unfold adjustRound
  rw [if_neg (not_not_intro hash), called]

theorem adjustAll_called
    (others : ∀ other ∈ pre ++ post, isgvar getGlobalVar fnPtrBid other ≠ some true) :
    adjustAll extract typeHash getGlobalVar fnPtrBid (pre ++ decl :: post) call =
      (call.ptrInputs extract).map (adjust decl true call.args.length) := by
  unfold adjustAll
  rw [List.foldl_append, List.foldl_cons,
    rounds_others fun other member => others other (List.mem_append_left post member),
    adjustRound_called hash called,
    rounds_others fun other member => others other (List.mem_append_right pre member)]

end

/-- The pointers of an indirect call have the attributes of the call site and of their own
parameters exactly if the attributes that are used are as good. -/
theorem adjustAll_eq_expected_iff (extract : V → Nat → V) (typeHash : TypeHash)
    (getGlobalVar : Globals) (fnPtrBid : Nat) (call : FnCall V) (pre post : List FnDecl)
    (decl : FnDecl) (hash : decl.hash typeHash = call.hash typeHash)
    (called : isgvar getGlobalVar fnPtrBid decl = some true)
    (others : ∀ other ∈ pre ++ post, isgvar getGlobalVar fnPtrBid other ≠ some true) :
    adjustAll extract typeHash getGlobalVar fnPtrBid (pre ++ decl :: post) call =
      expected extract decl 0 call.args ↔ AttributesMeet decl call := by
  rw [adjustAll_called hash called others]
  cases args : call.args with
  | nil => simp [FnCall.ptrInputs, AttributesMeet, expected, args]
  | cons first rest =>
    have pos : 0 < (first :: rest).length := Nat.succ_pos _
    unfold FnCall.ptrInputs AttributesMeet
    rw [args, args_eq_iff (first :: rest).length pos 0 (first :: rest)]
    simp only [Nat.zero_add]

namespace TwoPointers

def plain : ParamAttrs := ⟨0, false, false, false⟩

def readonly : ParamAttrs := ⟨0, false, true, false⟩

/-- `void f(ptr, ptr)`, with the attributes of the two parameters. -/
def decl (first second : ParamAttrs) : FnDecl where
  name := "f"
  inputs := [(.ptr, first), (.ptr, second)]
  isVarargs := false
  output := .int 1

def arg (v : Nat) : Arg Nat where
  ty := .ptr
  attrs := plain
  encode := id
  sv := v
  sv2 := v

/-- `call void %p(ptr %a, ptr %b)`. -/
def call : FnCall Nat where
  output := .int 1
  args := [arg 1, arg 2]
  varArgIdx := none

def typeHash : TypeHash := fun tys _ _ => BitVec.ofNat 32 tys.length

def getGlobalVar : Globals := fun name => if name = "f" then some 5 else none

def nowrites (ptrs : List (PtrInput Nat)) : List Bool := ptrs.map PtrInput.nowrite

end TwoPointers

theorem adjustAll_eq_expected_readonly :
    adjustAll (fun v _ => v) TwoPointers.typeHash TwoPointers.getGlobalVar 5
        [TwoPointers.decl TwoPointers.readonly TwoPointers.readonly] TwoPointers.call =
      expected (fun v _ => v) (TwoPointers.decl TwoPointers.readonly TwoPointers.readonly) 0
        TwoPointers.call.args := by
  refine (adjustAll_eq_expected_iff (fun v _ => v) TwoPointers.typeHash TwoPointers.getGlobalVar 5
    TwoPointers.call [] [] (TwoPointers.decl TwoPointers.readonly TwoPointers.readonly) rfl
    (by decide) (fun other member => absurd member List.not_mem_nil)).2 ?_
  intro position arg found _
  match position, found with
  | 0, found =>
    cases Option.some.inj found
    exact ⟨rfl, .inr rfl, .inr rfl, .inr rfl⟩
  | 1, found =>
    cases Option.some.inj found
    exact ⟨rfl, .inr rfl, .inr rfl, .inr rfl⟩
  | position + 2, found => exact absurd found (by simp [TwoPointers.call])

/-- Of `void f(ptr readonly, ptr)` only the first parameter is not written, but the second argument
gets its attribute as well. -/
theorem second_argument_nowrite :
    let decl := TwoPointers.decl TwoPointers.readonly TwoPointers.plain
    decl.hash TwoPointers.typeHash = TwoPointers.call.hash TwoPointers.typeHash ∧
      isgvar TwoPointers.getGlobalVar 5 decl = some true ∧
      TwoPointers.nowrites (expected (fun v _ => v) decl 0 TwoPointers.call.args) =
        [true, true, false, false] ∧
      TwoPointers.nowrites (adjustAll (fun v _ => v) TwoPointers.typeHash
        TwoPointers.getGlobalVar 5 [decl] TwoPointers.call) = [true, true, true, true] := by
  decide

end AliveNext.IR.IndirectCalls
