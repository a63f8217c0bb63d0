import AliveNext.LLVM.Print

/-!
# Names, slots and printed lines

`llvm::SlotTracker` walks the function once: arguments, then the block, then
its instructions.  Whatever has no name receives the next slot number, except
instructions of type `void`.  A printed line is the indentation, the result,
the operation and the metadata attachments.
-/

namespace AliveNext.LLVM

open AliveNext.Lib

/-- What takes part in the numbering, with its name.  `none` is the block. -/
def Body.namedValues (body : Body) : List (Option Reg × Name) :=
  (body.args.zipIdx.map fun entry =>
      (some (Reg.arg entry.2), entry.1.name)) ++
    (none, body.block.name) :: (body.insts.filter fun inst => inst.type.isSome).map fun inst =>
        (some (Reg.inst inst.id), inst.name)

/-- `llvm::SlotTracker::processFunction`. -/
def assignSlots : Nat → List (Option Reg × Name) → List (Option Reg × Ident)
  | _, [] => []
  | next, (value, name) :: rest =>
    if name.isEmpty then (value, .slot next) :: assignSlots (next + 1) rest
    else (value, .named name) :: assignSlots next rest

/-- `llvm::Value::getName`. -/
def Body.nameOf (body : Body) (r : Reg) : Name :=
  (body.namedValues.lookup (some r)).getD []

def Body.identOf (body : Body) (r : Reg) : Ident :=
  ((assignSlots 0 body.namedValues).lookup (some r)).getD (.named [])

variable {name : Name} {body : Body} {r : Reg} {ident ident' : Reg → Ident}
  {inst inst' : Instruction}

private theorem lookup_assignSlots {value : Option Reg} (nonempty : name ≠ []) :
    ∀ (entries : List (Option Reg × Name)) (next : Nat), entries.lookup value = some name →
        (assignSlots next entries).lookup value = some (.named name)
  | [], _, found => by cases found
  | (other, otherName) :: rest, next, found => by
    have inRest : ∀ next, rest.lookup value = some name →
        (assignSlots next rest).lookup value = some (.named name) :=
      lookup_assignSlots nonempty rest
    by_cases same : value = other
    · subst same
      simp only [List.lookup_cons, beq_self_eq_true, Option.some.injEq] at found
      subst found
      have notEmpty : otherName.isEmpty = false := by
        simpa [List.isEmpty_eq_false_iff] using nonempty
      simp [assignSlots, notEmpty]
    · have different : (value == other) = false := by
        simpa using same
      simp only [List.lookup_cons, different] at found
      by_cases empty : otherName.isEmpty <;>
        simp [assignSlots, empty, List.lookup_cons, different, inRest _ found]

theorem Body.identOf_of_name (nonempty : body.nameOf r ≠ []) :
    body.identOf r = .named (body.nameOf r) := by
  unfold Body.identOf
  cases found : body.namedValues.lookup (some r) with
  | none => exact absurd (by simp [Body.nameOf, found]) nonempty
  | some name =>
    have named : body.nameOf r = name := by
      simp [Body.nameOf, found]
    rw [named] at nonempty ⊢
    rw [lookup_assignSlots nonempty _ 0 found]
    rfl

private theorem lookup_mem {α β : Type} [BEq α] [LawfulBEq α] {key : α}
    {value : β} : ∀ {entries : List (α × β)},
      entries.lookup key = some value → (key, value) ∈ entries
  | (other, otherValue) :: rest, found => by
    rw [List.lookup_cons] at found
    split at found
    · rename_i same
      cases found
      rw [eq_of_beq same]
      exact List.mem_cons_self
    · exact List.mem_cons_of_mem _ (lookup_mem found)

private theorem mem_named (member : (some r, name) ∈ body.namedValues) :
    (r, name) ∈ (body.args.zipIdx.map fun entry =>
        (Reg.arg entry.2, entry.1.name)) ++
      (body.insts.filter fun inst => inst.type.isSome).map fun inst =>
        (Reg.inst inst.id, inst.name) := by
  simpa [Body.namedValues] using member

theorem Body.Verified.nameOf_injective (verified : body.Verified) {s : Reg}
    (named : body.nameOf r ≠ []) (same : body.nameOf r = body.nameOf s) : r = s := by
  have found : ∀ {q : Reg}, body.nameOf q ≠ [] → (some q, body.nameOf q) ∈ body.namedValues := by
    intro q nonempty
    cases looked : body.namedValues.lookup (some q) with
    | none => exact absurd (by simp [Body.nameOf, looked]) nonempty
    | some name =>
      have equal : body.nameOf q = name := by simp [Body.nameOf, looked]
      rw [equal]
      exact lookup_mem looked
  have first := mem_named (found named)
  have second := mem_named (found (same ▸ named))
  rw [← same] at second
  -- entries with a name are told apart by it
  have nodup : ((((body.args.zipIdx.map fun entry =>
        (Reg.arg entry.2, entry.1.name)) ++
      (body.insts.filter fun inst => inst.type.isSome).map fun inst =>
        (Reg.inst inst.id, inst.name)).filter
          fun entry => !entry.2.isEmpty).map Prod.snd).Nodup := by
    refine List.Sublist.nodup ?_ verified.names_nodup
    have commute : ∀ entries : List (Reg × Name),
        (entries.filter fun entry => !entry.2.isEmpty).map Prod.snd =
          (entries.map Prod.snd).filter fun name => !name.isEmpty := by
      intro entries
      rw [List.filter_map]
      rfl
    rw [commute, valueNames, List.map_append, List.map_map, List.map_map]
    have argNames : body.args.zipIdx.map (Prod.snd ∘ fun entry => (Reg.arg entry.2, entry.1.name)) =
          body.args.map Argument.name := by
      rw [← List.zipIdx_map_fst 0 body.args, List.map_map]
      simp [Function.comp_def]
    rw [argNames]
    exact ((List.Sublist.refl _).append (List.filter_sublist.map Instruction.name)).filter _
  have injective := List.inj_on_of_nodup_map nodup
  have nonempty : (!(body.nameOf r).isEmpty) = true := by
    simpa using named
  exact congrArg Prod.fst (injective (List.mem_filter.mpr ⟨first, nonempty⟩)
    (List.mem_filter.mpr ⟨second, nonempty⟩) rfl)

namespace Instruction

variable (ident : Reg → Ident)

/-- The result and the equals sign; nothing for `void`. -/
def resultText (inst : Instruction) : Text :=
  if inst.type.isSome then
    '%' :: ((ident (.inst inst.id)).text ++ [' ', '=', ' '])
  else []

def bareText (inst : Instruction) : Text :=
  inst.resultText ident ++ (inst.op.map ident).text

end Instruction

def metadataText (metadata : List Text) : Text :=
  metadata.flatMap fun attachment => ',' :: ' ' :: '!' :: attachment

def Instruction.print (ident : Reg → Ident) (inst : Instruction) : Text :=
  ' ' :: ' ' :: (inst.bareText ident ++ metadataText inst.metadata)

def TermOp.text : TermOp Ident → Text
  | .ret (w := w) value => 'r' :: 'e' :: 't' :: ' ' :: (typeText w ++ value.text)
  | .retVoid => ['r', 'e', 't', ' ', 'v', 'o', 'i', 'd']
  | .unreachable =>
    ['u', 'n', 'r', 'e', 'a', 'c', 'h', 'a', 'b', 'l', 'e']

def Terminator.bareText (ident : Reg → Ident) (term : Terminator) : Text :=
  (term.op.map ident).text

/-- `llvm::Instruction::print` on a terminator. -/
def Terminator.print (ident : Reg → Ident) (term : Terminator) : Text :=
  ' ' :: ' ' :: (term.bareText ident ++ metadataText term.metadata)

private theorem opText_head (op : Op Ident) :
    ∃ c rest, op.text = c :: rest ∧ c ≠ '%' ∧ c ≠ ' ' ∧ c ≠ '\t' := by
  have keyword : ∀ opcode : Opcode, ∃ c rest,
      opcode.text = c :: rest ∧ c ≠ '%' ∧ c ≠ ' ' ∧ c ≠ '\t' := by
    intro opcode
    cases opcode <;> exact ⟨_, _, rfl, by decide, by decide, by decide⟩
  cases op with
  | value rhs =>
    obtain ⟨c, rest, shape, plain⟩ := keyword rhs.opcode
    exact ⟨c, rest ++ ' ' :: rhs.tailText,
      by rw [Op.text, shape, List.cons_append], plain⟩
  | assume cond =>
    obtain ⟨c, rest, shape, plain⟩ := keyword .call
    exact ⟨c, _, by rw [Op.text, shape, List.cons_append], plain⟩

def Instruction.resultIdent (ident : Reg → Ident) (inst : Instruction) : Option Ident :=
  if inst.type.isSome then some (ident (.inst inst.id)) else none

/-- The bare line of an instruction determines its result and its operation
over identifiers. -/
theorem Instruction.bareText_inj (same : inst.bareText ident = inst'.bareText ident') :
    inst.resultIdent ident = inst'.resultIdent ident' ∧
      inst.op.map ident = inst'.op.map ident' := by
  unfold Instruction.bareText Instruction.resultText at same
  unfold Instruction.resultIdent
  obtain ⟨c, rest, shape, plain, -⟩ := opText_head (inst.op.map ident)
  obtain ⟨c', rest', shape', plain', -⟩ := opText_head (inst'.op.map ident')
  by_cases hasResult : inst.type.isSome <;>
    by_cases hasResult' : inst'.type.isSome
  · simp only [hasResult, hasResult', if_true, List.cons_append,
      List.append_assoc, List.cons.injEq, true_and] at same
    have blank : Stops isStop ([' ', '=', ' '] ++ (inst.op.map ident).text) :=
      Or.inr (Or.inl rfl)
    have blank' : Stops isStop ([' ', '=', ' '] ++ (inst'.op.map ident').text) :=
      Or.inr (Or.inl rfl)
    obtain ⟨result, rest⟩ :=
      ident_selfDelimiting _ _ _ _ blank blank' same
    rw [if_pos hasResult, if_pos hasResult', result]
    exact ⟨rfl, Op.text_injective (List.append_cancel_left rest)⟩
  · simp only [hasResult, hasResult', if_true, Bool.false_eq_true, if_false,
      List.cons_append, List.nil_append, shape'] at same
    exact absurd (List.cons.inj same).1.symm plain'
  · simp only [hasResult, hasResult', if_true, Bool.false_eq_true, if_false,
      List.cons_append, List.nil_append, shape] at same
    exact absurd (List.cons.inj same).1 plain
  · rw [if_neg hasResult, if_neg hasResult']
    refine ⟨rfl, Op.text_injective ?_⟩
    simpa only [hasResult, hasResult', Bool.false_eq_true, if_false, List.nil_append] using same

theorem Instruction.op_eq_of_bareText (same : inst.bareText ident = inst'.bareText ident') :
    inst.op.map ident = inst'.op.map ident' :=
  (bareText_inj same).2

theorem Instruction.bareText_head (ident : Reg → Ident) (inst : Instruction) :
    ∃ c rest, inst.bareText ident = c :: rest ∧ c ≠ ' ' ∧ c ≠ '\t' := by
  unfold Instruction.bareText Instruction.resultText
  by_cases hasResult : inst.type.isSome
  · rw [if_pos hasResult]
    exact ⟨'%', _, List.cons_append, by decide, by decide⟩
  · obtain ⟨c, rest, shape, -, plain⟩ := opText_head (inst.op.map ident)
    exact ⟨c, rest,
      by simp only [hasResult, Bool.false_eq_true, if_false, List.nil_append, shape], plain⟩

theorem TermOp.text_injective {x y : TermOp Ident} (same : x.text = y.text) : x = y := by
  have notVoid : ∀ {w : Nat} (value : Operand Ident w),
      (TermOp.ret value).text ≠ TermOp.retVoid.text := by
    intro w value impossible
    simp [TermOp.text, typeText] at impossible
  cases x with
  | ret value =>
    cases y with
    | ret value' =>
      simp only [TermOp.text, List.cons.injEq, true_and] at same
      obtain ⟨rfl, operands⟩ := typeText_inj same
      rw [(operand_selfDelimiting _).injective operands]
    | retVoid => exact absurd same (notVoid value)
    | unreachable => cases (List.cons.inj same).1
  | retVoid =>
    cases y with
    | ret value => exact absurd same.symm (notVoid value)
    | retVoid => rfl
    | unreachable => cases (List.cons.inj same).1
  | unreachable =>
    cases y with
    | unreachable => rfl
    | ret value => cases (List.cons.inj same).1
    | retVoid => cases (List.cons.inj same).1

theorem TermOp.text_head (op : TermOp Ident) :
    ∃ c rest, op.text = c :: rest ∧ c ≠ ' ' ∧ c ≠ '\t' := by
  cases op <;> exact ⟨_, _, rfl, by decide, by decide⟩

end AliveNext.LLVM
