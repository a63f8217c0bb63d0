import AliveNext.Tools.CopyInstr

/-!
# What parsing a function does to the state

The state only grows: names keep their values and instructions their order. A rule for
`parse_operand` and `parse_fn` says what has to be checked of a property of states, and with it
the source turns out to give each name one value, operands before instructions.
-/

namespace AliveNext.Tools.CopyInstr

open Lib (bind_eq_ok)

namespace State

variable {st : State} {id : Ident} {v : Value} {i : Instr}

theorem find_emplace (other : Ident) : (st.emplace id v).find other =
      (st.find other).or (if other = id then some v else none) := by
  rw [find, emplace, List.lookup_append, find]
  congr 1
  rw [List.lookup_cons]
  by_cases same : other = id
  · simp [same]
  · have different : (other == id) = false := by simpa using same
    simp [same, different]

theorem find_emplace_self (absent : st.find id = none) : (st.emplace id v).find id = some v := by
  rw [find_emplace, absent, if_pos rfl, Option.none_or]

theorem find_emplace_ne
    {other : Ident} (different : other ≠ id) : (st.emplace id v).find other = st.find other := by
  rw [find_emplace, if_neg different, Option.or_none]

theorem find_addInput (other : Ident) :
    (st.addInput id v).2.find other = (st.emplace id v).find other := rfl

@[simp] theorem find_addInstr (id : Ident) : (st.addInstr i).find id = st.find id := rfl

theorem names_addInstr : (st.addInstr i).names = st.names ++ i.name.toList := by
  rw [names, addInstr, List.filterMap_append, names]
  cases known : i.name <;> simp [known]

theorem names_addCopied (unnamed : ∀ r ∈ st.instrs, r.isReturn = true → r.name = none) :
    (st.addCopied i).names = st.names ++ i.name.toList := by
  unfold addCopied
  split
  · next last known =>
    split
    · next isReturn =>
      obtain ⟨body, shape⟩ := List.getLast?_eq_some_iff.1 known
      have noName := unnamed last (by simp [shape]) isReturn
      rw [names, names, shape, List.dropLast_concat]
      simp only [List.filterMap_append, List.filterMap_cons, List.filterMap_nil, noName,
        List.append_nil]
      cases named : i.name <;> simp
    · exact names_addInstr
  · exact names_addInstr

theorem mem_addCopied {j : Instr} : j ∈ (st.addCopied i).instrs ↔ j = i ∨ j ∈ st.instrs := by
  unfold addCopied
  split
  · next last known =>
    split
    · obtain ⟨body, shape⟩ := List.getLast?_eq_some_iff.1 known
      rw [shape, List.dropLast_concat]
      simp only [List.mem_append, List.mem_cons, List.not_mem_nil, or_false]
      tauto
    · simp [addInstr, or_comm]
  · simp [addInstr, or_comm]

@[simp] theorem find_addCopied (id : Ident) : (st.addCopied i).find id = st.find id := by
  unfold addCopied
  split
  · split <;> rfl
  · rfl

@[simp] theorem constants_addCopied : (st.addCopied i).constants = st.constants := by
  unfold addCopied
  split
  · split <;> rfl
  · rfl

@[simp] theorem side_addCopied : (st.addCopied i).side = st.side := by
  unfold addCopied
  split
  · split <;> rfl
  · rfl

theorem instrs_addCopied_emplace :
    ((st.emplace id v).addCopied i).instrs = (st.addCopied i).instrs := by
  have same : (st.emplace id v).instrs = st.instrs := rfl
  unfold addCopied
  rw [same]
  split
  · split <;> rfl
  · rfl

theorem mem_names {name : String} : name ∈ st.names ↔ ∃ i ∈ st.instrs, i.name = some name := by
  rw [names, List.mem_filterMap]

end State

/-- Names keep their values, constants their places and instructions their order. -/
structure Extends (st st' : State) : Prop where
  side : st'.side = st.side
  find : ∀ id v, st.find id = some v → st'.find id = some v
  constants : ∀ (k : Nat) (c : Constant), st.constants[k]? = some c → st'.constants[k]? = some c
  names : st.names <+: st'.names

namespace Extends

variable {a b c st : State} {id : Ident} {v : Value} {i : Instr}

theorem refl (st : State) : Extends st st :=
  ⟨rfl, fun _ _ known => known, fun _ _ known => known, List.prefix_refl _⟩

theorem trans (first : Extends a b) (second : Extends b c) : Extends a c where
  side := second.side.trans first.side
  find id v known := second.find id v (first.find id v known)
  constants k x known := second.constants k x (first.constants k x known)
  names := first.names.trans second.names

theorem absent (grows : Extends a b) (none_ : b.find id = none) : a.find id = none := by
  cases known : a.find id with
  | none => rfl
  | some v =>
    rw [grows.find id v known] at none_
    cases none_

theorem isSome
    (grows : Extends a b) (known : (a.find id).isSome = true) : (b.find id).isSome = true := by
  obtain ⟨v, known⟩ := Option.isSome_iff_exists.1 known
  exact Option.isSome_iff_exists.2 ⟨v, grows.find id v known⟩

theorem addConstant (st : State) (c : Constant) : Extends st (st.addConstant c).2 where
  side := rfl
  find _ _ known := known
  constants k x known := by
    have inside := (List.getElem?_eq_some_iff.1 known).1
    exact (List.getElem?_append_left inside).trans known
  names := List.prefix_refl _

theorem emplace (st : State) (id : Ident) (v : Value) : Extends st (st.emplace id v) where
  side := rfl
  find other x known := by rw [State.find_emplace, known, Option.some_or]
  constants _ _ known := known
  names := List.prefix_refl _

theorem addInput (st : State) (id : Ident) (v : Value) : Extends st (st.addInput id v).2 :=
  ⟨rfl, (emplace st id v).find, fun _ _ known => known, List.prefix_refl _⟩

theorem addInstr (st : State) (i : Instr) : Extends st (st.addInstr i) where
  side := rfl
  find _ _ known := known
  constants _ _ known := known
  names := by
    rw [State.names_addInstr]
    exact List.prefix_append _ _

end Extends

def Denotes (st : State) (v : Value) : Prop :=
  (∃ id, st.find id = some v) ∨
    ∃ (k : Nat) (c : Constant), v = .constant st.side k ∧ st.constants[k]? = some c

theorem Denotes.mono {st st' : State} {v : Value} (denotes : Denotes st v)
    (grows : Extends st st') : Denotes st' v := by
  rcases denotes with ⟨id, known⟩ | ⟨k, c, rfl, known⟩
  · exact .inl ⟨id, grows.find id v known⟩
  · exact .inr ⟨k, c, by rw [grows.side], grows.constants k c known⟩

theorem denotes_addConstant (st : State) (c : Constant) :
    Denotes (st.addConstant c).2 (st.addConstant c).1 :=
  .inr ⟨st.constants.length, c, rfl, by simp [State.addConstant]⟩

/-! ## The rule for operands -/

/-- What a property of states and a relation between them need so that operands keep them. -/
structure Keeps (miss : String → State → Except Failure (Value × State)) (regs : List String)
    (Good : State → Prop) (Grows : State → State → Prop) : Prop where
  refl : ∀ st, Grows st st
  trans : ∀ {a b c}, Grows a b → Grows b c → Grows a c
  extends_ : ∀ {a b}, Grows a b → Extends a b
  constant : ∀ st c, Good st → Good (st.addConstant c).2 ∧ Grows st (st.addConstant c).2
  symbolic : ∀ st name, Good st → st.find (.const name) = none →
    Good (st.addInput (.const name) (.constInput st.side name)).2 ∧
      Grows st (st.addInput (.const name) (.constInput st.side name)).2
  missed : ∀ name ∈ regs, ∀ st v st', Good st → st.find (.reg name) = none →
    miss name st = .ok (v, st') → Good st' ∧ Grows st st' ∧ st'.find (.reg name) = some v

section

variable {miss : String → State → Except Failure (Value × State)} {regs : List String}
  {Good : State → Prop} {Grows : State → State → Prop}

def OperandRule (miss : String → State → Except Failure (Value × State)) (regs : List String)
    (Good : State → Prop) (Grows : State → State → Prop) (t : Term) : Prop :=
  ∀ st v st', t.registers ⊆ regs → Good st → parseOperand miss t st = .ok (v, st') →
    Good st' ∧ Grows st st' ∧ Denotes st' v ∧
      ∀ name ∈ t.registers, (st'.find (.reg name)).isSome = true

def OperandsRule (miss : String → State → Except Failure (Value × State)) (regs : List String)
    (Good : State → Prop) (Grows : State → State → Prop) (ts : List Term) : Prop :=
  ∀ st vs st', registersAll ts ⊆ regs → Good st → parseOperands miss ts st = .ok (vs, st') →
    Good st' ∧ Grows st st' ∧ (∀ v ∈ vs, Denotes st' v) ∧
      ∀ name ∈ registersAll ts, (st'.find (.reg name)).isSome = true

variable (keeps : Keeps miss regs Good Grows)

include keeps

theorem Keeps.nil : OperandsRule miss regs Good Grows [] := by
  intro st vs st' _ good parsed
  cases parsed
  exact ⟨good, keeps.refl st, by simp, by simp [registersAll]⟩

theorem Keeps.cons {t : Term} {ts : List Term}
    (first : OperandRule miss regs Good Grows t) (rest : OperandsRule miss regs Good Grows ts) :
    OperandsRule miss regs Good Grows (t :: ts) := by
  intro st vs st' within good parsed
  rw [registersAll, List.append_subset] at within
  rw [parseOperands] at parsed
  obtain ⟨⟨v, st₁⟩, parsed₁, parsed⟩ := bind_eq_ok.1 parsed
  obtain ⟨⟨vs₂, st₂⟩, parsed₂, done⟩ := bind_eq_ok.1 parsed
  cases done
  obtain ⟨good₁, grows₁, denotes₁, found₁⟩ := first st v st₁ within.1 good parsed₁
  obtain ⟨good₂, grows₂, denotes₂, found₂⟩ := rest st₁ vs₂ st' within.2 good₁ parsed₂
  have later := keeps.extends_ grows₂
  refine ⟨good₂, keeps.trans grows₁ grows₂, ?_, ?_⟩
  · rw [List.forall_mem_cons]
    exact ⟨denotes₁.mono later, denotes₂⟩
  · intro name inside
    rw [registersAll, List.mem_append] at inside
    rcases inside with inside | inside
    · exact later.isSome (found₁ name inside)
    · exact found₂ name inside

theorem Keeps.operand (t : Term) : OperandRule miss regs Good Grows t := by
  refine Term.rec (motive_1 := OperandRule miss regs Good Grows)
    (motive_2 := OperandsRule miss regs Good Grows) ?_ ?_ ?_ ?_ ?_ keeps.nil
    (fun t ts first rest => keeps.cons first rest) t
  · intro name st v st' within good parsed
    have inside : name ∈ regs := within (by simp [Term.registers])
    rw [parseOperand] at parsed
    split at parsed
    · next x known =>
      cases parsed
      refine ⟨good, keeps.refl st, .inl ⟨_, known⟩, ?_⟩
      simp [Term.registers, known]
    · next absent =>
      obtain ⟨good', grows, known⟩ := keeps.missed name inside st v st' good absent parsed
      refine ⟨good', grows, .inl ⟨_, known⟩, ?_⟩
      simp [Term.registers, known]
  · intro l st v st' _ good parsed
    cases parsed
    obtain ⟨good', grows⟩ := keeps.constant st (.literal l) good
    exact ⟨good', grows, denotes_addConstant st _, by simp [Term.registers]⟩
  · intro name st v st' _ good parsed
    rw [parseOperand] at parsed
    split at parsed
    · next x known =>
      cases parsed
      exact ⟨good, keeps.refl st, .inl ⟨_, known⟩, by simp [Term.registers]⟩
    · next absent =>
      cases parsed
      obtain ⟨good', grows⟩ := keeps.symbolic st name good absent
      refine ⟨good', grows, .inl ⟨.const name, ?_⟩, by simp [Term.registers]⟩
      exact State.find_emplace_self absent
  · intro name args rule st v st' within good parsed
    rw [parseOperand] at parsed
    obtain ⟨⟨vals, st₁⟩, parsed₁, done⟩ := bind_eq_ok.1 parsed
    cases done
    obtain ⟨good₁, grows₁, -, found₁⟩ := rule st vals st₁ within good parsed₁
    obtain ⟨good', grows⟩ := keeps.constant st₁ (.constFn name vals) good₁
    refine ⟨good', keeps.trans grows₁ grows, denotes_addConstant st₁ _, ?_⟩
    exact fun name inside => (keeps.extends_ grows).isSome (found₁ name inside)
  · intro vals rule st v st' within good parsed
    rw [parseOperand] at parsed
    obtain ⟨⟨vals, st₁⟩, parsed₁, done⟩ := bind_eq_ok.1 parsed
    cases done
    obtain ⟨good₁, grows₁, -, found₁⟩ := rule st vals st₁ within good parsed₁
    obtain ⟨good', grows⟩ := keeps.constant st₁ (.aggregate vals) good₁
    refine ⟨good', keeps.trans grows₁ grows, denotes_addConstant st₁ _, ?_⟩
    exact fun name inside => (keeps.extends_ grows).isSome (found₁ name inside)

theorem Keeps.operands (ts : List Term) : OperandsRule miss regs Good Grows ts := by
  induction ts with
  | nil => exact keeps.nil
  | cons t ts ih => exact keeps.cons (keeps.operand t) ih

end

/-! ## The rule for instructions -/

/-- What a property needs so that the instructions of a function keep it. -/
structure KeepsStmts (miss : String → State → Except Failure (Value × State))
    (code : Code) (Good : State → Prop) (Grows : State → State → Prop) : Prop where
  operands : Keeps miss code.reads Good Grows
  assign : ∀ name ∈ code.defined, ∀ st op vals, Good st → (∀ v ∈ vals, Denotes st v) →
    st.find (.reg name) = none →
    Good ((st.emplace (.reg name) (.instr st.side name)).addInstr
      { name := some name, op := op, operands := vals })
  effect : ∀ st op vals, Good st → (∀ v ∈ vals, Denotes st v) →
    Good (st.addInstr { name := none, op := op, operands := vals })

section

variable {miss : String → State → Except Failure (Value × State)} {code : Code}
  {Good : State → Prop} {Grows : State → State → Prop} {st st' : State} {s : Stmt}

structure ParsedStmt (Good : State → Prop) (Grows : State → State → Prop) (st : State) (s : Stmt)
    (st₁ st' : State) : Prop where
  good₁ : Good st₁
  grows₁ : Grows st st₁
  reads : ∀ name ∈ registersAll s.operands, (st₁.find (.reg name)).isSome = true
  good : Good st'
  grows : Extends st₁ st'
  assigned : ∀ name, s.name = some name →
    st₁.find (.reg name) = none ∧ st'.find (.reg name) = some (.instr st₁.side name)
  names : st'.names = st₁.names ++ s.name.toList
  instrs : ∃ i, st'.instrs = st₁.instrs ++ [i] ∧ i.isReturn = false

variable (keeps : KeepsStmts miss code Good Grows)

include keeps

theorem KeepsStmts.stmt (member : s ∈ code.stmts) (good : Good st)
    (parsed : parseStmt miss st s = .ok st') : ∃ st₁, ParsedStmt Good Grows st s st₁ st' := by
  have reads : registersAll s.operands ⊆ code.reads := by
    intro name inside
    exact List.mem_append_left _ (List.mem_flatMap.2 ⟨s, member, inside⟩)
  rw [parseStmt] at parsed
  obtain ⟨⟨vals, st₁⟩, operands, parsed⟩ := bind_eq_ok.1 parsed
  obtain ⟨good₁, grows₁, denotes, found⟩ :=
    keeps.operands.operands s.operands st vals st₁ reads good operands
  refine ⟨st₁, ?_⟩
  dsimp only at parsed
  split at parsed
  · next unnamed =>
    cases parsed
    exact ⟨good₁, grows₁, found, unnamed ▸ keeps.effect st₁ s.op vals good₁ denotes,
      .addInstr _ _, by simp [unnamed], by rw [State.names_addInstr], ⟨_, rfl, rfl⟩⟩
  · next name named =>
    split at parsed
    · cases parsed
    · next absent =>
      rw [Bool.not_eq_true, Option.isSome_eq_false_iff, Option.isNone_iff_eq_none] at absent
      cases parsed
      have defined : name ∈ code.defined := List.mem_filterMap.2 ⟨s, member, named⟩
      have good := keeps.assign name defined st₁ s.op vals good₁ denotes absent
      refine ⟨good₁, grows₁, found, named ▸ good, (Extends.emplace _ _ _).trans (.addInstr _ _),
        ?_, by rw [State.names_addInstr]; rfl, ⟨_, rfl, rfl⟩⟩
      intro other same
      rw [named] at same
      cases same
      exact ⟨absent, State.find_emplace_self absent⟩

structure ParsedStmts (Good : State → Prop) (st : State) (stmts : List Stmt) (st' : State) :
    Prop where
  good : Good st'
  grows : Extends st st'
  reads : ∀ name ∈ stmts.flatMap fun s => registersAll s.operands,
    (st'.find (.reg name)).isSome = true
  assigned : ∀ name ∈ stmts.filterMap Stmt.name,
    st.find (.reg name) = none ∧ st'.find (.reg name) = some (.instr st.side name)

theorem KeepsStmts.stmts {stmts : List Stmt} (within : stmts ⊆ code.stmts) (good : Good st)
    (parsed : stmts.foldlM (parseStmt miss) st = .ok st') : ParsedStmts Good st stmts st' := by
  induction stmts generalizing st with
  | nil =>
    cases parsed
    exact ⟨good, .refl _, by simp, by simp⟩
  | cons s rest ih =>
    rw [List.cons_subset] at within
    obtain ⟨st₂, first, others⟩ := Lib.foldlM_cons_eq_ok.1 parsed
    obtain ⟨st₁, one⟩ := keeps.stmt within.1 good first
    have tail := ih within.2 one.good others
    have operands := keeps.operands.extends_ one.grows₁
    refine ⟨tail.good, (operands.trans one.grows).trans tail.grows, ?_, ?_⟩
    · intro name inside
      rw [List.flatMap_cons, List.mem_append] at inside
      rcases inside with inside | inside
      · exact (one.grows.trans tail.grows).isSome (one.reads name inside)
      · exact tail.reads name inside
    · intro name inside
      rw [List.filterMap_cons] at inside
      have later : name ∈ rest.filterMap Stmt.name → st.find (.reg name) = none ∧
          st'.find (.reg name) = some (.instr st.side name) := by
        intro inside
        obtain ⟨absent, known⟩ := tail.assigned name inside
        have side : st₂.side = st.side := one.grows.side.trans operands.side
        exact ⟨(operands.trans one.grows).absent absent, side ▸ known⟩
      cases named : s.name with
      | none =>
        rw [named] at inside
        exact later inside
      | some own =>
        rw [named, List.mem_cons] at inside
        rcases inside with rfl | inside
        · obtain ⟨absent, known⟩ := one.assigned name named
          exact ⟨operands.absent absent, operands.side ▸ tail.grows.find _ _ known⟩
        · exact later inside

/-- A function that was parsed: the state before its `ret`, and the `ret`. -/
structure ParsedFn (Good : State → Prop) (st : State) (code : Code) (st₁ : State) (ret : Instr) :
    Prop where
  good : Good st₁
  grows : Extends st st₁
  isReturn : ret.isReturn = true
  unnamed : ret.name = none
  reads : ∀ name ∈ code.reads, (st₁.find (.reg name)).isSome = true
  assigned : ∀ name ∈ code.defined,
    st.find (.reg name) = none ∧ st₁.find (.reg name) = some (.instr st.side name)

theorem KeepsStmts.fn (good : Good st) (parsed : parseFn miss code st = .ok st') :
    ∃ st₁ ret, ParsedFn Good st code st₁ ret ∧ st' = st₁.addInstr ret := by
  rw [parseFn] at parsed
  obtain ⟨st₀, stmts, parsed⟩ := bind_eq_ok.1 parsed
  have body := keeps.stmts (List.Subset.refl _) good stmts
  have reads : ∀ (st₁ : State), Extends st₀ st₁ → (∀ name ∈ registersAll code.ret.toList,
      (st₁.find (.reg name)).isSome = true) →
      ∀ name ∈ code.reads, (st₁.find (.reg name)).isSome = true := by
    intro st₁ grows last name inside
    rw [Code.reads, List.mem_append] at inside
    rcases inside with inside | inside
    · exact grows.isSome (body.reads name inside)
    · exact last name inside
  have assigned : ∀ (st₁ : State), Extends st₀ st₁ → ∀ name ∈ code.defined,
      st.find (.reg name) = none ∧ st₁.find (.reg name) = some (.instr st.side name) := by
    intro st₁ grows name inside
    obtain ⟨absent, known⟩ := body.assigned name inside
    exact ⟨absent, grows.find _ _ known⟩
  split at parsed
  · next t written =>
    obtain ⟨⟨v, st₁⟩, operand, done⟩ := bind_eq_ok.1 parsed
    cases done
    have single : registersAll code.ret.toList = t.registers := by
      simp [written, registersAll]
    have within : t.registers ⊆ code.reads := by
      rw [← single]
      exact List.subset_append_right _ _
    obtain ⟨good₁, grows₁, -, found⟩ := keeps.operands.operand t st₀ v st₁ within body.good operand
    have grows := keeps.operands.extends_ grows₁
    exact ⟨st₁, _, ⟨good₁, body.grows.trans grows, rfl, rfl,
      reads st₁ grows (single ▸ found), assigned st₁ grows⟩, rfl⟩
  · next implicit =>
    split at parsed
    · cases parsed
    · next last known =>
      cases parsed
      exact ⟨st₀, _, ⟨body.good, body.grows, rfl, rfl,
        reads st₀ (.refl _) (by simp [implicit, registersAll]), assigned st₀ (.refl _)⟩, rfl⟩

end

/-! ## The source -/

def SrcOperand (st : State) (name : String) : Value → Prop
  | .input .src other => st.find (.reg other) = some (.input .src other)
  | .constInput .src _ => True
  | .constant .src k => ∃ c : Constant, st.constants[k]? = some c
  | .instr .src other => [other, name].Sublist st.names
  | _ => False

structure Source (st : State) : Prop where
  side : st.side = .src
  nodup : st.names.Nodup
  found : ∀ name v, st.find (.reg name) = some v →
    v = .input .src name ∧ v ∈ st.inputs ∨ v = .instr .src name ∧ name ∈ st.names
  listed : ∀ name ∈ st.names, st.find (.reg name) = some (.instr .src name)
  symbolic : ∀ name v, st.find (.const name) = some v → v = .constInput .src name ∧ v ∈ st.inputs
  inputs : ∀ v ∈ st.inputs, (∃ name, v = .input .src name ∧ st.find (.reg name) = some v) ∨
    ∃ name, v = .constInput .src name ∧ st.find (.const name) = some v
  noReturn : ∀ i ∈ st.instrs, ∀ name, i.name = some name → i.isReturn = false
  operands : ∀ i ∈ st.instrs, ∀ name, i.name = some name → ∀ op ∈ i.operands, SrcOperand st name op

theorem SrcOperand.mono {st st' : State} {name : String} {op : Value}
    (operand : SrcOperand st name op) (grows : Extends st st') : SrcOperand st' name op := by
  match op, operand with
  | .input .src other, known => exact grows.find _ _ known
  | .constInput .src _, _ => trivial
  | .constant .src k, ⟨c, known⟩ => exact ⟨c, grows.constants k c known⟩
  | .instr .src other, before => exact before.trans grows.names.sublist

namespace Source

variable {st : State}

theorem empty : Source { side := .src } := by
  refine ⟨rfl, List.nodup_nil, ?_, ?_, ?_, ?_, ?_, ?_⟩ <;> simp [State.find, State.names]

theorem addConstant (source : Source st) (c : Constant) : Source (st.addConstant c).2 :=
  { source with
    operands := fun i member name named op inside =>
      (source.operands i member name named op inside).mono (.addConstant st c) }

theorem addInstr
    (source : Source st) {i : Instr} (unnamed : i.name = none) : Source (st.addInstr i) := by
  have names : (st.addInstr i).names = st.names := by
    rw [State.names_addInstr, unnamed]
    exact List.append_nil _
  refine ⟨source.side, names ▸ source.nodup, ?_, ?_, source.symbolic, source.inputs, ?_, ?_⟩
  · rw [names]
    exact source.found
  · rw [names]
    exact source.listed
  · intro j member name named
    rcases List.mem_append.1 member with member | member
    · exact source.noReturn j member name named
    · rw [List.mem_singleton.1 member, unnamed] at named
      cases named
  · intro j member name named op inside
    rcases List.mem_append.1 member with member | member
    · exact (source.operands j member name named op inside).mono (.addInstr st i)
    · rw [List.mem_singleton.1 member, unnamed] at named
      cases named

variable {name : String} {vals : List Value}

theorem addInput (source : Source st) (absent : st.find (.reg name) = none) :
    Source (st.addInput (.reg name) (.input .src name)).2 := by
  have grows := Extends.addInput st (.reg name) (.input .src name)
  refine ⟨source.side, source.nodup, ?_, ?_, ?_, ?_, source.noReturn, ?_⟩
  · intro other v known
    by_cases same : other = name
    · subst same
      rw [State.find_addInput, State.find_emplace_self absent] at known
      cases known
      exact .inl ⟨rfl, List.mem_append_right _ (List.mem_singleton_self _)⟩
    · rw [State.find_addInput, State.find_emplace_ne (by simp [same])] at known
      rcases source.found other v known with ⟨shape, member⟩ | instr
      · exact .inl ⟨shape, List.mem_append_left _ member⟩
      · exact .inr instr
  · exact fun other member => grows.find _ _ (source.listed other member)
  · intro other v known
    rw [State.find_addInput, State.find_emplace_ne (by simp)] at known
    obtain ⟨shape, member⟩ := source.symbolic other v known
    exact ⟨shape, List.mem_append_left _ member⟩
  · intro v member
    rcases List.mem_append.1 member with member | member
    · rcases source.inputs v member with ⟨other, shape, known⟩ | ⟨other, shape, known⟩
      · exact .inl ⟨other, shape, grows.find _ _ known⟩
      · exact .inr ⟨other, shape, grows.find _ _ known⟩
    · rw [List.mem_singleton.1 member]
      exact .inl ⟨name, rfl, State.find_emplace_self absent⟩
  · exact fun i member other named op inside =>
      (source.operands i member other named op inside).mono grows

theorem addConst (source : Source st) (absent : st.find (.const name) = none) :
    Source (st.addInput (.const name) (.constInput .src name)).2 := by
  have grows := Extends.addInput st (.const name) (.constInput .src name)
  refine ⟨source.side, source.nodup, ?_, ?_, ?_, ?_, source.noReturn, ?_⟩
  · intro other v known
    rw [State.find_addInput, State.find_emplace_ne (by simp)] at known
    rcases source.found other v known with ⟨shape, member⟩ | instr
    · exact .inl ⟨shape, List.mem_append_left _ member⟩
    · exact .inr instr
  · exact fun other member => grows.find _ _ (source.listed other member)
  · intro other v known
    by_cases same : other = name
    · subst same
      rw [State.find_addInput, State.find_emplace_self absent] at known
      cases known
      exact ⟨rfl, List.mem_append_right _ (List.mem_singleton_self _)⟩
    · rw [State.find_addInput, State.find_emplace_ne (by simp [same])] at known
      obtain ⟨shape, member⟩ := source.symbolic other v known
      exact ⟨shape, List.mem_append_left _ member⟩
  · intro v member
    rcases List.mem_append.1 member with member | member
    · rcases source.inputs v member with ⟨other, shape, known⟩ | ⟨other, shape, known⟩
      · exact .inl ⟨other, shape, grows.find _ _ known⟩
      · exact .inr ⟨other, shape, grows.find _ _ known⟩
    · rw [List.mem_singleton.1 member]
      exact .inr ⟨name, rfl, State.find_emplace_self absent⟩
  · exact fun i member other named op inside =>
      (source.operands i member other named op inside).mono grows

theorem srcOperand (source : Source st) (op : String) {v : Value} (denotes : Denotes st v) :
    SrcOperand ((st.emplace (.reg name) (.instr .src name)).addInstr
      { name := some name, op := op, operands := vals }) name v := by
  have grows : Extends st ((st.emplace (.reg name) (.instr .src name)).addInstr
      { name := some name, op := op, operands := vals }) :=
    (Extends.emplace _ _ _).trans (.addInstr _ _)
  rcases denotes with ⟨id, known⟩ | ⟨k, c, rfl, known⟩
  · cases id with
    | reg other =>
      rcases source.found other v known with ⟨rfl, -⟩ | ⟨rfl, member⟩
      · exact grows.find _ _ known
      · show [other, name].Sublist (State.names _)
        rw [State.names_addInstr]
        exact (List.singleton_sublist.2 member).append (List.Sublist.refl [name])
    | const other =>
      obtain ⟨rfl, -⟩ := source.symbolic other v known
      trivial
  · rw [source.side]
    exact ⟨c, grows.constants k c known⟩

theorem assign (source : Source st) {op : String}
    (absent : st.find (.reg name) = none) (denotes : ∀ v ∈ vals, Denotes st v) :
    Source ((st.emplace (.reg name) (.instr .src name)).addInstr
      { name := some name, op := op, operands := vals }) := by
  have grows : Extends st ((st.emplace (.reg name) (.instr .src name)).addInstr
      { name := some name, op := op, operands := vals }) :=
    (Extends.emplace _ _ _).trans (.addInstr _ _)
  have names : ((st.emplace (.reg name) (.instr .src name)).addInstr
      { name := some name, op := op, operands := vals }).names = st.names ++ [name] :=
    State.names_addInstr
  have fresh : name ∉ st.names := by
    intro member
    rw [source.listed name member] at absent
    cases absent
  refine ⟨source.side, ?_, ?_, ?_, ?_, ?_, ?_, ?_⟩
  · rw [names, List.nodup_append]
    exact ⟨source.nodup, List.nodup_singleton name, fun a member b single =>
      List.mem_singleton.1 single ▸ fun same => fresh (same ▸ member)⟩
  · intro other v known
    by_cases same : other = name
    · subst same
      rw [State.find_addInstr, State.find_emplace_self absent] at known
      cases known
      exact .inr ⟨rfl, by rw [names]; exact List.mem_append_right _ (List.mem_singleton_self _)⟩
    · rw [State.find_addInstr, State.find_emplace_ne (by simp [same])] at known
      rcases source.found other v known with input | ⟨shape, member⟩
      · exact .inl input
      · exact .inr ⟨shape, by rw [names]; exact List.mem_append_left _ member⟩
  · intro other member
    rw [names, List.mem_append, List.mem_singleton] at member
    rcases member with member | rfl
    · exact grows.find _ _ (source.listed other member)
    · exact State.find_emplace_self absent
  · intro other v known
    rw [State.find_addInstr, State.find_emplace_ne (by simp)] at known
    exact source.symbolic other v known
  · intro v member
    rcases source.inputs v member with ⟨other, shape, known⟩ | ⟨other, shape, known⟩
    · exact .inl ⟨other, shape, grows.find _ _ known⟩
    · exact .inr ⟨other, shape, grows.find _ _ known⟩
  · intro i member other named
    rcases List.mem_append.1 member with member | member
    · exact source.noReturn i member other named
    · rw [List.mem_singleton.1 member]
  · intro i member other named v inside
    rcases List.mem_append.1 member with member | member
    · exact (source.operands i member other named v inside).mono grows
    · rw [List.mem_singleton.1 member] at named inside
      cases named
      exact source.srcOperand op (denotes v inside)

theorem keeps (code : Code) : KeepsStmts newInput code Source Extends where
  operands :=
    { refl := .refl
      trans := .trans
      extends_ := id
      constant := fun st c source => ⟨source.addConstant c, .addConstant st c⟩
      symbolic := fun st name source absent => by
        rw [source.side]
        exact ⟨source.addConst absent, .addInput st _ _⟩
      missed := fun name _ st v st' source absent made => by
        cases made
        exact ⟨source.addInput absent, .addInput st _ _, State.find_emplace_self absent⟩ }
  assign := fun name _ st op vals source denotes absent => by
    rw [source.side]
    exact source.assign absent denotes
  effect := fun st op vals source _ => source.addInstr rfl

end Source

theorem parseSource_source
    {p : Program} {src : State} (parsed : parseSource p = .ok src) : Source src := by
  rw [parseSource] at parsed
  obtain ⟨⟨vs, st⟩, pre, parsed⟩ := bind_eq_ok.1 parsed
  have keeps : Keeps newInput (registersAll p.pre) Source Extends :=
    { (Source.keeps p.src).operands with
      missed := fun name _ st v st' source absent made => by
        cases made
        exact ⟨source.addInput absent, .addInput st _ _, State.find_emplace_self absent⟩ }
  obtain ⟨source, -, -, -⟩ := keeps.operands p.pre _ vs st (List.Subset.refl _) .empty pre
  obtain ⟨st₁, ret, fn, rfl⟩ := (Source.keeps p.src).fn source parsed
  exact fn.good.addInstr fn.unnamed

end AliveNext.Tools.CopyInstr
