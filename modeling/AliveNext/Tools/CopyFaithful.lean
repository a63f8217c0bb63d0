import AliveNext.Tools.CopyTarget

/-!
# Implicit instructions of the target

Which instructions of the source `parse` copies, and when: those that an instruction of the target
needs on demand, and the rest in the sweep over the names of the source.
-/

namespace AliveNext.Tools.CopyInstr

open Lib (bind_eq_ok)

namespace Target

variable {src st st' : State} {defined : List String} {tail : List Instr} {name op : String}
  {vals : List Value}

theorem addConst (target : Target src defined tail st) (name : String) :
    Target src defined tail (st.addInput (.const name) (.constInput st.side name)).2 := by
  have grows := Extends.addInput st (.const name) (.constInput st.side name)
  refine ⟨target.side, target.nodup, ?_, ?_, ?_, ?_, target.ends, target.body, ?_⟩
  · exact fun other known => grows.find _ _ (target.inputs other known)
  · exact fun other v known => grows.isSome (target.symbolic other v known)
  · intro other v known
    rw [State.find_addInput, State.find_emplace_ne (by simp)] at known
    exact target.found other v known
  · exact fun other member => grows.find _ _ (target.listed other member)
  · intro j member other named new
    obtain ⟨i, inside, copy, before⟩ := target.copied j member other named new
    exact ⟨i, inside, copy.mono grows, before⟩

theorem assign (target : Target src defined [] st) (given : name ∈ defined)
    (absent : st.find (.reg name) = none) :
    Target src defined [] ((st.emplace (.reg name) (.instr st.side name)).addInstr
      { name := some name, op := op, operands := vals }) := by
  have grows : Extends st ((st.emplace (.reg name) (.instr st.side name)).addInstr
      { name := some name, op := op, operands := vals }) :=
    (Extends.emplace _ _ _).trans (.addInstr _ _)
  have names : ((st.emplace (.reg name) (.instr st.side name)).addInstr
      { name := some name, op := op, operands := vals }).names = st.names ++ [name] :=
    State.names_addInstr
  have own : ((st.emplace (.reg name) (.instr st.side name)).addInstr
      { name := some name, op := op, operands := vals }).find (.reg name) =
        some (.instr .tgt name) := by
    rw [State.find_addInstr, State.find_emplace_self absent, target.side]
  have fresh : name ∉ st.names := by
    intro inside
    rw [target.listed name inside] at absent
    cases absent
  obtain ⟨body, shape, noReturn⟩ := target.body
  rw [List.append_nil] at shape
  refine ⟨target.side, ?_, ?_, ?_, ?_, ?_, .inl rfl, ?_, ?_⟩
  · rw [names, List.nodup_append]
    exact ⟨target.nodup, List.nodup_singleton name, fun a inside b single =>
      List.mem_singleton.1 single ▸ fun same => fresh (same ▸ inside)⟩
  · exact fun other known => grows.find _ _ (target.inputs other known)
  · exact fun other v known => grows.isSome (target.symbolic other v known)
  · intro other v known
    by_cases same : other = name
    · subst same
      rw [own] at known
      cases known
      exact .inr ⟨rfl, by simp [names]⟩
    · rw [State.find_addInstr, State.find_emplace_ne (by simp [same])] at known
      rcases target.found other v known with input | ⟨shape, inside⟩
      · exact .inl input
      · exact .inr ⟨shape, grows.names.subset inside⟩
  · intro other inside
    rw [names, List.mem_append, List.mem_singleton] at inside
    rcases inside with inside | rfl
    · exact grows.find _ _ (target.listed other inside)
    · exact own
  · refine ⟨st.instrs ++ [{ name := some name, op := op, operands := vals }],
      by simp [State.addInstr, State.emplace], ?_⟩
    rw [List.forall_mem_append, List.forall_mem_singleton, shape]
    exact ⟨noReturn, rfl⟩
  · intro j member other named new
    rcases List.mem_append.1 member with member | member
    · obtain ⟨i, inside, copy, before⟩ := target.copied j member other named new
      exact ⟨i, inside, copy.mono grows, fun used operand =>
        (before used operand).trans grows.names.sublist⟩
    · rw [List.mem_singleton.1 member] at named
      cases named
      exact absurd given new

/-- An instruction without a name, which may be the `ret` at the end. -/
theorem addUnnamed (target : Target src defined [] st) {i : Instr} (unnamed : i.name = none) :
    Target src defined (if i.isReturn then [i] else []) (st.addInstr i) := by
  have names : (st.addInstr i).names = st.names := by
    rw [State.names_addInstr, unnamed]
    exact List.append_nil _
  have grows := Extends.addInstr st i
  obtain ⟨body, shape, noReturn⟩ := target.body
  rw [List.append_nil] at shape
  refine ⟨target.side, names ▸ target.nodup, target.inputs, target.symbolic, ?_, ?_, ?_, ?_, ?_⟩
  · rw [names]
    exact target.found
  · rw [names]
    exact target.listed
  · split
    · next isReturn => exact .inr ⟨i, rfl, isReturn, unnamed⟩
    · exact .inl rfl
  · split
    · exact ⟨body, by rw [State.addInstr, shape], noReturn⟩
    · next notReturn =>
      refine ⟨body ++ [i], by rw [State.addInstr, shape, List.append_nil], ?_⟩
      rw [List.forall_mem_append, List.forall_mem_singleton]
      exact ⟨noReturn, Bool.eq_false_iff.2 notReturn⟩
  · intro j member other named new
    rcases List.mem_append.1 member with member | member
    · obtain ⟨origin, inside, copy, before⟩ := target.copied j member other named new
      refine ⟨origin, inside, copy.mono grows, ?_⟩
      rw [names]
      exact before
    · rw [List.mem_singleton.1 member, unnamed] at named
      cases named

end Target

section

variable {src st st' : State} {code : Code} {tail : List Instr}

theorem targetKeeps (source : Source src) (code : Code) (fuel : Nat) :
    KeepsStmts (getOrCopyInstr src fuel) code (Target src code.defined [])
      (Grows src (· ∈ code.reads)) where
  operands :=
    { refl := .refl
      trans := .trans
      extends_ := Grows.grows
      constant := fun st c target => ⟨target.addConstant c, .of_names (.addConstant st c) rfl⟩
      symbolic := fun st name target _ =>
        ⟨target.addConst name, .of_names (.addInput st _ _) rfl⟩
      missed := fun name inside st v st' target _ copied => by
        obtain ⟨target', grows, known⟩ :=
          getOrCopyInstr_rule source fuel name st v st' target copied
        exact ⟨target', grows.widen (fun root same => same ▸ inside), known⟩ }
  assign := fun _ given _ _ _ target _ absent => target.assign given absent
  effect := fun st op vals target _ =>
    target.addUnnamed (i := { name := none, op := op, operands := vals }) rfl

structure InputsCopied (src : State) (passed : List Value) (st : State) : Prop where
  side : st.side = .tgt
  instrs : st.instrs = []
  found : ∀ name v, st.find (.reg name) = some v →
    v = .input .tgt name ∧ src.find (.reg name) = some (.input .src name)
  inputs : ∀ name, .input .src name ∈ passed → st.find (.reg name) = some (.input .tgt name)
  symbolic : ∀ name, .constInput .src name ∈ passed → (st.find (.const name)).isSome = true

theorem InputsCopied.input {passed : List Value} (copied : InputsCopied src passed st)
    {name : String} (known : src.find (.reg name) = some (.input .src name)) :
    InputsCopied src (passed ++ [.input .src name])
      (st.addInput (.reg name) (.input .tgt name)).2 := by
  have grows := Extends.addInput st (.reg name) (.input .tgt name)
  have value : ∀ v, (st.addInput (.reg name) (.input .tgt name)).2.find (.reg name) = some v →
      v = .input .tgt name := by
    intro v found
    rw [State.find_addInput, State.find_emplace, if_pos rfl] at found
    cases before : st.find (.reg name) with
    | none =>
      rw [before] at found
      exact (Option.some.inj found).symm
    | some old =>
      rw [before] at found
      cases found
      exact (copied.found name _ before).1
  refine ⟨copied.side, copied.instrs, ?_, ?_, ?_⟩
  · intro other v found
    by_cases same : other = name
    · subst same
      exact ⟨value v found, known⟩
    · rw [State.find_addInput, State.find_emplace_ne (by simp [same])] at found
      exact copied.found other v found
  · intro other member
    rw [List.mem_append, List.mem_singleton] at member
    rcases member with member | same
    · exact grows.find _ _ (copied.inputs other member)
    · cases same
      have isSome : ((st.addInput (.reg name) (.input .tgt name)).2.find (.reg name)).isSome := by
        rw [State.find_addInput, State.find_emplace, if_pos rfl]
        simp
      obtain ⟨v, found⟩ := Option.isSome_iff_exists.1 isSome
      rw [found, value v found]
  · intro other member
    rw [List.mem_append, List.mem_singleton] at member
    rcases member with member | same
    · exact grows.isSome (copied.symbolic other member)
    · cases same

theorem InputsCopied.const
    {passed : List Value} (copied : InputsCopied src passed st) (name : String) :
    InputsCopied src (passed ++ [.constInput .src name])
      (st.addInput (.const name) (.constInput .tgt name)).2 := by
  have grows := Extends.addInput st (.const name) (.constInput .tgt name)
  refine ⟨copied.side, copied.instrs, ?_, ?_, ?_⟩
  · intro other v found
    rw [State.find_addInput, State.find_emplace_ne (by simp)] at found
    exact copied.found other v found
  · intro other member
    rw [List.mem_append, List.mem_singleton] at member
    rcases member with member | same
    · exact grows.find _ _ (copied.inputs other member)
    · cases same
  · intro other member
    rw [List.mem_append, List.mem_singleton] at member
    rcases member with member | same
    · exact grows.isSome (copied.symbolic other member)
    · cases same
      rw [State.find_addInput, State.find_emplace, if_pos rfl]
      simp

theorem copyInputs_copied (source : Source src) : InputsCopied src src.inputs (copyInputs src) := by
  have loop : ∀ (rest passed : List Value) (st : State), rest ⊆ src.inputs →
      InputsCopied src passed st →
      InputsCopied src (passed ++ rest) (rest.foldl copyInput st) := by
    intro rest
    induction rest with
    | nil =>
      intro passed st _ copied
      rw [List.append_nil]
      exact copied
    | cons v rest ih =>
      intro passed st within copied
      rw [List.cons_subset] at within
      rw [← List.singleton_append, ← List.append_assoc, List.singleton_append, List.foldl_cons]
      apply ih _ _ within.2
      rcases source.inputs v within.1 with ⟨name, rfl, known⟩ | ⟨name, rfl, known⟩
      · exact copied.input known
      · exact copied.const name
  refine loop src.inputs [] _ (List.Subset.refl _) ⟨rfl, rfl, ?_, ?_, ?_⟩ <;> simp [State.find]

theorem copyInputs_target (source : Source src) (defined : List String) :
    Target src defined [] (copyInputs src) := by
  have copied := copyInputs_copied source
  have names : (copyInputs src).names = [] := by rw [State.names, copied.instrs, List.filterMap_nil]
  refine ⟨copied.side, names ▸ List.nodup_nil, ?_, ?_, ?_, ?_, .inl rfl, ?_, ?_⟩
  · intro name known
    rcases source.found name _ known with ⟨-, member⟩ | ⟨different, -⟩
    · exact copied.inputs name member
    · cases different
  · intro name v known
    obtain ⟨rfl, member⟩ := source.symbolic name v known
    exact copied.symbolic name member
  · exact fun name v found => .inl (copied.found name v found)
  · simp [names]
  · exact ⟨[], copied.instrs, by simp⟩
  · simp [copied.instrs]

end

/-! ## What the target needs -/

/-- The instructions of the source that the target reads, by itself or in what it does not
assign. -/
inductive Needed (src : State) (code : Code) : String → Prop where
  | read {name : String} (reads : name ∈ code.reads) : Needed src code name
  | operand {user used : String} (needed : Needed src code user) (free : user ∉ code.defined)
    (uses : Uses src user used) : Needed src code used

def Swept (src : State) (code : Code) (name : String) : Prop :=
  name ∈ src.names ∧ name ∉ code.defined ∧ ¬Needed src code name

section

variable {src st st' : State} {code : Code} {tail : List Instr} {fuel : Nat} {name : String}

theorem Fresh.needed {defined : List String} (target : Target src defined tail st)
    (target' : Target src defined tail st') (grows : Extends st st') (assigned : ∀ k ∈ code.defined,
      st'.find (.reg k) = none ∨ (st.find (.reg k)).isSome = true)
    (fresh : Fresh src (· ∈ code.reads) st st' name) :
    Needed src code name ∧ name ∉ code.defined := by
  have free : ∀ k, k ∉ st.names → k ∈ st'.names → k ∉ code.defined := by
    intro k absent added given
    have instr := target'.listed k added
    rcases assigned k given with none_ | known
    · rw [none_] at instr
      cases instr
    · obtain ⟨v, known⟩ := Option.isSome_iff_exists.1 known
      rcases target.found k v known with ⟨rfl, -⟩ | ⟨-, member⟩
      · rw [grows.find _ _ known] at instr
        cases instr
      · exact absent member
  induction fresh with
  | root reads absent added => exact ⟨.read reads, free _ absent added⟩
  | operand _ uses absent added ih =>
    exact ⟨.operand ih.1 ih.2 uses, free _ absent added⟩

def Explained (src : State) (code : Code) (st : State) : Prop :=
  ∀ name ∈ st.names, name ∈ code.defined ∨ Needed src code name

theorem Explained.grow {defined : List String} (explained : Explained src code st)
    (target : Target src defined tail st) (target' : Target src defined tail st')
    (grows : Grows src (· ∈ code.reads) st st') (assigned : ∀ k ∈ code.defined,
      st'.find (.reg k) = none ∨ (st.find (.reg k)).isSome = true) :
    Explained src code st' := by
  intro name member
  by_cases before : name ∈ st.names
  · exact explained name before
  · exact .inr ((grows.fresh name member before).needed target target' grows.grows assigned).1

theorem explained_stmts (source : Source src) {stmts : List Stmt} (within : stmts ⊆ code.stmts)
    (target : Target src code.defined [] st) (explained : Explained src code st)
    (assigned : ∀ k ∈ code.defined,
      k ∈ stmts.filterMap Stmt.name ∨ (st.find (.reg k)).isSome = true)
    (parsed : stmts.foldlM (parseStmt (getOrCopyInstr src fuel)) st = .ok st') :
    Explained src code st' ∧ ∀ k ∈ code.defined, (st'.find (.reg k)).isSome = true := by
  have keeps := targetKeeps source code fuel
  induction stmts generalizing st with
  | nil =>
    cases parsed
    refine ⟨explained, ?_⟩
    intro k given
    rcases assigned k given with later | known
    · cases later
    · exact known
  | cons s rest ih =>
    rw [List.cons_subset] at within
    obtain ⟨st₂, first, others⟩ := Lib.foldlM_cons_eq_ok.1 parsed
    obtain ⟨st₁, one⟩ := keeps.stmt within.1 target first
    have tail := keeps.stmts within.2 one.good others
    have later : ∀ k ∈ rest.filterMap Stmt.name, st₁.find (.reg k) = none :=
      fun k inside => one.grows.absent (tail.assigned k inside).1
    have explained₁ : Explained src code st₁ := by
      refine explained.grow target one.good₁ one.grows₁ ?_
      intro k given
      rcases assigned k given with inside | known
      · left
        rcases List.mem_filterMap.1 inside with ⟨t, member, named⟩
        rcases List.mem_cons.1 member with rfl | member
        · exact (one.assigned k named).1
        · exact later k (List.mem_filterMap.2 ⟨t, member, named⟩)
      · exact .inr known
    have explained₂ : Explained src code st₂ := by
      intro name member
      rw [one.names, List.mem_append, Option.mem_toList] at member
      rcases member with member | named
      · exact explained₁ name member
      · exact .inl (List.mem_filterMap.2 ⟨s, within.1, named⟩)
    refine ih within.2 one.good explained₂ ?_ others
    intro k given
    rcases assigned k given with inside | known
    · rcases List.mem_filterMap.1 inside with ⟨t, member, named⟩
      rcases List.mem_cons.1 member with rfl | member
      · right
        rw [(one.assigned k named).2]
        rfl
      · exact .inl (List.mem_filterMap.2 ⟨t, member, named⟩)
    · exact .inr (one.grows.isSome (one.grows₁.grows.isSome known))

theorem explained_fn
    (source : Source src) (target : Target src code.defined [] st) (empty : st.names = [])
    (parsed : parseFn (getOrCopyInstr src fuel) code st = .ok st') : Explained src code st' := by
  have keeps := targetKeeps source code fuel
  rw [parseFn] at parsed
  obtain ⟨st₀, stmts, parsed⟩ := bind_eq_ok.1 parsed
  have body := keeps.stmts (List.Subset.refl _) target stmts
  have start : Explained src code st := by simp [Explained, empty]
  obtain ⟨explained, known⟩ := explained_stmts source (List.Subset.refl _) target start
    (fun k given => .inl given) stmts
  have ret : ∀ (st₁ : State) (i : Instr), i.name = none → Explained src code st₁ →
      Explained src code (st₁.addInstr i) := by
    intro st₁ i unnamed explained name member
    rw [State.names_addInstr, unnamed] at member
    exact explained name (by simpa using member)
  split at parsed
  · next t written =>
    obtain ⟨⟨v, st₁⟩, operand, done⟩ := bind_eq_ok.1 parsed
    cases done
    have within : t.registers ⊆ code.reads := by
      intro name inside
      exact List.mem_append_right _ (by simpa [written, registersAll] using inside)
    obtain ⟨target₁, grows, -, -⟩ := keeps.operands.operand t st₀ v st₁ within body.good operand
    exact ret st₁ _ rfl (explained.grow body.good target₁ grows fun k given => .inr (known k given))
  · split at parsed
    · cases parsed
    · cases parsed
      exact ret st₀ _ rfl explained

end

/-! ## The state before the sweep -/

theorem unique_of_name {instrs : List Instr} {i i' : Instr} {name : String}
    (nodup : (instrs.filterMap Instr.name).Nodup) (member : i ∈ instrs) (named : i.name = some name)
    (member' : i' ∈ instrs) (named' : i'.name = some name) : i = i' := by
  induction instrs with
  | nil => cases member
  | cons head rest ih =>
    have fresh : ∀ k ∈ rest, head.name = some name → k.name ≠ some name := by
      intro k inside first same
      rw [List.filterMap_cons, first] at nodup
      exact (List.nodup_cons.1 nodup).1 (List.mem_filterMap.2 ⟨k, inside, same⟩)
    rcases List.mem_cons.1 member with rfl | inside
    · rcases List.mem_cons.1 member' with rfl | inside'
      · rfl
      · exact absurd named' (fresh i' inside' named)
    · rcases List.mem_cons.1 member' with rfl | inside'
      · exact absurd named (fresh i inside named')
      · refine ih (nodup.sublist ?_) inside inside'
        exact (List.sublist_cons_self head rest).filterMap _

/-- The target when its text has been read. -/
structure Given (src : State) (code : Code) (st : State) : Prop where
  target : ∃ ret : Instr, ret.isReturn = true ∧ Target src code.defined [ret] st
  explained : Explained src code st
  needed : ∀ name ∈ src.names, Needed src code name → name ∈ st.names
  assigned : ∀ name ∈ code.defined, name ∈ st.names

section

variable {p : Program} {src st st' : State} {code : Code} {defined : List String}
  {tail : List Instr} {fuel : Nat} {name : String}

theorem Target.used_mem (target : Target src defined tail st) (source : Source src)
    {user used : String} (member : user ∈ st.names) (free : user ∉ defined)
    (uses : Uses src user used) : [used, user].Sublist st.names := by
  obtain ⟨j, inside, named⟩ := State.mem_names.1 member
  obtain ⟨i, origin, copy, before⟩ := target.copied j inside user named free
  obtain ⟨i', origin', named', operand⟩ := uses
  have same : i = i' :=
    unique_of_name source.nodup origin (copy.name.symm.trans named) origin' named'
  exact before used (same ▸ operand)

theorem parseTarget_given
    (source : Source src) (parsed : parseTarget p src = .ok st) : Given src p.tgt st := by
  have start := copyInputs_target source p.tgt.defined
  have empty : (copyInputs src).names = [] := by
    rw [State.names, (copyInputs_copied source).instrs, List.filterMap_nil]
  have explained := explained_fn source start empty parsed
  obtain ⟨st₁, ret, fn, rfl⟩ := (targetKeeps source p.tgt (copyFuel src)).fn start parsed
  have names : (st₁.addInstr ret).names = st₁.names := by
    rw [State.names_addInstr, fn.unnamed]
    exact List.append_nil _
  have target := fn.good.addUnnamed fn.unnamed
  rw [if_pos fn.isReturn] at target
  refine ⟨⟨ret, fn.isReturn, target⟩, explained, ?_, ?_⟩
  · intro name instr needed
    induction needed with
    | read reads => exact names ▸ (fn.good.name_mem source instr (fn.reads _ reads)).1
    | operand _ free uses ih =>
      have user := ih ((uses.before source).subset (by simp))
      exact (target.used_mem source user free uses).subset (by simp)
  · intro name given
    rcases fn.good.found name _ (fn.assigned name given).2 with ⟨different, -⟩ | ⟨-, member⟩
    · cases different
    · exact names ▸ member

theorem sweepStep_rule (source : Source src) {id : Ident} (target : Target src defined tail st)
    (done : sweepStep src st id = .ok st') :
    Target src defined tail st' ∧ Extends st st' ∧ (st'.find id).isSome = true := by
  cases id with
  | reg name =>
    obtain ⟨⟨v, st₁⟩, copied, result⟩ := bind_eq_ok.1 done
    cases result
    obtain ⟨target', grows, known⟩ :=
      getOrCopyInstr_rule source (copyFuel src) name st v st' target copied
    exact ⟨target', grows.grows, known ▸ rfl⟩
  | const name =>
    rw [sweepStep] at done
    split at done
    · next known =>
      cases done
      exact ⟨target, .refl _, known⟩
    · cases done

theorem sweep_rule (source : Source src) {order : List Ident}
    (target : Target src defined tail st) (done : order.foldlM (sweepStep src) st = .ok st') :
    Target src defined tail st' ∧ Extends st st' ∧ ∀ id ∈ order, (st'.find id).isSome = true := by
  induction order generalizing st with
  | nil =>
    cases done
    exact ⟨target, .refl _, by simp⟩
  | cons id rest ih =>
    obtain ⟨st₁, first, others⟩ := Lib.foldlM_cons_eq_ok.1 done
    obtain ⟨target₁, grows₁, known⟩ := sweepStep_rule source target first
    obtain ⟨target', grows, found⟩ := ih target₁ others
    refine ⟨target', grows₁.trans grows, ?_⟩
    rw [List.forall_mem_cons]
    exact ⟨grows.isSome known, found⟩

/-! ## Which instructions can be copied -/

theorem exists_related {α β : Type} {related : α → β → Prop} {xs : List α} {ys : List β} {x : α}
    (all : List.Forall₂ related xs ys) (member : x ∈ xs) : ∃ y, related x y := by
  induction all with
  | nil => cases member
  | cons first _ ih =>
    rcases List.mem_cons.1 member with rfl | member
    · exact ⟨_, first⟩
    · exact ih member

/-- An operand that `get_or_copy_instr` handles. -/
def Copyable (src : State) : Value → Prop
  | .input .src _ | .instr .src _ => True
  | .constant .src k => ∃ l : Literal, src.constants[k]? = some (.literal l)
  | _ => False

theorem Counterpart.copyable
    {v v' : Value} (counterpart : Counterpart src st v v') : Copyable src v := by
  match v, counterpart with
  | .input .src name, _ => trivial
  | .instr .src name, _ => trivial
  | .constant .src k, ⟨l, _, known, _, _⟩ => exact ⟨l, known⟩

def AllCopyable (src : State) (defined : List String) : Prop :=
  ∀ i ∈ src.instrs, ∀ name, i.name = some name → name ∉ defined → ∀ op ∈ i.operands, Copyable src op

theorem Target.allCopyable (target : Target src defined tail st) (source : Source src)
    (all : ∀ name ∈ src.names, name ∈ st.names) : AllCopyable src defined := by
  intro i member name named free op inside
  have present := all name (State.mem_names.2 ⟨i, member, named⟩)
  obtain ⟨j, inside', named'⟩ := State.mem_names.1 present
  obtain ⟨i', member', copy, -⟩ := target.copied j inside' name named' free
  have same := unique_of_name source.nodup member' (copy.name.symm.trans named') member named
  rw [← same] at inside
  obtain ⟨v, counterpart⟩ := exists_related copy.operands inside
  exact counterpart.copyable

end

section

variable {src st st' : State} {defined : List String} {tail : List Instr} {fuel : Nat}
  {name : String}

/-- Calls for instructions before `name` come back with a value. -/
def CallsReturn (src : State) (defined : List String) (tail : List Instr) (name : String)
    (call : String → State → Except Failure (Value × State)) : Prop :=
  ∀ used st, [used, name].Sublist src.names → Target src defined tail st → defined ⊆ st.names →
    ∃ r, call used st = .ok r

theorem copyOperands_return
    (source : Source src) {call : String → State → Except Failure (Value × State)}
    (rule : CallRule src defined tail call) (returns : CallsReturn src defined tail name call)
    {rest : List Value} {j : Instr} (target : Target src defined tail st)
    (assigned : defined ⊆ st.names) (operands : ∀ op ∈ rest, SrcOperand src name op ∧
      ∀ used, op = .instr .src used → Uses src name used)
    (copyable : ∀ op ∈ rest, Copyable src op) :
    ∃ r, rest.foldlM (copyOperand src call) (j, st) = .ok r := by
  induction rest generalizing st j with
  | nil => exact ⟨_, rfl⟩
  | cons op rest ih =>
    rw [List.forall_mem_cons] at operands copyable
    have first : ∃ r, copyOperand src call (j, st) op = .ok r := by
      match op, copyable.1, operands.1.1 with
      | .input .src other, _, known =>
        rw [copyOperand, target.inputs other known]
        exact ⟨_, rfl⟩
      | .constant .src k, ⟨l, known⟩, _ =>
        rw [copyOperand, known]
        exact ⟨_, rfl⟩
      | .instr .src used, _, before =>
        obtain ⟨⟨v, st₁⟩, called⟩ := returns used st before target assigned
        rw [copyOperand, called]
        exact ⟨_, rfl⟩
    obtain ⟨⟨j₁, st₁⟩, first⟩ := first
    have turn := copyOperand_turn source rule target operands.1.2 operands.1.1 first
    obtain ⟨r, others⟩ := ih (j := j₁) turn.target
      (List.Subset.trans assigned turn.grows.grows.names.subset) operands.2 copyable.2
    exact ⟨r, Lib.foldlM_cons_eq_ok.2 ⟨_, first, others⟩⟩

variable (source : Source src) (copyable : AllCopyable src defined)

include source copyable

theorem getOrCopyInstr_returns (instr : name ∈ src.names)
    (target : Target src defined tail st) (assigned : defined ⊆ st.names)
    (enough : src.names.idxOf name < fuel) : ∃ r, getOrCopyInstr src fuel name st = .ok r := by
  induction fuel generalizing name st with
  | zero => omega
  | succ fuel ih =>
    rw [getOrCopyInstr]
    cases known : st.find (.reg name) with
    | some v => exact ⟨_, rfl⟩
    | none =>
      rw [source.listed name instr]
      obtain ⟨i, member, named⟩ := State.mem_names.1 instr
      obtain ⟨i', chosen⟩ : ∃ i', src.instrs.find? (·.name = some name) = some i' := by
        rw [← Option.isSome_iff_exists, List.find?_isSome]
        exact ⟨i, member, by simpa using named⟩
      have named' : i'.name = some name := by simpa using List.find?_some chosen
      have member' := List.mem_of_find?_eq_some chosen
      have free : name ∉ defined := by
        intro given
        rw [target.listed name (assigned given)] at known
        cases known
      have returns : CallsReturn src defined tail name (getOrCopyInstr src fuel) := by
        intro used st before target assigned
        have earlier := idxOf_lt source.nodup before
        exact ih (before.subset (by simp)) target assigned (by omega)
      obtain ⟨⟨j, st₁⟩, loop⟩ := copyOperands_return source (getOrCopyInstr_rule source fuel)
        returns (j := i') target assigned (fun op inside =>
          ⟨source.operands i' member' name named' op inside, fun used same =>
            ⟨i', member', named', same ▸ inside⟩⟩)
        (fun op inside => copyable i' member' name named' free op inside)
      rw [chosen]
      dsimp only
      rw [loop]
      exact ⟨_, rfl⟩

theorem sweepStep_returns (target : Target src defined tail st) (assigned : defined ⊆ st.names)
    {id : Ident} (known : (src.find id).isSome = true) : ∃ st', sweepStep src st id = .ok st' := by
  obtain ⟨v, known⟩ := Option.isSome_iff_exists.1 known
  cases id with
  | reg name =>
    have call : ∃ r, getOrCopyInstr src (copyFuel src) name st = .ok r := by
      rcases source.found name v known with ⟨rfl, -⟩ | ⟨-, instr⟩
      · rw [copyFuel, getOrCopyInstr, target.inputs name known]
        exact ⟨_, rfl⟩
      · have bound : src.names.idxOf name < copyFuel src := by
          have inside := List.idxOf_lt_length_of_mem instr
          have length : src.names.length ≤ src.instrs.length := List.length_filterMap_le _ _
          rw [copyFuel]
          omega
        exact getOrCopyInstr_returns source copyable instr target assigned bound
    obtain ⟨⟨v', st₁⟩, call⟩ := call
    rw [sweepStep, call]
    exact ⟨_, rfl⟩
  | const name =>
    rw [sweepStep, if_pos (target.symbolic name v known)]
    exact ⟨_, rfl⟩

theorem sweep_returns {order : List Ident} (target : Target src defined tail st)
    (assigned : defined ⊆ st.names) (known : ∀ id ∈ order, (src.find id).isSome = true) :
    ∃ st', order.foldlM (sweepStep src) st = .ok st' := by
  induction order generalizing st with
  | nil => exact ⟨_, rfl⟩
  | cons id rest ih =>
    rw [List.forall_mem_cons] at known
    obtain ⟨st₁, first⟩ := sweepStep_returns source copyable target assigned known.1
    obtain ⟨target₁, grows, -⟩ := sweepStep_rule source target first
    obtain ⟨st', others⟩ :=
      ih target₁ (List.Subset.trans assigned grows.names.subset) known.2
    exact ⟨st', Lib.foldlM_cons_eq_ok.2 ⟨st₁, first, others⟩⟩

end

end AliveNext.Tools.CopyInstr
