import AliveNext.LLVM.Simulation

/-!
# Emitting code for an expression

`llvm::IRBuilder` emits the instructions of a nested expression one by one,
operands first.  An expression is a tree here and emission is its compilation.
The contract of the compiled code has three parts: it defines only new
registers, it reaches exactly the outcomes of the expression, and it leaves
every older register alone.
-/

namespace AliveNext.LLVM

open AliveNext.Lib

universe u

/-! ## Symbol tables -/

/-- `llvm::ValueSymbolTable`: the names in use and the last suffix tried. -/
structure SymbolTable where
  names : List Name
  lastUnique : Nat

namespace SymbolTable

/-- `makeUniqueName`: append the next number until the name is free.  One of
`names.length + 1` numbers is. -/
def makeUniqueName (base : Name) : Nat → SymbolTable → Name × SymbolTable
  | 0, table => (base, table)
  | fuel + 1, table =>
    let next := table.lastUnique + 1
    let candidate := base ++ (Nat.toDigits 10 next).map fun c => Fin.ofNat 256 c.toNat
    if candidate ∈ table.names then
      makeUniqueName base fuel { table with lastUnique := next }
    else (candidate, ⟨candidate :: table.names, next⟩)

/-- `reinsertValue`: a name that is taken receives a numeric suffix; the empty
name is not entered. -/
def insert (table : SymbolTable) (name : Name) : Name × SymbolTable :=
  if name.isEmpty then (name, table)
  else if name ∈ table.names then
    table.makeUniqueName name (table.names.length + 1)
  else (name, { table with names := name :: table.names })

end SymbolTable

/-! ## Instructions always have an outcome -/

variable {w : Nat} {r : Reg}

theorem frozen_nonempty (content : Content w) : (frozen content).Nonempty := by
  obtain ⟨sample, member⟩ := content.nonempty
  cases sample with
  | none => exact ⟨_, 0#w, Or.inr member, rfl⟩
  | some x => exact ⟨_, x, Or.inl member, rfl⟩

theorem collect_nonempty {evaluations : Set (Evaluated w)}
    (nonempty : evaluations.Nonempty) : (collect evaluations).Nonempty := by
  by_cases undefined : none ∈ evaluations
  · exact ⟨none, Or.inl ⟨undefined, rfl⟩⟩
  · obtain ⟨content, single⟩ := collect_eq_pure undefined nonempty
    rw [single]
    exact Set.singleton_nonempty _

theorem Rhs.outcomes_nonempty {R : Type u} (env : Env R)
    (rhs : Rhs R w) : (rhs.outcomes env).Nonempty := by
  have read : ∀ {v : Nat} (operand : Operand R v), ∃ x, x ∈ (operand.content env).samples :=
    fun operand => (operand.content env).nonempty
  cases rhs with
  | freeze a => exact frozen_nonempty _
  | binop op a b | icmp pred a b | withOverflow op a b =>
    obtain ⟨x, first⟩ := read a
    obtain ⟨y, second⟩ := read b
    exact collect_nonempty ⟨_, x, first, y, second, rfl⟩
  | select cond a b =>
    obtain ⟨c, third⟩ := read cond
    obtain ⟨x, first⟩ := read a
    obtain ⟨y, second⟩ := read b
    exact collect_nonempty ⟨_, c, third, x, first, y, second, rfl⟩
  | zext widens nneg a | sext widens a | trunc narrows nuw nsw a =>
    obtain ⟨x, first⟩ := read a
    exact collect_nonempty ⟨_, x, first, rfl⟩

/-! ## Expressions -/

/-- The two-operand operations an expression is built from. -/
inductive BinNode : Nat → Nat → Type where
  | binop {w : Nat} (op : BinOp) : BinNode w w
  | icmp {v : Nat} (pred : Pred) : BinNode v 1
  | withOverflow {v : Nat} (op : OverflowOp) : BinNode v 1

/-- A nested expression.  Every inner node carries the name its instruction
asks for. -/
inductive Term (R : Type u) : Nat → Type u where
  | leaf {w : Nat} (operand : Operand R w) : Term R w
  | freeze {w : Nat} (name : Name) (a : Term R w) : Term R w
  | node {v w : Nat} (name : Name) (op : BinNode v w) (a b : Term R v) : Term R w

namespace BinNode

variable {v w : Nat}

def rhs {R : Type u} : {v w : Nat} → BinNode v w → Operand R v → Operand R v → Rhs R w
  | _, _, .binop op, a, b => .binop op a b
  | _, _, .icmp pred, a, b => .icmp pred a b
  | _, _, .withOverflow op, a, b => .withOverflow op a b

def apply : {v w : Nat} → BinNode v w → Content v → Content v → Outcomes (Content w)
  | _, _, .binop op, x, y =>
    collect {result | ∃ p ∈ x.samples, ∃ q ∈ y.samples, result = op.lane p q}
  | _, _, .icmp pred, x, y =>
    collect {result | ∃ p ∈ x.samples, ∃ q ∈ y.samples, result = strict₂
        (fun p q => some (BitVec.ofBool (pred.eval p q))) p q}
  | _, _, .withOverflow op, x, y =>
    collect {result | ∃ p ∈ x.samples, ∃ q ∈ y.samples, result = strict₂
        (fun p q => some (BitVec.ofBool (op.overflows p q))) p q}

theorem outcomes_rhs {R : Type u} (node : BinNode v w) (a b : Operand R v) (env : Env R) :
    (node.rhs a b).outcomes env = node.apply (a.content env) (b.content env) := by
  cases node <;> rfl

theorem apply_binop_single {op : BinOp} {x y result : Sample w}
    (evaluated : op.lane x y = some result) :
    (BinNode.binop op).apply (.single x) (.single y) = Outcomes.pure (.single result) := by
  refine (congrArg collect ?_).trans (collect_singleton result)
  ext outcome
  simp [evaluated]

theorem apply_icmp_single (pred : Pred) (x y : BitVec v) :
    (BinNode.icmp pred).apply (.single (some x)) (.single (some y)) =
      Outcomes.pure (.single (some (BitVec.ofBool (pred.eval x y)))) := by
  refine (congrArg collect ?_).trans (collect_singleton _)
  ext outcome
  simp [strict₂]

theorem apply_withOverflow_single (op : OverflowOp) (x y : BitVec v) :
    (BinNode.withOverflow op).apply (.single (some x)) (.single (some y)) =
      Outcomes.pure (.single (some (BitVec.ofBool (op.overflows x y)))) := by
  refine (congrArg collect ?_).trans (collect_singleton _)
  ext outcome
  simp [strict₂]

private def pair (x y : Content v) : Env Bool := fun width first =>
  if same : v = width then same ▸ (if first then x else y) else .single none

private theorem pair_self (x y : Content v) (first : Bool) :
    pair x y v first = if first then x else y := by
  simp [pair]

theorem apply_eq_outcomes (node : BinNode v w) (x y : Content v) : node.apply x y =
      (node.rhs (.reg true) (.reg false)).outcomes (pair x y) := by
  rw [outcomes_rhs]
  simp [Operand.content, pair_self]

theorem apply_mono (node : BinNode v w) {x x' y y' : Content v}
    (first : x.Refines x') (second : y.Refines y') :
    Outcomes.Refines Content.Refines (node.apply x y) (node.apply x' y') := by
  rw [apply_eq_outcomes, apply_eq_outcomes]
  refine Rhs.outcomes_mono fun use used => ?_
  have width : use.1 = v := by
    cases node <;>
      simp_all [rhs, Rhs.regs, Rhs.operands, Operand.regs] <;>
      rcases used with rfl | rfl <;> rfl
  obtain ⟨width', r⟩ := use
  subst width
  rw [pair_self, pair_self]
  cases r with
  | true => exact first
  | false => exact second

end BinNode

namespace Term

variable {R : Type u} {w : Nat}

def regs : {w : Nat} → Term R w → List (Nat × R)
  | _, .leaf operand => operand.regs
  | _, .freeze _ a => a.regs
  | _, .node _ _ a b => a.regs ++ b.regs

/-- The meaning of an expression. -/
def outcomes (env : Env R) : {w : Nat} → Term R w → Outcomes (Content w)
  | _, .leaf operand => Outcomes.pure (operand.content env)
  | _, .freeze _ a => (a.outcomes env).bind frozen
  | _, .node _ op a b =>
    (a.outcomes env).bind fun x =>
      (b.outcomes env).bind fun y => op.apply x y

theorem outcomes_congr {env env' : Env R} {term : Term R w}
    (agree : ∀ use ∈ term.regs, env use.1 use.2 = env' use.1 use.2) :
    term.outcomes env = term.outcomes env' := by
  induction term with
  | leaf operand => rw [outcomes, outcomes, Operand.content_congr agree]
  | freeze name a ih =>
    rw [outcomes, outcomes, ih agree]
  | node name op a b first second =>
    rw [outcomes, outcomes,
      first fun use used => agree use (List.mem_append_left _ used),
      second fun use used => agree use (List.mem_append_right _ used)]

theorem outcomes_node {env : Env R} {v : Nat} {a b : Term R v} {x y : Content v}
    (first : a.outcomes env = Outcomes.pure x) (second : b.outcomes env = Outcomes.pure y)
    (name : Name) (op : BinNode v w) : (Term.node name op a b).outcomes env = op.apply x y := by
  rw [outcomes, first, Outcomes.pure_bind, second, Outcomes.pure_bind]

theorem outcomes_nonempty (env : Env R) (term : Term R w) : (term.outcomes env).Nonempty := by
  induction term with
  | leaf operand => exact ⟨_, rfl⟩
  | freeze name a ih =>
    refine Outcomes.bind_nonempty ih fun x _ => ?_
    exact frozen_nonempty x
  | node name op a b first second =>
    refine Outcomes.bind_nonempty first fun x _ =>
      Outcomes.bind_nonempty second fun y _ => ?_
    rw [BinNode.apply_eq_outcomes]
    exact Rhs.outcomes_nonempty _ _

/-- Two expressions of one shape, with related leaves. -/
inductive Shape {S : Type u} (P : (w : Nat) → Operand R w → Operand S w → Prop) :
    {w : Nat} → Term R w → Term S w → Prop
  | leaf {w : Nat} {a : Operand R w} {a' : Operand S w} : P w a a' → Shape P (.leaf a) (.leaf a')
  | freeze {w : Nat} {a : Term R w} {a' : Term S w} (name : Name) :
      Shape P a a' → Shape P (.freeze name a) (.freeze name a')
  | node {v w : Nat} {a b : Term R v} {a' b' : Term S v} (name : Name) (op : BinNode v w) :
      Shape P a a' → Shape P b b' → Shape P (.node name op a b) (.node name op a' b')

namespace Shape

variable {S : Type u} {P : (w : Nat) → Operand R w → Operand S w → Prop}
  {term : Term R w} {term' : Term S w}

theorem outcomes_refines (related : Shape P term term') {env : Env R} {env' : Env S}
    (leaves : ∀ w a a', P w a a' → (a.content env).Refines (a'.content env')) :
    Outcomes.Refines Content.Refines (term.outcomes env) (term'.outcomes env') := by
  induction related with
  | leaf held => exact Outcomes.Refines.pure_iff.mpr (leaves _ _ _ held)
  | freeze name _ ih =>
    exact ih.bind fun _ _ _ _ refined =>
      frozen_mono refined
  | node name op _ _ first second =>
    exact first.bind fun _ _ _ _ refined =>
      second.bind fun _ _ _ _ refined' => op.apply_mono refined refined'

theorem regs_left (related : Shape P term term') {use : Nat × R} (used : use ∈ term.regs) :
    ∃ w a a', P w a a' ∧ use ∈ a.regs := by
  induction related with
  | leaf held => exact ⟨_, _, _, held, used⟩
  | freeze name _ ih => exact ih used
  | node name op _ _ first second =>
    rcases List.mem_append.mp used with used | used
    · exact first used
    · exact second used

end Shape

def AlwaysTrue (outcomes : Outcomes (Content 1)) : Prop :=
  ∀ outcome ∈ outcomes, outcome = some (.single (some 1#1))

theorem AlwaysTrue.of_refines {target source : Outcomes (Content 1)}
    (refined : Outcomes.Refines Content.Refines target source) (holds : AlwaysTrue source) :
    AlwaysTrue target := by
  intro outcome member
  rcases refined with undefined | refined
  · cases holds none undefined
  · obtain ⟨result, rfl, allowed, reached, refined⟩ := refined outcome member
    cases holds (some allowed) reached
    rw [refined.eq_of_wellDefined ⟨1#1, rfl⟩]

theorem eq_single {content : Content w} {sample : Sample w}
    (all : ∀ other ∈ content.samples, other = sample) : content = .single sample := by
  obtain ⟨other, member⟩ := content.nonempty
  ext x
  constructor
  · exact all x
  · rintro rfl
    exact all other member ▸ member

theorem AlwaysTrue.evaluated {evaluations : Set (Evaluated 1)}
    (holds : AlwaysTrue (collect evaluations)) :
    ∀ evaluated ∈ evaluations, evaluated = some (some 1#1) := by
  intro evaluated member
  have defined : none ∉ evaluations := fun undefined => by
    cases holds none (Or.inl ⟨undefined, rfl⟩)
  obtain ⟨content, single⟩ := collect_eq_pure defined ⟨evaluated, member⟩
  have result : some content ∈ collect evaluations := by rw [single]; rfl
  rcases result with ⟨undefined, -⟩ | ⟨-, content', same, samples⟩
  · exact absurd undefined defined
  · cases same
    cases holds (some content) (by rw [single]; rfl)
    cases evaluated with
    | none => exact absurd member defined
    | some sample =>
      have reached : sample ∈ (Content.single (some 1#1)).samples := by
        rw [samples]
        exact member
      rw [Set.mem_singleton_iff.mp reached]

private theorem and_lane_true {p q : Sample 1} (evaluated : BinOp.and.lane p q = some (some 1#1)) :
    p = some 1#1 ∧ q = some 1#1 := by
  cases q with
  | none => cases p <;> simp [BinOp.lane, BinOp.isDivision] at evaluated
  | some y =>
    cases p with
    | none => simp [BinOp.lane, BinOp.badDivisor] at evaluated
    | some x =>
      have both : x &&& y = 1#1 := by
        simpa [BinOp.lane, BinOp.eval, BinOp.guarded] using evaluated
      revert x y
      decide

private theorem apply_and_true {x y : Content 1}
    (holds : AlwaysTrue ((BinNode.binop .and).apply x y)) :
    x = .single (some 1#1) ∧ y = .single (some 1#1) := by
  have lanes : ∀ p ∈ x.samples, ∀ q ∈ y.samples,
      BinOp.and.lane p q = some (some 1#1) := fun p first q second =>
    AlwaysTrue.evaluated holds _ ⟨p, first, q, second, rfl⟩
  obtain ⟨p, first⟩ := x.nonempty
  obtain ⟨q, second⟩ := y.nonempty
  exact ⟨eq_single fun other member =>
      (and_lane_true (lanes other member q second)).1,
    eq_single fun other member =>
      (and_lane_true (lanes p first other member)).2⟩

theorem AlwaysTrue.and {env : Env R} {name : Name} {a b : Term R 1}
    (holds : AlwaysTrue ((Term.node name (.binop .and) a b).outcomes env)) :
    AlwaysTrue (a.outcomes env) ∧ AlwaysTrue (b.outcomes env) := by
  have defined : none ∉ a.outcomes env := fun undefined => by
    cases holds none (Outcomes.none_mem_bind_of_first undefined)
  have second : ∀ x, some x ∈ a.outcomes env → ∀ outcome ∈ b.outcomes env, ∃ y, outcome = some y ∧
        x = .single (some 1#1) ∧ y = .single (some 1#1) := by
    intro x reached outcome member
    cases outcome with
    | none =>
      cases holds none (Outcomes.mem_bind_of_result reached
        (Outcomes.none_mem_bind_of_first member))
    | some y =>
      refine ⟨y, rfl, apply_and_true fun outcome applied => ?_⟩
      exact holds outcome (Outcomes.mem_bind_of_result reached
        (Outcomes.mem_bind_of_result member applied))
  constructor
  · intro outcome member
    cases outcome with
    | none => exact absurd member defined
    | some x =>
      obtain ⟨other, otherMember⟩ := b.outcomes_nonempty env
      obtain ⟨y, -, rfl, -⟩ := second x member other otherMember
      rfl
  · intro outcome member
    obtain ⟨first, firstMember⟩ := a.outcomes_nonempty env
    cases first with
    | none => exact absurd firstMember defined
    | some x =>
      obtain ⟨y, rfl, -, rfl⟩ := second x firstMember outcome member
      rfl

end Term

/-! ## Emission -/

/-- What fresh registers and names are drawn from. -/
structure Supply where
  nextId : Nat
  table : SymbolTable

structure Emitted (w : Nat) where
  insts : List Instruction
  result : Operand Reg w
  supply : Supply

/-- `IRBuilder::Insert` of a computation. -/
def Supply.emit (supply : Supply) (name : Name) {w : Nat} (rhs : Rhs Reg w) : Emitted w :=
  let (unique, table) := supply.table.insert name
  { insts := [⟨supply.nextId, unique, .value rhs, []⟩]
    result := .reg (.inst supply.nextId)
    supply := ⟨supply.nextId + 1, table⟩ }

/-- A call to `llvm.assume`. -/
def Supply.emitAssume (supply : Supply) (cond : Operand Reg 1) : Instruction × Supply :=
  (⟨supply.nextId, [], .assume cond, []⟩, { supply with nextId := supply.nextId + 1 })

def Term.emit : {w : Nat} → Term Reg w → Supply → Emitted w
  | _, .leaf operand, supply => ⟨[], operand, supply⟩
  | _, .freeze name a, supply =>
    let first := a.emit supply
    let last := first.supply.emit name (.freeze first.result)
    ⟨first.insts ++ last.insts, last.result, last.supply⟩
  | _, .node name op a b, supply =>
    let first := a.emit supply
    let second := b.emit first.supply
    let last := second.supply.emit name (op.rhs first.result second.result)
    ⟨first.insts ++ second.insts ++ last.insts, last.result, last.supply⟩

/-- The register is older than `bound`. -/
def Reg.Older (bound : Nat) : Reg → Prop
  | .arg _ => True
  | .inst id => id < bound

theorem Reg.Older.mono {bound bound' : Nat} (older : r.Older bound)
    (grows : bound ≤ bound') : r.Older bound' := by
  cases r with
  | arg index => trivial
  | inst id => exact Nat.lt_of_lt_of_le older grows

/-- What emitted code guarantees. -/
structure CodeSpec {α : Type} (insts : List Instruction) (start stop : Nat)
    (read : Env Reg → α) (meaning : Env Reg → Outcomes α) : Prop where
  grows : start ≤ stop
  fresh : ∀ inst ∈ insts, start ≤ inst.id ∧ inst.id < stop
  sound : ∀ {env env' : Env Reg}, some env' ∈ runs insts env → some (read env') ∈ meaning env
  complete : ∀ {env : Env Reg} {result : α}, some result ∈ meaning env →
    ∃ env', some env' ∈ runs insts env ∧ read env' = result
  undefined : ∀ {env : Env Reg}, none ∈ runs insts env ↔ none ∈ meaning env

theorem runs_older {insts : List Instruction} {start : Nat} {env env' : Env Reg}
    (fresh : ∀ inst ∈ insts, start ≤ inst.id) (reached : some env' ∈ runs insts env)
    (older : r.Older start) : env' w r = env w r := by
  refine runs_frame reached fun defined => ?_
  obtain ⟨inst, member, -, rfl⟩ := mem_bodyScope.mp defined
  exact absurd (fresh inst member) (Nat.not_le.mpr older)

theorem runs_singleton (inst : Instruction) (env : Env Reg) : runs [inst] env = inst.step env :=
  Outcomes.bind_pure (inst.step env)

namespace CodeSpec

variable {α β : Type} {insts insts' : List Instruction}
  {start middle stop : Nat} {read : Env Reg → α} {read' : Env Reg → β}
  {meaning : Env Reg → Outcomes α} {meaning' : Env Reg → Outcomes β}

variable {w : Nat} {rhs : Rhs Reg w} {name : Name} {metadata : List Text}

theorem frame (spec : CodeSpec insts start stop read meaning) {env env' : Env Reg}
    (reached : some env' ∈ runs insts env) {r : Reg} (older : r.Older start) : env' w r = env w r :=
  runs_older (fun inst member => (spec.fresh inst member).1) reached older

theorem congr (spec : CodeSpec insts start stop read meaning) {meaning'' : Env Reg → Outcomes α}
    (same : ∀ env, meaning env = meaning'' env) : CodeSpec insts start stop read meaning'' := by
  rw [← funext same]
  exact spec

theorem nil (start : Nat) (read : Env Reg → α) :
    CodeSpec [] start start read fun env => Outcomes.pure (read env) where
  grows := Nat.le_refl _
  fresh := nofun
  sound := by
    rintro env env' ⟨⟩
    rfl
  complete := by
    rintro env result ⟨⟩
    exact ⟨env, rfl, rfl⟩
  undefined := by
    intro env
    constructor <;> rintro ⟨⟩

theorem single {id : Nat} : CodeSpec [⟨id, name, .value rhs, metadata⟩] id (id + 1)
      (fun env => env w (.inst id)) fun env => rhs.outcomes env where
  grows := Nat.le_succ _
  fresh := by
    intro inst member
    cases List.mem_singleton.mp member
    exact ⟨Nat.le_refl _, Nat.lt_succ_self _⟩
  sound := by
    intro env env' reached
    rw [runs_singleton] at reached
    obtain ⟨content, member, rfl⟩ := Outcomes.some_mem_map.mp reached
    rw [Env.set_self]
    exact member
  complete := by
    intro env content member
    refine ⟨env.set w (.inst id) content, ?_, Env.set_self _ _ _ _⟩
    rw [runs_singleton]
    exact Outcomes.some_mem_map.mpr ⟨content, member, rfl⟩
  undefined := by
    intro env
    rw [runs_singleton]
    exact Outcomes.none_mem_map

/-- Code in sequence.  The second part may depend on what the first one has
computed, and the combined reading may look at both. -/
theorem append {γ : Type} {read'' : Env Reg → γ}
    {next : α → Env Reg → Outcomes γ} (first : CodeSpec insts start middle read meaning)
    (grows : middle ≤ stop) (fresh : ∀ inst ∈ insts', middle ≤ inst.id ∧ inst.id < stop)
    (sound : ∀ {env env' env'' : Env Reg}, some env' ∈ runs insts env →
      some env'' ∈ runs insts' env' → some (read'' env'') ∈
        next (read env') env)
    (complete : ∀ {env env' : Env Reg} {result : γ},
      some env' ∈ runs insts env → some result ∈ next (read env') env →
        ∃ env'', some env'' ∈ runs insts' env' ∧ read'' env'' = result)
    (undefined : ∀ {env env' : Env Reg}, some env' ∈ runs insts env →
      (none ∈ runs insts' env' ↔ none ∈ next (read env') env)) :
    CodeSpec (insts ++ insts') start stop read'' fun env =>
      (meaning env).bind fun x => next x env where
  grows := first.grows.trans grows
  fresh := by
    intro inst member
    rcases List.mem_append.mp member with member | member
    · have bounds := first.fresh inst member
      exact ⟨bounds.1, bounds.2.trans_le grows⟩
    · have bounds := fresh inst member
      exact ⟨first.grows.trans bounds.1, bounds.2⟩
  sound := by
    intro env env'' reached
    rw [runs_append] at reached
    rcases reached with ⟨-, impossible⟩ | ⟨env', reached, reached'⟩
    · cases impossible
    · exact Outcomes.mem_bind_of_result (first.sound reached) (sound reached reached')
  complete := by
    rintro env result (⟨-, impossible⟩ | ⟨x, member, member'⟩)
    · cases impossible
    · obtain ⟨env', reached, rfl⟩ := first.complete member
      obtain ⟨env'', reached', held⟩ := complete reached member'
      refine ⟨env'', ?_, held⟩
      rw [runs_append]
      exact Outcomes.mem_bind_of_result reached reached'
  undefined := by
    intro env
    rw [runs_append]
    constructor
    · rintro (⟨undefinedFirst, -⟩ | ⟨env', reached, undefinedNext⟩)
      · exact Outcomes.none_mem_bind_of_first (first.undefined.mp undefinedFirst)
      · exact Outcomes.mem_bind_of_result (first.sound reached)
          ((undefined reached).mp undefinedNext)
    · rintro (⟨undefinedFirst, -⟩ | ⟨x, member, undefinedNext⟩)
      · exact Outcomes.none_mem_bind_of_first (first.undefined.mpr undefinedFirst)
      · obtain ⟨env', reached, rfl⟩ := first.complete member
        exact Outcomes.mem_bind_of_result reached ((undefined reached).mpr undefinedNext)

theorem pair (first : CodeSpec insts start middle read meaning)
    (second : CodeSpec insts' middle stop read' meaning')
    (kept : ∀ {env env' : Env Reg}, some env' ∈ runs insts' env → read env' = read env)
    (independent : ∀ {env env' : Env Reg}, some env' ∈ runs insts env →
      meaning' env' = meaning' env) :
    CodeSpec (insts ++ insts') start stop (fun env => (read env, read' env))
      fun env => (meaning env).bind fun x =>
        (meaning' env).bind fun y => Outcomes.pure (x, y) := by
  refine first.append second.grows second.fresh ?_ ?_ ?_
  · intro env env' env'' reached reached'
    rw [← independent reached, ← kept reached']
    exact Outcomes.mem_bind_of_result (second.sound reached') rfl
  · rintro env env' result reached (⟨-, impossible⟩ | ⟨y, member, same⟩)
    · cases impossible
    · cases same
      rw [← independent reached] at member
      obtain ⟨env'', reached', rfl⟩ := second.complete member
      exact ⟨env'', reached', by rw [kept reached']⟩
  · intro env env' reached
    rw [second.undefined, independent reached]
    simp [Outcomes.mem_bind]

theorem emit (spec : CodeSpec insts start stop read meaning) (apply : α → Outcomes (Content w))
    (applied : ∀ env, rhs.outcomes env = apply (read env)) :
    CodeSpec (insts ++ [⟨stop, name, .value rhs, metadata⟩]) start (stop + 1)
      (fun env => env w (.inst stop)) fun env =>
        (meaning env).bind apply := by
  have last : CodeSpec [⟨stop, name, .value rhs, metadata⟩] stop (stop + 1)
      (fun env => env w (.inst stop)) fun env => rhs.outcomes env := single
  refine spec.append last.grows last.fresh ?_ ?_ ?_
  · intro env env' env'' reached reached'
    rw [← applied]
    exact last.sound reached'
  · intro env env' result reached member
    rw [← applied] at member
    exact last.complete member
  · intro env env' reached
    rw [← applied]
    exact last.undefined

end CodeSpec

theorem Term.emit_result_older (term : Term Reg w)
    (supply : Supply) (older : ∀ use ∈ term.regs, use.2.Older supply.nextId) :
    ∀ use ∈ (term.emit supply).result.regs,
      use.2.Older (term.emit supply).supply.nextId := by
  intro use used
  cases term with
  | leaf operand => exact older use used
  | freeze name a =>
    cases List.mem_singleton.mp used
    exact Nat.lt_succ_self _
  | node name op a b =>
    cases List.mem_singleton.mp used
    exact Nat.lt_succ_self _

/-- The code of an expression whose leaves are older than the code computes
the expression. -/
theorem Term.emit_spec (term : Term Reg w) :
    ∀ (supply : Supply), (∀ use ∈ term.regs, use.2.Older supply.nextId) →
      CodeSpec (term.emit supply).insts supply.nextId (term.emit supply).supply.nextId
        (fun env => (term.emit supply).result.content env)
        fun env => term.outcomes env := by
  induction term with
  | leaf operand => exact fun supply _ => CodeSpec.nil _ _
  | freeze name a ih =>
    intro supply older
    exact (ih supply older).emit frozen fun env => rfl
  | node name op a b first second =>
    intro supply older
    have leftOlder : ∀ use ∈ a.regs, use.2.Older supply.nextId :=
      fun use used => older use (List.mem_append_left _ used)
    have rightOlder : ∀ use ∈ b.regs, use.2.Older supply.nextId :=
      fun use used => older use (List.mem_append_right _ used)
    have firstSpec := first supply leftOlder
    have secondSpec := second (a.emit supply).supply fun use used =>
      (rightOlder use used).mono firstSpec.grows
    have both := firstSpec.pair secondSpec
      (fun reached => Operand.content_congr fun use used =>
        secondSpec.frame reached (a.emit_result_older supply leftOlder use used))
      (fun reached => Term.outcomes_congr fun use used =>
        firstSpec.frame reached (rightOlder use used))
    refine (both.emit (fun xy => op.apply xy.1 xy.2) fun env =>
      op.outcomes_rhs _ _ env).congr fun env => ?_
    simp [Term.outcomes, Outcomes.bind_assoc]

end AliveNext.LLVM
