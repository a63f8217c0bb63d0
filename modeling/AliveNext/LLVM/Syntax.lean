import Mathlib

/-!
# The integer fragment of LLVM IR

The data model that the `tv-next` pipeline reads and builds.  A value is
identified by a register (its address in LLVM); the name is only an attribute
of it.  Operands carry the bit width of their type, so an ill-typed
instruction cannot be written down.

Operations are generic in the type of registers.  Cloning an instruction is a
renaming of its registers, and printing one goes through the renaming of every
register to its printed identifier.
-/

namespace AliveNext.LLVM

universe u v

/-- One `char` of a C++ string. -/
abbrev Byte := Fin 256

abbrev Name := List Byte

/-- Byte literals are taken modulo 256. -/
instance byteNeZero : NeZero 256 :=
  ⟨by decide⟩

/-- Names are compared byte by byte. -/
instance nameLawfulBEq : LawfulBEq Name :=
  inferInstance

abbrev Text := List Char

def ascii (literal : String) : Name :=
  literal.toList.map fun c => Fin.ofNat 256 c.toNat

/-- The identity of an SSA value inside one function. -/
inductive Reg where
  | arg (index : Nat)
  | inst (id : Nat)
  deriving DecidableEq, Repr

/-- An operand of type `iw`. -/
inductive Operand (R : Type u) (w : Nat) where
  | const (value : BitVec w)
  | undef
  | poison
  | reg (r : R)
  deriving DecidableEq

/-- Binary operators with the flags LLVM admits on each of them. -/
inductive BinOp where
  | add (nuw nsw : Bool)
  | sub (nuw nsw : Bool)
  | mul (nuw nsw : Bool)
  | shl (nuw nsw : Bool)
  | udiv (exact : Bool)
  | sdiv (exact : Bool)
  | urem
  | srem
  | lshr (exact : Bool)
  | ashr (exact : Bool)
  | and
  | or (disjoint : Bool)
  | xor
  deriving DecidableEq, Repr

/-- Integer comparison predicates. -/
inductive Pred where
  | eq | ne | ugt | uge | ult | ule | sgt | sge | slt | sle
  deriving DecidableEq, Repr

/-- The arithmetic of the `llvm.*.with.overflow` intrinsics. -/
inductive OverflowOp where
  | sadd | uadd | ssub | usub | smul | umul
  deriving DecidableEq, Repr

/-- The right-hand side of a side-effect-free integer instruction of type `iw`. -/
inductive Rhs (R : Type u) : Nat → Type u where
  | binop {w : Nat} (op : BinOp) (a b : Operand R w) : Rhs R w
  | icmp {v : Nat} (pred : Pred) (a b : Operand R v) : Rhs R 1
  | select {w : Nat} (cond : Operand R 1) (a b : Operand R w) : Rhs R w
  | freeze {w : Nat} (a : Operand R w) : Rhs R w
  | zext {v w : Nat} (widens : v < w) (nneg : Bool) (a : Operand R v) : Rhs R w
  | sext {v w : Nat} (widens : v < w) (a : Operand R v) : Rhs R w
  | trunc {v w : Nat} (narrows : w < v) (nuw nsw : Bool) (a : Operand R v) : Rhs R w
  | withOverflow {v : Nat} (op : OverflowOp) (a b : Operand R v) : Rhs R 1

/-- An operation: a computation of a value, or a call to `llvm.assume`. -/
inductive Op (R : Type u) where
  | value {w : Nat} (rhs : Rhs R w)
  | assume (cond : Operand R 1)

/-- A non-terminator instruction.  `metadata` holds the printed attachments. -/
structure Instruction where
  id : Nat
  name : Name
  op : Op Reg
  metadata : List Text

/-- Terminators of a block without successors. -/
inductive TermOp (R : Type u) where
  | ret {w : Nat} (value : Operand R w)
  | retVoid
  | unreachable

structure Terminator where
  op : TermOp Reg
  metadata : List Text

structure Argument where
  name : Name
  width : Nat
  deriving DecidableEq, Repr

structure BasicBlock where
  name : Name
  insts : List Instruction
  term : Terminator

structure Function where
  name : Name
  args : List Argument
  blocks : List BasicBlock

namespace Operand

variable {R : Type u} {S : Type v} {w : Nat}

def map (f : R → S) : Operand R w → Operand S w
  | .const value => .const value
  | .undef => .undef
  | .poison => .poison
  | .reg r => .reg (f r)

def regs : Operand R w → List (Nat × R)
  | .reg r => [(w, r)]
  | _ => []

/-- `llvm::isa<llvm::Constant>`. -/
def isConstant : Operand R w → Bool
  | .reg _ => false
  | _ => true

end Operand

namespace Rhs

variable {R : Type u} {S : Type v}

def map (f : R → S) : {w : Nat} → Rhs R w → Rhs S w
  | _, .binop op a b => .binop op (a.map f) (b.map f)
  | _, .icmp pred a b => .icmp pred (a.map f) (b.map f)
  | _, .select cond a b => .select (cond.map f) (a.map f) (b.map f)
  | _, .freeze a => .freeze (a.map f)
  | _, .zext widens nneg a => .zext widens nneg (a.map f)
  | _, .sext widens a => .sext widens (a.map f)
  | _, .trunc narrows nuw nsw a => .trunc narrows nuw nsw (a.map f)
  | _, .withOverflow op a b => .withOverflow op (a.map f) (b.map f)

def operands : {w : Nat} → Rhs R w → List (Σ v, Operand R v)
  | w, .binop _ a b => [⟨w, a⟩, ⟨w, b⟩]
  | _, .icmp (v := v) _ a b => [⟨v, a⟩, ⟨v, b⟩]
  | w, .select cond a b => [⟨1, cond⟩, ⟨w, a⟩, ⟨w, b⟩]
  | w, .freeze a => [⟨w, a⟩]
  | _, .zext (v := v) _ _ a => [⟨v, a⟩]
  | _, .sext (v := v) _ a => [⟨v, a⟩]
  | _, .trunc (v := v) _ _ _ a => [⟨v, a⟩]
  | _, .withOverflow (v := v) _ a b => [⟨v, a⟩, ⟨v, b⟩]

def regs {w : Nat} (rhs : Rhs R w) : List (Nat × R) :=
  rhs.operands.flatMap fun operand => operand.2.regs

end Rhs

namespace Op

variable {R : Type u} {S : Type v}

def map (f : R → S) : Op R → Op S
  | .value rhs => .value (rhs.map f)
  | .assume cond => .assume (cond.map f)

def operands : Op R → List (Σ v, Operand R v)
  | .value rhs => rhs.operands
  | .assume cond => [⟨1, cond⟩]

def regs (op : Op R) : List (Nat × R) :=
  op.operands.flatMap fun operand => operand.2.regs

/-- The type of the result; `none` is `void`. -/
def type : Op R → Option Nat
  | .value (w := w) _ => some w
  | .assume _ => none

end Op

namespace TermOp

variable {R : Type u} {S : Type v}

def map (f : R → S) : TermOp R → TermOp S
  | .ret value => .ret (value.map f)
  | .retVoid => .retVoid
  | .unreachable => .unreachable

def regs : TermOp R → List (Nat × R)
  | .ret value => value.regs
  | _ => []

end TermOp

namespace Instruction

/-- `llvm::Value::hasName`. -/
def hasName (inst : Instruction) : Bool :=
  !inst.name.isEmpty

/-- `llvm::Value::getType`; `none` is `void`. -/
def type (inst : Instruction) : Option Nat :=
  inst.op.type

end Instruction

def argScope (args : List Argument) : List (Nat × Reg) :=
  args.zipIdx.map fun entry => (entry.1.width, Reg.arg entry.2)

/-- The register that an instruction defines, if it is not `void`. -/
def Instruction.defines (inst : Instruction) : List (Nat × Reg) :=
  inst.type.toList.map fun w => (w, Reg.inst inst.id)

def bodyScope (insts : List Instruction) : List (Nat × Reg) :=
  insts.flatMap Instruction.defines

theorem mem_bodyScope {insts : List Instruction} {w : Nat} {r : Reg} : (w, r) ∈ bodyScope insts ↔
      ∃ inst ∈ insts, inst.type = some w ∧ r = .inst inst.id := by
  simp [bodyScope, Instruction.defines, List.mem_flatMap, eq_comm]

def Scoped : List (Nat × Reg) → List Instruction → Prop
  | _, [] => True
  | scope, inst :: rest =>
    (∀ use ∈ inst.op.regs, use ∈ scope) ∧ Scoped (scope ++ inst.defines) rest

instance decidableScoped : (scope : List (Nat × Reg)) → (insts : List Instruction) →
      Decidable (Scoped scope insts)
  | _, [] => isTrue trivial
  | scope, inst :: rest =>
    have := decidableScoped (scope ++ inst.defines) rest
    inferInstanceAs (Decidable (_ ∧ _))

theorem Scoped.of_append {scope : List (Nat × Reg)} {first second : List Instruction}
    (wellScoped : Scoped scope (first ++ second)) : Scoped scope first := by
  induction first generalizing scope with
  | nil => trivial
  | cons inst rest ih =>
    exact ⟨wellScoped.1, ih wellScoped.2⟩

theorem Scoped.uses {scope : List (Nat × Reg)} {insts : List Instruction}
    (wellScoped : Scoped scope insts) {inst : Instruction} (member : inst ∈ insts)
    {use : Nat × Reg} (used : use ∈ inst.op.regs) : use ∈ scope ∨ use ∈ bodyScope insts := by
  induction insts generalizing scope with
  | nil => exact absurd member List.not_mem_nil
  | cons head rest ih =>
    have extend : bodyScope (head :: rest) = head.defines ++ bodyScope rest :=
      List.flatMap_cons
    rcases List.mem_cons.mp member with rfl | member
    · exact Or.inl (wellScoped.1 use used)
    · have later := ih wellScoped.2 member
      rw [List.mem_append] at later
      rw [extend, List.mem_append]
      tauto

def valueNames (args : List Argument) (insts : List Instruction) : List Name :=
  ((args.map Argument.name) ++ (insts.map Instruction.name)).filter fun name => !name.isEmpty

structure Body where
  args : List Argument
  block : BasicBlock

abbrev Body.insts (body : Body) : List Instruction :=
  body.block.insts

/-- What `llvm::verifyModule` and the symbol table of the function guarantee
about a block of straight-line code: distinct values, distinct names,
definitions before uses. -/
structure Body.Verified (body : Body) : Prop where
  ids_nodup : (body.insts.map Instruction.id).Nodup
  names_nodup : (valueNames body.args body.insts).Nodup
  body_scoped : Scoped (argScope body.args) body.insts
  term_scoped : ∀ use ∈ body.block.term.op.regs,
    use ∈ argScope body.args ++ bodyScope body.insts

instance (body : Body) : Decidable body.Verified :=
  decidable_of_iff
    ((body.insts.map Instruction.id).Nodup ∧ (valueNames body.args body.insts).Nodup ∧
      Scoped (argScope body.args) body.insts ∧
      ∀ use ∈ body.block.term.op.regs,
        use ∈ argScope body.args ++ bodyScope body.insts)
    ⟨fun ⟨ids, names, body, term⟩ => ⟨ids, names, body, term⟩,
      fun ⟨ids, names, body, term⟩ => ⟨ids, names, body, term⟩⟩

structure StraightLine extends Function where
  block : BasicBlock
  single : blocks = [block]
  verified : Body.Verified ⟨args, block⟩

def StraightLine.body (fn : StraightLine) : Body :=
  ⟨fn.args, fn.block⟩

end AliveNext.LLVM
