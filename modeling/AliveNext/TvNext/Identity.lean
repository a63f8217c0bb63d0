import AliveNext.LLVM.Semantics
import AliveNext.TvNext.Diff

/-!
# Lines that compare equal

Identity matching compares printed lines with their metadata cut off.  When
nothing before the metadata reads as its start, equal texts mean the same
result name, opcode, operands and flags.  The attachments are not compared.
-/

namespace AliveNext.TvNext

open AliveNext.Lib
open AliveNext.LLVM

/-- What the language reference says about the textual form of instructions of
any kind: a line is the instruction followed by its attachments, and the part
before them determines the result name, the opcode, the operands and the
flags, together the `core`. -/
structure AsmPrinter (I Core : Type) where
  core : I → Core
  bareText : I → Text
  attachments : I → List Text
  determines : ∀ {s t : I}, bareText s = bareText t → core s = core t
  starts : ∀ inst, ∃ c rest, bareText inst = c :: rest ∧ c ≠ ' ' ∧ c ≠ '\t'

namespace AsmPrinter

variable {I Core : Type} (printer : AsmPrinter I Core)

/-- `llvm::Instruction::print`. -/
def print (inst : I) : Text :=
  ' ' :: ' ' :: (printer.bareText inst ++ metadataText (printer.attachments inst))

def instAsText (inst : I) : Text :=
  lineAsText (printer.print inst)

theorem instAsText_eq {inst : I} (clean : CutFree (printer.bareText inst)) :
    printer.instAsText inst = printer.bareText inst :=
  lineAsText_indented clean (printer.starts inst) (printer.attachments inst)

theorem core_eq {s t : I} (clean : CutFree (printer.bareText s))
    (clean' : CutFree (printer.bareText t)) (same : printer.instAsText s = printer.instAsText t) :
    printer.core s = printer.core t := by
  rw [printer.instAsText_eq clean, printer.instAsText_eq clean'] at same
  exact printer.determines same

end AsmPrinter

def integerPrinter : AsmPrinter (Body × Instruction) (Option Ident × Op Ident) where
  core line := (line.2.resultIdent line.1.identOf, line.2.op.map line.1.identOf)
  bareText line := line.2.bareText line.1.identOf
  attachments line := line.2.metadata
  determines same := by
    obtain ⟨result, op⟩ := Instruction.bareText_inj same
    rw [result, op]
  starts line := line.2.bareText_head line.1.identOf

/-- What an operation does on given contents: its outcomes, or the content
that is assumed to be true. -/
def opMeaning {R : Type} (env : Env R) : Op R → (Σ w, Outcomes (Content w)) ⊕ Content 1
  | .value (w := w) rhs => .inl ⟨w, rhs.outcomes env⟩
  | .assume cond => .inr (cond.content env)

theorem opMeaning_map {R S : Type} (f : R → S) (env : Env S) (op : Op R) :
    opMeaning env (op.map f) = opMeaning (fun w r => env w (f r)) op := by
  cases op with
  | value rhs =>
    simp only [Op.map, opMeaning]
    rw [Rhs.outcomes_map]
  | assume cond =>
    simp only [Op.map, opMeaning]
    rw [Operand.content_map]

/-- `%x = add i8 %a, n` with attachments. -/
def addLine (n : BitVec 8) (metadata : List Text) : Instruction :=
  ⟨0, ascii "x", .value (.binop (.add false false) (.reg (.arg 0)) (.const n)),
    metadata⟩

def addBody (argument : Name) (inst : Instruction) : Body where
  args := [⟨argument, 8⟩]
  block := ⟨[], [inst], ⟨.ret (.reg (.inst 0) : Operand Reg 8), []⟩⟩

end AliveNext.TvNext
