import AliveNext.Lib.Worklist
import AliveNext.LLVM.Slots

/-!
# Backward slices

`collectBackwardSlice` walks from a named instruction through its operands.
The instructions it visits, in program order, together with the arguments they
read, are closed under operands.
-/

namespace AliveNext.TvNext

open AliveNext.Lib
open AliveNext.LLVM

structure BackwardSlice where
  insts : List Instruction
  argRoots : List Nat

def findInst (insts : List Instruction) (id : Nat) : Option Instruction :=
  insts.find? fun inst => inst.id == id

/-- The registers that the instruction `id` reads. -/
def operandRegs (insts : List Instruction) (id : Nat) : List Reg :=
  ((findInst insts id).map fun inst => inst.op.regs.map Prod.snd).getD []

/-- The instructions among the operands, last one first: the order in which
the worklist gives them back. -/
def instOperands (insts : List Instruction) (id : Nat) : List Nat :=
  ((operandRegs insts id).filterMap fun r =>
    match r with
    | .inst operand => some operand
    | .arg _ => none).reverse

def sliceFuel (insts : List Instruction) : Nat :=
  unvisitedWeight (instOperands insts) (insts.map Instruction.id) [] + 2

/-- The instruction a name stands for; the last one, as the loop of
`collectBackwardSlice` overwrites its root. -/
def sliceRoot (name : Name) (insts : List Instruction) : Option Instruction :=
  insts.findRev? fun inst => inst.hasName && inst.name == name

def sliceFrom (body : Body) (root : Nat) : BackwardSlice :=
  let visited :=
    worklist (instOperands body.insts) (sliceFuel body.insts) [] [root]
  let argSet := visited.flatMap (operandRegs body.insts)
  { insts := body.insts.filter fun inst => inst.id ∈ visited
    argRoots := (List.range body.args.length).filter fun index =>
      Reg.arg index ∈ argSet }

def collectBackwardSlice (name : Name) (body : Body) : Option BackwardSlice :=
  (sliceRoot name body.insts).map fun root => sliceFrom body root.id

section

variable {insts : List Instruction}

variable {id : Nat} {inst : Instruction}

theorem findInst_eq_some (nodup : (insts.map Instruction.id).Nodup) (member : inst ∈ insts)
    (same : inst.id = id) : findInst insts id = some inst := by
  induction insts with
  | nil => exact absurd member List.not_mem_nil
  | cons head rest ih =>
    rw [List.map_cons, List.nodup_cons] at nodup
    rcases List.mem_cons.mp member with rfl | member
    · simp [findInst, same]
    · have different : (head.id == id) = false := by
        rw [beq_eq_false_iff_ne, ← same]
        intro clash
        exact nodup.1 (clash ▸ List.mem_map_of_mem member)
      simpa [findInst, different] using ih nodup.2 member

theorem operandRegs_of_mem (nodup : (insts.map Instruction.id).Nodup)
    (member : inst ∈ insts) : operandRegs insts inst.id = inst.op.regs.map Prod.snd := by
  simp [operandRegs, findInst_eq_some nodup member rfl]

theorem instOperands_unknown (unknown : id ∉ insts.map Instruction.id) :
    instOperands insts id = [] := by
  have absent : findInst insts id = none := by
    refine List.find?_eq_none.mpr fun inst member same => unknown ?_
    exact beq_iff_eq.mp same ▸ List.mem_map_of_mem member
  simp [instOperands, operandRegs, absent]

theorem mem_instOperands {operand : Nat} : operand ∈ instOperands insts id ↔
      Reg.inst operand ∈ operandRegs insts id := by
  rw [instOperands, List.mem_reverse, List.mem_filterMap]
  constructor
  · rintro ⟨r, member, same⟩
    cases r with
    | arg index => cases same
    | inst other =>
      cases same
      exact member
  · intro member
    exact ⟨_, member, rfl⟩

end

structure BackwardSlice.Closed (slice : BackwardSlice) (body : Body)
    (root : Instruction) : Prop where
  sublist : slice.insts.Sublist body.insts
  root_mem : root ∈ slice.insts
  insts_closed : ∀ inst ∈ slice.insts, ∀ other ∈ body.insts,
    ∀ w, (w, Reg.inst other.id) ∈ inst.op.regs → other ∈ slice.insts
  args_closed : ∀ inst ∈ slice.insts, ∀ w index,
    (w, Reg.arg index) ∈ inst.op.regs → index < body.args.length → index ∈ slice.argRoots

theorem sliceFrom_closed {body : Body} {root : Instruction}
    (nodup : (body.insts.map Instruction.id).Nodup) (member : root ∈ body.insts) :
    (sliceFrom body root.id).Closed body root := by
  have known : ∀ id, id ∉ body.insts.map Instruction.id → instOperands body.insts id = [] :=
    fun id unknown => instOperands_unknown unknown
  obtain ⟨kept, closed⟩ := worklist_closed known
    (sliceFuel body.insts) [] [root.id] (by simp [sliceFuel])
    (List.forall_mem_nil _)
  refine ⟨List.filter_sublist, ?_, ?_, ?_⟩
  · exact List.mem_filter.mpr ⟨member, decide_eq_true (kept root.id (Or.inr List.mem_cons_self))⟩
  · intro inst sliced other otherMember w used
    obtain ⟨instMember, visited⟩ := List.mem_filter.mp sliced
    refine List.mem_filter.mpr ⟨otherMember, decide_eq_true ?_⟩
    refine closed inst.id (of_decide_eq_true visited) other.id ?_
    rw [mem_instOperands, operandRegs_of_mem nodup instMember]
    exact List.mem_map_of_mem used
  · intro inst sliced w index used inside
    obtain ⟨instMember, visited⟩ := List.mem_filter.mp sliced
    refine List.mem_filter.mpr ⟨List.mem_range.mpr inside, decide_eq_true ?_⟩
    refine List.mem_flatMap.mpr ⟨inst.id, of_decide_eq_true visited, ?_⟩
    rw [operandRegs_of_mem nodup instMember]
    exact List.mem_map_of_mem used

end AliveNext.TvNext
