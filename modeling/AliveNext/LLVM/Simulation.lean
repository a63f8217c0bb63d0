import AliveNext.LLVM.Semantics

/-!
# Relating two executions

Rules for executions that are compared with each other: an operation on two
sets of registers, runs from a more defined environment, and the final
environment of a run as a fixed point of every instruction in it.
-/

namespace AliveNext.LLVM

open AliveNext.Lib

universe u v x

section

variable {R : Type u} {S : Type v} {I : Type x} {f : R → I} {g : S → I}

variable {w : Nat} {a : Rhs R w} {b : Operand S w}

theorem Operand.regs_map (h : R → S) (a : Operand R w) :
    (a.map h).regs = a.regs.map fun use => (use.1, h use.2) := by
  cases a <;> rfl

theorem Rhs.regs_map (h : R → S) (a : Rhs R w) :
    (a.map h).regs = a.regs.map fun use => (use.1, h use.2) := by
  cases a <;> simp [Rhs.map, Rhs.regs, Rhs.operands, Operand.regs_map]

private theorem Rhs.forall_regs {property : Nat × R → Prop}
    (each : ∀ operand ∈ a.operands, ∀ use ∈ operand.2.regs, property use) :
    ∀ use ∈ a.regs, property use := by
  intro use used
  obtain ⟨operand, member, read⟩ := List.mem_flatMap.mp used
  exact each operand member use read

theorem Operand.exists_pairing {a : Operand R w} (same : a.map f = b.map g) :
    ∃ c : Operand (R × S) w, c.map Prod.fst = a ∧ c.map Prod.snd = b ∧
      ∀ use ∈ c.regs, f use.2.1 = g use.2.2 := by
  cases a <;> cases b <;> simp only [Operand.map, Operand.const.injEq,
    Operand.reg.injEq, reduceCtorEq] at same
  · subst same
    exact ⟨.const _, rfl, rfl, by simp [Operand.regs]⟩
  · exact ⟨.undef, rfl, rfl, by simp [Operand.regs]⟩
  · exact ⟨.poison, rfl, rfl, by simp [Operand.regs]⟩
  · rename_i r s
    exact ⟨.reg (r, s), rfl, rfl, by simp [Operand.regs, same]⟩

/-- Right-hand sides that agree after renaming are the two sides of one
right-hand side over pairs of registers. -/
theorem Rhs.exists_pairing {b : Rhs S w} (same : a.map f = b.map g) :
    ∃ c : Rhs (R × S) w, c.map Prod.fst = a ∧ c.map Prod.snd = b ∧
      ∀ use ∈ c.regs, f use.2.1 = g use.2.2 := by
  cases a <;> cases b <;> simp only [Rhs.map, reduceCtorEq] at same
  case binop.binop op a₁ a₂ op' b₁ b₂ =>
    simp only [Rhs.binop.injEq] at same
    obtain ⟨rfl, first, second⟩ := same
    obtain ⟨c₁, rfl, rfl, reads₁⟩ := Operand.exists_pairing first
    obtain ⟨c₂, rfl, rfl, reads₂⟩ := Operand.exists_pairing second
    exact ⟨.binop op c₁ c₂, rfl, rfl, Rhs.forall_regs
      (List.forall_mem_cons.mpr ⟨reads₁, List.forall_mem_cons.mpr ⟨reads₂, List.forall_mem_nil _⟩⟩)⟩
  case icmp.icmp v pred a₁ a₂ v' pred' b₁ b₂ =>
    simp only [Rhs.icmp.injEq] at same
    obtain ⟨rfl, rfl, first, second⟩ := same
    obtain ⟨c₁, rfl, rfl, reads₁⟩ :=
      Operand.exists_pairing (eq_of_heq first)
    obtain ⟨c₂, rfl, rfl, reads₂⟩ :=
      Operand.exists_pairing (eq_of_heq second)
    exact ⟨.icmp pred c₁ c₂, rfl, rfl, Rhs.forall_regs
      (List.forall_mem_cons.mpr ⟨reads₁, List.forall_mem_cons.mpr ⟨reads₂, List.forall_mem_nil _⟩⟩)⟩
  case select.select cond a₁ a₂ cond' b₁ b₂ =>
    simp only [Rhs.select.injEq] at same
    obtain ⟨third, first, second⟩ := same
    obtain ⟨c₀, rfl, rfl, reads₀⟩ := Operand.exists_pairing third
    obtain ⟨c₁, rfl, rfl, reads₁⟩ := Operand.exists_pairing first
    obtain ⟨c₂, rfl, rfl, reads₂⟩ := Operand.exists_pairing second
    exact ⟨.select c₀ c₁ c₂, rfl, rfl, Rhs.forall_regs
      (List.forall_mem_cons.mpr ⟨reads₀, List.forall_mem_cons.mpr
        ⟨reads₁, List.forall_mem_cons.mpr ⟨reads₂, List.forall_mem_nil _⟩⟩⟩)⟩
  case freeze.freeze a₁ b₁ =>
    obtain ⟨c₁, rfl, rfl, reads₁⟩ :=
      Operand.exists_pairing (Rhs.freeze.inj same)
    exact ⟨.freeze c₁, rfl, rfl, Rhs.forall_regs
      (List.forall_mem_cons.mpr ⟨reads₁, List.forall_mem_nil _⟩)⟩
  case zext.zext v nneg a₁ widens v' nneg' b₁ widens' =>
    simp only [Rhs.zext.injEq] at same
    obtain ⟨rfl, rfl, operands⟩ := same
    obtain ⟨c₁, rfl, rfl, reads₁⟩ :=
      Operand.exists_pairing (eq_of_heq operands)
    exact ⟨.zext widens nneg c₁, rfl, rfl, Rhs.forall_regs
      (List.forall_mem_cons.mpr ⟨reads₁, List.forall_mem_nil _⟩)⟩
  case sext.sext v a₁ widens v' b₁ widens' =>
    simp only [Rhs.sext.injEq] at same
    obtain ⟨rfl, operands⟩ := same
    obtain ⟨c₁, rfl, rfl, reads₁⟩ :=
      Operand.exists_pairing (eq_of_heq operands)
    exact ⟨.sext widens c₁, rfl, rfl, Rhs.forall_regs
      (List.forall_mem_cons.mpr ⟨reads₁, List.forall_mem_nil _⟩)⟩
  case trunc.trunc v nuw nsw a₁ narrows v' nuw' nsw' b₁ narrows' =>
    simp only [Rhs.trunc.injEq] at same
    obtain ⟨rfl, rfl, rfl, operands⟩ := same
    obtain ⟨c₁, rfl, rfl, reads₁⟩ :=
      Operand.exists_pairing (eq_of_heq operands)
    exact ⟨.trunc narrows nuw nsw c₁, rfl, rfl, Rhs.forall_regs
      (List.forall_mem_cons.mpr ⟨reads₁, List.forall_mem_nil _⟩)⟩
  case withOverflow.withOverflow v op a₁ a₂ v' op' b₁ b₂ =>
    simp only [Rhs.withOverflow.injEq] at same
    obtain ⟨rfl, rfl, first, second⟩ := same
    obtain ⟨c₁, rfl, rfl, reads₁⟩ :=
      Operand.exists_pairing (eq_of_heq first)
    obtain ⟨c₂, rfl, rfl, reads₂⟩ :=
      Operand.exists_pairing (eq_of_heq second)
    exact ⟨.withOverflow op c₁ c₂, rfl, rfl, Rhs.forall_regs
      (List.forall_mem_cons.mpr ⟨reads₁, List.forall_mem_cons.mpr ⟨reads₂, List.forall_mem_nil _⟩⟩)⟩

variable {target : Env R} {source : Env S}

theorem Operand.content_refines {a : Operand R w}
    (same : a.map f = b.map g) (refined : ∀ r s, (w, r) ∈ a.regs → (w, s) ∈ b.regs → f r = g s →
      (target w r).Refines (source w s)) :
    (a.content target).Refines (b.content source) := by
  cases a <;> cases b <;> simp only [Operand.map, Operand.const.injEq,
    Operand.reg.injEq, reduceCtorEq] at same
  · subst same
    exact Content.Refines.refl _
  · exact Content.Refines.refl _
  · exact Content.Refines.refl _
  · exact refined _ _ List.mem_cons_self List.mem_cons_self same

theorem Rhs.outcomes_refines {b : Rhs S w}
    (same : a.map f = b.map g) (refined : ∀ v r s, (v, r) ∈ a.regs → (v, s) ∈ b.regs → f r = g s →
      (target v r).Refines (source v s)) :
    Outcomes.Refines Content.Refines (a.outcomes target) (b.outcomes source) := by
  obtain ⟨c, rfl, rfl, matched⟩ := Rhs.exists_pairing same
  rw [Rhs.outcomes_map, Rhs.outcomes_map]
  refine Rhs.outcomes_mono fun use used => ?_
  obtain ⟨v, r, s⟩ := use
  refine refined v r s ?_ ?_ (matched _ used)
  · rw [Rhs.regs_map]
    exact List.mem_map_of_mem used
  · rw [Rhs.regs_map]
    exact List.mem_map_of_mem used

end

theorem assumed_refines {target source : Content 1} {targetEnv sourceEnv : Env Reg}
    {related : Env Reg → Env Reg → Prop}
    (refined : target.Refines source) (held : related targetEnv sourceEnv) :
    Outcomes.Refines related (assumed target targetEnv) (assumed source sourceEnv) := by
  by_cases certain : source = .single (some 1#1)
  · subst certain
    rw [refined.eq_of_wellDefined ⟨1#1, rfl⟩, assumed_true, assumed_true]
    exact Outcomes.Refines.pure_iff.mpr held
  · rw [assumed_of_ne certain]
    exact Outcomes.Refines.of_undefined rfl

def Env.Refines (target source : Env Reg) : Prop :=
  ∀ w r, (target w r).Refines (source w r)

variable {target source env : Env Reg} {w : Nat} {content : Content w} {inst : Instruction}
  {insts : List Instruction}

theorem Env.Refines.set (refined : target.Refines source)
    (r : Reg) {content' : Content w} (refined' : content.Refines content') :
    (target.set w r content).Refines (source.set w r content') := by
  intro v s
  by_cases same : (v, s) = (w, r)
  · cases same
    rw [Env.set_self, Env.set_self]
    exact refined'
  · rw [Env.set_of_ne _ _ same, Env.set_of_ne _ _ same]
    exact refined v s

theorem Instruction.step_mono (inst : Instruction) (refined : target.Refines source) :
    Outcomes.Refines Env.Refines (inst.step target) (inst.step source) := by
  obtain ⟨id, name, op, metadata⟩ := inst
  cases op with
  | value rhs =>
    exact (Rhs.outcomes_mono fun use _ => refined use.1 use.2).map
      fun content content' refined' => refined.set (.inst id) refined'
  | assume cond =>
    exact assumed_refines (Operand.content_mono fun use _ => refined use.1 use.2) refined

theorem runs_mono (insts : List Instruction) (refined : target.Refines source) :
    Outcomes.Refines Env.Refines (runs insts target) (runs insts source) := by
  induction insts generalizing target source with
  | nil => exact Outcomes.Refines.pure_iff.mpr refined
  | cons inst rest ih =>
    exact (inst.step_mono refined).bind fun _ _ _ _ held =>
      ih held

theorem TermOp.returned_mono (term : TermOp Reg) (refined : target.Refines source) :
    Outcomes.Refines Returned.Refines (term.returned target) (term.returned source) := by
  cases term with
  | ret value =>
    exact Outcomes.Refines.pure_iff.mpr
      (.value (Operand.content_mono fun use _ => refined use.1 use.2))
  | retVoid => exact Outcomes.Refines.pure_iff.mpr .void
  | unreachable => exact Outcomes.Refines.of_undefined rfl

theorem BasicBlock.outcomes_mono (bb : BasicBlock) {target source : ArgTuple}
    (refined : ∀ w i, (target w i).Refines (source w i)) :
    Outcomes.Refines Returned.Refines (bb.outcomes target) (bb.outcomes source) := by
  have atEntry : (bindArgs target).Refines (bindArgs source) := by
    intro w r
    cases r with
    | arg index => exact refined w index
    | inst id => exact Content.Refines.refl _
  exact (runs_mono bb.insts atEntry).bind fun _ _ _ _ held =>
    bb.term.op.returned_mono held

theorem Env.set_eq_self (env : Env Reg) {r : Reg}
    (held : env w r = content) : env.set w r content = env := by
  funext v s
  by_cases same : (v, s) = (w, r)
  · cases same
    rw [Env.set_self, held]
  · rw [Env.set_of_ne _ _ same]

private theorem defines_notMem {rest : List Instruction}
    (fresh : inst.id ∉ rest.map Instruction.id) : ∀ use ∈ inst.defines, use ∉ bodyScope rest := by
  rintro ⟨w, r⟩ defined inRest
  obtain ⟨-, rfl⟩ : inst.type = some w ∧ r = .inst inst.id := by
    simpa [Instruction.defines, eq_comm] using defined
  obtain ⟨other, member, -, same⟩ := mem_bodyScope.mp inRest
  rw [Reg.inst.injEq] at same
  exact fresh (same ▸ List.mem_map_of_mem member)

/-- In static single assignment form the final environment is a result of
every instruction executed in it. -/
theorem step_of_runs {scope : List (Nat × Reg)} {start : Env Reg}
    (wellScoped : Scoped scope insts) (nodup : (insts.map Instruction.id).Nodup)
    (apart : ∀ use ∈ scope, use ∉ bodyScope insts) (reached : some env ∈ runs insts start) :
    ∀ inst ∈ insts, some env ∈ inst.step env := by
  induction insts generalizing scope start with
  | nil => exact List.forall_mem_nil _
  | cons inst rest ih =>
    obtain ⟨uses, scopedRest⟩ := wellScoped
    rw [List.map_cons, List.nodup_cons] at nodup
    rcases reached with ⟨-, impossible⟩ | ⟨middle, first, second⟩
    · cases impossible
    have keeps : ∀ use ∈ inst.op.regs, env use.1 use.2 = start use.1 use.2 := by
      intro use used
      have outside := apart use (uses use used)
      rw [bodyScope, List.flatMap_cons, List.mem_append, not_or] at outside
      rw [runs_frame second outside.2, Instruction.step_frame first outside.1]
    intro other member
    rcases List.mem_cons.mp member with rfl | member
    · obtain ⟨id, name, op, metadata⟩ := other
      cases op with
      | @value w rhs =>
        obtain ⟨content, chosen, rfl⟩ := Outcomes.some_mem_map.mp first
        have held : env w (.inst id) = content := by
          rw [runs_frame second (defines_notMem nodup.1 _ (by
            simp [Instruction.defines, Instruction.type, Op.type])),
            Env.set_self]
        refine Outcomes.some_mem_map.mpr ⟨content, ?_, Env.set_eq_self env held⟩
        rw [Rhs.outcomes_congr keeps]
        exact chosen
      | assume cond =>
        have read : cond.content env = cond.content start :=
          Operand.content_congr fun use used =>
            keeps use (by simpa [Op.regs, Op.operands] using used)
        rcases first with ⟨certain, -⟩ | ⟨-, impossible⟩
        · exact Or.inl ⟨read.trans certain, rfl⟩
        · cases impossible
    · refine ih scopedRest nodup.2 ?_ second other member
      intro use inScope
      rcases List.mem_append.mp inScope with early | now
      · have outside := apart use early
        rw [bodyScope, List.flatMap_cons, List.mem_append, not_or] at outside
        exact outside.2
      · exact defines_notMem nodup.1 use now

theorem runs_of_steps
    (steps : ∀ inst ∈ insts, some env ∈ inst.step env) : some env ∈ runs insts env := by
  induction insts with
  | nil => rfl
  | cons inst rest ih =>
    exact Outcomes.mem_bind_of_result (steps inst List.mem_cons_self)
      (ih fun other member =>
        steps other (List.mem_cons_of_mem inst member))

def Instruction.isFreeze (inst : Instruction) : Bool :=
  match inst.op with
  | .value (.freeze _) => true
  | _ => false

private theorem collect_subsingleton (evaluations : Set (Evaluated w)) :
    (collect evaluations).Subsingleton := by
  rintro x (⟨undefined, rfl⟩ | ⟨defined, content, rfl, samples⟩) y
    (⟨undefined', rfl⟩ | ⟨defined', content', rfl, samples'⟩)
  · rfl
  · exact absurd undefined defined'
  · exact absurd undefined' defined
  · rw [Content.ext (samples.trans samples'.symm)]

private theorem step_subsingleton (noChoice : inst.isFreeze = false)
    (env : Env Reg) : (inst.step env).Subsingleton := by
  obtain ⟨id, name, op, metadata⟩ := inst
  cases op with
  | value rhs =>
    have outcomes : (rhs.outcomes env).Subsingleton := by
      cases rhs with
      | freeze a => cases noChoice
      | _ => exact collect_subsingleton _
    exact Outcomes.map_subsingleton outcomes
  | assume cond =>
    by_cases certain : cond.content env = .single (some 1#1)
    · simp only [Instruction.step, certain, assumed_true]
      exact Set.subsingleton_singleton
    · simp only [Instruction.step, assumed_of_ne certain]
      exact Set.subsingleton_singleton

theorem runs_subsingleton (noChoice : ∀ inst ∈ insts, inst.isFreeze = false) (env : Env Reg) :
    (runs insts env).Subsingleton := by
  induction insts generalizing env with
  | nil => exact Set.subsingleton_singleton
  | cons inst rest ih =>
    exact Outcomes.bind_subsingleton (step_subsingleton (noChoice inst List.mem_cons_self) env)
      fun env' => ih (fun other member => noChoice other (List.mem_cons_of_mem inst member)) env'

end AliveNext.LLVM
