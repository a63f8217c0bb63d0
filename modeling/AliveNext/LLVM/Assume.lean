import AliveNext.LLVM.Builder

/-!
# Assumptions that hold

Code that only computes new registers and assumes conditions that are always
true can be put in front of a block without changing what the block returns.
-/

namespace AliveNext.LLVM

open AliveNext.Lib

/-- From `env` the code always finishes; it defines registers from `start`
on. -/
structure Transparent (insts : List Instruction) (start : Nat) (env : Env Reg) : Prop where
  fresh : ∀ inst ∈ insts, start ≤ inst.id
  defined : none ∉ runs insts env
  nonempty : (runs insts env).Nonempty

/-- The environments agree on the registers older than `start`. -/
def AgreeBelow (start : Nat) (env env' : Env Reg) : Prop :=
  ∀ (w : Nat) (r : Reg), r.Older start → env' w r = env w r

namespace Transparent

variable {insts insts' : List Instruction} {start : Nat} {env : Env Reg}

theorem agree (transparent : Transparent insts start env) {env' : Env Reg}
    (reached : some env' ∈ runs insts env) : AgreeBelow start env env' :=
  fun _ _ older => runs_older transparent.fresh reached older

theorem nil (start : Nat) (env : Env Reg) : Transparent [] start env where
  fresh := nofun
  defined := nofun
  nonempty := ⟨some env, rfl⟩

theorem mono (transparent : Transparent insts start env) {start' : Nat}
    (smaller : start' ≤ start) : Transparent insts start' env where
  fresh := fun inst member => smaller.trans (transparent.fresh inst member)
  defined := transparent.defined
  nonempty := transparent.nonempty

theorem bind_eq {α : Type} (transparent : Transparent insts start env) {next : Env Reg → Outcomes α}
    (independent : ∀ env', AgreeBelow start env env' → next env' = next env) :
    (runs insts env).bind next = next env := by
  ext outcome
  constructor
  · rintro (⟨undefined, -⟩ | ⟨env', reached, member⟩)
    · exact absurd undefined transparent.defined
    · rwa [independent env' (transparent.agree reached)] at member
  · intro member
    obtain ⟨result, reached⟩ := transparent.nonempty
    cases result with
    | none => exact absurd reached transparent.defined
    | some env' =>
      refine Outcomes.mem_bind_of_result reached ?_
      rwa [independent env' (transparent.agree reached)]

theorem append (first : Transparent insts start env)
    (second : ∀ env', AgreeBelow start env env' → Transparent insts' start env') :
    Transparent (insts ++ insts') start env where
  fresh := by
    intro inst member
    rcases List.mem_append.mp member with member | member
    · exact first.fresh inst member
    · exact (second env fun _ _ _ => rfl).fresh inst member
  defined := by
    rw [runs_append]
    rintro (⟨undefined, -⟩ | ⟨env', reached, undefined⟩)
    · exact first.defined undefined
    · exact (second env' (first.agree reached)).defined undefined
  nonempty := by
    rw [runs_append]
    exact Outcomes.bind_nonempty first.nonempty fun env' reached =>
      (second env' (first.agree reached)).nonempty

end Transparent

variable {term : Term Reg 1} {supply : Supply} {env : Env Reg}

theorem transparent_assume (older : ∀ use ∈ term.regs, use.2.Older supply.nextId)
    (holds : Term.AlwaysTrue (term.outcomes env)) :
    Transparent
      ((term.emit supply).insts ++
        [((term.emit supply).supply.emitAssume (term.emit supply).result).1])
      supply.nextId env := by
  have spec := term.emit_spec supply older
  have passes : ∀ env', some env' ∈ runs (term.emit supply).insts env →
      runs [((term.emit supply).supply.emitAssume
        (term.emit supply).result).1] env' = Outcomes.pure env' := by
    intro env' reached
    have condition := holds _ (spec.sound reached)
    rw [runs_singleton]
    simp only [Supply.emitAssume, Instruction.step]
    rw [Option.some.inj condition]
    exact assumed_true env'
  refine ⟨?_, ?_, ?_⟩
  · intro inst member
    rcases List.mem_append.mp member with member | member
    · exact (spec.fresh inst member).1
    · cases List.mem_singleton.mp member
      exact spec.grows
  · rw [runs_append]
    rintro (⟨undefined, -⟩ | ⟨env', reached, undefined⟩)
    · cases holds none (spec.undefined.mp undefined)
    · rw [passes env' reached] at undefined
      cases undefined
  · obtain ⟨outcome, member⟩ := term.outcomes_nonempty env
    cases holds outcome member
    obtain ⟨env', reached, -⟩ := spec.complete member
    refine ⟨some env', ?_⟩
    rw [runs_append]
    refine Outcomes.mem_bind_of_result reached ?_
    rw [passes env' reached]
    rfl

theorem undefined_assume (older : ∀ use ∈ term.regs, use.2.Older supply.nextId)
    (fails : ¬Term.AlwaysTrue (term.outcomes env)) :
    none ∈ runs ((term.emit supply).insts ++
      [((term.emit supply).supply.emitAssume (term.emit supply).result).1])
      env := by
  have spec := term.emit_spec supply older
  rw [runs_append]
  simp only [Term.AlwaysTrue, not_forall] at fails
  obtain ⟨outcome, member, notTrue⟩ := fails
  cases outcome with
  | none => exact Outcomes.none_mem_bind_of_first (spec.undefined.mpr member)
  | some content =>
    obtain ⟨env', reached, rfl⟩ := spec.complete member
    refine Outcomes.mem_bind_of_result reached ?_
    rw [runs_singleton]
    simp only [Supply.emitAssume, Instruction.step]
    rw [assumed_of_ne fun holds => notTrue (congrArg some holds)]
    rfl

theorem returned_of_scoped {scope : List (Nat × Reg)} {insts : List Instruction}
    {term : TermOp Reg} {env' : Env Reg} (wellScoped : Scoped scope insts)
    (termScoped : ∀ use ∈ term.regs, use ∈ scope ++ bodyScope insts)
    (agree : ∀ use ∈ scope, env use.1 use.2 = env' use.1 use.2) :
    (runs insts env).bind term.returned = (runs insts env').bind term.returned := by
  induction insts generalizing scope env env' with
  | nil =>
    have same : term.returned env = term.returned env' := by
      cases term with
      | ret value =>
        rw [TermOp.returned, TermOp.returned,
          Operand.content_congr fun use used => agree use (by
            simpa [bodyScope] using termScoped use used)]
      | retVoid => rfl
      | unreachable => rfl
    simpa using same
  | cons inst rest ih =>
    obtain ⟨uses, scopedRest⟩ := wellScoped
    have extend : bodyScope (inst :: rest) = inst.defines ++ bodyScope rest := List.flatMap_cons
    have later : ∀ {env env' : Env Reg},
        (∀ use ∈ scope ++ inst.defines, env use.1 use.2 = env' use.1 use.2) →
        (runs rest env).bind term.returned = (runs rest env').bind term.returned :=
      ih scopedRest fun use used => by
        have inScope := termScoped use used
        rwa [extend, ← List.append_assoc] at inScope
    rw [runs_cons, runs_cons, Outcomes.bind_assoc, Outcomes.bind_assoc]
    obtain ⟨id, name, op, metadata⟩ := inst
    cases op with
    | @value w rhs =>
      have same : rhs.outcomes env = rhs.outcomes env' :=
        Rhs.outcomes_congr fun use used => agree use (uses use used)
      simp only [Instruction.step, Outcomes.map, Outcomes.bind_assoc, Outcomes.pure_bind, same]
      congr 1
      funext content
      refine later fun use inScope => ?_
      by_cases defined : use = (w, .inst id)
      · subst defined
        rw [Env.set_self, Env.set_self]
      · rw [Env.set_of_ne _ _ defined, Env.set_of_ne _ _ defined]
        rcases List.mem_append.mp inScope with inScope | inDefines
        · exact agree use inScope
        · exact absurd (List.mem_singleton.mp inDefines) defined
    | assume cond =>
      have same : cond.content env = cond.content env' :=
        Operand.content_congr fun use used => agree use (uses use (by
          simpa [Op.regs, Op.operands] using used))
      simp only [Instruction.step, same]
      by_cases holds : cond.content env' = .single (some 1#1)
      · rw [holds, assumed_true, assumed_true, Outcomes.pure_bind, Outcomes.pure_bind]
        refine later fun use inScope => agree use ?_
        simpa [Instruction.defines, Instruction.type, Op.type] using inScope
      · rw [assumed_of_ne holds, assumed_of_ne holds, Outcomes.undefined_bind]

end AliveNext.LLVM
