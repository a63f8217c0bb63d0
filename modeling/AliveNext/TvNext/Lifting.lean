import AliveNext.TvNext.Unit

/-!
# Fidelity of the lift

A half of a unit, run on arguments that carry the values of the external
operands, has exactly the outcomes of the region's own instructions followed
by a return of the last one.

The proof runs the clones and the original instructions side by side.  The
relation between the two environments says that every external operand and
every instruction cloned so far is held by the register it is rewired to.
-/

namespace AliveNext.TvNext

open AliveNext.LLVM
open AliveNext.Lib

/-! ## Reads across the boundary of a region -/

def externalReads (insts : List Instruction) : List (Nat × Reg) :=
  (insts.flatMap fun inst => inst.op.regs).filter fun use =>
    !isInternal insts use.2

variable {insts : List Instruction} {body src tgt : Body} {out out' params : List Argument}
  {p : Argument} {diagName : String} {unit : TvUnit} {exit : Instruction} {w : Nat}

theorem mem_externalReads {use : Nat × Reg} :
    use ∈ externalReads insts ↔ (∃ inst ∈ insts, use ∈ inst.op.regs) ∧
        isInternal insts use.2 = false := by
  simp [externalReads, List.mem_filter, List.mem_flatMap]

theorem isInternal_inst {id : Nat} :
    isInternal insts (.inst id) = true ↔ id ∈ insts.map Instruction.id := by
  simp [isInternal]

/-- Every read of a value of the region comes after its definition. -/
def LocallyScoped (insts : List Instruction) : List Instruction → List Instruction → Prop
  | _, [] => True
  | done, inst :: rest =>
    (∀ use ∈ inst.op.regs, isInternal insts use.2 →
      use ∈ bodyScope done) ∧
      LocallyScoped insts (done ++ [inst]) rest

theorem locallyScoped_of_sublist : ∀ {body : List Instruction} {scope : List (Nat × Reg)}
      {done rest : List Instruction},
      Scoped scope body → rest.Sublist body → insts = done ++ rest →
        (body.map Instruction.id).Nodup →
        (∀ inst ∈ body, inst.id ∉ done.map Instruction.id) →
        (∀ use ∈ scope, isInternal insts use.2 → use ∈ bodyScope done) →
          LocallyScoped insts done rest := by
  intro body scope done rest wellScoped sublist
  induction sublist generalizing scope done with
  | slnil => intros; trivial
  | @cons rest body inst sublist ih =>
    -- the instruction is outside the region, so it defines nothing internal
    intro split nodup fresh known
    obtain ⟨-, scopedRest⟩ := wellScoped
    rw [List.map_cons, List.nodup_cons] at nodup
    refine ih scopedRest split nodup.2
      (fun other member => fresh other (List.mem_cons_of_mem inst member)) ?_
    intro use inScope internal
    rcases List.mem_append.mp inScope with inScope | defined
    · exact known use inScope internal
    · obtain ⟨w, r⟩ := use
      obtain ⟨-, rfl⟩ : inst.type = some w ∧ r = .inst inst.id := by
        simpa [Instruction.defines, eq_comm] using defined
      rw [isInternal_inst, split, List.map_append, List.mem_append] at internal
      rcases internal with early | late
      · exact absurd early (fresh inst List.mem_cons_self)
      · exact absurd ((sublist.map Instruction.id).subset late) nodup.1
  | @cons_cons rest body inst sublist ih =>
    intro split nodup fresh known
    obtain ⟨uses, scopedRest⟩ := wellScoped
    rw [List.map_cons, List.nodup_cons] at nodup
    refine ⟨fun use used internal => known use (uses use used) internal,
      ih scopedRest (by simpa using split) nodup.2 ?_ ?_⟩
    · intro other member
      rw [List.map_append, List.mem_append, not_or]
      refine ⟨fresh other (List.mem_cons_of_mem inst member), ?_⟩
      intro same
      rw [List.map_singleton, List.mem_singleton] at same
      exact nodup.1 (same ▸ List.mem_map_of_mem member)
    · intro use inScope internal
      rw [bodyScope, List.flatMap_append, List.mem_append]
      rcases List.mem_append.mp inScope with inScope | defined
      · exact Or.inl (known use inScope internal)
      · exact Or.inr (by simpa using defined)

section

variable (body : Body) (insts : List Instruction) (params : List Argument)

/-- The clones' environment holds the values of everything that can still be
read: external operands and instructions cloned so far. -/
structure CloneRel (origToClone : List (Nat × Nat))
    (done : List Instruction) (cloneEnv env : Env Reg) : Prop where
  holds : ∀ use, use ∈ externalReads insts ∨ use ∈ bodyScope done →
    cloneEnv use.1 (rewire body insts params origToClone use.2) = env use.1 use.2
  cloned : ∀ inst ∈ done, ∃ k < origToClone.length, origToClone.lookup inst.id = some k

variable {body insts params}

variable {origToClone : List (Nat × Nat)} {done : List Instruction} {orig : Instruction}
  {cloneEnv env : Env Reg}

private theorem rewire_external {r : Reg} (external : isInternal insts r = false) :
    rewire body insts params origToClone r = paramOf params (body.nameOf r) := by
  simp [rewire, external]

private theorem rewire_internal {id k : Nat}
    (internal : isInternal insts (.inst id) = true) (found : origToClone.lookup id = some k) :
    rewire body insts params origToClone (.inst id) = .inst k := by
  simp [rewire, internal, found]

private theorem lookup_cons_of_ne {entries : List (Nat × Nat)} {a b v : Nat} (different : a ≠ b) :
    ((b, v) :: entries).lookup a = entries.lookup a := by
  simp [List.lookup_cons, beq_false_of_ne different]

section

variable (related : CloneRel body insts params origToClone done cloneEnv env)
    (member : orig ∈ insts) (doneInside : ∀ inst ∈ done, inst ∈ insts)
    (fresh : orig.id ∉ done.map Instruction.id)

include related member doneInside fresh

/-- The relation after one more instruction, given that the two environments
differ from the old ones at most in the registers just defined. -/
private theorem cloneRel_extend {cloneEnv' env' : Env Reg}
    (cloneFrame : ∀ w r, r ≠ .inst origToClone.length → cloneEnv' w r = cloneEnv w r)
    (frame : ∀ w r, r ≠ .inst orig.id → env' w r = env w r) (defined : ∀ w, orig.type = some w →
      cloneEnv' w (.inst origToClone.length) = env' w (.inst orig.id)) :
    CloneRel body insts params ((orig.id, origToClone.length) :: origToClone) (done ++ [orig])
      cloneEnv' env' where
  holds := by
    have inside : ∀ inst ∈ insts, isInternal insts (.inst inst.id) = true :=
      fun inst present => isInternal_inst.mpr (List.mem_map_of_mem present)
    rintro ⟨w, r⟩ (external | defines)
    · have notInternal := (mem_externalReads.mp external).2
      have old := related.holds (w, r) (Or.inl external)
      simp only [rewire_external notInternal] at old ⊢
      rw [cloneFrame w _ (by simp [paramOf]), old, frame w r]
      rintro rfl
      exact absurd (inside orig member) (by simpa using notInternal)
    · rw [bodyScope, List.flatMap_append, List.mem_append] at defines
      rcases defines with early | now
      · have old := related.holds (w, r) (Or.inr early)
        obtain ⟨inst, present, -, rfl⟩ := mem_bodyScope.mp early
        have different : inst.id ≠ orig.id := fun same =>
          fresh (same ▸ List.mem_map_of_mem present)
        obtain ⟨k, bound, found⟩ := related.cloned inst present
        have internal := inside inst (doneInside inst present)
        have found' : ((orig.id, origToClone.length) :: origToClone).lookup inst.id = some k :=
          (lookup_cons_of_ne different).trans found
        simp only [rewire_internal internal found] at old
        simp only [rewire_internal internal found']
        rw [cloneFrame w _ (by simpa using Nat.ne_of_lt bound), old,
          frame w _ (by simpa using different)]
      · obtain ⟨inst, present, typed, rfl⟩ := mem_bodyScope.mp now
        rw [List.mem_singleton] at present
        subst present
        have found : ((inst.id, origToClone.length) :: origToClone).lookup
            inst.id = some origToClone.length := by
          simp
        simp only [rewire_internal (inside inst member) found]
        exact defined w typed
  cloned := by
    intro inst present
    rcases List.mem_append.mp present with early | now
    · obtain ⟨k, bound, found⟩ := related.cloned inst early
      have different : inst.id ≠ orig.id := fun same =>
        fresh (same ▸ List.mem_map_of_mem early)
      exact ⟨k, Nat.lt_succ_of_lt bound, (lookup_cons_of_ne different).trans found⟩
    · rw [List.mem_singleton] at now
      subst now
      exact ⟨origToClone.length, Nat.lt_succ_self _, by simp⟩

private theorem clone_step {name : Name} {γ : Type} {cloneNext next : Env Reg → Outcomes γ}
    (readable : ∀ use ∈ orig.op.regs,
      use ∈ externalReads insts ∨ use ∈ bodyScope done)
    (continued : ∀ cloneEnv' env', CloneRel body insts params
          ((orig.id, origToClone.length) :: origToClone) (done ++ [orig])
          cloneEnv' env' →
        cloneNext cloneEnv' = next env') :
    (Instruction.step
        ⟨origToClone.length, name, orig.op.map (rewire body insts params origToClone),
          orig.metadata⟩ cloneEnv).bind cloneNext =
      (orig.step env).bind next := by
  obtain ⟨id, origName, op, metadata⟩ := orig
  cases op with
  | value rhs =>
    have outcomes : (rhs.map (rewire body insts params origToClone)).outcomes cloneEnv =
          rhs.outcomes env := by
      rw [Rhs.outcomes_map]
      exact Rhs.outcomes_congr fun use used =>
        related.holds use (readable use used)
    simp only [Instruction.step, Op.map, outcomes, Outcomes.map,
      Outcomes.bind_assoc, Outcomes.pure_bind]
    congr 1
    funext content
    refine continued _ _ (cloneRel_extend related member doneInside fresh ?_ ?_ ?_)
    · exact fun v r different => Env.set_of_ne _ content
        fun same => different (congrArg Prod.snd same)
    · exact fun v r different => Env.set_of_ne _ content
        fun same => different (congrArg Prod.snd same)
    · intro v typed
      cases typed
      rw [Env.set_self, Env.set_self]
  | assume cond =>
    have read : (cond.map (rewire body insts params origToClone)).content
        cloneEnv = cond.content env := by
      rw [Operand.content_map]
      exact Operand.content_congr fun use used =>
        related.holds use (readable use (by simpa [Op.regs, Op.operands]))
    have unchanged := continued cloneEnv env
      (cloneRel_extend related member doneInside fresh
        (fun _ _ _ => rfl) (fun _ _ _ => rfl) (fun _ typed => by cases typed))
    simp only [Instruction.step, Op.map, read]
    by_cases holds : cond.content env = .single (some 1#1)
    · rw [holds, assumed_true, assumed_true, Outcomes.pure_bind, Outcomes.pure_bind, unchanged]
    · rw [assumed_of_ne holds, assumed_of_ne holds, Outcomes.undefined_bind,
        Outcomes.undefined_bind]

end

private theorem returnExit_cons {inst next : Instruction} {rest : List Instruction} :
    returnExit (inst :: next :: rest) = returnExit (next :: rest) := by
  simp [returnExit, List.getLast?_cons_cons]

/-- The loop of `buildHalf`, from any point on. -/
private theorem cloneLoop_outcomes :
    ∀ (rest done : List Instruction) (origToClone : List (Nat × Nat))
      (table : SymbolTable) (cloneEnv env : Env Reg),
      rest ≠ [] → insts = done ++ rest → (insts.map Instruction.id).Nodup →
        LocallyScoped insts done rest →
        CloneRel body insts params origToClone done cloneEnv env →
          (runs (cloneLoop body insts params rest origToClone table) cloneEnv).bind
            (returnExit (cloneLoop body insts params rest origToClone table)).returned =
            (runs rest env).bind (returnExit rest).returned
  | [], _, _, _, _, _, nonempty, _, _, _, _ => absurd rfl nonempty
  | orig :: rest, done, origToClone, table, cloneEnv, env, _, split, nodup,
      ⟨uses, scopedRest⟩, related => by
      have member : orig ∈ insts := by rw [split]; simp
      have doneInside : ∀ inst ∈ done, inst ∈ insts := fun inst present => by
        rw [split]
        exact List.mem_append_left _ present
      have fresh : orig.id ∉ done.map Instruction.id := by
        rw [split, List.map_append, List.nodup_append] at nodup
        intro early
        exact nodup.2.2 _ early _ List.mem_cons_self rfl
      have readable : ∀ use ∈ orig.op.regs,
          use ∈ externalReads insts ∨ use ∈ bodyScope done := by
        intro use used
        cases internal : isInternal insts use.2 with
        | true => exact Or.inr (uses use used internal)
        | false =>
          exact Or.inl (mem_externalReads.mpr ⟨⟨orig, member, used⟩, internal⟩)
      simp only [cloneLoop, runs_cons, Outcomes.bind_assoc]
      apply clone_step related member doneInside fresh readable
      intro cloneEnv' env' related'
      cases rest with
      | nil =>
        simp only [cloneLoop, runs_nil, Outcomes.pure_bind, returnExit,
          List.getLast?_singleton, Instruction.type]
        obtain ⟨id, origName, op, metadata⟩ := orig
        cases op with
        | assume cond => rfl
        | @value w rhs =>
          have exit := related'.holds (w, .inst id) (Or.inr (by
            simp [bodyScope, Instruction.defines, Instruction.type, Op.type]))
          have internal : isInternal insts (.inst id) = true :=
            isInternal_inst.mpr (List.mem_map_of_mem member)
          simp only [rewire_internal internal List.lookup_cons_self] at exit
          simp only [Op.map, Op.type, TermOp.returned, Operand.content, exit]
      | cons next rest =>
        have loop := cloneLoop_outcomes (next :: rest) (done ++ [orig])
          _ (table.insert orig.name).2 cloneEnv' env'
          (List.cons_ne_nil _ _) (by simpa using split) nodup scopedRest
          related'
        simp only [cloneLoop, returnExit_cons] at loop ⊢
        exact loop

theorem buildHalf_outcomes {args : ArgTuple}
    (nonempty : insts ≠ []) (nodup : (insts.map Instruction.id).Nodup)
    (inOrder : LocallyScoped insts [] insts) (bound : ∀ use ∈ externalReads insts, ∀ index,
      paramOf params (body.nameOf use.2) = .arg index → args use.1 index = env use.1 use.2) :
    (buildHalf body insts params).outcomes args =
      (runs insts env).bind (returnExit insts).returned := by
  refine cloneLoop_outcomes insts [] [] _ (bindArgs args) env nonempty rfl
    nodup inOrder ⟨?_, List.forall_mem_nil _⟩
  rintro ⟨w, r⟩ (external | impossible)
  · have notInternal := (mem_externalReads.mp external).2
    simp only [rewire_external notInternal]
    exact bound (w, r) external _ rfl
  · exact absurd impossible List.not_mem_nil

end

/-! ## Parameters -/

private theorem collectOperand_ok {operand : Σ w, Operand Reg w}
    (collected : collectOperand body insts out operand = .ok out') :
    (∀ use ∈ operand.2.regs, isInternal insts use.2 = false → body.nameOf use.2 ≠ [] ∧
          body.nameOf use.2 ∈ out'.map Argument.name) ∧
      (out' = out ∨ ∃ use ∈ operand.2.regs, isInternal insts use.2 = false ∧
          body.nameOf use.2 ∉ out.map Argument.name ∧
          out' = out ++ [⟨body.nameOf use.2, use.1⟩]) := by
  obtain ⟨w, operand⟩ := operand
  cases operand with
  | reg r =>
    simp only [collectOperand] at collected
    simp only [Operand.regs, List.mem_singleton, forall_eq, exists_eq_left]
    split at collected
    · rename_i internal
      cases collected
      exact ⟨fun external => by simp [internal] at external, Or.inl rfl⟩
    · rename_i external
      have notInternal : isInternal insts r = false := by simpa using external
      split at collected
      · cases collected
      · rename_i named
        have nonempty : body.nameOf r ≠ [] := by simpa using named
        split at collected
        · rename_i present
          cases collected
          exact ⟨fun _ => ⟨nonempty, present⟩, Or.inl rfl⟩
        · rename_i absent
          cases collected
          exact ⟨fun _ => ⟨nonempty, by simp⟩, Or.inr ⟨notInternal, absent, rfl⟩⟩
  | _ =>
    cases collected
    exact ⟨by simp [Operand.regs], Or.inl rfl⟩

private theorem nodup_names_append (nodup : (out.map Argument.name).Nodup)
    (absent : p.name ∉ out.map Argument.name) : ((out ++ [p]).map Argument.name).Nodup := by
  rw [List.map_append, List.nodup_append]
  refine ⟨nodup, List.nodup_singleton _, ?_⟩
  rintro name present _ single rfl
  rw [List.map_singleton, List.mem_singleton] at single
  exact absent (single ▸ present)

private theorem foldlM_collectOperand :
    ∀ (operands : List (Σ w, Operand Reg w)) (out final : List Argument),
      operands.foldlM (collectOperand body insts) out = .ok final → (out.map Argument.name).Nodup →
          (final.map Argument.name).Nodup ∧ (∀ p ∈ out, p ∈ final) ∧
            (∀ operand ∈ operands, ∀ use ∈ operand.2.regs, isInternal insts use.2 = false →
                body.nameOf use.2 ≠ [] ∧ body.nameOf use.2 ∈ final.map Argument.name) ∧
            (∀ p ∈ final, p ∈ out ∨ ∃ operand ∈ operands, ∃ use ∈ operand.2.regs,
                isInternal insts use.2 = false ∧ p = ⟨body.nameOf use.2, use.1⟩)
  | [], out, final, folded, nodup => by
    cases folded
    exact ⟨nodup, fun _ member => member, by simp, fun _ member => Or.inl member⟩
  | operand :: rest, out, final, folded, nodup => by
    rw [List.foldlM_cons] at folded
    cases collected : collectOperand body insts out operand with
    | error reason => rw [collected] at folded; cases folded
    | ok out' =>
      rw [collected] at folded
      obtain ⟨named, grown⟩ := collectOperand_ok collected
      have nodup' : (out'.map Argument.name).Nodup := by
        rcases grown with rfl | ⟨use, -, -, absent, rfl⟩
        · exact nodup
        · exact nodup_names_append nodup absent
      obtain ⟨finalNodup, kept, covered, origin⟩ :=
        foldlM_collectOperand rest out' final folded nodup'
      refine ⟨finalNodup, fun p member => kept p ?_, ?_, ?_⟩
      · rcases grown with rfl | ⟨use, -, -, -, rfl⟩
        · exact member
        · exact List.mem_append_left _ member
      · intro other member use used external
        rcases List.mem_cons.mp member with rfl | member
        · obtain ⟨nonempty, present⟩ := named use used external
          obtain ⟨p, inOut, same⟩ := List.mem_map.mp present
          exact ⟨nonempty, List.mem_map.mpr ⟨p, kept p inOut, same⟩⟩
        · exact covered other member use used external
      · intro p member
        rcases origin p member with early | ⟨other, inRest, found⟩
        · rcases grown with rfl | ⟨use, used, external, -, rfl⟩
          · exact Or.inl early
          · rcases List.mem_append.mp early with early | now
            · exact Or.inl early
            · exact Or.inr ⟨operand, List.mem_cons_self, use, used,
                external, List.mem_singleton.mp now⟩
        · exact Or.inr ⟨other, List.mem_cons_of_mem operand inRest, found⟩

theorem collectExternalOperands_ok (collected : collectExternalOperands body insts = .ok out) :
    (out.map Argument.name).Nodup ∧
      (∀ use ∈ externalReads insts, body.nameOf use.2 ≠ [] ∧
        body.nameOf use.2 ∈ out.map Argument.name) ∧
      (∀ p ∈ out, ∃ use ∈ externalReads insts, p = ⟨body.nameOf use.2, use.1⟩) := by
  obtain ⟨nodup, -, covered, origin⟩ :=
    foldlM_collectOperand _ [] out collected List.nodup_nil
  refine ⟨nodup, ?_, ?_⟩
  · intro use external
    obtain ⟨⟨inst, member, used⟩, notInternal⟩ := mem_externalReads.mp external
    obtain ⟨operand, inOperands, read⟩ := List.mem_flatMap.mp used
    exact covered operand (List.mem_flatMap.mpr ⟨inst, member, inOperands⟩)
      use read notInternal
  · intro p member
    rcases origin p member with impossible | ⟨operand, inside, use, read, notInternal, rfl⟩
    · exact absurd impossible List.not_mem_nil
    · obtain ⟨inst, present, inOperands⟩ := List.mem_flatMap.mp inside
      exact ⟨use, mem_externalReads.mpr
        ⟨⟨inst, present, List.mem_flatMap.mpr ⟨operand, inOperands, read⟩⟩, notInternal⟩, rfl⟩

private theorem addOne_ok (added : addOne out p = .ok out') : (out' = out ∧ p ∈ out) ∨
      (p.name ∉ out.map Argument.name ∧ out' = out ++ [p]) := by
  unfold addOne at added
  split at added
  · rename_i absent
    cases added
    refine Or.inr ⟨?_, rfl⟩
    intro present
    obtain ⟨q, member, same⟩ := List.mem_map.mp present
    exact absurd same (by simpa using List.find?_eq_none.mp absent q member)
  · rename_i q found
    split at added
    · rename_i width
      cases added
      have name : q.name = p.name := by simpa using List.find?_some found
      have equal : q = p := by
        cases q
        cases p
        simp_all
      exact Or.inl ⟨rfl, equal ▸ List.mem_of_find?_eq_some found⟩
    · cases added

private theorem foldlM_addOne : ∀ (ps out final : List Argument), ps.foldlM addOne out = .ok final →
      (out.map Argument.name).Nodup → (final.map Argument.name).Nodup ∧
          ∀ p, p ∈ final ↔ p ∈ out ∨ p ∈ ps
  | [], out, final, folded, nodup => by
    cases folded
    exact ⟨nodup, by simp⟩
  | q :: rest, out, final, folded, nodup => by
    rw [List.foldlM_cons] at folded
    cases added : addOne out q with
    | error reason => rw [added] at folded; cases folded
    | ok out' =>
      rw [added] at folded
      rcases addOne_ok added with ⟨rfl, present⟩ | ⟨absent, rfl⟩
      · obtain ⟨finalNodup, members⟩ :=
          foldlM_addOne rest out' final folded nodup
        refine ⟨finalNodup, fun p => ?_⟩
        rw [members, List.mem_cons]
        constructor
        · rintro (early | late)
          · exact Or.inl early
          · exact Or.inr (Or.inr late)
        · rintro (early | rfl | late)
          · exact Or.inl early
          · exact Or.inl present
          · exact Or.inr late
      · obtain ⟨finalNodup, members⟩ :=
          foldlM_addOne rest (out ++ [q]) final folded (nodup_names_append nodup absent)
        refine ⟨finalNodup, fun p => ?_⟩
        rw [members, List.mem_append, List.mem_singleton, List.mem_cons, or_assoc]

theorem unionNamedOperands_ok {srcOps tgtOps : List Argument}
    (united : unionNamedOperands srcOps tgtOps = .ok out) :
    (out.map Argument.name).Nodup ∧ ∀ p, p ∈ out ↔ p ∈ srcOps ∨ p ∈ tgtOps := by
  unfold unionNamedOperands at united
  cases first : srcOps.foldlM addOne [] with
  | error reason => rw [first] at united; cases united
  | ok middle =>
    rw [first] at united
    obtain ⟨nodup, fromSrc⟩ :=
      foldlM_addOne srcOps [] middle first List.nodup_nil
    obtain ⟨finalNodup, members⟩ :=
      foldlM_addOne tgtOps middle out united nodup
    exact ⟨finalNodup, fun p => by simp [members, fromSrc]⟩

theorem paramOf_found {name : Name} {index : Nat} (present : name ∈ params.map Argument.name)
    (found : paramOf params name = .arg index) : ∃ p, params[index]? = some p ∧ p.name = name := by
  cases found
  obtain ⟨p, member, rfl⟩ := List.mem_map.mp present
  have bound : (params.findIdx fun q => q.name == p.name) < params.length :=
    List.findIdx_lt_length_of_exists ⟨p, member, by simp⟩
  refine ⟨_, List.getElem?_eq_getElem bound, ?_⟩
  simpa using List.findIdx_getElem (w := bound)

/-! ## Units -/

/-- What `liftSides` builds from the two sides of a region. -/
structure Lifted (src tgt : Body) (srcInsts tgtInsts : List Instruction)
    (unit : TvUnit) : Prop where
  same_args : unit.tgtFn.args = unit.srcFn.args
  names_nodup : (unit.srcFn.args.map Argument.name).Nodup
  src_named : ∀ use ∈ externalReads srcInsts, src.nameOf use.2 ≠ [] ∧
    src.nameOf use.2 ∈ unit.srcFn.args.map Argument.name
  tgt_named : ∀ use ∈ externalReads tgtInsts, tgt.nameOf use.2 ≠ [] ∧
    tgt.nameOf use.2 ∈ unit.srcFn.args.map Argument.name
  origin : ∀ p ∈ unit.srcFn.args, (∃ use ∈ externalReads srcInsts, p = ⟨src.nameOf use.2, use.1⟩) ∨
      ∃ use ∈ externalReads tgtInsts, p = ⟨tgt.nameOf use.2, use.1⟩
  src_half : unit.srcFn.blocks = [buildHalf src srcInsts unit.srcFn.args]
  tgt_half : unit.tgtFn.blocks = [buildHalf tgt tgtInsts unit.srcFn.args]

private theorem liftSides_ok {srcInsts tgtInsts : List Instruction}
    (lifted : liftSides src tgt srcInsts tgtInsts diagName = .ok unit) :
    Lifted src tgt srcInsts tgtInsts unit := by
  unfold liftSides at lifted
  cases srcCollected : collectExternalOperands src srcInsts with
  | error reason => rw [srcCollected] at lifted; cases lifted
  | ok srcOps =>
  cases tgtCollected : collectExternalOperands tgt tgtInsts with
  | error reason => rw [srcCollected, tgtCollected] at lifted; cases lifted
  | ok tgtOps =>
  cases united : unionNamedOperands srcOps tgtOps with
  | error reason =>
    simp only [srcCollected, tgtCollected, bind, Except.bind] at lifted
    rw [united] at lifted
    cases lifted
  | ok params =>
    simp only [srcCollected, tgtCollected, united, bind, Except.bind, pure,
      Except.pure, Except.ok.injEq] at lifted
    subst lifted
    obtain ⟨-, srcNamed, srcOrigin⟩ := collectExternalOperands_ok srcCollected
    obtain ⟨-, tgtNamed, tgtOrigin⟩ := collectExternalOperands_ok tgtCollected
    obtain ⟨nodup, members⟩ := unionNamedOperands_ok united
    have keeps : ∀ {ops : List Argument} {name : Name},
        (∀ p ∈ ops, p ∈ params) → name ∈ ops.map Argument.name →
          name ∈ params.map Argument.name := by
      rintro ops name kept present
      obtain ⟨p, member, rfl⟩ := List.mem_map.mp present
      exact List.mem_map_of_mem (kept p member)
    refine ⟨rfl, nodup, ?_, ?_, ?_, rfl, rfl⟩
    · exact fun use read => ⟨(srcNamed use read).1,
        keeps (fun p member => (members p).mpr (Or.inl member)) (srcNamed use read).2⟩
    · exact fun use read => ⟨(tgtNamed use read).1,
        keeps (fun p member => (members p).mpr (Or.inr member)) (tgtNamed use read).2⟩
    · intro p member
      rcases (members p).mp member with fromSrc | fromTgt
      · exact Or.inl (srcOrigin p fromSrc)
      · exact Or.inr (tgtOrigin p fromTgt)

/-- A built unit: both sides end in values of one type, and the halves are
lifted from them. -/
theorem buildTvUnit_ok {region : DiffRegion}
    (built : buildTvUnit src tgt region diagName = .ok unit) :
    (∃ w s t, region.srcInsts.getLast? = some s ∧ region.tgtInsts.getLast? = some t ∧
        s.type = some w ∧ t.type = some w) ∧
      Lifted src tgt region.srcInsts region.tgtInsts unit := by
  unfold buildTvUnit at built
  split at built
  · rename_i asymmetric
    unfold buildAsymTvUnit at built
    split at built
    · rename_i s t srcLast tgtLast
      simp only [DiffRegion.srcInsts, DiffRegion.tgtInsts, asymmetric, if_true]
      split at built
      · cases built
      · rename_i notVoid
        split at built
        · cases built
        · rename_i types
          obtain ⟨w, typed⟩ : ∃ w, s.type = some w := by
            simpa [Option.ne_none_iff_exists'] using notVoid
          exact ⟨⟨w, s, t, srcLast, tgtLast, typed,
            (not_not.mp types).trans typed⟩, liftSides_ok built⟩
    · cases built
  · rename_i symmetric
    simp only [DiffRegion.srcInsts, DiffRegion.tgtInsts, symmetric, Bool.false_eq_true, if_false]
    split at built
    · cases built
    · rename_i exit last
      split at built
      · cases built
      · rename_i noneDiffers
        split at built
        · cases built
        · rename_i notVoid
          obtain ⟨w, typed⟩ : ∃ w, exit.srcInst.type = some w := by
            simpa [Option.ne_none_iff_exists'] using notVoid
          have types : exit.srcInst.type = exit.tgtInst.type := by
            simpa using List.find?_eq_none.mp noneDiffers exit (List.mem_of_getLast? last)
          exact ⟨⟨w, exit.srcInst, exit.tgtInst,
            by rw [List.getLast?_map, last]; rfl,
            by rw [List.getLast?_map, last]; rfl, typed,
            types.symm.trans typed⟩, liftSides_ok built⟩

/-! ## Fidelity -/

def Binds (body : Body) (params : List Argument) (env : Env Reg) (args : ArgTuple) : Prop :=
  ∀ index p r, params[index]? = some p → body.nameOf r = p.name → ∀ w, args w index = env w r

structure FaithfulHalf (body : Body) (insts : List Instruction) (half : Function) : Prop where
  /-- In every environment the half has the outcomes of the instructions. -/
  region_outcomes : ∀ env args, Binds body half.args env args →
    half.outcomes args = (runs insts env).bind (returnExit insts).returned
  /-- In the environment that an execution of the parent leaves, it can return
  the parent's value of the last instruction. -/
  parent_value : ∀ start env args, some env ∈ runs body.insts start →
    Binds body half.args env args → ∀ exit w, insts.getLast? = some exit → exit.type = some w →
        some (Returned.value (env w (.inst exit.id))) ∈ half.outcomes args
  /-- Without a `freeze` to resolve it returns nothing else. -/
  parent_value_unique : ∀ start env args, some env ∈ runs body.insts start →
    Binds body half.args env args → ∀ exit w, insts.getLast? = some exit →
      exit.type = some w → (∀ inst ∈ insts, inst.isFreeze = false) → half.outcomes args =
          Outcomes.pure (.value (env w (.inst exit.id)))

theorem LocallyScoped.of_verified (verified : body.Verified) (inOrder : insts.Sublist body.insts) :
    LocallyScoped insts [] insts := by
  refine locallyScoped_of_sublist verified.body_scoped inOrder rfl
    verified.ids_nodup (fun _ _ => List.not_mem_nil) ?_
  rintro ⟨w, r⟩ inScope internal
  obtain ⟨entry, -, same⟩ := List.mem_map.mp inScope
  cases same
  cases internal

theorem argScope_apart (args : List Argument) (insts : List Instruction) :
    ∀ use ∈ argScope args, use ∉ bodyScope insts := by
  rintro ⟨w, r⟩ inScope defined
  obtain ⟨entry, -, same⟩ := List.mem_map.mp inScope
  cases same
  obtain ⟨inst, -, -, impossible⟩ := mem_bodyScope.mp defined
  cases impossible

private theorem returnExit_returned
    (last : insts.getLast? = some exit) (typed : exit.type = some w) (env : Env Reg) :
    (returnExit insts).returned env = Outcomes.pure (.value (env w (.inst exit.id))) := by
  simp only [returnExit, last, typed, TermOp.returned, Operand.content]

theorem buildHalf_value (verified : body.Verified) (inOrder : insts.Sublist body.insts)
    (last : insts.getLast? = some exit)
    (typed : exit.type = some w) {args : ArgTuple} (env : Env Reg)
    (bound : ∀ use ∈ externalReads insts, ∀ index, paramOf params (body.nameOf use.2) = .arg index →
        args use.1 index = env use.1 use.2) :
    (buildHalf body insts params).outcomes args =
      (runs insts env).map fun env' => .value (env' w (.inst exit.id)) := by
  have outcomes : (buildHalf body insts params).outcomes args =
      (runs insts env).bind (returnExit insts).returned :=
    buildHalf_outcomes (List.ne_nil_of_mem (List.mem_of_getLast? last))
      ((inOrder.map Instruction.id).nodup verified.ids_nodup)
      (LocallyScoped.of_verified verified inOrder) bound
  rw [outcomes, show (returnExit insts).returned = fun env' =>
    Outcomes.pure (.value (env' w (.inst exit.id))) from
      funext (returnExit_returned last typed)]
  rfl

theorem faithfulHalf (verified : body.Verified)
    (nonempty : insts ≠ []) (inOrder : insts.Sublist body.insts) {half : Function}
    (lifted : half.blocks = [buildHalf body insts half.args])
    (named : ∀ use ∈ externalReads insts, body.nameOf use.2 ∈ half.args.map Argument.name) :
    FaithfulHalf body insts half := by
  have nodup : (insts.map Instruction.id).Nodup :=
    (inOrder.map Instruction.id).nodup verified.ids_nodup
  have outcomes : ∀ env args, Binds body half.args env args → half.outcomes args =
        (runs insts env).bind (returnExit insts).returned := by
    intro env args binds
    simp only [Function.outcomes, lifted]
    refine buildHalf_outcomes nonempty nodup (LocallyScoped.of_verified verified inOrder) ?_
    intro use external index found
    obtain ⟨p, present, same⟩ := paramOf_found (named use external) found
    exact binds index p use.2 present same.symm use.1
  have again : ∀ start env, some env ∈ runs body.insts start → some env ∈ runs insts env := by
    intro start env reached
    refine runs_of_steps fun inst member => ?_
    exact step_of_runs verified.body_scoped verified.ids_nodup
      (argScope_apart body.args body.insts) reached inst
      (inOrder.subset member)
  have parentValue : ∀ start env args, some env ∈ runs body.insts start →
      Binds body half.args env args → ∀ exit w, insts.getLast? = some exit → exit.type = some w →
          some (Returned.value (env w (.inst exit.id))) ∈ half.outcomes args := by
    intro start env args reached binds exit w last typed
    rw [outcomes env args binds]
    refine Outcomes.mem_bind_of_result (again start env reached) ?_
    rw [returnExit_returned last typed]
    rfl
  refine ⟨outcomes, parentValue, ?_⟩
  intro start env args reached binds exit w last typed noChoice
  have possible := parentValue start env args reached binds exit w last typed
  have single : (half.outcomes args).Subsingleton := by
    rw [outcomes env args binds]
    refine Outcomes.bind_subsingleton (runs_subsingleton noChoice env) ?_
    intro env'
    rw [returnExit_returned last typed]
    exact Set.subsingleton_singleton
  exact single.eq_singleton_of_mem possible

/-- The lift is faithful on both sides, and the two functions share one
parameter list that holds every external name exactly once. -/
theorem buildTvUnit_faithful {src tgt : StraightLine} {region : DiffRegion}
    {diagName : String} {unit : TvUnit} (srcInOrder : region.srcInsts.Sublist src.body.insts)
    (tgtInOrder : region.tgtInsts.Sublist tgt.body.insts)
    (built : buildTvUnit src.body tgt.body region diagName = .ok unit) :
    FaithfulHalf src.body region.srcInsts unit.srcFn ∧
      FaithfulHalf tgt.body region.tgtInsts unit.tgtFn ∧
      (∃ w s t, region.srcInsts.getLast? = some s ∧
        region.tgtInsts.getLast? = some t ∧
        s.type = some w ∧ t.type = some w) ∧
      unit.tgtFn.args = unit.srcFn.args ∧
      (unit.srcFn.args.map Argument.name).Nodup ∧
      ∀ name, name ∈ unit.srcFn.args.map Argument.name ↔
        (∃ use ∈ externalReads region.srcInsts,
            src.body.nameOf use.2 = name) ∨
          ∃ use ∈ externalReads region.tgtInsts,
            tgt.body.nameOf use.2 = name := by
  obtain ⟨exits, lifted⟩ := buildTvUnit_ok built
  obtain ⟨w, s, t, srcLast, tgtLast, srcTyped, tgtTyped⟩ := exits
  have tgtHalf : unit.tgtFn.blocks = [buildHalf tgt.body region.tgtInsts unit.tgtFn.args] := by
    rw [lifted.same_args]
    exact lifted.tgt_half
  have tgtNamed : ∀ use ∈ externalReads region.tgtInsts,
      tgt.body.nameOf use.2 ∈ unit.tgtFn.args.map Argument.name := by
    rw [lifted.same_args]
    exact fun use external => (lifted.tgt_named use external).2
  refine ⟨faithfulHalf src.verified (List.ne_nil_of_mem
      (List.mem_of_getLast? srcLast)) srcInOrder lifted.src_half
      (fun use external => (lifted.src_named use external).2),
    faithfulHalf tgt.verified (List.ne_nil_of_mem
      (List.mem_of_getLast? tgtLast)) tgtInOrder tgtHalf tgtNamed,
    ⟨w, s, t, srcLast, tgtLast, srcTyped, tgtTyped⟩, lifted.same_args,
    lifted.names_nodup, fun name => ⟨?_, ?_⟩⟩
  · intro present
    obtain ⟨p, member, rfl⟩ := List.mem_map.mp present
    rcases lifted.origin p member with ⟨use, external, rfl⟩ | ⟨use, external, rfl⟩
    · exact Or.inl ⟨use, external, rfl⟩
    · exact Or.inr ⟨use, external, rfl⟩
  · rintro (⟨use, external, rfl⟩ | ⟨use, external, rfl⟩)
    · exact (lifted.src_named use external).2
    · exact (lifted.tgt_named use external).2

/-- `%x = add i8 %a, 1`. -/
def increment : Instruction :=
  ⟨0, ascii "x", .value (.binop (w := 8) (.add false false) (.reg (.arg 0))
    (.const 1)), []⟩

/-- `%y` from `%x` and a constant. -/
def doubling (op : BinOp) (operand : BitVec 8) : Instruction :=
  ⟨1, ascii "y", .value (.binop op (.reg (.inst 0)) (.const operand)), []⟩

def doublingBlock (last : BinOp) (operand : BitVec 8) : BasicBlock where
  name := ascii "entry"
  insts := [increment, doubling last operand]
  term := ⟨.ret (w := 8) (.reg (.inst 1)), []⟩

def doublingFn (last : BinOp) (operand : BitVec 8) : Function where
  name := ascii "f"
  args := [⟨ascii "a", 8⟩]
  blocks := [doublingBlock last operand]

def doublingSrc : StraightLine where
  toFunction := doublingFn (.mul false false) 2
  block := doublingBlock (.mul false false) 2
  single := rfl
  verified := by decide +kernel

def doublingTgt : StraightLine where
  toFunction := doublingFn (.shl false false) 1
  block := doublingBlock (.shl false false) 1
  single := rfl
  verified := by decide +kernel

def doublingRegion : DiffRegion where
  positions := [⟨1, doubling (.mul false false) 2, doubling (.shl false false) 1⟩]

theorem buildTvUnit_faithful_doubling :
    ∃ unit, buildTvUnit doublingSrc.body doublingTgt.body doublingRegion
        "unit@2" = .ok unit ∧
      unit.srcFn.args = [⟨ascii "x", 8⟩] ∧
      FaithfulHalf doublingSrc.body doublingRegion.srcInsts unit.srcFn ∧
      FaithfulHalf doublingTgt.body doublingRegion.tgtInsts unit.tgtFn := by
  obtain ⟨unit, built⟩ : ∃ unit, buildTvUnit doublingSrc.body
      doublingTgt.body doublingRegion "unit@2" = .ok unit := ⟨_, rfl⟩
  have srcInOrder : doublingRegion.srcInsts.Sublist doublingSrc.body.insts :=
    .cons _ (.cons_cons _ .slnil)
  have tgtInOrder : doublingRegion.tgtInsts.Sublist doublingTgt.body.insts :=
    .cons _ (.cons_cons _ .slnil)
  have faithful := buildTvUnit_faithful srcInOrder tgtInOrder built
  refine ⟨unit, built, ?_, faithful.1, faithful.2.1⟩
  cases built
  rfl

end AliveNext.TvNext
