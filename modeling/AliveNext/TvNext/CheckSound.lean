import AliveNext.LLVM.Assume
import AliveNext.TvNext.Discharge
import AliveNext.TvNext.Lifting
import AliveNext.TvNext.Predicate

/-!
# What a passed check says about the parent

The check reruns the slices of the parent's values on the parent's arguments.
On well-defined arguments its assumptions hold, the clones can repeat the
choices of any run of the parent, and so a passed check means that every claim
holds of the values that the parent computes.
-/

namespace AliveNext.TvNext

open AliveNext.Lib
open AliveNext.LLVM

/-! ## The assumptions on the parameters -/

variable {env parentEnv : Env Reg} {params : List Argument} {vmap : ValueMap} {r image : Reg}
  {args : ArgTuple} {insts : List Instruction} {parent : Body} {facts : List KnownFact}
  {claim : Claim} {p result : Term Reg 1} {supply : Supply} {side : PerSideFacts}

theorem poisonFreeClaim_true {w : Nat} {value : Operand Reg w} {name : Name}
    (defined : (value.content env).WellDefined) :
    Term.AlwaysTrue ((poisonFreeClaim value name).outcomes env) := by
  obtain ⟨x, single⟩ := defined
  have frozenSelf : frozen (Content.single (some x)) = Outcomes.pure (Content.single (some x)) := by
    ext outcome
    simp [frozen, Outcomes.pure]
  have equal : (BinNode.icmp .eq).apply (Content.single (some x))
      (Content.single (some x)) = Outcomes.pure (.single (some 1#1)) := by
    refine (congrArg collect ?_).trans (collect_singleton (some 1#1))
    ext outcome
    simp [strict₂, Pred.eval]
  intro outcome member
  simpa [poisonFreeClaim, Term.outcomes, single, frozenSelf, equal] using member

theorem poisonFreeClaim_false {w : Nat} {value : Operand Reg w} {name : Name}
    (undefined : ¬(value.content env).WellDefined) :
    ¬Term.AlwaysTrue ((poisonFreeClaim value name).outcomes env) := by
  intro holds
  obtain ⟨outcome, x, possible, rfl⟩ := frozen_nonempty (value.content env)
  have compared : Term.AlwaysTrue ((BinNode.icmp .eq).apply
      (value.content env) (Content.single (some x))) := by
    intro outcome member
    refine holds outcome (Outcomes.mem_bind_of_result rfl ?_)
    refine Outcomes.mem_bind_of_result (Outcomes.mem_bind_of_result rfl ⟨x, possible, rfl⟩) member
  refine undefined ⟨x, Term.eq_single fun sample member => ?_⟩
  have equal := Term.AlwaysTrue.evaluated compared _ ⟨sample, member, some x, rfl, rfl⟩
  cases sample with
  | none => cases equal
  | some y =>
    simp only [strict₂, Pred.eval, Option.some.injEq] at equal
    cases same : y == x with
    | true => rw [beq_iff_eq.mp same]
    | false =>
      rw [same] at equal
      exact absurd equal (by decide)

theorem poisonFreeClaim_regs {w : Nat} {value : Operand Reg w} {name : Name} {use : Nat × Reg}
    (used : use ∈ (poisonFreeClaim value name).regs) : use ∈ value.regs := by
  simpa [poisonFreeClaim, Term.regs] using used

theorem argument_older {w : Nat} {index bound : Nat} {name : Name} :
    ∀ use ∈ (poisonFreeClaim (.reg (.arg index) : Operand Reg w) name).regs,
      use.2.Older bound := by
  intro use used
  cases List.mem_singleton.mp (poisonFreeClaim_regs used)
  trivial

theorem assumeDefined_grows (supply : Supply) (param : Argument × Nat) :
    supply.nextId ≤ (assumeDefined supply param).2.nextId := by
  have older := @argument_older param.1.width param.2 supply.nextId param.1.name
  exact ((poisonFreeClaim (.reg (.arg param.2) : Operand Reg param.1.width)
    param.1.name).emit_spec supply older).grows.trans (Nat.le_succ _)

theorem assumeAllDefined_transparent {params : List (Argument × Nat)} :
    ∀ {supply : Supply} {env : Env Reg},
      (∀ param ∈ params, (env param.1.width (.arg param.2)).WellDefined) →
        Transparent (assumeAllDefined params supply).1 supply.nextId env := by
  induction params with
  | nil => exact fun _ => Transparent.nil _ _
  | cons param rest ih =>
    intro supply env defined
    have first : Transparent (assumeDefined supply param).1 supply.nextId
        env :=
      transparent_assume argument_older (poisonFreeClaim_true (defined param List.mem_cons_self))
    refine first.append fun env' agree => ?_
    refine (ih fun other member => ?_).mono (assumeDefined_grows supply param)
    rw [agree other.1.width (.arg other.2) trivial]
    exact defined other (List.mem_cons_of_mem param member)

/-! ## The clones repeat a run of the parent -/

/-- The clone map finds the values of the parent in the check: those of the
arguments, and those of the instructions cloned so far. -/
structure CloneMap (vmap : ValueMap) (bound : Nat) (args : List Nat)
    (done : List Instruction) (parentEnv env : Env Reg) : Prop where
  older : ∀ r image, vmap.lookup r = some image → image.Older bound
  holds_arg : ∀ index ∈ args, ∃ image, vmap.lookup (.arg index) = some image ∧
    ∀ w, env w image = parentEnv w (.arg index)
  holds_inst : ∀ use ∈ bodyScope done, ∃ image,
    vmap.lookup use.2 = some image ∧ env use.1 image = parentEnv use.1 use.2

theorem ValueMap.rename_of_lookup (found : vmap.lookup r = some image) : vmap.rename r = image := by
  simp [ValueMap.rename, found]

private theorem lookup_cons_ne {other : Reg} (different : r ≠ other) :
    ((other, image) :: vmap).lookup r = vmap.lookup r := by
  rw [List.lookup_cons, beq_false_of_ne different]

def UsesKnown (args : List Nat) (done : List Instruction) (inst : Instruction) : Prop :=
  ∀ use ∈ inst.op.regs, (∃ index ∈ args, use.2 = .arg index) ∨ use ∈ bodyScope done

section

variable {vmap : ValueMap} {bound : Nat} {args : List Nat}
  {done : List Instruction} {parentEnv env : Env Reg}

variable {inst : Instruction}

variable (related : CloneMap vmap bound args done parentEnv env)

include related

theorem CloneMap.operand (known : UsesKnown args done inst) :
    ∀ use ∈ inst.op.regs, env use.1 (vmap.rename use.2) = parentEnv use.1 use.2 := by
  intro use used
  rcases known use used with ⟨index, member, same⟩ | defined
  · obtain ⟨image, found, held⟩ := related.holds_arg index member
    rw [same, ValueMap.rename_of_lookup found]
    exact held use.1
  · obtain ⟨image, found, held⟩ := related.holds_inst use defined
    rw [ValueMap.rename_of_lookup found]
    exact held

/-- The map after one more clone, in an environment that differs from the old
one at most in the new register. -/
theorem CloneMap.extend (fresh : inst.id ∉ done.map Instruction.id) {env' : Env Reg}
    (frame : ∀ w r, r.Older bound → env' w r = env w r)
    (value : ∀ w, inst.type = some w → env' w (.inst bound) = parentEnv w (.inst inst.id)) :
    CloneMap ((.inst inst.id, .inst bound) :: vmap) (bound + 1) args
      (done ++ [inst]) parentEnv env' where
  older := by
    intro r image found
    by_cases same : r = .inst inst.id
    · subst same
      rw [List.lookup_cons_self] at found
      cases found
      exact Nat.lt_succ_self bound
    · rw [lookup_cons_ne same] at found
      exact (related.older r image found).mono (Nat.le_succ bound)
  holds_arg := by
    intro index member
    obtain ⟨image, found, held⟩ := related.holds_arg index member
    refine ⟨image, ?_, fun w => ?_⟩
    · rw [lookup_cons_ne (by simp)]
      exact found
    · rw [frame w image (related.older _ _ found)]
      exact held w
  holds_inst := by
    rintro ⟨w, r⟩ defined
    rw [bodyScope, List.flatMap_append, List.mem_append] at defined
    rcases defined with defined | defined
    · obtain ⟨other, member, -, rfl⟩ := mem_bodyScope.mp defined
      obtain ⟨image, found, held⟩ := related.holds_inst _ defined
      refine ⟨image, ?_, ?_⟩
      · have different : Reg.inst other.id ≠ .inst inst.id := fun same =>
          fresh (List.mem_map.mpr ⟨other, member, Reg.inst.inj same⟩)
        rw [lookup_cons_ne different]
        exact found
      · rw [frame w image (related.older _ _ found)]
        exact held
    · obtain ⟨other, member, typed, rfl⟩ := mem_bodyScope.mp defined
      cases List.mem_singleton.mp member
      exact ⟨.inst bound, List.lookup_cons_self, value w typed⟩

theorem clone_reaches (known : UsesKnown args done inst)
    (executed : some parentEnv ∈ inst.step parentEnv) (name : Name) (metadata : List Text) :
    ∃ env', some env' ∈ (⟨bound, name, inst.op.map vmap.rename, metadata⟩ : Instruction).step env ∧
      (∀ w r, r.Older bound → env' w r = env w r) ∧
      ∀ w, inst.type = some w → env' w (.inst bound) = parentEnv w (.inst inst.id) := by
  have agree := related.operand known
  obtain ⟨id, instName, op, instMetadata⟩ := inst
  cases op with
  | @value w rhs =>
    obtain ⟨content, produced, same⟩ := Outcomes.some_mem_map.mp executed
    have held : parentEnv w (.inst id) = content :=
      (congrFun (congrFun same.symm w) (.inst id)).trans
        (Env.set_self parentEnv w (.inst id) content)
    have repeated : some content ∈ (rhs.map vmap.rename).outcomes env := by
      rw [Rhs.outcomes_map, Rhs.outcomes_congr agree]
      exact produced
    refine ⟨env.set w (.inst bound) content,
      Outcomes.some_mem_map.mpr ⟨content, repeated, rfl⟩, ?_, ?_⟩
    · intro v r older
      refine Env.set_of_ne _ _ fun same => ?_
      cases same
      exact absurd older (Nat.lt_irrefl bound)
    · intro v typed
      cases typed
      rw [Env.set_self]
      exact held.symm
  | assume cond =>
    refine ⟨env, ?_, fun _ _ _ => rfl, nofun⟩
    rcases executed with ⟨holds, -⟩ | ⟨-, impossible⟩
    · refine Or.inl ⟨?_, rfl⟩
      rw [Operand.content_map, Operand.content_congr fun use used =>
        agree use (by simpa [Op.regs, Op.operands] using used)]
      exact holds
    · cases impossible

end

/-- The values that a list of instructions reads are known when it is their
turn. -/
def AllUsesKnown (args : List Nat) : List Instruction → List Instruction → Prop
  | _, [] => True
  | done, inst :: rest =>
    UsesKnown args done inst ∧ AllUsesKnown args (done ++ [inst]) rest

theorem cloneSlice_reaches {args : List Nat} :
    ∀ (done : List Instruction) (supply : Supply) (vmap : ValueMap) (env : Env Reg),
      AllUsesKnown args done insts →
      (∀ inst ∈ insts, some parentEnv ∈ inst.step parentEnv) →
      ((done ++ insts).map Instruction.id).Nodup →
      CloneMap vmap supply.nextId args done parentEnv env →
      ∃ env', some env' ∈ runs (cloneSlice insts supply vmap).1 env ∧
        CloneMap (cloneSlice insts supply vmap).2.2
          (cloneSlice insts supply vmap).2.1.nextId args (done ++ insts)
          parentEnv env' := by
  induction insts with
  | nil =>
    intro done supply vmap env _ _ _ related
    exact ⟨env, rfl, by rwa [List.append_nil]⟩
  | cons inst rest ih =>
    intro done supply vmap env known executed nodup related
    have fresh : inst.id ∉ done.map Instruction.id := by
      rw [List.map_append, List.nodup_append] at nodup
      exact fun member => nodup.2.2 _ member inst.id (List.mem_map_of_mem List.mem_cons_self) rfl
    obtain ⟨middle, reached, frame, value⟩ :=
      clone_reaches related known.1 (executed inst List.mem_cons_self)
        (supply.table.insert inst.name).1 inst.metadata
    rw [List.append_cons] at nodup ⊢
    obtain ⟨env', reached', final⟩ := ih (done ++ [inst])
      ⟨supply.nextId + 1, (supply.table.insert inst.name).2⟩
      ((.inst inst.id, .inst supply.nextId) :: vmap) middle known.2
      (fun other member => executed other (List.mem_cons_of_mem inst member))
      nodup (related.extend fresh frame value)
    exact ⟨env', Outcomes.mem_bind_of_result reached reached', final⟩

/-! ## The slices of a side -/

theorem slicedInsts_closed (verified : parent.Verified)
    (collected : ∀ fact ∈ facts, fact.Collected parent) {inst : Instruction}
    (member : inst ∈ slicedInsts parent facts) :
    ∀ use ∈ inst.op.regs, (∃ index ∈ checkArgs parent facts, use.2 = .arg index) ∨
        isInternal (slicedInsts parent facts) use.2 = true := by
  obtain ⟨inParent, sliced⟩ := List.mem_filter.mp member
  obtain ⟨fact, factMember, inSlice⟩ := List.any_eq_true.mp sliced
  obtain ⟨other, otherMember, same⟩ := List.any_eq_true.mp inSlice
  obtain ⟨root, -, -, -, closed⟩ := (collected fact factMember).root verified
  obtain rfl : other = inst :=
    List.inj_on_of_nodup_map verified.ids_nodup
      (closed.sublist.subset otherMember) inParent (beq_iff_eq.mp same)
  rintro ⟨w, r⟩ used
  rcases verified.body_scoped.uses inParent used with argument | defined
  · obtain ⟨entry, entryMember, paired⟩ := List.mem_map.mp argument
    cases paired
    have inside : entry.2 < parent.args.length :=
      List.snd_lt_of_mem_zipIdx entryMember
    refine Or.inl ⟨entry.2, List.mem_filter.mpr
      ⟨List.mem_range.mpr inside, List.any_eq_true.mpr ⟨fact, factMember, decide_eq_true ?_⟩⟩, rfl⟩
    exact closed.args_closed other otherMember _ entry.2 used inside
  · obtain ⟨definition, definitionMember, -, rfl⟩ := mem_bodyScope.mp defined
    have inSlice := closed.insts_closed other otherMember definition definitionMember w used
    exact Or.inr (isInternal_inst.mpr (List.mem_map_of_mem
      (mem_slicedInsts factMember definitionMember inSlice)))

theorem allUsesKnown_of_locallyScoped {args : List Nat}
    {done rest : List Instruction} (wellScoped : LocallyScoped insts done rest)
    (closed : ∀ inst ∈ rest, ∀ use ∈ inst.op.regs, (∃ index ∈ args, use.2 = .arg index) ∨
        isInternal insts use.2 = true) :
    AllUsesKnown args done rest := by
  induction rest generalizing done with
  | nil => trivial
  | cons inst rest ih =>
    refine ⟨fun use used => ?_, ih wellScoped.2
      fun other member => closed other (List.mem_cons_of_mem inst member)⟩
    rcases closed inst List.mem_cons_self use used with argument | internal
    · exact Or.inl argument
    · exact Or.inr (wellScoped.1 use used internal)

theorem slicedInsts_known (verified : parent.Verified)
    (collected : ∀ fact ∈ facts, fact.Collected parent) :
    AllUsesKnown (checkArgs parent facts) [] (slicedInsts parent facts) :=
  allUsesKnown_of_locallyScoped (LocallyScoped.of_verified verified List.filter_sublist)
    fun _ member => slicedInsts_closed verified collected member

def checkTuple (parent : Body) (facts : List KnownFact) (args : ArgTuple) :
    ArgTuple := fun w position =>
  args w (((checkArgs parent facts)[position]?).getD 0)

def FactArgsDefined (parent : Body) (facts : List KnownFact) (args : ArgTuple) : Prop :=
  ∀ fact ∈ facts, ∀ index ∈ fact.slice.argRoots, ∀ arg,
    parent.args[index]? = some arg → (args arg.width index).WellDefined

theorem checkParams_getElem (parent : Body) (facts : List KnownFact) (position : Nat) :
    (checkParams parent facts)[position]? = (checkArgs parent facts)[position]?.bind fun index =>
        parent.args[index]? := by
  have inside : ∀ index ∈ checkArgs parent facts, ∃ arg, parent.args[index]? = some arg := by
    intro index member
    have bound := List.mem_range.mp (List.mem_filter.mp member).1
    exact ⟨parent.args[index], List.getElem?_eq_getElem bound⟩
  unfold checkParams
  generalize checkArgs parent facts = indices at inside
  induction indices generalizing position with
  | nil => rfl
  | cons index rest ih =>
    obtain ⟨arg, found⟩ := inside index List.mem_cons_self
    rw [List.filterMap_cons_some found]
    cases position with
    | zero => exact found.symm
    | succ position =>
      exact ih position fun other member =>
        inside other (List.mem_cons_of_mem index member)

theorem checkParams_defined (defined : FactArgsDefined parent facts args) :
    ∀ param ∈ (checkParams parent facts).zipIdx,
      (bindArgs (checkTuple parent facts args) param.1.width (.arg param.2)).WellDefined := by
  rintro ⟨arg, position⟩ member
  have found := List.mem_zipIdx_iff_getElem?.mp member
  rw [checkParams_getElem] at found
  obtain ⟨index, checked, found⟩ := Option.bind_eq_some_iff.mp found
  have used := (List.mem_filter.mp (List.mem_of_getElem? checked)).2
  obtain ⟨fact, factMember, root⟩ := List.any_eq_true.mp used
  have held := defined fact factMember index (of_decide_eq_true root) arg found
  simpa [bindArgs, checkTuple, checked] using held

theorem mem_of_lookup (found : vmap.lookup r = some image) : (r, image) ∈ vmap := by
  obtain ⟨before, after, rfl, -⟩ := List.lookup_eq_some_iff.mp found
  exact List.mem_append_right _ List.mem_cons_self

theorem cloneMap_start {bound : Nat} (keptArgs : ∀ w index, parentEnv w (.arg index) = args w index)
    (boundArgs : ∀ w position, env w (.arg position) = checkTuple parent facts args w position) :
    CloneMap ((checkArgs parent facts).zipIdx.map fun entry =>
        (.arg entry.1, .arg entry.2))
      bound (checkArgs parent facts) [] parentEnv env where
  older := by
    intro r image found
    obtain ⟨entry, -, same⟩ := List.mem_map.mp (mem_of_lookup found)
    cases same
    trivial
  holds_arg := by
    intro index member
    obtain ⟨position, inside, here⟩ := List.mem_iff_getElem.mp member
    have known : (((checkArgs parent facts).zipIdx.map fun entry =>
        (Reg.arg entry.1, Reg.arg entry.2)).lookup (.arg index)).isSome := by
      refine List.lookup_isSome_iff.mpr ⟨(.arg index, .arg position), ?_, beq_self_eq_true _⟩
      refine List.mem_map.mpr ⟨(index, position), ?_, rfl⟩
      exact List.mem_zipIdx_iff_getElem?.mpr (List.getElem?_eq_some_iff.mpr ⟨inside, here⟩)
    obtain ⟨image, found⟩ := Option.isSome_iff_exists.mp known
    refine ⟨image, found, fun w => ?_⟩
    obtain ⟨entry, entryMember, same⟩ := List.mem_map.mp (mem_of_lookup found)
    cases same
    have placed := List.mem_zipIdx_iff_getElem?.mp entryMember
    rw [keptArgs, boundArgs, checkTuple, placed]
    rfl
  holds_inst := nofun

theorem checkPrelude_reaches (verified : parent.Verified)
    (collected : ∀ fact ∈ facts, fact.Collected parent)
    (defined : FactArgsDefined parent facts args)
    (reached : some parentEnv ∈ runs parent.insts (bindArgs args)) :
    ∃ env, some env ∈ runs (checkPrelude parent facts).1 (bindArgs (checkTuple parent facts args)) ∧
      CloneMap (checkPrelude parent facts).2.2
        (checkPrelude parent facts).2.1.nextId (checkArgs parent facts)
        (slicedInsts parent facts) parentEnv env := by
  have assumes := @assumeAllDefined_transparent (checkParams parent facts).zipIdx
    ⟨0, ⟨(checkParams parent facts).map Argument.name ++ [ascii "entry"], 0⟩⟩
    (bindArgs (checkTuple parent facts args)) (checkParams_defined defined)
  obtain ⟨outcome, member⟩ := assumes.nonempty
  cases outcome with
  | none => exact absurd member assumes.defined
  | some middle =>
    have agree := assumes.agree member
    have steps := step_of_runs verified.body_scoped verified.ids_nodup
      (argScope_apart parent.args parent.insts) reached
    have inOrder : (slicedInsts parent facts).Sublist parent.insts :=
      List.filter_sublist
    have keptArgs : ∀ w index, parentEnv w (.arg index) = args w index := by
      intro w index
      refine runs_frame reached fun defined => ?_
      obtain ⟨inst, -, -, impossible⟩ := mem_bodyScope.mp defined
      cases impossible
    obtain ⟨env, cloned, related⟩ := cloneSlice_reaches []
      (assumeAllDefined (checkParams parent facts).zipIdx _).2 _ middle
      (slicedInsts_known verified collected)
      (fun inst inSlice => steps inst (inOrder.subset inSlice))
      ((inOrder.map Instruction.id).nodup verified.ids_nodup)
      (cloneMap_start keptArgs fun w position =>
        agree w (.arg position) trivial)
    refine ⟨env, ?_, related⟩
    rw [checkPrelude, runs_append]
    exact Outcomes.mem_bind_of_result member cloned

/-! ## A passed check -/

theorem Claim.predicate_older {bound : Nat}
    (older : ∀ r image, vmap.lookup r = some image → image.Older bound)
    (built : claim.predicate (resolveClone parent vmap) = .ok (some p)) :
    ∀ use ∈ p.regs, use.2.Older bound := by
  have shape : Term.Shape (LeafRel fun _ a _ =>
      ∀ use ∈ a.regs, use.2.Older bound) p p := by
    refine Claim.predicate_shape ?_ built built
    intro name _ a b found found'
    rw [found] at found'
    cases found'
    unfold resolveClone at found
    split at found
    next => cases found
    next w r _ =>
      obtain ⟨clone, known, rfl⟩ := Option.map_eq_some_iff.mp found
      refine ⟨w, _, _, rfl, rfl, fun use used => ?_⟩
      cases List.mem_singleton.mp used
      exact older r clone known
  intro use used
  obtain ⟨w, a, a', leaf, read⟩ := shape.regs_left used
  cases leaf with
  | const value => exact absurd read List.not_mem_nil
  | value held => exact held use read

theorem conjoin_older {bound : Nat}
    (older : ∀ r image, vmap.lookup r = some image → image.Older bound)
    {claims : List Claim} {result : Option (Term Reg 1)}
    (conjoined : conjoin (resolveClone parent vmap) claims = .ok result) :
    ∀ term, result = some term → ∀ use ∈ term.regs, use.2.Older bound := by
  refine foldlM_invariant (fun result => ∀ term, result = some term →
    ∀ use ∈ term.regs, use.2.Older bound) conjoined nofun ?_
  intro claim _ before after kept stepped
  obtain ⟨predicate, built, stepped⟩ := bind_eq_ok.mp stepped
  cases predicate with
  | none =>
    cases stepped
    exact kept
  | some p =>
    cases stepped
    have new := Claim.predicate_older older built
    intro term same use used
    cases before with
    | none =>
      cases same
      exact new use used
    | some earlier =>
      cases same
      rcases List.mem_append.mp used with used | used
      · exact kept earlier rfl use used
      · exact new use used

theorem checkSource_outcomes
    (defined : ∀ param ∈ params.zipIdx, (bindArgs args param.1.width (.arg param.2)).WellDefined) :
    (checkSource params).outcomes args = Outcomes.pure (.value (.single (some 1#1))) :=
  (assumeAllDefined_transparent defined).bind_eq fun _ _ => rfl

theorem checkTarget_outcomes (params : List Argument)
    (older : ∀ use ∈ result.regs, use.2.Older supply.nextId)
    (reached : some env ∈ runs insts (bindArgs args))
    {outcome : Option (Content 1)} (member : outcome ∈ result.outcomes env) :
    outcome.map Returned.value ∈ (checkTarget params insts supply (some result)).outcomes args := by
  have spec := result.emit_spec supply older
  simp only [checkTarget, Function.outcomes, BasicBlock.outcomes,
    Option.getD_some, runs_append, Outcomes.bind_assoc]
  refine Outcomes.mem_bind_of_result reached ?_
  cases outcome with
  | none =>
    exact Outcomes.none_mem_bind_of_first (spec.undefined.mpr member)
  | some content =>
    obtain ⟨env', reached', rfl⟩ := spec.complete member
    exact Outcomes.mem_bind_of_result reached' rfl

theorem checkTarget_true (older : ∀ use ∈ result.regs, use.2.Older supply.nextId)
    (defined : none ∉ runs insts (bindArgs args))
    (holds : ∀ env, some env ∈ runs insts (bindArgs args) → Term.AlwaysTrue (result.outcomes env)) :
    Outcomes.Refines Returned.Refines
      ((checkTarget params insts supply (some result)).outcomes args)
      (Outcomes.pure (.value (.single (some 1#1)))) := by
  have spec := result.emit_spec supply older
  simp only [checkTarget, Function.outcomes, BasicBlock.outcomes,
    Option.getD_some, runs_append, Outcomes.bind_assoc]
  refine Or.inr fun outcome member => ?_
  rcases member with ⟨undefined, -⟩ | ⟨env, reached, member⟩
  · exact absurd undefined defined
  · rcases member with ⟨undefined, -⟩ | ⟨env', reached', member⟩
    · cases holds env reached none (spec.undefined.mp undefined)
    · have certain := holds env reached _ (spec.sound reached')
      cases member
      refine ⟨_, rfl, _, rfl, .value ?_⟩
      rw [Option.some.inj certain]
      exact Content.Refines.refl _

theorem Conjunct.alwaysTrue (conjunct : Conjunct p result)
    (holds : Term.AlwaysTrue (result.outcomes env)) : Term.AlwaysTrue (p.outcomes env) := by
  induction conjunct with
  | self => exact holds
  | left _ ih => exact ih holds.and.1
  | right _ ih => exact ih holds.and.2

theorem PerSideFacts.Collected.names
    (collected : side.Collected parent) (member : claim ∈ side.claims) :
    ∀ name ∈ claim.names, ∃ fact ∈ side.facts, fact.name = name := by
  intro name mentioned
  rcases List.mem_append.mp member with member | member
  · obtain ⟨fact, factMember, rfl⟩ := List.mem_map.mp member
    exact ⟨fact, factMember, (List.mem_singleton.mp mentioned).symm⟩
  · obtain ⟨obligation, obligationMember, rfl⟩ := List.mem_map.mp member
    obtain ⟨key, used, same⟩ := List.mem_filterMap.mp mentioned
    have known := collected.keys obligation obligationMember key used
    split at same
    next other named =>
      cases same
      rw [named, keyHasFact, Bool.and_eq_true, List.any_eq_true] at known
      obtain ⟨-, fact, factMember, same⟩ := known
      exact ⟨fact, factMember, beq_iff_eq.mp same⟩
    next => cases same

/-- A claim holds of the values of a parent: its predicate is always true in
an environment that gives every name it mentions the parent's value. -/
def Claim.HoldsIn (claim : Claim) (parent : Body) (parentEnv : Env Reg) :
    Prop :=
  ∃ (resolve : Name → Option (Σ w, Operand Reg w)) (p : Term Reg 1) (env : Env Reg),
    claim.predicate resolve = .ok (some p) ∧
    Term.AlwaysTrue (p.outcomes env) ∧
    ∀ name ∈ claim.names, ∃ w r clone, findValueByName name parent = some (w, r) ∧
      resolve name = some ⟨w, .reg clone⟩ ∧ env w clone = parentEnv w r

/-- A passed check on well-defined arguments: every claim of the side holds of
the values that the parent computes. -/
theorem buildCombinedFactCheck_holds (verified : parent.Verified)
    (collected : side.Collected parent) {diagName : String} {check : TvUnit}
    (built : buildCombinedFactCheck side parent diagName = .ok check)
    (passed : check.tgtFn.Refines check.srcFn) (defined : FactArgsDefined parent side.facts args)
    (reached : some parentEnv ∈ runs parent.insts (bindArgs args)) :
    ∀ claim ∈ side.claims, claim.HoldsIn parent parentEnv := by
  intro claim member
  obtain ⟨conjunction, conjoined, same⟩ := bind_eq_ok.mp built
  obtain ⟨env, repeated, related⟩ :=
    checkPrelude_reaches verified collected.facts defined reached
  obtain ⟨predicate, predicated, conjunct⟩ :=
    conjoin_conjunct conjoined claim member
  obtain ⟨p, rfl⟩ := Option.isSome_iff_exists.mp
    (predicate_isSome verified collected member predicated)
  obtain ⟨result, rfl, held⟩ := conjunct p rfl
  have older := conjoin_older related.older conjoined result rfl
  have allTrue : Term.AlwaysTrue (result.outcomes env) := by
    intro outcome possible
    have returned := checkTarget_outcomes (checkParams parent side.facts) older repeated possible
    cases same
    have refined := passed (checkTuple parent side.facts args)
    rw [checkSource_outcomes (checkParams_defined defined)] at refined
    rcases refined with undefined | refined
    · cases undefined
    · obtain ⟨value, valued, allowed, source, related⟩ := refined _ returned
      cases source
      cases outcome with
      | none => cases valued
      | some content =>
        cases valued
        cases related with
        | value contentRefined =>
          rw [contentRefined.eq_of_wellDefined ⟨1#1, rfl⟩]
  refine ⟨_, p, env, predicated, held.alwaysTrue allTrue, ?_⟩
  intro name mentioned
  obtain ⟨fact, factMember, rfl⟩ := collected.names member name mentioned
  obtain ⟨root, rootMember, found, typed, closed⟩ :=
    (collected.facts fact factMember).root verified
  have inSlices := mem_slicedInsts factMember rootMember closed.root_mem
  obtain ⟨clone, known, value⟩ := related.holds_inst
    (fact.width, .inst root.id) (mem_bodyScope.mpr ⟨root, inSlices, typed, rfl⟩)
  refine ⟨fact.width, .inst root.id, clone, found, ?_, value⟩
  rw [resolveClone, found]
  exact congrArg (Option.map _) known

end AliveNext.TvNext
