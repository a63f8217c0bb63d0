import AliveNext.TvNext.Compose
import AliveNext.TvNext.Lifting

/-!
# Soundness of the composition

Verified units and identical lines compose to a refinement of whole functions
when the operand chain is consistent: whatever both sides of an identical
pair, of a unit or of the terminators read under one identifier must be linked,
that is, the same argument, the results of one identical pair, or the exit
values of one region.  Nothing in the diff checks this.

The proof walks over the tiling of the two bodies.  Between two segments every
linked pair of registers that is already defined holds refined values.
-/

namespace AliveNext.TvNext

open AliveNext.LLVM
open AliveNext.Lib

/-! ## The consistency condition -/

/-- Registers of the target and the source that the composition relates. -/
inductive Linked (src tgt : Body) (regions : List DiffRegion) : Reg → Reg → Prop where
  | argument (index : Nat) : Linked src tgt regions (.arg index) (.arg index)
  | identical {s t : Instruction} : (s, t) ∈ src.insts.zip tgt.insts →
      (∀ region ∈ regions, s ∉ region.srcInsts) → Linked src tgt regions (.inst t.id) (.inst s.id)
  | exit {region : DiffRegion} {s t : Instruction} : region ∈ regions →
      region.srcInsts.getLast? = some s →
      region.tgtInsts.getLast? = some t → Linked src tgt regions (.inst t.id) (.inst s.id)

def ReadsLinked (src tgt : Body) (regions : List DiffRegion)
    (tgtReads srcReads : List (Nat × Reg)) : Prop :=
  ∀ use ∈ tgtReads, ∀ use' ∈ srcReads, tgt.identOf use.2 = src.identOf use'.2 →
      Linked src tgt regions use.2 use'.2

/-- Operand-chain consistency: shared reads are linked in every identical
pair, in every unit and in the terminators. -/
structure OperandChain (src tgt : Body) (regions : List DiffRegion) : Prop where
  identical : ∀ s t, (s, t) ∈ src.insts.zip tgt.insts → (∀ region ∈ regions, s ∉ region.srcInsts) →
      ReadsLinked src tgt regions t.op.regs s.op.regs
  region : ∀ region ∈ regions, ReadsLinked src tgt regions
      (externalReads region.tgtInsts) (externalReads region.srcInsts)
  terminator : ReadsLinked src tgt regions tgt.block.term.op.regs src.block.term.op.regs

/-- The lines that are taken as identical hold nothing that reads as the start
of metadata. -/
structure LinesCutFree (src tgt : Body) (regions : List DiffRegion) : Prop where
  identical : ∀ s t, (s, t) ∈ src.insts.zip tgt.insts → (∀ region ∈ regions, s ∉ region.srcInsts) →
      CutFree (s.bareText src.identOf) ∧ CutFree (t.bareText tgt.identOf)
  terminator : CutFree (src.block.term.bareText src.identOf) ∧
    CutFree (tgt.block.term.bareText tgt.identOf)

/-! ## Links along a tiling -/

def Segment.link : Segment → Option (Reg × Reg)
  | .identical s t => some (.inst t.id, .inst s.id)
  | .region r =>
    match r.srcInsts.getLast?, r.tgtInsts.getLast? with
    | some s, some t => some (.inst t.id, .inst s.id)
    | _, _ => none

theorem Segment.link_mem {segment : Segment} {r s : Reg} (link : segment.link = some (r, s)) :
    (∃ t ∈ segment.tgtInsts, r = .inst t.id) ∧ ∃ s' ∈ segment.srcInsts, s = .inst s'.id := by
  cases segment with
  | identical s' t' =>
    cases link
    exact ⟨⟨t', List.mem_cons_self, rfl⟩, ⟨s', List.mem_cons_self, rfl⟩⟩
  | region region =>
    simp only [Segment.link] at link
    split at link
    · rename_i s' t' srcLast tgtLast
      cases link
      exact ⟨⟨t', List.mem_of_getLast? tgtLast, rfl⟩, ⟨s', List.mem_of_getLast? srcLast, rfl⟩⟩
    · cases link

section Composition

variable {src tgt : Body} {regions : List DiffRegion} {segments : List Segment}

variable {s t : Instruction} {r : Reg} {pre rest : List Segment} {w : Nat}
  {tgtEnv srcEnv env env' : Env Reg} {insts : List Instruction} {segment : Segment} {body : Body}
  {use : Nat × Reg} {reads : List (Nat × Reg)} {region : DiffRegion}

theorem zip_functional {ss ts : List Instruction}
    {t' : Instruction} (nodup : (ss.map Instruction.id).Nodup)
    (first : (s, t) ∈ ss.zip ts) (second : (s, t') ∈ ss.zip ts) : t = t' := by
  induction ss generalizing ts with
  | nil => simp at first
  | cons head tail ih =>
    cases ts with
    | nil => simp at first
    | cons head' tail' =>
      rw [List.map_cons, List.nodup_cons] at nodup
      rw [List.zip_cons_cons, List.mem_cons] at first second
      have apart : ∀ {u : Instruction}, (head, u) ∉ tail.zip tail' :=
        fun inTail => nodup.1 (List.mem_map_of_mem (List.of_mem_zip inTail).1)
      rcases first with same | first <;> rcases second with same' | second
      · exact (Prod.mk.inj same).2.trans (Prod.mk.inj same').2.symm
      · rw [(Prod.mk.inj same).1] at second
        exact absurd second apart
      · rw [(Prod.mk.inj same').1] at first
        exact absurd first apart
      · exact ih nodup.2 first second

private theorem Linked.origin (srcVerified : src.Verified)
    (tiling : Tiling src tgt regions segments) {s : Reg} (linked : Linked src tgt regions r s) :
    (∃ index, r = .arg index ∧ s = .arg index) ∨
      ∃ segment ∈ segments, segment.link = some (r, s) := by
  cases linked with
  | argument index => exact Or.inl ⟨index, rfl, rfl⟩
  | @identical s t paired outside =>
    have member : s ∈ segments.flatMap Segment.srcInsts := by
      rw [tiling.src_eq]
      exact (List.of_mem_zip paired).1
    obtain ⟨segment, present, inside⟩ := List.mem_flatMap.mp member
    cases segment with
    | identical s' t' =>
      rw [Segment.srcInsts, List.mem_singleton] at inside
      subst inside
      have sameTarget : t = t' := zip_functional srcVerified.ids_nodup
        paired (tiling.paired _ present (s, t') List.mem_cons_self)
      subst sameTarget
      exact Or.inr ⟨_, present, rfl⟩
    | region region =>
      have known : region ∈ regions := by
        rw [← tiling.regions_eq]
        exact List.mem_filterMap.mpr ⟨_, present, rfl⟩
      exact absurd inside (outside region known)
  | @exit region s t known srcLast tgtLast =>
    rw [← tiling.regions_eq] at known
    obtain ⟨segment, present, isRegion⟩ := List.mem_filterMap.mp known
    cases segment with
    | identical _ _ => cases isRegion
    | region region' =>
      cases isRegion
      exact Or.inr ⟨_, present, by simp [Segment.link, srcLast, tgtLast]⟩

private theorem Linked.early (srcVerified : src.Verified) (tgtVerified : tgt.Verified)
    (tiling : Tiling src tgt regions (pre ++ rest))
    {s : Reg} (linked : Linked src tgt regions r s)
    (defined : (w, r) ∈ argScope tgt.args ++ bodyScope (pre.flatMap Segment.tgtInsts)) :
    (∃ index, r = .arg index ∧ s = .arg index) ∨ ∃ segment ∈ pre, segment.link = some (r, s) := by
  rcases linked.origin srcVerified tiling with argument | ⟨segment, present, link⟩
  · exact Or.inl argument
  · rcases List.mem_append.mp present with early | late
    · exact Or.inr ⟨segment, early, link⟩
    · obtain ⟨⟨t, inside, rfl⟩, -⟩ := Segment.link_mem link
      rcases List.mem_append.mp defined with isArg | isInst
      · obtain ⟨entry, -, impossible⟩ := List.mem_map.mp isArg
        cases impossible
      · obtain ⟨other, member, -, same⟩ := mem_bodyScope.mp isInst
        have nodup := tgtVerified.ids_nodup
        rw [← tiling.tgt_eq, List.flatMap_append, List.map_append, List.nodup_append] at nodup
        exact absurd (Reg.inst.inj same).symm (nodup.2.2 _
          (List.mem_map_of_mem member) _ (List.mem_map_of_mem
            (List.mem_flatMap.mpr ⟨segment, late, inside⟩)))

structure LinkInv (pre : List Segment) (tgtEnv srcEnv : Env Reg) : Prop where
  args : ∀ index w, (tgtEnv w (.arg index)).Refines (srcEnv w (.arg index))
  links : ∀ segment ∈ pre, ∀ r s, segment.link = some (r, s) →
    ∀ w, (tgtEnv w r).Refines (srcEnv w s)
  pending : ∀ id w, id ∉ (pre.flatMap Segment.srcInsts).map Instruction.id →
    srcEnv w (.inst id) = .single none

private theorem LinkInv.of_linked (inv : LinkInv pre tgtEnv srcEnv) {s : Reg}
    (early : (∃ index, r = .arg index ∧ s = .arg index) ∨
      ∃ segment ∈ pre, segment.link = some (r, s)) (w : Nat) :
    (tgtEnv w r).Refines (srcEnv w s) := by
  rcases early with ⟨index, rfl, rfl⟩ | ⟨segment, member, link⟩
  · exact inv.args index w
  · exact inv.links segment member r s link w

private theorem runs_frame_inst (reached : some env' ∈ runs insts env) {id : Nat}
    (other : id ∉ insts.map Instruction.id) : env' w (.inst id) = env w (.inst id) := by
  refine runs_frame reached fun defined => ?_
  obtain ⟨inst, member, -, same⟩ := mem_bodyScope.mp defined
  exact other ((Reg.inst.inj same) ▸ List.mem_map_of_mem member)

private theorem runs_frame_arg (reached : some env' ∈ runs insts env) {index : Nat} :
    env' w (.arg index) = env w (.arg index) := by
  refine runs_frame reached fun defined => ?_
  obtain ⟨inst, -, -, impossible⟩ := mem_bodyScope.mp defined
  cases impossible

/-- The invariant after one more segment, given that its own link holds at the
type of the linked values. -/
private theorem LinkInv.extend (srcVerified : src.Verified) (tgtVerified : tgt.Verified)
    (tiling : Tiling src tgt regions (pre ++ segment :: rest))
    {tgtEnv' srcEnv' : Env Reg} (inv : LinkInv pre tgtEnv srcEnv)
    (tgtRun : some tgtEnv' ∈ runs segment.tgtInsts tgtEnv)
    (srcRun : some srcEnv' ∈ runs segment.srcInsts srcEnv)
    (linked : ∀ r s, segment.link = some (r, s) → ∀ w, (w, s) ∈ bodyScope segment.srcInsts →
        (tgtEnv' w r).Refines (srcEnv' w s)) :
    LinkInv (pre ++ [segment]) tgtEnv' srcEnv' := by
  have srcNodup := srcVerified.ids_nodup
  have tgtNodup := tgtVerified.ids_nodup
  rw [← tiling.src_eq, List.flatMap_append, List.flatMap_cons, List.map_append,
    List.map_append, List.nodup_append] at srcNodup
  rw [← tiling.tgt_eq, List.flatMap_append, List.flatMap_cons, List.map_append,
    List.map_append, List.nodup_append] at tgtNodup
  refine ⟨?_, ?_, ?_⟩
  · intro index w
    rw [runs_frame_arg tgtRun, runs_frame_arg srcRun]
    exact inv.args index w
  · intro other member r s link w
    rcases List.mem_append.mp member with early | now
    · -- an earlier link: the segment redefines neither side
      obtain ⟨⟨t, inTgt, rfl⟩, ⟨s', inSrc, rfl⟩⟩ := Segment.link_mem link
      have tgtOther : t.id ∉ segment.tgtInsts.map Instruction.id :=
        fun again => tgtNodup.2.2 _ (List.mem_map_of_mem
          (List.mem_flatMap.mpr ⟨other, early, inTgt⟩)) _
          (List.mem_append_left _ again) rfl
      have srcOther : s'.id ∉ segment.srcInsts.map Instruction.id :=
        fun again => srcNodup.2.2 _ (List.mem_map_of_mem
          (List.mem_flatMap.mpr ⟨other, early, inSrc⟩)) _
          (List.mem_append_left _ again) rfl
      rw [runs_frame_inst tgtRun tgtOther, runs_frame_inst srcRun srcOther]
      exact inv.links other early _ _ link w
    · rw [List.mem_singleton] at now
      subst now
      by_cases typed : (w, s) ∈ bodyScope other.srcInsts
      · exact linked r s link w typed
      · -- at any other type the source register still holds poison
        obtain ⟨-, ⟨s', inSrc, rfl⟩⟩ := Segment.link_mem link
        have notYet : s'.id ∉ (pre.flatMap Segment.srcInsts).map Instruction.id :=
          fun early => srcNodup.2.2 _ early _
            (List.mem_append_left _ (List.mem_map_of_mem inSrc)) rfl
        rw [runs_frame srcRun typed, inv.pending s'.id w notYet]
        exact Content.Refines.poison _
  · intro id w fresh
    rw [List.flatMap_append, List.map_append, List.mem_append, not_or] at fresh
    have notHere : id ∉ segment.srcInsts.map Instruction.id := by
      simpa using fresh.2
    rw [runs_frame_inst srcRun notHere]
    exact inv.pending id w fresh.1

private theorem scoped_use {scope : List (Nat × Reg)} {inst : Instruction} :
    ∀ {before after : List Instruction}, Scoped scope (before ++ inst :: after) →
        ∀ use ∈ inst.op.regs, use ∈ scope ++ bodyScope before := by
  intro before
  induction before generalizing scope with
  | nil =>
    intro after wellScoped use used
    exact List.mem_append_left _ (wellScoped.1 use used)
  | cons head tail ih =>
    intro after wellScoped use used
    have later := ih wellScoped.2 use used
    rwa [List.append_assoc] at later

private theorem external_defined (verified : body.Verified) {before after : List Instruction}
    (split : body.insts = before ++ insts ++ after) (external : use ∈ externalReads insts) :
    use ∈ argScope body.args ++ bodyScope before := by
  obtain ⟨⟨inst, member, used⟩, notInternal⟩ := mem_externalReads.mp external
  obtain ⟨front, back, rfl⟩ := List.append_of_mem member
  have wellScoped := verified.body_scoped
  rw [split, show before ++ (front ++ inst :: back) ++ after =
    (before ++ front) ++ inst :: (back ++ after) by simp] at wellScoped
  have inScope := scoped_use wellScoped use used
  rw [bodyScope, List.flatMap_append, ← List.append_assoc, List.mem_append] at inScope
  rcases inScope with early | inside
  · exact early
  · obtain ⟨w, r⟩ := use
    obtain ⟨other, present, -, rfl⟩ := mem_bodyScope.mp inside
    have internal : isInternal (front ++ inst :: back) (.inst other.id) = true :=
      isInternal_inst.mpr (List.mem_map_of_mem (List.mem_append_left _ present))
    rw [internal] at notInternal
    cases notInternal

/-! ## Segments -/

def SegmentRefines (segment : Segment) (tgtEnv srcEnv : Env Reg) : Prop :=
  Outcomes.Refines
    (fun tgtEnv' srcEnv' => ∀ r s, segment.link = some (r, s) →
      ∀ w, (w, s) ∈ bodyScope segment.srcInsts → (tgtEnv' w r).Refines (srcEnv' w s))
    (runs segment.tgtInsts tgtEnv) (runs segment.srcInsts srcEnv)

private theorem identical_refines (same : t.op.map tgt.identOf = s.op.map src.identOf)
    (refined : ∀ v r r', (v, r) ∈ t.op.regs → (v, r') ∈ s.op.regs → tgt.identOf r = src.identOf r' →
        (tgtEnv v r).Refines (srcEnv v r')) :
    SegmentRefines (.identical s t) tgtEnv srcEnv := by
  obtain ⟨tId, tName, tOp, tMetadata⟩ := t
  obtain ⟨sId, sName, sOp, sMetadata⟩ := s
  simp only [SegmentRefines, Segment.tgtInsts, Segment.srcInsts, runs_cons]
  rw [show runs [] = Outcomes.pure from funext runs_nil, Outcomes.bind_pure, Outcomes.bind_pure]
  cases tOp with
  | @value w rhs =>
    cases sOp with
    | @value w' rhs' =>
      simp only [Op.map, Op.value.injEq] at same
      obtain ⟨rfl, same⟩ := same
      refine (Rhs.outcomes_refines (eq_of_heq same) refined).map ?_
      intro content content' held r r' link v typed
      cases link
      obtain ⟨inst, member, width, -⟩ := mem_bodyScope.mp typed
      rw [List.mem_singleton] at member
      subst member
      cases width
      rw [Env.set_self, Env.set_self]
      exact held
    | assume cond => cases same
  | assume cond =>
    cases sOp with
    | value rhs => cases same
    | assume cond' =>
      have operands : cond.map tgt.identOf = cond'.map src.identOf :=
        Op.assume.inj same
      refine assumed_refines (Operand.content_refines operands fun r r' used used' => refined 1 r r'
          (by simpa [Op.regs, Op.operands] using used)
          (by simpa [Op.regs, Op.operands] using used')) ?_
      intro r r' link v typed
      obtain ⟨inst, member, width, -⟩ := mem_bodyScope.mp typed
      rw [List.mem_singleton] at member
      subst member
      cases width

private def readReg (body : Body) (reads : List (Nat × Reg)) (name : Name) : Option Reg :=
  (reads.find? fun use => body.nameOf use.2 == name).map Prod.snd

private theorem readReg_some {name : Name} (found : readReg body reads name = some r) :
    ∃ use ∈ reads, use.2 = r ∧ body.nameOf r = name := by
  unfold readReg at found
  obtain ⟨use, hit, rfl⟩ := Option.map_eq_some_iff.mp found
  exact ⟨use, List.mem_of_find?_eq_some hit, rfl,
    by simpa using List.find?_some hit⟩

private theorem readReg_of_mem (verified : body.Verified) (member : use ∈ reads)
    (named : body.nameOf use.2 ≠ []) : readReg body reads (body.nameOf use.2) = some use.2 := by
  cases found : readReg body reads (body.nameOf use.2) with
  | none =>
    have missing := Option.map_eq_none_iff.mp found
    exact absurd (List.find?_eq_none.mp missing use member) (by simp)
  | some r =>
    obtain ⟨-, -, -, same⟩ := readReg_some found
    rw [verified.nameOf_injective (same ▸ named) same]

section

variable (src tgt) (params : List Argument)
  (srcReads tgtReads : List (Nat × Reg)) (srcEnv tgtEnv : Env Reg)

/-- Arguments for both halves of a unit: the target's value of a name that the
target reads, else the source's. -/
private def unitArgs : ArgTuple := fun w index =>
  match params[index]? with
  | none => .single none
  | some p =>
    match readReg tgt tgtReads p.name, readReg src srcReads p.name with
    | some r, _ => tgtEnv w r
    | none, some s => srcEnv w s
    | none, none => .single none

private def sourceArgs : ArgTuple := fun w index =>
  match params[index]? with
  | none => .single none
  | some p =>
    match readReg src srcReads p.name with
    | some s => srcEnv w s
    | none => unitArgs src tgt params srcReads tgtReads srcEnv tgtEnv w index

variable {src tgt params srcReads tgtReads srcEnv tgtEnv}

private theorem unitArgs_refines
    (shared : ∀ use ∈ tgtReads, ∀ use' ∈ srcReads, tgt.nameOf use.2 = src.nameOf use'.2 →
        ∀ w, (tgtEnv w use.2).Refines (srcEnv w use'.2))
    (w index : Nat) :
    (unitArgs src tgt params srcReads tgtReads srcEnv tgtEnv w index).Refines
      (sourceArgs src tgt params srcReads tgtReads srcEnv tgtEnv w index) := by
  unfold sourceArgs
  cases present : params[index]? with
  | none =>
    simp only [unitArgs, present]
    exact Content.Refines.refl _
  | some p =>
    cases srcFound : readReg src srcReads p.name with
    | none =>
      simp only [srcFound]
      exact Content.Refines.refl _
    | some s =>
      simp only [unitArgs, present, srcFound]
      cases tgtFound : readReg tgt tgtReads p.name with
      | none => exact Content.Refines.refl _
      | some r =>
        obtain ⟨use, member, rfl, name⟩ := readReg_some tgtFound
        obtain ⟨use', member', rfl, name'⟩ := readReg_some srcFound
        exact shared use member use' member' (name.trans name'.symm) w

end

private theorem region_refines (srcVerified : src.Verified)
    (tgtVerified : tgt.Verified) {diagName : String}
    {unit : TvUnit} (srcInOrder : region.srcInsts.Sublist src.insts)
    (tgtInOrder : region.tgtInsts.Sublist tgt.insts)
    (built : buildTvUnit src tgt region diagName = .ok unit)
    (verified : unit.tgtFn.Refines unit.srcFn) (shared : ∀ use ∈ externalReads region.tgtInsts,
      ∀ use' ∈ externalReads region.srcInsts, tgt.nameOf use.2 = src.nameOf use'.2 →
          ∀ w, (tgtEnv w use.2).Refines (srcEnv w use'.2)) :
    SegmentRefines (.region region) tgtEnv srcEnv := by
  obtain ⟨⟨w, s, t, srcLast, tgtLast, srcTyped, tgtTyped⟩, lifted⟩ :=
    buildTvUnit_ok built
  let args := unitArgs src tgt unit.srcFn.args
    (externalReads region.srcInsts) (externalReads region.tgtInsts)
    srcEnv tgtEnv
  let args' := sourceArgs src tgt unit.srcFn.args
    (externalReads region.srcInsts) (externalReads region.tgtInsts)
    srcEnv tgtEnv
  have tgtOutcomes : unit.tgtFn.outcomes args = (runs region.tgtInsts tgtEnv).map
        fun env => .value (env w (.inst t.id)) := by
    simp only [Function.outcomes, lifted.tgt_half]
    refine buildHalf_value tgtVerified tgtInOrder tgtLast tgtTyped tgtEnv ?_
    intro use external index found
    obtain ⟨named, present⟩ := lifted.tgt_named use external
    obtain ⟨p, atIndex, name⟩ := paramOf_found present found
    simp only [args, unitArgs, atIndex, name, readReg_of_mem tgtVerified external named]
  have srcOutcomes : unit.srcFn.outcomes args' = (runs region.srcInsts srcEnv).map
        fun env => .value (env w (.inst s.id)) := by
    simp only [Function.outcomes, lifted.src_half]
    refine buildHalf_value srcVerified srcInOrder srcLast srcTyped srcEnv ?_
    intro use external index found
    obtain ⟨named, present⟩ := lifted.src_named use external
    obtain ⟨p, atIndex, name⟩ := paramOf_found present found
    simp only [args', sourceArgs, atIndex, name, readReg_of_mem srcVerified external named]
  -- the unit is verified on the mixed arguments, and on the source's own
  -- values the source half is no more defined than on those
  have onSource : Outcomes.Refines Returned.Refines
      (unit.srcFn.outcomes args) (unit.srcFn.outcomes args') := by
    simp only [Function.outcomes, lifted.src_half]
    exact BasicBlock.outcomes_mono _ (unitArgs_refines shared)
  have composed := (verified args).trans onSource fun _ _ _ first second =>
    first.trans second
  rw [tgtOutcomes, srcOutcomes] at composed
  refine composed.of_map.mono fun tgtEnv' srcEnv' _ _ held => ?_
  intro r r' link v defined
  simp only [Segment.link, srcLast, tgtLast, Option.some.injEq, Prod.mk.injEq] at link
  obtain ⟨rfl, rfl⟩ := link
  have width : v = w := by
    obtain ⟨other, member, typed, same⟩ := mem_bodyScope.mp defined
    have unique := List.inj_on_of_nodup_map
      ((srcInOrder.map Instruction.id).nodup srcVerified.ids_nodup)
    have sameInst : s = other := unique (List.mem_of_getLast? srcLast) member (Reg.inst.inj same)
    rw [← sameInst, srcTyped] at typed
    exact (Option.some.inj typed).symm
  subst width
  cases held with
  | value refined => exact refined

/-! ## Whole bodies -/

def UnitsRefine (src tgt : Body) (regions : List DiffRegion) : Prop :=
  ∀ region ∈ regions, ∃ diagName unit, buildTvUnit src tgt region diagName = .ok unit ∧
      unit.tgtFn.Refines unit.srcFn

theorem mem_regions_of_tiling (tiling : Tiling src tgt regions segments)
    (member : .region region ∈ segments) : region ∈ regions := by
  rw [← tiling.regions_eq]
  exact List.mem_filterMap.mpr ⟨_, member, rfl⟩

private theorem identical_outside (srcVerified : src.Verified)
    (tiling : Tiling src tgt regions segments)
    (member : .identical s t ∈ segments) : ∀ region ∈ regions, s ∉ region.srcInsts := by
  intro region known inside
  rw [← tiling.regions_eq] at known
  obtain ⟨segment, present, isRegion⟩ := List.mem_filterMap.mp known
  cases segment with
  | identical _ _ => cases isRegion
  | region region' =>
    cases isRegion
    have nodup := srcVerified.ids_nodup.of_map
    rw [← tiling.src_eq, List.nodup_flatMap] at nodup
    have symmetric : Std.Symm (Function.onFun List.Disjoint Segment.srcInsts) :=
      ⟨fun _ _ disjoint _ first second => disjoint second first⟩
    exact nodup.2.forall member present (by simp) List.mem_cons_self inside

section

variable (srcVerified : src.Verified) (tgtVerified : tgt.Verified)
    (units : UnitsRefine src tgt regions) (chain : OperandChain src tgt regions)
    (clean : LinesCutFree src tgt regions)

include srcVerified tgtVerified units chain clean

private theorem segment_step (tiling : Tiling src tgt regions (pre ++ segment :: rest))
    (inv : LinkInv pre tgtEnv srcEnv) :
    Outcomes.Refines (LinkInv (pre ++ [segment]))
      (runs segment.tgtInsts tgtEnv) (runs segment.srcInsts srcEnv) := by
  have present : segment ∈ pre ++ segment :: rest := by simp
  have srcSplit : src.insts = pre.flatMap Segment.srcInsts ++
      segment.srcInsts ++ rest.flatMap Segment.srcInsts := by
    rw [← tiling.src_eq, List.flatMap_append, List.flatMap_cons, List.append_assoc]
  have tgtSplit : tgt.insts = pre.flatMap Segment.tgtInsts ++
      segment.tgtInsts ++ rest.flatMap Segment.tgtInsts := by
    rw [← tiling.tgt_eq, List.flatMap_append, List.flatMap_cons, List.append_assoc]
  have refined : SegmentRefines segment tgtEnv srcEnv := by
    cases segment with
    | identical s t =>
      have outside := identical_outside srcVerified tiling present
      have paired := tiling.paired _ present (s, t) List.mem_cons_self
      obtain ⟨srcClean, tgtClean⟩ := clean.identical s t paired outside
      have lines := tiling.same s t present
      rw [instAsText_eq srcClean, instAsText_eq tgtClean] at lines
      refine identical_refines (Instruction.op_eq_of_bareText lines.symm) ?_
      intro v r r' used used' idents
      have wellScoped := tgtVerified.body_scoped
      rw [tgtSplit, List.append_assoc] at wellScoped
      exact inv.of_linked ((chain.identical s t paired outside (v, r) used
        (v, r') used' idents).early srcVerified tgtVerified tiling
          (scoped_use wellScoped (v, r) used)) v
    | region region =>
      have known := mem_regions_of_tiling tiling present
      obtain ⟨diagName, unit, built, verified⟩ := units region known
      refine region_refines srcVerified tgtVerified ?_ ?_ built verified ?_
      · rw [srcSplit, List.append_assoc]
        exact (List.sublist_append_left _ _).trans (List.sublist_append_right _ _)
      · rw [tgtSplit, List.append_assoc]
        exact (List.sublist_append_left _ _).trans (List.sublist_append_right _ _)
      · intro use external use' external' sameName w
        have named := (buildTvUnit_ok built).2.tgt_named use external
        have idents : tgt.identOf use.2 = src.identOf use'.2 := by
          rw [Body.identOf_of_name named.1, Body.identOf_of_name (sameName ▸ named.1), sameName]
        exact inv.of_linked ((chain.region region known use external use'
          external' idents).early srcVerified tgtVerified tiling
            (external_defined tgtVerified tgtSplit external)) w
  refine refined.mono fun tgtEnv' srcEnv' tgtRun srcRun linked => ?_
  exact inv.extend srcVerified tgtVerified tiling tgtRun srcRun linked

private theorem segments_run (rest : List Segment) :
    ∀ (pre : List Segment), Tiling src tgt regions (pre ++ rest) →
      ∀ {tgtEnv srcEnv : Env Reg}, LinkInv pre tgtEnv srcEnv →
        Outcomes.Refines (LinkInv (pre ++ rest)) (runs (rest.flatMap Segment.tgtInsts) tgtEnv)
          (runs (rest.flatMap Segment.srcInsts) srcEnv) := by
  induction rest with
  | nil =>
    intro pre _ tgtEnv srcEnv inv
    rw [List.append_nil]
    exact Outcomes.Refines.pure_iff.mpr inv
  | cons segment rest ih =>
    intro pre tiling tgtEnv srcEnv inv
    rw [List.flatMap_cons, List.flatMap_cons, runs_append, runs_append]
    refine (segment_step srcVerified tgtVerified units chain clean tiling
      inv).bind fun tgtEnv' srcEnv' _ _ inv' => ?_
    rw [List.append_cons pre segment rest] at tiling ⊢
    exact ih (pre ++ [segment]) tiling inv'

end

private theorem terminator_refines
    {term term' : TermOp Reg} (same : term.map tgt.identOf = term'.map src.identOf)
    (refined : ∀ v r s, (v, r) ∈ term.regs → (v, s) ∈ term'.regs →
      tgt.identOf r = src.identOf s → (tgtEnv v r).Refines (srcEnv v s)) :
    Outcomes.Refines Returned.Refines (term.returned tgtEnv) (term'.returned srcEnv) := by
  cases term with
  | ret value =>
    cases term' with
    | ret value' =>
      simp only [TermOp.map, TermOp.ret.injEq] at same
      obtain ⟨rfl, same⟩ := same
      exact Outcomes.Refines.pure_iff.mpr
        (.value (Operand.content_refines (eq_of_heq same)
          fun r s used used' => refined _ r s used used'))
    | retVoid => cases same
    | unreachable => cases same
  | retVoid =>
    cases term' with
    | ret value => cases same
    | retVoid => exact Outcomes.Refines.pure_iff.mpr .void
    | unreachable => cases same
  | unreachable =>
    cases term' with
    | ret value => cases same
    | retVoid => cases same
    | unreachable => exact Outcomes.Refines.of_undefined rfl

theorem body_refines (srcVerified : src.Verified) (tgtVerified : tgt.Verified)
    (tiling : Tiling src tgt regions segments) (terms : termAsText src = termAsText tgt)
    (units : UnitsRefine src tgt regions) (chain : OperandChain src tgt regions)
    (clean : LinesCutFree src tgt regions) (args : ArgTuple) :
    Outcomes.Refines Returned.Refines (tgt.block.outcomes args) (src.block.outcomes args) := by
  have start : LinkInv [] (bindArgs args) (bindArgs args) :=
    ⟨fun _ _ => Content.Refines.refl _, List.forall_mem_nil _, fun _ _ _ => rfl⟩
  have ran := segments_run srcVerified tgtVerified units chain clean segments [] tiling start
  rw [tiling.src_eq, tiling.tgt_eq, List.nil_append] at ran
  refine ran.bind fun tgtEnv srcEnv _ _ inv => ?_
  rw [termAsText_eq clean.terminator.1, termAsText_eq clean.terminator.2] at terms
  refine terminator_refines (TermOp.text_injective terms.symm) ?_
  intro v r s used used' idents
  have defined : (v, r) ∈ argScope tgt.args ++ bodyScope (segments.flatMap Segment.tgtInsts) := by
    rw [tiling.tgt_eq]
    exact tgtVerified.term_scoped (v, r) used
  have whole : Tiling src tgt regions (segments ++ []) := by
    rwa [List.append_nil]
  exact inv.of_linked ((chain.terminator (v, r) used (v, s) used'
    idents).early srcVerified tgtVerified whole defined) v

end Composition

end AliveNext.TvNext
