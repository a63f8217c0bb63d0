import AliveNext.TvNext.Proposer
import AliveNext.TvNext.RangeSound

/-!
# Every injected assumption is checked

Injection and check are two separate walks over the same claims: one looks a
name up among the parameters of the unit, the other among the clones of the
parent's values.  The second lookup never fails on a collected claim, because
every fact brings the slice of its own value along and every operand of an
obligation has a fact.
-/

namespace AliveNext.TvNext

open AliveNext.Lib
open AliveNext.LLVM

/-! ## What is injected and what is checked -/

/-- The injection of the claims, in order: each is skipped, or its predicate
on the parameters is assumed at the entry. -/
inductive Injected : List Claim → Function → Function → Prop
  | nil (fn : Function) : Injected [] fn fn
  | skip {claim : Claim} {rest : List Claim} {fn fn' : Function} :
      claim.predicate (resolveArg fn) = .ok none → Injected rest fn fn' →
        Injected (claim :: rest) fn fn'
  | inject {claim : Claim} {rest : List Claim} {fn fn' : Function} {p : Term Reg 1} :
      claim.predicate (resolveArg fn) = .ok (some p) → Injected rest (injectAssume fn p) fn' →
          Injected (claim :: rest) fn fn'

/-- `p` is a conjunct of a conjunction. -/
inductive Conjunct (p : Term Reg 1) : Term Reg 1 → Prop
  | self : Conjunct p p
  | left {name : Name} {a b : Term Reg 1} : Conjunct p a → Conjunct p (.node name (.binop .and) a b)
  | right {name : Name} {a b : Term Reg 1} :
      Conjunct p b → Conjunct p (.node name (.binop .and) a b)

/-- The check returns a conjunction, one conjunct of which is the predicate of
the claim on the clones of the parent's values. -/
def Discharged (check : TvUnit) (parent : Body) (facts : List KnownFact) (claim : Claim) : Prop :=
  ∃ p result, claim.predicate (resolveClone parent (checkPrelude parent facts).2.2) = .ok (some p) ∧
    Conjunct p result ∧
    check.tgtFn = checkTarget (checkParams parent facts) (checkPrelude parent facts).1
        (checkPrelude parent facts).2.1 (some result)

variable {claims : List Claim} {fn fn' : Function} {parent : Body} {fact : KnownFact}
  {facts : List KnownFact} {unit : TvUnit} {inst : Instruction} {llvm : BitOperators}
  {side : PerSideFacts} {name : Name} {vmap : ValueMap} {result before : Option (Term Reg 1)}
  {resolve : Name → Option (Σ w, Operand Reg w)} {claim : Claim} {diagName : String}

theorem injected_of_fold
    (folded : claims.foldlM injectClaim fn = .ok fn') : Injected claims fn fn' := by
  induction claims generalizing fn with
  | nil =>
    obtain rfl : fn = fn' := Except.ok.inj folded
    exact .nil fn
  | cons claim rest ih =>
    obtain ⟨middle, first, later⟩ := foldlM_cons_eq_ok.mp folded
    obtain ⟨predicate, built, injected⟩ := bind_eq_ok.mp first
    cases predicate with
    | none =>
      obtain rfl : fn = middle := Except.ok.inj injected
      exact .skip built (ih later)
    | some p =>
      obtain rfl : injectAssume fn p = middle := Except.ok.inj injected
      exact .inject built (ih later)

theorem Injected.append {first second : List Claim} {fn'' : Function}
    (injected : Injected first fn fn') (later : Injected second fn' fn'') :
    Injected (first ++ second) fn fn'' := by
  induction injected with
  | nil fn => exact later
  | skip skipped _ ih =>
    exact .skip skipped (ih later)
  | inject built _ ih =>
    exact .inject built (ih later)

/-! ## Collected claims resolve -/

structure KnownFact.Collected (fact : KnownFact) (parent : Body) : Prop where
  nonempty : fact.isEmpty = false
  found : ∃ r, findValueByName fact.name parent = some (fact.width, r)
  sliced : collectBackwardSlice fact.name parent = some fact.slice

theorem collectFact_collected {ranges : RangeMap} {param : Argument}
    (collected : collectFact parent ranges param = some fact) : fact.Collected parent := by
  unfold collectFact at collected
  split at collected
  next => cases collected
  next =>
    split at collected
    next => cases collected
    next w r found =>
      split at collected
      next => cases collected
      next range recorded =>
        split at collected
        next => cases collected
        next slice sliced =>
          dsimp only at collected
          split at collected
          next => cases collected
          next nonempty =>
            cases collected
            exact ⟨eq_false_of_ne_true nonempty, ⟨r, found⟩, sliced⟩

def KeysHaveFacts (facts : List KnownFact) (obligations : List FlagObligation) : Prop :=
  ∀ obligation ∈ obligations, ∀ key ∈ obligation.opKeys, keyHasFact facts key.1 = true

theorem KeysHaveFacts.nil (facts : List KnownFact) : KeysHaveFacts facts [] :=
  List.forall_mem_nil _

theorem KeysHaveFacts.append {first second : List FlagObligation}
    (left : KeysHaveFacts facts first) (right : KeysHaveFacts facts second) :
    KeysHaveFacts facts (first ++ second) := by
  intro obligation member
  rcases List.mem_append.mp member with member | member
  · exact left obligation member
  · exact right obligation member

theorem collectObligations_keys {obligations : List FlagObligation}
    (collected : collectObligations unit facts inst = .ok obligations) :
    KeysHaveFacts facts obligations := by
  unfold collectObligations at collected
  obtain ⟨matched, -, collected⟩ := bind_eq_ok.mp collected
  split at collected
  next =>
    cases collected
    exact .nil facts
  next other =>
    split at collected
    next =>
      cases collected
      exact .nil facts
    next resultBw _ =>
      dsimp only at collected
      split at collected
      next known =>
        refine foldlM_invariant (KeysHaveFacts facts) collected (.nil facts) ?_
        intro kind _ before after kept stepped
        obtain ⟨fits, -, stepped⟩ := bind_eq_ok.mp stepped
        split at stepped
        next =>
          cases stepped
          refine kept.append fun obligation member key used => ?_
          cases List.mem_singleton.mp member
          exact List.all_eq_true.mp known key used
        next =>
          cases stepped
          exact kept
      next =>
        cases collected
        exact .nil facts

structure PerSideFacts.Collected (side : PerSideFacts) (parent : Body) : Prop where
  facts : ∀ fact ∈ side.facts, fact.Collected parent
  keys : KeysHaveFacts side.facts side.obligations

theorem collectFromParent_collected (collected : collectFromParent llvm unit parent = .ok side) :
    side.Collected parent := by
  unfold collectFromParent at collected
  obtain ⟨ranges, -, collected⟩ := bind_eq_ok.mp collected
  obtain ⟨obligations, gathered, collected⟩ := bind_eq_ok.mp collected
  cases collected
  constructor
  · intro fact member
    obtain ⟨param, -, found⟩ := List.mem_filterMap.mp member
    exact collectFact_collected found
  · refine foldlM_invariant (KeysHaveFacts _) gathered (.nil _) ?_
    intro inst _ before after kept stepped
    obtain ⟨more, found, stepped⟩ := bind_eq_ok.mp stepped
    cases stepped
    exact kept.append (collectObligations_keys found)

theorem inst_eq_of_name (verified : parent.Verified) {first second : Instruction}
    (firstMember : first ∈ parent.insts) (secondMember : second ∈ parent.insts)
    (named : first.hasName = true) (same : first.name = second.name) : first = second := by
  have nodup : ((parent.insts.filter Instruction.hasName).map Instruction.name).Nodup := by
    have sublist : ((parent.insts.filter Instruction.hasName).map
        Instruction.name).Sublist (valueNames parent.args parent.insts) := by
      rw [valueNames, List.filter_append, List.filter_map (f := Instruction.name)]
      exact List.sublist_append_right _ _
    exact verified.names_nodup.sublist sublist
  refine List.inj_on_of_nodup_map nodup (List.mem_filter.mpr ⟨firstMember, named⟩)
    (List.mem_filter.mpr ⟨secondMember, ?_⟩) same
  simpa [Instruction.hasName, ← same] using named

theorem find_of_sliceRoot (verified : parent.Verified)
    {root : Instruction} (rooted : sliceRoot name parent.insts = some root) :
    root ∈ parent.insts ∧ parent.insts.find? (fun inst => inst.hasName && inst.name == name) =
        some root := by
  rw [sliceRoot, List.findRev?_eq_find?_reverse] at rooted
  have member : root ∈ parent.insts :=
    List.mem_reverse.mp (List.mem_of_find?_eq_some rooted)
  have named := List.find?_some rooted
  cases found : parent.insts.find? fun inst => inst.hasName && inst.name == name with
  | none =>
    exact absurd named (List.find?_eq_none.mp found root member)
  | some first =>
    have firstNamed := List.find?_some found
    rw [Bool.and_eq_true, beq_iff_eq] at named firstNamed
    refine ⟨member, congrArg some ?_⟩
    exact inst_eq_of_name verified (List.mem_of_find?_eq_some found) member
      firstNamed.1 (firstNamed.2.trans named.2.symm)

theorem lookup_cons_isSome {r other image : Reg} (known : (vmap.lookup r).isSome = true) :
    (((other, image) :: vmap).lookup r).isSome = true := by
  rw [List.lookup_cons]
  split
  next => rfl
  next => exact known

theorem cloneSlice_keeps (insts : List Instruction) (supply : Supply)
    {r : Reg} (known : (vmap.lookup r).isSome = true) :
    ((cloneSlice insts supply vmap).2.2.lookup r).isSome = true := by
  induction insts generalizing supply vmap with
  | nil => exact known
  | cons inst rest ih =>
    exact ih _ (lookup_cons_isSome known)

theorem cloneSlice_lookup {insts : List Instruction} {supply : Supply} (member : inst ∈ insts) :
    ((cloneSlice insts supply vmap).2.2.lookup (.inst inst.id)).isSome =
      true := by
  induction insts generalizing supply vmap with
  | nil => exact absurd member List.not_mem_nil
  | cons head rest ih =>
    rcases List.mem_cons.mp member with rfl | member
    · have known : (((Reg.inst inst.id, Reg.inst supply.nextId) ::
          vmap).lookup (.inst inst.id)).isSome = true := by
        rw [List.lookup_cons_self]
        rfl
      exact cloneSlice_keeps rest _ known
    · exact ih member

theorem KnownFact.Collected.root (verified : parent.Verified) (collected : fact.Collected parent) :
    ∃ root ∈ parent.insts, findValueByName fact.name parent = some (fact.width, .inst root.id) ∧
      root.type = some fact.width ∧ fact.slice.Closed parent root := by
  obtain ⟨r, found⟩ := collected.found
  obtain ⟨root, rooted, sliced⟩ := Option.map_eq_some_iff.mp collected.sliced
  obtain ⟨member, first⟩ := find_of_sliceRoot verified rooted
  have closed := sliceFrom_closed verified.ids_nodup member
  rw [sliced] at closed
  have named := found
  rw [findValueByName, first] at named
  obtain ⟨w, typed, same⟩ := Option.map_eq_some_iff.mp named
  cases same
  exact ⟨root, member, found, typed, closed⟩

theorem mem_slicedInsts (factMember : fact ∈ facts) (member : inst ∈ parent.insts)
    (sliced : inst ∈ fact.slice.insts) : inst ∈ slicedInsts parent facts := by
  refine List.mem_filter.mpr ⟨member, List.any_eq_true.mpr ⟨fact, factMember, ?_⟩⟩
  exact List.any_eq_true.mpr ⟨inst, sliced, beq_self_eq_true inst.id⟩

theorem resolveClone_of_fact (verified : parent.Verified)
    (member : fact ∈ facts) (collected : fact.Collected parent) :
    ∃ clone, resolveClone parent (checkPrelude parent facts).2.2 fact.name =
      some ⟨fact.width, .reg clone⟩ := by
  obtain ⟨root, rootMember, found, -, closed⟩ := collected.root verified
  obtain ⟨clone, known⟩ := Option.isSome_iff_exists.mp
    (cloneSlice_lookup (mem_slicedInsts member rootMember closed.root_mem))
  refine ⟨clone, ?_⟩
  rw [resolveClone, found]
  exact congrArg (Option.map _) known

theorem buildFactPredicate_isSome {R : Type} {v : Nat} {value : Operand R v}
    (nonempty : fact.isEmpty = false) {result : Option (Term R 1)}
    (built : buildFactPredicate value fact = .ok result) : result.isSome = true := by
  unfold buildFactPredicate at built
  cases claims : factClaims value fact with
  | nil =>
    -- without claims the fact is empty
    simp only [factClaims, List.append_eq_nil_iff, List.map_eq_nil_iff,
      Option.toList_eq_nil_iff] at claims
    obtain ⟨⟨⟨noU, noS⟩, noPoison⟩, noBits⟩ := claims
    have poison : fact.poisonFree = false := by
      cases free : fact.poisonFree with
      | false => rfl
      | true => simp [free] at noPoison
    have bits : fact.bits.all KnownBits.isUnknown = true := by
      cases known : fact.bits with
      | none => rfl
      | some known' => simpa [known] using noBits
    simp [KnownFact.isEmpty, noU, noS, poison, bits] at nonempty
  | cons claim rest =>
    rw [claims] at built
    obtain ⟨middle, first, later⟩ := foldlM_cons_eq_ok.mp built
    refine foldlM_invariant (fun result => result.isSome = true) later ?_ ?_
    · obtain ⟨term, -, added⟩ := bind_eq_ok.mp first
      cases added
      rfl
    · intro claim _ before after kept stepped
      obtain ⟨term, -, added⟩ := bind_eq_ok.mp stepped
      cases added
      cases before <;> rfl

theorem resolveKeys_isSome {keys : List (OperandKey × Nat)}
    (resolvable : ∀ key ∈ keys, ∀ name, key.1 = .named name → (resolve name).isSome = true)
    {result : Option (List (Σ w, Operand Reg w))}
    (resolved : resolveKeys resolve keys = .ok result) : result.isSome = true := by
  induction keys generalizing result with
  | nil =>
    cases resolved
    rfl
  | cons key rest ih =>
    have later : ∀ {result}, resolveKeys resolve rest = .ok result → result.isSome = true :=
      ih fun other member =>
        resolvable other (List.mem_cons_of_mem key member)
    obtain ⟨key, ty⟩ := key
    cases key with
    | const w value =>
      simp only [resolveKeys] at resolved
      split at resolved
      next =>
        obtain ⟨operands, found, resolved⟩ := bind_eq_ok.mp resolved
        obtain ⟨operands, rfl⟩ := Option.isSome_iff_exists.mp (later found)
        cases resolved
        rfl
      next => cases resolved
    | named name =>
      obtain ⟨operand, known⟩ := Option.isSome_iff_exists.mp
        (resolvable _ List.mem_cons_self name rfl)
      simp only [resolveKeys, known] at resolved
      obtain ⟨operands, found, resolved⟩ := bind_eq_ok.mp resolved
      obtain ⟨operands, rfl⟩ := Option.isSome_iff_exists.mp (later found)
      cases resolved
      rfl

theorem predicate_isSome (verified : parent.Verified) (collected : side.Collected parent)
    (member : claim ∈ side.claims)
    (built : claim.predicate (resolveClone parent
      (checkPrelude parent side.facts).2.2) = .ok result) :
    result.isSome = true := by
  rcases List.mem_append.mp member with member | member
  · obtain ⟨fact, factMember, rfl⟩ := List.mem_map.mp member
    have factCollected := collected.facts fact factMember
    obtain ⟨clone, resolved⟩ :=
      resolveClone_of_fact verified factMember factCollected
    simp only [Claim.predicate, resolved] at built
    exact buildFactPredicate_isSome factCollected.nonempty built
  · obtain ⟨obligation, obligationMember, rfl⟩ := List.mem_map.mp member
    obtain ⟨operands, resolved, built⟩ := bind_eq_ok.mp built
    have found : operands.isSome = true := by
      refine resolveKeys_isSome (fun key used name named => ?_) resolved
      have known := collected.keys obligation obligationMember key used
      rw [named, keyHasFact, Bool.and_eq_true, List.any_eq_true] at known
      obtain ⟨-, fact, factMember, same⟩ := known
      obtain ⟨clone, resolved⟩ := resolveClone_of_fact verified factMember
        (collected.facts fact factMember)
      rw [← beq_iff_eq.mp same, resolved]
      rfl
    obtain ⟨operands, rfl⟩ := Option.isSome_iff_exists.mp found
    obtain ⟨term, -, built⟩ := bind_eq_ok.mp built
    cases built
    rfl

theorem andIn_conjunct {p result : Term Reg 1} (added : andIn name before p = some result) :
    Conjunct p result ∧ ∀ q earlier, before = some earlier → Conjunct q earlier →
        Conjunct q result := by
  cases before with
  | none =>
    cases added
    exact ⟨.self, nofun⟩
  | some earlier =>
    cases added
    refine ⟨.right .self, ?_⟩
    intro q other same conjunct
    cases same
    exact .left conjunct

/-- `q` is a conjunct of what has been built so far. -/
def IsConjunct (q : Term Reg 1) (result : Option (Term Reg 1)) : Prop :=
  ∃ conjunction, result = some conjunction ∧ Conjunct q conjunction

/-- One step of `conjoin`. -/
private theorem conjoin_step
    {after : Option (Term Reg 1)} (stepped : (do
      match ← claim.predicate resolve with
      | none => .ok before
      | some p => .ok (andIn (ascii "all") before p)) = .ok after) :
    (∀ q, IsConjunct q before → IsConjunct q after) ∧
      ∃ predicate, claim.predicate resolve = .ok predicate ∧
        ∀ p, predicate = some p → IsConjunct p after := by
  obtain ⟨predicate, built, stepped⟩ := bind_eq_ok.mp stepped
  cases predicate with
  | none =>
    cases stepped
    exact ⟨fun q held => held, none, built, nofun⟩
  | some p =>
    obtain rfl : andIn (ascii "all") before p = after :=
      Except.ok.inj stepped
    obtain ⟨conjunction, added⟩ :
        ∃ conjunction, andIn (ascii "all") before p = some conjunction := by
      cases before <;> exact ⟨_, rfl⟩
    obtain ⟨new, kept⟩ := andIn_conjunct added
    refine ⟨?_, some p, built, ?_⟩
    · rintro q ⟨earlier, same, held⟩
      exact ⟨conjunction, added, kept q earlier same held⟩
    · intro p' same
      cases same
      exact ⟨conjunction, added, new⟩

theorem conjoin_conjunct (conjoined : conjoin resolve claims = .ok result) :
    ∀ claim ∈ claims, ∃ predicate, claim.predicate resolve = .ok predicate ∧
        ∀ p, predicate = some p → IsConjunct p result := by
  unfold conjoin at conjoined
  generalize (none : Option (Term Reg 1)) = init at conjoined
  induction claims generalizing init with
  | nil => exact List.forall_mem_nil _
  | cons head rest ih =>
    obtain ⟨middle, first, later⟩ := foldlM_cons_eq_ok.mp conjoined
    obtain ⟨-, predicate, built, new⟩ := conjoin_step first
    intro claim member
    rcases List.mem_cons.mp member with rfl | member
    · refine ⟨predicate, built, fun p same => ?_⟩
      refine foldlM_invariant (IsConjunct p) later (new p same) ?_
      intro other _ before after held stepped
      exact (conjoin_step stepped).1 p held
    · exact ih middle later claim member

theorem buildCombinedFactCheck_discharged
    (verified : parent.Verified) (collected : side.Collected parent)
    {check : TvUnit} (built : buildCombinedFactCheck side parent diagName = .ok check) :
    ∀ claim ∈ side.claims, Discharged check parent side.facts claim := by
  intro claim member
  obtain ⟨result, conjoined, same⟩ := bind_eq_ok.mp built
  obtain ⟨predicate, predicated, conjunct⟩ :=
    conjoin_conjunct conjoined claim member
  obtain ⟨p, rfl⟩ := Option.isSome_iff_exists.mp
    (predicate_isSome verified collected member predicated)
  obtain ⟨conjunction, rfl, held⟩ := conjunct p rfl
  cases same
  exact ⟨p, conjunction, predicated, held, rfl⟩

theorem sideCheck_discharged (verified : parent.Verified) (collected : side.Collected parent)
    {checks : List TvUnit} (built : sideCheck side parent diagName = .ok checks) :
    ∀ claim ∈ side.claims, ∃ check ∈ checks, Discharged check parent side.facts claim := by
  intro claim member
  unfold sideCheck at built
  split at built
  next empty =>
    rw [PerSideFacts.isEmpty, Bool.and_eq_true, List.isEmpty_iff, List.isEmpty_iff] at empty
    simp [PerSideFacts.claims, empty] at member
  next =>
    obtain ⟨check, checked, same⟩ := bind_eq_ok.mp built
    cases same
    exact ⟨check, List.mem_singleton.mpr rfl,
      buildCombinedFactCheck_discharged verified collected checked claim member⟩

theorem proposeFromRanges_parts {src tgt : Body} {proposed : AssumedTvUnit}
    (proposal : proposeFromRanges llvm unit src tgt = .ok (some proposed)) :
    ∃ srcSide tgtSide srcChecks tgtChecks, collectFromParent llvm unit src = .ok srcSide ∧
      collectFromParent llvm unit tgt = .ok tgtSide ∧
      Injected (srcSide.claims ++ tgtSide.claims) unit.srcFn proposed.modifiedUnit.srcFn ∧
      Injected (srcSide.claims ++ tgtSide.claims) unit.tgtFn proposed.modifiedUnit.tgtFn ∧
      sideCheck srcSide src (unit.name ++ ".src-assume-check") =
        .ok srcChecks ∧
      sideCheck tgtSide tgt (unit.name ++ ".tgt-assume-check") =
        .ok tgtChecks ∧
      proposed.assumeChecks = srcChecks ++ tgtChecks := by
  unfold proposeFromRanges at proposal
  obtain ⟨srcSide, srcCollected, proposal⟩ := bind_eq_ok.mp proposal
  obtain ⟨tgtSide, tgtCollected, proposal⟩ := bind_eq_ok.mp proposal
  split at proposal
  next => cases proposal
  next =>
    obtain ⟨srcFirst, srcInjected, proposal⟩ := bind_eq_ok.mp proposal
    obtain ⟨srcModified, srcInjected', proposal⟩ := bind_eq_ok.mp proposal
    obtain ⟨tgtFirst, tgtInjected, proposal⟩ := bind_eq_ok.mp proposal
    obtain ⟨tgtModified, tgtInjected', proposal⟩ := bind_eq_ok.mp proposal
    obtain ⟨srcChecks, srcBuilt, proposal⟩ := bind_eq_ok.mp proposal
    obtain ⟨tgtChecks, tgtBuilt, proposal⟩ := bind_eq_ok.mp proposal
    cases proposal
    exact ⟨srcSide, tgtSide, srcChecks, tgtChecks, srcCollected, tgtCollected,
      (injected_of_fold srcInjected).append (injected_of_fold srcInjected'),
      (injected_of_fold tgtInjected).append (injected_of_fold tgtInjected'),
      srcBuilt, tgtBuilt, rfl⟩

/-- Both halves of the modified unit differ from the unit in assumptions of
the claims of the two sides, and every claim of a side is a conjunct of a
returned check over that side's parent. -/
theorem proposeFromRanges_discharged {llvm : BitOperators} {unit : TvUnit}
    {src tgt : Body} (srcVerified : src.Verified) (tgtVerified : tgt.Verified)
    {proposed : AssumedTvUnit}
    (proposal : proposeFromRanges llvm unit src tgt = .ok (some proposed)) :
    ∃ srcSide tgtSide,
      collectFromParent llvm unit src = .ok srcSide ∧
      collectFromParent llvm unit tgt = .ok tgtSide ∧
      Injected (srcSide.claims ++ tgtSide.claims) unit.srcFn
        proposed.modifiedUnit.srcFn ∧
      Injected (srcSide.claims ++ tgtSide.claims) unit.tgtFn
        proposed.modifiedUnit.tgtFn ∧
      (∀ claim ∈ srcSide.claims, ∃ check ∈ proposed.assumeChecks,
        Discharged check src srcSide.facts claim) ∧
      ∀ claim ∈ tgtSide.claims, ∃ check ∈ proposed.assumeChecks,
        Discharged check tgt tgtSide.facts claim := by
  obtain ⟨srcSide, tgtSide, srcChecks, tgtChecks, srcCollected, tgtCollected,
    srcInjected, tgtInjected, srcBuilt, tgtBuilt, checks⟩ :=
    proposeFromRanges_parts proposal
  refine ⟨srcSide, tgtSide, srcCollected, tgtCollected, srcInjected, tgtInjected, ?_, ?_⟩
  · intro claim member
    obtain ⟨check, checkMember, discharged⟩ :=
      sideCheck_discharged srcVerified
        (collectFromParent_collected srcCollected) srcBuilt claim member
    exact ⟨check, checks ▸ List.mem_append_left _ checkMember, discharged⟩
  · intro claim member
    obtain ⟨check, checkMember, discharged⟩ :=
      sideCheck_discharged tgtVerified
        (collectFromParent_collected tgtCollected) tgtBuilt claim member
    exact ⟨check, checks ▸ List.mem_append_right _ checkMember, discharged⟩

/-- `%x = and i8 %a, 15` and `%y = add i8 %x, 1`, with a flag or without. -/
def maskedSum (nuw : Bool) : Body where
  args := [⟨ascii "a", 8⟩]
  block :=
    { name := ascii "entry"
      insts :=
        [⟨0, ascii "x", .value (.binop (w := 8) .and (.reg (.arg 0))
          (.const 15)), []⟩,
        ⟨1, ascii "y", .value (.binop (w := 8) (.add nuw false)
          (.reg (.inst 0)) (.const 1)), []⟩]
      term := ⟨.ret (w := 8) (.reg (.inst 1)), []⟩ }

/-- The half of the unit for `%y`. -/
def maskedHalf (name : String) (nuw : Bool) : Function where
  name := ascii name
  args := [⟨ascii "x", 8⟩]
  blocks :=
    [{ name := ascii "entry"
       insts := [⟨0, ascii "y", .value (.binop (w := 8) (.add nuw false)
         (.reg (.arg 0)) (.const 1)), []⟩]
       term := ⟨.ret (w := 8) (.reg (.inst 0)), []⟩ }]

def maskedUnit : TvUnit :=
  ⟨"unit@2", maskedHalf "src" false, maskedHalf "tgt" true⟩

theorem proposeFromRanges_discharged_masked :
    ∃ proposed srcSide,
      proposeFromRanges prefixOperators maskedUnit (maskedSum false)
        (maskedSum true) = .ok (some proposed) ∧
      collectFromParent prefixOperators maskedUnit (maskedSum false) =
        .ok srcSide ∧
      srcSide.facts.length = 1 ∧ srcSide.obligations.length = 1 ∧
      ∀ claim ∈ srcSide.claims, ∃ check ∈ proposed.assumeChecks,
        Discharged check (maskedSum false) srcSide.facts claim := by
  obtain ⟨proposed, proposal⟩ : ∃ proposed, proposeFromRanges prefixOperators
      maskedUnit (maskedSum false) (maskedSum true) = .ok (some proposed) :=
    ⟨_, rfl⟩
  obtain ⟨srcSide, tgtSide, srcCollected, -, -, -, srcDischarged, -⟩ :=
    proposeFromRanges_discharged (by decide +kernel) (by decide +kernel) proposal
  refine ⟨proposed, srcSide, proposal, srcCollected, ?_, ?_, srcDischarged⟩
  · cases srcCollected
    rfl
  · cases srcCollected
    rfl

end AliveNext.TvNext
