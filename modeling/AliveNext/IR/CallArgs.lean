import AliveNext.IR.StoredSound

/-!
# The memory behind the arguments of a call

`Memory::refined` for two lists of pointer arguments. It compares the blocks that the alias
analysis gives for the arguments, under the guard that some argument points to the block.
-/

namespace AliveNext.IR.Stored

variable {Ω T Byte : Type} {w : Nat}

/-- `PtrInput`: a pointer argument by its value in a model. -/
structure PtrInput (Ω : Type) where
  nonPoison : Ω → Bool
  bid : Ω → Nat

/-- What `Memory::refined` asks besides the contents: the lists of arguments, and the blocks
that `computeAliasing` gives for an argument in one of the two memories. -/
structure CallArgs (Ω : Type) where
  setPtrs : List (PtrInput Ω)
  setPtrs2 : List (PtrInput Ω)
  aliasing : Bool → PtrInput Ω → Nat → Bool

namespace CallArgs

variable (args : CallArgs Ω)

def blockAlias (bid : Nat) : Bool :=
  [true, false].any fun mem => args.setPtrs.any fun ptr => args.aliasing mem ptr bid

def requests (ω : Ω) (ptrBid : Nat) : Prop :=
  ∃ ptr ∈ args.setPtrs ++ args.setPtrs2, ptr.nonPoison ω = true ∧ ptr.bid ω = ptrBid

end CallArgs

/-- The tests of `Memory::refined` that skip a block, but for the alias analysis. -/
structure Skips where
  fncall : Bool
  isGVUsed : Nat → Bool
  isByval : Nat → Bool

/-- The tests that `Memory::refined` makes for two memories. -/
def Comparison.skips {src tgt : Memory Ω T Byte w} (c : Comparison src tgt) : Skips :=
  ⟨c.fncall, c.isGVUsed, c.isByval⟩

section

variable (cfg : Config) (args : CallArgs Ω) (skips : Skips)

/-- The blocks that the loop of `Memory::refined` compares. -/
def CallArgs.checked (bid : Nat) : Bool :=
  !((skips.fncall || bid = 0) && cfg.alwaysNowrite bid true true) && args.blockAlias bid &&
    !(cfg.isConstglb bid false && !skips.isGVUsed bid) && !skips.isByval bid

variable {src tgt : Memory Ω T Byte w} (c : Comparison src tgt) [DecidableEq T]
  (eval : T → Ω → BitVec w)

/-- `Memory::refined` with arguments, for one value of `#idx_refinement`. -/
def Comparison.argsRefined (ω : Ω) (ptrBid : Nat) (offset : BitVec w) : Prop :=
  args.requests ω ptrBid → ∀ bid < cfg.numNonlocalsSrc, args.checked cfg c.skips bid = true →
    ptrBid = bid →
      c.blockRefined bid ω ∧ (c.srcAlive bid ω = true → c.valRefined cfg eval bid ω offset)

structure Comparison.Agrees (bid : Nat) (ω : Ω) : Prop where
  block : c.blockRefined bid ω
  bytes : ∀ offset, InBounds cfg c.srcSize bid ω offset →
    (src.storedPointers bid).Covers eval ω offset ∨ (tgt.storedPointers bid).Covers eval ω offset →
    c.SameOrRefined bid ω (src.nonLocalBlockVal bid ω offset) (tgt.nonLocalBlockVal bid ω offset)

/-- The blocks that should be compared: not constant, not a copy of a by-value argument, and
pointed to by some argument. -/
structure CallArgs.Compares (ω : Ω) (bid : Nat) : Prop where
  nonlocal : bid < cfg.numNonlocals
  notConst : cfg.isConstglb bid false = false
  notByval : skips.isByval bid = false
  requested : args.requests ω bid

def Config.isNullBlock (bid : Nat) : Bool :=
  !cfg.nullIsDereferenceable && bid < cfg.hasNullBlock.toNat

end

section

variable {cfg : Config} {args : CallArgs Ω} {skips : Skips} {bid : Nat} {ω : Ω}

theorem CallArgs.Compares.inSource
    (compares : args.Compares cfg skips ω bid) : bid < cfg.numNonlocalsSrc := by
  by_contra outside
  have not_const := compares.notConst
  unfold Config.isConstglb at not_const
  rw [Bool.not_false, Bool.true_and, decide_eq_true (not_lt.1 outside),
    decide_eq_true compares.nonlocal, Bool.and_true, Bool.or_true] at not_const
  cases not_const

theorem CallArgs.Compares.checked_eq
    (compares : args.Compares cfg skips ω bid) (accessible : cfg.isNullBlock bid = false) :
    args.checked cfg skips bid = args.blockAlias bid := by
  have not_const_src : cfg.isConstglb bid true = false := by
    have not_const := compares.notConst
    unfold Config.isConstglb at not_const ⊢
    rw [Bool.or_eq_false_iff] at not_const
    rw [not_const.1]
    rfl
  have writable : cfg.alwaysNowrite bid true true = false := by
    unfold Config.alwaysNowrite Config.alwaysNoread
    rw [not_const_src, ← Config.isNullBlock, accessible]
    rfl
  unfold CallArgs.checked
  rw [writable, compares.notConst, compares.notByval]
  simp

end

def uniform (T : Type) (val : Nat → Byte) (stored : Nat → Record T) : Memory Ω T Byte w where
  localBlockVal bid _ _ := val bid
  nonLocalBlockVal bid _ _ := val bid
  storedPointers := stored

def storedIn (T : Type) (bid : Nat) : Nat → Record T :=
  Function.update (fun _ => ⟨∅, false⟩) bid (Record.full T)

def differing (T : Type) (cfg : Config) (skips : Skips) (alive : Nat → Bool) (bid : Nat)
    (a b : Byte) : Comparison (Ω := Ω) (w := w) (uniform T (fun _ => a) (storedIn T bid))
      (uniform T (Function.update (fun _ => a) bid b) (storedIn T bid)) where
  fncall := skips.fncall
  srcNextNonlocalBid := 0
  tgtNextNonlocalBid := 0
  isGVUsed := skips.isGVUsed
  isByval := skips.isByval
  srcSize other _ := if cfg.isNullBlock other then 0 else cfg.unit
  tgtSize other _ := if cfg.isNullBlock other then 0 else cfg.unit
  srcAlive other _ := alive other
  tgtAlive other _ := alive other
  blockAttrsRefined _ _ := True
  constSize _ := none
  constSize_sound := nofun
  sameBlock other := other ≠ bid
  sameBlock_sound other same := by
    funext ω offset
    show a = Function.update (fun _ => a) bid b other
    rw [Function.update_of_ne (of_decide_eq_true same)]
  srcInitial _ := 0
  tgtInitial _ := 0
  sameByte _ _ _ := false
  sameByte_sound := nofun
  byteRefined _ _ _ _ := False

section

variable {cfg : Config} {args : CallArgs Ω} {skips : Skips} {alive : Nat → Bool} {bid : Nat}
  {ω : Ω} {a b : Byte} {eval : T → Ω → BitVec w}

theorem differing_not_agrees (ne : a ≠ b) (accessible : cfg.isNullBlock bid = false) :
    ¬(differing T cfg skips alive bid a b).Agrees cfg eval bid ω := by
  intro agrees
  have in_bounds : InBounds cfg (differing (w := w) T cfg skips alive bid a b).srcSize bid ω
      (0 : BitVec w) := by
    show ((0 : BitVec w).toNat + 1) * cfg.unit ≤ if cfg.isNullBlock bid then 0 else cfg.unit
    rw [accessible]
    simp
  have covered : (storedIn T bid bid).Covers eval ω 0 := by
    rw [storedIn, Function.update_self]
    exact covers_full
  rcases agrees.bytes 0 in_bounds (.inl covered) with same | refined
  · have value : a = Function.update (fun _ => a) bid b bid := same
    rw [Function.update_self] at value
    exact ne value
  · exact refined

variable [DecidableEq T]

theorem differing_others {other : Nat} (ne : other ≠ bid) (offset : BitVec w) :
    (differing T cfg skips alive bid a b).valRefined cfg eval other ω offset := by
  have unstored : storedIn T bid other = ⟨∅, false⟩ := Function.update_of_ne ne _ _
  have nothing : (!(storedIn T bid other).second) = true ∧ (storedIn T bid other).first = ∅ ∧
      (!(storedIn T bid other).second) = true ∧ (storedIn T bid other).first = ∅ := by
    rw [unstored]
    exact ⟨rfl, rfl, rfl, rfl⟩
  unfold Comparison.valRefined
  exact (if_pos nothing).mpr trivial

theorem differing_argsRefined (unlooked : args.checked cfg skips bid = true → alive bid = false)
    (ptrBid : Nat) (offset : BitVec w) :
    (differing T cfg skips alive bid a b).argsRefined cfg args eval ω ptrBid offset := by
  intro requested other in_source checked points
  refine ⟨⟨rfl, rfl, trivial⟩, ?_⟩
  intro live
  by_cases here : other = bid
  · rw [here] at checked live
    have dead := unlooked checked
    rw [show alive bid = true from live] at dead
    cases dead
  · exact differing_others here offset

end

section

variable [DecidableEq T] [Nontrivial Byte] (cfg : Config) (args : CallArgs Ω) (skips : Skips)
  (alive : Nat → Bool) (eval : T → Ω → BitVec w) (ω : Ω)

/-- When the comparison makes all blocks agree that some argument points to. -/
theorem Comparison.argsRefined_agrees_iff :
    (∀ (src tgt : Memory Ω T Byte w) (c : Comparison src tgt),
      c.skips = skips →
      (∀ bid, c.srcAlive bid ω = alive bid) →
      (∀ bid, cfg.isNullBlock bid = true → c.blockRefined bid ω ∧ c.srcSize bid ω = 0) →
      (∀ ptrBid offset, c.argsRefined cfg args eval ω ptrBid offset) →
      ∀ bid, args.Compares cfg skips ω bid → c.Agrees cfg eval bid ω) ↔
    ∀ bid, args.Compares cfg skips ω bid → cfg.isNullBlock bid = false →
      args.blockAlias bid = true ∧ alive bid = true := by
  constructor
  · intro agrees bid compares accessible
    by_contra missed
    obtain ⟨a, b, ne⟩ := exists_pair_ne Byte
    have unlooked : args.checked cfg skips bid = true → alive bid = false := by
      intro checked
      rw [compares.checked_eq accessible] at checked
      by_contra live
      exact missed ⟨checked, Bool.not_eq_false _ ▸ live⟩
    have apart : ¬(differing (w := w) T cfg skips alive bid a b).Agrees cfg eval bid ω :=
      differing_not_agrees ne accessible
    apply apart
    apply agrees _ _ (differing T cfg skips alive bid a b)
    · rfl
    · intro other
      rfl
    · intro other null
      refine ⟨⟨rfl, rfl, trivial⟩, ?_⟩
      show (if cfg.isNullBlock other then 0 else cfg.unit) = 0
      rw [null]
      rfl
    · exact differing_argsRefined unlooked
    · exact compares
  · intro covered src tgt c same_skips same_alive null_block refined bid compares
    cases null : cfg.isNullBlock bid with
    | true =>
      obtain ⟨block, empty⟩ := null_block bid null
      refine ⟨block, ?_⟩
      intro offset in_bounds
      -- nothing is in bounds of the null block
      unfold InBounds at in_bounds
      rw [empty] at in_bounds
      have positive : 0 < (offset.toNat + 1) * cfg.unit :=
        Nat.mul_pos (Nat.succ_pos _) cfg.unit_positive
      omega
    | false =>
      obtain ⟨in_alias, live⟩ := covered bid compares null
      have checked : args.checked cfg c.skips bid = true := by
        rw [same_skips, compares.checked_eq null]
        exact in_alias
      have compared : ∀ offset, c.blockRefined bid ω ∧
          (c.srcAlive bid ω = true → c.valRefined cfg eval bid ω offset) := fun offset =>
        refined bid offset compares.requested bid compares.inSource checked rfl
      refine ⟨(compared 0).1, ?_⟩
      intro offset in_bounds stored
      exact valRefined_covered in_bounds stored ((compared offset).2 ((same_alive bid).trans live))

end

def firstBlock : PtrInput Bool where
  nonPoison _ := true
  bid _ := 1

def exactArgs (setPtrs setPtrs2 : List (PtrInput Bool)) : CallArgs Bool where
  setPtrs := setPtrs
  setPtrs2 := setPtrs2
  aliasing _ ptr bid := ptr.bid true = bid

def noSkips : Skips where
  fncall := true
  isGVUsed _ := true
  isByval _ := false

theorem firstBlock_compares
    {setPtrs setPtrs2 : List (PtrInput Bool)} (member : firstBlock ∈ setPtrs ++ setPtrs2) :
    (exactArgs setPtrs setPtrs2).Compares threeBlocks noSkips true 1 where
  nonlocal := by decide
  notConst := rfl
  notByval := rfl
  requested := ⟨firstBlock, member, rfl, rfl⟩

theorem argsRefined_agrees_source :
    (exactArgs [firstBlock] []).Compares threeBlocks noSkips true 1 ∧
      ∀ (src tgt : Memory Bool (BitVec 8) Bool 8) (c : Comparison src tgt),
        c.skips = noSkips →
        (∀ bid, c.srcAlive bid true = true) →
        (∀ bid, threeBlocks.isNullBlock bid = true →
          c.blockRefined bid true ∧ c.srcSize bid true = 0) →
        (∀ ptrBid offset, c.argsRefined threeBlocks (exactArgs [firstBlock] [])
          constantTerms.eval true ptrBid offset) →
        c.Agrees threeBlocks constantTerms.eval 1 true := by
  have compares : (exactArgs [firstBlock] []).Compares threeBlocks noSkips true 1 :=
    firstBlock_compares (List.mem_singleton_self _)
  have agrees := (@Comparison.argsRefined_agrees_iff Bool (BitVec 8) Bool 8 _ _ threeBlocks
    (exactArgs [firstBlock] []) noSkips (fun _ => true) constantTerms.eval true).2
  refine ⟨compares, ?_⟩
  intro src tgt c same_skips live null_block refined
  apply agrees _ src tgt c same_skips live null_block refined 1 compares
  intro bid requested _
  obtain ⟨ptr, member, _, points⟩ := requested.requested
  rw [List.mem_singleton.1 member] at points
  rw [← points]
  exact ⟨rfl, rfl⟩

/-- With the argument in the target only, the comparison passes and the block differs. -/
theorem target_argument_not_compared :
    (exactArgs [] [firstBlock]).Compares threeBlocks noSkips true 1 ∧
      (∀ ω ptrBid offset,
        (differing (Ω := Bool) (w := 8) (BitVec 8) threeBlocks noSkips (fun _ => true) 1 false
          true).argsRefined threeBlocks (exactArgs [] [firstBlock]) constantTerms.eval ω ptrBid
            offset) ∧
      ¬(differing (Ω := Bool) (w := 8) (BitVec 8) threeBlocks noSkips (fun _ => true) 1 false
        true).Agrees threeBlocks constantTerms.eval 1 true := by
  refine ⟨firstBlock_compares (List.mem_singleton_self _), ?_, ?_⟩
  · intro ω
    apply differing_argsRefined
    intro checked
    cases checked
  · exact differing_not_agrees (by decide) rfl

end AliveNext.IR.Stored
