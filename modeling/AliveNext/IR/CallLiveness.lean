import AliveNext.IR.StoredPointers

/-!
# What calls free

The liveness of the blocks that are not local is one word with a bit for each of them.
A call takes bits away: the last part of `Memory::setState` computes a mask over all
blocks at once.
-/

namespace AliveNext.IR.Stored

variable {n : Nat}

/-- The parts of `Memory::CallState` that are about liveness, in one model. -/
structure CallLiveness (n : Nat) where
  nonLocalLiveness : BitVec n
  freesBlock : BitVec n
  isAllOnes : Bool
  allOnes : isAllOnes = true → nonLocalLiveness = BitVec.allOnes n

/-- What `setState` asks of the access attributes of the call. -/
structure CallAccess where
  cannotWrite : Bool
  other : Bool
  inaccessible : Bool

def CallAccess.mayFree (access : CallAccess) : Bool := access.other || access.inaccessible

namespace Config

variable (cfg : Config)

def isGlobalvar (numGlobalsSrc bid : Nat) (includeTgt : Bool) : Bool :=
  (cfg.hasNullBlock.toNat ≤ bid && bid < cfg.hasNullBlock.toNat + numGlobalsSrc) ||
    (includeTgt && cfg.numNonlocalsSrc ≤ bid && bid < cfg.numNonlocals)

def alwaysAlive (numGlobalsSrc bid : Nat) : Bool :=
  cfg.isGlobalvar numGlobalsSrc bid true || cfg.isFncallMem bid

/-- `Memory::isBlockAlive` of a block that is not local. -/
def isBlockAlive (numGlobalsSrc : Nat) (liveness : BitVec n) (bid : Nat) : Bool :=
  cfg.alwaysAlive numGlobalsSrc bid ||
    (liveness.getLsbD bid &&
      (if cfg.hasNullBlock && !cfg.nullIsDereferenceable then bid ≠ 0 else true))

def frees (heap : Nat → Bool) (access : CallAccess) (st : CallLiveness n) (bid : Nat) : Bool :=
  heap bid && access.mayFree && !cfg.isFncallMem bid && st.freesBlock.getLsbD bid

def keptMask (heap : Nat → Bool) (access : CallAccess) (st : CallLiveness n) : BitVec n :=
  let one : BitVec n := 1#n
  let start := (cfg.alwaysNowrite 0 false false).toNat
  let mask := if cfg.alwaysNowrite 0 false false then one else 0#n
  (List.range' start (cfg.numNonlocals - start)).foldl
    (fun mask bid => mask ||| if cfg.frees heap access st bid then 0#n else one <<< bid) mask

/-- The liveness after `Memory::setState`. -/
def setLiveness (heap : Nat → Bool) (access : CallAccess) (st : CallLiveness n)
    (liveness : BitVec n) : BitVec n :=
  if access.cannotWrite then liveness
  else if st.isAllOnes then liveness
  else liveness &&& (st.nonLocalLiveness ||| cfg.keptMask heap access st)

variable {cfg} {heap : Nat → Bool} {access : CallAccess} {st : CallLiveness n}
  {liveness : BitVec n} {bid : Nat}

theorem getLsbD_foldl_mask
    (kept : Nat → Bool) (bids : List Nat) (mask : BitVec n) (inside : bid < n) :
    (bids.foldl (fun mask i => mask ||| if kept i then 0#n else 1#n <<< i) mask).getLsbD bid =
      (mask.getLsbD bid || decide (bid ∈ bids) && !kept bid) := by
  induction bids generalizing mask with
  | nil => simp
  | cons i rest ih =>
    have shifted : (1#n <<< i).getLsbD bid = decide (bid = i) := by
      rw [BitVec.getLsbD_shiftLeft, BitVec.getLsbD_one]
      by_cases same : bid = i
      · subst same
        simp [inside]
        omega
      · rw [decide_eq_false same]
        by_cases less : bid < i
        · simp [less]
        · have other : bid - i ≠ 0 := by omega
          simp [other]
    rw [List.foldl_cons, ih, BitVec.getLsbD_or]
    simp only [List.mem_cons]
    by_cases same : bid = i
    · subst same
      cases kept bid with
      | true => simp
      | false => simp [shifted]
    · cases kept i with
      | true => simp [same]
      | false => simp [same, shifted]

theorem getLsbD_keptMask (width : n = cfg.numNonlocals) (inside : bid < n) :
    (cfg.keptMask heap access st).getLsbD bid =
      (decide (bid = 0 ∧ cfg.alwaysNowrite 0 false false = true) ||
        !cfg.frees heap access st bid) := by
  unfold keptMask
  dsimp only
  rw [getLsbD_foldl_mask _ _ _ inside]
  cases null : cfg.alwaysNowrite 0 false false with
  | true =>
    have member : bid ∈ List.range' 1 (cfg.numNonlocals - 1) ↔ bid ≠ 0 := by
      rw [List.mem_range'_1]
      omega
    by_cases first : bid = 0
    · subst first
      simp [inside]
    · simp [first, member]
  | false =>
    have member : bid ∈ List.range' 0 cfg.numNonlocals := by
      rw [List.mem_range'_1]
      omega
    simp [member]

theorem getLsbD_setLiveness (width : n = cfg.numNonlocals) (inside : bid < n) :
    (cfg.setLiveness heap access st liveness).getLsbD bid =
      (liveness.getLsbD bid && (access.cannotWrite || st.nonLocalLiveness.getLsbD bid ||
        decide (bid = 0 ∧ cfg.alwaysNowrite 0 false false = true) ||
          !cfg.frees heap access st bid)) := by
  unfold setLiveness
  split
  · next readonly => simp [readonly]
  · next writes =>
    split
    · next known =>
      rw [st.allOnes known, BitVec.getLsbD_allOnes]
      simp [inside]
    · rw [BitVec.getLsbD_and, BitVec.getLsbD_or, getLsbD_keptMask width inside]
      simp [writes, Bool.or_assoc]

/-- After a call a dead block is dead. A block that dies is on the heap, is not reserved
for the effects of calls, and the call may access other or inaccessible memory and frees
it. Whether a block lives depends on its own bits only. -/
theorem calls_never_resurrect
    (cfg : Config) (numGlobalsSrc bid : Nat) (inside : bid < cfg.numNonlocals)
    (heap : Nat → Bool) (access : CallAccess) (st : CallLiveness cfg.numNonlocals)
    (liveness : BitVec cfg.numNonlocals) :
    let alive := cfg.isBlockAlive numGlobalsSrc liveness bid
    let alive' := cfg.isBlockAlive numGlobalsSrc (cfg.setLiveness heap access st liveness) bid
    (alive = false → alive' = false) ∧
      (alive = true → alive' = false → heap bid = true ∧ cfg.isFncallMem bid = false ∧
        access.mayFree = true ∧ st.freesBlock.getLsbD bid = true) ∧
      ∀ (heap₂ : Nat → Bool) (st₂ : CallLiveness cfg.numNonlocals)
        (liveness₂ : BitVec cfg.numNonlocals), heap₂ bid = heap bid →
        st₂.nonLocalLiveness.getLsbD bid = st.nonLocalLiveness.getLsbD bid →
        st₂.freesBlock.getLsbD bid = st.freesBlock.getLsbD bid →
        liveness₂.getLsbD bid = liveness.getLsbD bid →
        cfg.isBlockAlive numGlobalsSrc (cfg.setLiveness heap₂ access st₂ liveness₂) bid =
          alive' := by
  dsimp only
  unfold isBlockAlive
  refine ⟨?_, ?_, ?_⟩
  · intro dead
    rw [getLsbD_setLiveness rfl inside]
    rw [Bool.or_eq_false_iff, Bool.and_eq_false_iff] at dead ⊢
    refine ⟨dead.1, ?_⟩
    rcases dead.2 with bit | null
    · left
      rw [bit, Bool.false_and]
    · exact .inr null
  · intro lives dies
    rw [getLsbD_setLiveness rfl inside] at dies
    rw [Bool.or_eq_false_iff, Bool.and_eq_false_iff] at dies
    rw [dies.1, Bool.false_or, Bool.and_eq_true] at lives
    have taken := dies.2.resolve_right (by rw [lives.2]; exact Bool.noConfusion)
    rw [lives.1, Bool.true_and, Bool.or_eq_false_iff, Bool.not_eq_false'] at taken
    have freed : cfg.frees heap access st bid = true := taken.2
    unfold frees at freed
    simp only [Bool.and_eq_true, Bool.not_eq_true'] at freed
    exact ⟨freed.1.1.1, freed.1.2, freed.1.1.2, freed.2⟩
  · intro heap₂ st₂ liveness₂ same_heap same_live same_frees same_bit
    have same : cfg.frees heap₂ access st₂ bid = cfg.frees heap access st bid := by
      unfold frees
      rw [same_heap, same_frees]
    rw [getLsbD_setLiveness rfl inside, getLsbD_setLiveness rfl inside, same_bit, same_live, same]

def twoBlocks : Config where
  unit := 1
  unit_positive := Nat.one_pos
  numNonlocals := 4
  numNonlocalsSrc := 4
  numConstsSrc := 0
  numInaccessiblememonlyFns := 0
  hasWriteFncall := true
  hasNullBlock := true
  nullIsDereferenceable := false

def freesSecond : CallLiveness 4 := ⟨0, 0b1100, false, fun known => by cases known⟩

theorem calls_never_resurrect_freesSecond :
    2 < 4 ∧ twoBlocks.setLiveness (fun bid => bid = 2) ⟨false, true, false⟩ freesSecond 0b1111 =
      0b1011#4 ∧ twoBlocks.isFncallMem 2 = false ∧ freesSecond.freesBlock.getLsbD 2 = true :=
  have freed := (calls_never_resurrect twoBlocks 0 2 (by decide) (fun bid => bid = 2)
    ⟨false, true, false⟩ freesSecond 0b1111).2.1 (by decide) (by decide)
  ⟨by decide, by decide, freed.2.1, freed.2.2.2⟩

end Config

end AliveNext.IR.Stored
