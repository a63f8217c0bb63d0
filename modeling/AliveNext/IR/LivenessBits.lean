import Mathlib

/-!
# The words of the liveness bits

There is a word for the local blocks and one for the others, with a bit for each block
(`load_bv` and `store_bv` of `ir/memory.cpp`). A store makes a mask of two shifts, and the
amounts of these are computed in the width of the word.
-/

namespace AliveNext.IR.LivenessBits

variable {n m k k' : Nat}

/-- `load_bv`, where `isAllOnes` says that the simplifier knows the word to be all ones. -/
def loadBv (isAllOnes : Bool) (var : BitVec n) (idx0 : BitVec k) : Bool :=
  if isAllOnes then true
  else
    let idx := idx0.setWidth n
    (var >>> idx).extractLsb' 0 1 == 1#1

/-- The word after a store, in `store_bv`. -/
def set (bid0 : BitVec k) (val : Bool) (var : BitVec n) : BitVec n :=
  let bid := bid0.setWidth n
  let one := 1#n <<< bid
  let full := BitVec.allOnes n
  let mask := (full <<< (bid + 1#n)) ||| (full >>> (BitVec.ofNat n n - bid))
  if val then var ||| one else var &&& mask

/-- `local` and `non_local`. -/
structure Words (n m : Nat) where
  locals : BitVec n
  nonLocals : BitVec m

structure Target (k : Nat) where
  shortBid : BitVec k
  isLocal : Bool

def storeBv (p : Target k) (val : Bool) (words : Words n m) (assumeLocal cond : Bool) : Words n m :=
  let isLocal := p.isLocal || assumeLocal
  { locals := if cond && isLocal then set p.shortBid val words.locals else words.locals
    nonLocals := if cond && !isLocal then set p.shortBid val words.nonLocals
      else words.nonLocals }

section

variable {bid : BitVec n}

theorem lt_two_pow_of_lt {b : Nat} (block : b < n) : b < 2 ^ n :=
  block.trans n.lt_two_pow_self

theorem toNat_setWidth
    {bid0 : BitVec k} (block : bid0.toNat < n) : (bid0.setWidth n).toNat = bid0.toNat := by
  rw [BitVec.toNat_setWidth, Nat.mod_eq_of_lt (lt_two_pow_of_lt block)]

theorem toNat_next (block : bid.toNat < n) : (bid + 1#n).toNat = bid.toNat + 1 := by
  have room : n < 2 ^ n := n.lt_two_pow_self
  rw [BitVec.toNat_add, BitVec.toNat_ofNat, Nat.add_mod_mod, Nat.mod_eq_of_lt (by omega)]

theorem toNat_above (block : bid.toNat < n) : (BitVec.ofNat n n - bid).toNat = n - bid.toNat := by
  have room : n < 2 ^ n := n.lt_two_pow_self
  have width : (BitVec.ofNat n n).toNat = n := by
    rw [BitVec.toNat_ofNat, Nat.mod_eq_of_lt room]
  rw [BitVec.toNat_sub_of_le (by rw [BitVec.le_def, width]; exact block.le), width]

end

variable {var : BitVec n} {idx : BitVec k'} {bid0 : BitVec k} {val known : Bool} {j : Nat}

theorem loadBv_eq (sound : known = true → var = BitVec.allOnes n)
    (block : idx.toNat < n) : loadBv known var idx = var.getLsbD idx.toNat := by
  unfold loadBv
  cases known with
  | true => simp [sound rfl, block]
  | false =>
    have bit : ∀ v : BitVec 1, (v == 1#1) = v.getLsbD 0 := by decide
    dsimp only
    rw [if_neg Bool.false_ne_true, bit, BitVec.getLsbD_extractLsb', BitVec.ushiftRight_eq',
      BitVec.getLsbD_ushiftRight, toNat_setWidth block]
    simp

theorem getLsbD_mask {bid : BitVec n} (block : bid.toNat < n) (place : j < n) :
    ((BitVec.allOnes n <<< (bid + 1#n)) |||
      (BitVec.allOnes n >>> (BitVec.ofNat n n - bid))).getLsbD j = decide (j ≠ bid.toNat) := by
  rw [BitVec.getLsbD_or, BitVec.shiftLeft_eq', BitVec.ushiftRight_eq', BitVec.getLsbD_shiftLeft,
    BitVec.getLsbD_ushiftRight, toNat_next block, toNat_above block, BitVec.getLsbD_allOnes,
    BitVec.getLsbD_allOnes]
  rcases lt_trichotomy j bid.toNat with below | rfl | above
  · have low : n - bid.toNat + j < n := by omega
    simp [low, below.ne]
  · have high : ¬n - bid.toNat + bid.toNat < n := by omega
    simp [high]
  · have outside : ¬j < bid.toNat + 1 := by omega
    have inside : j - (bid.toNat + 1) < n := by omega
    simp [place, outside, inside, above.ne']

theorem getLsbD_one
    {bid : BitVec n} (place : j < n) : (1#n <<< bid).getLsbD j = decide (j = bid.toNat) := by
  rw [BitVec.shiftLeft_eq', BitVec.getLsbD_shiftLeft, BitVec.getLsbD_one]
  rw [decide_eq_true place, Bool.true_and, decide_eq_true (Nat.zero_lt_of_lt place), Bool.true_and]
  rcases lt_trichotomy j bid.toNat with below | rfl | above
  · simp [below, below.ne]
  · simp
  · have later : j - bid.toNat ≠ 0 := Nat.sub_ne_zero_of_lt above
    simp [above.not_gt, later, above.ne']

theorem getLsbD_set (block : bid0.toNat < n) (place : j < n) :
    (set bid0 val var).getLsbD j = if j = bid0.toNat then val else var.getLsbD j := by
  have same := toNat_setWidth block
  have block' : (bid0.setWidth n).toNat < n := same.symm ▸ block
  unfold set
  cases val with
  | true =>
    dsimp only
    rw [if_pos rfl, BitVec.getLsbD_or, getLsbD_one place, same]
    split <;> simp [*]
  | false =>
    dsimp only
    rw [if_neg Bool.false_ne_true, BitVec.getLsbD_and, getLsbD_mask block' place, same]
    split <;> simp [*]

theorem loadBv_set {known' cond : Bool}
    (sound : known = true → (if cond then set bid0 val var else var) = BitVec.allOnes n)
    (sound' : known' = true → var = BitVec.allOnes n) (block : bid0.toNat < n)
    (place : idx.toNat < n) :
    loadBv known (if cond then set bid0 val var else var) idx =
      if cond && idx.toNat = bid0.toNat then val else loadBv known' var idx := by
  rw [loadBv_eq sound place, loadBv_eq sound' place]
  cases cond with
  | false => rfl
  | true =>
    rw [if_pos rfl, getLsbD_set block place]
    simp

/-- What the simplifier knows of the words. -/
structure Known where
  locals : Bool
  nonLocals : Bool

structure Known.Sound (known : Known) (words : Words n m) : Prop where
  locals : known.locals = true → words.locals = BitVec.allOnes n
  nonLocals : known.nonLocals = true → words.nonLocals = BitVec.allOnes m

/-- A load after a store through a pointer to a block. -/
theorem load_bv_store_bv
    {p : Target k} {words : Words n m} {assumeLocal cond : Bool} {before after : Known}
    (sound : before.Sound words) (sound' : after.Sound (storeBv p val words assumeLocal cond)) :
    ((p.isLocal || assumeLocal) = true → p.shortBid.toNat < n →
      (storeBv p val words assumeLocal cond).nonLocals = words.nonLocals ∧
      ∀ idx : BitVec k', idx.toNat < n →
        loadBv after.locals (storeBv p val words assumeLocal cond).locals idx =
          if cond && idx.toNat = p.shortBid.toNat then val
          else loadBv before.locals words.locals idx) ∧
    ((p.isLocal || assumeLocal) = false → p.shortBid.toNat < m →
      (storeBv p val words assumeLocal cond).locals = words.locals ∧
      ∀ idx : BitVec k', idx.toNat < m →
        loadBv after.nonLocals (storeBv p val words assumeLocal cond).nonLocals idx =
          if cond && idx.toNat = p.shortBid.toNat then val
          else loadBv before.nonLocals words.nonLocals idx) := by
  have known := sound'.locals
  have known' := sound'.nonLocals
  unfold storeBv at known known' ⊢
  dsimp only at known known' ⊢
  constructor
  · intro isLocal block
    rw [isLocal, Bool.and_true] at known
    rw [isLocal, Bool.and_true, Bool.not_true, Bool.and_false]
    exact ⟨rfl, fun idx place => loadBv_set known sound.locals block place⟩
  · intro isLocal block
    rw [isLocal, Bool.not_false, Bool.and_true] at known'
    rw [isLocal, Bool.and_false, Bool.not_false, Bool.and_true]
    exact ⟨rfl, fun idx place => loadBv_set known' sound.nonLocals block place⟩

theorem load_bv_store_bv_single :
    loadBv false (storeBv (⟨0#1, true⟩ : Target 1) false (⟨1#1, 1#1⟩ : Words 1 1) false true).locals
      0#1 = false := by
  have sound : Known.Sound ⟨true, true⟩ (⟨1#1, 1#1⟩ : Words 1 1) := ⟨fun _ => rfl, fun _ => rfl⟩
  have sound' : Known.Sound ⟨false, true⟩
      (storeBv (⟨0#1, true⟩ : Target 1) false (⟨1#1, 1#1⟩ : Words 1 1) false true) :=
    ⟨fun known => absurd known Bool.false_ne_true, fun _ => rfl⟩
  exact ((load_bv_store_bv sound sound').1 rfl Nat.zero_lt_one).2 0#1 Nat.zero_lt_one

end AliveNext.IR.LivenessBits
