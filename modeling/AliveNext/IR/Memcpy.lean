import AliveNext.IR.BlockAccess

/-!
# Copying bytes

`Memory::memcpy`, which `memmove` is too. Up to four bytes are loaded one by one and stored;
otherwise the destination becomes a lambda that loads the source at the same distance.
-/

namespace AliveNext.IR.Stored

variable {Ω T V Byte : Type} {w : Nat} {cfg : Config}

/-- The blocks that `computeAliasing` looks at in each of the accesses. -/
structure CopyBlocks where
  load : List BlockId
  store : List BlockId
  rawLoad : List BlockId
  storeLambda : List BlockId
  store_nodup : store.Nodup
  storeLambda_nodup : storeLambda.Nodup

section

variable (ctx : Context Ω T V Byte w cfg)

/-- The branch of `Memory::memcpy` for a few bytes. -/
def Memory.memcpyBytes [DecidableEq T] [DecidableEq V] (m : Memory Ω T Byte w)
    (dst src : Ptr Ω T cfg.unit) (blocks : CopyBlocks) (n : Nat) : Memory Ω T Byte w :=
  let byte i := m.load ctx src (src.offset ctx.terms) blocks.load n i
  m.storeAt ctx dst blocks.store
    ((List.range (n / cfg.unit)).map fun i => (i * cfg.unit, ctx.quote i (byte i)))

/-- The branch of `Memory::memcpy` that stores a lambda. -/
def Memory.memcpyLambda (m : Memory Ω T Byte w) (dst src : Ptr Ω T cfg.unit)
    (blocks : CopyBlocks) (bytes : Length ctx) : Memory Ω T Byte w :=
  -- `src + (offset - dst.getShortOffset())`
  let ptrSrc offset ω := BitVec.ofNat w
    ((src.byteOffset ctx.terms ω + (offset - dst.offset ctx.terms ω).toNat) / cfg.unit)
  let byte ω offset := m.load ctx src (ptrSrc offset) blocks.rawLoad cfg.unit 0 ω
  m.storeLambdaAt ctx dst blocks.storeLambda bytes [] byte

/-- `Memory::memcpy`; `same` says whether the pointers are the same term. -/
def Memory.memcpy [DecidableEq T] [DecidableEq V] (m : Memory Ω T Byte w)
    (dst src : Ptr Ω T cfg.unit) (blocks : CopyBlocks) (bytes : Length ctx) (same : Bool) :
    Memory Ω T Byte w :=
  if same then m
  else match bytes.known with
    | some n =>
      if n / cfg.unit ≤ 4 then m.memcpyBytes ctx dst src blocks n
      else m.memcpyLambda ctx dst src blocks bytes
    | none => m.memcpyLambda ctx dst src blocks bytes

/-- What a copy of bytes should do. -/
structure Copied (ω : Ω) (old new : Memory Ω T Byte w) (dst src : Ptr Ω T cfg.unit)
    (n : Nat) : Prop where
  copied : ∀ k < n, new.val (dst.block ω) ω (BitVec.ofNat w (dst.byteOffset ctx.terms ω + k)) =
    old.val (src.block ω) ω (BitVec.ofNat w (src.byteOffset ctx.terms ω + k))
  kept : ∀ b o, o < ctx.size b ω →
    ¬(b = dst.block ω ∧ dst.byteOffset ctx.terms ω ≤ o ∧ o < dst.byteOffset ctx.terms ω + n) →
    new.val b ω (BitVec.ofNat w o) = old.val b ω (BitVec.ofNat w o)

/-- The pointers are dereferenceable, and the blocks that they denote are looked at. -/
structure CopyDefined (ω : Ω) (dst src : Ptr Ω T cfg.unit) (blocks : CopyBlocks) (n : Nat) :
    Prop where
  load : src.block ω ∈ blocks.load
  store : dst.block ω ∈ blocks.store
  rawLoad : src.block ω ∈ blocks.rawLoad
  storeLambda : dst.block ω ∈ blocks.storeLambda
  dst_bounds : dst.byteOffset ctx.terms ω + n ≤ ctx.size (dst.block ω) ω
  src_bounds : src.byteOffset ctx.terms ω + n ≤ ctx.size (src.block ω) ω

end

section

variable {ctx : Context Ω T V Byte w cfg} {ω : Ω} {m : Memory Ω T Byte w}
  {dst src : Ptr Ω T cfg.unit} {blocks : CopyBlocks} {bytes : Length ctx}

section

variable (single : cfg.unit = 1)

include single

theorem mul_of_single (n : Nat) : n * cfg.unit = n := by
  rw [single, Nat.mul_one]

theorem div_of_single (n : Nat) : n / cfg.unit = n := by
  rw [single, Nat.div_one]

theorem Ptr.byteOffset_of_single (ptr : Ptr Ω T cfg.unit) (ω : Ω) :
    ptr.byteOffset ctx.terms ω = (ptr.offset ctx.terms ω).toNat := by
  have low : (ptr.low ω).val < 1 := Nat.lt_of_lt_of_eq (ptr.low ω).isLt single
  unfold Ptr.byteOffset
  rw [Nat.lt_one_iff.1 low, mul_of_single single, Nat.add_zero]

theorem Ptr.offset_add (ptr : Ptr Ω T cfg.unit) (ω : Ω) (k : Nat) :
    BitVec.ofNat w (ptr.byteOffset ctx.terms ω + k) =
      ptr.offset ctx.terms ω + BitVec.ofNat w k := by
  rw [Ptr.byteOffset_of_single single, BitVec.ofNat_add, BitVec.ofNat_toNat, BitVec.setWidth_eq]

theorem Written.copied {new : Memory Ω T Byte w} {n : Nat} {val : Nat → Byte}
    (bounds : 0 < n → dst.byteOffset ctx.terms ω + n ≤ ctx.size (dst.block ω) ω)
    (written : Written ctx ω m new (dst.block ω) (dst.offset ctx.terms ω) n val)
    (loaded : ∀ k < n, val k =
      m.val (src.block ω) ω (BitVec.ofNat w (src.byteOffset ctx.terms ω + k))) :
    Copied ctx ω m new dst src n where
  copied k below := by
    rw [Ptr.offset_add single, written.given k below, loaded k below]
  kept b o in_block outside := by
    have addressed := ctx.addressed b ω
    rw [single, Nat.mul_one] at addressed
    have number : (BitVec.ofNat w o).toNat = o := by
      rw [BitVec.toNat_ofNat, Nat.mod_eq_of_lt (by omega)]
    refine written.kept b (BitVec.ofNat w o) ?_ ?_
    · rw [number, mul_of_single single]
      exact in_block
    · rintro rfl j below place
      have room := bounds (Nat.zero_lt_of_lt below)
      rw [← Ptr.offset_add single, ← BitVec.toNat_inj, number, BitVec.toNat_ofNat,
        Nat.mod_eq_of_lt (by omega)] at place
      exact outside ⟨rfl, by omega, by omega⟩

end

theorem Copied.unique
    {first second : Memory Ω T Byte w} {n : Nat} (one : Copied ctx ω m first dst src n)
    (two : Copied ctx ω m second dst src n) {b : BlockId} {o : Nat} (in_block : o < ctx.size b ω) :
    first.val b ω (BitVec.ofNat w o) = second.val b ω (BitVec.ofNat w o) := by
  by_cases inside : b = dst.block ω ∧ dst.byteOffset ctx.terms ω ≤ o ∧
      o < dst.byteOffset ctx.terms ω + n
  · obtain ⟨rfl, above, below⟩ := inside
    obtain ⟨k, rfl⟩ := Nat.exists_eq_add_of_le above
    rw [one.copied k (by omega), two.copied k (by omega)]
  · rw [one.kept b o in_block inside, two.kept b o in_block inside]

section

variable (single : cfg.unit = 1)
  (defined : 0 < bytes.value ω → CopyDefined ctx ω dst src blocks (bytes.value ω))

include single defined

theorem memcpyBytes_copied [DecidableEq T] [DecidableEq V] :
    Copied ctx ω m (m.memcpyBytes ctx dst src blocks (bytes.value ω)) dst src (bytes.value ω) := by
  unfold Memory.memcpyBytes
  rw [div_of_single single]
  refine Written.copied single (fun positive => (defined positive).dst_bounds)
    (Memory.storeAt_written blocks.store_nodup fun positive => ⟨(defined positive).store, ?_⟩) ?_
  · rw [mul_of_single single, ← Ptr.byteOffset_of_single single]
    exact (defined positive).dst_bounds
  · intro k below
    have call := defined (Nat.zero_lt_of_lt below)
    have small := ctx.size_small (src.block ω) ω
    have bounds := call.src_bounds
    dsimp only
    rw [ctx.byte_quote, Memory.load_eq call.load ?_ below, Ptr.offset_add single]
    rw [← Ptr.byteOffset_of_single single]
    exact Context.constSize_le bounds (by omega)

theorem memcpyLambda_copied :
    Copied ctx ω m (m.memcpyLambda ctx dst src blocks bytes) dst src (bytes.value ω) := by
  unfold Memory.memcpyLambda
  refine Written.copied single (fun positive => (defined positive).dst_bounds)
    (Memory.storeLambdaAt_written blocks.storeLambda_nodup (mul_of_single single _).symm
      fun positive => ⟨(defined positive).storeLambda, ?_⟩) ?_
  · rw [mul_of_single single]
    exact (defined positive).dst_bounds
  · intro k below
    have call := defined (Nat.zero_lt_of_lt below)
    have dst_addressed := ctx.addressed (dst.block ω) ω
    have small := ctx.size_small (src.block ω) ω
    have dst_bounds := call.dst_bounds
    have src_bounds := call.src_bounds
    rw [mul_of_single single] at dst_addressed
    -- the byte is at the same distance from the source
    have distance : (dst.offset ctx.terms ω + BitVec.ofNat w k - dst.offset ctx.terms ω).toNat =
        k := by
      rw [add_sub_cancel_left, BitVec.toNat_ofNat, Nat.mod_eq_of_lt (by omega)]
    have place := Nat.mod_le (src.byteOffset ctx.terms ω + k) (2 ^ w)
    dsimp only [lambdaByte]
    rw [Memory.load_eq call.rawLoad ?_ cfg.unit_positive, distance, div_of_single single,
      BitVec.add_zero]
    rw [distance, div_of_single single, BitVec.toNat_ofNat]
    refine Context.constSize_le (ω := ω) ?_ ?_
    · omega
    · omega

end

/-- `memcpy` and `memmove` of bytes copy the bytes that they should, whichever way is taken, and
the two ways agree. -/
theorem memcpy_copies
    [DecidableEq T] [DecidableEq V] {same : Bool} (single : cfg.unit = 1)
    (same_sound : same = true → ∀ ω, dst.block ω = src.block ω ∧
      dst.byteOffset ctx.terms ω = src.byteOffset ctx.terms ω)
    (defined : 0 < bytes.value ω → CopyDefined ctx ω dst src blocks (bytes.value ω)) :
    Copied ctx ω m (m.memcpy ctx dst src blocks bytes same) dst src (bytes.value ω) ∧
      ∀ b o, o < ctx.size b ω →
        (m.memcpyBytes ctx dst src blocks (bytes.value ω)).val b ω (BitVec.ofNat w o) =
          (m.memcpyLambda ctx dst src blocks bytes).val b ω (BitVec.ofNat w o) := by
  have few := memcpyBytes_copied (m := m) single defined
  have many := memcpyLambda_copied (m := m) single defined
  constructor
  · unfold Memory.memcpy
    split
    · next itself =>
      obtain ⟨block, offset⟩ := same_sound itself ω
      refine ⟨fun k _ => ?_, fun _ _ _ _ => rfl⟩
      rw [block, offset]
    · split
      · next n known =>
        split
        · rw [← bytes.known_sound n known ω]
          exact few
        · exact many
      · exact many
  · intro b o in_block
    exact few.unique many in_block

end

def sixteenBytes : Context Unit (BitVec 8) (Unit → Bool) Bool 8 threeBlocks :=
  plainContext threeBlocks (fun _ => 16) (fun _ => false) false false (fun _ => by decide)
    fun _ => by decide

def secondBlock : CopyBlocks where
  load := [⟨false, 1⟩]
  store := [⟨false, 1⟩]
  rawLoad := [⟨false, 1⟩]
  storeLambda := [⟨false, 1⟩]
  store_nodup := by decide
  storeLambda_nodup := by decide

def oneAtSeven : Memory Unit (BitVec 8) Bool 8 where
  localBlockVal _ _ offset := offset = 7
  nonLocalBlockVal _ _ offset := offset = 7
  storedPointers _ := ⟨∅, false⟩

theorem memcpy_copies_overlap :
    (oneAtSeven.memcpy sixteenBytes (plainPtr 1 Nat.one_pos 1 4) (plainPtr 1 Nat.one_pos 1 6)
      secondBlock (plainLength sixteenBytes rfl 5 false) false).val ⟨false, 1⟩ () 5 = true := by
  have copies : Copied sixteenBytes () oneAtSeven (oneAtSeven.memcpy sixteenBytes
      (plainPtr 1 Nat.one_pos 1 4) (plainPtr 1 Nat.one_pos 1 6) secondBlock
      (plainLength sixteenBytes rfl 5 false) false) (plainPtr 1 Nat.one_pos 1 4)
      (plainPtr 1 Nat.one_pos 1 6) 5 ∧ _ :=
    memcpy_copies rfl (fun same => absurd same (by decide)) fun _ => by constructor <;> decide
  exact copies.1.copied 1 (by decide)

end AliveNext.IR.Stored
