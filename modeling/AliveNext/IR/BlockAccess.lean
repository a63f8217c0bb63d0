import AliveNext.IR.BlockStore

/-!
# Accesses through a pointer

`Memory::access` goes over the blocks that a pointer may denote and passes each on with the
condition that the pointer denotes it. `Memory::load`, `Memory::store` and
`Memory::storeLambda` are what it is used for.

A pointer is given by the meaning of its fields. The blocks that `computeAliasing` looks at
are a parameter; `mayalias` then drops those that are known to be too small.
-/

namespace AliveNext.IR.Stored

structure BlockId where
  isLocal : Bool
  bid : Nat
  deriving DecidableEq

/-- The fields of a logical pointer. The short offset leaves out the bits in `low`. -/
structure Ptr (Ω T : Type) (unit : Nat) where
  isLocal : Ω → Bool
  shortBid : Ω → Nat
  shortOffset : T
  low : Ω → Fin unit

variable {Ω T V Byte : Type} {w : Nat} {cfg : Config}

section

variable (terms : Terms Ω T V Byte w)

namespace Ptr

variable {unit : Nat}

def block (ptr : Ptr Ω T unit) (ω : Ω) : BlockId :=
  ⟨ptr.isLocal ω, ptr.shortBid ω⟩

/-- `getShortOffset`. -/
def offset (ptr : Ptr Ω T unit) (ω : Ω) : BitVec w :=
  terms.eval ptr.shortOffset ω

/-- `getOffset`. -/
def byteOffset (ptr : Ptr Ω T unit) (ω : Ω) : Nat :=
  (ptr.offset terms ω).toNat * unit + (ptr.low ω).val

theorem byteOffset_div (ptr : Ptr Ω T unit) (ω : Ω) :
    ptr.byteOffset terms ω / unit = (ptr.offset terms ω).toNat := by
  have low := (ptr.low ω).isLt
  unfold byteOffset
  rw [Nat.mul_comm, Nat.mul_add_div (by omega), Nat.div_eq_of_lt low, Nat.add_zero]

end Ptr

end

def Memory.val (m : Memory Ω T Byte w) (b : BlockId) : Content Ω Byte w :=
  if b.isLocal then m.localBlockVal b.bid else m.nonLocalBlockVal b.bid

/-! ## What the operations use besides the contents -/

/-- The terms and the sizes of the blocks. -/
structure Context (Ω T V Byte : Type) (w : Nat) (cfg : Config) where
  terms : Terms Ω T V Byte w
  quote : Nat → (Ω → Byte) → V
  byte_quote : ∀ (i : Nat) (f : Ω → Byte), terms.byte (quote i f) = f
  rawLoad : Content Ω Byte w → (Ω → BitVec w) → Nat → Ω → Byte
  rawLoad_eq : ∀ (c : Content Ω Byte w) (offset : Ω → BitVec w) (maxIdx : Nat) (ω : Ω),
    (offset ω).toNat ≤ maxIdx → rawLoad c offset maxIdx ω = c ω (offset ω)
  order : List (Cond Ω × (Ω → Byte)) → List (Cond Ω × (Ω → Byte))
  order_perm : ∀ (vals : List (Cond Ω × (Ω → Byte))), (order vals).Perm vals
  known : BlockId → (Ω → Bool) → Option Bool
  known_sound : ∀ (b : BlockId) (f : Ω → Bool) (v : Bool), known b f = some v → ∀ (ω : Ω), f ω = v
  poison : Byte
  sizeBits : Nat
  size : BlockId → Ω → Nat
  constSize : BlockId → Option Nat
  constSize_sound : ∀ (b : BlockId) (n : Nat), constSize b = some n → ∀ (ω : Ω), size b ω = n
  size_lt : ∀ (b : BlockId) (ω : Ω), size b ω < 2 ^ sizeBits
  size_small : ∀ (b : BlockId) (ω : Ω), size b ω < 2 ^ 64
  addressed : ∀ (b : BlockId) (ω : Ω), size b ω < 2 ^ w * cfg.unit

/-- The term `bytes`, and its sums with pointers. -/
structure Length (ctx : Context Ω T V Byte w cfg) where
  value : Ω → Nat
  known : Option Nat
  known_sound : ∀ (n : Nat), known = some n → ∀ (ω : Ω), value ω = n
  plus : Ptr Ω T cfg.unit → T
  eval_plus : ∀ (ptr : Ptr Ω T cfg.unit) (ω : Ω), ctx.terms.eval (plus ptr) ω =
    BitVec.ofNat w ((ptr.byteOffset ctx.terms ω + value ω) / cfg.unit)
  eqSize : BlockId → Bool
  eqSize_sound : ∀ (b : BlockId), eqSize b = true → ∀ (ω : Ω), ctx.size b ω = value ω

namespace Context

variable (ctx : Context Ω T V Byte w cfg)

/-- The comparison of the block's size with the number of bytes in `mayalias`. -/
def mayalias (bytes : Option Nat) (b : BlockId) : Bool :=
  match ctx.constSize b, bytes with
  | some size, some bytes => bytes % 2 ^ ctx.sizeBits ≤ size
  | _, _ => true

/-- The condition that `access` passes on. -/
def accessCond (ptr : Ptr Ω T cfg.unit) (aliasing : List BlockId) (b : BlockId) : Cond Ω :=
  let hasLocal := aliasing.countP fun b => b.isLocal
  let hasNonlocal := aliasing.countP fun b => !b.isLocal
  let hasBoth := 0 < hasLocal && 0 < hasNonlocal
  -- the long identifier has the local bit
  let sameBid ω := ptr.shortBid ω = b.bid && (!hasBoth || ptr.isLocal ω == b.isLocal)
  let cond :=
    if b.isLocal then if hasLocal = 1 then ptr.isLocal else sameBid
    else if hasNonlocal = 1 then fun ω => !ptr.isLocal ω else sameBid
  if hasLocal + hasNonlocal = 1 then Cond.constant Ω true
  else ⟨cond, ctx.known b cond, ctx.known_sound b cond⟩

/-- `Memory::access`: the blocks and the conditions that it passes on. -/
def access (ptr : Ptr Ω T cfg.unit) (bytes : Option Nat) (candidates : List BlockId) :
    List (BlockId × Cond Ω) :=
  let aliasing := candidates.filter (ctx.mayalias bytes)
  aliasing.map fun b => (b, ctx.accessCond ptr aliasing b)

def storeAccess (ptr : Ptr Ω T cfg.unit) (entry : BlockId × Cond Ω) : Access Ω T where
  isLocal := entry.1.isLocal
  bid := entry.1.bid
  cond := entry.2
  offset := ptr.shortOffset
  blockSize := ctx.constSize entry.1

end Context

def Length.lambdaAccess {ctx : Context Ω T V Byte w cfg} (bytes : Length ctx)
    (ptr : Ptr Ω T cfg.unit) (entry : BlockId × Cond Ω) : LambdaAccess Ω T where
  isLocal := entry.1.isLocal
  bid := entry.1.bid
  cond := entry.2
  wholeBlock := bytes.eqSize entry.1
  start := ptr.shortOffset
  stop := bytes.plus ptr

namespace DisjointExpr

/-- `DisjointExpr::add`. Two equal terms share an entry in the code, which is the same as two
entries. -/
def add (vals : List (Cond Ω × (Ω → Byte))) (entry : Cond Ω × (Ω → Byte)) :
    List (Cond Ω × (Ω → Byte)) :=
  if entry.1.isFalse then vals
  else if entry.1.isTrue then [entry]
  else vals ++ [entry]

def mk : Option (Ω → Byte) → List (Cond Ω × (Ω → Byte)) → Option (Ω → Byte)
  | ret, [] => ret
  | ret, (domain, val) :: vals =>
    if domain.isTrue then some val
    else match ret with
      | none => mk (some val) vals
      | some ret => mk (some fun ω => if domain.holds ω then val ω else ret ω) vals

end DisjointExpr

section

variable (ctx : Context Ω T V Byte w cfg)

/-- The byte with an index that `Memory::load` of a number of bytes returns, from left to
right. The offset is that of the pointer. -/
def Memory.load (m : Memory Ω T Byte w) (ptr : Ptr Ω T cfg.unit) (offset : Ω → BitVec w)
    (candidates : List BlockId) (bytes idx : Nat) : Ω → Byte :=
  let entries := (ctx.access ptr (some bytes) candidates).map fun (b, cond) =>
    let blkSize := (ctx.constSize b).getD (2 ^ 64 - 1)
    let blkOffset := if ctx.constSize b = some bytes then fun _ => 0 else offset
    let maxIdx := (BitVec.ofNat 64 blkSize - BitVec.ofNat 64 bytes + BitVec.ofNat 64 idx).toNat
    (cond, ctx.rawLoad (m.val b) (fun ω => blkOffset ω + BitVec.ofNat w idx) maxIdx)
  (DisjointExpr.mk none (ctx.order (entries.foldl DisjointExpr.add []))).getD fun _ => ctx.poison

/-- `Memory::store` through a pointer. -/
def Memory.storeAt [DecidableEq T] [DecidableEq V] (m : Memory Ω T Byte w)
    (ptr : Ptr Ω T cfg.unit) (candidates : List BlockId) (data : List (Nat × V)) :
    Memory Ω T Byte w :=
  if data = [] then m
  else m.store ctx.terms cfg
    ((ctx.access ptr (some (data.length * cfg.unit)) candidates).map (ctx.storeAccess ptr)) data

/-- `expr::urem` by a constant. -/
def urem (offset : BitVec w) (mod : BitVec w) : BitVec w :=
  if mod.toNat ≤ 1 then 0 else offset % mod

/-- The value that `Memory::storeLambda` selects among several by the offset. -/
def lambdaByte (mod : BitVec w) :
    List (Nat × Content Ω Byte w) → Content Ω Byte w → Content Ω Byte w
  | [], last => last
  | (idx, val) :: data, last => fun ω offset =>
    if urem offset mod = BitVec.ofNat w idx then val ω offset
    else lambdaByte mod data last ω offset

/-- `Memory::storeLambda` through a pointer, which takes the last of the values by default. -/
def Memory.storeLambdaAt (m : Memory Ω T Byte w) (ptr : Ptr Ω T cfg.unit)
    (candidates : List BlockId) (bytes : Length ctx) (data : List (Nat × Content Ω Byte w))
    (last : Content Ω Byte w) : Memory Ω T Byte w :=
  m.storeLambda ctx.terms ((ctx.access ptr bytes.known candidates).map (bytes.lambdaAccess ptr))
    (lambdaByte (BitVec.ofNat w (data.length + 1)) data last)

end

/-! ## Which blocks are accessed -/

theorem foldl_keyed
    {σ κ α β : Type} [DecidableEq κ] (val : σ → κ → β) (key : α → κ) (f : σ → α → σ) (g : α → β → β)
    (step : ∀ s a k, val (f s a) k = if k = key a then g a (val s k) else val s k)
    {items : List α} (nodup : (items.map key).Nodup) (s : σ) :
    (∀ a ∈ items, val (items.foldl f s) (key a) = g a (val s (key a))) ∧
      ∀ k, k ∉ items.map key → val (items.foldl f s) k = val s k := by
  induction items generalizing s with
  | nil => exact ⟨fun a member => (List.not_mem_nil member).elim, fun k _ => rfl⟩
  | cons first rest ih =>
    rw [List.map_cons, List.nodup_cons] at nodup
    have ⟨changed, other⟩ := ih nodup.2 (f s first)
    constructor
    · intro a member
      rw [List.foldl_cons]
      rcases List.mem_cons.1 member with rfl | later
      · rw [other _ nodup.1, step, if_pos rfl]
      · have apart : key a ≠ key first := by
          intro same
          exact nodup.1 (same ▸ List.mem_map_of_mem later)
        rw [changed a later, step, if_neg apart]
    · intro k outside
      rw [List.map_cons, List.mem_cons, not_or] at outside
      rw [List.foldl_cons, other k outside.2, step, if_neg outside.1]

theorem eq_of_countP {α : Type} {p : α → Bool} {items : List α} {a b : α}
    (one : items.countP p = 1) (first : a ∈ items) (second : b ∈ items) (p_first : p a = true)
    (p_second : p b = true) : a = b := by
  rw [List.countP_eq_length_filter, List.length_eq_one_iff] at one
  obtain ⟨x, single⟩ := one
  have only : ∀ y ∈ items, p y = true → y = x := by
    intro y member holds
    have kept : y ∈ items.filter p := List.mem_filter.2 ⟨member, holds⟩
    rw [single] at kept
    exact List.mem_singleton.1 kept
  rw [only a first p_first, only b second p_second]

section Facts

variable {ctx : Context Ω T V Byte w cfg} {ω : Ω} {ptr : Ptr Ω T cfg.unit}
  {candidates aliasing : List BlockId} {b : BlockId}

/-- If the block that the pointer denotes is among those that it may denote, the conditions
say which one it is. -/
theorem Context.accessCond_holds (resolved : ptr.block ω ∈ aliasing) (member : b ∈ aliasing) :
    (ctx.accessCond ptr aliasing b).holds ω = true ↔ ptr.block ω = b := by
  have counts : aliasing.countP (fun b => b.isLocal) + aliasing.countP (fun b => !b.isLocal) =
      aliasing.length := by
    simpa using (List.length_eq_countP_add_countP (fun b : BlockId => b.isLocal)
      (l := aliasing)).symm
  have split : ptr.block ω = b ↔ ptr.isLocal ω = b.isLocal ∧ ptr.shortBid ω = b.bid := by
    unfold Ptr.block
    rw [BlockId.mk.injEq]
  -- if the blocks are all of one kind, the short identifier is enough
  have same_bid : (decide (ptr.shortBid ω = b.bid) &&
      (!(decide (0 < aliasing.countP fun b => b.isLocal) &&
        decide (0 < aliasing.countP fun b => !b.isLocal)) ||
        ptr.isLocal ω == b.isLocal)) = true ↔ ptr.block ω = b := by
    rw [split, Bool.and_eq_true, Bool.or_eq_true, decide_eq_true_eq, beq_iff_eq, and_comm]
    refine and_congr_left fun _ => or_iff_right_of_imp fun one_kind => ?_
    rw [Bool.not_eq_true', Bool.and_eq_false_iff, decide_eq_false_iff_not,
      decide_eq_false_iff_not, List.countP_pos_iff, List.countP_pos_iff] at one_kind
    rcases one_kind with no_local | no_nonlocal
    · have outside : ∀ x ∈ aliasing, x.isLocal = false := fun x inside =>
        Bool.eq_false_iff.2 fun is_local => no_local ⟨x, inside, is_local⟩
      exact (outside _ resolved).trans (outside _ member).symm
    · have inside : ∀ x ∈ aliasing, x.isLocal = true := fun x inside =>
        Bool.not_eq_false _ ▸ fun is_nonlocal => no_nonlocal ⟨x, inside, by rw [is_nonlocal]; rfl⟩
      exact (inside _ resolved).trans (inside _ member).symm
  unfold Context.accessCond
  dsimp only
  by_cases single : aliasing.countP (fun b => b.isLocal) + aliasing.countP (fun b => !b.isLocal) = 1
  · rw [if_pos single]
    rw [counts, List.length_eq_one_iff] at single
    obtain ⟨x, rfl⟩ := single
    rw [List.mem_singleton.1 resolved, List.mem_singleton.1 member]
    exact ⟨fun _ => rfl, fun _ => rfl⟩
  · rw [if_neg single]
    dsimp only
    cases kind : b.isLocal with
    | true =>
      rw [if_pos rfl]
      split
      · next one =>
        constructor
        · intro is_local
          exact eq_of_countP one resolved member is_local kind
        · intro same
          exact (split.1 same).1.trans kind
      · rw [kind] at same_bid
        exact same_bid
    | false =>
      rw [if_neg Bool.false_ne_true]
      split
      · next one =>
        constructor
        · intro is_nonlocal
          exact eq_of_countP one resolved member is_nonlocal (by rw [kind]; rfl)
        · intro same
          change (!ptr.isLocal ω) = true
          rw [(split.1 same).1, kind]
          rfl
      · rw [kind] at same_bid
        exact same_bid

variable {bytes idx : Nat} {entry : BlockId × Cond Ω} {m : Memory Ω T Byte w}
  {data : List (Nat × V)} {access : Access Ω T}

theorem Context.mayalias_of_le (enough : ∀ size, ctx.constSize b = some size → bytes ≤ size) :
    ctx.mayalias (some bytes) b = true := by
  unfold Context.mayalias
  cases const : ctx.constSize b with
  | none => rfl
  | some size => exact decide_eq_true (Nat.le_trans (Nat.mod_le _ _) (enough size const))

theorem Context.constSize_le {default : Nat} (enough : bytes ≤ ctx.size b ω)
    (small : bytes ≤ default) : bytes ≤ (ctx.constSize b).getD default := by
  cases const : ctx.constSize b with
  | none => exact small
  | some size => exact enough.trans (ctx.constSize_sound b size const ω).le

theorem Context.constSize_lt (ω : Ω) : (ctx.constSize b).getD (2 ^ 64 - 1) < 2 ^ 64 := by
  cases const : ctx.constSize b with
  | none => decide
  | some size =>
    rw [Option.getD_some, ← ctx.constSize_sound b size const ω]
    exact ctx.size_small b ω

theorem Context.mem_access {bytes : Option Nat} : entry ∈ ctx.access ptr bytes candidates ↔
      entry.1 ∈ candidates.filter (ctx.mayalias bytes) ∧
        entry.2 = ctx.accessCond ptr (candidates.filter (ctx.mayalias bytes)) entry.1 := by
  unfold Context.access
  dsimp only
  rw [List.mem_map]
  constructor
  · rintro ⟨b, member, rfl⟩
    exact ⟨member, rfl⟩
  · rintro ⟨member, cond⟩
    exact ⟨entry.1, member, Prod.ext rfl cond.symm⟩

theorem Context.access_holds {bytes : Option Nat}
    (resolved : ptr.block ω ∈ candidates) (kept : ctx.mayalias bytes (ptr.block ω) = true)
    (member : entry ∈ ctx.access ptr bytes candidates) :
    entry.2.holds ω = true ↔ ptr.block ω = entry.1 := by
  obtain ⟨inside, cond⟩ := Context.mem_access.1 member
  rw [cond]
  exact Context.accessCond_holds (List.mem_filter.2 ⟨resolved, kept⟩) inside

namespace DisjointExpr

variable {entries vals : List (Cond Ω × (Ω → Byte))} {x : Byte}

structure Decided (ω : Ω) (vals : List (Cond Ω × (Ω → Byte))) (x : Byte) : Prop where
  same : ∀ e ∈ vals, e.1.holds ω = true → e.2 ω = x
  some_holds : ∃ e ∈ vals, e.1.holds ω = true

theorem Decided.perm (decided : Decided ω vals x) (perm : entries.Perm vals) :
    Decided ω entries x where
  same e member holds := decided.same e (perm.subset member) holds
  some_holds := by
    obtain ⟨e, member, holds⟩ := decided.some_holds
    exact ⟨e, perm.symm.subset member, holds⟩

theorem decided_foldl
    (decided : Decided ω (vals ++ entries) x) : Decided ω (entries.foldl add vals) x := by
  induction entries generalizing vals with
  | nil => rwa [List.append_nil] at decided
  | cons e entries ih =>
    refine ih ⟨?_, ?_⟩
    · intro d member holds
      refine decided.same d ?_ holds
      rcases List.mem_append.1 member with added | later
      · unfold add at added
        split_ifs at added
        · exact List.mem_append_left _ added
        · exact List.mem_append_right _ (List.mem_singleton.1 added ▸ List.mem_cons_self)
        · rcases List.mem_append.1 added with before | here
          · exact List.mem_append_left _ before
          · exact List.mem_append_right _ (List.mem_singleton.1 here ▸ List.mem_cons_self)
      · exact List.mem_append_right _ (List.mem_cons_of_mem _ later)
    · obtain ⟨d, member, holds⟩ := decided.some_holds
      unfold add
      split_ifs with is_false is_true
      · -- a domain that is known to be false does not hold
        refine ⟨d, ?_, holds⟩
        rcases List.mem_append.1 member with before | after
        · exact List.mem_append_left _ before
        · rcases List.mem_cons.1 after with rfl | later
          · rw [d.1.sound false (of_decide_eq_true is_false) ω] at holds
            cases holds
          · exact List.mem_append_right _ later
      · exact ⟨e, List.mem_append_left _ List.mem_cons_self,
          e.1.sound true (of_decide_eq_true is_true) ω⟩
      · refine ⟨d, ?_, holds⟩
        rwa [List.append_assoc, List.singleton_append]

theorem mk_decided {ret : Option (Ω → Byte)} (same : ∀ e ∈ vals, e.1.holds ω = true → e.2 ω = x)
    (covered : (∃ e ∈ vals, e.1.holds ω = true) ∨ ∃ v, ret = some v ∧ v ω = x) :
    ∃ v, mk ret vals = some v ∧ v ω = x := by
  induction vals generalizing ret with
  | nil => exact covered.resolve_left fun ⟨e, member, _⟩ => List.not_mem_nil member
  | cons e vals ih =>
    have later : ∀ d ∈ vals, d.1.holds ω = true → d.2 ω = x :=
      fun d member => same d (List.mem_cons_of_mem _ member)
    have here := same e List.mem_cons_self
    unfold mk
    split
    · next is_true => exact ⟨e.2, rfl, here (e.1.sound true (of_decide_eq_true is_true) ω)⟩
    · have rest : e.1.holds ω = true ∨ (∃ d ∈ vals, d.1.holds ω = true) ∨
          ∃ v, ret = some v ∧ v ω = x := by
        rcases covered with ⟨d, member, holds⟩ | value
        · rcases List.mem_cons.1 member with rfl | after
          · exact .inl holds
          · exact .inr (.inl ⟨d, after, holds⟩)
        · exact .inr (.inr value)
      cases ret with
      | none =>
        refine ih later ?_
        rcases rest with holds | some_later | ⟨v, none_eq, _⟩
        · exact .inr ⟨e.2, rfl, here holds⟩
        · exact .inl some_later
        · cases none_eq
      | some ret =>
        refine ih later ?_
        rcases rest with holds | some_later | ⟨v, some_eq, value⟩
        · exact .inr ⟨_, rfl, by rw [if_pos holds]; exact here holds⟩
        · exact .inl some_later
        · obtain rfl := Option.some.inj some_eq
          refine .inr ⟨_, rfl, ?_⟩
          split
          · next holds => exact here holds
          · exact value

end DisjointExpr

theorem maxIdx_eq {blkSize : Nat} (enough : bytes ≤ blkSize) (small : blkSize < 2 ^ 64)
    (below : idx < bytes) :
    (BitVec.ofNat 64 blkSize - BitVec.ofNat 64 bytes + BitVec.ofNat 64 idx).toNat =
      blkSize - bytes + idx := by
  have first : (BitVec.ofNat 64 blkSize - BitVec.ofNat 64 bytes).toNat = blkSize - bytes := by
    rw [BitVec.toNat_sub_of_le, BitVec.toNat_ofNat, BitVec.toNat_ofNat,
      Nat.mod_eq_of_lt small, Nat.mod_eq_of_lt (by omega)]
    rw [BitVec.le_def, BitVec.toNat_ofNat, BitVec.toNat_ofNat, Nat.mod_eq_of_lt small,
      Nat.mod_eq_of_lt (by omega)]
    exact enough
  rw [BitVec.toNat_add, first, BitVec.toNat_ofNat, Nat.mod_eq_of_lt (a := idx) (by omega),
    Nat.mod_eq_of_lt (by omega)]

theorem Memory.load_eq {offset : Ω → BitVec w} (resolved : ptr.block ω ∈ candidates)
    (inside : (offset ω).toNat + bytes ≤ (ctx.constSize (ptr.block ω)).getD (2 ^ 64 - 1))
    (below : idx < bytes) :
    m.load ctx ptr offset candidates bytes idx ω =
      m.val (ptr.block ω) ω (offset ω + BitVec.ofNat w idx) := by
  have kept : ctx.mayalias (some bytes) (ptr.block ω) = true := by
    refine Context.mayalias_of_le fun size const => ?_
    rw [const, Option.getD_some] at inside
    omega
  unfold Memory.load
  dsimp only
  generalize entries_eq : List.map _ (ctx.access ptr (some bytes) candidates) = entries
  -- the value of the entry for the block
  have decided : DisjointExpr.Decided ω entries
      (m.val (ptr.block ω) ω (offset ω + BitVec.ofNat w idx)) := by
    subst entries_eq
    constructor
    · intro e member holds
      obtain ⟨⟨b, cond⟩, accessed, rfl⟩ := List.mem_map.1 member
      obtain rfl : ptr.block ω = b := (Context.access_holds resolved kept accessed).1 holds
      have blk_offset : (if ctx.constSize (ptr.block ω) = some bytes then fun _ => 0
          else offset) ω = offset ω := by
        split
        · next single =>
          rw [single, Option.getD_some] at inside
          have zero : (offset ω).toNat = (0 : BitVec w).toNat := by
            rw [BitVec.ofNat_eq_ofNat, BitVec.toNat_zero]
            omega
          exact (BitVec.eq_of_toNat_eq zero).symm
        · rfl
      dsimp only
      rw [ctx.rawLoad_eq, blk_offset]
      rw [blk_offset, maxIdx_eq (by omega) (Context.constSize_lt ω) below,
        BitVec.toNat_add, BitVec.toNat_ofNat]
      refine Nat.le_trans (Nat.mod_le _ _) ?_
      have small := Nat.mod_le idx (2 ^ w)
      omega
    · obtain ⟨entry, accessed, same⟩ : ∃ entry ∈ ctx.access ptr (some bytes) candidates,
          ptr.block ω = entry.1 :=
        ⟨(ptr.block ω, ctx.accessCond ptr (candidates.filter (ctx.mayalias (some bytes)))
            (ptr.block ω)),
          Context.mem_access.2 ⟨List.mem_filter.2 ⟨resolved, kept⟩, rfl⟩, rfl⟩
      exact ⟨_, List.mem_map_of_mem accessed, (Context.access_holds resolved kept accessed).2 same⟩
  have added : DisjointExpr.Decided ω (ctx.order (entries.foldl DisjointExpr.add []))
      (m.val (ptr.block ω) ω (offset ω + BitVec.ofNat w idx)) :=
    (DisjointExpr.decided_foldl (by rwa [List.nil_append])).perm (ctx.order_perm _)
  obtain ⟨v, made, value⟩ : ∃ v, DisjointExpr.mk none
      (ctx.order (entries.foldl DisjointExpr.add [])) = some v ∧ v ω = _ :=
    DisjointExpr.mk_decided added.same (.inl added.some_holds)
  rw [made, Option.getD_some, value]

/-! ## Stores -/

structure Written (ctx : Context Ω T V Byte w cfg) (ω : Ω) (old new : Memory Ω T Byte w)
    (block : BlockId) (start : BitVec w) (count : Nat) (val : Nat → Byte) : Prop where
  given : ∀ j < count, new.val block ω (start + BitVec.ofNat w j) = val j
  kept : ∀ b offset, offset.toNat * cfg.unit < ctx.size b ω →
    (b = block → ∀ j < count, start + BitVec.ofNat w j ≠ offset) →
    new.val b ω offset = old.val b ω offset

theorem Memory.val_update {new : Memory Ω T Byte w} (target : BlockId) (content : Content Ω Byte w)
    (locals : new.localBlockVal = if target.isLocal then
      Function.update m.localBlockVal target.bid content else m.localBlockVal)
    (nonlocals : new.nonLocalBlockVal = if target.isLocal then m.nonLocalBlockVal
      else Function.update m.nonLocalBlockVal target.bid content) :
    new.val b = if b = target then content else m.val b := by
  obtain ⟨isLocal, bid⟩ := b
  obtain ⟨targetLocal, targetBid⟩ := target
  unfold Memory.val
  rw [locals, nonlocals]
  cases isLocal <;> cases targetLocal <;>
    simp only [if_true, if_false, Bool.false_eq_true, Function.update_apply, BlockId.mk.injEq,
      true_and, false_and, reduceCtorEq]

theorem storeBlock_val [DecidableEq T] [DecidableEq V] :
    (storeBlock ctx.terms cfg data m access).val b =
      if b = ⟨access.isLocal, access.bid⟩ then storedVal ctx.terms cfg access data (m.val b)
      else m.val b := by
  rw [Memory.val_update (m := m) ⟨access.isLocal, access.bid⟩
    (storedVal ctx.terms cfg access data (m.val ⟨access.isLocal, access.bid⟩))]
  · refine ite_congr rfl ?_ fun _ => rfl
    rintro rfl
    rfl
  · unfold storeBlock Memory.val
    cases access.isLocal <;> rfl
  · unfold storeBlock Memory.val
    cases access.isLocal <;> rfl

theorem storeLambdaBlock_val {val : Content Ω Byte w} {access : LambdaAccess Ω T} :
    (storeLambdaBlock ctx.terms val m access).val b =
      if b = ⟨access.isLocal, access.bid⟩ then lambdaVal ctx.terms access val (m.val b)
      else m.val b := by
  rw [Memory.val_update (m := m) ⟨access.isLocal, access.bid⟩
    (lambdaVal ctx.terms access val (m.val ⟨access.isLocal, access.bid⟩))]
  · refine ite_congr rfl ?_ fun _ => rfl
    rintro rfl
    rfl
  · unfold storeLambdaBlock Memory.val
    cases access.isLocal <;> rfl
  · unfold storeLambdaBlock Memory.val
    cases access.isLocal <;> rfl

theorem storedVal_right [DecidableEq V] {size : Nat}
    (old : Content Ω Byte w) (promised : BlockVal.Promised ctx.terms cfg access data size ω) :
    BlockVal.StoresBytes ctx.terms cfg (fun _ => True) false access data size ω (old ω)
      (storedVal ctx.terms cfg access data old ω) := by
  have right : BlockVal.StoresBytes ctx.terms cfg (fun _ => True) false access data size ω (old ω)
      ((BlockVal.store ctx.terms cfg ctx.poison false access data (.array old)).content ω) :=
    (BlockVal.store_right_iff false (.array old) (fun _ => True) trivial promised).2
      fun _ init => nomatch init
  rwa [BlockVal.content_store] at right

theorem storedVal_uncovered [DecidableEq V] {offset : BitVec w} (old : Content Ω Byte w)
    (partly : access.blockSize ≠ some (data.length * cfg.unit))
    (uncovered : ¬BlockVal.Covered ctx.terms cfg access data ω offset) :
    storedVal ctx.terms cfg access data old ω offset = old ω offset := by
  unfold storedVal
  cases data with
  | nil => rfl
  | cons first rest =>
    dsimp only
    rw [if_neg partly, mkBlockIf_eq]
    dsimp only
    split
    · exact storeBytes_other fun d member same => uncovered ⟨d, member, same⟩
    · rfl

theorem storedVal_other [DecidableEq V] (old : Content Ω Byte w)
    (other : access.cond.holds ω = false) : storedVal ctx.terms cfg access data old ω = old ω := by
  have kept : (BlockVal.store ctx.terms cfg ctx.poison false access data (.array old)).content ω =
      (BlockVal.array old).content ω := BlockVal.content_store_other other
  rwa [BlockVal.content_store] at kept

section

variable {m : Memory Ω T Byte w}

variable {bytes : Option Nat} {count : Nat} {offset : BitVec w}

theorem Context.access_nodup (nodup : candidates.Nodup) :
    ((ctx.access ptr bytes candidates).map Prod.fst).Nodup := by
  unfold Context.access
  rw [List.map_map]
  exact (List.map_id _).symm ▸ nodup.filter _

theorem Context.exists_access (resolved : ptr.block ω ∈ candidates)
    (kept : ctx.mayalias bytes (ptr.block ω) = true) :
    ∃ entry ∈ ctx.access ptr bytes candidates, entry.1 = ptr.block ω :=
  ⟨(ptr.block ω, ctx.accessCond ptr (candidates.filter (ctx.mayalias bytes)) (ptr.block ω)),
    Context.mem_access.2 ⟨List.mem_filter.2 ⟨resolved, kept⟩, rfl⟩, rfl⟩

theorem Context.access_other {entry : BlockId × Cond Ω} (resolved : ptr.block ω ∈ candidates)
    (kept : ctx.mayalias bytes (ptr.block ω) = true)
    (member : entry ∈ ctx.access ptr bytes candidates)
    (other : entry.1 ≠ ptr.block ω) : entry.2.holds ω = false :=
  Bool.eq_false_iff.2 fun holds => other ((Context.access_holds resolved kept member).1 holds).symm

theorem Memory.storeAt_written
    [DecidableEq T] [DecidableEq V] {v : Nat → V} (nodup : candidates.Nodup)
    (inside : 0 < count → ptr.block ω ∈ candidates ∧
      ((ptr.offset ctx.terms ω).toNat + count) * cfg.unit ≤ ctx.size (ptr.block ω) ω) :
    Written ctx ω m
      (m.storeAt ctx ptr candidates ((List.range count).map fun j => (j * cfg.unit, v j)))
      (ptr.block ω) (ptr.offset ctx.terms ω) count (fun j => ctx.terms.byte (v j) ω) := by
  rcases Nat.eq_zero_or_pos count with rfl | positive
  · exact ⟨fun j below => absurd below (Nat.not_lt_zero j), fun _ _ _ _ => rfl⟩
  obtain ⟨resolved, bounds⟩ := inside positive
  generalize data_eq : ((List.range count).map fun j => (j * cfg.unit, v j)) = data
  have length : data.length = count := by
    rw [← data_eq, List.length_map, List.length_range]
  have nonempty : data ≠ [] := by
    rw [← List.length_pos_iff, length]
    exact positive
  have units : data.map (fun d => d.1 / cfg.unit) = List.range count := by
    rw [← data_eq, List.map_map]
    refine (List.map_congr_left fun j _ => ?_).trans (List.map_id _)
    exact Nat.mul_div_cancel j cfg.unit_positive
  have place : ∀ j, BlockVal.place ctx.terms cfg ptr.shortOffset (j * cfg.unit) ω =
      ptr.offset ctx.terms ω + BitVec.ofNat w j := by
    intro j
    unfold BlockVal.place
    rw [ctx.terms.eval_add, Nat.mul_div_cancel _ cfg.unit_positive]
    rfl
  have kept : ctx.mayalias (some (data.length * cfg.unit)) (ptr.block ω) = true := by
    refine Context.mayalias_of_le fun size const => ?_
    rw [← ctx.constSize_sound _ _ const ω, length]
    exact Nat.le_trans (Nat.mul_le_mul_right _ (Nat.le_add_left _ _)) bounds
  obtain ⟨entry, accessed, here⟩ :=
    Context.exists_access resolved kept
  unfold Memory.storeAt Memory.store
  rw [if_neg nonempty, List.foldl_map]
  obtain ⟨changed, outside⟩ := foldl_keyed Memory.val Prod.fst
    (fun m entry => storeBlock ctx.terms cfg data m (ctx.storeAccess ptr entry))
    (fun entry => storedVal ctx.terms cfg (ctx.storeAccess ptr entry) data)
    (fun _ _ _ => storeBlock_val) (Context.access_nodup nodup) m
  -- what the store does to the block that the pointer denotes
  have right : ∀ e ∈ ctx.access ptr (some (data.length * cfg.unit)) candidates,
      e.1 = ptr.block ω → BlockVal.StoresBytes ctx.terms cfg (fun _ => True) false
        (ctx.storeAccess ptr e) data (ctx.size (ptr.block ω) ω) ω (m.val e.1 ω)
        (storedVal ctx.terms cfg (ctx.storeAccess ptr e) data (m.val e.1) ω) := by
    intro e member same
    refine storedVal_right _ ⟨?_, ?_, ?_, ?_⟩
    · rw [units, length]
    · intro n const
      rw [← same]
      exact ctx.constSize_sound _ _ const ω
    · intro _
      rw [length]
      exact bounds
    · exact (ctx.addressed _ ω).le
  constructor
  · intro j below
    obtain ⟨e, member, same⟩ := Context.exists_access resolved kept
    have holds := (Context.access_holds resolved kept member).2 same.symm
    have datum : (j * cfg.unit, v j) ∈ data := by
      rw [← data_eq]
      exact List.mem_map.2 ⟨j, List.mem_range.2 below, rfl⟩
    rw [← same, changed e member, ← place j]
    exact (right e member same).given holds _ datum
  · intro b offset in_block uncovered
    by_cases touched : b ∈ (ctx.access ptr (some (data.length * cfg.unit)) candidates).map Prod.fst
    · obtain ⟨e, member, rfl⟩ := List.mem_map.1 touched
      rw [changed e member]
      by_cases same : e.1 = ptr.block ω
      · have holds := (Context.access_holds resolved kept member).2 same.symm
        have not_covered : ¬BlockVal.Covered ctx.terms cfg (ctx.storeAccess ptr e) data ω
            offset := by
          rintro ⟨d, datum, covers⟩
          rw [← data_eq] at datum
          obtain ⟨j, below, rfl⟩ := List.mem_map.1 datum
          exact uncovered same j (List.mem_range.1 below) ((place j).symm.trans covers)
        by_cases full : ctx.constSize e.1 = some (data.length * cfg.unit)
        · have size_eq := ctx.constSize_sound _ _ full ω
          rw [size_eq] at in_block
          refine (right e member same).kept holds rfl offset ?_ not_covered
          unfold BlockVal.Inside
          rw [← same, size_eq]
          exact Nat.mul_le_mul_right _ (Nat.lt_of_mul_lt_mul_right in_block)
        · exact storedVal_uncovered _ full not_covered
      · rw [storedVal_other _ (Context.access_other resolved kept member same)]
    · rw [outside b touched]

theorem Length.stop_eq {bytes : Length ctx} (value : bytes.value ω = count * cfg.unit) :
    ctx.terms.eval (bytes.plus ptr) ω = ptr.offset ctx.terms ω + BitVec.ofNat w count := by
  have units : (ptr.byteOffset ctx.terms ω + count * cfg.unit) / cfg.unit =
      (ptr.offset ctx.terms ω).toNat + count := by
    rw [Nat.add_mul_div_right _ _ cfg.unit_positive, Ptr.byteOffset_div]
  rw [bytes.eval_plus, value, units, BitVec.ofNat_add, BitVec.ofNat_toNat, BitVec.setWidth_eq]

theorem lambdaVal_apply {access : LambdaAccess Ω T} {val old : Content Ω Byte w} :
    lambdaVal ctx.terms access val old ω offset =
      if access.cond.holds ω = true ∧ (access.wholeBlock = true ∨
          ctx.terms.eval access.start ω ≤ offset ∧ offset < ctx.terms.eval access.stop ω)
        then val ω offset else old ω offset := by
  unfold lambdaVal
  cases access.wholeBlock with
  | true =>
    rw [if_pos rfl, mkBlockIf_eq]
    simp only [true_or, and_true]
    split <;> rfl
  | false =>
    rw [if_neg Bool.false_ne_true]
    simp only [Bool.and_eq_true, decide_eq_true_eq, Bool.false_eq_true, false_or, and_assoc]

theorem mem_range_iff {start : BitVec w} (no_wrap : start.toNat + count < 2 ^ w) :
    (start ≤ offset ∧ offset < start + BitVec.ofNat w count) ↔
      ∃ j < count, start + BitVec.ofNat w j = offset := by
  have place : ∀ j ≤ count, (start + BitVec.ofNat w j).toNat = start.toNat + j := by
    intro j below
    rw [BitVec.toNat_add, BitVec.toNat_ofNat, Nat.mod_eq_of_lt (a := j) (by omega),
      Nat.mod_eq_of_lt (by omega)]
  rw [BitVec.le_def, BitVec.lt_def, place count le_rfl]
  constructor
  · intro ⟨above, below⟩
    refine ⟨offset.toNat - start.toNat, by omega, BitVec.eq_of_toNat_eq ?_⟩
    rw [place _ (by omega)]
    omega
  · rintro ⟨j, below, rfl⟩
    rw [place j (by omega)]
    omega

theorem Memory.storeLambdaAt_written {bytes : Length ctx} {data : List (Nat × Content Ω Byte w)}
    {last : Content Ω Byte w} (nodup : candidates.Nodup) (value : bytes.value ω = count * cfg.unit)
    (inside : 0 < count → ptr.block ω ∈ candidates ∧
      ptr.byteOffset ctx.terms ω + count * cfg.unit ≤ ctx.size (ptr.block ω) ω) :
    Written ctx ω m (m.storeLambdaAt ctx ptr candidates bytes data last)
      (ptr.block ω) (ptr.offset ctx.terms ω) count fun j =>
        lambdaByte (BitVec.ofNat w (data.length + 1)) data last ω
          (ptr.offset ctx.terms ω + BitVec.ofNat w j) := by
  have no_wrap : (ptr.offset ctx.terms ω).toNat + count < 2 ^ w := by
    rcases Nat.eq_zero_or_pos count with rfl | positive
    · exact (ptr.offset ctx.terms ω).isLt
    · refine Nat.lt_of_mul_lt_mul_right (a := cfg.unit) ?_
      refine Nat.lt_of_le_of_lt ?_ (ctx.addressed (ptr.block ω) ω)
      refine Nat.le_trans ?_ (inside positive).2
      rw [Nat.add_mul]
      exact Nat.add_le_add_right (Nat.le_add_right _ _) _
  have kept : 0 < count → ctx.mayalias bytes.known (ptr.block ω) = true := by
    intro positive
    cases known : bytes.known with
    | none =>
      unfold Context.mayalias
      cases ctx.constSize (ptr.block ω) <;> rfl
    | some n =>
      refine Context.mayalias_of_le fun size const => ?_
      rw [← ctx.constSize_sound _ _ const ω, ← bytes.known_sound n known ω, value]
      exact Nat.le_trans (Nat.le_add_left _ _) (inside positive).2
  unfold Memory.storeLambdaAt Memory.storeLambda
  rw [List.foldl_map]
  generalize lambdaByte (BitVec.ofNat w (data.length + 1)) data last = val
  obtain ⟨changed, outside⟩ := foldl_keyed Memory.val Prod.fst
    (fun m entry => storeLambdaBlock ctx.terms val m (bytes.lambdaAccess ptr entry))
    (fun entry => lambdaVal ctx.terms (bytes.lambdaAccess ptr entry) val)
    (fun _ _ _ => storeLambdaBlock_val) (Context.access_nodup nodup) m
  constructor
  · intro j below
    have positive := Nat.zero_lt_of_lt below
    obtain ⟨e, member, same⟩ :=
      Context.exists_access (inside positive).1 (kept positive)
    have holds := (Context.access_holds (inside positive).1 (kept positive) member).2 same.symm
    rw [← same, changed e member, lambdaVal_apply, if_pos]
    refine ⟨holds, .inr ?_⟩
    change ptr.offset ctx.terms ω ≤ _ ∧ _ < ctx.terms.eval (bytes.plus ptr) ω
    rw [Length.stop_eq value]
    exact (mem_range_iff no_wrap).2 ⟨j, below, rfl⟩
  · intro b offset in_block uncovered
    by_cases touched : b ∈ (ctx.access ptr bytes.known candidates).map Prod.fst
    · obtain ⟨e, member, rfl⟩ := List.mem_map.1 touched
      rw [changed e member, lambdaVal_apply, if_neg]
      rintro ⟨holds, whole | in_range⟩
      · -- the lambda store fills the block, so it starts at its first byte
        have size_eq := (bytes.eqSize_sound e.1 whole ω).trans value
        rw [size_eq] at in_block
        have below := Nat.lt_of_mul_lt_mul_right in_block
        have positive := Nat.zero_lt_of_lt below
        have same := (Context.access_holds (inside positive).1 (kept positive) member).1 holds
        have bounds := (inside positive).2
        rw [same, size_eq] at bounds
        have zero : ptr.byteOffset ctx.terms ω = 0 := by omega
        have first : ptr.offset ctx.terms ω = 0 := by
          rw [← BitVec.toNat_inj, ← Ptr.byteOffset_div, zero]
          exact Nat.zero_div _
        refine uncovered same.symm offset.toNat below ?_
        rw [first, BitVec.ofNat_toNat, BitVec.setWidth_eq, zero_add]
      · change ptr.offset ctx.terms ω ≤ _ ∧ _ < ctx.terms.eval (bytes.plus ptr) ω at in_range
        rw [Length.stop_eq value] at in_range
        obtain ⟨j, below, place⟩ := (mem_range_iff no_wrap).1 in_range
        have positive := Nat.zero_lt_of_lt below
        have same := (Context.access_holds (inside positive).1 (kept positive) member).1 holds
        exact uncovered same.symm j below place
    · rw [outside b touched]

end

end Facts

section

variable (Byte w)

def plainTerms : Terms Unit (BitVec w) (Unit → Byte) Byte w where
  eval t _ := t
  add t n := t + BitVec.ofNat w n
  eval_add _ _ _ := rfl
  zero := 0
  byte v := v

variable {Byte w}

def plainPtr (unit : Nat) (positive : 0 < unit) (bid offset : Nat) : Ptr Unit (BitVec w) unit where
  isLocal _ := false
  shortBid _ := bid
  shortOffset := BitVec.ofNat w (offset / unit)
  low _ := ⟨offset % unit, Nat.mod_lt _ positive⟩

def plainContext (cfg : Config) (size : BlockId → Nat) (const : BlockId → Bool)
    (poison stray : Byte) (small : ∀ b, size b < 2 ^ 64)
    (addressed : ∀ b, size b < 2 ^ w * cfg.unit) :
    Context Unit (BitVec w) (Unit → Byte) Byte w cfg where
  terms := plainTerms Byte w
  quote _ f := f
  byte_quote _ _ := rfl
  rawLoad c offset maxIdx ω := if (offset ω).toNat ≤ maxIdx then c ω (offset ω) else stray
  rawLoad_eq _ _ _ _ le := if_pos le
  order vals := vals
  order_perm _ := .refl _
  known _ _ := none
  known_sound _ _ _ known := nomatch known
  poison := poison
  sizeBits := 64
  size b _ := size b
  constSize b := if const b then some (size b) else none
  constSize_sound b n known ω := by
    split at known
    · exact Option.some.inj known
    · cases known
  size_lt b _ := small b
  size_small b _ := small b
  addressed b _ := addressed b

/-- A number of bytes that the simplifier knows or not. -/
def plainLength (ctx : Context Unit (BitVec w) (Unit → Byte) Byte w cfg)
    (terms : ctx.terms = plainTerms Byte w) (n : Nat) (const : Bool) : Length ctx where
  value _ := n
  known := if const then some n else none
  known_sound k known _ := by
    split at known
    · exact Option.some.inj known
    · cases known
  plus ptr := BitVec.ofNat w ((ptr.byteOffset ctx.terms () + n) / cfg.unit)
  eval_plus ptr _ := by
    rw [terms]
    rfl
  eqSize _ := false
  eqSize_sound _ same := nomatch same

end

end AliveNext.IR.Stored
