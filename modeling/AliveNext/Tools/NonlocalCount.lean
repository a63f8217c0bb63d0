import Mathlib

/-!
# The number of non-local pointers

`CountMemBlock` counts the pointers to non-local memory that the instructions on a
path can obtain, over the blocks of a function without loops
(`tools/transform.cpp`, `util/dataflow.h`).
-/

namespace AliveNext.Tools.Nonlocals

/-! ## Values -/

/-- The operand of a GEP that is multiplied: an integer constant, a sign extension, another
value of an integer type, or a value of a type that is no integer. -/
inductive Index
  | const (n : Int)
  | sext (id : Nat) (value : Index)
  | int (id bits : Nat)
  | other (id : Nat)

/-- A value, with its address. -/
inductive Val
  | call (id : Nat) (noAlias isAlloc : Bool) (ptrs : Nat)
  | alloc (id : Nat)
  | int2ptr (id ptrs : Nat)
  | load (id : Nat) (ptr : Val) (fields : List Nat)
  | gep (id : Nat) (ptr : Val) (idxs : List (Nat × Index))
  | noOp (id : Nat) (value : Val)
  | phi (id : Nat) (values : List Val)
  | select (id : Nat) (onTrue onFalse : Val)
  | other (id : Nat)

namespace Val

def id : Val → Nat
  | .call id _ _ _ | .alloc id | .int2ptr id _ | .load id _ _ | .gep id _ _ | .noOp id _
  | .phi id _ | .select id _ _ | .other id => id

def returnsLocal : Val → Bool
  | .call _ noAlias isAlloc _ => noAlias || isAlloc
  | .alloc _ => true
  | _ => false

mutual

/-- `may_be_nonlocal`. Without loops no value is an operand of itself. -/
def mayBeNonlocal : Val → Bool
  | .call _ noAlias isAlloc _ => !(noAlias || isAlloc)
  | .alloc _ => false
  | .gep _ ptr _ => ptr.mayBeNonlocal
  | .noOp _ value => value.mayBeNonlocal
  | .phi _ values => anyMayBeNonlocal values
  | .select _ onTrue onFalse => onTrue.mayBeNonlocal || onFalse.mayBeNonlocal
  | _ => true

def anyMayBeNonlocal : List Val → Bool
  | [] => false
  | v :: vs => v.mayBeNonlocal || anyMayBeNonlocal vs

end

end Val

/-! ## Keys -/

def addSaturate (a b : Nat) : Nat := min (a + b) (2 ^ 64 - 1)

def mulSaturate (a b : Nat) : Nat := min (a * b) (2 ^ 64 - 1)

def offUsedBits : Index → Nat
  | .sext _ value => offUsedBits value
  | .int _ bits => min bits 64
  | _ => 64

/-- The loop of `GEP::getMaxGEPOffset`. -/
def maxGEPOffset (off : Nat) : List (Nat × Index) → Nat
  | [] => off
  | (mul, v) :: idxs =>
    if mul = 0 then maxGEPOffset off idxs
    else if 2 ^ 63 - 1 ≤ mul then 2 ^ 64 - 1
    else
      match v with
      | .const n => maxGEPOffset (addSaturate off ((mul * n : Int) % 2 ^ 64).toNat) idxs
      | v =>
        maxGEPOffset
          (addSaturate off (mulSaturate mul ((2 ^ 64 - 1) >>> (64 - offUsedBits v)))) idxs

abbrev Key := Nat × Nat

def collectGepOffsets (offset : Nat) : Val → Key
  | .gep id ptr idxs =>
    let off := maxGEPOffset 0 idxs
    if off ≠ 2 ^ 64 - 1 then collectGepOffsets ((offset + off) % 2 ^ 64) ptr else (id, offset)
  | v => (v.id, offset)

def key (ptr : Val) : Key := collectGepOffsets 0 ptr

/-! ## The function -/

inductive Instr
  | value (v : Val)
  | ret
  | other

structure Block where
  instrs : List Instr
  targets : List Nat

structure Function where
  blocks : List Block
  sorted : ∀ b block, blocks[b]? = some block → ∀ t ∈ block.targets, b < t ∧ t < blocks.length

namespace Function

def instrs (f : Function) (b : Nat) : List Instr := (f.blocks[b]?.map Block.instrs).getD []

def targets (f : Function) (b : Nat) : List Nat := (f.blocks[b]?.map Block.targets).getD []

end Function

/-! ## The analysis -/

/-- `CountMemBlock`. -/
structure Count where
  numNonlocals : Nat
  cache : List Key
  deriving DecidableEq

namespace Count

def empty : Count := ⟨0, []⟩

def direct : Instr → Nat
  | .value (.call _ noAlias isAlloc ptrs) => if noAlias || isAlloc then 0 else ptrs
  | .value (.int2ptr _ ptrs) => ptrs
  | _ => 0

def loaded : Instr → Option (Key × Nat)
  | .value (.load _ ptr fields) =>
    if ptr.mayBeNonlocal then some (key ptr, fields.length) else none
  | _ => none

/-- `num_nonlocals += returns_nonlocal(i, nonlocal_cache)`, an `unsigned`. -/
def add (s : Count) (i : Instr) : Count :=
  match loaded i with
  | some (k, ptrs) =>
    if k ∈ s.cache then s else ⟨(s.numNonlocals + ptrs) % 2 ^ 32, k :: s.cache⟩
  | none => { s with numNonlocals := (s.numNonlocals + direct i) % 2 ^ 32 }

/-- `returns_local`. -/
def isLocal : Instr → Bool
  | .value v => v.returnsLocal
  | _ => false

/-- `exec`, of the data of a path and of the whole function. -/
def exec (s glb : Count) (i : Instr) : Count × Count :=
  if isLocal i then (s, glb)
  else
    let s := s.add i
    let glb := glb.add i
    ({ s with numNonlocals := min s.numNonlocals glb.numNonlocals }, glb)

/-- The first loop of `merge`: what stays of the cache, and what is left of `delta`. -/
def keep (other : List Key) : Nat → List Key → List Key × Nat
  | delta, [] => ([], delta)
  | delta, k :: rest =>
    if k ∈ other then
      let (kept, delta) := keep other delta rest
      (k :: kept, delta)
    else if 0 < delta then
      let (kept, delta) := keep other (delta - 1) rest
      (k :: kept, delta)
    else keep other delta rest

def take : Nat → List Key → List Key → List Key
  | _, [], cache => cache
  | delta, k :: rest, cache =>
    if 0 < delta ∧ k ∉ cache then take (delta - 1) rest (k :: cache) else take delta rest cache

/-- `merge`. The sets are gone through in the order of the addresses. -/
def merge (order : List Key → List Key) (s other : Count) : Count :=
  let delta :=
    if other.numNonlocals ≤ s.numNonlocals then s.numNonlocals - other.numNonlocals
    else other.numNonlocals - s.numNonlocals
  let (kept, delta) := keep other.cache delta (order s.cache)
  ⟨max s.numNonlocals other.numNonlocals, take delta (order other.cache) kept⟩

end Count

/-- `DenseDataFlow`, with the pairs of data that were merged at the start of a block. -/
structure DataFlow where
  bbData : Nat → Option Count
  glb : Count
  ret : Count
  merges : List (Count × Count)

structure SetOrder where
  order : List Key → List Key
  perm : ∀ l, (order l).Perm l

namespace DataFlow

variable (hash : SetOrder)

def instr (s : Count × Count × Count) (i : Instr) : Count × Count × Count :=
  let (data, glb, ret) := s
  let (data, glb) := data.exec glb i
  (data, glb, if i matches .ret then ret.merge hash.order data else ret)

def target (data : Count) (s : DataFlow) (t : Nat) : DataFlow :=
  match s.bbData t with
  | none => { s with bbData := Function.update s.bbData t (some data) }
  | some old =>
    { s with
      bbData := Function.update s.bbData t (some (old.merge hash.order data))
      merges := (old, data) :: s.merges }

def block (f : Function) (s : DataFlow) (b : Nat) : DataFlow :=
  match s.bbData b with
  | none => s
  | some data =>
    let (data, glb, ret) := (f.instrs b).foldl (instr hash) (data, s.glb, s.ret)
    (f.targets b).foldl (target hash data)
      { s with bbData := Function.update s.bbData b (some data), glb := glb, ret := ret }

def start : DataFlow where
  bbData := Function.update (fun _ => none) 0 (some .empty)
  glb := .empty
  ret := .empty
  merges := []

def run (f : Function) : DataFlow := (List.range f.blocks.length).foldl (block hash f) start

def numNonlocals (f : Function) : Nat := (run hash f).ret.numNonlocals

end DataFlow

/-! ## Paths -/

def Index.eval (env : Nat → BitVec 64) : Index → BitVec 64
  | .const n => BitVec.ofInt 64 n
  | .sext _ value => value.eval env
  | .int id bits => ((env id).setWidth bits).signExtend 64
  | .other id => env id

def Val.eval (env : Nat → BitVec 64) : Val → BitVec 64
  | .gep _ ptr idxs =>
    ptr.eval env + (idxs.map fun idx => BitVec.ofNat 64 idx.1 * idx.2.eval env).sum
  | .noOp _ value => value.eval env
  | v => env v.id

/-- The addresses of the pointers that an instruction loads from memory that may be
non-local. -/
def loadedAt (env : Nat → BitVec 64) : Instr → List (BitVec 64)
  | .value (.load _ ptr fields) =>
    if ptr.mayBeNonlocal then fields.map fun f => ptr.eval env + BitVec.ofNat 64 f else []
  | _ => []

inductive Arrives (f : Function) : Nat → List Instr → Prop
  | entry : Arrives f 0 []
  | jump {b t : Nat} {seq : List Instr} :
      Arrives f b seq → t ∈ f.targets b → Arrives f t (seq ++ f.instrs b)

def Returns (f : Function) (seq : List Instr) : Prop :=
  ∃ b start before after, Arrives f b start ∧ f.instrs b = before ++ .ret :: after ∧
    seq = start ++ before

def calls (seq : List Instr) : Nat := (seq.map Count.direct).sum

/-- The result is at least the number of pointers that the path from the entry to a return
gets from calls, from casts and from different addresses. -/
def UpperBound (hash : SetOrder) (f : Function) : Prop :=
  ∀ seq, Returns f seq → ∀ env,
    calls seq + (seq.flatMap (loadedAt env)).toFinset.card ≤ DataFlow.numNonlocals hash f

namespace Function

def all (f : Function) : List Instr := (List.range f.blocks.length).flatMap f.instrs

def weight (f : Function) (k : Key) : Nat :=
  ((f.all.filterMap Count.loaded).find? fun p => p.1 = k).elim 0 Prod.snd

end Function

def ptrs (i : Instr) : Nat := Count.direct i + (Count.loaded i).elim 0 Prod.snd

/-- A key stands for one place: the loads that have it load as many pointers as each other, on
a path they load them from the same addresses, and `unsigned` holds the number of pointers. -/
structure Distinguishes (f : Function) : Prop where
  count : ∀ i ∈ f.all, ∀ j ∈ f.all, ∀ k m n, Count.loaded i = some (k, m) →
    Count.loaded j = some (k, n) → m = n
  address : ∀ seq, Returns f seq → ∀ i ∈ seq, ∀ j ∈ seq, ∀ k m n,
    Count.loaded i = some (k, m) → Count.loaded j = some (k, n) →
      ∀ env, ∀ a ∈ loadedAt env j, a ∈ loadedAt env i
  fits : (f.all.map ptrs).sum < 2 ^ 32

namespace Count

def extra (order : List Key → List Key) (big small : Count) : List Key :=
  (order big.cache).filter fun k => k ∉ small.cache

/-- The data with the larger count has as many pointers more as there are under the keys that it
may keep, and no key of the other one is kept. -/
def SafeMerge (order : List Key → List Key) (weight : Key → Nat) (s other : Count) : Prop :=
  if other.numNonlocals ≤ s.numNonlocals then
    ((∀ k ∈ other.cache, k ∈ s.cache) ∨
        s.numNonlocals - other.numNonlocals ≤ (extra order s other).length) ∧
      (((extra order s other).take (s.numNonlocals - other.numNonlocals)).map weight).sum ≤
        s.numNonlocals - other.numNonlocals
  else
    (∀ k ∈ s.cache, k ∈ other.cache) ∧
      (((extra order other s).take (other.numNonlocals - s.numNonlocals)).map weight).sum ≤
        other.numNonlocals - s.numNonlocals

section

variable {order : List Key → List Key} {weight : Key → Nat} {s t other : Count} {delta : Nat}
  {l cache : List Key} {k : Key}

theorem mem_keep (l : List Key) : ∀ delta, k ∈ (keep cache delta l).1 →
      k ∈ l ∧ (k ∈ cache ∨ k ∈ (l.filter fun k => k ∉ cache).take delta) := by
  induction l with
  | nil => exact fun _ => (absurd · List.not_mem_nil)
  | cons head rest ih =>
    intro delta member
    rw [keep] at member
    split at member
    · next known =>
        rw [List.filter_cons_of_neg (by simpa using known)]
        rcases List.mem_cons.1 member with rfl | later
        · exact ⟨List.mem_cons_self, .inl known⟩
        · exact (ih delta later).imp_left (List.mem_cons_of_mem head)
    next unknown =>
    rw [List.filter_cons_of_pos (by simpa using unknown)]
    split at member
    · next positive =>
        obtain ⟨d, rfl⟩ := Nat.exists_eq_succ_of_ne_zero (Nat.ne_of_gt positive)
        rw [List.take_succ_cons]
        rcases List.mem_cons.1 member with rfl | later
        · exact ⟨List.mem_cons_self, .inr List.mem_cons_self⟩
        · obtain ⟨inside, reason⟩ := ih d later
          exact ⟨List.mem_cons_of_mem head inside, reason.imp_right (List.mem_cons_of_mem head)⟩
    · next zero =>
        obtain rfl : delta = 0 := Nat.eq_zero_of_not_pos zero
        obtain ⟨inside, reason⟩ := ih 0 member
        refine ⟨List.mem_cons_of_mem head inside, .inl (reason.resolve_right ?_)⟩
        rw [List.take_zero]
        exact List.not_mem_nil

theorem keep_shared (l : List Key) : ∀ delta, k ∈ l → k ∈ cache → k ∈ (keep cache delta l).1 := by
  induction l with
  | nil => exact fun _ => (absurd · List.not_mem_nil)
  | cons head rest ih =>
    intro delta member known
    rw [keep]
    split
    · rcases List.mem_cons.1 member with rfl | later
      · exact List.mem_cons_self
      · exact List.mem_cons_of_mem _ (ih delta later known)
    next unknown =>
    have later := (List.mem_cons.1 member).resolve_left fun same => unknown (same ▸ known)
    split
    · exact List.mem_cons_of_mem _ (ih (delta - 1) later known)
    · exact ih delta later known

theorem keep_left (l : List Key) :
    ∀ delta, (keep cache delta l).2 = delta - (l.filter fun k => k ∉ cache).length := by
  induction l with
  | nil => exact fun delta => rfl
  | cons head rest ih =>
    intro delta
    rw [keep]
    split
    · next known =>
        rw [List.filter_cons_of_neg (by simpa using known)]
        exact ih delta
    next unknown =>
    rw [List.filter_cons_of_pos (by simpa using unknown), List.length_cons]
    split
    · refine (ih (delta - 1)).trans ?_
      omega
    · refine (ih delta).trans ?_
      omega

theorem keep_nodup (l : List Key) : ∀ delta, l.Nodup → (keep cache delta l).1.Nodup := by
  intro delta
  have sublist : (keep cache delta l).1.Sublist l := by
    induction l generalizing delta with
    | nil => exact .slnil
    | cons head rest ih =>
      rw [keep]
      split
      · exact (ih delta).cons_cons head
      · split
        · exact (ih (delta - 1)).cons_cons head
        · exact (ih delta).cons head
  exact sublist.nodup

theorem mem_take (l : List Key) : ∀ delta (cache : List Key), l.Nodup → k ∈ take delta l cache →
      k ∈ cache ∨ k ∈ (l.filter fun k => k ∉ cache).take delta := by
  induction l with
  | nil => exact fun delta cache _ member => .inl member
  | cons head rest ih =>
    intro delta cache nodup member
    obtain ⟨first, nodup⟩ := List.nodup_cons.1 nodup
    rw [take] at member
    split at member
    · next fresh =>
        obtain ⟨positive, unknown⟩ := fresh
        obtain ⟨d, rfl⟩ := Nat.exists_eq_succ_of_ne_zero (Nat.ne_of_gt positive)
        rw [List.filter_cons_of_pos (by simpa using unknown), List.take_succ_cons]
        have same : (rest.filter fun k => k ∉ head :: cache) = rest.filter fun k => k ∉ cache := by
          refine List.filter_congr fun k inside => ?_
          have other : k ≠ head := fun same => first (same ▸ inside)
          simp [other]
        rcases ih d (head :: cache) nodup member with old | new
        · rcases List.mem_cons.1 old with rfl | old
          · exact .inr List.mem_cons_self
          · exact .inl old
        · exact .inr (List.mem_cons_of_mem head (same ▸ new))
    · next stale =>
        rcases ih delta cache nodup member with old | new
        · exact .inl old
        · by_cases known : head ∈ cache
          · rw [List.filter_cons_of_neg (by simpa using known)]
            exact .inr new
          · have zero : delta = 0 := by
              by_contra positive
              exact stale ⟨Nat.pos_of_ne_zero positive, known⟩
            rw [zero, List.take_zero] at new
            exact absurd new List.not_mem_nil

theorem take_nodup (l : List Key) :
    ∀ delta (cache : List Key), cache.Nodup → (take delta l cache).Nodup := by
  induction l with
  | nil => exact fun delta cache nodup => nodup
  | cons head rest ih =>
    intro delta cache nodup
    rw [take]
    split
    · next fresh => exact ih _ _ (List.nodup_cons.2 ⟨fresh.2, nodup⟩)
    · exact ih _ _ nodup

variable (perm : ∀ l, (order l).Perm l)

include perm

theorem merge_cases (nodup : other.cache.Nodup) (member : k ∈ (merge order s other).cache) :
    (k ∈ s.cache ∧ (k ∈ other.cache ∨ k ∈ (extra order s other).take
        (max s.numNonlocals other.numNonlocals - min s.numNonlocals other.numNonlocals))) ∨
      k ∈ ((order other.cache).filter fun k =>
        k ∉ (keep other.cache (max s.numNonlocals other.numNonlocals -
          min s.numNonlocals other.numNonlocals) (order s.cache)).1).take
        (max s.numNonlocals other.numNonlocals - min s.numNonlocals other.numNonlocals -
          (extra order s other).length) := by
  have delta_eq : (if other.numNonlocals ≤ s.numNonlocals then
      s.numNonlocals - other.numNonlocals else other.numNonlocals - s.numNonlocals) =
      max s.numNonlocals other.numNonlocals - min s.numNonlocals other.numNonlocals := by
    split <;> omega
  unfold merge at member
  rw [delta_eq] at member
  rcases mem_take _ _ _ ((perm other.cache).nodup_iff.2 nodup) member with kept | new
  · obtain ⟨inside, reason⟩ := mem_keep _ _ kept
    exact .inl ⟨(perm s.cache).mem_iff.1 inside, reason⟩
  · rw [keep_left] at new
    exact .inr new

/-- Without a slip the result has what both sides have counted, and the keys that one side has
not cached on top. -/
theorem merge_excess (nodup : s.cache.Nodup)
    (nodup' : other.cache.Nodup) (safe : SafeMerge order weight s other) :
    ∀ x, x = s ∨ x = other →
      x.numNonlocals + ∑ k ∈ (merge order s other).cache.toFinset \ x.cache.toFinset, weight k ≤
        (merge order s other).numNonlocals := by
  have count : (merge order s other).numNonlocals = max s.numNonlocals other.numNonlocals := rfl
  -- the sum over some of the first keys of a list
  have bound : ∀ (big small : Count), big.cache.Nodup → ∀ delta,
      (((extra order big small).take delta).map weight).sum ≤ delta →
      (∀ k ∈ (merge order s other).cache, k ∈ small.cache ∨
        k ∈ (extra order big small).take delta) →
      ∑ k ∈ (merge order s other).cache.toFinset \ small.cache.toFinset, weight k ≤ delta := by
    intro big small nodup delta enough inside
    have distinct : ((extra order big small).take delta).Nodup :=
      (((perm big.cache).nodup_iff.2 nodup).filter _).sublist (List.take_sublist _ _)
    refine le_trans (Finset.sum_le_sum_of_subset fun k member => ?_)
      ((List.sum_toFinset weight distinct).trans_le enough)
    obtain ⟨present, absent⟩ := Finset.mem_sdiff.1 member
    rw [List.mem_toFinset] at present absent ⊢
    exact (inside k present).resolve_left absent
  have none : ∀ x : Count, (∀ k ∈ (merge order s other).cache, k ∈ x.cache) →
      ∑ k ∈ (merge order s other).cache.toFinset \ x.cache.toFinset, weight k = 0 := by
    intro x inside
    have empty : (merge order s other).cache.toFinset \ x.cache.toFinset = ∅ := by
      refine Finset.sdiff_eq_empty_iff_subset.2 fun k member => ?_
      rw [List.mem_toFinset] at member ⊢
      exact inside k member
    rw [empty, Finset.sum_empty]
  unfold SafeMerge at safe
  split at safe
  · next larger =>
      obtain ⟨room, enough⟩ := safe
      have inside : ∀ k ∈ (merge order s other).cache, k ∈ s.cache ∧ (k ∈ other.cache ∨
          k ∈ (extra order s other).take (s.numNonlocals - other.numNonlocals)) := by
        intro k member
        have cases := merge_cases perm nodup' member
        rw [Nat.max_eq_left larger, Nat.min_eq_right larger] at cases
        rcases cases with old | new
        · exact old
        rcases room with subset | full
        · obtain ⟨present, absent⟩ := List.mem_filter.1 (List.mem_of_mem_take new)
          have known := (perm other.cache).mem_iff.1 present
          exact absurd (keep_shared _ _ ((perm s.cache).mem_iff.2 (subset k known)) known)
            (of_decide_eq_true absent)
        · rw [Nat.sub_eq_zero_of_le full, List.take_zero] at new
          exact absurd new List.not_mem_nil
      rintro x (rfl | rfl)
      · rw [none x fun k member => (inside k member).1, count]
        exact Nat.le_max_left _ _
      · have fits := bound s x nodup _ enough fun k member => (inside k member).2
        rw [count, Nat.max_eq_left larger]
        omega
  · next smaller =>
      obtain ⟨subset, enough⟩ := safe
      have larger : s.numNonlocals ≤ other.numNonlocals := by omega
      have nothing : extra order s other = [] := by
        refine List.filter_eq_nil_iff.2 fun k member absent => ?_
        exact absurd (subset k ((perm s.cache).mem_iff.1 member)) (of_decide_eq_true absent)
      have inside : ∀ k ∈ (merge order s other).cache, k ∈ other.cache ∧ (k ∈ s.cache ∨
          k ∈ (extra order other s).take (other.numNonlocals - s.numNonlocals)) := by
        intro k member
        have cases := merge_cases perm nodup' member
        rw [Nat.max_eq_right larger, Nat.min_eq_left larger, nothing, List.take_nil,
          List.length_nil, Nat.sub_zero] at cases
        rcases cases with ⟨old, -⟩ | new
        · exact ⟨subset k old, .inl old⟩
        · have same : ((order other.cache).filter fun k => k ∉ (keep other.cache
              (other.numNonlocals - s.numNonlocals) (order s.cache)).1) =
              extra order other s := by
            refine List.filter_congr fun k _ => decide_eq_decide.2 (not_congr ?_)
            constructor
            · exact fun kept => (perm s.cache).mem_iff.1 (mem_keep _ _ kept).1
            · exact fun known => keep_shared _ _ ((perm s.cache).mem_iff.2 known) (subset k known)
          rw [same] at new
          exact ⟨(perm other.cache).mem_iff.1 (List.mem_filter.1 (List.mem_of_mem_take new)).1,
            .inr new⟩
      rintro x (rfl | rfl)
      · have fits := bound other x nodup' _ enough fun k member => (inside k member).2
        rw [count, Nat.max_eq_right larger]
        omega
      · rw [none x fun k member => (inside k member).1, count]
        exact Nat.le_max_right _ _

theorem merge_nodup (nodup : s.cache.Nodup) : (merge order s other).cache.Nodup :=
  take_nodup _ _ _ (keep_nodup _ _ ((perm s.cache).nodup_iff.2 nodup))

theorem mem_merge (nodup : other.cache.Nodup)
    (member : k ∈ (merge order s other).cache) : k ∈ s.cache ∨ k ∈ other.cache := by
  rcases merge_cases perm nodup member with ⟨old, -⟩ | new
  · exact .inl old
  · exact .inr ((perm other.cache).mem_iff.1 (List.mem_filter.1 (List.mem_of_mem_take new)).1)

end

end Count

/-! ## One instruction -/

def keysOf (seq : List Instr) : Finset Key :=
  ((seq.filterMap Count.loaded).map Prod.fst).toFinset

section

variable {f : Function} {done seq seq' : List Instr} {s glb data : Count} {i : Instr} {k : Key}
  {m : Nat}

theorem mem_keysOf : k ∈ keysOf seq ↔ ∃ i ∈ seq, ∃ m, Count.loaded i = some (k, m) := by
  rw [keysOf, List.mem_toFinset, List.mem_map]
  constructor
  · rintro ⟨⟨k, m⟩, member, rfl⟩
    obtain ⟨i, inside, known⟩ := List.mem_filterMap.1 member
    exact ⟨i, inside, m, known⟩
  · rintro ⟨i, inside, m, known⟩
    exact ⟨(k, m), List.mem_filterMap.2 ⟨i, inside, known⟩, rfl⟩

theorem keysOf_append : keysOf (seq ++ seq') = keysOf seq ∪ keysOf seq' := by
  rw [keysOf, List.filterMap_append, List.map_append, List.toFinset_append]
  rfl

theorem keysOf_single_none (none : Count.loaded i = none) : keysOf [i] = ∅ := by
  rw [keysOf, List.filterMap_cons_none none]
  rfl

theorem keysOf_single_some (known : Count.loaded i = some (k, m)) : keysOf [i] = {k} := by
  rw [keysOf, List.filterMap_cons_some known]
  rfl

theorem keysOf_mono (sublist : seq.Sublist seq') : keysOf seq ⊆ keysOf seq' := by
  intro k member
  obtain ⟨i, inside, known⟩ := mem_keysOf.1 member
  exact mem_keysOf.2 ⟨i, sublist.subset inside, known⟩

theorem calls_append : calls (seq ++ seq') = calls seq + calls seq' := by
  rw [calls, List.map_append, List.sum_append]
  rfl

theorem calls_single (i : Instr) : calls [i] = Count.direct i := List.sum_singleton

theorem calls_mono (sublist : seq.Sublist seq') : calls seq ≤ calls seq' :=
  (sublist.map Count.direct).sum_le_sum fun _ _ => Nat.zero_le _

theorem direct_of_loaded
    {p : Key × Nat} (known : Count.loaded i = some p) : Count.direct i = 0 := by
  unfold Count.loaded at known
  split at known
  · rfl
  · cases known

theorem local_uncounted
    (localVal : Count.isLocal i = true) : Count.direct i = 0 ∧ Count.loaded i = none := by
  cases i with
  | ret => exact ⟨rfl, rfl⟩
  | other => exact ⟨rfl, rfl⟩
  | value v =>
    cases v with
    | call id noAlias isAlloc ptrs => exact ⟨if_pos localVal, rfl⟩
    | alloc id => exact ⟨rfl, rfl⟩
    | _ => cases localVal

theorem weight_eq (distinguishes : Distinguishes f) (inside : i ∈ f.all)
    (known : Count.loaded i = some (k, m)) : f.weight k = m := by
  have member : (k, m) ∈ f.all.filterMap Count.loaded :=
    List.mem_filterMap.2 ⟨i, inside, known⟩
  unfold Function.weight
  cases found : (f.all.filterMap Count.loaded).find? fun p => p.1 = k with
  | none => exact absurd rfl (of_decide_eq_false
      (Bool.eq_false_of_not_eq_true (List.find?_eq_none.1 found (k, m) member)))
  | some p =>
    obtain ⟨k', n⟩ := p
    have same := List.find?_some found
    obtain rfl : k' = k := of_decide_eq_true same
    obtain ⟨j, inside', known'⟩ := List.mem_filterMap.1 (List.mem_of_find?_eq_some found)
    exact distinguishes.count j inside' i inside k' n m known' known

theorem add_none (none : Count.loaded i = none) (fits : s.numNonlocals + ptrs i < 2 ^ 32) :
    s.add i = { s with numNonlocals := s.numNonlocals + Count.direct i } := by
  have small : s.numNonlocals + Count.direct i < 2 ^ 32 := by
    unfold ptrs at fits
    omega
  rw [Count.add, none]
  dsimp only
  rw [Nat.mod_eq_of_lt small]

theorem add_cached (known : Count.loaded i = some (k, m)) (cached : k ∈ s.cache) : s.add i = s := by
  rw [Count.add, known]
  exact if_pos cached

theorem add_new (known : Count.loaded i = some (k, m)) (new : k ∉ s.cache)
    (fits : s.numNonlocals + ptrs i < 2 ^ 32) : s.add i = ⟨s.numNonlocals + m, k :: s.cache⟩ := by
  have small : s.numNonlocals + m < 2 ^ 32 := by
    rw [ptrs, known] at fits
    change s.numNonlocals + (Count.direct i + m) < 2 ^ 32 at fits
    omega
  rw [Count.add, known]
  dsimp only
  rw [if_neg new, Nat.mod_eq_of_lt small]

theorem sum_insert_le (weight : Key → Nat) (k : Key) (keys : Finset Key) :
    ∑ j ∈ insert k keys, weight j ≤ weight k + ∑ j ∈ keys, weight j := by
  by_cases member : k ∈ keys
  · rw [Finset.insert_eq_of_mem member]
    exact Nat.le_add_left _ _
  · rw [Finset.sum_insert member]

structure Processed (f : Function) (done : List Instr) (glb : Count) : Prop where
  inside : done.Sublist f.all
  num : glb.numNonlocals = calls done + ∑ k ∈ keysOf done, f.weight k
  cache : ∀ k, k ∈ glb.cache ↔ k ∈ keysOf done
  small : glb.numNonlocals ≤ (done.map ptrs).sum

structure Behind (done : List Instr) (glb data : Count) : Prop where
  cache : ∀ k ∈ data.cache, k ∈ keysOf done
  nodup : data.cache.Nodup
  small : data.numNonlocals ≤ glb.numNonlocals

def Bounds (f : Function) (seq : List Instr) (data : Count) : Prop :=
  calls seq + ∑ k ∈ keysOf seq ∪ data.cache.toFinset, f.weight k ≤ data.numNonlocals

section

variable (processed : Processed f done glb) (distinguishes : Distinguishes f)
    (inside : (done ++ [i]).Sublist f.all)

include processed distinguishes inside

theorem Processed.fits : glb.numNonlocals + ptrs i < 2 ^ 32 := by
  have total := (inside.map ptrs).sum_le_sum fun _ _ => Nat.zero_le _
  rw [List.map_append, List.map_singleton, List.sum_append, List.sum_singleton] at total
  have := processed.small
  have := distinguishes.fits
  omega

theorem Processed.add : Processed f (done ++ [i]) (glb.add i) := by
  have fits := processed.fits distinguishes inside
  have sum : ((done ++ [i]).map ptrs).sum = (done.map ptrs).sum + ptrs i := by
    rw [List.map_append, List.map_singleton, List.sum_append, List.sum_singleton]
  have num := processed.num
  have small := processed.small
  cases known : Count.loaded i with
  | none =>
    rw [add_none known fits]
    have same : keysOf (done ++ [i]) = keysOf done := by
      rw [keysOf_append, keysOf_single_none known, Finset.union_empty]
    refine ⟨inside, ?_, fun k => ?_, ?_⟩
    · rw [calls_append, calls_single, same]
      change glb.numNonlocals + Count.direct i = _
      omega
    · rw [same]
      exact processed.cache k
    · rw [sum]
      change glb.numNonlocals + Count.direct i ≤ _ + (Count.direct i + _)
      omega
  | some p =>
    obtain ⟨k, m⟩ := p
    have member : i ∈ f.all := inside.subset (List.mem_append_right _ (List.mem_singleton_self i))
    have weight := weight_eq distinguishes member known
    have keys : keysOf (done ++ [i]) = insert k (keysOf done) := by
      rw [keysOf_append, keysOf_single_some known, Finset.union_comm]
      rfl
    have count : calls (done ++ [i]) = calls done := by
      rw [calls_append, calls_single, direct_of_loaded known, Nat.add_zero]
    by_cases cached : k ∈ glb.cache
    · rw [add_cached known cached]
      have same : keysOf (done ++ [i]) = keysOf done := by
        rw [keys, Finset.insert_eq_of_mem ((processed.cache k).1 cached)]
      refine ⟨inside, ?_, fun j => ?_, ?_⟩
      · rw [count, same]
        exact num
      · rw [same]
        exact processed.cache j
      · rw [sum]
        omega
    · rw [add_new known cached fits]
      have fresh : k ∉ keysOf done := fun inside => cached ((processed.cache k).2 inside)
      refine ⟨inside, ?_, fun j => ?_, ?_⟩
      · rw [count, keys, Finset.sum_insert fresh, weight]
        change glb.numNonlocals + m = _
        omega
      · rw [keys, List.mem_cons, Finset.mem_insert, processed.cache]
      · rw [sum, ptrs, known]
        change glb.numNonlocals + m ≤ _ + (_ + m)
        omega

end

theorem Behind.later {done' : List Instr} {glb' : Count} (behind : Behind done glb data)
    (sublist : done.Sublist done')
    (more : glb.numNonlocals ≤ glb'.numNonlocals) : Behind done' glb' data where
  cache k member := keysOf_mono sublist (behind.cache k member)
  nodup := behind.nodup
  small := behind.small.trans more

theorem add_more (fits : s.numNonlocals + ptrs i < 2 ^ 32) :
    s.numNonlocals ≤ (s.add i).numNonlocals := by
  cases known : Count.loaded i with
  | none =>
    rw [add_none known fits]
    exact Nat.le_add_right _ _
  | some p =>
    by_cases cached : p.1 ∈ s.cache
    · rw [add_cached known cached]
    · rw [add_new known cached fits]
      exact Nat.le_add_right _ _

theorem add_cache (fits : s.numNonlocals + ptrs i < 2 ^ 32) :
    (s.cache.Nodup → (s.add i).cache.Nodup) ∧
      (s.add i).cache.toFinset = s.cache.toFinset ∪ keysOf [i] := by
  cases known : Count.loaded i with
  | none =>
    rw [add_none known fits, keysOf_single_none known, Finset.union_empty]
    exact ⟨fun nodup => nodup, rfl⟩
  | some p =>
    obtain ⟨k, m⟩ := p
    rw [keysOf_single_some known, Finset.union_comm]
    by_cases cached : k ∈ s.cache
    · rw [add_cached known cached]
      exact ⟨fun nodup => nodup, (Finset.insert_eq_of_mem (List.mem_toFinset.2 cached)).symm⟩
    · rw [add_new known cached fits]
      exact ⟨fun nodup => List.nodup_cons.2 ⟨cached, nodup⟩, List.toFinset_cons⟩

theorem Bounds.add (bounds : Bounds f seq data) (distinguishes : Distinguishes f)
    (inside : i ∈ f.all) (fits : data.numNonlocals + ptrs i < 2 ^ 32) :
    Bounds f (seq ++ [i]) (data.add i) := by
  unfold Bounds at bounds ⊢
  rw [calls_append, calls_single, (add_cache fits).2, keysOf_append]
  cases known : Count.loaded i with
  | none =>
    rw [add_none known fits, keysOf_single_none known, Finset.union_empty, Finset.union_empty]
    change _ ≤ data.numNonlocals + Count.direct i
    omega
  | some p =>
    obtain ⟨k, m⟩ := p
    have weight := weight_eq distinguishes inside known
    have keys : keysOf seq ∪ {k} ∪ (data.cache.toFinset ∪ {k}) =
        insert k (keysOf seq ∪ data.cache.toFinset) := by
      ext j
      simp only [Finset.mem_union, Finset.mem_singleton, Finset.mem_insert]
      tauto
    rw [keysOf_single_some known, keys, direct_of_loaded known, Nat.add_zero]
    by_cases cached : k ∈ data.cache
    · rw [add_cached known cached, Finset.insert_eq_of_mem
        (Finset.mem_union_right _ (List.mem_toFinset.2 cached))]
      exact bounds
    · have more := sum_insert_le f.weight k (keysOf seq ∪ data.cache.toFinset)
      rw [add_new known cached fits]
      change _ ≤ data.numNonlocals + m
      omega

/-- A step of `exec`. -/
structure Executed (f : Function) (done : List Instr) (glb data : Count) (i : Instr)
    (data' glb' : Count) : Prop where
  processed : Processed f (done ++ [i]) glb'
  behind : Behind (done ++ [i]) glb' data'
  more : glb.numNonlocals ≤ glb'.numNonlocals
  bounds : ∀ seq, seq.Sublist done → Bounds f seq data → Bounds f (seq ++ [i]) data'

theorem exec_sound (distinguishes : Distinguishes f) (processed : Processed f done glb)
    (behind : Behind done glb data) (inside : (done ++ [i]).Sublist f.all) :
    Executed f done glb data i (data.exec glb i).1 (data.exec glb i).2 := by
  have fits := processed.fits distinguishes inside
  have next := processed.add distinguishes inside
  unfold Count.exec
  split
  · next localVal =>
      -- nothing happens
      obtain ⟨direct, loaded⟩ := local_uncounted localVal
      have glb_same : glb.add i = glb := by
        rw [add_none loaded fits, direct, Nat.add_zero]
      rw [glb_same] at next
      refine ⟨next, behind.later (List.sublist_append_left _ _) le_rfl, le_rfl,
        fun seq sublist bounds => ?_⟩
      unfold Bounds
      rw [calls_append, calls_single, direct, keysOf_append, keysOf_single_none loaded,
        Finset.union_empty]
      exact bounds
  · have member : i ∈ f.all := inside.subset (List.mem_append_right _ (List.mem_singleton_self i))
    have small := behind.small
    have room : data.numNonlocals + ptrs i < 2 ^ 32 := by omega
    obtain ⟨nodup, cache⟩ := add_cache (s := data) room
    have known : ∀ k ∈ (data.add i).cache, k ∈ keysOf (done ++ [i]) := by
      intro k member
      rw [← List.mem_toFinset, cache, Finset.mem_union, List.mem_toFinset] at member
      rw [keysOf_append, Finset.mem_union]
      exact member.imp_left (behind.cache k)
    refine ⟨next, ⟨known, nodup behind.nodup, Nat.min_le_right _ _⟩, add_more fits,
      fun seq sublist bounds => Nat.le_min.2 ⟨?_, ?_⟩⟩
    · exact bounds.add distinguishes member room
    · -- the function as a whole has at least as much as the path
      have longer : (seq ++ [i]).Sublist (done ++ [i]) := sublist.append_right [i]
      rw [next.num]
      refine Nat.add_le_add (calls_mono longer) (Finset.sum_le_sum_of_subset ?_)
      refine Finset.union_subset (keysOf_mono longer) fun k inside => ?_
      exact known k (List.mem_toFinset.1 inside)

end

section Blocks

variable {f : Function} {hash : SetOrder} {done seq : List Instr} {b t n : Nat}

def gets (f : Function) (seq : List Instr) : Nat := calls seq + ∑ k ∈ keysOf seq, f.weight k

variable {data : Count} {s : DataFlow} {p : Count × Count} {i : Instr}

theorem Bounds.gets (bounds : Bounds f seq data) : gets f seq ≤ data.numNonlocals :=
  le_trans (Nat.add_le_add_left (Finset.sum_le_sum_of_subset Finset.subset_union_left) _) bounds

structure Ran (f : Function) (done rest : List Instr) (paths : List Instr → Prop)
    (s s' : Count × Count × Count) : Prop where
  processed : Processed f (done ++ rest) s'.2.1
  behind : Behind (done ++ rest) s'.2.1 s'.1
  more : s.2.1.numNonlocals ≤ s'.2.1.numNonlocals
  bounds : ∀ seq, paths seq → (seq ++ rest).Sublist (done ++ rest) ∧ Bounds f (seq ++ rest) s'.1
  ret : s.2.2.numNonlocals ≤ s'.2.2.numNonlocals
  returned : ∀ before after, rest = before ++ .ret :: after →
    ∀ seq, paths seq → gets f (seq ++ before) ≤ s'.2.2.numNonlocals

theorem instrs_ran (hash : SetOrder) (distinguishes : Distinguishes f) (rest : List Instr) :
    ∀ (done : List Instr) (paths : List Instr → Prop) (s : Count × Count × Count),
      Processed f done s.2.1 → Behind done s.2.1 s.1 → (done ++ rest).Sublist f.all →
      (∀ seq, paths seq → seq.Sublist done ∧ Bounds f seq s.1) →
      Ran f done rest paths s (rest.foldl (DataFlow.instr hash) s) := by
  induction rest with
  | nil =>
    intro done paths s processed behind inside each
    refine ⟨(List.append_nil done).symm ▸ processed, (List.append_nil done).symm ▸ behind,
      le_rfl, fun seq path => ?_, le_rfl, fun before after same => ?_⟩
    · rw [List.append_nil, List.append_nil]
      exact each seq path
    · exact absurd same (by simp)
  | cons i rest ih =>
    intro done paths s processed behind inside each
    have first : (done ++ [i]).Sublist f.all :=
      ((List.sublist_append_left (done ++ [i]) rest).trans (by rw [List.append_assoc]; rfl)).trans
        inside
    obtain ⟨data, glb, ret⟩ := s
    have step := exec_sound distinguishes processed behind first
    have shape : ∀ l : List Instr, l ++ i :: rest = l ++ [i] ++ rest := by simp
    rw [shape] at inside
    -- the paths to the instructions after this one
    have later := ih (done ++ [i]) (fun seq => ∃ p, paths p ∧ seq = p ++ [i])
      (DataFlow.instr hash (data, glb, ret) i) step.processed step.behind inside (by
        rintro _ ⟨p, path, rfl⟩
        obtain ⟨sublist, bounds⟩ := each p path
        exact ⟨sublist.append_right [i], step.bounds p sublist bounds⟩)
    have kept : ret.numNonlocals ≤ (DataFlow.instr hash (data, glb, ret) i).2.2.numNonlocals := by
      unfold DataFlow.instr
      dsimp only
      split
      · exact Nat.le_max_left _ _
      · exact le_rfl
    rw [List.foldl_cons]
    refine ⟨?_, ?_, step.more.trans later.more, fun seq path => ?_, kept.trans later.ret,
      fun before after same seq path => ?_⟩
    · rw [shape]
      exact later.processed
    · rw [shape]
      exact later.behind
    · rw [shape, shape]
      exact later.bounds _ ⟨seq, path, rfl⟩
    · cases before with
      | nil =>
        obtain ⟨rfl, rfl⟩ := List.cons_eq_cons.1 same
        obtain ⟨sublist, bounds⟩ := each seq path
        have got := (step.bounds seq sublist bounds).gets
        have same : gets f (seq ++ [.ret]) = gets f seq := by
          rw [gets, gets, calls_append, keysOf_append, keysOf_single_none rfl, Finset.union_empty]
          rfl
        rw [List.append_nil, ← same]
        exact (got.trans (Nat.le_max_right _ _)).trans later.ret
      | cons first before =>
        obtain ⟨rfl, split⟩ := List.cons_eq_cons.1 same
        rw [show seq ++ i :: before = seq ++ [i] ++ before by simp]
        exact later.returned before after split _ ⟨seq, path, rfl⟩

/-- The data of the blocks from `n` on, and the paths that have reached them. -/
structure Flows (f : Function) (done : List Instr) (pending : Nat → List Instr → Prop) (n : Nat)
    (s : DataFlow) : Prop where
  processed : Processed f done s.glb
  behind : ∀ t, n ≤ t → ∀ d, s.bbData t = some d → Behind done s.glb d
  bounds : ∀ t, n ≤ t → ∀ seq, pending t seq →
    seq.Sublist done ∧ ∃ d, s.bbData t = some d ∧ Bounds f seq d

def SafeMerges (hash : SetOrder) (f : Function) (s : DataFlow) : Prop :=
  ∀ p ∈ s.merges, Count.SafeMerge hash.order f.weight p.1 p.2

theorem Bounds.merge {x merged : Count} (bounds : Bounds f seq x)
    (excess : x.numNonlocals + ∑ k ∈ merged.cache.toFinset \ x.cache.toFinset, f.weight k ≤
      merged.numNonlocals) : Bounds f seq merged := by
  unfold Bounds at bounds ⊢
  have subset : keysOf seq ∪ merged.cache.toFinset ⊆
      (keysOf seq ∪ x.cache.toFinset) ∪ (merged.cache.toFinset \ x.cache.toFinset) := by
    intro k member
    simp only [Finset.mem_union, Finset.mem_sdiff] at member ⊢
    tauto
  have sum : ∑ k ∈ keysOf seq ∪ merged.cache.toFinset, f.weight k ≤
      ∑ k ∈ keysOf seq ∪ x.cache.toFinset, f.weight k +
        ∑ k ∈ merged.cache.toFinset \ x.cache.toFinset, f.weight k := by
    refine (Finset.sum_le_sum_of_subset subset).trans ?_
    rw [← Finset.sum_union_inter]
    exact Nat.le_add_right _ _
  omega

theorem merges_target (member : p ∈ s.merges) : p ∈ (DataFlow.target hash data s t).merges := by
  unfold DataFlow.target
  split
  · exact member
  · exact List.mem_cons_of_mem _ member

theorem merges_targets (ts : List Nat) :
    ∀ s : DataFlow, p ∈ s.merges → p ∈ (ts.foldl (DataFlow.target hash data) s).merges := by
  induction ts with
  | nil => exact fun s member => member
  | cons t ts ih => exact fun s member => ih _ (merges_target member)

theorem target_none (known : s.bbData t = none) : DataFlow.target hash data s t =
      { s with bbData := Function.update s.bbData t (some data) } := by
  rw [DataFlow.target, known]

theorem target_some {old : Count} (known : s.bbData t = some old) : DataFlow.target hash data s t =
      { s with
        bbData := Function.update s.bbData t (some (old.merge hash.order data))
        merges := (old, data) :: s.merges } := by
  rw [DataFlow.target, known]

theorem Flows.target {pending : Nat → List Instr → Prop} {paths : List Instr → Prop}
    (flows : Flows f done pending n s) (behind : Behind done s.glb data)
    (each : ∀ seq, paths seq → seq.Sublist done ∧ Bounds f seq data)
    (safe : SafeMerges hash f (DataFlow.target hash data s t)) (later : n ≤ t) :
    Flows f done (fun u seq => pending u seq ∨ u = t ∧ paths seq) n
      (DataFlow.target hash data s t) := by
  cases known : s.bbData t with
  | none =>
    rw [target_none known]
    refine ⟨flows.processed, fun u beyond d found => ?_, fun u beyond seq path => ?_⟩
    · by_cases same : u = t
      · subst same
        have found := (Function.update_self _ _ _).symm.trans found
        cases found
        exact behind
      · exact flows.behind u beyond d ((Function.update_of_ne same _ _).symm.trans found)
    · rcases path with old | ⟨rfl, new⟩
      · obtain ⟨sublist, d, found, bounds⟩ := flows.bounds u beyond seq old
        have other : u ≠ t := fun same => by
          rw [same, known] at found
          cases found
        exact ⟨sublist, d, (Function.update_of_ne other _ _).trans found, bounds⟩
      · exact ⟨(each seq new).1, data, Function.update_self _ _ _, (each seq new).2⟩
  | some old =>
    rw [target_some known] at safe ⊢
    have ready := flows.behind t later old known
    have excess := Count.merge_excess hash.perm ready.nodup behind.nodup
      (safe (old, data) List.mem_cons_self)
    have merged : Behind done s.glb (old.merge hash.order data) := by
      refine ⟨fun k member => ?_, Count.merge_nodup hash.perm ready.nodup,
        Nat.max_le.2 ⟨ready.small, behind.small⟩⟩
      rcases Count.mem_merge hash.perm behind.nodup member with left | right
      · exact ready.cache k left
      · exact behind.cache k right
    refine ⟨flows.processed, fun u beyond d found => ?_, fun u beyond seq path => ?_⟩
    · by_cases same : u = t
      · subst same
        have found := (Function.update_self _ _ _).symm.trans found
        cases found
        exact merged
      · exact flows.behind u beyond d ((Function.update_of_ne same _ _).symm.trans found)
    · rcases path with before | ⟨rfl, new⟩
      · obtain ⟨sublist, d, found, bounds⟩ := flows.bounds u beyond seq before
        by_cases same : u = t
        · subst same
          rw [known] at found
          cases found
          exact ⟨sublist, _, Function.update_self _ _ _, bounds.merge (excess old (.inl rfl))⟩
        · exact ⟨sublist, d, (Function.update_of_ne same _ _).trans found, bounds⟩
      · exact ⟨(each seq new).1, _, Function.update_self _ _ _,
          (each seq new).2.merge (excess data (.inr rfl))⟩

theorem glb_target (hash : SetOrder) (data : Count) (s : DataFlow) (t : Nat) :
    (DataFlow.target hash data s t).glb = s.glb ∧ (DataFlow.target hash data s t).ret = s.ret := by
  unfold DataFlow.target
  split <;> exact ⟨rfl, rfl⟩

theorem Flows.targets (paths : List Instr → Prop)
    (each : ∀ seq, paths seq → seq.Sublist done ∧ Bounds f seq data) (ts : List Nat) :
    ∀ (pending : Nat → List Instr → Prop) (s : DataFlow), Flows f done pending n s →
      Behind done s.glb data → SafeMerges hash f (ts.foldl (DataFlow.target hash data) s) →
      (∀ t ∈ ts, n ≤ t) →
      Flows f done (fun u seq => pending u seq ∨ u ∈ ts ∧ paths seq) n
          (ts.foldl (DataFlow.target hash data) s) ∧
        (ts.foldl (DataFlow.target hash data) s).ret = s.ret := by
  induction ts with
  | nil =>
    intro pending s flows _ _ _
    refine ⟨⟨flows.processed, flows.behind, fun u beyond seq path => ?_⟩, rfl⟩
    exact flows.bounds u beyond seq (path.resolve_right fun none =>
      List.not_mem_nil none.1)
  | cons t ts ih =>
    intro pending s flows behind safe later
    have first := flows.target behind each (fun p member => safe p (merges_targets ts _ member))
      (later t List.mem_cons_self)
    obtain ⟨glb, ret⟩ := glb_target hash data s t
    obtain ⟨rest, ret'⟩ := ih _ _ first (glb ▸ behind) safe fun u member =>
      later u (List.mem_cons_of_mem t member)
    refine ⟨⟨rest.processed, rest.behind, fun u beyond seq path => ?_⟩, ret'.trans ret⟩
    refine rest.bounds u beyond seq ?_
    rcases path with old | ⟨member, new⟩
    · exact .inl (.inl old)
    · rcases List.mem_cons.1 member with rfl | inside
      · exact .inl (.inr ⟨rfl, new⟩)
      · exact .inr ⟨inside, new⟩

/-! ## The run -/

theorem lt_of_mem_targets (jump : t ∈ f.targets b) : b < t ∧ t < f.blocks.length := by
  unfold Function.targets at jump
  cases known : f.blocks[b]? with
  | none =>
    rw [known] at jump
    exact absurd jump List.not_mem_nil
  | some block =>
    rw [known] at jump
    exact f.sorted b block known t jump

/-- The paths to a block from the blocks below `n`. -/
def Before (f : Function) (n t : Nat) (seq : List Instr) : Prop :=
  t = 0 ∧ seq = [] ∨
    ∃ b < n, ∃ start, Arrives f b start ∧ t ∈ f.targets b ∧ seq = start ++ f.instrs b

theorem before_of_arrives (arrives : Arrives f n seq) : Before f n n seq := by
  cases arrives with
  | entry => exact .inl ⟨rfl, rfl⟩
  | @jump b _ start before jump =>
    exact .inr ⟨b, (lt_of_mem_targets jump).1, start, before, jump, rfl⟩

/-- The invariant of the loop over the blocks. -/
structure Reached (f : Function) (n : Nat) (s : DataFlow) : Prop where
  flows : ∃ done, done.Sublist ((List.range n).flatMap f.instrs) ∧ Flows f done (Before f n) n s
  returned : ∀ b < n, ∀ start before after, Arrives f b start →
    f.instrs b = before ++ .ret :: after → gets f (start ++ before) ≤ s.ret.numNonlocals

theorem range_sublist_all (inside : n ≤ f.blocks.length) :
    ((List.range n).flatMap f.instrs).Sublist f.all := by
  have length : f.blocks.length = n + (f.blocks.length - n) := by omega
  rw [Function.all, length, List.range_add, List.flatMap_append]
  exact List.sublist_append_left _ _

theorem merges_block (member : p ∈ s.merges) : p ∈ (DataFlow.block hash f s b).merges := by
  unfold DataFlow.block
  split
  · exact member
  · exact merges_targets _ _ member

theorem Reached.block (distinguishes : Distinguishes f) (inside : n < f.blocks.length)
    (reached : Reached f n s) (safe : SafeMerges hash f (DataFlow.block hash f s n)) :
    Reached f (n + 1) (DataFlow.block hash f s n) := by
  obtain ⟨⟨done, sublist, flows⟩, returned⟩ := reached
  have grown : (List.range (n + 1)).flatMap f.instrs =
      (List.range n).flatMap f.instrs ++ f.instrs n := by
    rw [List.range_succ, List.flatMap_append, List.flatMap_singleton]
  unfold DataFlow.block at safe ⊢
  cases known : s.bbData n with
  | none =>
    -- no path gets here
    have unreachable : ∀ start, ¬Arrives f n start := fun start arrives => by
      obtain ⟨-, d, found, -⟩ := flows.bounds n le_rfl start (before_of_arrives arrives)
      rw [known] at found
      cases found
    refine ⟨⟨done, ?_, flows.processed, fun t beyond => flows.behind t (by omega),
      fun t beyond seq path => flows.bounds t (by omega) seq ?_⟩,
      fun b below start before after arrives => ?_⟩
    · rw [grown]
      exact sublist.trans (List.sublist_append_left _ _)
    · rcases path with first | ⟨b, below, start, arrives, jump, rfl⟩
      · exact .inl first
      · rcases Nat.lt_succ_iff_lt_or_eq.1 below with less | rfl
        · exact .inr ⟨b, less, start, arrives, jump, rfl⟩
        · exact absurd arrives (unreachable start)
    · rcases Nat.lt_succ_iff_lt_or_eq.1 below with less | rfl
      · exact returned b less start before after arrives
      · exact absurd arrives (unreachable start)
  | some data =>
    rw [known] at safe
    have whole : (done ++ f.instrs n).Sublist f.all :=
      ((sublist.append_right (f.instrs n)).trans (grown ▸ .refl _)).trans (range_sublist_all inside)
    have ran := instrs_ran hash distinguishes (f.instrs n) done (Arrives f n)
      (data, s.glb, s.ret) flows.processed (flows.behind n le_rfl data known) whole
      fun seq arrives => by
        obtain ⟨sublist, d, found, bounds⟩ :=
          flows.bounds n le_rfl seq (before_of_arrives arrives)
        rw [known] at found
        cases found
        exact ⟨sublist, bounds⟩
    dsimp only at safe ⊢
    generalize (f.instrs n).foldl (DataFlow.instr hash) (data, s.glb, s.ret) = after at ran safe ⊢
    obtain ⟨data', glb', ret'⟩ := after
    -- the other data, after the block
    have middle : Flows f (done ++ f.instrs n) (Before f n) (n + 1)
        { s with
          bbData := Function.update s.bbData n (some data')
          glb := glb'
          ret := ret' } := by
      refine ⟨ran.processed, fun t beyond d found => ?_, fun t beyond seq path => ?_⟩
      · have other : t ≠ n := by omega
        have found := (Function.update_of_ne other _ _).symm.trans found
        exact (flows.behind t (by omega) d found).later (List.sublist_append_left _ _) ran.more
      · obtain ⟨sublist, d, found, bounds⟩ := flows.bounds t (by omega) seq path
        have other : t ≠ n := by omega
        exact ⟨sublist.trans (List.sublist_append_left _ _), d,
          (Function.update_of_ne other _ _).trans found, bounds⟩
    obtain ⟨final, ret⟩ := middle.targets
      (fun seq => ∃ start, Arrives f n start ∧ seq = start ++ f.instrs n)
      (fun seq path => by
        obtain ⟨start, arrives, rfl⟩ := path
        exact ran.bounds start arrives)
      (f.targets n) _ _ ran.behind safe fun t jump => (lt_of_mem_targets jump).1
    refine ⟨⟨done ++ f.instrs n, ?_, final.processed, final.behind,
      fun t beyond seq path => final.bounds t beyond seq ?_⟩,
      fun b below start before after arrives shape => ?_⟩
    · rw [grown]
      exact sublist.append_right _
    · rcases path with first | ⟨b, below, start, arrives, jump, rfl⟩
      · exact .inl (.inl first)
      · rcases Nat.lt_succ_iff_lt_or_eq.1 below with less | rfl
        · exact .inl (.inr ⟨b, less, start, arrives, jump, rfl⟩)
        · exact .inr ⟨jump, start, arrives, rfl⟩
    · rw [ret]
      rcases Nat.lt_succ_iff_lt_or_eq.1 below with less | rfl
      · exact (returned b less start before after arrives shape).trans ran.ret
      · exact ran.returned before after shape start arrives

theorem reached_start (f : Function) : Reached f 0 DataFlow.start := by
  refine ⟨⟨[], List.nil_sublist _, ⟨⟨List.nil_sublist _, rfl, fun k => ?_, le_rfl⟩,
    fun t _ d found => ?_, fun t _ seq path => ?_⟩⟩,
    fun b below => absurd below (Nat.not_lt_zero b)⟩
  · exact Iff.rfl
  · by_cases first : t = 0
    · subst first
      cases found
      exact ⟨List.forall_mem_nil _, List.nodup_nil, le_rfl⟩
    · have none : DataFlow.start.bbData t = none := by
        simp [DataFlow.start, first]
      rw [none] at found
      cases found
  · rcases path with ⟨rfl, rfl⟩ | ⟨b, below, -⟩
    · exact ⟨List.Sublist.refl _, .empty, rfl, le_rfl⟩
    · exact absurd below (Nat.not_lt_zero b)

theorem run_reached (distinguishes : Distinguishes f) (n : Nat) : n ≤ f.blocks.length →
      SafeMerges hash f ((List.range n).foldl (DataFlow.block hash f) DataFlow.start) →
      Reached f n ((List.range n).foldl (DataFlow.block hash f) DataFlow.start) := by
  induction n with
  | zero => exact fun _ _ => reached_start f
  | succ n ih =>
    intro inside safe
    rw [List.range_succ, List.foldl_append] at safe ⊢
    exact (ih (by omega) fun p member => safe p (merges_block member)).block
      distinguishes inside safe

theorem card_loaded_le (distinguishes : Distinguishes f) (inside : ∀ i ∈ seq, i ∈ f.all)
    (address : ∀ i ∈ seq, ∀ j ∈ seq, ∀ k m n, Count.loaded i = some (k, m) →
      Count.loaded j = some (k, n) → ∀ env, ∀ a ∈ loadedAt env j, a ∈ loadedAt env i)
    (env : Nat → BitVec 64) :
    (seq.flatMap (loadedAt env)).toFinset.card ≤ ∑ k ∈ keysOf seq, f.weight k := by
  -- one load for each key
  have first : ∀ k, ∃ i, k ∈ keysOf seq → i ∈ seq ∧ Count.loaded i = some (k, f.weight k) := by
    intro k
    by_cases member : k ∈ keysOf seq
    · obtain ⟨i, present, m, known⟩ := mem_keysOf.1 member
      exact ⟨i, fun _ => ⟨present, weight_eq distinguishes (inside i present) known ▸ known⟩⟩
    · exact ⟨.ret, fun contra => absurd contra member⟩
  choose load chosen using first
  have size : ∀ i k m, Count.loaded i = some (k, m) → (loadedAt env i).toFinset.card ≤ m := by
    intro i k m known
    refine (List.toFinset_card_le _).trans ?_
    unfold Count.loaded at known
    split at known
    · split at known
      · next nonlocal =>
          cases known
          rw [loadedAt, if_pos nonlocal, List.length_map]
      · cases known
    · cases known
  have covered : (seq.flatMap (loadedAt env)).toFinset ⊆
      (keysOf seq).biUnion fun k => (loadedAt env (load k)).toFinset := by
    intro a member
    rw [List.mem_toFinset] at member
    obtain ⟨j, present, loads⟩ := List.mem_flatMap.1 member
    have known : ∃ k m, Count.loaded j = some (k, m) := by
      unfold loadedAt at loads
      split at loads
      · split at loads
        · next nonlocal => exact ⟨_, _, if_pos nonlocal⟩
        · exact absurd loads List.not_mem_nil
      · exact absurd loads List.not_mem_nil
    obtain ⟨k, m, known⟩ := known
    have key := mem_keysOf.2 ⟨j, present, m, known⟩
    obtain ⟨present', known'⟩ := chosen k key
    refine Finset.mem_biUnion.2 ⟨k, key, List.mem_toFinset.2 ?_⟩
    exact address (load k) present' j present k _ m known' known env a loads
  refine (Finset.card_le_card covered).trans (Finset.card_biUnion_le.trans ?_)
  exact Finset.sum_le_sum fun k key => size (load k) k _ (chosen k key).2

theorem mem_all_of_arrives (arrives : Arrives f b seq) (member : i ∈ seq) : i ∈ f.all := by
  induction arrives with
  | entry => exact absurd member List.not_mem_nil
  | @jump p t seq _ jump ih =>
    rcases List.mem_append.1 member with old | new
    · exact ih old
    · exact List.mem_flatMap.2 ⟨p, List.mem_range.2
        ((lt_of_mem_targets jump).1.trans (lt_of_mem_targets jump).2), new⟩

theorem lt_of_mem_instrs (member : i ∈ f.instrs b) : b < f.blocks.length := by
  by_contra outside
  have none : f.blocks[b]? = none := List.getElem?_eq_none_iff.2 (not_lt.1 outside)
  rw [Function.instrs, none] at member
  exact absurd member List.not_mem_nil

theorem mem_all_of_returns (returns : Returns f seq) (member : i ∈ seq) : i ∈ f.all := by
  obtain ⟨b, start, before, after, arrives, shape, rfl⟩ := returns
  rcases List.mem_append.1 member with old | new
  · exact mem_all_of_arrives arrives old
  · have present : i ∈ f.instrs b := shape ▸ List.mem_append_left _ new
    exact List.mem_flatMap.2 ⟨b, List.mem_range.2 (lt_of_mem_instrs present), present⟩

end Blocks

/-- The count is an upper bound if keys stand for places and no merge keeps a wrong key. -/
theorem numNonlocals_upperBound
    (hash : SetOrder) (f : Function) (distinguishes : Distinguishes f)
    (safe : SafeMerges hash f (DataFlow.run hash f)) : UpperBound hash f := by
  intro seq returns env
  have address := distinguishes.address seq returns
  obtain ⟨b, start, before, after, arrives, shape, rfl⟩ := returns
  have below : b < f.blocks.length :=
    lt_of_mem_instrs (i := .ret) (shape ▸ List.mem_append_right _ List.mem_cons_self)
  have reached := run_reached distinguishes f.blocks.length le_rfl safe
  have bound := reached.returned b below start before after arrives shape
  exact le_trans (Nat.add_le_add_left (card_loaded_le distinguishes
    (fun i member => mem_all_of_returns ⟨b, start, before, after, arrives, shape, rfl⟩ member)
    address env) _) bound

def insertionOrder : SetOrder where
  order l := l
  perm l := .refl l

def diamond : Function where
  blocks := [⟨[.value (.call 1 false false 1)], [1, 2]⟩, ⟨[.value (.load 2 (.other 0) [0])], [3]⟩,
    ⟨[], [3]⟩, ⟨[.value (.load 3 (.other 0) [0]), .ret], []⟩]
  sorted b block known t jump := by
    have four : b = 0 ∨ b = 1 ∨ b = 2 ∨ b = 3 := by
      have short := (List.getElem?_eq_some_iff.1 known).1
      simp only [List.length_cons, List.length_nil] at short
      omega
    rcases four with rfl | rfl | rfl | rfl
    all_goals
      cases known
      revert jump
      simp
    all_goals omega

theorem numNonlocals_upperBound_diamond : UpperBound insertionOrder diamond := by
  have all : diamond.all = [.value (.call 1 false false 1), .value (.load 2 (.other 0) [0]),
    .value (.load 3 (.other 0) [0]), .ret] := rfl
  have loads : ∀ i ∈ diamond.all, ∀ p, Count.loaded i = some p → ∃ id,
      i = .value (.load id (.other 0) [0]) := by
    intro i member p known
    rw [all] at member
    simp only [List.mem_cons, List.not_mem_nil, or_false] at member
    rcases member with rfl | rfl | rfl | rfl
    · cases known
    · exact ⟨2, rfl⟩
    · exact ⟨3, rfl⟩
    · cases known
  refine numNonlocals_upperBound insertionOrder diamond ⟨?_, ?_, by decide⟩ ?_
  · intro i left j right k m n known known'
    obtain ⟨id, rfl⟩ := loads i left _ known
    obtain ⟨id', rfl⟩ := loads j right _ known'
    cases known
    cases known'
    rfl
  · intro seq returns i left j right k m n known known' env a member
    obtain ⟨id, rfl⟩ := loads i (mem_all_of_returns returns left) _ known
    obtain ⟨id', rfl⟩ := loads j (mem_all_of_returns returns right) _ known'
    exact member
  · intro p member
    have one : (DataFlow.run insertionOrder diamond).merges = [(⟨2, [(0, 0)]⟩, ⟨1, []⟩)] := by
      decide
    rw [one] at member
    cases List.mem_singleton.1 member
    unfold Count.SafeMerge
    decide

/-! ## Where it fails -/

/-- `%p[i]` for the pointer `%p` and an `i32`. -/
def element (id index : Nat) : Val := .gep id (.other 0) [(8, .int index 32)]

/-- Loads two elements of an array of pointers. -/
def twoElements : Function where
  blocks := [⟨[.value (.load 5 (element 3 1) [0]), .value (.load 6 (element 4 2) [0]), .ret], []⟩]
  sorted b block known t jump := by
    cases b with
    | zero =>
      cases known
      exact absurd jump List.not_mem_nil
    | succ b => cases known

/-- Two indices have one maximum, so that the second load is not counted. -/
theorem upperBound_variable_indices : ¬UpperBound insertionOrder twoElements := by
  intro bound
  have path : Returns twoElements
      [.value (.load 5 (element 3 1) [0]), .value (.load 6 (element 4 2) [0])] :=
    ⟨0, [], _, [], .entry, rfl, rfl⟩
  have contra := bound _ path fun id => BitVec.ofNat 64 id
  exact absurd contra (by decide)

end AliveNext.Tools.Nonlocals
