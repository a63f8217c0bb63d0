import Mathlib

/-!
# Which bytes of a block were stored to

`Memory` (`ir/memory.cpp`) keeps, for every block that is not local, the offsets
that were stored to, up to a bound, or a flag instead of them.  `refined` uses
them to compare only these offsets of the source and the target memory.

The SMT terms appear here by their meaning in a model: a block is a function
from offsets to bytes for every model, and a condition comes with what the
simplifier knows of it.  Only offsets and stored bytes are terms, since the code
compares them as terms.
-/

namespace AliveNext.IR.Stored

section

variable (Ω T V Byte : Type) (w : Nat)

/-- The terms for offsets and bytes, with their values in a model. -/
structure Terms where
  eval : T → Ω → BitVec w
  add : T → Nat → T
  eval_add : ∀ (t : T) (n : Nat) (ω : Ω), eval (add t n) ω = eval t ω + BitVec.ofNat w n
  zero : T
  byte : V → Ω → Byte

/-- A condition, and its value if the simplifier knows it. -/
structure Cond where
  holds : Ω → Bool
  known : Option Bool
  sound : ∀ (b : Bool), known = some b → ∀ (ω : Ω), holds ω = b

abbrev Content := Ω → BitVec w → Byte

end

variable {Ω T V Byte : Type} {w : Nat}

def Cond.isTrue (c : Cond Ω) : Bool :=
  c.known = some true

def Cond.isFalse (c : Cond Ω) : Bool :=
  c.known = some false

def mkBlockIf (c : Cond Ω) (thn els : Content Ω Byte w) : Content Ω Byte w :=
  if c.isTrue then thn
  else if c.isFalse then els
  else fun ω => if c.holds ω then thn ω else els ω

/-- The numbering of the blocks that are not local (`ir/globals.h`), and the
bytes of memory in one byte of the encoding. -/
structure Config where
  unit : Nat
  unit_positive : 0 < unit
  numNonlocals : Nat
  numNonlocalsSrc : Nat
  numConstsSrc : Nat
  numInaccessiblememonlyFns : Nat
  hasWriteFncall : Bool
  hasNullBlock : Bool
  nullIsDereferenceable : Bool

namespace Config

variable (cfg : Config)

def isConstglb (bid : Nat) (srcOnly : Bool) : Bool :=
  (cfg.hasNullBlock.toNat ≤ bid && bid < cfg.numConstsSrc + cfg.hasNullBlock.toNat) ||
    (!srcOnly && cfg.numNonlocalsSrc ≤ bid && bid < cfg.numNonlocals)

/-- `get_fncallmem_bid`. -/
def fncallmemBid : Nat :=
  cfg.numNonlocalsSrc - cfg.numInaccessiblememonlyFns - cfg.hasWriteFncall.toNat

def isFncallMem (bid : Nat) : Bool :=
  (cfg.hasWriteFncall || cfg.numInaccessiblememonlyFns ≠ 0) &&
    cfg.fncallmemBid ≤ bid && bid < cfg.numNonlocalsSrc

def alwaysNoread (bid : Nat) (isFncallAccessible : Bool) : Bool :=
  (!cfg.nullIsDereferenceable && bid < cfg.hasNullBlock.toNat) ||
    (!isFncallAccessible && cfg.isFncallMem bid)

def alwaysNowrite (bid : Nat) (srcOnly isFncallAccessible : Bool) : Bool :=
  cfg.alwaysNoread bid isFncallAccessible || cfg.isConstglb bid srcOnly

/-- The blocks that a call may write from `Memory::setState`. -/
def writtenByCalls (bid : Nat) : Bool :=
  bid < cfg.numNonlocalsSrc - cfg.numInaccessiblememonlyFns && !cfg.alwaysNowrite bid true true

end Config

/-- `stored_pointers[bid]`: the offsets, or the flag. -/
structure Record (T : Type) where
  first : Finset T
  second : Bool

def maxStoredPtrsSet : Nat :=
  3

/-- The part of `Memory` that holds the contents of the blocks and what was
stored to. -/
structure Memory (Ω T Byte : Type) (w : Nat) where
  localBlockVal : Nat → Content Ω Byte w
  nonLocalBlockVal : Nat → Content Ω Byte w
  storedPointers : Nat → Record T

/-- `set.first.clear(); set.second = true`. -/
def Record.full (T : Type) : Record T :=
  ⟨∅, true⟩

section

variable [DecidableEq T] [DecidableEq V] (terms : Terms Ω T V Byte w) (cfg : Config)

def Record.recordStoredPointer (set : Record T) (offset : T) : Record T :=
  if set.second then set
  else if maxStoredPtrsSet < (insert offset set.first).card then Record.full T
  else ⟨insert offset set.first, false⟩

/-- What `Memory::access` passes on for one block: the condition under which the
pointer denotes the block, the offset, and the size if it is constant. -/
structure Access (Ω T : Type) where
  isLocal : Bool
  bid : Nat
  cond : Cond Ω
  offset : T
  blockSize : Option Nat

/-- The writes of `Memory::store`, without those that the default already
holds. -/
def storeBytes (offset : T) (skip : Option V) : List (Nat × V) → Content Ω Byte w → Content Ω Byte w
  | [], mem => mem
  | (idx, val) :: data, mem =>
    if skip = some val then storeBytes offset skip data mem
    else storeBytes offset skip data fun ω =>
      Function.update (mem ω) (terms.eval (terms.add offset (idx / cfg.unit)) ω) (terms.byte val ω)

/-- The new contents of a block in `Memory::store`. -/
def storedVal (access : Access Ω T) (data : List (Nat × V)) (old : Content Ω Byte w) :
    Content Ω Byte w :=
  match data with
  | [] => old
  | (_, first) :: _ =>
    let mem := if access.blockSize = some (data.length * cfg.unit) then
        storeBytes terms cfg access.offset (some first) data fun ω _ => terms.byte first ω
      else storeBytes terms cfg access.offset none data old
    mkBlockIf access.cond mem old

/-- The function that `Memory::store` passes to `access`. -/
def storeBlock (data : List (Nat × V)) (m : Memory Ω T Byte w) (access : Access Ω T) :
    Memory Ω T Byte w :=
  if access.isLocal then
    { m with
      localBlockVal := Function.update m.localBlockVal access.bid
        (storedVal terms cfg access data (m.localBlockVal access.bid)) }
  else
    { m with
      nonLocalBlockVal := Function.update m.nonLocalBlockVal access.bid
        (storedVal terms cfg access data (m.nonLocalBlockVal access.bid))
      storedPointers := Function.update m.storedPointers access.bid
        (data.foldl
          (fun set d => set.recordStoredPointer (terms.add access.offset (d.1 / cfg.unit)))
          (m.storedPointers access.bid)) }

/-- `Memory::store` of bytes. -/
def Memory.store (m : Memory Ω T Byte w) (accesses : List (Access Ω T))
    (data : List (Nat × V)) : Memory Ω T Byte w :=
  accesses.foldl (storeBlock terms cfg data) m

structure LambdaAccess (Ω T : Type) where
  isLocal : Bool
  bid : Nat
  cond : Cond Ω
  wholeBlock : Bool
  start : T
  stop : T

/-- The new contents of a block in `Memory::storeLambda`. -/
def lambdaVal (access : LambdaAccess Ω T) (val old : Content Ω Byte w) : Content Ω Byte w :=
  if access.wholeBlock then mkBlockIf access.cond val old
  else fun ω offset =>
    if access.cond.holds ω && terms.eval access.start ω ≤ offset &&
        offset < terms.eval access.stop ω then val ω offset
    else old ω offset

/-- The function that `Memory::storeLambda` passes to `access`. -/
def storeLambdaBlock (val : Content Ω Byte w) (m : Memory Ω T Byte w)
    (access : LambdaAccess Ω T) : Memory Ω T Byte w :=
  if access.isLocal then
    { m with
      localBlockVal := Function.update m.localBlockVal access.bid
        (lambdaVal terms access val (m.localBlockVal access.bid)) }
  else
    { m with
      nonLocalBlockVal := Function.update m.nonLocalBlockVal access.bid
        (lambdaVal terms access val (m.nonLocalBlockVal access.bid))
      storedPointers := Function.update m.storedPointers access.bid (Record.full T) }

def Memory.storeLambda (m : Memory Ω T Byte w) (accesses : List (LambdaAccess Ω T))
    (val : Content Ω Byte w) : Memory Ω T Byte w :=
  accesses.foldl (storeLambdaBlock terms val) m

/-- The contents that `Memory::copy` reads: those of the block that the source
pointer denotes, poison if it denotes none. -/
def copiedVal (m : Memory Ω T Byte w) (poison : Byte) (dstLocal : Bool) (dst : Nat)
    (sources : List (Access Ω T)) : Content Ω Byte w := fun ω =>
  match sources.find? fun a => !(a.isLocal == dstLocal && a.bid == dst) && a.cond.holds ω with
  | none => fun _ => poison
  | some a => if a.isLocal then m.localBlockVal a.bid ω else m.nonLocalBlockVal a.bid ω

def Memory.copy (m : Memory Ω T Byte w) (poison : Byte) (dstLocal : Bool) (dst : Nat)
    (sources : List (Access Ω T)) : Memory Ω T Byte w :=
  if dstLocal then
    { m with
      localBlockVal := Function.update m.localBlockVal dst
        (copiedVal m poison dstLocal dst sources) }
  else
    { m with
      nonLocalBlockVal := Function.update m.nonLocalBlockVal dst
        (copiedVal m poison dstLocal dst sources)
      storedPointers := Function.update m.storedPointers dst
        ((m.storedPointers dst).recordStoredPointer terms.zero) }

/-- What a call does to memory: the conditions that `Memory::setState` computes
from the attributes and the `CallState`, and the new contents. -/
structure Call (Ω Byte : Type) (w : Nat) where
  canWriteSomething : Cond Ω
  onlyWriteInaccess : Cond Ω
  writesInaccess : Cond Ω
  inaccessibleBid : Nat
  inaccessibleVal : Content Ω Byte w
  modifies : Nat → Cond Ω
  newVal : Nat → Content Ω Byte w

def Call.inaccessibleBlock (call : Call Ω Byte w) : Nat :=
  cfg.numNonlocalsSrc - cfg.numInaccessiblememonlyFns + call.inaccessibleBid

/-- The contents after the first part of `Memory::setState`. -/
def Call.havocInaccessible (call : Call Ω Byte w) (val : Nat → Content Ω Byte w) :
    Nat → Content Ω Byte w :=
  if call.onlyWriteInaccess.isFalse then val
  else Function.update val (call.inaccessibleBlock cfg)
    (mkBlockIf call.writesInaccess call.inaccessibleVal (val (call.inaccessibleBlock cfg)))

/-- The contents after the loop of `Memory::setState`, which looks at each block
once. -/
def Call.havoc (call : Call Ω Byte w) (val : Nat → Content Ω Byte w) :
    Nat → Content Ω Byte w := fun bid =>
  if !call.onlyWriteInaccess.isTrue && cfg.writtenByCalls bid then
    mkBlockIf (call.modifies bid) (call.newVal bid) (val bid)
  else val bid

def Call.reset (call : Call Ω Byte w) (stored : Nat → Record T) : Nat → Record T := fun bid =>
  if !call.onlyWriteInaccess.isTrue && cfg.writtenByCalls bid && !(call.modifies bid).isFalse then
    ⟨∅, false⟩
  else stored bid

def Call.overwrites (call : Call Ω Byte w) (bid : Nat) : Option (Content Ω Byte w) :=
  if !call.canWriteSomething.isFalse && !call.onlyWriteInaccess.isTrue &&
      cfg.writtenByCalls bid && (call.modifies bid).isTrue then some (call.newVal bid)
  else none

def Memory.setState (m : Memory Ω T Byte w) (call : Call Ω Byte w) : Memory Ω T Byte w :=
  if call.canWriteSomething.isFalse then m
  else
    let stored := call.reset cfg m.storedPointers
    { m with
      nonLocalBlockVal := call.havoc cfg (call.havocInaccessible cfg m.nonLocalBlockVal)
      storedPointers := Function.update stored cfg.fncallmemBid
        { stored cfg.fncallmemBid with second := true } }

/-- The merge of two records in `Memory::mkIf`. -/
def Record.merge (set1 set2 : Record T) : Record T :=
  if set1.second || set2.second || maxStoredPtrsSet < (set1.first ∪ set2.first).card then
    Record.full T
  else ⟨set1.first ∪ set2.first, false⟩

def Memory.mkIf (cond : Cond Ω) (thn els : Memory Ω T Byte w) : Memory Ω T Byte w where
  localBlockVal bid := mkBlockIf cond (thn.localBlockVal bid) (els.localBlockVal bid)
  nonLocalBlockVal bid :=
    if cfg.alwaysNowrite bid false true then thn.nonLocalBlockVal bid
    else mkBlockIf cond (thn.nonLocalBlockVal bid) (els.nonLocalBlockVal bid)
  storedPointers bid := (thn.storedPointers bid).merge (els.storedPointers bid)

/-- The operations on one memory. -/
inductive Event (Ω T V Byte : Type) (w : Nat) where
  | store (accesses : List (Access Ω T)) (data : List (Nat × V))
  | storeLambda (accesses : List (LambdaAccess Ω T)) (val : Content Ω Byte w)
  | copy (poison : Byte) (dstLocal : Bool) (dst : Nat) (sources : List (Access Ω T))
  | setState (call : Call Ω Byte w)

def Memory.apply (m : Memory Ω T Byte w) : Event Ω T V Byte w → Memory Ω T Byte w
  | .store accesses data => m.store terms cfg accesses data
  | .storeLambda accesses val => m.storeLambda terms accesses val
  | .copy poison dstLocal dst sources => m.copy terms poison dstLocal dst sources
  | .setState call => m.setState cfg call

def Event.overwrites : Event Ω T V Byte w → Nat → Option (Content Ω Byte w)
  | .setState call, bid => call.overwrites cfg bid
  | _, _ => none

variable (size : Nat → Ω → Nat)

/-- What the callers promise: writes go to blocks that can be written, a known
size is the size, and the bytes of a store are consecutive. -/
def Event.WellFormed : Event Ω T V Byte w → Prop
  | .store accesses data =>
    (∀ a ∈ accesses, a.isLocal = false → cfg.alwaysNowrite a.bid false true = false ∧
      ∀ n, a.blockSize = some n → ∀ ω, size a.bid ω = n) ∧
    ∀ i < data.length, ∃ d ∈ data, d.1 / cfg.unit = i
  | .storeLambda accesses _ =>
    ∀ a ∈ accesses, a.isLocal = false → cfg.alwaysNowrite a.bid false true = false
  | .copy _ dstLocal dst _ => dstLocal = false → cfg.alwaysNowrite dst false true = false
  | .setState call => cfg.alwaysNowrite (call.inaccessibleBlock cfg) false true = false

def Event.Defined : Event Ω T V Byte w → Ω → Prop
  | .store accesses data, ω =>
    ∀ a ∈ accesses, a.isLocal = false → a.cond.holds ω = true →
      ((terms.eval a.offset ω).toNat + data.length) * cfg.unit ≤ size a.bid ω
  | _, _ => True

/-- The memories that the operations reach from `init`. -/
inductive Run (allowed : Event Ω T V Byte w → Prop) (init : Memory Ω T Byte w) :
    Memory Ω T Byte w → (Nat → Content Ω Byte w) → (Ω → Prop) → Prop
  | init : Run allowed init init init.nonLocalBlockVal fun _ => True
  | step {m : Memory Ω T Byte w} {mark : Nat → Content Ω Byte w} {defined : Ω → Prop}
      {event : Event Ω T V Byte w} :
      Run allowed init m mark defined → allowed event → event.WellFormed cfg size →
      Run allowed init (m.apply terms cfg event)
        (fun bid => (event.overwrites cfg bid).getD (mark bid))
        (fun ω => defined ω ∧ event.Defined terms cfg size ω)
  | mark {m : Memory Ω T Byte w} {mark : Nat → Content Ω Byte w} {defined : Ω → Prop} (bid : Nat) :
      Run allowed init m mark defined →
      Run allowed init m (Function.update mark bid (m.nonLocalBlockVal bid)) defined
  | mkIf {thn els : Memory Ω T Byte w} {thnMark elsMark : Nat → Content Ω Byte w}
      {thnDefined elsDefined : Ω → Prop} (cond : Cond Ω) :
      Run allowed init thn thnMark thnDefined → Run allowed init els elsMark elsDefined →
      Run allowed init (Memory.mkIf cfg cond thn els)
        (fun bid ω => if cond.holds ω then thnMark bid ω else elsMark bid ω)
        (fun ω => if cond.holds ω then thnDefined ω else elsDefined ω)

end

/-- What `Memory::refined` asks about two memories besides their contents, with
the answers of the simplifier: `sameBlock` and `sameByte` compare terms. -/
structure Comparison (src tgt : Memory Ω T Byte w) where
  fncall : Bool
  srcNextNonlocalBid : Nat
  tgtNextNonlocalBid : Nat
  isGVUsed : Nat → Bool
  isByval : Nat → Bool
  srcSize : Nat → Ω → Nat
  tgtSize : Nat → Ω → Nat
  srcAlive : Nat → Ω → Bool
  tgtAlive : Nat → Ω → Bool
  blockAttrsRefined : Nat → Ω → Prop
  constSize : Nat → Option Nat
  constSize_sound : ∀ (bid n : Nat), constSize bid = some n → ∀ (ω : Ω), srcSize bid ω = n
  sameBlock : Nat → Bool
  sameBlock_sound : ∀ (bid : Nat), sameBlock bid = true →
    src.nonLocalBlockVal bid = tgt.nonLocalBlockVal bid
  srcInitial : Nat → Nat
  tgtInitial : Nat → Nat
  sameByte : Nat → Ω → BitVec w → Bool
  sameByte_sound : ∀ (bid : Nat) (ω : Ω) (offset : BitVec w), sameByte bid ω offset = true →
    src.nonLocalBlockVal bid ω offset = tgt.nonLocalBlockVal bid ω offset
  byteRefined : Nat → Ω → Byte → Byte → Prop

section

variable (cfg : Config) {src tgt : Memory Ω T Byte w} (c : Comparison src tgt)

/-- The blocks that `Memory::refined` looks at. -/
def Comparison.mayAlias (bid : Nat) : Bool :=
  let upTo (next : Nat) := 0 < next && bid ≤ min next cfg.numNonlocals - 1
  upTo c.srcNextNonlocalBid || upTo c.tgtNextNonlocalBid ||
    (cfg.hasWriteFncall && bid = cfg.fncallmemBid) ||
    (!c.fncall && cfg.numNonlocalsSrc - cfg.numInaccessiblememonlyFns ≤ bid &&
      bid < cfg.numNonlocalsSrc)

/-- The blocks that the loop of `Memory::refined` does not skip. -/
def Comparison.checked (bid : Nat) : Bool :=
  !((c.fncall || bid = 0) && cfg.alwaysNowrite bid true true) && c.mayAlias cfg bid &&
    !(cfg.isConstglb bid false && !c.isGVUsed bid) && !c.isByval bid

/-- `Memory::blockRefined`. -/
def Comparison.blockRefined (bid : Nat) (ω : Ω) : Prop :=
  c.srcAlive bid ω = c.tgtAlive bid ω ∧ c.srcSize bid ω = c.tgtSize bid ω ∧
    c.blockAttrsRefined bid ω

/-- The check of one offset in `Memory::blockValRefined`. -/
def Comparison.offsetRefined (bid : Nat) (ω : Ω) (offset : BitVec w) : Prop :=
  if c.srcInitial bid ≠ 0 ∧ c.tgtInitial bid ≠ 0 then
    if c.srcInitial bid = 2 ∧ c.tgtInitial bid = 2 then
      src.nonLocalBlockVal bid ω = tgt.nonLocalBlockVal bid ω
    else False
  else if c.sameByte bid ω offset then True
  else c.byteRefined bid ω (src.nonLocalBlockVal bid ω offset) (tgt.nonLocalBlockVal bid ω offset)

/-- `bytes / bytes_per_byte` of a small block of constant size. -/
def Comparison.smallBlock (bid : Nat) : Option Nat :=
  match c.constSize bid with
  | some bytes => if bytes / cfg.unit ≤ 8 then some (bytes / cfg.unit) else none
  | none => none

/-- `Memory::blockValRefined`, for the pointer with the given offset. -/
def Comparison.blockValRefined (bid : Nat) (ω : Ω) (offset : BitVec w) (fullCheck : Bool) : Prop :=
  if c.sameBlock bid then True
  else if cfg.isFncallMem bid then
    src.nonLocalBlockVal bid ω = tgt.nonLocalBlockVal bid ω
  else if fullCheck then
    match c.smallBlock cfg bid with
    | some bytes => ∀ off < bytes, offset = BitVec.ofNat w off →
        c.offsetRefined bid ω (BitVec.ofNat w off)
    | none => offset.toNat * cfg.unit < c.srcSize bid ω → c.offsetRefined bid ω offset
  else c.offsetRefined bid ω offset

variable [DecidableEq T] (eval : T → Ω → BitVec w)

/-- `val_refined` of `Memory::refined`. -/
def Comparison.valRefined (bid : Nat) (ω : Ω) (offset : BitVec w) : Prop :=
  let storedSrc := src.storedPointers bid
  let storedTgt := tgt.storedPointers bid
  if !storedSrc.second ∧ storedSrc.first = ∅ ∧ !storedTgt.second ∧ storedTgt.first = ∅ then True
  else if (c.smallBlock cfg bid).isSome then c.blockValRefined cfg bid ω offset true
  else if storedSrc.second || storedTgt.second ||
      maxStoredPtrsSet < (storedSrc.first ∪ storedTgt.first).card then
    c.blockValRefined cfg bid ω offset true
  else ∀ off ∈ storedSrc.first ∪ storedTgt.first, offset = eval off ω →
    c.blockValRefined cfg bid ω (eval off ω) false

/-- `Memory::refined` without `set_ptrs`, for one value of `#idx_refinement`. -/
def Comparison.refined (ω : Ω) (ptrBid : Nat) (offset : BitVec w) : Prop :=
  ∀ bid < cfg.numNonlocalsSrc, c.checked cfg bid = true → ptrBid = bid → c.blockRefined bid ω ∧
      (c.srcAlive bid ω = true → c.valRefined cfg eval bid ω offset)

end

end AliveNext.IR.Stored
