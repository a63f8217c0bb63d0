import Mathlib

/-!
# Lists of variable arguments

The entries that the encoder keeps for `va_start`, `va_copy`, `va_arg` and `va_end` (`ir/instr.cpp`)
and their join (`VarArgsData::mkIf`, `ir/state.cpp`), with the values that they have in one model.
-/

namespace AliveNext.IR.VarArgs

abbrev varargBits : Nat := 8

/-- `VarArgsEntry`. An inactive entry is repeated by another one. -/
structure Entry where
  alive : Bool
  nextArg : BitVec varargBits
  numArgs : BitVec varargBits
  isVaStart : Bool
  active : Bool
  deriving DecidableEq

/-- `VarArgsData`: a finite map from pointer expressions. -/
structure VarArgsData (K : Type) where
  keys : List K
  entry : K → Option Entry
  mem_keys : ∀ k, k ∈ keys ↔ (entry k).isSome = true

/-- A model. Pointer expressions are keys; `matchedIsTrue` says when the disjunction of the
equations with the known keys is the constant `true`. -/
structure Model (K Addr Ty V : Type) where
  val : K → Addr
  isLocal : Addr → Bool
  varargAlive : Addr → Bool
  varargNumArgs : Addr → BitVec varargBits
  numVaArgs : BitVec varargBits
  vaArg : Ty → Nat → V
  vaArgIn : Ty → Addr → Nat → V
  matchedIsTrue : List K → K → Bool
  val_of_matchedIsTrue : ∀ keys k, matchedIsTrue keys k = true → ∃ k' ∈ keys, val k' = val k
  matchedIsTrue_of_mem : ∀ keys k, k ∈ keys → matchedIsTrue keys k = true

inductive Op (K Ty : Type) where
  | vaStart (ptr : K)
  | vaEnd (ptr : K)
  | vaCopy (dst src : K)
  | vaArg (ptr : K) (ty : Ty)
  deriving DecidableEq

variable {K Addr Ty V : Type} [DecidableEq K] [DecidableEq Addr]

namespace VarArgsData

def empty : VarArgsData K where
  keys := []
  entry := fun _ => none
  mem_keys := by simp

def modify (f : K → Entry → Entry) (data : VarArgsData K) : VarArgsData K where
  keys := data.keys
  entry := fun k => (data.entry k).map (f k)
  mem_keys := by simp [data.mem_keys]

/-- `data[k] = e`. -/
def assign (k : K) (e : Entry) (data : VarArgsData K) : VarArgsData K where
  keys := if (data.entry k).isSome then data.keys else k :: data.keys
  entry := Function.update data.entry k (some e)
  mem_keys := by
    intro k'
    by_cases same : k' = k
    · by_cases present : (data.entry k).isSome
      · simp [same, present, data.mem_keys]
      · simp [same, present]
    · split <;> simp [same, data.mem_keys]

/-- `data.try_emplace(k, e)`. -/
def tryEmplace (k : K) (e : Entry) (data : VarArgsData K) : VarArgsData K :=
  if (data.entry k).isSome then data else data.assign k e

end VarArgsData

/-- `DisjointExpr`, with the domain of each value: the first value is taken if no later domain
holds. The code orders the values; at most one domain holds where the order could matter. -/
def disjoint {α : Type} : List (Bool × α) → Option α
  | [] => none
  | (_, first) :: rest => some (rest.foldl (fun ret val => if val.1 then val.2 else ret) first)

/-- What an operation makes of the entries, whether it adds no UB, and its result. -/
structure Result (K V : Type) where
  data : VarArgsData K
  defined : Bool
  ret : Option V

section

variable (m : Model K Addr Ty V)

/-- The value of `matched`. -/
def matched (data : VarArgsData K) (ptr : K) : Bool :=
  data.keys.any fun k => m.val k == m.val ptr

def VarArgsData.all (data : VarArgsData K) (p : K → Entry → Bool) : Bool :=
  data.keys.all fun k => match data.entry k with
    | some e => p k e
    | none => true

/-- The pairs of a loop that adds a value of each entry to a `DisjointExpr`. -/
def VarArgsData.domains {α : Type} (data : VarArgsData K) (select : K → Entry → Bool)
    (value : K → Entry → α) : List (Bool × α) :=
  data.keys.filterMap fun k => (data.entry k).map fun e => (select k e, value k e)

def ensureVarargsPtr (data : VarArgsData K) (argPtr : K) : VarArgsData K × Bool :=
  if m.matchedIsTrue data.keys argPtr then (data, true)
  else
    (data.tryEmplace argPtr
      { alive := m.varargAlive (m.val argPtr)
        nextArg := 0
        numArgs := m.varargNumArgs (m.val argPtr)
        isVaStart := false
        active := !matched m data argPtr },
      matched m data argPtr || !m.isLocal (m.val argPtr))

/-- What `VaStart::toSMT` makes of the entries that are there. -/
def startEntry (ptr k : K) (entry : Entry) : Entry :=
  let eq := m.val k == m.val ptr
  { alive := entry.alive || eq
    nextArg := if eq then 0 else entry.nextArg
    numArgs := if eq then m.numVaArgs else entry.numArgs
    isVaStart := if eq then true else entry.isVaStart
    active := entry.active }

/-- `VaStart::toSMT`. -/
def vaStart (data : VarArgsData K) (ptr : K) : Result K V where
  data := (data.modify (startEntry m ptr)).tryEmplace ptr
    { alive := true, nextArg := 0, numArgs := m.numVaArgs, isVaStart := true,
      active := !matched m data ptr }
  defined := true
  ret := none

/-- `VaEnd::toSMT`. -/
def vaEnd (data : VarArgsData K) (ptr : K) : Result K V :=
  let (data, known) := ensureVarargsPtr m data ptr
  { data := data.modify fun k entry =>
      { entry with alive := entry.alive && !(m.val k == m.val ptr) }
    defined := known && data.all fun k entry =>
      !(m.val k == m.val ptr && entry.active) || entry.alive
    ret := none }

/-- `VaCopy::toSMT`. -/
def vaCopy (data : VarArgsData K) (dst src : K) : Result K V :=
  let (data, known) := ensureVarargsPtr m data src
  let select := fun k (entry : Entry) => entry.active && m.val k == m.val src
  { data := (data.modify fun k entry =>
        { entry with active := entry.active && !(m.val k == m.val dst) }).assign dst
      { alive := true
        nextArg := (disjoint (data.domains select fun _ entry => entry.nextArg)).getD 0
        numArgs := (disjoint (data.domains select fun _ entry => entry.numArgs)).getD 0
        isVaStart := (disjoint (data.domains select fun _ entry => entry.isVaStart)).getD false
        active := true }
    defined := known && data.all fun k entry => !select k entry || entry.alive
    ret := none }

/-- `VaArg::toSMT`. -/
def vaArg (data : VarArgsData K) (ptr : K) (ty : Ty) : Result K V :=
  let (data, known) := ensureVarargsPtr m data ptr
  let select := fun k (entry : Entry) => entry.active && m.val k == m.val ptr
  let val := fun k (entry : Entry) =>
    if entry.isVaStart then m.vaArg ty entry.nextArg.toNat
    else m.vaArgIn ty (m.val k) entry.nextArg.toNat
  { data := data.modify fun k entry =>
      { entry with
        nextArg := if m.val k == m.val ptr then entry.nextArg + 1 else entry.nextArg }
    defined := known && data.all fun k entry =>
      !select k entry || (entry.alive && decide (entry.nextArg + 1 ≤ entry.numArgs))
    ret := disjoint (data.domains select val) }

def toSMT (data : VarArgsData K) : Op K Ty → Result K V
  | .vaStart ptr => vaStart m data ptr
  | .vaEnd ptr => vaEnd m data ptr
  | .vaCopy dst src => vaCopy m data dst src
  | .vaArg ptr ty => vaArg m data ptr ty

end

/-- `VarArgsData::mkIf`. -/
def mkIf (cond : Bool) (thn els : VarArgsData K) : VarArgsData K where
  keys := thn.keys ++ els.keys.filter fun k => !(thn.entry k).isSome
  entry := fun k =>
    match thn.entry k, els.entry k with
    | some entry, none => some { entry with alive := cond && entry.alive }
    | some entry, some other => some
        { alive := if cond then entry.alive else other.alive
          nextArg := if cond then entry.nextArg else other.nextArg
          numArgs := if cond then entry.numArgs else other.numArgs
          isVaStart := if cond then entry.isVaStart else other.isVaStart
          active := if cond then entry.active else other.active }
    | none, some entry => some { entry with alive := !cond && entry.alive }
    | none, none => none
  mem_keys := by
    intro k
    rw [List.mem_append, List.mem_filter, thn.mem_keys, els.mem_keys]
    cases thn.entry k <;> cases els.entry k <;> simp

/-- A list: how many arguments are read, how many there are, and whose they are: the function's own
ones, or those of a list that came in at an address. -/
structure VaList (Addr : Type) where
  next : Nat
  num : Nat
  source : Option Addr
  deriving DecidableEq

abbrev Lists (Addr : Type) := Addr → Option (VaList Addr)

section

variable (m : Model K Addr Ty V)

def Lists.initial : Lists Addr := fun a =>
  if m.isLocal a then none
  else if m.varargAlive a then some ⟨0, (m.varargNumArgs a).toNat, some a⟩
  else none

def VaList.argument (ty : Ty) (l : VaList Addr) : V :=
  match l.source with
  | none => m.vaArg ty l.next
  | some a => m.vaArgIn ty a l.next

/-- An operation on the lists; `none` is undefined behaviour. -/
def exec (lists : Lists Addr) : Op K Ty → Option (Lists Addr × Option V)
  | .vaStart ptr =>
    some (Function.update lists (m.val ptr) (some ⟨0, m.numVaArgs.toNat, none⟩), none)
  | .vaEnd ptr => (lists (m.val ptr)).map fun _ =>
    (Function.update lists (m.val ptr) none, none)
  | .vaCopy dst src => (lists (m.val src)).map fun l =>
    (Function.update lists (m.val dst) (some l), none)
  | .vaArg ptr ty => (lists (m.val ptr)).bind fun l =>
    if l.next < l.num then
      some (Function.update lists (m.val ptr) (some { l with next := l.next + 1 }),
        some (l.argument m ty))
    else none

end

structure Agrees (e : Entry) (l : Option (VaList Addr)) : Prop where
  alive : e.alive = l.isSome
  fields : ∀ list, l = some list → e.nextArg.toNat = list.next ∧ e.numArgs.toNat = list.num ∧
    e.isVaStart = list.source.isNone

def Touched (m : Model K Addr Ty V) (data : VarArgsData K) (a : Addr) : Prop :=
  ∃ k e, data.entry k = some e ∧ m.val k = a

structure Active (m : Model K Addr Ty V) (data : VarArgsData K) (a : Addr) (k : K) (e : Entry) :
    Prop where
  entry : data.entry k = some e
  val : m.val k = a
  active : e.active = true
  only : ∀ k' e', data.entry k' = some e' → m.val k' = a → e'.active = true → k' = k

/-- Each pointer value among the keys has one active entry, the one of the list at this address; at
other addresses the lists are as they came in. -/
structure Matches (m : Model K Addr Ty V) (data : VarArgsData K) (lists : Lists Addr) : Prop where
  touched : ∀ a, Touched m data a → ∃ k e, Active m data a k e ∧ Agrees e (lists a)
  untouched : ∀ a, ¬ Touched m data a → lists a = Lists.initial m a

/-- The value that `va_arg` reads by its address is one of the list at this address. -/
def SourceHere (m : Model K Addr Ty V) (lists : Lists Addr) : Op K Ty → Prop
  | .vaArg ptr _ => ∀ l, lists (m.val ptr) = some l → ∀ a, l.source = some a → a = m.val ptr
  | _ => True

end AliveNext.IR.VarArgs
