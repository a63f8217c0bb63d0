import AliveNext.IR.Dominance
import AliveNext.Lib.Worklist

/-!
# The base of a pointer

`get_base_ptr` (`tools/transform.cpp`) looks for the one value that a pointer is
computed from, through GEPs, casts, phis and selects, which may form cycles. In SSA form a
pointer was computed from the value that its base has now.
-/

namespace AliveNext.Tools.BasePointer

open IR (Flow)

/-- The predicates of `ICmp`. -/
inductive Cond where
  | eq | ne | sle | slt | sge | sgt | ule | ult | uge | ugt | any
  deriving DecidableEq, Repr

/-- The attributes of a call that are read here. -/
structure FnAttrs where
  noAlias : Bool
  isAlloc : Bool
  allocates : Bool
  derefBytes : Nat
  derefOrNullBytes : Nat
  isAlloc_of_allocates : allocates = true → isAlloc = true

/-- `IntConst`, with the number that `getInt` returns if there is one; it fits the type. -/
structure IntConst where
  bits : Nat
  int : Option Int
  fits : ∀ n, int = some n → n.natAbs < 2 ^ bits

/-- The values that the search and the comparison tell apart; operands are given by number. -/
inductive Value where
  | gep (inbounds nusw nuw : Bool) (ptr : Nat) (idxs : List (Nat × Nat))
  | noOp (value : Nat)
  | phi (values : List (Nat × Nat))
  | select (onTrue onFalse : Nat)
  | nullPointer
  | alloc
  | fnCall (attrs : FnAttrs)
  | intConst (c : IntConst)
  | icmp (cond : Cond) (a b : Nat)
  | other

def Value.sources : Value → Option (List Nat)
  | .gep _ _ _ ptr _ => some [ptr]
  | .noOp value => some [value]
  | .phi values => some (values.map Prod.fst)
  | .select onTrue onFalse => some [onTrue, onFalse]
  | _ => none

/-- Operands, but for the condition of a select. A phi reads its own on the edges. -/
def Value.operands : Value → List Nat
  | .gep _ _ _ ptr idxs => ptr :: idxs.map Prod.snd
  | .noOp value => [value]
  | .select onTrue onFalse => [onTrue, onFalse]
  | .icmp _ a b => [a, b]
  | _ => []

def Value.isPhi : Value → Bool
  | .phi _ => true
  | _ => false

/-- A function: its blocks with their instructions in order. -/
structure Fn where
  flow : Flow
  values : List Value
  body : Nat → List Nat

namespace Fn

variable (f : Fn)

def value (v : Nat) : Value := f.values[v]?.getD .other

def isPhi (v : Nat) : Bool := (f.value v).isPhi

def phis (b : Nat) : List Nat := (f.body b).filter f.isPhi

/-- The loop of `get_base_ptr`; `none` if it runs out of fuel. -/
def baseLoop : (fuel : Nat) → (seen : List Nat) → (basePtr : Option Nat) → (todo : List Nat) →
    Option (Option Nat)
  | 0, _, _, _ => none
  | _ + 1, _, basePtr, [] => some basePtr
  | fuel + 1, seen, basePtr, ptr :: todo =>
    if ptr ∈ seen then baseLoop fuel seen basePtr todo
    else
      match (f.value ptr).sources with
      | some ops => baseLoop fuel (ptr :: seen) basePtr (ops.reverse ++ todo)
      | none =>
        match basePtr with
        | none => baseLoop fuel (ptr :: seen) (some ptr) todo
        | some base =>
          if base ≠ ptr then some none else baseLoop fuel (ptr :: seen) (some base) todo

def next (v : Nat) : List Nat := ((f.value v).sources.getD []).reverse

def fuel : Nat := Lib.unvisitedWeight f.next (List.range f.values.length) [] + 2

def getBasePtr (ptr : Nat) : Option Nat := (f.baseLoop f.fuel [] none [ptr]).getD none

structure Rooted (base : Nat) (vs : List Nat) : Prop where
  stop : (f.value base).sources = none
  closed : ∀ v ∈ vs, ∀ ops, (f.value v).sources = some ops → ∀ o ∈ ops, o ∈ vs
  only : ∀ v ∈ vs, (f.value v).sources = none → v = base

section

variable {f} {fuel : Nat} {seen todo : List Nat} {basePtr : Option Nat}

theorem baseLoop_ends
    (enough : Lib.unvisitedWeight f.next (List.range f.values.length) seen + todo.length < fuel) :
    (f.baseLoop fuel seen basePtr todo).isSome = true := by
  induction fuel generalizing seen basePtr todo with
  | zero => omega
  | succ fuel ih =>
    cases todo with
    | nil => rfl
    | cons ptr todo =>
      rw [List.length_cons] at enough
      rw [baseLoop.eq_def]
      dsimp only
      split
      · exact ih (by omega)
      · next unseen =>
        have smaller : Lib.unvisitedWeight f.next (List.range f.values.length) (ptr :: seen) +
            (f.next ptr).length ≤ Lib.unvisitedWeight f.next (List.range f.values.length) seen := by
          by_cases inside : ptr ∈ List.range f.values.length
          · exact Lib.unvisitedWeight_visit inside unseen
          · have outside : f.value ptr = .other := by
              rw [value, List.getElem?_eq_none (by simpa using inside)]
              rfl
            have none : f.next ptr = [] := by
              rw [next, outside]
              rfl
            rw [none]
            exact Lib.unvisitedWeight_cons_le
        split
        · next ops known =>
          have shape : f.next ptr = ops.reverse := by rw [next, known, Option.getD_some]
          rw [shape] at smaller
          exact ih (by rw [List.length_append]; omega)
        · split
          · exact ih (by omega)
          · split
            · rfl
            · exact ih (by omega)

/-- What the loop has seen leads to what it has seen or has still to do, and stops at the base
found so far. -/
structure Searching (f : Fn) (seen todo : List Nat) (basePtr : Option Nat) : Prop where
  closed : ∀ v ∈ seen, ∀ ops, (f.value v).sources = some ops → ∀ o ∈ ops, o ∈ seen ∨ o ∈ todo
  only : ∀ v ∈ seen, (f.value v).sources = none → basePtr = some v
  stop : ∀ base, basePtr = some base → (f.value base).sources = none

variable {ptr base : Nat}

section

variable (searching : Searching f seen (ptr :: todo) basePtr)

include searching

theorem Searching.skip (visited : ptr ∈ seen) : Searching f seen todo basePtr := by
  refine ⟨fun v member ops known o inside => ?_, searching.only, searching.stop⟩
  rcases searching.closed v member ops known o inside with found | found
  · exact .inl found
  · rcases List.mem_cons.1 found with rfl | found
    · exact .inl visited
    · exact .inr found

theorem Searching.follow {ops : List Nat} (known : (f.value ptr).sources = some ops) :
    Searching f (ptr :: seen) (ops.reverse ++ todo) basePtr := by
  refine ⟨fun v member ops' known' o inside => ?_, fun v member stops => ?_, searching.stop⟩
  · rcases List.mem_cons.1 member with rfl | member
    · cases known.symm.trans known'
      exact .inr (List.mem_append_left _ (List.mem_reverse.2 inside))
    · rcases searching.closed v member ops' known' o inside with found | found
      · exact .inl (List.mem_cons_of_mem _ found)
      · rcases List.mem_cons.1 found with rfl | found
        · exact .inl List.mem_cons_self
        · exact .inr (List.mem_append_right _ found)
  · rcases List.mem_cons.1 member with rfl | member
    · cases known.symm.trans stops
    · exact searching.only v member stops

theorem Searching.reach (stops : (f.value ptr).sources = none)
    (same : ∀ base, basePtr = some base → base = ptr) :
    Searching f (ptr :: seen) todo (some ptr) := by
  refine ⟨fun v member ops known o inside => ?_, fun v member known => ?_, fun base found => ?_⟩
  · rcases List.mem_cons.1 member with rfl | member
    · cases stops.symm.trans known
    · rcases searching.closed v member ops known o inside with found | found
      · exact .inl (List.mem_cons_of_mem _ found)
      · rcases List.mem_cons.1 found with rfl | found
        · exact .inl List.mem_cons_self
        · exact .inr found
  · rcases List.mem_cons.1 member with rfl | member
    · rfl
    · rw [same v (searching.only v member known)]
  · cases found
    exact stops

end

theorem baseLoop_rooted (searching : Searching f seen todo basePtr)
    (result : f.baseLoop fuel seen basePtr todo = some (some base)) :
    ∃ vs, f.Rooted base vs ∧ seen ⊆ vs ∧ todo ⊆ vs := by
  induction fuel generalizing seen basePtr todo with
  | zero => cases result
  | succ fuel ih =>
    cases todo with
    | nil =>
      cases result
      refine ⟨seen, ⟨searching.stop base rfl, fun v member ops known o inside => ?_,
        fun v member known => ?_⟩, List.Subset.refl _, List.nil_subset _⟩
      · exact (searching.closed v member ops known o inside).resolve_right List.not_mem_nil
      · exact (Option.some.inj (searching.only v member known)).symm
    | cons ptr todo =>
      rw [baseLoop.eq_def] at result
      dsimp only at result
      split at result
      · next visited =>
        obtain ⟨vs, rooted, before, after⟩ := ih (searching.skip visited) result
        exact ⟨vs, rooted, before, List.cons_subset.2 ⟨before visited, after⟩⟩
      · split at result
        · next ops known =>
          obtain ⟨vs, rooted, before, after⟩ := ih (searching.follow known) result
          rw [List.cons_subset] at before
          exact ⟨vs, rooted, before.2, List.cons_subset.2
            ⟨before.1, fun x member => after (List.mem_append_right _ member)⟩⟩
        · next stops =>
          have reached : ∀ found, (∀ base, basePtr = some base → base = ptr) → found = ptr →
              f.baseLoop fuel (ptr :: seen) (some found) todo = some (some base) →
              ∃ vs, f.Rooted base vs ∧ seen ⊆ vs ∧ ptr :: todo ⊆ vs := by
            rintro found same rfl result
            obtain ⟨vs, rooted, before, after⟩ := ih (searching.reach stops same) result
            rw [List.cons_subset] at before
            exact ⟨vs, rooted, before.2, List.cons_subset.2 ⟨before.1, after⟩⟩
          split at result
          · exact reached ptr (fun _ impossible => by cases impossible) rfl result
          · next found =>
            split at result
            · cases result
            · next same =>
              have same := not_not.1 same
              refine reached found (fun base known => ?_) same result
              cases known
              exact same

theorem getBasePtr_rooted
    (result : f.getBasePtr ptr = some base) : ∃ vs, f.Rooted base vs ∧ ptr ∈ vs := by
  have ends : (f.baseLoop f.fuel [] none [ptr]).isSome = true :=
    baseLoop_ends (by rw [fuel, List.length_singleton]; omega)
  obtain ⟨found, known⟩ := Option.isSome_iff_exists.1 ends
  rw [getBasePtr, known, Option.getD_some] at result
  subst result
  have start : Searching f [] [ptr] none := by
    constructor
    · intro v member
      cases member
    · intro v member
      cases member
    · intro base same
      cases same
  obtain ⟨vs, rooted, -, inside⟩ := baseLoop_rooted start known
  exact ⟨vs, rooted, inside List.mem_cons_self⟩

end

end Fn

end AliveNext.Tools.BasePointer
