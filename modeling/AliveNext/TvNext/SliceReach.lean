import AliveNext.TvNext.Slice

/-!
# Backward slices of any straight-line function

`collectBackwardSlice` reads an instruction only through its name and its
operands, so it is stated here for handles of any instructions.  Its loop
ends, and the slice holds exactly the instructions and the arguments that can
be reached from the root through operands.  Program order puts every operand
before its user, so that rebuilding some slices finds every operand mapped.
-/

namespace AliveNext.TvNext.DataFlow

open AliveNext.Lib
open AliveNext.LLVM

universe u

/-- What an operand is. -/
inductive Value (α : Type u) where
  | arg (argNo : Nat)
  | inst (i : α)
  /-- A constant, a global, a callee. -/
  | other
  deriving DecidableEq, Repr

def Value.inst? {α : Type u} : Value α → Option α
  | .inst i => some i
  | _ => none

/-- A verified function of one block: instructions are distinct, names are
unique, and the operands of an instruction stand before it. -/
structure Code (α : Type u) where
  name : α → Name
  operands : α → List (Value α)
  insts : List α
  nodup : insts.Nodup
  named_once : ∀ i ∈ insts, ∀ j ∈ insts, name i ≠ [] → name i = name j → i = j
  dominates : ∀ before i after, insts = before ++ i :: after →
    ∀ operand, .inst operand ∈ operands i → operand ∈ before

structure BackwardSlice (α : Type u) where
  insts : List α
  argRoots : List Nat

/-- The variables of the loop. -/
structure Walk (α : Type u) where
  visited : List α
  argSet : List Nat
  worklist : List α

section

variable {α : Type u}

def Walk.push (state : Walk α) : Value α → Walk α
  | .arg argNo => { state with argSet := state.argSet.insert argNo }
  | .inst i => { state with worklist := i :: state.worklist }
  | .other => state

variable (fn : Code α)

def root (name : Name) : Option α :=
  fn.insts.findRev? fun i => !(fn.name i).isEmpty && fn.name i == name

/-- `i` is reached from `start` through operands. -/
def Reaches (start i : α) : Prop :=
  Relation.ReflTransGen (fun a b => .inst b ∈ fn.operands a) start i

structure Exact (start : α) (slice : BackwardSlice α) : Prop where
  sublist : slice.insts.Sublist fn.insts
  nodup : slice.insts.Nodup
  mem_insts : ∀ i, i ∈ slice.insts ↔ Reaches fn start i
  sorted : slice.argRoots.Pairwise (· < ·)
  mem_args : ∀ argNo, argNo ∈ slice.argRoots ↔ ∃ i, Reaches fn start i ∧ .arg argNo ∈ fn.operands i

variable [DecidableEq α]

/-- The loop; `none` stands for a loop that has not ended yet. -/
def walk (operands : α → List (Value α)) : Nat → Walk α → Option (Walk α)
  | _, ⟨visited, argSet, []⟩ => some ⟨visited, argSet, []⟩
  | 0, _ => none
  | fuel + 1, ⟨visited, argSet, i :: rest⟩ =>
    if i ∈ visited then walk operands fuel ⟨visited, argSet, rest⟩
    else
      walk operands fuel ((operands i).foldl Walk.push ⟨i :: visited, argSet, rest⟩)

/-- The slice of what the loop has visited, in program order and in the order
of the arguments. -/
def sliceOf (state : Walk α) : BackwardSlice α where
  insts := fn.insts.filter fun i => i ∈ state.visited
  argRoots := state.argSet.insertionSort (· ≤ ·)

/-- `collectBackwardSlice`, after at most `fuel` iterations of its loop. -/
def collectBackwardSlice (fuel : Nat) (name : Name) : Option (Option (BackwardSlice α)) :=
  match root fn name with
  | none => some none
  | some i =>
    (walk fn.operands fuel ⟨[], [], [i]⟩).map fun state =>
      some (sliceOf fn state)

end

section

variable {α : Type u} {fn : Code α} {start i : α} {state : Walk α}

def instsAmong (values : List (Value α)) : List α :=
  (values.filterMap Value.inst?).reverse

theorem mem_instsAmong {values : List (Value α)} : i ∈ instsAmong values ↔ .inst i ∈ values := by
  rw [instsAmong, List.mem_reverse, List.mem_filterMap]
  constructor
  · rintro ⟨value, member, same⟩
    cases value with
    | arg argNo => cases same
    | other => cases same
    | inst j =>
      cases same
      exact member
  · intro member
    exact ⟨_, member, rfl⟩

theorem foldl_push (values : List (Value α)) (state : Walk α) :
    (values.foldl Walk.push state).visited = state.visited ∧
      (values.foldl Walk.push state).worklist = instsAmong values ++ state.worklist ∧
      (∀ argNo, argNo ∈ (values.foldl Walk.push state).argSet ↔
        argNo ∈ state.argSet ∨ .arg argNo ∈ values) ∧
      (state.argSet.Nodup → (values.foldl Walk.push state).argSet.Nodup) := by
  induction values generalizing state with
  | nil => simp [instsAmong]
  | cons value values ih =>
    obtain ⟨visited, pending, args, distinct⟩ :=
      ih (state.push value)
    rw [List.foldl_cons]
    cases value with
    | arg argNo =>
      refine ⟨visited, pending, ?_, ?_⟩
      · intro other
        rw [args, List.mem_cons]
        simp [Walk.push, or_assoc, or_left_comm]
      · exact fun nodup => distinct nodup.insert
    | inst j =>
      refine ⟨visited, ?_, ?_, distinct⟩
      · rw [pending]
        simp [instsAmong, Value.inst?, Walk.push]
      · intro other
        rw [args, List.mem_cons]
        simp [Walk.push]
    | other =>
      refine ⟨visited, pending, ?_, distinct⟩
      intro other
      rw [args, List.mem_cons]
      simp [Walk.push]

/-- The invariant of the loop. -/
structure Searching (fn : Code α) (start : α) (state : Walk α) : Prop where
  inside : ∀ i, i ∈ state.visited ∨ i ∈ state.worklist → i ∈ fn.insts
  reached : ∀ i, i ∈ state.visited ∨ i ∈ state.worklist → Reaches fn start i
  begun : start ∈ state.visited ∨ start ∈ state.worklist
  covered : ∀ i ∈ state.visited, ∀ operand, .inst operand ∈ fn.operands i →
    operand ∈ state.visited ∨ operand ∈ state.worklist
  args : ∀ argNo, argNo ∈ state.argSet ↔ ∃ i ∈ state.visited, .arg argNo ∈ fn.operands i
  distinct : state.argSet.Nodup

theorem operand_mem (member : i ∈ fn.insts) {operand : α}
    (used : .inst operand ∈ fn.operands i) : operand ∈ fn.insts := by
  obtain ⟨before, after, split⟩ := List.mem_iff_append.mp member
  rw [split]
  exact List.mem_append_left _ (fn.dominates before i after split operand used)

variable {visited rest : List α} {argSet : List Nat} {name : Name}

theorem searching_skip (holds : Searching fn start ⟨visited, argSet, i :: rest⟩)
    (seen : i ∈ visited) : Searching fn start ⟨visited, argSet, rest⟩ := by
  have pending : ∀ j, j ∈ visited ∨ j ∈ i :: rest ↔ j ∈ visited ∨ j ∈ rest := by
    intro j
    rw [List.mem_cons]
    constructor
    · rintro (before | rfl | after)
      · exact .inl before
      · exact .inl seen
      · exact .inr after
    · rintro (before | after)
      · exact .inl before
      · exact .inr (.inr after)
  exact
    { inside := fun j member => holds.inside j ((pending j).mpr member)
      reached := fun j member => holds.reached j ((pending j).mpr member)
      begun := (pending start).mp holds.begun
      covered := fun j member operand used =>
        (pending operand).mp (holds.covered j member operand used)
      args := holds.args
      distinct := holds.distinct }

theorem searching_visit (holds : Searching fn start ⟨visited, argSet, i :: rest⟩) :
    Searching fn start ((fn.operands i).foldl Walk.push ⟨i :: visited, argSet, rest⟩) := by
  obtain ⟨visits, pushes, args, distinct⟩ :=
    foldl_push (fn.operands i) ⟨i :: visited, argSet, rest⟩
  have current : i ∈ visited ∨ i ∈ i :: rest := .inr List.mem_cons_self
  have pending : ∀ j, j ∈ i :: visited ∨ j ∈ instsAmong (fn.operands i) ++ rest →
      .inst j ∈ fn.operands i ∨ j ∈ visited ∨ j ∈ i :: rest := by
    rintro j (seen | later)
    · rcases List.mem_cons.mp seen with rfl | seen
      · exact .inr (.inr List.mem_cons_self)
      · exact .inr (.inl seen)
    · rcases List.mem_append.mp later with used | later
      · exact .inl (mem_instsAmong.mp used)
      · exact .inr (.inr (List.mem_cons_of_mem i later))
  constructor
  case inside =>
    rw [visits, pushes]
    intro j member
    rcases pending j member with used | known
    · exact operand_mem (holds.inside i current) used
    · exact holds.inside j known
  case reached =>
    rw [visits, pushes]
    intro j member
    rcases pending j member with used | known
    · exact (holds.reached i current).tail used
    · exact holds.reached j known
  case begun =>
    rw [visits, pushes]
    rcases holds.begun with seen | later
    · exact .inl (List.mem_cons_of_mem i seen)
    · rcases List.mem_cons.mp later with rfl | later
      · exact .inl List.mem_cons_self
      · exact .inr (List.mem_append_right _ later)
  case covered =>
    rw [visits, pushes]
    intro j member operand used
    rcases List.mem_cons.mp member with rfl | seen
    · exact .inr (List.mem_append_left _ (mem_instsAmong.mpr used))
    · rcases holds.covered j seen operand used with found | later
      · exact .inl (List.mem_cons_of_mem i found)
      · rcases List.mem_cons.mp later with rfl | later
        · exact .inl List.mem_cons_self
        · exact .inr (List.mem_append_right _ later)
  case args =>
    intro argNo
    rw [args, visits, List.exists_mem_cons_iff, ← holds.args argNo, or_comm]
  case distinct => exact distinct holds.distinct

theorem visited_iff (holds : Searching fn start state) (done : state.worklist = []) :
    i ∈ state.visited ↔ Reaches fn start i := by
  have settled : ∀ j, j ∈ state.visited ∨ j ∈ state.worklist → j ∈ state.visited := by
    rw [done]
    exact fun j member => member.resolve_right List.not_mem_nil
  constructor
  · exact fun seen => holds.reached i (.inl seen)
  · intro reached
    induction reached with
    | refl => exact settled start holds.begun
    | tail _ used ih =>
      exact settled _ (holds.covered _ ih _ used)

theorem searching_start (member : start ∈ fn.insts) : Searching fn start ⟨[], [], [start]⟩ := by
  have only : ∀ i, i ∈ ([] : List α) ∨ i ∈ [start] → i = start := fun i found =>
    List.mem_singleton.mp (found.resolve_left List.not_mem_nil)
  constructor
  case inside => exact fun i found => only i found ▸ member
  case reached => exact fun i found => only i found ▸ .refl
  case begun => exact .inr List.mem_cons_self
  case covered => exact List.forall_mem_nil _
  case args => simp
  case distinct => exact List.nodup_nil

theorem root_eq (member : i ∈ fn.insts) (named : fn.name i ≠ []) :
    root fn (fn.name i) = some i := by
  rw [root, List.findRev?_eq_find?_reverse]
  have named_ : (!(fn.name i).isEmpty && fn.name i == fn.name i) = true := by
    simpa using named
  cases found : fn.insts.reverse.find? fun j =>
      !(fn.name j).isEmpty && fn.name j == fn.name i with
  | none =>
    have missing := List.find?_eq_none.mp found i (List.mem_reverse.mpr member)
    exact absurd named_ missing
  | some j =>
    have matches_ := List.find?_some found
    rw [Bool.and_eq_true, beq_iff_eq] at matches_
    have other := List.mem_reverse.mp (List.mem_of_find?_eq_some found)
    rw [fn.named_once i member j other named matches_.2.symm]

theorem root_mem (found : root fn name = some i) : i ∈ fn.insts := by
  rw [root, List.findRev?_eq_find?_reverse] at found
  exact List.mem_reverse.mp (List.mem_of_find?_eq_some found)

variable [DecidableEq α]

def remaining (fn : Code α) (state : Walk α) : Nat :=
  unvisitedWeight (fun i => instsAmong (fn.operands i)) fn.insts state.visited +
    state.worklist.length

theorem walk_ends (fuel : Nat) (holds : Searching fn start state)
    (enough : remaining fn state ≤ fuel) :
    ∃ final, walk fn.operands fuel state = some final ∧
      Searching fn start final ∧ final.worklist = [] := by
  induction fuel generalizing state with
  | zero =>
    obtain ⟨visited, argSet, pending⟩ := state
    obtain rfl : pending = [] := by
      rw [remaining] at enough
      exact List.eq_nil_of_length_eq_zero (by dsimp only at enough; omega)
    exact ⟨_, rfl, holds, rfl⟩
  | succ fuel ih =>
    obtain ⟨visited, argSet, pending⟩ := state
    cases pending with
    | nil => exact ⟨_, rfl, holds, rfl⟩
    | cons i rest =>
      rw [walk]
      by_cases seen : i ∈ visited
      · rw [if_pos seen]
        apply ih (searching_skip holds seen)
        rw [remaining, List.length_cons] at enough
        rw [remaining]
        dsimp only at enough ⊢
        omega
      · rw [if_neg seen]
        apply ih (searching_visit holds)
        obtain ⟨visits, pushes, -, -⟩ :=
          foldl_push (fn.operands i) ⟨i :: visited, argSet, rest⟩
        have lighter : unvisitedWeight (fun i => instsAmong (fn.operands i))
            fn.insts (i :: visited) + (instsAmong (fn.operands i)).length ≤
              unvisitedWeight (fun i => instsAmong (fn.operands i)) fn.insts visited :=
          unvisitedWeight_visit (holds.inside i (.inr List.mem_cons_self)) seen
        rw [remaining, List.length_cons] at enough
        rw [remaining, visits, pushes, List.length_append]
        dsimp only at enough lighter ⊢
        omega

theorem walk_mono {operands : α → List (Value α)} {fuel more : Nat}
    {final : Walk α} (le : fuel ≤ more) (ended : walk operands fuel state = some final) :
    walk operands more state = some final := by
  induction fuel generalizing more state with
  | zero =>
    obtain ⟨visited, argSet, pending⟩ := state
    cases pending with
    | nil => cases more <;> exact ended
    | cons i rest => cases ended
  | succ fuel ih =>
    obtain ⟨more, rfl⟩ : ∃ less, more = less + 1 := ⟨more - 1, by omega⟩
    obtain ⟨visited, argSet, pending⟩ := state
    cases pending with
    | nil => exact ended
    | cons i rest =>
      have less : fuel ≤ more := by omega
      rw [walk] at ended ⊢
      by_cases seen : i ∈ visited
      · rw [if_pos seen] at ended ⊢
        exact ih less ended
      · rw [if_neg seen] at ended ⊢
        exact ih less ended

theorem sliceOf_exact (holds : Searching fn start state)
    (done : state.worklist = []) : Exact fn start (sliceOf fn state) := by
  have sorted := state.argSet.perm_insertionSort (· ≤ ·)
  refine ⟨List.filter_sublist, fn.nodup.filter _, ?_, ?_, ?_⟩
  · intro i
    rw [sliceOf, List.mem_filter, decide_eq_true_iff, visited_iff holds done]
    exact and_iff_right_of_imp fun reached =>
      holds.inside i (.inl ((visited_iff holds done).mpr reached))
  · have order : (sliceOf fn state).argRoots.Pairwise (· ≤ ·) :=
      List.pairwise_insertionSort _ _
    have once : (sliceOf fn state).argRoots.Nodup := sorted.nodup_iff.mpr holds.distinct
    exact (order.and once).imp fun both => lt_of_le_of_ne both.1 both.2
  · intro argNo
    rw [sliceOf, sorted.mem_iff, holds.args]
    exact exists_congr fun i => and_congr_left' (visited_iff holds done)

theorem collectBackwardSlice_ends (found : root fn name = some i) :
    ∃ slice bound, Exact fn i slice ∧ ∀ fuel, bound ≤ fuel →
      collectBackwardSlice fn fuel name = some (some slice) := by
  have begun := searching_start (root_mem found)
  obtain ⟨final, ended, holds, done⟩ := walk_ends _ begun (le_refl _)
  refine ⟨sliceOf fn final, remaining fn ⟨[], [], [i]⟩, sliceOf_exact holds done, ?_⟩
  intro fuel enough
  rw [collectBackwardSlice, found]
  dsimp only
  rw [walk_mono enough ended]
  rfl

end

/-! ## The rebuilt slices -/

/-- A value of the check function. -/
inductive Copy (α : Type u) where
  | param (position : Nat)
  | clone (i : α)

/-- An operand of a clone: replaced through `vmap`, or left as it was. -/
inductive CloneOperand (α : Type u) where
  | mapped (copy : Copy α)
  | original (value : Value α)

structure Clone (α : Type u) where
  inst : α
  operands : List (CloneOperand α)

section

variable {α : Type u}

def allArgs (slices : List (BackwardSlice α)) : List Nat :=
  (slices.flatMap BackwardSlice.argRoots).dedup.insertionSort (· ≤ ·)

def instSet (slices : List (BackwardSlice α)) : List α :=
  slices.flatMap BackwardSlice.insts

/-- `vmap` before the loop: the parameters. -/
def paramMap (slices : List (BackwardSlice α)) : List (Value α × Copy α) :=
  (allArgs slices).zipIdx.map fun entry => (.arg entry.1, .param entry.2)

/-- An operand with every instruction and argument replaced: the clone of the
instruction, and the parameter that stands for the argument. -/
def replaced (slices : List (BackwardSlice α)) : Value α → CloneOperand α
  | .arg argNo => .mapped (.param ((allArgs slices).idxOf argNo))
  | .inst i => .mapped (.clone i)
  | .other => .original .other

structure UnionClosed (fn : Code α) (slices : List (BackwardSlice α)) : Prop where
  insts : ∀ i ∈ instSet slices, ∀ operand, .inst operand ∈ fn.operands i → operand ∈ instSet slices
  args : ∀ i ∈ instSet slices, ∀ argNo, .arg argNo ∈ fn.operands i → argNo ∈ allArgs slices

variable {fn : Code α} {slices : List (BackwardSlice α)}

variable {argNo : Nat} {sliced before : List α} {args : List Nat} {vmap : List (Value α × Copy α)}
  {i : α}

theorem mem_allArgs : argNo ∈ allArgs slices ↔ ∃ slice ∈ slices, argNo ∈ slice.argRoots := by
  rw [allArgs, List.mem_insertionSort, List.mem_dedup, List.mem_flatMap]

theorem unionClosed_of_exact (exact_ : ∀ slice ∈ slices, ∃ start, Exact fn start slice) :
    UnionClosed fn slices where
  insts := by
    intro i member operand used
    obtain ⟨slice, listed, inside⟩ := List.mem_flatMap.mp member
    obtain ⟨start, holds⟩ := exact_ slice listed
    refine List.mem_flatMap.mpr ⟨slice, listed, (holds.mem_insts operand).mpr ?_⟩
    exact ((holds.mem_insts i).mp inside).tail used
  args := by
    intro i member argNo used
    obtain ⟨slice, listed, inside⟩ := List.mem_flatMap.mp member
    obtain ⟨start, holds⟩ := exact_ slice listed
    exact mem_allArgs.mpr ⟨slice, listed,
      (holds.mem_args argNo).mpr ⟨i, (holds.mem_insts i).mp inside, used⟩⟩

variable [DecidableEq α]

def cloneOperand (vmap : List (Value α × Copy α)) (value : Value α) : CloneOperand α :=
  match vmap.lookup value with
  | some copy => .mapped copy
  | none => .original value

/-- The loop of `buildCombinedFactCheck` over the instructions of the
parent. -/
def rebuild (operands : α → List (Value α)) (sliced : List α) :
    List α → List (Value α × Copy α) → List (Clone α)
  | [], _ => []
  | i :: rest, vmap =>
    if i ∈ sliced then
      ⟨i, (operands i).map (cloneOperand vmap)⟩ ::
        rebuild operands sliced rest ((.inst i, .clone i) :: vmap)
    else rebuild operands sliced rest vmap

def rebuildSlices (fn : Code α) (slices : List (BackwardSlice α)) : List (Clone α) :=
  rebuild fn.operands (instSet slices) fn.insts (paramMap slices)

/-- What `vmap` holds after the instructions `before`. -/
structure Mapped (sliced before : List α) (args : List Nat)
    (vmap : List (Value α × Copy α)) : Prop where
  insts : ∀ i ∈ before, i ∈ sliced → vmap.lookup (.inst i) = some (.clone i)
  args : ∀ argNo ∈ args, vmap.lookup (.arg argNo) = some (.param (args.idxOf argNo))
  other : vmap.lookup .other = none

theorem lookup_param (args : List Nat) (from_ : Nat) (member : argNo ∈ args) :
    ((args.zipIdx from_).map fun entry =>
        ((Value.arg entry.1 : Value α), (Copy.param entry.2 : Copy α))).lookup
      (.arg argNo) = some (.param (from_ + args.idxOf argNo)) := by
  induction args generalizing from_ with
  | nil => cases member
  | cons head args ih =>
    rw [List.zipIdx_cons, List.map_cons, List.lookup_cons]
    by_cases same : argNo = head
    · rw [same, List.idxOf_cons_self, Nat.add_zero, beq_self_eq_true]
      rfl
    · have different : ((Value.arg argNo : Value α) == .arg head) = false := by
        rw [beq_eq_false_iff_ne]
        exact fun clash => same (Value.arg.inj clash)
      rw [different, ih (from_ + 1) ((List.mem_cons.mp member).resolve_left same),
        List.idxOf_cons_ne _ (Ne.symm same), Nat.add_assoc, Nat.add_comm 1]

theorem lookup_other (args : List Nat) (from_ : Nat) :
    ((args.zipIdx from_).map fun entry =>
        ((Value.arg entry.1 : Value α), (Copy.param entry.2 : Copy α))).lookup
      .other = none := by
  induction args generalizing from_ with
  | nil => rfl
  | cons head args ih =>
    rw [List.zipIdx_cons, List.map_cons, List.lookup_cons]
    exact ih (from_ + 1)

theorem mapped_start (slices : List (BackwardSlice α)) :
    Mapped (instSet slices) [] (allArgs slices) (paramMap slices) where
  insts := List.forall_mem_nil _
  args := by
    intro argNo member
    rw [paramMap, lookup_param (allArgs slices) 0 member, Nat.zero_add]
  other := lookup_other (allArgs slices) 0

theorem mapped_skip (holds : Mapped sliced before args vmap) (outside : i ∉ sliced) :
    Mapped sliced (before ++ [i]) args vmap where
  insts := by
    intro j member inside
    rcases List.mem_append.mp member with early | late
    · exact holds.insts j early inside
    · rw [List.mem_singleton.mp late] at inside
      exact absurd inside outside
  args := holds.args
  other := holds.other

theorem mapped_clone (i : α) (holds : Mapped sliced before args vmap) :
    Mapped sliced (before ++ [i]) args ((.inst i, .clone i) :: vmap) where
  insts := by
    intro j member inside
    rw [List.lookup_cons]
    by_cases same : j = i
    · rw [same, beq_self_eq_true]
    · have different : ((Value.inst j : Value α) == .inst i) = false := by
        rw [beq_eq_false_iff_ne]
        exact fun clash => same (Value.inst.inj clash)
      rw [different]
      refine holds.insts j ?_ inside
      exact (List.mem_append.mp member).resolve_right fun late => same (List.mem_singleton.mp late)
  args := holds.args
  other := holds.other

theorem cloneOperand_eq {after : List α} (closed : UnionClosed fn slices)
    (split : fn.insts = before ++ i :: after) (sliced : i ∈ instSet slices)
    (holds : Mapped (instSet slices) before (allArgs slices) vmap) {value : Value α}
    (used : value ∈ fn.operands i) : cloneOperand vmap value = replaced slices value := by
  unfold cloneOperand
  cases value with
  | arg argNo => rw [holds.args argNo (closed.args i sliced argNo used)]; rfl
  | inst operand =>
    rw [holds.insts operand (fn.dominates before i after split operand used)
      (closed.insts i sliced operand used)]
    rfl
  | other => rw [holds.other]; rfl

theorem rebuild_eq {rest : List α}
    (closed : UnionClosed fn slices) (split : fn.insts = before ++ rest)
    (holds : Mapped (instSet slices) before (allArgs slices) vmap) :
    rebuild fn.operands (instSet slices) rest vmap =
      (rest.filter fun i => i ∈ instSet slices).map fun i =>
        ⟨i, (fn.operands i).map (replaced slices)⟩ := by
  induction rest generalizing before vmap with
  | nil => rfl
  | cons i rest ih =>
    have extended : fn.insts = (before ++ [i]) ++ rest := by
      rw [split, List.append_assoc]
      rfl
    by_cases sliced : i ∈ instSet slices
    · have kept : (i :: rest).filter (fun i => i ∈ instSet slices) =
          i :: rest.filter fun i => i ∈ instSet slices :=
        List.filter_cons_of_pos (decide_eq_true sliced)
      rw [rebuild, if_pos sliced, kept, List.map_cons, ih extended (mapped_clone i holds)]
      refine congrArg (· :: _) (congrArg (Clone.mk i) ?_)
      exact List.map_congr_left fun value used =>
        cloneOperand_eq closed split sliced holds used
    · have dropped : (i :: rest).filter (fun i => i ∈ instSet slices) =
          rest.filter fun i => i ∈ instSet slices :=
        List.filter_cons_of_neg (by simpa using sliced)
      rw [rebuild, if_neg sliced, dropped, ih extended (mapped_skip holds sliced)]

theorem exact_of_collected {fuel : Nat} {name : Name} {slice : BackwardSlice α}
    (collected : collectBackwardSlice fn fuel name = some (some slice)) :
    ∃ start, Exact fn start slice := by
  unfold collectBackwardSlice at collected
  split at collected
  next => cases collected
  next i found =>
    obtain ⟨final, ended, same⟩ := Option.map_eq_some_iff.mp collected
    obtain ⟨other, ends, holds, done⟩ :=
      walk_ends _ (searching_start (root_mem found)) (le_refl _)
    have both := (walk_mono (le_max_left _ _) ended).symm.trans
      (walk_mono (le_max_right fuel _) ends)
    obtain rfl : final = other := Option.some.inj both
    obtain rfl := Option.some.inj same
    exact ⟨i, sliceOf_exact holds done⟩

/-- Slices end, hold what is reached and nothing else, and are rebuilt with
every operand mapped. -/
theorem backwardSlices_exact (fn : Code α) :
    (∀ i ∈ fn.insts, fn.name i ≠ [] → ∃ slice bound, Exact fn i slice ∧
      ∀ fuel, bound ≤ fuel →
        collectBackwardSlice fn fuel (fn.name i) = some (some slice)) ∧
      ∀ slices : List (BackwardSlice α),
        (∀ slice ∈ slices, ∃ fuel name,
          collectBackwardSlice fn fuel name = some (some slice)) →
        rebuildSlices fn slices =
          (fn.insts.filter fun i => i ∈ instSet slices).map fun i =>
            ⟨i, (fn.operands i).map (replaced slices)⟩ := by
  constructor
  · intro i member named
    exact collectBackwardSlice_ends (root_eq member named)
  · intro slices collected
    have closed : UnionClosed fn slices := by
      apply unionClosed_of_exact
      intro slice listed
      obtain ⟨fuel, name, found⟩ := collected slice listed
      exact exact_of_collected found
    exact rebuild_eq closed rfl (mapped_start slices)

end

section

/-- `%0 = f(%arg)`, `%1 = g(%0, %arg)`. -/
def twoSteps : Nat → List (Value Nat)
  | 0 => [.arg 0]
  | 1 => [.inst 0, .arg 0]
  | _ => []

theorem twoSteps_dominates (before : List Nat) (i : Nat) (after : List Nat)
    (split : [0, 1] = before ++ i :: after) (operand : Nat)
    (used : .inst operand ∈ twoSteps i) : operand ∈ before := by
  cases before with
  | nil =>
    obtain ⟨rfl, -⟩ := List.cons.inj split
    simp [twoSteps] at used
  | cons head before =>
    obtain ⟨rfl, rest⟩ := List.cons.inj split
    cases before with
    | nil =>
      obtain ⟨rfl, -⟩ := List.cons.inj rest
      simpa [twoSteps] using used
    | cons next before => simp at rest

theorem twoSteps_nodup : [0, 1].Nodup := by
  decide

theorem twoSteps_named : ∀ i ∈ [0, 1], ∀ j ∈ [0, 1],
    ascii (toString i) ≠ [] → ascii (toString i) = ascii (toString j) → i = j := by
  decide

def twoStepCode : Code Nat where
  name := fun i => ascii (toString i)
  operands := twoSteps
  insts := [0, 1]
  nodup := twoSteps_nodup
  named_once := twoSteps_named
  dominates := twoSteps_dominates

theorem backwardSlices_exact_twoSteps :
    ∃ slice bound, Exact twoStepCode 1 slice ∧
      (∀ fuel, bound ≤ fuel →
        collectBackwardSlice twoStepCode fuel (twoStepCode.name 1) =
          some (some slice)) ∧
      rebuildSlices twoStepCode [slice] =
        (twoStepCode.insts.filter fun i => i ∈ instSet [slice]).map fun i =>
          ⟨i, (twoStepCode.operands i).map (replaced [slice])⟩ := by
  obtain ⟨collects, rebuilds⟩ := backwardSlices_exact twoStepCode
  obtain ⟨slice, bound, exact_, ends⟩ :=
    collects 1 (by decide) (by decide)
  refine ⟨slice, bound, exact_, ends, rebuilds [slice] ?_⟩
  intro other listed
  rw [List.mem_singleton.mp listed]
  exact ⟨bound, _, ends bound (le_refl bound)⟩

end

section

variable {body : Body}

def valueOf : Reg → Value Nat
  | .arg argNo => .arg argNo
  | .inst id => .inst id

def nameAt (insts : List Instruction) (id : Nat) : Name :=
  ((findInst insts id).map Instruction.name).getD []

variable {inst : Instruction} {values : List Reg} {id argNo : Nat}

theorem nameAt_of_mem {insts : List Instruction} (nodup : (insts.map Instruction.id).Nodup)
    (member : inst ∈ insts) : nameAt insts inst.id = inst.name := by
  rw [nameAt, findInst_eq_some nodup member rfl]
  rfl

theorem named_once_of_verified (verified : body.Verified) :
    ∀ i ∈ body.insts.map Instruction.id, ∀ j ∈ body.insts.map Instruction.id,
      nameAt body.insts i ≠ [] → nameAt body.insts i = nameAt body.insts j → i = j := by
  intro i first j second named same
  obtain ⟨inst, member, rfl⟩ := List.mem_map.mp first
  obtain ⟨other, member', rfl⟩ := List.mem_map.mp second
  rw [nameAt_of_mem verified.ids_nodup member] at named same
  rw [nameAt_of_mem verified.ids_nodup member'] at same
  have names : ((body.insts.map Instruction.name).filter fun name => !name.isEmpty).Nodup := by
    have all := verified.names_nodup
    rw [valueNames, List.filter_append] at all
    exact (List.nodup_append.mp all).2.1
  rw [List.filter_map] at names
  have kept : ∀ other ∈ body.insts, other.name ≠ [] → other ∈ body.insts.filter
        ((fun name : Name => !name.isEmpty) ∘ Instruction.name) := by
    intro other inside nonempty
    exact List.mem_filter.mpr ⟨inside, by simpa using nonempty⟩
  exact congrArg Instruction.id (List.inj_on_of_nodup_map names
    (kept inst member named) (kept other member' (same ▸ named)) same)

theorem scoped_before {scope : List (Nat × Reg)} {before after : List Instruction}
    (wellScoped : Scoped scope (before ++ inst :: after)) {use : Nat × Reg}
    (used : use ∈ inst.op.regs) : use ∈ scope ∨ use ∈ bodyScope before := by
  induction before generalizing scope with
  | nil => exact .inl (wellScoped.1 use used)
  | cons head before ih =>
    have extend : bodyScope (head :: before) = head.defines ++ bodyScope before := List.flatMap_cons
    rcases ih wellScoped.2 with outside | inside
    · rcases List.mem_append.mp outside with outside | first
      · exact .inl outside
      · exact .inr (by rw [extend]; exact List.mem_append_left _ first)
    · exact .inr (by rw [extend]; exact List.mem_append_right _ inside)

theorem mem_valueOf : .inst id ∈ values.map valueOf ↔ Reg.inst id ∈ values := by
  rw [List.mem_map]
  constructor
  · rintro ⟨r, member, same⟩
    cases r with
    | arg argNo => cases same
    | inst other =>
      cases same
      exact member
  · exact fun member => ⟨_, member, rfl⟩

theorem mem_valueOf_arg : .arg argNo ∈ values.map valueOf ↔ Reg.arg argNo ∈ values := by
  rw [List.mem_map]
  constructor
  · rintro ⟨r, member, same⟩
    cases r with
    | inst id => cases same
    | arg other =>
      cases same
      exact member
  · exact fun member => ⟨_, member, rfl⟩

theorem dominates_of_verified (verified : body.Verified) (before : List Nat)
    (i : Nat) (after : List Nat) (split : body.insts.map Instruction.id = before ++ i :: after)
    (operand : Nat) (used : .inst operand ∈ (operandRegs body.insts i).map valueOf) :
    operand ∈ before := by
  obtain ⟨first, rest, parts, rfl, tail⟩ := List.map_eq_append_iff.mp split
  obtain ⟨inst, last, rfl, rfl, rfl⟩ := List.map_eq_cons_iff.mp tail
  rw [mem_valueOf, operandRegs_of_mem verified.ids_nodup
    (by rw [parts]; exact List.mem_append_right _ List.mem_cons_self)] at used
  obtain ⟨use, member, same⟩ := List.mem_map.mp used
  have wellScoped := verified.body_scoped
  rw [parts] at wellScoped
  rcases scoped_before wellScoped member with outside | inside
  · obtain ⟨entry, -, shown⟩ := List.mem_map.mp outside
    rw [← shown] at same
    cases same
  · obtain ⟨w, r⟩ := use
    obtain rfl : r = .inst operand := same
    obtain ⟨other, found, -, shown⟩ := mem_bodyScope.mp inside
    rw [Reg.inst.inj shown]
    exact List.mem_map_of_mem found

def codeOf (body : Body) (verified : body.Verified) : Code Nat where
  name := nameAt body.insts
  operands := fun id => (operandRegs body.insts id).map valueOf
  insts := body.insts.map Instruction.id
  nodup := verified.ids_nodup
  named_once := named_once_of_verified verified
  dominates := dominates_of_verified verified

theorem walk_visited {α : Type u} [DecidableEq α] {operands : α → List (Value α)} {fuel : Nat}
    {state final : Walk α} (ended : walk operands fuel state = some final) :
    final.visited = worklist (fun i => instsAmong (operands i)) fuel
      state.visited state.worklist := by
  induction fuel generalizing state with
  | zero =>
    obtain ⟨visited, argSet, pending⟩ := state
    cases pending with
    | nil =>
      obtain rfl := Option.some.inj ended
      rfl
    | cons i rest => cases ended
  | succ fuel ih =>
    obtain ⟨visited, argSet, pending⟩ := state
    cases pending with
    | nil =>
      obtain rfl := Option.some.inj ended
      rfl
    | cons i rest =>
      rw [walk] at ended
      rw [worklist]
      by_cases seen : i ∈ visited
      · rw [if_pos seen] at ended ⊢
        exact ih ended
      · rw [if_neg seen] at ended ⊢
        obtain ⟨visits, pushes, -, -⟩ :=
          foldl_push (operands i) ⟨i :: visited, argSet, rest⟩
        rw [ih ended, visits, pushes]

variable (verified : body.Verified)

theorem instsAmong_codeOf (id : Nat) : instsAmong ((codeOf body verified).operands id) =
      instOperands body.insts id := by
  rw [instsAmong, codeOf, List.filterMap_map, instOperands]
  refine congrArg List.reverse (List.filterMap_congr fun r _ => ?_)
  cases r with
  | arg argNo => rfl
  | inst other => rfl

theorem root_codeOf (name : Name) : root (codeOf body verified) name =
      (sliceRoot name body.insts).map Instruction.id := by
  rw [root, sliceRoot, List.findRev?_eq_find?_reverse, List.findRev?_eq_find?_reverse]
  show (body.insts.map Instruction.id).reverse.find? _ = _
  rw [← List.map_reverse, List.find?_map]
  refine congrArg (Option.map Instruction.id) (List.find?_congr ?_)
  intro inst member
  have named := nameAt_of_mem verified.ids_nodup (List.mem_reverse.mp member)
  show (!(nameAt body.insts inst.id).isEmpty && nameAt body.insts inst.id == name) = _
  rw [named]
  rfl

theorem argNo_lt (used : .arg argNo ∈ (codeOf body verified).operands id)
    (member : id ∈ (codeOf body verified).insts) : argNo < body.args.length := by
  obtain ⟨inst, inside, rfl⟩ := List.mem_map.mp member
  have reads : .arg argNo ∈ (operandRegs body.insts inst.id).map valueOf := used
  rw [mem_valueOf_arg, operandRegs_of_mem verified.ids_nodup inside] at reads
  obtain ⟨use, listed, same⟩ := List.mem_map.mp reads
  rcases verified.body_scoped.uses inside listed with outside | defined
  · obtain ⟨entry, indexed, shown⟩ := List.mem_map.mp outside
    rw [← shown] at same
    obtain rfl := Reg.arg.inj same
    exact List.snd_lt_of_mem_zipIdx indexed
  · obtain ⟨w, r⟩ := use
    obtain rfl : r = .arg argNo := same
    obtain ⟨other, -, -, shown⟩ := mem_bodyScope.mp defined
    cases shown

theorem sliceOf_codeOf {start : Nat} {state : Walk Nat}
    (holds : Searching (codeOf body verified) start state) (done : state.worklist = []) :
    sliceOf (codeOf body verified) state =
      ⟨(body.insts.filter fun inst => inst.id ∈ state.visited).map Instruction.id,
        (List.range body.args.length).filter fun index =>
          Reg.arg index ∈ state.visited.flatMap (operandRegs body.insts)⟩ := by
  have exact_ := sliceOf_exact holds done
  have sorted : ((List.range body.args.length).filter fun index =>
      Reg.arg index ∈ state.visited.flatMap (operandRegs body.insts)).Pairwise (· < ·) :=
    List.pairwise_lt_range.filter _
  have args : (sliceOf (codeOf body verified) state).argRoots =
      (List.range body.args.length).filter fun index =>
        Reg.arg index ∈ state.visited.flatMap (operandRegs body.insts) := by
    apply List.Perm.eq_of_pairwise' exact_.sorted sorted
    rw [List.perm_ext_iff_of_nodup (exact_.sorted.imp ne_of_lt) (sorted.imp ne_of_lt)]
    intro argNo
    rw [exact_.mem_args, List.mem_filter, List.mem_range, decide_eq_true_iff, List.mem_flatMap]
    constructor
    · rintro ⟨i, reached, used⟩
      have seen := (visited_iff holds done).mpr reached
      exact ⟨argNo_lt verified used (holds.inside i (.inl seen)), i, seen, mem_valueOf_arg.mp used⟩
    · rintro ⟨-, i, seen, used⟩
      exact ⟨i, (visited_iff holds done).mp seen, mem_valueOf_arg.mpr used⟩
  have insts : (sliceOf (codeOf body verified) state).insts =
      (body.insts.filter fun inst => inst.id ∈ state.visited).map Instruction.id := by
    rw [sliceOf, codeOf, List.filter_map]
    rfl
  exact congrArg₂ BackwardSlice.mk insts args

theorem collectBackwardSlice_codeOf (name : Name) :
    collectBackwardSlice (codeOf body verified) (sliceFuel body.insts) name =
      some ((TvNext.collectBackwardSlice name body).map fun slice =>
        ⟨slice.insts.map Instruction.id, slice.argRoots⟩) := by
  rw [collectBackwardSlice, TvNext.collectBackwardSlice, root_codeOf]
  cases found : sliceRoot name body.insts with
  | none => rfl
  | some inst =>
    have member : inst.id ∈ (codeOf body verified).insts :=
      root_mem (by rw [root_codeOf, found]; rfl : root (codeOf body verified) name = some inst.id)
    have operands : (fun id => instsAmong ((codeOf body verified).operands id)) =
        instOperands body.insts := funext (instsAmong_codeOf verified)
    have enough : remaining (codeOf body verified) ⟨[], [], [inst.id]⟩ ≤ sliceFuel body.insts := by
      rw [remaining, operands, sliceFuel]
      exact Nat.add_le_add_left (Nat.le_succ 1) _
    obtain ⟨final, ended, holds, done⟩ :=
      walk_ends _ (searching_start member) enough
    have visited := walk_visited ended
    rw [operands] at visited
    dsimp only [Option.map_some]
    rw [ended, Option.map_some, sliceOf_codeOf verified holds done]
    rw [visited]
    rfl

end

end AliveNext.TvNext.DataFlow
