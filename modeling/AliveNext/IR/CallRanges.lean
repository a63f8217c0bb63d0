import AliveNext.Smt.Compare

/-!
# Numbers of calls

`State::ValueAnalysis::FnCallRanges` of `ir/state.cpp`: for each function how often
it may have been called so far, and whether one of these calls may write. The
blocks are executed in an order in which all jumps go forward; a call adds one, and
where jumps meet the ranges of the predecessors are joined.
-/

namespace AliveNext.IR

open Smt

/-! ## Memory accesses -/

/-- `MemoryAccess::AccessType`. -/
inductive AccessType where
  | args | globals | inaccessible | errno | other
  deriving DecidableEq

namespace AccessType

def all : List AccessType := [args, globals, inaccessible, errno, other]

def index : AccessType → Nat
  | args => 0
  | globals => 1
  | inaccessible => 2
  | errno => 3
  | other => 4

def numTypes : Nat := 5

end AccessType

namespace SMTMemoryAccess

def canWrite (z : Z3) (val : Expr) (ty : AccessType) : Expr :=
  Expr.cmpEq z (Expr.extract z val (ty.index * 2) (ty.index * 2) 3) (Expr.mkUInt 1 1)

def canWriteSomething (z : Z3) (val : Expr) : Expr :=
  (AccessType.all.foldl (fun ret ty => OrExpr.add z ret (canWrite z val ty)) {}).toExpr

def mayWrite (z : Z3) (val : Expr) : Bool := !(canWriteSomething z val).isFalse

end SMTMemoryAccess

/-! ## The analysis -/

structure CallRange where
  calls : Finset (Nat × Bool)
  access : Expr

abbrev FnCallRanges := String → Option CallRange

namespace FnCallRanges

variable (z : Z3)

/-- The numbers of calls are `unsigned`. -/
def inc (self : FnCallRanges) (name : String) (access : Expr) : FnCallRanges :=
  let canwrite := SMTMemoryAccess.mayWrite z access
  Function.update self name <| some <|
    match self name with
    | none => ⟨{(1, canwrite)}, access⟩
    | some range =>
      ⟨range.calls.image fun call => ((call.1 + 1) % 2 ^ 32, call.2 || canwrite),
        Expr.bitOr z range.access access⟩

def keepOnlyWrites (self : FnCallRanges) : FnCallRanges := fun fn =>
  (self fn).bind fun range =>
    let calls := range.calls.filter fun call => call.2
    if calls = ∅ then none else some { range with calls := calls }

/-- A function that one side does not have gets the pair `(0, true)`. -/
def meetWith (self other : FnCallRanges) : FnCallRanges := fun fn =>
  match self fn, other fn with
  | none, none => none
  | none, some range => some { range with calls := insert (0, true) range.calls }
  | some range, none => some { range with calls := insert (0, true) range.calls }
  | some range, some range' =>
    some ⟨range.calls ∪ range'.calls, Expr.bitOr z range.access range'.access⟩

end FnCallRanges

structure Call where
  name : String
  access : Expr

/-- The calls of a block, and the blocks that jumped there in the order in which
`predecessor_data` has them. -/
structure CallBlock where
  calls : List Call
  preds : List Nat

structure CallGraph where
  blocks : List CallBlock
  forward : ∀ (k : Nat) (block : CallBlock), blocks[k]? = some block → ∀ p ∈ block.preds, p < k

namespace CallGraph

variable (z : Z3)

def exec (ranges : FnCallRanges) (calls : List Call) : FnCallRanges :=
  calls.foldl (fun ranges call => ranges.inc z call.name call.access) ranges

/-- `startBB`, given the ranges at the ends of the blocks before: blocks without a
predecessor that was executed are left out. -/
def startBB (done : List (Option FnCallRanges)) (preds : List Nat) : Option FnCallRanges :=
  match preds.filterMap fun p => done[p]?.join with
  | [] => none
  | first :: rest => some (rest.foldl (FnCallRanges.meetWith z) first)

def start (done : List (Option FnCallRanges)) (block : CallBlock) : Option FnCallRanges :=
  if done = [] then some fun _ => none else startBB z done block.preds

def ends (blocks : List CallBlock) : List (Option FnCallRanges) :=
  blocks.foldl (fun done block => done ++ [(start z done block).map (exec z · block.calls)]) []

variable (self : CallGraph)

def rangesAt (k j : Nat) : Option FnCallRanges :=
  self.blocks[k]?.bind fun block =>
    (start z (ends z (self.blocks.take k)) block).map (exec z · (block.calls.take j))

def calls (k : Nat) : List Call := (self.blocks[k]?.map CallBlock.calls).getD []

inductive Path : List Nat → Prop
  | entry : self.blocks ≠ [] → Path [0]
  | jump {k p : Nat} {block : CallBlock} {rest : List Nat} :
      Path (p :: rest) → self.blocks[k]? = some block → p ∈ block.preds → Path (k :: p :: rest)

def trace : List Nat → List Call
  | [] => []
  | k :: rest => trace rest ++ self.calls k

end CallGraph

def called (f : String) (calls : List Call) : Nat := calls.countP fun call => call.name = f

def wrote (z : Z3) (f : String) (calls : List Call) : Bool :=
  calls.any fun call => call.name = f && SMTMemoryAccess.mayWrite z call.access

def FnCallRanges.Has (ranges : FnCallRanges) (f : String) (pair : Nat × Bool) : Prop :=
  ∃ range, ranges f = some range ∧ pair ∈ range.calls

section

variable {z : Z3} {ranges other : FnCallRanges} {f name : String} {access : Expr}
  {pair : Nat × Bool} {calls : List Call} {call : Call}

theorem called_append : called f (calls ++ [call]) =
    called f calls + if call.name = f then 1 else 0 := by
  rw [called, List.countP_append, List.countP_singleton, called]
  simp only [decide_eq_true_eq]

theorem wrote_append : wrote z f (calls ++ [call]) =
    (wrote z f calls || (decide (call.name = f) && SMTMemoryAccess.mayWrite z call.access)) := by
  rw [wrote, List.any_append, wrote]
  simp

namespace FnCallRanges

theorem known_inc : (ranges.inc z name access f).isSome = true ↔
    f = name ∨ (ranges f).isSome = true := by
  unfold inc
  by_cases same : f = name
  · rw [same, Function.update_self]
    simp
  · rw [Function.update_of_ne same]
    simp [same]

theorem known_meetWith : (ranges.meetWith z other f).isSome = true ↔
    (ranges f).isSome = true ∨ (other f).isSome = true := by
  unfold meetWith
  cases ranges f <;> cases other f <;> simp

theorem has_inc_of_ne
    (different : f ≠ name) : (ranges.inc z name access).Has f pair ↔ ranges.Has f pair := by
  unfold Has inc
  rw [Function.update_of_ne different]

theorem has_inc_none (absent : ranges f = none) :
    (ranges.inc z f access).Has f pair ↔ pair = (1, SMTMemoryAccess.mayWrite z access) := by
  unfold Has inc
  rw [Function.update_self, absent]
  simp

theorem has_inc_some (present : (ranges f).isSome = true) :
    (ranges.inc z f access).Has f pair ↔ ∃ old, ranges.Has f old ∧
      pair = ((old.1 + 1) % 2 ^ 32, old.2 || SMTMemoryAccess.mayWrite z access) := by
  obtain ⟨range, known⟩ := Option.isSome_iff_exists.1 present
  unfold Has inc
  rw [Function.update_self, known]
  simp only [Option.some.injEq, exists_eq_left', Finset.mem_image, eq_comm (a := pair)]

theorem has_meetWith : (ranges.meetWith z other).Has f pair ↔ ranges.Has f pair ∨ other.Has f pair ∨
      pair = (0, true) ∧ (ranges f).isSome ≠ (other f).isSome := by
  unfold Has meetWith
  cases ranges f with
  | none =>
    cases other f with
    | none => simp
    | some range => simp [or_comm]
  | some range =>
    cases other f with
    | none => simp [or_comm]
    | some range' => simp

theorem has_keepOnlyWrites :
    ranges.keepOnlyWrites.Has f pair ↔ ranges.Has f pair ∧ pair.2 = true := by
  unfold Has keepOnlyWrites
  cases ranges f with
  | none => simp
  | some range =>
    by_cases none_left : (range.calls.filter fun call => call.2) = ∅
    · simp only [Option.bind_some, if_pos none_left, reduceCtorEq, false_and, exists_false,
        Option.some.injEq, exists_eq_left', false_iff]
      rintro ⟨member, writes⟩
      have kept : pair ∈ range.calls.filter fun call => call.2 :=
        Finset.mem_filter.2 ⟨member, writes⟩
      rw [none_left] at kept
      exact absurd kept (Finset.notMem_empty pair)
    · simp only [Option.bind_some, if_neg none_left, Option.some.injEq, exists_eq_left',
        Finset.mem_filter]

theorem known_keepOnlyWrites :
    (ranges.keepOnlyWrites f).isSome = true ↔ ∃ n, ranges.Has f (n, true) := by
  constructor
  · intro present
    unfold keepOnlyWrites at present
    cases known : ranges f with
    | none => rw [known] at present; cases present
    | some range =>
      rw [known, Option.bind_some] at present
      dsimp only at present
      split at present
      · cases present
      · next some_left =>
        obtain ⟨pair, kept⟩ := Finset.nonempty_iff_ne_empty.2 some_left
        obtain ⟨member, writes⟩ := Finset.mem_filter.1 kept
        exact ⟨pair.1, range, known, writes ▸ member⟩
  · rintro ⟨n, has⟩
    obtain ⟨range, known, -⟩ := has_keepOnlyWrites.2 ⟨has, rfl⟩
    rw [known]
    rfl

end FnCallRanges

end

/-! ## Ways to a call -/

structure Collects (z : Z3) (f : String) (ranges : FnCallRanges) (ways : Set (List Call)) :
    Prop where
  some_way : ways.Nonempty
  known : (ranges f).isSome = true ↔ ∃ calls ∈ ways, 1 ≤ called f calls
  counted : ∀ pair, ranges.Has f pair → ∃ calls ∈ ways, called f calls % 2 ^ 32 = pair.1
  zero : ∀ calls ∈ ways, called f calls = 0 → (ranges f).isSome = true → ranges.Has f (0, true)
  present : ∀ calls ∈ ways, 1 ≤ called f calls → ∃ w, ranges.Has f (called f calls % 2 ^ 32, w) ∧
    (wrote z f calls = true → w = true)

namespace Collects

variable {z : Z3} {f : String} {ranges other : FnCallRanges} {ways ways' : Set (List Call)}
  {call : Call}

theorem known_of_has {pair : Nat × Bool} (has : ranges.Has f pair) : (ranges f).isSome = true := by
  obtain ⟨range, known, -⟩ := has
  rw [known]
  rfl

theorem called_zero (collects : Collects z f ranges ways) (absent : ranges f = none)
    {calls : List Call} (way : calls ∈ ways) : called f calls = 0 := by
  by_contra some_call
  have known := collects.known.2 ⟨calls, way, Nat.one_le_iff_ne_zero.2 some_call⟩
  rw [absent] at known
  cases known

theorem inc (collects : Collects z f ranges ways) :
    Collects z f (ranges.inc z call.name call.access) ((· ++ [call]) '' ways) := by
  obtain ⟨some_calls, some_way⟩ := collects.some_way
  by_cases same : f = call.name
  · have one_more : ∀ calls, called f (calls ++ [call]) = called f calls + 1 := by
      intro calls
      rw [called_append, if_pos same.symm]
    have writes : ∀ calls, wrote z f (calls ++ [call]) =
        (wrote z f calls || SMTMemoryAccess.mayWrite z call.access) := by
      intro calls
      rw [wrote_append, decide_eq_true same.symm, Bool.true_and]
    refine ⟨⟨_, some_calls, some_way, rfl⟩, ?_, ?_, ?_, ?_⟩
    · rw [FnCallRanges.known_inc]
      refine ⟨fun _ => ⟨_, ⟨some_calls, some_way, rfl⟩, ?_⟩, fun _ => .inl same⟩
      rw [one_more]
      exact Nat.le_add_left 1 _
    · intro pair has
      rw [← same] at has
      cases known : ranges f with
      | none =>
        rw [FnCallRanges.has_inc_none known] at has
        refine ⟨_, ⟨some_calls, some_way, rfl⟩, ?_⟩
        rw [one_more, collects.called_zero known some_way, has]
        rfl
      | some range =>
        rw [FnCallRanges.has_inc_some (by rw [known]; rfl)] at has
        obtain ⟨old, has, rfl⟩ := has
        obtain ⟨calls, way, count⟩ := collects.counted old has
        refine ⟨_, ⟨calls, way, rfl⟩, ?_⟩
        rw [one_more, ← count, Nat.mod_add_mod]
    · rintro _ ⟨calls, way, rfl⟩ none_called
      rw [one_more] at none_called
      exact absurd none_called (Nat.succ_ne_zero _)
    · rintro _ ⟨calls, way, rfl⟩ -
      rw [one_more, writes, ← same]
      cases known : ranges f with
      | none =>
        have fresh := collects.called_zero known way
        refine ⟨SMTMemoryAccess.mayWrite z call.access,
          (FnCallRanges.has_inc_none known).2 (by rw [fresh]; rfl), fun holds => ?_⟩
        have no_write : wrote z f calls = false := by
          rw [wrote, List.any_eq_false]
          intro c member writes
          have counts := List.countP_eq_zero.1 fresh c member
          rw [Bool.and_eq_true] at writes
          exact counts writes.1
        rw [no_write, Bool.false_or] at holds
        exact holds
      | some range =>
        have some_range : (ranges f).isSome = true := by rw [known]; rfl
        by_cases none_called : called f calls = 0
        · have zero := collects.zero calls way none_called some_range
          refine ⟨true, (FnCallRanges.has_inc_some some_range).2 ⟨_, zero, ?_⟩, fun _ => rfl⟩
          rw [none_called, Bool.true_or]
        · obtain ⟨w, has, flag⟩ :=
            collects.present calls way (Nat.one_le_iff_ne_zero.2 none_called)
          refine ⟨w || SMTMemoryAccess.mayWrite z call.access,
            (FnCallRanges.has_inc_some some_range).2 ⟨_, has, ?_⟩, fun holds => ?_⟩
          · rw [Nat.mod_add_mod]
          · rw [Bool.or_eq_true] at holds ⊢
            exact holds.imp flag id
  · have unchanged : ∀ calls, called f (calls ++ [call]) = called f calls := by
      intro calls
      rw [called_append, if_neg (Ne.symm same), Nat.add_zero]
    have writes : ∀ calls, wrote z f (calls ++ [call]) = wrote z f calls := by
      intro calls
      rw [wrote_append, decide_eq_false (Ne.symm same), Bool.false_and, Bool.or_false]
    refine ⟨⟨_, some_calls, some_way, rfl⟩, ?_, ?_, ?_, ?_⟩
    · rw [FnCallRanges.known_inc, or_iff_right same, collects.known]
      simp only [Set.exists_mem_image, unchanged]
    · intro pair has
      rw [FnCallRanges.has_inc_of_ne same] at has
      simp only [Set.exists_mem_image, unchanged]
      exact collects.counted pair has
    · rintro _ ⟨calls, way, rfl⟩ none_called known
      rw [FnCallRanges.known_inc, or_iff_right same] at known
      rw [unchanged] at none_called
      exact (FnCallRanges.has_inc_of_ne same).2 (collects.zero calls way none_called known)
    · rintro _ ⟨calls, way, rfl⟩ some_called
      rw [unchanged] at some_called ⊢
      rw [writes]
      obtain ⟨w, has, flag⟩ := collects.present calls way some_called
      exact ⟨w, (FnCallRanges.has_inc_of_ne same).2 has, flag⟩

theorem meetWith (left : Collects z f ranges ways) (right : Collects z f other ways') :
    Collects z f (ranges.meetWith z other) (ways ∪ ways') := by
  refine ⟨left.some_way.inl, ?_, ?_, ?_, ?_⟩
  · rw [FnCallRanges.known_meetWith, left.known, right.known]
    simp only [Set.mem_union, or_and_right, exists_or]
  · intro pair has
    simp only [Set.mem_union, or_and_right, exists_or]
    rcases FnCallRanges.has_meetWith.1 has with has | has | ⟨rfl, differ⟩
    · exact .inl (left.counted pair has)
    · exact .inr (right.counted pair has)
    · cases known : ranges f with
      | none =>
        obtain ⟨calls, way⟩ := left.some_way
        exact .inl ⟨calls, way, by rw [left.called_zero known way]; rfl⟩
      | some range =>
        have absent : other f = none := by
          rw [known] at differ
          cases known' : other f with
          | none => rfl
          | some range' => rw [known'] at differ; exact absurd rfl differ
        obtain ⟨calls, way⟩ := right.some_way
        exact .inr ⟨calls, way, by rw [right.called_zero absent way]; rfl⟩
  · intro calls way none_called known
    rw [FnCallRanges.has_meetWith]
    rw [FnCallRanges.known_meetWith] at known
    by_cases both : (ranges f).isSome = true ∧ (other f).isSome = true
    · rcases way with way | way
      · exact .inl (left.zero calls way none_called both.1)
      · exact .inr (.inl (right.zero calls way none_called both.2))
    · refine .inr (.inr ⟨rfl, fun same => both ?_⟩)
      rcases known with known | known
      · exact ⟨known, same ▸ known⟩
      · exact ⟨same ▸ known, known⟩
  · intro calls way some_called
    rcases way with way | way
    · obtain ⟨w, has, flag⟩ := left.present calls way some_called
      exact ⟨w, FnCallRanges.has_meetWith.2 (.inl has), flag⟩
    · obtain ⟨w, has, flag⟩ := right.present calls way some_called
      exact ⟨w, FnCallRanges.has_meetWith.2 (.inr (.inl has)), flag⟩

end Collects

namespace CallGraph

section

variable {z : Z3} {f : String} {blocks : List CallBlock} {block : CallBlock} {ranges : FnCallRanges}

theorem ends_append : ends z (blocks ++ [block]) =
    ends z blocks ++ [(start z (ends z blocks) block).map (exec z · block.calls)] := by
  rw [ends, List.foldl_append]
  rfl

theorem length_ends (z : Z3) (blocks : List CallBlock) :
    (ends z blocks).length = blocks.length := by
  induction blocks using List.reverseRecOn with
  | nil => rfl
  | append_singleton blocks block ih =>
    rw [ends_append, List.length_append, List.length_append, ih]
    rfl

theorem ends_at {k : Nat} (known : blocks[k]? = some block) : (ends z blocks)[k]? =
      some ((start z (ends z (blocks.take k)) block).map (exec z · block.calls)) := by
  induction blocks using List.reverseRecOn with
  | nil => cases known
  | append_singleton blocks last ih =>
    rw [ends_append]
    by_cases before : k < blocks.length
    · rw [List.getElem?_append_left before] at known
      rw [List.getElem?_append_left (by rw [length_ends]; exact before), ih known,
        List.take_append_of_le_length before.le]
    · have inside := (List.getElem?_eq_some_iff.1 known).1
      rw [List.length_append, List.length_singleton] at inside
      obtain rfl : k = blocks.length := by omega
      rw [List.getElem?_concat_length] at known
      cases known
      rw [← length_ends z blocks, List.getElem?_concat_length, length_ends, List.take_left]

variable {self : CallGraph} {k p j : Nat}

theorem calls_eq (known : self.blocks[k]? = some block) : self.calls k = block.calls := by
  rw [calls, known]
  rfl

theorem join_ends (before : p < k) :
    (ends z (self.blocks.take k))[p]?.join = self.rangesAt z p (self.calls p).length := by
  unfold rangesAt
  cases known : self.blocks[p]? with
  | none =>
    have outside := List.getElem?_eq_none_iff.1 known
    have missing : (ends z (self.blocks.take k))[p]? = none := by
      rw [List.getElem?_eq_none_iff, length_ends, List.length_take]
      omega
    rw [missing]
    rfl
  | some block =>
    have taken : (self.blocks.take k)[p]? = some block := by
      rw [List.getElem?_take_of_lt before, known]
    rw [ends_at taken, List.take_take, min_eq_left before.le, calls_eq known, Option.bind_some,
      List.take_length]
    rfl

theorem rangesAt_succ {call : Call} (next : (self.calls k)[j]? = some call) :
    self.rangesAt z k (j + 1) =
      (self.rangesAt z k j).map fun ranges => ranges.inc z call.name call.access := by
  unfold rangesAt
  cases known : self.blocks[k]? with
  | none => rfl
  | some block =>
    rw [calls_eq known] at next
    obtain ⟨inside, rfl⟩ := List.getElem?_eq_some_iff.1 next
    rw [Option.bind_some, Option.bind_some, Option.map_map, List.take_add_one,
      List.getElem?_eq_getElem inside]
    congr 1
    funext ranges
    rw [exec, List.foldl_append]
    rfl

theorem rangesAt_past (past : (self.calls k).length ≤ j) :
    self.rangesAt z k (j + 1) = self.rangesAt z k j := by
  unfold rangesAt
  cases known : self.blocks[k]? with
  | none => rfl
  | some block =>
    rw [calls_eq known] at past
    rw [Option.bind_some, Option.bind_some, List.take_of_length_le past,
      List.take_of_length_le (Nat.le_succ_of_le past)]

end

/-! ## The ways through the blocks -/

variable (self : CallGraph)

def ways (k j : Nat) : Set (List Call) :=
  {calls | ∃ rest, self.Path (k :: rest) ∧ calls = self.trace rest ++ (self.calls k).take j}

def Described (z : Z3) (f : String) (found : Option FnCallRanges) (ways : Set (List Call)) :
    Prop :=
  match found with
  | none => ways = ∅
  | some ranges => Collects z f ranges ways

variable {self} {z : Z3} {f : String} {k p j : Nat}

variable {call : Call} {block : CallBlock} {preds rest path : List Nat} {acc ranges : FnCallRanges}
  {sets : Nat → Set (List Call)} {done : List (Option FnCallRanges)} {pair : Nat × Bool}

theorem ways_succ (next : (self.calls k)[j]? = some call) :
    self.ways k (j + 1) = (· ++ [call]) '' self.ways k j := by
  have longer : (self.calls k).take (j + 1) = (self.calls k).take j ++ [call] := by
    rw [List.take_add_one, next]
    rfl
  ext calls
  constructor
  · rintro ⟨rest, path, rfl⟩
    exact ⟨_, ⟨rest, path, rfl⟩, by rw [longer, ← List.append_assoc]⟩
  · rintro ⟨_, ⟨rest, path, rfl⟩, rfl⟩
    exact ⟨rest, path, by rw [longer, ← List.append_assoc]⟩

theorem ways_past (past : (self.calls k).length ≤ j) : self.ways k (j + 1) = self.ways k j := by
  unfold ways
  rw [List.take_of_length_le past, List.take_of_length_le (Nat.le_succ_of_le past)]

theorem ways_zero (known : self.blocks[k]? = some block) (later : k ≠ 0) :
    self.ways k 0 = {calls | ∃ p ∈ block.preds, calls ∈ self.ways p (self.calls p).length} := by
  ext calls
  constructor
  · rintro ⟨rest, path, rfl⟩
    cases path with
    | entry _ => exact absurd rfl later
    | jump path known' member =>
      rw [known] at known'
      cases known'
      refine ⟨_, member, _, path, ?_⟩
      rw [List.take_length, List.take_zero, List.append_nil]
      rfl
  · rintro ⟨p, member, rest, path, rfl⟩
    refine ⟨p :: rest, .jump path known member, ?_⟩
    rw [List.take_length, List.take_zero, List.append_nil]
    rfl

theorem foldl_collects {found : Nat → Option FnCallRanges} {before : Set (List Call)}
    (start : Collects z f acc before) (each : ∀ p ∈ preds, Described z f (found p) (sets p)) :
    Collects z f ((preds.filterMap found).foldl (FnCallRanges.meetWith z) acc)
      (before ∪ {calls | ∃ p ∈ preds, calls ∈ sets p}) := by
  induction preds generalizing acc before with
  | nil => simpa using start
  | cons p rest ih =>
    rw [List.forall_mem_cons] at each
    have split : before ∪ {calls | ∃ q ∈ p :: rest, calls ∈ sets q} =
        before ∪ sets p ∪ {calls | ∃ q ∈ rest, calls ∈ sets q} := by
      ext calls
      simp [or_assoc]
    rw [split]
    have first := each.1
    cases known : found p with
    | none =>
      rw [known, Described] at first
      rw [List.filterMap_cons_none known, first, Set.union_empty]
      exact ih start each.2
    | some ranges =>
      rw [known, Described] at first
      rw [List.filterMap_cons_some known, List.foldl_cons]
      exact ih (start.meetWith first) each.2

theorem startBB_described (each : ∀ p ∈ preds, Described z f done[p]?.join (sets p)) :
    Described z f (startBB z done preds) {calls | ∃ p ∈ preds, calls ∈ sets p} := by
  induction preds with
  | nil =>
    rw [startBB, List.filterMap_nil, Described]
    simp
  | cons p rest ih =>
    rw [List.forall_mem_cons] at each
    have split : {calls | ∃ q ∈ p :: rest, calls ∈ sets q} =
        sets p ∪ {calls | ∃ q ∈ rest, calls ∈ sets q} := by
      ext calls
      simp
    have first := each.1
    rw [split]
    cases known : done[p]?.join with
    | none =>
      rw [known, Described] at first
      have same : startBB z done (p :: rest) = startBB z done rest := by
        rw [startBB, List.filterMap_cons_none (f := fun q => done[q]?.join) known, startBB]
      rw [same, first, Set.empty_union]
      exact ih each.2
    | some ranges =>
      rw [known, Described] at first
      rw [startBB, List.filterMap_cons_some (f := fun q => done[q]?.join) known]
      exact foldl_collects first each.2

theorem described_calls (start : Described z f (self.rangesAt z k 0) (self.ways k 0)) :
    Described z f (self.rangesAt z k j) (self.ways k j) := by
  induction j with
  | zero => exact start
  | succ j ih =>
    cases next : (self.calls k)[j]? with
    | none =>
      rw [List.getElem?_eq_none_iff] at next
      rw [rangesAt_past next, ways_past next]
      exact ih
    | some call =>
      rw [rangesAt_succ next, ways_succ next]
      cases known : self.rangesAt z k j with
      | none =>
        rw [known, Described] at ih
        rw [Option.map_none, Described, ih, Set.image_empty]
      | some ranges =>
        rw [known, Described] at ih
        rw [Option.map_some, Described]
        exact ih.inc

theorem ways_entry (some_block : self.blocks ≠ []) : self.ways 0 0 = {[]} := by
  ext calls
  constructor
  · rintro ⟨rest, path, rfl⟩
    cases path with
    | entry _ => rfl
    | jump _ known member => exact absurd (self.forward _ _ known _ member) (Nat.not_lt_zero _)
  · rintro rfl
    exact ⟨[], .entry some_block, rfl⟩

theorem collects_entry (z : Z3) (f : String) : Collects z f (fun _ => none) {[]} where
  some_way := ⟨[], rfl⟩
  known := by simp [called]
  counted pair has := by
    obtain ⟨range, known, -⟩ := has
    cases known
  zero calls _ _ known := by cases known
  present calls way some_called := by
    obtain rfl := Set.mem_singleton_iff.1 way
    cases some_called

theorem rangesAt_zero (known : self.blocks[k]? = some block) (later : k ≠ 0) :
    self.rangesAt z k 0 = startBB z (ends z (self.blocks.take k)) block.preds := by
  have inside := (List.getElem?_eq_some_iff.1 known).1
  have some_done : ends z (self.blocks.take k) ≠ [] := by
    rw [← List.length_pos_iff_ne_nil, length_ends, List.length_take]
    omega
  unfold rangesAt
  rw [known, Option.bind_some, List.take_zero, start, if_neg some_done]
  exact Option.map_id'

theorem Path.block_known
    (path : self.Path (k :: rest)) : ∃ block, self.blocks[k]? = some block := by
  cases path with
  | entry some_block =>
    exact ⟨_, List.getElem?_eq_getElem (List.length_pos_iff_ne_nil.2 some_block)⟩
  | jump _ known _ => exact ⟨_, known⟩

theorem described (self : CallGraph) (z : Z3) (f : String) (k j : Nat) :
    Described z f (self.rangesAt z k j) (self.ways k j) := by
  induction k using Nat.strong_induction_on generalizing j with
  | _ k ih =>
    apply described_calls
    cases known : self.blocks[k]? with
    | none =>
      have missing : self.rangesAt z k 0 = none := by
        unfold rangesAt
        rw [known, Option.bind_none]
      rw [missing, Described, Set.eq_empty_iff_forall_notMem]
      rintro calls ⟨rest, path, -⟩
      obtain ⟨block, known'⟩ := path.block_known
      rw [known] at known'
      cases known'
    | some block =>
      by_cases first : k = 0
      · subst first
        have some_block : self.blocks ≠ [] := by
          intro none_left
          rw [none_left] at known
          cases known
        unfold rangesAt
        rw [known, Option.bind_some, List.take_zero, List.take_zero, ways_entry some_block]
        exact collects_entry z f
      · rw [rangesAt_zero known first, ways_zero known first]
        refine startBB_described fun p member => ?_
        have before := self.forward k block known p member
        rw [join_ends before]
        exact ih p before _

theorem Path.collects (path : self.Path (k :: rest)) (z : Z3) (f : String) (j : Nat) :
    ∃ ranges, self.rangesAt z k j = some ranges ∧ Collects z f ranges (self.ways k j) := by
  have way : self.trace rest ++ (self.calls k).take j ∈ self.ways k j := ⟨rest, path, rfl⟩
  have found := self.described z f k j
  cases known : self.rangesAt z k j with
  | none =>
    rw [known, Described] at found
    rw [found] at way
    exact absurd way (Set.notMem_empty _)
  | some ranges =>
    rw [known, Described] at found
    exact ⟨ranges, rfl, found⟩

/-! ## Calls that only read -/

def Alone (self : CallGraph) (f : String) (path : List Nat) : Prop :=
  ∀ (k : Nat) (rest : List Nat) (i : Nat) (call : Call), (k :: rest) <:+ path →
    (self.calls k)[i]? = some call → call.name = f →
      called f (self.trace rest ++ (self.calls k).take i) = 0 →
        ∀ calls ∈ self.ways k i, called f calls = 0

theorem foldl_has {found : List FnCallRanges}
    (given : acc.Has f pair ∨ ranges ∈ found ∧ ranges.Has f pair) :
    (found.foldl (FnCallRanges.meetWith z) acc).Has f pair := by
  induction found generalizing acc with
  | nil =>
    rcases given with has | ⟨absent, -⟩
    · exact has
    · exact absurd absent List.not_mem_nil
  | cons first rest ih =>
    apply ih
    rcases given with has | ⟨member, has⟩
    · exact .inl (FnCallRanges.has_meetWith.2 (.inl has))
    · rcases List.mem_cons.1 member with rfl | later
      · exact .inl (FnCallRanges.has_meetWith.2 (.inr (.inl has)))
      · exact .inr ⟨later, has⟩

theorem startBB_has {result : FnCallRanges} (member : p ∈ preds)
    (known : done[p]?.join = some ranges) (has : ranges.Has f pair)
    (started : startBB z done preds = some result) : result.Has f pair := by
  have present : ranges ∈ preds.filterMap fun q => done[q]?.join :=
    List.mem_filterMap.2 ⟨p, member, known⟩
  rw [startBB] at started
  split at started
  · cases started
  · next first rest shape =>
    cases started
    rw [shape] at present
    apply foldl_has
    rcases List.mem_cons.1 present with rfl | later
    · exact .inl has
    · exact .inr ⟨later, has⟩

theorem readOnly_calls (path : self.Path (k :: rest)) (alone : self.Alone f (k :: rest))
    (start : ∀ ranges, self.rangesAt z k 0 = some ranges →
      1 ≤ called f (self.trace rest) → wrote z f (self.trace rest) = false →
        ranges.Has f (called f (self.trace rest) % 2 ^ 32, false)) :
    ∀ ranges, self.rangesAt z k j = some ranges →
      1 ≤ called f (self.trace rest ++ (self.calls k).take j) →
        wrote z f (self.trace rest ++ (self.calls k).take j) = false →
          ranges.Has f (called f (self.trace rest ++ (self.calls k).take j) % 2 ^ 32, false) := by
  induction j with
  | zero =>
    rw [List.take_zero, List.append_nil]
    exact start
  | succ j ih =>
    intro ranges known some_called reads
    cases next : (self.calls k)[j]? with
    | none =>
      rw [List.getElem?_eq_none_iff] at next
      rw [rangesAt_past next] at known
      rw [List.take_of_length_le (Nat.le_succ_of_le next)] at some_called reads ⊢
      rw [List.take_of_length_le next] at ih
      exact ih ranges known some_called reads
    | some call =>
      have longer : self.trace rest ++ (self.calls k).take (j + 1) =
          self.trace rest ++ (self.calls k).take j ++ [call] := by
        rw [List.take_add_one, next, List.append_assoc]
        rfl
      rw [rangesAt_succ next] at known
      rw [longer] at some_called reads ⊢
      rw [wrote_append, Bool.or_eq_false_iff] at reads
      rw [called_append] at some_called ⊢
      obtain ⟨before, known', rfl⟩ := Option.map_eq_some_iff.1 known
      obtain ⟨before', same, collects⟩ := path.collects z f j
      rw [known'] at same
      cases same
      by_cases this_call : call.name = f
      · subst this_call
        rw [decide_eq_true rfl, Bool.true_and] at reads
        rw [if_pos rfl]
        by_cases first : called call.name (self.trace rest ++ (self.calls k).take j) = 0
        · have fresh := alone k rest j call (List.suffix_refl _) next rfl first
          have absent : before call.name = none := by
            rw [← Option.not_isSome_iff_eq_none, collects.known]
            rintro ⟨calls, way, some_call⟩
            rw [fresh calls way] at some_call
            cases some_call
          rw [first, FnCallRanges.has_inc_none absent, reads.2]
          rfl
        · have has := ih before known' (Nat.one_le_iff_ne_zero.2 first) reads.1
          rw [FnCallRanges.has_inc_some (Collects.known_of_has has)]
          refine ⟨_, has, ?_⟩
          rw [Nat.mod_add_mod, reads.2]
          rfl
      · rw [if_neg this_call, Nat.add_zero] at some_called ⊢
        exact (FnCallRanges.has_inc_of_ne (Ne.symm this_call)).2
          (ih before known' some_called reads.1)

theorem readOnly_path (whole : self.Path path) (z : Z3) (f : String) :
    ∀ (k : Nat) (rest : List Nat), path = k :: rest → self.Alone f (k :: rest) →
      ∀ (j : Nat) (ranges : FnCallRanges), self.rangesAt z k j = some ranges →
        1 ≤ called f (self.trace rest ++ (self.calls k).take j) →
          wrote z f (self.trace rest ++ (self.calls k).take j) = false → ranges.Has f
              (called f (self.trace rest ++ (self.calls k).take j) % 2 ^ 32, false) := by
  induction whole with
  | entry some_block =>
    rintro k rest same alone j ranges known some_called reads
    cases same
    exact readOnly_calls (.entry some_block) alone
      (fun _ _ none_called _ => absurd none_called (by simp [trace, called])) ranges known
      some_called reads
  | @jump k p block rest path known member ih =>
    rintro k' rest' same alone j ranges found some_called reads
    cases same
    refine readOnly_calls (.jump path known member) alone ?_ ranges found some_called reads
    intro result started some_call reads'
    have before := self.forward k block known p member
    have later : k ≠ 0 := Nat.ne_of_gt (Nat.zero_lt_of_lt before)
    obtain ⟨ranges', ended, -⟩ := path.collects z f (self.calls p).length
    have shorter : self.Alone f (p :: rest) :=
      fun k rest i call part => alone k rest i call (part.trans (List.suffix_cons _ _))
    have has := ih p rest rfl shorter (self.calls p).length ranges' ended
    rw [List.take_length] at has
    rw [rangesAt_zero known later] at started
    exact startBB_has member ((join_ends before).trans ended) (has some_call reads') started

/-- On every way to every call the ranges have the number of calls of each function,
with whether one of them may write unless the function was in the map before the way
called it; a function of the map that the way does not call has `(0, true)`. The
ranges have nothing else, and `keepOnlyWrites` drops what is not marked as writing. -/
theorem call_ranges_collect
    (self : CallGraph) (z : Z3) {k : Nat} {rest : List Nat}
    (path : self.Path (k :: rest)) (j : Nat) :
    ∃ ranges, self.rangesAt z k j = some ranges ∧ ∀ f,
      (called f (self.trace rest ++ (self.calls k).take j) = 0 → (ranges f).isSome = true →
        ranges.Has f (0, true)) ∧
      (1 ≤ called f (self.trace rest ++ (self.calls k).take j) → ∃ w,
        ranges.Has f (called f (self.trace rest ++ (self.calls k).take j) % 2 ^ 32, w) ∧
        (wrote z f (self.trace rest ++ (self.calls k).take j) = true → w = true) ∧
        (wrote z f (self.trace rest ++ (self.calls k).take j) = false →
          self.Alone f (k :: rest) → w = false)) ∧
      ((ranges f).isSome = true ↔ ∃ calls ∈ self.ways k j, 1 ≤ called f calls) ∧
      (∀ pair, ranges.Has f pair →
        ∃ calls ∈ self.ways k j, called f calls % 2 ^ 32 = pair.1) ∧
      (∀ pair, ranges.keepOnlyWrites.Has f pair ↔ ranges.Has f pair ∧ pair.2 = true) ∧
      ((ranges.keepOnlyWrites f).isSome = true ↔ ∃ n, ranges.Has f (n, true)) := by
  obtain ⟨ranges, known, -⟩ := path.collects z "" j
  refine ⟨ranges, known, fun f => ?_⟩
  obtain ⟨ranges', known', collects⟩ := path.collects z f j
  rw [known] at known'
  cases known'
  have way : self.trace rest ++ (self.calls k).take j ∈ self.ways k j := ⟨rest, path, rfl⟩
  refine ⟨collects.zero _ way, fun some_called => ?_, collects.known, collects.counted,
    fun pair => FnCallRanges.has_keepOnlyWrites, FnCallRanges.known_keepOnlyWrites⟩
  obtain ⟨w, has, flag⟩ := collects.present _ way some_called
  by_cases new_read : wrote z f (self.trace rest ++ (self.calls k).take j) = false ∧
      self.Alone f (k :: rest)
  · obtain ⟨reads, alone⟩ := new_read
    refine ⟨false, ?_, fun writes => ?_, fun _ _ => rfl⟩
    · exact readOnly_path path z f k rest rfl alone j ranges known some_called reads
    · rw [reads] at writes
      cases writes
  · exact ⟨w, has, flag, fun reads alone => absurd ⟨reads, alone⟩ new_read⟩

def readEverything : Expr := Expr.mkUInt 682 10

/-- A branch around the block 1. It and the block after the branch call the same
function, which only reads. -/
def branchAround : CallGraph where
  blocks := [⟨[], []⟩, ⟨[⟨"f", readEverything⟩], [0]⟩, ⟨[], [0]⟩,
    ⟨[⟨"f", readEverything⟩], [1, 2]⟩]
  forward := by
    intro k block known p member
    have inside := (List.getElem?_eq_some_iff.1 known).1
    have checked : ∀ k < 4, ∀ block ∈ ([⟨[], []⟩, ⟨[⟨"f", readEverything⟩], [0]⟩, ⟨[], [0]⟩,
        ⟨[⟨"f", readEverything⟩], [1, 2]⟩] : List CallBlock)[k]?, ∀ p ∈ block.preds, p < k := by
      decide
    exact checked k inside block known p member

theorem path_branchAround : branchAround.Path [3, 2, 0] :=
  .jump (.jump (.entry (by decide)) rfl (by decide)) rfl (by decide)

theorem call_ranges_collect_branchAround :
    ∃ ranges, branchAround.rangesAt Z3.reference 3 0 = some ranges ∧
      (called "f" (branchAround.trace [2, 0]) = 0 → (ranges "f").isSome = true →
        ranges.Has "f" (0, true)) := by
  obtain ⟨ranges, known, each⟩ := branchAround.call_ranges_collect Z3.reference path_branchAround 0
  exact ⟨ranges, known, (each "f").1⟩

theorem mem_trace {self : CallGraph}
    (member : call ∈ self.trace path) : ∃ k, call ∈ self.calls k := by
  induction path with
  | nil => exact absurd member List.not_mem_nil
  | cons k rest ih =>
    rcases List.mem_append.1 member with before | own
    · exact ih before
    · exact ⟨k, own⟩

theorem branchAround_reads {f : String} {k j : Nat} {calls : List Call}
    (way : calls ∈ branchAround.ways k j) : wrote Z3.reference f calls = false := by
  obtain ⟨rest, -, rfl⟩ := way
  rw [wrote, List.any_eq_false]
  intro call member
  have own : ∃ k, call ∈ branchAround.calls k := by
    rcases List.mem_append.1 member with before | here
    · exact mem_trace before
    · exact ⟨k, List.mem_of_mem_take here⟩
  obtain ⟨k, own⟩ := own
  have reads : SMTMemoryAccess.mayWrite Z3.reference call.access = false := by
    by_cases inside : k < 4
    · have checked : ∀ k < 4, ∀ call ∈ branchAround.calls k, call.access = readEverything := by
        decide
      rw [checked k inside call own]
      decide
    · have none_there : branchAround.calls k = [] := by
        rw [CallGraph.calls, List.getElem?_eq_none_iff.2 (not_lt.1 inside)]
        rfl
      rw [none_there] at own
      exact absurd own List.not_mem_nil
  rw [reads, Bool.and_false]
  exact Bool.false_ne_true

/-- After the branch the read is taken for a write, since the pair `(0, true)` of the
way around block 1 keeps its flag; and this pair is no number of writing calls. -/
theorem call_ranges_of_join :
    (¬∀ (self : CallGraph) (z : Z3) (k : Nat) (rest : List Nat) (j : Nat) (ranges : FnCallRanges)
        (f : String), self.Path (k :: rest) → self.rangesAt z k j = some ranges →
        1 ≤ called f (self.trace rest ++ (self.calls k).take j) →
          ranges.Has f (called f (self.trace rest ++ (self.calls k).take j) % 2 ^ 32,
            wrote z f (self.trace rest ++ (self.calls k).take j))) ∧
    ¬∀ (self : CallGraph) (z : Z3) (k j : Nat) (ranges : FnCallRanges) (f : String)
        (pair : Nat × Bool), self.rangesAt z k j = some ranges →
        ranges.keepOnlyWrites.Has f pair →
          ∃ calls ∈ self.ways k j, called f calls % 2 ^ 32 = pair.1 ∧ wrote z f calls = true := by
  constructor
  · intro claim
    obtain ⟨ranges, known, -⟩ := path_branchAround.collects Z3.reference "f" 1
    obtain ⟨range, found, member⟩ :=
      claim branchAround Z3.reference 3 [2, 0] 1 ranges "f" path_branchAround known (by decide)
    have pairs : (branchAround.rangesAt Z3.reference 3 1).map
        (fun ranges => (ranges "f").map CallRange.calls) = some (some {(2, false), (1, true)}) := by
      decide
    rw [known, Option.map_some, found, Option.map_some, Option.some.injEq,
      Option.some.injEq] at pairs
    rw [pairs] at member
    exact absurd member (by decide)
  · intro claim
    obtain ⟨ranges, known, collects⟩ := path_branchAround.collects Z3.reference "f" 0
    have this_way : branchAround.trace [2, 0] ∈ branchAround.ways 3 0 :=
      ⟨[2, 0], path_branchAround, rfl⟩
    have other_way : branchAround.trace [1, 0] ∈ branchAround.ways 3 0 :=
      ⟨[1, 0], .jump (.jump (.entry (by decide)) rfl (by decide)) rfl (by decide), rfl⟩
    have has := collects.zero _ this_way (by decide) (collects.known.2 ⟨_, other_way, by decide⟩)
    have kept := FnCallRanges.has_keepOnlyWrites.2 ⟨has, rfl⟩
    obtain ⟨calls, way, -, writes⟩ :=
      claim branchAround Z3.reference 3 0 ranges "f" (0, true) known kept
    rw [branchAround_reads way] at writes
    cases writes

end CallGraph

end AliveNext.IR
