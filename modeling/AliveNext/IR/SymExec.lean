import AliveNext.Smt.Factor

/-!
# Path conditions

`sym_exec` of `util/symexec.cpp` executes the blocks of a function in topological order.
`State::startBB` joins what the jumps to a block have left in `predecessor_data`, and
`addJump`, `addCondJump` and `addReturn` of `ir/state.cpp` put the state at the end of the
block there.
-/

namespace AliveNext.Smt

instance : DecidableEq AndExpr := fun a b =>
  decidable_of_iff (a.exprs.elements = b.exprs.elements) (by
    obtain ⟨⟨elements, nodup⟩⟩ := a
    obtain ⟨⟨elements', nodup'⟩⟩ := b
    simp)

def DisjointExpr.addDisj {T : Type} [DecidableEq T] (less : T → T → Bool)
    (self other : DisjointExpr T) (domain : Expr) : DisjointExpr T :=
  self.addEach less (other.vals.entries.map fun entry => (entry.1, Expr.and entry.2 domain))

theorem DisjointExpr.sorted_of_toValue {T V : Type} {mkIf : Expr → T → T → T} {m : Meaning mkIf V}
    {self : DisjointExpr T} {t : T} (conditions : Conditions self.vals.entries)
    (sorts : ∀ v ∈ self.vals.entries.map Prod.fst, m.Sorted v) (unset : self.defaultVal = none)
    (known : self.toValue mkIf = some t) : m.Sorted t := by
  have nonempty : self.vals.entries ≠ [] := by
    intro nothing
    rw [toValue_of_nil nothing, unset] at known
    cases known
  obtain ⟨t', known', sorted⟩ := toValue_sorted conditions sorts nonempty
  rw [known, Option.some.injEq] at known'
  exact known' ▸ sorted

theorem DisjointExpr.factor_boolean (z : Z3) {self : DisjointExpr AndExpr} {ret : AndExpr}
    (conditions : Conditions self.vals.entries)
    (boolean : ∀ v ∈ self.vals.entries.map Prod.fst, v.Boolean)
    (known : self.factor z = some ret) : ret.Boolean := by
  unfold factor at known
  split at known
  · cases known
  · next val condition shape =>
    cases known
    exact boolean _ (by rw [shape]; exact List.mem_cons_self)
  · next first rest _ shape =>
    rw [shape] at conditions boolean
    rw [List.map_cons, List.forall_mem_cons] at boolean
    have others : ∀ elements ∈ (rest.map fun entry =>
        (⟨[], entry.1.exprs.elements⟩ : Cursor)).map Cursor.elements,
        ∀ e ∈ elements, e.HasSort .bool := by
      intro elements member
      rw [List.map_map] at member
      obtain ⟨entry, inside, rfl⟩ := List.mem_map.1 member
      exact boolean.2 _ (List.mem_map_of_mem inside)
    have start : ({} : AndExpr).Boolean := List.forall_mem_nil _
    have own : ∀ e ∈ [] ++ first.1.exprs.elements, e.HasSort .bool := boolean.1
    have spec := walk_spec z start own others
    generalize walk z {} [] first.1.exprs.elements _ = walked at spec known
    obtain ⟨taken, sets⟩ := walked
    obtain ⟨sortedTaken, sortedSets, -⟩ := spec
    obtain ⟨t, chosen, rfl⟩ := Option.map_eq_some_iff.1 known
    have pieces := zipWith_sorts sortedSets conditions
    have empty : Conditions ({} : DisjointExpr Expr).vals.entries :=
      List.forall_mem_nil _
    refine sortedTaken.add (DisjointExpr.sorted_of_toValue (m := Expr.meaning z .bool)
      (conditions_addEach empty fun piece inside => (pieces piece inside).2) ?_
      defaultVal_addEach chosen)
    intro t inside
    obtain ⟨piece, present, rfl⟩ :=
      List.mem_map.1 ((mem_addEach inside).resolve_right List.not_mem_nil)
    exact (pieces piece present).1

theorem AndExpr.holds_addAll {z : Z3} {M : Model} {self other : AndExpr} :
    (self.addAll z other).holds M = (self.holds M && other.holds M) := by
  rw [Bool.eq_iff_iff, Bool.and_eq_true]
  simp only [holds, List.all_eq_true, addAll, ExprSet.mem_foldl_insert]
  constructor
  · exact fun all => ⟨fun e old => all e (.inr old), fun e new => all e (.inl new)⟩
  · exact fun both e member => member.elim (both.2 e) (both.1 e)

end AliveNext.Smt

namespace AliveNext.IR.SymExec

open Smt

/-! ## Functions -/

/-- A call of `addJump`; `last` is its argument `always_jump`. -/
structure Jump where
  cond : Expr
  dst : Nat
  last : Bool

/-- The path condition after the jump. -/
def Jump.pathAfter (self : Jump) (path : Expr) : Expr :=
  if self.last || self.cond.isTrue then .bool false else path

/-- The instruction at the end of a block; `stop` is for a block without one. -/
inductive Exit (U : Type) where
  | jump (dst : Nat)
  | branch (cond : Expr) (dstTrue dstFalse : Nat)
  | switch (bits : Nat) (value : Expr) (targets : List (BitVec bits × Nat)) (default : Nat)
  | ret (val : U)
  | stop

namespace Exit

variable {U : Type}

/-- `Branch::toSMT` with `addCondJump`, and `Switch::toSMT`. -/
def jumps (z : Z3) : Exit U → List Jump
  | .jump dst => [⟨.bool true, dst, true⟩]
  | .branch cond dstTrue dstFalse =>
    let condFalse := Expr.cmpEq z cond (Expr.mkUInt 0 1)
    [⟨Expr.not condFalse, dstTrue, false⟩, ⟨condFalse, dstFalse, true⟩]
  | .switch bits value targets default =>
    let cmp (target : BitVec bits × Nat) := Expr.cmpEq z value (.num bits target.1)
    let defaultCond := targets.foldl (fun cond target => Expr.and cond (Expr.not (cmp target)))
      (.bool true)
    (targets.map fun target => ⟨cmp target, target.2, false⟩) ++ [⟨defaultCond, default, true⟩]
  | .ret _ | .stop => []

/-- Where control goes in a model. -/
noncomputable def target (M : Model) : Exit U → Option Nat
  | .jump dst => some dst
  | .branch cond dstTrue dstFalse => some (if cond.bv M 1 = 0#1 then dstFalse else dstTrue)
  | .switch bits value targets default =>
    some (((targets.find? fun target => target.1 = value.bv M bits).map Prod.snd).getD default)
  | .ret _ | .stop => none

def returned : Exit U → Option U
  | .ret val => some val
  | _ => none

/-- The conditions are bit-vectors, and the targets of a switch are distinct. -/
def WellTyped (M : Model) : Exit U → Prop
  | .branch cond _ _ => cond.HasSort (.bv 1) ∧ cond.NonzeroDivisors M
  | .switch bits value targets _ =>
    value.HasSort (.bv bits) ∧ value.NonzeroDivisors M ∧ (targets.map Prod.fst).Nodup
  | _ => True

end Exit

/-- What the instructions of a block do: the conditions they add to the UB condition, the
memory they leave, and the end of the block. -/
structure Executed (T U : Type) where
  ub : List Expr
  memory : T
  exit : Exit U

/-- A function: its blocks in the order of `getBBs`, and the memory at the entry. -/
structure Function (T U : Type) where
  blocks : List Nat
  entry : Nat
  sink : Nat
  memory : T
  exec : Nat → T → Executed T U

/-! ## The state -/

/-- `BasicBlockInfo`. -/
structure BlockInfo (T : Type) where
  path : OrExpr := {}
  UB : DisjointExpr AndExpr := {}
  mem : DisjointExpr T := {}

/-- `CurrentDomain`. -/
structure Domain where
  path : Expr := .bool true
  UB : AndExpr := {}

/-- `operator()`. -/
def Domain.toExpr (self : Domain) : Expr := Expr.and self.path self.UB.toExpr

/-- `operator bool`. -/
def Domain.toBool (self : Domain) : Bool := !self.path.isFalse && self.UB.toBool

structure State (T U : Type) where
  current : Nat
  domain : Domain := {}
  memory : T
  predecessorData : Nat → Nat → Option (BlockInfo T) := fun _ _ => none
  seen : List Nat := []
  returnVal : DisjointExpr U
  returnMemory : DisjointExpr T := {}
  returnDomain : OrExpr := {}

/-- What joining takes: the solver, the conditionals, the orders of the maps, the order in
which `predecessor_data` lists the predecessors of a block, and the dummy value. -/
structure Joins (T U : Type) where
  z : Z3
  mkIfMem : Expr → T → T → T
  mkIfVal : Expr → U → U → U
  lessUB : AndExpr → AndExpr → Bool
  lessMem : T → T → Bool
  lessVal : U → U → Bool
  listed : Nat → List Nat
  dummy : U

section

variable {T U : Type} [DecidableEq T] (j : Joins T U) (f : Function T U)

namespace State

/-- The data of the jumps to a block. -/
def incoming (s : State T U) (b : Nat) : List (BlockInfo T) :=
  (j.listed b).filterMap (s.predecessorData b)

def joinedPath (data : List (BlockInfo T)) : OrExpr :=
  data.foldl (fun path info => path.addAll j.z info.path) {}

/-- `add_disj` for each predecessor. -/
def joinedVals {X : Type} [DecidableEq X] (less : X → X → Bool)
    (values : BlockInfo T → DisjointExpr X) (data : List (BlockInfo T)) : DisjointExpr X :=
  data.foldl (fun joined info => joined.addDisj less (values info) info.path.toExpr) {}

def joinedUB (data : List (BlockInfo T)) : AndExpr :=
  ({} : AndExpr).addAll j.z (((joinedVals j.lessUB BlockInfo.UB data).factor j.z).getD {})

def joinedMemory (data : List (BlockInfo T)) : Option T :=
  (joinedVals j.lessMem BlockInfo.mem data).toValue j.mkIfMem

/-- `startBB`, with whether the block is executed. A map without an entry, which the code must
not read, leaves the state. -/
def startBB (s : State T U) (b : Nat) : Bool × State T U :=
  let s := { s with seen := b :: s.seen, current := b }
  if b = f.entry then (true, s)
  else
    match s.incoming j b with
    | [] => (false, s)
    | data =>
      let domain : Domain := ⟨(joinedPath j data).toExpr, joinedUB j data⟩
      (domain.toBool, { s with domain := domain, memory := (joinedMemory j data).getD s.memory })

def getPath (s : State T U) (b : Nat) : Expr :=
  if b = f.entry then .bool true else (joinedPath j (s.incoming j b)).toExpr

def addJump (s : State T U) (jump : Jump) : State T U :=
  let cond := Expr.and jump.cond s.domain.path
  if cond.isFalse || !s.domain.toBool then s
  else
    let dst := if jump.dst ∈ s.seen then f.sink else jump.dst
    let data := (s.predecessorData dst s.current).getD {}
    let data : BlockInfo T :=
      { path := data.path.add j.z cond
        UB := data.UB.add j.lessUB s.domain.UB cond
        mem := data.mem.add j.lessMem s.memory cond }
    { s with
      predecessorData := Function.update s.predecessorData dst
        (Function.update (s.predecessorData dst) s.current (some data))
      domain := { s.domain with path := jump.pathAfter s.domain.path } }

variable [DecidableEq U]

def addReturn (s : State T U) (val : U) : State T U :=
  { s with
    returnVal := s.returnVal.add j.lessVal val s.domain.path
    returnMemory := s.returnMemory.add j.lessMem s.memory s.domain.path
    returnDomain := s.returnDomain.add j.z s.domain.toExpr
    domain := { s.domain with path := .bool false } }

/-- The instructions of the current block. -/
def execBlock (s : State T U) : State T U :=
  let executed := f.exec s.current s.memory
  let s := { s with
    domain := { s.domain with UB := executed.ub.foldl (AndExpr.add j.z 16) s.domain.UB }
    memory := executed.memory }
  match executed.exit with
  | .ret val => s.addReturn j val
  | exit => (exit.jumps j.z).foldl (addJump j f) s

end State

variable [DecidableEq U]

/-- One turn of the loop of `sym_exec`. -/
def symExecBlock (s : State T U) (b : Nat) : State T U :=
  match s.startBB j f b with
  | (true, s) => s.execBlock j f
  | (false, s) => s

def start : State T U where
  current := f.entry
  memory := f.memory
  returnVal := { defaultVal := some j.dummy }

/-- `sym_exec` of some blocks. -/
def symExec (blocks : List Nat) : State T U := blocks.foldl (symExecBlock j f) (start j f)

end

/-! ## The jumps of a block -/

section

variable (z : Z3) {M : Model} {bits : Nat} {value : Expr} {targets : List (BitVec bits × Nat)}
  (sorted : value.HasSort (.bv bits)) (safe : value.NonzeroDivisors M)

include sorted in
theorem cmp_sorted (n : BitVec bits) : (Expr.cmpEq z value (.num bits n)).HasSort .bool :=
  (Expr.cmpEq_decides_bv z sorted (Expr.hasSort_num.2 ⟨sorted.pos, rfl⟩)).sorted

include sorted safe

theorem truth_cmp (n : BitVec bits) :
    (Expr.cmpEq z value (.num bits n)).truth M = true ↔ n = value.bv M bits := by
  have decides := Expr.cmpEq_decides_bv z sorted (Expr.hasSort_num.2 ⟨sorted.pos, rfl⟩)
    (b := .num bits n)
  rw [decides.truth M (Expr.safe_pair.2 ⟨safe, trivial⟩), sorted.toNat_eq M, Expr.toNat_num,
    BitVec.toNat_inj, eq_comm]

variable (targets) in
theorem default_spec {start : Expr} (first : start.HasSort .bool) :
    (targets.foldl (fun cond target => Expr.and cond
        (Expr.not (Expr.cmpEq z value (.num bits target.1)))) start).HasSort .bool ∧
      ((targets.foldl (fun cond target => Expr.and cond
          (Expr.not (Expr.cmpEq z value (.num bits target.1)))) start).truth M = true ↔
        start.truth M = true ∧ ∀ target ∈ targets, target.1 ≠ value.bv M bits) := by
  induction targets generalizing start with
  | nil => exact ⟨first, by simp⟩
  | cons target rest ih =>
    have cmp := cmp_sorted z sorted target.1
    have negated := Expr.hasSort_not_eq cmp
    obtain ⟨sorted', truth⟩ := ih (Expr.hasSort_and_eq first negated)
    refine ⟨sorted', truth.trans ?_⟩
    rw [Expr.truth_and_eq first negated, Expr.truth_not_eq cmp, Bool.and_eq_true,
      Bool.not_eq_true', ← Bool.not_eq_true, truth_cmp z sorted safe, List.forall_mem_cons,
      and_assoc]

theorem picked_targets (distinct : (targets.map Prod.fst).Nodup) :
    picked M (targets.map fun target =>
        (target.2, Expr.cmpEq z value (.num bits target.1))) =
      ((targets.find? fun target => target.1 = value.bv M bits).map Prod.snd).toList := by
  induction targets with
  | nil => rfl
  | cons target rest ih =>
    rw [List.map_cons, List.nodup_cons] at distinct
    rw [List.map_cons, picked_cons, ih distinct.2]
    by_cases hit : target.1 = value.bv M bits
    · rw [if_pos ((truth_cmp z sorted safe target.1).2 hit),
        List.find?_cons_of_pos (by simpa using hit)]
      have none_left : (rest.find? fun target => target.1 = value.bv M bits) = none := by
        rw [List.find?_eq_none]
        intro other member
        rw [decide_eq_true_iff]
        intro again
        exact distinct.1 (List.mem_map.2 ⟨other, member, again.trans hit.symm⟩)
      rw [none_left]
      rfl
    · rw [if_neg (mt (truth_cmp z sorted safe target.1).1 hit),
        List.find?_cons_of_neg (by simpa using hit)]

end

namespace Exit

variable {U : Type} (z : Z3) {M : Model} {exit : Exit U}

theorem jumps_sorted (typed : exit.WellTyped M) :
    ∀ jump ∈ exit.jumps z, jump.cond.HasSort .bool := by
  cases exit with
  | jump dst => simp [jumps]
  | branch cond dstTrue dstFalse =>
    have sorted := cmp_sorted z typed.1 (BitVec.ofNat 1 0)
    intro jump member
    rcases List.mem_pair.1 member with rfl | rfl
    · exact Expr.hasSort_not_eq sorted
    · exact sorted
  | switch bits value targets default =>
    intro jump member
    rcases List.mem_append.1 member with inside | last
    · obtain ⟨target, -, rfl⟩ := List.mem_map.1 inside
      exact cmp_sorted z typed.1 target.1
    · obtain rfl := List.mem_singleton.1 last
      exact (default_spec z targets typed.1 typed.2.1 (Expr.hasSort_bool.2 rfl)).1
  | ret val => simp [jumps]
  | stop => simp [jumps]

theorem picked_jumps (typed : exit.WellTyped M) :
    picked M ((exit.jumps z).map fun jump => (jump.dst, jump.cond)) = (exit.target M).toList := by
  cases exit with
  | jump dst => simp [jumps, target, picked_cons]
  | branch cond dstTrue dstFalse =>
    have sorted := cmp_sorted z typed.1 (BitVec.ofNat 1 0)
    have truth := truth_cmp z typed.1 typed.2 (BitVec.ofNat 1 0)
    rw [jumps, target, List.map_cons, List.map_cons, List.map_nil, picked_cons, picked_cons]
    unfold Expr.mkUInt
    dsimp only
    rw [Expr.truth_not_eq sorted]
    by_cases zero : cond.bv M 1 = 0#1
    · rw [truth.2 zero.symm, if_pos zero]
      rfl
    · rw [Bool.eq_false_iff.2 (mt truth.1 (Ne.symm zero)), if_neg zero]
      rfl
  | switch bits value targets default =>
    obtain ⟨sorted, truth⟩ := default_spec z targets typed.1 typed.2.1
      (Expr.hasSort_bool.2 rfl : (Expr.bool true).HasSort .bool)
    rw [jumps, target, List.map_append, List.map_map, picked_append]
    refine (congrArg (· ++ _) (picked_targets z typed.1 typed.2.1 typed.2.2)).trans ?_
    rw [List.map_cons, picked_cons]
    cases found : targets.find? fun target => target.1 = value.bv M bits with
    | none =>
      rw [List.find?_eq_none] at found
      rw [if_pos (truth.2 ⟨Expr.truth_of_isTrue rfl M, fun target member same =>
        found target member (decide_eq_true same)⟩)]
      rfl
    | some target =>
      have hit : target.1 = value.bv M bits := by simpa using List.find?_some found
      rw [if_neg fun all => (truth.1 all).2 target (List.mem_of_find?_eq_some found) hit]
      rfl
  | ret val => rfl
  | stop => rfl

end Exit

/-! ## Accumulators -/

section

variable {z : Z3} {M : Model} {e : Expr} {self other : OrExpr}

def Boolean (self : OrExpr) : Prop := ∀ e ∈ self.exprs.elements, e.HasSort .bool

section

variable (boolean : Boolean self)

include boolean

theorem boolean_add (sorted : e.HasSort .bool) : Boolean (self.add z e) := by
  unfold OrExpr.add
  split
  · exact boolean
  · intro f member
    rcases ExprSet.mem_insert.1 member with rfl | old
    · exact sorted
    · exact boolean f old

theorem truth_toExpr :
    self.toExpr.truth M = true ↔ ∃ e ∈ self.exprs.elements, e.truth M = true := by
  rw [OrExpr.toExpr, (Expr.mkOr_spec boolean).2 M, List.any_eq_true]

theorem truth_add (sorted : e.HasSort .bool) :
    (self.add z e).toExpr.truth M = true ↔ self.toExpr.truth M = true ∨ e.truth M = true := by
  rw [truth_toExpr (boolean_add boolean sorted), truth_toExpr boolean]
  unfold OrExpr.add
  split
  · next fails => simp [Expr.truth_of_isFalse fails]
  · simp only [ExprSet.mem_insert, or_and_right, exists_or, exists_eq_left]
    exact or_comm

theorem boolean_addAll (boolean' : Boolean other) : Boolean (self.addAll z other) := by
  intro f member
  exact (ExprSet.mem_foldl_insert other.exprs.elements).1 member |>.elim (boolean' f) (boolean f)

theorem truth_addAll (boolean' : Boolean other) : (self.addAll z other).toExpr.truth M = true ↔
      self.toExpr.truth M = true ∨ other.toExpr.truth M = true := by
  rw [truth_toExpr (boolean_addAll boolean boolean'), truth_toExpr boolean, truth_toExpr boolean']
  simp only [OrExpr.addAll, ExprSet.mem_foldl_insert, or_and_right, exists_or]
  exact or_comm

theorem addConds_spec {conds : List Expr} (sorted : ∀ e ∈ conds, e.HasSort .bool) :
    Boolean (conds.foldl (OrExpr.add z) self) ∧
      ((conds.foldl (OrExpr.add z) self).toExpr.truth M = true ↔
        self.toExpr.truth M = true ∨ ∃ e ∈ conds, e.truth M = true) := by
  induction conds generalizing self with
  | nil => exact ⟨boolean, by simp⟩
  | cons e rest ih =>
    rw [List.forall_mem_cons] at sorted
    obtain ⟨boolean', truth⟩ := ih (boolean_add (z := z) boolean sorted.1) sorted.2
    refine ⟨boolean', truth.trans ?_⟩
    rw [truth_add boolean sorted.1, or_assoc]
    simp

end

theorem addUB_spec {conds : List Expr} {UB : AndExpr} (boolean : UB.Boolean)
    (sorted : ∀ e ∈ conds, e.HasSort .bool) :
    (conds.foldl (AndExpr.add z 16) UB).Boolean ∧ (conds.foldl (AndExpr.add z 16) UB).holds M =
        (UB.holds M && conds.all (Expr.truth · M)) := by
  induction conds generalizing UB with
  | nil => exact ⟨boolean, by simp⟩
  | cons e rest ih =>
    rw [List.forall_mem_cons] at sorted
    have next : (UB.add z 16 e).Boolean := boolean.add sorted.1
    obtain ⟨boolean', holds⟩ := ih next sorted.2
    refine ⟨boolean', holds.trans ?_⟩
    rw [AndExpr.holds_add sorted.1, List.all_cons, Bool.and_assoc]

end

/-! ## What the jumps of a block record -/

theorem jumps_last {U : Type} (z : Z3) (exit : Exit U) :
    (exit.jumps z).Pairwise fun jump _ => jump.last = false := by
  cases exit with
  | switch bits value targets default =>
    rw [Exit.jumps, List.pairwise_append]
    refine ⟨List.pairwise_map.2 (List.pairwise_of_forall fun _ _ => rfl),
      List.pairwise_singleton _ _, fun jump member _ _ => ?_⟩
    obtain ⟨target, -, rfl⟩ := List.mem_map.1 member
    rfl
  | _ => simp [Exit.jumps]

/-- The conditions under which `addJump` records jumps to `dst`. -/
def recorded (dst : Nat) (path : Expr) : List Jump → List Expr
  | [] => []
  | jump :: rest =>
    if (Expr.and jump.cond path).isFalse then recorded dst path rest
    else if jump.dst = dst then
      Expr.and jump.cond path :: recorded dst (jump.pathAfter path) rest
    else recorded dst (jump.pathAfter path) rest

section

variable {X : Type} {M : Model} {jumps : List Jump} {path : Expr} {target : Option Nat}

theorem pathAfter_sorted (jump : Jump) (sorted : path.HasSort .bool) :
    (jump.pathAfter path).HasSort .bool := by
  unfold Jump.pathAfter
  split
  · exact Expr.hasSort_bool.2 rfl
  · exact sorted

theorem recorded_sorted (dst : Nat) (sorts : ∀ jump ∈ jumps, jump.cond.HasSort .bool)
    (sorted : path.HasSort .bool) : ∀ cond ∈ recorded dst path jumps, cond.HasSort .bool := by
  induction jumps generalizing path with
  | nil => exact List.forall_mem_nil _
  | cons jump rest ih =>
    rw [List.forall_mem_cons] at sorts
    have later := ih sorts.2 (pathAfter_sorted jump sorted)
    unfold recorded
    split
    · exact ih sorts.2 sorted
    split
    · exact List.forall_mem_cons.2 ⟨Expr.hasSort_and_eq sorts.1 sorted, later⟩
    · exact later

/-- A jump to `dst` is recorded under a condition that is true in the models that take it. -/
theorem picked_recorded (x : X) (dst : Nat) (sorts : ∀ jump ∈ jumps, jump.cond.HasSort .bool)
    (sorted : path.HasSort .bool) (last : jumps.Pairwise fun jump _ => jump.last = false)
    (taken : picked M (jumps.map fun jump => (jump.dst, jump.cond)) = target.toList) :
    picked M ((recorded dst path jumps).map fun cond => (x, cond)) =
      if path.truth M = true ∧ target = some dst then [x] else [] := by
  induction jumps generalizing path target with
  | nil =>
    cases target with
    | none => simp [recorded]
    | some t => cases taken
  | cons jump rest ih =>
    rw [List.forall_mem_cons] at sorts
    rw [List.pairwise_cons] at last
    have truth := Expr.truth_and_eq sorts.1 sorted M
    rw [List.map_cons, picked_cons] at taken
    by_cases holds : jump.cond.truth M = true
    · -- No other condition is true.
      rw [if_pos holds] at taken
      cases target with
      | none => cases taken
      | some t =>
        rw [Option.toList_some, List.cons.injEq] at taken
        obtain ⟨rfl, empty⟩ := taken
        rw [holds, Bool.true_and] at truth
        have nothing : ∀ path : Expr, path.HasSort .bool →
            picked M ((recorded dst path rest).map fun cond => (x, cond)) = [] := by
          intro path sorted
          rw [@ih path none sorts.2 sorted last.2 empty]
          simp
        unfold recorded
        split
        · next fails =>
          rw [nothing path sorted, ← truth, Expr.truth_of_isFalse fails]
          simp
        split
        · next same =>
          rw [List.map_cons, picked_cons, nothing _ (pathAfter_sorted jump sorted), truth]
          simp [same]
        · next other =>
          rw [nothing _ (pathAfter_sorted jump sorted)]
          simp [other]
    · rw [if_neg holds] at taken
      rw [Bool.eq_false_iff.2 holds, Bool.false_and] at truth
      have same := ih sorts.2 sorted last.2 taken
      have after : recorded dst (jump.pathAfter path) rest = recorded dst path rest := by
        cases rest with
        | nil => rfl
        | cons other rest =>
          rw [Jump.pathAfter, last.1 other List.mem_cons_self, Bool.false_or,
            if_neg fun known => holds (Expr.truth_of_isTrue known M)]
      unfold recorded
      rw [after]
      split
      · exact same
      split
      · rw [List.map_cons, picked_cons, truth]
        exact same
      · exact same

end

theorem toBool_of_truth {M : Model} {domain : Domain} (path : domain.path.truth M = true)
    (holds : domain.UB.holds M = true) : domain.toBool = true := by
  have viable : ¬domain.path.isFalse = true := by
    intro fails
    rw [Expr.truth_of_isFalse fails] at path
    cases path
  have kept : ¬domain.UB.toBool = false := by
    intro fails
    rw [AndExpr.holds_of_toBool fails] at holds
    cases holds
  rw [Bool.not_eq_false] at kept
  rw [Bool.not_eq_true] at viable
  rw [Domain.toBool, viable, kept]
  rfl

section

variable {T U : Type} [DecidableEq T] {j : Joins T U} {f : Function T U}
  {s : State T U} {jumps : List Jump}

/-- The jumps under the conditions, with the UB condition and memory of the block. -/
def BlockInfo.record (j : Joins T U) (UB : AndExpr) (mem : T) (info : BlockInfo T)
    (conds : List Expr) : BlockInfo T where
  path := conds.foldl (OrExpr.add j.z) info.path
  UB := info.UB.addEach j.lessUB (conds.map fun cond => (UB, cond))
  mem := info.mem.addEach j.lessMem (conds.map fun cond => (mem, cond))

theorem addJumps_frame : ∃ data path, jumps.foldl (State.addJump j f) s =
    { s with predecessorData := data, domain := { s.domain with path := path } } := by
  induction jumps generalizing s with
  | nil => exact ⟨s.predecessorData, s.domain.path, rfl⟩
  | cons jump rest ih =>
    obtain ⟨data, path, same⟩ := @ih (s.addJump j f jump)
    refine ⟨data, path, same.trans ?_⟩
    unfold State.addJump
    dsimp only
    split <;> rfl

theorem addJumps_of_ub (ub : s.domain.UB.toBool = false) :
    jumps.foldl (State.addJump j f) s = s := by
  have stays : ∀ jump, s.addJump j f jump = s := by
    intro jump
    unfold State.addJump
    simp [Domain.toBool, ub]
  induction jumps with
  | nil => rfl
  | cons jump rest ih => rw [List.foldl_cons, stays, ih]

theorem isFalse_and {a b : Expr} (fails : b.isFalse = true) : (Expr.and a b).isFalse = true := by
  unfold Expr.and
  split
  · next cases =>
    rcases cases with rfl | first | second
    · exact fails
    · exact first
    · rw [Expr.isFalse_iff.1 fails] at second
      cases second
  · rw [if_pos (.inr fails)]
    exact fails

/-- A jump goes to `dst` from the current block, unless nothing is recorded. -/
theorem predecessorData_addJumps (unseen : ∀ jump ∈ jumps, jump.dst ∉ s.seen)
    (ub : s.domain.UB.toBool = true) (dst src : Nat) :
    (jumps.foldl (State.addJump j f) s).predecessorData dst src =
      if src = s.current ∧ recorded dst s.domain.path jumps ≠ [] then
        some (((s.predecessorData dst src).getD {}).record j s.domain.UB s.memory
          (recorded dst s.domain.path jumps))
      else s.predecessorData dst src := by
  induction jumps generalizing s with
  | nil => simp [recorded]
  | cons jump rest ih =>
    rw [List.forall_mem_cons] at unseen
    rw [List.foldl_cons, recorded]
    by_cases fails : (Expr.and jump.cond s.domain.path).isFalse = true
    · have stays : s.addJump j f jump = s := by
        unfold State.addJump
        simp [fails]
      rw [if_pos fails, stays]
      exact ih unseen.2 ub
    · have viable : s.domain.toBool = true := by
        rw [Domain.toBool, ub, Bool.and_true, Bool.not_eq_true', ← Bool.not_eq_true]
        exact mt isFalse_and fails
      obtain ⟨s', next, seen, current, domain, memory, data⟩ : ∃ s', s.addJump j f jump = s' ∧
          s'.seen = s.seen ∧ s'.current = s.current ∧
          s'.domain = { s.domain with path := jump.pathAfter s.domain.path } ∧
          s'.memory = s.memory ∧ s'.predecessorData = Function.update s.predecessorData jump.dst
              (Function.update (s.predecessorData jump.dst) s.current
                (some (((s.predecessorData jump.dst s.current).getD {}).record j s.domain.UB
                  s.memory [Expr.and jump.cond s.domain.path]))) := by
        refine ⟨_, rfl, ?_⟩
        unfold State.addJump
        simp [fails, viable, unseen.1, BlockInfo.record, DisjointExpr.addEach]
      rw [if_neg fails, next, ih (seen ▸ unseen.2) (by rw [domain]; exact ub), current, domain,
        memory, data]
      dsimp only
      by_cases here : src = s.current
      · subst here
        by_cases hit : jump.dst = dst
        · subst hit
          rw [if_pos rfl, Function.update_self, Function.update_self]
          split
          · next more =>
            rw [if_pos ⟨rfl, List.cons_ne_nil _ _⟩]
            rfl
          · next no_more =>
            rw [not_and_or, not_not] at no_more
            rw [if_pos ⟨rfl, List.cons_ne_nil _ _⟩, no_more.resolve_left fun other => other rfl]
        · rw [if_neg hit, Function.update_of_ne (Ne.symm hit)]
      · rw [if_neg fun both => here both.1, if_neg fun both => here both.1]
        by_cases hit : dst = jump.dst
        · subst hit
          rw [Function.update_self, Function.update_of_ne here]
        · rw [Function.update_of_ne hit]

end

/-! ## The run of a model -/

/-- A block on the run, with the memory before it; `ok` is that nothing before it is undefined. -/
structure Visit (T : Type) where
  block : Nat
  memory : T
  ok : Bool

section

variable {T U V W : Type} (f : Function T U) (M : Model)

noncomputable def Visit.done (v : Visit T) : Bool :=
  v.ok && (f.exec v.block v.memory).ub.all (Expr.truth · M)

noncomputable def Visit.next (v : Visit T) : Option (Visit T) :=
  let executed := f.exec v.block v.memory
  (executed.exit.target M).map fun dst => ⟨dst, executed.memory, v.done f M⟩

/-- The blocks that a model runs through one after the other. -/
noncomputable def visit : Nat → Option (Visit T)
  | 0 => some ⟨f.entry, f.memory, true⟩
  | k + 1 => (visit k).bind (Visit.next f M)

/-- The blocks are translated to terms of the right sorts, and read memory through its value
only; they stand in a topological order. -/
structure Function.Sound (z : Z3) {mkIfMem : Expr → T → T → T} {mkIfVal : Expr → U → U → U}
    (mem : Meaning mkIfMem V) (val : Meaning mkIfVal W) : Prop where
  start : mem.Sorted f.memory
  ub : ∀ b m, mem.Sorted m → ∀ e ∈ (f.exec b m).ub, e.HasSort .bool
  memory : ∀ b m, mem.Sorted m → mem.Sorted (f.exec b m).memory
  exit : ∀ b m, mem.Sorted m → (f.exec b m).exit.WellTyped M
  returned : ∀ b m, mem.Sorted m → ∀ u ∈ (f.exec b m).exit.returned, val.Sorted u
  same : ∀ b m m', mem.Sorted m → mem.Sorted m' → mem.value m M = mem.value m' M →
    (f.exec b m).ub.all (Expr.truth · M) = (f.exec b m').ub.all (Expr.truth · M) ∧
    mem.value (f.exec b m).memory M = mem.value (f.exec b m').memory M ∧
    (f.exec b m).exit.target M = (f.exec b m').exit.target M ∧
    (f.exec b m).exit.returned.map (val.value · M) = (f.exec b m').exit.returned.map (val.value · M)
  entry : f.blocks.head? = some f.entry
  nodup : f.blocks.Nodup
  forward : ∀ b m, ∀ jump ∈ (f.exec b m).exit.jumps z, f.blocks.idxOf b < f.blocks.idxOf jump.dst
  inside : ∀ b m, (f.exec b m).exit.returned ≠ none → b ∈ f.blocks

variable {f M} {z : Z3} {mkIfMem : Expr → T → T → T} {mkIfVal : Expr → U → U → U}
  {mem : Meaning mkIfMem V} {val : Meaning mkIfVal W} (sound : f.Sound M z mem val)
  {k k' : Nat} {v v' : Visit T}

include sound

theorem visit_sorted (visited : visit f M k = some v) : mem.Sorted v.memory := by
  induction k generalizing v with
  | zero =>
    obtain rfl := Option.some.inj visited
    exact sound.start
  | succ k ih =>
    obtain ⟨before, known, next⟩ := Option.bind_eq_some_iff.1 visited
    obtain ⟨dst, -, rfl⟩ := Option.map_eq_some_iff.1 next
    exact sound.memory before.block before.memory (ih known)

theorem mem_jumps {b dst : Nat} {m : T} (sorted : mem.Sorted m)
    (goes : (f.exec b m).exit.target M = some dst) :
    ∃ jump ∈ (f.exec b m).exit.jumps z, jump.dst = dst ∧ jump.cond.truth M = true := by
  have taken := Exit.picked_jumps z (sound.exit b m sorted)
  rw [goes] at taken
  have chosen : dst ∈ picked M (((f.exec b m).exit.jumps z).map fun jump =>
      (jump.dst, jump.cond)) := by
    rw [taken]
    exact List.mem_singleton_self dst
  obtain ⟨cond, member, truth⟩ := mem_picked.1 chosen
  obtain ⟨jump, inside, same⟩ := List.mem_map.1 member
  cases same
  exact ⟨jump, inside, rfl, truth⟩

theorem idxOf_next (visited : visit f M k = some v) (next : v.next f M = some v') :
    f.blocks.idxOf v.block < f.blocks.idxOf v'.block := by
  obtain ⟨dst, goes, rfl⟩ := Option.map_eq_some_iff.1 next
  obtain ⟨jump, member, rfl, -⟩ := mem_jumps sound (visit_sorted sound visited) goes
  exact sound.forward v.block v.memory jump member

theorem idxOf_visit (d : Nat) (visited : visit f M k = some v)
    (later : visit f M (k + d + 1) = some v') :
    f.blocks.idxOf v.block < f.blocks.idxOf v'.block := by
  induction d generalizing v' with
  | zero =>
    obtain ⟨before, known, next⟩ := Option.bind_eq_some_iff.1 later
    obtain rfl := Option.some.inj (visited.symm.trans known)
    exact idxOf_next sound visited next
  | succ d ih =>
    obtain ⟨before, known, next⟩ := Option.bind_eq_some_iff.1 later
    exact (ih known).trans (idxOf_next sound known next)

/-- No block is visited twice. -/
theorem visit_inj (visited : visit f M k = some v) (visited' : visit f M k' = some v')
    (same : v.block = v'.block) : k = k' := by
  rcases lt_trichotomy k k' with before | equal | after
  · obtain ⟨d, rfl⟩ := Nat.exists_eq_add_of_lt before
    exact absurd (idxOf_visit sound d visited visited') (by rw [same]; exact lt_irrefl _)
  · exact equal
  · obtain ⟨d, rfl⟩ := Nat.exists_eq_add_of_lt after
    exact absurd (idxOf_visit sound d visited' visited) (by rw [same]; exact lt_irrefl _)

omit sound in
/-- Nothing is visited after a block without a target. -/
theorem le_of_next_none (visited : visit f M k = some v) (last : v.next f M = none)
    (visited' : visit f M k' = some v') : k' ≤ k := by
  by_contra after
  obtain ⟨d, rfl⟩ := Nat.exists_eq_add_of_lt (not_le.1 after)
  have ended : ∀ d, visit f M (k + d + 1) = none := by
    intro d
    induction d with
    | zero => rw [visit, visited, Option.bind_some, last]
    | succ d ih => rw [visit, ← Nat.add_assoc, ih, Option.bind_none]
  rw [ended d] at visited'
  cases visited'

end

/-! ## Joins -/

/-- The data of the jumps from `src` to `dst`: where their path is true, the run takes one. -/
structure Follows {T U V : Type} (f : Function T U) (M : Model) {mkIf : Expr → T → T → T}
    (mem : Meaning mkIf V) (src dst : Nat) (info : BlockInfo T) : Prop where
  path : Boolean info.path
  domains : Conditions info.UB.vals.entries
  boolean : ∀ u ∈ info.UB.vals.entries.map Prod.fst, u.Boolean
  conditions : Conditions info.mem.vals.entries
  sorted : ∀ m ∈ info.mem.vals.entries.map Prod.fst, mem.Sorted m
  taken : info.path.toExpr.truth M = true → ∃ k v v', visit f M k = some v ∧ v.block = src ∧
    v.next f M = some v' ∧ v'.block = dst ∧
    (∃ u, picked M info.UB.vals.entries = [u] ∧ u.holds M = v'.ok) ∧
    ∃ m, picked M info.mem.vals.entries = [m] ∧ mem.value m M = mem.value v'.memory M

section

variable {T U V X : Type} {j : Joins T U} {f : Function T U} {M : Model} {mkIf : Expr → T → T → T}
  {mem : Meaning mkIf V} {data : List (BlockInfo T)}

theorem boolean_empty : Boolean {} := List.forall_mem_nil _

theorem conditions_empty : Conditions ({} : DisjointExpr X).vals.entries :=
  List.forall_mem_nil _

theorem picked_and {p : Expr} (sorted : p.HasSort .bool) {entries : List (X × Expr)}
    (conditions : Conditions entries) :
    picked M (entries.map fun entry => (entry.1, Expr.and entry.2 p)) =
      if p.truth M then picked M entries else [] := by
  induction entries with
  | nil => simp
  | cons entry rest ih =>
    rw [conditions_cons] at conditions
    rw [List.map_cons, picked_cons, picked_cons, ih conditions.2,
      Expr.truth_and_eq conditions.1 sorted]
    cases p.truth M <;> cases entry.2.truth M <;> rfl

theorem picked_joined {values : BlockInfo T → DisjointExpr X} (facts : ∀ info ∈ data,
    Boolean info.path ∧ Conditions (values info).vals.entries) :
    picked M (data.flatMap fun info => (values info).vals.entries.map fun entry =>
        (entry.1, Expr.and entry.2 info.path.toExpr)) =
      (data.filter fun info => info.path.toExpr.truth M).flatMap
        fun info => picked M (values info).vals.entries := by
  induction data with
  | nil => rfl
  | cons info rest ih =>
    rw [List.forall_mem_cons] at facts
    have sorted : info.path.toExpr.HasSort .bool := (Expr.mkOr_spec facts.1.1).1
    rw [List.flatMap_cons, picked_append, ih facts.2, picked_and sorted facts.1.2, List.filter_cons]
    split
    · rw [List.flatMap_cons]
    · rw [List.nil_append]

section

variable [DecidableEq X]

theorem defaultVal_joinedVals (less : X → X → Bool) (values : BlockInfo T → DisjointExpr X) :
    (State.joinedVals less values data).defaultVal = none := by
  have kept : ∀ joined : DisjointExpr X, (data.foldl (fun joined info =>
      joined.addDisj less (values info) info.path.toExpr) joined).defaultVal =
        joined.defaultVal := by
    induction data with
    | nil => exact fun _ => rfl
    | cons info rest ih => exact fun joined => (ih _).trans DisjointExpr.defaultVal_addEach
  exact kept {}

/-- The values of the one predecessor whose path is true are joined. -/
theorem joinedVals_spec (less : X → X → Bool) (values : BlockInfo T → DisjointExpr X)
    (facts : ∀ info ∈ data, Boolean info.path ∧ Conditions (values info).vals.entries) :
    Conditions (State.joinedVals less values data).vals.entries ∧
      (∀ x ∈ (State.joinedVals less values data).vals.entries.map Prod.fst, ∃ info ∈ data,
        x ∈ (values info).vals.entries.map Prod.fst) ∧
      ∀ info x, data.filter (fun info => info.path.toExpr.truth M) = [info] →
        picked M (values info).vals.entries = [x] →
        picked M (State.joinedVals less values data).vals.entries = [x] := by
  let pieces := data.flatMap fun info =>
    (values info).vals.entries.map fun entry => (entry.1, Expr.and entry.2 info.path.toExpr)
  have shape : State.joinedVals less values data = ({} : DisjointExpr X).addEach less pieces :=
    List.foldl_flatMap.symm
  have conditions : Conditions pieces := by
    intro piece member
    obtain ⟨info, inside, given⟩ := List.mem_flatMap.1 member
    obtain ⟨entry, present, rfl⟩ := List.mem_map.1 given
    obtain ⟨path, conditions⟩ := facts info inside
    exact Expr.hasSort_and_eq (conditions entry present) (Expr.mkOr_spec path).1
  rw [shape]
  refine ⟨DisjointExpr.conditions_addEach conditions_empty conditions, fun x member => ?_,
    fun info x one single => ?_⟩
  · have inside := (DisjointExpr.mem_addEach member).resolve_right List.not_mem_nil
    obtain ⟨piece, present, rfl⟩ := List.mem_map.1 inside
    obtain ⟨info, known, given⟩ := List.mem_flatMap.1 present
    obtain ⟨entry, old, rfl⟩ := List.mem_map.1 given
    exact ⟨info, known, List.mem_map.2 ⟨entry, old, rfl⟩⟩
  · have chosen := picked_joined (M := M) facts
    rw [one, List.flatMap_singleton, single] at chosen
    have whole : picked M (pieces ++ ({} : DisjointExpr X).vals.entries) = [x] := by
      rw [picked_append, chosen]
      rfl
    exact (DisjointExpr.picked_addEach conditions_empty conditions (by rw [whole]; rfl)).trans whole

end

theorem joinedMemory_spec [DecidableEq T] {mem : Meaning j.mkIfMem V}
    (follows : ∀ info ∈ data, ∃ src dst, Follows f M mem src dst info) :
    (∀ m, State.joinedMemory j data = some m → mem.Sorted m) ∧ ∀ info m,
      data.filter (fun info => info.path.toExpr.truth M) = [info] →
      picked M info.mem.vals.entries = [m] →
      ∃ m', State.joinedMemory j data = some m' ∧ mem.value m' M = mem.value m M := by
  obtain ⟨conditions, origin, chosen⟩ := joinedVals_spec (M := M) j.lessMem
    BlockInfo.mem fun info member => by
      obtain ⟨src, dst, own⟩ := follows info member
      exact ⟨own.path, own.conditions⟩
  have sorted : ∀ m ∈ (State.joinedVals j.lessMem BlockInfo.mem data).vals.entries.map Prod.fst,
      mem.Sorted m := by
    intro m member
    obtain ⟨info, inside, given⟩ := origin m member
    obtain ⟨src, dst, own⟩ := follows info inside
    exact own.sorted m given
  constructor
  · intro m known
    exact DisjointExpr.sorted_of_toValue conditions sorted (defaultVal_joinedVals _ _) known
  · intro info m one single
    obtain ⟨m', known, -, same⟩ :=
      DisjointExpr.toValue_of_picked conditions sorted (chosen info m one single)
    exact ⟨m', known, same⟩

variable (follows : ∀ info ∈ data, ∃ src dst, Follows f M mem src dst info)

include follows

theorem joinedPath_spec : Boolean (State.joinedPath j data) ∧
    ((State.joinedPath j data).toExpr.truth M = true ↔
      ∃ info ∈ data, info.path.toExpr.truth M = true) := by
  have folded : ∀ start : OrExpr, Boolean start →
      Boolean (data.foldl (fun path info => path.addAll j.z info.path) start) ∧
        ((data.foldl (fun path info => path.addAll j.z info.path) start).toExpr.truth M = true ↔
          start.toExpr.truth M = true ∨ ∃ info ∈ data, info.path.toExpr.truth M = true) := by
    induction data with
    | nil => exact fun start first => ⟨first, by simp⟩
    | cons info rest ih =>
      intro start first
      rw [List.forall_mem_cons] at follows
      obtain ⟨⟨src, dst, own⟩, others⟩ := follows
      obtain ⟨boolean', truth⟩ := ih others _ (boolean_addAll (z := j.z) first own.path)
      refine ⟨boolean', truth.trans ?_⟩
      rw [truth_addAll first own.path, or_assoc]
      simp
  obtain ⟨boolean', truth⟩ := folded {} boolean_empty
  exact ⟨boolean', truth.trans (by simp [OrExpr.toExpr, Expr.mkOr])⟩

theorem joinedUB_spec : (State.joinedUB j data).Boolean ∧ ∀ info u,
    data.filter (fun info => info.path.toExpr.truth M) = [info] →
    picked M info.UB.vals.entries = [u] → (State.joinedUB j data).holds M = u.holds M := by
  obtain ⟨conditions, origin, chosen⟩ := joinedVals_spec (M := M) j.lessUB
    BlockInfo.UB fun info member => by
      obtain ⟨src, dst, own⟩ := follows info member
      exact ⟨own.path, own.domains⟩
  have boolean : ∀ u ∈ (State.joinedVals j.lessUB BlockInfo.UB data).vals.entries.map Prod.fst,
      u.Boolean := by
    intro u member
    obtain ⟨info, inside, given⟩ := origin u member
    obtain ⟨src, dst, own⟩ := follows info inside
    exact own.boolean u given
  unfold State.joinedUB
  constructor
  · intro e member
    have inside := ((ExprSet.mem_foldl_insert _).1 member).resolve_right List.not_mem_nil
    cases known : (State.joinedVals j.lessUB BlockInfo.UB data).factor j.z with
    | none =>
      rw [known] at inside
      exact absurd inside List.not_mem_nil
    | some ret =>
      rw [known] at inside
      exact DisjointExpr.factor_boolean j.z conditions boolean known e inside
  · intro info u one single
    obtain ⟨ret, known, -, same⟩ :=
      DisjointExpr.factor_spec j.z conditions boolean (chosen info u one single)
    rw [known, AndExpr.holds_addAll]
    exact same

end

/-! ## The invariant of the loop -/

section Invariant

variable {T U V W : Type}

/-- The values that are returned: none before the run has ended in `done`. -/
structure Returns (f : Function T U) (M : Model) {X Y : Type} {mkIf : Expr → X → X → X}
    (meaning : Meaning mkIf Y) (result : Executed T U → Option Y) (done : List Nat)
    (vals : DisjointExpr X) : Prop where
  conditions : Conditions vals.vals.entries
  sorted : ∀ x ∈ vals.vals.entries.map Prod.fst, meaning.Sorted x
  quiet : picked M vals.vals.entries = [] ∨ ∃ x, picked M vals.vals.entries = [x] ∧
    ∃ k v, visit f M k = some v ∧ v.block ∈ done ∧ v.next f M = none
  value : ∀ k v y, visit f M k = some v → v.block ∈ done →
    result (f.exec v.block v.memory) = some y → v.done f M = true →
    ∃ x, picked M vals.vals.entries = [x] ∧ meaning.value x M = y

/-- The run returns from a block of `done`, without UB. -/
def Ended (f : Function T U) (M : Model) (done : List Nat) : Prop :=
  ∃ k v, visit f M k = some v ∧ v.block ∈ done ∧
    (f.exec v.block v.memory).exit.returned ≠ none ∧ v.done f M = true

theorem ended_append {f : Function T U} {M : Model} {done more : List Nat} :
    Ended f M (done ++ more) ↔ Ended f M done ∨ Ended f M more := by
  unfold Ended
  simp only [List.mem_append, or_and_right, and_or_left, exists_or]

variable {j : Joins T U}

/-- What the blocks of `done` have recorded. -/
structure Recorded (f : Function T U) (M : Model) (mem : Meaning j.mkIfMem V)
    (val : Meaning j.mkIfVal W) (done : List Nat) (s : State T U) : Prop where
  follows : ∀ dst src info, s.predecessorData dst src = some info →
    src ∈ done ∧ Follows f M mem src dst info
  complete : ∀ k v v', visit f M k = some v → v.block ∈ done → v.next f M = some v' →
    v'.ok = true → ∃ info, s.predecessorData v'.block v.block = some info ∧
      info.path.toExpr.truth M = true
  returnVal : Returns f M val (fun executed => executed.exit.returned.map (val.value · M)) done
    s.returnVal
  returnMemory : Returns f M mem
    (fun executed => executed.exit.returned.map fun _ => mem.value executed.memory M) done
    s.returnMemory
  returnBoolean : Boolean s.returnDomain
  returnDomain : s.returnDomain.toExpr.truth M = true ↔ Ended f M done

/-- The state after the blocks of `done`. -/
structure Invariant (f : Function T U) (M : Model) (mem : Meaning j.mkIfMem V)
    (val : Meaning j.mkIfVal W) (done : List Nat) (s : State T U) : Prop
    extends Recorded f M mem val done s where
  seen : ∀ b ∈ s.seen, b ∈ done
  memory : mem.Sorted s.memory
  first : done = [] → s.domain = {} ∧ s.memory = f.memory

/-- The state before the block `b` is executed. -/
structure Enters (f : Function T U) (M : Model) (mem : Meaning j.mkIfMem V) (b : Nat)
    (s : State T U) : Prop where
  current : s.current = b
  path : s.domain.path.HasSort .bool
  ub : s.domain.UB.Boolean
  memory : mem.Sorted s.memory
  taken : s.domain.path.truth M = true → ∃ k v, visit f M k = some v ∧ v.block = b ∧
    s.domain.UB.holds M = v.ok ∧ mem.value s.memory M = mem.value v.memory M
  reached : ∀ k v, visit f M k = some v → v.block = b → v.ok = true → s.domain.path.truth M = true

variable {f : Function T U} {M : Model} {mem : Meaning j.mkIfMem V}
  {val : Meaning j.mkIfVal W} {done rest : List Nat} {b k : Nat}
  {s : State T U} {v : Visit T} {info : BlockInfo T}

section

variable (sound : f.Sound M j.z mem val) (inv : Invariant f M mem val done s)
  (order : f.blocks = done ++ b :: rest)

include sound order in
theorem mem_done_of_next {v' : Visit T} (visited : visit f M k = some v)
    (next : v.next f M = some v') (here : v'.block = b) : v.block ∈ done := by
  have before := idxOf_next sound visited next
  have nodup := sound.nodup
  rw [order, List.nodup_append] at nodup
  have absent : b ∉ done := fun inside => nodup.2.2 b inside b List.mem_cons_self rfl
  rw [here, order, List.idxOf_append_of_notMem absent, List.idxOf_cons_self, Nat.add_zero] at before
  by_contra outside
  rw [List.idxOf_append_of_notMem outside] at before
  omega

include sound inv order

/-- The jump by which the run comes to a block is recorded. -/
theorem arrives (other : b ≠ f.entry) (visited : visit f M k = some v) (here : v.block = b)
    (ok : v.ok = true) :
    ∃ src info, s.predecessorData b src = some info ∧ info.path.toExpr.truth M = true := by
  cases k with
  | zero =>
    obtain rfl := Option.some.inj visited
    exact absurd here.symm other
  | succ k =>
    obtain ⟨before, known, next⟩ := Option.bind_eq_some_iff.1 visited
    have inside := mem_done_of_next sound order known next here
    obtain ⟨info, recorded, truth⟩ := inv.complete k before v known inside next ok
    exact ⟨before.block, info, here ▸ recorded, truth⟩

omit order in
/-- Only one edge to a block is taken. -/
theorem edge_unique {src src' : Nat} {info' : BlockInfo T}
    (edge : s.predecessorData b src = some info) (edge' : s.predecessorData b src' = some info')
    (truth : info.path.toExpr.truth M = true) (truth' : info'.path.toExpr.truth M = true) :
    src = src' := by
  obtain ⟨k, v, w, visited, rfl, next, here, -⟩ := (inv.follows b src info edge).2.taken truth
  obtain ⟨k', v', w', visited', rfl, next', here', -⟩ :=
    (inv.follows b src' info' edge').2.taken truth'
  have later : visit f M (k + 1) = some w := by rw [visit, visited, Option.bind_some, next]
  have later' : visit f M (k' + 1) = some w' := by rw [visit, visited', Option.bind_some, next']
  have same := visit_inj sound later later' (here.trans here'.symm)
  rw [Nat.add_right_cancel same, visited', Option.some.injEq] at visited
  rw [visited]

variable [DecidableEq T]

omit [DecidableEq T] order sound in
theorem edge_of_mem_incoming (member : info ∈ s.incoming j b) :
    ∃ src, s.predecessorData b src = some info ∧ Follows f M mem src b info := by
  obtain ⟨src, -, edge⟩ := List.mem_filterMap.1 member
  exact ⟨src, edge, (inv.follows b src info edge).2⟩

omit [DecidableEq T] in
/-- In a model that takes an edge, no other edge has a true path. -/
theorem incoming_single (listed : (j.listed b).Perm f.blocks) {src : Nat}
    (edge : s.predecessorData b src = some info) (truth : info.path.toExpr.truth M = true) :
    (s.incoming j b).filter (fun info => info.path.toExpr.truth M) = [info] := by
  have member : src ∈ j.listed b := by
    rw [listed.mem_iff, order]
    exact List.mem_append_left _ (inv.follows b src info edge).1
  have distinct := listed.nodup_iff.2 sound.nodup
  have first : (s.predecessorData b src).filter (fun info => info.path.toExpr.truth M) =
      some info := by
    rw [edge, Option.filter_some, if_pos truth]
  have others : ((j.listed b).erase src).filterMap (fun src => (s.predecessorData b src).filter
      fun info => info.path.toExpr.truth M) = [] := by
    rw [List.filterMap_eq_nil_iff]
    intro src' inside
    rw [distinct.mem_erase_iff] at inside
    rw [Option.filter_eq_none_iff]
    intro info' edge' truth'
    exact inside.1 (edge_unique sound inv edge' edge truth' truth)
  have perm := (List.perm_cons_erase member).filterMap fun src =>
    (s.predecessorData b src).filter fun info => info.path.toExpr.truth M
  rw [List.filterMap_cons, first, others] at perm
  rw [State.incoming, List.filter_filterMap]
  exact perm.eq_singleton

/-- The edge that the run takes decides what the state at a join is. -/
theorem startBB_of_ne (listed : (j.listed b).Perm f.blocks) (other : b ≠ f.entry)
    (nonempty : s.incoming j b ≠ []) :
    ∃ domain memory, s.startBB j f b = (domain.toBool,
        { s with seen := b :: s.seen, current := b, domain := domain, memory := memory }) ∧
      Enters f M mem b
        { s with seen := b :: s.seen, current := b, domain := domain, memory := memory } := by
  have follows : ∀ info ∈ s.incoming j b, ∃ src dst, Follows f M mem src dst info := by
    intro info member
    obtain ⟨src, -, follows⟩ := edge_of_mem_incoming inv member
    exact ⟨src, b, follows⟩
  obtain ⟨boolean, truth⟩ := joinedPath_spec (j := j) follows
  obtain ⟨booleanUB, chosenUB⟩ := joinedUB_spec (j := j) follows
  obtain ⟨sorted, chosen⟩ := joinedMemory_spec follows
  refine ⟨⟨(State.joinedPath j (s.incoming j b)).toExpr, State.joinedUB j (s.incoming j b)⟩,
    (State.joinedMemory j (s.incoming j b)).getD s.memory, ?_, rfl, (Expr.mkOr_spec boolean).1,
    booleanUB, ?_, fun path => ?_, fun k v visited here ok => ?_⟩
  · unfold State.startBB
    rw [if_neg other]
    split
    · next none_left => exact absurd none_left nonempty
    · rfl
  · cases known : State.joinedMemory j (s.incoming j b) with
    | none => exact inv.memory
    | some m => exact sorted m known
  · obtain ⟨info, member, path⟩ := truth.1 path
    obtain ⟨src, edge, follows⟩ := edge_of_mem_incoming inv member
    obtain ⟨k, v, v', visited, -, next, here, ⟨u, ub, holds⟩, m, memory, value⟩ :=
      follows.taken path
    have one := incoming_single sound inv order listed edge path
    obtain ⟨m', known, same⟩ := chosen info m one memory
    refine ⟨k + 1, v', by rw [visit, visited, Option.bind_some, next], here, ?_, ?_⟩
    · exact (chosenUB info u one ub).trans holds
    · dsimp only
      rw [known]
      exact same.trans value
  · obtain ⟨src, info, edge, path⟩ := arrives sound inv order other visited here ok
    have member : src ∈ j.listed b := by
      rw [listed.mem_iff, order]
      exact List.mem_append_left _ (inv.follows b src info edge).1
    exact truth.2 ⟨info, List.mem_filterMap.2 ⟨src, member, edge⟩, path⟩

theorem startBB_spec (listed : (j.listed b).Perm f.blocks) :
    ∃ run domain memory, s.startBB j f b = (run,
        { s with seen := b :: s.seen, current := b, domain := domain, memory := memory }) ∧
      mem.Sorted memory ∧
      (run = true → Enters f M mem b
        { s with seen := b :: s.seen, current := b, domain := domain, memory := memory }) ∧
      (run = false → ∀ k v, visit f M k = some v → v.block = b → v.ok = false) := by
  by_cases other : b = f.entry
  · have none_done : done = [] := by
      cases done with
      | nil => rfl
      | cons d ds =>
        have first := sound.entry
        have nodup := sound.nodup
        rw [order, List.cons_append, List.head?_cons, Option.some.injEq] at first
        rw [order, first, ← other, List.cons_append, List.nodup_cons] at nodup
        exact absurd (List.mem_append_right _ List.mem_cons_self) nodup.1
    obtain ⟨domain, memory⟩ := inv.first none_done
    refine ⟨true, {}, f.memory, ?_, sound.start, fun _ => ?_, fun absurdity => ?_⟩
    · rw [State.startBB, if_pos other, ← domain, ← memory]
    · exact ⟨rfl, Expr.hasSort_bool.2 rfl, List.forall_mem_nil _,
        sound.start, fun _ => ⟨0, ⟨f.entry, f.memory, true⟩, rfl, other.symm, rfl, rfl⟩,
        fun _ _ _ _ _ => Expr.truth_of_isTrue rfl M⟩
    · cases absurdity
  by_cases nonempty : s.incoming j b = []
  · refine ⟨false, s.domain, s.memory, ?_, inv.memory, fun absurdity => ?_,
      fun _ k v visited here => ?_⟩
    · unfold State.startBB
      rw [if_neg other]
      split
      · rfl
      · next present => exact absurd nonempty present
    · cases absurdity
    · by_contra ok
      rw [Bool.not_eq_false] at ok
      obtain ⟨src, info, edge, -⟩ := arrives sound inv order other visited here ok
      have member : info ∈ s.incoming j b := List.mem_filterMap.2
        ⟨src, listed.mem_iff.2 (order ▸ List.mem_append_left _ (inv.follows b src info edge).1),
          edge⟩
      rw [nonempty] at member
      cases member
  · obtain ⟨domain, memory, shape, enters⟩ := startBB_of_ne sound inv order listed other nonempty
    refine ⟨domain.toBool, domain, memory, shape, enters.memory, fun _ => enters,
      fun stopped k v visited here => ?_⟩
    by_contra ok
    rw [Bool.not_eq_false] at ok
    have path := enters.reached k v visited here ok
    obtain ⟨k', v', visited', here', holds, -⟩ := enters.taken path
    obtain rfl := visit_inj sound visited visited' (here.trans here'.symm)
    obtain rfl := Option.some.inj (visited.symm.trans visited')
    rw [toBool_of_truth path (holds.trans ok)] at stopped
    cases stopped

end

/-! ## Returns -/

section

variable {X Y : Type} [DecidableEq X] {mkIf : Expr → X → X → X} {meaning : Meaning mkIf Y}
  {result : Executed T U → Option Y} {vals : DisjointExpr X} {path : Expr}

omit [DecidableEq X] in
theorem Returns.skip (old : Returns f M meaning result done vals)
    (nothing : ∀ k v, visit f M k = some v → v.block = b → v.done f M = true →
      result (f.exec v.block v.memory) = none) :
    Returns f M meaning result (done ++ [b]) vals where
  conditions := old.conditions
  sorted := old.sorted
  quiet := old.quiet.imp id fun ⟨x, single, k, v, visited, inside, last⟩ =>
    ⟨x, single, k, v, visited, List.mem_append_left _ inside, last⟩
  value k v y visited inside known ok := by
    rcases List.mem_append.1 inside with inside | here
    · exact old.value k v y visited inside known ok
    · rw [nothing k v visited (List.mem_singleton.1 here) ok] at known
      cases known

theorem Returns.add (less : X → X → Bool) (x : X) (old : Returns f M meaning result done vals)
    (new : b ∉ done) (sorted : meaning.Sorted x) (domain : path.HasSort .bool)
    (taken : path.truth M = true → ∃ k v, visit f M k = some v ∧ v.block = b ∧ v.next f M = none)
    (reached : ∀ k v, visit f M k = some v → v.block = b → v.done f M = true →
      path.truth M = true ∧ result (f.exec v.block v.memory) = some (meaning.value x M)) :
    Returns f M meaning result (done ++ [b]) (vals.add less x path) := by
  have before : path.truth M = true → picked M vals.vals.entries = [] := by
    intro truth
    obtain ⟨k, v, visited, here, last⟩ := taken truth
    rcases old.quiet with none_picked | ⟨x', -, k', v', visited', inside, last'⟩
    · exact none_picked
    · have same : k = k' := Nat.le_antisymm (le_of_next_none visited' last' visited)
        (le_of_next_none visited last visited')
      subst same
      rw [visited, Option.some.injEq] at visited'
      exact absurd (here ▸ visited' ▸ inside) new
  have single : (picked M ((x, path) :: vals.vals.entries)).length ≤ 1 := by
    rw [picked_cons]
    split
    · next truth =>
      rw [before truth]
      exact le_rfl
    · rcases old.quiet with none_picked | ⟨x', one, -⟩
      · rw [none_picked]
        exact Nat.zero_le 1
      · rw [one]
        exact le_rfl
  have added : picked M (vals.add less x path).vals.entries = _ :=
    DisjointExpr.picked_add old.conditions domain single
  rw [picked_cons] at added
  constructor
  · exact DisjointExpr.conditions_add old.conditions domain
  · intro x' member
    rcases DisjointExpr.mem_add member with rfl | inside
    · exact sorted
    · exact old.sorted x' inside
  · by_cases truth : path.truth M = true
    · obtain ⟨k, v, visited, here, last⟩ := taken truth
      rw [if_pos truth, before truth] at added
      exact .inr ⟨x, added, k, v, visited,
        List.mem_append_right _ (List.mem_singleton.2 here), last⟩
    · rw [if_neg truth] at added
      rw [added]
      exact old.quiet.imp id fun ⟨x', one, k, v, visited, inside, last⟩ =>
        ⟨x', one, k, v, visited, List.mem_append_left _ inside, last⟩
  · intro k v y visited inside known ok
    rcases List.mem_append.1 inside with inside | here
    · obtain ⟨x', one, value⟩ := old.value k v y visited inside known ok
      have fails : ¬path.truth M = true := by
        intro truth
        rw [before truth] at one
        cases one
      rw [if_neg fails] at added
      exact ⟨x', added.trans one, value⟩
    · obtain ⟨truth, value⟩ := reached k v visited (List.mem_singleton.1 here) ok
      rw [if_pos truth, before truth] at added
      rw [known, Option.some.injEq] at value
      exact ⟨x, added, value.symm⟩

end

/-! ## The block -/

/-- The state after the conditions and the memory of a block, before its end. -/
def State.executed (j : Joins T U) (f : Function T U) (s : State T U) : State T U :=
  { s with
    domain := { s.domain with
      UB := (f.exec s.current s.memory).ub.foldl (AndExpr.add j.z 16) s.domain.UB }
    memory := (f.exec s.current s.memory).memory }

/-- The block is executed as in the run. -/
structure Executes (f : Function T U) (M : Model) (mem : Meaning j.mkIfMem V)
    (val : Meaning j.mkIfVal W) (s : State T U) (v : Visit T) : Prop where
  ub : (s.executed j f).domain.UB.holds M = v.done f M
  memory : mem.value (f.exec s.current s.memory).memory M =
    mem.value (f.exec v.block v.memory).memory M
  target : (f.exec s.current s.memory).exit.target M = (f.exec v.block v.memory).exit.target M
  returned : (f.exec s.current s.memory).exit.returned.map (val.value · M) =
    (f.exec v.block v.memory).exit.returned.map (val.value · M)

/-- A jump that is recorded under conditions of which one is true when the run takes it. -/
theorem follows_record [DecidableEq T] {UB : AndExpr} {m : T} {conds : List Expr} (src dst : Nat)
    {P : Prop} [Decidable P] (boolean : UB.Boolean) (sorted : mem.Sorted m)
    (sorts : ∀ e ∈ conds, e.HasSort .bool)
    (single : ∀ {X : Type} (x : X), picked M (conds.map fun cond => (x, cond)) =
      if P then [x] else [])
    (taken : P → ∃ k v v', visit f M k = some v ∧ v.block = src ∧ v.next f M = some v' ∧
      v'.block = dst ∧ UB.holds M = v'.ok ∧ mem.value m M = mem.value v'.memory M) :
    Follows f M mem src dst (({} : BlockInfo T).record j UB m conds) ∧
      (P → (({} : BlockInfo T).record j UB m conds).path.toExpr.truth M = true) := by
  obtain ⟨path, truth⟩ := addConds_spec (z := j.z) (M := M) boolean_empty sorts
  have some_cond : (∃ e ∈ conds, e.truth M = true) ↔ P := by
    have one := single ()
    constructor
    · rintro ⟨e, member, holds⟩
      by_contra not_taken
      rw [if_neg not_taken, picked_eq_nil] at one
      have fails := one ((), e) (List.mem_map_of_mem member)
      rw [holds] at fails
      cases fails
    · intro holds
      rw [if_pos holds] at one
      have inside : () ∈ picked M (conds.map fun cond => ((), cond)) := by
        rw [one]
        exact List.mem_singleton_self ()
      obtain ⟨e, member, truth⟩ := mem_picked.1 inside
      obtain ⟨e', member', same⟩ := List.mem_map.1 member
      cases same
      exact ⟨e, member', truth⟩
  have empty : ({} : OrExpr).toExpr.truth M = true ↔ False := by
    rw [truth_toExpr boolean_empty]
    simp
  rw [empty, false_or, some_cond] at truth
  have pieces : ∀ {X : Type} (x : X), Conditions (conds.map fun cond => (x, cond)) := by
    intro X x entry member
    obtain ⟨cond, inside, rfl⟩ := List.mem_map.1 member
    exact sorts cond inside
  have chosen : ∀ {X : Type} [DecidableEq X] (less : X → X → Bool) (x : X), P →
      picked M (({} : DisjointExpr X).addEach less (conds.map fun cond => (x, cond))).vals.entries =
        [x] := by
    intro X _ less x holds
    have whole : picked M (conds.map (fun cond => (x, cond)) ++
        ({} : DisjointExpr X).vals.entries) = [x] := by
      rw [picked_append, single x, if_pos holds]
      rfl
    exact (DisjointExpr.picked_addEach conditions_empty (pieces x)
      (by rw [whole]; exact le_rfl)).trans whole
  have origin : ∀ {X : Type} [DecidableEq X] (less : X → X → Bool) (x y : X),
      y ∈ (({} : DisjointExpr X).addEach less
        (conds.map fun cond => (x, cond))).vals.entries.map Prod.fst → y = x := by
    intro X _ less x y member
    have inside := (DisjointExpr.mem_addEach member).resolve_right List.not_mem_nil
    rw [List.map_map] at inside
    obtain ⟨cond, -, rfl⟩ := List.mem_map.1 inside
    rfl
  refine ⟨⟨path, DisjointExpr.conditions_addEach conditions_empty (pieces UB), ?_,
    DisjointExpr.conditions_addEach conditions_empty (pieces m), ?_, fun holds => ?_⟩, truth.2⟩
  · intro u member
    exact origin _ _ _ member ▸ boolean
  · intro m' member
    exact origin _ _ _ member ▸ sorted
  · obtain ⟨k, v, v', visited, here, next, there, ok, value⟩ := taken (truth.1 holds)
    exact ⟨k, v, v', visited, here, next, there,
      ⟨UB, chosen j.lessUB UB (truth.1 holds), ok⟩, m, chosen j.lessMem m (truth.1 holds), value⟩

section

variable (sound : f.Sound M j.z mem val) (enters : Enters f M mem b s)

include sound enters

theorem executed_ub : (s.executed j f).domain.UB.Boolean ∧ (s.executed j f).domain.UB.holds M =
      (s.domain.UB.holds M && (f.exec s.current s.memory).ub.all (Expr.truth · M)) :=
  addUB_spec enters.ub (sound.ub s.current s.memory enters.memory)

theorem executes_taken (path : s.domain.path.truth M = true) :
    ∃ k v, visit f M k = some v ∧ v.block = b ∧ Executes f M mem val s v := by
  obtain ⟨k, v, visited, here, ok, value⟩ := enters.taken path
  obtain ⟨ub, memory, target, returned⟩ := sound.same b s.memory v.memory enters.memory
    (visit_sorted sound visited) value
  refine ⟨k, v, visited, here, ?_, ?_, ?_, ?_⟩
  · rw [(executed_ub sound enters).2, ok, enters.current, ub, Visit.done, here]
  · rw [enters.current, memory, here]
  · rw [enters.current, target, here]
  · rw [enters.current, returned, here]

theorem executes_reached (visited : visit f M k = some v) (here : v.block = b)
    (ok : v.done f M = true) : s.domain.path.truth M = true ∧ Executes f M mem val s v := by
  have path := enters.reached k v visited here (Bool.and_eq_true_iff.1 ok).1
  obtain ⟨k', v', visited', here', executes⟩ := executes_taken sound enters path
  obtain rfl := visit_inj sound visited visited' (here.trans here'.symm)
  rw [visited, Option.some.injEq] at visited'
  exact ⟨path, visited' ▸ executes⟩

variable [DecidableEq T]

/-- The jumps to `dst` follow the run, and record where it goes. -/
theorem jump_spec (dst : Nat) :
    let conds := SymExec.recorded dst s.domain.path ((f.exec s.current s.memory).exit.jumps j.z)
    let info := ({} : BlockInfo T).record j (s.executed j f).domain.UB (s.executed j f).memory conds
    Follows f M mem b dst info ∧
      (s.domain.path.truth M = true → (f.exec s.current s.memory).exit.target M = some dst →
        conds ≠ [] ∧ info.path.toExpr.truth M = true) := by
  intro conds info
  have typed := sound.exit s.current s.memory enters.memory
  have sorts := Exit.jumps_sorted j.z typed
  have single : ∀ {X : Type} (x : X), picked M (conds.map fun cond => (x, cond)) =
      if s.domain.path.truth M = true ∧ (f.exec s.current s.memory).exit.target M = some dst
        then [x] else [] :=
    fun x => picked_recorded x dst sorts enters.path (jumps_last j.z _)
      (Exit.picked_jumps j.z typed)
  obtain ⟨follows, path⟩ := follows_record b dst (executed_ub sound enters).1
    (sound.memory s.current s.memory enters.memory) (recorded_sorted dst sorts enters.path) single
    fun both => by
      obtain ⟨k, v, visited, here, executes⟩ := executes_taken sound enters both.1
      refine ⟨k, v, ⟨dst, (f.exec v.block v.memory).memory, v.done f M⟩, visited, here, ?_, rfl,
        executes.ub, executes.memory⟩
      rw [Visit.next, ← executes.target, both.2, Option.map_some]
  refine ⟨follows, fun truth goes => ⟨fun nothing => ?_, path ⟨truth, goes⟩⟩⟩
  have one := single ()
  rw [if_pos ⟨truth, goes⟩, nothing] at one
  cases one

end

section

variable [DecidableEq T]

variable (sound : f.Sound M j.z mem val) (enters : Enters f M mem b s)
  (recorded : Recorded f M mem val done s)

include sound enters recorded

theorem addJumps_spec (stays : (f.exec s.current s.memory).exit.returned = none) (new : b ∉ done)
    (unseen : ∀ jump ∈ (f.exec s.current s.memory).exit.jumps j.z, jump.dst ∉ s.seen) :
    Recorded f M mem val (done ++ [b])
      (((f.exec s.current s.memory).exit.jumps j.z).foldl (State.addJump j f)
        (s.executed j f)) := by
  obtain ⟨data, path, shape⟩ := @addJumps_frame _ _ _ j f (s.executed j f)
    ((f.exec s.current s.memory).exit.jumps j.z)
  have absent : ∀ dst, s.predecessorData dst b = none := by
    intro dst
    cases edge : s.predecessorData dst b with
    | none => rfl
    | some info => exact absurd (recorded.follows dst b info edge).1 new
  have edges : ∀ dst src, data dst src =
      if (s.executed j f).domain.UB.toBool = true ∧ src = b ∧
          SymExec.recorded dst s.domain.path ((f.exec s.current s.memory).exit.jumps j.z) ≠ []
      then some (({} : BlockInfo T).record j (s.executed j f).domain.UB (s.executed j f).memory
        (SymExec.recorded dst s.domain.path ((f.exec s.current s.memory).exit.jumps j.z)))
      else s.predecessorData dst src := by
    intro dst src
    by_cases ub : (s.executed j f).domain.UB.toBool = true
    · have next :=
        predecessorData_addJumps (j := j) (f := f) (s := s.executed j f) unseen ub dst src
      rw [shape] at next
      refine next.trans ?_
      rw [show (s.executed j f).current = b from enters.current]
      by_cases here : src = b
      · rw [here, absent, show (s.executed j f).predecessorData dst b = none from absent dst]
        simp only [ub, true_and]
        rfl
      · simp only [here, false_and, and_false, if_false]
        rfl
    · rw [Bool.not_eq_true] at ub
      rw [addJumps_of_ub ub] at shape
      rw [if_neg fun both => Bool.false_ne_true (ub.symm.trans both.1)]
      exact (congrArg (fun s : State T U => s.predecessorData dst src) shape).symm
  have none_returned : ∀ k v, visit f M k = some v → v.block = b → v.done f M = true →
      (f.exec v.block v.memory).exit.returned = none := by
    intro k v visited here ok
    obtain ⟨-, executes⟩ := executes_reached sound enters visited here ok
    have returned := executes.returned
    rw [stays, Option.map_none, eq_comm, Option.map_eq_none_iff] at returned
    exact returned
  rw [shape]
  refine ⟨fun dst src info edge => ?_, fun k v v' visited inside next ok => ?_,
    recorded.returnVal.skip ?_, recorded.returnMemory.skip ?_, recorded.returnBoolean, ?_⟩
  · have edge : data dst src = some info := edge
    rw [edges] at edge
    split at edge
    · next new_edge =>
      obtain ⟨-, rfl, -⟩ := new_edge
      rw [← Option.some.inj edge]
      exact ⟨List.mem_append_right _ (List.mem_singleton_self src), (jump_spec sound enters dst).1⟩
    · obtain ⟨inside, follows⟩ := recorded.follows dst src info edge
      exact ⟨List.mem_append_left _ inside, follows⟩
  · change ∃ info, data v'.block v.block = some info ∧ info.path.toExpr.truth M = true
    rw [edges]
    rcases List.mem_append.1 inside with before | here
    · have other : v.block ≠ b := fun here => new (here ▸ before)
      simp only [other, false_and, and_false, if_false]
      exact recorded.complete k v v' visited before next ok
    · rw [List.mem_singleton] at here
      obtain ⟨dst, goes, rfl⟩ := Option.map_eq_some_iff.1 next
      obtain ⟨truth, executes⟩ := executes_reached sound enters visited here ok
      obtain ⟨some_jump, path⟩ :=
        (jump_spec sound enters dst).2 truth (executes.target.trans goes)
      have viable : ¬(s.executed j f).domain.UB.toBool = false := by
        intro fails
        have holds := executes.ub.trans ok
        rw [AndExpr.holds_of_toBool fails] at holds
        cases holds
      rw [if_pos ⟨Bool.eq_true_of_not_eq_false viable, here, some_jump⟩]
      exact ⟨_, rfl, path⟩
  · intro k v visited here ok
    rw [none_returned k v visited here ok, Option.map_none]
  · intro k v visited here ok
    rw [none_returned k v visited here ok, Option.map_none]
  · rw [ended_append]
    refine recorded.returnDomain.trans (or_iff_left ?_).symm
    rintro ⟨k, v, visited, inside, returned, ok⟩
    exact returned (none_returned k v visited (List.mem_singleton.1 inside) ok)

variable [DecidableEq U]

theorem addReturn_spec {u : U} (returns : (f.exec s.current s.memory).exit = .ret u)
    (new : b ∉ done) : Recorded f M mem val (done ++ [b]) ((s.executed j f).addReturn j u) := by
  have last : ∀ v, Executes f M mem val s v → v.next f M = none := by
    intro v executes
    have target := executes.target
    rw [returns, Exit.target] at target
    rw [Visit.next, ← target, Option.map_none]
  have returned : ∀ v, Executes f M mem val s v →
      (f.exec v.block v.memory).exit.returned.map (val.value · M) = some (val.value u M) := by
    intro v executes
    rw [← executes.returned, returns]
    rfl
  obtain ⟨boolean, -⟩ := executed_ub sound enters
  have sortedPath : (s.executed j f).domain.path.HasSort .bool := enters.path
  have sortedUB : (s.executed j f).domain.UB.toExpr.HasSort .bool := (Expr.mkAnd_spec boolean).1
  have sortedDomain := Expr.hasSort_and_eq sortedPath sortedUB
  have taken : s.domain.path.truth M = true → ∃ k v, visit f M k = some v ∧ v.block = b ∧
      v.next f M = none := by
    intro path
    obtain ⟨k, v, visited, here, executes⟩ := executes_taken sound enters path
    exact ⟨k, v, visited, here, last v executes⟩
  refine ⟨fun dst src info edge => ?_, fun k v v' visited inside next ok => ?_, ?_, ?_, ?_, ?_⟩
  · obtain ⟨inside, follows⟩ := recorded.follows dst src info edge
    exact ⟨List.mem_append_left _ inside, follows⟩
  · rcases List.mem_append.1 inside with inside | here
    · exact recorded.complete k v v' visited inside next ok
    · obtain ⟨dst, -, rfl⟩ := Option.map_eq_some_iff.1 next
      obtain ⟨-, executes⟩ :=
        executes_reached sound enters visited (List.mem_singleton.1 here) ok
      rw [last v executes] at next
      cases next
  · refine recorded.returnVal.add j.lessVal u new ?_ enters.path taken fun k v visited here ok => ?_
    · exact sound.returned s.current s.memory enters.memory u (by rw [returns]; rfl)
    · obtain ⟨path, executes⟩ := executes_reached sound enters visited here ok
      exact ⟨path, returned v executes⟩
  · refine recorded.returnMemory.add j.lessMem _ new ?_ enters.path taken
      fun k v visited here ok => ?_
    · exact sound.memory s.current s.memory enters.memory
    · obtain ⟨path, executes⟩ := executes_reached sound enters visited here ok
      obtain ⟨u', known, -⟩ := Option.map_eq_some_iff.1 (returned v executes)
      rw [known, Option.map_some, ← executes.memory]
      exact ⟨path, rfl⟩
  · exact boolean_add recorded.returnBoolean sortedDomain
  · rw [ended_append, ← recorded.returnDomain]
    refine (truth_add recorded.returnBoolean sortedDomain).trans (or_congr_right ?_)
    rw [Expr.truth_and_eq sortedPath sortedUB, AndExpr.truth_toExpr boolean, Bool.and_eq_true]
    constructor
    · rintro ⟨path, holds⟩
      obtain ⟨k, v, visited, here, executes⟩ := executes_taken sound enters path
      refine ⟨k, v, visited, List.mem_singleton.2 here, ?_, executes.ub.symm.trans holds⟩
      obtain ⟨u', known, -⟩ := Option.map_eq_some_iff.1 (returned v executes)
      rw [known]
      exact Option.some_ne_none u'
    · rintro ⟨k, v, visited, inside, -, ok⟩
      obtain ⟨path, executes⟩ :=
        executes_reached sound enters visited (List.mem_singleton.1 inside) ok
      exact ⟨path, executes.ub.trans ok⟩

end

section

variable [DecidableEq T] [DecidableEq U]

theorem execBlock_of_jumps (stays : (f.exec s.current s.memory).exit.returned = none) :
    s.execBlock j f = ((f.exec s.current s.memory).exit.jumps j.z).foldl (State.addJump j f)
      (s.executed j f) := by
  unfold State.execBlock
  dsimp only
  split
  · next val shape =>
    rw [shape] at stays
    cases stays
  · rfl

theorem execBlock_of_ret {u : U} (returns : (f.exec s.current s.memory).exit = .ret u) :
    s.execBlock j f = (s.executed j f).addReturn j u := by
  unfold State.execBlock
  dsimp only
  rw [returns]
  rfl

omit [DecidableEq T] [DecidableEq U] in
theorem Recorded.skip (recorded : Recorded f M mem val done s)
    (idle : ∀ k v, visit f M k = some v → v.block = b → v.done f M = false) :
    Recorded f M mem val (done ++ [b]) s := by
  have never : ∀ {k v}, visit f M k = some v → v.block ∈ [b] → ¬v.done f M = true := by
    intro k v visited inside ok
    rw [idle k v visited (List.mem_singleton.1 inside)] at ok
    cases ok
  refine ⟨fun dst src info edge => ?_, fun k v v' visited inside next ok => ?_,
    recorded.returnVal.skip ?_, recorded.returnMemory.skip ?_, recorded.returnBoolean, ?_⟩
  · obtain ⟨inside, follows⟩ := recorded.follows dst src info edge
    exact ⟨List.mem_append_left _ inside, follows⟩
  · rcases List.mem_append.1 inside with before | here
    · exact recorded.complete k v v' visited before next ok
    · obtain ⟨dst, -, rfl⟩ := Option.map_eq_some_iff.1 next
      exact absurd ok (never visited here)
  · exact fun k v visited here ok => absurd ok (never visited (List.mem_singleton.2 here))
  · exact fun k v visited here ok => absurd ok (never visited (List.mem_singleton.2 here))
  · rw [ended_append]
    refine recorded.returnDomain.trans (or_iff_left ?_).symm
    rintro ⟨k, v, visited, inside, -, ok⟩
    exact never visited inside ok

omit [DecidableEq T] [DecidableEq U] in
/-- The blocks of `done` and `b` come before those that `b` jumps to. -/
theorem idxOf_le (order : f.blocks = done ++ b :: rest) (new : b ∉ done) {x : Nat}
    (member : x ∈ done ++ [b]) : f.blocks.idxOf x ≤ f.blocks.idxOf b := by
  rw [order, List.idxOf_append_of_notMem new, List.idxOf_cons_self, Nat.add_zero]
  rcases List.mem_append.1 member with inside | here
  · rw [List.idxOf_append_of_mem inside]
    exact (List.idxOf_lt_length_of_mem inside).le
  · rw [List.mem_singleton.1 here, List.idxOf_append_of_notMem new, List.idxOf_cons_self,
      Nat.add_zero]

variable (sound : f.Sound M j.z mem val) (listed : ∀ b, (j.listed b).Perm f.blocks)

include sound listed

theorem symExecBlock_spec (inv : Invariant f M mem val done s)
    (order : f.blocks = done ++ b :: rest) :
    Invariant f M mem val (done ++ [b]) (symExecBlock j f s b) := by
  obtain ⟨run, domain, memory, shape, sorted, enters, stopped⟩ :=
    startBB_spec sound inv order (listed b)
  have new : b ∉ done := by
    have nodup := sound.nodup
    rw [order, List.nodup_append] at nodup
    exact fun inside => nodup.2.2 b inside b List.mem_cons_self rfl
  have seen : ∀ x ∈ b :: s.seen, x ∈ done ++ [b] := by
    intro x member
    rcases List.mem_cons.1 member with rfl | old
    · exact List.mem_append_right _ (List.mem_singleton_self x)
    · exact List.mem_append_left _ (inv.seen x old)
  have recorded : Recorded f M mem val done
      { s with seen := b :: s.seen, current := b, domain := domain, memory := memory } :=
    ⟨inv.follows, inv.complete, inv.returnVal, inv.returnMemory, inv.returnBoolean,
      inv.returnDomain⟩
  unfold symExecBlock
  rw [shape]
  cases run with
  | false =>
    refine ⟨recorded.skip fun k v visited here => ?_, seen, sorted, by simp⟩
    rw [Visit.done, stopped rfl k v visited here, Bool.false_and]
  | true =>
    dsimp only
    have enters := enters rfl
    cases returned : (f.exec b memory).exit.returned with
    | some u =>
      have returns : (f.exec b memory).exit = .ret u := by
        cases exit : (f.exec b memory).exit with
        | ret u' =>
          rw [exit, Exit.returned, Option.some.injEq] at returned
          rw [returned]
        | _ =>
          rw [exit] at returned
          cases returned
      rw [execBlock_of_ret returns]
      exact ⟨addReturn_spec sound enters recorded returns new, seen,
        sound.memory b memory sorted, by simp⟩
    | none =>
      rw [execBlock_of_jumps returned]
      have unseen : ∀ jump ∈ (f.exec b memory).exit.jumps j.z, jump.dst ∉ b :: s.seen := by
        intro jump member old
        exact (sound.forward b memory jump member).not_ge (idxOf_le order new (seen _ old))
      have next := addJumps_spec sound enters recorded returned new unseen
      obtain ⟨data, path, frame⟩ := @addJumps_frame _ _ _ j f (State.executed j f
        { s with seen := b :: s.seen, current := b, domain := domain, memory := memory })
        ((f.exec b memory).exit.jumps j.z)
      rw [frame] at next ⊢
      exact ⟨next, seen, sound.memory b memory sorted, by simp⟩

/-- The invariant of the loop. -/
theorem symExec_spec {blocks : List Nat} (order : f.blocks = blocks ++ rest) :
    Invariant f M mem val blocks (symExec j f blocks) := by
  induction blocks using List.reverseRecOn generalizing rest with
  | nil =>
    have never : ∀ {k v}, visit f M k = some v → v.block ∈ [] → False :=
      fun _ => List.not_mem_nil
    refine ⟨⟨fun dst src info absent => ?_, fun k v v' visited absent => ?_, ?_, ?_,
      boolean_empty, ?_⟩, List.forall_mem_nil _, sound.start,
      fun _ => ⟨rfl, rfl⟩⟩
    · cases absent
    · exact (never visited absent).elim
    · exact ⟨conditions_empty, List.forall_mem_nil _, .inl rfl,
        fun k v y visited absent => (never visited absent).elim⟩
    · exact ⟨conditions_empty, List.forall_mem_nil _, .inl rfl,
        fun k v y visited absent => (never visited absent).elim⟩
    · refine iff_of_false (fun truth => ?_) ?_
      · obtain ⟨e, absent, -⟩ := (truth_toExpr boolean_empty).1 truth
        exact absurd absent List.not_mem_nil
      · rintro ⟨k, v, visited, absent, -⟩
        exact never visited absent
  | append_singleton blocks b ih =>
    rw [List.append_assoc, List.singleton_append] at order
    rw [symExec, List.foldl_append]
    exact symExecBlock_spec sound listed (ih order) order

end

end Invariant

/-! ## Two paths to one return -/

/-- A branch around a store that is undefined unless `p`. -/
def diamond : Function Expr Expr where
  blocks := [0, 1, 2]
  entry := 0
  sink := 3
  memory := .num 8 0
  exec := fun b m =>
    match b with
    | 0 => ⟨[], m, .branch (.var "c" (.bv 1)) 1 2⟩
    | 1 => ⟨[.var "p" .bool], .num 8 7, .jump 2⟩
    | 2 => ⟨[], m, .ret m⟩
    | _ => ⟨[], m, .stop⟩

noncomputable def diamondJoins : Joins Expr Expr :=
  ⟨Z3.reference, Expr.mkIf Z3.reference, Expr.mkIf Z3.reference, fun _ _ => false,
    Z3.reference.less, Z3.reference.less, fun _ => [0, 1, 2], .num 8 0⟩

theorem diamond_sound (M : Model) : diamond.Sound M Z3.reference
    (Expr.meaning Z3.reference (.bv 8)) (Expr.meaning Z3.reference (.bv 8)) where
  start := ⟨rfl, rfl⟩
  ub b m _ := by
    rcases b with _ | _ | _ | b
    · exact List.forall_mem_nil _
    · exact List.forall_mem_singleton.2 ⟨rfl, rfl⟩
    · exact List.forall_mem_nil _
    · exact List.forall_mem_nil _
  memory b m sorted := by
    rcases b with _ | _ | _ | b
    · exact sorted
    · exact ⟨rfl, rfl⟩
    · exact sorted
    · exact sorted
  exit b m _ := by
    rcases b with _ | _ | _ | b
    · exact ⟨⟨rfl, rfl⟩, trivial⟩
    · trivial
    · trivial
    · trivial
  returned b m sorted u member := by
    rcases b with _ | _ | _ | b
    · cases member
    · cases member
    · cases member
      exact sorted
    · cases member
  same b m m' _ _ equal := by
    rcases b with _ | _ | _ | b
    · exact ⟨rfl, equal, rfl, rfl⟩
    · exact ⟨rfl, rfl, rfl, rfl⟩
    · exact ⟨rfl, equal, rfl, congrArg some equal⟩
    · exact ⟨rfl, equal, rfl, rfl⟩
  entry := rfl
  nodup := by decide
  forward b m jump member := by
    rcases b with _ | _ | _ | b
    · rcases List.mem_pair.1 member with rfl | rfl
      · decide
      · decide
    · obtain rfl := List.mem_singleton.1 member
      decide
    · cases member
    · cases member
  inside b m returned := by
    rcases b with _ | _ | _ | b
    · exact absurd rfl returned
    · exact absurd rfl returned
    · decide
    · exact absurd rfl returned

/-- The model in which `c` is zero goes around the store. -/
theorem visit_diamond : visit diamond default 1 = some ⟨2, .num 8 0, true⟩ := by
  have zero : (Expr.var "c" (.bv 1)).bv default 1 = 0#1 := rfl
  rw [visit, visit, Option.bind_some, Visit.next]
  simp [diamond, Exit.target, Visit.done, zero]

end AliveNext.IR.SymExec
