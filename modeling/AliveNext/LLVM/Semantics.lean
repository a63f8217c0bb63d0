import AliveNext.Lib.Outcome
import AliveNext.LLVM.Syntax

/-!
# Meaning of straight-line integer code

A sample is one observation of a value: poison (`none`) or an integer.  A
register holds a nonempty set of samples.  A singleton is an ordinary value;
a larger set is an undefined value, and every read of it observes one of its
samples independently of the other reads.

`freeze` commits to one integer, so it is the only source of nondeterminism
between executions.  Division by zero, signed division overflow and a violated
assumption are undefined behaviour.

The main facts are monotonicity (more defined operands give more defined
results) and the frame and renaming lemmas for whole instruction sequences.
-/

namespace AliveNext.LLVM

open AliveNext.Lib

universe u v

/-- One observation of a value; `none` is poison. -/
abbrev Sample (w : Nat) := Option (BitVec w)

/-- The result of one evaluation; `none` is undefined behaviour. -/
abbrev Evaluated (w : Nat) := Option (Sample w)

/-- `x` is at least as defined as `y`. -/
def SampleRefines {w : Nat} (x y : Sample w) : Prop :=
  y = none ∨ x = y

namespace BinOp

def isDivision : BinOp → Bool
  | udiv _ | sdiv _ | urem | srem => true
  | _ => false

/-- Some dividend makes the division by `y` undefined. -/
def badDivisor {w : Nat} (op : BinOp) (y : BitVec w) : Bool :=
  match op with
  | udiv _ | urem => y == 0#w
  | sdiv _ | srem => y == 0#w || y == BitVec.allOnes w
  | _ => false

def guarded {w : Nat} (violated : Bool) (x : BitVec w) : Evaluated w :=
  some (if violated then none else some x)

/-- The operator on two integers. -/
def eval {w : Nat} (op : BinOp) (x y : BitVec w) : Evaluated w :=
  match op with
  | add nuw nsw =>
    guarded ((nuw && x.uaddOverflow y) || (nsw && x.saddOverflow y)) (x + y)
  | sub nuw nsw =>
    guarded ((nuw && x.usubOverflow y) || (nsw && x.ssubOverflow y)) (x - y)
  | mul nuw nsw =>
    guarded ((nuw && x.umulOverflow y) || (nsw && x.smulOverflow y)) (x * y)
  | shl nuw nsw =>
    guarded
      (decide (w ≤ y.toNat) || (nuw && (x <<< y) >>> y != x) ||
        (nsw && (x <<< y).sshiftRight' y != x))
      (x <<< y)
  | udiv exact =>
    if y == 0#w then none else guarded (exact && x % y != 0#w) (x / y)
  | sdiv exact =>
    if y == 0#w || (x == BitVec.intMin w && y == BitVec.allOnes w) then none
    else guarded (exact && x.srem y != 0#w) (x.sdiv y)
  | urem => if y == 0#w then none else guarded false (x % y)
  | srem =>
    if y == 0#w || (x == BitVec.intMin w && y == BitVec.allOnes w) then none
    else guarded false (x.srem y)
  | lshr exact =>
    guarded (decide (w ≤ y.toNat) || (exact && (x >>> y) <<< y != x)) (x >>> y)
  | ashr exact =>
    guarded (decide (w ≤ y.toNat) || (exact && (x.sshiftRight' y) <<< y != x)) (x.sshiftRight' y)
  | and => guarded false (x &&& y)
  | or disjoint => guarded (disjoint && x &&& y != 0#w) (x ||| y)
  | xor => guarded false (x ^^^ y)

/-- The operator on two samples.  Poison propagates, except that a poison
divisor is undefined, and so is a poison dividend of a divisor that some
dividend makes undefined. -/
def lane {w : Nat} (op : BinOp) : Sample w → Sample w → Evaluated w
  | some x, some y => op.eval x y
  | none, some y => if op.badDivisor y then none else some none
  | _, none => if op.isDivision then none else some none

variable {w : Nat} {op : BinOp}

theorem eval_ne_none_of_good {x y : BitVec w}
    (good : op.badDivisor y = false) : ∃ sample, op.eval x y = some sample := by
  cases op <;> simp_all [badDivisor, eval, guarded]

theorem badDivisor_eq_false {y : BitVec w}
    (notDivision : op.isDivision = false) : op.badDivisor y = false := by
  cases op <;> simp_all [isDivision, badDivisor]

theorem lane_of_not_division (notDivision : op.isDivision = false)
    (x y : Sample w) : ∃ sample, op.lane x y = some sample := by
  cases y with
  | none => cases x <;> simp [lane, notDivision]
  | some y =>
    have good : op.badDivisor y = false := badDivisor_eq_false notDivision
    cases x with
    | none => simp [lane, good]
    | some x => simpa [lane] using eval_ne_none_of_good good

theorem lane_mono (op : BinOp) {x x' y y' : Sample w}
    (first : SampleRefines x x') (second : SampleRefines y y') :
    op.lane x' y' = none ∨ ∃ result allowed, op.lane x y = some result ∧
        op.lane x' y' = some allowed ∧ SampleRefines result allowed := by
  rcases second with rfl | rfl
  · cases division : op.isDivision with
    | true => exact Or.inl (by cases x' <;> simp [lane, division])
    | false =>
      obtain ⟨sample, evaluated⟩ := lane_of_not_division division x y
      exact Or.inr ⟨sample, none, evaluated,
        by cases x' <;> simp [lane, division], Or.inl rfl⟩
  · rcases first with rfl | rfl
    · cases y with
      | none => cases x <;> simp [lane, SampleRefines]
      | some y =>
        cases bad : op.badDivisor y with
        | true => exact Or.inl (by simp [lane, bad])
        | false =>
          have evaluated : ∃ sample, op.lane x (some y) = some sample := by
            cases x with
            | none => simp [lane, bad]
            | some x => simpa [lane] using eval_ne_none_of_good bad
          obtain ⟨sample, evaluated⟩ := evaluated
          exact Or.inr ⟨sample, none, evaluated,
            by simp [lane, bad], Or.inl rfl⟩
    · cases evaluated : op.lane x y with
      | none => exact Or.inl rfl
      | some sample => exact Or.inr ⟨sample, sample, rfl, rfl, Or.inr rfl⟩

end BinOp

def Pred.eval {w : Nat} (pred : Pred) (x y : BitVec w) : Bool :=
  match pred with
  | .eq => x == y
  | .ne => x != y
  | .ugt => y.ult x
  | .uge => y.ule x
  | .ult => x.ult y
  | .ule => x.ule y
  | .sgt => y.slt x
  | .sge => y.sle x
  | .slt => x.slt y
  | .sle => x.sle y

/-- The overflow bit of `llvm.*.with.overflow`. -/
def OverflowOp.overflows {w : Nat} (op : OverflowOp) (x y : BitVec w) :
    Bool :=
  match op with
  | .sadd => x.saddOverflow y
  | .uadd => x.uaddOverflow y
  | .ssub => x.ssubOverflow y
  | .usub => x.usubOverflow y
  | .smul => x.smulOverflow y
  | .umul => x.umulOverflow y

def strict₂ {v w : Nat} (f : BitVec v → BitVec v → Sample w) : Sample v → Sample v → Evaluated w
  | some x, some y => some (f x y)
  | _, _ => some none

def strict₁ {v w : Nat} (f : BitVec v → Sample w) : Sample v → Evaluated w
  | some x => some (f x)
  | none => some none

def selectLane {w : Nat} (cond : Sample 1) (x y : Sample w) : Evaluated w :=
  match cond with
  | none => some none
  | some bit => some (if bit = 1#1 then x else y)

variable {v w : Nat} {x : Sample v} {x' : Sample v} {R : Type u} {r : Reg}

theorem strict₂_mono (f : BitVec v → BitVec v → Sample w)
    {y y' : Sample v} (first : SampleRefines x x') (second : SampleRefines y y') :
    ∃ result allowed, strict₂ f x y = some result ∧
      strict₂ f x' y' = some allowed ∧ SampleRefines result allowed := by
  rcases first with rfl | rfl <;> rcases second with rfl | rfl <;>
    cases x <;> cases y <;> simp [strict₂, SampleRefines]

theorem strict₁_mono (f : BitVec v → Sample w) (refined : SampleRefines x x') :
    ∃ result allowed, strict₁ f x = some result ∧
      strict₁ f x' = some allowed ∧ SampleRefines result allowed := by
  rcases refined with rfl | rfl <;> cases x <;>
    simp [strict₁, SampleRefines]

theorem selectLane_mono {c c' : Sample 1} {x x' y y' : Sample w}
    (cond : SampleRefines c c') (first : SampleRefines x x') (second : SampleRefines y y') :
    ∃ result allowed, selectLane c x y = some result ∧ selectLane c' x' y' = some allowed ∧
        SampleRefines result allowed := by
  rcases cond with rfl | rfl
  · cases c <;> simp [selectLane, SampleRefines]
  · cases c with
    | none => simp [selectLane, SampleRefines]
    | some bit =>
      by_cases isTrue : bit = 1#1
      · exact ⟨x, x', by simp [selectLane, isTrue],
          by simp [selectLane, isTrue], first⟩
      · exact ⟨y, y', by simp [selectLane, isTrue],
          by simp [selectLane, isTrue], second⟩

/-! ## Register contents -/

@[ext]
structure Content (w : Nat) where
  samples : Set (Sample w)
  nonempty : samples.Nonempty

namespace Content

variable {w : Nat}

def single (sample : Sample w) : Content w :=
  ⟨{sample}, Set.singleton_nonempty sample⟩

/-- The content of `undef`. -/
def undef : Content w :=
  ⟨{sample | ∃ x : BitVec w, sample = some x}, ⟨some 0, 0, rfl⟩⟩

def WellDefined (content : Content w) : Prop :=
  ∃ x : BitVec w, content = single (some x)

def Refines (target source : Content w) : Prop :=
  ∀ x ∈ target.samples, ∃ y ∈ source.samples, SampleRefines x y

@[simp]
theorem samples_single (sample : Sample w) : (single sample).samples = {sample} :=
  rfl

theorem Refines.refl (content : Content w) : content.Refines content :=
  fun x member => ⟨x, member, Or.inr rfl⟩

theorem Refines.trans {target middle source : Content w} (first : target.Refines middle)
    (second : middle.Refines source) : target.Refines source := by
  intro x member
  obtain ⟨y, middleMember, refined⟩ := first x member
  obtain ⟨z, sourceMember, refined'⟩ := second y middleMember
  refine ⟨z, sourceMember, ?_⟩
  rcases refined' with rfl | rfl
  · exact Or.inl rfl
  · exact refined

theorem Refines.poison (target : Content w) : target.Refines (single none) :=
  fun _ _ => ⟨none, rfl, Or.inl rfl⟩

theorem single_refines_single {x y : BitVec w} :
    (single (some x)).Refines (single (some y)) ↔ x = y := by
  constructor
  · intro refined
    obtain ⟨z, rfl, impossible | same⟩ := refined (some x) rfl
    · cases impossible
    · exact Option.some.inj same
  · rintro rfl
    exact Refines.refl _

theorem Refines.eq_of_wellDefined {target source : Content w} (refined : target.Refines source)
    (defined : source.WellDefined) : target = source := by
  obtain ⟨x, rfl⟩ := defined
  ext sample
  constructor
  · intro member
    obtain ⟨y, rfl, refined'⟩ := refined sample member
    rcases refined' with impossible | same
    · cases impossible
    · exact same
  · intro member
    obtain ⟨other, otherMember⟩ := target.nonempty
    obtain ⟨y, rfl, refined'⟩ := refined other otherMember
    rcases refined' with impossible | rfl
    · cases impossible
    · cases member
      exact otherMember

end Content

abbrev Env (R : Type u) := (w : Nat) → R → Content w

def Env.set {R : Type u} [DecidableEq R] (env : Env R) (w : Nat) (r : R)
    (content : Content w) : Env R :=
  Function.update env w (Function.update (env w) r content)

@[simp]
theorem Env.set_self [DecidableEq R] (env : Env R) (w : Nat) (r : R)
    (content : Content w) : env.set w r content w r = content := by
  simp [Env.set]

theorem Env.set_of_ne [DecidableEq R] (env : Env R) {w' : Nat} {r r' : R} (content : Content w)
    (different : (w', r') ≠ (w, r)) : env.set w r content w' r' = env w' r' := by
  by_cases sameWidth : w' = w
  · subst sameWidth
    have differentReg : r' ≠ r := fun same => different (by rw [same])
    simp [Env.set, differentReg]
  · simp [Env.set, sameWidth]

namespace Operand

variable {R : Type u} {S : Type v} {w : Nat}

def content (env : Env R) : Operand R w → Content w
  | .const value => .single (some value)
  | .undef => .undef
  | .poison => .single none
  | .reg r => env w r

@[simp]
theorem content_map (f : R → S) (env : Env S) (operand : Operand R w) :
    (operand.map f).content env = operand.content fun w r => env w (f r) := by
  cases operand <;> rfl

theorem content_congr {env env' : Env R} {operand : Operand R w}
    (agree : ∀ use ∈ operand.regs, env use.1 use.2 = env' use.1 use.2) :
    operand.content env = operand.content env' := by
  cases operand with
  | reg r => exact agree (w, r) (List.mem_singleton.mpr rfl)
  | _ => rfl

theorem content_mono {target source : Env R} {operand : Operand R w}
    (refined : ∀ use ∈ operand.regs, (target use.1 use.2).Refines (source use.1 use.2)) :
    (operand.content target).Refines (operand.content source) := by
  cases operand with
  | reg r => exact refined (w, r) (List.mem_singleton.mpr rfl)
  | _ => exact Content.Refines.refl _

end Operand

/-! ## Right-hand sides -/

/-- Turn the possible evaluations of a deterministic instruction into its
outcome: undefined when one evaluation is, else the set of all results. -/
def collect {w : Nat} (evaluations : Set (Evaluated w)) : Outcomes (Content w) :=
  {outcome | (none ∈ evaluations ∧ outcome = none) ∨
      (none ∉ evaluations ∧ ∃ content : Content w, outcome = some content ∧
          content.samples = {sample | some sample ∈ evaluations})}

theorem collect_mono {target source : Set (Evaluated w)}
    (matched : ∀ evaluated ∈ target, ∃ allowed ∈ source, allowed = none ∨
        ∃ x y, evaluated = some x ∧ allowed = some y ∧ SampleRefines x y) :
    Outcomes.Refines Content.Refines (collect target) (collect source) := by
  by_cases undefined : none ∈ source
  · exact Or.inl (Or.inl ⟨undefined, rfl⟩)
  · have defined : ∀ evaluated ∈ target, ∃ x y, evaluated = some x ∧ some y ∈ source ∧
          SampleRefines x y := by
      intro evaluated member
      obtain ⟨allowed, sourceMember, rfl | ⟨x, y, rfl, rfl, refined⟩⟩ :=
        matched evaluated member
      · exact absurd sourceMember undefined
      · exact ⟨x, y, rfl, sourceMember, refined⟩
    refine Or.inr fun outcome member => ?_
    rcases member with ⟨reached, rfl⟩ | ⟨-, content, rfl, samples⟩
    · obtain ⟨x, y, impossible, -⟩ := defined none reached
      cases impossible
    · have refined : ∀ x ∈ content.samples, ∃ y, some y ∈ source ∧ SampleRefines x y := by
        intro x observed
        rw [samples] at observed
        obtain ⟨x', y, same, sourceMember, refined⟩ := defined _ observed
        cases same
        exact ⟨y, sourceMember, refined⟩
      obtain ⟨x, observed⟩ := content.nonempty
      obtain ⟨y, sourceMember, -⟩ := refined x observed
      exact ⟨content, rfl, ⟨{sample | some sample ∈ source},
        ⟨y, sourceMember⟩⟩, Or.inr ⟨undefined, _, rfl, rfl⟩, refined⟩

theorem collect_eq_pure {evaluations : Set (Evaluated w)} (defined : none ∉ evaluations)
    (nonempty : evaluations.Nonempty) : ∃ content, collect evaluations = Outcomes.pure content := by
  obtain ⟨evaluated, member⟩ := nonempty
  cases evaluated with
  | none => exact absurd member defined
  | some sample =>
    refine ⟨⟨{sample | some sample ∈ evaluations}, ⟨sample, member⟩⟩, ?_⟩
    ext outcome
    constructor
    · rintro (⟨undefined, -⟩ | ⟨-, content, rfl, samples⟩)
      · exact absurd undefined defined
      · exact congrArg some (Content.ext samples)
    · rintro rfl
      exact Or.inr ⟨defined, _, rfl, rfl⟩

theorem collect_singleton (sample : Sample w) :
    collect {some sample} = Outcomes.pure (.single sample) := by
  have defined : none ∉ ({some sample} : Set (Evaluated w)) := by simp
  obtain ⟨content, single⟩ :=
    collect_eq_pure defined (Set.singleton_nonempty _)
  have member : some content ∈ collect {some sample} := by
    rw [single]
    rfl
  rcases member with ⟨impossible, -⟩ | ⟨-, content', same, samples⟩
  · cases impossible
  · cases same
    rw [single, show content = .single sample from Content.ext (by
      rw [samples]
      ext other
      simp)]

/-- `freeze` commits to one integer its operand can be. -/
def frozen {w : Nat} (content : Content w) : Outcomes (Content w) :=
  {outcome | ∃ x : BitVec w, (some x ∈ content.samples ∨ none ∈ content.samples) ∧
      outcome = some (Content.single (some x))}

theorem frozen_mono {target source : Content w} (refined : target.Refines source) :
    Outcomes.Refines Content.Refines (frozen target) (frozen source) := by
  refine Or.inr fun outcome member => ?_
  obtain ⟨x, observed, rfl⟩ := member
  refine ⟨_, rfl, Content.single (some x), ⟨x, ?_, rfl⟩, Content.Refines.refl _⟩
  rcases observed with observed | observed
  · obtain ⟨y, sourceMember, rfl | rfl⟩ := refined _ observed
    · exact Or.inr sourceMember
    · exact Or.inl sourceMember
  · obtain ⟨y, sourceMember, rfl | rfl⟩ := refined _ observed
    · exact Or.inr sourceMember
    · exact Or.inr sourceMember

namespace Rhs

variable {R : Type u} {S : Type v}

/-- The possible evaluations of a right-hand side other than `freeze`, each
read of an operand observing one of its samples. -/
def evaluations (env : Env R) : {w : Nat} → Rhs R w → Set (Evaluated w)
  | _, .binop op a b =>
    {result | ∃ x ∈ (a.content env).samples, ∃ y ∈ (b.content env).samples, result = op.lane x y}
  | _, .icmp pred a b =>
    {result | ∃ x ∈ (a.content env).samples, ∃ y ∈ (b.content env).samples, result = strict₂
          (fun x y => some (BitVec.ofBool (pred.eval x y))) x y}
  | _, .select cond a b =>
    {result | ∃ c ∈ (cond.content env).samples, ∃ x ∈ (a.content env).samples,
        ∃ y ∈ (b.content env).samples, result = selectLane c x y}
  | _, .freeze a =>
    {result | ∃ x ∈ (a.content env).samples, result = some x}
  | w, .zext _ nneg a =>
    {result | ∃ x ∈ (a.content env).samples, result = strict₁
        (fun x => if nneg && x.msb then none else some (x.setWidth w)) x}
  | w, .sext _ a =>
    {result | ∃ x ∈ (a.content env).samples, result = strict₁ (fun x => some (x.signExtend w)) x}
  | w, .trunc _ nuw nsw a =>
    {result | ∃ x ∈ (a.content env).samples, result = strict₁
        (fun x =>
          if (nuw && (x.setWidth w).setWidth _ != x) ||
              (nsw && (x.setWidth w).signExtend _ != x) then none
          else some (x.setWidth w)) x}
  | _, .withOverflow op a b =>
    {result | ∃ x ∈ (a.content env).samples, ∃ y ∈ (b.content env).samples, result = strict₂
          (fun x y => some (BitVec.ofBool (op.overflows x y))) x y}

def outcomes (env : Env R) {w : Nat} (rhs : Rhs R w) : Outcomes (Content w) :=
  match rhs with
  | .freeze a => frozen (a.content env)
  | rhs => collect (rhs.evaluations env)

variable {w : Nat} {rhs : Rhs R w} {op : BinOp}

theorem outcomes_map (f : R → S) (env : Env S) (rhs : Rhs R w) :
    (rhs.map f).outcomes env = rhs.outcomes fun w r => env w (f r) := by
  cases rhs <;> simp [map, outcomes, evaluations]

theorem outcomes_congr {env env' : Env R}
    (agree : ∀ use ∈ rhs.regs, env use.1 use.2 = env' use.1 use.2) :
    rhs.outcomes env = rhs.outcomes env' := by
  have operandAgree : ∀ operand ∈ rhs.operands, operand.2.content env = operand.2.content env' :=
    fun operand member => Operand.content_congr fun use used =>
      agree use (List.mem_flatMap.mpr ⟨operand, member, used⟩)
  cases rhs <;>
    simp_all [operands, outcomes, evaluations]

theorem outcomes_binop_pure {env : Env R} (notDivision : op.isDivision = false)
    (a b : Operand R w) : ∃ content, (Rhs.binop op a b).outcomes env = Outcomes.pure content := by
  obtain ⟨x, xMember⟩ := (a.content env).nonempty
  obtain ⟨y, yMember⟩ := (b.content env).nonempty
  refine collect_eq_pure ?_ ⟨_, x, xMember, y, yMember, rfl⟩
  rintro ⟨x', -, y', -, undefined⟩
  obtain ⟨sample, defined⟩ := BinOp.lane_of_not_division notDivision x' y'
  rw [defined] at undefined
  cases undefined

theorem outcomes_binop_single {env : Env R} {a b : Operand R w}
    {x y result : Sample w} (first : a.content env = .single x)
    (second : b.content env = .single y) (evaluated : op.lane x y = some result) :
    (Rhs.binop op a b).outcomes env = Outcomes.pure (.single result) := by
  have evaluations : (Rhs.binop op a b).evaluations env = {some result} := by
    ext outcome
    simp [Rhs.evaluations, first, second, evaluated]
  exact (congrArg collect evaluations).trans (collect_singleton result)

theorem outcomes_mono {target source : Env R}
    (refined : ∀ use ∈ rhs.regs, (target use.1 use.2).Refines (source use.1 use.2)) :
    Outcomes.Refines Content.Refines (rhs.outcomes target) (rhs.outcomes source) := by
  have operandRefined : ∀ operand ∈ rhs.operands,
        (operand.2.content target).Refines (operand.2.content source) :=
    fun operand member => Operand.content_mono fun use used =>
      refined use (List.mem_flatMap.mpr ⟨operand, member, used⟩)
  clear refined
  cases rhs with
  | binop op a b =>
    have first := operandRefined ⟨_, a⟩ (by simp [operands])
    have second := operandRefined ⟨_, b⟩ (by simp [operands])
    refine collect_mono ?_
    rintro - ⟨x, xMember, y, yMember, rfl⟩
    obtain ⟨x', xSource, xRefined⟩ := first x xMember
    obtain ⟨y', ySource, yRefined⟩ := second y yMember
    refine ⟨_, ⟨x', xSource, y', ySource, rfl⟩, ?_⟩
    exact op.lane_mono xRefined yRefined
  | icmp pred a b =>
    have first := operandRefined ⟨_, a⟩ (by simp [operands])
    have second := operandRefined ⟨_, b⟩ (by simp [operands])
    refine collect_mono ?_
    rintro - ⟨x, xMember, y, yMember, rfl⟩
    obtain ⟨x', xSource, xRefined⟩ := first x xMember
    obtain ⟨y', ySource, yRefined⟩ := second y yMember
    exact ⟨_, ⟨x', xSource, y', ySource, rfl⟩, Or.inr (strict₂_mono _ xRefined yRefined)⟩
  | withOverflow op a b =>
    have first := operandRefined ⟨_, a⟩ (by simp [operands])
    have second := operandRefined ⟨_, b⟩ (by simp [operands])
    refine collect_mono ?_
    rintro - ⟨x, xMember, y, yMember, rfl⟩
    obtain ⟨x', xSource, xRefined⟩ := first x xMember
    obtain ⟨y', ySource, yRefined⟩ := second y yMember
    exact ⟨_, ⟨x', xSource, y', ySource, rfl⟩, Or.inr (strict₂_mono _ xRefined yRefined)⟩
  | select cond a b =>
    have third := operandRefined ⟨_, cond⟩ (by simp [operands])
    have first := operandRefined ⟨_, a⟩ (by simp [operands])
    have second := operandRefined ⟨_, b⟩ (by simp [operands])
    refine collect_mono ?_
    rintro - ⟨c, cMember, x, xMember, y, yMember, rfl⟩
    obtain ⟨c', cSource, cRefined⟩ := third c cMember
    obtain ⟨x', xSource, xRefined⟩ := first x xMember
    obtain ⟨y', ySource, yRefined⟩ := second y yMember
    exact ⟨_, ⟨c', cSource, x', xSource, y', ySource, rfl⟩,
      Or.inr (selectLane_mono cRefined xRefined yRefined)⟩
  | freeze a =>
    exact frozen_mono (operandRefined ⟨_, a⟩ (by simp [operands]))
  | zext widens nneg a =>
    have first := operandRefined ⟨_, a⟩ (by simp [operands])
    refine collect_mono ?_
    rintro - ⟨x, xMember, rfl⟩
    obtain ⟨x', xSource, xRefined⟩ := first x xMember
    exact ⟨_, ⟨x', xSource, rfl⟩, Or.inr (strict₁_mono _ xRefined)⟩
  | sext widens a =>
    have first := operandRefined ⟨_, a⟩ (by simp [operands])
    refine collect_mono ?_
    rintro - ⟨x, xMember, rfl⟩
    obtain ⟨x', xSource, xRefined⟩ := first x xMember
    exact ⟨_, ⟨x', xSource, rfl⟩, Or.inr (strict₁_mono _ xRefined)⟩
  | trunc narrows nuw nsw a =>
    have first := operandRefined ⟨_, a⟩ (by simp [operands])
    refine collect_mono ?_
    rintro - ⟨x, xMember, rfl⟩
    obtain ⟨x', xSource, xRefined⟩ := first x xMember
    exact ⟨_, ⟨x', xSource, rfl⟩, Or.inr (strict₁_mono _ xRefined)⟩

end Rhs

/-! ## Instruction sequences and functions -/

/-- A call to `llvm.assume`: undefined unless the condition is certainly
true. -/
def assumed (content : Content 1) (env : Env Reg) : Outcomes (Env Reg) :=
  {outcome | (content = .single (some 1#1) ∧ outcome = some env) ∨
      (content ≠ .single (some 1#1) ∧ outcome = none)}

theorem assumed_true (env : Env Reg) : assumed (.single (some 1#1)) env = Outcomes.pure env := by
  ext outcome
  simp [assumed]

theorem assumed_of_ne {content : Content 1} {env : Env Reg}
    (violated : content ≠ .single (some 1#1)) : assumed content env = Outcomes.undefined := by
  ext outcome
  simp [assumed, violated, Outcomes.undefined]

def Instruction.step (inst : Instruction) (env : Env Reg) : Outcomes (Env Reg) :=
  match inst.op with
  | .value (w := w) rhs =>
    (rhs.outcomes env).map fun content =>
      env.set w (.inst inst.id) content
  | .assume cond => assumed (cond.content env) env

def runs : List Instruction → Env Reg → Outcomes (Env Reg)
  | [], env => Outcomes.pure env
  | inst :: rest, env => (inst.step env).bind (runs rest)

@[simp]
theorem runs_nil (env : Env Reg) : runs [] env = Outcomes.pure env :=
  rfl

@[simp]
theorem runs_cons (inst : Instruction) (rest : List Instruction) (env : Env Reg) :
    runs (inst :: rest) env = (inst.step env).bind (runs rest) :=
  rfl

theorem runs_value {id : Nat} {name : Name} {rhs : Rhs Reg w}
    {metadata : List Text} {rest : List Instruction} {env : Env Reg} {content : Content w}
    (determined : rhs.outcomes env = Outcomes.pure content) :
    runs (⟨id, name, .value rhs, metadata⟩ :: rest) env =
      runs rest (env.set w (.inst id) content) := by
  simp [Instruction.step, determined, Outcomes.map]

theorem runs_append (first second : List Instruction) (env : Env Reg) :
    runs (first ++ second) env = (runs first env).bind (runs second) := by
  induction first generalizing env with
  | nil => simp
  | cons inst rest ih =>
    simp only [List.cons_append, runs_cons, Outcomes.bind_assoc]
    congr 1
    funext env'
    exact ih env'

theorem Instruction.step_frame {inst : Instruction} {env env' : Env Reg}
    (reached : some env' ∈ inst.step env) (other : (w, r) ∉ inst.defines) : env' w r = env w r := by
  obtain ⟨id, name, op, metadata⟩ := inst
  cases op with
  | value rhs =>
    obtain ⟨content, -, rfl⟩ := Outcomes.some_mem_map.mp reached
    refine Env.set_of_ne env content fun same => other ?_
    rw [same]
    simp [Instruction.defines, Instruction.type, Op.type]
  | assume cond =>
    rcases reached with ⟨-, same⟩ | ⟨-, impossible⟩
    · cases same
      rfl
    · cases impossible

theorem runs_frame {insts : List Instruction} {env env' : Env Reg}
    (reached : some env' ∈ runs insts env) (other : (w, r) ∉ bodyScope insts) :
    env' w r = env w r := by
  induction insts generalizing env with
  | nil =>
    cases reached
    rfl
  | cons inst rest ih =>
    simp only [bodyScope, List.flatMap_cons, List.mem_append, not_or] at other
    rcases reached with ⟨-, impossible⟩ | ⟨middle, first, second⟩
    · cases impossible
    · rw [ih second other.2, Instruction.step_frame first other.1]

/-- The actual arguments, by position; only the slot of the formal's width is
read. -/
abbrev ArgTuple := (w : Nat) → Nat → Content w

def bindArgs (args : ArgTuple) : Env Reg
  | w, .arg index => args w index
  | _, .inst _ => .single none

inductive Returned where
  | void
  | value {w : Nat} (content : Content w)

inductive Returned.Refines : Returned → Returned → Prop
  | void : Returned.Refines .void .void
  | value {w : Nat} {target source : Content w} : target.Refines source →
        Returned.Refines (.value target) (.value source)

theorem Returned.Refines.refl (returned : Returned) : returned.Refines returned := by
  cases returned with
  | void => exact .void
  | value content => exact .value (Content.Refines.refl content)

theorem Returned.Refines.trans {target middle source : Returned} (first : target.Refines middle)
    (second : middle.Refines source) : target.Refines source := by
  cases first with
  | void => exact second
  | value refined =>
    cases second with
    | value refined' => exact .value (refined.trans refined')

def TermOp.returned (term : TermOp Reg) (env : Env Reg) : Outcomes Returned :=
  match term with
  | .ret value => Outcomes.pure (.value (value.content env))
  | .retVoid => Outcomes.pure .void
  | .unreachable => Outcomes.undefined

def BasicBlock.outcomes (bb : BasicBlock) (args : ArgTuple) : Outcomes Returned :=
  (runs bb.insts (bindArgs args)).bind bb.term.op.returned

def Function.outcomes (fn : Function) (args : ArgTuple) : Outcomes Returned :=
  match fn.blocks with
  | [] => Outcomes.undefined
  | entry :: _ => entry.outcomes args

/-- `target` refines `source` for every tuple of actual arguments. -/
def Function.Refines (target source : Function) : Prop :=
  ∀ args : ArgTuple, Outcomes.Refines Returned.Refines (target.outcomes args) (source.outcomes args)

end AliveNext.LLVM
