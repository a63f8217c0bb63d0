import AliveNext.TvNext.FlagSound
import AliveNext.TvNext.RangeWrap

/-!
# The well-definedness flags of a range

`undef_free` is propagated soundly by every opcode.  `poison_free` is not: the
transfer functions do not look at most poison-generating flags, and take a
recorded interval of `add`, `sub` and `mul` for a proof that nothing wraps.
The intervals of a frozen value are those of its operand, which say nothing
about a poison operand.  When no step meets one of these gaps, every entry of
the map describes its value.
-/

namespace AliveNext.TvNext

open AliveNext.Lib
open AliveNext.LLVM

/-! ## Descriptions -/

/-- What the documentation of `llvm::KnownBits` promises about the remaining
operators: the result covers the results that are not poison. -/
structure BitOperators.WrapSound (llvm : BitOperators) : Prop where
  ashr : ∀ {w : Nat} {a b : KnownBits w} {x y : BitVec w}, a.Covers x → b.Covers y → y.toNat < w →
      (llvm.ashr a b).Covers (x.sshiftRight' y)
  shl : ∀ {w : Nat} {nuw nsw : Bool} {a b : KnownBits w} {x y z : BitVec w},
    a.Covers x → b.Covers y → (BinOp.shl nuw nsw).eval x y = some (some z) →
      (llvm.shl nuw nsw a b).Covers z
  add : ∀ {w : Nat} {nuw nsw : Bool} {a b : KnownBits w} {x y z : BitVec w},
    a.Covers x → b.Covers y → (BinOp.add nuw nsw).eval x y = some (some z) →
      (llvm.computeForAddSub true nsw nuw a b).Covers z
  sub : ∀ {w : Nat} {nuw nsw : Bool} {a b : KnownBits w} {x y z : BitVec w},
    a.Covers x → b.Covers y → (BinOp.sub nuw nsw).eval x y = some (some z) →
      (llvm.computeForAddSub false nsw nuw a b).Covers z
  mul : ∀ {w : Nat} {a b : KnownBits w} {x y : BitVec w},
    a.Covers x → b.Covers y → (llvm.mul a b).Covers (x * y)

variable {v w : Nat}

/-- What an entry says about the content of its value: the facts hold of every
integer it can be, and the flags hold. -/
structure KnownRange.Describes (r : KnownRange w) (content : Content w) : Prop where
  contains : ∀ {x : BitVec w}, some x ∈ content.samples → r.Contains x
  undefFree : r.undefFree = true → ∃ sample, content = .single sample
  poisonFree : r.poisonFree = true → none ∉ content.samples

structure OperandFacts.Describes (facts : OperandFacts w) (content : Content w) : Prop where
  contains : ∀ {x : BitVec w}, some x ∈ content.samples → facts.Contains x
  undefFree : facts.undefFree = true → ∃ sample, content = .single sample
  poisonFree : facts.poisonFree = true → none ∉ content.samples

/-- Every entry of a value that is not computed `later` describes it. -/
def RangeMap.Describes (map : RangeMap) (later : List (Nat × Reg)) (env : Env Reg) : Prop :=
  ∀ ⦃w : Nat⦄ ⦃operand : Operand Reg w⦄ ⦃r : KnownRange w⦄,
    (∀ use ∈ operand.regs, use ∉ later) → map w operand = some r → r.Describes (operand.content env)

theorem constantRange_describes (x : BitVec w) :
    (constantRange x).Describes (.single (some x)) where
  contains := by
    intro y observed
    obtain rfl : y = x := Option.some.inj observed
    exact constantRange_contains y
  undefFree _ := ⟨some x, rfl⟩
  poisonFree _ := nofun

section

variable {map : RangeMap} {later : List (Nat × Reg)} {env : Env Reg} {operand : Operand Reg w}

theorem RangeMap.Describes.sound (describes : map.Describes later env) : map.Sound later env :=
  fun _ _ _ computed recorded _ observed =>
    (describes computed recorded).contains observed

theorem rangeOf_describes (describes : map.Describes later env)
    (computed : ∀ use ∈ operand.regs, use ∉ later) {r : KnownRange w}
    (found : rangeOf map operand = some r) : r.Describes (operand.content env) := by
  unfold rangeOf at found
  split at found
  next entry recorded =>
    obtain rfl := Option.some.inj found
    exact describes computed recorded
  next =>
    cases operand with
    | const value =>
      obtain rfl := Option.some.inj found
      exact constantRange_describes value
    | undef => cases found
    | poison => cases found
    | reg r => cases found

theorem factsOf_describes (describes : map.Describes later env)
    (computed : ∀ use ∈ operand.regs, use ∉ later) :
    (factsOf map operand).Describes (operand.content env) where
  contains := factsOf_contains describes.sound computed
  undefFree := by
    intro free
    obtain ⟨r, found, free⟩ := Option.any_eq_true _ _ |>.mp free
    exact (rangeOf_describes describes computed found).undefFree free
  poisonFree := by
    intro free
    obtain ⟨r, found, free⟩ := Option.any_eq_true _ _ |>.mp free
    exact (rangeOf_describes describes computed found).poisonFree free

end

/-! ## The gaps -/

/-- The poison-generating flags of an operator. -/
def flagsOf : BinOp → List FlagKind
  | .add nuw nsw =>
    (if nuw then [.addNUW] else []) ++ (if nsw then [.addNSW] else [])
  | .sub nuw nsw =>
    (if nuw then [.subNUW] else []) ++ (if nsw then [.subNSW] else [])
  | .mul nuw nsw =>
    (if nuw then [.mulNUW] else []) ++ (if nsw then [.mulNSW] else [])
  | .shl nuw nsw =>
    (if nuw then [.shlNUW] else []) ++ (if nsw then [.shlNSW] else [])
  | .udiv exact => if exact then [.udivExact] else []
  | .sdiv exact => if exact then [.sdivExact] else []
  | .lshr exact => if exact then [.lshrExact] else []
  | .ashr exact => if exact then [.ashrExact] else []
  | .or disjoint => if disjoint then [.orDisjoint] else []
  | .urem | .srem | .and | .xor => []

/-- The test before `poison_free` is propagated: for `add`, `sub` and `mul`
one of the intervals is derived. -/
def boundsDerived (op : BinOp) (l r : OperandFacts w) : Bool :=
  let both (first second : Option (BitVec w × BitVec w))
      (test : BitVec w × BitVec w → BitVec w × BitVec w → Bool) : Bool :=
    match first, second with
    | some a, some b => test a b
    | _, _ => false
  match op with
  | .add nuw nsw =>
    nuw && both l.u r.u (fun _ _ => true) || nsw && both l.s r.s (fun _ _ => true)
  | .sub nuw nsw =>
    nuw && both l.u r.u (fun a b => b.1.ule a.2) || nsw && both l.s r.s
        (fun a b => !a.1.msb && !b.2.msb && b.1.sle a.2)
  | .mul nuw nsw =>
    nuw && both l.u r.u (fun _ _ => true) || nsw && both l.s r.s (fun a b => !a.1.msb && !b.1.msb)
  | _ => true

/-- The step meets none of the gaps: where the flag is propagated no
poison-generating flag is violated, the end points of the recorded intervals
fit, and a frozen operand is not poison unless its facts hold of every
integer. -/
def StepFits (map : RangeMap) (env : Env Reg) : {w : Nat} → Rhs Reg w → Prop
  | _, .binop op a b =>
    ∀ x y, some x ∈ (a.content env).samples → some y ∈ (b.content env).samples →
        (∀ z, op.eval x y = some (some z) →
          EndPointsFit op (factsOf map a) (factsOf map b) (constShift b) x y ∧
            RightShiftFits op (factsOf map a) (factsOf map b) (constShift b) x y) ∧
        ((factsOf map a).poisonFree = true → (factsOf map b).poisonFree = true →
            boundsDerived op (factsOf map a) (factsOf map b) = true →
              ∀ kind ∈ flagsOf op, ¬kind.Violated x y)
  | _, .freeze a =>
    none ∈ (a.content env).samples → ∀ r, rangeOf map a = some r → ∀ x, r.Contains x
  | _, .zext _ nneg a =>
    ∀ x, some x ∈ (a.content env).samples →
      (factsOf map a).poisonFree = true → nneg = true → 0 ≤ x.toInt
  | w, .trunc (v := v) _ nuw nsw a =>
    ∀ x, some x ∈ (a.content env).samples → (factsOf map a).poisonFree = true →
        (nuw = true → (x.setWidth w).setWidth v = x) ∧
          (nsw = true → (x.setWidth w).signExtend v = x)
  | _, _ => True

def StepsFit (llvm : BitOperators) (env : Env Reg) : List Instruction → RangeMap → Prop
  | [], _ => True
  | inst :: rest, map =>
    (match inst.op with
      | .value rhs => StepFits map env rhs
      | .assume _ => True) ∧
    ∀ next, computeRange llvm map inst = .ok next → StepsFit llvm env rest next

section

variable {llvm : BitOperators} {l r : OperandFacts w} {result : KnownRange w}
  {x y z : BitVec w} {nuw nsw : Bool}

theorem conclude_contains_of_bounds (sound : llvm.Sound) {base : KnownRange w}
    (concluded : conclude llvm base = .ok (some result)) (bounds : result.Bounds x)
    (covered : ∀ {known : KnownBits w}, base.bits = some known → known.Covers x) :
    result.Contains x := by
  have inside := (conclude_bounds concluded).mp bounds
  exact conclude_contains sound ⟨inside.unsigned, inside.signed, covered⟩ concluded

theorem concludeWrapping_contains (sound : llvm.Sound) {u s : Option (BitVec w × BitVec w)}
    {known : KnownBits w}
    (concluded : concludeWrapping llvm nuw nsw u s known l r = .ok (some result))
    (bounds : result.Bounds x) (covered : known.Covers x) : result.Contains x := by
  refine conclude_contains_of_bounds sound (not_skipped concluded rfl) bounds ?_
  rintro known ⟨⟩
  exact covered

/-- What `transfer` records for a binary operator holds of a result that is
not poison, when the end points fit. -/
theorem transferBinop_contains_of_fits (sound : llvm.Sound) (wrapSound : llvm.WrapSound)
    (width : w ≤ 2 ^ 32) {op : BinOp} {constant : Option Nat} (first : l.Contains x)
    (second : r.Contains y)
    (amount : ∀ {value : Nat}, constant = some value → value = min y.toNat w)
    (evaluated : op.eval x y = some (some z)) (fits : EndPointsFit op l r constant x y)
    (fits' : RightShiftFits op l r constant x y)
    (transferred : transferBinop llvm op l r constant = .ok (some result)) : result.Contains z := by
  cases op with
  | add nuw nsw =>
    exact concludeWrapping_contains sound transferred
      ((transferAdd_bounds first.bounds second.bounds evaluated transferred).mpr fits)
      (wrapSound.add first.known second.known evaluated)
  | sub nuw nsw =>
    exact concludeWrapping_contains sound transferred
      ((transferSub_bounds first.bounds second.bounds evaluated transferred).mpr fits)
      (wrapSound.sub first.known second.known evaluated)
  | mul nuw nsw =>
    refine concludeWrapping_contains sound transferred
      ((transferMul_bounds first.bounds second.bounds evaluated transferred).mpr fits) ?_
    rw [eq_of_guarded evaluated]
    exact wrapSound.mul first.known second.known
  | shl nuw nsw =>
    refine conclude_contains_of_bounds sound (not_skipped transferred rfl)
      ((transferShl_bounds first.bounds amount evaluated transferred).mpr fits) ?_
    rintro known ⟨⟩
    exact wrapSound.shl first.known second.known evaluated
  | ashr exact =>
    rw [eq_of_guarded evaluated]
    obtain ⟨inRange, s, bounded, concluded⟩ := transferAShr_cases transferred
    refine conclude_contains_of_bounds sound concluded
      ((transferAShr_bounds width first.bounds second.bounds amount transferred).mpr fits') ?_
    rintro known ⟨⟩
    exact wrapSound.ashr first.known second.known (shiftInRange_lt second amount inRange)
  | and | or _ | xor | urem | udiv _ | lshr _ =>
    exact transferBinop_contains sound width rfl first second amount evaluated transferred
  | sdiv _ | srem => cases transferred

theorem transferFreeze_contains (sound : llvm.Sound) {a : OperandFacts w}
    (holds : ∀ r, a.range = some r → r.Contains x)
    (transferred : transferFreeze llvm a = .ok (some result)) : result.Contains x := by
  refine derived_contains sound ?_ transferred
  refine ⟨?_, ?_, ?_⟩
  · intro lo hi known
    obtain ⟨r, recorded, known⟩ := Option.bind_eq_some_iff.mp known
    exact (holds r recorded).unsigned known
  · intro lo hi known
    obtain ⟨r, recorded, known⟩ := Option.bind_eq_some_iff.mp known
    exact (holds r recorded).signed known
  · intro bits known
    obtain ⟨r, recorded, known⟩ := Option.bind_eq_some_iff.mp known
    exact (holds r recorded).bits known

end

section

variable {llvm : BitOperators} {l r : OperandFacts w} {result : KnownRange w}

structure FlagsFrom (result : KnownRange w) (undefFree poisonFree : Bool) : Prop where
  undef : result.undefFree = true → undefFree = true
  poison : result.poisonFree = true → poisonFree = true

theorem conclude_flagsFrom {base : KnownRange w}
    (concluded : conclude llvm base = .ok (some result)) :
    FlagsFrom result base.undefFree base.poisonFree := by
  obtain ⟨undef, poison⟩ := conclude_flags concluded
  exact ⟨undef ▸ id, poison ▸ id⟩

theorem FlagsFrom.imp {undef undef' poison poison' : Bool} (flags : FlagsFrom result undef poison)
    (first : undef = true → undef' = true) (second : poison = true → poison' = true) :
    FlagsFrom result undef' poison' :=
  ⟨fun free => first (flags.undef free), fun free => second (flags.poison free)⟩

theorem concludeWrapping_flags {nuw nsw : Bool} {u s : Option (BitVec w × BitVec w)}
    {known : KnownBits w}
    (concluded : concludeWrapping llvm nuw nsw u s known l r = .ok (some result)) :
    FlagsFrom result (l.undefFree && r.undefFree)
      (l.poisonFree && r.poisonFree && (!(nuw || nsw) || u.isSome || s.isSome)) := by
  refine (conclude_flagsFrom (not_skipped concluded rfl)).imp id ?_
  intro free
  dsimp only at free
  split at free
  next derived =>
    rw [free, Bool.true_and]
    exact derived
  next => cases free

variable {op : BinOp} {x y : BitVec w} {flag : Bool}

/-- A binary operator takes both flags from both operands, `poison_free` only
after the test for derived bounds when it has a flag. -/
theorem transferBinop_flags {constant : Option Nat}
    (transferred : transferBinop llvm op l r constant = .ok (some result)) :
    FlagsFrom result (l.undefFree && r.undefFree)
      (l.poisonFree && r.poisonFree && (boundsDerived op l r || (flagsOf op).isEmpty)) := by
  have plain : ∀ {base : KnownRange w}, conclude llvm base = .ok (some result) →
      base.undefFree = (l.undefFree && r.undefFree) →
      base.poisonFree = (l.poisonFree && r.poisonFree) →
      FlagsFrom result (l.undefFree && r.undefFree) (l.poisonFree && r.poisonFree && true) := by
    intro base concluded undef poison
    rw [Bool.and_true, ← undef, ← poison]
    exact conclude_flagsFrom concluded
  cases op with
  | and => exact plain (not_skipped transferred rfl) rfl rfl
  | or disjoint => exact plain (not_skipped transferred rfl) rfl rfl
  | xor =>
    obtain ⟨bits, rfl⟩ := derived_eq (not_skipped transferred rfl)
    refine ⟨id, ?_⟩
    intro free
    show (l.poisonFree && r.poisonFree && true) = true
    rw [Bool.and_true]
    exact free
  | urem =>
    simp only [transferBinop, transferURem] at transferred
    split at transferred
    next =>
      split at transferred
      next => cases transferred
      next => exact plain transferred rfl rfl
    next => cases transferred
  | udiv exact =>
    simp only [transferBinop, transferUDiv] at transferred
    split at transferred
    next =>
      split at transferred
      next => cases transferred
      next =>
        obtain ⟨least, -, transferred⟩ := bind_eq_ok.mp transferred
        obtain ⟨most, -, transferred⟩ := bind_eq_ok.mp transferred
        exact plain transferred rfl rfl
    next => cases transferred
  | lshr exact =>
    obtain ⟨-, u, -, concluded⟩ := transferLShr_cases transferred
    exact plain concluded rfl rfl
  | ashr exact =>
    obtain ⟨-, s, -, concluded⟩ := transferAShr_cases transferred
    exact plain concluded rfl rfl
  | shl nuw nsw => exact plain (not_skipped transferred rfl) rfl rfl
  | add nuw nsw =>
    refine (concludeWrapping_flags transferred).imp id ?_
    simp only [boundsDerived]
    cases nuw <;> cases nsw <;> cases l.u <;> cases r.u <;> cases l.s <;>
      cases r.s <;> simp [flagsOf]
  | sub nuw nsw =>
    refine (concludeWrapping_flags transferred).imp id ?_
    simp only [boundsDerived]
    cases nuw <;> cases nsw <;> cases l.u <;> cases r.u <;> cases l.s <;>
      cases r.s <;>
      simp [flagsOf]
  | mul nuw nsw =>
    refine (concludeWrapping_flags transferred).imp id ?_
    simp only [boundsDerived]
    cases nuw <;> cases nsw <;> cases l.u <;> cases r.u <;> cases l.s <;>
      cases r.s <;>
      simp [flagsOf]
  | sdiv exact => cases transferred
  | srem => cases transferred

theorem violates_of_guarded {violated : Bool}
    (evaluated : BinOp.guarded violated x = some none) : violated = true := by
  cases violated with
  | true => rfl
  | false => cases evaluated

theorem exists_flag (kind : FlagKind)
    (defined : kind.Defined x y) (violated : (flag && kind.violates x y) = true) :
    ∃ kind' ∈ if flag then [kind] else [], kind'.Violated x y := by
  rw [Bool.and_eq_true] at violated
  obtain ⟨rfl, violates⟩ := violated
  exact ⟨kind, List.mem_singleton.mpr rfl, (kind.violates_iff defined).mp violates⟩

theorem exists_flag_pair (kind kind' : FlagKind) {flag' : Bool}
    (defined : kind.Defined x y) (defined' : kind'.Defined x y)
    (violated : (flag && kind.violates x y || flag' && kind'.violates x y) = true) :
    ∃ found ∈ (if flag then [kind] else []) ++ if flag' then [kind'] else [],
      found.Violated x y := by
  rcases (Bool.or_eq_true _ _).mp violated with first | second
  · obtain ⟨found, member, violates⟩ := exists_flag kind defined first
    exact ⟨found, List.mem_append_left _ member, violates⟩
  · obtain ⟨found, member, violates⟩ := exists_flag kind' defined' second
    exact ⟨found, List.mem_append_right _ member, violates⟩

def isShift : BinOp → Bool
  | .shl _ _ | .lshr _ | .ashr _ => true
  | _ => false

/-- A result that is poison, on integers and with the shift amount in range,
comes from a violated flag. -/
theorem violated_of_eval (amount : isShift op = true → y.toNat < w)
    (evaluated : op.eval x y = some none) : ∃ kind ∈ flagsOf op, kind.Violated x y := by
  cases op with
  | add nuw nsw =>
    exact exists_flag_pair .addNUW .addNSW trivial trivial (violates_of_guarded evaluated)
  | sub nuw nsw =>
    exact exists_flag_pair .subNUW .subNSW trivial trivial (violates_of_guarded evaluated)
  | mul nuw nsw =>
    exact exists_flag_pair .mulNUW .mulNSW trivial trivial (violates_of_guarded evaluated)
  | shl nuw nsw =>
    have small := amount rfl
    have violated := violates_of_guarded evaluated
    rw [decide_eq_false (Nat.not_le.mpr small), Bool.false_or] at violated
    exact exists_flag_pair .shlNUW .shlNSW small small violated
  | lshr exact_ =>
    have small := amount rfl
    have violated := violates_of_guarded evaluated
    rw [decide_eq_false (Nat.not_le.mpr small), Bool.false_or] at violated
    exact exists_flag .lshrExact small violated
  | ashr exact_ =>
    have small := amount rfl
    have violated := violates_of_guarded evaluated
    rw [decide_eq_false (Nat.not_le.mpr small), Bool.false_or] at violated
    exact exists_flag .ashrExact small violated
  | or disjoint =>
    exact exists_flag .orDisjoint trivial (violates_of_guarded evaluated)
  | udiv exact_ =>
    by_cases zero : y = 0#w
    · simp [BinOp.eval, zero] at evaluated
    · have guarded : BinOp.guarded (exact_ && x % y != 0#w) (x / y) = some none := by
        simpa [BinOp.eval, zero] using evaluated
      exact exists_flag .udivExact zero (violates_of_guarded guarded)
  | sdiv exact_ =>
    by_cases undefined : y = 0#w ∨ x = BitVec.intMin w ∧ y = BitVec.allOnes w
    · simp [BinOp.eval, undefined] at evaluated
    · have guarded : BinOp.guarded (exact_ && x.srem y != 0#w) (x.sdiv y) = some none := by
        simpa [BinOp.eval, undefined] using evaluated
      rw [not_or] at undefined
      exact exists_flag .sdivExact undefined (violates_of_guarded guarded)
  | and => cases evaluated
  | xor => cases evaluated
  | urem =>
    simp only [BinOp.eval] at evaluated
    split at evaluated <;> cases evaluated
  | srem =>
    simp only [BinOp.eval] at evaluated
    split at evaluated <;> cases evaluated

end

section

variable {llvm : BitOperators} {map : RangeMap} {env : Env Reg} {result : KnownRange w}

variable {content : Content w} {op : BinOp} {a b : Operand Reg w} {rhs : Rhs Reg w}

theorem single_of_collect {evaluations : Set (Evaluated w)}
    (produced : some content ∈ collect evaluations) (evaluated : Evaluated w)
    (unique : ∀ e ∈ evaluations, e = evaluated) : ∃ sample, content = .single sample := by
  have samples := samples_of_collect produced
  obtain ⟨sample, member⟩ := content.nonempty
  have here : some sample ∈ evaluations := by
    rw [samples] at member
    exact member
  refine ⟨sample, Content.ext ?_⟩
  rw [samples]
  ext other
  constructor
  · intro there
    exact Option.some.inj ((unique _ there).trans (unique _ here).symm)
  · rintro rfl
    exact here

theorem shift_lt {l r : OperandFacts w} {constant : Option Nat}
    {y : BitVec w} (second : r.Contains y)
    (amount : ∀ {value : Nat}, constant = some value → value = min y.toNat w)
    (transferred : transferBinop llvm op l r constant = .ok (some result))
    (shift : isShift op = true) : y.toNat < w := by
  cases op with
  | shl nuw nsw =>
    refine shiftInRange_lt second amount ?_
    cases inRange : (shiftInRange constant r).1 with
    | false => simp [transferBinop, transferShl, inRange] at transferred
    | true => rfl
  | lshr exact_ =>
    exact shiftInRange_lt second amount (transferLShr_cases transferred).1
  | ashr exact_ =>
    exact shiftInRange_lt second amount (transferAShr_cases transferred).1
  | _ => cases shift

theorem binop_describes (sound : llvm.Sound) (wrapSound : llvm.WrapSound) (width : w ≤ 2 ^ 32)
    (fits : StepFits map env (.binop op a b)) (left : (factsOf map a).Describes (a.content env))
    (right : (factsOf map b).Describes (b.content env))
    (transferred : transfer llvm map (.binop op a b) = .ok (some result))
    (produced : some content ∈ (Rhs.binop op a b).outcomes env) : result.Describes content := by
  have samples := samples_of_collect produced
  have flags := transferBinop_flags transferred
  refine ⟨?_, ?_, ?_⟩
  · intro z observed
    rw [samples] at observed
    obtain ⟨p, first, q, second, same⟩ := observed
    obtain ⟨x, y, rfl, rfl, evaluated⟩ := lane_eq_integer same.symm
    obtain ⟨fits, fits'⟩ := (fits x y first second).1 z evaluated
    exact transferBinop_contains_of_fits sound wrapSound width
      (left.contains first) (right.contains second) (constShift_eq second)
      evaluated fits fits' transferred
  · intro free
    have both := flags.undef free
    rw [Bool.and_eq_true] at both
    obtain ⟨p, single⟩ := left.undefFree both.1
    obtain ⟨q, single'⟩ := right.undefFree both.2
    refine single_of_collect produced (op.lane p q) ?_
    rintro - ⟨p', first, q', second, rfl⟩
    rw [single] at first
    rw [single'] at second
    cases first
    cases second
    rfl
  · intro free poison
    have both := flags.poison free
    rw [Bool.and_eq_true, Bool.and_eq_true, Bool.or_eq_true] at both
    obtain ⟨⟨freeL, freeR⟩, tested⟩ := both
    rw [samples] at poison
    obtain ⟨p, first, q, second, same⟩ := poison
    cases p with
    | none => exact left.poisonFree freeL first
    | some x =>
      cases q with
      | none => exact right.poisonFree freeR second
      | some y =>
        obtain ⟨kind, member, violated⟩ := violated_of_eval
          (shift_lt (right.contains second) (constShift_eq second) transferred) same.symm
        rcases tested with derived | empty
        · exact (fits x y first second).2 freeL freeR derived kind member violated
        · rw [List.isEmpty_iff.mp empty] at member
          cases member

theorem select_describes (sound : llvm.Sound) {cond : Operand Reg 1}
    (chosen : (factsOf map cond).Describes (cond.content env))
    (left : (factsOf map a).Describes (a.content env))
    (right : (factsOf map b).Describes (b.content env))
    (transferred : transfer llvm map (.select cond a b) = .ok (some result))
    (produced : some content ∈ (Rhs.select cond a b).outcomes env) : result.Describes content := by
  have samples := samples_of_collect produced
  have flags := conclude_flagsFrom (not_skipped (not_skipped transferred rfl) rfl)
  refine ⟨?_, ?_, ?_⟩
  · intro z observed
    rw [samples] at observed
    obtain ⟨c, -, p, first, q, second, same⟩ := observed
    refine transferSelect_contains sound ?_ transferred
    cases c with
    | none => simp [selectLane] at same
    | some bit =>
      simp only [selectLane, Option.some.injEq] at same
      split at same
      next =>
        subst same
        exact .inl (left.contains first)
      next =>
        subst same
        exact .inr (right.contains second)
  · intro free
    have all := flags.undef free
    rw [Bool.and_eq_true, Bool.and_eq_true] at all
    obtain ⟨c, single⟩ := chosen.undefFree all.1.1
    obtain ⟨p, single'⟩ := left.undefFree all.1.2
    obtain ⟨q, single''⟩ := right.undefFree all.2
    refine single_of_collect produced (selectLane c p q) ?_
    rintro - ⟨c', third, p', first, q', second, rfl⟩
    rw [single] at third
    rw [single'] at first
    rw [single''] at second
    cases first
    cases second
    cases third
    rfl
  · intro free poison
    have all := flags.poison free
    rw [Bool.and_eq_true, Bool.and_eq_true] at all
    rw [samples] at poison
    obtain ⟨c, third, p, first, q, second, same⟩ := poison
    cases c with
    | none => exact chosen.poisonFree all.1.1 third
    | some bit =>
      simp only [selectLane, Option.some.injEq] at same
      split at same
      next =>
        subst same
        exact left.poisonFree all.1.2 first
      next =>
        subst same
        exact right.poisonFree all.2 second

/-- A cast: one operand, whose flags the result takes, and a test that makes
the result poison. -/
theorem cast_describes {a : Operand Reg v}
    {f : BitVec v → Sample w} (evaluations : rhs.evaluations env = {evaluated |
      ∃ p ∈ (a.content env).samples, evaluated = strict₁ f p})
    (operand : (factsOf map a).Describes (a.content env))
    (flags : FlagsFrom result (factsOf map a).undefFree (factsOf map a).poisonFree)
    (contains : ∀ x z, some x ∈ (a.content env).samples → f x = some z → result.Contains z)
    (defined : (factsOf map a).poisonFree = true → ∀ x,
      some x ∈ (a.content env).samples → f x ≠ none)
    (produced : some content ∈ collect (rhs.evaluations env)) :
    result.Describes content := by
  rw [evaluations] at produced
  have samples := samples_of_collect produced
  refine ⟨?_, ?_, ?_⟩
  · intro z observed
    rw [samples] at observed
    obtain ⟨p, first, same⟩ := observed
    cases p with
    | none => simp [strict₁] at same
    | some x => exact contains x z first (Option.some.inj same).symm
  · intro free
    obtain ⟨p, single⟩ := operand.undefFree (flags.undef free)
    refine single_of_collect produced (strict₁ f p) ?_
    rintro - ⟨p', first, rfl⟩
    rw [single] at first
    cases first
    rfl
  · intro free poison
    have operandFree := flags.poison free
    rw [samples] at poison
    obtain ⟨p, first, same⟩ := poison
    cases p with
    | none => exact operand.poisonFree operandFree first
    | some x => exact defined operandFree x first (Option.some.inj same).symm

theorem freeze_describes (sound : llvm.Sound)
    (fits : StepFits map env (.freeze a)) (operand : (factsOf map a).Describes (a.content env))
    (transferred : transfer llvm map (.freeze a) = .ok (some result))
    (produced : some content ∈ (Rhs.freeze a).outcomes env) : result.Describes content := by
  obtain ⟨x, chosen, same⟩ := produced
  obtain rfl := Option.some.inj same
  refine ⟨?_, fun _ => ⟨some x, rfl⟩, fun _ => nofun⟩
  intro z observed
  obtain rfl : z = x := Option.some.inj observed
  refine transferFreeze_contains sound ?_ transferred
  intro r recorded
  rcases chosen with sample | poison
  · exact (operand.contains sample).range recorded
  · exact fits poison r recorded z

theorem transfer_describes (sound : llvm.Sound) (wrapSound : llvm.WrapSound)
    (width : w ≤ 2 ^ 32) (fits : StepFits map env rhs)
    (operands : ∀ operand ∈ rhs.operands, (factsOf map operand.2).Describes (operand.2.content env))
    (transferred : transfer llvm map rhs = .ok (some result))
    (produced : some content ∈ rhs.outcomes env) :
    result.Describes content := by
  cases rhs with
  | binop op a b =>
    exact binop_describes sound wrapSound width fits (operands ⟨w, a⟩ (by simp [Rhs.operands]))
      (operands ⟨w, b⟩ (by simp [Rhs.operands])) transferred produced
  | select cond a b =>
    exact select_describes sound (operands ⟨1, cond⟩ (by simp [Rhs.operands]))
      (operands ⟨w, a⟩ (by simp [Rhs.operands]))
      (operands ⟨w, b⟩ (by simp [Rhs.operands])) transferred produced
  | freeze a =>
    exact freeze_describes sound fits
      (operands ⟨w, a⟩ (by simp [Rhs.operands])) transferred produced
  | @zext v w widens nneg a =>
    have operand := operands ⟨v, a⟩ (by simp [Rhs.operands])
    refine cast_describes rfl operand
      (conclude_flagsFrom (not_skipped transferred rfl)) ?_ ?_ produced
    · intro x z first value
      split at value
      next => cases value
      next =>
        cases value
        exact transferZExt_contains sound widens (operand.contains first) transferred
    · intro free x first
      have nonneg := fits x first free
      have kept : (nneg && x.msb) = false := by
        rw [Bool.and_eq_false_iff, or_iff_not_imp_left, Bool.not_eq_false]
        intro flag
        simpa using not_msb_iff.mpr (nonneg flag)
      rw [kept]
      intro contra
      cases contra
  | @sext v w widens a =>
    have operand := operands ⟨v, a⟩ (by simp [Rhs.operands])
    refine cast_describes rfl operand
      (conclude_flagsFrom (not_skipped transferred rfl)) ?_ ?_ produced
    · rintro x z first ⟨⟩
      exact transferSExt_contains sound widens (operand.contains first) transferred
    · intro _ x _ contra
      cases contra
  | @trunc v w narrows nuw nsw a =>
    have operand := operands ⟨v, a⟩ (by simp [Rhs.operands])
    refine cast_describes rfl operand
      (conclude_flagsFrom (not_skipped transferred rfl)) ?_ ?_ produced
    · intro x z first value
      split at value
      next => cases value
      next =>
        cases value
        exact transferTrunc_contains sound narrows (operand.contains first) transferred
    · intro free x first
      obtain ⟨kept, kept'⟩ := fits x first free
      have unsigned : (nuw && (x.setWidth w).setWidth v != x) = false := by
        rw [Bool.and_eq_false_iff, or_iff_not_imp_left, Bool.not_eq_false, bne_eq_false_iff_eq]
        exact kept
      have signed : (nsw && (x.setWidth w).signExtend v != x) = false := by
        rw [Bool.and_eq_false_iff, or_iff_not_imp_left, Bool.not_eq_false, bne_eq_false_iff_eq]
        exact kept'
      rw [unsigned, signed]
      intro contra
      cases contra
  | icmp pred a b => cases transferred
  | withOverflow op a b => cases transferred

end

section

variable {llvm : BitOperators} {map seed : RangeMap} {later : List (Nat × Reg)} {env : Env Reg}

/-- The width of the value that an instruction defines is one that LLVM
has. -/
def inWidth (inst : Instruction) : Bool :=
  match inst.op with
  | .value (w := w) _ => decide (w ≤ maxIntBits)
  | .assume _ => true

theorem computeRange_describes (sound : llvm.Sound) (wrapSound : llvm.WrapSound)
    {inst : Instruction} (width : inWidth inst = true) (executed : some env ∈ inst.step env)
    (uses : ∀ use ∈ inst.op.regs, use ∉ later)
    (fits : match inst.op with | .value rhs => StepFits seed env rhs | .assume _ => True)
    (seeded : seed.Describes later env) (computed : computeRange llvm seed inst = .ok map) :
    map.Describes later env := by
  obtain ⟨id, name, op, metadata⟩ := inst
  cases op with
  | assume cond =>
    obtain rfl : seed = map := Except.ok.inj computed
    exact seeded
  | @value w rhs =>
    have small : w ≤ 2 ^ 32 :=
      (of_decide_eq_true width).trans (by decide)
    have operands : ∀ operand ∈ rhs.operands,
        (factsOf seed operand.2).Describes (operand.2.content env) :=
      fun operand member => factsOf_describes seeded
        (fun use used => uses use (List.mem_flatMap.mpr ⟨operand, member, used⟩))
    rcases computeRange_cases computed with
      rfl | ⟨range, transferred, rfl⟩
    · exact seeded
    · intro v operand r present recorded
      by_cases defined : (w, Reg.inst id) ∈ operand.regs
      · cases operand with
        | reg other =>
          cases List.mem_singleton.mp defined
          rw [RangeMap.insert_self] at recorded
          cases recorded
          exact transfer_describes sound wrapSound small fits operands
            transferred (produced_of_step executed)
        | const value => exact absurd defined List.not_mem_nil
        | undef => exact absurd defined List.not_mem_nil
        | poison => exact absurd defined List.not_mem_nil
      · rw [RangeMap.insert_of_ne _ _ defined] at recorded
        exact seeded present recorded

theorem computeRanges_describes_of_steps (sound : llvm.Sound) (wrapSound : llvm.WrapSound)
    {insts : List Instruction} (width : ∀ inst ∈ insts, inWidth inst = true)
    (executed : ∀ inst ∈ insts, some env ∈ inst.step env)
    (uses : ∀ inst ∈ insts, ∀ use ∈ inst.op.regs, use ∉ later)
    (fits : StepsFit llvm env insts seed) (seeded : seed.Describes later env)
    (computed : computeRanges llvm insts seed = .ok map) : map.Describes later env := by
  induction insts generalizing seed with
  | nil =>
    obtain rfl : seed = map := Except.ok.inj computed
    exact seeded
  | cons inst rest ih =>
    obtain ⟨middle, first, second⟩ := computeRanges_cons computed
    have head := List.mem_cons_self (a := inst) (l := rest)
    have kept : middle.Describes later env :=
      computeRange_describes sound wrapSound (width inst head)
        (executed inst head) (uses inst head) fits.1 seeded first
    exact ih (fun other member => width other (List.mem_cons_of_mem inst member))
      (fun other member => executed other (List.mem_cons_of_mem inst member))
      (fun other member => uses other (List.mem_cons_of_mem inst member))
      (fits.2 middle first) kept second

end

theorem fullRange_describes (x : BitVec w) : (fullRange w).Describes (.single (some x)) where
  contains := by
    intro y _
    refine ⟨?_, ?_, nofun⟩
    · rintro _ _ ⟨⟩
      refine ⟨by simp, ?_⟩
      rw [BitVec.toNat_allOnes]
      have size := y.isLt
      omega
    · rintro _ _ ⟨⟩
      refine ⟨BitVec.toInt_intMin_le y, ?_⟩
      rw [BitVec.toInt_intMax]
      exact Int.le_sub_one_iff.mpr BitVec.toInt_lt
  undefFree _ := ⟨some x, rfl⟩
  poisonFree _ := nofun

theorem argumentSeed_describes {args : List Argument} {later : List (Nat × Reg)} {env : Env Reg}
    (defined : ∀ w index, ∃ x, env w (.arg index) = .single (some x)) :
    (argumentSeed args).Describes later env := by
  intro w operand r _ recorded
  cases operand with
  | reg reg =>
    cases reg with
    | arg index =>
      obtain ⟨x, single⟩ := defined w index
      have content : (Operand.reg (.arg index)).content env = .single (some x) := single
      simp only [argumentSeed] at recorded
      split at recorded
      next =>
        split at recorded
        next =>
          cases recorded
          rw [content]
          exact fullRange_describes x
        next => cases recorded
      next => cases recorded
    | inst id => cases recorded
  | const value => cases recorded
  | undef => cases recorded
  | poison => cases recorded

def frozenSum : List Instruction :=
  [⟨0, ascii "r", .value (.binop (.add true false) (.reg (.arg 0))
      (.reg (.arg 1)) : Rhs Reg 8), []⟩,
    ⟨1, ascii "f", .value (.freeze (.reg (.inst 0)) : Rhs Reg 8), []⟩]

def twoArguments (x y : Nat) : Env Reg
  | w, .arg 0 => .single (some (.ofNat w x))
  | w, .arg _ => .single (some (.ofNat w y))
  | _, .inst _ => .single none

theorem runs_frozenSum {x y : Nat} {sum : Sample 8} {z : BitVec 8}
    (evaluated : (BinOp.add true false).eval (.ofNat 8 x) (.ofNat 8 y) = some sum)
    (allowed : sum = some z ∨ sum = none) :
    some (((twoArguments x y).set 8 (.inst 0) (.single sum)).set 8 (.inst 1)
      (.single (some z))) ∈ runs frozenSum (twoArguments x y) := by
  have first : (Rhs.binop (.add true false) (.reg (.arg 0))
      (.reg (.arg 1))).outcomes (twoArguments x y) = Outcomes.pure (.single sum) :=
    Rhs.outcomes_binop_single rfl rfl evaluated
  have held : ((twoArguments x y).set 8 (.inst 0) (.single sum)) 8 (.inst 0) =
      .single sum := Env.set_self ..
  have chosen : some (Content.single (some z)) ∈ (Rhs.freeze (.reg (.inst 0))).outcomes
        ((twoArguments x y).set 8 (.inst 0) (.single sum)) := by
    refine ⟨z, ?_, rfl⟩
    rw [Operand.content, held]
    rcases allowed with rfl | rfl
    · exact .inl rfl
    · exact .inr rfl
  rw [frozenSum, runs_value first]
  exact .inr ⟨_, Outcomes.some_mem_map.mpr ⟨_, chosen, rfl⟩, rfl⟩

theorem twoArguments_defined {x y : Nat} {first second : Content 8} :
    ∀ w index, ∃ z, (((twoArguments x y).set 8 (.inst 0) first).set 8
      (.inst 1) second) w (.arg index) = .single (some z) := by
  intro w index
  rw [Env.set_of_ne _ _ (by simp), Env.set_of_ne _ _ (by simp)]
  cases index with
  | zero => exact ⟨_, rfl⟩
  | succ index => exact ⟨_, rfl⟩

def byteSeed : RangeMap :=
  argumentSeed [⟨ascii "a", 8⟩, ⟨ascii "b", 8⟩]

end AliveNext.TvNext
