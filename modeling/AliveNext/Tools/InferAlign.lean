import Mathlib

/-!
# Inference of alignments

`Transform::preprocess` computes alignments of pointers with a worklist and raises
the alignments of memory accesses to them (`tools/transform.cpp`). A pointer without
an alignment so far has 0.
-/

namespace AliveNext.Tools.InferAlign

/-! ## Functions -/

/-- An operand. -/
inductive Val
  | input (i : Nat)
  | global (i : Nat)
  | instr (i : Nat)
  | null
  | poison
  | undef
  | other
  deriving DecidableEq

/-- An instruction: a mask and the index of a GEP are constants or not, and a phi has a value for
each predecessor. -/
inductive Instr
  | alloc (align : Nat)
  | call (align : Nat)
  | ptrMask (ptr : Val) (mask : Option Int)
  | gep (ptr : Val) (idxs : List (Nat × Option Int))
  | phi (values : List (Val × Nat))
  | load (ptr : Val) (align : Nat) (isPtr : Bool)
  | store (ptr : Val) (align : Nat)
  | memset (ptr : Val) (align : Nat)
  | memcpy (dst src : Val) (alignDst alignSrc : Nat)
  | other (operands : List Val) (isPtr : Bool)
  | jump (targets : List Nat)

/-- A function: the width of addresses, the declared alignments of inputs and globals, 0 for what
is no pointer, the instructions of all blocks, and where each block starts. -/
structure Function where
  bits : Nat
  inputs : List Nat
  globals : List Nat
  instrs : List Instr
  starts : List Nat

namespace Instr

def operands : Instr → List Val
  | .ptrMask ptr _ | .gep ptr _ | .load ptr _ _ | .store ptr _ | .memset ptr _ => [ptr]
  | .phi values => values.map Prod.fst
  | .memcpy dst src _ _ => [dst, src]
  | .other operands _ => operands
  | .alloc _ | .call _ | .jump _ => []

end Instr

/-! ## One instruction -/

/-- `std::countr_zero`. -/
def countrZero (n : Nat) : Nat := ((List.range 64).takeWhile fun i => !n.testBit i).length

/-- `is_power2` of a `uint64_t`. -/
def isPower2 (n : Nat) : Bool := (List.range 64).any fun k => n = 2 ^ k

/-- `PtrMask::getExactAlign`. -/
def getExactAlign (mask : Option Int) : Option Nat :=
  match mask with
  | some n =>
    let align := (-n % 2 ^ 64).toNat
    if isPower2 align then some align else none
  | none => none

/-- What one index does to `mul_bits`. -/
def mulBitsStep (bits : Nat) : Nat × Option Int → Nat
  | (_, some _) => bits
  | (mul, none) => if mul = 0 then bits else min bits (countrZero mul)

def mulBits (idxs : List (Nat × Option Int)) : Nat := idxs.foldl mulBitsStep 63

/-- What one index does to `const_offset`, a `uint64_t`. -/
def constOffsetStep (off : Nat) : Nat × Option Int → Nat
  | (mul, some n) => if mul = 0 then off else ((off + mul * n : Int) % 2 ^ 64).toNat
  | (_, none) => off

def constOffset (idxs : List (Nat × Option Int)) : Nat := idxs.foldl constOffsetStep 0

def gepAlign (ptrAlign : Nat) (idxs : List (Nat × Option Int)) : Nat :=
  let align := min ptrAlign (2 ^ mulBits idxs)
  let off := constOffset idxs
  if off ≠ 0 then min align (2 ^ countrZero off) else align

def phiStep (align phiAlign : Nat) : Nat :=
  if phiAlign ≠ 0 then (if align ≠ 0 then min align phiAlign else phiAlign) else align

def phiAlign (aligns : Val → Nat) (values : List (Val × Nat)) : Nat :=
  values.foldl (fun align v => phiStep align (aligns v.1)) 0

def evaluate (aligns : Val → Nat) : Instr → Option Nat
  | .alloc align => some align
  | .call align => some align
  | .ptrMask ptr mask => (getExactAlign mask).map fun a => max a (aligns ptr)
  | .gep ptr idxs => some (gepAlign (aligns ptr) idxs)
  | .phi values => some (phiAlign aligns values)
  | .load _ _ isPtr => if isPtr then some 1 else none
  | .other _ isPtr => if isPtr then some 1 else none
  | .store _ _ | .memset _ _ | .memcpy _ _ _ _ | .jump _ => none

/-! ## The worklist -/

structure Work where
  aligns : List Nat
  queue : List Nat
  deriving DecidableEq

/-- `aligns[v]`. -/
def Work.alignOf (f : Function) (s : Work) : Val → Nat
  | .input i => f.inputs[i]?.getD 0
  | .global i => f.globals[i]?.getD 0
  | .instr i => s.aligns[i]?.getD 0
  | .null | .poison | .undef | .other => 0

structure UserOrder where
  order : List Nat → List Nat
  perm : ∀ l, (order l).Perm l

/-- `users[i]`. -/
def users (f : Function) (hash : UserOrder) (i : Nat) : List Nat :=
  hash.order ((List.range f.instrs.length).filter fun j =>
    (f.instrs[j]?.map Instr.operands).getD [] |>.contains (.instr i))

/-- One round. -/
def step (f : Function) (hash : UserOrder) (s : Work) : Work :=
  match s.queue with
  | [] => s
  | i :: queue =>
    match f.instrs[i]?.bind (evaluate (s.alignOf f)) with
    | none => { s with queue := queue }
    | some align =>
      if align ≠ s.alignOf f (.instr i) then
        ⟨s.aligns.set i align, queue ++ users f hash i⟩
      else { s with queue := queue }

def start (f : Function) : Work :=
  ⟨List.replicate f.instrs.length 0, List.range f.instrs.length⟩

def work (f : Function) (hash : UserOrder) (n : Nat) : Work := (step f hash)^[n] (start f)

section

variable (f : Function)

abbrev Ptr := Option (BitVec f.bits)

/-- The values of the pointers now and when the block was entered, the next instruction, the
block and the one before it. -/
structure Config where
  env : Nat → Ptr f
  entered : Nat → Ptr f
  pc : Nat
  bb : Nat
  prev : Nat

structure Args where
  input : Nat → Ptr f
  global : Nat → Ptr f
  inputs : ∀ i a, input i = some a → f.inputs[i]?.getD 0 ≠ 0 → f.inputs[i]?.getD 0 ∣ a.toNat
  globals : ∀ i a, global i = some a → f.globals[i]?.getD 0 ≠ 0 → f.globals[i]?.getD 0 ∣ a.toNat

variable {f}

/-- What an operand may be. -/
def Reads (args : Args f) (env : Nat → Ptr f) : Val → Ptr f → Prop
  | .input i, v => v = args.input i
  | .global i, v => v = args.global i
  | .instr i, v => v = env i
  | .null, v => v = some 0
  | .poison, v => v = none
  | .undef, _ => True
  | .other, _ => True

inductive Offset : List (Nat × Option Int) → Int → Prop
  | nil : Offset [] 0
  | const {mul : Nat} {n sum : Int} {idxs : List (Nat × Option Int)} :
      Offset idxs sum → Offset ((mul, some n) :: idxs) (mul * n + sum)
  | index {mul : Nat} {sum : Int} {idxs : List (Nat × Option Int)} (n : Int) :
      Offset idxs sum → Offset ((mul, none) :: idxs) (mul * n + sum)

inductive Gives (args : Args f) (c : Config f) : Instr → Ptr f → Prop
  | poison (i : Instr) : Gives args c i none
  | alloc {align : Nat} {a : BitVec f.bits} : align ∣ a.toNat → Gives args c (.alloc align) (some a)
  | call {align : Nat} {a : BitVec f.bits} : align ∣ a.toNat → Gives args c (.call align) (some a)
  | ptrMask {ptr : Val} {mask : Option Int} {a m : BitVec f.bits} :
      Reads args c.env ptr (some a) → (∀ n, mask = some n → m = BitVec.ofInt f.bits n) →
      Gives args c (.ptrMask ptr mask) (some (a &&& m))
  | gep {ptr : Val} {idxs : List (Nat × Option Int)} {a : BitVec f.bits} {sum : Int} :
      Reads args c.env ptr (some a) → Offset idxs sum →
      Gives args c (.gep ptr idxs) (some (a + BitVec.ofInt f.bits sum))
  | phi {values : List (Val × Nat)} {val : Val} {a : BitVec f.bits} :
      (val, c.prev) ∈ values → Reads args c.entered val (some a) →
      Gives args c (.phi values) (some a)
  | load {ptr : Val} {align : Nat} {isPtr : Bool} (a : BitVec f.bits) :
      Gives args c (.load ptr align isPtr) (some a)
  | other {operands : List Val} {isPtr : Bool} (a : BitVec f.bits) :
      Gives args c (.other operands isPtr) (some a)

/-- What is reached by steps from configurations that meet a condition. -/
inductive Exec (args : Args f) (meets : Config f → Prop) : Config f → Prop
  | start : Exec args meets ⟨fun _ => none, fun _ => none, f.starts[0]?.getD 0, 0, 0⟩
  | instr {c : Config f} {i : Instr} {v : Ptr f} :
      Exec args meets c → meets c → f.instrs[c.pc]? = some i → (∀ ts, i ≠ .jump ts) →
      Gives args c i v →
      Exec args meets { c with env := Function.update c.env c.pc v, pc := c.pc + 1 }
  | jump {c : Config f} {targets : List Nat} {t pc : Nat} :
      Exec args meets c → meets c → f.instrs[c.pc]? = some (.jump targets) → t ∈ targets →
      f.starts[t]? = some pc → Exec args meets ⟨c.env, c.env, pc, t, c.bb⟩

end

/-! ## What the inference promises -/

/-- `HANDLE`: the alignment of an access with a pointer of this alignment. -/
def raise (newal old : Nat) : Nat := if old < newal then newal else old

/-- The loop ends. Then, in every execution, an address is a multiple of the alignment of the
pointer, and an access that was aligned is so with the raised alignment. -/
structure Correct (f : Function) (hash : UserOrder) (meets : Args f → Config f → Prop) : Prop where
  terminates : ∃ n, (work f hash n).queue = []
  aligned : ∀ n, (work f hash n).queue = [] → ∀ args c, Exec args (meets args) c →
    ∀ i a, c.env i = some a → (work f hash n).alignOf f (.instr i) ≠ 0 →
      (work f hash n).alignOf f (.instr i) ∣ a.toNat
  accesses : ∀ n, (work f hash n).queue = [] → ∀ args c, Exec args (meets args) c →
    ∀ ptr a old, Reads args c.env ptr (some a) → old ∣ a.toNat →
      raise ((work f hash n).alignOf f ptr) old ∣ a.toNat

inductive Tracked (f : Function) : Val → Prop
  | input {i : Nat} : f.inputs[i]?.getD 0 ≠ 0 → Tracked f (.input i)
  | global {i : Nat} : f.globals[i]?.getD 0 ≠ 0 → Tracked f (.global i)
  | alloc {i align : Nat} : f.instrs[i]? = some (.alloc align) → Tracked f (.instr i)
  | call {i align : Nat} : f.instrs[i]? = some (.call align) → Tracked f (.instr i)
  | ptrMask {i a : Nat} {ptr : Val} {mask : Option Int} :
      f.instrs[i]? = some (.ptrMask ptr mask) → getExactAlign mask = some a →
      Tracked f (.instr i)
  | gep {i : Nat} {ptr : Val} {idxs : List (Nat × Option Int)} :
      f.instrs[i]? = some (.gep ptr idxs) → Tracked f ptr → Tracked f (.instr i)
  | phi {i : Nat} {values : List (Val × Nat)} {val : Val} {bb : Nat} :
      f.instrs[i]? = some (.phi values) → (val, bb) ∈ values → Tracked f val →
      Tracked f (.instr i)
  | load {i align : Nat} {ptr : Val} :
      f.instrs[i]? = some (.load ptr align true) → Tracked f (.instr i)
  | other {i : Nat} {operands : List Val} :
      f.instrs[i]? = some (.other operands true) → Tracked f (.instr i)

/-- The next instruction is no phi with an alignment that takes a value without one, unless this
value is poison or the address 0. -/
def PhiMeets {f : Function} (args : Args f) (c : Config f) : Prop :=
  ∀ values, f.instrs[c.pc]? = some (.phi values) → Tracked f (.instr c.pc) →
    ∀ val, (val, c.prev) ∈ values → ¬Tracked f val →
      ∀ a, Reads args c.entered val (some a) → a.toNat = 0

def MaskMeets (f : Function) (s : Work) : Prop :=
  ∀ i rest, s.queue = i :: rest → ∀ ptr mask a, f.instrs[i]? = some (.ptrMask ptr mask) →
    getExactAlign mask = some a → Tracked f ptr → s.alignOf f ptr ≠ 0

def IsAlign (f : Function) (a : Nat) : Prop := ∃ k, k ≤ f.bits ∧ a = 2 ^ k

structure Regular (f : Function) : Prop where
  bits : f.bits ≤ 64
  input : ∀ a ∈ f.inputs, a = 0 ∨ IsAlign f a
  global : ∀ a ∈ f.globals, a = 0 ∨ IsAlign f a
  alloc : ∀ a, .alloc a ∈ f.instrs → IsAlign f a
  call : ∀ a, .call a ∈ f.instrs → IsAlign f a
  mask : ∀ ptr mask a, .ptrMask ptr mask ∈ f.instrs → getExactAlign mask = some a → IsAlign f a

section

variable {f : Function} {A B : Val → Nat} {i : Instr} {x y a b c p q k n : Nat}
  {values : List (Val × Nat)} {idxs : List (Nat × Option Int)}

def Below (a b : Nat) : Prop := b = 0 ∨ a ≠ 0 ∧ a ≤ b

theorem Below.refl (a : Nat) : Below a a := by
  unfold Below
  omega

theorem Below.trans (first : Below a b) (second : Below b c) : Below a c := by
  unfold Below at *
  omega

theorem testBit_of_lt_countrZero (below : k < countrZero n) : n.testBit k = false := by
  have general : ∀ l : List Nat, k ∈ l.takeWhile (fun i => !n.testBit i) → n.testBit k = false := by
    intro l member
    have holds := List.mem_takeWhile_imp member
    rwa [Bool.not_eq_true'] at holds
  refine general (List.range 64) ?_
  have prefixed := List.takeWhile_prefix (l := List.range 64) fun i => !n.testBit i
  have short : ((List.range 64).takeWhile fun i => !n.testBit i).length ≤ 64 := by
    have := prefixed.length_le
    rwa [List.length_range] at this
  have same : getElem ((List.range 64).takeWhile fun i => !n.testBit i) k below = k := by
    rw [prefixed.getElem below, List.getElem_range]
  exact List.mem_of_getElem same

theorem pow_countrZero_dvd (n : Nat) : 2 ^ countrZero n ∣ n := by
  refine Nat.dvd_of_mod_eq_zero (Nat.eq_of_testBit_eq fun i => ?_)
  rw [Nat.testBit_mod_two_pow, Nat.zero_testBit]
  by_cases below : i < countrZero n
  · rw [testBit_of_lt_countrZero below, Bool.and_false]
  · rw [decide_eq_false below, Bool.false_and]

theorem isPower2_spec (power : isPower2 n = true) : ∃ k, k < 64 ∧ n = 2 ^ k := by
  obtain ⟨k, member, same⟩ := List.any_eq_true.1 power
  exact ⟨k, List.mem_range.1 member, of_decide_eq_true same⟩

theorem getExactAlign_spec {mask : Option Int} (exactly : getExactAlign mask = some a) :
    ∃ n k, mask = some n ∧ k < 64 ∧ a = 2 ^ k ∧ (2 ^ k : Int) ∣ n := by
  unfold getExactAlign at exactly
  split at exactly
  · next n =>
      dsimp only at exactly
      split at exactly
      · next power =>
          obtain ⟨k, small, same⟩ := isPower2_spec power
          cases exactly
          refine ⟨n, k, rfl, small, same, ?_⟩
          have nonneg : 0 ≤ -n % 2 ^ 64 := Int.emod_nonneg _ (by decide)
          have value : -n % 2 ^ 64 = 2 ^ k := by
            rw [← Int.toNat_of_nonneg nonneg, same]
            exact_mod_cast rfl
          have whole : (2 ^ k : Int) ∣ 2 ^ 64 := pow_dvd_pow 2 small.le
          rw [← Int.dvd_neg]
          exact (Int.dvd_iff_dvd_of_dvd_sub (whole.trans Int.dvd_emod_sub_self)).1
            (value ▸ dvd_refl _)
      · cases exactly
  · cases exactly

/-! ### Phi nodes -/

theorem phiStep_cases (x y : Nat) :
    (phiStep x y = x ∨ phiStep x y = y) ∧ (x ≠ 0 → phiStep x y ≠ 0 ∧ phiStep x y ≤ x) ∧
      (y ≠ 0 → phiStep x y ≠ 0 ∧ phiStep x y ≤ y) := by
  unfold phiStep
  split
  · split <;> omega
  · omega

theorem foldl_phiStep (values : List (Val × Nat)) :
    ∀ init, let r := values.foldl (fun align v => phiStep align (A v.1)) init
      (r = init ∨ ∃ v ∈ values, A v.1 = r) ∧ (init ≠ 0 → r ≠ 0 ∧ r ≤ init) ∧
        ∀ v ∈ values, A v.1 ≠ 0 → r ≠ 0 ∧ r ≤ A v.1 := by
  induction values with
  | nil =>
    exact fun init => ⟨.inl rfl, fun positive => ⟨positive, le_rfl⟩, List.forall_mem_nil _⟩
  | cons v values ih =>
    intro init
    obtain ⟨source, least, each⟩ := ih (phiStep init (A v.1))
    obtain ⟨either, left, right⟩ := phiStep_cases init (A v.1)
    refine ⟨?_, fun positive => ?_, fun u member positive => ?_⟩
    · rcases source with same | ⟨u, member, same⟩
      · rcases either with first | second
        · exact .inl (same.trans first)
        · exact .inr ⟨v, List.mem_cons_self, (same.trans second).symm⟩
      · exact .inr ⟨u, List.mem_cons_of_mem v member, same⟩
    · obtain ⟨nonzero, smaller⟩ := left positive
      exact ⟨(least nonzero).1, (least nonzero).2.trans smaller⟩
    · rcases List.mem_cons.1 member with rfl | inside
      · obtain ⟨nonzero, smaller⟩ := right positive
        exact ⟨(least nonzero).1, (least nonzero).2.trans smaller⟩
      · exact each u inside positive

theorem phiAlign_spec (values : List (Val × Nat)) :
    (phiAlign A values ≠ 0 → ∃ v ∈ values, A v.1 = phiAlign A values) ∧
      ∀ v ∈ values, A v.1 ≠ 0 → phiAlign A values ≠ 0 ∧ phiAlign A values ≤ A v.1 := by
  obtain ⟨source, -, each⟩ := foldl_phiStep (A := A) values 0
  exact ⟨fun positive => source.resolve_left positive, each⟩

theorem phiAlign_below (below : ∀ v ∈ values, Below (B v.1) (A v.1)) :
    Below (phiAlign B values) (phiAlign A values) := by
  by_cases positive : phiAlign A values = 0
  · exact .inl positive
  · obtain ⟨v, member, same⟩ := (phiAlign_spec values).1 positive
    have smaller := below v member
    unfold Below at smaller ⊢
    obtain ⟨nonzero, least⟩ := (phiAlign_spec (A := B) values).2 v member (by omega)
    omega

/-! ### GEPs -/

theorem mulBitsStep_le (bits : Nat) (idx : Nat × Option Int) : mulBitsStep bits idx ≤ bits := by
  unfold mulBitsStep
  split
  · exact le_rfl
  · split
    · exact le_rfl
    · exact Nat.min_le_left _ _

theorem foldl_mulBits (idxs : List (Nat × Option Int)) :
    ∀ bits, idxs.foldl mulBitsStep bits ≤ bits ∧
      ∀ mul, (mul, none) ∈ idxs → mul = 0 ∨ idxs.foldl mulBitsStep bits ≤ countrZero mul := by
  induction idxs with
  | nil => exact fun bits => ⟨le_rfl, fun _ => (absurd · List.not_mem_nil)⟩
  | cons idx idxs ih =>
    intro bits
    obtain ⟨small, each⟩ := ih (mulBitsStep bits idx)
    refine ⟨small.trans (mulBitsStep_le bits idx), fun mul member => ?_⟩
    rcases List.mem_cons.1 member with rfl | inside
    · by_cases zero : mul = 0
      · exact .inl zero
      · refine .inr (small.trans ?_)
        rw [mulBitsStep, if_neg zero]
        exact Nat.min_le_right _ _
    · exact each mul inside

theorem mulBits_le (idxs : List (Nat × Option Int)) : mulBits idxs ≤ 63 :=
  (foldl_mulBits idxs 63).1

theorem pow_mulBits_dvd {mul : Nat} (member : (mul, none) ∈ idxs) : 2 ^ mulBits idxs ∣ mul := by
  rcases (foldl_mulBits idxs 63).2 mul member with zero | small
  · exact zero ▸ Nat.dvd_zero _
  · exact (Nat.pow_dvd_pow 2 small).trans (pow_countrZero_dvd mul)

def constSum : List (Nat × Option Int) → Int
  | [] => 0
  | (mul, some n) :: idxs => mul * n + constSum idxs
  | (_, none) :: idxs => constSum idxs

theorem foldl_constOffset (idxs : List (Nat × Option Int)) : ∀ off : Nat,
      (2 ^ 64 : Int) ∣ (idxs.foldl constOffsetStep off : Nat) - (off + constSum idxs) := by
  induction idxs with
  | nil => simp [constSum]
  | cons idx idxs ih =>
    intro off
    obtain ⟨mul, _ | n⟩ := idx
    · exact ih off
    have step := ih (constOffsetStep off (mul, some n))
    have same : (2 ^ 64 : Int) ∣ (constOffsetStep off (mul, some n) : Nat) - (off + mul * n) := by
      rw [constOffsetStep]
      split
      · next zero => simp [zero]
      · have nonneg : 0 ≤ (off + mul * n : Int) % 2 ^ 64 := Int.emod_nonneg _ (by decide)
        rw [Int.toNat_of_nonneg nonneg]
        exact Int.dvd_emod_sub_self
    have sum := Int.dvd_add step same
    rw [List.foldl_cons, constSum]
    ring_nf at sum ⊢
    exact sum

theorem pow_dvd_offset {sum : Int} (offset : Offset idxs sum) (bits : k ≤ mulBits idxs)
    (off : constOffset idxs ≠ 0 → k ≤ countrZero (constOffset idxs)) : (2 ^ k : Int) ∣ sum := by
  have variable_part : ∀ idxs : List (Nat × Option Int), ∀ sum, Offset idxs sum →
      (∀ mul, (mul, none) ∈ idxs → 2 ^ k ∣ mul) → (2 ^ k : Int) ∣ sum - constSum idxs := by
    intro idxs sum offset
    induction offset with
    | nil => exact fun _ => dvd_zero _
    | @const mul n sum idxs _ ih =>
      intro each
      have rest := ih fun mul member => each mul (List.mem_cons_of_mem _ member)
      rw [constSum, show (mul * n + sum - (mul * n + constSum idxs) : Int) =
        sum - constSum idxs by ring]
      exact rest
    | @index mul sum idxs n _ ih =>
      intro each
      have rest := ih fun mul member => each mul (List.mem_cons_of_mem _ member)
      have head : (2 ^ k : Int) ∣ mul := by
        exact_mod_cast each mul List.mem_cons_self
      rw [constSum, show (mul * n + sum - constSum idxs : Int) =
        mul * n + (sum - constSum idxs) by ring]
      exact Int.dvd_add (Dvd.dvd.mul_right head n) rest
  have unknown := variable_part idxs sum offset fun mul member =>
    (Nat.pow_dvd_pow 2 bits).trans (pow_mulBits_dvd member)
  have small : k ≤ 64 := by
    have := mulBits_le idxs
    omega
  have known : (2 ^ k : Int) ∣ constOffset idxs := by
    by_cases zero : constOffset idxs = 0
    · rw [zero]
      exact dvd_zero _
    · exact_mod_cast (Nat.pow_dvd_pow 2 (off zero)).trans (pow_countrZero_dvd _)
  have wrapped := foldl_constOffset idxs 0
  have whole : (2 ^ k : Int) ∣ 2 ^ 64 := pow_dvd_pow 2 small
  have consts : (2 ^ k : Int) ∣ constSum idxs := by
    have difference := whole.trans wrapped
    rw [Int.natCast_zero, zero_add] at difference
    exact (Int.dvd_iff_dvd_of_dvd_sub difference).1 known
  exact (Int.dvd_iff_dvd_of_dvd_sub unknown).2 consts

theorem gepAlign_eq_zero : gepAlign a idxs = 0 ↔ a = 0 := by
  have first : 0 < 2 ^ mulBits idxs := Nat.two_pow_pos _
  have second : 0 < 2 ^ countrZero (constOffset idxs) := Nat.two_pow_pos _
  unfold gepAlign
  dsimp only
  split <;> omega

theorem gepAlign_below (below : Below b a) : Below (gepAlign b idxs) (gepAlign a idxs) := by
  unfold Below at below ⊢
  rw [gepAlign_eq_zero]
  refine below.imp_right fun smaller => ⟨fun zero => smaller.1 (gepAlign_eq_zero.1 zero), ?_⟩
  unfold gepAlign
  dsimp only
  split <;> omega

theorem gepAlign_spec (idxs : List (Nat × Option Int)) (power : a = 2 ^ n) :
    ∃ k, gepAlign a idxs = 2 ^ k ∧ k ≤ n ∧ ∀ sum, Offset idxs sum → (2 ^ k : Int) ∣ sum := by
  have least : ∀ i j : Nat, min (2 ^ i) (2 ^ j) = 2 ^ min i j := fun i j =>
    ((pow_right_mono₀ (by decide : 1 ≤ 2)).map_min (a := i) (b := j)).symm
  unfold gepAlign
  dsimp only
  rw [power, least]
  split
  · rw [least]
    exact ⟨_, rfl, by omega, fun sum offset =>
      pow_dvd_offset offset (by omega) fun _ => by omega⟩
  · next zero =>
      exact ⟨_, rfl, by omega, fun sum offset =>
        pow_dvd_offset offset (by omega) fun contra => absurd contra zero⟩

theorem evaluate_congr (same : ∀ v ∈ i.operands, B v = A v) : evaluate B i = evaluate A i := by
  cases i with
  | ptrMask ptr mask => rw [evaluate, evaluate, same ptr List.mem_cons_self]
  | gep ptr idxs => rw [evaluate, evaluate, same ptr List.mem_cons_self]
  | phi values =>
    have folds : ∀ (l : List (Val × Nat)) (init : Nat), (∀ v ∈ l, B v.1 = A v.1) →
        l.foldl (fun align v => phiStep align (B v.1)) init =
          l.foldl (fun align v => phiStep align (A v.1)) init := by
      intro l
      induction l with
      | nil => exact fun _ _ => rfl
      | cons v l ih =>
        intro init each
        rw [List.foldl_cons, List.foldl_cons, each v List.mem_cons_self]
        exact ih _ fun u member => each u (List.mem_cons_of_mem v member)
    exact congrArg some (folds values 0 fun v member => same v.1 (List.mem_map_of_mem member))
  | _ => rfl

/-- A smaller alignment of the operands gives a smaller one, masks of pointers without an
alignment aside. -/
theorem evaluate_below (below : ∀ v ∈ i.operands, Below (B v) (A v))
    (mask : ∀ ptr m a, i = .ptrMask ptr m → getExactAlign m = some a → A ptr = 0 → B ptr = 0)
    (known : evaluate A i = some x) (known' : evaluate B i = some y) : Below y x := by
  cases i with
  | ptrMask ptr m =>
    obtain ⟨a, exactly, rfl⟩ := Option.map_eq_some_iff.1 known
    obtain ⟨a', exactly', rfl⟩ := Option.map_eq_some_iff.1 known'
    obtain rfl : a' = a := Option.some.inj (exactly'.symm.trans exactly)
    have smaller := below ptr List.mem_cons_self
    have late := mask ptr m a' rfl exactly
    obtain ⟨n, k, -, -, rfl, -⟩ := getExactAlign_spec exactly
    have positive : 0 < 2 ^ k := Nat.two_pow_pos k
    unfold Below at smaller ⊢
    omega
  | gep ptr idxs =>
    cases known
    cases known'
    exact gepAlign_below (below ptr List.mem_cons_self)
  | phi values =>
    cases known
    cases known'
    exact phiAlign_below fun v member => below v.1 (List.mem_map_of_mem member)
  | load ptr align isPtr =>
    obtain rfl : y = x := Option.some.inj (known'.symm.trans known)
    exact .refl y
  | other operands isPtr =>
    obtain rfl : y = x := Option.some.inj (known'.symm.trans known)
    exact .refl y
  | alloc align =>
    obtain rfl : y = x := Option.some.inj (known'.symm.trans known)
    exact .refl y
  | call align =>
    obtain rfl : y = x := Option.some.inj (known'.symm.trans known)
    exact .refl y
  | _ => cases known

theorem exists_evaluate (A : Val → Nat)
    (known : evaluate B i = some y) : ∃ x, evaluate A i = some x := by
  cases i with
  | ptrMask ptr m =>
    obtain ⟨a, exactly, -⟩ := Option.map_eq_some_iff.1 known
    exact ⟨max a (A ptr), by rw [evaluate, exactly]; rfl⟩
  | load ptr align isPtr => exact ⟨y, known⟩
  | other operands isPtr => exact ⟨y, known⟩
  | alloc align => exact ⟨align, rfl⟩
  | call align => exact ⟨align, rfl⟩
  | gep ptr idxs => exact ⟨_, rfl⟩
  | phi values => exact ⟨_, rfl⟩
  | _ => cases known

theorem evaluate_isAlign
    (regular : Regular f) (inside : i ∈ f.instrs) (each : ∀ v, A v = 0 ∨ IsAlign f (A v))
    (known : evaluate A i = some x) : x = 0 ∨ IsAlign f x := by
  cases i with
  | alloc align =>
    cases known
    exact .inr (regular.alloc _ inside)
  | call align =>
    cases known
    exact .inr (regular.call _ inside)
  | ptrMask ptr m =>
    obtain ⟨a, exactly, rfl⟩ := Option.map_eq_some_iff.1 known
    have first := regular.mask ptr m a inside exactly
    rcases each ptr with zero | second
    · rw [zero, Nat.max_zero]
      exact .inr first
    · rcases Nat.le_total a (A ptr) with less | more
      · rw [Nat.max_eq_right less]
        exact .inr second
      · rw [Nat.max_eq_left more]
        exact .inr first
  | gep ptr idxs =>
    cases known
    rcases each ptr with zero | ⟨n, small, power⟩
    · exact .inl (gepAlign_eq_zero.2 zero)
    · obtain ⟨k, same, less, -⟩ := gepAlign_spec idxs power
      exact .inr ⟨k, less.trans small, same⟩
  | phi values =>
    cases known
    by_cases zero : phiAlign A values = 0
    · exact .inl zero
    · obtain ⟨v, -, same⟩ := (phiAlign_spec values).1 zero
      rw [← same]
      exact each v.1
  | load ptr align isPtr =>
    rw [evaluate] at known
    split at known
    · cases known
      exact .inr ⟨0, Nat.zero_le _, rfl⟩
    · cases known
  | other operands isPtr =>
    rw [evaluate] at known
    split at known
    · cases known
      exact .inr ⟨0, Nat.zero_le _, rfl⟩
    · cases known
  | _ => cases known

theorem tracked_of_evaluate
    {j : Nat} (place : f.instrs[j]? = some i) (each : ∀ v, A v ≠ 0 → Tracked f v)
    (known : evaluate A i = some x) (positive : x ≠ 0) : Tracked f (.instr j) := by
  cases i with
  | alloc align => exact .alloc place
  | call align => exact .call place
  | ptrMask ptr m =>
    obtain ⟨a, exactly, -⟩ := Option.map_eq_some_iff.1 known
    exact .ptrMask place exactly
  | gep ptr idxs =>
    cases known
    exact .gep place (each ptr fun zero => positive (gepAlign_eq_zero.2 zero))
  | phi values =>
    cases known
    obtain ⟨v, member, same⟩ := (phiAlign_spec values).1 positive
    exact .phi place member (each v.1 (same ▸ positive))
  | load ptr align isPtr =>
    rw [evaluate] at known
    split at known
    · next pointer =>
        subst pointer
        exact .load place
    · cases known
  | other operands isPtr =>
    rw [evaluate] at known
    split at known
    · next pointer =>
        subst pointer
        exact .other place
    · cases known
  | _ => cases known

end

section

variable {f : Function} {hash : UserOrder} {s : Work} {i j n x : Nat} {v : Val} {instr : Instr}

/-- The invariant of the loop. -/
structure Good (f : Function) (s : Work) : Prop where
  length : s.aligns.length = f.instrs.length
  inside : ∀ i ∈ s.queue, i < f.instrs.length
  isAlign : ∀ v, s.alignOf f v = 0 ∨ IsAlign f (s.alignOf f v)
  tracked : ∀ v, s.alignOf f v ≠ 0 → Tracked f v
  /-- What has another alignment than its operands say is in the queue. -/
  stale : ∀ j instr x, f.instrs[j]? = some instr → evaluate (s.alignOf f) instr = some x →
    s.alignOf f (.instr j) ≠ x → j ∈ s.queue

structure Descends (f : Function) (s : Work) : Prop where
  below : ∀ j instr x, f.instrs[j]? = some instr → evaluate (s.alignOf f) instr = some x →
    Below x (s.alignOf f (.instr j))
  mask : ∀ j ptr m a, f.instrs[j]? = some (.ptrMask ptr m) → getExactAlign m = some a →
    s.alignOf f (.instr j) ≠ 0 → Tracked f ptr → s.alignOf f ptr ≠ 0

theorem alignOf_start (v : Val) : (start f).alignOf f v = match v with
      | .input i => f.inputs[i]?.getD 0
      | .global i => f.globals[i]?.getD 0
      | _ => 0 := by
  cases v with
  | instr i =>
    rw [Work.alignOf, start]
    dsimp only
    rw [List.getElem?_replicate]
    split <;> rfl
  | _ => rfl

variable {l rest : List Nat}

theorem isAlign_getD (each : ∀ a ∈ l, a = 0 ∨ IsAlign f a) (i : Nat) :
    l[i]?.getD 0 = 0 ∨ IsAlign f (l[i]?.getD 0) := by
  cases known : l[i]? with
  | none => exact .inl rfl
  | some a => exact each a (List.mem_of_getElem? known)

theorem good_start (regular : Regular f) : Good f (start f) where
  length := List.length_replicate
  inside i member := List.mem_range.1 member
  isAlign v := by
    rw [alignOf_start]
    cases v with
    | input i => exact isAlign_getD regular.input i
    | global i => exact isAlign_getD regular.global i
    | _ => exact .inl rfl
  tracked v positive := by
    rw [alignOf_start] at positive
    cases v with
    | input i => exact .input positive
    | global i => exact .global positive
    | _ => exact absurd rfl positive
  stale j instr x place known different :=
    List.mem_range.2 (List.getElem?_eq_some_iff.1 place).1

theorem descends_start (f : Function) : Descends f (start f) where
  below j instr x place known := .inl (by rw [alignOf_start])
  mask j ptr m a place exactly positive := absurd (by rw [alignOf_start]) positive

theorem alignOf_set (f : Function) (x : Nat) (queue : List Nat)
    (short : i < s.aligns.length) (v : Val) :
    (Work.mk (s.aligns.set i x) queue).alignOf f v = if v = .instr i then x else s.alignOf f v := by
  cases v with
  | instr j =>
    rw [Work.alignOf]
    dsimp only
    by_cases same : j = i
    · subst same
      rw [List.getElem?_set_self short, if_pos rfl]
      rfl
    · rw [List.getElem?_set_ne (Ne.symm same), if_neg fun equal => same (Val.instr.inj equal)]
      rfl
  | _ => rfl

theorem mem_users (place : f.instrs[j]? = some instr)
    (operand : .instr i ∈ instr.operands) : j ∈ users f hash i := by
  refine (hash.perm _).mem_iff.2 (List.mem_filter.2 ⟨List.mem_range.2
    (List.getElem?_eq_some_iff.1 place).1, ?_⟩)
  rw [place]
  exact List.contains_iff_mem.2 operand

theorem users_lt (member : j ∈ users f hash i) : j < f.instrs.length :=
  List.mem_range.1 (List.mem_filter.1 ((hash.perm _).mem_iff.1 member)).1

theorem length_users_le (f : Function) (hash : UserOrder) (i : Nat) :
    (users f hash i).length ≤ f.instrs.length := by
  rw [users, (hash.perm _).length_eq]
  refine (List.length_filter_le _ _).trans ?_
  rw [List.length_range]

/-- The next instruction keeps its alignment, or it gets another one and its users are looked at
again. -/
inductive Step (f : Function) (hash : UserOrder) (s : Work) (i : Nat) (rest : List Nat) :
    Work → Prop
  | same :
      (∀ instr x, f.instrs[i]? = some instr → evaluate (s.alignOf f) instr = some x →
        x = s.alignOf f (.instr i)) →
      Step f hash s i rest ⟨s.aligns, rest⟩
  | change {instr : Instr} {x : Nat} :
      f.instrs[i]? = some instr → evaluate (s.alignOf f) instr = some x →
      x ≠ s.alignOf f (.instr i) →
      Step f hash s i rest ⟨s.aligns.set i x, rest ++ users f hash i⟩

theorem step_step (f : Function) (hash : UserOrder)
    (queue : s.queue = i :: rest) : Step f hash s i rest (step f hash s) := by
  unfold step
  rw [queue]
  dsimp only
  cases known : f.instrs[i]?.bind (evaluate (s.alignOf f)) with
  | none =>
    refine .same fun instr x place result => ?_
    rw [place, Option.bind_some, result] at known
    cases known
  | some x =>
    obtain ⟨instr, place, result⟩ := Option.bind_eq_some_iff.1 known
    dsimp only
    split
    · next different => exact .change place result different
    · next same =>
        refine .same fun instr' y place' result' => ?_
        obtain rfl := Option.some.inj (place.symm.trans place')
        obtain rfl := Option.some.inj (result.symm.trans result')
        exact not_not.1 same

theorem good_step (hash : UserOrder) (regular : Regular f) (good : Good f s)
    (queue : s.queue = i :: rest) : Good f (step f hash s) := by
  have later : ∀ j ∈ rest, j < f.instrs.length := fun j member =>
    good.inside j (queue ▸ List.mem_cons_of_mem i member)
  have stepped := step_step f hash queue
  generalize step f hash s = t at stepped ⊢
  cases stepped with
  | same kept =>
    refine ⟨good.length, later, good.isAlign, good.tracked, fun j instr x place known differs => ?_⟩
    have member := good.stale j instr x place known differs
    rw [queue] at member
    refine (List.mem_cons.1 member).resolve_left fun first => ?_
    subst first
    exact differs (kept instr x place known).symm
  | @change instr x place known different =>
    have short : i < s.aligns.length := good.length ▸ (List.getElem?_eq_some_iff.1 place).1
    have changed := alignOf_set f x (rest ++ users f hash i) short
    have member := List.mem_of_getElem? place
    refine ⟨(List.length_set ..).trans good.length, fun j inside => ?_, fun v => ?_,
      fun v positive => ?_, fun j other y place' known' differs => ?_⟩
    · exact (List.mem_append.1 inside).elim (later j) users_lt
    · rw [changed]
      split
      · exact evaluate_isAlign regular member good.isAlign known
      · exact good.isAlign v
    · rw [changed] at positive
      split at positive
      · next same => exact same ▸ tracked_of_evaluate place good.tracked known positive
      · exact good.tracked v positive
    · by_cases operand : .instr i ∈ other.operands
      · exact List.mem_append_right _ (mem_users place' operand)
      · have same := evaluate_congr (A := s.alignOf f) (fun v inside =>
          (changed v).trans (if_neg fun (equal : v = .instr i) => operand (equal ▸ inside)))
        rw [same] at known'
        rw [changed] at differs
        by_cases first : j = i
        · subst first
          rw [if_pos rfl] at differs
          obtain rfl := Option.some.inj (place.symm.trans place')
          exact absurd (Option.some.inj (known.symm.trans known')) differs
        · rw [if_neg fun equal => first (Val.instr.inj equal)] at differs
          have old := good.stale j other y place' known' differs
          rw [queue] at old
          exact List.mem_append_left _ ((List.mem_cons.1 old).resolve_left first)

theorem descends_step (hash : UserOrder)
    (regular : Regular f) (good : Good f s) (descends : Descends f s)
    (meets : MaskMeets f s) (queue : s.queue = i :: rest) : Descends f (step f hash s) := by
  have after := good_step hash regular good queue
  have stepped := step_step f hash queue
  generalize step f hash s = t at stepped after ⊢
  cases stepped with
  | same kept => exact ⟨descends.below, descends.mask⟩
  | @change instr x place known different =>
    have short : i < s.aligns.length := good.length ▸ (List.getElem?_eq_some_iff.1 place).1
    have changed := alignOf_set f x (rest ++ users f hash i) short
    have smaller : ∀ v, Below ((Work.mk (s.aligns.set i x) (rest ++ users f hash i)).alignOf f v)
        (s.alignOf f v) := by
      intro v
      rw [changed]
      split
      · next same => exact same ▸ descends.below i instr x place known
      · exact .refl _
    -- the masks whose alignment has been computed
    have late : ∀ j ptr m a, f.instrs[j]? = some (.ptrMask ptr m) → getExactAlign m = some a →
        s.alignOf f (.instr j) ≠ 0 ∨ j = i → Tracked f ptr → s.alignOf f ptr ≠ 0 := by
      intro j ptr m a place' exactly begun tracked
      rcases begun with begun | rfl
      · exact descends.mask j ptr m a place' exactly begun tracked
      · exact meets j rest queue ptr m a place' exactly tracked
    refine ⟨fun j other y place' known' => ?_, fun j ptr m a place' exactly begun tracked => ?_⟩
    · obtain ⟨z, old⟩ := exists_evaluate (s.alignOf f) known'
      by_cases begun : s.alignOf f (.instr j) ≠ 0 ∨ j = i
      · have less : Below y z := by
          refine evaluate_below (fun v _ => smaller v) (fun ptr m a same exactly zero => ?_)
            old known'
          subst same
          refine not_not.1 fun positive => ?_
          exact late j ptr m a place' exactly begun (after.tracked ptr positive) zero
        rw [changed]
        split
        · next same =>
            obtain rfl := Val.instr.inj same
            obtain rfl := Option.some.inj (place.symm.trans place')
            obtain rfl := Option.some.inj (known.symm.trans old)
            exact less
        · exact less.trans (descends.below j other z place' old)
      · rw [not_or, not_not] at begun
        rw [changed, if_neg fun same => begun.2 (Val.instr.inj same)]
        exact .inl begun.1
    · have before : s.alignOf f ptr ≠ 0 := by
        refine late j ptr m a place' exactly ?_ tracked
        rw [changed] at begun
        split at begun
        · next same => exact .inr (Val.instr.inj same)
        · exact .inl begun
      have less := smaller ptr
      unfold Below at less
      omega

/-! ### The loop ends -/

def rank (f : Function) (a : Nat) : Nat := if a = 0 then 2 ^ f.bits + 1 else a

theorem sum_rank_set (old : l[i]? = some n)
    (less : rank f x < rank f n) : ((l.set i x).map (rank f)).sum < (l.map (rank f)).sum := by
  induction l generalizing i with
  | nil => cases old
  | cons a l ih =>
    cases i with
    | zero =>
      rw [List.getElem?_cons_zero] at old
      cases old
      rw [List.set_cons_zero, List.map_cons, List.map_cons, List.sum_cons, List.sum_cons]
      exact Nat.add_lt_add_right less _
    | succ i =>
      rw [List.set_cons_succ, List.map_cons, List.map_cons, List.sum_cons, List.sum_cons]
      exact Nat.add_lt_add_left (ih old) _

theorem rank_lt (below : Below x n) (different : x ≠ n)
    (align : x = 0 ∨ IsAlign f x) : rank f x < rank f n := by
  unfold Below at below
  unfold rank
  rcases align with zero | ⟨k, small, power⟩
  · omega
  · have bound : 2 ^ k ≤ 2 ^ f.bits := Nat.pow_le_pow_right (by decide) small
    have positive : 0 < 2 ^ k := Nat.two_pow_pos k
    split <;> split <;> omega

def weight (f : Function) (s : Work) : Nat :=
  (s.aligns.map (rank f)).sum * (f.instrs.length + 1) + s.queue.length

theorem weight_step (hash : UserOrder)
    (regular : Regular f) (good : Good f s) (descends : Descends f s)
    (queue : s.queue = i :: rest) : weight f (step f hash s) < weight f s := by
  have stepped := step_step f hash queue
  generalize step f hash s = t at stepped ⊢
  cases stepped with
  | same kept =>
    rw [weight, weight, queue]
    exact Nat.add_lt_add_left (Nat.lt_succ_self _) _
  | @change instr x place known different =>
    have short : i < s.aligns.length := good.length ▸ (List.getElem?_eq_some_iff.1 place).1
    have align := evaluate_isAlign regular (List.mem_of_getElem? place) good.isAlign known
    have less := rank_lt (descends.below i instr x place known) different align
    have sum := sum_rank_set (l := s.aligns) (i := i) (n := s.alignOf f (.instr i)) (by
      rw [Work.alignOf, List.getElem?_eq_getElem short]
      rfl) less
    have few := length_users_le f hash i
    rw [weight, weight, queue, List.length_append, List.length_cons]
    dsimp only
    have grows := Nat.mul_le_mul_right (f.instrs.length + 1) (Nat.succ_le_of_lt sum)
    rw [Nat.succ_mul] at grows
    omega

theorem work_succ (f : Function) (hash : UserOrder) (n : Nat) :
    work f hash (n + 1) = step f hash (work f hash n) := Function.iterate_succ_apply' _ _ _

theorem step_nil (done : s.queue = []) : step f hash s = s := by
  rw [step, done]

theorem good_work (hash : UserOrder) (regular : Regular f) (n : Nat) : Good f (work f hash n) := by
  induction n with
  | zero => exact good_start regular
  | succ n ih =>
    rw [work_succ]
    cases queue : (work f hash n).queue with
    | nil => rwa [step_nil queue]
    | cons i rest => exact good_step hash regular ih queue

theorem descends_work (regular : Regular f)
    (meets : ∀ n, MaskMeets f (work f hash n)) (n : Nat) : Descends f (work f hash n) := by
  induction n with
  | zero => exact descends_start f
  | succ n ih =>
    rw [work_succ]
    cases queue : (work f hash n).queue with
    | nil => rwa [step_nil queue]
    | cons i rest =>
      exact descends_step hash regular (good_work hash regular n) ih (meets n) queue

theorem work_terminates (regular : Regular f)
    (meets : ∀ n, MaskMeets f (work f hash n)) : ∃ n, (work f hash n).queue = [] := by
  by_contra endless
  have decreases : ∀ n, weight f (work f hash n) + n ≤ weight f (start f) := by
    intro n
    induction n with
    | zero => exact le_rfl
    | succ n ih =>
      obtain ⟨i, rest, queue⟩ := List.exists_cons_of_ne_nil (not_exists.1 endless n)
      have less := weight_step hash regular (good_work hash regular n)
        (descends_work regular meets n) queue
      rw [← work_succ] at less
      omega
  have contra := decreases (weight f (start f) + 1)
  omega

end

section

variable {f : Function} {s : Work} {args : Args f} {c : Config f} {i : Instr} {v : Val}
  {a m : BitVec f.bits} {env : Nat → Ptr f} {j k x : Nat} {sum : Int}

theorem evaluate_of_tracked (A : Val → Nat) (tracked : Tracked f (.instr j))
    (place : f.instrs[j]? = some i) : ∃ x, evaluate A i = some x := by
  cases tracked with
  | alloc other =>
    cases place.symm.trans other
    exact ⟨_, rfl⟩
  | call other =>
    cases place.symm.trans other
    exact ⟨_, rfl⟩
  | ptrMask other exactly =>
    cases place.symm.trans other
    exact ⟨_, by rw [evaluate, exactly]; rfl⟩
  | gep other _ =>
    cases place.symm.trans other
    exact ⟨_, rfl⟩
  | phi other _ _ =>
    cases place.symm.trans other
    exact ⟨_, rfl⟩
  | load other =>
    cases place.symm.trans other
    exact ⟨_, rfl⟩
  | other other =>
    cases place.symm.trans other
    exact ⟨_, rfl⟩

theorem evaluate_of_done (good : Good f s) (done : s.queue = []) (place : f.instrs[j]? = some i)
    (known : evaluate (s.alignOf f) i = some x) : s.alignOf f (.instr j) = x := by
  by_contra differs
  have member := good.stale j i x place known differs
  rw [done] at member
  exact absurd member List.not_mem_nil

theorem IsAlign.ne_zero (align : IsAlign f x) : x ≠ 0 := by
  obtain ⟨k, -, rfl⟩ := align
  exact (Nat.two_pow_pos k).ne'

theorem alignOf_ne_zero (regular : Regular f) (good : Good f s) (done : s.queue = [])
    (tracked : Tracked f v) : s.alignOf f v ≠ 0 := by
  induction tracked with
  | input positive => exact positive
  | global positive => exact positive
  | alloc place =>
    rw [evaluate_of_done good done place rfl]
    exact (regular.alloc _ (List.mem_of_getElem? place)).ne_zero
  | call place =>
    rw [evaluate_of_done good done place rfl]
    exact (regular.call _ (List.mem_of_getElem? place)).ne_zero
  | @ptrMask j a ptr mask place exactly =>
    have known : evaluate (s.alignOf f) (.ptrMask ptr mask) = some (max a (s.alignOf f ptr)) := by
      rw [evaluate, exactly]
      rfl
    have positive := (regular.mask ptr mask a (List.mem_of_getElem? place) exactly).ne_zero
    rw [evaluate_of_done good done place known]
    omega
  | gep place _ positive =>
    rw [evaluate_of_done good done place rfl]
    exact fun zero => positive (gepAlign_eq_zero.1 zero)
  | phi place member _ positive =>
    rw [evaluate_of_done good done place rfl]
    exact ((phiAlign_spec _).2 _ member positive).1
  | load place =>
    rw [evaluate_of_done good done place rfl]
    decide
  | other place =>
    rw [evaluate_of_done good done place rfl]
    decide

def Aligned (f : Function) (s : Work) (env : Nat → Ptr f) : Prop :=
  ∀ i a, env i = some a → s.alignOf f (.instr i) ≠ 0 → s.alignOf f (.instr i) ∣ a.toNat

theorem reads_aligned (aligned : Aligned f s env) (reads : Reads args env v (some a))
    (positive : s.alignOf f v ≠ 0) : s.alignOf f v ∣ a.toNat := by
  cases v with
  | input i => exact args.inputs i a reads.symm positive
  | global i => exact args.globals i a reads.symm positive
  | instr i => exact aligned i a reads.symm positive
  | _ => exact absurd rfl positive

theorem pow_dvd_ofInt (small : k ≤ f.bits)
    (factor : (2 ^ k : Int) ∣ sum) : 2 ^ k ∣ (BitVec.ofInt f.bits sum).toNat := by
  have nonneg : 0 ≤ sum % (2 ^ f.bits : Nat) := Int.emod_nonneg _ (by positivity)
  have whole : (2 ^ k : Int) ∣ (2 ^ f.bits : Nat) := by
    exact_mod_cast Nat.pow_dvd_pow 2 small
  rw [BitVec.toNat_ofInt, ← Int.natCast_dvd_natCast, Int.toNat_of_nonneg nonneg]
  exact_mod_cast (EuclideanDomain.dvd_mod_iff whole).2 factor

theorem pow_dvd_and (either : 2 ^ k ∣ a.toNat ∨ 2 ^ k ∣ m.toNat) : 2 ^ k ∣ (a &&& m).toNat := by
  rw [BitVec.toNat_and]
  refine Nat.dvd_of_mod_eq_zero ?_
  rw [Nat.and_mod_two_pow]
  rcases either with first | second
  · rw [Nat.mod_eq_zero_of_dvd first, Nat.zero_and]
  · rw [Nat.mod_eq_zero_of_dvd second, Nat.and_zero]

theorem pow_dvd_add (small : k ≤ f.bits) (first : 2 ^ k ∣ a.toNat)
    (second : 2 ^ k ∣ m.toNat) : 2 ^ k ∣ (a + m).toNat := by
  rw [BitVec.toNat_add]
  exact (Nat.dvd_mod_iff (Nat.pow_dvd_pow 2 small)).2 (Nat.dvd_add first second)

theorem IsAlign.dvd
    {y : Nat} (first : IsAlign f x) (second : IsAlign f y) (less : x ≤ y) : x ∣ y := by
  obtain ⟨i, -, rfl⟩ := first
  obtain ⟨j, -, rfl⟩ := second
  exact Nat.pow_dvd_pow 2 ((Nat.pow_le_pow_iff_right (by decide)).1 less)

theorem gives_aligned (regular : Regular f) (good : Good f s) (done : s.queue = [])
    (now : Aligned f s c.env) (entered : Aligned f s c.entered) (meets : PhiMeets args c)
    (place : f.instrs[c.pc]? = some i) (gives : Gives args c i (some a))
    (positive : s.alignOf f (.instr c.pc) ≠ 0) : s.alignOf f (.instr c.pc) ∣ a.toNat := by
  have tracked := good.tracked _ positive
  have inside := List.mem_of_getElem? place
  obtain ⟨x, known⟩ := evaluate_of_tracked (s.alignOf f) tracked place
  have final := evaluate_of_done good done place known
  have align := (good.isAlign (.instr c.pc)).resolve_left positive
  rw [final] at positive align ⊢
  cases gives with
  | alloc factor =>
    cases known
    exact factor
  | call factor =>
    cases known
    exact factor
  | @ptrMask ptr mask a m reads value =>
    obtain ⟨y, exactly, rfl⟩ := Option.map_eq_some_iff.1 known
    obtain ⟨n, k, rfl, -, rfl, factor⟩ := getExactAlign_spec exactly
    obtain rfl := value n rfl
    obtain ⟨i, small, power⟩ := regular.mask ptr _ _ inside exactly
    obtain rfl := Nat.pow_right_injective le_rfl power
    by_cases less : s.alignOf f ptr ≤ 2 ^ k
    · rw [Nat.max_eq_left less]
      exact pow_dvd_and (.inr (pow_dvd_ofInt small factor))
    · rw [Nat.max_eq_right (Nat.le_of_not_le less)] at positive ⊢
      have multiple := reads_aligned now reads positive
      obtain ⟨j, -, power⟩ := (good.isAlign ptr).resolve_left positive
      rw [power] at multiple ⊢
      exact pow_dvd_and (.inl multiple)
  | @gep ptr idxs a sum reads offset =>
    cases known
    have first : s.alignOf f ptr ≠ 0 := fun zero => positive (gepAlign_eq_zero.2 zero)
    have multiple := reads_aligned now reads first
    obtain ⟨n, small, power⟩ := (good.isAlign ptr).resolve_left first
    obtain ⟨k, same, less, each⟩ := gepAlign_spec idxs power
    rw [same]
    rw [power] at multiple
    exact pow_dvd_add (less.trans small) ((Nat.pow_dvd_pow 2 less).trans multiple)
      (pow_dvd_ofInt (less.trans small) (each sum offset))
  | @phi values val a member reads =>
    cases known
    by_cases source : Tracked f val
    · have first := alignOf_ne_zero regular good done source
      have least := ((phiAlign_spec (A := s.alignOf f) values).2 _ member first).2
      exact (align.dvd ((good.isAlign val).resolve_left first) least).trans
        (reads_aligned entered reads first)
    · rw [meets values place tracked val member source a reads]
      exact dvd_zero _
  | load a =>
    rw [evaluate] at known
    split at known
    · cases known
      exact one_dvd _
    · cases known
  | other a =>
    rw [evaluate] at known
    split at known
    · cases known
      exact one_dvd _
    · cases known

theorem exec_aligned (regular : Regular f) (good : Good f s) (done : s.queue = [])
    (exec : Exec args (PhiMeets args) c) : Aligned f s c.env ∧ Aligned f s c.entered := by
  induction exec with
  | start =>
    have none : Aligned f s fun _ => none := fun i a contra => absurd contra (by simp)
    exact ⟨none, none⟩
  | @instr c i v _ meets place _ gives ih =>
    refine ⟨fun j a value positive => ?_, ih.2⟩
    dsimp only at value
    by_cases same : j = c.pc
    · subst same
      rw [Function.update_self] at value
      subst value
      exact gives_aligned regular good done ih.1 ih.2 meets place gives positive
    · rw [Function.update_of_ne same] at value
      exact ih.1 j a value positive
  | jump _ _ _ _ _ ih => exact ⟨ih.1, ih.1⟩

/-- If no mask is looked at before its pointer has an alignment, and no phi that has an alignment
takes an address without one. -/
theorem inferred_aligned (hash : UserOrder)
    (regular : Regular f) (meets : ∀ n, MaskMeets f (work f hash n)) : Correct f hash PhiMeets where
  terminates := work_terminates regular meets
  aligned n done args c exec :=
    (exec_aligned regular (good_work hash regular n) done exec).1
  accesses n done args c exec ptr a old reads aligned := by
    have addresses := (exec_aligned regular (good_work hash regular n) done exec).1
    unfold raise
    split
    · exact reads_aligned addresses reads (by omega)
    · exact aligned

end

/-! ### Functions with loops, masks and GEPs -/

def byPosition : UserOrder := ⟨id, fun _ => .refl _⟩

/-- A loop over a block that is aligned with a mask. -/
def walk : Function where
  bits := 64
  inputs := [16]
  globals := []
  starts := [0, 2]
  instrs := [.ptrMask (.input 0) (some (-32)), .jump [1], .phi [(.instr 0, 0), (.instr 3, 1)],
    .gep (.instr 2) [(8, none), (1, some 8)],
    .load (.instr 3) 1 false,
    .jump [1]]

theorem inferred_aligned_walk : Correct walk byPosition PhiMeets := by
  refine inferred_aligned byPosition ⟨by decide, ?_, ?_, ?_, ?_, ?_⟩
    fun n i rest queue ptr mask a place => ?_
  · intro a member
    exact .inr ⟨4, by decide, by simpa [walk] using member⟩
  · exact fun a member => absurd member List.not_mem_nil
  · exact fun a member => by simp [walk] at member
  · exact fun a member => by simp [walk] at member
  · intro ptr mask a member exactly
    obtain ⟨rfl, rfl⟩ : ptr = .input 0 ∧ mask = some (-32) := by simpa [walk] using member
    have value : getExactAlign (some (-32)) = some 32 := by decide
    exact ⟨5, by decide, Option.some.inj (exactly.symm.trans value)⟩
  · have member := List.mem_of_getElem? place
    obtain ⟨rfl, rfl⟩ : ptr = .input 0 ∧ mask = some (-32) := by simpa [walk] using member
    have positive : walk.inputs[0]?.getD 0 ≠ 0 := by decide
    exact fun _ _ => positive

/-- A phi of a block with an alignment and what an unknown mask makes of one without. -/
def masked : Function where
  bits := 64
  inputs := [16, 1]
  globals := []
  starts := [0, 2, 3]
  instrs := [.ptrMask (.input 1) none, .jump [1, 2], .jump [2], .phi [(.instr 0, 0), (.input 0, 1)],
    .load (.instr 3) 1 false]

/-- A mask whose pointer gets its alignment late, in a loop. -/
def looping : Function where
  bits := 64
  inputs := [16]
  globals := []
  starts := [0, 1, 8, 9]
  instrs := [.jump [1], .phi [(.null, 0), (.instr 10, 3)], .phi [(.input 0, 0), (.instr 9, 3)],
    .ptrMask (.instr 1) (some (-2)),
    .gep (.instr 2) [(16, none)],
    .gep (.instr 4) [(16, none)],
    .gep (.instr 5) [(16, none)],
    .jump [2, 3],
    .jump [3],
    .phi [(.instr 6, 1), (.instr 3, 2)],
    .gep (.input 0) [(16, none)],
    .jump [1]]

/-- The inputs of `masked`: the second one is no multiple of 16. -/
def odd : Args masked where
  input i := if i = 1 then some 1 else some 0
  global _ := none
  inputs i a value _ := by
    split at value
    · next second =>
        cases value
        subst second
        exact one_dvd _
    · cases value
      exact dvd_zero _
  globals i a value := by cases value

theorem exec_masked : ∃ c, Exec odd (fun _ => True) c ∧ c.env 3 = some 1 := by
  have begun : Exec odd (fun _ => True) ⟨fun _ => none, fun _ => none, 0, 0, 0⟩ := .start
  have first := Exec.instr begun trivial (i := .ptrMask (.input 1) none) rfl (by simp)
    (.ptrMask (m := 1) (rfl : _ = odd.input 1) fun n contra => by cases contra)
  have second := Exec.jump first trivial (t := 2)
    (rfl : masked.instrs[1]? = some (.jump [1, 2])) (by decide) (rfl : masked.starts[2]? = some 3)
  have third := Exec.instr second trivial (i := .phi [(.instr 0, 0), (.input 0, 1)]) rfl (by simp)
    (.phi List.mem_cons_self rfl)
  exact ⟨_, third, rfl⟩

theorem not_aligned_masked :
    ¬Correct masked byPosition (fun _ _ => True) ∧
      ∀ n, (work looping byPosition n).queue ≠ [] := by
  constructor
  · intro contra
    obtain ⟨c, exec, value⟩ := exec_masked
    have divides := contra.aligned 6 (by decide) odd c exec 3 1 value (by decide)
    have final : (work masked byPosition 6).alignOf masked (.instr 3) = 16 := by decide
    rw [final] at divides
    exact absurd divides (by decide)
  · have early : ∀ n < 31, (work looping byPosition n).queue ≠ [] := by decide
    have again : work looping byPosition 31 = work looping byPosition 21 := by decide
    intro n
    induction n using Nat.strong_induction_on with
    | _ n ih =>
      by_cases small : n < 31
      · exact early n small
      · obtain ⟨m, rfl⟩ := Nat.exists_eq_add_of_le' (Nat.le_of_not_lt small)
        have same : work looping byPosition (m + 31) = work looping byPosition (m + 21) := by
          rw [work, Function.iterate_add_apply, ← work, again, work, ← Function.iterate_add_apply,
            ← work]
        rw [same]
        exact ih _ (by omega)

end AliveNext.Tools.InferAlign
