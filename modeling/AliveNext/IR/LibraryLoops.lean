import AliveNext.IR.BoundedLoops

/-!
# memcmp and strlen

The loops of `Memcmp::toSMT` and `Strlen::toSMT` (`ir/instr.cpp`) over the bytes of memory.
-/

namespace AliveNext.IR.BoundedLoops

/-- `memcmp_unroll_cnt` and `strlen_unroll_cnt`, as `calculateAndInitConstants` sets them. -/
def memcmpUnrollCnt : Nat := 10

def strlenUnrollCnt : Nat := 10

/-- A byte that is loaded for `Memcmp`: `forceCastToInt` and `isPoison`. -/
structure RawByte where
  int : BitVec 8
  poison : Bool
  deriving DecidableEq

/-- The bytes at the two pointers, the length, and the fresh variables of the result;
`continueIsConst` says for which iterations the condition to continue is a constant. -/
structure Memcmp (w : Nat) where
  byte1 : Nat → RawByte
  byte2 : Nat → RawByte
  num : BitVec w
  isBcmp : Bool
  bcmpNonzero : BitVec 32
  memcmpNonzero : BitVec 31
  memcmpVar : BitVec 31
  continueIsConst : Nat → Bool

namespace Memcmp

variable {w : Nat} (x : Memcmp w)

def resultVar : BitVec 32 := if x.isBcmp then x.bcmpNonzero else 0#1 ++ x.memcmpNonzero

def resultVarNeg : BitVec 32 := 1#1 ++ x.memcmpVar

def resultPre : Bool := if x.isBcmp then x.bcmpNonzero != 0 else x.memcmpNonzero != 0

def resultNeq (i : Nat) : BitVec 32 :=
  if x.isBcmp then x.resultVar
  else if (x.byte2 i).int ≤ (x.byte1 i).int then x.resultVar else x.resultVarNeg

def valEq (i : Nat) : Bool := (x.byte1 i).int == (x.byte2 i).int

def ithExec : IthExec (BitVec 32) := fun i _ =>
  { value := if x.valEq i then 0 else x.resultNeq i
    nonPoison := !(x.byte1 i).poison && !(x.byte2 i).poison
    ub := ⟨true, true⟩
    continues := ⟨x.valEq i && decide (BitVec.ofNat w (i + 2) ≤ x.num), x.continueIsConst i⟩ }

/-- The loop of `Memcmp::toSMT`. -/
def encoded (path : PathUB) : Encoded (BitVec 32) := encode x.ithExec path memcmpUnrollCnt

/-- The value of `Memcmp::toSMT`, whether it is not poison, and the preconditions. -/
def toSMT (path : PathUB) : BitVec 32 × Bool × Bool :=
  (if x.num == 0 then 0 else (x.encoded path).value, x.num == 0 || (x.encoded path).nonPoison,
    x.resultPre && (x.encoded path).pre)

def EqualBefore (i : Nat) : Prop := ∀ j < i, (x.byte1 j).int = (x.byte2 j).int

/-- What the result says about the first bytes. -/
structure Compares (value : BitVec 32) (nonPoison : Bool) : Prop where
  eq_zero_iff : value = 0 ↔ x.EqualBefore x.num.toNat
  sign : x.isBcmp = false → ∀ i < x.num.toNat, x.EqualBefore i → (x.byte1 i).int ≠ (x.byte2 i).int →
    (value.toInt < 0 ↔ (x.byte1 i).int < (x.byte2 i).int) ∧
      (0 < value.toInt ↔ (x.byte2 i).int < (x.byte1 i).int)
  poison_iff : nonPoison = false ↔ ∃ i < x.num.toNat, x.EqualBefore i ∧
    ((x.byte1 i).poison = true ∨ (x.byte2 i).poison = true)

end Memcmp

/-- A byte that `Strlen` loads, with the value of the conditions of the load. -/
structure LoadedByte where
  value : BitVec 8
  loadable : Bool
  nonPoison : Bool
  deriving DecidableEq

/-- The bytes from the pointer on; `ubIsConst` and `continueIsConst` say for which iterations the
conditions are constants. -/
structure Strlen where
  byte : Nat → LoadedByte
  ubIsConst : Nat → Bool
  continueIsConst : Nat → Bool

namespace Strlen

variable (x : Strlen) (bits : Nat)

def ok (i : Nat) : Bool := (x.byte i).loadable && (x.byte i).nonPoison

def ithExec : IthExec (BitVec bits) := fun i _ =>
  { value := BitVec.ofNat bits i
    nonPoison := true
    ub := ⟨x.ok i, x.ubIsConst i⟩
    continues := ⟨(x.byte i).value != 0, x.continueIsConst i⟩ }

def toSMT (path : PathUB) : Encoded (BitVec bits) :=
  { encode (x.ithExec bits) path strlenUnrollCnt with nonPoison := true }

def NonzeroBefore (i : Nat) : Prop := ∀ j < i, x.ok j = true ∧ (x.byte j).value ≠ 0

/-- The result is the index of the first zero byte; it is UB if a byte up to there cannot be read or
is poison. -/
structure FindsZero (result : Encoded (BitVec bits)) : Prop where
  ub_iff : result.ub = false ↔ ∃ i, x.NonzeroBefore i ∧ x.ok i = false
  value : ∀ i, x.NonzeroBefore i → x.ok i = true → (x.byte i).value = 0 →
    result.value = BitVec.ofNat bits i ∧ result.nonPoison = true
  found : result.ub = true → ∃ i, x.NonzeroBefore i ∧ x.ok i = true ∧ (x.byte i).value = 0

end Strlen

namespace Memcmp

variable {w : Nat} {x : Memcmp w} {path : PathUB}

theorem toNat_positive (a : BitVec 31) : (0#1 ++ a : BitVec 32).toNat = a.toNat := by
  rw [BitVec.toNat_append, BitVec.toNat_ofNat, Nat.zero_mod, Nat.zero_shiftLeft, Nat.zero_or]

theorem toNat_negative (a : BitVec 31) : (1#1 ++ a : BitVec 32).toNat = 2 ^ 31 + a.toNat := by
  have one : (1#1).toNat = 1 := rfl
  rw [BitVec.toNat_append, one, ← Nat.shiftLeft_add_eq_or_of_lt a.isLt, Nat.one_shiftLeft]

theorem toInt_positive {a : BitVec 31} (nonzero : a ≠ 0) : 0 < (0#1 ++ a : BitVec 32).toInt := by
  have bound := a.isLt
  have positive : a.toNat ≠ 0 := fun zero => nonzero (BitVec.eq_of_toNat_eq zero)
  rw [BitVec.toInt_eq_toNat_cond, toNat_positive, if_pos (by omega)]
  omega

theorem toInt_negative (a : BitVec 31) : (1#1 ++ a : BitVec 32).toInt < 0 := by
  have bound := a.isLt
  rw [BitVec.toInt_eq_toNat_cond, toNat_negative, if_neg (by omega)]
  omega

theorem resultNeq_ne_zero (pre : x.resultPre = true) (i : Nat) : x.resultNeq i ≠ 0 := by
  unfold resultPre at pre
  unfold resultNeq resultVar resultVarNeg
  cases kind : x.isBcmp with
  | true =>
    rw [kind, if_pos rfl, bne_iff_ne] at pre
    exact pre
  | false =>
    rw [kind, if_neg Bool.false_ne_true, bne_iff_ne] at pre
    rw [if_neg Bool.false_ne_true, if_neg Bool.false_ne_true]
    intro zero
    have toInt := congrArg BitVec.toInt zero
    split at toInt
    · exact absurd toInt (toInt_positive pre).ne'
    · exact absurd toInt (toInt_negative x.memcmpVar).ne

variable {i n : Nat}

theorem continues_iff (small : i + 2 < 2 ^ w) (last : Bool) :
    (x.ithExec i last).continues.holds = true ↔ x.valEq i = true ∧ i + 2 ≤ x.num.toNat := by
  unfold ithExec
  rw [Bool.and_eq_true, decide_eq_true_eq, BitVec.le_def, BitVec.toNat_ofNat,
    Nat.mod_eq_of_lt small]

theorem loop_value {value : BitVec 32} {np : Bool} (inside : i < x.num.toNat)
    (small : i + n + 2 < 2 ^ w)
    (run : Loop (iterations x.ithExec memcmpUnrollCnt) i n (.done value np)) :
    ((∀ j, i ≤ j → j < x.num.toNat → x.valEq j = true) ∧ value = 0 ∨
      ∃ k, i ≤ k ∧ k < x.num.toNat ∧ (∀ j, i ≤ j → j < k → x.valEq j = true) ∧
        x.valEq k = false ∧ value = x.resultNeq k) ∧
    (np = false ↔ ∃ k, i ≤ k ∧ k < x.num.toNat ∧ (∀ j, i ≤ j → j < k → x.valEq j = true) ∧
      ((x.byte1 k).poison = true ∨ (x.byte2 k).poison = true)) := by
  generalize outcome : Outcome.done value np = out at run
  induction run generalizing value np with
  | ub => cases outcome
  | @done i ok stop =>
    cases outcome
    have ends : ¬ (x.valEq i = true ∧ i + 2 ≤ x.num.toNat) := fun both =>
      Bool.false_ne_true (stop.symm.trans ((continues_iff small _).2 both))
    constructor
    · cases eq : x.valEq i with
      | true =>
        refine .inl ⟨fun j after before => ?_, ?_⟩
        · obtain rfl : j = i := by
            have : ¬ i + 2 ≤ x.num.toNat := fun more => ends ⟨eq, more⟩
            omega
          exact eq
        · unfold iterations ithExec
          exact if_pos eq
      | false =>
        refine .inr ⟨i, Nat.le_refl i, inside, fun j after before => ?_, eq, ?_⟩
        · exact absurd before (Nat.not_lt.2 after)
        · unfold iterations ithExec
          exact if_neg (by rw [eq]; decide)
    · unfold iterations ithExec
      rw [← Bool.not_or, Bool.not_eq_false', Bool.or_eq_true]
      constructor
      · exact fun poison => ⟨i, Nat.le_refl i, inside,
          fun j after before => absurd before (Nat.not_lt.2 after), poison⟩
      · rintro ⟨k, after, before, equal, poison⟩
        obtain rfl : i = k := by
          by_contra differ
          have eq := equal i (Nat.le_refl i) (by omega)
          exact ends ⟨eq, by omega⟩
        exact poison
  | @next i n out ok go rest ih =>
    obtain ⟨eq, more⟩ := (continues_iff (by omega) _).1 go
    have here : ∀ {k}, (∀ j, i + 1 ≤ j → j < k → x.valEq j = true) →
        ∀ j, i ≤ j → j < k → x.valEq j = true := by
      intro k later j after before
      rcases Nat.eq_or_lt_of_le after with rfl | beyond
      · exact eq
      · exact later j beyond before
    cases out with
    | ub => cases outcome
    | done value' np' =>
      cases outcome
      obtain ⟨values, poisons⟩ := ih (by omega) (by omega) rfl
      constructor
      · rcases values with ⟨equal, zero⟩ | ⟨k, after, before, equal, differ, result⟩
        · exact .inl ⟨here equal, zero⟩
        · exact .inr ⟨k, by omega, before, here equal, differ, result⟩
      · rw [Bool.and_eq_false_iff, poisons]
        unfold iterations ithExec
        rw [← Bool.not_or, Bool.not_eq_false', Bool.or_eq_true]
        constructor
        · rintro (poison | ⟨k, after, before, equal, poison⟩)
          · exact ⟨i, Nat.le_refl i, by omega,
              fun j after before => absurd before (Nat.not_lt.2 after), poison⟩
          · exact ⟨k, by omega, before, here equal, poison⟩
        · rintro ⟨k, after, before, equal, poison⟩
          rcases Nat.eq_or_lt_of_le after with rfl | beyond
          · exact .inl poison
          · exact .inr ⟨k, beyond, before, fun j after' => equal j (by omega), poison⟩

theorem loop_done {out : Outcome (BitVec 32)}
    (run : Loop (iterations x.ithExec memcmpUnrollCnt) i n out) :
    ∃ value np, out = .done value np := by
  induction run with
  | ub ub => cases ub
  | done => exact ⟨_, _, rfl⟩
  | next ok go rest ih =>
    obtain ⟨value, np, rfl⟩ := ih
    exact ⟨_, _, rfl⟩

theorem equalBefore_iff {k : Nat} : x.EqualBefore k ↔ ∀ j, 0 ≤ j → j < k → x.valEq j = true := by
  unfold EqualBefore valEq
  simp only [beq_iff_eq, Nat.zero_le, true_imp_iff]

theorem resultNeq_sign (pre : x.resultPre = true) (memcmp : x.isBcmp = false)
    (differ : (x.byte1 i).int ≠ (x.byte2 i).int) :
    ((x.resultNeq i).toInt < 0 ↔ (x.byte1 i).int < (x.byte2 i).int) ∧
      (0 < (x.resultNeq i).toInt ↔ (x.byte2 i).int < (x.byte1 i).int) := by
  unfold resultPre at pre
  rw [memcmp, if_neg Bool.false_ne_true, bne_iff_ne] at pre
  unfold resultNeq resultVar resultVarNeg
  rw [memcmp, if_neg Bool.false_ne_true, if_neg Bool.false_ne_true]
  have differs : (x.byte1 i).int.toNat ≠ (x.byte2 i).int.toNat := fun same =>
    differ (BitVec.eq_of_toNat_eq same)
  have positive := toInt_positive pre
  have negative := toInt_negative x.memcmpVar
  rw [BitVec.lt_def, BitVec.lt_def]
  by_cases ge : (x.byte2 i).int ≤ (x.byte1 i).int
  · have order := BitVec.le_def.1 ge
    rw [if_pos ge]
    constructor <;> constructor <;> intro <;> omega
  · have order := mt BitVec.le_def.2 ge
    rw [if_neg ge]
    constructor <;> constructor <;> intro <;> omega

/-- In a model that is kept the result compares the first `num` bytes. -/
theorem toSMT_compares (x : Memcmp w) (path : PathUB) (wide : 16 ≤ w) (holds : path.holds = true)
    (kept : (x.toSMT path).2.2 = true) : x.Compares (x.toSMT path).1 (x.toSMT path).2.1 := by
  obtain ⟨pre, keeps⟩ := Bool.and_eq_true_iff.1 kept
  unfold toSMT
  dsimp only
  by_cases zero : x.num = 0
  · have none : x.num.toNat = 0 := by rw [zero]; rfl
    rw [zero, beq_self_eq_true, if_pos rfl, Bool.true_or]
    refine ⟨⟨fun _ j before => ?_, fun _ => rfl⟩, fun _ i inside => ?_, ⟨fun poison => ?_, ?_⟩⟩
    · omega
    · omega
    · cases poison
    · rintro ⟨i, inside, _⟩
      omega
  · have positive : 0 < x.num.toNat := by
      rw [Nat.pos_iff_ne_zero]
      exact fun none => zero (BitVec.eq_of_toNat_eq none)
    have size : 2 ^ 16 ≤ 2 ^ w := Nat.pow_le_pow_right (by decide) wide
    obtain ⟨n, bound, run⟩ := (encode_outcome x.ithExec path memcmpUnrollCnt).1 keeps holds
    have bounded : n ≤ 512 := bound
    obtain ⟨value, np, out⟩ := loop_done run
    have result : (x.encoded path).value = value ∧ (x.encoded path).nonPoison = np := by
      unfold Encoded.outcome at out
      split at out
      · injection out with value_eq np_eq
        exact ⟨value_eq, np_eq⟩
      · cases out
    rw [out] at run
    obtain ⟨values, poisons⟩ := loop_value positive (by omega) run
    rw [beq_eq_false_iff_ne.2 zero, if_neg Bool.false_ne_true, Bool.false_or, result.1, result.2]
    have firsts : ∀ {i k}, i < x.num.toNat → (∀ j, 0 ≤ j → j < i → x.valEq j = true) →
        x.valEq i = false → (∀ j, 0 ≤ j → j < k → x.valEq j = true) → x.valEq k = false →
        k = i := by
      intro i k _ equal differ equal' differ'
      rcases Nat.lt_trichotomy k i with less | same | more
      · cases differ'.symm.trans (equal k (Nat.zero_le k) less)
      · exact same
      · cases differ.symm.trans (equal' i (Nat.zero_le i) more)
    constructor
    · rw [equalBefore_iff]
      rcases values with ⟨equal, rfl⟩ | ⟨k, _, before, _, differ, rfl⟩
      · exact ⟨fun _ => equal, fun _ => rfl⟩
      · exact ⟨fun zero => absurd zero (resultNeq_ne_zero pre k), fun equal => by
          cases differ.symm.trans (equal k (Nat.zero_le k) before)⟩
    · intro memcmp i inside equal differ
      have notEq : x.valEq i = false := beq_eq_false_iff_ne.2 differ
      rcases values with ⟨all, _⟩ | ⟨k, _, before, equal', differ', rfl⟩
      · cases notEq.symm.trans (all i (Nat.zero_le i) inside)
      · rw [firsts inside (equalBefore_iff.1 equal) notEq equal' differ']
        exact resultNeq_sign pre memcmp differ
    · rw [poisons]
      simp only [equalBefore_iff, Nat.zero_le, true_and]

end Memcmp

namespace Strlen

variable {x : Strlen} {bits : Nat} {path : PathUB}

theorem loop_ends {i n : Nat} {out : Outcome (BitVec bits)}
    (run : Loop (iterations (x.ithExec bits) strlenUnrollCnt) i n out) :
    (∀ j, i ≤ j → j < i + n → x.ok j = true ∧ (x.byte j).value ≠ 0) ∧
      (x.ok (i + n) = false ∧ out = .ub ∨ x.ok (i + n) = true ∧ (x.byte (i + n)).value = 0 ∧
          out = .done (BitVec.ofNat bits (i + n)) true) := by
  induction run with
  | @ub i ub =>
    exact ⟨fun j after before => absurd before (Nat.not_lt.2 after), .inl ⟨ub, rfl⟩⟩
  | @done i ok stop =>
    refine ⟨fun j after before => absurd before (Nat.not_lt.2 after), .inr ⟨ok, ?_, rfl⟩⟩
    exact bne_eq_false_iff_eq.1 stop
  | @next i n out ok go rest ih =>
    obtain ⟨before, ends⟩ := ih
    have shift : i + 1 + n = i + (n + 1) := by omega
    rw [shift] at before ends
    constructor
    · intro j after below
      rcases Nat.eq_or_lt_of_le after with rfl | beyond
      · exact ⟨ok, bne_iff_ne.1 go⟩
      · exact before j beyond below
    · rcases ends with ⟨bad, rfl⟩ | ⟨good, zero, rfl⟩
      · exact .inl ⟨bad, rfl⟩
      · exact .inr ⟨good, zero, rfl⟩

theorem toSMT_findsZero (x : Strlen) (bits : Nat) (path : PathUB) (holds : path.holds = true)
    (kept : (x.toSMT bits path).pre = true) : x.FindsZero bits (x.toSMT bits path) := by
  obtain ⟨k, _, run⟩ := (encode_outcome (x.ithExec bits) path strlenUnrollCnt).1 kept holds
  obtain ⟨before, ends⟩ := loop_ends run
  rw [Nat.zero_add] at before ends
  have nonzero : x.NonzeroBefore k := fun j below => before j (Nat.zero_le j) below
  have last : ∀ {i}, x.NonzeroBefore i → (x.ok i = false ∨ (x.byte i).value = 0) → i = k := by
    intro i nonzero' stops
    rcases Nat.lt_trichotomy i k with less | same | more
    · obtain ⟨ok, value⟩ := nonzero i less
      rcases stops with bad | zero
      · cases bad.symm.trans ok
      · exact absurd zero value
    · exact same
    · obtain ⟨ok, value⟩ := nonzero' k more
      rcases ends with ⟨bad, _⟩ | ⟨_, zero, _⟩
      · cases bad.symm.trans ok
      · exact absurd zero value
  have result : (x.toSMT bits path).ub = (encode (x.ithExec bits) path strlenUnrollCnt).ub := rfl
  unfold Encoded.outcome at ends
  cases ub : (encode (x.ithExec bits) path strlenUnrollCnt).ub with
  | false =>
    rw [ub, if_neg Bool.false_ne_true] at ends
    have bad : x.ok k = false := by
      rcases ends with ⟨bad, _⟩ | ⟨_, _, out⟩
      · exact bad
      · cases out
    refine ⟨⟨fun _ => ⟨k, nonzero, bad⟩, fun _ => result.trans ub⟩, ?_, ?_⟩
    · intro i nonzero' ok zero
      rw [last nonzero' (.inr zero), bad] at ok
      cases ok
    · intro good
      cases (result.trans ub).symm.trans good
  | true =>
    rw [ub, if_pos rfl] at ends
    rcases ends with ⟨_, out⟩ | ⟨ok, zero, out⟩
    · cases out
    · injection out with value _
      refine ⟨⟨fun bad => ?_, ?_⟩, ?_, fun _ => ⟨k, nonzero, ok, zero⟩⟩
      · cases (result.trans ub).symm.trans bad
      · rintro ⟨i, nonzero', bad⟩
        rw [last nonzero' (.inl bad), ok] at bad
        cases bad
      · intro i nonzero' _ zero'
        rw [last nonzero' (.inr zero')]
        exact ⟨value, rfl⟩

end Strlen

/-- On paths without UB the models that are kept have the outcome of the loop, and for memcmp and
strlen the one that the bytes of memory give; the models that are dropped have loops that get beyond
the bound. -/
theorem loops_exact :
    (∀ (V : Type) (exec : IthExec V) (path : PathUB) (unrollCnt : Nat), 1 ≤ unrollCnt →
      ((encode exec path unrollCnt).pre = true → path.holds = true →
        ∃ n, Loop (iterations exec unrollCnt) 0 n (encode exec path unrollCnt).outcome) ∧
      ((encode exec path unrollCnt).pre = false →
        ∃ k, unrollCnt ≤ k ∧ Reaches (iterations exec unrollCnt) k)) ∧
    (∀ (w : Nat) (x : Memcmp w) (path : PathUB), 16 ≤ w → path.holds = true →
      (x.toSMT path).2.2 = true → x.Compares (x.toSMT path).1 (x.toSMT path).2.1) ∧
    (∀ (bits : Nat) (x : Strlen) (path : PathUB), path.holds = true →
      (x.toSMT bits path).pre = true → x.FindsZero bits (x.toSMT bits path)) := by
  refine ⟨fun V exec path unrollCnt _ => ?_, fun w x path wide holds kept =>
    x.toSMT_compares path wide holds kept, fun bits x path holds kept =>
    x.toSMT_findsZero bits path holds kept⟩
  obtain ⟨keeps, drops⟩ := encode_outcome exec path unrollCnt
  refine ⟨fun kept holds => ?_, drops⟩
  obtain ⟨n, _, run⟩ := keeps kept holds
  exact ⟨n, run⟩

namespace Fixed

/-- `"a"` with a zero byte at its end. -/
def letter : Strlen where
  byte := fun i => ⟨if i = 0 then 97 else 0, true, true⟩
  ubIsConst := fun _ => true
  continueIsConst := fun _ => true

theorem letter_kept : (encode (letter.ithExec 64) [] strlenUnrollCnt).pre = true := by
  unfold encode
  rw [loop_next true (by decide) (by decide)]
  dsimp only
  rw [loop_early _ (by decide) (by decide)]

def letters : Memcmp 64 where
  byte1 := fun _ => ⟨97, false⟩
  byte2 := fun _ => ⟨98, false⟩
  num := 1
  isBcmp := false
  bcmpNonzero := 0
  memcmpNonzero := 1
  memcmpVar := 0
  continueIsConst := fun _ => true

theorem letters_kept : (letters.toSMT []).2.2 = true := by
  have kept : (letters.encoded []).pre = true := by
    unfold Memcmp.encoded encode
    rw [loop_early _ (by decide) (by decide)]
  unfold Memcmp.toSMT
  dsimp only
  rw [kept]
  rfl

def count : IthExec Nat := fun i _ => ⟨i, true, ⟨true, true⟩, ⟨i == 0, false⟩⟩

end Fixed

theorem loops_exact_letters :
    (∃ n, Loop (iterations (Fixed.letter.ithExec 64) strlenUnrollCnt) 0 n
      (encode (Fixed.letter.ithExec 64) [] strlenUnrollCnt).outcome) ∧
    Fixed.letters.Compares (Fixed.letters.toSMT []).1 (Fixed.letters.toSMT []).2.1 ∧
    Fixed.letter.FindsZero 64 (Fixed.letter.toSMT 64 []) :=
  ⟨(loops_exact.1 (BitVec 64) (Fixed.letter.ithExec 64) [] strlenUnrollCnt (by decide)).1
      Fixed.letter_kept rfl,
    loops_exact.2.1 64 Fixed.letters [] (by decide) rfl Fixed.letters_kept,
    loops_exact.2.2 64 Fixed.letter [] rfl Fixed.letter_kept⟩

/-- On a path that is not viable the encoding stops with the first iteration. -/
theorem not_viable_stops :
    (encode Fixed.count [⟨false, true⟩] 8).pre = true ∧
      (encode Fixed.count [⟨false, true⟩] 8).outcome = .done 0 true ∧
      Loop (iterations Fixed.count 8) 0 1 (.done 1 true) ∧
      ¬ ∃ n, Loop (iterations Fixed.count 8) 0 n
        (encode Fixed.count [⟨false, true⟩] 8).outcome := by
  have early : encode Fixed.count [⟨false, true⟩] 8 = ⟨0, true, true, true⟩ := by
    unfold encode
    rw [loop_early _ (by decide) (by decide)]
    rfl
  have outcome : (encode Fixed.count [⟨false, true⟩] 8).outcome = .done 0 true := by
    rw [early]
    rfl
  have run : Loop (iterations Fixed.count 8) 0 1 (.done 1 true) :=
    .next rfl rfl (.done rfl rfl)
  refine ⟨by rw [early], outcome, run, ?_⟩
  rintro ⟨n, other⟩
  rw [outcome] at other
  cases (run.unique other).2

end AliveNext.IR.BoundedLoops
