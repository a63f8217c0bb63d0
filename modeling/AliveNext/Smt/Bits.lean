import Mathlib

/-!
# Counting, gathering and permuting bits

The integer definitions of the bit-manipulation operators, each as a loop over
the places, and their laws.
-/

namespace AliveNext.Smt

/-- `for (i = start; i < stop; ++i) acc = body(acc, i)`. -/
def forRange {α : Type} (start stop : Nat) (body : α → Nat → α) (init : α) : α :=
  (List.range' start (stop - start)).foldl body init

theorem forRange_invariant {α : Type} {start stop : Nat} {body : α → Nat → α} {init : α}
    (P : Nat → α → Prop) (ordered : start ≤ stop) (base : P start init)
    (step : ∀ i acc, start ≤ i → i < stop → P i acc → P (i + 1) (body acc i)) :
    P stop (forRange start stop body init) := by
  unfold forRange
  obtain ⟨count, rfl⟩ := Nat.exists_eq_add_of_le ordered
  rw [Nat.add_sub_cancel_left]
  clear ordered
  induction count generalizing start init with
  | zero => exact base
  | succ count ih =>
    rw [List.range'_succ, List.foldl_cons, show start + (count + 1) = start + 1 + count by omega]
    apply ih (step start init (le_refl start) (by omega) base)
    intro i acc above below
    exact step i acc (by omega) (by omega)

section

variable {w : Nat} (m : BitVec w)

def onesBelow (i : Nat) : Nat := m.cpopNatRec i 0

@[simp] theorem onesBelow_zero : onesBelow m 0 = 0 := rfl

@[simp] theorem onesBelow_succ (i : Nat) :
    onesBelow m (i + 1) = onesBelow m i + (m.getLsbD i).toNat := by
  rw [onesBelow, BitVec.cpopNatRec_succ, BitVec.cpopNatRec_eq, Nat.zero_add, onesBelow]

theorem onesBelow_le (i : Nat) : onesBelow m i ≤ i := by
  have bound := @BitVec.cpopNatRec_le w 0 m i
  rwa [Nat.zero_add] at bound

variable {i j : Nat}

theorem onesBelow_mono (le : i ≤ j) : onesBelow m i ≤ onesBelow m j := by
  induction j, le using Nat.le_induction with
  | base => exact le_refl _
  | succ j _ ih =>
    rw [onesBelow_succ]
    omega

variable {m}

theorem onesBelow_lt (less : i < j) (set : m.getLsbD i = true) : onesBelow m i < onesBelow m j := by
  have next : onesBelow m (i + 1) = onesBelow m i + 1 := by
    rw [onesBelow_succ, set]
    rfl
  have le : onesBelow m (i + 1) ≤ onesBelow m j := onesBelow_mono m less
  omega

theorem onesBelow_injective (setI : m.getLsbD i = true) (setJ : m.getLsbD j = true)
    (same : onesBelow m i = onesBelow m j) : i = j := by
  rcases Nat.lt_trichotomy i j with less | equal | greater
  · have := onesBelow_lt less setI
    omega
  · exact equal
  · have := onesBelow_lt greater setJ
    omega

theorem exists_place
    (below : j < onesBelow m i) : ∃ k < i, m.getLsbD k = true ∧ onesBelow m k = j := by
  induction i with
  | zero => simp at below
  | succ i ih =>
    by_cases earlier : j < onesBelow m i
    · obtain ⟨k, less, set, place⟩ := ih earlier
      exact ⟨k, by omega, set, place⟩
    · rw [onesBelow_succ] at below
      cases set : m.getLsbD i with
      | true =>
        rw [set, Bool.toNat_true] at below
        exact ⟨i, by omega, set, by omega⟩
      | false =>
        rw [set, Bool.toNat_false] at below
        omega

theorem find?_range_getLsbD :
    (List.range w).find? m.getLsbD = if m = 0#w then none else some m.ctz.toNat := by
  by_cases zero : m = 0#w
  · subst zero
    rw [if_pos rfl, List.find?_eq_none]
    intro i _
    simp
  · rw [if_neg zero, List.find?_range_eq_some]
    have set := BitVec.getLsbD_true_ctz_of_ne_zero zero
    refine ⟨set, List.mem_range.2 (BitVec.lt_of_getLsbD set), fun j less => ?_⟩
    rw [BitVec.getLsbD_false_of_lt_ctz less]
    rfl

end

theorem log2_mod_of_testBit
    {n i : Nat} (set : n.testBit i = true) : Nat.log2 (n % 2 ^ (i + 1)) = i := by
  have high : 2 ^ i ≤ n % 2 ^ (i + 1) := by
    apply Nat.ge_two_pow_of_testBit
    rw [Nat.testBit_mod_two_pow, set]
    simp
  have positive := Nat.two_pow_pos i
  rw [Nat.log2_eq_iff (by omega)]
  exact ⟨high, Nat.mod_lt _ (Nat.two_pow_pos _)⟩

theorem mod_of_testBit_eq_false
    {n i : Nat} (clear : n.testBit i = false) : n % 2 ^ (i + 1) = n % 2 ^ i := by
  apply Nat.eq_of_testBit_eq
  intro j
  rw [Nat.testBit_mod_two_pow, Nat.testBit_mod_two_pow]
  rcases Nat.lt_trichotomy j i with less | rfl | greater
  · simp [less, Nat.lt_succ_of_lt less]
  · simp [clear]
  · simp [show ¬j < i by omega, show ¬j < i + 1 by omega]

section

variable {w : Nat} (x m : BitVec w)

def bitAt (i : Nat) : BitVec w := BitVec.ofNat w (x.getLsbD i).toNat

def gather : Nat → BitVec w
  | 0 => 0#w
  | i + 1 => gather i ||| (bitAt m i &&& bitAt x i) <<< onesBelow m i

def scatter : Nat → BitVec w
  | 0 => 0#w
  | i + 1 => scatter i ||| (bitAt m i &&& x >>> onesBelow m i) <<< i

variable {x m}

theorem getLsbD_bitAt
    {i j : Nat} (inside : i < w) : (bitAt x i).getLsbD j = (decide (j = 0) && x.getLsbD i) := by
  have positive : 0 < w := by omega
  unfold bitAt
  cases x.getLsbD i with
  | false => simp
  | true =>
    rw [Bool.toNat_true, BitVec.getLsbD_ofNat]
    cases j <;> simp [positive, Nat.testBit_succ]

theorem getLsbD_gather {i j : Nat} (inside : i ≤ w) : (gather x m i).getLsbD j = true ↔
      ∃ k < i, m.getLsbD k = true ∧ x.getLsbD k = true ∧ onesBelow m k = j := by
  induction i with
  | zero => simp [gather]
  | succ i ih =>
    have few := onesBelow_le m i
    have last : ((bitAt m i &&& bitAt x i) <<< onesBelow m i).getLsbD j = true ↔
        m.getLsbD i = true ∧ x.getLsbD i = true ∧ onesBelow m i = j := by
      rw [BitVec.getLsbD_shiftLeft, BitVec.getLsbD_and, getLsbD_bitAt (by omega),
        getLsbD_bitAt (by omega)]
      simp only [Bool.and_eq_true, decide_eq_true_eq, Bool.not_eq_true', decide_eq_false_iff_not]
      constructor
      · rintro ⟨⟨-, above⟩, ⟨zero, setM⟩, -, setX⟩
        exact ⟨setM, setX, by omega⟩
      · rintro ⟨setM, setX, rfl⟩
        exact ⟨⟨by omega, by omega⟩, ⟨by omega, setM⟩, by omega, setX⟩
    rw [gather, BitVec.getLsbD_or, Bool.or_eq_true, ih (by omega), last]
    constructor
    · rintro (⟨k, less, set⟩ | set)
      · exact ⟨k, by omega, set⟩
      · exact ⟨i, by omega, set⟩
    · rintro ⟨k, less, set⟩
      by_cases before : k < i
      · exact .inl ⟨k, before, set⟩
      · cases show k = i by omega
        exact .inr set

theorem getLsbD_scatter {i j : Nat} (inside : i ≤ w) : (scatter x m i).getLsbD j = true ↔
      j < i ∧ m.getLsbD j = true ∧ x.getLsbD (onesBelow m j) = true := by
  induction i with
  | zero => simp [scatter]
  | succ i ih =>
    have last : ((bitAt m i &&& x >>> onesBelow m i) <<< i).getLsbD j = true ↔
        j = i ∧ m.getLsbD j = true ∧ x.getLsbD (onesBelow m j) = true := by
      rw [BitVec.getLsbD_shiftLeft, BitVec.getLsbD_and, getLsbD_bitAt (by omega),
        BitVec.getLsbD_ushiftRight]
      simp only [Bool.and_eq_true, decide_eq_true_eq, Bool.not_eq_true', decide_eq_false_iff_not]
      constructor
      · rintro ⟨⟨-, above⟩, ⟨zero, setM⟩, setX⟩
        cases show j = i by omega
        rw [Nat.sub_self, Nat.add_zero] at setX
        exact ⟨rfl, setM, setX⟩
      · rintro ⟨rfl, setM, setX⟩
        rw [Nat.sub_self, Nat.add_zero]
        exact ⟨⟨by omega, by omega⟩, ⟨rfl, setM⟩, setX⟩
    rw [scatter, BitVec.getLsbD_or, Bool.or_eq_true, ih (by omega), last]
    constructor
    · rintro (⟨less, set⟩ | ⟨rfl, set⟩)
      · exact ⟨by omega, set⟩
      · exact ⟨by omega, set⟩
    · rintro ⟨less, set⟩
      by_cases before : j < i
      · exact .inl ⟨before, set⟩
      · exact .inr ⟨by omega, set⟩

theorem getLsbD_gather_onesBelow {k : Nat} (set : m.getLsbD k = true) :
    (gather x m w).getLsbD (onesBelow m k) = x.getLsbD k := by
  have inside : k < w := BitVec.lt_of_getLsbD set
  rw [Bool.eq_iff_iff, getLsbD_gather (le_refl w)]
  constructor
  · rintro ⟨k', -, set', setX, same⟩
    cases onesBelow_injective set' set same
    exact setX
  · intro setX
    exact ⟨k, inside, set, setX, rfl⟩

theorem scatter_gather : scatter (gather x m w) m w = x &&& m := by
  apply BitVec.eq_of_getLsbD_eq
  intro j inside
  rw [Bool.eq_iff_iff, getLsbD_scatter (le_refl w), BitVec.getLsbD_and, Bool.and_eq_true]
  constructor
  · rintro ⟨-, set, setX⟩
    rw [getLsbD_gather_onesBelow set] at setX
    exact ⟨setX, set⟩
  · rintro ⟨setX, set⟩
    refine ⟨inside, set, ?_⟩
    rw [getLsbD_gather_onesBelow set]
    exact setX

theorem toNat_gather_scatter :
    (gather (scatter x m w) m w).toNat = x.toNat % 2 ^ onesBelow m w := by
  apply Nat.eq_of_testBit_eq
  intro j
  rw [BitVec.testBit_toNat, Nat.testBit_mod_two_pow, BitVec.testBit_toNat, Bool.eq_iff_iff,
    getLsbD_gather (le_refl w), Bool.and_eq_true, decide_eq_true_iff]
  constructor
  · rintro ⟨k, inside, set, setX, rfl⟩
    exact ⟨onesBelow_lt inside set, ((getLsbD_scatter (le_refl w)).1 setX).2.2⟩
  · rintro ⟨below, setX⟩
    obtain ⟨k, inside, set, rfl⟩ := exists_place below
    exact ⟨k, inside, set, (getLsbD_scatter (le_refl w)).2 ⟨inside, set, setX⟩, rfl⟩

end

section

variable {w : Nat} (x y : BitVec w)

/-- The pairs of set bits whose places add up to `k`, the first below `n`. -/
def pairsBelow (k n : Nat) : Nat :=
  (List.range n).countP fun i => decide (i ≤ k) && x.getLsbD i && y.getLsbD (k - i)

def carrylessBit (k : Nat) : Bool :=
  (List.range (k + 1)).countP (fun i => x.getLsbD i && y.getLsbD (k - i)) % 2 = 1

theorem pairsBelow_succ (k n : Nat) : pairsBelow x y k (n + 1) =
      pairsBelow x y k n + (decide (n ≤ k) && x.getLsbD n && y.getLsbD (k - n)).toNat := by
  unfold pairsBelow
  rw [List.range_succ, List.countP_append, List.countP_singleton]
  cases (decide (n ≤ k) && x.getLsbD n && y.getLsbD (k - n)) <;> rfl

/-- The rows of the product below `n`, added without carry. -/
def carryless : Nat → BitVec w
  | 0 => 0#w
  | n + 1 => carryless n ^^^ ((if x.getLsbD n then BitVec.allOnes w else 0#w) &&& y <<< n)

theorem getLsbD_carryless {k : Nat} (n : Nat)
    (inside : k < w) : (carryless x y n).getLsbD k = decide (pairsBelow x y k n % 2 = 1) := by
  induction n with
  | zero => simp [carryless, pairsBelow]
  | succ n ih =>
    have row : ((if x.getLsbD n then BitVec.allOnes w else 0#w) &&& y <<< n).getLsbD k =
        (decide (n ≤ k) && x.getLsbD n && y.getLsbD (k - n)) := by
      rw [BitVec.getLsbD_and, BitVec.getLsbD_shiftLeft]
      by_cases le : n ≤ k
      · cases x.getLsbD n <;> simp [inside, le]
      · cases x.getLsbD n <;> simp [inside, le, show k < n by omega]
    rw [carryless, BitVec.getLsbD_xor, ih, row, pairsBelow_succ]
    cases (decide (n ≤ k) && x.getLsbD n && y.getLsbD (k - n)) with
    | false => simp
    | true =>
      rw [Bool.toNat_true]
      rcases Nat.mod_two_eq_zero_or_one (pairsBelow x y k n) with even | odd
      · simp [even, Nat.add_mod]
      · simp [odd, Nat.add_mod]

theorem pairsBelow_of_lt {k n : Nat} (below : k < n) : pairsBelow x y k n =
      (List.range (k + 1)).countP fun i => x.getLsbD i && y.getLsbD (k - i) := by
  induction n, below using Nat.le_induction with
  | base =>
    unfold pairsBelow
    apply List.countP_congr
    intro i member
    have le : i ≤ k := by
      rw [List.mem_range] at member
      omega
    simp [le]
  | succ n less ih =>
    rw [pairsBelow_succ, ih]
    simp [show ¬n ≤ k by omega]

theorem getLsbD_carryless_low
    {k : Nat} (inside : k < w) : (carryless x y w).getLsbD k = carrylessBit x y k := by
  rw [getLsbD_carryless x y w inside, pairsBelow_of_lt x y inside, carrylessBit]

end

section

variable (b x : Nat)

/-- The `n` low digits in the other order. -/
def reverseDigits : Nat → Nat
  | 0 => 0
  | n + 1 => reverseDigits n * b + x / b ^ n % b

variable {b x}

theorem reverseDigits_lt (positive : 0 < b) (n : Nat) : reverseDigits b x n < b ^ n := by
  induction n with
  | zero => simp [reverseDigits]
  | succ n ih =>
    have digit : x / b ^ n % b < b := Nat.mod_lt _ positive
    calc reverseDigits b x n * b + x / b ^ n % b < reverseDigits b x n * b + b := by omega
      _ = (reverseDigits b x n + 1) * b := by ring
      _ ≤ b ^ n * b := Nat.mul_le_mul_right b ih
      _ = b ^ (n + 1) := (pow_succ b n).symm

theorem digit_reverseDigits {i n : Nat} (positive : 0 < b)
    (inside : i < n) : reverseDigits b x n / b ^ i % b = x / b ^ (n - 1 - i) % b := by
  induction n generalizing i with
  | zero => omega
  | succ n ih =>
    have digit : x / b ^ n % b < b := Nat.mod_lt _ positive
    cases i with
    | zero =>
      rw [reverseDigits, pow_zero, Nat.div_one, Nat.mul_comm, Nat.mul_add_mod,
        Nat.mod_eq_of_lt digit]
      rfl
    | succ i =>
      have rest : reverseDigits b x (n + 1) / b ^ (i + 1) = reverseDigits b x n / b ^ i := by
        rw [reverseDigits, pow_succ', ← Nat.div_div_eq_div_mul, Nat.mul_comm,
          Nat.mul_add_div positive, Nat.div_eq_of_lt digit, Nat.add_zero]
      rw [rest, ih (by omega), show n + 1 - 1 - (i + 1) = n - 1 - i by omega]

theorem eq_of_digits {y n : Nat} (boundX : x < b ^ n) (boundY : y < b ^ n)
    (digits : ∀ i < n, x / b ^ i % b = y / b ^ i % b) : x = y := by
  induction n generalizing x y with
  | zero =>
    rw [pow_zero] at boundX boundY
    omega
  | succ n ih =>
    have high : x / b = y / b := by
      apply ih
      · exact Nat.div_lt_of_lt_mul (by rwa [← pow_succ'])
      · exact Nat.div_lt_of_lt_mul (by rwa [← pow_succ'])
      · intro i inside
        rw [Nat.div_div_eq_div_mul, Nat.div_div_eq_div_mul, ← pow_succ']
        exact digits (i + 1) (by omega)
    have low : x % b = y % b := by simpa using digits 0 (by omega)
    rw [← Nat.div_add_mod x b, ← Nat.div_add_mod y b, high, low]

theorem reverseDigits_reverseDigits {n : Nat} (positive : 0 < b)
    (bound : x < b ^ n) : reverseDigits b (reverseDigits b x n) n = x := by
  apply eq_of_digits (reverseDigits_lt positive n) bound
  intro i inside
  rw [digit_reverseDigits positive inside, digit_reverseDigits positive (by omega),
    show n - 1 - (n - 1 - i) = i by omega]

end

end AliveNext.Smt
