import AliveNext.Smt.Bits
import AliveNext.Smt.Compose

/-!
# Bit manipulation

Each operator is a loop over the bits of a term. The counters and the shift
amounts have the width of the operand, which is less than two to its power.
-/

namespace AliveNext.Smt

namespace Expr

variable (z : Z3)

/-- `extract(i, i) == 1`. -/
def bitIsOne (e : Expr) (i : Nat) : Expr :=
  let bit := extract z e i i 3
  cmpEq z bit (mkUInt 1 bit.bits)

def log2Rec (e : Expr) (bw : Nat) : Nat → Expr
  | 0 => mkUInt 0 bw
  | idx + 1 => mkIf z (bitIsOne z e (idx + 1)) (mkUInt (idx + 1) bw) (log2Rec e bw idx)

def log2 (e : Expr) (bwOutput : Nat) : Expr := log2Rec z e bwOutput (e.bits - 1)

def reversePieces (e : Expr) (length : Nat) : Expr :=
  forRange 1 (e.bits / length)
    (fun res i => concat z res (extract z e ((i + 1) * length - 1) (i * length) 3))
    (extract z e (length - 1) 0 3)

def bswap (e : Expr) : Expr := reversePieces z e 8

def bitreverse (e : Expr) : Expr := reversePieces z e 1

def cttz (e valZero : Expr) : Expr :=
  (List.range e.bits).foldr (fun i cond => mkIf z (bitIsOne z e i) (mkUInt i e.bits) cond) valZero

def ctlz (e : Expr) : Expr :=
  let nbits := e.bits
  forRange 0 nbits (fun cond i => mkIf z (bitIsOne z e i) (mkUInt (nbits - 1 - i) nbits) cond)
    (mkUInt nbits nbits)

/-- `extract(i, i).zext(nbits - 1)`. -/
def widenedBit (e : Expr) (i : Nat) : Expr := zext z (extract z e i i 3) (e.bits - 1)

def ctpop (e : Expr) : Expr :=
  let nbits := e.bits
  forRange 0 nbits (fun res i => add z res (widenedBit z e i)) (mkUInt 0 nbits)

def clmul (a b : Expr) : Expr :=
  let nbits := a.bits
  forRange 0 nbits
    (fun res i => bitXor z res
      (bitAnd z (sext z (extract z a i i 3) (nbits - 1)) (shl z b (mkUInt i nbits))))
    (mkUInt 0 nbits)

def pextStep (e mask : Expr) (state : Expr × Expr) (i : Nat) : Expr × Expr :=
  let active := widenedBit z mask i
  (bitOr z state.1 (shl z (bitAnd z active (widenedBit z e i)) state.2), add z state.2 active)

def pext (e mask : Expr) : Expr :=
  (forRange 0 e.bits (pextStep z e mask) (mkUInt 0 e.bits, mkUInt 0 e.bits)).1

def pdepStep (e mask : Expr) (state : Expr × Expr) (i : Nat) : Expr × Expr :=
  let active := widenedBit z mask i
  (bitOr z state.1 (shl z (bitAnd z active (lshr z e state.2)) (mkUInt i e.bits)),
    add z state.2 active)

def pdep (e mask : Expr) : Expr :=
  (forRange 0 e.bits (pdepStep z e mask) (mkUInt 0 e.bits, mkUInt 0 e.bits)).1

namespace Denotes

variable {a b e : Expr} {w : Nat} {parts : List Expr} {x y : Model → BitVec w}

variable {i bw count : Nat}

section

variable (denotes : e.Denotes w parts x) (inside : i < w)

include denotes inside

theorem bitIsOne : (bitIsOne z e i).Decides parts fun M => (x M).getLsbD i = true := by
  have bit := denotes.bit z 3 inside
  unfold Expr.bitIsOne
  dsimp only
  rw [bit.sorted.bits_eq]
  apply (bit.cmpEq z (denotes_mkUInt Nat.one_pos 1)).congr
  intro M _
  cases (x M).getLsbD i <;> decide

theorem widenedBit : (widenedBit z e i).Denotes w parts fun M => bitAt (x M) i := by
  have positive := denotes.sorted.pos
  have wide := ((denotes.bit z 3 inside).computes.zext z (w - 1))
  rw [show 1 + (w - 1) = w by omega] at wide
  rw [Expr.widenedBit, denotes.sorted.bits_eq]
  apply wide.denotes
  intro M _
  have small : ((x M).getLsbD i).toNat < 2 ^ w :=
    (Bool.toNat_lt _).trans_le (Nat.le_self_pow positive.ne' 2)
  rw [bitAt, BitVec.toNat_ofNat, BitVec.toNat_ofBool, Nat.mod_eq_of_lt small]

theorem sextBit : (Expr.sext z (Expr.extract z e i i 3) (w - 1)).Denotes w parts fun M =>
      if (x M).getLsbD i then BitVec.allOnes w else 0#w := by
  have positive := denotes.sorted.pos
  have wide := ((denotes.bit z 3 inside).sext z (w - 1)).computes
  rw [show 1 + (w - 1) = w by omega] at wide
  apply wide.denotes
  intro M _
  congr 1
  apply BitVec.eq_of_getLsbD_eq
  intro j below
  rw [BitVec.getLsbD_signExtend]
  cases (x M).getLsbD i with
  | false => simp
  | true => cases j <;> simp [below, BitVec.msb]

end

theorem log2Rec (idx : Nat) (denotes : e.Denotes w parts x) (positive : 0 < bw) (inside : idx < w) :
    (log2Rec z e bw idx).Denotes bw parts fun M =>
      BitVec.ofNat bw (Nat.log2 ((x M).toNat % 2 ^ (idx + 1))) := by
  induction idx with
  | zero =>
    apply (denotes_mkUInt positive 0).congr
    intro M _
    have bit := Nat.mod_two_eq_zero_or_one (x M).toNat
    rw [Nat.zero_add, pow_one]
    rcases bit with zero | one
    · rw [zero, Nat.log2_zero]
    · rw [one, show Nat.log2 1 = 0 by decide]
  | succ idx ih =>
    apply ((denotes_mkUInt positive (idx + 1)).mkIf z (ih (by omega))
      (denotes.bitIsOne z inside)).congr
    intro M _
    by_cases set : (x M).getLsbD (idx + 1) = true
    · rw [if_pos set, log2_mod_of_testBit set]
    · rw [if_neg set, mod_of_testBit_eq_false (i := idx + 1) (Bool.eq_false_iff.2 set)]

theorem log2 (denotes : e.Denotes w parts x) (positive : 0 < bw) :
    (log2 z e bw).Denotes bw parts fun M => BitVec.ofNat bw (Nat.log2 (x M).toNat) := by
  have some_bit := denotes.sorted.pos
  rw [Expr.log2, denotes.sorted.bits_eq]
  apply (denotes.log2Rec z (w - 1) positive (by omega)).congr
  intro M _
  rw [Nat.sub_add_cancel some_bit, Nat.mod_eq_of_lt (x M).isLt]

theorem reversePieces
    {length : Nat} (denotes : e.Denotes w parts x) (divides : w = length * count) :
    (reversePieces z e length).Computes w parts fun M =>
      reverseDigits (2 ^ length) (x M).toNat count := by
  have positive := denotes.sorted.pos
  obtain ⟨some_bit, some_piece⟩ : 0 < length ∧ 0 < count := by
    rw [divides] at positive
    exact CanonicallyOrderedAdd.mul_pos.1 positive
  have pieces : w / length = count := by rw [divides, Nat.mul_div_cancel_left _ some_bit]
  rw [Expr.reversePieces, denotes.sorted.bits_eq, pieces]
  subst divides
  apply forRange_invariant (fun i (res : Expr) => res.Computes (length * i) parts fun M =>
    reverseDigits (2 ^ length) (x M).toNat i) some_piece
  · have piece := denotes.computes.extract z 3 (Nat.zero_le (length - 1))
      (show length - 1 < length * count from
        (Nat.sub_lt some_bit Nat.one_pos).trans_le (Nat.le_mul_of_pos_right _ some_piece))
    rw [show length - 1 - 0 + 1 = length * 1 by omega] at piece
    apply piece.congr
    intro M _
    rw [reverseDigits, reverseDigits, Nat.zero_mul, Nat.zero_add, pow_zero, pow_zero, Nat.mul_one]
  · intro i res above below ih
    have next : (i + 1) * length = i * length + length := Nat.succ_mul i length
    have last : (i + 1) * length ≤ length * count := by
      rw [Nat.mul_comm length]
      exact Nat.mul_le_mul_right length below
    have piece := denotes.computes.extract z 3
      (show i * length ≤ (i + 1) * length - 1 by omega) (by omega)
    rw [show (i + 1) * length - 1 - i * length + 1 = length by omega] at piece
    apply (ih.concat z piece).congr
    intro M _
    rw [reverseDigits, ← pow_mul, Nat.mul_comm length i]

theorem foldr_bitIsOne (places : List Nat) (denotes : e.Denotes w parts x)
    (valZero : a.Denotes w parts y) (inside : ∀ i ∈ places, i < w) :
    (places.foldr (fun i cond => Expr.mkIf z (Expr.bitIsOne z e i) (mkUInt i w) cond) a).Denotes
      w parts fun M => (places.find? (x M).getLsbD).elim (y M) (BitVec.ofNat w) := by
  induction places with
  | nil => exact valZero
  | cons i places ih =>
    have rest := ih fun j member => inside j (List.mem_cons_of_mem i member)
    apply ((denotes_mkUInt denotes.sorted.pos i).mkIf z rest
      (denotes.bitIsOne z (inside i List.mem_cons_self))).congr
    intro M _
    by_cases set : (x M).getLsbD i = true
    · rw [if_pos set, List.find?_cons_of_pos set]
      rfl
    · rw [if_neg set, List.find?_cons_of_neg set]

theorem cttz (denotes : e.Denotes w parts x) (valZero : a.Denotes w parts y) :
    (cttz z e a).Denotes w parts fun M => if x M = 0#w then y M else (x M).ctz := by
  rw [Expr.cttz, denotes.sorted.bits_eq]
  apply (foldr_bitIsOne z (List.range w) denotes valZero fun i => List.mem_range.1).congr
  intro M _
  rw [find?_range_getLsbD]
  by_cases zero : x M = 0#w
  · rw [if_pos zero, if_pos zero]
    rfl
  · rw [if_neg zero, if_neg zero, Option.elim_some, BitVec.ofNat_toNat, BitVec.setWidth_eq]

theorem ctpop (denotes : e.Denotes w parts x) :
    (ctpop z e).Denotes w parts fun M => (x M).cpop := by
  have positive := denotes.sorted.pos
  rw [Expr.ctpop, denotes.sorted.bits_eq]
  apply forRange_invariant (fun i (res : Expr) =>
    res.Denotes w parts fun M => BitVec.ofNat w (onesBelow (x M) i)) (Nat.zero_le w)
  · exact denotes_mkUInt positive 0
  · intro i res _ inside ih
    apply (ih.add z (denotes.widenedBit z inside)).congr
    intro M _
    rw [onesBelow_succ, bitAt, BitVec.ofNat_add_ofNat]

theorem ctlz (denotes : e.Denotes w parts x) : (ctlz z e).Denotes w parts fun M => (x M).clz := by
  have positive := denotes.sorted.pos
  rw [Expr.ctlz, denotes.sorted.bits_eq]
  have bits : ∀ M, (x M).clz = if w = 0 then BitVec.ofNat w w else (x M).clzAuxRec (w - 1) := by
    intro M
    rw [if_neg positive.ne', BitVec.clz]
  -- the zeros above the bits that the loop has seen
  apply (forRange_invariant (fun i (cond : Expr) => cond.Denotes w parts fun M =>
    if i = 0 then BitVec.ofNat w w else (x M).clzAuxRec (i - 1)) (Nat.zero_le w) ?_ ?_).congr
      fun M _ => (bits M).symm
  · exact denotes_mkUInt positive w
  · intro i cond _ inside ih
    apply ((denotes_mkUInt positive (w - 1 - i)).mkIf z ih (denotes.bitIsOne z inside)).congr
    intro M _
    cases i with
    | zero => rfl
    | succ i => rfl

theorem clmul (first : a.Denotes w parts x) (second : b.Denotes w parts y) :
    (clmul z a b).Denotes w parts fun M => carryless (x M) (y M) w := by
  have positive := first.sorted.pos
  rw [Expr.clmul, first.sorted.bits_eq]
  apply forRange_invariant (fun i (res : Expr) =>
    res.Denotes w parts fun M => carryless (x M) (y M) i) (Nat.zero_le w)
  · exact denotes_mkUInt positive 0
  · intro i res _ inside ih
    have row := (first.sextBit z inside).bitAnd z (second.shl z (denotes_mkUInt positive i))
    apply (ih.bitXor z row).congr
    intro M _
    have small : i < 2 ^ w := inside.trans Nat.lt_two_pow_self
    rw [carryless, BitVec.shiftLeft_eq', BitVec.toNat_ofNat, Nat.mod_eq_of_lt small]

theorem toNat_onesBelow (m : BitVec w)
    (inside : i ≤ w) : (BitVec.ofNat w (onesBelow m i)).toNat = onesBelow m i := by
  have few := onesBelow_le m i
  rw [BitVec.toNat_ofNat]
  exact Nat.mod_eq_of_lt ((few.trans inside).trans_lt Nat.lt_two_pow_self)

variable (denotes : e.Denotes w parts x)

include denotes

theorem pext (mask : b.Denotes w parts y) :
    (pext z e b).Denotes w parts fun M => gather (x M) (y M) w := by
  have positive := denotes.sorted.pos
  rw [Expr.pext, denotes.sorted.bits_eq]
  have loop := @forRange_invariant _ 0 w (pextStep z e b)
    (mkUInt 0 w, mkUInt 0 w) (fun i state =>
    state.1.Denotes w parts (fun M => gather (x M) (y M) i) ∧
      state.2.Denotes w parts fun M => BitVec.ofNat w (onesBelow (y M) i)) (Nat.zero_le w)
    ⟨denotes_mkUInt positive 0, denotes_mkUInt positive 0⟩ ?_
  · exact loop.1
  · rintro i state - inside ⟨result, amount⟩
    have active := mask.widenedBit z inside
    refine ⟨(result.bitOr z ((active.bitAnd z (denotes.widenedBit z inside)).shl z amount)).congr
      ?_, (amount.add z active).congr ?_⟩
    · intro M _
      rw [gather, BitVec.shiftLeft_eq', toNat_onesBelow _ inside.le]
    · intro M _
      rw [onesBelow_succ, bitAt, BitVec.ofNat_add_ofNat]

theorem pdep (mask : b.Denotes w parts y) :
    (pdep z e b).Denotes w parts fun M => scatter (x M) (y M) w := by
  have positive := denotes.sorted.pos
  rw [Expr.pdep, denotes.sorted.bits_eq]
  have loop := @forRange_invariant _ 0 w (pdepStep z e b)
    (mkUInt 0 w, mkUInt 0 w) (fun i state =>
    state.1.Denotes w parts (fun M => scatter (x M) (y M) i) ∧
      state.2.Denotes w parts fun M => BitVec.ofNat w (onesBelow (y M) i)) (Nat.zero_le w)
    ⟨denotes_mkUInt positive 0, denotes_mkUInt positive 0⟩ ?_
  · exact loop.1
  · rintro i state - inside ⟨result, amount⟩
    have active := mask.widenedBit z inside
    have place : (mkUInt i e.bits).Denotes w parts fun _ => BitVec.ofNat w i := by
      rw [denotes.sorted.bits_eq]
      exact denotes_mkUInt positive i
    refine ⟨(result.bitOr z ((active.bitAnd z (denotes.lshr z amount)).shl z place)).congr ?_,
      (amount.add z active).congr ?_⟩
    · intro M _
      have small : i < 2 ^ w := inside.trans Nat.lt_two_pow_self
      rw [scatter, BitVec.shiftLeft_eq', BitVec.ushiftRight_eq', toNat_onesBelow _ inside.le,
        BitVec.toNat_ofNat, Nat.mod_eq_of_lt small]
    · intro M _
      rw [onesBelow_succ, bitAt, BitVec.ofNat_add_ofNat]

theorem bswap (bytes : w = 8 * count) :
    (bswap z e).Computes w parts fun M => reverseDigits (2 ^ 8) (x M).toNat count :=
  denotes.reversePieces z bytes

theorem bswap_bswap (bytes : w = 8 * count) :
    (Expr.bswap z (Expr.bswap z e)).Denotes w parts x := by
  have bound : ∀ M, (x M).toNat < (2 ^ 8) ^ count := by
    intro M
    rw [← pow_mul, ← bytes]
    exact (x M).isLt
  have once : (Expr.bswap z e).Denotes w parts fun M =>
      BitVec.ofNat w (reverseDigits (2 ^ 8) (x M).toNat count) := by
    apply (denotes.bswap z bytes).denotes
    intro M _
    have fits := reverseDigits_lt (x := (x M).toNat) (Nat.two_pow_pos 8) count
    rw [← pow_mul, ← bytes] at fits
    rw [BitVec.toNat_ofNat, Nat.mod_eq_of_lt fits]
  apply (once.bswap z bytes).denotes
  intro M safe
  rw [← once.computes.value M safe, (denotes.bswap z bytes).value M safe]
  exact reverseDigits_reverseDigits (Nat.two_pow_pos 8) (bound M)

theorem bitreverse : (bitreverse z e).Denotes w parts fun M => (x M).reverse := by
  have bits : w = 1 * w := (Nat.one_mul w).symm
  have computes := denotes.reversePieces z bits
  apply computes.denotes
  intro M _
  apply eq_of_digits (reverseDigits_lt Nat.two_pos w) (x M).reverse.isLt
  intro i inside
  rw [digit_reverseDigits Nat.two_pos inside]
  have same : (x M).reverse.toNat.testBit i = (x M).toNat.testBit (w - 1 - i) := by
    rw [BitVec.testBit_toNat, BitVec.getLsbD_reverse, BitVec.getMsbD_eq_getLsbD,
      BitVec.testBit_toNat]
    simp [inside]
  rw [Nat.testBit_eq_decide_div_mod_eq, Nat.testBit_eq_decide_div_mod_eq, decide_eq_decide] at same
  have left := Nat.mod_two_eq_zero_or_one ((x M).reverse.toNat / 2 ^ i)
  have right := Nat.mod_two_eq_zero_or_one ((x M).toNat / 2 ^ (w - 1 - i))
  omega

end Denotes

/-- Every operator computes what its name says, in the models in which the
operands divide by zero nowhere. -/
theorem bit_construction
    {a b : Expr} {w : Nat} (left : a.HasSort (.bv w)) (right : b.HasSort (.bv w)) :
    (w % 16 = 0 →
      (∀ M, Safe [a] M → ∀ i < w / 8,
        (bswap z a).toNat M / 256 ^ i % 256 = a.toNat M / 256 ^ (w / 8 - 1 - i) % 256) ∧
      (bswap z (bswap z a)).Denotes w [a] fun M => a.bv M w) ∧
    (bitreverse z a).Denotes w [a] (fun M => (a.bv M w).reverse) ∧
    (bitreverse z (bitreverse z a)).Denotes w [a] (fun M => a.bv M w) ∧
    (cttz z a b).Denotes w [a, b]
      (fun M => if a.bv M w = 0#w then b.bv M w else (a.bv M w).ctz) ∧
    (ctlz z a).Denotes w [a] (fun M => (a.bv M w).clz) ∧
    (ctpop z a).Denotes w [a] (fun M => (a.bv M w).cpop) ∧
    (∀ bw, 0 < bw → ∀ M, Safe [a] M → Nat.log2 (a.toNat M) < 2 ^ bw →
      (log2 z a bw).toNat M = Nat.log2 (a.toNat M)) ∧
    ∀ M, Safe [a, b] M →
      (∀ k < w, ((clmul z a b).bv M w).getLsbD k = carrylessBit (a.bv M w) (b.bv M w) k) ∧
      (∀ k, (b.bv M w).getLsbD k = true →
        ((pext z a b).bv M w).getLsbD (onesBelow (b.bv M w) k) = (a.bv M w).getLsbD k) ∧
      (∀ j ≥ (b.bv M w).cpop.toNat, ((pext z a b).bv M w).getLsbD j = false) ∧
      (∀ j, ((pdep z a b).bv M w).getLsbD j =
        ((b.bv M w).getLsbD j && (a.bv M w).getLsbD (onesBelow (b.bv M w) j))) ∧
      (pdep z (pext z a b) b).bv M w = a.bv M w &&& b.bv M w ∧
      (pext z (pdep z a b) b).toNat M = a.toNat M % 2 ^ (b.bv M w).cpop.toNat := by
  have alone : a.Denotes w [a] fun M => a.bv M w := .refl left
  have first : a.Denotes w [a, b] fun M => a.bv M w := alone.mono (by simp)
  have second : b.Denotes w [a, b] fun M => b.bv M w := (Denotes.refl right).mono (by simp)
  refine ⟨fun whole => ⟨fun M safe i inside => ?_, ?_⟩, alone.bitreverse z, ?_,
    first.cttz z second, alone.ctlz z, alone.ctpop z, ?_, fun M safe => ?_⟩
  · rw [(alone.bswap z (show w = 8 * (w / 8) by omega)).value M safe, left.toNat_eq M]
    exact digit_reverseDigits (Nat.two_pow_pos 8) inside
  · exact alone.bswap_bswap z (show w = 8 * (w / 8) by omega)
  · exact ((alone.bitreverse z).bitreverse z).congr fun M _ => BitVec.reverse_reverse_eq
  · intro bw positive M safe fits
    have denotes := alone.log2 z positive
    rw [denotes.sorted.toNat_eq M, denotes.value M safe, BitVec.toNat_ofNat,
      ← left.toNat_eq M, Nat.mod_eq_of_lt fits]
  · have gathered := first.pext z second
    have scattered := first.pdep z second
    have ones : (b.bv M w).cpop.toNat = onesBelow (b.bv M w) w := BitVec.toNat_cpop _
    refine ⟨fun k inside => ?_, fun k set => ?_, fun j above => ?_, fun j => ?_, ?_, ?_⟩
    · rw [(first.clmul z second).value M safe]
      exact getLsbD_carryless_low _ _ inside
    · rw [gathered.value M safe]
      exact getLsbD_gather_onesBelow set
    · rw [gathered.value M safe, Bool.eq_false_iff, Ne, getLsbD_gather (le_refl w)]
      rintro ⟨k, inside, set, -, rfl⟩
      have less := onesBelow_lt inside set
      omega
    · rw [scattered.value M safe, Bool.eq_iff_iff, getLsbD_scatter (le_refl w), Bool.and_eq_true]
      exact ⟨fun set => set.2, fun set => ⟨BitVec.lt_of_getLsbD set.1, set⟩⟩
    · rw [(gathered.pdep z second).value M safe]
      exact scatter_gather
    · have denotes := scattered.pext z second
      rw [denotes.sorted.toNat_eq M, denotes.value M safe, ones, left.toNat_eq M]
      exact toNat_gather_scatter

theorem bit_construction_swap :
    (bswap Z3.reference (bswap Z3.reference (.var "x" (.bv 48)))).Denotes 48
      [.var "x" (.bv 48)] fun M => bv (.var "x" (.bv 48)) M 48 :=
  ((@bit_construction Z3.reference (.var "x" (.bv 48)) (.var "y" (.bv 48)) 48 ⟨rfl, rfl⟩
    ⟨rfl, rfl⟩).1 rfl).2

/-- A divisor that is zero hides the only bit of a remainder. -/
theorem cttz_of_division_by_zero :
    ¬∀ (a b : Expr) (w : Nat) (M : Model), a.HasSort (.bv w) → b.HasSort (.bv w) →
      (cttz Z3.reference a b).bv M w =
        if a.bv M w = 0#w then b.bv M w else (a.bv M w).ctz := by
  intro claim
  have values := claim oneBitRemainder (.num 1 1) 1 divisionByZero ⟨rfl, rfl⟩ ⟨rfl, rfl⟩
  have known : cttz Z3.reference oneBitRemainder (.num 1 1) = .num 1 1 := rfl
  rw [known, bv_num] at values
  exact absurd values (by decide)

end Expr

end AliveNext.Smt
