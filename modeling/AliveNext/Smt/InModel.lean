import AliveNext.Smt.BitTricks
import AliveNext.Smt.Lanes
import AliveNext.Smt.Saturate

/-!
# Integer operators in one model

Minima, maxima and absolute values, and what the other operators give for operands whose values
are known.
-/

namespace AliveNext.Smt

namespace Expr

variable (z : Z3)

def umin (a b : Expr) : Expr := mkIf z (ule z a b) a b

def umax (a b : Expr) : Expr := mkIf z (uge z a b) a b

def smin (a b : Expr) : Expr := mkIf z (sle z a b) a b

def smax (a b : Expr) : Expr := mkIf z (sge z a b) a b

def abs (a : Expr) : Expr :=
  mkIf z (sge z a (mkUInt 0 a.bits)) a (mul z (mkInt (-1) a.bits) a)

namespace Is

variable {a b c t : Expr} {M : Model} {v w : Nat} {x y : BitVec w}

theorem denotes (is : t.Is M w x) : t.Denotes w [t] fun M => t.bv M w := .refl is.sorted

theorem safe_self (is : t.Is M w x) : Safe [t] M := safe_single.2 is.safe

theorem unary {f : BitVec w → BitVec v} (is : a.Is M w x)
    (denotes : t.Denotes v [a] fun M => f (a.bv M w)) : t.Is M v (f x) := by
  have whole := denotes.is is.safe_self
  rwa [is.value] at whole

theorem binary {u : Nat} {y : BitVec v} {f : BitVec w → BitVec v → BitVec u} (first : a.Is M w x)
    (second : b.Is M v y)
    (denotes : t.Denotes u [a, b] fun M => f (a.bv M w) (b.bv M v)) : t.Is M u (f x y) := by
  have whole := denotes.is (first.denotes_pair second).2.2
  rwa [first.value, second.value] at whole

theorem condition
    {y : BitVec v} {p : BitVec w → BitVec v → Prop} (first : a.Is M w x) (second : b.Is M v y)
    (decides : t.Decides [a, b] fun M => p (a.bv M w) (b.bv M v)) : t.Holds M (p x y) := by
  have whole := decides.holds (first.denotes_pair second).2.2
  rwa [first.value, second.value] at whole

theorem num (positive : 0 < w) (n : Nat) : (mkUInt n w).Is M w (BitVec.ofNat w n) := by
  have denotes : (mkUInt n w).Denotes w [] fun _ => BitVec.ofNat w n := denotes_mkUInt positive n
  exact denotes.is (List.forall_mem_nil _)

theorem allOnes (positive : 0 < w) : (mkInt (-1) w).Is M w (BitVec.allOnes w) := by
  have denotes : (mkInt (-1) w).Denotes w [] fun _ => BitVec.allOnes w :=
    denotes_mkInt_neg_one positive
  exact denotes.is (List.forall_mem_nil _)

theorem intMin (positive : 0 < w) : (intSMin z w).Is M w (BitVec.intMin w) := by
  have denotes : (intSMin z w).Denotes w [] fun _ => BitVec.intMin w := denotes_intSMin z positive
  exact denotes.is (List.forall_mem_nil _)

theorem mkIf {p : Prop} [Decidable p] (cond : c.Holds M p) (first : a.Is M w x)
    (second : b.Is M w y) : (Expr.mkIf z c a b).Is M w (if p then x else y) := by
  have parts : Safe [c, a, b] M := safe_triple.2 ⟨cond.safe, first.safe, second.safe⟩
  have left : a.Denotes w [c, a, b] fun M => a.bv M w := first.denotes.mono (by simp)
  have right : b.Denotes w [c, a, b] fun M => b.bv M w := second.denotes.mono (by simp)
  have whole := (left.mkIf z right (cond.decides.mono (by simp))).is parts
  rw [first.value, second.value] at whole
  by_cases holds : p
  · rwa [if_pos (cond.truth.2 holds), ← if_pos (c := p) holds (t := x) (e := y)] at whole
  · rwa [if_neg (mt cond.truth.1 holds), ← if_neg (c := p) holds (t := x) (e := y)] at whole

section

variable (first : a.Is M w x) (second : b.Is M w y)

include first

include second

theorem add : (Expr.add z a b).Is M w (x + y) := by
  obtain ⟨left, right, -⟩ := first.denotes_pair second
  exact first.binary second (f := fun x y => x + y) (left.add z right)

theorem sub : (Expr.sub z a b).Is M w (x - y) := by
  obtain ⟨left, right, -⟩ := first.denotes_pair second
  exact first.binary second (f := fun x y => x - y) (left.sub z right)

theorem mul : (Expr.mul z a b).Is M w (x * y) := by
  obtain ⟨left, right, -⟩ := first.denotes_pair second
  exact first.binary second (f := fun x y => x * y) (left.mul z right)

theorem bitAnd : (Expr.bitAnd z a b).Is M w (x &&& y) := by
  obtain ⟨left, right, -⟩ := first.denotes_pair second
  exact first.binary second (f := fun x y => x &&& y) (left.bitAnd z right)

theorem bitOr : (Expr.bitOr z a b).Is M w (x ||| y) := by
  obtain ⟨left, right, -⟩ := first.denotes_pair second
  exact first.binary second (f := fun x y => x ||| y) (left.bitOr z right)

theorem bitXor : (Expr.bitXor z a b).Is M w (x ^^^ y) := by
  obtain ⟨left, right, -⟩ := first.denotes_pair second
  exact first.binary second (f := fun x y => x ^^^ y) (left.bitXor z right)

theorem shl : (Expr.shl z a b).Is M w (x <<< y) := by
  obtain ⟨left, right, -⟩ := first.denotes_pair second
  exact first.binary second (f := fun x y => x <<< y) (left.shl z right)

theorem ashr : (Expr.ashr z a b).Is M w (x.sshiftRight' y) := by
  obtain ⟨left, right, -⟩ := first.denotes_pair second
  exact first.binary second (f := fun x y => x.sshiftRight' y) (left.ashr z right)

theorem lshr : (Expr.lshr z a b).Is M w (x >>> y) := by
  obtain ⟨left, right, -⟩ := first.denotes_pair second
  exact first.binary second (f := fun x y => x >>> y) (left.lshr z right)

theorem ule : (Expr.ule z a b).Holds M (x.toNat ≤ y.toNat) := by
  obtain ⟨left, right, -⟩ := first.denotes_pair second
  exact first.condition second (p := fun x y => x.toNat ≤ y.toNat) (left.ule z right)

theorem uge : (Expr.uge z a b).Holds M (y.toNat ≤ x.toNat) := second.ule z first

theorem ult : (Expr.ult z a b).Holds M (x.toNat < y.toNat) := by
  have decides := ult_decides z first.sorted second.sorted
  have holds := decides.holds (first.denotes_pair second).2.2
  rwa [first.toNat_eq, second.toNat_eq] at holds

theorem sle : (Expr.sle z a b).Holds M (x.toInt ≤ y.toInt) := by
  obtain ⟨left, right, -⟩ := first.denotes_pair second
  exact first.condition second (p := fun x y => x.toInt ≤ y.toInt) (left.sle z right)

theorem sge : (Expr.sge z a b).Holds M (y.toInt ≤ x.toInt) := by
  obtain ⟨left, right, -⟩ := first.denotes_pair second
  exact first.condition second (p := fun x y => y.toInt ≤ x.toInt) (left.sge z right)

theorem slt : (Expr.slt z a b).Holds M (x.toInt < y.toInt) :=
  first.condition second (p := fun x y => x.toInt < y.toInt)
    (slt_decides z first.sorted second.sorted)

theorem umin : (Expr.umin z a b).Is M w (if x.toNat ≤ y.toNat then x else y) :=
  mkIf z (first.ule z second) first second

theorem umax : (Expr.umax z a b).Is M w (if y.toNat ≤ x.toNat then x else y) :=
  mkIf z (first.uge z second) first second

theorem smin : (Expr.smin z a b).Is M w (if x.toInt ≤ y.toInt then x else y) :=
  mkIf z (first.sle z second) first second

theorem smax : (Expr.smax z a b).Is M w (if y.toInt ≤ x.toInt then x else y) :=
  mkIf z (first.sge z second) first second

end

theorem abs (is : a.Is M w x) : (Expr.abs z a).Is M w (BitVec.ofInt w |x.toInt|) := by
  have positive := is.sorted.pos
  have zero : (mkUInt 0 a.bits).Is M w 0#w := by
    rw [is.sorted.bits_eq]
    exact num positive 0
  have ones : (mkInt (-1) a.bits).Is M w (BitVec.allOnes w) := by
    rw [is.sorted.bits_eq]
    exact allOnes positive
  have whole := mkIf z (is.sge z zero) is (ones.mul z is)
  have value : (if (0#w).toInt ≤ x.toInt then x else BitVec.allOnes w * x) =
      BitVec.ofInt w |x.toInt| := by
    rw [BitVec.toInt_zero]
    split
    · next nonneg => rw [abs_of_nonneg nonneg, BitVec.ofInt_toInt]
    · next negative =>
      rw [abs_of_neg (not_le.1 negative), allOnes_mul, BitVec.ofInt_neg, BitVec.ofInt_toInt]
  unfold Expr.abs
  rwa [value] at whole

theorem of_denotes {parts : List Expr} {f : Model → BitVec w} (denotes : t.Denotes w parts f)
    (safe : Safe parts M) : t.Is M w (t.bv M w) :=
  ⟨denotes.sorted, denotes.safe M safe, rfl⟩

section

variable (first : a.Is M w x) (second : b.Is M w y)

include first second

theorem saddSat : ∃ s, (Expr.saddSat z a b).Is M w s ∧ s.toInt = clampS w (x.toInt + y.toInt) := by
  obtain ⟨left, right, safe⟩ := first.denotes_pair second
  have denotes := betweenBounds_denotes z ((left.sext z 1).add z (right.sext z 1))
    (left.add z right)
  have value := toInt_saddSat z first.sorted second.sorted safe
  rw [first.value, second.value] at value
  have shape : Expr.saddSat z a b = betweenBounds z (Expr.add z (Expr.sext z a 1) (Expr.sext z b 1))
      (Expr.add z a b) w := by
    rw [Expr.saddSat, first.sorted.bits_eq]
  rw [← shape] at denotes
  exact ⟨_, of_denotes denotes safe, value⟩

theorem ssubSat : ∃ s, (Expr.ssubSat z a b).Is M w s ∧ s.toInt = clampS w (x.toInt - y.toInt) := by
  obtain ⟨left, right, safe⟩ := first.denotes_pair second
  have denotes := betweenBounds_denotes z ((left.sext z 1).sub z (right.sext z 1))
    (left.sub z right)
  have value := toInt_ssubSat z first.sorted second.sorted safe
  rw [first.value, second.value] at value
  have shape : Expr.ssubSat z a b = betweenBounds z (Expr.sub z (Expr.sext z a 1) (Expr.sext z b 1))
      (Expr.sub z a b) w := by
    rw [Expr.ssubSat, first.sorted.bits_eq]
  rw [← shape] at denotes
  exact ⟨_, of_denotes denotes safe, value⟩

theorem uaddSat : ∃ s, (Expr.uaddSat z a b).Is M w s ∧
    (s.toNat : Int) = clampU w (x.toNat + y.toNat) := by
  obtain ⟨left, right, safe⟩ := first.denotes_pair second
  have denotes := (left.add z right).mkIf z (denotes_mkInt_neg_one first.sorted.pos)
    (addNoUOverflow_decides z first.sorted second.sorted)
  have value := toNat_uaddSat z first.sorted second.sorted safe
  have shape : Expr.uaddSat z a b = Expr.mkIf z (addNoUOverflow z a b) (Expr.add z a b)
      (mkInt (-1) w) := by
    rw [Expr.uaddSat, intUMax, first.sorted.bits_eq]
  rw [← shape] at denotes
  have is := of_denotes denotes safe
  rw [first.toNat_eq, second.toNat_eq, is.toNat_eq] at value
  exact ⟨_, is, value⟩

theorem usubSat : ∃ s, (Expr.usubSat z a b).Is M w s ∧
    (s.toNat : Int) = clampU w (x.toNat - y.toNat) := by
  obtain ⟨left, right, safe⟩ := first.denotes_pair second
  have denotes := (denotes_mkUInt first.sorted.pos 0).mkIf z (left.sub z right) (right.uge z left)
  have value := toNat_usubSat z first.sorted second.sorted safe
  have shape : Expr.usubSat z a b = Expr.mkIf z (Expr.uge z b a) (mkUInt 0 w) (Expr.sub z a b) := by
    rw [Expr.usubSat, first.sorted.bits_eq]
  rw [← shape] at denotes
  have is := of_denotes denotes safe
  rw [first.toNat_eq, second.toNat_eq, is.toNat_eq] at value
  exact ⟨_, is, value⟩

theorem sshlSat : ∃ s, (Expr.sshlSat z a b).Is M w s ∧
    (y.toNat < w → s.toInt = clampS w (x.toInt * 2 ^ y.toNat)) := by
  obtain ⟨left, right, safe⟩ := first.denotes_pair second
  have positive := first.sorted.pos
  have bound : (Expr.mkIf z (Expr.isNegative z a) (intSMin z w) (intSMax z w)).Denotes w [a, b]
      fun M => if (a.bv M w).msb = true then BitVec.intMin w else BitVec.intMax w :=
    (denotes_intSMin z positive).mkIf z (denotes_intSMax z positive) (left.isNegative z)
  have denotes := (left.shl z right).mkIf z bound
    (shlNoSOverflow_decides z first.sorted second.sorted)
  have shape : Expr.sshlSat z a b = Expr.mkIf z (shlNoSOverflow z a b) (Expr.shl z a b)
      (Expr.mkIf z (Expr.isNegative z a) (intSMin z w) (intSMax z w)) := by
    rw [Expr.sshlSat, first.sorted.bits_eq]
  rw [← shape] at denotes
  have is := of_denotes denotes safe
  refine ⟨_, is, fun inside => ?_⟩
  have value := toInt_sshlSat z first.sorted second.sorted safe
    (show b.toNat M < w by rwa [second.toNat_eq])
  rwa [first.value, second.toNat_eq] at value

theorem ushlSat : ∃ s, (Expr.ushlSat z a b).Is M w s ∧
    (y.toNat < w → (s.toNat : Int) = clampU w (x.toNat * 2 ^ y.toNat)) := by
  obtain ⟨left, right, safe⟩ := first.denotes_pair second
  have denotes := (left.shl z right).mkIf z (denotes_mkInt_neg_one first.sorted.pos)
    (shlNoUOverflow_decides z first.sorted second.sorted)
  have shape : Expr.ushlSat z a b = Expr.mkIf z (shlNoUOverflow z a b) (Expr.shl z a b)
      (mkInt (-1) w) := by
    rw [Expr.ushlSat, intUMax, first.sorted.bits_eq]
  rw [← shape] at denotes
  have is := of_denotes denotes safe
  refine ⟨_, is, fun inside => ?_⟩
  have value := toNat_ushlSat z first.sorted second.sorted safe
    (show b.toNat M < w by rwa [second.toNat_eq])
  rwa [first.toNat_eq, second.toNat_eq, is.toNat_eq] at value

end

section

variable (first : a.Is M w x) (second : b.Is M w y)

include first second

theorem addNoSOverflow : (Expr.addNoSOverflow z a b).Holds M (SFits w (x.toInt + y.toInt)) :=
  first.condition second (p := fun x y => SFits w (x.toInt + y.toInt))
    (addNoSOverflow_decides z first.sorted second.sorted)

theorem addNoUOverflow : (Expr.addNoUOverflow z a b).Holds M (x.toNat + y.toNat < 2 ^ w) := by
  have holds := (addNoUOverflow_decides z first.sorted second.sorted).holds
    (first.denotes_pair second).2.2
  rwa [first.toNat_eq, second.toNat_eq] at holds

theorem subNoSOverflow : (Expr.subNoSOverflow z a b).Holds M (SFits w (x.toInt - y.toInt)) :=
  first.condition second (p := fun x y => SFits w (x.toInt - y.toInt))
    (subNoSOverflow_decides z first.sorted second.sorted)

theorem subNoUOverflow : (Expr.subNoUOverflow z a b).Holds M (y.toNat ≤ x.toNat) := by
  have holds := (subNoUOverflow_decides z first.sorted second.sorted).holds
    (first.denotes_pair second).2.2
  rwa [first.toNat_eq, second.toNat_eq] at holds

theorem mulNoSOverflow : (Expr.mulNoSOverflow z a b).Holds M (SFits w (x.toInt * y.toInt)) :=
  first.condition second (p := fun x y => SFits w (x.toInt * y.toInt))
    (mulNoSOverflow_decides z first.sorted second.sorted)

theorem mulNoUOverflow : (Expr.mulNoUOverflow z a b).Holds M (x.toNat * y.toNat < 2 ^ w) := by
  have holds := (mulNoUOverflow_decides z first.sorted second.sorted).holds
    (first.denotes_pair second).2.2
  rwa [first.toNat_eq, second.toNat_eq] at holds

theorem shlNoSOverflow : ∃ fits : Prop, (Expr.shlNoSOverflow z a b).Holds M fits ∧
    (y.toNat < w → (fits ↔ SFits w (x.toInt * 2 ^ y.toNat))) := by
  have holds := (shlNoSOverflow_decides z first.sorted second.sorted).holds
    (first.denotes_pair second).2.2
  rw [first.value, second.toNat_eq] at holds
  exact ⟨_, holds, fun inside => shiftLeft_sshiftRight_eq_iff inside⟩

theorem shlNoUOverflow : ∃ fits : Prop, (Expr.shlNoUOverflow z a b).Holds M fits ∧
    (y.toNat < w → (fits ↔ x.toNat * 2 ^ y.toNat < 2 ^ w)) := by
  have holds := (shlNoUOverflow_decides z first.sorted second.sorted).holds
    (first.denotes_pair second).2.2
  rw [first.value, second.toNat_eq] at holds
  exact ⟨_, holds, fun inside => Lib.shiftLeft_ushiftRight_eq_iff inside⟩

theorem ashrExact : (Expr.ashrExact z a b).Holds M (x.toNat % 2 ^ y.toNat = 0) := by
  have holds := (ashrExact_decides z first.sorted second.sorted).holds
    (first.denotes_pair second).2.2
  rwa [first.toNat_eq, second.toNat_eq] at holds

theorem lshrExact : (Expr.lshrExact z a b).Holds M (x.toNat % 2 ^ y.toNat = 0) := by
  have holds := (lshrExact_decides z first.sorted second.sorted).holds
    (first.denotes_pair second).2.2
  rwa [first.toNat_eq, second.toNat_eq] at holds

theorem divides {f : BitVec w → BitVec w → BitVec w} {allowed : BitVec w → BitVec w → Prop}
    (divides : t.Divides a b w f allowed) (nonzero : y ≠ 0#w)
    (inside : allowed x y) : t.Is M w (f x y) := by
  have safe := (first.denotes_pair second).2.2
  have nonzero : b.bv M w ≠ 0#w := second.value.symm ▸ nonzero
  have value := divides.value M safe nonzero (by rw [first.value, second.value]; exact inside)
  rw [first.value, second.value] at value
  exact ⟨divides.sorted, divides.safe M safe nonzero, value⟩

variable (nonzero : y ≠ 0#w)

include nonzero

theorem udiv : (Expr.udiv z a b).Is M w (x / y) := by
  have is := first.divides second (udiv_divides z first.sorted second.sorted) nonzero trivial
  rwa [BitVec.smtUDiv_eq, if_neg nonzero] at is

theorem urem : (Expr.urem z a b).Is M w (x % y) := by
  have stands := urem_stands z first.sorted second.sorted
  have divisors : NonzeroDivisors (.app (.bv .urem) [a, b]) M := by
    refine nonzeroDivisors_urem.2 ⟨first.safe, second.safe, ?_⟩
    rwa [← bv_ne_zero second.sorted, second.value]
  refine ⟨stands.sorted _ (hasSort_bv.2 ⟨first.sorted, second.sorted⟩), stands.safe M divisors, ?_⟩
  rw [stands.bv_eq divisors, bv_bv M first.sorted, first.value, second.value, BvOp.denote]

theorem sdiv (noOverflow : ¬(x = BitVec.intMin w ∧ y = BitVec.allOnes w)) :
    (Expr.sdiv z a b).Is M w (x.sdiv y) := by
  have is := first.divides second (sdiv_divides z first.sorted second.sorted) nonzero noOverflow
  rwa [smtSDiv_eq_sdiv x nonzero] at is

theorem srem : (Expr.srem z a b).Is M w (x.srem y) :=
  first.divides second (srem_divides z first.sorted second.sorted) nonzero trivial

theorem sdivExact (noOverflow : ¬(x = BitVec.intMin w ∧ y = BitVec.allOnes w)) :
    (Expr.sdivExact z a b).Holds M (x.toInt.tmod y.toInt = 0) := by
  have quotient := first.sdiv z second nonzero noOverflow
  have all : Safe [Expr.sdiv z a b, a, b] M :=
    safe_triple.2 ⟨quotient.safe, first.safe, second.safe⟩
  have decides := exact_decides z first.sorted second.sorted quotient.sorted
  refine ⟨decides.sorted, decides.safe M all, ?_⟩
  have truth := sdivExact_truth z first.sorted second.sorted (first.denotes_pair second).2.2
    (second.value.symm ▸ nonzero) (by rw [first.value, second.value]; exact noOverflow)
  rwa [first.value, second.value] at truth

theorem udivExact : (Expr.udivExact z a b).Holds M (x.toNat % y.toNat = 0) := by
  have quotient := first.udiv z second nonzero
  have all : Safe [Expr.udiv z a b, a, b] M :=
    safe_triple.2 ⟨quotient.safe, first.safe, second.safe⟩
  have decides := exact_decides z first.sorted second.sorted quotient.sorted
  refine ⟨decides.sorted, decides.safe M all, ?_⟩
  have truth := udivExact_truth z first.sorted second.sorted (first.denotes_pair second).2.2
    (second.value.symm ▸ nonzero)
  rwa [first.toNat_eq, second.toNat_eq] at truth

end

theorem cttz {y : BitVec w} (is : a.Is M w x)
    (valZero : b.Is M w y) : (Expr.cttz z a b).Is M w (if x = 0#w then y else x.ctz) := by
  obtain ⟨left, right, -⟩ := is.denotes_pair valZero
  exact is.binary valZero (f := fun x y => if x = 0#w then y else x.ctz) (left.cttz z right)

theorem ctlz (is : a.Is M w x) : (Expr.ctlz z a).Is M w x.clz :=
  is.unary (f := BitVec.clz) (is.denotes.ctlz z)

section

variable {y : BitVec w} (first : a.Is M w x) (second : b.Is M w y)

include first second

theorem clmul : (Expr.clmul z a b).Is M w (carryless x y w) := by
  obtain ⟨left, right, -⟩ := first.denotes_pair second
  exact first.binary second (f := fun x y => carryless x y w) (left.clmul z right)

theorem pext : (Expr.pext z a b).Is M w (gather x y w) := by
  obtain ⟨left, right, -⟩ := first.denotes_pair second
  exact first.binary second (f := fun x y => gather x y w) (left.pext z right)

theorem pdep : (Expr.pdep z a b).Is M w (scatter x y w) := by
  obtain ⟨left, right, -⟩ := first.denotes_pair second
  exact first.binary second (f := fun x y => scatter x y w) (left.pdep z right)

end

end Is

end Expr

end AliveNext.Smt
