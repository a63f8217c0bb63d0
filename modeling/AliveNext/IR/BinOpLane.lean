import AliveNext.IR.BinOp
import AliveNext.Lib.Overflow

/-!
# Binary operations on one element

What `fn` of `BinOp::toSMT` gives for two numbers, against LLVM's definition of each operation.
-/

namespace AliveNext.IR.Lanes.BinOp

open Smt Smt.Expr

variable {z : Z3} {a ap b bp t c : Expr} {M : Model} {w r : Nat} {p q s u : Prop} {flags : Flags}

theorem flagged_holds {flag : Bool} (nonPoison : a.Holds M p)
    (cond : c.Holds M q) : (flagged flag a c).Holds M (p ∧ (flag = true → q)) := by
  cases flag with
  | false => exact nonPoison.congr (by simp)
  | true => exact (nonPoison.and cond).congr (by simp)

variable {x y : BitVec w}

theorem isZero_holds (is : a.Is M w x) : (isZero z a).Holds M (x.toNat = 0) := by
  have zero : (mkUInt 0 a.bits).Is M w (BitVec.ofNat w 0) := by
    rw [is.sorted.bits_eq]
    exact Is.num is.sorted.pos 0
  exact (is.cmpEq z zero).congr (by rw [← BitVec.toNat_inj, BitVec.toNat_ofNat, Nat.zero_mod])

theorem inside_holds
    (is : b.Is M w y) : (ult z b (mkUInt b.bits b.bits)).Holds M (y.toNat < w) := by
  have small : w < 2 ^ w := Nat.lt_two_pow_self
  have width : (mkUInt b.bits b.bits).Is M w (BitVec.ofNat w w) := by
    rw [is.sorted.bits_eq]
    exact Is.num is.sorted.pos w
  exact (is.ult z width).congr (by rw [BitVec.toNat_ofNat, Nat.mod_eq_of_lt small])

theorem read_eq_some : read x p = some y ↔ p ∧ x = y := by
  unfold read
  split
  · next holds => simp [holds]
  · next fails => simp [fails]

theorem read_eq_none : read x p = none ↔ ¬p := by
  unfold read
  split
  · next holds => simp [holds]
  · next fails => simp [fails]

theorem read_ne_none : read x p ≠ none ↔ p := by
  rw [Ne, read_eq_none, not_not]

theorem divUB_holds (sign : Bool) (first : a.Is M w x) (nonPoison : ap.Holds M p)
    (second : b.Is M w y) :
    (∀ e ∈ divUB z a b ap sign, e.truth M = true) ↔ ¬(y = 0#w ∨
      sign = true ∧ y = BitVec.allOnes w ∧ (¬p ∨ x = BitVec.intMin w)) := by
  have positive := first.sorted.pos
  have zero : (Expr.not (isZero z b)).Holds M (¬y = 0#w) := by
    refine (isZero_holds second).not.congr ?_
    rw [← BitVec.toNat_inj, BitVec.toNat_ofNat, Nat.zero_mod]
  have least : (intSMin z b.bits).Is M w (BitVec.intMin w) := by
    rw [second.sorted.bits_eq]
    exact Is.intMin z positive
  have ones : (mkInt (-1) b.bits).Is M w (BitVec.allOnes w) := by
    rw [second.sorted.bits_eq]
    exact Is.allOnes positive
  have wraps := (nonPoison.and (first.cmpEq z least).not).or (second.cmpEq z ones).not
  rw [divUB, List.forall_mem_cons, zero.truth]
  cases sign with
  | false => simp
  | true =>
    rw [if_pos rfl, List.forall_mem_singleton, wraps.truth]
    tauto

theorem fnUB_holds (op : Op) {y : BitVec (op.rhsBits w)} (first : a.Is M w x)
    (nonPoison : ap.Holds M p) (second : b.Is M (op.rhsBits w) y) :
    (∀ e ∈ fnUB z op a ap b, e.truth M = true) ↔ ¬Undefined op (read x p) (some y) := by
  have unsigned : ∀ {y : BitVec w}, b.Is M w y →
      ((∀ e ∈ divUB z a b ap false, e.truth M = true) ↔ ¬(some y = none ∨ some y = some 0)) := by
    intro y second
    rw [divUB_holds false first nonPoison second]
    simp
  have signed : ∀ {y : BitVec w}, b.Is M w y →
      ((∀ e ∈ divUB z a b ap true, e.truth M = true) ↔ ¬(some y = none ∨ some y = some 0 ∨
        some y = some (BitVec.allOnes w) ∧
          (read x p = none ∨ read x p = some (BitVec.intMin w)))) := by
    intro y second
    rw [divUB_holds true first nonPoison second, read_eq_none, read_eq_some]
    simp only [reduceCtorEq, Option.some.injEq, false_or, BitVec.ofNat_eq_ofNat, true_and]
    tauto
  cases op with
  | udiv => exact unsigned second
  | urem => exact unsigned second
  | sdiv => exact signed second
  | srem => exact signed second
  | _ => simp [fnUB, Undefined]

section

variable {x y : BitVec w}

theorem ofInt_add_toInt : BitVec.ofInt w (x.toInt + y.toInt) = x + y := by
  rw [BitVec.ofInt_add, BitVec.ofInt_toInt, BitVec.ofInt_toInt]

theorem ofInt_mul_toInt : BitVec.ofInt w (x.toInt * y.toInt) = x * y := by
  rw [BitVec.ofInt_mul, BitVec.ofInt_toInt, BitVec.ofInt_toInt]

theorem ofInt_sub_toInt : BitVec.ofInt w (x.toInt - y.toInt) = x - y := by
  rw [sub_eq_add_neg, BitVec.ofInt_add, BitVec.ofInt_neg, BitVec.ofInt_toInt, BitVec.ofInt_toInt,
    ← BitVec.sub_eq_add_neg]

theorem ofInt_tdiv_toInt : BitVec.ofInt w (x.toInt.tdiv y.toInt) = x.sdiv y := by
  apply BitVec.eq_of_toInt_eq
  rw [BitVec.toInt_ofInt, BitVec.toInt_sdiv]

theorem ofInt_tmod_toInt : BitVec.ofInt w (x.toInt.tmod y.toInt) = x.srem y := by
  rw [← BitVec.toInt_srem, BitVec.ofInt_toInt]

theorem ofNat_div_toNat : BitVec.ofNat w (x.toNat / y.toNat) = x / y := by
  rw [← BitVec.toNat_udiv, BitVec.ofNat_toNat, BitVec.setWidth_eq]

theorem ofNat_mod_toNat : BitVec.ofNat w (x.toNat % y.toNat) = x % y := by
  rw [← BitVec.toNat_umod, BitVec.ofNat_toNat, BitVec.setWidth_eq]

theorem ofNat_shl_toNat : BitVec.ofNat w (x.toNat * 2 ^ y.toNat) = x <<< y := by
  apply BitVec.eq_of_toNat_eq
  rw [BitVec.toNat_ofNat, BitVec.shiftLeft_eq', BitVec.toNat_shiftLeft, Nat.shiftLeft_eq]

theorem ofInt_ashr_toInt : BitVec.ofInt w (x.toInt / 2 ^ y.toNat) = x.sshiftRight' y := by
  have value : (x.sshiftRight' y).toInt = x.toInt / 2 ^ y.toNat := by
    rw [BitVec.toInt_sshiftRight', Int.shiftRight_eq_div_pow]
    norm_num
  rw [← value, BitVec.ofInt_toInt]

theorem ofNat_lshr_toNat : BitVec.ofNat w (x.toNat / 2 ^ y.toNat) = x >>> y := by
  rw [← Nat.shiftRight_eq_div_pow, ← BitVec.toNat_ushiftRight, BitVec.ofNat_toNat,
    BitVec.setWidth_eq, BitVec.ushiftRight_eq']

theorem ofNat_min_toNat :
    BitVec.ofNat w (min x.toNat y.toNat) = if x.toNat ≤ y.toNat then x else y := by
  rw [Nat.min_def]
  split <;> rw [BitVec.ofNat_toNat, BitVec.setWidth_eq]

theorem ofNat_max_toNat :
    BitVec.ofNat w (max x.toNat y.toNat) = if y.toNat ≤ x.toNat then x else y := by
  rw [Nat.max_comm, Nat.max_def]
  split <;> rw [BitVec.ofNat_toNat, BitVec.setWidth_eq]

theorem ofInt_min_toInt :
    BitVec.ofInt w (min x.toInt y.toInt) = if x.toInt ≤ y.toInt then x else y := by
  rw [Int.min_def]
  split <;> rw [BitVec.ofInt_toInt]

theorem ofInt_max_toInt :
    BitVec.ofInt w (max x.toInt y.toInt) = if y.toInt ≤ x.toInt then x else y := by
  rw [max_comm, Int.max_def]
  split <;> rw [BitVec.ofInt_toInt]

theorem ctz_zero : (0#w).ctz = BitVec.ofNat w w := by
  rw [BitVec.ctz_eq_reverse_clz]
  apply BitVec.eq_of_toNat_eq
  have zero : (0#w).reverse = 0#w := by
    ext i inside
    rw [BitVec.getElem_reverse]
    simp
  rw [zero, (BitVec.clz_eq_iff_eq_zero).2 rfl]
  rfl

theorem ofInt_sign_sub {m n : Int} : BitVec.ofInt r (Int.sign (m - n)) =
      if m = n then BitVec.ofNat r 0
      else if m < n then BitVec.allOnes r else BitVec.ofInt r 1 := by
  rcases lt_trichotomy m n with less | same | more
  · rw [if_neg less.ne, if_pos less, Int.sign_eq_neg_one_of_neg (by omega), BitVec.ofInt_neg,
      ← BitVec.neg_one_eq_allOnes]
    rfl
  · rw [if_pos same, same, sub_self, Int.sign_zero]
    rfl
  · rw [if_neg more.ne', if_neg more.not_gt, Int.sign_eq_one_of_pos (by omega)]

end

/-- The value and the condition of `fn` are those of LLVM, where operands that are not poison do
not give poison. -/
structure Computes (op : Op) (flags : Flags) (r : Nat) (x : BitVec w) (y : BitVec (op.rhsBits w))
    (defined : Prop) (M : Model) (sv : StateValue) : Prop where
  value : ∃ v : BitVec (op.resBits w r), sv.value.Is M (op.resBits w r) v ∧
    (¬Poison op flags x y → Result op r x y v)
  nonPoison : ∃ np : Prop, sv.nonPoison.Holds M np ∧ (defined → (np ↔ ¬Poison op flags x y))

structure ComputesPair (op : Op) (r : Nat) (x : BitVec w) (y : BitVec (op.rhsBits w)) (M : Model)
    (sv : StateValue) : Prop where
  value : ∃ v : BitVec (op.resBits w r), sv.value.Is M (op.resBits w r) v ∧ Result op r x y v
  overflow : ∃ o : BitVec 1, sv.nonPoison.Is M 1 o ∧ (o = 1#1 ↔ Overflows op x y)

section

variable {x y : BitVec w} (first : a.Is M w x) (second : b.Is M w y)

theorem noWrap_holds {sc uc : Expr} (signed : sc.Holds M s) (unsigned : uc.Holds M u) :
    (flagged flags.nuw (flagged flags.nsw (.bool true) sc) uc).Holds M
      (¬(flags.nsw = true ∧ ¬s ∨ flags.nuw = true ∧ ¬u)) :=
  (flagged_holds (flagged_holds (.const true) signed) unsigned).congr (by tauto)

theorem exact_holds {flag : Bool}
    (cond : c.Holds M s) : (flagged flag (.bool true) c).Holds M (¬(flag = true ∧ ¬s)) :=
  (flagged_holds (.const true) cond).congr (by tauto)

include first second

theorem shl_nonPoison :
    ∃ np : Prop, (flagged flags.nuw (flagged flags.nsw (ult z b (mkUInt b.bits b.bits))
      (shlNoSOverflow z a b)) (shlNoUOverflow z a b)).Holds M np ∧
        (np ↔ ¬(w ≤ y.toNat ∨ flags.nsw = true ∧ ¬SFits w (x.toInt * 2 ^ y.toNat) ∨
          flags.nuw = true ∧ ¬x.toNat * 2 ^ y.toNat < 2 ^ w)) := by
  obtain ⟨fitsS, signed, meansS⟩ := first.shlNoSOverflow z second
  obtain ⟨fitsU, unsigned, meansU⟩ := first.shlNoUOverflow z second
  refine ⟨_, flagged_holds (flagged_holds (inside_holds second) signed) unsigned, ?_⟩
  by_cases inside : y.toNat < w
  · rw [meansS inside, meansU inside]
    have notLarge : ¬w ≤ y.toNat := by omega
    tauto
  · have large : w ≤ y.toNat := by omega
    tauto

omit first in
theorem shr_nonPoison (exactly : c.Holds M (x.toNat % 2 ^ y.toNat = 0)) :
    (flagged flags.exact (ult z b (mkUInt b.bits b.bits)) c).Holds M
      (¬(w ≤ y.toNat ∨ flags.exact = true ∧ x.toNat % 2 ^ y.toNat ≠ 0)) := by
  refine (flagged_holds (inside_holds second) exactly).congr ?_
  rw [← not_le]
  tauto

theorem disjoint_holds :
    (isZero z (bitAnd z a b)).Holds M (¬∃ i, x.getLsbD i = true ∧ y.getLsbD i = true) := by
  refine (isZero_holds (first.bitAnd z second)).congr ?_
  have zero : (x &&& y).toNat = 0 ↔ x &&& y = 0#w := by
    rw [← BitVec.toNat_inj, BitVec.toNat_ofNat, Nat.zero_mod]
  exact zero.trans Lib.and_eq_zero_iff

end

section

variable {x y v : BitVec w}

theorem eq_ofInt_of_toInt {i : Int} (value : v.toInt = i) : v = BitVec.ofInt w i := by
  rw [← value, BitVec.ofInt_toInt]

theorem eq_ofInt_of_toNat {i : Int} (value : (v.toNat : Int) = i) : v = BitVec.ofInt w i := by
  rw [← value, BitVec.ofInt_natCast, BitVec.ofNat_toNat, BitVec.setWidth_eq]

theorem cttz_is (first : a.Is M w x) : (Expr.cttz z a (mkUInt a.bits a.bits)).Is M w x.ctz := by
  have width : (mkUInt a.bits a.bits).Is M w (BitVec.ofNat w w) := by
    rw [first.sorted.bits_eq]
    exact Is.num first.sorted.pos w
  have is := first.cttz z width
  have value : (if x = 0#w then BitVec.ofNat w w else x.ctz) = x.ctz := by
    split
    · next zero => rw [zero, ctz_zero]
    · rfl
  rwa [value] at is

theorem zeroPoison_holds {f : BitVec 1} (first : a.Is M w x) (flag : b.Is M 1 f) :
    (Expr.or (isZero z b) (Expr.not (isZero z a))).Holds M (¬(f.toNat ≠ 0 ∧ x = 0)) := by
  refine ((isZero_holds flag).or (isZero_holds first).not).congr ?_
  have zero : x.toNat = 0 ↔ x = 0 := by rw [← BitVec.toNat_inj, BitVec.ofNat_eq_ofNat]; simp
  rw [zero]
  tauto

theorem minPoison_holds {f : BitVec 1} (first : a.Is M w x) (flag : b.Is M 1 f) :
    (Expr.or (isZero z b) (Expr.not (cmpEq z a (intSMin z a.bits)))).Holds M
      (¬(f.toNat ≠ 0 ∧ x = BitVec.intMin w)) := by
  have least : (intSMin z a.bits).Is M w (BitVec.intMin w) := by
    rw [first.sorted.bits_eq]
    exact Is.intMin z first.sorted.pos
  exact ((isZero_holds flag).or (first.cmpEq z least).not).congr (by tauto)

theorem threeWay_is
    {m n : Int} (positive : 0 < r) (equal : t.Holds M (m = n)) (less : c.Holds M (m < n)) :
    (Expr.mkIf z t (mkUInt 0 r) (Expr.mkIf z c (mkInt (-1) r) (mkInt 1 r))).Is M r
      (BitVec.ofInt r (Int.sign (m - n))) := by
  have one : (mkInt 1 r).Is M r (BitVec.ofInt r 1) := Is.num positive 1
  rw [ofInt_sign_sub]
  exact Is.mkIf z equal (Is.num positive 0) (Is.mkIf z less (Is.allOnes positive) one)

theorem eq_iff_natCast_toNat : x = y ↔ (x.toNat : Int) = y.toNat := by
  rw [Int.natCast_inj, BitVec.toNat_inj]

theorem sdivExact_holds {flag : Bool} (cond : c.Holds M s) :
    (if flag then c else Expr.bool true).Holds M (¬(flag = true ∧ ¬s)) := by
  cases flag with
  | false => exact (Holds.const true).congr (by simp)
  | true => exact cond.congr (by simp)

theorem gather_above {j : Nat} (above : y.cpop.toNat ≤ j) : (gather x y w).getLsbD j = false := by
  rw [BitVec.toNat_cpop] at above
  rw [Bool.eq_false_iff, Ne, getLsbD_gather (le_refl w)]
  rintro ⟨k, inside, set, -, rfl⟩
  have less := onesBelow_lt inside set
  exact absurd (less.trans_le above) (lt_irrefl _)

theorem scatter_bit (j : Nat) :
    (scatter x y w).getLsbD j = (y.getLsbD j && x.getLsbD (onesBelow y j)) := by
  rw [Bool.eq_iff_iff, getLsbD_scatter (le_refl w), Bool.and_eq_true]
  exact ⟨fun set => set.2, fun set => ⟨BitVec.lt_of_getLsbD set.1, set⟩⟩

end

theorem fn_computes (flags : Flags) (op : Op) {y : BitVec (op.rhsBits w)}
    (single : op.verticalZip = false) (positive : 0 < op.resBits w r) (first : a.Is M w x)
    (firstNp : ap.Holds M p) (second : b.Is M (op.rhsBits w) y) (secondNp : bp.Holds M q)
    (defined : ¬Undefined op (some x) (some y)) :
    Computes op flags r x y (p ∧ q) M (fn z op flags r a ap b bp) := by
  have never : (p ∧ q) → (true = true ↔ ¬False) := fun _ => iff_of_true rfl not_false
  have again : (p ∧ q) → (p ∧ q ↔ ¬False) := fun known => iff_of_true known not_false
  cases op with
  | add =>
    exact ⟨⟨_, first.add z second, fun _ => ofInt_add_toInt.symm⟩,
      _, noWrap_holds (first.addNoSOverflow z second) (first.addNoUOverflow z second),
      fun _ => Iff.rfl⟩
  | sub =>
    exact ⟨⟨_, first.sub z second, fun _ => ofInt_sub_toInt.symm⟩,
      _, noWrap_holds (first.subNoSOverflow z second) (first.subNoUOverflow z second),
      fun _ => Iff.rfl⟩
  | mul =>
    exact ⟨⟨_, first.mul z second, fun _ => ofInt_mul_toInt.symm⟩,
      _, noWrap_holds (first.mulNoSOverflow z second) (first.mulNoUOverflow z second),
      fun _ => Iff.rfl⟩
  | sdiv =>
    have nonzero : y ≠ 0#w := fun zero => defined (.inr (.inl (congrArg some zero)))
    have noOverflow : ¬(x = BitVec.intMin w ∧ y = BitVec.allOnes w) := fun wraps =>
      defined (.inr (.inr ⟨congrArg some wraps.2, .inr (congrArg some wraps.1)⟩))
    exact ⟨⟨_, first.sdiv z second nonzero noOverflow, fun _ => ofInt_tdiv_toInt.symm⟩,
      _, sdivExact_holds (first.sdivExact z second nonzero noOverflow), fun _ => Iff.rfl⟩
  | udiv =>
    have nonzero : y ≠ 0#w := fun zero => defined (.inr (congrArg some zero))
    exact ⟨⟨_, first.udiv z second nonzero, fun _ => ofNat_div_toNat.symm⟩,
      _, exact_holds (first.udivExact z second nonzero), fun _ => Iff.rfl⟩
  | srem =>
    have nonzero : y ≠ 0#w := fun zero => defined (.inr (.inl (congrArg some zero)))
    exact ⟨⟨_, first.srem z second nonzero, fun _ => ofInt_tmod_toInt.symm⟩, _, .const true, never⟩
  | urem =>
    have nonzero : y ≠ 0#w := fun zero => defined (.inr (congrArg some zero))
    exact ⟨⟨_, first.urem z second nonzero, fun _ => ofNat_mod_toNat.symm⟩, _, .const true, never⟩
  | shl =>
    exact ⟨⟨_, first.shl z second, fun _ => ofNat_shl_toNat.symm⟩,
      (shl_nonPoison first second).imp fun np holds => ⟨holds.1, fun _ => holds.2⟩⟩
  | ashr =>
    exact ⟨⟨_, first.ashr z second, fun _ => ofInt_ashr_toInt.symm⟩,
      _, shr_nonPoison second (first.ashrExact z second), fun _ => Iff.rfl⟩
  | lshr =>
    exact ⟨⟨_, first.lshr z second, fun _ => ofNat_lshr_toNat.symm⟩,
      _, shr_nonPoison second (first.lshrExact z second), fun _ => Iff.rfl⟩
  | saddSat =>
    obtain ⟨v, is, value⟩ := first.saddSat z second
    exact ⟨⟨v, is, fun _ => eq_ofInt_of_toInt value⟩, _, .const true, never⟩
  | uaddSat =>
    obtain ⟨v, is, value⟩ := first.uaddSat z second
    exact ⟨⟨v, is, fun _ => eq_ofInt_of_toNat value⟩, _, .const true, never⟩
  | ssubSat =>
    obtain ⟨v, is, value⟩ := first.ssubSat z second
    exact ⟨⟨v, is, fun _ => eq_ofInt_of_toInt value⟩, _, .const true, never⟩
  | usubSat =>
    obtain ⟨v, is, value⟩ := first.usubSat z second
    exact ⟨⟨v, is, fun _ => eq_ofInt_of_toNat value⟩, _, .const true, never⟩
  | sshlSat =>
    obtain ⟨v, is, value⟩ := first.sshlSat z second
    exact ⟨⟨v, is, fun inside => eq_ofInt_of_toInt (value (not_le.1 inside))⟩,
      _, inside_holds second, fun _ => not_le.symm⟩
  | ushlSat =>
    obtain ⟨v, is, value⟩ := first.ushlSat z second
    exact ⟨⟨v, is, fun inside => eq_ofInt_of_toNat (value (not_le.1 inside))⟩,
      _, inside_holds second, fun _ => not_le.symm⟩
  | and =>
    exact ⟨⟨_, first.bitAnd z second, fun _ i => BitVec.getLsbD_and⟩, _, .const true, never⟩
  | or =>
    refine ⟨⟨_, first.bitOr z second, fun _ i => BitVec.getLsbD_or⟩, ?_⟩
    cases disjoint : flags.disjoint with
    | false => exact ⟨_, by simp only [fn, disjoint]; exact .const true, by simp [Poison, disjoint]⟩
    | true =>
      refine ⟨_, ?_, fun _ => Iff.rfl⟩
      simp only [fn, disjoint, if_true, Poison, true_and]
      exact disjoint_holds first second
  | xor =>
    exact ⟨⟨_, first.bitXor z second, fun _ i => BitVec.getLsbD_xor⟩, _, .const true, never⟩
  | cttz =>
    exact ⟨⟨_, cttz_is first, fun _ => rfl⟩, _, zeroPoison_holds first second, fun _ => Iff.rfl⟩
  | ctlz =>
    exact ⟨⟨_, first.ctlz z, fun _ => rfl⟩, _, zeroPoison_holds first second, fun _ => Iff.rfl⟩
  | umin =>
    exact ⟨⟨_, first.umin z second, fun _ => ofNat_min_toNat.symm⟩, _, firstNp.and secondNp, again⟩
  | umax =>
    exact ⟨⟨_, first.umax z second, fun _ => ofNat_max_toNat.symm⟩, _, firstNp.and secondNp, again⟩
  | smin =>
    exact ⟨⟨_, first.smin z second, fun _ => ofInt_min_toInt.symm⟩, _, firstNp.and secondNp, again⟩
  | smax =>
    exact ⟨⟨_, first.smax z second, fun _ => ofInt_max_toInt.symm⟩, _, firstNp.and secondNp, again⟩
  | abs =>
    exact ⟨⟨_, first.abs z, fun _ => rfl⟩,
      _, (firstNp.and secondNp).and (minPoison_holds first second),
      fun known => and_iff_right known⟩
  | ucmp =>
    have equal := (first.cmpEq z second).congr eq_iff_natCast_toNat
    have less := (first.ult z second).congr (Int.ofNat_lt (n := x.toNat) (m := y.toNat)).symm
    exact ⟨⟨_, threeWay_is positive equal less, fun _ => rfl⟩, _, firstNp.and secondNp, again⟩
  | scmp =>
    have equal := (first.cmpEq z second).congr BitVec.toInt_inj.symm
    exact ⟨⟨_, threeWay_is positive equal (first.slt z second), fun _ => rfl⟩,
      _, firstNp.and secondNp, again⟩
  | clmul =>
    exact ⟨⟨_, first.clmul z second, fun _ k inside => getLsbD_carryless_low _ _ inside⟩,
      _, firstNp.and secondNp, again⟩
  | pext =>
    exact ⟨⟨_, first.pext z second, fun _ =>
      ⟨fun k set => getLsbD_gather_onesBelow set, fun j above => gather_above above⟩⟩,
      _, firstNp.and secondNp, again⟩
  | pdep =>
    exact ⟨⟨_, first.pdep z second, fun _ => scatter_bit⟩, _, firstNp.and secondNp, again⟩
  | saddOverflow | uaddOverflow | ssubOverflow | usubOverflow | smulOverflow | umulOverflow =>
    cases single

theorem overflow_is (fits : c.Holds M s) :
    ∃ o : BitVec 1, (toBVBool z (Expr.not c)).Is M 1 o ∧ (o = 1#1 ↔ ¬s) := by
  classical
  refine ⟨_, fits.not.toBVBool z, ?_⟩
  by_cases known : s <;> simp [known]

theorem fn_computesPair (flags : Flags) (ap bp : Expr) (op : Op)
    {y : BitVec (op.rhsBits w)} (pair : op.verticalZip = true) (first : a.Is M w x)
    (second : b.Is M (op.rhsBits w) y) : ComputesPair op r x y M (fn z op flags r a ap b bp) := by
  cases op with
  | saddOverflow =>
    exact ⟨⟨_, first.add z second, ofInt_add_toInt.symm⟩,
      overflow_is (first.addNoSOverflow z second)⟩
  | uaddOverflow =>
    exact ⟨⟨_, first.add z second, ofInt_add_toInt.symm⟩,
      overflow_is (first.addNoUOverflow z second)⟩
  | ssubOverflow =>
    exact ⟨⟨_, first.sub z second, ofInt_sub_toInt.symm⟩,
      overflow_is (first.subNoSOverflow z second)⟩
  | usubOverflow =>
    exact ⟨⟨_, first.sub z second, ofInt_sub_toInt.symm⟩,
      overflow_is (first.subNoUOverflow z second)⟩
  | smulOverflow =>
    exact ⟨⟨_, first.mul z second, ofInt_mul_toInt.symm⟩,
      overflow_is (first.mulNoSOverflow z second)⟩
  | umulOverflow =>
    exact ⟨⟨_, first.mul z second, ofInt_mul_toInt.symm⟩,
      overflow_is (first.mulNoUOverflow z second)⟩
  | _ => cases pair

end AliveNext.IR.Lanes.BinOp
