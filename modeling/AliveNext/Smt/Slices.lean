import AliveNext.Smt.ConnectivesSound

/-!
# Identities of extraction, concatenation and extension

The rewrites of `extract`, `concat` and `sext` as identities between plain
terms, each proved bit by bit.
-/

namespace AliveNext.Smt

namespace Expr

section

variable {a b e : Expr} {v w high low amount : Nat}

theorem HasSort.extract (sorted : e.HasSort (.bv w)) (ordered : low ≤ high) (inside : high < w) :
    HasSort (.app (.extract high low) [e]) (.bv (high - low + 1)) :=
  hasSort_extract.2 ⟨rfl, ordered, w, inside, sorted⟩

theorem HasSort.concat (left : a.HasSort (.bv v)) (right : b.HasSort (.bv w)) :
    HasSort (.app .concat [a, b]) (.bv (v + w)) :=
  hasSort_concat_pair.2 ⟨v, w, rfl, left, right⟩

theorem HasSort.signExt (sorted : e.HasSort (.bv w)) (amount : Nat) :
    HasSort (.app (.signExt amount) [e]) (.bv (w + amount)) :=
  hasSort_signExt.2 ⟨w, rfl, sorted⟩

end

section

variable {a b c e : Expr} {v w high low : Nat}

section

variable (sorted : e.HasSort (.bv w))

include sorted

theorem extract_full : e.Same (.app (.extract (w - 1) 0) [e]) := by
  have positive := sorted.pos
  have whole := sorted.extract (Nat.zero_le (w - 1)) (by omega)
  rw [show w - 1 - 0 + 1 = w by omega] at whole
  apply Same.of_testBit sorted whole
  · simp
  · intro M i inside
    rw [testBit_extract M sorted, Nat.zero_add,
      decide_eq_true (show i < w - 1 - 0 + 1 by omega), Bool.true_and]

theorem extract_extract {high2 low2 : Nat} (ordered2 : low2 ≤ high2)
    (inside2 : high2 < w) (ordered : low ≤ high) (inside : high < high2 - low2 + 1) :
    Same (.app (.extract (high + low2) (low + low2)) [e])
      (.app (.extract high low) [.app (.extract high2 low2) [e]]) := by
  have inner := sorted.extract ordered2 inside2
  have whole := inner.extract ordered inside
  have joined := sorted.extract (Nat.add_le_add_right ordered low2) (show high + low2 < w by omega)
  rw [show high + low2 - (low + low2) + 1 = high - low + 1 by omega] at joined
  apply Same.of_testBit joined whole
  · simp
  · intro M i bit
    rw [testBit_extract M sorted, testBit_extract M inner, testBit_extract M sorted]
    have first : i < high + low2 - (low + low2) + 1 := by omega
    have second : low + i < high2 - low2 + 1 := by omega
    simp only [bit, first, second, decide_true, Bool.true_and]
    congr 1
    omega

theorem extract_signExt_low {amount : Nat} (inside : high < w) :
    Same (.app (.extract high 0) [e]) (.app (.extract high 0) [.app (.signExt amount) [e]]) := by
  have inner := sorted.signExt amount
  apply Same.of_testBit (sorted.extract (Nat.zero_le high) inside)
    (inner.extract (Nat.zero_le high) (by omega))
  · simp
  · intro M i bit
    rw [testBit_extract M sorted, testBit_extract M inner, testBit_signExt M sorted, Nat.zero_add]
    simp [show i < w by omega, show i < w + amount by omega]

theorem extract_signExt_wide {amount : Nat} (wide : w ≤ high) (inside : high < w + amount) :
    Same (.app (.signExt (high - w + 1)) [e])
      (.app (.extract high 0) [.app (.signExt amount) [e]]) := by
  have inner := sorted.signExt amount
  have whole := inner.extract (Nat.zero_le high) inside
  have extended := sorted.signExt (high - w + 1)
  rw [show w + (high - w + 1) = high - 0 + 1 by omega] at extended
  apply Same.of_testBit extended whole
  · simp
  · intro M i bit
    rw [testBit_extract M inner, testBit_signExt M sorted, testBit_signExt M sorted, Nat.zero_add]
    rw [decide_eq_true bit, decide_eq_true (show i < w + amount by omega),
      decide_eq_true (show i < w + (high - w + 1) by omega), Bool.true_and, Bool.true_and]

end

theorem extract_ashr {shift : Nat} (sorted : a.HasSort (.bv w)) (small : shift < 2 ^ w)
    (ordered : low ≤ high) (inside : high + shift < w) :
    Same (.app (.extract (high + shift) (low + shift)) [a])
      (.app (.extract high low) [.app (.bv .ashr) [a, mkUInt shift w]]) := by
  have amount : (mkUInt shift w).HasSort (.bv w) := hasSort_mkUInt (by omega)
  have inner : HasSort (.app (.bv .ashr) [a, mkUInt shift w]) (.bv w) :=
    hasSort_bv.2 ⟨sorted, amount⟩
  have whole := inner.extract ordered (show high < w by omega)
  have shifted := sorted.extract (Nat.add_le_add_right ordered shift) inside
  rw [show high + shift - (low + shift) + 1 = high - low + 1 by omega] at shifted
  apply Same.of_testBit shifted whole
  · intro M
    simp +contextual
  · intro M i bit
    rw [testBit_extract M sorted, testBit_extract M inner, inner.toNat_eq M,
      bv_bv M sorted, sorted.toNat_eq M]
    have value : (mkUInt shift w).bv M w = BitVec.ofNat w shift := bv_num M _
    rw [value]
    simp only [BvOp.denote, BitVec.sshiftRight', BitVec.toNat_ofNat, BitVec.testBit_toNat,
      BitVec.getLsbD_sshiftRight, Nat.mod_eq_of_lt small]
    have first : i < high + shift - (low + shift) + 1 := by omega
    have second : ¬w ≤ low + i := by omega
    have third : shift + (low + i) < w := by omega
    simp only [bit, first, second, third, decide_true, decide_false, Bool.true_and,
      Bool.not_false, if_true]
    congr 1
    omega

section

variable (left : a.HasSort (.bv v)) (right : b.HasSort (.bv w))

include left right

theorem extract_concat_low (ordered : low ≤ high) (inside : high < w) :
    Same (.app (.extract high low) [b]) (.app (.extract high low) [.app .concat [a, b]]) := by
  have inner := left.concat right
  apply Same.of_testBit (right.extract ordered inside) (inner.extract ordered (by omega))
  · intro M
    simp
  · intro M i bit
    rw [testBit_extract M right, testBit_extract M inner, testBit_concat_pair M left right,
      if_pos (show low + i < w by omega)]

theorem extract_concat_high (ordered : low ≤ high) (above : w ≤ low) (inside : high < v + w) :
    Same (.app (.extract (high - w) (low - w)) [a])
      (.app (.extract high low) [.app .concat [a, b]]) := by
  have inner := left.concat right
  have upper := left.extract (Nat.sub_le_sub_right ordered w) (show high - w < v by omega)
  rw [show high - w - (low - w) + 1 = high - low + 1 by omega] at upper
  apply Same.of_testBit upper (inner.extract ordered inside)
  · intro M
    simp +contextual
  · intro M i bit
    rw [testBit_extract M left, testBit_extract M inner, testBit_concat_pair M left right,
      if_neg (show ¬low + i < w by omega)]
    rw [show low - w + i = low + i - w by omega,
      show high - w - (low - w) + 1 = high - low + 1 by omega]

theorem extract_concat_across (below : low < w) (above : w ≤ high) (inside : high < v + w) :
    Same (.app .concat [.app (.extract (high - w) 0) [a], .app (.extract (w - 1) low) [b]])
      (.app (.extract high low) [.app .concat [a, b]]) := by
  have inner := left.concat right
  have upper := left.extract (Nat.zero_le (high - w)) (show high - w < v by omega)
  have lower := right.extract (show low ≤ w - 1 by omega) (show w - 1 < w by omega)
  have joined := upper.concat lower
  rw [show high - w - 0 + 1 + (w - 1 - low + 1) = high - low + 1 by omega] at joined
  apply Same.of_testBit joined (inner.extract (show low ≤ high by omega) inside)
  · intro M
    simp
  · intro M i bit
    rw [testBit_concat_pair M upper lower, testBit_extract M left, testBit_extract M right,
      testBit_extract M inner, testBit_concat_pair M left right]
    by_cases lowBit : i < w - 1 - low + 1
    · simp [lowBit, bit, show low + i < w by omega]
    · have first : ¬low + i < w := by omega
      have second : i - (w - 1 - low + 1) < high - w - 0 + 1 := by omega
      simp only [lowBit, bit, first, second, decide_true, Bool.true_and, if_false]
      congr 1
      omega

end

theorem extract_ite (cond : c.HasSort .bool) (left : a.HasSort (.bv w))
    (right : b.HasSort (.bv w)) (ordered : low ≤ high) (inside : high < w) :
    Same (.app .ite [c, .app (.extract high low) [a], .app (.extract high low) [b]])
      (.app (.extract high low) [.app .ite [c, a, b]]) := by
  have inner := hasSort_ite.2 ⟨cond, left, right⟩
  apply Same.of_testBit
    (hasSort_ite.2 ⟨cond, left.extract ordered inside, right.extract ordered inside⟩)
    (inner.extract ordered inside)
  · intro M
    simp
  · intro M i bit
    rw [testBit_extract M inner, toNat_ite, toNat_ite]
    cases c.truth M
    · simp [testBit_extract M right]
    · simp [testBit_extract M left]

end

section

variable {a b c e : Expr} {u v w high low : Nat}

theorem concat_extracts {high2 low2 : Nat} (sorted : e.HasSort (.bv w)) (ordered : low ≤ high)
    (inside : high < w) (ordered2 : low2 ≤ high2) (adjacent : low = high2 + 1) :
    Same (.app (.extract high low2) [e])
      (.app .concat [.app (.extract high low) [e], .app (.extract high2 low2) [e]]) := by
  have upper := sorted.extract ordered inside
  have lower := sorted.extract ordered2 (show high2 < w by omega)
  have whole := upper.concat lower
  have joined := sorted.extract (show low2 ≤ high by omega) inside
  rw [show high - low + 1 + (high2 - low2 + 1) = high - low2 + 1 by omega] at whole
  apply Same.of_testBit joined whole
  · intro M
    simp
  · intro M i bit
    rw [testBit_concat_pair M upper lower, testBit_extract M sorted, testBit_extract M sorted,
      testBit_extract M sorted]
    by_cases lowBit : i < high2 - low2 + 1
    · simp [lowBit, bit]
    · have second : i - (high2 - low2 + 1) < high - low + 1 := by omega
      simp only [lowBit, bit, second, decide_true, Bool.true_and, if_false]
      congr 1
      omega

theorem concat_assoc
    (first : a.HasSort (.bv u)) (second : b.HasSort (.bv v)) (third : c.HasSort (.bv w)) :
    Same (.app .concat [.app .concat [a, b], c]) (.app .concat [a, .app .concat [b, c]]) := by
  have left := first.concat second
  have right := second.concat third
  have whole := left.concat third
  rw [Nat.add_assoc] at whole
  apply Same.of_testBit whole (first.concat right)
  · intro M
    simp +contextual
  · intro M i bit
    rw [testBit_concat_pair M left third, testBit_concat_pair M first second,
      testBit_concat_pair M first right, testBit_concat_pair M second third]
    by_cases low : i < w
    · simp [low, show i < v + w by omega]
    · by_cases middle : i - w < v
      · simp [low, middle, show i < v + w by omega]
      · simp only [low, middle, show ¬i < v + w by omega, if_false]
        congr 1
        omega

theorem concat_assoc'
    (first : a.HasSort (.bv u)) (second : b.HasSort (.bv v)) (third : c.HasSort (.bv w)) :
    Same (.app .concat [a, .app .concat [b, c]]) (.app .concat [.app .concat [a, b], c]) := by
  have same := concat_assoc first second third
  have whole := first.concat (second.concat third)
  have whole' := (first.concat second).concat third
  rw [← Nat.add_assoc] at whole
  apply Same.of_eval whole whole'
  · intro M
    simp +contextual
  · exact fun M => (same.eval_eq M).symm

theorem concat_nested
    {rest : List Expr} {s : Srt} (sorted : HasSort (.app .concat (a :: b :: c :: rest)) s) :
    Same (.app .concat (a :: .app .concat [b, c] :: rest))
      (.app .concat (a :: b :: c :: rest)) := by
  obtain ⟨rfl, -, parts⟩ := hasSort_concat.1 sorted
  have inner := (parts b (by simp)).concat (parts c (by simp))
  have nested : HasSort (.app .concat (a :: .app .concat [b, c] :: rest))
      (.bv ((a :: b :: c :: rest).map bits).sum) := by
    refine hasSort_concat.2 ⟨by simp [inner.bits_eq, Nat.add_assoc], by simp, ?_⟩
    intro e member
    rcases List.mem_cons.1 member with rfl | member
    · exact parts e List.mem_cons_self
    rcases List.mem_cons.1 member with rfl | member
    · rw [inner.bits_eq]
      exact inner
    · exact parts e (by simp [member])
  apply Same.of_eval nested sorted
  · intro M
    simp +contextual [nonzeroDivisors_app]
  · intro M
    have values : ∀ e ∈ a :: b :: c :: rest, ∃ w, (e.eval M).sort = .bv w := fun e member =>
      ⟨e.bits, (eval_sort M (parts e member).wellSorted).trans (parts e member).sort_eq⟩
    simp only [eval, evals_eq_map, List.map_cons, List.map_nil, Op.denote, List.foldl_cons,
      List.foldl_nil]
    rw [Value.append_assoc (values a (by simp)) (values b (by simp)) (values c (by simp))]

end

section

variable {e t : Expr} {args : List Expr} {w high low : Nat}

theorem getLsbD_foldl_and {x : BitVec w} (rest : List Value) (i : Nat) :
    (rest.foldl (fun acc b => BvOp.and.denote acc (b.toBV w)) x).getLsbD i =
      (x.getLsbD i && rest.all fun b => (b.toBV w).getLsbD i) := by
  induction rest generalizing x with
  | nil => simp
  | cons b rest ih =>
    rw [List.foldl_cons, ih, List.all_cons, BvOp.denote, BitVec.getLsbD_and, Bool.and_assoc]

theorem getLsbD_foldl_or {x : BitVec w} (rest : List Value) (i : Nat) :
    (rest.foldl (fun acc b => BvOp.or.denote acc (b.toBV w)) x).getLsbD i =
      (x.getLsbD i || rest.any fun b => (b.toBV w).getLsbD i) := by
  induction rest generalizing x with
  | nil => simp
  | cons b rest ih =>
    rw [List.foldl_cons, ih, List.any_cons, BvOp.denote, BitVec.getLsbD_or, Bool.or_assoc]

theorem testBit_and_args (sorted : HasSort (.app (.bv .and) args) (.bv w)) (M : Model) (i : Nat) :
    (toNat (.app (.bv .and) args) M).testBit i = true ↔
      ∀ e ∈ args, (e.toNat M).testBit i = true := by
  have parts : ∀ e ∈ args, e.HasSort (.bv w) := fun e => hasSort_arg sorted
  cases args with
  | nil => simp [hasSort_app, Op.accepts_bv] at sorted
  | cons a rest =>
    rw [List.forall_mem_cons] at parts
    rw [toNat, eval, evals_eq_map, List.map_cons, parts.1.eval_bv M, List.forall_mem_cons,
      parts.1.toNat_eq M]
    simp only [Op.denote, Value.toNat, BitVec.testBit_toNat, getLsbD_foldl_and,
      Bool.and_eq_true, List.all_map, List.all_eq_true, Function.comp_apply]
    refine and_congr_right fun _ => forall₂_congr fun e member => ?_
    rw [(parts.2 e member).toNat_eq M, BitVec.testBit_toNat, bv]

theorem testBit_or_args (sorted : HasSort (.app (.bv .or) args) (.bv w)) (M : Model) (i : Nat) :
    (toNat (.app (.bv .or) args) M).testBit i = true ↔
      ∃ e ∈ args, (e.toNat M).testBit i = true := by
  have parts : ∀ e ∈ args, e.HasSort (.bv w) := fun e => hasSort_arg sorted
  cases args with
  | nil => simp [hasSort_app, Op.accepts_bv] at sorted
  | cons a rest =>
    rw [List.forall_mem_cons] at parts
    rw [toNat, eval, evals_eq_map, List.map_cons, parts.1.eval_bv M, List.exists_mem_cons_iff,
      parts.1.toNat_eq M]
    simp only [Op.denote, Value.toNat, BitVec.testBit_toNat, getLsbD_foldl_or,
      Bool.or_eq_true, List.any_map, List.any_eq_true, Function.comp_apply]
    refine or_congr_right (exists_congr fun e => and_congr_right fun member => ?_)
    rw [(parts.2 e member).toNat_eq M, BitVec.testBit_toNat, bv]

/-- The operators that `simpl_bitwise` looks through, with what absorbs all other
arguments. -/
structure Bitwise (op : BvOp) (absorbs : Expr → Bool) : Prop where
  not_urem : op ≠ .urem
  /-- Arguments whose extracts are all one term have that term as their extract. -/
  equal : ∀ {args : List Expr} {w high low : Nat} {t : Expr}, HasSort (.app (.bv op) args) (.bv w) →
    low ≤ high → high < w → ∀ M, t.HasSort (.bv (high - low + 1)) →
    (∀ e ∈ args, t.toNat M = toNat (.app (.extract high low) [e]) M) →
    t.toNat M = toNat (.app (.extract high low) [.app (.bv op) args]) M
  /-- One argument with an absorbing extract is enough. -/
  absorb : ∀ {args : List Expr} {w high low : Nat} {t : Expr},
    HasSort (.app (.bv op) args) (.bv w) →
    low ≤ high → high < w → ∀ M, t.HasSort (.bv (high - low + 1)) → absorbs t = true →
    (∃ e ∈ args, t.toNat M = toNat (.app (.extract high low) [e]) M) →
    t.toNat M = toNat (.app (.extract high low) [.app (.bv op) args]) M

theorem hasSort_args_ne_nil
    {op : BvOp} {s : Srt} (sorted : HasSort (.app (.bv op) args) s) : ∃ e, e ∈ args := by
  obtain ⟨-, accepted, -⟩ := hasSort_app.1 sorted
  obtain ⟨v, t, rest, shape, -⟩ := Op.accepts_bv.1 accepted
  obtain ⟨a, others, rfl, -⟩ := List.map_eq_cons_iff.1 shape
  exact ⟨a, List.mem_cons_self⟩

theorem testBit_same_extracts {op : BvOp} {w high low i : Nat} {t : Expr} {M : Model}
    (sorted : HasSort (.app (.bv op) args) (.bv w))
    (same : ∀ e ∈ args, t.toNat M = toNat (.app (.extract high low) [e]) M) :
    ∀ e ∈ args, ((t.toNat M).testBit i = true ↔
      i < high - low + 1 ∧ (e.toNat M).testBit (low + i) = true) := by
  intro e inside
  rw [same e inside, testBit_extract M (hasSort_arg sorted inside), Bool.and_eq_true,
    decide_eq_true_iff]

theorem bitwise_and : Bitwise .and isZero where
  not_urem := by decide
  equal := by
    intro args w high low t sorted ordered inside M sortedT same
    obtain ⟨a, member⟩ := hasSort_args_ne_nil sorted
    apply Nat.eq_of_testBit_eq
    intro i
    rw [Bool.eq_iff_iff, testBit_extract M sorted, Bool.and_eq_true, decide_eq_true_iff,
      testBit_and_args sorted]
    have bits := testBit_same_extracts (i := i) sorted same
    constructor
    · intro holds
      exact ⟨((bits a member).1 holds).1, fun e inside => ((bits e inside).1 holds).2⟩
    · rintro ⟨range, holds⟩
      exact (bits a member).2 ⟨range, holds a member⟩
  absorb := by
    intro args w high low t sorted ordered inside M sortedT zero absorbed
    obtain ⟨a, member, same⟩ := absorbed
    rw [isZero_sorted sortedT] at zero
    apply Nat.eq_of_testBit_eq
    intro i
    rw [Bool.eq_iff_iff, testBit_extract M sorted, Bool.and_eq_true, decide_eq_true_iff,
      testBit_and_args sorted]
    have none_set : (t.toNat M).testBit i = false := by rw [zero]; simp
    rw [none_set]
    refine iff_of_false (by simp) ?_
    rintro ⟨range, holds⟩
    rw [same, testBit_extract M (hasSort_arg sorted member), holds a member] at none_set
    simp [range] at none_set

theorem bitwise_or : Bitwise .or isAllOnes where
  not_urem := by decide
  equal := by
    intro args w high low t sorted ordered inside M sortedT same
    obtain ⟨a, member⟩ := hasSort_args_ne_nil sorted
    apply Nat.eq_of_testBit_eq
    intro i
    rw [Bool.eq_iff_iff, testBit_extract M sorted, Bool.and_eq_true, decide_eq_true_iff,
      testBit_or_args sorted]
    have bits := testBit_same_extracts (i := i) sorted same
    constructor
    · intro holds
      obtain ⟨range, bit⟩ := (bits a member).1 holds
      exact ⟨range, a, member, bit⟩
    · rintro ⟨range, e, inside, bit⟩
      exact (bits e inside).2 ⟨range, bit⟩
  absorb := by
    intro args w high low t sorted ordered inside M sortedT ones absorbed
    obtain ⟨a, member, same⟩ := absorbed
    rw [isAllOnes_sorted sortedT] at ones
    apply Nat.eq_of_testBit_eq
    intro i
    rw [Bool.eq_iff_iff, testBit_extract M sorted, Bool.and_eq_true, decide_eq_true_iff,
      testBit_or_args sorted]
    have all_set : (t.toNat M).testBit i = decide (i < high - low + 1) := by
      rw [ones, toNat_num, BitVec.testBit_toNat, BitVec.getLsbD_allOnes]
    constructor
    · intro holds
      rw [all_set, decide_eq_true_iff] at holds
      refine ⟨holds, a, member, ?_⟩
      rw [same, testBit_extract M (hasSort_arg sorted member), decide_eq_true holds,
        Bool.true_and] at all_set
      exact all_set
    · rintro ⟨range, -⟩
      rw [all_set, decide_eq_true range]

end

section

variable {e : Expr} {w : Nat}

theorem signExt_zero (sorted : e.HasSort (.bv w)) : e.Same (.app (.signExt 0) [e]) := by
  apply Same.of_testBit sorted (sorted.signExt 0)
  · simp
  · intro M i inside
    rw [testBit_signExt M sorted]
    simp [inside]

theorem signExt_signExt (sorted : e.HasSort (.bv w)) (inner outer : Nat) :
    Same (.app (.signExt (inner + outer)) [e])
      (.app (.signExt outer) [.app (.signExt inner) [e]]) := by
  have middle := sorted.signExt inner
  have joined := sorted.signExt (inner + outer)
  rw [← Nat.add_assoc] at joined
  apply Same.of_testBit joined (middle.signExt outer)
  · simp
  · intro M i bit
    have positive := sorted.pos
    rw [testBit_signExt M sorted, testBit_signExt M middle, testBit_signExt M sorted,
      testBit_signExt M sorted]
    by_cases low : i < w
    · simp [low, bit, show i < w + inner by omega, show i < w + (inner + outer) by omega]
    · by_cases extended : i < w + inner
      · simp [low, extended, bit, show i < w + (inner + outer) by omega]
      · by_cases none_added : inner = 0
        · subst none_added
          simp [low, show i < w + outer by omega, show w - 1 < w by omega]
        · simp [low, extended, bit, show i < w + (inner + outer) by omega,
            show ¬w + inner - 1 < w by omega, show w + inner - 1 < w + inner by omega]

theorem zeros_signExt (sorted : e.HasSort (.bv w)) {amount : Nat} (positive : 0 < amount)
    (unsigned : ∀ M, e.NonzeroDivisors M → (e.toNat M).testBit (w - 1) = false) :
    StandsFor (.app .concat [mkUInt 0 amount, e]) (.app (.signExt amount) [e]) := by
  have zeros : (mkUInt 0 amount).HasSort (.bv amount) := hasSort_mkUInt positive
  have extended := sorted.signExt amount
  have whole := zeros.concat sorted
  rw [Nat.add_comm] at whole
  constructor
  · intro s other
    cases extended.unique other
    exact whole
  · intro M
    simp [mkUInt]
  · intro M safe
    rw [whole.bv_congr extended]
    apply Nat.eq_of_testBit_eq
    intro i
    rw [testBit_concat_pair M zeros sorted, testBit_signExt M sorted, toNat_mkUInt,
      unsigned M (by simpa using safe)]
    by_cases low : i < w
    · simp [low, show i < w + amount by omega]
    · simp [low]

end

end Expr

end AliveNext.Smt
