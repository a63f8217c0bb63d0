import AliveNext.Smt.TermFacts

/-!
# Terms of a known sort

`HasSort e s` is what every constructor asks of its arguments. For each operator
one lemma says when an application has a sort, and one what its value is in
terms of the values of its arguments.
-/

namespace AliveNext.Smt

namespace Expr

structure HasSort (e : Expr) (s : Srt) : Prop where
  wellSorted : e.wellSorted = true
  sort_eq : e.sort = s

/-- The width of a term (`expr::bits`). -/
def bits (e : Expr) : Nat := e.sort.bits

noncomputable def bv (e : Expr) (M : Model) (w : Nat) : BitVec w := (e.eval M).toBV w

noncomputable def toNat (e : Expr) (M : Model) : Nat := (e.eval M).toNat

noncomputable def truth (e : Expr) (M : Model) : Bool := (e.eval M).toBool

namespace HasSort

variable {e a b c : Expr} {s : Srt} {w : Nat}

theorem unique {t : Srt} (first : e.HasSort s) (second : e.HasSort t) : s = t :=
  first.sort_eq.symm.trans second.sort_eq

theorem bits_eq (sorted : e.HasSort (.bv w)) : e.bits = w := by
  rw [bits, sorted.sort_eq]
  rfl

theorem pos (sorted : e.HasSort (.bv w)) : 0 < w := by
  have wf := sort_wf sorted.wellSorted
  rw [sorted.sort_eq] at wf
  simpa [Srt.wf] using wf

theorem eval_bv (sorted : e.HasSort (.bv w)) (M : Model) : e.eval M = .bv w (e.bv M w) :=
  Value.bv_of_sort ((eval_sort M sorted.wellSorted).trans sorted.sort_eq)

theorem eval_bool (sorted : e.HasSort .bool) (M : Model) : e.eval M = .bool (e.truth M) :=
  Value.bool_of_sort ((eval_sort M sorted.wellSorted).trans sorted.sort_eq)

theorem toNat_eq (sorted : e.HasSort (.bv w)) (M : Model) : e.toNat M = (e.bv M w).toNat := by
  rw [toNat, sorted.eval_bv M]
  rfl

theorem toNat_lt (sorted : e.HasSort (.bv w)) (M : Model) : e.toNat M < 2 ^ w := by
  rw [sorted.toNat_eq M]
  exact (e.bv M w).isLt

theorem testBit_ge {i : Nat} (sorted : e.HasSort (.bv w)) (M : Model) (outside : w ≤ i) :
    (e.toNat M).testBit i = false :=
  Nat.testBit_lt_two_pow ((sorted.toNat_lt M).trans_le (Nat.pow_le_pow_right Nat.two_pos outside))

theorem bv_congr (left : a.HasSort (.bv w)) (right : b.HasSort (.bv w)) (M : Model) :
    a.eval M = b.eval M ↔ a.toNat M = b.toNat M := by
  rw [left.eval_bv M, right.eval_bv M, left.toNat_eq M, right.toNat_eq M, ← BitVec.toNat_eq]
  simp

theorem bool_congr (left : a.HasSort .bool) (right : b.HasSort .bool) (M : Model) :
    a.eval M = b.eval M ↔ a.truth M = b.truth M := by
  rw [left.eval_bool M, right.eval_bool M]
  simp

end HasSort

theorem hasSort_app {op : Op} {args : List Expr} {s : Srt} : HasSort (.app op args) s ↔
      (∀ e ∈ args, e.wellSorted = true) ∧
        op.accepts (args.map sort) = true ∧ op.sort (args.map sort) = s := by
  constructor
  · rintro ⟨sorted, rfl⟩
    rw [wellSorted, Bool.and_eq_true, wellSortedAll_iff, sorts_eq_map] at sorted
    exact ⟨sorted.1, sorted.2, by rw [sort, sorts_eq_map]⟩
  · rintro ⟨sorted, accepted, rfl⟩
    constructor
    · rw [wellSorted, Bool.and_eq_true, wellSortedAll_iff, sorts_eq_map]
      exact ⟨sorted, accepted⟩
    · rw [sort, sorts_eq_map]

section

variable {a b c : Expr} {s : Srt} {w : Nat}

@[simp] theorem hasSort_num {v : Nat} {x : BitVec v} :
    HasSort (.num v x) s ↔ 0 < v ∧ s = .bv v := by
  constructor
  · rintro ⟨sorted, rfl⟩
    exact ⟨by simpa [wellSorted] using sorted, rfl⟩
  · rintro ⟨positive, rfl⟩
    exact ⟨by simpa [wellSorted] using positive, rfl⟩

@[simp] theorem hasSort_bool {x : Bool} : HasSort (.bool x) s ↔ s = .bool := by
  constructor
  · rintro ⟨-, rfl⟩
    rfl
  · rintro rfl
    exact ⟨rfl, rfl⟩

variable {op : BvOp} {args : List Expr}

theorem hasSort_bv :
    HasSort (.app (.bv op) [a, b]) (.bv w) ↔ a.HasSort (.bv w) ∧ b.HasSort (.bv w) := by
  rw [hasSort_app, Op.accepts_bv]
  constructor
  · rintro ⟨sorted, ⟨v, s, rest, shape, same, -⟩, result⟩
    simp only [List.map_cons, List.map_nil, List.cons.injEq] at shape
    obtain ⟨first, second, rfl⟩ := shape
    cases (first.symm.trans result : Srt.bv v = .bv w)
    exact ⟨⟨sorted a (by simp), first⟩,
      ⟨sorted b (by simp), second.trans (same s List.mem_cons_self)⟩⟩
  · rintro ⟨⟨sorted, first⟩, ⟨sorted', second⟩⟩
    simp [sorted, sorted', first, second, Op.sort]

theorem hasSort_bvnot : HasSort (.app .bvnot [a]) (.bv w) ↔ a.HasSort (.bv w) := by
  rw [hasSort_app, Op.accepts_bvnot]
  constructor
  · rintro ⟨sorted, -, result⟩
    exact ⟨sorted a (by simp), result⟩
  · rintro ⟨sorted, first⟩
    simp [sorted, first, Op.sort]

theorem hasSort_ule : HasSort (.app .ule [a, b]) s ↔
      s = .bool ∧ ∃ w, a.HasSort (.bv w) ∧ b.HasSort (.bv w) := by
  rw [hasSort_app, Op.accepts_ule]
  constructor
  · rintro ⟨sorted, ⟨w, shape⟩, rfl⟩
    simp only [List.map_cons, List.map_nil, List.cons.injEq, and_true] at shape
    exact ⟨rfl, w, ⟨sorted a (by simp), shape.1⟩, ⟨sorted b (by simp), shape.2⟩⟩
  · rintro ⟨rfl, w, ⟨sorted, first⟩, ⟨sorted', second⟩⟩
    simp [sorted, sorted', first, second, Op.sort]

theorem hasSort_sle : HasSort (.app .sle [a, b]) s ↔
      s = .bool ∧ ∃ w, a.HasSort (.bv w) ∧ b.HasSort (.bv w) := by
  rw [hasSort_app, Op.accepts_sle]
  constructor
  · rintro ⟨sorted, ⟨w, shape⟩, rfl⟩
    simp only [List.map_cons, List.map_nil, List.cons.injEq, and_true] at shape
    exact ⟨rfl, w, ⟨sorted a (by simp), shape.1⟩, ⟨sorted b (by simp), shape.2⟩⟩
  · rintro ⟨rfl, w, ⟨sorted, first⟩, ⟨sorted', second⟩⟩
    simp [sorted, sorted', first, second, Op.sort]

theorem hasSort_extract {high low : Nat} : HasSort (.app (.extract high low) [a]) s ↔
      s = .bv (high - low + 1) ∧ low ≤ high ∧ ∃ w, high < w ∧ a.HasSort (.bv w) := by
  rw [hasSort_app, Op.accepts_extract]
  constructor
  · rintro ⟨sorted, ⟨w, shape, ordered, inside⟩, rfl⟩
    simp only [List.map_cons, List.map_nil, List.cons.injEq, and_true] at shape
    exact ⟨rfl, ordered, w, inside, ⟨sorted a (by simp), shape⟩⟩
  · rintro ⟨rfl, ordered, w, inside, ⟨sorted, first⟩⟩
    simp [sorted, first, ordered, inside, Op.sort]

theorem hasSort_signExt {amount : Nat} : HasSort (.app (.signExt amount) [a]) s ↔
      ∃ w, s = .bv (w + amount) ∧ a.HasSort (.bv w) := by
  rw [hasSort_app, Op.accepts_signExt]
  constructor
  · rintro ⟨sorted, ⟨w, shape⟩, rfl⟩
    simp only [List.map_cons, List.map_nil, List.cons.injEq, and_true] at shape
    exact ⟨w, by simp [Op.sort, shape, Srt.bits], ⟨sorted a (by simp), shape⟩⟩
  · rintro ⟨w, rfl, ⟨sorted, first⟩⟩
    simp [sorted, first, Op.sort, Srt.bits]

theorem hasSort_eq : HasSort (.app .eq [a, b]) s ↔ s = .bool ∧ ∃ t, a.HasSort t ∧ b.HasSort t := by
  rw [hasSort_app, Op.accepts_eq]
  constructor
  · rintro ⟨sorted, ⟨t, shape⟩, rfl⟩
    simp only [List.map_cons, List.map_nil, List.cons.injEq, and_true] at shape
    exact ⟨rfl, t, ⟨sorted a (by simp), shape.1⟩, ⟨sorted b (by simp), shape.2⟩⟩
  · rintro ⟨rfl, t, ⟨sorted, first⟩, ⟨sorted', second⟩⟩
    simp [sorted, sorted', first, second, Op.sort]

theorem hasSort_ite : HasSort (.app .ite [c, a, b]) s ↔
      c.HasSort .bool ∧ a.HasSort s ∧ b.HasSort s := by
  rw [hasSort_app, Op.accepts_ite]
  constructor
  · rintro ⟨sorted, ⟨t, shape⟩, rfl⟩
    simp only [List.map_cons, List.map_nil, List.cons.injEq, and_true] at shape
    obtain ⟨cond, rfl, second⟩ := shape
    exact ⟨⟨sorted c (by simp), cond⟩, ⟨sorted a (by simp), rfl⟩, ⟨sorted b (by simp), second⟩⟩
  · rintro ⟨⟨sorted, cond⟩, ⟨sorted', first⟩, ⟨sorted'', second⟩⟩
    simp [sorted, sorted', sorted'', cond, first, second, Op.sort]

theorem hasSort_and :
    HasSort (.app .and [a, b]) s ↔ s = .bool ∧ a.HasSort .bool ∧ b.HasSort .bool := by
  rw [hasSort_app, Op.accepts_and]
  constructor
  · rintro ⟨sorted, ⟨-, shape⟩, rfl⟩
    exact ⟨rfl, ⟨sorted a (by simp), shape _ (by simp)⟩, ⟨sorted b (by simp), shape _ (by simp)⟩⟩
  · rintro ⟨rfl, ⟨sorted, first⟩, ⟨sorted', second⟩⟩
    simp [sorted, sorted', first, second, Op.sort]

theorem hasSort_or :
    HasSort (.app .or [a, b]) s ↔ s = .bool ∧ a.HasSort .bool ∧ b.HasSort .bool := by
  rw [hasSort_app, Op.accepts_or]
  constructor
  · rintro ⟨sorted, ⟨-, shape⟩, rfl⟩
    exact ⟨rfl, ⟨sorted a (by simp), shape _ (by simp)⟩, ⟨sorted b (by simp), shape _ (by simp)⟩⟩
  · rintro ⟨rfl, ⟨sorted, first⟩, ⟨sorted', second⟩⟩
    simp [sorted, sorted', first, second, Op.sort]

theorem hasSort_not : HasSort (.app .not [a]) s ↔ s = .bool ∧ a.HasSort .bool := by
  rw [hasSort_app, Op.accepts_not]
  constructor
  · rintro ⟨sorted, shape, rfl⟩
    simp only [List.map_cons, List.map_nil, List.cons.injEq, and_true] at shape
    exact ⟨rfl, ⟨sorted a (by simp), shape⟩⟩
  · rintro ⟨rfl, ⟨sorted, first⟩⟩
    simp [sorted, first, Op.sort]

theorem hasSort_concat : HasSort (.app .concat args) s ↔
      s = .bv (args.map bits).sum ∧ 2 ≤ args.length ∧ ∀ e ∈ args, e.HasSort (.bv e.bits) := by
  rw [hasSort_app, Op.accepts_concat]
  constructor
  · rintro ⟨sorted, ⟨long, widths⟩, rfl⟩
    refine ⟨by rw [Op.sort, List.map_map]; rfl, by simpa using long, ?_⟩
    intro e member
    obtain ⟨w, width⟩ := widths e.sort (List.mem_map_of_mem member)
    exact ⟨sorted e member, by rw [bits, width, Srt.bits]⟩
  · rintro ⟨rfl, long, sorted⟩
    refine ⟨fun e member => (sorted e member).wellSorted, ⟨by simpa using long, ?_⟩, ?_⟩
    · intro t member
      obtain ⟨e, inside, rfl⟩ := List.mem_map.1 member
      exact ⟨e.bits, (sorted e inside).sort_eq⟩
    · rw [Op.sort, List.map_map]
      rfl

theorem hasSort_concat_pair : HasSort (.app .concat [a, b]) s ↔
      ∃ v w, s = .bv (v + w) ∧ a.HasSort (.bv v) ∧ b.HasSort (.bv w) := by
  rw [hasSort_concat]
  constructor
  · rintro ⟨rfl, -, sorted⟩
    exact ⟨a.bits, b.bits, by simp, sorted a (by simp), sorted b (by simp)⟩
  · rintro ⟨v, w, rfl, left, right⟩
    have first := left.bits_eq
    have second := right.bits_eq
    subst first second
    simp [left, right]

theorem hasSort_arg (sorted : HasSort (.app (.bv op) args) (.bv w))
    {e : Expr} (member : e ∈ args) : e.HasSort (.bv w) := by
  obtain ⟨parts, accepted, result⟩ := hasSort_app.1 sorted
  obtain ⟨v, s, rest, shape, same, -⟩ := Op.accepts_bv.1 accepted
  refine ⟨parts e member, ?_⟩
  have inside : e.sort ∈ args.map sort := List.mem_map_of_mem member
  rw [shape] at inside result
  cases (result : Srt.bv v = .bv w)
  rcases List.mem_cons.1 inside with first | others
  · exact first
  · exact same _ others

end

section

variable {a b c : Expr} {w : Nat} (M : Model)

@[simp] theorem truth_bool (x : Bool) : truth (.bool x) M = x := rfl

@[simp] theorem toNat_num (v : Nat) (x : BitVec v) : toNat (.num v x) M = x.toNat := rfl

theorem bv_num (x : BitVec w) : bv (.num w x) M w = x := BitVec.setWidth_eq x

@[simp] theorem eval_ite :
    eval (.app .ite [c, a, b]) M = if c.truth M then a.eval M else b.eval M := rfl

@[simp] theorem truth_ite :
    truth (.app .ite [c, a, b]) M = if c.truth M then a.truth M else b.truth M := by
  rw [truth, eval_ite, apply_ite Value.toBool]
  rfl

@[simp] theorem toNat_ite :
    toNat (.app .ite [c, a, b]) M = if c.truth M then a.toNat M else b.toNat M := by
  rw [toNat, eval_ite, apply_ite Value.toNat]
  rfl

@[simp] theorem truth_and : truth (.app .and [a, b]) M = (a.truth M && b.truth M) := by
  simp [truth, eval, Op.denote, Value.toBool]

@[simp] theorem truth_or : truth (.app .or [a, b]) M = (a.truth M || b.truth M) := by
  simp [truth, eval, Op.denote, Value.toBool]

@[simp] theorem truth_not : truth (.app .not [a]) M = !a.truth M := by
  simp [truth, eval, Op.denote, Value.toBool]

theorem truth_eq : truth (.app .eq [a, b]) M = true ↔ a.eval M = b.eval M :=
  Value.same_iff (a.eval M) (b.eval M)

section

variable (left : a.HasSort (.bv w))

include left

theorem truth_eq_bv (right : b.HasSort (.bv w)) :
    truth (.app .eq [a, b]) M = decide (a.toNat M = b.toNat M) := by
  rw [Bool.eq_iff_iff, truth_eq, left.bv_congr right, decide_eq_true_iff]

theorem truth_ule : truth (.app .ule [a, b]) M = (a.bv M w).ule (b.bv M w) := by
  simp only [truth, eval, evals, Op.denote, left.eval_bv M]
  rfl

theorem truth_sle : truth (.app .sle [a, b]) M = (a.bv M w).sle (b.bv M w) := by
  simp only [truth, eval, evals, Op.denote, left.eval_bv M]
  rfl

theorem bv_bv {op : BvOp} : bv (.app (.bv op) [a, b]) M w = op.denote (a.bv M w) (b.bv M w) := by
  rw [bv, eval, evals, left.eval_bv M]
  exact BitVec.setWidth_eq _

end

section

variable (sorted : a.HasSort (.bv w))

include sorted

theorem bv_bvnot : bv (.app .bvnot [a]) M w = ~~~(a.bv M w) := by
  rw [bv, eval, evals, sorted.eval_bv M]
  exact BitVec.setWidth_eq _

theorem toNat_bvnot : toNat (.app .bvnot [a]) M = 2 ^ w - 1 - a.toNat M := by
  rw [(hasSort_bvnot.2 sorted).toNat_eq M, bv_bvnot M sorted, BitVec.toNat_not, sorted.toNat_eq M]

theorem testBit_extract {high low : Nat} (i : Nat) :
    (toNat (.app (.extract high low) [a]) M).testBit i =
      (decide (i < high - low + 1) && (a.toNat M).testBit (low + i)) := by
  rw [sorted.toNat_eq M]
  simp [toNat, eval, Op.denote, sorted.eval_bv M, Value.toNat, BitVec.extractLsb,
    BitVec.extractLsb', Nat.testBit_shiftRight]

theorem testBit_signExt {amount : Nat} (i : Nat) :
    (toNat (.app (.signExt amount) [a]) M).testBit i =
      (decide (i < w + amount) &&
        if i < w then (a.toNat M).testBit i else (a.toNat M).testBit (w - 1)) := by
  rw [sorted.toNat_eq M]
  simp only [toNat, eval, Op.denote, evals, sorted.eval_bv M, Value.toNat, BitVec.testBit_toNat,
    BitVec.getLsbD_signExtend, BitVec.msb_eq_getLsbD_last]

end

theorem testBit_concat_pair
    {v : Nat} (left : a.HasSort (.bv v)) (right : b.HasSort (.bv w)) (i : Nat) :
    (toNat (.app .concat [a, b]) M).testBit i =
      if i < w then (b.toNat M).testBit i else (a.toNat M).testBit (i - w) := by
  rw [left.toNat_eq M, right.toNat_eq M]
  simp only [toNat, eval, Op.denote, evals, left.eval_bv M, right.eval_bv M, List.foldl_cons,
    List.foldl_nil, Value.append, Value.toNat, BitVec.testBit_toNat, BitVec.getLsbD_append]

end

section

variable {a b : Expr} {M : Model}

@[simp] theorem nonzeroDivisors_num (v : Nat) (x : BitVec v) :
    NonzeroDivisors (.num v x) M := trivial

@[simp] theorem nonzeroDivisors_bool (x : Bool) : NonzeroDivisors (.bool x) M := trivial

variable {op : Op} {args : List Expr}

theorem nonzeroDivisors_app (other : op ≠ .bv .urem) :
    NonzeroDivisors (.app op args) M ↔ ∀ e ∈ args, e.NonzeroDivisors M := by
  rw [NonzeroDivisors, nonzeroDivisorsAll_iff, and_iff_left fun same => absurd same other]

@[simp] theorem nonzeroDivisors_single (other : op ≠ .bv .urem) :
    NonzeroDivisors (.app op [a]) M ↔ a.NonzeroDivisors M := by
  simp [nonzeroDivisors_app other]

@[simp] theorem nonzeroDivisors_pair (other : op ≠ .bv .urem) :
    NonzeroDivisors (.app op [a, b]) M ↔ a.NonzeroDivisors M ∧ b.NonzeroDivisors M := by
  simp [nonzeroDivisors_app other]

@[simp] theorem nonzeroDivisors_triple {c : Expr} (other : op ≠ .bv .urem) :
    NonzeroDivisors (.app op [a, b, c]) M ↔
      a.NonzeroDivisors M ∧ b.NonzeroDivisors M ∧ c.NonzeroDivisors M := by
  simp [nonzeroDivisors_app other]

theorem NonzeroDivisors.arg (safe : NonzeroDivisors (.app op args) M)
    {e : Expr} (member : e ∈ args) : e.NonzeroDivisors M :=
  (nonzeroDivisorsAll_iff args M).1 safe.1 e member

theorem nonzeroDivisors_urem : NonzeroDivisors (.app (.bv .urem) [a, b]) M ↔
      a.NonzeroDivisors M ∧ b.NonzeroDivisors M ∧ b.toNat M ≠ 0 := by
  simp [NonzeroDivisors, toNat, and_assoc]

end

end Expr

end AliveNext.Smt
