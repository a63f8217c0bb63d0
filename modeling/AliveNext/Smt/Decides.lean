import AliveNext.Smt.ConnectivesSound

/-!
# What a term says about its parts

A term built from other terms is described by what it decides, or computes, in
the models in which the parts divide by zero nowhere. These descriptions compose
along the connectives.
-/

namespace AliveNext.Smt

namespace Expr

def Safe (parts : List Expr) (M : Model) : Prop :=
  ∀ e ∈ parts, e.NonzeroDivisors M

structure Decides (t : Expr) (parts : List Expr) (p : Model → Prop) : Prop where
  sorted : t.HasSort .bool
  safe : ∀ M, Safe parts M → t.NonzeroDivisors M
  truth : ∀ M, Safe parts M → (t.truth M = true ↔ p M)

/-- A number of `w` bits computed from the parts. -/
structure Computes (t : Expr) (w : Nat) (parts : List Expr) (f : Model → Nat) : Prop where
  sorted : t.HasSort (.bv w)
  safe : ∀ M, Safe parts M → t.NonzeroDivisors M
  value : ∀ M, Safe parts M → t.toNat M = f M

/-- A bit-vector of `w` bits computed from the parts. -/
structure Denotes (t : Expr) (w : Nat) (parts : List Expr) (x : Model → BitVec w) : Prop where
  sorted : t.HasSort (.bv w)
  safe : ∀ M, Safe parts M → t.NonzeroDivisors M
  value : ∀ M, Safe parts M → t.bv M w = x M

section

variable {a b c e t u : Expr} {w : Nat} {s : Srt} {parts parts' : List Expr}
  {p q : Model → Prop} {f g : Model → Nat} {M : Model}

@[simp] theorem safe_single : Safe [a] M ↔ a.NonzeroDivisors M := by
  simp [Safe]

@[simp] theorem safe_pair : Safe [a, b] M ↔ a.NonzeroDivisors M ∧ b.NonzeroDivisors M := by
  simp [Safe]

@[simp] theorem safe_triple :
    Safe [a, b, c] M ↔ a.NonzeroDivisors M ∧ b.NonzeroDivisors M ∧ c.NonzeroDivisors M := by
  simp [Safe]

theorem safe_app {op : Op} {args : List Expr}
    (other : op ≠ .bv .urem) : NonzeroDivisors (.app op args) M ↔ Safe args M :=
  nonzeroDivisors_app other

theorem Safe.mono (safe : Safe parts M) (fewer : parts' ⊆ parts) : Safe parts' M :=
  fun e member => safe e (fewer member)

namespace Decides

theorem mono (decides : t.Decides parts p) (more : parts ⊆ parts') : t.Decides parts' p where
  sorted := decides.sorted
  safe M safe := decides.safe M (safe.mono more)
  truth M safe := decides.truth M (safe.mono more)

theorem congr
    (decides : t.Decides parts p) (same : ∀ M, Safe parts M → (p M ↔ q M)) : t.Decides parts q where
  sorted := decides.sorted
  safe := decides.safe
  truth M safe := (decides.truth M safe).trans (same M safe)

theorem const {x : Bool} (same : ∀ M, Safe parts M → (x = true ↔ p M)) :
    Decides (.bool x) parts p where
  sorted := hasSort_bool.2 rfl
  safe _ _ := nonzeroDivisors_bool x
  truth M safe := by
    rw [truth_bool]
    exact same M safe

theorem of_stands (decides : u.Decides parts p) (stands : t.StandsFor u) : t.Decides parts p where
  sorted := stands.sorted _ decides.sorted
  safe M safe := stands.safe M (decides.safe M safe)
  truth M safe := by
    rw [stands.truth_eq (decides.safe M safe)]
    exact decides.truth M safe

theorem plain
    {op : Op} {args : List Expr} (other : op ≠ .bv .urem) (sorted : HasSort (.app op args) .bool)
    (truth : ∀ M, Expr.truth (.app op args) M = true ↔ p M) :
    Decides (.app op args) args p where
  sorted := sorted
  safe _ safe := (safe_app other).2 safe
  truth M _ := truth M

theorem standsFor {op : Op} {args : List Expr} (decides : t.Decides args p)
    (other : op ≠ .bv .urem) (sorted : HasSort (.app op args) .bool)
    (truth : ∀ M, Safe args M → (Expr.truth (.app op args) M = true ↔ p M)) :
    t.StandsFor (.app op args) where
  sorted s other := by
    cases sorted.unique other
    exact decides.sorted
  safe M safe := decides.safe M ((safe_app other).1 safe)
  eval_eq M safe := by
    have parts := (safe_app other).1 safe
    rw [decides.sorted.bool_congr sorted, Bool.eq_iff_iff, decides.truth M parts, truth M parts]

theorem not (decides : t.Decides parts p) : (not t).Decides parts fun M => ¬p M where
  sorted := hasSort_not_eq decides.sorted
  safe M safe := nonzeroDivisors_not decides.sorted (decides.safe M safe)
  truth M safe := by
    rw [truth_not_eq decides.sorted, Bool.not_eq_true', ← decides.truth M safe, Bool.not_eq_true]

theorem and (first : t.Decides parts p)
    (second : u.Decides parts q) : (and t u).Decides parts fun M => p M ∧ q M where
  sorted := hasSort_and_eq first.sorted second.sorted
  safe M safe :=
    nonzeroDivisors_and first.sorted second.sorted (first.safe M safe) (second.safe M safe)
  truth M safe := by
    rw [truth_and_eq first.sorted second.sorted, Bool.and_eq_true, first.truth M safe,
      second.truth M safe]

theorem or (first : t.Decides parts p)
    (second : u.Decides parts q) : (or t u).Decides parts fun M => p M ∨ q M where
  sorted := hasSort_or_eq first.sorted second.sorted
  safe M safe :=
    nonzeroDivisors_or first.sorted second.sorted (first.safe M safe) (second.safe M safe)
  truth M safe := by
    rw [truth_or_eq first.sorted second.sorted, Bool.or_eq_true, first.truth M safe,
      second.truth M safe]

theorem of_isTrue
    (decides : t.Decides parts p) (known : t.isTrue = true) (safe : Safe parts M) : p M :=
  (decides.truth M safe).1 (truth_of_isTrue known M)

theorem of_isFalse
    (decides : t.Decides parts p) (known : t.isFalse = true) (safe : Safe parts M) : ¬p M := by
  intro holds
  have both := (decides.truth M safe).2 holds
  rw [truth_of_isFalse known] at both
  cases both

end Decides

theorem hasSort_eq_of
    (left : a.HasSort s) (right : b.HasSort s) : HasSort (.app .eq [a, b]) .bool :=
  hasSort_eq.2 ⟨rfl, s, left, right⟩

theorem decides_eq (left : a.HasSort s) (right : b.HasSort s) :
    Decides (.app .eq [a, b]) [a, b] fun M => a.eval M = b.eval M :=
  .plain (by simp) (hasSort_eq_of left right) truth_eq

theorem Decides.eq (decides : t.Decides [a, b] fun M => a.eval M = b.eval M) (left : a.HasSort s)
    (right : b.HasSort s) : t.StandsFor (.app .eq [a, b]) :=
  decides.standsFor (by simp) (hasSort_eq_of left right) fun M _ => truth_eq M

namespace Computes

theorem congr (computes : t.Computes w parts f)
    (same : ∀ M, Safe parts M → f M = g M) : t.Computes w parts g where
  sorted := computes.sorted
  safe := computes.safe
  value M safe := (computes.value M safe).trans (same M safe)

theorem of_stands
    (computes : u.Computes w parts f) (stands : t.StandsFor u) : t.Computes w parts f where
  sorted := stands.sorted _ computes.sorted
  safe M safe := stands.safe M (computes.safe M safe)
  value M safe := (stands.toNat_eq (computes.safe M safe)).trans (computes.value M safe)

theorem refl (sorted : e.HasSort (.bv w)) : e.Computes w [e] (e.toNat ·) where
  sorted := sorted
  safe _ safe := safe_single.1 safe
  value _ _ := rfl

theorem plain {op : Op} {args : List Expr} (other : op ≠ .bv .urem)
    (sorted : HasSort (.app op args) (.bv w)) :
    Computes (.app op args) w args (toNat (.app op args) ·) where
  sorted := sorted
  safe _ safe := (safe_app other).2 safe
  value _ _ := rfl

theorem within
    {inner : List Expr} (computes : t.Computes w inner f) (safe : ∀ M, Safe parts M → Safe inner M)
    (value : ∀ M, Safe parts M → f M = g M) : t.Computes w parts g where
  sorted := computes.sorted
  safe M parts := computes.safe M (safe M parts)
  value M parts := (computes.value M (safe M parts)).trans (value M parts)

theorem denotes {x : Model → BitVec w} (computes : t.Computes w parts f)
    (value : ∀ M, Safe parts M → f M = (x M).toNat) : t.Denotes w parts x := by
  refine ⟨computes.sorted, computes.safe, fun M safe => BitVec.eq_of_toNat_eq ?_⟩
  rw [← computes.sorted.toNat_eq M, computes.value M safe, value M safe]

theorem standsFor {op : Op} {args : List Expr} (computes : t.Computes w args f)
    (other : op ≠ .bv .urem) (sorted : HasSort (.app op args) (.bv w))
    (value : ∀ M, Safe args M → toNat (.app op args) M = f M) :
    t.StandsFor (.app op args) where
  sorted s other := by
    cases sorted.unique other
    exact computes.sorted
  safe M safe := computes.safe M ((safe_app other).1 safe)
  eval_eq M safe := by
    have parts := (safe_app other).1 safe
    rw [computes.sorted.bv_congr sorted, computes.value M parts, value M parts]

end Computes

namespace Denotes

variable {v : Nat} {x y : Model → BitVec w}

theorem mono (denotes : t.Denotes w parts x) (more : parts ⊆ parts') : t.Denotes w parts' x where
  sorted := denotes.sorted
  safe M safe := denotes.safe M (safe.mono more)
  value M safe := denotes.value M (safe.mono more)

theorem congr (denotes : t.Denotes w parts x)
    (same : ∀ M, Safe parts M → x M = y M) : t.Denotes w parts y where
  sorted := denotes.sorted
  safe := denotes.safe
  value M safe := (denotes.value M safe).trans (same M safe)

theorem refl (sorted : e.HasSort (.bv w)) : e.Denotes w [e] fun M => e.bv M w where
  sorted := sorted
  safe _ safe := safe_single.1 safe
  value _ _ := rfl

theorem computes (denotes : t.Denotes w parts x) : t.Computes w parts fun M => (x M).toNat where
  sorted := denotes.sorted
  safe := denotes.safe
  value M safe := by rw [denotes.sorted.toNat_eq M, denotes.value M safe]

theorem num (positive : 0 < w) (c : BitVec w) : Denotes (.num w c) w parts fun _ => c where
  sorted := hasSort_num.2 ⟨positive, rfl⟩
  safe _ _ := trivial
  value M _ := bv_num M c

theorem of_stands_bv {op : BvOp} (other : op ≠ .urem)
    (stands : t.StandsFor (.app (.bv op) [a, b])) (first : a.Denotes w parts x)
    (second : b.Denotes w parts y) : t.Denotes w parts fun M => op.denote (x M) (y M) := by
  have safe : ∀ M, Safe parts M → NonzeroDivisors (.app (.bv op) [a, b]) M := fun M parts =>
    (nonzeroDivisors_pair (by simpa using other)).2 ⟨first.safe M parts, second.safe M parts⟩
  refine ⟨stands.sorted _ (hasSort_bv.2 ⟨first.sorted, second.sorted⟩),
    fun M parts => stands.safe M (safe M parts), fun M parts => ?_⟩
  rw [stands.bv_eq (safe M parts), bv_bv M first.sorted, first.value M parts, second.value M parts]

end Denotes

end

end Expr

end AliveNext.Smt
