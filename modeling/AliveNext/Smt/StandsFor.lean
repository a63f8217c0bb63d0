import AliveNext.Smt.Sorted

/-!
# Terms that stand for other terms

A constructor of `smt/expr.cpp` may return any term as long as it stands for the
plain application it was asked for: it has the same sort, and the same value in
every model in which the plain application divides by zero nowhere.
-/

namespace AliveNext.Smt

namespace Expr

structure StandsFor (t e : Expr) : Prop where
  sorted : ∀ s, e.HasSort s → t.HasSort s
  safe : ∀ M, e.NonzeroDivisors M → t.NonzeroDivisors M
  eval_eq : ∀ M, e.NonzeroDivisors M → t.eval M = e.eval M

/-- Terms of one sort with one value in every model, divisions by zero included. -/
structure Same (t e : Expr) : Prop where
  sorted : ∀ s, e.HasSort s → t.HasSort s
  safe : ∀ M, e.NonzeroDivisors M → t.NonzeroDivisors M
  eval_eq : ∀ M, t.eval M = e.eval M

namespace Same

variable {e t u : Expr}

@[refl] theorem refl (e : Expr) : e.Same e where
  sorted _ sorted := sorted
  safe _ safe := safe
  eval_eq _ := rfl

theorem trans (first : t.Same u) (second : u.Same e) : t.Same e where
  sorted s sorted := first.sorted s (second.sorted s sorted)
  safe M safe := first.safe M (second.safe M safe)
  eval_eq M := (first.eval_eq M).trans (second.eval_eq M)

theorem standsFor (same : t.Same e) : t.StandsFor e where
  sorted := same.sorted
  safe := same.safe
  eval_eq M _ := same.eval_eq M

theorem truth_eq (same : t.Same e) (M : Model) : t.truth M = e.truth M := by
  rw [truth, truth, same.eval_eq M]

theorem of_eval {s : Srt} (sorted : t.HasSort s) (sorted' : e.HasSort s)
    (safe : ∀ M, e.NonzeroDivisors M → t.NonzeroDivisors M)
    (eval_eq : ∀ M, t.eval M = e.eval M) : t.Same e where
  sorted s' other := by
    cases sorted'.unique other
    exact sorted
  safe := safe
  eval_eq := eval_eq

theorem of_truth (sorted : t.HasSort .bool) (sorted' : e.HasSort .bool)
    (safe : ∀ M, e.NonzeroDivisors M → t.NonzeroDivisors M)
    (truth_eq : ∀ M, t.truth M = e.truth M) : t.Same e :=
  of_eval sorted sorted' safe fun M => (sorted.bool_congr sorted' M).2 (truth_eq M)

theorem of_toNat {w : Nat} (sorted : t.HasSort (.bv w)) (sorted' : e.HasSort (.bv w))
    (safe : ∀ M, e.NonzeroDivisors M → t.NonzeroDivisors M)
    (toNat_eq : ∀ M, t.toNat M = e.toNat M) : t.Same e :=
  of_eval sorted sorted' safe fun M => (sorted.bv_congr sorted' M).2 (toNat_eq M)

theorem of_testBit {w : Nat} (sorted : t.HasSort (.bv w)) (sorted' : e.HasSort (.bv w))
    (safe : ∀ M, e.NonzeroDivisors M → t.NonzeroDivisors M)
    (bits : ∀ M i, i < w → (t.toNat M).testBit i = (e.toNat M).testBit i) : t.Same e := by
  apply of_toNat sorted sorted' safe
  intro M
  apply Nat.eq_of_testBit_eq
  intro i
  by_cases inside : i < w
  · exact bits M i inside
  · rw [sorted.testBit_ge M (by omega), sorted'.testBit_ge M (by omega)]

end Same

namespace StandsFor

variable {a a' b b' c c' e t u : Expr}

@[refl] theorem refl (e : Expr) : e.StandsFor e where
  sorted _ sorted := sorted
  safe _ safe := safe
  eval_eq _ _ := rfl

theorem trans (first : t.StandsFor u) (second : u.StandsFor e) : t.StandsFor e where
  sorted s sorted := first.sorted s (second.sorted s sorted)
  safe M safe := first.safe M (second.safe M safe)
  eval_eq M safe := (first.eval_eq M (second.safe M safe)).trans (second.eval_eq M safe)

theorem toNat_eq
    (stands : t.StandsFor e) {M : Model} (safe : e.NonzeroDivisors M) : t.toNat M = e.toNat M := by
  rw [toNat, toNat, stands.eval_eq M safe]

theorem truth_eq
    (stands : t.StandsFor e) {M : Model} (safe : e.NonzeroDivisors M) : t.truth M = e.truth M := by
  rw [truth, truth, stands.eval_eq M safe]

theorem bv_eq (stands : t.StandsFor e) {M : Model}
    (safe : e.NonzeroDivisors M) (w : Nat) : t.bv M w = e.bv M w := by
  rw [bv, bv, stands.eval_eq M safe]

theorem app (op : Op) {args args' : List Expr} (stands : List.Forall₂ StandsFor args args') :
    StandsFor (.app op args) (.app op args') := by
  have values : ∀ M, (∀ e ∈ args', e.NonzeroDivisors M) →
      args.map (eval · M) = args'.map (eval · M) := by
    intro M safe
    induction stands with
    | nil => rfl
    | cons first rest ih =>
      rw [List.forall_mem_cons] at safe
      rw [List.map_cons, List.map_cons, first.eval_eq M safe.1, ih safe.2]
  constructor
  · intro s sorted
    rw [hasSort_app] at sorted ⊢
    obtain ⟨wellSorted, accepted, result⟩ := sorted
    have same : (∀ e ∈ args, e.wellSorted = true) ∧ args.map sort = args'.map sort := by
      clear accepted result values
      induction stands with
      | nil => exact ⟨List.forall_mem_nil _, rfl⟩
      | cons first rest ih =>
        rw [List.forall_mem_cons] at wellSorted
        have head := first.sorted _ ⟨wellSorted.1, rfl⟩
        have tail := ih wellSorted.2
        exact ⟨List.forall_mem_cons.2 ⟨head.wellSorted, tail.1⟩,
          by rw [List.map_cons, List.map_cons, head.sort_eq, tail.2]⟩
    rw [same.2]
    exact ⟨same.1, accepted, result⟩
  · intro M safe
    rw [NonzeroDivisors, nonzeroDivisorsAll_iff, evals_eq_map] at safe ⊢
    rw [values M safe.1]
    refine ⟨?_, safe.2⟩
    intro e member
    obtain ⟨i, place, rfl⟩ := List.getElem_of_mem member
    have length := stands.length_eq
    exact (stands.get place (length ▸ place)).safe M (safe.1 _ (List.getElem_mem _))
  · intro M safe
    rw [eval, eval, evals_eq_map, evals_eq_map, values M fun e member => safe.arg member]

theorem single (op : Op) (first : a.StandsFor a') : StandsFor (.app op [a]) (.app op [a']) :=
  app op (.cons first .nil)

theorem pair (op : Op) (first : a.StandsFor a') (second : b.StandsFor b') :
    StandsFor (.app op [a, b]) (.app op [a', b']) :=
  app op (.cons first (.cons second .nil))

theorem triple (op : Op) (first : a.StandsFor a') (second : b.StandsFor b')
    (third : c.StandsFor c') : StandsFor (.app op [a, b, c]) (.app op [a', b', c']) :=
  app op (.cons first (.cons second (.cons third .nil)))

end StandsFor

end Expr

end AliveNext.Smt
