import AliveNext.Smt.Compose

/-!
# Terms side by side

Terms in one model, and a term that is the concatenation of several: each of them can be read
back from its bits.
-/

namespace AliveNext.Smt

namespace Expr

/-- The value of a term that divides by zero nowhere. -/
structure Is (t : Expr) (M : Model) (w : Nat) (x : BitVec w) : Prop where
  sorted : t.HasSort (.bv w)
  safe : t.NonzeroDivisors M
  value : t.bv M w = x

/-- The truth of a condition that divides by zero nowhere. -/
structure Holds (t : Expr) (M : Model) (p : Prop) : Prop where
  sorted : t.HasSort .bool
  safe : t.NonzeroDivisors M
  truth : t.truth M = true ↔ p

/-- `w` bits of a value, from a place on. -/
noncomputable def bitsAt (t : Expr) (M : Model) (low w : Nat) : BitVec w :=
  BitVec.ofNat w (t.toNat M >>> low)

variable (z : Z3) {a b c t : Expr} {M : Model} {v w : Nat} {x y : BitVec w} {p q : Prop}
  {parts : List Expr}

theorem Denotes.is
    {x : Model → BitVec w} (denotes : t.Denotes w parts x) (safe : Safe parts M) : t.Is M w (x M) :=
  ⟨denotes.sorted, denotes.safe M safe, denotes.value M safe⟩

theorem Decides.holds
    {p : Model → Prop} (decides : t.Decides parts p) (safe : Safe parts M) : t.Holds M (p M) :=
  ⟨decides.sorted, decides.safe M safe, decides.truth M safe⟩

namespace Is

theorem refl (sorted : t.HasSort (.bv w)) (safe : t.NonzeroDivisors M) : t.Is M w (t.bv M w) :=
  ⟨sorted, safe, rfl⟩

theorem toNat_eq (is : t.Is M w x) : t.toNat M = x.toNat := by
  rw [is.sorted.toNat_eq M, is.value]

theorem bitsAt_eq (is : t.Is M w x) (low k : Nat) : t.bitsAt M low k = x.extractLsb' low k := by
  rw [bitsAt, is.toNat_eq]
  rfl

theorem denotes_pair {x : BitVec v} (first : a.Is M v x) (second : b.Is M w y) :
    a.Denotes v [a, b] (fun M => a.bv M v) ∧ b.Denotes w [a, b] (fun M => b.bv M w) ∧
      Safe [a, b] M :=
  ⟨(Denotes.refl first.sorted).mono (by simp), (Denotes.refl second.sorted).mono (by simp),
    safe_pair.2 ⟨first.safe, second.safe⟩⟩

theorem concat {x : BitVec v} (first : a.Is M v x)
    (second : b.Is M w y) : (concat z a b).Is M (v + w) (x ++ y) := by
  obtain ⟨left, right, safe⟩ := first.denotes_pair second
  have is := (left.concat z right).is safe
  rwa [first.value, second.value] at is

theorem extract
    {high low : Nat} (depth : Nat) (is : t.Is M w x) (ordered : low ≤ high) (inside : high < w) :
    (extract z t high low depth).Is M (high - low + 1) (x.extractLsb' low (high - low + 1)) := by
  have whole := ((Denotes.refl is.sorted).extract z depth ordered inside).is (safe_single.2 is.safe)
  rwa [is.value] at whole

theorem slice
    {k : Nat} (high low depth : Nat) (is : t.Is M w x) (positive : 0 < k) (top : high = low + k - 1)
    (inside : low + k ≤ w) : (Expr.extract z t high low depth).Is M k (t.bitsAt M low k) := by
  have part := is.extract z depth (show low ≤ high by omega) (show high < w by omega)
  rw [show high - low + 1 = k by omega] at part
  rwa [is.bitsAt_eq]

end Is

namespace Holds

theorem congr (holds : t.Holds M p) (same : p ↔ q) : t.Holds M q :=
  ⟨holds.sorted, holds.safe, holds.truth.trans same⟩

theorem const (value : Bool) : (Expr.bool value).Holds M (value = true) :=
  ⟨hasSort_bool.2 rfl, nonzeroDivisors_bool value, by rw [truth_bool]⟩

theorem decides (holds : t.Holds M p) : t.Decides [t] fun M => t.truth M = true :=
  ⟨holds.sorted, fun _ safe => safe_single.1 safe, fun _ _ => Iff.rfl⟩

theorem and (first : a.Holds M p) (second : b.Holds M q) : (Expr.and a b).Holds M (p ∧ q) := by
  have both : (Expr.and a b).Decides [a, b] fun M => a.truth M = true ∧ b.truth M = true :=
    (first.decides.mono (by simp)).and (second.decides.mono (by simp))
  exact (both.holds (safe_pair.2 ⟨first.safe, second.safe⟩)).congr
    (and_congr first.truth second.truth)

theorem or (first : a.Holds M p) (second : b.Holds M q) : (Expr.or a b).Holds M (p ∨ q) := by
  have both : (Expr.or a b).Decides [a, b] fun M => a.truth M = true ∨ b.truth M = true :=
    (first.decides.mono (by simp)).or (second.decides.mono (by simp))
  exact (both.holds (safe_pair.2 ⟨first.safe, second.safe⟩)).congr
    (or_congr first.truth second.truth)

theorem not (holds : t.Holds M p) : (Expr.not t).Holds M (¬p) :=
  (holds.decides.not.holds (safe_single.2 holds.safe)).congr (not_congr holds.truth)

theorem toBVBool
    [Decidable p] (holds : t.Holds M p) : (toBVBool z t).Is M 1 (BitVec.ofBool (decide p)) := by
  obtain ⟨sorted, spec⟩ := toBVBool_denotes z holds.decides
  obtain ⟨safe, value⟩ := spec M (safe_single.2 holds.safe)
  refine ⟨sorted, safe, ?_⟩
  rw [holds.truth] at value
  by_cases known : p
  · rw [decide_eq_true known]
    exact value.2 known
  · rw [decide_eq_false known]
    have other := mt value.1 known
    revert other
    generalize Expr.bv (Expr.toBVBool z t) M 1 = bit
    revert bit
    decide

end Holds

theorem Is.cmpEq (first : a.Is M w x) (second : b.Is M w y) : (cmpEq z a b).Holds M (x = y) := by
  obtain ⟨left, right, safe⟩ := first.denotes_pair second
  have holds := (left.cmpEq z right).holds safe
  rwa [first.value, second.value] at holds

def concatAll : List Expr → Expr
  | [] => mkUInt 0 1
  | e :: es => es.foldl (concat z) e

abbrev Piece : Type := (width : Nat) × BitVec width

namespace Piece

def join (a b : Piece) : Piece := ⟨a.1 + b.1, a.2 ++ b.2⟩

def widths (pieces : List Piece) : Nat := (pieces.map Sigma.fst).sum

theorem extract_joined (acc : Piece) (pieces : List Piece) (low k : Nat) :
    (pieces.foldl join acc).2.extractLsb' (widths pieces + low) k = acc.2.extractLsb' low k := by
  induction pieces generalizing acc low with
  | nil => rw [List.foldl_nil, widths, List.map_nil, List.sum_nil, Nat.zero_add]
  | cons piece pieces ih =>
    have width : widths (piece :: pieces) + low = widths pieces + (piece.1 + low) := by
      rw [widths, List.map_cons, List.sum_cons, widths]
      omega
    rw [List.foldl_cons, width, ih, join]
    ext i inside
    simp only [BitVec.getElem_extractLsb', BitVec.getLsbD_append]
    rw [if_neg (by omega)]
    congr 1
    omega

theorem extract_join (acc piece : Piece) : (join acc piece).2.extractLsb' 0 piece.1 = piece.2 := by
  rw [join]
  ext i inside
  simp only [BitVec.getElem_extractLsb', BitVec.getLsbD_append]
  rw [Nat.zero_add, if_pos inside]
  exact BitVec.getLsbD_eq_getElem inside

theorem joined_width (acc : Piece) (pieces : List Piece) :
    (pieces.foldl join acc).1 = acc.1 + widths pieces := by
  induction pieces generalizing acc with
  | nil => rfl
  | cons piece pieces ih =>
    rw [List.foldl_cons, ih, join, widths, widths, List.map_cons, List.sum_cons, Nat.add_assoc]

end Piece

open Piece

variable {es : List Expr} {pieces : List Piece} {piece : Piece}

theorem foldl_concat_is {e : Expr} (first : e.Is M piece.1 piece.2)
    (rest : List.Forall₂ (fun e piece => Is e M piece.1 piece.2) es pieces) :
    (es.foldl (concat z) e).Is M (pieces.foldl join piece).1 (pieces.foldl join piece).2 := by
  induction rest generalizing e piece with
  | nil => exact first
  | cons is _ ih => exact ih (first.concat z is)

theorem concatAll_sorted (nonempty : es ≠ [])
    (is : List.Forall₂ (fun e piece => Is e M piece.1 piece.2) es pieces) :
    (concatAll z es).HasSort (.bv (widths pieces)) ∧ (concatAll z es).NonzeroDivisors M := by
  cases is with
  | nil => exact absurd rfl nonempty
  | cons first rest =>
    have whole := foldl_concat_is z first rest
    refine ⟨?_, whole.safe⟩
    have sorted := whole.sorted
    rw [joined_width] at sorted
    exact sorted

theorem bitsAt_concatAll {before after : List Piece}
    (is : List.Forall₂ (fun e piece => Is e M piece.1 piece.2) es (before ++ piece :: after)) :
    (concatAll z es).bitsAt M (widths after) piece.1 = piece.2 := by
  cases es with
  | nil => cases before <;> cases is
  | cons e es =>
    cases before with
    | nil =>
      cases is with
      | cons first rest =>
        have whole := foldl_concat_is z first rest
        have kept := extract_joined piece after 0 piece.1
        rw [Nat.add_zero] at kept
        rw [concatAll, whole.bitsAt_eq, kept]
        ext i inside
        rw [BitVec.getElem_extractLsb', Nat.zero_add]
        exact BitVec.getLsbD_eq_getElem inside
    | cons head before =>
      cases is with
      | cons first rest =>
        have whole := foldl_concat_is z first rest
        have kept := extract_joined (join (before.foldl join head) piece) after 0 piece.1
        rw [Nat.add_zero] at kept
        rw [concatAll, whole.bitsAt_eq, List.append_eq, List.foldl_append, List.foldl_cons, kept,
          extract_join]

end Expr

end AliveNext.Smt
