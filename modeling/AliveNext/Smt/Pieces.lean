import AliveNext.Smt.Conjuncts
import AliveNext.Smt.Concat

/-!
# Concatenations compared piece by piece

`cmp_eq` splits the comparison of a concatenation with a constant, or with
another concatenation, into comparisons of pieces. A piece is known by the place
of its lowest bit in the whole term.
-/

namespace AliveNext.Smt

namespace Value

theorem testBit_append
    {a b : Value} {v w : Nat} (left : a.sort = .bv v) (right : b.sort = .bv w) (i : Nat) :
    (a.append b).toNat.testBit i =
      if i < w then b.toNat.testBit i else a.toNat.testBit (i - w) := by
  rw [bv_of_sort left, bv_of_sort right]
  simp only [append, toNat, BitVec.testBit_toNat, BitVec.getLsbD_append]

theorem testBit_foldl_append {a : Value} {v : Nat} {rest : List Value} (first : a.sort = .bv v)
    (others : ∀ b ∈ rest, ∃ w, b.sort = .bv w) (i : Nat) :
    (rest.foldl append a).toNat.testBit ((rest.map fun b => b.sort.bits).sum + i) =
      a.toNat.testBit i := by
  induction rest generalizing a v i with
  | nil => simp
  | cons b rest ih =>
    rw [List.forall_mem_cons] at others
    obtain ⟨w, second⟩ := others.1
    have place : ((b :: rest).map fun b => b.sort.bits).sum + i =
        (rest.map fun b => b.sort.bits).sum + (w + i) := by
      rw [List.map_cons, List.sum_cons, second, Srt.bits]
      omega
    rw [List.foldl_cons, place, ih (sort_append first second) others.2,
      testBit_append first second, if_neg (by omega), Nat.add_sub_cancel_left]

end Value

namespace AndExpr

variable {z : Z3} {limit : Nat} {e : Expr} {M : Model} {self : AndExpr}

noncomputable def holds (self : AndExpr) (M : Model) : Bool :=
  self.exprs.elements.all (Expr.truth · M)

def Boolean (self : AndExpr) : Prop :=
  ∀ e ∈ self.exprs.elements, e.HasSort .bool

def NonzeroDivisors (self : AndExpr) (M : Model) : Prop :=
  ∀ e ∈ self.exprs.elements, e.NonzeroDivisors M

theorem conjuncts_safe (safe : e.NonzeroDivisors M) :
    ∀ f ∈ conjuncts limit e, f.NonzeroDivisors M := by
  induction limit generalizing e with
  | zero =>
    unfold conjuncts
    split <;> simp [safe]
  | succ limit ih =>
    unfold conjuncts
    split
    · simp
    split
    · next a b shape =>
      rw [Expr.isAnd_eq_some] at shape
      subst shape
      exact List.forall_mem_append.2 ⟨ih (safe.arg (by simp)), ih (safe.arg (by simp))⟩
    · simp [safe]

theorem Boolean.add
    (boolean : self.Boolean) (sorted : e.HasSort .bool) : (add z limit self e).Boolean := by
  intro f member
  rcases mem_add.1 member with new | old
  · exact (conjuncts_spec sorted).1 f new
  · exact boolean f old

theorem NonzeroDivisors.add (safe : self.NonzeroDivisors M)
    (safe' : e.NonzeroDivisors M) : (add z limit self e).NonzeroDivisors M := by
  intro f member
  rcases mem_add.1 member with new | old
  · exact conjuncts_safe safe' f new
  · exact safe f old

theorem holds_add (sorted : e.HasSort .bool) :
    (add z limit self e).holds M = (self.holds M && e.truth M) := by
  have split : (conjuncts limit e).all (Expr.truth · M) = e.truth M := (conjuncts_spec sorted).2 M
  rw [← split, Bool.eq_iff_iff, Bool.and_eq_true]
  simp only [holds, List.all_eq_true]
  constructor
  · intro all
    exact ⟨fun f old => all f (mem_add.2 (.inr old)), fun f new => all f (mem_add.2 (.inl new))⟩
  · intro both f member
    rcases mem_add.1 member with new | old
    · exact both.2 f new
    · exact both.1 f old

theorem nonzeroDivisors_toExpr
    (boolean : self.Boolean) (safe : self.NonzeroDivisors M) : self.toExpr.NonzeroDivisors M := by
  have folded : ∀ (vals : List Expr) (start : Expr), start.HasSort .bool →
      start.NonzeroDivisors M → (∀ e ∈ vals, e.HasSort .bool) →
      (∀ e ∈ vals, e.NonzeroDivisors M) →
      (vals.foldl Expr.and start).NonzeroDivisors M := by
    intro vals
    induction vals with
    | nil => exact fun start _ safe _ _ => safe
    | cons e rest ih =>
      intro start sorted safe sorts parts
      rw [List.forall_mem_cons] at sorts parts
      exact ih _ (Expr.hasSort_and_eq sorted sorts.1)
        (Expr.nonzeroDivisors_and sorted sorts.1 safe parts.1) sorts.2 parts.2
  exact folded _ _ (Expr.hasSort_bool.2 rfl) (Expr.nonzeroDivisors_bool true) boolean safe

theorem holds_of_toBool (empty : self.toBool = false) : self.holds M = false := by
  rw [toBool, Bool.not_eq_false', contains, decide_eq_true_iff] at empty
  rw [holds, List.all_eq_false]
  exact ⟨_, empty, by simp⟩

end AndExpr

namespace Expr

/-- The term has the bits of the whole one from `base` on. -/
structure PieceOf (e whole : Expr) (base w : Nat) : Prop where
  sorted : e.HasSort (.bv w)
  safe : ∀ M, whole.NonzeroDivisors M → e.NonzeroDivisors M
  bit : ∀ M, whole.NonzeroDivisors M → ∀ i, i < w →
    (whole.toNat M).testBit (base + i) = (e.toNat M).testBit i

theorem concat_piece {done rest : List Expr} {e : Expr} {s : Srt}
    (sorted : HasSort (.app .concat (done ++ e :: rest)) s) :
    e.PieceOf (.app .concat (done ++ e :: rest)) (rest.map bits).sum e.bits := by
  obtain ⟨-, -, parts⟩ := hasSort_concat.1 sorted
  have values : ∀ M, ∀ f ∈ done ++ e :: rest, (f.eval M).sort = .bv f.bits := fun M f member =>
    (eval_sort M (parts f member).wellSorted).trans (parts f member).sort_eq
  refine ⟨parts e (by simp), fun M safe => safe.arg (by simp), fun M _ i inside => ?_⟩
  have others : ∀ b ∈ rest.map (eval · M), ∃ w, b.sort = .bv w := by
    intro b member
    obtain ⟨f, inRest, rfl⟩ := List.mem_map.1 member
    exact ⟨f.bits, values M f (by simp [inRest])⟩
  have widths : ((rest.map (eval · M)).map fun b => b.sort.bits).sum = (rest.map bits).sum := by
    rw [List.map_map]
    congr 1
    apply List.map_congr_left
    intro f inRest
    rw [Function.comp_apply, values M f (by simp [inRest]), Srt.bits]
  rw [← widths]
  cases done with
  | nil =>
    have kept := Value.testBit_foldl_append (values M e (by simp)) others i
    simpa [toNat, eval, Op.denote] using kept
  | cons first done =>
    -- the pieces on top of `e` are one value
    have top := Value.sort_foldl_append (values M first (by simp)) (done.map (eval · M)) (by
      intro b member
      obtain ⟨f, inDone, rfl⟩ := List.mem_map.1 member
      exact ⟨f.bits, values M f (by simp [inDone])⟩)
    have own := values M e (by simp)
    have kept := Value.testBit_foldl_append (Value.sort_append top own) others i
    rw [Value.testBit_append top own, if_pos inside] at kept
    simpa [toNat, eval, Op.denote] using kept

section

variable {a b e t u whole lhs rhs : Expr} {base w high low : Nat}

theorem PieceOf.refl (sorted : e.HasSort (.bv w)) : e.PieceOf e 0 w where
  sorted := sorted
  safe _ safe := safe
  bit M _ i _ := by rw [Nat.zero_add]

theorem PieceOf.of_stands
    (piece : u.PieceOf whole base w) (stands : t.StandsFor u) : t.PieceOf whole base w where
  sorted := stands.sorted _ piece.sorted
  safe M safe := stands.safe M (piece.safe M safe)
  bit M safe i inside := by
    rw [stands.toNat_eq (piece.safe M safe), piece.bit M safe i inside]

theorem PieceOf.extract
    (piece : e.PieceOf whole base w) (ordered : low ≤ high) (inside : high < w) :
    PieceOf (.app (.extract high low) [e]) whole (base + low) (high - low + 1) where
  sorted := piece.sorted.extract ordered inside
  safe M safe := by simpa using piece.safe M safe
  bit M safe i small := by
    rw [testBit_extract M piece.sorted, decide_eq_true small, Bool.true_and, Nat.add_assoc]
    exact piece.bit M safe (low + i) (by omega)

/-- The term says that `lhs` and `rhs` agree on `w` bits from `base` on. -/
structure Compares (t lhs rhs : Expr) (base w : Nat) : Prop where
  sorted : t.HasSort .bool
  safe : ∀ M, lhs.NonzeroDivisors M → rhs.NonzeroDivisors M → t.NonzeroDivisors M
  truth : ∀ M, lhs.NonzeroDivisors M → rhs.NonzeroDivisors M →
    (t.truth M = true ↔
      ∀ i, i < w → (lhs.toNat M).testBit (base + i) = (rhs.toNat M).testBit (base + i))

theorem truth_eq_bits (left : a.HasSort (.bv w)) (right : b.HasSort (.bv w)) (M : Model) :
    truth (.app .eq [a, b]) M = true ↔
      ∀ i, i < w → (a.toNat M).testBit i = (b.toNat M).testBit i := by
  rw [truth_eq_bv M left right, decide_eq_true_iff]
  constructor
  · intro same i _
    rw [same]
  · intro same
    apply Nat.eq_of_testBit_eq
    intro i
    by_cases inside : i < w
    · exact same i inside
    · rw [left.testBit_ge M (by omega), right.testBit_ge M (by omega)]

theorem compares_of_eq (left : a.PieceOf lhs base w) (right : b.PieceOf rhs base w)
    (stands : t.StandsFor (.app .eq [a, b])) : t.Compares lhs rhs base w := by
  have parts : ∀ M, lhs.NonzeroDivisors M → rhs.NonzeroDivisors M →
      NonzeroDivisors (.app .eq [a, b]) M := fun M safe safe' =>
    (nonzeroDivisors_pair (by simp)).2 ⟨left.safe M safe, right.safe M safe'⟩
  refine ⟨stands.sorted _ (hasSort_eq.2 ⟨rfl, _, left.sorted, right.sorted⟩),
    fun M safe safe' => stands.safe M (parts M safe safe'), fun M safe safe' => ?_⟩
  rw [stands.truth_eq (parts M safe safe'), truth_eq_bits left.sorted right.sorted]
  refine forall₂_congr fun i inside => ?_
  rw [left.bit M safe i inside, right.bit M safe' i inside]

end

end Expr

namespace AndExpr

variable {z : Z3} {eqs : AndExpr} {t lhs rhs : Expr} {base w limit : Nat}

/-- Equations that follow from the equality of two terms. -/
structure FollowsFromEq (eqs : AndExpr) (lhs rhs : Expr) : Prop where
  boolean : eqs.Boolean
  safe : ∀ M, lhs.NonzeroDivisors M → rhs.NonzeroDivisors M → eqs.NonzeroDivisors M
  implied : ∀ M, lhs.NonzeroDivisors M → rhs.NonzeroDivisors M →
    lhs.toNat M = rhs.toNat M → eqs.holds M = true

def AgreeFrom (eqs : AndExpr) (lhs rhs : Expr) (base : Nat) : Prop :=
  ∀ M, lhs.NonzeroDivisors M → rhs.NonzeroDivisors M → eqs.holds M = true →
    ∀ i, base ≤ i → (lhs.toNat M).testBit i = (rhs.toNat M).testBit i

theorem FollowsFromEq.empty : FollowsFromEq {} lhs rhs where
  boolean := by simp [Boolean]
  safe M _ _ := by simp [NonzeroDivisors]
  implied M _ _ _ := by simp [holds]

theorem FollowsFromEq.add
    (follows : eqs.FollowsFromEq lhs rhs) (compares : t.Compares lhs rhs base w) :
    (eqs.add z limit t).FollowsFromEq lhs rhs where
  boolean := follows.boolean.add compares.sorted
  safe M safe safe' := (follows.safe M safe safe').add (compares.safe M safe safe')
  implied M safe safe' same := by
    rw [holds_add compares.sorted, follows.implied M safe safe' same, Bool.true_and,
      compares.truth M safe safe']
    intro i _
    rw [same]

theorem AgreeFrom.add (agree : eqs.AgreeFrom lhs rhs (base + w))
    (compares : t.Compares lhs rhs base w) : (eqs.add z limit t).AgreeFrom lhs rhs base := by
  intro M safe safe' all i above
  rw [holds_add compares.sorted, Bool.and_eq_true] at all
  by_cases inside : i < base + w
  · have piece := (compares.truth M safe safe').1 all.2 (i - base) (by omega)
    rwa [Nat.add_sub_cancel' above] at piece
  · exact agree M safe safe' all.1 i (by omega)

theorem FollowsFromEq.standsFor (follows : eqs.FollowsFromEq lhs rhs) (left : lhs.HasSort (.bv w))
    (right : rhs.HasSort (.bv w)) (complete : eqs.AgreeFrom lhs rhs 0 ∨ eqs.toBool = false) :
    eqs.toExpr.StandsFor (.app .eq [lhs, rhs]) := by
  have whole : Expr.HasSort (.app .eq [lhs, rhs]) .bool := Expr.hasSort_eq.2 ⟨rfl, _, left, right⟩
  have spec := Expr.mkAnd_spec follows.boolean
  constructor
  · intro s other
    cases whole.unique other
    exact spec.1
  · intro M safe
    rw [Expr.nonzeroDivisors_pair (by simp)] at safe
    exact nonzeroDivisors_toExpr follows.boolean (follows.safe M safe.1 safe.2)
  · intro M safe
    rw [Expr.nonzeroDivisors_pair (by simp)] at safe
    rw [toExpr, Expr.HasSort.bool_congr spec.1 whole, spec.2 M, Expr.truth_eq_bv M left right,
      Bool.eq_iff_iff, decide_eq_true_iff]
    constructor
    · intro all
      rcases complete with agree | fails
      · apply Nat.eq_of_testBit_eq
        intro i
        exact agree M safe.1 safe.2 all i (Nat.zero_le i)
      · rw [← holds, holds_of_toBool fails] at all
        cases all
    · exact follows.implied M safe.1 safe.2

end AndExpr

namespace Expr

variable {r : Calls} {k : Nat} (z : Z3) (good : r.Good k)

include good

section

variable {a b e whole lhs rhs : Expr} {base w high low : Nat}

theorem slice_spec (piece : e.PieceOf whole base w) (ordered : low ≤ high) (inside : high < w)
    (const : e.isConst = true) (enough : 12 ≤ k) :
    Gives (r.extract e high low 3) fun t =>
      t.PieceOf whole (base + low) (high - low + 1) ∧ t.size = 1 := by
  have rank : e.extractRank ≤ k := by
    rw [extractRank, size_of_isConst const]
    exact enough
  obtain ⟨t, known, built⟩ := good.extract 3 piece.sorted ordered inside rank
  refine ⟨t, known, (piece.extract ordered inside).of_stands built.stands, ?_⟩
  exact size_of_isConst (built.const (by simpa [constArgs] using const))

theorem compare_spec (left : a.PieceOf lhs base w) (right : b.PieceOf rhs base w)
    (enough : 4 * (a.size + b.size) + 1 ≤ k) :
    Gives (r.cmpEq a b) fun t => t.Compares lhs rhs base w := by
  obtain ⟨t, known, stands⟩ := good.cmpEq left.sorted right.sorted ((cmpEqRank_le a b).trans enough)
  exact ⟨t, known, compares_of_eq left right stands⟩

variable {eqs : AndExpr} {lIdx rIdx : Nat}

theorem eqPieces_spec {done args : List Expr} (shape : lhs = .app .concat (done ++ args))
    (left : lhs.HasSort (.bv w)) (right : rhs.HasSort (.bv w)) (inside : (args.map bits).sum ≤ w)
    (const : rhs.isConst = true) (enough : 12 ≤ k) (each : ∀ e ∈ args, 4 * (e.size + 1) + 1 ≤ k)
    (follows : eqs.FollowsFromEq lhs rhs) (agree : eqs.AgreeFrom lhs rhs (args.map bits).sum) :
    ∃ eqs', eqPieces r z rhs (args.map bits).sum args eqs = some eqs' ∧
      eqs'.FollowsFromEq lhs rhs ∧ eqs'.AgreeFrom lhs rhs 0 := by
  induction args generalizing done eqs with
  | nil => exact ⟨eqs, rfl, follows, agree⟩
  | cons arg rest ih =>
    rw [List.forall_mem_cons] at each
    have piece : arg.PieceOf lhs (rest.map bits).sum arg.bits := by
      rw [shape] at left ⊢
      exact concat_piece left
    have positive := piece.sorted.pos
    have split : ((arg :: rest).map bits).sum = arg.bits + (rest.map bits).sum := by simp
    have low : arg.bits + (rest.map bits).sum - arg.bits = (rest.map bits).sum :=
      Nat.add_sub_cancel_left _ _
    have width : arg.bits + (rest.map bits).sum - 1 - (rest.map bits).sum + 1 = arg.bits := by
      omega
    obtain ⟨slice, knownSlice, pieceSlice, one⟩ := slice_spec good (PieceOf.refl right)
      (show (rest.map bits).sum ≤ arg.bits + (rest.map bits).sum - 1 by omega)
      (by omega) const enough
    rw [Nat.zero_add, width] at pieceSlice
    obtain ⟨eq, knownEq, compares⟩ := compare_spec good piece pieceSlice (by omega)
    rw [split, Nat.add_comm] at agree
    have shape' : lhs = .app .concat ((done ++ [arg]) ++ rest) := by simp [shape]
    obtain ⟨eqs', known, spec⟩ := ih shape' (by omega) each.2 (follows.add compares)
      (agree.add compares)
    refine ⟨eqs', ?_, spec⟩
    rw [eqPieces, split, low, knownSlice]
    simp only [Option.bind_eq_bind, Option.bind_some, knownEq]
    exact known

/-- Two pieces whose lowest bits are at `baseL` and `baseR`. -/
theorem eqOfPieces_spec {v w total baseL baseR : Nat}
    (left : a.PieceOf lhs baseL v) (right : b.PieceOf rhs baseR w)
    (placeL : lIdx + v + baseL = total) (placeR : rIdx + w + baseR = total)
    (enough : 4 * (a.size + b.size) + 9 ≤ k) (follows : eqs.FollowsFromEq lhs rhs) :
    ∃ eqs', eqOfPieces r z lIdx rIdx a b eqs = some eqs' ∧ eqs'.FollowsFromEq lhs rhs ∧
      (lIdx = rIdx → v = w → eqs.AgreeFrom lhs rhs (baseL + v) → eqs'.AgreeFrom lhs rhs baseL) := by
  have positive := And.intro a.size_pos b.size_pos
  unfold eqOfPieces
  rw [left.sorted.bits_eq, right.sorted.bits_eq]
  by_cases aligned : lIdx = rIdx ∧ v = w
  · rw [if_pos aligned]
    obtain ⟨rfl, rfl⟩ := aligned
    have base : baseR = baseL := by omega
    rw [base] at right
    obtain ⟨eq, known, compares⟩ := compare_spec good left right (by omega)
    rw [known]
    exact ⟨_, rfl, follows.add compares, fun _ _ agree => agree.add compares⟩
  rw [if_neg aligned]
  -- nothing is said about the bits of pieces that are not aligned
  have unaligned : ∀ {eqs' : AndExpr}, lIdx = rIdx → v = w →
      eqs.AgreeFrom lhs rhs (baseL + v) → eqs'.AgreeFrom lhs rhs baseL :=
    fun same width => absurd ⟨same, width⟩ aligned
  by_cases consts : a.isConst ∧ b.isConst
  · rw [if_pos consts]
    have oneA := size_of_isConst consts.1
    have oneB := size_of_isConst consts.2
    by_cases starts : lIdx ≥ rIdx ∧ lIdx < rIdx + w
    · rw [if_pos starts]
      obtain ⟨overlap, is⟩ : ∃ n, n = min (w - (lIdx - rIdx)) v := ⟨_, rfl⟩
      have bounds : 0 < overlap ∧ overlap ≤ v ∧ lIdx + overlap ≤ rIdx + w := by
        have pos := And.intro left.sorted.pos right.sorted.pos
        omega
      simp only [← is]
      obtain ⟨sliceA, knownA, pieceA, sizeA⟩ := slice_spec good left
        (show v - overlap ≤ v - 1 by omega) (by omega) consts.1 (by omega)
      obtain ⟨sliceB, knownB, pieceB, sizeB⟩ := slice_spec good right
        (show rIdx + w - (lIdx + overlap) ≤ rIdx + w - (lIdx + overlap) + overlap - 1 by omega)
        (by omega) consts.2 (by omega)
      rw [show v - 1 - (v - overlap) + 1 = overlap by omega] at pieceA
      rw [show rIdx + w - (lIdx + overlap) + overlap - 1 - (rIdx + w - (lIdx + overlap)) + 1 =
          overlap by omega,
        show baseR + (rIdx + w - (lIdx + overlap)) = baseL + (v - overlap) by omega] at pieceB
      obtain ⟨eq, known, compares⟩ := compare_spec good pieceA pieceB (by omega)
      rw [knownA, knownB]
      simp only [Option.bind_eq_bind, Option.bind_some, known]
      exact ⟨_, rfl, follows.add compares, unaligned⟩
    rw [if_neg starts]
    by_cases starts' : rIdx ≥ lIdx ∧ rIdx < lIdx + v
    · rw [if_pos starts']
      obtain ⟨overlap, is⟩ : ∃ n, n = min (v - (rIdx - lIdx)) w := ⟨_, rfl⟩
      have bounds : 0 < overlap ∧ overlap ≤ w ∧ rIdx + overlap ≤ lIdx + v := by
        have pos := And.intro left.sorted.pos right.sorted.pos
        omega
      simp only [← is]
      obtain ⟨sliceA, knownA, pieceA, sizeA⟩ := slice_spec good left
        (show lIdx + v - (rIdx + overlap) ≤ lIdx + v - (rIdx + overlap) + overlap - 1 by omega)
        (by omega) consts.1 (by omega)
      obtain ⟨sliceB, knownB, pieceB, sizeB⟩ := slice_spec good right
        (show w - overlap ≤ w - 1 by omega) (by omega) consts.2 (by omega)
      rw [show w - 1 - (w - overlap) + 1 = overlap by omega] at pieceB
      rw [show lIdx + v - (rIdx + overlap) + overlap - 1 - (lIdx + v - (rIdx + overlap)) + 1 =
          overlap by omega,
        show baseL + (lIdx + v - (rIdx + overlap)) = baseR + (w - overlap) by omega] at pieceA
      obtain ⟨eq, known, compares⟩ := compare_spec good pieceA pieceB (by omega)
      rw [knownA, knownB]
      simp only [Option.bind_eq_bind, Option.bind_some, known]
      exact ⟨_, rfl, follows.add compares, unaligned⟩
    · rw [if_neg starts']
      exact ⟨eqs, rfl, follows, unaligned⟩
  · rw [if_neg consts]
    exact ⟨eqs, rfl, follows, unaligned⟩

theorem eqZip_spec {doneL doneR ls rs : List Expr} {aligned : Bool}
    (shapeL : lhs = .app .concat (doneL ++ ls)) (shapeR : rhs = .app .concat (doneR ++ rs))
    (left : lhs.HasSort (.bv w)) (right : rhs.HasSort (.bv w)) (length : ls.length = rs.length)
    (placeL : lIdx + (ls.map bits).sum = w) (placeR : rIdx + (rs.map bits).sum = w)
    (enough : ∀ a ∈ ls, ∀ b ∈ rs, 4 * (a.size + b.size) + 9 ≤ k)
    (follows : eqs.FollowsFromEq lhs rhs)
    (agree : aligned = true → lIdx = rIdx ∧ eqs.AgreeFrom lhs rhs (ls.map bits).sum) :
    ∃ aligned' eqs', eqZip r z lIdx rIdx aligned eqs ls rs = some (aligned', eqs') ∧
      eqs'.FollowsFromEq lhs rhs ∧ (aligned' = true → eqs'.AgreeFrom lhs rhs 0) := by
  induction ls generalizing doneL doneR rs eqs aligned lIdx rIdx with
  | nil =>
    cases rs with
    | nil => exact ⟨aligned, eqs, rfl, follows, fun all => (agree all).2⟩
    | cons b rs => cases length
  | cons a ls ih =>
    cases rs with
    | nil => cases length
    | cons b rs =>
      have pieceA : a.PieceOf lhs (ls.map bits).sum a.bits := by
        rw [shapeL] at left ⊢
        exact concat_piece left
      have pieceB : b.PieceOf rhs (rs.map bits).sum b.bits := by
        rw [shapeR] at right ⊢
        exact concat_piece right
      rw [List.map_cons, List.sum_cons] at placeL placeR agree
      have placeL' : lIdx + a.bits + (ls.map bits).sum = w := by omega
      have placeR' : rIdx + b.bits + (rs.map bits).sum = w := by omega
      obtain ⟨next, known, next_follows, next_agree⟩ := eqOfPieces_spec z good pieceA pieceB
        placeL' placeR' (enough a (by simp) b (by simp)) follows
      have shapeL' : lhs = .app .concat ((doneL ++ [a]) ++ ls) := by simp [shapeL]
      have shapeR' : rhs = .app .concat ((doneR ++ [b]) ++ rs) := by simp [shapeR]
      have aligned_agree : (aligned && a.bits == b.bits) = true →
          lIdx + a.bits = rIdx + b.bits ∧ next.AgreeFrom lhs rhs (ls.map bits).sum := by
        intro all
        rw [Bool.and_eq_true, beq_iff_eq] at all
        have before := agree all.1
        rw [Nat.add_comm a.bits] at before
        exact ⟨by rw [before.1, all.2], next_agree before.1 all.2 before.2⟩
      obtain ⟨aligned', eqs', rest, spec⟩ := ih shapeL' shapeR' (by simpa using length)
        placeL' placeR' (fun e inL f inR => enough e (by simp [inL]) f (by simp [inR]))
        next_follows aligned_agree
      refine ⟨aligned', eqs', ?_, spec⟩
      rw [eqZip, known]
      exact rest

end

end Expr

end AliveNext.Smt
