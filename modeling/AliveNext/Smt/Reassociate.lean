import AliveNext.Smt.Division

/-!
# Operators that call one another

`binop_commutative` moves constants together, which makes the operands smaller,
and a product asks for powers of two with `&` and `-` on constants. So a call of
rank at most `k` is answered by rounds nested `k` deep (`Operators.Good`).
-/

namespace AliveNext.Smt

namespace Expr

structure Folded (t : Expr) (op : BvOp) (a b : Expr) : Prop where
  stands : t.StandsFor (.app (.bv op) [a, b])
  const : a.isConst = true → b.isConst = true → t.isConst = true

def opRank (op : BvOp) (a b : Expr) : Nat :=
  2 * (a.size + b.size) + if op = .mul then if b.isOne then 1 else 2 else 0

theorem opRank_le (op : BvOp) (a b : Expr) : opRank op a b ≤ 2 * (a.size + b.size) + 2 := by
  unfold opRank
  split
  · split <;> omega
  · omega

theorem le_opRank (op : BvOp) (a b : Expr) : 2 * (a.size + b.size) ≤ opRank op a b :=
  Nat.le_add_right _ _

theorem opRank_eq
    {op : BvOp} (other : op ≠ .mul) (a b : Expr) : opRank op a b = 2 * (a.size + b.size) := by
  rw [opRank, if_neg other, Nat.add_zero]

end Expr

/-- Calls of rank at most `k` are answered, and rightly. -/
def Operators.Good (r : Operators) (k : Nat) : Prop :=
  ∀ {op : BvOp} {a b : Expr} {w : Nat}, op.flattens = true → a.HasSort (.bv w) →
    b.HasSort (.bv w) → Expr.opRank op a b ≤ k →
    Expr.Gives (r op a b) fun t => t.Folded op a b

namespace Expr

/-- What `binop_commutative` relies on. -/
structure Commutes (op : BvOp) (identity absorbent : Expr → Bool) : Prop where
  flattens : op.flattens = true
  comm : ∀ {w : Nat} (x y : BitVec w), op.denote x y = op.denote y x
  assoc : ∀ {w : Nat} (x y c : BitVec w), op.denote (op.denote x y) c = op.denote x (op.denote y c)
  identity : ∀ {e : Expr} {w : Nat}, e.HasSort (.bv w) → identity e = true →
    ∀ M (x : BitVec w), op.denote x (e.bv M w) = x
  absorbent : ∀ {e : Expr} {w : Nat}, e.HasSort (.bv w) → absorbent e = true →
    ∀ M (x : BitVec w), op.denote (e.bv M w) x = e.bv M w

theorem commutes_add : Commutes .add isZero alwaysFalse where
  flattens := rfl
  comm := BitVec.add_comm
  assoc := BitVec.add_assoc
  identity sorted zero M x := by
    rw [bv_of_isZero sorted zero]
    exact BitVec.add_zero x
  absorbent _ never := by cases never

theorem commutes_mul : Commutes .mul isOne isZero where
  flattens := rfl
  comm := BitVec.mul_comm
  assoc := BitVec.mul_assoc
  identity sorted one M x := by
    rw [bv_of_isOne sorted one]
    exact BitVec.mul_one x
  absorbent sorted zero M x := by
    rw [bv_of_isZero sorted zero]
    exact BitVec.zero_mul

theorem commutes_and : Commutes .and isAllOnes isZero where
  flattens := rfl
  comm := BitVec.and_comm
  assoc := BitVec.and_assoc
  identity sorted ones M x := by
    rw [bv_of_isAllOnes sorted ones]
    exact BitVec.and_allOnes
  absorbent sorted zero M x := by
    rw [bv_of_isZero sorted zero]
    exact BitVec.zero_and

theorem commutes_or : Commutes .or isZero isAllOnes where
  flattens := rfl
  comm := BitVec.or_comm
  assoc := BitVec.or_assoc
  identity sorted zero M x := by
    rw [bv_of_isZero sorted zero]
    exact BitVec.or_zero
  absorbent sorted ones M x := by
    rw [bv_of_isAllOnes sorted ones]
    exact BitVec.allOnes_or

theorem commutes_xor : Commutes .xor isZero alwaysFalse where
  flattens := rfl
  comm := BitVec.xor_comm
  assoc := BitVec.xor_assoc
  identity sorted zero M x := by
    rw [bv_of_isZero sorted zero]
    exact BitVec.xor_zero
  absorbent _ never := by cases never

section

variable {op : BvOp} {identity absorbent : Expr → Bool} (commutes : Commutes op identity absorbent)
  {a b e : Expr} {w : Nat}

include commutes

theorem Commutes.not_urem : op ≠ .urem := by
  rintro rfl
  cases commutes.flattens

theorem Commutes.swap (left : a.HasSort (.bv w)) (right : b.HasSort (.bv w)) :
    StandsFor (.app (.bv op) [b, a]) (.app (.bv op) [a, b]) := by
  apply stands_bv left right commutes.not_urem (hasSort_bv.2 ⟨right, left⟩)
  · intro M safe
    exact (safe_app (by simpa using commutes.not_urem)).2 (safe_pair.2 (safe_pair.1 safe).symm)
  · intro M _
    rw [bv_bv M right, commutes.comm]

theorem Commutes.ordered (z : Z3) (left : a.HasSort (.bv w))
    (right : b.HasSort (.bv w)) : (binopOrdered z (.bv op) a b).Folded op a b := by
  unfold binopOrdered
  split
  · exact ⟨binopFold_stands z left right, binopFold_const z left right⟩
  · exact ⟨(binopFold_stands z right left).trans (commutes.swap left right),
      fun constA constB => binopFold_const z right left constB constA⟩

variable {r : Operators} {k : Nat} (good : r.Good k)

include good

theorem Commutes.joined {c x y : Expr} (sorted : c.HasSort (.bv w)) (inner : x.HasSort (.bv w))
    (outer : y.HasSort (.bv w)) (const : c.isConst = true) (const' : x.isConst = true)
    (enough : 2 * y.size + 5 ≤ k) :
    Gives (do
        let joined ← r op c x
        r op joined y)
      fun t => t.StandsFor (.app (.bv op) [c, .app (.bv op) [x, y]]) := by
  have other : Op.bv op ≠ .bv .urem := by simpa using commutes.not_urem
  have one := And.intro (size_of_isConst const) (size_of_isConst const')
  have positive := y.size_pos
  obtain ⟨joined, known, folded⟩ := good commutes.flattens sorted inner
    ((opRank_le op c x).trans (by omega))
  have oneJoined := size_of_isConst (folded.const const const')
  have sortedJoined := folded.stands.sorted _ (hasSort_bv.2 ⟨sorted, inner⟩)
  obtain ⟨t, known', folded'⟩ := good commutes.flattens sortedJoined outer
    ((opRank_le op joined y).trans (by omega))
  refine ⟨t, by rw [known]; exact known', ?_⟩
  have nested : HasSort (.app (.bv op) [x, y]) (.bv w) := hasSort_bv.2 ⟨inner, outer⟩
  apply folded'.stands.trans
  apply stands_bv sorted nested commutes.not_urem (hasSort_bv.2 ⟨sortedJoined, outer⟩)
  · intro M safe
    rw [safe_pair, safe_app other, safe_pair] at safe
    refine (safe_app other).2 (safe_pair.2 ⟨?_, safe.2.2⟩)
    exact folded.stands.safe M ((safe_app other).2 (safe_pair.2 ⟨safe.1, safe.2.1⟩))
  · intro M safe
    rw [safe_pair, safe_app other, safe_pair] at safe
    rw [bv_bv M sortedJoined, bv_bv M inner,
      folded.stands.bv_eq ((safe_app other).2 (safe_pair.2 ⟨safe.1, safe.2.1⟩)),
      bv_bv M sorted, commutes.assoc]

theorem reassociate_gives {c : Expr} (sorted : c.HasSort (.bv w)) (right : e.HasSort (.bv w))
    (const : c.isConst = true) (enough : 2 * (c.size + e.size) ≤ k + 1) :
    RuleGives (reassociate r op c e) fun t =>
      t.StandsFor (.app (.bv op) [c, e]) ∧ e.isConst = false := by
  unfold reassociate
  split
  · next op' x y =>
    split
    · next same =>
      subst same
      obtain ⟨inner, outer⟩ := hasSort_bv.1 right
      have sizes : size (.app (.bv op) [x, y]) = x.size + y.size + 1 := size_pair (by simp)
      have one := size_of_isConst const
      split
      · next constX =>
        have oneX := size_of_isConst constX
        obtain ⟨t, known, stands⟩ := commutes.joined good sorted inner outer const constX (by omega)
        exact ruleGives_fire ⟨t, known, stands, rfl⟩
      split
      · next constY =>
        have oneY := size_of_isConst constY
        obtain ⟨t, known, stands⟩ := commutes.joined good sorted outer inner const constY (by omega)
        apply ruleGives_fire
        refine ⟨t, known, stands.trans ?_, rfl⟩
        exact .pair _ (.refl c) (commutes.swap inner outer)
      · exact ruleGives_skip
    · exact ruleGives_skip
  · exact ruleGives_skip

theorem binopCommutative_gives (z : Z3) (left : a.HasSort (.bv w)) (right : b.HasSort (.bv w))
    (enough : 2 * (a.size + b.size) ≤ k + 1) :
    Gives (binopCommutative z r op identity absorbent a b) fun t => t.Folded op a b := by
  have other := commutes.not_urem
  unfold binopCommutative
  split
  · next first =>
    refine ⟨a, rfl, ?_, fun constA _ => constA⟩
    apply stands_bv left right other left fun M safe => (safe_pair.1 safe).1
    intro M _
    rcases first with absorbs | neutral
    · rw [commutes.absorbent left absorbs]
    · rw [commutes.identity right neutral]
  split
  · next second =>
    refine ⟨b, rfl, ?_, fun _ constB => constB⟩
    apply stands_bv left right other right fun M safe => (safe_pair.1 safe).2
    intro M _
    rw [commutes.comm]
    rcases second with absorbs | neutral
    · rw [commutes.absorbent right absorbs]
    · rw [commutes.identity left neutral]
  split
  · next constA =>
    have plain := commutes.ordered z left right
    obtain ⟨o, known, fires⟩ := reassociate_gives commutes good left right constA enough
    rw [known]
    cases o with
    | none => exact ⟨_, rfl, plain⟩
    | some t =>
      obtain ⟨stands, notConst⟩ := fires t rfl
      refine ⟨t, rfl, stands, fun _ constB => ?_⟩
      rw [notConst] at constB
      cases constB
  split
  · next notConst constB =>
    have plain := commutes.ordered z right left
    have swapped := commutes.swap left right
    obtain ⟨o, known, fires⟩ := reassociate_gives commutes good right left constB (by omega)
    rw [known]
    cases o with
    | none => exact ⟨_, rfl, plain.stands.trans swapped, fun constA => absurd constA notConst⟩
    | some t =>
      exact ⟨t, rfl, (fires t rfl).1.trans swapped, fun constA => absurd constA notConst⟩
  · exact ⟨_, rfl, commutes.ordered z left right⟩

end

end Expr

end AliveNext.Smt
