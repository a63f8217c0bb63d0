import AliveNext.Smt.CmpEq

/-!
# The nesting depth does not matter

An answer found by rounds nested `n` deep is also found when they may nest
deeper. So a call has one answer, the one that the rank of its arguments is
enough for, and the constructors of the source return it.
-/

namespace AliveNext.Smt

def Upto {α : Type} (x y : Option α) : Prop := ∀ t, x = some t → y = some t

namespace Upto

variable {α β : Type} {x y : Option α} {f g : α → Option β}

theorem refl (x : Option α) : Upto x x := fun _ known => known

theorem bind (first : Upto x y) (second : ∀ a, Upto (f a) (g a)) : Upto (x >>= f) (y >>= g) := by
  intro t known
  obtain ⟨a, answer, rest⟩ := Option.bind_eq_some_iff.1 known
  exact Option.bind_eq_some_iff.2 ⟨a, first a answer, second a t rest⟩

theorem map (upto : Upto x y) (h : α → β) : Upto (x.map h) (y.map h) := by
  intro t known
  obtain ⟨a, answer, rfl⟩ := Option.map_eq_some_iff.1 known
  rw [upto a answer, Option.map_some]

theorem ite {c : Prop} [Decidable c] {x' y' : Option α} (upto : Upto x y)
    (upto' : Upto x' y') : Upto (if c then x else x') (if c then y else y') := by
  by_cases holds : c
  · rw [if_pos holds, if_pos holds]
    exact upto
  · rw [if_neg holds, if_neg holds]
    exact upto'

theorem foldlM {f g : β → α → Option β} (each : ∀ b a, Upto (f b a) (g b a)) (list : List α)
    (start : β) : Upto (list.foldlM f start) (list.foldlM g start) := by
  induction list generalizing start with
  | nil => exact refl _
  | cons a rest ih =>
    rw [List.foldlM_cons, List.foldlM_cons]
    exact (each start a).bind ih

theorem fire {x y : Option Expr} (upto : Upto x y) : Upto (Rule.fire x) (Rule.fire y) :=
  upto.map some

theorem first {rules rules' : List Rule} {plain : Expr} (each : List.Forall₂ Upto rules rules') :
    Upto (Rule.first rules plain) (Rule.first rules' plain) := by
  induction each with
  | nil => exact refl _
  | cons upto _ ih =>
    refine upto.bind fun o => ?_
    cases o with
    | none => exact ih
    | some t => exact refl _

end Upto

structure Calls.Upto (r r' : Calls) : Prop where
  extract : ∀ e high low depth, Smt.Upto (r.extract e high low depth) (r'.extract e high low depth)
  concat : ∀ a b, Smt.Upto (r.concat a b) (r'.concat a b)
  sext : ∀ e amount, Smt.Upto (r.sext e amount) (r'.sext e amount)
  cmpEq : ∀ a b, Smt.Upto (r.cmpEq a b) (r'.cmpEq a b)

namespace Expr

variable {r r' : Calls} (z : Z3) (upto : r.Upto r')

include upto

theorem isConcat_upto (e : Expr) : Upto (isConcat r e) (isConcat r' e) := by
  unfold isConcat
  split
  · exact (Upto.foldlM upto.concat _ _).bind fun b => .refl _
  · exact .refl _

theorem isNegativeWith_upto (e : Expr) : Upto (isNegativeWith r e) (isNegativeWith r' e) :=
  (upto.extract e _ _ 3).bind fun bit => upto.cmpEq bit _

theorem zextWith_upto (e : Expr) (amount : Nat) :
    Upto (zextWith r e amount) (zextWith r' e amount) :=
  .ite (.refl _) (upto.concat _ e)

theorem uleWith_upto (a b : Expr) : Upto (uleWith r z a b) (uleWith r' z a b) :=
  .ite (.refl _) (.ite (upto.cmpEq a b) (.ite (.refl _) (.refl _)))

theorem ultWith_upto (a b : Expr) : Upto (ultWith r z a b) (ultWith r' z a b) := by
  unfold ultWith
  split
  · exact .ite (.refl _) (uleWith_upto z upto a _)
  · exact (uleWith_upto z upto b a).map not

theorem simplBitwise_upto (absorbs : Expr → Bool) (high low depth : Nat) (args : List Expr) :
    ∀ extracted, Upto (simplBitwise r absorbs high low depth extracted args)
      (simplBitwise r' absorbs high low depth extracted args) := by
  induction args with
  | nil => exact fun extracted => .refl _
  | cons arg rest ih =>
    intro extracted
    refine (upto.extract arg high low depth).bind fun t => ?_
    exact .ite (.refl _) (.ite (ih _) (ih _))

theorem extractOfBitwise_upto (op : BvOp) (absorbs : Expr → Bool) (e : Expr)
    (high low depth : Nat) :
    Upto (extractOfBitwise r op absorbs e high low depth)
      (extractOfBitwise r' op absorbs e high low depth) := by
  unfold extractOfBitwise
  split
  · refine .ite ((upto.extract _ high low depth).bind fun t => ?_) (.refl _)
    exact .ite (.refl _) (simplBitwise_upto upto absorbs high low depth _ _)
  · exact .refl _

theorem extractOfConcat_upto (e : Expr) (high low : Nat) :
    Upto (extractOfConcat r e high low) (extractOfConcat r' e high low) := by
  refine (isConcat_upto upto e).bind fun o => ?_
  cases o with
  | none => exact .refl _
  | some pair =>
    refine .ite (upto.extract _ _ _ 3).fire (.ite (upto.extract _ _ _ 3).fire (.ite ?_ (.ite ?_
      (.refl _))))
    · exact ((upto.extract _ _ _ 3).bind fun a => upto.concat a _).fire
    · refine ((upto.extract _ _ _ 3).bind fun a => ?_).fire
      exact (upto.extract _ _ _ 3).bind fun b => upto.concat a b

theorem extractOfIf_upto (e : Expr) (high low depth : Nat) :
    Upto (extractOfIf r z e high low depth) (extractOfIf r' z e high low depth) := by
  unfold extractOfIf
  split
  · refine (upto.extract _ high low depth).bind fun t => ?_
    exact (upto.extract _ high low depth).bind fun f => .refl _
  · exact .refl _

theorem extractRound_upto (e : Expr) (high low depth : Nat) :
    Upto (extractRound r z e high low depth) (extractRound r' z e high low depth) := by
  refine .ite (.refl _) ?_
  cases depth with
  | zero => exact .refl _
  | succ depth =>
    apply Upto.first
    refine .cons ?_ (.cons ?_ (.cons ?_ (.cons ?_ (.cons ?_ (.cons ?_ (.cons ?_ .nil))))))
    · unfold extractOfExtract
      split
      · exact (upto.extract _ _ _ 3).fire
      · exact .refl _
    · unfold extractOfSignExt
      split
      · exact .ite (.ite (upto.extract _ _ _ 3).fire (upto.sext _ _).fire) (.refl _)
      · exact .refl _
    · unfold extractOfAShr
      split
      · split
        · exact .ite (upto.extract _ _ _ 3).fire (.refl _)
        · exact .refl _
      · exact .refl _
    · exact extractOfConcat_upto upto e high low
    · exact extractOfIf_upto z upto e high low depth
    · exact extractOfBitwise_upto upto .and isZero e high low depth
    · exact extractOfBitwise_upto upto .or isAllOnes e high low depth

theorem concatRound_upto (a b : Expr) : Upto (concatRound r z a b) (concatRound r' z a b) := by
  apply Upto.first
  refine .cons ?_ (.cons ?_ (.cons ?_ (.cons ?_ .nil)))
  · unfold concatExtracts
    split
    · refine .ite (.ite (upto.extract _ _ _ 3).fire (.ite ?_ (.refl _))) (.refl _)
      refine (isConcat_upto upto _).bind fun o => ?_
      cases o with
      | none => exact .refl _
      | some pair => exact .ite (upto.concat _ _).fire (.refl _)
    · exact .refl _
  · unfold concatExtractConcat
    split
    · refine (isConcat_upto upto b).bind fun o => ?_
      cases o with
      | none => exact .refl _
      | some pair =>
        obtain ⟨c, d⟩ := pair
        cases shape : c.isExtract with
        | none => simpa only [shape] using Upto.refl _
        | some parts =>
          simp only [shape]
          exact .ite ((upto.extract _ _ _ 3).bind fun t => upto.concat t _).fire (.refl _)
    · exact .refl _
  · refine (isConcat_upto upto a).bind fun o => ?_
    cases o with
    | none => exact .refl _
    | some pair =>
      obtain ⟨c, d⟩ := pair
      dsimp only
      split
      · exact .ite ((upto.extract _ _ _ 3).bind fun t => upto.concat _ t).fire (.refl _)
      · exact .refl _
  · refine .ite ((isConcat_upto upto b).bind fun o => ?_) (.refl _)
    cases o with
    | none => exact .refl _
    | some pair =>
      exact .ite ((upto.concat _ _).bind fun t => upto.concat t _).fire (.refl _)

theorem sextRound_upto (e : Expr) (amount : Nat) :
    Upto (sextRound r z e amount) (sextRound r' z e amount) := by
  refine .ite (.refl _) ?_
  split
  · exact upto.sext _ _
  · refine (isNegativeWith_upto upto e).bind fun negative => ?_
    exact .ite (zextWith_upto upto e amount) (.refl _)

theorem eqPieces_upto (rhs : Expr) (args : List Expr) :
    ∀ high eqs, Upto (eqPieces r z rhs high args eqs) (eqPieces r' z rhs high args eqs) := by
  induction args with
  | nil => exact fun high eqs => .refl _
  | cons arg rest ih =>
    intro high eqs
    refine (upto.extract rhs _ _ 3).bind fun piece => ?_
    exact (upto.cmpEq arg piece).bind fun eq => ih _ _

theorem eqOfPieces_upto (lIdx rIdx : Nat) (a b : Expr) (eqs : AndExpr) :
    Upto (eqOfPieces r z lIdx rIdx a b eqs) (eqOfPieces r' z lIdx rIdx a b eqs) := by
  have compare : ∀ h l h' l', Upto
      (do let a ← r.extract a h l 3
          let b ← r.extract b h' l' 3
          let eq ← r.cmpEq a b
          some (eqs.add z 16 eq))
      (do let a ← r'.extract a h l 3
          let b ← r'.extract b h' l' 3
          let eq ← r'.cmpEq a b
          some (eqs.add z 16 eq)) := by
    intro h l h' l'
    refine (upto.extract a h l 3).bind fun x => (upto.extract b h' l' 3).bind fun y => ?_
    exact (upto.cmpEq x y).bind fun eq => .refl _
  unfold eqOfPieces
  refine .ite ((upto.cmpEq a b).bind fun eq => .refl _) (.ite (.ite ?_ (.ite ?_ (.refl _)))
    (.refl _))
  · exact compare _ _ _ _
  · exact compare _ _ _ _

theorem eqZip_upto (ls : List Expr) :
    ∀ lIdx rIdx aligned eqs rs, Upto (eqZip r z lIdx rIdx aligned eqs ls rs)
      (eqZip r' z lIdx rIdx aligned eqs ls rs) := by
  induction ls with
  | nil => exact fun lIdx rIdx aligned eqs rs => by cases rs <;> exact .refl _
  | cons a ls ih =>
    intro lIdx rIdx aligned eqs rs
    cases rs with
    | nil => exact .refl _
    | cons b rs =>
      exact (eqOfPieces_upto z upto lIdx rIdx a b eqs).bind fun next => ih _ _ _ _ _

theorem eqOfIf_upto (a b : Expr) : Upto (eqOfIf r z a b) (eqOfIf r' z a b) := by
  have pushed : ∀ c x y, Upto (eqOfIf.pushed r z b c x y) (eqOfIf.pushed r' z b c x y) := by
    intro c x y
    refine .ite (((upto.cmpEq x b).bind fun t => ?_).fire) (.refl _)
    exact (upto.cmpEq y b).bind fun u => .refl _
  unfold eqOfIf
  split
  · split
    · exact .ite (upto.cmpEq _ _).fire (pushed _ _ _)
    · exact pushed _ _ _
  · exact .ite (upto.cmpEq b a).fire (.refl _)

theorem cmpEqRound_upto (a b : Expr) : Upto (cmpEqRound r z a b) (cmpEqRound r' z a b) := by
  apply Upto.first
  refine .cons ?_ (.cons ?_ (.cons (.refl _) (.cons ?_ (.cons ?_ (.cons ?_ (.cons ?_ (.cons ?_
    (.cons ?_ .nil))))))))
  · refine .ite (.refl _) (.ite (.ite (.refl _) (upto.cmpEq b a).fire) (.refl _))
  · unfold eqOfOneBit
    split
    · exact .ite (upto.cmpEq _ _).fire (.refl _)
    · exact .refl _
  · unfold eqOfConcatConst
    split
    · exact .ite ((eqPieces_upto z upto b _ _ _).bind fun eqs => .refl _) (.refl _)
    · exact .refl _
  · unfold eqOfConcats
    split
    · exact .ite ((eqZip_upto z upto _ _ _ _ _ _).bind fun zipped => .refl _) (.refl _)
    · exact .refl _
  · exact eqOfIf_upto z upto a b
  · unfold eqOfAdd
    split
    · refine (isNegativeWith_upto upto _).bind fun x => ?_
      refine (isNegativeWith_upto upto _).bind fun y => ?_
      refine (ultWith_upto z upto b _).bind fun belowX => ?_
      exact (ultWith_upto z upto b _).bind fun belowY => .refl _
    · exact .refl _
  · unfold eqOfURem
    split
    · exact (uleWith_upto z upto _ b).bind fun above => .refl _
    · exact .refl _
  · have zero : ∀ x, Upto (eqOfSignExt.zero r b x) (eqOfSignExt.zero r' b x) := fun x =>
      .ite (upto.cmpEq x _).fire (.refl _)
    unfold eqOfSignExt
    split
    · split
      · exact .ite (upto.cmpEq _ _).fire (zero _)
      · exact zero _
    · exact .refl _

end Expr

theorem calls_upto_succ (z : Z3) (depth : Nat) : (calls z depth).Upto (calls z (depth + 1)) := by
  induction depth with
  | zero =>
    constructor
    · intro e high low depth t known
      cases known
    · intro a b t known
      cases known
    · intro e amount t known
      cases known
    · intro a b t known
      cases known
  | succ depth upto =>
    exact ⟨Expr.extractRound_upto z upto, Expr.concatRound_upto z upto,
      Expr.sextRound_upto z upto, Expr.cmpEqRound_upto z upto⟩

theorem calls_upto (z : Z3) {depth depth' : Nat}
    (le : depth ≤ depth') : (calls z depth).Upto (calls z depth') := by
  induction le with
  | refl => exact ⟨fun _ _ _ _ => .refl _, fun _ _ => .refl _, fun _ _ => .refl _,
      fun _ _ => .refl _⟩
  | step _ ih =>
    have next := calls_upto_succ z
    constructor
    · exact fun e high low depth t known => (next _).extract e high low depth t
        (ih.extract e high low depth t known)
    · exact fun a b t known => (next _).concat a b t (ih.concat a b t known)
    · exact fun e amount t known => (next _).sext e amount t (ih.sext e amount t known)
    · exact fun a b t known => (next _).cmpEq a b t (ih.cmpEq a b t known)

end AliveNext.Smt
