import AliveNext.Smt.Resize
import AliveNext.Smt.Substitution

/-!
# Constructors keep scopes

What a constructor returns is put together from parts of the terms it was given,
so it has no bound variables that they do not have.
-/

namespace AliveNext.Smt

open Rule

namespace Expr

def Keeps (o : Option Expr) (P : Expr → Prop) : Prop := ∀ t, o = some t → P t

theorem keeps_some {P : Expr → Prop} {e : Expr} (holds : P e) : Keeps (some e) P := by
  intro t known
  cases known
  exact holds

section

variable {S : Scope} {z : Z3} {a b c d e : Expr}

theorem Scope.single {op : Op} (holds : S.holds a) : S.holds (.app op [a]) :=
  S.app (by simpa using holds)

theorem Scope.pair {op : Op} (first : S.holds a) (second : S.holds b) : S.holds (.app op [a, b]) :=
  S.app (by simpa using ⟨first, second⟩)

theorem Scope.triple {op : Op} (first : S.holds a) (second : S.holds b)
    (third : S.holds c) : S.holds (.app op [a, b, c]) :=
  S.app (by simpa using ⟨first, second, third⟩)

theorem holds_not (holds : S.holds e) : S.holds (not e) := by
  unfold not
  split
  · exact S.const rfl
  split
  · exact S.const rfl
  split
  · next neg shape =>
    rw [isNot_eq_some] at shape
    subst shape
    exact S.arg holds (by simp)
  · exact S.single holds

theorem holds_and (first : S.holds a) (second : S.holds b) : S.holds (and a b) := by
  unfold and
  split
  · exact first
  split
  · exact second
  · exact S.pair first second

theorem holds_or (first : S.holds a) (second : S.holds b) : S.holds (or a b) := by
  unfold or
  split
  · exact first
  split
  · exact second
  split
  · exact S.const rfl
  split
  · next common known =>
    unfold commonConjunct at known
    split at known
    · next x y u v shape shape' =>
      rw [isAnd_eq_some] at shape
      subst shape
      split at known
      · cases known
        exact S.arg first (by simp)
      · cases known
    · cases known
  · exact S.pair first second

variable (plain : z.Plain S)

include plain

theorem holds_simplifyConst
    {inputs : List Expr} (holds : S.holds e) : S.holds (simplifyConst z e inputs) := by
  unfold simplifyConst
  split
  · exact plain.holds holds
  · exact holds

theorem holds_oneBitIf (cond : S.holds c) : Keeps (oneBitIf z c a b) S.holds := by
  intro t known
  unfold oneBitIf at known
  split at known
  · next lhs rhs shape =>
    rw [isEq_eq_some] at shape
    subst shape
    have left : S.holds lhs := S.arg cond (by simp)
    have right : S.holds rhs := S.arg cond (by simp)
    split at known
    · split at known
      · cases known
        exact right
      split at known
      · cases known
        exact left
      split at known
      · cases known
        exact holds_simplifyConst plain (S.single right)
      split at known
      · cases known
        exact holds_simplifyConst plain (S.single left)
      · cases known
    · cases known
  · cases known

theorem holds_mkIfWithin (calls : Nat) (cond : S.holds c) (then_ : S.holds a)
    (els : S.holds b) : Keeps (mkIfWithin z calls c a b) S.holds := by
  induction calls generalizing c a b with
  | zero =>
    intro t known
    cases known
  | succ calls ih =>
    unfold mkIfWithin
    split
    · exact keeps_some then_
    split
    · exact keeps_some els
    split
    · exact keeps_some (holds_or cond els)
    split
    · exact keeps_some (holds_and (holds_not cond) els)
    split
    · exact keeps_some (holds_or (holds_not cond) then_)
    split
    · exact keeps_some (holds_and cond then_)
    split
    · next notcond shape =>
      rw [isNot_eq_some] at shape
      subst shape
      exact ih (S.arg cond (by simp)) els then_
    split
    · next bit known =>
      exact keeps_some (holds_oneBitIf plain cond bit known)
    split
    · next cond2 then2 else2 shape =>
      rw [isIf_eq_some] at shape
      subst shape
      split
      · exact ih (holds_or cond (S.arg els (by simp))) then_ (S.arg els (by simp))
      · exact keeps_some (S.triple cond then_ els)
    · exact keeps_some (S.triple cond then_ els)

theorem holds_mkIf
    (cond : S.holds c) (then_ : S.holds a) (els : S.holds b) : S.holds (mkIf z c a b) := by
  unfold mkIf
  cases known : mkIfWithin z (mkIfCalls c a b) c a b with
  | none => exact S.triple cond then_ els
  | some t => exact holds_mkIfWithin plain _ cond then_ els t known

end

end Expr

end AliveNext.Smt
