import AliveNext.Smt.Resize
import AliveNext.Smt.Substitution

/-!
# Arrays

Stores drop entries that they overwrite, and loads walk down a chain of stores
and into lambdas. What a load makes of the body of a lambda is folded at the top.
-/

namespace AliveNext.Smt

namespace Expr

variable (z : Z3)

def isStore : Expr → Option (Expr × Expr × Expr)
  | .app .store [array, idx, val] => some (array, idx, val)
  | _ => none

def isConstArray : Expr → Option Expr
  | .app (.constArray _) [val] => some val
  | _ => none

def isLoad : Expr → Option (Expr × Expr)
  | .app .select [array, idx] => some (array, idx)
  | _ => none

def mkStore (array idx val : Expr) : Expr := .app .store [array, idx, val]

def mkSelect (array idx : Expr) : Expr := .app .select [array, idx]

def mkConstArray (domain value : Expr) : Expr := .app (.constArray domain.sort) [value]

def store : Expr → Expr → Expr → Expr
  | .app .store [array, strIdx, strVal], idx, val =>
    if (cmpEq z idx strIdx).isTrue then store array idx val
    else mkStore (mkStore array strIdx strVal) idx val
  | .app (.constArray domain) [strVal], idx, val =>
    if strVal = val then .app (.constArray domain) [strVal]
    else mkStore (.app (.constArray domain) [strVal]) idx val
  | array, idx, val => mkStore array idx val

def beyond (strIdx : Expr) (maxIdx : Nat) : Bool :=
  match strIdx.isUInt with
  | some n => n > maxIdx
  | none => false

mutual

/-- `expr::load`, calls nested at most so deep. -/
def loadWithin : Nat → Expr → Expr → Nat → Option Expr
  | 0, _, _, _ => none
  | depth + 1, array, idx, maxIdx =>
    match array with
    | .app .store [rest, strIdx, val] =>
      if beyond strIdx maxIdx then loadWithin depth rest idx maxIdx
      else
        let cmp := cmpEq z idx strIdx
        if cmp.isTrue then some val
        else do
          let loaded ← loadWithin depth rest idx maxIdx
          if cmp.isFalse ∨ val = loaded then some loaded
          else some (mkSelect (mkStore rest strIdx val) idx)
    | .app (.constArray _) [val] => some val
    | .lambda _ _ body => foldTopLevelWithin depth (substVar body idx)
    | _ => some (mkSelect array idx)

/-- `expr::foldTopLevel`. Variables and constants are applications to no
arguments. -/
def foldTopLevelWithin : Nat → Expr → Option Expr
  | 0, _ => none
  | depth + 1, e =>
    match e with
    | .app .ite [cond, then_, els] => do
      let cond ← foldTopLevelWithin depth cond
      let then_ ← foldTopLevelWithin depth then_
      let els ← foldTopLevelWithin depth els
      some (mkIf z cond then_ els)
    | .app op args =>
      match isLoad (.app op args) with
      | some (array, idx) =>
        if idx.isConst then loadWithin depth array idx (2 ^ 64 - 1) else some e
      | none => if args.all isConst then some (z.simplify e) else some e
    | .lambda _ _ _ | .bound _ _ => some e
    | .num _ _ | .bool _ | .var _ _ => some (z.simplify e)

end

def load (array idx : Expr) (maxIdx : Nat) : Expr :=
  (loadWithin z (array.height + idx.height + 1) array idx maxIdx).getD (mkSelect array idx)

def foldTopLevel (e : Expr) : Expr := (foldTopLevelWithin z (e.height + 1) e).getD e

mutual

/-- `expr::vars`: the variables, free and bound, whatever binds them. Constants
without a number are variables too. -/
def vars : Expr → List Expr
  | .num _ _ => []
  | .app op args => if args.isEmpty then [.app op args] else varsAll args
  | .lambda _ _ body => body.vars
  | e => [e]

def varsAll : List Expr → List Expr
  | [] => []
  | e :: es => e.vars ++ varsAll es

end

def mkLambda (var : Expr) (varName : String) (val : Expr) : Expr :=
  if var ∉ val.vars then mkConstArray var val
  else
    match val.isLoad with
    | some (array, idx) => if idx = var then array else .lambda var.sort varName val
    | none => .lambda var.sort varName val

section

variable {a b e i v : Expr} {domain range s : Srt} {M : Model}

theorem hasSort_store : (mkStore a i v).HasSort s ↔
      ∃ domain range, s = .array domain range ∧ a.HasSort (.array domain range) ∧
        i.HasSort domain ∧ v.HasSort range := by
  rw [mkStore, hasSort_app, Op.accepts_store]
  constructor
  · rintro ⟨sorted, ⟨domain, range, shape⟩, rfl⟩
    simp only [List.map_cons, List.map_nil, List.cons.injEq, and_true] at shape
    obtain ⟨first, second, third⟩ := shape
    exact ⟨domain, range, by simp [Op.sort, first], ⟨sorted a (by simp), first⟩,
      ⟨sorted i (by simp), second⟩, ⟨sorted v (by simp), third⟩⟩
  · rintro ⟨domain, range, rfl, ⟨sorted, first⟩, ⟨sorted', second⟩, ⟨sorted'', third⟩⟩
    simp [sorted, sorted', sorted'', first, second, third, Op.sort]

theorem hasSort_select :
    (mkSelect a i).HasSort s ↔ ∃ domain, a.HasSort (.array domain s) ∧ i.HasSort domain := by
  rw [mkSelect, hasSort_app, Op.accepts_select]
  constructor
  · rintro ⟨sorted, ⟨domain, range, shape⟩, rfl⟩
    simp only [List.map_cons, List.map_nil, List.cons.injEq, and_true] at shape
    have result : Op.sort .select ([a, i].map sort) = range := by simp [Op.sort, shape.1]
    rw [result]
    exact ⟨domain, ⟨sorted a (by simp), shape.1⟩, ⟨sorted i (by simp), shape.2⟩⟩
  · rintro ⟨domain, ⟨sorted, first⟩, ⟨sorted', second⟩⟩
    simp [sorted, sorted', first, second, Op.sort]

theorem hasSort_constArray : HasSort (.app (.constArray domain) [v]) s ↔
      ∃ range, s = .array domain range ∧ domain.wf = true ∧ v.HasSort range := by
  rw [hasSort_app, Op.accepts_constArray]
  constructor
  · rintro ⟨sorted, ⟨range, shape, wf⟩, rfl⟩
    simp only [List.map_cons, List.map_nil, List.cons.injEq, and_true] at shape
    exact ⟨range, by simp [Op.sort, shape], wf, ⟨sorted v (by simp), shape⟩⟩
  · rintro ⟨range, rfl, wf, ⟨sorted, first⟩⟩
    simp [sorted, wf, first, Op.sort]

theorem hasSort_lambda {name : String} : HasSort (.lambda domain name e) s ↔
      ∃ range, s = .array domain range ∧ domain.wf = true ∧ e.HasSort range := by
  constructor
  · rintro ⟨sorted, rfl⟩
    rw [wellSorted, Bool.and_eq_true] at sorted
    exact ⟨e.sort, rfl, sorted.1, sorted.2, rfl⟩
  · rintro ⟨range, rfl, wf, ⟨sorted, rfl⟩⟩
    exact ⟨by rw [wellSorted, wf, sorted, Bool.and_self], rfl⟩

theorem HasSort.value_sort (sorted : e.HasSort s) (M : Model) : (e.eval M).sort = s := by
  rw [eval_sort M sorted.wellSorted, sorted.sort_eq]

noncomputable def val (e : Expr) (s : Srt) (M : Model) : s.Val := (e.eval M).get s

theorem HasSort.eval_val (sorted : e.HasSort s) (M : Model) : e.eval M = .of s (e.val s M) :=
  (Value.of_get (sorted.value_sort M)).symm

theorem HasSort.eval_array (sorted : a.HasSort (.array domain range)) (M : Model) :
    a.eval M = .array domain range (a.val (.array domain range) M) :=
  sorted.eval_val M

theorem eval_select (array : a.HasSort (.array domain range)) :
    (mkSelect a i).eval M = .of range (a.val (.array domain range) M (i.val domain M)) := by
  simp only [mkSelect, eval, evals, array.eval_array M, Op.denote]
  rfl

theorem eval_select_store (array : a.HasSort (.array domain range)) (stored : i.HasSort domain)
    (value : v.HasSort range) (index : b.HasSort domain) [Decidable (b.eval M = i.eval M)] :
    (mkSelect (mkStore a i v) b).eval M =
      if b.eval M = i.eval M then v.eval M else (mkSelect a b).eval M := by
  have whole : (mkStore a i v).HasSort (.array domain range) :=
    hasSort_store.2 ⟨domain, range, rfl, array, stored, value⟩
  have content : (mkStore a i v).val (.array domain range) M (b.val domain M) =
      if b.eval M = i.eval M then v.val range M
      else a.val (.array domain range) M (b.val domain M) := by
    have shape : (mkStore a i v).eval M = .array domain range fun j =>
        if (Value.of domain j).same (i.eval M) then v.val range M
        else a.val (.array domain range) M j := by
      simp only [mkStore, eval, evals, array.eval_array M, Op.denote]
      rfl
    rw [val, shape]
    have reduce : ∀ f : domain.Val → range.Val,
        (Value.array domain range f).get (.array domain range) = f :=
      fun f => Value.get_of (.array domain range) f
    rw [reduce, ← index.eval_val M]
    by_cases same : b.eval M = i.eval M
    · rw [if_pos same, if_pos ((Value.same_iff _ _).2 same)]
    · rw [if_neg same, if_neg fun contra => same ((Value.same_iff _ _).1 contra)]
  rw [eval_select whole, content]
  by_cases same : b.eval M = i.eval M
  · rw [if_pos same, if_pos same, value.eval_val M]
  · rw [if_neg same, if_neg same, eval_select array]

theorem eval_select_constArray (value : v.HasSort range) :
    (mkSelect (.app (.constArray domain) [v]) i).eval M = v.eval M := by
  have sort := value.value_sort M
  simp only [mkSelect, eval, evals, Op.denote]
  subst sort
  cases v.eval M <;> rfl

theorem eval_select_lambda {name : String} (body : e.HasSort range) :
    (mkSelect (.lambda domain name e) i).eval M = e.eval (M.push domain (i.val domain M)) := by
  have whole := body.value_sort (M.push domain (i.val domain M))
  simp only [mkSelect, eval, evals, Op.denote]
  rw [body.sort_eq]
  exact Value.of_get whole

end

end Expr

end AliveNext.Smt
