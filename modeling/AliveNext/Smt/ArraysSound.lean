import AliveNext.Smt.Arrays
import AliveNext.Smt.ScopeKept

/-!
# Arrays obey read-over-write

A store is the array with one entry changed, and a load is the entry, as long as
the loaded index is not above the bound it was promised to keep.
-/

namespace AliveNext.Smt

namespace Expr

variable (z : Z3)

section

variable {a i v : Expr} {domain range : Srt} {M : Model}

theorem eval_store (array : a.HasSort (.array domain range)) :
    (mkStore a i v).eval M = .array domain range fun j =>
      if (Value.of domain j).same (i.eval M) then v.val range M
      else a.val (.array domain range) M j := by
  simp only [mkStore, eval, evals, array.eval_array M, Op.denote]
  rfl

theorem val_array (f : domain.Val → range.Val) (e : Expr)
    (known : e.eval M = .array domain range f) : e.val (.array domain range) M = f := by
  rw [val, known]
  exact Value.get_of (.array domain range) f

theorem nonzeroDivisors_store : (mkStore a i v).NonzeroDivisors M ↔
      a.NonzeroDivisors M ∧ i.NonzeroDivisors M ∧ v.NonzeroDivisors M :=
  nonzeroDivisors_triple (by simp)

theorem overwrite_stands {strIdx strVal : Expr}
    (chain : (mkStore a strIdx strVal).HasSort (.array domain range)) (index : i.HasSort domain)
    (value : v.HasSort range) (equal : (cmpEq z i strIdx).isTrue = true) :
    (mkStore a i v).StandsFor (mkStore (mkStore a strIdx strVal) i v) := by
  obtain ⟨d, r, same, array, stored, -⟩ := hasSort_store.1 chain
  cases same
  have sorted : (mkStore a i v).HasSort (.array domain range) :=
    hasSort_store.2 ⟨domain, range, rfl, array, index, value⟩
  refine ⟨fun s whole => ?_, fun M safe => ?_, fun M safe => ?_⟩
  · have plain : (mkStore (mkStore a strIdx strVal) i v).HasSort (.array domain range) :=
      hasSort_store.2 ⟨domain, range, rfl, chain, index, value⟩
    cases whole.unique plain
    exact sorted
  · rw [nonzeroDivisors_store, nonzeroDivisors_store] at safe
    exact nonzeroDivisors_store.2 ⟨safe.1.1, safe.2⟩
  · rw [nonzeroDivisors_store, nonzeroDivisors_store] at safe
    have indices := (cmpEq_decides z index stored).of_isTrue equal
      (safe_pair.2 ⟨safe.2.1, safe.1.2.1⟩)
    rw [eval_store array, eval_store chain]
    congr 1
    funext j
    rw [val_array _ _ (eval_store array), indices]
    by_cases here : (Value.of domain j).same (strIdx.eval M) = true
    · rw [if_pos here, if_pos here]
    · rw [if_neg here, if_neg here]
      exact (if_neg here).symm

theorem constArray_stands (array : HasSort (.app (.constArray domain) [v]) (.array domain range))
    (index : i.HasSort domain) (value : v.HasSort range) :
    StandsFor (.app (.constArray domain) [v]) (mkStore (.app (.constArray domain) [v]) i v) := by
  refine ⟨fun s whole => ?_, fun M safe => ?_, fun M safe => ?_⟩
  · have plain : (mkStore (.app (.constArray domain) [v]) i v).HasSort (.array domain range) :=
      hasSort_store.2 ⟨domain, range, rfl, array, index, value⟩
    cases whole.unique plain
    exact array
  · exact (nonzeroDivisors_store.1 safe).1
  · have content : eval (.app (.constArray domain) [v]) M =
        .array domain range fun _ => v.val range M := by
      have sort := value.value_sort M
      simp only [eval, evals, Op.denote, val]
      subst sort
      rw [Value.get, dif_pos rfl]
    rw [eval_store array, val_array _ _ content, content]
    congr 1
    funext j
    split <;> rfl

theorem store_stands (array : a.HasSort (.array domain range)) (index : i.HasSort domain)
    (value : v.HasSort range) : (store z a i v).StandsFor (mkStore a i v) := by
  fun_induction store z a i v with
  | case1 rest strIdx strVal idx val equal ih =>
    obtain ⟨d, r, same, restSort, -⟩ := hasSort_store.1 array
    cases same
    exact (ih restSort index value).trans (overwrite_stands z array index value equal)
  | case2 rest strIdx strVal idx val other => exact .refl _
  | case3 d idx val =>
    obtain ⟨r, same, -⟩ := hasSort_constArray.1 array
    cases same
    exact constArray_stands array index value
  | case4 d strVal idx val other => exact .refl _
  | case5 array' idx val notStore notConst => exact .refl _

end

/-! ## Loads -/

structure Replaces (S : Scope) (t e : Expr) (s : Srt) (allowed : Model → Prop) : Prop where
  sorted : t.HasSort s
  eval_eq : ∀ M, allowed M → t.eval M = e.eval M
  safe : z.Plain S → ∀ M, allowed M → t.NonzeroDivisors M
  scope : z.Plain S → S.holds t

def Reaches (idx : Expr) (maxIdx : Nat) (M : Model) : Prop :=
  idx.toNat M ≤ maxIdx ∨ 2 ^ 64 - 1 ≤ maxIdx

def Loadable (array idx : Expr) (maxIdx : Nat) (M : Model) : Prop :=
  array.NonzeroDivisors M ∧ idx.NonzeroDivisors M ∧ Reaches idx maxIdx M

section

variable {z} {S : Scope} {a e i idx t u v : Expr} {domain range s : Srt} {maxIdx depth : Nat}
  {M : Model} {p q : Model → Prop}

namespace Replaces

theorem refl (sorted : e.HasSort s) (holds : S.holds e)
    (safe : ∀ M, p M → e.NonzeroDivisors M) : Replaces z S e e s p :=
  ⟨sorted, fun _ _ => rfl, fun _ M allowed => safe M allowed, fun _ => holds⟩

theorem congr (replaces : Replaces z S t u s p) (fewer : ∀ M, q M → p M)
    (same : ∀ M, q M → u.eval M = e.eval M) : Replaces z S t e s q where
  sorted := replaces.sorted
  eval_eq M allowed := (replaces.eval_eq M (fewer M allowed)).trans (same M allowed)
  safe plain M allowed := replaces.safe plain M (fewer M allowed)
  scope := replaces.scope

theorem simplify (sorted : e.HasSort s) (holds : S.holds e)
    (safe : ∀ M, p M → e.NonzeroDivisors M) : Replaces z S (z.simplify e) e s p := by
  obtain ⟨wellSorted, equal⟩ := z.equal e sorted.wellSorted
  refine ⟨⟨wellSorted, ?_⟩, fun M _ => equal M, fun plain M allowed => plain.safe (safe M allowed),
    fun plain => plain.holds holds⟩
  rw [← eval_sort default wellSorted, equal, sorted.value_sort]

end Replaces

theorem nonzeroDivisors_select :
    (mkSelect a i).NonzeroDivisors M ↔ a.NonzeroDivisors M ∧ i.NonzeroDivisors M :=
  nonzeroDivisors_pair (by simp)

theorem replaces_select (array : a.HasSort (.array domain range)) (index : idx.HasSort domain)
    (holds : S.holds a) (holds' : S.holds idx) :
    Replaces z S (mkSelect a idx) (mkSelect a idx) range (Loadable a idx maxIdx) :=
  .refl (hasSort_select.2 ⟨domain, array, index⟩) (S.pair holds holds')
    fun _ allowed => nonzeroDivisors_select.2 ⟨allowed.1, allowed.2.1⟩

theorem Loadable.rest (allowed : Loadable (mkStore a i v) idx maxIdx M) : Loadable a idx maxIdx M :=
  ⟨(nonzeroDivisors_store.1 allowed.1).1, allowed.2⟩

theorem ne_of_beyond (stored : i.HasSort domain) (beyond : beyond i maxIdx = true)
    (reaches : Reaches idx maxIdx M) : idx.eval M ≠ i.eval M := by
  intro same
  unfold Expr.beyond at beyond
  split at beyond
  · next n known =>
    obtain ⟨w, x, rfl, rfl, small⟩ := isUInt_eq_some.1 known
    rw [decide_eq_true_iff] at beyond
    have value : idx.toNat M = x.toNat := by
      rw [toNat, same]
      rfl
    unfold Reaches at reaches
    omega
  · cases beyond

section

variable (array : a.HasSort (.array domain range)) (stored : i.HasSort domain)
  (value : v.HasSort range)
  (index : idx.HasSort domain)

include array stored value index

theorem replaces_hit (holds : S.holds v) (equal : (cmpEq z idx i).isTrue = true) :
    Replaces z S v (mkSelect (mkStore a i v) idx) range (Loadable (mkStore a i v) idx maxIdx) := by
  classical
  have same : ∀ M, Loadable (mkStore a i v) idx maxIdx M → idx.eval M = i.eval M := by
    intro M allowed
    have parts := nonzeroDivisors_store.1 allowed.1
    exact (cmpEq_decides z index stored).of_isTrue equal (safe_pair.2 ⟨allowed.2.1, parts.2.1⟩)
  refine ⟨value, fun M allowed => ?_, fun _ M allowed => ?_, fun _ => holds⟩
  · rw [eval_select_store array stored value index, if_pos (same M allowed)]
  · exact (nonzeroDivisors_store.1 allowed.1).2.2

theorem replaces_miss (loaded : Replaces z S t (mkSelect a idx) range (Loadable a idx maxIdx))
    (other : ∀ M, Loadable (mkStore a i v) idx maxIdx M → idx.eval M ≠ i.eval M) :
    Replaces z S t (mkSelect (mkStore a i v) idx) range (Loadable (mkStore a i v) idx maxIdx) := by
  classical
  apply loaded.congr fun M allowed => allowed.rest
  intro M allowed
  rw [eval_select_store array stored value index, if_neg (other M allowed)]

theorem replaces_same (loaded : Replaces z S v (mkSelect a idx) range (Loadable a idx maxIdx)) :
    Replaces z S v (mkSelect (mkStore a i v) idx) range (Loadable (mkStore a i v) idx maxIdx) := by
  classical
  refine ⟨value, fun M allowed => ?_, fun plain M allowed => loaded.safe plain M allowed.rest,
    loaded.scope⟩
  rw [eval_select_store array stored value index, ← loaded.eval_eq M allowed.rest, ite_self]

end

variable {body : Expr} {name : String} {k : Nat}

theorem replaces_beta (whole : HasSort (.lambda domain name body) (.array domain range))
    (index : idx.HasSort domain) (visible : body.inScope [domain] = true)
    (folded : Replaces z S t (substVar body idx) range (substVar body idx).NonzeroDivisors) :
    Replaces z S t (mkSelect (.lambda domain name body) idx) range
      (Loadable (.lambda domain name body) idx maxIdx) := by
  obtain ⟨range', same, -, bodySort⟩ := hasSort_lambda.1 whole
  cases same
  have agree : ∀ M : Model, Model.Agree [domain] (M.assign 0 (idx.eval M))
      (M.push domain (idx.val domain M)) := fun M => Model.agree_assign_push M
  apply folded.congr
  · intro M allowed
    apply nonzeroDivisors_substAt (k := 0) visible rfl index M allowed.2.1
    rw [show M.rebind (· + 0) = M from rfl, nonzeroDivisors_scope visible (agree M)]
    exact allowed.1 _
  · intro M _
    rw [substVar, eval_substAt visible rfl index M, eval_select_lambda bodySort,
      show M.rebind (· + 0) = M from rfl, eval_scope visible (agree M)]

def LoadsAt (z : Z3) (S : Scope) (depth : Nat) : Prop :=
  ∀ {array idx : Expr} {domain range : Srt} (maxIdx : Nat),
    array.HasSort (.array domain range) → idx.HasSort domain →
    S.holds array → S.holds idx → array.height + idx.height < depth →
    ∃ t, loadWithin z depth array idx maxIdx = some t ∧
      Replaces z S t (mkSelect array idx) range (Loadable array idx maxIdx)

def FoldsAt (z : Z3) (S : Scope) (depth : Nat) : Prop :=
  ∀ {e : Expr} {s : Srt}, e.HasSort s → S.holds e → e.height < depth →
    ∃ t, foldTopLevelWithin z depth e = some t ∧ Replaces z S t e s e.NonzeroDivisors

theorem loadsAt_succ
    (loads : LoadsAt z S depth) (folds : FoldsAt z S depth) : LoadsAt z S (depth + 1) := by
  intro array idx domain range maxIdx sorted index holds holds' enough
  unfold loadWithin
  split
  · next rest strIdx val =>
    obtain ⟨d, r, same, restSort, stored, value⟩ := hasSort_store.1 sorted
    cases same
    have below : rest.height < height (.app .store [rest, strIdx, val]) := height_arg (by simp)
    obtain ⟨t, known, loaded⟩ := loads maxIdx restSort index (S.arg holds (by simp)) holds'
      (by omega)
    split
    · next far =>
      refine ⟨t, known, replaces_miss restSort stored value index loaded ?_⟩
      exact fun M allowed => ne_of_beyond stored far allowed.2.2
    dsimp only
    split
    · next hit =>
      exact ⟨val, rfl, replaces_hit restSort stored value index (S.arg holds (by simp)) hit⟩
    rw [known, Option.bind_eq_bind, Option.bind_some]
    split
    · next either =>
      refine ⟨t, rfl, ?_⟩
      rcases either with miss | rfl
      · apply replaces_miss restSort stored value index loaded
        intro M allowed
        exact (cmpEq_decides z index stored).of_isFalse miss
          (safe_pair.2 ⟨allowed.2.1, (nonzeroDivisors_store.1 allowed.1).2.1⟩)
      · exact replaces_same restSort stored value index loaded
    · exact ⟨_, rfl, replaces_select sorted index holds holds'⟩
  · next d val =>
    obtain ⟨r, same, -, value⟩ := hasSort_constArray.1 sorted
    cases same
    refine ⟨val, rfl, value, fun M _ => (eval_select_constArray value).symm,
      fun _ M allowed => ?_, fun _ => S.arg holds (by simp)⟩
    exact (nonzeroDivisors_single (by simp)).1 allowed.1
  · next d name body =>
    obtain ⟨r, same, -, bodySort⟩ := hasSort_lambda.1 sorted
    cases same
    have visible := S.body holds
    have substSort : (substVar body idx).HasSort range :=
      ⟨wellSorted_substAt visible rfl index bodySort.wellSorted,
        (sort_substAt visible rfl index).trans bodySort.sort_eq⟩
    have bound : (substVar body idx).height ≤ body.height + idx.height := height_substAt
    have deeper : height (.lambda domain name body) = body.height + 1 := rfl
    obtain ⟨t, known, folded⟩ := folds substSort (S.beta holds holds') (by omega)
    exact ⟨t, known, replaces_beta sorted index visible folded⟩
  · exact ⟨_, rfl, replaces_select sorted index holds holds'⟩

theorem isLoad_eq_some : e.isLoad = some (a, i) ↔ e = mkSelect a i := by
  unfold isLoad mkSelect
  split <;> simp_all

theorem replaces_mkIf
    {cond then_ els c b d : Expr} (first : Replaces z S c cond .bool cond.NonzeroDivisors)
    (second : Replaces z S b then_ s then_.NonzeroDivisors)
    (third : Replaces z S d els s els.NonzeroDivisors) :
    Replaces z S (mkIf z c b d) (.app .ite [cond, then_, els]) s
      (NonzeroDivisors (.app .ite [cond, then_, els])) := by
  have folded : HasSort (.app .ite [c, b, d]) s :=
    hasSort_ite.2 ⟨first.sorted, second.sorted, third.sorted⟩
  have same := (mkIf_spec z folded).same
  refine ⟨same.sorted s folded, fun M safe => ?_, fun plain M safe => ?_, fun plain => ?_⟩
  · rw [nonzeroDivisors_triple (by simp)] at safe
    rw [same.eval_eq M, eval_ite, eval_ite, truth, truth, first.eval_eq M safe.1,
      second.eval_eq M safe.2.1, third.eval_eq M safe.2.2]
  · rw [nonzeroDivisors_triple (by simp)] at safe
    exact same.safe M ((nonzeroDivisors_triple (by simp)).2
      ⟨first.safe plain M safe.1, second.safe plain M safe.2.1, third.safe plain M safe.2.2⟩)
  · exact holds_mkIf plain (first.scope plain) (second.scope plain) (third.scope plain)

theorem foldsAt_succ
    (loads : LoadsAt z S depth) (folds : FoldsAt z S depth) : FoldsAt z S (depth + 1) := by
  intro e s sorted holds enough
  unfold foldTopLevelWithin
  split
  · next cond then_ els =>
    obtain ⟨condSort, thenSort, elseSort⟩ := hasSort_ite.1 sorted
    have below : ∀ e ∈ [cond, then_, els], e.height < depth := by
      intro e member
      have this := @height_arg e [cond, then_, els] .ite member
      omega
    obtain ⟨c, known, first⟩ := folds condSort (S.arg holds (by simp)) (below cond (by simp))
    obtain ⟨b, known', second⟩ := folds thenSort (S.arg holds (by simp)) (below then_ (by simp))
    obtain ⟨d, known'', third⟩ := folds elseSort (S.arg holds (by simp)) (below els (by simp))
    refine ⟨mkIf z c b d, ?_, replaces_mkIf first second third⟩
    rw [known, known', known'']
    rfl
  · next op args notIf =>
    split
    · next array idx shape =>
      split
      · next const =>
        rw [isLoad_eq_some] at shape
        rw [shape] at sorted holds enough ⊢
        obtain ⟨domain, array', index⟩ := hasSort_select.1 sorted
        have below : array.height < (mkSelect array idx).height := height_arg (by simp)
        have flat : idx.height = 0 := height_of_isConst const
        obtain ⟨t, known, loaded⟩ := loads (2 ^ 64 - 1) array' index (S.arg holds (by simp))
          (S.arg holds (by simp)) (by omega)
        refine ⟨t, known, loaded.congr (fun M safe => ?_) fun M _ => rfl⟩
        rw [nonzeroDivisors_select] at safe
        exact ⟨safe.1, safe.2, .inr (le_refl _)⟩
      · exact ⟨_, rfl, .refl sorted holds fun M safe => safe⟩
    · split
      · exact ⟨_, rfl, .simplify sorted holds fun M safe => safe⟩
      · exact ⟨_, rfl, .refl sorted holds fun M safe => safe⟩
  · exact ⟨_, rfl, .refl sorted holds fun M safe => safe⟩
  · exact ⟨_, rfl, .refl sorted holds fun M safe => safe⟩
  · exact ⟨_, rfl, .simplify sorted holds fun M safe => safe⟩
  · exact ⟨_, rfl, .simplify sorted holds fun M safe => safe⟩
  · exact ⟨_, rfl, .simplify sorted holds fun M safe => safe⟩

theorem within_replaces (depth : Nat) : LoadsAt z S depth ∧ FoldsAt z S depth := by
  induction depth with
  | zero =>
    constructor
    · intro array idx domain range maxIdx _ _ _ _ impossible
      omega
    · intro e s _ _ impossible
      omega
  | succ depth ih => exact ⟨loadsAt_succ ih.1 ih.2, foldsAt_succ ih.1 ih.2⟩

theorem within_upto (depth : Nat) :
    (∀ array idx maxIdx, Upto (loadWithin z depth array idx maxIdx)
      (loadWithin z (depth + 1) array idx maxIdx)) ∧
    ∀ e, Upto (foldTopLevelWithin z depth e) (foldTopLevelWithin z (depth + 1) e) := by
  induction depth with
  | zero =>
    constructor
    · intro array idx maxIdx t known
      rw [loadWithin] at known
      cases known
    · intro e t known
      rw [foldTopLevelWithin] at known
      cases known
  | succ depth ih =>
    obtain ⟨loads, folds⟩ := ih
    constructor
    · intro array idx maxIdx
      unfold loadWithin
      split
      · next rest strIdx val =>
        refine .ite (loads rest idx maxIdx) (.ite (.refl _) ?_)
        exact (loads rest idx maxIdx).bind fun loaded => .refl _
      · exact .refl _
      · next d name body => exact folds (substVar body idx)
      · exact .refl _
    · intro e
      unfold foldTopLevelWithin
      split
      · next cond then_ els =>
        refine (folds cond).bind fun c => (folds then_).bind fun b => ?_
        exact (folds els).bind fun d => .refl _
      · next op args notIf =>
        split
        · next array idx shape => exact .ite (loads array idx _) (.refl _)
        · exact .refl _
      · exact .refl _
      · exact .refl _
      · exact .refl _
      · exact .refl _
      · exact .refl _

theorem loadWithin_le (known : loadWithin z depth a idx maxIdx = some t)
    (deeper : depth ≤ k) : loadWithin z k a idx maxIdx = some t := by
  induction k, deeper using Nat.le_induction with
  | base => exact known
  | succ k _ ih => exact (within_upto k).1 a idx maxIdx t ih

theorem foldTopLevelWithin_le (known : foldTopLevelWithin z depth e = some t)
    (deeper : depth ≤ k) : foldTopLevelWithin z k e = some t := by
  induction k, deeper using Nat.le_induction with
  | base => exact known
  | succ k _ ih => exact (within_upto k).2 e t ih

theorem load_replaces (array : a.HasSort (.array domain range)) (index : idx.HasSort domain)
    (holds : S.holds a) (holds' : S.holds idx) :
    Replaces z S (load z a idx maxIdx) (mkSelect a idx) range (Loadable a idx maxIdx) ∧
      ∀ k > a.height + idx.height, loadWithin z k a idx maxIdx = some (load z a idx maxIdx) := by
  obtain ⟨t, known, replaces⟩ := (within_replaces (a.height + idx.height + 1)).1 maxIdx array
    index holds holds' (Nat.lt_succ_self _)
  rw [load, known, Option.getD_some]
  exact ⟨replaces, fun k deeper => loadWithin_le known deeper⟩

theorem foldTopLevel_replaces (sorted : e.HasSort s) (holds : S.holds e) :
    Replaces z S (foldTopLevel z e) e s e.NonzeroDivisors ∧
      ∀ k > e.height, foldTopLevelWithin z k e = some (foldTopLevel z e) := by
  obtain ⟨t, known, replaces⟩ := (within_replaces (e.height + 1)).2 sorted holds
    (Nat.lt_succ_self _)
  rw [foldTopLevel, known, Option.getD_some]
  exact ⟨replaces, fun k deeper => foldTopLevelWithin_le known deeper⟩

/-! ## Lambdas -/

/-- The scan for variables sees the bound one, unless the body does not mention
it; and the body is not a load at the variable from an array that mentions it. -/
structure PlainBody (domain : Srt) (body : Expr) : Prop where
  seen : .bound 0 domain ∉ body.vars → body.inScope [] = true
  eta : ∀ array, body = mkSelect array (.bound 0 domain) → array.inScope [] = true

theorem eval_push_of_closed (visible : e.inScope [] = true) (index : domain.Val) :
    e.eval (M.push domain index) = e.eval M :=
  eval_scope visible ⟨rfl, rfl, fun i s impossible => by cases impossible⟩

theorem nonzeroDivisors_push_of_closed (visible : e.inScope [] = true) (index : domain.Val) :
    e.NonzeroDivisors (M.push domain index) ↔ e.NonzeroDivisors M :=
  nonzeroDivisors_scope visible ⟨rfl, rfl, fun i s impossible => by cases impossible⟩

theorem eval_load_mkLambda (sorted : body.HasSort range) (index : idx.HasSort domain)
    (holds : S.holds (.lambda domain name body)) (holds' : S.holds idx)
    (plain : PlainBody domain body) (safe : NonzeroDivisors (.lambda domain name body) M)
    (safe' : idx.NonzeroDivisors M) (reaches : Reaches idx maxIdx M) :
    (load z (mkLambda (.bound 0 domain) name body) idx maxIdx).eval M =
      body.eval (M.push domain (idx.val domain M)) := by
  have wf : domain.wf = true := by
    rw [← index.sort_eq]
    exact sort_wf index.wellSorted
  have whole : HasSort (.lambda domain name body) (.array domain range) :=
    hasSort_lambda.2 ⟨range, rfl, wf, sorted⟩
  have bound : (load z (.lambda domain name body) idx maxIdx).eval M =
      body.eval (M.push domain (idx.val domain M)) := by
    rw [(load_replaces whole index holds holds').1.eval_eq M ⟨safe, safe', reaches⟩,
      eval_select_lambda sorted]
  unfold mkLambda
  split
  · next unseen =>
    have closed := plain.seen unseen
    have const : (mkConstArray (.bound 0 domain) body).HasSort (.array domain range) :=
      hasSort_constArray.2 ⟨range, rfl, wf, sorted⟩
    have quiet : (mkConstArray (.bound 0 domain) body).NonzeroDivisors M := by
      rw [mkConstArray, nonzeroDivisors_single (by simp),
        ← nonzeroDivisors_push_of_closed closed (idx.val domain M)]
      exact safe _
    rw [(load_replaces const index (S.single (S.inner holds closed)) holds').1.eval_eq M
      ⟨quiet, safe', reaches⟩, mkConstArray, eval_select_constArray sorted,
      eval_push_of_closed closed]
  split
  · next array i shape =>
    rw [isLoad_eq_some] at shape
    split
    · next same =>
      subst same shape
      have closed := plain.eta array rfl
      obtain ⟨domain', arraySort, boundSort⟩ := hasSort_select.1 sorted
      have same : domain' = domain := by rw [← boundSort.sort_eq, sort]
      subst same
      have part : S.holds array := S.inner (S.part holds (by simp)) closed
      have quiet : array.NonzeroDivisors M := by
        rw [← nonzeroDivisors_push_of_closed closed (idx.val domain' M)]
        exact (nonzeroDivisors_select.1 (safe (idx.val domain' M))).1
      have own : val (.bound 0 domain') domain' (M.push domain' (idx.val domain' M)) =
          idx.val domain' M := by
        simp [val, eval, Model.push]
      have entries : array.val (.array domain' range) (M.push domain' (idx.val domain' M)) =
          array.val (.array domain' range) M :=
        congrArg (Value.get _) (eval_push_of_closed closed _)
      rw [(load_replaces arraySort index part holds').1.eval_eq M ⟨quiet, safe', reaches⟩,
        eval_select arraySort, eval_select arraySort, own, entries]
    · exact bound
  · exact bound

end

/-- Stores, loads, folds and lambdas have the values that they should have, in the
models in which nothing is divided by zero. A lambda is right for every body but
one from which the bound variable is taken out wrongly. -/
theorem array_construction
    (S : Scope) {array idx v : Expr} {domain range : Srt} (maxIdx : Nat)
    (sorted : array.HasSort (.array domain range)) (index : idx.HasSort domain)
    (value : v.HasSort range) (holds : S.holds array) (holds' : S.holds idx) :
    (∀ M, Safe [array, idx, v] M → ∀ j : domain.Val,
      (j = idx.val domain M →
        (store z array idx v).val (.array domain range) M j = v.val range M) ∧
      (j ≠ idx.val domain M →
        (store z array idx v).val (.array domain range) M j =
          array.val (.array domain range) M j)) ∧
    (∀ k > array.height + idx.height,
      loadWithin z k array idx maxIdx = some (load z array idx maxIdx)) ∧
    (∀ M, Safe [array, idx] M → idx.toNat M ≤ maxIdx →
      (load z array idx maxIdx).val range M =
        array.val (.array domain range) M (idx.val domain M)) ∧
    (∀ {e s}, e.HasSort s → S.holds e →
      (∀ k > e.height, foldTopLevelWithin z k e = some (foldTopLevel z e)) ∧
      ∀ M, e.NonzeroDivisors M → (foldTopLevel z e).eval M = e.eval M) ∧
    ∀ name body, body.HasSort range → S.holds (.lambda domain name body) →
      PlainBody domain body →
      ∀ M, Safe [.lambda domain name body, idx] M → idx.toNat M ≤ maxIdx →
        (load z (mkLambda (.bound 0 domain) name body) idx maxIdx).val range M =
          body.val range (M.push domain (idx.val domain M)) := by
  refine ⟨fun M safe j => ?_, (load_replaces sorted index holds holds').2,
    fun M safe reaches => ?_, fun sorted' inside => ?_, ?_⟩
  · rw [safe_triple] at safe
    have stands := store_stands z sorted index value
    have content : (store z array idx v).val (.array domain range) M =
        fun j => if (Value.of domain j).same (idx.eval M) then v.val range M
          else array.val (.array domain range) M j := by
      apply val_array
      rw [stands.eval_eq M (nonzeroDivisors_store.2 safe), eval_store sorted]
    rw [content, index.eval_val M]
    constructor
    · rintro rfl
      exact if_pos ((Value.same_iff _ _).2 rfl)
    · intro other
      apply if_neg
      intro same
      apply other
      rw [← Value.get_of domain j, (Value.same_iff _ _).1 same, Value.get_of]
  · rw [safe_pair] at safe
    have replaces : Replaces z S (load z array idx maxIdx) (mkSelect array idx) range
        (Loadable array idx maxIdx) := (load_replaces sorted index holds holds').1
    rw [val, replaces.eval_eq M ⟨safe.1, safe.2, .inl reaches⟩, eval_select sorted, Value.get_of]
  · obtain ⟨replaces, deep⟩ := foldTopLevel_replaces sorted' inside
    exact ⟨deep, replaces.eval_eq⟩
  · intro name body bodySort whole plain M safe reaches
    rw [safe_pair] at safe
    rw [val, eval_load_mkLambda bodySort index whole holds' plain safe.1 safe.2 (.inl reaches)]
    rfl

/-- The array of a body that a lambda is built from: two constant arrays and a
condition on the variable. -/
def splitArray : Expr :=
  .app .ite [.app .eq [.bound 0 (.bv 8), .num 8 0],
    .app (.constArray (.bv 8)) [.num 8 1], .app (.constArray (.bv 8)) [.num 8 2]]

theorem array_construction_load :
    (load Z3.reference (mkStore (.var "m" (.array (.bv 8) (.bv 8))) (.num 8 3) (.num 8 7))
      (.num 8 3) 255).val (.bv 8) default =
      (mkStore (.var "m" (.array (.bv 8) (.bv 8))) (.num 8 3) (.num 8 7)).val
        (.array (.bv 8) (.bv 8)) default (val (.num 8 3) (.bv 8) default) :=
  (@array_construction Z3.reference Scope.closed
    (mkStore (.var "m" (.array (.bv 8) (.bv 8))) (.num 8 3) (.num 8 7)) (.num 8 3) (.num 8 0)
    (.bv 8) (.bv 8) 255 ⟨rfl, rfl⟩ ⟨rfl, rfl⟩ ⟨rfl, rfl⟩ rfl rfl).2.2.1 default
    (safe_pair.2 ⟨nonzeroDivisors_store.2 ⟨trivial, trivial, trivial⟩, trivial⟩) (by decide)

/-- A divisor that is zero makes a load miss the entry that it asks for, and a
lambda over a load at its variable forgets that the array mentions it too. -/
theorem load_of_division_by_zero_and_mkLambda_eta :
    (¬∀ (array idx : Expr) (domain range : Srt) (M : Model),
      array.HasSort (.array domain range) → idx.HasSort domain → idx.toNat M ≤ 255 →
      (load Z3.reference array idx 255).val range M =
        array.val (.array domain range) M (idx.val domain M)) ∧
    ¬∀ (idx body : Expr) (domain range : Srt) (M : Model),
      body.HasSort range → idx.HasSort domain → idx.toNat M ≤ 255 →
      (load Z3.reference (mkLambda (.bound 0 domain) "i" body) idx 255).val range M =
        body.val range (M.push domain (idx.val domain M)) := by
  constructor
  · intro claim
    have values := claim (mkStore (.app (.constArray (.bv 1)) [.num 8 0]) (.num 1 1) (.num 8 1))
      oneBitRemainder (.bv 1) (.bv 8) divisionByZero ⟨rfl, rfl⟩ ⟨rfl, rfl⟩ (by decide)
    have numbers := congrArg (fun x : BitVec 8 => x.toNat) values
    exact absurd numbers (by decide)
  · intro claim
    have values := claim (.num 8 5) (mkSelect splitArray (.bound 0 (.bv 8))) (.bv 8) (.bv 8)
      default ⟨rfl, rfl⟩ ⟨rfl, rfl⟩ (by decide)
    have numbers := congrArg (fun x : BitVec 8 => x.toNat) values
    exact absurd numbers (by decide)

end Expr

end AliveNext.Smt
