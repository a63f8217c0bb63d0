import AliveNext.Smt.Choice

/-!
# Conjunctions at joins

`AndExpr::propagate` simplifies a conjunction under the assumption of another
one. `DisjointExpr<AndExpr>::factor` joins the conjunctions of disjoint domains:
the conjuncts that all of them have are taken out, the rest is chosen by domain.
-/

namespace AliveNext.Smt

namespace Expr

/-! ## Substitution of terms -/

def replacement (repls : List (Expr × Expr)) (e : Expr) : Option Expr :=
  (repls.find? fun repl => repl.1 = e).map Prod.snd

def raiseEach (repls : List (Expr × Expr)) : List (Expr × Expr) :=
  repls.map fun repl => (raise 1 0 repl.1, raise 1 0 repl.2)

mutual

/-- `Z3_substitute`: the outermost occurrences are replaced, below binders by terms
that mean the same there. -/
def substitute : List (Expr × Expr) → Expr → Expr
  | repls, .app op args =>
    (replacement repls (.app op args)).getD (.app op (substituteAll repls args))
  | repls, .lambda domain name body =>
    (replacement repls (.lambda domain name body)).getD
      (.lambda domain name (substitute (raiseEach repls) body))
  | repls, e => (replacement repls e).getD e

def substituteAll : List (Expr × Expr) → List Expr → List Expr
  | _, [] => []
  | repls, e :: es => substitute repls e :: substituteAll repls es

end

def propagate (e : Expr) (constraints : AndExpr) : Expr :=
  substitute (constraints.exprs.elements.map fun fact => (fact, .bool true)) e

section

variable {repls : List (Expr × Expr)} {e t : Expr} {args : List Expr} {M : Model}

theorem mem_of_replacement (known : replacement repls e = some t) : (e, t) ∈ repls := by
  obtain ⟨repl, found, rfl⟩ := Option.map_eq_some_iff.1 known
  have same := List.find?_some found
  rw [decide_eq_true_iff] at same
  subst same
  exact List.mem_of_find?_eq_some found

theorem substituteAll_eq_map : substituteAll repls args = args.map (substitute repls) := by
  induction args with
  | nil => rfl
  | cons e es ih => rw [substituteAll, ih, List.map_cons]

theorem replaced_of {P : Expr → Prop} {plain : Expr} (each : ∀ t, (e, t) ∈ repls → P t)
    (kept : P plain) : P ((replacement repls e).getD plain) := by
  cases known : replacement repls e with
  | none => exact kept
  | some t => exact each t (mem_of_replacement known)

def SameSorts (repls : List (Expr × Expr)) : Prop :=
  ∀ repl ∈ repls, repl.2.sort = repl.1.sort ∧ repl.2.wellSorted = true

theorem SameSorts.raiseEach (sorts : SameSorts repls) : SameSorts (raiseEach repls) := by
  intro repl member
  obtain ⟨old, inside, rfl⟩ := List.mem_map.1 member
  rw [sort_raise, sort_raise, wellSorted_raise]
  exact sorts old inside

theorem sort_substitute (sorts : SameSorts repls) : (substitute repls e).sort = e.sort := by
  induction e using Expr.induction generalizing repls with
  | app op args ih =>
    have same : (args.map (substitute repls)).map sort = args.map sort := by
      rw [List.map_map]
      exact List.map_congr_left fun e member => ih e member sorts
    rw [substitute]
    apply replaced_of (fun _ member => (sorts _ member).1)
    rw [sort, sort, sorts_eq_map, sorts_eq_map, substituteAll_eq_map, same]
  | lambda domain name body ih =>
    rw [substitute]
    apply replaced_of (fun _ member => (sorts _ member).1)
    rw [sort, sort, ih sorts.raiseEach]
  | num bits value => exact replaced_of (fun _ member => (sorts _ member).1) rfl
  | bool value => exact replaced_of (fun _ member => (sorts _ member).1) rfl
  | var name s => exact replaced_of (fun _ member => (sorts _ member).1) rfl
  | bound index s => exact replaced_of (fun _ member => (sorts _ member).1) rfl

theorem wellSorted_substitute (sorts : SameSorts repls)
    (sorted : e.wellSorted = true) : (substitute repls e).wellSorted = true := by
  induction e using Expr.induction generalizing repls with
  | app op args ih =>
    have same : (args.map (substitute repls)).map sort = args.map sort := by
      rw [List.map_map]
      exact List.map_congr_left fun e member => sort_substitute sorts
    rw [substitute]
    apply replaced_of (fun _ member => (sorts _ member).2)
    rw [wellSorted, Bool.and_eq_true, wellSortedAll_iff, sorts_eq_map] at sorted ⊢
    rw [substituteAll_eq_map, same, List.forall_mem_map]
    exact ⟨fun e member => ih e member sorts (sorted.1 e member), sorted.2⟩
  | lambda domain name body ih =>
    rw [substitute]
    apply replaced_of (fun _ member => (sorts _ member).2)
    rw [wellSorted, Bool.and_eq_true] at sorted ⊢
    exact ⟨sorted.1, ih sorts.raiseEach sorted.2⟩
  | num bits value => exact replaced_of (fun _ member => (sorts _ member).2) sorted
  | bool value => exact replaced_of (fun _ member => (sorts _ member).2) sorted
  | var name s => exact replaced_of (fun _ member => (sorts _ member).2) sorted
  | bound index s => exact replaced_of (fun _ member => (sorts _ member).2) sorted

theorem eval_raise_push {s : Srt} (index : s.Val) :
    (raise 1 0 e).eval (M.push s index) = e.eval M := by
  rw [eval_raise]
  rfl

theorem eval_replaced {plain : Expr} (equal : ∀ repl ∈ repls, repl.2.eval M = repl.1.eval M)
    (kept : plain.eval M = e.eval M) : ((replacement repls e).getD plain).eval M = e.eval M :=
  replaced_of (P := fun t => t.eval M = e.eval M) (fun _ member => equal _ member) kept

theorem eval_substitute
    (sorts : SameSorts repls) (equal : ∀ repl ∈ repls, repl.2.eval M = repl.1.eval M) :
    (substitute repls e).eval M = e.eval M := by
  induction e using Expr.induction generalizing repls M with
  | app op args ih =>
    have values : (args.map (substitute repls)).map (eval · M) = args.map (eval · M) := by
      rw [List.map_map]
      exact List.map_congr_left fun e member => ih e member sorts equal
    rw [substitute]
    apply eval_replaced equal
    rw [eval, eval, evals_eq_map, evals_eq_map, substituteAll_eq_map, values]
  | lambda domain name body ih =>
    have below : ∀ index : domain.Val, ∀ repl ∈ raiseEach repls,
        repl.2.eval (M.push domain index) = repl.1.eval (M.push domain index) := by
      intro index repl member
      obtain ⟨old, inside, rfl⟩ := List.mem_map.1 member
      rw [eval_raise_push, eval_raise_push, equal old inside]
    rw [substitute]
    apply eval_replaced equal
    rw [eval, eval, sort_substitute sorts.raiseEach]
    congr 1
    funext index
    rw [ih sorts.raiseEach (below index)]
  | num bits value => exact eval_replaced equal rfl
  | bool value => exact eval_replaced equal rfl
  | var name s => exact eval_replaced equal rfl
  | bound index s => exact eval_replaced equal rfl

theorem propagate_spec
    {constraints : AndExpr} (boolean : constraints.Boolean) (sorted : e.HasSort .bool) :
    (propagate e constraints).HasSort .bool ∧
      ∀ M, constraints.holds M = true → (propagate e constraints).truth M = e.truth M := by
  have sorts : SameSorts (constraints.exprs.elements.map fun fact => (fact, .bool true)) := by
    intro repl member
    obtain ⟨fact, inside, rfl⟩ := List.mem_map.1 member
    exact ⟨(boolean fact inside).sort_eq.symm, rfl⟩
  refine ⟨⟨wellSorted_substitute sorts sorted.wellSorted, ?_⟩, fun M holds => ?_⟩
  · exact (sort_substitute sorts).trans sorted.sort_eq
  · rw [AndExpr.holds, List.all_eq_true] at holds
    unfold truth propagate
    rw [eval_substitute sorts]
    intro repl member
    obtain ⟨fact, inside, rfl⟩ := List.mem_map.1 member
    rw [(boolean fact inside).eval_bool M, holds fact inside]
    rfl

end

end Expr

def AndExpr.propagate (self other : AndExpr) : Expr :=
  (Expr.mkAnd (self.exprs.elements.filter fun e => !other.contains e)).propagate other

namespace DisjointExpr

/-- A set with an iterator. -/
structure Cursor where
  passed : List Expr
  ahead : List Expr

namespace Cursor

def elements (self : Cursor) : List Expr := self.passed ++ self.ahead

def erase (self : Cursor) : Cursor := ⟨self.passed, self.ahead.tail⟩

/-- `operator()` of the set. -/
def toExpr (self : Cursor) : Expr := Expr.mkAnd self.elements

end Cursor

/-- Where a search ends: at the end of the set, at the element, or at a greater one. -/
inductive Seek where
  | atEnd
  | found
  | beyond

/-- The iterator skips the elements less than `e0`. -/
def seek (z : Z3) (e0 : Expr) : (passed ahead : List Expr) → Cursor × Seek
  | passed, [] => (⟨passed, []⟩, .atEnd)
  | passed, e :: rest =>
    if e = e0 then (⟨passed, e :: rest⟩, .found)
    else if z.less e e0 then seek z e0 (passed ++ [e]) rest
    else (⟨passed, e :: rest⟩, .beyond)

/-- Looks for `e0` in the sets, until one does not have it. -/
def scan (z : Z3) (e0 : Expr) : List Cursor → List Cursor × Seek
  | [] => ([], .found)
  | cursor :: rest =>
    match seek z e0 cursor.passed cursor.ahead with
    | (cursor, .found) =>
      let (rest, result) := scan z e0 rest
      (cursor :: rest, result)
    | (cursor, result) => (cursor :: rest, result)

/-- The loop over the first set: what all sets have goes to `ret`. -/
def walk (z : Z3) : AndExpr → (passed ahead : List Expr) → List Cursor → AndExpr × List Cursor
  | ret, passed, [], others => (ret, ⟨passed, []⟩ :: others)
  | ret, passed, e0 :: rest, others =>
    match scan z e0 others with
    | (others, .atEnd) => (ret, ⟨passed, e0 :: rest⟩ :: others)
    | (others, .beyond) => walk z ret (passed ++ [e0]) rest others
    | (others, .found) => walk z (ret.add z 16 e0) passed rest (others.map Cursor.erase)

/-- `factor`; `none` where the code would read a map without entries. -/
def factor (z : Z3) (self : DisjointExpr AndExpr) : Option AndExpr :=
  match self.vals.entries with
  | [] => none
  | [(val, _)] => some val
  | first :: rest =>
    let (ret, sets) := walk z {} [] first.1.exprs.elements
      (rest.map fun entry => ⟨[], entry.1.exprs.elements⟩)
    let leftovers := addEach z.less {}
      (List.zipWith (fun set entry => (set.toExpr, entry.2)) sets (first :: rest))
    (leftovers.toValue (Expr.mkIf z)).map (ret.add z 16 ·)

section

variable (z : Z3) {e0 : Expr} {M : Model} {ret : AndExpr} {passed ahead : List Expr}
  {cursors : List Cursor}

theorem seek_spec : (seek z e0 passed ahead).1.elements = passed ++ ahead ∧
      ((seek z e0 passed ahead).2 = .found → (seek z e0 passed ahead).1.ahead.head? = some e0) := by
  induction ahead generalizing passed with
  | nil => exact ⟨rfl, fun found => nomatch found⟩
  | cons e rest ih =>
    unfold seek
    split
    · next same => exact ⟨rfl, fun _ => congrArg some same⟩
    split
    · have next := @ih (passed ++ [e])
      rw [List.append_assoc] at next
      exact next
    · exact ⟨rfl, fun found => nomatch found⟩

theorem scan_spec : (scan z e0 cursors).1.map Cursor.elements = cursors.map Cursor.elements ∧
      ((scan z e0 cursors).2 = .found →
        ∀ cursor ∈ (scan z e0 cursors).1, cursor.ahead.head? = some e0) := by
  induction cursors with
  | nil => exact ⟨rfl, fun _ cursor absent => absurd absent List.not_mem_nil⟩
  | cons cursor rest ih =>
    have first := @seek_spec z e0 cursor.passed cursor.ahead
    unfold scan
    split
    · next found shape =>
      rw [shape] at first
      dsimp only
      rw [List.map_cons, List.map_cons, ih.1, first.1]
      exact ⟨rfl, fun all => List.forall_mem_cons.2 ⟨first.2 rfl, ih.2 all⟩⟩
    · next result other shape =>
      rw [shape] at first
      dsimp only
      rw [List.map_cons, List.map_cons, first.1]
      exact ⟨rfl, fun absurdity => absurd absurdity other⟩

noncomputable def worth (M : Model) (ret : AndExpr) (elements : List Expr) : Bool :=
  ret.holds M && elements.all (Expr.truth · M)

theorem worth_moved (sorted : e0.HasSort .bool) :
    worth M (ret.add z 16 e0) (passed ++ ahead) = worth M ret (passed ++ e0 :: ahead) := by
  unfold worth
  rw [AndExpr.holds_add sorted, List.all_append, List.all_append, List.all_cons]
  cases ret.holds M <;> cases e0.truth M <;> simp

theorem worth_erase
    {cursor : Cursor} (sorted : e0.HasSort .bool) (found : cursor.ahead.head? = some e0) :
    worth M (ret.add z 16 e0) cursor.erase.elements = worth M ret cursor.elements := by
  obtain ⟨rest, shape⟩ := List.head?_eq_some_iff.1 found
  rw [Cursor.erase, Cursor.elements, Cursor.elements, shape]
  exact worth_moved z sorted

theorem mem_erase
    {cursor : Cursor} {e : Expr} (member : e ∈ cursor.erase.elements) : e ∈ cursor.elements := by
  rw [Cursor.elements, Cursor.erase, List.mem_append] at member
  rw [Cursor.elements, List.mem_append]
  exact member.imp id List.mem_of_mem_tail

theorem walk_spec (boolean : ret.Boolean) (first : ∀ e ∈ passed ++ ahead, e.HasSort .bool)
    (others : ∀ elements ∈ cursors.map Cursor.elements, ∀ e ∈ elements, e.HasSort .bool) :
    (walk z ret passed ahead cursors).1.Boolean ∧
      (∀ set ∈ (walk z ret passed ahead cursors).2, ∀ e ∈ set.elements, e.HasSort .bool) ∧
      ∀ M, (walk z ret passed ahead cursors).2.map
          (fun set => worth M (walk z ret passed ahead cursors).1 set.elements) =
        worth M ret (passed ++ ahead) :: (cursors.map Cursor.elements).map (worth M ret) := by
  induction ahead generalizing ret passed cursors with
  | nil =>
    rw [walk]
    refine ⟨boolean, ?_, fun M => ?_⟩
    · rw [List.forall_mem_cons]
      exact ⟨first, fun set member => others _ (List.mem_map_of_mem member)⟩
    · rw [List.map_cons, List.map_map]
      rfl
  | cons e0 rest ih =>
    obtain ⟨same, found⟩ := @scan_spec z e0 cursors
    rw [← same] at others ⊢
    unfold walk
    split
    · next sets shape =>
      rw [shape] at others ⊢
      refine ⟨boolean, ?_, fun M => ?_⟩
      · rw [List.forall_mem_cons]
        exact ⟨first, fun set member => others _ (List.mem_map_of_mem member)⟩
      · rw [List.map_cons, List.map_map]
        rfl
    · next sets shape =>
      rw [shape] at others ⊢
      have kept : ∀ e ∈ passed ++ [e0] ++ rest, e.HasSort .bool := by
        rw [List.append_assoc]
        exact first
      have next := ih boolean kept others
      rw [List.append_assoc] at next
      exact next
    · next sets shape =>
      rw [shape] at others found ⊢
      have sorted : e0.HasSort .bool := first e0 (by simp)
      have fewer : ∀ elements ∈ (sets.map Cursor.erase).map Cursor.elements,
          ∀ e ∈ elements, e.HasSort .bool := by
        intro elements member e inside
        rw [List.map_map] at member
        obtain ⟨cursor, present, rfl⟩ := List.mem_map.1 member
        exact others _ (List.mem_map_of_mem present) e (mem_erase inside)
      have remaining : ∀ e ∈ passed ++ rest, e.HasSort .bool :=
        fun e member => first e (List.mem_append.2
          ((List.mem_append.1 member).imp id (List.mem_cons_of_mem e0)))
      have grown : (AndExpr.add z 16 ret e0).Boolean := boolean.add sorted
      have next := ih grown remaining fewer
      refine ⟨next.1, next.2.1, fun M => (next.2.2 M).trans ?_⟩
      rw [worth_moved z sorted, List.map_map, List.map_map, List.map_map]
      exact congrArg _ (List.map_congr_left fun cursor member =>
        worth_erase z sorted (found rfl cursor member))

end

section

variable {M : Model} {v : AndExpr}

variable {ret : AndExpr} {sets : List Cursor} {entries : List (AndExpr × Expr)}

theorem picked_zipWith
    (same : sets.map (fun set => worth M ret set.elements) =
      entries.map fun entry => entry.1.holds M)
    (single : picked M entries = [v]) :
    ∃ set ∈ sets, worth M ret set.elements = v.holds M ∧
      picked M (List.zipWith (fun set entry => (set.toExpr, entry.2)) sets entries) =
        [set.toExpr] := by
  induction entries generalizing sets with
  | nil => cases single
  | cons entry rest ih =>
    cases sets with
    | nil => cases same
    | cons set sets =>
      rw [List.map_cons, List.map_cons, List.cons.injEq] at same
      rw [picked_cons] at single
      rw [List.zipWith_cons_cons]
      by_cases holds : entry.2.truth M = true
      · rw [if_pos holds, List.cons.injEq] at single
        refine ⟨set, List.mem_cons_self, single.1 ▸ same.1, ?_⟩
        rw [picked_cons, if_pos holds, List.cons.injEq]
        refine ⟨rfl, picked_eq_nil.2 fun piece member => ?_⟩
        obtain ⟨i, inside, rfl⟩ := List.getElem_of_mem member
        rw [List.getElem_zipWith]
        exact picked_eq_nil.1 single.2 _ (List.getElem_mem _)
      · rw [if_neg holds] at single
        obtain ⟨chosen, member, value, result⟩ := ih same.2 single
        refine ⟨chosen, List.mem_cons_of_mem set member, value, ?_⟩
        rw [picked_cons, if_neg holds, result]

theorem zipWith_sorts
    (sorted : ∀ set ∈ sets, ∀ e ∈ set.elements, e.HasSort .bool) (conditions : Conditions entries) :
    ∀ piece ∈ List.zipWith (fun set entry => (set.toExpr, entry.2)) sets entries,
      piece.1.HasSort .bool ∧ piece.2.HasSort .bool := by
  intro piece member
  obtain ⟨i, inside, rfl⟩ := List.getElem_of_mem member
  rw [List.getElem_zipWith]
  exact ⟨(Expr.mkAnd_spec (sorted _ (List.getElem_mem _))).1, conditions _ (List.getElem_mem _)⟩

theorem leftovers_spec (z : Z3)
    (sorted : ∀ set ∈ sets, ∀ e ∈ set.elements, e.HasSort .bool) (conditions : Conditions entries)
    (same : sets.map (fun set => worth M ret set.elements) =
      entries.map fun entry => entry.1.holds M)
    (single : picked M entries = [v]) :
    ∃ t, (addEach z.less {} (List.zipWith (fun set entry => (set.toExpr, entry.2)) sets
        entries)).toValue (Expr.mkIf z) = some t ∧
      t.HasSort .bool ∧ (ret.holds M && t.truth M) = v.holds M := by
  obtain ⟨set, member, value, result⟩ := picked_zipWith same single
  have pieces := zipWith_sorts sorted conditions
  have empty : Conditions ({} : DisjointExpr Expr).vals.entries :=
    List.forall_mem_nil _
  have domains : Conditions (List.zipWith (fun (set : Cursor) (entry : AndExpr × Expr) =>
      (set.toExpr, entry.2)) sets entries) := fun piece inside => (pieces piece inside).2
  have chosen : picked M (addEach z.less {} (List.zipWith (fun (set : Cursor)
      (entry : AndExpr × Expr) => (set.toExpr, entry.2)) sets entries)).vals.entries =
      [set.toExpr] := by
    refine (picked_addEach empty domains ?_).trans ?_
    · rw [picked_append, result]
      rfl
    · rw [picked_append, result]
      rfl
  have sorts : ∀ t ∈ (addEach z.less {} (List.zipWith (fun (set : Cursor)
      (entry : AndExpr × Expr) => (set.toExpr, entry.2)) sets entries)).vals.entries.map Prod.fst,
      (Expr.meaning z .bool).Sorted t := by
    intro t inside
    obtain ⟨piece, present, rfl⟩ :=
      List.mem_map.1 ((mem_addEach inside).resolve_right List.not_mem_nil)
    exact (pieces piece present).1
  obtain ⟨t, known, sortedT, evaluated⟩ :=
    toValue_of_picked (conditions_addEach empty domains) sorts chosen
  refine ⟨t, known, sortedT, ?_⟩
  have truth : t.truth M = set.toExpr.truth M := congrArg Value.toBool evaluated
  rw [← value, worth, truth, Cursor.toExpr, (Expr.mkAnd_spec (sorted set member)).2 M]

theorem factor_spec
    (z : Z3) {self : DisjointExpr AndExpr} (conditions : Conditions self.vals.entries)
    (boolean : ∀ v ∈ self.vals.entries.map Prod.fst, v.Boolean)
    (single : picked M self.vals.entries = [v]) :
    ∃ ret, self.factor z = some ret ∧ ret.Boolean ∧ ret.holds M = v.holds M := by
  unfold factor
  split
  · next none_left =>
    rw [none_left] at single
    cases single
  · next val condition shape =>
    rw [shape, picked_cons] at single
    split at single
    · cases single
      exact ⟨val, rfl, boolean val (by rw [shape]; exact List.mem_cons_self), rfl⟩
    · cases single
  · next first rest _ shape =>
    rw [shape] at conditions boolean single
    rw [List.map_cons, List.forall_mem_cons] at boolean
    have others : ∀ elements ∈ (rest.map fun entry =>
        (⟨[], entry.1.exprs.elements⟩ : Cursor)).map Cursor.elements,
        ∀ e ∈ elements, e.HasSort .bool := by
      intro elements member
      rw [List.map_map] at member
      obtain ⟨entry, inside, rfl⟩ := List.mem_map.1 member
      exact boolean.2 _ (List.mem_map_of_mem inside)
    have start : ({} : AndExpr).Boolean := List.forall_mem_nil _
    have own : ∀ e ∈ [] ++ first.1.exprs.elements, e.HasSort .bool := boolean.1
    have spec := walk_spec z start own others
    generalize walk z {} [] first.1.exprs.elements _ = walked at spec ⊢
    obtain ⟨ret, sets⟩ := walked
    obtain ⟨sortedRet, sortedSets, kept⟩ := spec
    have same : sets.map (fun set => worth M ret set.elements) =
        (first :: rest).map fun entry => entry.1.holds M := by
      rw [kept M, List.map_map, List.map_map, List.map_cons]
      rfl
    obtain ⟨t, known, sorted, value⟩ := leftovers_spec z sortedSets conditions same single
    dsimp only at known sortedRet ⊢
    rw [known]
    refine ⟨ret.add z 16 t, rfl, sortedRet.add sorted, ?_⟩
    rw [AndExpr.holds_add sorted, value]

end

end DisjointExpr

theorem AndExpr.truth_toExpr
    {self : AndExpr} (boolean : self.Boolean) (M : Model) : self.toExpr.truth M = self.holds M :=
  (Expr.mkAnd_spec boolean).2 M

theorem AndExpr.propagate_spec
    {self other : AndExpr} (boolean : self.Boolean) (boolean' : other.Boolean) (M : Model) :
    (other.holds M && (self.propagate other).truth M) = (other.holds M && self.holds M) := by
  have sorts : ∀ e ∈ self.exprs.elements.filter fun e => !other.contains e, e.HasSort .bool :=
    fun e member => boolean e (List.mem_of_mem_filter member)
  by_cases assumed : other.holds M = true
  · have propagated := (Expr.propagate_spec boolean' (Expr.mkAnd_spec sorts).1).2 M assumed
    rw [assumed, Bool.true_and, Bool.true_and, propagate, propagated, (Expr.mkAnd_spec sorts).2 M,
      holds, Bool.eq_iff_iff, List.all_eq_true, List.all_eq_true]
    rw [holds, List.all_eq_true] at assumed
    constructor
    · intro all e member
      by_cases shared : other.contains e = true
      · exact assumed e (of_decide_eq_true shared)
      · exact all e (List.mem_filter.2 ⟨member, by simpa using shared⟩)
    · exact fun all e member => all e (List.mem_of_mem_filter member)
  · rw [Bool.not_eq_true] at assumed
    rw [assumed, Bool.false_and, Bool.false_and]

/-- In every model in which one domain is true, the factored conjunction is true if
and only if that of the domain is; and a conjunction that is propagated into is
unchanged where the other one holds. -/
theorem join_construction (z : Z3) :
    (∀ (self : DisjointExpr AndExpr) (M : Model) (v : AndExpr),
      Conditions self.vals.entries → (∀ v ∈ self.vals.entries.map Prod.fst, v.Boolean) →
      picked M self.vals.entries = [v] →
      ∃ ret, self.factor z = some ret ∧ (ret.toExpr.truth M = true ↔ v.toExpr.truth M = true)) ∧
    ∀ (self other : AndExpr) (M : Model), self.Boolean → other.Boolean →
      (other.toExpr.truth M = true ∧ (self.propagate other).truth M = true ↔
        other.toExpr.truth M = true ∧ self.toExpr.truth M = true) := by
  constructor
  · intro self M v conditions boolean single
    obtain ⟨ret, known, sorted, value⟩ := DisjointExpr.factor_spec z conditions boolean single
    have chosen : v ∈ self.vals.entries.map Prod.fst := by
      obtain ⟨d, member, -⟩ := mem_picked.1 (single ▸ List.mem_singleton_self v)
      exact List.mem_map_of_mem member
    refine ⟨ret, known, ?_⟩
    rw [AndExpr.truth_toExpr sorted, AndExpr.truth_toExpr (boolean v chosen), value]
  · intro self other M boolean boolean'
    rw [AndExpr.truth_toExpr boolean, AndExpr.truth_toExpr boolean', ← Bool.and_eq_true,
      ← Bool.and_eq_true, AndExpr.propagate_spec boolean boolean' M]

theorem join_construction_two :
    ∃ ret, DisjointExpr.factor Z3.reference
        ⟨⟨[(⟨⟨[.var "x" .bool], by simp⟩⟩, .bool true),
          (⟨⟨[.var "x" .bool, .var "y" .bool], by simp⟩⟩, .bool false)], by simp⟩, none⟩ =
          some ret ∧
      (ret.toExpr.truth default = true ↔
        (⟨⟨[.var "x" .bool], by simp⟩⟩ : AndExpr).toExpr.truth default = true) := by
  apply (join_construction Z3.reference).1
  · exact conditions_cons.2 ⟨⟨rfl, rfl⟩, conditions_cons.2 ⟨⟨rfl, rfl⟩,
      fun _ absent => nomatch absent⟩⟩
  · exact List.forall_mem_cons.2 ⟨List.forall_mem_singleton.2 ⟨rfl, rfl⟩,
      List.forall_mem_singleton.2 (List.forall_mem_cons.2 ⟨⟨rfl, rfl⟩,
        List.forall_mem_singleton.2 ⟨rfl, rfl⟩⟩)⟩
  · simp [picked_cons]

end AliveNext.Smt
