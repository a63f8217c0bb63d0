import AliveNext.IR.Loops

/-!
# The loop forest of a reducible function

Where every cycle has an edge whose target dominates its source, the loops that
`LoopAnalysis::run` finds are the natural loops, and the header of a block is that of
the innermost one.
-/

namespace AliveNext.IR

open Util

namespace Flow

def BackEdge (g : Flow) (p b : Nat) : Prop := g.Reachable p ∧ b ∈ g.succ p ∧ g.Dominates b p

def Reducible (g : Flow) : Prop :=
  ∀ b, ¬Relation.TransGen (fun p t => g.Reachable p ∧ t ∈ g.succ p ∧ ¬g.Dominates t p) b b

/-- The blocks other than the header in the natural loop of a header: the sources of its
back edges, and what leads to them without passing the header. -/
inductive Body (g : Flow) (h : Nat) : Nat → Prop
  | back {p : Nat} : g.BackEdge p h → p ≠ h → Body g h p
  | pred {x y : Nat} : Body g h x → g.Reachable y → x ∈ g.succ y → y ≠ h → Body g h y

def Innermost (g : Flow) (h b : Nat) : Prop :=
  g.Body h b ∧ ∀ h', g.Body h' b → h' = h ∨ g.Body h' h

def SelfLoopsOuter (g : Flow) : Prop :=
  ∀ h b, g.Body h b → g.BackEdge b b → ∃ p, g.BackEdge p b ∧ p ≠ b

variable {g : Flow} {tree : Spanning} {b d h h' p x y i j w v : Nat}

theorem Body.ne (body : g.Body h b) : b ≠ h := by
  cases body with
  | back _ other => exact other
  | pred _ _ _ other => exact other

theorem Body.reachable (body : g.Body h b) : g.Reachable b := by
  cases body with
  | back edge _ => exact edge.1
  | pred _ reachable _ _ => exact reachable

theorem Body.dominates (body : g.Body h b) : g.Dominates h b := by
  induction body with
  | back edge _ => exact edge.2.2
  | pred inner _ jump other ih =>
    intro rest path
    rcases List.mem_cons.1 (ih _ (.jump path jump)) with same | inside
    · exact absurd same.symm inner.ne
    · exact inside

theorem Body.exists_back (body : g.Body h b) : ∃ p, g.BackEdge p h ∧ p ≠ h := by
  induction body with
  | @back p edge other => exact ⟨p, edge, other⟩
  | pred _ _ _ _ ih => exact ih

theorem Reducible.of_order
    (order : ∀ p t, t ∈ g.succ p → p < t ∨ g.Dominates t p) : g.Reducible := by
  intro b cycle
  have grows : ∀ t, Relation.TransGen
      (fun p t => g.Reachable p ∧ t ∈ g.succ p ∧ ¬g.Dominates t p) b t → b < t := by
    intro t way
    induction way with
    | single step => exact (order _ _ step.2.1).resolve_right step.2.2
    | tail _ step before => exact before.trans ((order _ _ step.2.1).resolve_right step.2.2)
  exact lt_irrefl b (grows b cycle)

section

variable (spans : Spans g tree)

include spans

theorem number_le_of_dominates (dominates : g.Dominates d p) (first : tree.number d = some j)
    (second : tree.number p = some i) : tree.isAncestor j i = true ∧ j ≤ i := by
  obtain ⟨k, known, below⟩ := spans.below p i second d dominates
  rw [first] at known
  cases known
  refine ⟨below, ?_⟩
  rw [Spanning.isAncestor, Bool.and_eq_true, decide_eq_true_eq] at below
  exact below.1

theorem number_injective
    (first : tree.number b = some i) (second : tree.number d = some i) : b = d := by
  rw [spans.numbers] at first second
  rw [first] at second
  exact Option.some.inj second

theorem Body.number_lt (body : g.Body h b) (first : tree.number h = some w)
    (second : tree.number b = some i) : w < i := by
  refine lt_of_le_of_ne (number_le_of_dominates spans body.dominates first second).2 ?_
  rintro rfl
  exact body.ne (number_injective spans second first)

theorem exists_number
    (reachable : g.Reachable b) : ∃ i, tree.number b = some i := spans.reached b reachable

theorem Body.header_number (body : g.Body h b) : ∃ w, tree.number h = some w := by
  obtain ⟨i, known⟩ := exists_number spans body.reachable
  obtain ⟨w, known', -⟩ := spans.below b i known h body.dominates
  exact ⟨w, known'⟩

theorem Body.trans (outer : g.Body h b) (inner : g.Body b x) : g.Body h x := by
  obtain ⟨w, header⟩ := outer.header_number spans
  obtain ⟨i, number⟩ := exists_number spans outer.reachable
  have before := outer.number_lt spans header number
  have distinct : ∀ y, g.Body b y → y ≠ h := by
    rintro y inside rfl
    have after := inside.number_lt spans number header
    omega
  induction inner with
  | back edge other =>
    exact .pred outer edge.1 edge.2.1 (distinct _ (.back edge other))
  | pred inside reachable jump other ih =>
    exact .pred ih reachable jump (distinct _ (.pred inside reachable jump other))

theorem Body.nest (outer : g.Body h x) (inner : g.Body h' x) (first : tree.number h = some w)
    (second : tree.number h' = some v) (before : w < v) : g.Body h h' := by
  obtain ⟨i, number⟩ := exists_number spans outer.reachable
  have ancestor := (number_le_of_dominates spans inner.dominates second number).1
  have down := spans.down x i h' v number second ancestor
  have general : ∀ z, Spanning.Down g tree z x → ∀ k, tree.number z = some k → w < k →
      g.Body h z := by
    intro z way
    induction way using Relation.ReflTransGen.head_induction_on with
    | refl => exact fun _ _ _ => outer
    | head step _ ih =>
      intro k known later
      obtain ⟨jump, k', j, known', next, less⟩ := step
      rw [known] at known'
      cases known'
      refine .pred (ih j next (later.trans less)) (spans.reachable _ k known) jump ?_
      rintro rfl
      rw [known] at first
      cases first
      exact absurd later (lt_irrefl _)
  exact general h' down v second before

theorem Reducible.dominates (reducible : g.Reducible) (jump : b ∈ g.succ p)
    (source : tree.number p = some v) (target : tree.number b = some w)
    (ancestor : tree.isAncestor w v = true) : g.Dominates b p := by
  by_contra other
  have down := spans.down p v b w source target ancestor
  have forward : Relation.ReflTransGen
      (fun p t => g.Reachable p ∧ t ∈ g.succ p ∧ ¬g.Dominates t p) b p := by
    refine Relation.ReflTransGen.mono (fun x y step => ?_) _ _ down
    obtain ⟨jump, i, j, first, second, less⟩ := step
    refine ⟨spans.reachable x i first, jump, fun dominates => ?_⟩
    have order := (number_le_of_dominates spans dominates second first).2
    omega
  exact reducible b (Relation.TransGen.tail' forward ⟨spans.reachable p v source, jump, other⟩)

end

def Inside (g : Flow) (tree : Spanning) (w i : Nat) : Prop :=
  ∃ h b, tree.number h = some w ∧ tree.number b = some i ∧ g.Body h b

end Flow

namespace LoopAnalysis

/-- Loops, as sets of numbers, against the predecessors by which they are found. -/
structure Nest (tree : Spanning) (preds : Preds) (n : Nat) (L : Nat → Nat → Prop) : Prop where
  bounded : ∀ w i, L w i → i < n
  later : ∀ w i, L w i → w < i
  below : ∀ w i, L w i → tree.isAncestor w i = true
  back : ∀ w v, v ∈ preds.backPreds w → v ≠ w → L w v
  pred : ∀ w x y, L w x → y ∈ preds.backPreds x ∨ y ∈ preds.nonBackPreds x → y ≠ w → L w y
  trans : ∀ w i x, L w i → L i x → L w x
  nest : ∀ w v x, L w x → L v x → w < v → L w v
  generated : ∀ w, ∀ P : Nat → Prop, (∀ v ∈ preds.backPreds w, v ≠ w → P v) →
    (∀ x y, L w x → P x → y ∈ preds.backPreds x ∨ y ∈ preds.nonBackPreds x → y ≠ w → P y) →
      ∀ i, L w i → P i

variable {g : Flow} {tree : Spanning} {w v x y i : Nat}

theorem mem_preds (g : Flow) (tree : Spanning) :
    y ∈ (predsOf g tree).backPreds x ∨ y ∈ (predsOf g tree).nonBackPreds x ↔
      ∃ src dst, dst ∈ g.succ src ∧ tree.number src = some y ∧ tree.number dst = some x := by
  rw [(mem_predsOf g tree).1, (mem_predsOf g tree).2]
  constructor
  · rintro (⟨src, dst, jump, first, second, -⟩ | ⟨src, dst, jump, first, second, -⟩)
    · exact ⟨src, dst, jump, first, second⟩
    · exact ⟨src, dst, jump, first, second⟩
  · rintro ⟨src, dst, jump, first, second⟩
    cases ancestor : tree.isAncestor x y with
    | true => exact .inl ⟨src, dst, jump, first, second, rfl⟩
    | false => exact .inr ⟨src, dst, jump, first, second, rfl⟩

theorem mem_backPreds (spans : Spans g tree) (reducible : g.Reducible) :
    v ∈ (predsOf g tree).backPreds w ↔
      ∃ p b, g.BackEdge p b ∧ tree.number p = some v ∧ tree.number b = some w := by
  rw [(mem_predsOf g tree).1]
  constructor
  · rintro ⟨p, b, jump, first, second, ancestor⟩
    exact ⟨p, b, ⟨spans.reachable p v first, jump,
      reducible.dominates spans jump first second ancestor⟩, first, second⟩
  · rintro ⟨p, b, ⟨-, jump, dominates⟩, first, second⟩
    exact ⟨p, b, jump, first, second, (Flow.number_le_of_dominates spans dominates second first).1⟩

theorem nest_of_reducible (spans : Spans g tree) (reducible : g.Reducible) :
    Nest tree (predsOf g tree) g.bbCount (g.Inside tree) := by
  have same : ∀ b d i, tree.number b = some i → tree.number d = some i → b = d :=
    fun b d i => Flow.number_injective spans
  refine ⟨?_, ?_, ?_, ?_, ?_, ?_, ?_, ?_⟩
  · rintro w i ⟨h, b, header, number, body⟩
    exact spans.number_lt number
  · rintro w i ⟨h, b, header, number, body⟩
    exact body.number_lt spans header number
  · rintro w i ⟨h, b, header, number, body⟩
    exact (Flow.number_le_of_dominates spans body.dominates header number).1
  · intro w v member other
    obtain ⟨p, b, edge, first, second⟩ := (mem_backPreds spans reducible).1 member
    refine ⟨b, p, second, first, .back edge ?_⟩
    rintro rfl
    exact other (Option.some.inj (first.symm.trans second))
  · rintro w x y ⟨h, b, header, number, body⟩ member other
    obtain ⟨src, dst, jump, first, second⟩ := (mem_preds g tree).1 member
    obtain rfl := same dst b x second number
    refine ⟨h, src, header, first, .pred body (spans.reachable src y first) jump ?_⟩
    rintro rfl
    exact other (Option.some.inj (first.symm.trans header))
  · rintro w i x ⟨h, b, header, number, outer⟩ ⟨h', b', header', number', inner⟩
    obtain rfl := same h' b i header' number
    exact ⟨h, b', header, number', outer.trans spans inner⟩
  · rintro w v x ⟨h, b, header, number, outer⟩ ⟨h', b', header', number', inner⟩ before
    obtain rfl := same b' b x number' number
    exact ⟨h, h', header, header', outer.nest spans inner header header' before⟩
  · rintro w P base step i ⟨h, b, header, number, body⟩
    induction body generalizing i with
    | @back p edge other =>
      apply base i ((mem_backPreds spans reducible).2 ⟨p, h, edge, number, header⟩)
      rintro rfl
      exact other (same p h i number header)
    | @pred x y inner reachable jump other ih =>
      obtain ⟨k, known⟩ := spans.reached x inner.reachable
      refine step k i ⟨h, x, header, known, inner⟩ (ih k known)
        ((mem_preds g tree).2 ⟨y, x, jump, number, known⟩) ?_
      rintro rfl
      exact other (same y h i number header)

/-! ## Representatives -/

/-- The outermost header from `w` on whose loop has the number, or the number itself. -/
def IsRep (L : Nat → Nat → Prop) (w i r : Nat) : Prop :=
  (r = i ∧ ∀ j, w ≤ j → ¬L j i) ∨ (w ≤ r ∧ L r i ∧ ∀ j, w ≤ j → L j i → r ≤ j)

/-- The innermost header from `w` on whose loop has the number, or zero. -/
def IsHead (L : Nat → Nat → Prop) (w i h : Nat) : Prop :=
  (h = 0 ∧ ∀ j, w ≤ j → ¬L j i) ∨ (w ≤ h ∧ L h i ∧ ∀ j, w ≤ j → L j i → j ≤ h)

section

variable {preds : Preds} {n r r' : Nat} {L : Nat → Nat → Prop}

theorem IsRep.unique (first : IsRep L w i r) (second : IsRep L w i r') : r = r' := by
  rcases first with ⟨rfl, none_there⟩ | ⟨from_w, inside, least⟩
  · rcases second with ⟨rfl, -⟩ | ⟨from_w', inside', -⟩
    · rfl
    · exact absurd inside' (none_there r' from_w')
  · rcases second with ⟨rfl, none_there⟩ | ⟨from_w', inside', least'⟩
    · exact absurd inside (none_there r from_w)
    · exact le_antisymm (least r' from_w' inside') (least' r from_w inside)

variable (nest : Nest tree preds n L)

include nest

theorem IsRep.inside (rep : IsRep L (w + 1) i r) (inside : L w i) : L w r := by
  rcases rep with ⟨rfl, -⟩ | ⟨from_w, outer, -⟩
  · exact inside
  · exact nest.nest w r i inside outer from_w

theorem IsRep.self (rep : IsRep L w i r) : IsRep L w r r := by
  refine .inl ⟨rfl, fun j from_w inside => ?_⟩
  rcases rep with ⟨rfl, none_there⟩ | ⟨-, outer, least⟩
  · exact none_there j from_w inside
  · have small := nest.later j r inside
    have large := least j from_w (nest.trans j r i inside outer)
    omega

theorem IsRep.pred
    (rep : IsRep L (w + 1) x r) (inside : L w x) (merged : r ≠ x ∨ y ∈ preds.backPreds x)
    (member : y ∈ preds.backPreds x ∨ y ∈ preds.nonBackPreds x) : IsRep L (w + 1) y r := by
  have outermost : ∀ j, w + 1 ≤ j → ¬L j r := by
    intro j from_w
    rcases rep.self nest with ⟨-, none_there⟩ | ⟨-, inside', -⟩
    · exact none_there j from_w
    · exact absurd (nest.later r r inside') (lt_irrefl r)
  have of_loop : w + 1 ≤ r → L r y → IsRep L (w + 1) y r := by
    intro from_w loop
    refine .inr ⟨from_w, loop, fun j from_w' inside' => ?_⟩
    by_contra less
    exact outermost j from_w' (nest.nest j r y inside' loop (not_le.1 less))
  by_cases own : r = x
  · subst own
    have back := merged.resolve_left (not_not.2 rfl)
    by_cases same : y = r
    · subst same
      exact rep
    · exact of_loop (nest.later w r inside) (nest.back r y back same)
  · rcases rep with ⟨same, -⟩ | ⟨from_w, loop, least⟩
    · exact absurd same own
    · by_cases header : y = r
      · subst header
        exact .inl ⟨rfl, outermost⟩
      · exact of_loop from_w (nest.pred r x y loop member header)

theorem IsRep.header (rep : IsRep L (w + 1) w r) : r = w := by
  rcases rep with ⟨same, -⟩ | ⟨from_w, inside, -⟩
  · exact same
  · have small := nest.later r w inside
    omega

theorem IsRep.inside_iff (rep : IsRep L (w + 1) i r) : L w r ↔ L w i := by
  constructor
  · intro inside
    rcases rep with ⟨rfl, -⟩ | ⟨-, outer, -⟩
    · exact inside
    · exact nest.trans w r i inside outer
  · exact rep.inside nest

theorem Nest.ancestor_self (inside : L w i) : tree.isAncestor w w = true := by
  have below := nest.below w i inside
  rw [Spanning.isAncestor, Bool.and_eq_true, decide_eq_true_eq, decide_eq_true_eq] at below ⊢
  exact ⟨le_refl w, below.1.trans below.2⟩

theorem Nest.exists_outermost (inside : L w i) : ∃ r, L w r ∧ ∀ j, w < j → ¬L j r := by
  induction i using Nat.strong_induction_on with
  | _ i ih =>
    by_cases deeper : ∃ j, w < j ∧ L j i
    · obtain ⟨j, later, inner⟩ := deeper
      exact ih j (nest.later j i inner) (nest.nest w j i inside inner later)
    · exact ⟨i, inside, fun j later inner => deeper ⟨j, later, inner⟩⟩

end

section

variable {preds : Preds} {n : Nat} {L : Nat → Nat → Prop} {body result : Body}

/-- What holds within the round for `w`: the classes are the loops after `w`, and only
representatives of blocks of the loop were collected. -/
structure Body.Fits (L : Nat → Nat → Prop) (preds : Preds) (n w : Nat) (body : Body) : Prop where
  size : body.uf.size = n
  descending : body.uf.Descending
  reps : ∀ i ≤ n, IsRep L (w + 1) i (body.uf.rep i)
  kept : body.nonBackPreds = preds.nonBackPreds
  inside : ∀ x ∈ body.P, L w x ∧ body.uf.rep x = x
  work : ∀ x ∈ body.workList, x ∈ body.P

/-- The representatives before and after, and what was collected. -/
structure Body.Grows (n : Nat) (body result : Body) : Prop where
  reps : ∀ i ≤ n, result.uf.rep i = body.uf.rep i
  more : ∀ x ∈ body.P, x ∈ result.P
  fresh : ∀ x ∈ result.P, x ∉ body.P → x ∈ result.workList
  work : ∀ x ∈ body.workList, x ∈ result.workList

theorem Body.Grows.refl (n : Nat) (body : Body) : body.Grows n body :=
  ⟨fun _ _ => rfl, fun _ => id, fun _ member absent => absurd member absent, fun _ => id⟩

theorem Body.Grows.trans {between : Body} (first : body.Grows n between)
    (second : between.Grows n result) : body.Grows n result := by
  refine ⟨fun i inside => (second.reps i inside).trans (first.reps i inside),
    fun x member => second.more x (first.more x member), fun x member absent => ?_,
    fun x member => second.work x (first.work x member)⟩
  by_cases known : x ∈ between.P
  · exact second.work x (first.fresh x known absent)
  · exact second.fresh x member known

variable (nest : Nest tree preds n L)

include nest

theorem Body.Fits.find (fits : body.Fits L preds n w) (inside : y ≤ n) :
    ({ body with uf := (body.uf.find y).2 } : Body).Fits L preds n w ∧
      body.Grows n { body with uf := (body.uf.find y).2 } := by
  have same : ∀ i ≤ n, (body.uf.find y).2.rep i = body.uf.rep i := by
    intro i bound
    rw [← fits.size] at inside bound
    exact UnionFind.rep_find fits.descending inside bound
  refine ⟨⟨fits.size, UnionFind.find_descending fits.descending, fun i bound => ?_, fits.kept,
    fun x member => ?_, fits.work⟩, same, fun _ => id, fun _ member absent => absurd member absent,
    fun _ => id⟩
  · dsimp only
    rw [same i bound]
    exact fits.reps i bound
  · have loop := fits.inside x member
    refine ⟨loop.1, ?_⟩
    dsimp only
    rw [same x (nest.bounded w x loop.1).le]
    exact loop.2

theorem Body.Fits.rep (fits : body.Fits L preds n w)
    (inside : L w v) : L w (body.uf.rep v) ∧ body.uf.rep (body.uf.rep v) = body.uf.rep v := by
  have bound := (nest.bounded w v inside).le
  refine ⟨(fits.reps v bound).inside nest inside, ?_⟩
  rw [← fits.size] at bound
  exact UnionFind.rep_rep fits.descending bound

theorem addBackPred_fits
    (fits : body.Fits L preds n w) (start : body.workList = []) (back : v ∈ preds.backPreds w) :
    (addBackPred w body v).Fits L preds n w ∧ (addBackPred w body v).workList = [] ∧
      (∀ i ≤ n, (addBackPred w body v).uf.rep i = body.uf.rep i) ∧
      (∀ x ∈ body.P, x ∈ (addBackPred w body v).P) ∧
      (v ≠ w → body.uf.rep v ∈ (addBackPred w body v).P) := by
  unfold addBackPred
  split
  · next other =>
    have inside := nest.back w v back other
    obtain ⟨found, grows⟩ := fits.find nest (nest.bounded w v inside).le
    have loop := fits.rep nest inside
    refine ⟨⟨found.size, found.descending, found.reps, found.kept, fun x member => ?_,
      fun x member => ?_⟩, start, grows.reps, fun x member => mem_setInsert.2 (.inr member),
      fun _ => mem_setInsert.2 (.inl rfl)⟩
    · rcases mem_setInsert.1 member with rfl | old
      · refine ⟨loop.1, ?_⟩
        rw [← UnionFind.find_rep] at loop
        exact (grows.reps _ (nest.bounded w _ loop.1).le).trans loop.2
      · exact found.inside x old
    · exact mem_setInsert.2 (.inr (fits.work x member))
  · next same =>
    exact ⟨⟨fits.size, fits.descending, fits.reps, fits.kept, fits.inside, fits.work⟩, start,
      fun _ _ => rfl, fun _ => id, fun other => absurd other same⟩

variable {members : List Nat} {rounds : Nat}

variable (fits : body.Fits L preds n w)

include fits

theorem addBackPreds_fits (start : body.workList = [])
    (back : ∀ v ∈ members, v ∈ preds.backPreds w) :
    (members.foldl (addBackPred w) body).Fits L preds n w ∧
      (∀ i ≤ n, (members.foldl (addBackPred w) body).uf.rep i = body.uf.rep i) ∧
      (∀ x ∈ body.P, x ∈ (members.foldl (addBackPred w) body).P) ∧
      (∀ v ∈ members, v ≠ w → body.uf.rep v ∈ (members.foldl (addBackPred w) body).P) := by
  induction members generalizing body with
  | nil => exact ⟨fits, fun _ _ => rfl, fun _ => id, fun v absent => nomatch absent⟩
  | cons v rest ih =>
    rw [List.forall_mem_cons] at back
    obtain ⟨fits', start', same, more, added⟩ := addBackPred_fits nest fits start back.1
    obtain ⟨fits'', same', more', added'⟩ := ih fits' start' back.2
    rw [List.foldl_cons]
    refine ⟨fits'', fun i inside => (same' i inside).trans (same i inside),
      fun x member => more' x (more x member), ?_⟩
    rw [List.forall_mem_cons]
    refine ⟨fun other => more' _ (added other), fun y member other => ?_⟩
    have bound := (nest.bounded w y (nest.back w y (back.2 y member) other)).le
    rw [← same y bound]
    exact added' y member other

theorem startBody_fits (start : body.workList = []) :
    (startBody w (preds.backPreds w) body).Fits L preds n w ∧
      (∀ i ≤ n, (startBody w (preds.backPreds w) body).uf.rep i = body.uf.rep i) ∧
      ∀ v ∈ preds.backPreds w, v ≠ w →
        body.uf.rep v ∈ (startBody w (preds.backPreds w) body).P := by
  obtain ⟨folded, same, -, added⟩ := addBackPreds_fits nest fits start fun _ => id
  exact ⟨⟨folded.size, folded.descending, folded.reps, folded.kept, folded.inside, fun _ => id⟩,
    same, added⟩

theorem visitPred_fits (inside : L w x) (pred : y ∈ preds.nonBackPreds x) :
    (visitPred tree w body y).Fits L preds n w ∧ body.Grows n (visitPred tree w body y) ∧
      (y = w ∨ body.uf.rep y ∈ (visitPred tree w body y).P) := by
  have loop : y ≠ w → L w y := nest.pred w x y inside (.inr pred)
  have bound : y ≤ n := by
    by_cases header : y = w
    · rw [header]
      exact (nest.later w x inside).le.trans (nest.bounded w x inside).le
    · exact (nest.bounded w y (loop header)).le
  obtain ⟨found, grows⟩ := fits.find nest bound
  have root : y = w → body.uf.rep y = w := by
    rintro rfl
    exact (fits.reps y bound).header nest
  have below : tree.isAncestor w (body.uf.rep y) = true := by
    by_cases header : y = w
    · rw [root header]
      exact nest.ancestor_self inside
    · exact nest.below w _ (fits.rep nest (loop header)).1
  unfold visitPred
  dsimp only
  rw [UnionFind.find_rep, if_neg (by rw [below]; exact Bool.noConfusion)]
  split
  · next fresh =>
    have header : y ≠ w := fun same => fresh.1 (root same)
    have rep := fits.rep nest (loop header)
    refine ⟨⟨found.size, found.descending, found.reps, found.kept, fun x member => ?_,
      fun x member => ?_⟩, ⟨grows.reps, fun x member => mem_setInsert.2 (.inr member),
      fun x member absent => ?_, fun x member => mem_setInsert.2 (.inr member)⟩,
      .inr (mem_setInsert.2 (.inl rfl))⟩
    · rcases mem_setInsert.1 member with rfl | old
      · exact ⟨rep.1, (grows.reps _ (nest.bounded w _ rep.1).le).trans rep.2⟩
      · exact found.inside x old
    · rcases mem_setInsert.1 member with rfl | old
      · exact mem_setInsert.2 (.inl rfl)
      · exact mem_setInsert.2 (.inr (fits.work x old))
    · rcases mem_setInsert.1 member with rfl | old
      · exact mem_setInsert.2 (.inl rfl)
      · exact absurd old absent
  · next known =>
    refine ⟨found, grows, ?_⟩
    by_cases header : y = w
    · exact .inl header
    · right
      by_contra absent
      refine known ⟨fun same => ?_, absent⟩
      have later := nest.later w _ (fits.rep nest (loop header)).1
      omega

theorem visitPreds_fits (inside : L w x) (pred : ∀ y ∈ members, y ∈ preds.nonBackPreds x) :
    (members.foldl (visitPred tree w) body).Fits L preds n w ∧
      body.Grows n (members.foldl (visitPred tree w) body) ∧
      ∀ y ∈ members, y = w ∨ body.uf.rep y ∈ (members.foldl (visitPred tree w) body).P := by
  induction members generalizing body with
  | nil => exact ⟨fits, .refl n body, fun y absent => nomatch absent⟩
  | cons y rest ih =>
    rw [List.forall_mem_cons] at pred
    obtain ⟨fits', grows, added⟩ := visitPred_fits nest fits inside pred.1
    obtain ⟨fits'', grows', added'⟩ := ih fits' pred.2
    rw [List.foldl_cons]
    refine ⟨fits'', grows.trans grows', ?_⟩
    rw [List.forall_mem_cons]
    refine ⟨added.imp_right (grows'.more _), fun z member => ?_⟩
    by_cases header : z = w
    · exact .inl header
    · have bound := (nest.bounded w z (nest.pred w x z inside (.inr (pred.2 z member)) header)).le
      rw [← grows.reps z bound]
      exact added' z member

def Body.Closed (preds : Preds) (w : Nat) (body : Body) : Prop :=
  ∀ x ∈ body.P, x ∉ body.workList → ∀ y ∈ preds.nonBackPreds x, y = w ∨ body.uf.rep y ∈ body.P

theorem close_fits (closed : body.Closed preds w) (known : close tree w rounds body = some result) :
    result.Fits L preds n w ∧ (∀ i ≤ n, result.uf.rep i = body.uf.rep i) ∧
      (∀ x ∈ body.P, x ∈ result.P) ∧
      ∀ x ∈ result.P, ∀ y ∈ preds.nonBackPreds x, y = w ∨ result.uf.rep y ∈ result.P := by
  induction rounds generalizing body with
  | zero =>
    unfold close at known
    split at known
    · next done =>
      cases known
      refine ⟨fits, fun _ _ => rfl, fun _ => id, fun x member => closed x member ?_⟩
      rw [done]
      exact List.not_mem_nil
    · cases known
    · next absurdity _ => cases absurdity
  | succ rounds ih =>
    unfold close at known
    split at known
    · next done =>
      cases known
      refine ⟨fits, fun _ _ => rfl, fun _ => id, fun x member => closed x member ?_⟩
      rw [done]
      exact List.not_mem_nil
    · cases known
    · next m x rest same shape =>
      cases same
      have member : x ∈ body.P := fits.work x (by rw [shape]; exact List.mem_cons_self)
      have inside := (fits.inside x member).1
      have taken : ({ body with workList := rest } : Body).Fits L preds n w := by
        refine ⟨fits.size, fits.descending, fits.reps, fits.kept, fits.inside, fun z left => ?_⟩
        apply fits.work z
        rw [shape]
        exact List.mem_cons_of_mem x left
      have all : ∀ y ∈ preds.nonBackPreds x, y ∈ preds.nonBackPreds x := fun _ => id
      obtain ⟨fits', grows, added⟩ := visitPreds_fits nest taken inside all
      have same_preds : body.nonBackPreds x = preds.nonBackPreds x := congrFun fits.kept x
      rw [same_preds] at known
      have closed' : ((preds.nonBackPreds x).foldl (visitPred tree w)
          { body with workList := rest }).Closed preds w := by
        intro z member' done y pred
        have old : z ∈ body.P := by
          by_contra absent
          exact done (grows.fresh z member' absent)
        by_cases header : y = w
        · exact .inl header
        · have bound := (nest.bounded w y
            (nest.pred w z y (fits'.inside z member').1 (.inr pred) header)).le
          rw [grows.reps y bound]
          by_cases this_one : z = x
          · subst this_one
            exact added y pred
          · refine (closed z old (fun listed => ?_) y pred).imp_right (grows.more _)
            rw [shape] at listed
            exact done (grows.work z ((List.mem_cons.1 listed).resolve_left this_one))
      obtain ⟨fits'', same', more', done⟩ := ih fits' closed' known
      exact ⟨fits'', fun i bound => (same' i bound).trans (grows.reps i bound),
        fun z member' => more' z (grows.more z member'), done⟩

theorem collected (start : body.workList = [])
    (known : close tree w rounds (startBody w (preds.backPreds w) body) = some result) :
    result.Fits L preds n w ∧ ∀ x, x ∈ result.P ↔ L w x ∧ result.uf.rep x = x := by
  obtain ⟨started, same, added⟩ := startBody_fits nest fits start
  have all_listed : (startBody w (preds.backPreds w) body).Closed preds w :=
    fun x member absent => absurd member absent
  obtain ⟨fits', same', more, done⟩ := close_fits nest started all_listed known
  refine ⟨fits', fun x => ⟨fits'.inside x, fun both => ?_⟩⟩
  have represented : ∀ i, L w i → result.uf.rep i ∈ result.P := by
    refine nest.generated w _ (fun v back other => ?_) fun x y inside member pred header => ?_
    · have bound := (nest.bounded w v (nest.back w v back other)).le
      rw [same' v bound, same v bound]
      exact more _ (added v back other)
    · have loop := nest.pred w x y inside pred header
      have rep := fits'.reps x (nest.bounded w x inside).le
      have rep' := fits'.reps y (nest.bounded w y loop).le
      by_cases merged : result.uf.rep x ≠ x ∨ y ∈ preds.backPreds x
      · rw [rep'.unique (rep.pred nest inside merged pred)]
        exact member
      · rw [not_or, not_not] at merged
        rw [merged.1] at member
        exact (done x member y (pred.resolve_left merged.2)).resolve_left header
  rw [← both.2]
  exact represented x both.1

end

section

variable {preds : Preds} {n : Nat} {L : Nat → Nat → Prop} {state next : State}

theorem mergeInto_spec {members : List Nat} {uf uf' : UnionFind} {header header' : Nat → Nat}
    (size : uf.size = n) (descending : uf.Descending) (inside : w ≤ n) (root : uf.rep w = w)
    (distinct : members.Nodup) (roots : ∀ x ∈ members, w < x ∧ x ≤ n ∧ uf.rep x = x)
    (known : mergeInto w members uf header = some (uf', header')) :
    uf'.size = n ∧ uf'.Descending ∧
      (∀ i ≤ n, uf'.rep i = if uf.rep i ∈ members then w else uf.rep i) ∧
      ∀ i, header' i = if i ∈ members then w else header i := by
  induction members generalizing uf header with
  | nil =>
    cases known
    exact ⟨size, descending, fun i _ => (if_neg List.not_mem_nil).symm,
      fun i => (if_neg List.not_mem_nil).symm⟩
  | cons x rest ih =>
    rw [List.forall_mem_cons] at roots
    obtain ⟨⟨later, bound, own⟩, others⟩ := roots
    rw [List.nodup_cons] at distinct
    have smaller : uf.rep w ≤ uf.rep x := by
      rw [root, own]
      exact later.le
    have merged : ∀ i ≤ n, (uf.merge x w).2.rep i = if uf.rep i = x then w else uf.rep i := by
      intro i known
      rw [← size] at known bound inside
      rw [UnionFind.rep_merge descending bound inside known, own, root]
    have descending' : (uf.merge x w).2.Descending := by
      rw [← size] at bound inside
      exact UnionFind.merge_descending descending bound inside smaller
    rw [mergeInto] at known
    dsimp only at known
    split at known
    · obtain ⟨size', done, reps, headers⟩ := ih (by exact size) descending'
        (by rw [merged w inside, root, if_neg later.ne]) distinct.2
        (fun y member => by
          obtain ⟨after, room, rep⟩ := others y member
          refine ⟨after, room, ?_⟩
          rw [merged y room, rep, if_neg]
          rintro rfl
          exact distinct.1 member) known
      refine ⟨size', done, fun i room => ?_, fun i => ?_⟩
      · rw [reps i room, merged i room]
        by_cases this_one : uf.rep i = x
        · rw [if_pos this_one, this_one, if_pos List.mem_cons_self, ite_self]
        · rw [if_neg this_one]
          simp only [List.mem_cons, this_one, false_or]
      · rw [headers i]
        by_cases this_one : i = x
        · subst this_one
          rw [if_neg distinct.1, Function.update_self, if_pos List.mem_cons_self]
        · rw [Function.update_of_ne this_one]
          simp only [List.mem_cons, this_one, false_or]
    · cases known

/-- What holds once the numbers from `w` on are done: each number is represented by the
outermost of their loops, and has the innermost one as its header. -/
structure State.Fits (L : Nat → Nat → Prop) (preds : Preds) (n w : Nat) (state : State) : Prop where
  size : state.uf.size = n
  descending : state.uf.Descending
  reps : ∀ i ≤ n, IsRep L w i (state.uf.rep i)
  heads : ∀ i ≤ n, IsHead L w i (state.header i)
  kept : state.nonBackPreds = preds.nonBackPreds

theorem round_cases
    {backPreds : Nat → List Nat} (known : round g tree backPreds state w = some next) :
    ∃ body uf header, close tree w (g.bbCount + 1) (startBody w (backPreds w)
        ⟨state.uf, [], [], state.type w, state.nonBackPreds⟩) = some body ∧
      mergeInto w body.P body.uf state.header = some (uf, header) ∧
      next = ⟨uf, header, Function.update state.type w body.type, body.nonBackPreds⟩ := by
  rw [round, Option.bind_eq_bind, Option.bind_eq_some_iff] at known
  obtain ⟨body, closed, known⟩ := known
  rw [Option.bind_eq_bind, Option.bind_eq_some_iff] at known
  obtain ⟨⟨uf, header⟩, merged, known⟩ := known
  cases known
  exact ⟨body, uf, header, closed, merged, rfl⟩

theorem IsRep.of_inside (inside : L w i) : IsRep L w i w :=
  .inr ⟨le_refl w, inside, fun _ from_w _ => from_w⟩

theorem IsRep.of_outside
    {r : Nat} (rep : IsRep L (w + 1) i r) (outside : ¬L w i) : IsRep L w i r := by
  have after : ∀ j, w ≤ j → L j i → w + 1 ≤ j := by
    intro j from_w inside
    refine lt_of_le_of_ne from_w ?_
    rintro rfl
    exact outside inside
  rcases rep with ⟨same, none_there⟩ | ⟨from_w, inside, least⟩
  · exact .inl ⟨same, fun j from_w inside => none_there j (after j from_w inside) inside⟩
  · exact .inr ⟨Nat.le_of_succ_le from_w, inside,
      fun j from_w' inside' => least j (after j from_w' inside') inside'⟩

theorem IsHead.of_inside
    (inside : L w i) (none_there : ∀ j, w + 1 ≤ j → ¬L j i) : IsHead L w i w := by
  refine .inr ⟨le_refl w, inside, fun j _ other => ?_⟩
  by_contra later
  exact none_there j (not_le.1 later) other

theorem IsHead.of_others {h : Nat} (head : IsHead L (w + 1) i h)
    (others : ¬L w i ∨ ∃ j, w + 1 ≤ j ∧ L j i) : IsHead L w i h := by
  rcases head with ⟨same, none_there⟩ | ⟨from_w, inside, greatest⟩
  · have outside : ¬L w i := by
      refine others.resolve_right ?_
      rintro ⟨j, from_w, inside⟩
      exact none_there j from_w inside
    refine .inl ⟨same, fun j from_w inside => none_there j (lt_of_le_of_ne from_w ?_) inside⟩
    rintro rfl
    exact outside inside
  · refine .inr ⟨Nat.le_of_succ_le from_w, inside, fun j from_w' inside' => ?_⟩
    by_cases first : j = w
    · rw [first]
      exact Nat.le_of_succ_le from_w
    · exact greatest j (lt_of_le_of_ne from_w' (Ne.symm first)) inside'

variable (nest : Nest tree preds n L)

include nest

theorem round_fits (bound : w < n)
    (distinct : ∀ body, close tree w (g.bbCount + 1) (startBody w (preds.backPreds w)
        ⟨state.uf, [], [], state.type w, state.nonBackPreds⟩) = some body → body.P.Nodup)
    (fits : state.Fits L preds n (w + 1))
    (known : round g tree preds.backPreds state w = some next) : next.Fits L preds n w := by
  obtain ⟨body, uf, header, closed, merged, rfl⟩ := round_cases known
  have start : (⟨state.uf, [], [], state.type w, state.nonBackPreds⟩ : Body).Fits L preds n w :=
    ⟨fits.size, fits.descending, fits.reps, fits.kept, (fun x absent => nomatch absent),
      fun x absent => nomatch absent⟩
  obtain ⟨done, members⟩ := collected nest start rfl closed
  have own : body.uf.rep w = w := (done.reps w bound.le).header nest
  obtain ⟨size', descending', reps, headers⟩ := mergeInto_spec done.size done.descending bound.le
    own (distinct body closed) (fun x member => by
      obtain ⟨inside, root⟩ := (members x).1 member
      exact ⟨nest.later w x inside, (nest.bounded w x inside).le, root⟩) merged
  have rep_member : ∀ i ≤ n, body.uf.rep i ∈ body.P ↔ L w i := by
    intro i room
    rw [members, (done.reps i room).inside_iff nest, and_iff_left]
    rw [← done.size] at room
    exact UnionFind.rep_rep done.descending room
  refine ⟨size', descending', fun i room => ?_, fun i room => ?_, done.kept⟩
  · dsimp only
    rw [reps i room]
    by_cases inside : L w i
    · rw [if_pos ((rep_member i room).2 inside)]
      exact .of_inside inside
    · rw [if_neg fun member => inside ((rep_member i room).1 member)]
      exact (done.reps i room).of_outside inside
  · dsimp only
    rw [headers i]
    by_cases member : i ∈ body.P
    · rw [if_pos member]
      obtain ⟨inside, root⟩ := (members i).1 member
      refine .of_inside inside fun j from_w other => ?_
      rcases done.reps i room with ⟨-, none_there⟩ | ⟨-, loop, -⟩
      · exact none_there j from_w other
      · rw [root] at loop
        exact absurd (nest.later i i loop) (lt_irrefl i)
    · rw [if_neg member]
      refine (fits.heads i room).of_others ?_
      by_cases inside : L w i
      · right
        rcases done.reps i room with ⟨root, -⟩ | ⟨from_w, loop, -⟩
        · exact absurd ((members i).2 ⟨inside, root⟩) member
        · exact ⟨_, from_w, loop⟩
      · exact .inl inside

end

theorem State.Sound.distinct {backPreds : Nat → List Nat} {state : State} {body : Body}
    (sound : state.Sound g backPreds (w + 1))
    (later : ∀ w, ∀ v ∈ backPreds w, w ≤ v ∧ v < g.bbCount)
    (closed : close tree w (g.bbCount + 1) (startBody w (backPreds w)
      ⟨state.uf, [], [], state.type w, state.nonBackPreds⟩) = some body) : body.P.Nodup := by
  have empty : (⟨state.uf, [], [], state.type w, state.nonBackPreds⟩ : Body).Sound g w :=
    ⟨sound.descending, sound.above, List.nodup_nil, (fun x absent => nomatch absent), sound.preds⟩
  have start := startBody_sound empty (later w)
  obtain ⟨result, known, done, -⟩ :=
    close_sound tree start ((startBody_rounds start).trans (Nat.le_succ _))
  rw [closed] at known
  cases known
  exact done.distinct

theorem runDown_fits {preds : Preds} {L : Nat → Nat → Prop} {state result : State}
    (nest : Nest tree preds g.bbCount L)
    (later : ∀ w, ∀ v ∈ preds.backPreds w, w ≤ v ∧ v < g.bbCount) (inside : w ≤ g.bbCount)
    (sound : state.Sound g preds.backPreds w) (fits : state.Fits L preds g.bbCount w)
    (known : runDown g tree preds.backPreds w state = some result) :
    result.Fits L preds g.bbCount 0 := by
  induction w generalizing state with
  | zero =>
    cases known
    exact fits
  | succ w ih =>
    rw [runDown, Option.bind_eq_bind, Option.bind_eq_some_iff] at known
    obtain ⟨next, step, rest⟩ := known
    obtain ⟨next', step', sound'⟩ := round_sound tree later inside sound
    rw [step] at step'
    cases step'
    exact ih (Nat.le_of_succ_le inside) sound'
      (round_fits nest inside (fun body closed => sound.distinct later closed) fits step) rest

end LoopAnalysis

theorem Flow.loopAnalysis_cases
    {g : Flow} {result : LoopAnalysis} (known : g.loopAnalysis = some result) :
    LoopAnalysis.runDown g result.tree (LoopAnalysis.predsOf g result.tree).backPreds g.bbCount
        ⟨.new g.bbCount, fun _ => 0, fun _ => .nonheader,
          (LoopAnalysis.predsOf g result.tree).nonBackPreds⟩ = some result.state ∧
      result.forest =
        (List.range g.bbCount).foldl (LoopAnalysis.addNode result.tree result.state) {} := by
  rw [Flow.loopAnalysis, Option.bind_eq_bind, Option.bind_eq_some_iff] at known
  obtain ⟨tree, -, known⟩ := known
  rw [Option.bind_eq_bind, Option.bind_eq_some_iff] at known
  obtain ⟨state, run, known⟩ := known
  cases known
  exact ⟨run, rfl⟩

namespace LoopAnalysis

theorem heads_of_reducible {g : Flow} {result : LoopAnalysis} (reducible : g.Reducible)
    (spans : Spans g result.tree) (known : g.loopAnalysis = some result) :
    ∀ i ≤ g.bbCount, IsHead (g.Inside result.tree) 0 i (result.state.header i) := by
  have nest := nest_of_reducible spans reducible
  obtain ⟨run, -⟩ := Flow.loopAnalysis_cases known
  have start : State.Fits (g.Inside result.tree) (predsOf g result.tree) g.bbCount g.bbCount
      ⟨.new g.bbCount, fun _ => 0, fun _ => .nonheader, (predsOf g result.tree).nonBackPreds⟩ := by
    have none_there : ∀ i j, g.bbCount ≤ j → ¬g.Inside result.tree j i := by
      intro i j large inside
      have before := nest.later j i inside
      have bound := nest.bounded j i inside
      omega
    exact ⟨rfl, fun i => le_refl i, fun i _ => .inl ⟨UnionFind.rep_of_root rfl, none_there i⟩,
      fun i _ => .inl ⟨rfl, none_there i⟩, rfl⟩
  exact (runDown_fits nest (backPreds_later spans) (le_refl _) (start_sound spans) start run).heads

section

variable {tree : Spanning} {state : State} {result : Forest} {b h i m : Nat}

def blockOf (tree : Spanning) (i : Nat) : Nat := tree.node[i]?.getD 0

def State.RootAt (state : State) (i : Nat) : Prop :=
  state.header i = 0 ∧ state.type i ≠ .nonheader

theorem isSome_update {children : Nat → Option (List Nat)} {c : Nat} {list : List Nat} :
    (Function.update children c (some list) b).isSome = true ↔
      (children b).isSome = true ∨ c = b := by
  by_cases same : b = c
  · subst same
    simp
  · rw [Function.update_of_ne same]
    simp [Ne.symm same]

theorem mem_addNode :
    (b ∈ (addNode tree state result i).roots ↔
      b ∈ result.roots ∨ state.RootAt i ∧ blockOf tree i = b) ∧
    (((addNode tree state result i).forest b).isSome = true ↔
      (result.forest b).isSome = true ∨ state.RootAt i ∧ blockOf tree i = b ∨
        state.header i ≠ 0 ∧ blockOf tree (state.header i) = b) ∧
    ((addNode tree state result i).parent b =
      if state.header i ≠ 0 ∧ blockOf tree i = b then some (blockOf tree (state.header i))
      else result.parent b) := by
  unfold addNode
  dsimp only
  by_cases outer : state.header i = 0
  · by_cases header : state.type i ≠ .nonheader
    · have root : state.RootAt i := ⟨outer, header⟩
      rw [if_pos ⟨outer, header⟩]
      refine ⟨?_, ?_, ?_⟩
      · simp [root, blockOf, eq_comm]
      · rw [isSome_update]
        simp [root, outer, blockOf]
      · rw [if_neg fun both => both.1 outer]
    · have other : ¬state.RootAt i := fun root => header root.2
      rw [if_neg fun both => header both.2, if_neg fun either =>
        either.elim (fun inner => inner outer) header]
      simp [other, outer]
  · have other : ¬state.RootAt i := fun root => outer root.1
    rw [if_neg fun both => outer both.1, if_pos (.inl outer)]
    refine ⟨?_, ?_, ?_⟩
    · simp [other]
    · rw [isSome_update]
      simp [other, outer, blockOf]
    · by_cases same : b = blockOf tree i
      · rw [if_pos ⟨outer, same.symm⟩, same]
        exact Function.update_self ..
      · rw [if_neg fun both => same both.2.symm]
        exact Function.update_of_ne same ..

theorem mem_addNodes :
    (b ∈ ((List.range m).foldl (addNode tree state) {}).roots ↔
      ∃ i < m, state.RootAt i ∧ blockOf tree i = b) ∧
    ((((List.range m).foldl (addNode tree state) {}).forest b).isSome = true ↔
      ∃ i < m, state.RootAt i ∧ blockOf tree i = b ∨
        state.header i ≠ 0 ∧ blockOf tree (state.header i) = b) := by
  induction m with
  | zero => simp
  | succ m ih =>
    rw [List.range_succ, List.foldl_append, List.foldl_cons, List.foldl_nil, mem_addNode.1,
      mem_addNode.2.1, ih.1, ih.2]
    simp only [Nat.exists_lt_succ_right, and_self]

theorem parent_addNodes
    (distinct : ∀ i < m, ∀ j < m, state.header i ≠ 0 → state.header j ≠ 0 →
      blockOf tree i = blockOf tree j → i = j) :
    ((List.range m).foldl (addNode tree state) {}).parent b = some h ↔
      ∃ i < m, state.header i ≠ 0 ∧ blockOf tree i = b ∧ blockOf tree (state.header i) = h := by
  induction m with
  | zero => simp
  | succ m ih =>
    rw [List.range_succ, List.foldl_append, List.foldl_cons, List.foldl_nil, mem_addNode.2.2]
    split
    · next both =>
      rw [Option.some.injEq]
      constructor
      · intro known
        exact ⟨m, Nat.lt_succ_self m, both.1, both.2, known⟩
      · rintro ⟨i, inside, inner, same, known⟩
        obtain rfl := distinct i inside m (Nat.lt_succ_self m) inner both.1 (same.trans both.2.symm)
        exact known
    · next other =>
      have fewer := ih fun i first j second =>
        distinct i (Nat.lt_succ_of_lt first) j (Nat.lt_succ_of_lt second)
      rw [fewer, Nat.exists_lt_succ_right]
      refine ⟨.inl, fun either => either.resolve_right ?_⟩
      rintro ⟨inner, same, -⟩
      exact other ⟨inner, same⟩

end

section

variable {g : Flow} {result : LoopAnalysis} {b h i w : Nat}

theorem blockOf_number (spans : Spans g result.tree)
    (number : result.tree.number b = some i) : blockOf result.tree i = b := by
  rw [blockOf, (spans.numbers b i).1 number, Option.getD_some]

theorem not_inside_entry (spans : Spans g result.tree) : ¬g.Inside result.tree 0 i := by
  rintro ⟨h, b, header, number, body⟩
  obtain ⟨k, known⟩ := spans.reached 0 g.reachable_entry
  have before := (Flow.number_le_of_dominates spans (.entry g h) known header).2
  obtain rfl := Nat.le_zero.1 before
  obtain rfl := Flow.number_injective spans header known
  obtain ⟨p, edge, -⟩ := body.exists_back
  exact Flow.succ_ne_entry edge.2.1 rfl

theorem innermost_iff (spans : Spans g result.tree) (header : result.tree.number h = some w)
    (number : result.tree.number b = some i) :
    g.Innermost h b ↔ g.Inside result.tree w i ∧ ∀ j, g.Inside result.tree j i → j ≤ w := by
  constructor
  · rintro ⟨body, others⟩
    refine ⟨⟨h, b, header, number, body⟩, ?_⟩
    rintro j ⟨h', b', header', number', body'⟩
    obtain rfl := Flow.number_injective spans number' number
    rcases others h' body' with rfl | outer
    · rw [header] at header'
      cases header'
      exact le_refl w
    · exact (outer.number_lt spans header' header).le
  · rintro ⟨⟨h₁, b₁, header', number', body⟩, greatest⟩
    obtain rfl := Flow.number_injective spans header' header
    obtain rfl := Flow.number_injective spans number' number
    refine ⟨body, fun h' body' => ?_⟩
    obtain ⟨j, outer⟩ := body'.header_number spans
    rcases (greatest j ⟨h', b₁, outer, number, body'⟩).eq_or_lt with rfl | before
    · exact .inl (Flow.number_injective spans outer header)
    · exact .inr (body'.nest spans body outer header before)

theorem exists_number_of_header
    (heads : ∀ i ≤ g.bbCount, IsHead (g.Inside result.tree) 0 i (result.state.header i))
    (bound : i ≤ g.bbCount)
    (inner : result.state.header i ≠ 0) : ∃ c, result.tree.number c = some i := by
  rcases heads i bound with ⟨outer, -⟩ | ⟨-, ⟨h', c, -, number, -⟩, -⟩
  · exact absurd outer inner
  · exact ⟨c, number⟩

variable (spans : Spans g result.tree) (known : g.loopAnalysis = some result)
  (heads : ∀ i ≤ g.bbCount, IsHead (g.Inside result.tree) 0 i (result.state.header i))

include spans heads

theorem header_eq_iff (number : result.tree.number b = some i) :
    result.state.header i ≠ 0 ∧ blockOf result.tree (result.state.header i) = h ↔
      g.Innermost h b := by
  have bound := (spans.number_lt number).le
  constructor
  · rintro ⟨inner, same⟩
    rcases heads i bound with ⟨outer, -⟩ | ⟨-, inside, greatest⟩
    · exact absurd outer inner
    · obtain ⟨h', -, header, -⟩ := id inside
      rw [blockOf_number spans header] at same
      subst same
      exact (innermost_iff spans header number).2
        ⟨inside, fun j other => greatest j (Nat.zero_le j) other⟩
  · intro innermost
    obtain ⟨w, header⟩ := innermost.1.header_number spans
    obtain ⟨inside, greatest⟩ := (innermost_iff spans header number).1 innermost
    rcases heads i bound with ⟨-, none_there⟩ | ⟨-, inside', greatest'⟩
    · exact absurd inside (none_there w (Nat.zero_le w))
    · have same := le_antisymm (greatest _ inside') (greatest' w (Nat.zero_le w) inside)
      rw [same, blockOf_number spans header]
      refine ⟨?_, rfl⟩
      rintro rfl
      exact not_inside_entry spans inside

include known

theorem getParent_iff : result.getParent b = some h ↔ g.Innermost h b := by
  have distinct : ∀ i < g.bbCount, ∀ j < g.bbCount, result.state.header i ≠ 0 →
      result.state.header j ≠ 0 → blockOf result.tree i = blockOf result.tree j → i = j := by
    intro i first j second inner inner' same
    obtain ⟨c, number⟩ := exists_number_of_header heads first.le inner
    obtain ⟨d, number'⟩ := exists_number_of_header heads second.le inner'
    rw [blockOf_number spans number, blockOf_number spans number'] at same
    subst same
    exact Option.some.inj (number.symm.trans number')
  rw [getParent, (Flow.loopAnalysis_cases known).2, parent_addNodes distinct]
  constructor
  · rintro ⟨i, inside, inner, same, head⟩
    obtain ⟨c, number⟩ := exists_number_of_header heads inside.le inner
    rw [blockOf_number spans number] at same
    subst same
    exact (header_eq_iff spans heads number).1 ⟨inner, head⟩
  · intro innermost
    obtain ⟨i, number⟩ := spans.reached b innermost.1.reachable
    obtain ⟨inner, head⟩ := (header_eq_iff spans heads number).2 innermost
    exact ⟨i, spans.number_lt number, inner, blockOf_number spans number, head⟩

/-- The nodes of the forest: targets of back edges, but not of one from the block itself
alone within another loop. -/
theorem isInner_iff
    (reducible : g.Reducible) (types : ∀ i, result.state.type i ≠ .nonheader ↔
      i < g.bbCount ∧ (predsOf g result.tree).backPreds i ≠ []) :
    result.isInner b = true ↔ ∃ p, g.BackEdge p b ∧ (p ≠ b ∨ ∀ h, ¬g.Body h b) := by
  have nest := nest_of_reducible spans reducible
  have nodes : result.isInner b = true ↔ ∃ i < g.bbCount,
      result.state.RootAt i ∧ blockOf result.tree i = b ∨
        result.state.header i ≠ 0 ∧ blockOf result.tree (result.state.header i) = b := by
    rw [isInner, (Flow.loopAnalysis_cases known).2, Bool.or_eq_true, decide_eq_true_eq,
      mem_addNodes.1, mem_addNodes.2, or_iff_right_of_imp]
    rintro ⟨i, inside, root⟩
    exact ⟨i, inside, .inl root⟩
  rw [nodes]
  constructor
  · rintro ⟨i, inside, ⟨⟨outer, header⟩, same⟩ | inner⟩
    · obtain ⟨v, back⟩ := List.exists_mem_of_ne_nil _ ((types i).1 header).2
      obtain ⟨p, c, edge, -, number⟩ := (mem_backPreds spans reducible).1 back
      rw [blockOf_number spans number] at same
      subst same
      refine ⟨p, edge, .inr fun h body => ?_⟩
      obtain ⟨w, number'⟩ := body.header_number spans
      rcases heads i inside.le with ⟨-, none_there⟩ | ⟨-, loop, -⟩
      · exact none_there w (Nat.zero_le w) ⟨h, c, number', number, body⟩
      · rw [outer] at loop
        exact not_inside_entry spans loop
    · obtain ⟨c, number⟩ := exists_number_of_header heads inside.le inner.1
      obtain ⟨p, edge, other⟩ := ((header_eq_iff spans heads number).1 inner).1.exists_back
      exact ⟨p, edge, .inl other⟩
  · rintro ⟨p, edge, other | single⟩
    · have body : g.Body b p := .back edge other
      obtain ⟨w, header⟩ := body.header_number spans
      obtain ⟨v, number⟩ := spans.reached p edge.1
      obtain ⟨r, loop, outermost⟩ := nest.exists_outermost ⟨b, p, header, number, body⟩
      have bound := nest.bounded w r loop
      have head : result.state.header r = w := by
        rcases heads r bound.le with ⟨-, none_there⟩ | ⟨-, inside, greatest⟩
        · exact absurd loop (none_there w (Nat.zero_le w))
        · refine le_antisymm (not_lt.1 fun later => ?_) (greatest w (Nat.zero_le w) loop)
          exact outermost _ later inside
      refine ⟨r, bound, .inr ?_⟩
      rw [head, blockOf_number spans header]
      refine ⟨?_, rfl⟩
      rintro rfl
      exact not_inside_entry spans loop
    · obtain ⟨v, number⟩ := spans.reached p edge.1
      obtain ⟨i, number', -⟩ := spans.below p v number b edge.2.2
      have bound := spans.number_lt number'
      refine ⟨i, bound, .inl ⟨⟨?_, ?_⟩, blockOf_number spans number'⟩⟩
      · rcases heads i bound.le with ⟨outer, -⟩ | ⟨-, ⟨h, c, -, number, body⟩, -⟩
        · exact outer
        · obtain rfl := Flow.number_injective spans number number'
          exact absurd body (single h)
      · rw [types i]
        have back := (mem_backPreds spans reducible).2 ⟨p, b, edge, number, number'⟩
        exact ⟨bound, List.ne_nil_of_mem back⟩

end

/-- In a reducible function the parent of a block is the header of the innermost natural
loop around it. The nodes of the forest are the targets of back edges exactly if no block
of a loop is itself a loop of one block. -/
theorem natural_loop_forest_iff (g : Flow) (reducible : g.Reducible) :
    ∃ result, g.loopAnalysis = some result ∧
      (∀ h b, result.getParent b = some h ↔ g.Innermost h b) ∧
      ((∀ b, result.isInner b = true ↔ ∃ p, g.BackEdge p b) ↔ g.SelfLoopsOuter) := by
  obtain ⟨result, known, spans, types⟩ := g.loopAnalysis_returns
  have heads := heads_of_reducible reducible spans known
  have nodes : ∀ b, result.isInner b = true ↔ ∃ p, g.BackEdge p b ∧ (p ≠ b ∨ ∀ h, ¬g.Body h b) :=
    fun b => isInner_iff spans known heads reducible types
  refine ⟨result, known, fun h b => getParent_iff spans known heads, ?_⟩
  constructor
  · intro exact_nodes h b body edge
    obtain ⟨p, edge', other | single⟩ := (nodes b).1 ((exact_nodes b).2 ⟨b, edge⟩)
    · exact ⟨p, edge', other⟩
    · exact absurd body (single h)
  · intro outer b
    rw [nodes b]
    constructor
    · rintro ⟨p, edge, -⟩
      exact ⟨p, edge⟩
    · rintro ⟨p, edge⟩
      by_cases inner : ∃ h, g.Body h b
      · by_cases own : p = b
        · subst own
          obtain ⟨h, body⟩ := inner
          obtain ⟨q, edge', other⟩ := outer h p body edge
          exact ⟨q, edge', .inl other⟩
        · exact ⟨p, edge, .inl own⟩
      · rw [not_exists] at inner
        exact ⟨p, edge, .inr inner⟩

theorem natural_loop_forest_twoBlockLoop :
    ∃ result, twoBlockLoop.loopAnalysis = some result ∧ result.getParent 2 = some 1 ∧
      result.isInner 1 = true := by
  have first : twoBlockLoop.Path [1, 0] := .jump .entry (by decide)
  have second : twoBlockLoop.Path [2, 1, 0] := .jump first (by decide)
  have back : twoBlockLoop.BackEdge 2 1 :=
    ⟨⟨_, second⟩, by decide, .of_entry (by decide) (by decide)⟩
  have order : ∀ p t, t ∈ twoBlockLoop.succ p → p < t ∨ twoBlockLoop.Dominates t p := by
    intro p t jump
    have edges : ∀ p < 4, ∀ t ∈ twoBlockLoop.succ p, p < t ∨ p = 2 ∧ t = 1 := by decide
    refine (edges p (Flow.src_lt jump) t jump).imp_right ?_
    rintro ⟨rfl, rfl⟩
    exact back.2.2
  have header_only : ∀ h b, twoBlockLoop.Body h b → h = 1 := by
    intro h b body
    obtain ⟨p, ⟨-, jump, dominates⟩, -⟩ := body.exists_back
    have edges : ∀ p < 4, ∀ t ∈ twoBlockLoop.succ p,
        t = 1 ∨ p = 1 ∧ t = 2 ∨ p = 2 ∧ t = 3 := by decide
    rcases edges p (Flow.src_lt jump) h jump with same | ⟨rfl, rfl⟩ | ⟨rfl, rfl⟩
    · exact same
    · exact absurd (dominates _ first) (by decide)
    · exact absurd (dominates _ second) (by decide)
  obtain ⟨result, known, parents, nodes⟩ :=
    natural_loop_forest_iff twoBlockLoop (.of_order order)
  refine ⟨result, known, (parents 1 2).2 ⟨.back back (by decide), fun h body => ?_⟩, ?_⟩
  · exact .inl (header_only h 2 body)
  · refine ((nodes.2 fun h b _ edge => ?_) 1).2 ⟨2, back⟩
    have none_single : ∀ b < 4, b ∉ twoBlockLoop.succ b := by decide
    exact absurd edge.2.1 (none_single b (Flow.src_lt edge.2.1))

def selfInLoop : Flow := ⟨[[1], [2], [2, 3], [1, 4], []], by decide, by decide, by decide⟩

/-- It is no node of the forest, although it is the target of a back edge. -/
theorem node_of_self_in_loop :
    ¬∀ (g : Flow) (result : LoopAnalysis), g.Reducible → g.loopAnalysis = some result →
      ∀ b, result.isInner b = true ↔ ∃ p, g.BackEdge p b := by
  intro claim
  have order : ∀ p t, t ∈ selfInLoop.succ p → p < t ∨ selfInLoop.Dominates t p := by
    intro p t jump
    have edges : ∀ p < 5, ∀ t ∈ selfInLoop.succ p, p < t ∨ t = p ∨ p ≠ 0 ∧ t = 1 := by decide
    refine (edges p (Flow.src_lt jump) t jump).imp_right ?_
    rintro (rfl | ⟨later, rfl⟩)
    · exact .refl _ _
    · exact .of_entry (by decide) later
  obtain ⟨result, known, -⟩ := selfInLoop.loopAnalysis_returns
  have first : selfInLoop.Path [1, 0] := .jump .entry (by decide)
  have back : selfInLoop.BackEdge 2 2 :=
    ⟨⟨_, .jump first (by decide)⟩, by decide, .refl _ _⟩
  have inner := (claim selfInLoop result (.of_order order) known 2).2 ⟨2, back⟩
  have computed : selfInLoop.loopAnalysis.map (fun result => result.isInner 2) = some false := by
    decide
  rw [known, Option.map_some, inner] at computed
  cases computed

end LoopAnalysis

end AliveNext.IR
