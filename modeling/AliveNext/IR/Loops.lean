import AliveNext.IR.SpanningTree
import AliveNext.Util.UnionFind

/-!
# Loops

`LoopAnalysis::run` of `ir/function.cpp`, the algorithm of Tarjan and Havlak over the
spanning tree. From the last number to the first the blocks that jump back to a block
are collected, with what leads to them, and merged with it.
-/

namespace AliveNext.IR

open Util

/-- Insertion into `set<unsigned>`. -/
def setInsert (x : Nat) (set : List Nat) : List Nat :=
  if x ∈ set then set else set.orderedInsert (· ≤ ·) x

namespace LoopAnalysis

inductive NodeType where
  | nonheader | self | reducible | irreducible
  deriving DecidableEq

/-- The predecessors of each number: those below it in the tree, and the others. -/
structure Preds where
  nonBackPreds : Nat → List Nat := fun _ => []
  backPreds : Nat → List Nat := fun _ => []

/-- Edges between blocks without a number are left out. -/
def addEdge (tree : Spanning) (preds : Preds) (edge : Nat × Nat) : Preds :=
  match tree.number edge.1, tree.number edge.2 with
  | some v, some w =>
    if tree.isAncestor w v then
      { preds with
        backPreds := Function.update preds.backPreds w (setInsert v (preds.backPreds w)) }
    else
      { preds with
        nonBackPreds := Function.update preds.nonBackPreds w (setInsert v (preds.nonBackPreds w)) }
  | _, _ => preds

def predsOf (g : Flow) (tree : Spanning) : Preds := g.cfg.foldl (addEdge tree) {}

/-- What the rounds for one number `w` change. `type` is that of `w`. -/
structure Body where
  uf : UnionFind
  P : List Nat
  workList : List Nat
  type : NodeType
  nonBackPreds : Nat → List Nat

/-- A predecessor from below is represented in `P`. -/
def addBackPred (w : Nat) (body : Body) (v : Nat) : Body :=
  if v ≠ w then
    let (x, uf) := body.uf.find v
    { body with uf := uf, P := setInsert x body.P }
  else { body with type := .self }

def startBody (w : Nat) (backPreds : List Nat) (body : Body) : Body :=
  let body := backPreds.foldl (addBackPred w) body
  { body with
    type := if body.P ≠ [] then .reducible else body.type
    workList := body.P }

/-- A predecessor of a block of the loop belongs to it too. If it is not below the
header the loop has another entry. -/
def visitPred (tree : Spanning) (w : Nat) (body : Body) (y : Nat) : Body :=
  let (yy, uf) := body.uf.find y
  let body := { body with uf := uf }
  if tree.isAncestor w yy = false then
    { body with
      type := .irreducible
      nonBackPreds := Function.update body.nonBackPreds w (setInsert yy (body.nonBackPreds w)) }
  else if yy ≠ w ∧ yy ∉ body.P then
    { body with P := setInsert yy body.P, workList := setInsert yy body.workList }
  else body

/-- The loop over `workList`, with a number of rounds at most. -/
def close (tree : Spanning) (w : Nat) : Nat → Body → Option Body
  | rounds, body =>
    match rounds, body.workList with
    | _, [] => some body
    | 0, _ :: _ => none
    | rounds + 1, x :: rest =>
      close tree w rounds
        ((body.nonBackPreds x).foldl (visitPred tree w) { body with workList := rest })

/-- The members of the loop get their header and are merged with it, which must stay
the representative. -/
def mergeInto (w : Nat) : List Nat → UnionFind → (Nat → Nat) → Option (UnionFind × (Nat → Nat))
  | [], uf, header => some (uf, header)
  | x :: rest, uf, header =>
    let (root, uf) := uf.merge x w
    if root = w then mergeInto w rest uf (Function.update header x w) else none

/-- What is known after some numbers. -/
structure State where
  uf : UnionFind
  header : Nat → Nat
  type : Nat → NodeType
  nonBackPreds : Nat → List Nat

def round (g : Flow) (tree : Spanning) (backPreds : Nat → List Nat) (state : State) (w : Nat) :
    Option State := do
  let body ← close tree w (g.bbCount + 1)
    (startBody w (backPreds w) ⟨state.uf, [], [], state.type w, state.nonBackPreds⟩)
  let (uf, header) ← mergeInto w body.P body.uf state.header
  return ⟨uf, header, Function.update state.type w body.type, body.nonBackPreds⟩

def runDown (g : Flow) (tree : Spanning) (backPreds : Nat → List Nat) : Nat → State → Option State
  | 0, state => some state
  | w + 1, state => do
    let state ← round g tree backPreds state w
    runDown g tree backPreds w state

structure Forest where
  roots : List Nat := []
  forest : Nat → Option (List Nat) := fun _ => none
  parent : Nat → Option Nat := fun _ => none

def addNode (tree : Spanning) (state : State) (result : Forest) (i : Nat) : Forest :=
  let h := state.header i
  let block := tree.node[i]?.getD 0
  let head := tree.node[h]?.getD 0
  if h = 0 ∧ state.type i ≠ .nonheader then
    { result with
      roots := result.roots ++ [block]
      forest := Function.update result.forest block (some ((result.forest block).getD [])) }
  else if h ≠ 0 ∨ state.type i ≠ .nonheader then
    { result with
      parent := Function.update result.parent block (some head)
      forest :=
        Function.update result.forest head (some ((result.forest head).getD [] ++ [block])) }
  else result

end LoopAnalysis

/-- The members of `LoopAnalysis`. -/
structure LoopAnalysis where
  tree : Spanning
  state : LoopAnalysis.State
  forest : LoopAnalysis.Forest

/-- `LoopAnalysis::run`. It returns nothing if a loop does not end or an `ENSURE` fails. -/
def Flow.loopAnalysis (g : Flow) : Option LoopAnalysis := do
  let tree ← g.getDepthFirstSpanningTree
  let preds := LoopAnalysis.predsOf g tree
  let state ← LoopAnalysis.runDown g tree preds.backPreds g.bbCount
    ⟨.new g.bbCount, fun _ => 0, fun _ => .nonheader, preds.nonBackPreds⟩
  return ⟨tree, state, (List.range g.bbCount).foldl (LoopAnalysis.addNode tree state) {}⟩

namespace LoopAnalysis

def isHeader (self : LoopAnalysis) (b : Nat) : Bool :=
  match self.tree.number b with
  | some i => self.state.type i ≠ .nonheader
  | none => false

def getParent (self : LoopAnalysis) (bb : Nat) : Option Nat := self.forest.parent bb

/-- The block is a root of the forest or has blocks below it there: those that `unroll`
takes from the forest. -/
def isInner (self : LoopAnalysis) (bb : Nat) : Bool :=
  bb ∈ self.forest.roots || (self.forest.forest bb).isSome

end LoopAnalysis

section

variable {x y : Nat} {set : List Nat}

theorem mem_setInsert : y ∈ setInsert x set ↔ y = x ∨ y ∈ set := by
  unfold setInsert
  split
  · next member =>
    constructor
    · exact .inr
    · rintro (rfl | old)
      · exact member
      · exact old
  · rw [(List.perm_orderedInsert _ x set).mem_iff, List.mem_cons]

theorem nodup_setInsert (distinct : set.Nodup) : (setInsert x set).Nodup := by
  unfold setInsert
  split
  · exact distinct
  · next absent =>
    rw [(List.perm_orderedInsert _ x set).nodup_iff]
    exact List.nodup_cons.2 ⟨absent, distinct⟩

theorem length_setInsert_of_notMem
    (absent : x ∉ set) : (setInsert x set).length = set.length + 1 := by
  rw [setInsert, if_neg absent, (List.perm_orderedInsert _ x set).length_eq, List.length_cons]

theorem length_setInsert_le (x : Nat) (set : List Nat) :
    (setInsert x set).length ≤ set.length + 1 := by
  by_cases member : x ∈ set
  · rw [setInsert, if_pos member]
    exact Nat.le_succ _
  · exact (length_setInsert_of_notMem member).le

end

namespace LoopAnalysis

section

variable {g : Flow} {tree : Spanning} {w v x y n : Nat} {body result : Body} {backPreds : List Nat}

/-! ## Predecessors -/

theorem mem_update_setInsert {sets : Nat → List Nat} :
    v ∈ Function.update sets x (setInsert y (sets x)) w ↔ v ∈ sets w ∨ y = v ∧ x = w := by
  by_cases same : w = x
  · subst same
    rw [Function.update_self, mem_setInsert, or_comm, eq_comm (a := y)]
    simp
  · rw [Function.update_of_ne same]
    simp [Ne.symm same]

theorem mem_addEdge {preds : Preds} {src dst : Nat} :
    (v ∈ (addEdge tree preds (src, dst)).backPreds w ↔ v ∈ preds.backPreds w ∨
      tree.number src = some v ∧ tree.number dst = some w ∧ tree.isAncestor w v = true) ∧
    (v ∈ (addEdge tree preds (src, dst)).nonBackPreds w ↔ v ∈ preds.nonBackPreds w ∨
      tree.number src = some v ∧ tree.number dst = some w ∧ tree.isAncestor w v = false) := by
  unfold addEdge
  dsimp only
  cases tree.number src with
  | none => simp
  | some y =>
    cases tree.number dst with
    | none => simp
    | some x =>
      dsimp only
      by_cases below : tree.isAncestor x y = true
      · rw [if_pos below]
        dsimp only
        rw [mem_update_setInsert, Option.some.injEq, Option.some.injEq]
        constructor
        · refine or_congr_right ⟨?_, fun both => ⟨both.1, both.2.1⟩⟩
          rintro ⟨rfl, rfl⟩
          exact ⟨rfl, rfl, below⟩
        · refine ⟨.inl, fun member => member.resolve_right ?_⟩
          rintro ⟨rfl, rfl, other⟩
          rw [below] at other
          cases other
      · rw [if_neg below]
        rw [Bool.not_eq_true] at below
        dsimp only
        rw [mem_update_setInsert, Option.some.injEq, Option.some.injEq]
        constructor
        · refine ⟨.inl, fun member => member.resolve_right ?_⟩
          rintro ⟨rfl, rfl, other⟩
          rw [below] at other
          cases other
        · refine or_congr_right ⟨?_, fun both => ⟨both.1, both.2.1⟩⟩
          rintro ⟨rfl, rfl⟩
          exact ⟨rfl, rfl, below⟩

theorem mem_foldl_addEdge {edges : List (Nat × Nat)} {preds : Preds} :
    (v ∈ (edges.foldl (addEdge tree) preds).backPreds w ↔ v ∈ preds.backPreds w ∨
      ∃ src dst, (src, dst) ∈ edges ∧ tree.number src = some v ∧ tree.number dst = some w ∧
        tree.isAncestor w v = true) ∧
    (v ∈ (edges.foldl (addEdge tree) preds).nonBackPreds w ↔ v ∈ preds.nonBackPreds w ∨
      ∃ src dst, (src, dst) ∈ edges ∧ tree.number src = some v ∧ tree.number dst = some w ∧
        tree.isAncestor w v = false) := by
  induction edges generalizing preds with
  | nil => simp
  | cons edge rest ih =>
    obtain ⟨src, dst⟩ := edge
    have step : ∀ below : Bool, (∃ src' dst', (src', dst') ∈ (src, dst) :: rest ∧
        tree.number src' = some v ∧ tree.number dst' = some w ∧ tree.isAncestor w v = below) ↔
        (tree.number src = some v ∧ tree.number dst = some w ∧ tree.isAncestor w v = below) ∨
          ∃ src' dst', (src', dst') ∈ rest ∧ tree.number src' = some v ∧
            tree.number dst' = some w ∧ tree.isAncestor w v = below := by
      intro below
      constructor
      · rintro ⟨src', dst', member, known⟩
        rcases List.mem_cons.1 member with same | later
        · cases same
          exact .inl known
        · exact .inr ⟨src', dst', later, known⟩
      · rintro (known | ⟨src', dst', later, known⟩)
        · exact ⟨src, dst, List.mem_cons_self, known⟩
        · exact ⟨src', dst', List.mem_cons_of_mem _ later, known⟩
    rw [List.foldl_cons, ih.1, ih.2, mem_addEdge.1, mem_addEdge.2, step, step, or_assoc, or_assoc]
    exact ⟨Iff.rfl, Iff.rfl⟩

theorem mem_predsOf (g : Flow) (tree : Spanning) :
    (v ∈ (predsOf g tree).backPreds w ↔ ∃ src dst, dst ∈ g.succ src ∧ tree.number src = some v ∧
      tree.number dst = some w ∧ tree.isAncestor w v = true) ∧
    (v ∈ (predsOf g tree).nonBackPreds w ↔ ∃ src dst, dst ∈ g.succ src ∧
      tree.number src = some v ∧ tree.number dst = some w ∧ tree.isAncestor w v = false) := by
  rw [predsOf, mem_foldl_addEdge.1, mem_foldl_addEdge.2]
  simp only [Flow.mem_cfg, List.not_mem_nil, false_or, and_self]

/-! ## One header -/

/-- What holds of the sets of a round for `w`: the members are numbers after `w`. -/
structure Body.Sound (g : Flow) (w : Nat) (body : Body) : Prop where
  descending : body.uf.Descending
  above : body.uf.Above (w + 1)
  distinct : body.P.Nodup
  members : ∀ x ∈ body.P, w < x ∧ x < g.bbCount
  preds : ∀ x, ∀ y ∈ body.nonBackPreds x, y < g.bbCount

theorem Body.Sound.find (sound : body.Sound g w) (later : w < y) (inside : y < g.bbCount) :
    w < (body.uf.find y).1 ∧ (body.uf.find y).1 < g.bbCount := by
  have bound := UnionFind.find_le (i := y) sound.descending
  refine ⟨?_, by omega⟩
  rcases (UnionFind.find_above (i := y) sound.above).1 with same | more
  · omega
  · omega

theorem addBackPred_sound (sound : body.Sound g w) (later : w ≤ v)
    (inside : v < g.bbCount) : (addBackPred w body v).Sound g w := by
  unfold addBackPred
  split
  · next other =>
    have range := sound.find (lt_of_le_of_ne later (Ne.symm other)) inside
    refine ⟨UnionFind.find_descending sound.descending, (UnionFind.find_above sound.above).2,
      nodup_setInsert sound.distinct, fun x member => ?_, sound.preds⟩
    rcases mem_setInsert.1 member with rfl | old
    · exact range
    · exact sound.members x old
  · exact ⟨sound.descending, sound.above, sound.distinct, sound.members, sound.preds⟩

theorem startBody_sound (sound : body.Sound g w)
    (later : ∀ v ∈ backPreds, w ≤ v ∧ v < g.bbCount) : (startBody w backPreds body).Sound g w := by
  have folded : (backPreds.foldl (addBackPred w) body).Sound g w := by
    induction backPreds generalizing body with
    | nil => exact sound
    | cons v rest ih =>
      rw [List.forall_mem_cons] at later
      exact ih (addBackPred_sound sound later.1.1 later.1.2) later.2
  exact ⟨folded.descending, folded.above, folded.distinct, folded.members, folded.preds⟩

/-- The rounds of `close` that are left. -/
def Body.rounds (g : Flow) (body : Body) : Nat :=
  body.workList.length + (g.bbCount - body.P.length)

theorem Body.Sound.length_le (sound : body.Sound g w) : body.P.length ≤ g.bbCount := by
  have inside : body.P ⊆ List.range g.bbCount :=
    fun x member => List.mem_range.2 (sound.members x member).2
  exact (sound.distinct.subperm inside).length_le.trans_eq List.length_range

theorem visitPred_sound (tree : Spanning) (sound : body.Sound g w) (inside : y < g.bbCount) :
    (visitPred tree w body y).Sound g w ∧ (visitPred tree w body y).rounds g ≤ body.rounds g ∧
      (body.type ≠ .nonheader → (visitPred tree w body y).type ≠ .nonheader) := by
  have bound := (UnionFind.find_le (i := y) sound.descending).trans_lt inside
  have found : ({ body with uf := (body.uf.find y).2 } : Body).Sound g w :=
    ⟨UnionFind.find_descending sound.descending, (UnionFind.find_above sound.above).2,
      sound.distinct, sound.members, sound.preds⟩
  unfold visitPred
  dsimp only
  split
  · refine ⟨⟨found.descending, found.above, found.distinct, found.members, fun x z member => ?_⟩,
      le_refl _, fun _ => NodeType.noConfusion⟩
    dsimp only at member
    by_cases same : x = w
    · subst same
      rw [Function.update_self] at member
      rcases mem_setInsert.1 member with rfl | old
      · exact bound
      · exact sound.preds x z old
    · rw [Function.update_of_ne same] at member
      exact sound.preds x z member
  split
  · next below fresh =>
    have before : w ≤ (body.uf.find y).1 := by
      rw [Bool.not_eq_false, Spanning.isAncestor, Bool.and_eq_true, decide_eq_true_eq] at below
      exact below.1
    have grown : ({ body with
        uf := (body.uf.find y).2
        P := setInsert (body.uf.find y).1 body.P
        workList := setInsert (body.uf.find y).1 body.workList } : Body).Sound g w := by
      refine ⟨found.descending, found.above, nodup_setInsert sound.distinct, fun x member => ?_,
        sound.preds⟩
      rcases mem_setInsert.1 member with rfl | old
      · exact ⟨lt_of_le_of_ne before (Ne.symm fresh.1), bound⟩
      · exact sound.members x old
    refine ⟨grown, ?_, id⟩
    have room := grown.length_le
    have longer := length_setInsert_of_notMem fresh.2
    have work := length_setInsert_le (body.uf.find y).1 body.workList
    unfold Body.rounds
    dsimp only at room ⊢
    omega
  · exact ⟨found, le_refl _, id⟩

theorem visitPreds_sound (tree : Spanning) {preds : List Nat} (sound : body.Sound g w)
    (inside : ∀ y ∈ preds, y < g.bbCount) :
    (preds.foldl (visitPred tree w) body).Sound g w ∧
      (preds.foldl (visitPred tree w) body).rounds g ≤ body.rounds g ∧
      (body.type ≠ .nonheader → (preds.foldl (visitPred tree w) body).type ≠ .nonheader) := by
  induction preds generalizing body with
  | nil => exact ⟨sound, le_refl _, id⟩
  | cons y rest ih =>
    rw [List.forall_mem_cons] at inside
    obtain ⟨sound', fewer, kept⟩ := visitPred_sound tree sound inside.1
    obtain ⟨sound'', fewer', kept'⟩ := ih sound' inside.2
    exact ⟨sound'', fewer'.trans fewer, fun header => kept' (kept header)⟩

/-- The loop over `workList` ends. -/
theorem close_sound (tree : Spanning) (sound : body.Sound g w) (enough : body.rounds g ≤ n) :
    ∃ result, close tree w n body = some result ∧ result.Sound g w ∧
      (body.workList = [] → result = body) ∧
      (body.type ≠ .nonheader → result.type ≠ .nonheader) := by
  induction n generalizing body with
  | zero =>
    unfold close
    split
    · exact ⟨body, rfl, sound, fun _ => rfl, id⟩
    · next shape =>
      rw [Body.rounds, shape, List.length_cons] at enough
      omega
    · next absurdity _ => cases absurdity
  | succ n ih =>
    unfold close
    split
    · exact ⟨body, rfl, sound, fun _ => rfl, id⟩
    · next absurdity _ => cases absurdity
    · next m x rest same shape =>
      cases same
      have shorter : ({ body with workList := rest } : Body).Sound g w :=
        ⟨sound.descending, sound.above, sound.distinct, sound.members, sound.preds⟩
      obtain ⟨sound', fewer, kept⟩ :=
        visitPreds_sound tree shorter (sound.preds x)
      have left : ({ body with workList := rest } : Body).rounds g < body.rounds g := by
        unfold Body.rounds
        rw [shape, List.length_cons]
        dsimp only
        omega
      obtain ⟨result, known, sound'', -, kept'⟩ := ih sound' (by omega)
      refine ⟨result, known, sound'', fun nothing => ?_, fun header => kept' (kept header)⟩
      rw [nothing] at shape
      cases shape

theorem startBody_rounds (sound : (startBody w backPreds body).Sound g w) :
    (startBody w backPreds body).rounds g ≤ g.bbCount := by
  have room := sound.length_le
  have all : (startBody w backPreds body).workList = (startBody w backPreds body).P := rfl
  rw [Body.rounds, all]
  omega

theorem startBody_type (w : Nat) (backPreds : List Nat) (body : Body) (nothing : body.P = [])
    (nonheader : body.type = .nonheader) :
    ((startBody w backPreds body).type ≠ .nonheader ↔ backPreds ≠ []) ∧
      (backPreds = [] → (startBody w backPreds body).workList = []) := by
  have marked : ∀ (preds : List Nat) (body : Body), preds ≠ [] ∨ body.P ≠ [] ∨
      body.type ≠ .nonheader → (preds.foldl (addBackPred w) body).P ≠ [] ∨
        (preds.foldl (addBackPred w) body).type ≠ .nonheader := by
    intro preds
    induction preds with
    | nil => exact fun body mark => mark.resolve_left fun absurdity => absurdity rfl
    | cons v rest ih =>
      intro body _
      refine ih _ (.inr ?_)
      unfold addBackPred
      split
      · left
        exact List.ne_nil_of_mem (mem_setInsert.2 (.inl rfl))
      · exact .inr NodeType.noConfusion
  unfold startBody
  dsimp only
  constructor
  · constructor
    · rintro header rfl
      rw [List.foldl_nil, nothing, if_neg (not_not.2 rfl)] at header
      exact header nonheader
    · intro some_back
      rcases marked backPreds body (.inl some_back) with members | header
      · rw [if_pos members]
        exact NodeType.noConfusion
      · split
        · exact NodeType.noConfusion
        · exact header
  · rintro rfl
    exact nothing

theorem mergeInto_sound {members : List Nat} {uf : UnionFind} (header : Nat → Nat)
    (descending : uf.Descending) (above : uf.Above w) (later : ∀ x ∈ members, w ≤ x) :
    ∃ uf' header', mergeInto w members uf header = some (uf', header') ∧ uf'.Descending ∧
      uf'.Above w := by
  induction members generalizing uf header with
  | nil => exact ⟨uf, header, rfl, descending, above⟩
  | cons x rest ih =>
    rw [List.forall_mem_cons] at later
    obtain ⟨root, descending', above'⟩ := UnionFind.merge_into descending above later.1
    obtain ⟨uf', header', known, sound⟩ :=
      ih (Function.update header x w) descending' above' later.2
    refine ⟨uf', header', ?_, sound⟩
    rw [mergeInto]
    dsimp only
    rw [if_pos root, known]

end

section

variable {g : Flow} {tree : Spanning} {w : Nat} {backPreds : Nat → List Nat} {state : State}

/-- What holds once the numbers from `w` on are done. -/
structure State.Sound (g : Flow) (backPreds : Nat → List Nat) (w : Nat) (state : State) : Prop where
  descending : state.uf.Descending
  above : state.uf.Above w
  preds : ∀ x, ∀ y ∈ state.nonBackPreds x, y < g.bbCount
  types : ∀ i, state.type i ≠ .nonheader ↔ w ≤ i ∧ i < g.bbCount ∧ backPreds i ≠ []

theorem round_sound (tree : Spanning) (later : ∀ w, ∀ v ∈ backPreds w, w ≤ v ∧ v < g.bbCount)
    (inside : w < g.bbCount) (sound : state.Sound g backPreds (w + 1)) :
    ∃ next, round g tree backPreds state w = some next ∧ next.Sound g backPreds w := by
  have fresh : state.type w = .nonheader := by
    by_contra header
    exact absurd ((sound.types w).1 header).1 (Nat.not_succ_le_self w)
  have empty : (⟨state.uf, [], [], state.type w, state.nonBackPreds⟩ : Body).Sound g w :=
    ⟨sound.descending, sound.above, List.nodup_nil, (fun x absent => nomatch absent), sound.preds⟩
  have start := startBody_sound empty (later w)
  obtain ⟨marked, unmarked⟩ := startBody_type w (backPreds w)
    ⟨state.uf, [], [], state.type w, state.nonBackPreds⟩ rfl fresh
  have rounds := startBody_rounds start
  obtain ⟨body, known, closed, unchanged, kept⟩ :=
    close_sound tree start (rounds.trans (Nat.le_succ _))
  have lower : body.uf.Above w :=
    fun i => (closed.above i).imp id fun more => (Nat.le_succ w).trans more
  obtain ⟨uf, header, merged, descending, above⟩ := mergeInto_sound state.header
    closed.descending lower fun x member => (closed.members x member).1.le
  refine ⟨⟨uf, header, Function.update state.type w body.type, body.nonBackPreds⟩, ?_, descending,
    above, closed.preds, fun i => ?_⟩
  · rw [round, known, Option.bind_eq_bind, Option.bind_some, merged]
    rfl
  · dsimp only
    by_cases same : i = w
    · subst same
      rw [Function.update_self]
      constructor
      · intro is_header
        refine ⟨le_refl i, inside, fun nothing => is_header ?_⟩
        rw [unchanged (unmarked nothing)]
        by_contra start_header
        exact marked.1 start_header nothing
      · rintro ⟨-, -, some_back⟩
        exact kept (marked.2 some_back)
    · rw [Function.update_of_ne same, sound.types]
      refine and_congr_left fun _ => ⟨fun more => (Nat.le_succ w).trans more, fun more => ?_⟩
      exact lt_of_le_of_ne more (Ne.symm same)

theorem runDown_sound (tree : Spanning) (later : ∀ w, ∀ v ∈ backPreds w, w ≤ v ∧ v < g.bbCount)
    (inside : w ≤ g.bbCount) (sound : state.Sound g backPreds w) :
    ∃ result, runDown g tree backPreds w state = some result ∧ result.Sound g backPreds 0 := by
  induction w generalizing state with
  | zero => exact ⟨state, rfl, sound⟩
  | succ w ih =>
    obtain ⟨next, known, sound'⟩ := round_sound tree later inside sound
    obtain ⟨result, known', sound''⟩ := ih (Nat.le_of_succ_le inside) sound'
    refine ⟨result, ?_, sound''⟩
    rw [runDown, known, Option.bind_eq_bind, Option.bind_some]
    exact known'

theorem backPreds_later (spans : Spans g tree) (w : Nat) :
    ∀ v ∈ (predsOf g tree).backPreds w, w ≤ v ∧ v < g.bbCount := by
  intro v member
  obtain ⟨src, -, -, number, -, below⟩ := (mem_predsOf g tree).1.1 member
  rw [Spanning.isAncestor, Bool.and_eq_true, decide_eq_true_eq] at below
  exact ⟨below.1, spans.number_lt number⟩

theorem start_sound (spans : Spans g tree) : State.Sound g (predsOf g tree).backPreds g.bbCount
      ⟨.new g.bbCount, fun _ => 0, fun _ => .nonheader, (predsOf g tree).nonBackPreds⟩ := by
  refine ⟨fun i => le_refl i, fun i => .inl rfl, fun x y member => ?_, fun i => ?_⟩
  · obtain ⟨src, -, -, number, -⟩ := (mem_predsOf g tree).2.1 member
    exact spans.number_lt number
  · refine iff_of_false (not_not.2 rfl) fun both => ?_
    exact absurd both.2.1 (not_lt.2 both.1)

end

end LoopAnalysis

theorem Flow.loopAnalysis_returns (g : Flow) :
    ∃ result, g.loopAnalysis = some result ∧ Spans g result.tree ∧
      ∀ i, result.state.type i ≠ .nonheader ↔
        i < g.bbCount ∧ (LoopAnalysis.predsOf g result.tree).backPreds i ≠ [] := by
  obtain ⟨tree, known, spans⟩ := g.spanningTree_spans
  have later := LoopAnalysis.backPreds_later spans
  have start := LoopAnalysis.start_sound spans
  obtain ⟨state, finished, sound⟩ :=
    LoopAnalysis.runDown_sound tree later (le_refl _) start
  refine ⟨⟨tree, state, (List.range g.bbCount).foldl (LoopAnalysis.addNode tree state) {}⟩, ?_,
    spans, fun i => ?_⟩
  · rw [Flow.loopAnalysis, known, Option.bind_eq_bind, Option.bind_some]
    dsimp only
    rw [finished]
    rfl
  · rw [sound.types i]
    simp only [Nat.zero_le, true_and]

namespace LoopAnalysis

/-- The analysis ends. A block is a header exactly if a block below it in the tree jumps
to it, and among the blocks of a cycle the one that dominates the others is. -/
theorem cycles_have_headers (g : Flow) :
    ∃ result, g.loopAnalysis = some result ∧
      (∀ b, result.isHeader b = true ↔ ∃ p v w, b ∈ g.succ p ∧ result.tree.number p = some v ∧
        result.tree.number b = some w ∧ result.tree.isAncestor w v = true) ∧
      ∀ blocks, g.Cycle blocks → (∀ b ∈ blocks, g.Reachable b) →
        ∀ d ∈ blocks, (∀ b ∈ blocks, g.Dominates d b) → result.isHeader d = true := by
  obtain ⟨result, known, spans, types⟩ := g.loopAnalysis_returns
  have headers : ∀ b, result.isHeader b = true ↔ ∃ p v w, b ∈ g.succ p ∧
      result.tree.number p = some v ∧ result.tree.number b = some w ∧
        result.tree.isAncestor w v = true := by
    intro b
    unfold isHeader
    cases number : result.tree.number b with
    | none => simp
    | some w =>
      dsimp only
      rw [decide_eq_true_eq, types w, and_iff_right_of_imp]
      · constructor
        · intro some_back
          obtain ⟨v, member⟩ := List.exists_mem_of_ne_nil _ some_back
          obtain ⟨src, dst, jump, number', same, below⟩ := (mem_predsOf g result.tree).1.1 member
          rw [spans.numbers] at same
          obtain rfl : dst = b :=
            Option.some.inj (same.symm.trans ((spans.numbers b w).1 number))
          exact ⟨src, v, w, jump, number', rfl, below⟩
        · rintro ⟨p, v, w', jump, number', same, below⟩
          cases same
          exact List.ne_nil_of_mem ((mem_predsOf g result.tree).1.2
            ⟨p, b, jump, number', number, below⟩)
      · intro _
        exact (List.getElem?_eq_some_iff.1 ((spans.numbers b w).1 number)).1.trans_le spans.bounded
  refine ⟨result, known, headers, fun blocks cycle reachable d member dominates => ?_⟩
  obtain ⟨p, inside, jump⟩ := cycle.pred member
  obtain ⟨v, number⟩ := spans.reached p (reachable p inside)
  obtain ⟨w, number', below⟩ := spans.below p v number d (dominates p inside)
  exact (headers d).2 ⟨p, v, w, jump, number, number', below⟩

def twoBlockLoop : Flow := ⟨[[1], [2], [1, 3], []], by decide, by decide, by decide⟩

theorem cycles_have_headers_twoBlockLoop :
    ∃ result, twoBlockLoop.loopAnalysis = some result ∧ result.isHeader 1 = true := by
  obtain ⟨result, known, -, detected⟩ := cycles_have_headers twoBlockLoop
  have first : twoBlockLoop.Path [1, 0] := .jump .entry (by decide)
  have entry_only : ∀ b rest, twoBlockLoop.Path (b :: rest) → b = 2 → 1 ∈ rest := by
    rintro b rest path rfl
    cases path with
    | @jump p _ before _ jump =>
      have source : p = 1 := by
        have small := Flow.src_lt jump
        have checked : ∀ p < 4, 2 ∈ twoBlockLoop.succ p → p = 1 := by decide
        exact checked p small jump
      rw [source]
      exact List.mem_cons_self
  refine ⟨result, known, detected [1, 2] ⟨by decide, by decide⟩ ?_ 1 (by decide) ?_⟩
  · intro b member
    rcases List.mem_cons.1 member with rfl | later
    · exact ⟨_, first⟩
    · obtain rfl := List.mem_singleton.1 later
      exact ⟨_, .jump first (by decide)⟩
  · intro b member
    rcases List.mem_cons.1 member with rfl | later
    · exact .refl _ _
    · obtain rfl := List.mem_singleton.1 later
      exact fun rest path => List.mem_cons_of_mem _ (entry_only 2 rest path rfl)

def siblings : Flow := ⟨[[1, 2], [2], [1], []], by decide, by decide, by decide⟩

/-- They are both pushed by the entry, so neither is below the other. -/
theorem cycle_without_header :
    ¬∀ (g : Flow) (result : LoopAnalysis), g.loopAnalysis = some result → ∀ blocks,
      g.Cycle blocks → (∀ b ∈ blocks, g.Reachable b) →
        ∃ b ∈ blocks, result.isHeader b = true := by
  intro claim
  obtain ⟨result, known, -⟩ := siblings.loopAnalysis_returns
  have reachable : ∀ b ∈ [1, 2], siblings.Reachable b := by
    intro b member
    have jump : ∀ b ∈ [1, 2], b ∈ siblings.succ 0 := by decide
    exact ⟨_, .jump .entry (jump b member)⟩
  obtain ⟨b, member, header⟩ :=
    claim siblings result known [1, 2] ⟨by decide, by decide⟩ reachable
  have classified : siblings.loopAnalysis.map (fun result => [1, 2].map result.isHeader) =
      some [false, false] := by decide
  rw [known, Option.map_some, Option.some.injEq] at classified
  have none_there : ∀ c ∈ [1, 2].map result.isHeader, c = false := by
    rw [classified]
    decide
  rw [none_there _ (List.mem_map_of_mem member)] at header
  cases header

end LoopAnalysis

end AliveNext.IR
