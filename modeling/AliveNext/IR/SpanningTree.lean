import AliveNext.IR.Flow

/-!
# The spanning tree of the loop analysis

`LoopAnalysis::getDepthFirstSpanningTree` of `ir/function.cpp`. A block is marked when
it is pushed, before it is visited. While a block is open, that is visited and still on
the worklist, all blocks that are visited get numbers below it.
-/

namespace AliveNext.IR

/-- The members that the traversal fills in. -/
structure Spanning where
  node : List Nat := []
  number : Nat → Option Nat := fun _ => none
  last : Nat → Nat := fun _ => 2 ^ 32 - 1
  visited : List Nat := []

namespace Spanning

def pushTargets (visited : List Nat) (worklist : List (Nat × Bool)) :
    List Nat → List Nat × List (Nat × Bool)
  | [] => (visited, worklist)
  | tgt :: rest =>
    if tgt ∈ visited then pushTargets visited worklist rest
    else pushTargets (tgt :: visited) ((tgt, false) :: worklist) rest

def visit (self : Spanning) (bb : Nat) (visited : List Nat) : Spanning where
  node := self.node ++ [bb]
  number := Function.update self.number bb (some self.node.length)
  last := self.last
  visited := visited

def close (self : Spanning) (bb : Nat) : Spanning :=
  { self with
    last := Function.update self.last ((self.number bb).getD 0) (self.node.length - 1) }

/-- The loop over the worklist, with a number of rounds at most. -/
def explore (g : Flow) : Nat → List (Nat × Bool) → Spanning → Option Spanning
  | _, [], self => some self
  | 0, _ :: _, _ => none
  | n + 1, (bb, true) :: rest, self => explore g n rest (self.close bb)
  | n + 1, (bb, false) :: rest, self =>
    let (visited, worklist) := pushTargets self.visited ((bb, true) :: rest) (g.succ bb)
    explore g n worklist (self.visit bb visited)

/-- Is the block with number `v` below the one with number `w`? -/
def isAncestor (self : Spanning) (w v : Nat) : Bool := w ≤ v && v ≤ self.last w

end Spanning

/-- `getDepthFirstSpanningTree`. Each block is taken from the worklist twice. -/
def Flow.getDepthFirstSpanningTree (g : Flow) : Option Spanning :=
  Spanning.explore g (2 * g.bbCount) [(0, false)] {}

namespace Spanning

variable {g : Flow} {tree : Spanning} {bb b d p i j tgt : Nat} {targets visited : List Nat}
  {worklist rest : List (Nat × Bool)}

def openBlocks (worklist : List (Nat × Bool)) : List Nat :=
  (worklist.filter fun entry => entry.2).map Prod.fst

def Stems (g : Flow) : List (Nat × Bool) → Prop
  | [] => True
  | entry :: below => g.Path (entry.1 :: openBlocks below) ∧ Stems g below

theorem openBlocks_open : openBlocks ((bb, true) :: rest) = bb :: openBlocks rest := rfl

theorem openBlocks_waiting : openBlocks ((bb, false) :: rest) = openBlocks rest := rfl

structure Pushes (g : Flow) (visited : List Nat) (worklist : List (Nat × Bool))
    (targets visited' : List Nat) (worklist' : List (Nat × Bool)) : Prop where
  shape : ∃ fresh : List Nat, worklist' = fresh.map (·, false) ++ worklist ∧
    visited' = fresh ++ visited ∧ fresh.Nodup ∧ (∀ t ∈ fresh, t ∈ targets ∧ t ∉ visited)
  all : ∀ t ∈ targets, t ∈ visited'

theorem pushTargets_pushes (g : Flow) (visited : List Nat) (worklist : List (Nat × Bool))
    (targets : List Nat) :
    Pushes g visited worklist targets (pushTargets visited worklist targets).1
      (pushTargets visited worklist targets).2 := by
  induction targets generalizing visited worklist with
  | nil => exact ⟨⟨[], rfl, rfl, List.nodup_nil, fun t absent => nomatch absent⟩,
      fun t absent => nomatch absent⟩
  | cons tgt rest ih =>
    rw [pushTargets]
    split
    · next known =>
      obtain ⟨⟨fresh, stack, marks, distinct, news⟩, all⟩ := ih visited worklist
      refine ⟨⟨fresh, stack, marks, distinct, fun t member => ?_⟩, ?_⟩
      · exact ⟨List.mem_cons_of_mem tgt (news t member).1, (news t member).2⟩
      · rw [List.forall_mem_cons]
        refine ⟨?_, all⟩
        rw [marks]
        exact List.mem_append_right fresh known
    · next unknown =>
      obtain ⟨⟨fresh, stack, marks, distinct, news⟩, all⟩ :=
        ih (tgt :: visited) ((tgt, false) :: worklist)
      refine ⟨⟨fresh ++ [tgt], ?_, ?_, ?_, fun t member => ?_⟩, ?_⟩
      · rw [stack, List.map_append, List.append_assoc]
        rfl
      · rw [marks, List.append_assoc]
        rfl
      · rw [List.nodup_append_comm]
        refine List.nodup_cons.2 ⟨fun member => ?_, distinct⟩
        exact (news tgt member).2 List.mem_cons_self
      · rcases List.mem_append.1 member with old | same
        · have new := news t old
          exact ⟨List.mem_cons_of_mem tgt new.1,
            fun known => new.2 (List.mem_cons_of_mem tgt known)⟩
        · obtain rfl := List.mem_singleton.1 same
          exact ⟨List.mem_cons_self, unknown⟩
      · rw [List.forall_mem_cons]
        refine ⟨?_, all⟩
        rw [marks]
        exact List.mem_append_right fresh List.mem_cons_self

def waiting (worklist : List (Nat × Bool)) : List Nat :=
  (worklist.filter fun entry => !entry.2).map Prod.fst

theorem waiting_open : waiting ((bb, true) :: rest) = waiting rest := rfl

theorem waiting_waiting : waiting ((bb, false) :: rest) = bb :: waiting rest := rfl

theorem waiting_fresh (fresh : List Nat) :
    waiting (fresh.map (·, false) ++ worklist) = fresh ++ waiting worklist := by
  induction fresh with
  | nil => rfl
  | cons t fresh ih =>
    rw [List.map_cons, List.cons_append, waiting_waiting, ih, List.cons_append]

theorem openBlocks_fresh (fresh : List Nat) :
    openBlocks (fresh.map (·, false) ++ worklist) = openBlocks worklist := by
  induction fresh with
  | nil => rfl
  | cons t fresh ih =>
    rw [List.map_cons, List.cons_append, openBlocks_waiting, ih]

theorem stems_fresh
    {fresh : List Nat} (stems : Stems g ((bb, true) :: rest)) (jumps : ∀ t ∈ fresh, t ∈ g.succ bb) :
    Stems g (fresh.map (·, false) ++ (bb, true) :: rest) := by
  induction fresh with
  | nil => exact stems
  | cons t fresh ih =>
    rw [List.forall_mem_cons] at jumps
    refine ⟨?_, ih jumps.2⟩
    have path : g.Path (t :: bb :: openBlocks rest) := .jump stems.1 jumps.1
    rw [← openBlocks_open, ← openBlocks_fresh fresh] at path
    exact path

def StepDown (g : Flow) (tree : Spanning) (x y : Nat) : Prop :=
  y ∈ g.succ x ∧ ∃ i j, tree.number x = some i ∧ tree.number y = some j ∧ i < j

def Down (g : Flow) (tree : Spanning) : Nat → Nat → Prop :=
  Relation.ReflTransGen (StepDown g tree)

def After (tree : Spanning) (y x : Nat) : Prop :=
  ∃ i j, tree.number x = some i ∧ tree.number y = some j ∧ i < j

theorem Down.mono {tree' : Spanning} {x y : Nat} (down : Down g tree x y)
    (more : ∀ b i, tree.number b = some i → tree'.number b = some i) : Down g tree' x y := by
  refine Relation.ReflTransGen.mono (fun a b step => ?_) _ _ down
  obtain ⟨jump, i, j, first, second, less⟩ := step
  exact ⟨jump, i, j, more a i first, more b j second, less⟩

theorem down_of_path {x : Nat} {blocks : List Nat} (path : g.Path (x :: blocks))
    (ordered : (x :: blocks).Pairwise (After tree))
    (member : d ∈ x :: blocks) : Down g tree d x := by
  induction blocks generalizing x with
  | nil =>
    obtain rfl := List.mem_singleton.1 member
    exact .refl
  | cons y blocks ih =>
    rcases List.mem_cons.1 member with rfl | inside
    · exact .refl
    · cases path with
      | jump path jump =>
        rw [List.pairwise_cons] at ordered
        exact (ih path ordered.2 inside).tail ⟨jump, ordered.1 y List.mem_cons_self⟩

/-- What holds before each round. -/
structure Good (g : Flow) (worklist : List (Nat × Bool)) (tree : Spanning) : Prop where
  stems : Stems g worklist
  numbers : ∀ b i, tree.number b = some i ↔ tree.node[i]? = some b
  distinct : (tree.node ++ waiting worklist).Nodup
  bounded : ∀ b ∈ tree.node ++ waiting worklist, b < g.bbCount
  marks : ∀ b, b ∈ tree.visited ∨ b = 0 ↔ b ∈ tree.node ++ waiting worklist
  opened : ∀ b ∈ openBlocks worklist, b ∈ tree.node
  targets : ∀ b ∈ tree.node, ∀ t ∈ g.succ b, t ∈ tree.visited
  below : ∀ p i, tree.number p = some i → ∀ d, g.Dominates d p →
    ∃ j, tree.number d = some j ∧ j ≤ i ∧ (d ∈ openBlocks worklist ∨ i ≤ tree.last j)
  reachable : ∀ b ∈ tree.node, g.Reachable b
  ordered : (openBlocks worklist).Pairwise (After tree)
  ended : ∀ d j, tree.number d = some j → d ∉ openBlocks worklist → tree.last j < tree.node.length
  down : ∀ p i d j, tree.number p = some i → tree.number d = some j → j ≤ i →
    (d ∈ openBlocks worklist ∨ i ≤ tree.last j) → Down g tree d p

theorem last_close : (tree.close bb).last =
    Function.update tree.last ((tree.number bb).getD 0) (tree.node.length - 1) := rfl

theorem good_start (g : Flow) : Good g [(0, false)] {} where
  stems := ⟨.entry, trivial⟩
  numbers b i := by simp
  distinct := by simp [waiting]
  bounded := by simpa [waiting] using g.bbCount_pos
  marks b := by simp [waiting]
  opened b absent := nomatch absent
  targets b absent := nomatch absent
  below p i absent := nomatch absent
  reachable b absent := nomatch absent
  ordered := List.Pairwise.nil
  ended d j absent := nomatch absent
  down p i d j absent := nomatch absent

namespace Good

theorem number_lt
    (good : Good g worklist tree) (known : tree.number b = some i) : i < tree.node.length :=
  (List.getElem?_eq_some_iff.1 ((good.numbers b i).1 known)).1

theorem mem_node (good : Good g worklist tree) : b ∈ tree.node ↔ ∃ i, tree.number b = some i := by
  rw [List.mem_iff_getElem?]
  exact exists_congr fun i => (good.numbers b i).symm

theorem number_inj (good : Good g worklist tree) (first : tree.number b = some i)
    (second : tree.number d = some i) : b = d := by
  rw [good.numbers] at first second
  rw [first] at second
  exact Option.some.inj second

theorem close (good : Good g ((bb, true) :: rest) tree) : Good g rest (tree.close bb) where
  stems := good.stems.2
  numbers := good.numbers
  distinct := good.distinct
  bounded := good.bounded
  marks := good.marks
  opened b member := good.opened b (List.mem_cons_of_mem bb member)
  targets := good.targets
  below p i known d dominates := by
    obtain ⟨j, known', before, still⟩ := good.below p i known d dominates
    refine ⟨j, known', before, ?_⟩
    by_cases this_block : d = bb
    · subst this_block
      right
      have inside := good.number_lt known
      rw [last_close, known', Option.getD_some, Function.update_self]
      omega
    · obtain ⟨k, number⟩ := good.mem_node.1 (good.opened bb List.mem_cons_self)
      rw [last_close, number, Option.getD_some, Function.update_of_ne]
      · rw [openBlocks_open, List.mem_cons, or_iff_right this_block] at still
        exact still
      · rintro rfl
        exact this_block (good.number_inj known' number)
  reachable := good.reachable
  ordered := (List.pairwise_cons.1 good.ordered).2
  ended d j known closed := by
    obtain ⟨k, number⟩ := good.mem_node.1 (good.opened bb List.mem_cons_self)
    have some_node := good.number_lt number
    rw [last_close, number, Option.getD_some]
    by_cases same : j = k
    · rw [same, Function.update_self]
      exact Nat.sub_lt (Nat.zero_lt_of_lt some_node) Nat.one_pos
    · rw [Function.update_of_ne same]
      refine good.ended d j known fun member => ?_
      rcases List.mem_cons.1 member with rfl | inside
      · exact same (Option.some.inj (known.symm.trans number))
      · exact closed inside
  down p i d j known known' before still := by
    refine good.down p i d j known known' before ?_
    by_cases this_block : d = bb
    · subst this_block
      exact .inl List.mem_cons_self
    · obtain ⟨k, number⟩ := good.mem_node.1 (good.opened bb List.mem_cons_self)
      rw [last_close, number, Option.getD_some, Function.update_of_ne] at still
      · exact still.imp_left (List.mem_cons_of_mem bb)
      · rintro rfl
        exact this_block (good.number_inj known' number)

theorem visit
    {marks : List Nat} {worklist' : List (Nat × Bool)} (good : Good g ((bb, false) :: rest) tree)
    (pushes : Pushes g tree.visited ((bb, true) :: rest) (g.succ bb) marks worklist') :
    Good g worklist' (tree.visit bb marks) := by
  obtain ⟨⟨fresh, rfl, rfl, fresh_distinct, news⟩, all⟩ := pushes
  have stem : g.Path (bb :: openBlocks rest) := good.stems.1
  have new_block : bb ∉ tree.node := by
    intro member
    have distinct := good.distinct
    rw [waiting_waiting, List.nodup_append] at distinct
    exact distinct.2.2 bb member bb List.mem_cons_self rfl
  have unknown : ∀ i, tree.number bb ≠ some i := by
    intro i known
    exact new_block (good.mem_node.2 ⟨i, known⟩)
  have order : (tree.node ++ [bb] ++ (fresh ++ waiting rest)).Perm
      (fresh ++ (tree.node ++ bb :: waiting rest)) := by
    rw [List.append_assoc, List.singleton_append]
    have moved : (bb :: (fresh ++ waiting rest)).Perm (fresh ++ bb :: waiting rest) :=
      List.perm_middle.symm
    refine (moved.append_left tree.node).trans ?_
    rw [← List.append_assoc, ← List.append_assoc]
    exact List.perm_append_comm.append_right _
  have own : (tree.visit bb (fresh ++ tree.visited)).number bb = some tree.node.length :=
    Function.update_self ..
  have others : ∀ b, b ≠ bb → (tree.visit bb (fresh ++ tree.visited)).number b = tree.number b :=
    fun b other => Function.update_of_ne other ..
  have kept : ∀ b i, tree.number b = some i →
      (tree.visit bb (fresh ++ tree.visited)).number b = some i := by
    intro b i known
    rw [others, known]
    rintro rfl
    exact unknown i known
  have ordered : (bb :: openBlocks rest).Pairwise
      (After (tree.visit bb (fresh ++ tree.visited))) := by
    rw [List.pairwise_cons]
    constructor
    · intro x member
      obtain ⟨i, number⟩ := good.mem_node.1 (good.opened x member)
      exact ⟨i, _, kept x i number, own, good.number_lt number⟩
    · refine good.ordered.imp fun after => ?_
      obtain ⟨i, j, first, second, less⟩ := after
      exact ⟨i, j, kept _ i first, kept _ j second, less⟩
  refine ⟨?_, fun b i => ?_, ?_, ?_, fun b => ?_, ?_, ?_, ?_, ?_, ?_, ?_, ?_⟩
  · exact stems_fresh ⟨stem, good.stems.2⟩ fun t member => (news t member).1
  · rw [Spanning.visit]
    dsimp only
    by_cases this_block : b = bb
    · subst this_block
      rw [Function.update_self, Option.some.injEq]
      constructor
      · rintro rfl
        exact List.getElem?_concat_length
      · intro place
        by_contra different
        by_cases inside : i < tree.node.length
        · rw [List.getElem?_append_left inside] at place
          exact new_block (List.mem_of_getElem? place)
        · have bound := (List.getElem?_eq_some_iff.1 place).1
          rw [List.length_append, List.length_singleton] at bound
          omega
    · rw [Function.update_of_ne this_block, good.numbers]
      by_cases inside : i < tree.node.length
      · rw [List.getElem?_append_left inside]
      · rw [List.getElem?_eq_none_iff.2 (not_lt.1 inside),
          List.getElem?_append_right (not_lt.1 inside)]
        simp only [reduceCtorEq, false_iff]
        intro place
        exact this_block (List.mem_singleton.1 (List.mem_of_getElem? place))
  · rw [waiting_fresh, waiting_open, Spanning.visit, order.nodup_iff, List.nodup_append]
    refine ⟨fresh_distinct, good.distinct, fun t member u inside same => ?_⟩
    subst same
    rcases (good.marks t).2 inside with known | entry
    · exact (news t member).2 known
    · exact Flow.succ_ne_entry (news t member).1 entry
  · intro b member
    rw [waiting_fresh, waiting_open, Spanning.visit, order.mem_iff, List.mem_append] at member
    rcases member with new | old
    · exact Flow.succ_lt (news b new).1
    · exact good.bounded b old
  · rw [waiting_fresh, waiting_open, Spanning.visit, order.mem_iff, List.mem_append,
      List.mem_append, or_assoc, good.marks b, waiting_waiting]
  · intro b member
    rw [openBlocks_fresh, openBlocks_open] at member
    rcases List.mem_cons.1 member with rfl | inside
    · exact List.mem_append_right _ (List.mem_singleton_self b)
    · exact List.mem_append_left _ (good.opened b inside)
  · intro b member t jump
    rcases List.mem_append.1 member with old | same
    · exact List.mem_append_right fresh (good.targets b old t jump)
    · obtain rfl := List.mem_singleton.1 same
      exact all t jump
  · intro p i known d dominates
    rw [openBlocks_fresh, openBlocks_open]
    rw [Spanning.visit] at known ⊢
    dsimp only at known ⊢
    by_cases this_block : p = bb
    · subst this_block
      rw [Function.update_self, Option.some.injEq] at known
      subst known
      have on_stem := dominates _ stem
      rcases List.mem_cons.1 on_stem with rfl | above
      · exact ⟨_, Function.update_self .., le_refl _, .inl List.mem_cons_self⟩
      · obtain ⟨j, number⟩ := good.mem_node.1 (good.opened d above)
        refine ⟨j, ?_, (good.number_lt number).le, .inl (List.mem_cons_of_mem _ above)⟩
        rw [Function.update_of_ne, number]
        rintro rfl
        exact unknown j number
    · rw [Function.update_of_ne this_block] at known
      obtain ⟨j, number, before, still⟩ := good.below p i known d dominates
      refine ⟨j, ?_, before, still.imp_left (List.mem_cons_of_mem bb)⟩
      rw [Function.update_of_ne, number]
      rintro rfl
      exact unknown j number
  · intro b member
    rcases List.mem_append.1 member with old | same
    · exact good.reachable b old
    · obtain rfl := List.mem_singleton.1 same
      exact ⟨_, stem⟩
  · rw [openBlocks_fresh, openBlocks_open]
    exact ordered
  · intro d j known closed
    rw [openBlocks_fresh, openBlocks_open, List.mem_cons, not_or] at closed
    rw [others d closed.1] at known
    have before := good.ended d j known closed.2
    rw [Spanning.visit, List.length_append]
    exact Nat.lt_add_right 1 before
  · intro p i d j known known' before still
    rw [openBlocks_fresh, openBlocks_open] at still
    by_cases new_target : p = bb
    · subst new_target
      rw [own, Option.some.injEq] at known
      subst known
      by_cases on_stem : d ∈ p :: openBlocks rest
      · exact down_of_path stem ordered on_stem
      · have closed := fun member => on_stem (List.mem_cons_of_mem p member)
        rw [others d fun same => on_stem (same ▸ List.mem_cons_self)] at known'
        have absurdity := good.ended d j known' closed
        exact absurd (still.resolve_left on_stem) (not_le.2 absurdity)
    · rw [others p new_target] at known
      by_cases new_source : d = bb
      · subst new_source
        rw [own, Option.some.injEq] at known'
        subst known'
        exact absurd (good.number_lt known) (not_lt.2 before)
      · rw [others d new_source] at known'
        rw [List.mem_cons, or_iff_right new_source] at still
        exact (good.down p i d j known known' before still).mono kept

end Good

/-- The rounds that are left: two for each block that was not seen, one for each that is
open. -/
def rounds (g : Flow) (worklist : List (Nat × Bool)) (tree : Spanning) : Nat :=
  (openBlocks worklist).length + 2 * (waiting worklist).length +
    2 * (g.bbCount - (tree.node ++ waiting worklist).length)

theorem Good.seen_le (good : Good g worklist tree) :
    (tree.node ++ waiting worklist).length ≤ g.bbCount := by
  have inside : tree.node ++ waiting worklist ⊆ List.range g.bbCount :=
    fun b member => List.mem_range.2 (good.bounded b member)
  exact (good.distinct.subperm inside).length_le.trans_eq List.length_range

theorem explore_good {n : Nat} (good : Good g worklist tree) (enough : rounds g worklist tree ≤ n) :
    ∃ result, explore g n worklist tree = some result ∧ Good g [] result := by
  induction n generalizing worklist tree with
  | zero =>
    cases worklist with
    | nil => exact ⟨tree, rfl, good⟩
    | cons entry rest =>
      obtain ⟨bb, flag⟩ := entry
      rw [rounds] at enough
      cases flag with
      | true => rw [openBlocks_open, List.length_cons] at enough; omega
      | false => rw [waiting_waiting, List.length_cons] at enough; omega
  | succ n ih =>
    match worklist, good, enough with
    | [], good, _ => exact ⟨tree, rfl, good⟩
    | (bb, true) :: rest, good, enough =>
      rw [explore]
      apply ih good.close
      rw [rounds, openBlocks_open, waiting_open, List.length_cons] at enough
      have same : (tree.close bb).node = tree.node := rfl
      rw [rounds, same]
      omega
    | (bb, false) :: rest, good, enough =>
      have pushes := pushTargets_pushes g tree.visited ((bb, true) :: rest) (g.succ bb)
      rw [explore]
      generalize pushTargets tree.visited ((bb, true) :: rest) (g.succ bb) = pushed at pushes ⊢
      obtain ⟨marks, worklist'⟩ := pushed
      have next := good.visit pushes
      have room := next.seen_le
      refine ih next ?_
      obtain ⟨⟨fresh, rfl, rfl, -, -⟩, -⟩ := pushes
      rw [rounds, openBlocks_waiting, waiting_waiting, List.length_append, List.length_cons]
        at enough
      rw [waiting_fresh, waiting_open, List.length_append, List.length_append, Spanning.visit,
        List.length_append, List.length_singleton] at room
      rw [rounds, openBlocks_fresh, waiting_fresh, openBlocks_open, waiting_open,
        List.length_cons, List.length_append, List.length_append, Spanning.visit,
        List.length_append, List.length_singleton, List.length_append]
      omega

end Spanning

structure Spans (g : Flow) (tree : Spanning) : Prop where
  numbers : ∀ b i, tree.number b = some i ↔ tree.node[i]? = some b
  bounded : tree.node.length ≤ g.bbCount
  reached : ∀ b, g.Reachable b → ∃ i, tree.number b = some i
  below : ∀ p i, tree.number p = some i → ∀ d, g.Dominates d p →
    ∃ j, tree.number d = some j ∧ tree.isAncestor j i = true
  reachable : ∀ b i, tree.number b = some i → g.Reachable b
  down : ∀ p i d j, tree.number p = some i → tree.number d = some j →
    tree.isAncestor j i = true → Spanning.Down g tree d p

theorem Spans.number_lt {g : Flow} {tree : Spanning} {b i : Nat} (spans : Spans g tree)
    (number : tree.number b = some i) : i < g.bbCount :=
  (List.getElem?_eq_some_iff.1 ((spans.numbers b i).1 number)).1.trans_le spans.bounded

/-- The traversal ends. Every block that can be reached gets a number, and it is below
the blocks that dominate it. What is below a block is reached from it. -/
theorem Flow.spanningTree_spans (g : Flow) :
    ∃ tree, g.getDepthFirstSpanningTree = some tree ∧ Spans g tree := by
  have start := Spanning.good_start g
  have enough : Spanning.rounds g [(0, false)] {} ≤ 2 * g.bbCount := by
    have some_block := g.bbCount_pos
    rw [Spanning.rounds, Spanning.openBlocks_waiting, Spanning.waiting_waiting]
    simp only [Spanning.openBlocks, Spanning.waiting, List.filter_nil, List.map_nil,
      List.nil_append, List.length_nil, List.length_singleton]
    omega
  obtain ⟨tree, known, good⟩ := Spanning.explore_good start enough
  refine ⟨tree, known, good.numbers, ?_, fun b reachable => ?_, fun p i number d dominates => ?_,
    fun b i number => good.reachable b (good.mem_node.2 ⟨i, number⟩),
    fun p i d j number number' ancestor => ?_⟩
  · have bound := good.seen_le
    rw [List.length_append] at bound
    omega
  · rw [← good.mem_node]
    have marked : ∀ c, c ∈ tree.visited ∨ c = 0 → c ∈ tree.node := by
      intro c mark
      have member := (good.marks c).1 mark
      rw [show Spanning.waiting [] = [] from rfl, List.append_nil] at member
      exact member
    refine reachable.rec_on (marked 0 (.inr rfl)) fun p t member jump => ?_
    exact marked t (.inl (good.targets p member t jump))
  · obtain ⟨j, number', before, still⟩ := good.below p i number d dominates
    refine ⟨j, number', ?_⟩
    rcases still with absurdity | after
    · exact absurd absurdity List.not_mem_nil
    · rw [Spanning.isAncestor, Bool.and_eq_true, decide_eq_true_eq, decide_eq_true_eq]
      exact ⟨before, after⟩
  · rw [Spanning.isAncestor, Bool.and_eq_true, decide_eq_true_eq, decide_eq_true_eq] at ancestor
    exact good.down p i d j number number' ancestor.1 (.inr ancestor.2)

end AliveNext.IR
