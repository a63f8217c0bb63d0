import AliveNext.IR.Flow
import AliveNext.Lib.PostOrder

/-!
# The order of the blocks

`llvm2alive_::run` numbers the blocks, sorts them with `top_sort` and translates
them in this order (`llvm_util/llvm2alive.cpp`, `util/sort.cpp`).
-/

namespace AliveNext.LLVM.Order

open AliveNext.IR (Flow)
open AliveNext.Lib

/-- `top_sort`: the nodes but the first one are the roots of the search, then the first one. -/
def topSort (edges : List (List Nat)) : List Nat :=
  let visit := Search.visit (fun v => edges[v]?.getD []) (edges.length + 1)
  let others := (List.range' 1 (edges.length - 1)).foldl visit ⟨[], []⟩
  let all := if edges.isEmpty then others else visit others 0
  all.sorted.reverse

section

variable {edges : List (List Nat)} {v c : Nat}

def targets (edges : List (List Nat)) (v : Nat) : List Nat := edges[v]?.getD []

theorem targets_lt (inside : ∀ ts ∈ edges, ∀ t ∈ ts, t < edges.length)
    (edge : c ∈ targets edges v) : v < edges.length ∧ c < edges.length := by
  unfold targets at edge
  cases found : edges[v]? with
  | none =>
    rw [found] at edge
    exact absurd edge List.not_mem_nil
  | some ts =>
    rw [found] at edge
    obtain ⟨short, rfl⟩ := List.getElem?_eq_some_iff.1 found
    exact ⟨short, inside _ (List.getElem_mem short) c edge⟩

theorem targets_in_range (inside : ∀ ts ∈ edges, ∀ t ∈ ts, t < edges.length) :
    ∀ v ∈ List.range edges.length, ∀ c ∈ targets edges v, c ∈ List.range edges.length :=
  fun _ _ _ edge => List.mem_range.2 (targets_lt inside edge).2

theorem unmarked_range (n : Nat) (marked : List Nat) : unmarked (List.range n) marked < n + 1 := by
  refine Nat.lt_succ_of_le ((List.length_filter_le _ _).trans ?_)
  rw [List.length_range]

theorem topSort_searches
    (inside : ∀ ts ∈ edges, ∀ t ∈ ts, t < edges.length) (nonempty : 0 < edges.length) :
    ∃ (s t : Search Nat) (others first : List Nat),
      Visited (targets edges) (List.range' 1 (edges.length - 1)) ⟨[], []⟩ s others ∧
      Visited (targets edges) [0] s t first ∧
      SuccessorsFirst (targets edges) ⟨[], []⟩ (others ++ first) ∧
      topSort edges = (others ++ first).reverse := by
  have single := visit_visited (targets_in_range inside) (edges.length + 1)
  obtain ⟨others, visited, order⟩ := foldl_visited single (List.range' 1 (edges.length - 1))
    ⟨[], []⟩ (fun v member => List.mem_range.2 (by
      rw [List.mem_range'_1] at member
      omega)) (unmarked_range _ _)
  obtain ⟨first, visited', order'⟩ := single _ 0 (List.mem_range.2 nonempty) (unmarked_range _ _)
  refine ⟨_, _, others, first, visited, visited', order.append visited order', ?_⟩
  have some : edges.isEmpty = false := List.isEmpty_eq_false_iff.2 (List.length_pos_iff.1 nonempty)
  have sorted := visited'.sorted
  rw [visited.sorted, List.nil_append] at sorted
  rw [topSort, some]
  exact congrArg List.reverse sorted

theorem transGen_of_walk {path : List Nat} {x y : Nat} (edge : x ∈ targets edges y)
    (walk : Walk (targets edges) x path v) :
    Relation.TransGen (fun a b => b ∈ targets edges a) y v := by
  induction walk generalizing y with
  | here x => exact .single edge
  | step next _ ih => exact .head edge (ih next)

/-- The sort is a permutation of the nodes. In an acyclic graph every edge goes forward, and
a first node without incoming edges comes first. -/
theorem topSort_correct (inside : ∀ ts ∈ edges, ∀ t ∈ ts, t < edges.length) :
    (topSort edges).Perm (List.range edges.length) ∧
    ((∀ v, ¬ Relation.TransGen (fun a b => b ∈ targets edges a) v v) →
      ∀ v c, c ∈ targets edges v → (topSort edges).idxOf v < (topSort edges).idxOf c) ∧
    (edges ≠ [] → (∀ ts ∈ edges, 0 ∉ ts) → (topSort edges).head? = some 0) := by
  rcases edges.eq_nil_or_concat with rfl | ⟨_, _, shape⟩
  · refine ⟨.refl [], fun _ v c edge => ?_, fun nonempty => absurd rfl nonempty⟩
    exact absurd (targets_lt inside edge).1 (Nat.not_lt_zero v)
  have nonempty : 0 < edges.length := by
    rw [shape, List.length_concat]
    omega
  obtain ⟨s, t, others, first, visited, visited', order, sorted⟩ :=
    topSort_searches inside nonempty
  have whole := visited.append visited'
  have roots : ∀ v, v ∈ List.range' 1 (edges.length - 1) ++ [0] ↔ v < edges.length := by
    intro v
    rw [List.mem_append, List.mem_range'_1, List.mem_singleton]
    omega
  have placed : ∀ v, v ∈ others ++ first ↔ v < edges.length := by
    intro v
    constructor
    · intro member
      obtain ⟨before, later, same⟩ := List.append_of_mem member
      obtain ⟨r, root, path, walk, -⟩ := whole.walks before v later same
      rcases walk.end_cases with rfl | ⟨x, edge⟩
      · exact (roots v).1 root
      · exact (targets_lt inside edge).2
    · intro node
      have marked := whole.rooted v ((roots v).2 node)
      exact ((whole.marked v).1 marked).resolve_left List.not_mem_nil
  have nodup := whole.nodup
  refine ⟨?_, fun acyclic v c edge => ?_, fun _ noEdge => ?_⟩
  · rw [sorted]
    refine (List.reverse_perm _).trans ((List.perm_ext_iff_of_nodup nodup
      List.nodup_range).2 fun v => ?_)
    rw [placed, List.mem_range]
  · obtain ⟨before, later, same⟩ :=
      List.append_of_mem ((placed v).2 (targets_lt inside edge).1)
    have earlier : c ∈ before := by
      rcases order before v later same c edge with earlier | marked | ⟨path, walk⟩
      · exact earlier
      · exact absurd marked List.not_mem_nil
      · exact absurd (transGen_of_walk edge walk) (acyclic v)
    -- In the reversed order the later nodes come before `v`, and `c` after it.
    rw [same] at nodup
    have shape : topSort edges = later.reverse ++ v :: before.reverse := by
      rw [sorted, same, List.reverse_append, List.reverse_cons, List.append_assoc]
      rfl
    have parts := List.nodup_append.1 nodup
    have notLater : v ∉ later.reverse := by
      rw [List.mem_reverse]
      exact (List.nodup_cons.1 parts.2.1).1
    have notLater' : c ∉ later.reverse := by
      rw [List.mem_reverse]
      exact fun late => parts.2.2 c earlier c (List.mem_cons_of_mem v late) rfl
    have different : v ≠ c := fun same =>
      parts.2.2 c earlier v List.mem_cons_self same.symm
    rw [shape, List.idxOf_append_of_notMem notLater, List.idxOf_append_of_notMem notLater',
      List.idxOf_cons_self, List.idxOf_cons_ne _ different]
    omega
  · have entry : 0 ∉ others := by
      intro member
      obtain ⟨before, later, same⟩ := List.append_of_mem member
      obtain ⟨r, root, path, walk, -⟩ := visited.walks before 0 later same
      rcases walk.end_cases with rfl | ⟨x, edge⟩
      · rw [List.mem_range'_1] at root
        omega
      · obtain ⟨ts, found, zero⟩ : ∃ ts ∈ edges, 0 ∈ ts := by
          have bound := (targets_lt inside edge).1
          unfold targets at edge
          rw [List.getElem?_eq_getElem bound] at edge
          exact ⟨_, List.getElem_mem bound, edge⟩
        exact noEdge ts found zero
    -- The last node found from the entry is the entry itself.
    have member := (List.mem_append.1 ((placed 0).2 nonempty)).resolve_left entry
    obtain ⟨front, last, rfl⟩ : ∃ front last, first = front ++ [last] := by
      rcases first.eq_nil_or_concat with rfl | ⟨front, last, shape⟩
      · exact absurd member List.not_mem_nil
      · exact ⟨front, last, shape.trans List.concat_eq_append⟩
    obtain ⟨r, root, path, walk, only⟩ := visited'.walks front last [] rfl
    cases List.mem_singleton.1 root
    rcases only 0 walk.first with rfl | later
    · rw [sorted, ← List.append_assoc, List.reverse_concat]
      rfl
    · exact absurd later List.not_mem_nil

theorem targets_chain (edge : c ∈ targets [[1, 2], [2], []] v) : v < c := by
  rcases v with _ | _ | _ | v <;> simp [targets] at edge <;> omega

theorem topSort_correct_chain :
    (topSort [[1, 2], [2], []]).Perm (List.range 3) ∧
      (topSort [[1, 2], [2], []]).idxOf 1 < (topSort [[1, 2], [2], []]).idxOf 2 ∧
      (topSort [[1, 2], [2], []]).head? = some 0 := by
  obtain ⟨perm, forward, first⟩ := @topSort_correct [[1, 2], [2], []] (by decide)
  refine ⟨perm, forward (fun v cycle => ?_) 1 2 (by decide), first (by decide) (by decide)⟩
  have rising : ∀ {a b : Nat},
      Relation.TransGen (fun a b => b ∈ targets [[1, 2], [2], []] a) a b → a < b := by
    intro a b walk
    induction walk with
    | single edge => exact targets_chain edge
    | tail _ edge less => exact less.trans (targets_chain edge)
  exact absurd (rising cycle) (lt_irrefl v)

end

/-- `bbs`, `bb_map` and `edges`. The number of a block is its place in `bbs`. -/
structure Numbering where
  bbs : List Nat
  edges : List (List Nat)

namespace Numbering

/-- `bb_num`, without the number. -/
def add (s : Numbering) (bb : Nat) : Numbering :=
  if bb ∈ s.bbs then s else ⟨s.bbs ++ [bb], s.edges ++ [[]]⟩

def num (s : Numbering) (bb : Nat) : Nat := s.bbs.idxOf bb

/-- `edges[n].emplace(n_dst)`. -/
def addEdge (n : Nat) (s : Numbering) (dst : Nat) : Numbering :=
  let s := s.add dst
  { s with edges := s.edges.modify n (List.insert (s.num dst)) }

def addBlock (g : Flow) (s : Numbering) (bb : Nat) : Numbering :=
  let s := s.add bb
  (g.succ bb).foldl (addEdge (s.num bb)) s

end Numbering

def numbering (g : Flow) : Numbering :=
  (List.range g.bbCount).foldl (Numbering.addBlock g) ⟨[], []⟩

structure HashOrder where
  order : List Nat → List Nat
  perm : ∀ l, (order l).Perm l

def sortedBbs (g : Flow) (hash : HashOrder) : List Nat :=
  (topSort ((numbering g).edges.map hash.order)).map fun v => ((numbering g).bbs[v]?).getD 0

namespace Numbering

variable {g : Flow} {s : Numbering} {bb dst n m b c : Nat} {done : List Nat}

structure Good (s : Numbering) (jumps : Nat → Nat → Prop) : Prop where
  nodup : s.bbs.Nodup
  length : s.edges.length = s.bbs.length
  known : ∀ b c, jumps b c → b ∈ s.bbs ∧ c ∈ s.bbs
  edge : ∀ b ∈ s.bbs, ∀ m, m ∈ s.edges[s.num b]?.getD [] ↔ ∃ c, jumps b c ∧ s.num c = m

variable {jumps : Nat → Nat → Prop}

theorem Good.congr {jumps' : Nat → Nat → Prop} (good : Good s jumps)
    (same : ∀ x y, jumps x y ↔ jumps' x y) : Good s jumps' := by
  obtain rfl : jumps = jumps' := funext fun x => funext fun y => propext (same x y)
  exact good

theorem mem_add : b ∈ (s.add bb).bbs ↔ b ∈ s.bbs ∨ b = bb := by
  unfold add
  split
  · next known =>
      constructor
      · exact .inl
      · rintro (inside | rfl)
        · exact inside
        · exact known
  · rw [List.mem_append, List.mem_singleton]

theorem num_add (known : b ∈ s.bbs) : (s.add bb).num b = s.num b := by
  unfold add
  split
  · rfl
  · exact List.idxOf_append_of_mem known

theorem prefix_add (s : Numbering) (bb : Nat) : s.bbs <+: (s.add bb).bbs := by
  unfold add
  split
  · exact List.prefix_refl _
  · exact List.prefix_append _ _

theorem num_lt (known : b ∈ s.bbs) : s.num b < s.bbs.length :=
  List.idxOf_lt_length_iff.2 known

theorem num_inj (left : b ∈ s.bbs) (same : s.num b = s.num c) : b = c :=
  (List.idxOf_inj left).1 same

theorem Good.add (good : Good s jumps) (bb : Nat) : Good (s.add bb) jumps := by
  by_cases known : bb ∈ s.bbs
  · unfold Numbering.add
    rw [if_pos known]
    exact good
  have edges : (s.add bb).edges = s.edges ++ [[]] := by
    unfold Numbering.add
    rw [if_neg known]
  have bbs : (s.add bb).bbs = s.bbs ++ [bb] := by
    unfold Numbering.add
    rw [if_neg known]
  refine ⟨?_, ?_, fun b c jump => ?_, fun b member m => ?_⟩
  · rw [bbs]
    exact List.nodup_append.2 ⟨good.nodup, List.nodup_singleton bb, fun a left c right same =>
      known (List.mem_singleton.1 right ▸ same ▸ left)⟩
  · rw [bbs, edges, List.length_append, List.length_append, good.length]
    rfl
  · obtain ⟨left, right⟩ := good.known b c jump
    exact ⟨mem_add.2 (.inl left), mem_add.2 (.inl right)⟩
  · rcases mem_add.1 member with inside | rfl
    · rw [num_add inside, edges, List.getElem?_append_left (good.length ▸ num_lt inside),
        good.edge b inside]
      refine exists_congr fun c => and_congr_right fun jump => ?_
      rw [num_add (good.known b c jump).2]
    · have last : (s.add b).num b = s.edges.length := by
        rw [num, bbs, List.idxOf_append_of_notMem known, List.idxOf_cons_self, good.length,
          Nat.add_zero]
      rw [last, edges, List.getElem?_concat_length, Option.getD_some]
      constructor
      · exact fun inside => absurd inside List.not_mem_nil
      · rintro ⟨c, jump, -⟩
        exact absurd (good.known b c jump).1 known

theorem Good.addEdge (good : Good s jumps) (known : b ∈ s.bbs)
    (dst : Nat) : Good (addEdge (s.num b) s dst) (fun x y => jumps x y ∨ x = b ∧ y = dst) := by
  have added := good.add dst
  have inside : b ∈ (s.add dst).bbs := mem_add.2 (.inl known)
  have place : (s.add dst).num b = s.num b := num_add known
  refine ⟨added.nodup, ?_, fun x y jump => ?_, fun x member m => ?_⟩
  · change ((s.add dst).edges.modify _ _).length = _
    rw [List.length_modify]
    exact added.length
  · rcases jump with before | ⟨rfl, rfl⟩
    · exact added.known x y before
    · exact ⟨inside, mem_add.2 (.inr rfl)⟩
  · change x ∈ (s.add dst).bbs at member
    change m ∈ ((s.add dst).edges.modify (s.num b) (List.insert ((s.add dst).num dst)))[
      (s.add dst).num x]?.getD [] ↔ ∃ c, (jumps x c ∨ x = b ∧ c = dst) ∧ (s.add dst).num c = m
    have short : (s.add dst).num x < (s.add dst).edges.length := added.length ▸ num_lt member
    have edge := added.edge x member m
    rw [List.getElem?_modify, ← place]
    rw [List.getElem?_eq_getElem short, Option.getD_some] at edge
    rw [List.getElem?_eq_getElem short]
    by_cases same : b = x
    · subst same
      simp only [Option.map_eq_map, Option.map_some, Option.getD_some, if_true,
        List.mem_insert_iff, edge]
      constructor
      · rintro (rfl | ⟨c, jump, rfl⟩)
        · exact ⟨dst, .inr ⟨trivial, rfl⟩, rfl⟩
        · exact ⟨c, .inl jump, rfl⟩
      · rintro ⟨c, jump | ⟨-, rfl⟩, rfl⟩
        · exact .inr ⟨c, jump, rfl⟩
        · exact .inl rfl
    · have different : (s.add dst).num b ≠ (s.add dst).num x :=
        fun equal => same (num_inj inside equal)
      simp only [Option.map_eq_map, Option.map_some, Option.getD_some, if_neg different, edge]
      refine exists_congr fun c => and_congr_left fun _ => ?_
      rw [or_iff_left fun both => same both.1.symm]

theorem mem_addEdge : b ∈ (addEdge n s dst).bbs ↔ b ∈ s.bbs ∨ b = dst := mem_add

theorem foldl_addEdge (ts : List Nat) :
    ∀ (s : Numbering) (jumps : Nat → Nat → Prop), Good s jumps → b ∈ s.bbs →
      Good (ts.foldl (addEdge (s.num b)) s) (fun x y => jumps x y ∨ x = b ∧ y ∈ ts) ∧
        (∀ x, x ∈ (ts.foldl (addEdge (s.num b)) s).bbs ↔ x ∈ s.bbs ∨ x ∈ ts) ∧
        s.bbs <+: (ts.foldl (addEdge (s.num b)) s).bbs := by
  induction ts with
  | nil =>
    intro s jumps good _
    refine ⟨good.congr fun x y => ?_, fun x => ?_, List.prefix_refl _⟩
    · simp
    · simp
  | cons t ts ih =>
    intro s jumps good known
    have first := good.addEdge known t
    have place : (addEdge (s.num b) s t).num b = s.num b := num_add known
    obtain ⟨later, members, longer⟩ := ih _ _ first (mem_addEdge.2 (.inl known))
    rw [place] at later members longer
    refine ⟨later.congr fun x y => ?_, fun x => ?_, (prefix_add s t).trans longer⟩
    · rw [List.mem_cons, or_assoc, ← and_or_left]
    · rw [List.foldl_cons, members, mem_addEdge, List.mem_cons, or_assoc]

theorem Good.addBlock (good : Good s jumps) (g : Flow) (bb : Nat) :
    Good (addBlock g s bb) (fun x y => jumps x y ∨ x = bb ∧ y ∈ g.succ bb) ∧
      (∀ x, x ∈ (addBlock g s bb).bbs ↔ x ∈ s.bbs ∨ x = bb ∨ x ∈ g.succ bb) ∧
      (s.add bb).bbs <+: (addBlock g s bb).bbs := by
  obtain ⟨edges, members, longer⟩ :=
    foldl_addEdge (g.succ bb) (s.add bb) jumps (good.add bb) (mem_add.2 (.inr rfl))
  refine ⟨edges, fun x => ?_, longer⟩
  rw [Numbering.addBlock, members, mem_add, or_assoc]

theorem foldl_addBlock (g : Flow) (blocks : List Nat) :
    ∀ (s : Numbering) (jumps : Nat → Nat → Prop), Good s jumps →
      Good (blocks.foldl (Numbering.addBlock g) s)
          (fun x y => jumps x y ∨ x ∈ blocks ∧ y ∈ g.succ x) ∧
        (∀ x, x ∈ (blocks.foldl (Numbering.addBlock g) s).bbs ↔
          x ∈ s.bbs ∨ x ∈ blocks ∨ ∃ b ∈ blocks, x ∈ g.succ b) ∧
        s.bbs <+: (blocks.foldl (Numbering.addBlock g) s).bbs := by
  induction blocks with
  | nil =>
    intro s jumps good
    refine ⟨good.congr fun x y => ?_, fun x => ?_, List.prefix_refl _⟩
    · simp
    · simp
  | cons bb blocks ih =>
    intro s jumps good
    obtain ⟨first, members, longer⟩ := good.addBlock g bb
    obtain ⟨later, members', longer'⟩ := ih _ _ first
    refine ⟨later.congr fun x y => ?_, fun x => ?_, ((prefix_add s bb).trans longer).trans longer'⟩
    · rw [List.mem_cons, or_assoc]
      refine or_congr_right ?_
      constructor
      · rintro (⟨rfl, jump⟩ | ⟨inside, jump⟩)
        · exact ⟨.inl rfl, jump⟩
        · exact ⟨.inr inside, jump⟩
      · rintro ⟨rfl | inside, jump⟩
        · exact .inl ⟨rfl, jump⟩
        · exact .inr ⟨inside, jump⟩
    · rw [List.foldl_cons, members', members]
      simp only [List.mem_cons, exists_eq_or_imp]
      tauto

end Numbering

section

variable {g : Flow} {hash : HashOrder} {b c d v m : Nat}

theorem numbering_good (g : Flow) : (numbering g).Good fun x y => y ∈ g.succ x := by
  have empty : Numbering.Good ⟨[], []⟩ fun _ _ => False :=
    ⟨List.nodup_nil, rfl, fun _ _ => False.elim, List.forall_mem_nil _⟩
  refine (Numbering.foldl_addBlock g (List.range g.bbCount) _ _ empty).1.congr fun x y => ?_
  constructor
  · rintro (none | ⟨-, jump⟩)
    · exact none.elim
    · exact jump
  · exact fun jump => .inr ⟨List.mem_range.2 (Flow.src_lt jump), jump⟩

theorem mem_numbering : b ∈ (numbering g).bbs ↔ b < g.bbCount := by
  have empty : Numbering.Good ⟨[], []⟩ fun _ _ => False :=
    ⟨List.nodup_nil, rfl, fun _ _ => False.elim, List.forall_mem_nil _⟩
  have members := (Numbering.foldl_addBlock g (List.range g.bbCount) _ _ empty).2.1 b
  rw [numbering, members]
  constructor
  · rintro (none | inside | ⟨p, -, jump⟩)
    · exact absurd none List.not_mem_nil
    · exact List.mem_range.1 inside
    · exact Flow.succ_lt jump
  · exact fun inside => .inr (.inl (List.mem_range.2 inside))

theorem numbering_first (g : Flow) :
    ∃ near rest, (numbering g).bbs = 0 :: near ++ rest ∧ ∀ t, t ∈ near ↔ t ∈ g.succ 0 := by
  have empty : Numbering.Good ⟨[], []⟩ fun _ _ => False :=
    ⟨List.nodup_nil, rfl, fun _ _ => False.elim, List.forall_mem_nil _⟩
  obtain ⟨k, count⟩ := Nat.exists_eq_succ_of_ne_zero (Nat.ne_of_gt g.bbCount_pos)
  obtain ⟨good, members, near, first⟩ := empty.addBlock g 0
  obtain ⟨-, -, rest, all⟩ := Numbering.foldl_addBlock g ((List.range k).map Nat.succ) _ _ good
  change [0] ++ near = _ at first
  refine ⟨near, rest, ?_, fun t => ?_⟩
  · rw [numbering, count, List.range_succ_eq_map, List.foldl_cons, ← all, ← first]
    rfl
  · have member := members t
    have nodup := good.nodup
    rw [← first] at member nodup
    rw [List.singleton_append, List.mem_cons] at member
    constructor
    · intro inside
      rcases member.1 (.inr inside) with none | rfl | jump
      · exact absurd none List.not_mem_nil
      · exact absurd inside (List.nodup_cons.1 nodup).1
      · exact jump
    · intro jump
      rcases member.2 (.inr (.inr jump)) with rfl | inside
      · exact absurd rfl (Flow.succ_ne_entry jump)
      · exact inside

def blockOf (g : Flow) (v : Nat) : Nat := (numbering g).bbs[v]?.getD 0

theorem blockOf_num (inside : b < g.bbCount) : blockOf g ((numbering g).num b) = b := by
  have member := mem_numbering.2 inside
  rw [blockOf, List.getElem?_eq_getElem (Numbering.num_lt member), Option.getD_some]
  exact List.getElem_idxOf (Numbering.num_lt member)

theorem num_blockOf
    (inside : v < (numbering g).bbs.length) : (numbering g).num (blockOf g v) = v := by
  rw [blockOf, List.getElem?_eq_getElem inside, Option.getD_some]
  exact (numbering_good g).nodup.idxOf_getElem v inside

theorem num_entry (g : Flow) : (numbering g).num 0 = 0 := by
  obtain ⟨near, rest, first, -⟩ := numbering_first g
  rw [Numbering.num, first, List.cons_append]
  exact List.idxOf_cons_self

/-- The successors that `top_sort` sees. -/
def succ (g : Flow) (hash : HashOrder) (v : Nat) : List Nat :=
  ((numbering g).edges.map hash.order)[v]?.getD []

theorem mem_succ (inside : b < g.bbCount) :
    m ∈ succ g hash ((numbering g).num b) ↔ ∃ c ∈ g.succ b, (numbering g).num c = m := by
  have good := numbering_good g
  have member := mem_numbering.2 inside
  have edge := good.edge b member m
  have short : (numbering g).num b < (numbering g).edges.length :=
    good.length ▸ Numbering.num_lt member
  rw [List.getElem?_eq_getElem short, Option.getD_some] at edge
  rw [succ, List.getElem?_map, List.getElem?_eq_getElem short, Option.map_some, Option.getD_some,
    (hash.perm _).mem_iff, edge]

theorem lt_of_mem_succ (edge : m ∈ succ g hash v) :
    ∃ b c, b < g.bbCount ∧ (numbering g).num b = v ∧ c ∈ g.succ b ∧ (numbering g).num c = m := by
  have length := (numbering_good g).length
  by_cases inside : v < (numbering g).bbs.length
  · have block : blockOf g v ∈ (numbering g).bbs := by
      rw [blockOf, List.getElem?_eq_getElem inside, Option.getD_some]
      exact List.getElem_mem inside
    have small := mem_numbering.1 block
    rw [← num_blockOf inside, mem_succ small] at edge
    obtain ⟨c, jump, same⟩ := edge
    exact ⟨blockOf g v, c, small, num_blockOf inside, jump, same⟩
  · have none : ((numbering g).edges.map hash.order)[v]? = none := by
      rw [List.getElem?_eq_none_iff, List.length_map, length]
      exact Nat.not_lt.1 inside
    rw [succ, none] at edge
    exact absurd edge List.not_mem_nil

end

section

variable {g : Flow} {hash : HashOrder} {b c d v w : Nat} {path rest : List Nat}

theorem path_of_walk (walk : Walk (succ g hash) v path w) :
    ∀ x rest, (numbering g).num x = v → g.Path (x :: rest) →
      g.Path ((path.map (blockOf g)).reverse ++ rest) := by
  induction walk with
  | here v =>
    rintro x rest rfl before
    rw [List.map_singleton, List.reverse_singleton, blockOf_num before.lt]
    exact before
  | @step v w b path edge _ ih =>
    rintro x rest rfl before
    obtain ⟨c, jump, rfl⟩ := (mem_succ before.lt).1 edge
    have later := ih c (x :: rest) rfl (before.jump jump)
    rw [List.map_cons, List.reverse_cons, List.append_assoc, blockOf_num before.lt]
    exact later

end

section

variable {g : Flow} {hash : HashOrder} {b c d v w r : Nat} {s t : Search Nat} {roots new : List Nat}

theorem length_edges (g : Flow) (hash : HashOrder) :
    ((numbering g).edges.map hash.order).length = (numbering g).bbs.length := by
  rw [List.length_map, (numbering_good g).length]

theorem num_ne_entry (jump : c ∈ g.succ b) : (numbering g).num c ≠ 0 := by
  intro same
  have inside := mem_numbering.2 (Flow.succ_lt jump)
  rw [← num_entry g] at same
  exact Flow.succ_ne_entry jump (Numbering.num_inj inside same)

theorem not_entry
    (visited : Visited (succ g hash) roots s t new) (other : 0 ∉ roots) : 0 ∉ new := by
  intro member
  obtain ⟨before, later, rfl⟩ := List.append_of_mem member
  obtain ⟨r, root, path, walk, -⟩ := visited.walks before 0 later rfl
  rcases walk.end_cases with rfl | ⟨x, edge⟩
  · exact other root
  · obtain ⟨p, c, -, -, jump, same⟩ := lt_of_mem_succ edge
    exact num_ne_entry jump same

/-- The search starts from the targets of the entry, goes on with the other blocks and ends
with the entry. -/
theorem topSort_phases (g : Flow) (hash : HashOrder) :
    ∃ (near others : List Nat) (s t u : Search Nat) (new1 new2 new3 : List Nat),
      (∀ c, c ∈ g.succ 0 → (numbering g).num c ∈ near) ∧
      (∀ r ∈ near, ∃ c ∈ g.succ 0, (numbering g).num c = r) ∧
      (∀ v, v < (numbering g).bbs.length ↔ v ∈ near ++ others ++ [0]) ∧
      0 ∉ others ∧
      Visited (succ g hash) near ⟨[], []⟩ s new1 ∧
      Visited (succ g hash) others s t new2 ∧
      Visited (succ g hash) [0] t u new3 ∧
      topSort ((numbering g).edges.map hash.order) = (new1 ++ new2 ++ new3).reverse := by
  obtain ⟨near, rest, first, targets⟩ := numbering_first g
  have nodup := (numbering_good g).nodup
  have length := length_edges g hash
  have size : (numbering g).bbs.length = near.length + rest.length + 1 := by
    rw [first, List.length_append, List.length_cons]
    omega
  have place : ∀ i (inside : i < near.length), (numbering g).num near[i] = i + 1 := by
    intro i inside
    have at' : (numbering g).bbs[i + 1]? = some near[i] := by
      rw [first, List.cons_append, List.getElem?_cons_succ, List.getElem?_append_left inside,
        List.getElem?_eq_getElem inside]
    obtain ⟨short, same⟩ := List.getElem?_eq_some_iff.1 at'
    rw [← same]
    exact nodup.idxOf_getElem _ short
  have edges : ∀ v ∈ List.range (numbering g).bbs.length, ∀ w ∈ succ g hash v,
      w ∈ List.range (numbering g).bbs.length := by
    intro v _ w edge
    obtain ⟨_, c, -, -, jump, rfl⟩ := lt_of_mem_succ edge
    exact List.mem_range.2 (Numbering.num_lt (mem_numbering.2 (Flow.succ_lt jump)))
  have enough : ∀ marked : List Nat,
      unmarked (List.range (numbering g).bbs.length) marked < (numbering g).bbs.length + 1 := by
    intro marked
    refine Nat.lt_succ_of_le ((List.length_filter_le _ _).trans ?_)
    rw [List.length_range]
  have single := visit_visited edges ((numbering g).bbs.length + 1)
  obtain ⟨new1, phase1, -⟩ := foldl_visited single (List.range' 1 near.length) ⟨[], []⟩
    (fun v member => List.mem_range.2 (by
      rw [List.mem_range'_1] at member
      omega)) (enough _)
  obtain ⟨new2, phase2, -⟩ := foldl_visited single (List.range' (1 + near.length) rest.length) _
    (fun v member => List.mem_range.2 (by
      rw [List.mem_range'_1] at member
      omega)) (enough _)
  obtain ⟨new3, phase3, -⟩ := single _ 0 (List.mem_range.2 (by omega)) (enough _)
  refine ⟨_, _, _, _, _, new1, new2, new3, fun c jump => ?_, fun r member => ?_,
    fun v => ?_, ?_, phase1, phase2, phase3, ?_⟩
  · obtain ⟨i, inside, rfl⟩ := List.mem_iff_getElem.1 ((targets c).2 jump)
    rw [place i inside, List.mem_range'_1]
    omega
  · rw [List.mem_range'_1] at member
    have inside : r - 1 < near.length := by omega
    refine ⟨near[r - 1], (targets _).1 (List.getElem_mem inside), ?_⟩
    rw [place _ inside]
    omega
  · rw [List.mem_append, List.mem_append, List.mem_range'_1, List.mem_range'_1, List.mem_singleton]
    omega
  · rw [List.mem_range'_1]
    omega
  · have nonempty : ((numbering g).edges.map hash.order).isEmpty = false := by
      rw [List.isEmpty_eq_false_iff, ← List.length_pos_iff, length]
      omega
    have split : List.range' 1 ((numbering g).bbs.length - 1) =
        List.range' 1 near.length ++ List.range' (1 + near.length) rest.length := by
      rw [List.range'_append_1, size, Nat.add_sub_cancel]
    rw [topSort, nonempty, length, split, List.foldl_append]
    have sorted := phase3.sorted
    rw [phase2.sorted, phase1.sorted, List.nil_append] at sorted
    exact congrArg List.reverse sorted

theorem topSort_perm (g : Flow) (hash : HashOrder) :
    (topSort ((numbering g).edges.map hash.order)).Perm (List.range (numbering g).bbs.length) := by
  obtain ⟨near, others, s, t, u, new1, new2, new3, -, -, all, -, phase1, phase2, phase3, order⟩ :=
    topSort_phases g hash
  have whole := (phase1.append phase2).append phase3
  rw [order]
  refine (List.reverse_perm _).trans ((List.perm_ext_iff_of_nodup whole.nodup
    List.nodup_range).2 fun v => ?_)
  rw [List.mem_range]
  constructor
  · intro member
    obtain ⟨before, later, same⟩ := List.append_of_mem member
    obtain ⟨r, root, path, walk, -⟩ := whole.walks before v later same
    rcases walk.end_cases with rfl | ⟨x, edge⟩
    · exact (all v).2 root
    · obtain ⟨_, c, -, -, jump, rfl⟩ := lt_of_mem_succ edge
      exact Numbering.num_lt (mem_numbering.2 (Flow.succ_lt jump))
  · intro inside
    have marked := whole.marked v
    rw [or_iff_right List.not_mem_nil] at marked
    exact marked.1 (whole.rooted v ((all v).1 inside))

theorem sortedBbs_perm (g : Flow) (hash : HashOrder) :
    (sortedBbs g hash).Perm (List.range g.bbCount) := by
  have blocks : (List.range (numbering g).bbs.length).map (blockOf g) = (numbering g).bbs := by
    refine List.ext_getElem (by rw [List.length_map, List.length_range]) fun i _ inside => ?_
    rw [List.getElem_map, List.getElem_range, blockOf, List.getElem?_eq_getElem inside,
      Option.getD_some]
  have order := (topSort_perm g hash).map (blockOf g)
  rw [blocks] at order
  refine order.trans ((List.perm_ext_iff_of_nodup (numbering_good g).nodup
    List.nodup_range).2 fun b => ?_)
  rw [mem_numbering, List.mem_range]

theorem visited_of_reachable
    {near : List Nat} (targets : ∀ c, c ∈ g.succ 0 → (numbering g).num c ∈ near)
    (phase : Visited (succ g hash) near ⟨[], []⟩ s new)
    (reachable : g.Reachable b) : b = 0 ∨ (numbering g).num b ∈ new := by
  have marked : ∀ v, v ∈ s.marked ↔ v ∈ new := by
    intro v
    rw [phase.marked, or_iff_right List.not_mem_nil]
  refine reachable.rec_on (P := fun b => b = 0 ∨ (numbering g).num b ∈ new) (.inl rfl)
    fun p t before jump => .inr ((marked _).1 ?_)
  rcases before with rfl | inside
  · exact phase.rooted _ (targets t jump)
  · exact phase.closed _ inside _ ((mem_succ (Flow.src_lt jump)).2 ⟨t, jump, rfl⟩)

theorem sortedBbs_dominates (hash : HashOrder) (reachable : g.Reachable b)
    (dominates : g.Dominates d b) (other : d ≠ b) : [d, b].Sublist (sortedBbs g hash) := by
  obtain ⟨near, others, s, t, u, new1, new2, new3, targets, roots, all, fresh, phase1, phase2,
    phase3, order⟩ := topSort_phases g hash
  have start : b ≠ 0 := by
    rintro rfl
    exact other (List.mem_singleton.1 (dominates [] .entry))
  have entry_new : 0 ∈ new3 := by
    have first : 0 ∉ new1 := not_entry phase1 fun member => by
      obtain ⟨c, jump, same⟩ := roots 0 member
      exact num_ne_entry jump same
    have second : 0 ∉ new2 := not_entry phase2 fresh
    have marked := phase3.rooted 0 (List.mem_singleton_self 0)
    rw [phase3.marked, phase2.marked, phase1.marked] at marked
    rcases marked with ((none | inside) | inside) | inside
    · exact absurd none List.not_mem_nil
    · exact absurd inside first
    · exact absurd inside second
    · exact inside
  have inside := (visited_of_reachable targets phase1 reachable).resolve_left start
  obtain ⟨before, later, split⟩ := List.append_of_mem inside
  obtain ⟨r, root, path, walk, follow⟩ := phase1.walks before _ later split
  obtain ⟨c, jump, rfl⟩ := roots r root
  have walked := path_of_walk walk c [0] rfl (.jump .entry jump)
  obtain ⟨front, rfl⟩ := walk.last
  obtain ⟨rest, path⟩ := reachable
  rw [List.map_append, List.map_singleton, List.reverse_append, List.reverse_singleton,
    blockOf_num path.lt, List.append_assoc, List.singleton_append] at walked
  -- the number of `d` comes after the number of `b` in the post order
  have general : ∃ v, blockOf g v = d ∧ v ∈ later ++ new2 ++ new3 := by
    rcases List.mem_cons.1 (dominates _ walked) with same | member
    · exact absurd same other
    · rcases List.mem_append.1 member with member | entry
      · obtain ⟨v, visited, rfl⟩ := List.mem_map.1 (List.mem_reverse.1 member)
        refine ⟨v, rfl, ?_⟩
        rcases follow v (List.mem_append_left _ visited) with rfl | after
        · exact absurd (blockOf_num path.lt) other
        · exact List.mem_append_left _ (List.mem_append_left _ after)
      · refine ⟨0, ?_, List.mem_append_right _ entry_new⟩
        have first := blockOf_num g.bbCount_pos
        rw [num_entry] at first
        rw [first, List.mem_singleton.1 entry]
  obtain ⟨v, rfl, member⟩ := general
  have sublist : [(numbering g).num b, v].Sublist (new1 ++ new2 ++ new3) := by
    have shape : new1 ++ new2 ++ new3 =
        before ++ (numbering g).num b :: (later ++ new2 ++ new3) := by
      rw [split, List.append_assoc, List.append_assoc, List.cons_append, List.append_assoc]
    rw [shape]
    exact List.sublist_append_of_sublist_right
      (List.Sublist.cons_cons _ (List.singleton_sublist.2 member))
  have mapped := sublist.reverse.map (blockOf g)
  rw [← order, List.reverse_cons, List.reverse_singleton, List.singleton_append, List.map_cons,
    List.map_singleton, blockOf_num path.lt] at mapped
  exact mapped

end

/-! ## The translation -/

/-- An instruction and the instructions among its operands. -/
structure LInstr where
  id : Nat
  operands : List Nat
  isPhi : Bool
  isVoid : Bool

/-- A function in SSA form: what an instruction of a block that can be reached uses is
defined earlier in the block or in another block that dominates it. -/
structure LFunction extends Flow where
  instrs : List (List LInstr)
  ssa : ∀ b, toFlow.Reachable b → ∀ before i after, instrs[b]?.getD [] = before ++ i :: after →
    i.isPhi = false → ∀ op ∈ i.operands, (∃ j ∈ before, j.id = op ∧ j.isVoid = false) ∨
        ∃ d, d ≠ b ∧ toFlow.Dominates d b ∧ ∃ j ∈ instrs[d]?.getD [], j.id = op ∧ j.isVoid = false

structure Fallback where
  bb : Nat
  user : Nat
  operand : Nat

/-- The values that have a translation, the operands replaced with poison so far, and whether
`run` has given up. -/
structure Translation where
  value_cache : List Nat
  fallbacks : List Fallback
  failed : Bool

/-- `get_operand` for an instruction. The poison does not go into the cache. -/
def getOperand (bb user : Nat) (s : Translation) (op : Nat) : Translation :=
  if op ∈ s.value_cache then s else { s with fallbacks := ⟨bb, user, op⟩ :: s.fallbacks }

def readOperands (bb : Nat) (s : Translation) (i : LInstr) : Translation :=
  if i.isPhi then s else i.operands.foldl (getOperand bb i.id) s

/-- One instruction. `visit` fails on what it does not support. -/
def visitInstr (visit : Translation → LInstr → Bool) (bb : Nat) (s : Translation) (i : LInstr) :
    Translation :=
  if s.failed then s
  else
    let s := readOperands bb s i
    if visit s i then
      if i.isVoid then s else { s with value_cache := i.id :: s.value_cache }
    else { s with failed := true }

def visitBlock (fn : LFunction) (visit : Translation → LInstr → Bool) (s : Translation)
    (bb : Nat) : Translation :=
  (fn.instrs[bb]?.getD []).foldl (visitInstr visit bb) s

def run (fn : LFunction) (hash : HashOrder) (visit : Translation → LInstr → Bool) : Translation :=
  (sortedBbs fn.toFlow hash).foldl (visitBlock fn visit) ⟨[], [], false⟩

section

variable {fn : LFunction} {visit : Translation → LInstr → Bool} {bb : Nat} {s : Translation}
  {i : LInstr} {f : Fallback}

theorem getOperands (bb user : Nat) (ops : List Nat) : ∀ s : Translation,
      (ops.foldl (getOperand bb user) s).value_cache = s.value_cache ∧
        (ops.foldl (getOperand bb user) s).failed = s.failed ∧
        ∀ f ∈ (ops.foldl (getOperand bb user) s).fallbacks,
          f ∈ s.fallbacks ∨ f.bb = bb ∧ ∃ op ∈ ops, op ∉ s.value_cache := by
  induction ops with
  | nil => exact fun s => ⟨rfl, rfl, fun f member => .inl member⟩
  | cons op ops ih =>
    intro s
    have cache : (getOperand bb user s op).value_cache = s.value_cache := by
      unfold getOperand
      split <;> rfl
    have failed : (getOperand bb user s op).failed = s.failed := by
      unfold getOperand
      split <;> rfl
    obtain ⟨cache', failed', fallbacks⟩ := ih (getOperand bb user s op)
    refine ⟨cache'.trans cache, failed'.trans failed, fun f member => ?_⟩
    rcases fallbacks f member with before | ⟨same, other, inside, missing⟩
    · unfold getOperand at before
      split at before
      · exact .inl before
      · next missing =>
          rcases List.mem_cons.1 before with rfl | before
          · exact .inr ⟨rfl, op, List.mem_cons_self, missing⟩
          · exact .inl before
    · exact .inr ⟨same, other, List.mem_cons_of_mem op inside, cache ▸ missing⟩

structure Step (s t : Translation) (bb : Nat) (i : LInstr) : Prop where
  cache : ∀ v ∈ s.value_cache, v ∈ t.value_cache
  going : t.failed = false → s.failed = false
  defined : t.failed = false → i.isVoid = false → i.id ∈ t.value_cache
  fallbacks : ∀ f ∈ t.fallbacks, f ∈ s.fallbacks ∨
    s.failed = false ∧ f.bb = bb ∧ i.isPhi = false ∧ ∃ op ∈ i.operands, op ∉ s.value_cache

theorem readOperands_fallbacks (bb : Nat) (i : LInstr) (going : s.failed = false) :
    (readOperands bb s i).value_cache = s.value_cache ∧
      ∀ f ∈ (readOperands bb s i).fallbacks, f ∈ s.fallbacks ∨
        s.failed = false ∧ f.bb = bb ∧ i.isPhi = false ∧ ∃ op ∈ i.operands, op ∉ s.value_cache := by
  unfold readOperands
  split
  · exact ⟨rfl, fun f member => .inl member⟩
  · next other =>
      obtain ⟨cache, -, fallbacks⟩ := getOperands bb i.id i.operands s
      refine ⟨cache, fun f member => (fallbacks f member).imp_right fun missing => ?_⟩
      exact ⟨going, missing.1, Bool.eq_false_of_not_eq_true other, missing.2⟩

theorem visitInstr_step (visit : Translation → LInstr → Bool) (bb : Nat) (s : Translation)
    (i : LInstr) : Step s (visitInstr visit bb s i) bb i := by
  unfold visitInstr
  split
  · next failed =>
      exact ⟨fun _ known => known, id, fun going => absurd failed (by rw [going]; decide),
        fun f member => .inl member⟩
  next going =>
  have going : s.failed = false := Bool.eq_false_of_not_eq_true going
  obtain ⟨cache, fallbacks⟩ := readOperands_fallbacks bb i going
  dsimp only
  split
  · split
    · next void =>
        exact ⟨fun v known => cache ▸ known, fun _ => going,
          fun _ other => absurd void (by rw [other]; decide), fallbacks⟩
    · exact ⟨fun v known => List.mem_cons_of_mem _ (cache ▸ known), fun _ => going,
        fun _ _ => List.mem_cons_self, fallbacks⟩
  · exact ⟨fun v known => cache ▸ known, fun _ => going,
      fun contra => absurd contra.symm Bool.false_ne_true, fallbacks⟩

/-- The invariant of the loop: the values of the blocks that are done are in the cache, and
poison was only used in blocks that cannot be reached. -/
structure Covered (fn : LFunction) (blocks : List Nat) (s : Translation) : Prop where
  cache : s.failed = false → ∀ d ∈ blocks, ∀ j ∈ fn.instrs[d]?.getD [], j.isVoid = false →
    j.id ∈ s.value_cache
  fallbacks : ∀ f ∈ s.fallbacks, ¬fn.Reachable f.bb

theorem Covered.instrs {blocks : List Nat}
    (dominators : fn.Reachable bb → ∀ d, fn.Dominates d bb → d ≠ bb → d ∈ blocks)
    (rest : List LInstr) :
    ∀ (before : List LInstr) (s : Translation), fn.instrs[bb]?.getD [] = before ++ rest →
      Covered fn blocks s →
      (s.failed = false → ∀ j ∈ before, j.isVoid = false → j.id ∈ s.value_cache) →
      Covered fn (blocks ++ [bb]) (rest.foldl (visitInstr visit bb) s) := by
  induction rest with
  | nil =>
    intro before s split covered earlier
    refine ⟨fun going d member j inside => ?_, covered.fallbacks⟩
    rcases List.mem_append.1 member with old | new
    · exact covered.cache going d old j inside
    · rw [List.mem_singleton.1 new, split, List.append_nil] at inside
      exact earlier going j inside
  | cons i rest ih =>
    intro before s split covered earlier
    have step := visitInstr_step visit bb s i
    refine ih (before ++ [i]) _ (by rw [split, List.append_assoc]; rfl)
      ⟨fun going d member j inside value => step.cache _
        (covered.cache (step.going going) d member j inside value), fun f member => ?_⟩
      fun going j member value => ?_
    · rcases step.fallbacks f member with old | ⟨going, rfl, other, op, used, missing⟩
      · exact covered.fallbacks f old
      · intro reachable
        rcases fn.ssa f.bb reachable before i rest split other op used with
          ⟨j, inside, rfl, value⟩ | ⟨d, different, dominates, j, inside, rfl, value⟩
        · exact missing (earlier going j inside value)
        · exact missing (covered.cache going d (dominators reachable d dominates different)
            j inside value)
    · rcases List.mem_append.1 member with old | new
      · exact step.cache _ (earlier (step.going going) j old value)
      · cases List.mem_singleton.1 new
        exact step.defined going value

theorem Covered.blocks
    (order : List Nat) (sorted : ∀ before b after, order = before ++ b :: after → fn.Reachable b →
      ∀ d, fn.Dominates d b → d ≠ b → d ∈ before) :
    ∀ (todo before : List Nat) (s : Translation), order = before ++ todo →
      Covered fn before s → Covered fn order (todo.foldl (visitBlock fn visit) s) := by
  intro todo
  induction todo with
  | nil =>
    rintro before s rfl covered
    rw [List.append_nil]
    exact covered
  | cons b todo ih =>
    intro before s split covered
    refine ih (before ++ [b]) _ (by rw [split, List.append_assoc]; rfl) ?_
    exact Covered.instrs (sorted before b todo split) _ [] s rfl covered
      fun _ j member => absurd member List.not_mem_nil

theorem mem_before {α : Type} {order before after : List α} {d b : α} (nodup : order.Nodup)
    (split : order = before ++ b :: after) (sublist : [d, b].Sublist order) : d ∈ before := by
  subst split
  have last : b ∉ after := (List.nodup_cons.1 (List.nodup_append.1 nodup).2.1).1
  obtain ⟨left, right, same, first, second⟩ := List.sublist_append_iff.1 sublist
  cases left with
  | cons head left =>
    obtain ⟨rfl, -⟩ := List.cons_eq_cons.1 same
    exact first.subset List.mem_cons_self
  | nil =>
    cases same
    exact absurd (List.singleton_sublist.1 (List.Sublist.tail second)) last

theorem run_covered (fn : LFunction) (hash : HashOrder) (visit : Translation → LInstr → Bool) :
    Covered fn (sortedBbs fn.toFlow hash) (run fn hash visit) := by
  have nodup := (sortedBbs_perm fn.toFlow hash).nodup_iff.2 List.nodup_range
  exact Covered.blocks _ (fun before b after split reachable d dominates other =>
    mem_before nodup split (sortedBbs_dominates hash reachable dominates other)) _ [] _ rfl
    ⟨fun _ d member => absurd member List.not_mem_nil, List.forall_mem_nil _⟩

end

/-- A loop of the blocks 1 and 2 with two entries. -/
example : topSort [[1, 2], [2], [1, 3], []] = [0, 1, 2, 3] := by decide

end AliveNext.LLVM.Order
