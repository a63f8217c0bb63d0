import Mathlib

/-!
# Depth-first search with a post order

Every node is marked when it is visited and put into the order when all its
successors are done. A node is on a walk from one of the roots whose other nodes
come later in the order.
-/

namespace AliveNext.Lib

universe u

variable {α : Type u}

structure Search (α : Type u) where
  marked : List α
  sorted : List α

inductive Walk (succ : α → List α) : α → List α → α → Prop
  | here (v : α) : Walk succ v [v] v
  | step {v w b : α} {path : List α} : w ∈ succ v → Walk succ w path b → Walk succ v (v :: path) b

structure Visited (succ : α → List α) (roots : List α) (s t : Search α) (new : List α) : Prop where
  sorted : t.sorted = s.sorted ++ new
  marked : ∀ x, x ∈ t.marked ↔ x ∈ s.marked ∨ x ∈ new
  fresh : ∀ x ∈ new, x ∉ s.marked
  nodup : new.Nodup
  rooted : ∀ x ∈ roots, x ∈ t.marked
  closed : ∀ x ∈ new, ∀ c ∈ succ x, c ∈ t.marked
  walks : ∀ before b later, new = before ++ b :: later →
    ∃ r ∈ roots, ∃ path, Walk succ r path b ∧ ∀ x ∈ path, x = b ∨ x ∈ later

variable {succ : α → List α} {nodes roots : List α} {s t : Search α} {v : α} {new : List α}

variable {w : α} {path new' : List α}

theorem Walk.last (walk : Walk succ v path w) : ∃ front, path = front ++ [w] := by
  induction walk with
  | here v => exact ⟨[], rfl⟩
  | @step v _ _ path _ _ ih =>
    obtain ⟨front, rfl⟩ := ih
    exact ⟨v :: front, rfl⟩

theorem Walk.first (walk : Walk succ v path w) : v ∈ path := by
  cases walk with
  | here => exact List.mem_singleton_self v
  | step => exact List.mem_cons_self

theorem Walk.end_cases (walk : Walk succ v path w) : w = v ∨ ∃ x, w ∈ succ x := by
  induction walk with
  | here v => exact .inl rfl
  | @step v w b path edge _ ih =>
    rcases ih with rfl | later
    · exact .inr ⟨v, edge⟩
    · exact .inr later

theorem Visited.none (succ : α → List α) (s : Search α) : Visited succ [] s s [] where
  sorted := (List.append_nil _).symm
  marked x := by simp
  fresh x member := absurd member List.not_mem_nil
  nodup := List.nodup_nil
  rooted x member := absurd member List.not_mem_nil
  closed x member := absurd member List.not_mem_nil
  walks before b later same := absurd same (by simp)

theorem Visited.seen (seen : v ∈ s.marked) : Visited succ [v] s s [] where
  sorted := (List.append_nil _).symm
  marked x := by simp
  fresh x member := absurd member List.not_mem_nil
  nodup := List.nodup_nil
  rooted x member := by
    cases List.mem_singleton.1 member
    exact seen
  closed x member := absurd member List.not_mem_nil
  walks before b later same := absurd same (by simp)

theorem Visited.append {roots' : List α} {u : Search α} (first : Visited succ roots s t new)
    (second : Visited succ roots' t u new') :
    Visited succ (roots ++ roots') s u (new ++ new') where
  sorted := by rw [second.sorted, first.sorted, List.append_assoc]
  marked x := by rw [second.marked, first.marked, List.mem_append, or_assoc]
  fresh x member := by
    rcases List.mem_append.1 member with left | right
    · exact first.fresh x left
    · exact fun seen => second.fresh x right ((first.marked x).2 (.inl seen))
  nodup := by
    refine List.nodup_append.2 ⟨first.nodup, second.nodup, ?_⟩
    rintro a left b right rfl
    exact second.fresh a right ((first.marked a).2 (.inr left))
  rooted x member := by
    rcases List.mem_append.1 member with left | right
    · exact (second.marked x).2 (.inl (first.rooted x left))
    · exact second.rooted x right
  closed x member c edge := by
    rcases List.mem_append.1 member with left | right
    · exact (second.marked c).2 (.inl (first.closed x left c edge))
    · exact second.closed x right c edge
  walks before b later same := by
    rcases List.append_eq_append_iff.1 same with ⟨middle, rfl, right⟩ | ⟨middle, rfl, right⟩
    · obtain ⟨r, root, path, walk, order⟩ := second.walks middle b later right
      exact ⟨r, List.mem_append_right _ root, path, walk, order⟩
    · cases middle with
      | nil =>
        obtain ⟨r, root, path, walk, order⟩ := second.walks [] b later right.symm
        exact ⟨r, List.mem_append_right _ root, path, walk, order⟩
      | cons c middle =>
        cases right
        obtain ⟨r, root, path, walk, order⟩ := first.walks before b middle rfl
        refine ⟨r, List.mem_append_left _ root, path, walk, fun x member => ?_⟩
        exact (order x member).imp_right (List.mem_append_left _)

theorem Visited.node
    (unseen : v ∉ s.marked) (inner : Visited succ (succ v) ⟨v :: s.marked, s.sorted⟩ t new) :
    Visited succ [v] s ⟨t.marked, t.sorted ++ [v]⟩ (new ++ [v]) where
  sorted := by rw [inner.sorted, List.append_assoc]
  marked x := by
    rw [inner.marked, List.mem_cons, List.mem_append, List.mem_singleton]
    tauto
  fresh x member := by
    rcases List.mem_append.1 member with left | right
    · exact fun seen => inner.fresh x left (List.mem_cons_of_mem v seen)
    · cases List.mem_singleton.1 right
      exact unseen
  nodup := by
    refine List.nodup_append.2 ⟨inner.nodup, List.nodup_singleton v, ?_⟩
    rintro a left b right rfl
    cases List.mem_singleton.1 right
    exact inner.fresh v left List.mem_cons_self
  rooted x member := by
    cases List.mem_singleton.1 member
    exact (inner.marked v).2 (.inl List.mem_cons_self)
  closed x member c edge := by
    rcases List.mem_append.1 member with left | right
    · exact inner.closed x left c edge
    · cases List.mem_singleton.1 right
      exact inner.rooted c edge
  walks before b later same := by
    rcases List.eq_nil_or_concat later with rfl | ⟨later, last, rfl⟩
    · obtain ⟨-, last⟩ := List.append_inj' same rfl
      cases last
      exact ⟨v, List.mem_singleton_self v, [v], .here v,
        fun x member => .inl (List.mem_singleton.1 member)⟩
    · have split : new ++ [v] = (before ++ b :: later) ++ [last] := by
        rw [same, List.concat_eq_append, List.append_assoc]
        rfl
      obtain ⟨rfl, final⟩ := List.append_inj' split rfl
      cases final
      obtain ⟨r, edge, path, walk, order⟩ := inner.walks before b later rfl
      refine ⟨v, List.mem_singleton_self v, v :: path, .step edge walk, fun x member => ?_⟩
      rw [List.concat_eq_append]
      rcases List.mem_cons.1 member with rfl | member
      · exact .inr (List.mem_append_right _ (List.mem_singleton_self x))
      · exact (order x member).imp_right (List.mem_append_left _)

def SuccessorsFirst (succ : α → List α) (s : Search α) (new : List α) : Prop :=
  ∀ before b later, new = before ++ b :: later → ∀ c ∈ succ b,
    c ∈ before ∨ c ∈ s.marked ∨ ∃ path, Walk succ c path b

theorem SuccessorsFirst.none (succ : α → List α) (s : Search α) : SuccessorsFirst succ s [] :=
  fun before b later same => absurd same (by simp)

theorem SuccessorsFirst.append
    (visited : Visited succ roots s t new) (first : SuccessorsFirst succ s new)
    (second : SuccessorsFirst succ t new') : SuccessorsFirst succ s (new ++ new') := by
  intro before b later same c edge
  rcases List.append_eq_append_iff.1 same with ⟨middle, rfl, right⟩ | ⟨middle, rfl, right⟩
  · rcases second middle b later right c edge with earlier | marked | cycle
    · exact .inl (List.mem_append_right _ earlier)
    · rcases (visited.marked c).1 marked with marked | earlier
      · exact .inr (.inl marked)
      · exact .inl (List.mem_append_left _ earlier)
    · exact .inr (.inr cycle)
  · cases middle with
    | nil =>
      rcases second [] b later right.symm c edge with earlier | marked | cycle
      · exact absurd earlier List.not_mem_nil
      · rcases (visited.marked c).1 marked with marked | earlier
        · exact .inr (.inl marked)
        · rw [List.append_nil] at earlier
          exact .inl earlier
      · exact .inr (.inr cycle)
    | cons d middle =>
      cases right
      exact first before b middle rfl c edge

theorem SuccessorsFirst.node (visited : Visited succ (succ v) ⟨v :: s.marked, s.sorted⟩ t new)
    (inner : SuccessorsFirst succ ⟨v :: s.marked, s.sorted⟩ new) :
    SuccessorsFirst succ s (new ++ [v]) := by
  intro before b later same c edge
  rcases List.eq_nil_or_concat later with rfl | ⟨later, last, rfl⟩
  · obtain ⟨rfl, last⟩ := List.append_inj' same rfl
    cases last
    rcases (visited.marked c).1 (visited.rooted c edge) with marked | earlier
    · rcases List.mem_cons.1 marked with rfl | marked
      · exact .inr (.inr ⟨[c], .here c⟩)
      · exact .inr (.inl marked)
    · exact .inl earlier
  · have split : new ++ [v] = (before ++ b :: later) ++ [last] := by
      rw [same, List.concat_eq_append, List.append_assoc]
      rfl
    obtain ⟨rfl, -⟩ := List.append_inj' split rfl
    rcases inner before b later rfl c edge with earlier | marked | cycle
    · exact .inl earlier
    · rcases List.mem_cons.1 marked with rfl | marked
      · obtain ⟨r, root, path, walk, -⟩ := visited.walks before b later rfl
        exact .inr (.inr ⟨c :: path, .step root walk⟩)
      · exact .inr (.inl marked)
    · exact .inr (.inr cycle)

section

variable [DecidableEq α]

/-- Visit a node, with a bound on the depth of the recursion. -/
def Search.visit (succ : α → List α) : Nat → Search α → α → Search α
  | 0, s, _ => s
  | fuel + 1, s, v =>
    if v ∈ s.marked then s
    else
      let inner := (succ v).foldl (Search.visit succ fuel) ⟨v :: s.marked, s.sorted⟩
      ⟨inner.marked, inner.sorted ++ [v]⟩

def unmarked (nodes marked : List α) : Nat :=
  (nodes.filter fun x => x ∉ marked).length

theorem unmarked_le (nodes : List α) {marked marked' : List α}
    (more : ∀ x ∈ marked, x ∈ marked') : unmarked nodes marked' ≤ unmarked nodes marked := by
  refine (List.monotone_filter_right nodes fun x unseen => ?_).length_le
  have unseen := of_decide_eq_true unseen
  exact decide_eq_true fun seen => unseen (more x seen)

theorem unmarked_lt {marked : List α} (member : v ∈ nodes)
    (unseen : v ∉ marked) : unmarked nodes (v :: marked) < unmarked nodes marked := by
  induction nodes with
  | nil => exact absurd member List.not_mem_nil
  | cons head rest ih =>
    have smaller : unmarked rest (v :: marked) ≤ unmarked rest marked :=
      unmarked_le _ fun x seen => List.mem_cons_of_mem v seen
    unfold unmarked at *
    by_cases same : head = v
    · subst same
      rw [List.filter_cons_of_neg (by simp), List.filter_cons_of_pos (by simpa using unseen),
        List.length_cons]
      exact Nat.lt_succ_of_le smaller
    · have rest := ih ((List.mem_cons.1 member).resolve_left (Ne.symm same))
      by_cases seen : head ∈ marked
      · rw [List.filter_cons_of_neg (by simp [seen]), List.filter_cons_of_neg (by simp [seen])]
        exact rest
      · rw [List.filter_cons_of_pos (by simp [seen, same]),
          List.filter_cons_of_pos (by simp [seen]), List.length_cons, List.length_cons]
        exact Nat.succ_lt_succ rest

theorem foldl_visited
    {fuel : Nat} (single : ∀ s v, v ∈ nodes → unmarked nodes s.marked < fuel →
      ∃ new, Visited succ [v] s (Search.visit succ fuel s v) new ∧ SuccessorsFirst succ s new) :
    ∀ (roots : List α) (s : Search α), (∀ v ∈ roots, v ∈ nodes) → unmarked nodes s.marked < fuel →
      ∃ new, Visited succ roots s (roots.foldl (Search.visit succ fuel) s) new ∧
        SuccessorsFirst succ s new := by
  intro roots
  induction roots with
  | nil => exact fun s _ _ => ⟨[], .none succ s, .none succ s⟩
  | cons v roots ih =>
    intro s inside enough
    obtain ⟨new, first, order⟩ := single s v (inside v List.mem_cons_self) enough
    have fewer := unmarked_le nodes fun x seen => (first.marked x).2 (.inl seen)
    obtain ⟨new', second, order'⟩ := ih (Search.visit succ fuel s v)
      (fun w member => inside w (List.mem_cons_of_mem v member)) (fewer.trans_lt enough)
    exact ⟨new ++ new', first.append second, .append first order order'⟩

theorem visit_visited (edges : ∀ v ∈ nodes, ∀ w ∈ succ v, w ∈ nodes) (fuel : Nat) :
    ∀ (s : Search α) (v : α), v ∈ nodes → unmarked nodes s.marked < fuel →
      ∃ new, Visited succ [v] s (Search.visit succ fuel s v) new ∧ SuccessorsFirst succ s new := by
  induction fuel with
  | zero => exact fun s v _ enough => absurd enough (Nat.not_lt_zero _)
  | succ fuel ih =>
    intro s v inside enough
    unfold Search.visit
    split
    · next seen => exact ⟨[], .seen seen, .none succ s⟩
    · next unseen =>
        have fewer := unmarked_lt inside unseen
        obtain ⟨new, inner, order⟩ := foldl_visited ih (succ v) ⟨v :: s.marked, s.sorted⟩
          (edges v inside) (by
            change unmarked nodes (v :: s.marked) < fuel
            omega)
        exact ⟨new ++ [v], inner.node unseen, .node inner order⟩

end

end AliveNext.Lib
