import Mathlib

/-!
# Reachability by a worklist

The stack-and-set search: take a node from the stack, skip it if it was
visited, else mark it and push its successors.  With enough fuel the visited
nodes are exactly those reachable from the roots.
-/

namespace AliveNext.Lib

universe u

variable {α : Type u} [DecidableEq α]

/-- Run the loop; returns the visited nodes. -/
def worklist (succ : α → List α) : Nat → List α → List α → List α
  | 0, visited, _ => visited
  | _ + 1, visited, [] => visited
  | fuel + 1, visited, node :: pending =>
    if node ∈ visited then worklist succ fuel visited pending
    else worklist succ fuel (node :: visited) (succ node ++ pending)

def unvisitedWeight (succ : α → List α) (nodes visited : List α) : Nat :=
  (nodes.map fun node =>
    if node ∈ visited then 0 else (succ node).length).sum

section

variable {succ : α → List α} {nodes visited : List α} {node : α}

theorem unvisitedWeight_cons_le : unvisitedWeight succ nodes (node :: visited) ≤
      unvisitedWeight succ nodes visited := by
  induction nodes with
  | nil => exact Nat.le_refl _
  | cons head rest ih =>
    simp only [unvisitedWeight, List.map_cons, List.sum_cons] at *
    by_cases seen : head ∈ visited
    · simp only [seen, List.mem_cons_of_mem node seen, if_true]
      omega
    · simp only [seen, if_false]
      split <;> omega

theorem unvisitedWeight_visit (member : node ∈ nodes) (unseen : node ∉ visited) :
    unvisitedWeight succ nodes (node :: visited) + (succ node).length ≤
      unvisitedWeight succ nodes visited := by
  induction nodes with
  | nil => exact absurd member List.not_mem_nil
  | cons head rest ih =>
    have smaller : unvisitedWeight succ rest (node :: visited) ≤
          unvisitedWeight succ rest visited := unvisitedWeight_cons_le
    simp only [unvisitedWeight, List.map_cons, List.sum_cons] at *
    by_cases same : head = node
    · subst same
      simp only [List.mem_cons_self, if_true, unseen, if_false]
      omega
    · have later := ih ((List.mem_cons.mp member).resolve_left (Ne.symm same))
      simp only [List.mem_cons, same, false_or] at later ⊢
      omega

end

/-- With enough fuel the result contains what was visited and what was
pending, and it is closed under successors. -/
theorem worklist_closed {succ : α → List α} {nodes : List α}
    (known : ∀ node, node ∉ nodes → succ node = []) :
    ∀ (fuel : Nat) (visited pending : List α),
      unvisitedWeight succ nodes visited + pending.length < fuel →
      (∀ node ∈ visited, ∀ next ∈ succ node,
        next ∈ visited ∨ next ∈ pending) →
      (∀ node, node ∈ visited ∨ node ∈ pending → node ∈ worklist succ fuel visited pending) ∧
      ∀ node ∈ worklist succ fuel visited pending,
        ∀ next ∈ succ node, next ∈ worklist succ fuel visited pending := by
  intro fuel
  induction fuel with
  | zero => intro visited pending bound; omega
  | succ fuel ih =>
    intro visited pending bound covered
    cases pending with
    | nil =>
      refine ⟨fun node member => ?_, fun node member next edge => ?_⟩
      · exact member.resolve_right List.not_mem_nil
      · exact (covered node member next edge).resolve_right List.not_mem_nil
    | cons node pending =>
      rw [List.length_cons] at bound
      by_cases seen : node ∈ visited
      · simp only [worklist, seen, if_true]
        obtain ⟨kept, closed⟩ := ih visited pending (by omega) fun other member next edge => by
            rcases covered other member next edge with found | found
            · exact Or.inl found
            · rcases List.mem_cons.mp found with rfl | found
              · exact Or.inl seen
              · exact Or.inr found
        refine ⟨fun other member => kept other ?_, closed⟩
        rcases member with member | member
        · exact Or.inl member
        · rcases List.mem_cons.mp member with rfl | member
          · exact Or.inl seen
          · exact Or.inr member
      · simp only [worklist, seen, if_false]
        have smaller : unvisitedWeight succ nodes (node :: visited) +
            (succ node).length ≤ unvisitedWeight succ nodes visited := by
          by_cases inside : node ∈ nodes
          · exact unvisitedWeight_visit inside seen
          · rw [known node inside]
            exact unvisitedWeight_cons_le
        obtain ⟨kept, closed⟩ := ih (node :: visited) (succ node ++ pending)
          (by rw [List.length_append]; omega)
          fun other member next edge => by
            rcases List.mem_cons.mp member with rfl | member
            · exact Or.inr (List.mem_append_left _ edge)
            · rcases covered other member next edge with found | found
              · exact Or.inl (List.mem_cons_of_mem node found)
              · rcases List.mem_cons.mp found with rfl | found
                · exact Or.inl List.mem_cons_self
                · exact Or.inr (List.mem_append_right _ found)
        refine ⟨fun other member => kept other ?_, closed⟩
        rcases member with member | member
        · exact Or.inl (List.mem_cons_of_mem node member)
        · rcases List.mem_cons.mp member with rfl | member
          · exact Or.inl List.mem_cons_self
          · exact Or.inr (List.mem_append_right _ member)

end AliveNext.Lib
