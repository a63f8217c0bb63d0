import Mathlib

/-!
# Enumeration by blocking

A search picks a point outside the sets that were ruled out so far and rules out a set around
it, as long as it finds one. Where membership in these sets depends on a projection with
finitely many values only, the search comes to an end.
-/

namespace AliveNext.Lib

universe u v

variable {Ω : Type u} {α : Type v} {π : Ω → α}

/-- The rounds of a search: each finds a new point, and rules out a set that has it. -/
structure Blocks (π : Ω → α) (more : ℕ → Prop) (ruledOut : ℕ → Set Ω) : Prop where
  picks : ∀ k, (∀ j ≤ k, more j) → ∃ a ∈ ruledOut k, ∀ j < k, a ∉ ruledOut j
  saturated : ∀ k, (∀ j ≤ k, more j) → ∀ a b, π a = π b → a ∈ ruledOut k → b ∈ ruledOut k

namespace Blocks

variable {more : ℕ → Prop} {ruledOut : ℕ → Set Ω}

theorem injective (blocks : Blocks π more ruledOut) (always : ∀ k, more k) :
    ∃ picked : ℕ → Ω, Function.Injective (π ∘ picked) := by
  choose picked inside fresh using fun k => blocks.picks k fun j _ => always j
  have earlier : ∀ j k, j < k → π (picked j) ≠ π (picked k) := by
    intro j k before same
    exact fresh k j before (blocks.saturated j (fun i _ => always i) _ _ same (inside j))
  refine ⟨picked, fun j k same => ?_⟩
  rcases lt_trichotomy j k with before | equal | after
  · exact absurd same (earlier j k before)
  · exact equal
  · exact absurd same.symm (earlier k j after)

theorem ends (blocks : Blocks π more ruledOut)
    (finite : (Set.range π).Finite) : ∃ rounds, (∀ k < rounds, more k) ∧ ¬more rounds := by
  classical
  have stops : ∃ k, ¬more k := by
    by_contra always
    push Not at always
    obtain ⟨picked, injective⟩ := blocks.injective always
    have within : Set.range (π ∘ picked) ⊆ Set.range π := Set.range_comp_subset_range picked π
    exact Set.infinite_range_of_injective injective (finite.subset within)
  refine ⟨Nat.find stops, fun k before => ?_, Nat.find_spec stops⟩
  exact not_not.1 (Nat.find_min stops before)

end Blocks

end AliveNext.Lib
