import AliveNext.IR.Flow

/-!
# Dominance is an order

A path through a block has a shorter path to that block in it, so dominance is
transitive, and two reachable blocks that dominate each other are one.
-/

namespace AliveNext.IR.Flow

variable {g : Flow} {a b d : Nat} {rest blocks : List Nat}

theorem Path.before (path : g.Path blocks) (member : d ∈ blocks) :
    ∃ rest, g.Path (d :: rest) ∧ (d :: rest) <:+ blocks := by
  induction path with
  | entry =>
    cases List.mem_singleton.1 member
    exact ⟨[], .entry, List.suffix_refl _⟩
  | @jump p b rest path jump ih =>
    rcases List.mem_cons.1 member with rfl | later
    · exact ⟨p :: rest, .jump path jump, List.suffix_refl _⟩
    · obtain ⟨before, prior, suffix⟩ := ih later
      exact ⟨before, prior, suffix.trans (List.suffix_cons _ _)⟩

theorem Path.earlier (path : g.Path (b :: rest)) (member : d ∈ rest) :
    ∃ before, g.Path (d :: before) ∧ (d :: before) <:+ rest := by
  cases path with
  | entry => cases member
  | jump path jump => exact path.before member

theorem Dominates.antisymm
    (reachable : g.Reachable b) (first : g.Dominates a b) (second : g.Dominates b a) : a = b := by
  by_contra different
  obtain ⟨rest, path⟩ := reachable
  induction hlength : rest.length using Nat.strong_induction_on generalizing rest with
  | _ n ih =>
    have through := (List.mem_cons.1 (first rest path)).resolve_left different
    -- a shorter path to `a`, and in it a shorter one to `b`
    obtain ⟨toA, pathA, suffixA⟩ := path.earlier through
    have back := (List.mem_cons.1 (second toA pathA)).resolve_left (Ne.symm different)
    obtain ⟨toB, pathB, suffixB⟩ := pathA.earlier back
    have shorter : toB.length < n := by
      have lengthA := suffixA.length_le
      have lengthB := suffixB.length_le
      rw [List.length_cons] at lengthA lengthB
      omega
    exact ih toB.length shorter toB pathB rfl

theorem Reachable.first (reachable : g.Reachable b) : ∃ rest, g.Path (b :: rest) ∧ b ∉ rest := by
  obtain ⟨rest, path⟩ := reachable
  induction hlength : rest.length using Nat.strong_induction_on generalizing rest with
  | _ n ih =>
    by_cases again : b ∈ rest
    · obtain ⟨before, prior, suffix⟩ := path.earlier again
      have length := suffix.length_le
      rw [List.length_cons] at length
      exact ih before.length (by omega) before prior rfl
    · exact ⟨rest, path, again⟩

theorem Dominates.source {p : Nat} (dominates : g.Dominates d b) (jump : b ∈ g.succ p)
    (other : d ≠ b) : g.Dominates d p :=
  fun _ path => (List.mem_cons.1 (dominates _ (.jump path jump))).resolve_left other

end AliveNext.IR.Flow
