import Mathlib

/-!
# Control flow

The blocks of a function and the jumps between them, paths and dominance
(`ir/function.h`).
-/

namespace AliveNext.IR

/-- The targets of the jumps of each block. -/
structure Flow where
  targets : List (List Nat)
  nonempty : targets ≠ []
  inBounds : ∀ ts ∈ targets, ∀ t ∈ ts, t < targets.length
  entryFree : ∀ ts ∈ targets, 0 ∉ ts

namespace Flow

variable (g : Flow)

def bbCount : Nat := g.targets.length

/-- `bb->targets()`. -/
def succ (b : Nat) : List Nat := g.targets[b]?.getD []

/-- The edges in the order of `CFG`. -/
def cfg : List (Nat × Nat) :=
  (List.range g.bbCount).flatMap fun src => (g.succ src).map fun dst => (src, dst)

inductive Path : List Nat → Prop
  | entry : Path [0]
  | jump {p b : Nat} {rest : List Nat} : Path (p :: rest) → b ∈ g.succ p → Path (b :: p :: rest)

def Reachable (b : Nat) : Prop := ∃ rest, g.Path (b :: rest)

/-- Every path from the entry to `b` passes through `d`. -/
def Dominates (d b : Nat) : Prop := ∀ rest, g.Path (b :: rest) → d ∈ b :: rest

structure Cycle (blocks : List Nat) : Prop where
  nonempty : blocks ≠ []
  jumps : ∀ (i : Nat) (inside : i < blocks.length),
    blocks.get ⟨(i + 1) % blocks.length, Nat.mod_lt _ (by omega)⟩ ∈ g.succ blocks[i]

variable {g} {b d p t : Nat} {rest : List Nat}

theorem bbCount_pos (g : Flow) : 0 < g.bbCount := List.length_pos_iff_ne_nil.2 g.nonempty

theorem mem_targets_of_succ (jump : t ∈ g.succ b) : ∃ ts ∈ g.targets, t ∈ ts := by
  unfold succ at jump
  cases known : g.targets[b]? with
  | none => rw [known] at jump; exact absurd jump List.not_mem_nil
  | some ts => rw [known] at jump; exact ⟨ts, List.mem_of_getElem? known, jump⟩

theorem succ_lt (jump : t ∈ g.succ b) : t < g.bbCount := by
  obtain ⟨ts, member, inside⟩ := mem_targets_of_succ jump
  exact g.inBounds ts member t inside

theorem succ_ne_entry (jump : t ∈ g.succ b) : t ≠ 0 := by
  obtain ⟨ts, member, inside⟩ := mem_targets_of_succ jump
  rintro rfl
  exact g.entryFree ts member inside

theorem src_lt (jump : t ∈ g.succ b) : b < g.bbCount := by
  unfold succ at jump
  by_contra outside
  rw [List.getElem?_eq_none_iff.2 (not_lt.1 outside)] at jump
  exact absurd jump List.not_mem_nil

theorem mem_cfg {src dst : Nat} : (src, dst) ∈ g.cfg ↔ dst ∈ g.succ src := by
  unfold cfg
  simp only [List.mem_flatMap, List.mem_range, List.mem_map, Prod.mk.injEq]
  constructor
  · rintro ⟨_, -, _, jump, rfl, rfl⟩
    exact jump
  · intro jump
    exact ⟨src, src_lt jump, dst, jump, rfl, rfl⟩

theorem Path.lt (path : g.Path (b :: rest)) : b < g.bbCount := by
  cases path with
  | entry => exact g.bbCount_pos
  | jump _ jump => exact succ_lt jump

theorem Dominates.refl (g : Flow) (b : Nat) : g.Dominates b b := fun _ _ => List.mem_cons_self

theorem Path.mem_of_step {blocks : List Nat} (path : g.Path blocks)
    (entry : d = 0 ∨ ∀ t ∈ g.succ 0, t = d) : blocks = [0] ∨ d ∈ blocks := by
  induction path with
  | entry => exact .inl rfl
  | @jump p b rest _ jump ih =>
    right
    rcases ih with start | inside
    · cases start
      rcases entry with rfl | only
      · exact List.mem_cons_of_mem b List.mem_cons_self
      · rw [only b jump]
        exact List.mem_cons_self
    · exact List.mem_cons_of_mem b inside

theorem Dominates.entry (g : Flow) (b : Nat) : g.Dominates 0 b := by
  intro rest path
  rcases path.mem_of_step (.inl rfl) with start | inside
  · rw [start]
    exact List.mem_cons_self
  · exact inside

theorem Dominates.of_entry (only : ∀ t ∈ g.succ 0, t = d) (other : b ≠ 0) : g.Dominates d b := by
  intro rest path
  rcases path.mem_of_step (.inr only) with start | inside
  · cases start
    exact absurd rfl other
  · exact inside

theorem reachable_entry (g : Flow) : g.Reachable 0 := ⟨[], .entry⟩

theorem Reachable.rec_on {P : Nat → Prop} (reachable : g.Reachable b) (entry : P 0)
    (step : ∀ p t, P p → t ∈ g.succ p → P t) : P b := by
  obtain ⟨rest, path⟩ := reachable
  have general : ∀ blocks : List Nat, g.Path blocks → ∀ b rest, blocks = b :: rest → P b := by
    intro blocks path
    induction path with
    | entry =>
      rintro b rest same
      cases same
      exact entry
    | @jump p t before _ jump ih =>
      rintro b rest same
      cases same
      exact step p t (ih p before rfl) jump
  exact general _ path b rest rfl

theorem Cycle.pred {blocks : List Nat} (cycle : g.Cycle blocks)
    (member : b ∈ blocks) : ∃ p ∈ blocks, b ∈ g.succ p := by
  obtain ⟨i, inside, rfl⟩ := List.getElem_of_mem member
  by_cases first : i = 0
  · have last := cycle.jumps (blocks.length - 1) (by omega)
    subst first
    refine ⟨_, List.getElem_mem (show blocks.length - 1 < blocks.length by omega), ?_⟩
    have wraps : (blocks.length - 1 + 1) % blocks.length = 0 := by
      rw [Nat.sub_add_cancel (by omega), Nat.mod_self]
    simp only [wraps] at last
    exact last
  · have before := cycle.jumps (i - 1) (by omega)
    refine ⟨_, List.getElem_mem (show i - 1 < blocks.length by omega), ?_⟩
    have next : (i - 1 + 1) % blocks.length = i := by
      rw [Nat.sub_add_cancel (by omega), Nat.mod_eq_of_lt inside]
    simp only [next] at before
    exact before

end Flow

end AliveNext.IR
