import Mathlib

/-!
# Groups of consecutive items

A single pass cuts a sequence into separators and groups.  A separator and an
item that stands alone close the group before them; every other item joins
the group.  The result is described without the pass: the pieces cover the
sequence in order, and no two groups of joined items are next to each other.
-/

namespace AliveNext.Lib.Grouping

universe u

/-- How an item takes part in the groups. -/
inductive Role where
  | separator | single | joined
  deriving DecidableEq, Repr

inductive Piece (β : Type u) where
  | separator (item : β)
  | group (items : List β)

namespace Piece

variable {β : Type u}

def items : Piece β → List β
  | .separator item => [item]
  | .group items => items

def group? : Piece β → Option (List β)
  | .separator _ => none
  | .group items => some items

def isSeparator : Piece β → Bool
  | .separator _ => true
  | .group _ => false

def Joined (role : β → Role) : Piece β → Prop
  | .separator _ => False
  | .group items => ∀ item ∈ items, role item = .joined

def Fits (role : β → Role) : Piece β → Prop
  | .separator item => role item = .separator
  | .group items => items ≠ [] ∧
      ((∃ item, items = [item] ∧ role item = .single) ∨ ∀ item ∈ items, role item = .joined)

end Piece

structure Grouped {β : Type u} (role : β → Role) (sequence : List β)
    (pieces : List (Piece β)) : Prop where
  covers : pieces.flatMap Piece.items = sequence
  fits : ∀ piece ∈ pieces, piece.Fits role
  maximal : pieces.IsChain fun first second =>
    ¬(first.Joined role ∧ second.Joined role)

/-- The variables of the pass. -/
structure Grouper (β : Type u) where
  closed : List (List β)
  current : List β
  separators : Nat

namespace Grouper

variable {β : Type u}

def start : Grouper β :=
  ⟨[], [], 0⟩

def flush (state : Grouper β) : Grouper β :=
  if state.current.isEmpty then state
  else { state with closed := state.closed ++ [state.current], current := [] }

def push (state : Grouper β) (item : β) : Grouper β :=
  { state with current := state.current ++ [item] }

def step (role : β → Role) (state : Grouper β) (item : β) : Grouper β :=
  match role item with
  | .separator => { state.flush with separators := state.flush.separators + 1 }
  | .single => (state.flush.push item).flush
  | .joined => state.push item

def run (role : β → Role) (sequence : List β) : Grouper β :=
  (sequence.foldl (step role) start).flush

end Grouper

section

variable {β : Type u} {role : β → Role} {covered sequence items : List β}
  {item : β} {groups : List (List β)} {separators : Nat}
  {pieces : List (Piece β)} {state : Grouper β}

/-- What the pass has closed are the groups and the separators of some
pieces. -/
structure Cut (role : β → Role) (covered : List β) (groups : List (List β))
    (separators : Nat) (pieces : List (Piece β)) : Prop where
  grouped : Grouped role covered pieces
  groups_eq : pieces.filterMap Piece.group? = groups
  counted : pieces.countP Piece.isSeparator = separators

theorem Grouped.append (grouped : Grouped role covered pieces) (piece : Piece β)
    (fits : piece.Fits role)
    (apart : ∀ last ∈ pieces.getLast?, ¬(last.Joined role ∧ piece.Joined role)) :
    Grouped role (covered ++ piece.items) (pieces ++ [piece]) where
  covers := by
    rw [List.flatMap_append, grouped.covers, List.flatMap_singleton]
  fits := by
    intro other member
    rcases List.mem_append.mp member with early | late
    · exact grouped.fits other early
    · rw [List.mem_singleton.mp late]
      exact fits
  maximal := by
    refine grouped.maximal.append (.singleton piece) ?_
    intro last final head first
    obtain rfl : piece = head := Option.some.inj first
    exact apart last final

theorem Cut.group (cut : Cut role covered groups separators pieces)
    (fits : (Piece.group items).Fits role)
    (apart : ∀ last ∈ pieces.getLast?, ¬(last.Joined role ∧ (Piece.group items).Joined role)) :
    Cut role (covered ++ items) (groups ++ [items]) separators (pieces ++ [.group items]) where
  grouped := cut.grouped.append (.group items) fits apart
  groups_eq := by
    rw [List.filterMap_append, cut.groups_eq]
    rfl
  counted := by
    rw [List.countP_append, cut.counted]
    rfl

theorem Cut.separator (cut : Cut role covered groups separators pieces)
    (separates : role item = .separator) :
    Cut role (covered ++ [item]) groups (separators + 1) (pieces ++ [.separator item]) where
  grouped := by
    apply cut.grouped.append (.separator item)
    · exact separates
    · rintro last - ⟨-, joined⟩
      exact joined
  groups_eq := by
    rw [List.filterMap_append, cut.groups_eq]
    exact List.append_nil groups
  counted := by
    rw [List.countP_append, cut.counted]
    rfl

/-- The invariant of the pass: the open group joins, and no group of joined
items was closed right before it. -/
def Invariant (role : β → Role) (state : Grouper β) (sequence : List β) :
    Prop :=
  ∃ covered pieces, Cut role covered state.closed state.separators pieces ∧
    covered ++ state.current = sequence ∧
    (∀ item ∈ state.current, role item = .joined) ∧
    ∀ last ∈ pieces.getLast?, ¬last.Joined role

namespace Grouper

theorem flush_cut (holds : Invariant role state sequence) : state.flush.current = [] ∧
      ∃ pieces, Cut role sequence state.flush.closed state.flush.separators
        pieces := by
  obtain ⟨covered, pieces, cut, rfl, joined, apart⟩ := holds
  unfold flush
  split
  next empty =>
    rw [List.isEmpty_iff] at empty
    rw [empty, List.append_nil]
    exact ⟨rfl, pieces, cut⟩
  next nonempty =>
    rw [List.isEmpty_iff] at nonempty
    refine ⟨rfl, _, cut.group ⟨nonempty, .inr joined⟩ ?_⟩
    intro last final both
    exact apart last final both.1

theorem step_invariant (holds : Invariant role state sequence) (item : β) :
    Invariant role (step role state item) (sequence ++ [item]) := by
  unfold step
  split
  next separates =>
    obtain ⟨empty, pieces, cut⟩ := flush_cut holds
    refine ⟨_, _, cut.separator separates, ?_, ?_, ?_⟩
    · rw [empty, List.append_nil]
    · rw [empty]
      exact List.forall_mem_nil _
    · rw [List.getLast?_concat]
      rintro last ⟨⟩ joined
      exact joined
  next alone =>
    obtain ⟨empty, pieces, cut⟩ := flush_cut holds
    have apart : ¬(Piece.group [item]).Joined role := fun joined =>
      Role.noConfusion ((joined item (List.mem_singleton_self item)).symm.trans alone)
    have closed :=
      cut.group ⟨List.cons_ne_nil item [], .inl ⟨item, rfl, alone⟩⟩ fun _ _ both => apart both.2
    generalize state.flush = flushed at empty closed ⊢
    obtain ⟨groups, current, separators⟩ := flushed
    obtain rfl : current = [] := empty
    refine ⟨_, _, closed, List.append_nil _, ?_, ?_⟩
    · exact List.forall_mem_nil _
    · rw [List.getLast?_concat]
      rintro last ⟨⟩
      exact apart
  next joins =>
    obtain ⟨covered, pieces, cut, rfl, joined, apart⟩ := holds
    refine ⟨covered, pieces, cut, (List.append_assoc _ _ _).symm, ?_, apart⟩
    intro other member
    rcases List.mem_append.mp member with early | late
    · exact joined other early
    · rw [List.mem_singleton.mp late]
      exact joins

theorem foldl_invariant (role : β → Role) (sequence : List β) :
    Invariant role (sequence.foldl (step role) start) sequence := by
  induction sequence using List.reverseRecOn with
  | nil =>
    have nothing : Grouped role [] [] :=
      ⟨rfl, List.forall_mem_nil _, .nil⟩
    exact ⟨[], [], ⟨nothing, rfl, rfl⟩, rfl, List.forall_mem_nil _,
      fun _ member => absurd member (Option.not_mem_none _)⟩
  | append_singleton sequence item ih =>
    rw [List.foldl_concat]
    exact step_invariant ih item

theorem run_cut (role : β → Role) (sequence : List β) :
    ∃ pieces, Cut role sequence (run role sequence).closed (run role sequence).separators pieces :=
  (flush_cut (foldl_invariant role sequence)).2

end Grouper

end

end AliveNext.Lib.Grouping
