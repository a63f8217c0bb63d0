import Mathlib

/-!
# Nondeterministic outcomes with undefined behaviour

A computation denotes the set of its outcomes.  The outcome `none` is
undefined behaviour; `some a` is a normal result.  A target computation
refines a source computation when the source can be undefined, or when every
target outcome is a normal result related to some source result.

The rules below are the ones a simulation proof needs: refinement is
reflexive and transitive, it is kept by sequencing, and it is monotone in the
relation between results.
-/

namespace AliveNext.Lib

universe u v w

/-- The outcomes of a nondeterministic computation; `none` is undefined
behaviour. -/
abbrev Outcomes (α : Type u) := Set (Option α)

namespace Outcomes

variable {α : Type u} {β : Type v} {γ : Type w}

/-- The computation that always returns `result`. -/
def pure (result : α) : Outcomes α :=
  {some result}

def undefined : Outcomes α :=
  {none}

/-- Run `first`, then continue from its result. Undefined behaviour of
`first` is undefined behaviour of the whole computation. -/
def bind (first : Outcomes α) (next : α → Outcomes β) : Outcomes β :=
  {outcome | (none ∈ first ∧ outcome = none) ∨
      ∃ result, some result ∈ first ∧ outcome ∈ next result}

def map (f : α → β) (outcomes : Outcomes α) : Outcomes β :=
  bind outcomes fun result => pure (f result)

variable {result : α} {outcome : Option β} {first outcomes : Outcomes α} {next : α → Outcomes β}
  {f : α → β}

@[simp]
theorem mem_pure {outcome : Option α} : outcome ∈ pure result ↔ outcome = some result :=
  Iff.rfl

theorem mem_bind : outcome ∈ bind first next ↔ (none ∈ first ∧ outcome = none) ∨
        ∃ result, some result ∈ first ∧ outcome ∈ next result :=
  Iff.rfl

theorem none_mem_bind_of_first (undefined : none ∈ first) : none ∈ bind first next :=
  Or.inl ⟨undefined, rfl⟩

theorem mem_bind_of_result (reached : some result ∈ first) (member : outcome ∈ next result) :
    outcome ∈ bind first next :=
  Or.inr ⟨result, reached, member⟩

@[simp]
theorem pure_bind (result : α) (next : α → Outcomes β) : bind (pure result) next = next result := by
  ext outcome
  simp [mem_bind]

@[simp]
theorem undefined_bind (next : α → Outcomes β) : bind undefined next = undefined := by
  ext outcome
  simp [mem_bind, undefined]

@[simp]
theorem bind_pure (outcomes : Outcomes α) : bind outcomes pure = outcomes := by
  ext outcome
  cases outcome with
  | none => simp [mem_bind]
  | some result => simp [mem_bind]

theorem bind_assoc (first : Outcomes α) (second : α → Outcomes β) (third : β → Outcomes γ) :
    bind (bind first second) third = bind first fun result => bind (second result) third := by
  ext outcome
  constructor
  · rintro (⟨undefined, rfl⟩ | ⟨middle, reached, member⟩)
    · rcases undefined with ⟨undefined, -⟩ | ⟨result, reached, undefined⟩
      · exact none_mem_bind_of_first undefined
      · exact mem_bind_of_result reached (none_mem_bind_of_first undefined)
    · rcases reached with ⟨-, impossible⟩ | ⟨result, first, second⟩
      · cases impossible
      · exact mem_bind_of_result first (mem_bind_of_result second member)
  · rintro (⟨undefined, rfl⟩ | ⟨result, reached, member⟩)
    · exact none_mem_bind_of_first (none_mem_bind_of_first undefined)
    · rcases member with ⟨undefined, rfl⟩ | ⟨middle, second, member⟩
      · exact none_mem_bind_of_first (mem_bind_of_result reached undefined)
      · exact mem_bind_of_result (mem_bind_of_result reached second) member

theorem some_mem_map {result : β} : some result ∈ map f outcomes ↔
      ∃ origin, some origin ∈ outcomes ∧ f origin = result := by
  simp [map, mem_bind, eq_comm]

theorem none_mem_map : none ∈ map f outcomes ↔ none ∈ outcomes := by
  simp [map, mem_bind]

theorem bind_nonempty (nonempty : first.Nonempty)
    (nextNonempty : ∀ result, some result ∈ first → (next result).Nonempty) :
    (bind first next).Nonempty := by
  obtain ⟨outcome, member⟩ := nonempty
  cases outcome with
  | none => exact ⟨none, none_mem_bind_of_first member⟩
  | some result =>
    obtain ⟨outcome, reached⟩ := nextNonempty result member
    exact ⟨outcome, mem_bind_of_result member reached⟩

theorem bind_subsingleton (single : first.Subsingleton)
    (nextSingle : ∀ result, (next result).Subsingleton) : (bind first next).Subsingleton := by
  rintro x (⟨undefined, rfl⟩ | ⟨result, reached, member⟩) y
    (⟨undefined', rfl⟩ | ⟨result', reached', member'⟩)
  · rfl
  · cases single undefined reached'
  · cases single reached undefined'
  · cases single reached reached'
    exact nextSingle result member member'

theorem map_subsingleton (single : outcomes.Subsingleton) : (map f outcomes).Subsingleton :=
  bind_subsingleton single fun _ => Set.subsingleton_singleton

/-- `target` refines `source` up to `related`: the source can be undefined,
or every target outcome is a result related to a source result. -/
def Refines (related : α → β → Prop) (target : Outcomes α) (source : Outcomes β) : Prop :=
  none ∈ source ∨ ∀ outcome ∈ target, ∃ result, outcome = some result ∧
        ∃ allowed, some allowed ∈ source ∧ related result allowed

namespace Refines

variable {related : α → β → Prop}

variable {target : Outcomes α} {source : Outcomes β} {order : α → α → Prop} {α' : Type u}
  {β' : Type v} {final : α' → β' → Prop} {f : α → α'} {g : β → β'}

theorem of_undefined (undefined : none ∈ source) : Refines related target source :=
  Or.inl undefined

theorem refl {outcomes : Outcomes α}
    (reflexive : ∀ result, order result result) : Refines order outcomes outcomes := by
  by_cases undefined : none ∈ outcomes
  · exact Or.inl undefined
  · refine Or.inr fun outcome member => ?_
    cases outcome with
    | none => exact absurd member undefined
    | some result =>
      exact ⟨result, rfl, result, member, reflexive result⟩

theorem of_eq {source : Outcomes α} (same : target = source)
    (reflexive : ∀ result, order result result) : Refines order target source := by
  subst same
  exact refl reflexive

theorem pure_iff {result : α} {allowed : β} : Refines related (pure result) (pure allowed) ↔
      related result allowed := by
  constructor
  · rintro (undefined | refined)
    · cases undefined
    · obtain ⟨found, same, source, member, held⟩ :=
        refined (some result) rfl
      cases same
      cases member
      exact held
  · intro held
    refine Or.inr fun outcome member => ?_
    cases member
    exact ⟨result, rfl, allowed, rfl, held⟩

theorem mono {weaker : α → β → Prop} (refined : Refines related target source)
    (implied : ∀ result allowed, some result ∈ target → some allowed ∈ source →
        related result allowed → weaker result allowed) :
    Refines weaker target source := by
  rcases refined with undefined | refined
  · exact Or.inl undefined
  · refine Or.inr fun outcome member => ?_
    obtain ⟨result, rfl, allowed, source, held⟩ := refined outcome member
    exact ⟨result, rfl, allowed, source, implied result allowed member source held⟩

theorem trans {order : β → γ → Prop} {composed : α → γ → Prop}
    {middle : Outcomes β} {source : Outcomes γ}
    (first : Refines related target middle) (second : Refines order middle source)
    (compose : ∀ a b c, related a b → order b c → composed a c) :
    Refines composed target source := by
  rcases second with undefined | second
  · exact Or.inl undefined
  · rcases first with undefined | first
    · obtain ⟨result, impossible, -⟩ := second none undefined
      cases impossible
    · refine Or.inr fun outcome member => ?_
      obtain ⟨a, rfl, b, reached, held⟩ := first outcome member
      obtain ⟨b', same, c, source, held'⟩ := second (some b) reached
      cases same
      exact ⟨a, rfl, c, source, compose a b c held held'⟩

/-- Sequencing: refined first halves followed by refined continuations on
related results are refined. -/
theorem bind {targetNext : α → Outcomes α'} {sourceNext : β → Outcomes β'}
    (first : Refines related target source) (next : ∀ result allowed,
      some result ∈ target → some allowed ∈ source → related result allowed →
          Refines final (targetNext result) (sourceNext allowed)) :
    Refines final (target.bind targetNext) (source.bind sourceNext) := by
  by_cases undefined : none ∈ source.bind sourceNext
  · exact Or.inl undefined
  · refine Or.inr fun outcome member => ?_
    have sourceDefined : none ∉ source := fun reached =>
      undefined (none_mem_bind_of_first reached)
    have firstRefined := first.resolve_left sourceDefined
    rcases member with ⟨reached, -⟩ | ⟨result, reached, member⟩
    · obtain ⟨result, impossible, -⟩ := firstRefined none reached
      cases impossible
    · obtain ⟨found, same, allowed, source, held⟩ :=
        firstRefined (some result) reached
      cases same
      rcases next result allowed reached source held with
        undefinedNext | refinedNext
      · exact absurd (mem_bind_of_result source undefinedNext) undefined
      · obtain ⟨final', same, allowed', source', held'⟩ :=
          refinedNext outcome member
        exact ⟨final', same, allowed', mem_bind_of_result source source', held'⟩

theorem map (refined : Refines related target source)
    (mapped : ∀ result allowed, related result allowed → final (f result) (g allowed)) :
    Refines final (target.map f) (source.map g) :=
  refined.bind fun result allowed _ _ held =>
    pure_iff.mpr (mapped result allowed held)

theorem of_map (refined : Refines final (target.map f) (source.map g)) :
    Refines (fun result allowed => final (f result) (g allowed)) target source := by
  rcases refined with undefined | refined
  · exact Or.inl (none_mem_map.mp undefined)
  · refine Or.inr fun outcome member => ?_
    cases outcome with
    | none =>
      obtain ⟨result, impossible, -⟩ :=
        refined none (none_mem_map.mpr member)
      cases impossible
    | some origin =>
      obtain ⟨result, same, allowed, source', held⟩ :=
        refined (some (f origin)) (some_mem_map.mpr ⟨origin, member, rfl⟩)
      cases same
      obtain ⟨origin', reached, rfl⟩ := some_mem_map.mp source'
      exact ⟨origin, rfl, origin', reached, held⟩

end Refines

end Outcomes

end AliveNext.Lib
