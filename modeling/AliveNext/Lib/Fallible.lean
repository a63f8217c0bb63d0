import Mathlib

/-!
# Computations that can fail

Peeling a successful computation apart, and the invariant rule of a loop that
can fail.
-/

namespace AliveNext.Lib

universe u v w

variable {ε : Type u} {α : Type v} {β : Type v}

theorem bind_eq_ok {first : Except ε α} {next : α → Except ε β} {result : β} :
    (first >>= next) = .ok result ↔ ∃ middle, first = .ok middle ∧ next middle = .ok result := by
  cases first with
  | error failure => simp [bind, Except.bind]
  | ok middle => simp [bind, Except.bind]

section

variable {γ : Type w} {step : α → γ → Except ε α} {init result : α}

variable {items : List γ}

theorem foldlM_cons_eq_ok {item : γ} : (item :: items).foldlM step init = .ok result ↔
      ∃ middle, step init item = .ok middle ∧ items.foldlM step middle = .ok result := by
  rw [List.foldlM_cons, bind_eq_ok]

theorem foldlM_eq_error {failure : ε} : items.foldlM step init = .error failure ↔
      ∃ before item after middle, items = before ++ item :: after ∧
        before.foldlM step init = .ok middle ∧
        step middle item = .error failure := by
  induction items generalizing init with
  | nil =>
    refine iff_of_false (by simp [pure, Except.pure]) ?_
    rintro ⟨before, item, after, -, same, -, -⟩
    simp at same
  | cons item items ih =>
    rw [List.foldlM_cons]
    cases first : step init item with
    | error other =>
      constructor
      · intro failed
        obtain rfl : other = failure := Except.error.inj failed
        exact ⟨[], item, items, init, rfl, rfl, first⟩
      · rintro ⟨before, item', after, middle, same, reached, failed⟩
        cases before with
        | nil =>
          obtain ⟨rfl, rfl⟩ := List.cons.inj same
          obtain rfl : init = middle := Except.ok.inj reached
          rw [first] at failed
          exact congrArg Except.error (Except.error.inj failed)
        | cons head before =>
          obtain ⟨rfl, rfl⟩ := List.cons.inj same
          obtain ⟨next, stepped, -⟩ := foldlM_cons_eq_ok.mp reached
          rw [first] at stepped
          cases stepped
    | ok next =>
      refine Iff.trans ih ?_
      constructor
      · rintro ⟨before, item', after, middle, rfl, reached, failed⟩
        exact ⟨item :: before, item', after, middle, rfl,
          foldlM_cons_eq_ok.mpr ⟨next, first, reached⟩, failed⟩
      · rintro ⟨before, item', after, middle, same, reached, failed⟩
        cases before with
        | nil =>
          obtain ⟨rfl, rfl⟩ := List.cons.inj same
          obtain rfl : init = middle := Except.ok.inj reached
          rw [first] at failed
          cases failed
        | cons head before =>
          obtain ⟨rfl, rfl⟩ := List.cons.inj same
          obtain ⟨other, stepped, rest⟩ := foldlM_cons_eq_ok.mp reached
          obtain rfl : next = other := Except.ok.inj (first.symm.trans stepped)
          exact ⟨before, item', after, middle, rfl, rest, failed⟩

theorem foldlM_invariant (Inv : α → Prop)
    (finished : items.foldlM step init = .ok result) (start : Inv init)
    (kept : ∀ item ∈ items, ∀ before after, Inv before → step before item = .ok after → Inv after) :
    Inv result := by
  induction items generalizing init with
  | nil =>
    obtain rfl : init = result := Except.ok.inj finished
    exact start
  | cons item items ih =>
    obtain ⟨middle, first, rest⟩ := foldlM_cons_eq_ok.mp finished
    exact ih rest (kept item List.mem_cons_self init middle start first)
      fun other member => kept other (List.mem_cons_of_mem item member)

end

end AliveNext.Lib
