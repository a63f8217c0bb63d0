import Mathlib

/-!
# Lists with fillers

A list of elements, some of which are followed by a filler. The flags tell, for
each place of the list, whether it holds a filler.
-/

namespace AliveNext.Lib

/-- The places of the list: `followed` tells which elements have a filler after them. -/
def fillers (followed : List Bool) : List Bool :=
  followed.flatMap fun after => if after then [false, true] else [false]

/-- The place of the `n`-th element. -/
def fieldAt : List Bool → Nat → Option Nat
  | [], _ => none
  | true :: rest, n => (fieldAt rest n).map (· + 1)
  | false :: _, 0 => some 0
  | false :: rest, n + 1 => (fieldAt rest n).map (· + 1)

variable {followed filler : List Bool} {n place : Nat}

@[simp] theorem fillers_nil : fillers [] = [] := rfl

@[simp] theorem fillers_cons_true (rest : List Bool) :
    fillers (true :: rest) = false :: true :: fillers rest :=
  rfl

@[simp] theorem fillers_cons_false (rest : List Bool) :
    fillers (false :: rest) = false :: fillers rest :=
  rfl

theorem fillers_replicate_true (n : Nat) :
    fillers (List.replicate n true) = (List.replicate n [false, true]).flatten := by
  rw [fillers, List.flatMap_replicate]
  rfl

theorem fillers_replicate_false (n : Nat) :
    fillers (List.replicate n false) = List.replicate n false := by
  rw [fillers, List.flatMap_replicate]
  exact List.flatten_replicate_singleton

theorem fieldAt_fillers (inside : n < followed.length) :
    fieldAt (fillers followed) n = some (n + (followed.take n).count true) := by
  induction followed generalizing n with
  | nil => exact absurd inside (Nat.not_lt_zero n)
  | cons after rest ih =>
    cases after with
    | false =>
      rw [fillers_cons_false]
      cases n with
      | zero => rfl
      | succ n =>
        rw [fieldAt, ih (Nat.lt_of_succ_lt_succ inside), List.take_succ_cons,
          List.count_cons_of_ne Bool.false_ne_true, Option.map_some]
        congr 1
        omega
    | true =>
      rw [fillers_cons_true]
      cases n with
      | zero => rfl
      | succ n =>
        rw [fieldAt, fieldAt, ih (Nat.lt_of_succ_lt_succ inside),
          List.take_succ_cons, List.count_cons_self, Option.map_some, Option.map_some]
        congr 1
        omega

theorem fieldAt_lt (field : fieldAt filler n = some place) : place < filler.length := by
  induction filler generalizing n place with
  | nil => cases field
  | cons flag rest ih =>
    cases flag with
    | true =>
      obtain ⟨before, earlier, rfl⟩ := Option.map_eq_some_iff.1 field
      exact Nat.succ_lt_succ (ih earlier)
    | false =>
      cases n with
      | zero =>
        cases field
        exact Nat.succ_pos _
      | succ n =>
        obtain ⟨before, earlier, rfl⟩ := Option.map_eq_some_iff.1 field
        exact Nat.succ_lt_succ (ih earlier)

theorem fieldAt_get (field : fieldAt filler n = some place) : filler[place]? = some false := by
  induction filler generalizing n place with
  | nil => cases field
  | cons flag rest ih =>
    cases flag with
    | true =>
      obtain ⟨before, earlier, rfl⟩ := Option.map_eq_some_iff.1 field
      exact ih earlier
    | false =>
      cases n with
      | zero =>
        cases field
        rfl
      | succ n =>
        obtain ⟨before, earlier, rfl⟩ := Option.map_eq_some_iff.1 field
        exact ih earlier

/-- The first `m` places hold the fillers of the first `n` elements if and only if each of these
fillers is among them. -/
theorem count_take_fillers_iff {m : Nat} (short : m ≤ n + 1) :
    ((fillers followed).take m).count true = (followed.take n).count true ↔
      ∀ j < n, followed[j]? = some true → j + 1 + (followed.take j).count true < m := by
  induction followed generalizing m n with
  | nil => simp
  | cons after rest ih =>
    cases n with
    | zero =>
      have first : ((fillers (after :: rest)).take m).count true = 0 := by
        cases after with
        | false => interval_cases m <;> rfl
        | true => interval_cases m <;> rfl
      simp only [first, List.take_zero, List.count_nil, Nat.not_lt_zero, false_implies,
        implies_true]
    | succ n =>
      rw [Nat.forall_lt_succ_left, List.take_succ_cons]
      simp only [List.getElem?_cons_zero, List.getElem?_cons_succ, List.take_succ_cons,
        List.take_zero, List.count_nil]
      cases after with
      | false =>
        have take : ((fillers (false :: rest)).take m).count true =
            ((fillers rest).take (m - 1)).count true := by
          cases m with
          | zero => rfl
          | succ m => exact List.count_cons_of_ne Bool.false_ne_true
        rw [take, List.count_cons_of_ne Bool.false_ne_true, ih (by omega)]
        constructor
        · intro early
          refine ⟨fun same => absurd same (by decide), fun j inside filler => ?_⟩
          have := early j inside filler
          rw [List.count_cons_of_ne Bool.false_ne_true]
          omega
        · rintro ⟨-, early⟩ j inside filler
          have := early j inside filler
          rw [List.count_cons_of_ne Bool.false_ne_true] at this
          omega
      | true =>
        rw [List.count_cons_self]
        match m, short with
        | 0, _ => simp
        | 1, _ => simp
        | m + 2, short =>
          have take : ((fillers (true :: rest)).take (m + 2)).count true =
              ((fillers rest).take m).count true + 1 :=
            (List.count_cons_of_ne Bool.false_ne_true).trans List.count_cons_self
          rw [take, Nat.add_right_cancel_iff, ih (by omega)]
          constructor
          · intro early
            refine ⟨fun _ => by omega, fun j inside filler => ?_⟩
            have := early j inside filler
            rw [List.count_cons_self]
            omega
          · rintro ⟨-, early⟩ j inside filler
            have := early j inside filler
            rw [List.count_cons_self] at this
            omega

end AliveNext.Lib
