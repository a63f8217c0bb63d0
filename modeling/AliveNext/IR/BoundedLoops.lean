import Mathlib

/-!
# Loops that are unrolled

`LoopLikeFunctionApproximator` (`ir/instr.cpp`) encodes a loop by its first iterations, and drops
the models in which the loop goes on. Expressions are given by their values in one model.
-/

namespace AliveNext.IR.BoundedLoops

/-- A condition in a model; `constant` if its expression is a constant. -/
structure Cond where
  holds : Bool
  constant : Bool
  deriving DecidableEq

def Cond.isFalse (c : Cond) : Bool := c.constant && !c.holds

/-- What `ith_exec` returns. -/
structure Iteration (V : Type) where
  value : V
  nonPoison : Bool
  ub : Cond
  continues : Cond

/-- `ith_exec`, with the number of the iteration and whether it is the last one. -/
abbrev IthExec (V : Type) := Nat → Bool → Iteration V

/-- What `encode` returns, and the value of the precondition that it adds. -/
structure Encoded (V : Type) where
  value : V
  nonPoison : Bool
  ub : Bool
  pre : Bool

/-- The UB condition of a path, by conjuncts; none of them is `false` on a viable path. -/
abbrev PathUB := List Cond

def PathUB.holds (path : PathUB) : Bool := path.all Cond.holds

def isViablePath (path : PathUB) : Bool := !path.any Cond.isFalse

variable {V : Type}

def lastByCount (unrollCnt i : Nat) : Bool := decide (unrollCnt - 1 ≤ i)

/-- `is_last`: a loop over constants goes on, up to 512 iterations. -/
def isLast (exec : IthExec V) (unrollCnt i : Nat) : Bool :=
  let last := lastByCount unrollCnt i
  if i < 512 then last && !(exec i last).continues.constant else last

theorem lt_of_not_isLast {exec : IthExec V} {unrollCnt i : Nat}
    (not : ¬ isLast exec unrollCnt i = true) : i < max (unrollCnt - 1) 512 := by
  unfold isLast lastByCount at not
  by_cases small : i < 512
  · exact lt_of_lt_of_le small (le_max_right _ _)
  · rw [if_neg small, decide_eq_true_eq, not_le] at not
    exact lt_of_lt_of_le not (le_max_left _ _)

/-- `_loop`. The conjunction of the UB conditions and the conditions to continue is `pfx`. -/
def loop (exec : IthExec V) (path : PathUB) (unrollCnt : Nat) (pfx : Bool) (i : Nat) : Encoded V :=
  let it := exec i (lastByCount unrollCnt i)
  let pfx := pfx && it.ub.holds
  if last : isLast exec unrollCnt i = true then
    { value := it.value, nonPoison := it.nonPoison, ub := it.ub.holds
      pre := !pfx || !it.continues.holds }
  else if it.continues.isFalse || it.ub.isFalse || !isViablePath path then
    { value := it.value, nonPoison := it.nonPoison, ub := it.ub.holds, pre := true }
  else
    let next := loop exec path unrollCnt (pfx && it.continues.holds) (i + 1)
    { value := if it.continues.holds then next.value else it.value
      nonPoison := it.nonPoison && (!it.continues.holds || next.nonPoison)
      ub := it.ub.holds && (!it.continues.holds || next.ub)
      pre := next.pre }
termination_by max (unrollCnt - 1) 512 - i
decreasing_by
  have := lt_of_not_isLast last
  omega

def encode (exec : IthExec V) (path : PathUB) (unrollCnt : Nat) : Encoded V :=
  loop exec path unrollCnt true 0

inductive Outcome (V : Type) where
  | ub
  | done (value : V) (nonPoison : Bool)
  deriving DecidableEq

def Outcome.after (nonPoison : Bool) : Outcome V → Outcome V
  | .ub => .ub
  | .done value np => .done value (nonPoison && np)

/-- From an iteration on, the loop ends after so many further ones: with undefined behaviour, or
with the value of the last one, which is not poison if no iteration is. -/
inductive Loop (exec : Nat → Iteration V) : Nat → Nat → Outcome V → Prop where
  | ub {i} (ub : (exec i).ub.holds = false) : Loop exec i 0 .ub
  | done {i} (ok : (exec i).ub.holds = true) (stop : (exec i).continues.holds = false) :
      Loop exec i 0 (.done (exec i).value (exec i).nonPoison)
  | next {i n out} (ok : (exec i).ub.holds = true) (go : (exec i).continues.holds = true)
      (rest : Loop exec (i + 1) n out) : Loop exec i (n + 1) (out.after (exec i).nonPoison)

def iterations (exec : IthExec V) (unrollCnt : Nat) (i : Nat) : Iteration V :=
  exec i (lastByCount unrollCnt i)

def Encoded.outcome (e : Encoded V) : Outcome V :=
  if e.ub then .done e.value e.nonPoison else .ub

def Reaches (exec : Nat → Iteration V) (k : Nat) : Prop :=
  ∀ i < k, (exec i).ub.holds = true ∧ (exec i).continues.holds = true

theorem Loop.unique {exec : Nat → Iteration V} {i n n' : Nat} {out out' : Outcome V}
    (first : Loop exec i n out) (second : Loop exec i n' out') : n = n' ∧ out = out' := by
  induction first generalizing n' out' with
  | ub ub =>
    cases second with
    | ub => exact ⟨rfl, rfl⟩
    | done ok => cases ub.symm.trans ok
    | next ok => cases ub.symm.trans ok
  | done ok stop =>
    cases second with
    | ub ub => cases ub.symm.trans ok
    | done => exact ⟨rfl, rfl⟩
    | next _ go => cases stop.symm.trans go
  | next ok go rest ih =>
    cases second with
    | ub ub => cases ub.symm.trans ok
    | done _ stop => cases stop.symm.trans go
    | next _ _ rest' =>
      obtain ⟨same, equal⟩ := ih rest'
      rw [same, equal]
      exact ⟨rfl, rfl⟩

section

variable {exec : IthExec V} {path : PathUB} {unrollCnt : Nat}

theorem Cond.not_holds_of_isFalse {c : Cond} (h : c.isFalse = true) : c.holds = false := by
  unfold Cond.isFalse at h
  rw [Bool.and_eq_true, Bool.not_eq_true'] at h
  exact h.2

theorem isViablePath_of_holds (holds : path.holds = true) : isViablePath path = true := by
  unfold isViablePath
  rw [Bool.not_eq_true', List.any_eq_false]
  intro c member isFalse
  have on := List.all_eq_true.1 holds c member
  cases on.symm.trans (Cond.not_holds_of_isFalse isFalse)

variable {i : Nat}

theorem loop_last (pfx : Bool) (last : isLast exec unrollCnt i = true) :
    loop exec path unrollCnt pfx i =
      { value := (iterations exec unrollCnt i).value
        nonPoison := (iterations exec unrollCnt i).nonPoison
        ub := (iterations exec unrollCnt i).ub.holds
        pre := !(pfx && (iterations exec unrollCnt i).ub.holds) ||
          !(iterations exec unrollCnt i).continues.holds } := by
  rw [loop.eq_def]
  exact dif_pos last

theorem loop_early (pfx : Bool) (last : ¬ isLast exec unrollCnt i = true)
    (early : ((iterations exec unrollCnt i).continues.isFalse ||
      (iterations exec unrollCnt i).ub.isFalse || !isViablePath path) = true) :
    loop exec path unrollCnt pfx i =
      { value := (iterations exec unrollCnt i).value
        nonPoison := (iterations exec unrollCnt i).nonPoison
        ub := (iterations exec unrollCnt i).ub.holds
        pre := true } := by
  rw [loop.eq_def]
  exact (dif_neg last).trans (if_pos early)

theorem loop_next (pfx : Bool) (last : ¬ isLast exec unrollCnt i = true)
    (early : ¬ ((iterations exec unrollCnt i).continues.isFalse ||
      (iterations exec unrollCnt i).ub.isFalse || !isViablePath path) = true) :
    loop exec path unrollCnt pfx i =
      let it := iterations exec unrollCnt i
      let next := loop exec path unrollCnt (pfx && it.ub.holds && it.continues.holds) (i + 1)
      { value := if it.continues.holds then next.value else it.value
        nonPoison := it.nonPoison && (!it.continues.holds || next.nonPoison)
        ub := it.ub.holds && (!it.continues.holds || next.ub)
        pre := next.pre } := by
  rw [loop.eq_def]
  exact (dif_neg last).trans (if_neg early)

theorem outcome_here (stop : (iterations exec unrollCnt i).ub.holds = false ∨
      (iterations exec unrollCnt i).continues.holds = false) (pre : Bool) :
    Loop (iterations exec unrollCnt) i 0 (Encoded.outcome
      ⟨(iterations exec unrollCnt i).value, (iterations exec unrollCnt i).nonPoison,
        (iterations exec unrollCnt i).ub.holds, pre⟩) := by
  unfold Encoded.outcome
  cases ub : (iterations exec unrollCnt i).ub.holds with
  | false => exact .ub ub
  | true => exact .done ub (stop.resolve_left (by rw [ub]; decide))

/-- In a model that is kept, the encoding of an iteration that the loop gets to has the outcome of
the loop. -/
theorem loop_outcome (viable : isViablePath path = true) (i : Nat)
    (inside : i ≤ max (unrollCnt - 1) 512) (kept : (loop exec path unrollCnt true i).pre = true) :
    ∃ n, i + n ≤ max (unrollCnt - 1) 512 ∧
      Loop (iterations exec unrollCnt) i n (loop exec path unrollCnt true i).outcome := by
  induction left : max (unrollCnt - 1) 512 - i generalizing i with
  | zero =>
    have last : isLast exec unrollCnt i = true := by
      by_contra not
      have := lt_of_not_isLast not
      omega
    rw [loop_last true last] at kept ⊢
    rw [Bool.true_and, Bool.or_eq_true, Bool.not_eq_true', Bool.not_eq_true'] at kept
    exact ⟨0, inside, outcome_here kept _⟩
  | succ left ih =>
    by_cases last : isLast exec unrollCnt i = true
    · rw [loop_last true last] at kept ⊢
      rw [Bool.true_and, Bool.or_eq_true, Bool.not_eq_true', Bool.not_eq_true'] at kept
      exact ⟨0, inside, outcome_here kept _⟩
    · by_cases early : ((iterations exec unrollCnt i).continues.isFalse ||
          (iterations exec unrollCnt i).ub.isFalse || !isViablePath path) = true
      · rw [loop_early true last early]
        rw [viable, Bool.not_true, Bool.or_false, Bool.or_eq_true] at early
        exact ⟨0, inside, outcome_here (early.symm.imp Cond.not_holds_of_isFalse
          Cond.not_holds_of_isFalse) _⟩
      · rw [loop_next true last early] at kept ⊢
        dsimp only at kept ⊢
        cases ub : (iterations exec unrollCnt i).ub.holds with
        | false => exact ⟨0, inside, .ub ub⟩
        | true =>
          cases go : (iterations exec unrollCnt i).continues.holds with
          | false =>
            refine ⟨0, inside, ?_⟩
            have here := outcome_here (.inr go) true
            rw [ub] at here
            simpa [Encoded.outcome] using here
          | true =>
            rw [ub, go, Bool.and_true, Bool.and_true] at kept
            have below := lt_of_not_isLast last
            obtain ⟨n, bound, rest⟩ := ih (i + 1) below kept (by omega)
            refine ⟨n + 1, by omega, ?_⟩
            have whole := Loop.next ub go rest
            simp only [Bool.and_true, Bool.not_true, Bool.false_or, if_true, Bool.true_and]
            unfold Encoded.outcome at whole ⊢
            dsimp only
            cases next : (loop exec path unrollCnt true (i + 1)).ub with
            | false =>
              rw [next] at whole
              exact whole
            | true =>
              rw [next] at whole
              exact whole

theorem le_of_isLast (last : isLast exec unrollCnt i = true) : unrollCnt ≤ i + 1 := by
  have byCount : lastByCount unrollCnt i = true := by
    unfold isLast at last
    dsimp only at last
    split at last
    · exact (Bool.and_eq_true_iff.1 last).1
    · exact last
  have bound : unrollCnt - 1 ≤ i := of_decide_eq_true byCount
  omega

theorem loop_dropped (pfx : Bool) (i : Nat)
    (dropped : (loop exec path unrollCnt pfx i).pre = false) :
    pfx = true ∧ ∃ k, unrollCnt ≤ k ∧ ∀ j, i ≤ j → j < k →
      (iterations exec unrollCnt j).ub.holds = true ∧
        (iterations exec unrollCnt j).continues.holds = true := by
  have last : ∀ (pfx : Bool) i, isLast exec unrollCnt i = true →
      (loop exec path unrollCnt pfx i).pre = false →
      pfx = true ∧ ∃ k, unrollCnt ≤ k ∧ ∀ j, i ≤ j → j < k →
        (iterations exec unrollCnt j).ub.holds = true ∧
          (iterations exec unrollCnt j).continues.holds = true := by
    intro pfx i last dropped
    rw [loop_last pfx last, Bool.or_eq_false_iff, Bool.not_eq_false', Bool.not_eq_false',
      Bool.and_eq_true] at dropped
    refine ⟨dropped.1.1, i + 1, le_of_isLast last, fun j after before => ?_⟩
    obtain rfl : j = i := by omega
    exact ⟨dropped.1.2, dropped.2⟩
  induction left : max (unrollCnt - 1) 512 - i generalizing i pfx with
  | zero =>
    refine last pfx i ?_ dropped
    by_contra not
    have := lt_of_not_isLast not
    omega
  | succ left ih =>
    by_cases here : isLast exec unrollCnt i = true
    · exact last pfx i here dropped
    · by_cases early : ((iterations exec unrollCnt i).continues.isFalse ||
          (iterations exec unrollCnt i).ub.isFalse || !isViablePath path) = true
      · rw [loop_early pfx here early] at dropped
        cases dropped
      · rw [loop_next pfx here early] at dropped
        obtain ⟨both, k, bound, rest⟩ := ih _ (i + 1) dropped (by omega)
        rw [Bool.and_eq_true, Bool.and_eq_true] at both
        refine ⟨both.1.1, k, bound, fun j after before => ?_⟩
        rcases Nat.eq_or_lt_of_le after with rfl | later
        · exact ⟨both.1.2, both.2⟩
        · exact rest j later before

theorem encode_outcome (exec : IthExec V) (path : PathUB) (unrollCnt : Nat) :
    ((encode exec path unrollCnt).pre = true → path.holds = true → ∃ n ≤ max (unrollCnt - 1) 512,
        Loop (iterations exec unrollCnt) 0 n (encode exec path unrollCnt).outcome) ∧
    ((encode exec path unrollCnt).pre = false →
      ∃ k, unrollCnt ≤ k ∧ Reaches (iterations exec unrollCnt) k) := by
  constructor
  · intro kept holds
    obtain ⟨n, bound, run⟩ := loop_outcome (isViablePath_of_holds holds) 0 (Nat.zero_le _) kept
    exact ⟨n, by omega, run⟩
  · intro dropped
    obtain ⟨_, k, bound, goes⟩ := loop_dropped true 0 dropped
    exact ⟨k, bound, fun j before => goes j (Nat.zero_le j) before⟩

end

end AliveNext.IR.BoundedLoops
