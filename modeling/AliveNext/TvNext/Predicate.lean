import AliveNext.Lib.Fallible
import AliveNext.TvNext.Proposer

/-!
# One predicate on two values

The predicate of a claim is built twice, on a parameter of the unit and on a
clone of the parent's value.  The two have one shape: the leaves are the same
constants, or the two values that a name stands for.
-/

namespace AliveNext.TvNext

open AliveNext.Lib
open AliveNext.LLVM

/-- Related leaves: equal constants, or operands that `Q` relates. -/
inductive LeafRel (Q : (w : Nat) → Operand Reg w → Operand Reg w → Prop) :
    (w : Nat) → Operand Reg w → Operand Reg w → Prop
  | const {w : Nat} (value : BitVec w) : LeafRel Q w (.const value) (.const value)
  | value {w : Nat} {a b : Operand Reg w} : Q w a b → LeafRel Q w a b

section

variable {Q : (w : Nat) → Operand Reg w → Operand Reg w → Prop}

def SameShape (Q : (w : Nat) → Operand Reg w → Operand Reg w → Prop)
    (first second : Except AssertionFailure (Term Reg 1)) : Prop :=
  ∀ p q, first = .ok p → second = .ok q → Term.Shape (LeafRel Q) p q

theorem constantInt_shape {v w : Nat} {value : BitVec w} {p q : Term Reg v}
    (first : constantInt v value = .ok p) (second : constantInt v value = .ok q) :
    Term.Shape (LeafRel Q) p q := by
  rw [first] at second
  cases second
  unfold constantInt at first
  split at first
  next same =>
    cases first
    exact .leaf (.const _)
  next => cases first

section

variable {v w : Nat} {value value' : Operand Reg v} {name : Name}

variable (related : Q v value value')

include related

theorem unsignedClaim_shape (bounds : BitVec w × BitVec w) :
    SameShape Q (unsignedClaim value name bounds) (unsignedClaim value' name bounds) := by
  intro p q first second
  obtain ⟨hi, hiBuilt, first⟩ := bind_eq_ok.mp first
  obtain ⟨hi', hiBuilt', second⟩ := bind_eq_ok.mp second
  dsimp only at first second
  split at first
  next zero =>
    rw [if_pos zero] at second
    cases first
    cases second
    exact .node _ _ (.leaf (.value related)) (constantInt_shape hiBuilt hiBuilt')
  next nonzero =>
    rw [if_neg nonzero] at second
    obtain ⟨lo, loBuilt, first⟩ := bind_eq_ok.mp first
    obtain ⟨lo', loBuilt', second⟩ := bind_eq_ok.mp second
    cases first
    cases second
    exact .node _ _ (.node _ _ (.leaf (.value related)) (constantInt_shape hiBuilt hiBuilt'))
      (.node _ _ (.leaf (.value related)) (constantInt_shape loBuilt loBuilt'))

theorem signedClaim_shape (bounds : BitVec w × BitVec w) :
    SameShape Q (signedClaim value name bounds) (signedClaim value' name bounds) := by
  intro p q first second
  obtain ⟨hi, hiBuilt, first⟩ := bind_eq_ok.mp first
  obtain ⟨hi', hiBuilt', second⟩ := bind_eq_ok.mp second
  obtain ⟨lo, loBuilt, first⟩ := bind_eq_ok.mp first
  obtain ⟨lo', loBuilt', second⟩ := bind_eq_ok.mp second
  cases first
  cases second
  exact .node _ _ (.node _ _ (.leaf (.value related)) (constantInt_shape hiBuilt hiBuilt'))
    (.node _ _ (.leaf (.value related)) (constantInt_shape loBuilt loBuilt'))

theorem poisonFreeClaim_shape :
    Term.Shape (LeafRel Q) (poisonFreeClaim value name) (poisonFreeClaim value' name) :=
  .node _ _ (.leaf (.value related)) (.freeze _ (.leaf (.value related)))

theorem bitsClaim_shape (known : KnownBits w) :
    SameShape Q (bitsClaim value name known) (bitsClaim value' name known) := by
  intro p q first second
  obtain ⟨mask, maskBuilt, first⟩ := bind_eq_ok.mp first
  obtain ⟨mask', maskBuilt', second⟩ := bind_eq_ok.mp second
  obtain ⟨ones, onesBuilt, first⟩ := bind_eq_ok.mp first
  obtain ⟨ones', onesBuilt', second⟩ := bind_eq_ok.mp second
  cases first
  cases second
  exact .node _ _ (.node _ _ (.leaf (.value related)) (constantInt_shape maskBuilt maskBuilt'))
    (constantInt_shape onesBuilt onesBuilt')

end

theorem factClaims_shape {v : Nat} {value value' : Operand Reg v}
    (related : Q v value value') (fact : KnownFact) :
    List.Forall₂ (SameShape Q) (factClaims value fact) (factClaims value' fact) := by
  have mapped : ∀ {α : Type} (items : List α) (f g : α → Except AssertionFailure (Term Reg 1)),
      (∀ item, SameShape Q (f item) (g item)) →
        List.Forall₂ (SameShape Q) (items.map f) (items.map g) := by
    intro α items f g same
    rw [List.forall₂_map_left_iff, List.forall₂_map_right_iff]
    exact List.forall₂_same.mpr fun item _ => same item
  unfold factClaims
  refine List.rel_append (List.rel_append (List.rel_append
    (mapped _ _ _ (unsignedClaim_shape related)) (mapped _ _ _ (signedClaim_shape related))) ?_)
    (mapped _ _ _ (bitsClaim_shape related))
  split
  next =>
    refine .cons ?_ .nil
    intro p q first second
    cases first
    cases second
    exact poisonFreeClaim_shape related
  next => exact .nil

def SameShapeOption (Q : (w : Nat) → Operand Reg w → Operand Reg w → Prop) :
    Option (Term Reg 1) → Option (Term Reg 1) → Prop
  | none, none => True
  | some p, some q => Term.Shape (LeafRel Q) p q
  | _, _ => False

private theorem foldClaims_shape {name : Name}
    {claims claims' : List (Except AssertionFailure (Term Reg 1))}
    (shapes : List.Forall₂ (SameShape Q) claims claims') :
    ∀ {before before' after after' : Option (Term Reg 1)}, SameShapeOption Q before before' →
      claims.foldlM (fun result claim => do
        .ok (andIn name result (← claim))) before = .ok after →
      claims'.foldlM (fun result claim => do
        .ok (andIn name result (← claim))) before' = .ok after' →
      SameShapeOption Q after after' := by
  induction shapes with
  | nil =>
    intro before before' after after' same folded folded'
    cases folded
    cases folded'
    exact same
  | @cons claim claim' rest rest' shape _ ih =>
    intro before before' after after' same folded folded'
    obtain ⟨middle, stepped, later⟩ := foldlM_cons_eq_ok.mp folded
    obtain ⟨middle', stepped', later'⟩ := foldlM_cons_eq_ok.mp folded'
    obtain ⟨term, built, added⟩ := bind_eq_ok.mp stepped
    obtain ⟨term', built', added'⟩ := bind_eq_ok.mp stepped'
    cases added
    cases added'
    refine ih ?_ later later'
    have terms := shape term term' built built'
    cases before <;> cases before' <;>
      first
      | exact absurd same id
      | exact terms
      | exact .node _ _ same terms

theorem buildFactPredicate_shape {v : Nat} {value value' : Operand Reg v}
    (related : Q v value value') {fact : KnownFact} {p q : Term Reg 1}
    (first : buildFactPredicate value fact = .ok (some p))
    (second : buildFactPredicate value' fact = .ok (some q)) : Term.Shape (LeafRel Q) p q := by
  have start : SameShapeOption Q none none := trivial
  exact foldClaims_shape (factClaims_shape related fact) start first second

def SigmaRel (Q : (w : Nat) → Operand Reg w → Operand Reg w → Prop)
    (a b : Σ w, Operand Reg w) : Prop :=
  ∃ w x y, a = ⟨w, x⟩ ∧ b = ⟨w, y⟩ ∧ LeafRel Q w x y

theorem FlagKind.claim_shape {w : Nat} {a a' b b' : Operand Reg w}
    (kind : FlagKind) (first : LeafRel Q w a a') (second : LeafRel Q w b b') :
    Term.Shape (LeafRel Q) (kind.claim a b) (kind.claim a' b') := by
  have leafA : Term.Shape (LeafRel Q) (.leaf a) (.leaf a') := .leaf first
  have leafB : Term.Shape (LeafRel Q) (.leaf b) (.leaf b') := .leaf second
  have overflow : ∀ op, Term.Shape (LeafRel Q) (overflowClaim op a b)
      (overflowClaim op a' b') := fun op =>
    .node _ _ (.node _ _ leafA leafB) (.leaf (.const _))
  have roundTrip : ∀ op op', Term.Shape (LeafRel Q)
      (roundTripClaim op op' a b) (roundTripClaim op op' a' b') :=
    fun op op' => .node _ _ (.node _ _ (.node _ _ leafA leafB) leafB) leafA
  cases kind with
  | zextNNeg => exact .node _ _ leafA (.leaf (.const _))
  | orDisjoint =>
    exact .node _ _ (.node _ _ leafA leafB) (.leaf (.const _))
  | addNSW | addNUW | subNSW | subNUW | mulNSW | mulNUW => exact overflow _
  | shlNSW | shlNUW | lshrExact | ashrExact | udivExact | sdivExact =>
    exact roundTrip _ _

theorem buildFlagClaim_shape {kind : FlagKind} {operands operands' : List (Σ w, Operand Reg w)}
    (related : List.Forall₂ (SigmaRel Q) operands operands') {p q : Term Reg 1}
    (first : buildFlagClaim kind operands = .ok p)
    (second : buildFlagClaim kind operands' = .ok q) : Term.Shape (LeafRel Q) p q := by
  cases related with
  | nil => cases kind <;> cases first
  | cons head rest =>
    obtain ⟨v, a, a', rfl, rfl, leaf⟩ := head
    by_cases unary : kind = .zextNNeg
    · subst unary
      cases first
      cases second
      exact FlagKind.claim_shape _ leaf leaf
    · cases rest with
      | nil => cases kind <;> first | exact absurd rfl unary | cases first
      | cons next _ =>
        obtain ⟨w, b, b', rfl, rfl, leaf'⟩ := next
        have pair : ∀ {x : Operand Reg v} {y : Operand Reg w} {rest},
            buildFlagClaim kind (⟨v, x⟩ :: ⟨w, y⟩ :: rest) =
              if same : w = v then .ok (kind.claim x (same ▸ y))
              else .error .operandTypes := by
          intro x y rest
          cases kind <;> first | rfl | exact absurd rfl unary
        rw [pair] at first second
        split at first
        next same =>
          subst same
          rw [dif_pos rfl] at second
          cases first
          cases second
          exact FlagKind.claim_shape _ leaf leaf'
        next => cases first

theorem resolveKeys_related
    {resolve resolve' : Name → Option (Σ w, Operand Reg w)} {keys : List (OperandKey × Nat)}
    (related : ∀ key ∈ keys, ∀ name, key.1 = .named name → ∀ a b,
      resolve name = some a → resolve' name = some b → SigmaRel Q a b)
    {operands operands' : List (Σ w, Operand Reg w)}
    (first : resolveKeys resolve keys = .ok (some operands))
    (second : resolveKeys resolve' keys = .ok (some operands')) :
    List.Forall₂ (SigmaRel Q) operands operands' := by
  induction keys generalizing operands operands' with
  | nil =>
    cases first
    cases second
    exact .nil
  | cons key rest ih =>
    have later := @ih fun other member =>
      related other (List.mem_cons_of_mem key member)
    obtain ⟨key, ty⟩ := key
    cases key with
    | const w value =>
      simp only [resolveKeys] at first second
      split at first
      next same =>
        rw [dif_pos same] at second
        obtain ⟨found, resolved, first⟩ := bind_eq_ok.mp first
        obtain ⟨found', resolved', second⟩ := bind_eq_ok.mp second
        cases found with
        | none => cases first
        | some found =>
          cases found' with
          | none => cases second
          | some found' =>
            cases first
            cases second
            exact .cons ⟨ty, _, _, rfl, rfl, .const _⟩ (later resolved resolved')
      next => cases first
    | named name =>
      simp only [resolveKeys] at first second
      split at first
      next => cases first
      next a known =>
        split at second
        next => cases second
        next b known' =>
          obtain ⟨found, resolved, first⟩ := bind_eq_ok.mp first
          obtain ⟨found', resolved', second⟩ := bind_eq_ok.mp second
          cases found with
          | none => cases first
          | some found =>
            cases found' with
            | none => cases second
            | some found' =>
              cases first
              cases second
              exact .cons (related _ List.mem_cons_self name rfl a b known known')
                (later resolved resolved')

def Claim.names : Claim → List Name
  | .fact known => [known.name]
  | .obligation flag => flag.opKeys.filterMap fun key =>
    match key.1 with
    | .named name => some name
    | .const _ _ => none

theorem Claim.predicate_shape {claim : Claim}
    {resolve resolve' : Name → Option (Σ w, Operand Reg w)}
    (related : ∀ name ∈ claim.names, ∀ a b, resolve name = some a →
      resolve' name = some b → ∃ w x y, a = ⟨w, x⟩ ∧ b = ⟨w, y⟩ ∧ Q w x y)
    {p q : Term Reg 1} (first : claim.predicate resolve = .ok (some p))
    (second : claim.predicate resolve' = .ok (some q)) :
    Term.Shape (LeafRel Q) p q := by
  cases claim with
  | fact known =>
    simp only [Claim.predicate] at first second
    split at first
    next => cases first
    next v value found =>
      split at second
      next => cases second
      next v' value' found' =>
        obtain ⟨w, x, y, same, same', leaf⟩ :=
          related known.name List.mem_cons_self _ _ found found'
        cases same
        cases same'
        exact buildFactPredicate_shape leaf first second
  | obligation flag =>
    obtain ⟨operands, resolved, first⟩ := bind_eq_ok.mp first
    obtain ⟨operands', resolved', second⟩ := bind_eq_ok.mp second
    cases operands with
    | none => cases first
    | some operands =>
      cases operands' with
      | none => cases second
      | some operands' =>
        obtain ⟨term, built, first⟩ := bind_eq_ok.mp first
        obtain ⟨term', built', second⟩ := bind_eq_ok.mp second
        cases first
        cases second
        refine buildFlagClaim_shape (resolveKeys_related ?_ resolved resolved') built built'
        intro key used name named a b found found'
        obtain ⟨w, x, y, same, same', leaf⟩ := related name
          (List.mem_filterMap.mpr ⟨key, used, by rw [named]⟩) a b found
          found'
        exact ⟨w, x, y, same, same', .value leaf⟩

end

end AliveNext.TvNext
