import AliveNext.IR.UndefReads

/-!
# Reads are independent

Two reads of a value on one path use different undef variables, unless the value was forced to be
non-undef.
-/

namespace AliveNext.IR.UndefReads

variable {E D : Type}

section

variable {next count : Nat} {repls : List Var} {y : Var}

theorem rename_mem (member : y ∈ repls) : rename next repls y = .fresh (next + repls.idxOf y) :=
  if_pos member

theorem rename_not_mem (absent : y ∉ repls) : rename next repls y = y := if_neg absent

theorem rename_nil : rename next [] y = y := rename_not_mem List.not_mem_nil

theorem mem_freshVars :
    y ∈ freshVars next count ↔ ∃ i, next ≤ i ∧ i < next + count ∧ y = .fresh i := by
  unfold freshVars
  rw [List.mem_map]
  constructor
  · rintro ⟨i, member, rfl⟩
    rw [List.mem_range'_1] at member
    exact ⟨i, member.1, member.2, rfl⟩
  · rintro ⟨i, low, high, rfl⟩
    exact ⟨i, List.mem_range'_1.2 ⟨low, high⟩, rfl⟩

theorem Var.Below.mono {n n' : Nat} (below : y.Below n) (le : n ≤ n') : y.Below n' := by
  cases y with
  | named => trivial
  | fresh i => exact Nat.lt_of_lt_of_le below le

theorem rename_below (below : y.Below next) :
    (rename next repls y).Below (next + repls.length) := by
  by_cases member : y ∈ repls
  · rw [rename_mem member]
    exact Nat.add_lt_add_left (List.idxOf_lt_length_iff.2 member) next
  · rw [rename_not_mem member]
    exact below.mono (Nat.le_add_right _ _)

/-- The values `σ` at the fresh variables of a replacement. -/
def graft (next : Nat) (repls : List Var) (σ base : Var → D) : Var → D
  | .named n => base (.named n)
  | .fresh i =>
    if next ≤ i then (repls[i - next]?.map σ).getD (base (.fresh i)) else base (.fresh i)

variable {σ base : Var → D}

theorem graft_below (below : y.Below next) : graft next repls σ base y = base y := by
  cases y with
  | named => rfl
  | fresh i => exact if_neg (Nat.not_le.2 below)

theorem graft_rename_mem (member : y ∈ repls) :
    graft next repls σ base (rename next repls y) = σ y := by
  have inside := List.idxOf_lt_length_iff.2 member
  rw [rename_mem member]
  unfold graft
  dsimp only
  rw [if_pos (Nat.le_add_right _ _), Nat.add_sub_cancel_left, List.getElem?_eq_getElem inside,
    List.getElem_idxOf]
  rfl

end

/-! ## Sets of values -/

theorem setIntersection_subset (a b : List Val) : ∀ v ∈ setIntersection a b, v ∈ a ∧ v ∈ b := by
  fun_induction setIntersection a b with
  | case1 a as b bs less ih =>
    intro v member
    have both := ih v member
    exact ⟨List.mem_cons_of_mem a both.1, both.2⟩
  | case2 a as b bs less more ih =>
    intro v member
    have both := ih v member
    exact ⟨both.1, List.mem_cons_of_mem b both.2⟩
  | case3 a as b bs less more ih =>
    obtain rfl : a = b := Nat.le_antisymm (Nat.not_lt.1 more) (Nat.not_lt.1 less)
    intro v member
    rcases List.mem_cons.1 member with rfl | rest
    · exact ⟨List.mem_cons_self, List.mem_cons_self⟩
    · exact ⟨List.mem_cons_of_mem a (ih v rest).1, List.mem_cons_of_mem a (ih v rest).2⟩
  | case4 | case5 => exact List.forall_mem_nil _

/-! ## States -/

/-- All variables come from before. -/
structure Wf (x : Exprs E D) (s : State E) : Prop where
  vals : ∀ v t, s.values v = some t → ∀ y ∈ x.vars t.val, y.Below s.nextFresh
  valUndefs : ∀ v t, s.values v = some t → ∀ y ∈ t.undefVars, ∃ i < s.nextFresh, y = .fresh i
  undefs : ∀ y ∈ s.undefVars, ∃ i < s.nextFresh, y = .fresh i
  nonUndefs : ∀ v e, s.analysis.nonUndef v = some e → ∀ y ∈ x.vars e, y.Below s.nextFresh

/-- What later steps of the symbolic execution keep of a value: it may lose its undef variables if
it does not depend on them. -/
def Keeps (x : Exprs E D) (t t' : ValTy E) : Prop :=
  t'.val = t.val ∧ (t'.undefVars = t.undefVars ∨
    t'.undefVars = [] ∧ ∀ y ∈ t.undefVars, y ∉ x.vars t.val)

structure Grows (x : Exprs E D) (s s' : State E) : Prop where
  nextFresh : s.nextFresh ≤ s'.nextFresh
  values : ∀ v t, s.values v = some t → ∃ t', s'.values v = some t' ∧ Keeps x t t'

structure Follows (x : Exprs E D) (s s' : State E) : Prop extends Grows x s s' where
  used : ∀ v t, s.values v = some t → v ∉ s.analysis.unused → v ∉ s'.analysis.unused

section

variable {x : Exprs E D} {s s' s'' : State E} {t t' t'' : ValTy E}

theorem Keeps.refl : Keeps x t t := ⟨rfl, .inl rfl⟩

theorem Keeps.trans (first : Keeps x t t') (second : Keeps x t' t'') : Keeps x t t'' := by
  obtain ⟨val, undefs⟩ := first
  obtain ⟨val', undefs'⟩ := second
  refine ⟨val'.trans val, ?_⟩
  rcases undefs with same | ⟨none, free⟩
  · rw [same, val] at undefs'
    exact undefs'
  · rcases undefs' with same' | ⟨none', _⟩
    · exact .inr ⟨same'.trans none, free⟩
    · exact .inr ⟨none', free⟩

theorem Grows.refl : Grows x s s := ⟨Nat.le_refl _, fun _ t found => ⟨t, found, .refl⟩⟩

theorem Grows.trans (first : Grows x s s') (second : Grows x s' s'') : Grows x s s'' := by
  refine ⟨Nat.le_trans first.nextFresh second.nextFresh, fun v t found => ?_⟩
  obtain ⟨t', found', keeps⟩ := first.values v t found
  obtain ⟨t'', found'', keeps'⟩ := second.values v t' found'
  exact ⟨t'', found'', keeps.trans keeps'⟩

theorem Follows.refl : Follows x s s := ⟨.refl, fun _ _ _ used => used⟩

theorem Follows.trans (first : Follows x s s') (second : Follows x s' s'') : Follows x s s'' := by
  refine ⟨first.toGrows.trans second.toGrows, fun v t found used => ?_⟩
  obtain ⟨t', found', _⟩ := first.values v t found
  exact second.used v t' found' (first.used v t found used)

theorem Follows.of_values (values : s'.values = s.values) (nextFresh : s.nextFresh ≤ s'.nextFresh)
    (used : ∀ v, v ∉ s.analysis.unused → v ∉ s'.analysis.unused) : Follows x s s' :=
  ⟨⟨nextFresh, fun _ t found => ⟨t, values ▸ found, .refl⟩⟩, fun v _ _ => used v⟩

end

/-! ## One read -/

/-- What a read does: `t` is the value, `e` what is returned. -/
structure Reads (x : Exprs E D) [DecidableEq E] (r : Read E) (s' : State E) (t : ValTy E) (e : E) :
    Prop where
  found : r.before.values r.v = some t
  result : r.before.eval x r.v r.quantifyNondet = some (s', e)
  wf : Wf x s'
  follows : Follows x r.before s'
  absent : ∀ w, r.before.values w = none → s'.values w = none
  below : ∀ y ∈ x.vars e, y.Below s'.nextFresh
  undefVars : ∀ y ∈ r.undefVars x,
    (∃ i, r.before.nextFresh ≤ i ∧ y = .fresh i) ∨ r.v ∈ r.before.analysis.unused
  unforced : r.forced = false → r.v ∉ s'.analysis.unused ∧
    ∃ repls, r.before.nextFresh + repls.length ≤ s'.nextFresh ∧
      (∀ ρ, x.eval e ρ = x.eval t.val fun y => ρ (rename r.before.nextFresh repls y)) ∧
      ((∀ u ∈ t.undefVars, u ∈ repls) ∨
        repls = [] ∧ (r.v ∈ r.before.analysis.unused ∨ ∀ u ∈ t.undefVars, u ∉ x.vars t.val))

section

variable {x : Exprs E D} {s : State E} {v : Val} {e : E} {t : ValTy E}

theorem eval_simplify (s : State E) (v : Val) (e : E) (ρ : Var → D) :
    x.eval (s.simplify x v e) ρ = x.eval e ρ := by
  unfold State.simplify
  split
  · exact x.eval_asNonPoison e ρ
  · rfl

theorem vars_simplify {y : Var} (member : y ∈ x.vars (s.simplify x v e)) : y ∈ x.vars e := by
  unfold State.simplify at member
  split at member
  · exact x.vars_asNonPoison e y member
  · exact member

theorem not_mem_vars_of_subst_eq {next : Nat} {repls : List Var}
    (below : ∀ y ∈ x.vars e, y.Below next) (same : x.subst e (rename next repls) = e) :
    ∀ u ∈ repls, u ∉ x.vars e := by
  intro u inside member
  have member' := member
  rw [← same] at member'
  obtain ⟨y, _, rfl⟩ := x.vars_subst _ _ u member'
  by_cases replaced : y ∈ repls
  · have old := below _ member
    rw [rename_mem replaced] at old
    exact absurd old (Nat.not_lt.2 (Nat.le_add_right _ _))
  · rw [rename_not_mem replaced] at inside
    exact replaced inside

theorem not_usesOwn (own : ¬ s.usesOwn v t = true) : t.undefVars ≠ [] ∧ v ∉ s.analysis.unused := by
  unfold State.usesOwn at own
  rwa [Bool.or_eq_true, decide_eq_true_eq, decide_eq_true_eq, not_or] at own

theorem forall_mem_snoc {n : Nat} {es : List E} {e : E}
    (olds : ∀ e ∈ es, ∀ y ∈ x.vars e, y.Below n) (last : ∀ y ∈ x.vars e, y.Below n) :
    ∀ e' ∈ es ++ [e], ∀ y ∈ x.vars e', y.Below n := by
  intro e' member
  rcases List.mem_append.1 member with old | new
  · exact olds e' old
  · rw [List.mem_singleton.1 new]
    exact last

end

section

variable {x : Exprs E D} [DecidableEq E] {s s' : State E} {v : Val} {q : Bool} {e stripped : E}
  {t : ValTy E}

theorem reads_forced (wf : Wf x s) (found : s.values v = some t)
    (nonUndef : s.analysis.nonUndef v = some stripped) :
    Reads x ⟨s, v, q⟩ { s with quantified := s.quantified ++ t.undefVars } t
      (s.simplify x v (x.withValue t.val stripped)) := by
  have forced : (⟨s, v, q⟩ : Read E).forced = true := by
    unfold Read.forced
    rw [nonUndef]
    rfl
  have none : (⟨s, v, q⟩ : Read E).undefVars x = [] := by
    unfold Read.undefVars
    rw [found]
    exact if_pos forced
  refine ⟨found, ?_, ⟨wf.vals, wf.valUndefs, wf.undefs, wf.nonUndefs⟩,
    .of_values rfl (Nat.le_refl _) fun _ used => used, fun _ absent => absent,
    fun y member => ?_, ?_, fun unforced => ?_⟩
  · unfold State.eval
    dsimp only
    rw [found]
    dsimp only
    rw [nonUndef]
  · rcases x.vars_withValue _ _ y (vars_simplify member) with own | other
    · exact wf.vals v t found y own
    · exact wf.nonUndefs v stripped nonUndef y other
  · rw [none]
    exact List.forall_mem_nil _
  · cases forced.symm.trans unforced

theorem undefVars_unforced (found : s.values v = some t) (nonUndef : s.analysis.nonUndef v = none) :
    (⟨s, v, q⟩ : Read E).undefVars x =
      if s.usesOwn v t then t.undefVars
      else if x.subst t.val (rename s.nextFresh (s.repls x t q)) = t.val then []
      else freshVars s.nextFresh t.undefVars.length := by
  have unforced : (⟨s, v, q⟩ : Read E).forced = false := by
    unfold Read.forced
    rw [nonUndef]
    rfl
  unfold Read.undefVars
  dsimp only
  rw [found]
  dsimp only
  rw [unforced, if_neg Bool.false_ne_true]

section

variable (wf : Wf x s) (found : s.values v = some t) (nonUndef : s.analysis.nonUndef v = none)

include wf found nonUndef

theorem reads_own (own : s.usesOwn v t = true) : Reads x ⟨s, v, q⟩
      { s with
        undefVars := s.undefVars ++ t.undefVars
        analysis := { s.analysis with
          unused := s.analysis.unused.filter fun w => decide (w ≠ v) } }
      t (s.simplify x v t.val) := by
  have undefVars : (⟨s, v, q⟩ : Read E).undefVars x = t.undefVars := by
    rw [undefVars_unforced found nonUndef, if_pos own]
  have gone : v ∉ s.analysis.unused.filter fun w => decide (w ≠ v) := by
    intro member
    exact of_decide_eq_true (List.mem_filter.1 member).2 rfl
  have cases : t.undefVars = [] ∨ v ∈ s.analysis.unused := by
    unfold State.usesOwn at own
    rwa [Bool.or_eq_true, decide_eq_true_eq, decide_eq_true_eq] at own
  refine ⟨found, ?_, ⟨wf.vals, wf.valUndefs, fun y member => ?_, wf.nonUndefs⟩,
    .of_values rfl (Nat.le_refl _) fun w used member => used (List.mem_filter.1 member).1,
    fun _ absent => absent, fun y member => wf.vals v t found y (vars_simplify member), ?_,
    fun _ => ⟨gone, [], ?_⟩⟩
  · unfold State.eval
    dsimp only
    rw [found]
    dsimp only
    rw [nonUndef]
    exact if_pos own
  · rcases List.mem_append.1 member with old | new
    · exact wf.undefs y old
    · exact wf.valUndefs v t found y new
  · rw [undefVars]
    rcases cases with none | unused
    · rw [none]
      exact List.forall_mem_nil _
    · exact fun _ _ => .inr unused
  · refine ⟨Nat.le_refl _, fun ρ => ?_, .inr ⟨rfl, ?_⟩⟩
    · simp only [rename_nil]
      exact eval_simplify s v t.val ρ
    · rcases cases with none | unused
      · exact .inr fun u member => absurd (none ▸ member) List.not_mem_nil
      · exact .inl unused

theorem reads_unchanged (own : ¬ s.usesOwn v t = true)
    (same : x.subst t.val (rename s.nextFresh (s.repls x t q)) = t.val) :
    Reads x ⟨s, v, q⟩
      { s with
        nextFresh := s.nextFresh + (s.repls x t q).length
        nondetVars := s.nondetVars ++
          (freshVars s.nextFresh (s.repls x t q).length).drop t.undefVars.length
        values := Function.update s.values v (some { t with undefVars := [] }) }
      t (s.simplify x v t.val) := by
  have undefVars : (⟨s, v, q⟩ : Read E).undefVars x = [] := by
    rw [undefVars_unforced found nonUndef, if_neg own, if_pos same]
  have free : ∀ u ∈ t.undefVars, u ∉ x.vars t.val := fun u member =>
    not_mem_vars_of_subst_eq (wf.vals v t found) same u (List.mem_append_left _ member)
  have more : s.nextFresh ≤ s.nextFresh + (s.repls x t q).length := Nat.le_add_right _ _
  have updated : ∀ {w t'},
      Function.update s.values v (some { t with undefVars := [] }) w = some t' →
      ∃ t₀, s.values w = some t₀ ∧ t'.val = t₀.val ∧ ∀ y ∈ t'.undefVars, y ∈ t₀.undefVars := by
    intro w t' some
    by_cases here : w = v
    · subst here
      rw [Function.update_self] at some
      cases some
      exact ⟨t, found, rfl, List.forall_mem_nil _⟩
    · rw [Function.update_of_ne here] at some
      exact ⟨t', some, rfl, fun _ member => member⟩
  refine ⟨found, ?_, ⟨fun w t' some y member => ?_, fun w t' some y member => ?_,
    fun y member => ?_, fun w e some y member => (wf.nonUndefs w e some y member).mono more⟩,
    ⟨⟨more, fun w t₀ some => ?_⟩, fun _ _ _ used => used⟩, fun w absent => ?_,
    fun y member => (wf.vals v t found y (vars_simplify member)).mono more, ?_,
    fun _ => ⟨(not_usesOwn own).2, [], ?_⟩⟩
  · unfold State.eval
    dsimp only
    rw [found]
    dsimp only
    rw [nonUndef]
    exact (if_neg own).trans (if_pos same)
  · obtain ⟨t₀, found₀, val, _⟩ := updated some
    rw [val] at member
    exact (wf.vals w t₀ found₀ y member).mono more
  · obtain ⟨t₀, found₀, _, undefs⟩ := updated some
    obtain ⟨i, below, rfl⟩ := wf.valUndefs w t₀ found₀ y (undefs y member)
    exact ⟨i, Nat.lt_of_lt_of_le below more, rfl⟩
  · obtain ⟨i, below, rfl⟩ := wf.undefs y member
    exact ⟨i, Nat.lt_of_lt_of_le below more, rfl⟩
  · by_cases here : w = v
    · subst here
      cases found.symm.trans some
      exact ⟨_, Function.update_self w _ s.values, rfl, .inr ⟨rfl, free⟩⟩
    · exact ⟨t₀, (Function.update_of_ne here _ s.values).trans some, .refl⟩
  · have other : w ≠ v := fun same => by
      subst same
      cases found.symm.trans absent
    exact (Function.update_of_ne other _ s.values).trans absent
  · rw [undefVars]
    exact List.forall_mem_nil _
  · refine ⟨more, fun ρ => ?_, .inr ⟨rfl, .inr free⟩⟩
    simp only [rename_nil]
    exact eval_simplify s v t.val ρ

theorem reads_replaced (own : ¬ s.usesOwn v t = true)
    (differ : ¬ x.subst t.val (rename s.nextFresh (s.repls x t q)) = t.val) :
    Reads x ⟨s, v, q⟩
      { s with
        nextFresh := s.nextFresh + (s.repls x t q).length
        nondetVars := s.nondetVars ++
          (freshVars s.nextFresh (s.repls x t q).length).drop t.undefVars.length
        undefVars := s.undefVars ++ freshVars s.nextFresh t.undefVars.length }
      t (s.simplify x v (x.subst t.val (rename s.nextFresh (s.repls x t q)))) := by
  have undefVars : (⟨s, v, q⟩ : Read E).undefVars x = freshVars s.nextFresh t.undefVars.length := by
    rw [undefVars_unforced found nonUndef, if_neg own, if_neg differ]
  have more : s.nextFresh ≤ s.nextFresh + (s.repls x t q).length := Nat.le_add_right _ _
  have part : t.undefVars.length ≤ (s.repls x t q).length := by
    unfold State.repls
    rw [List.length_append]
    exact Nat.le_add_right _ _
  refine ⟨found, ?_, ⟨fun w t' some y member => (wf.vals w t' some y member).mono more,
    fun w t' some y member => ?_, fun y member => ?_,
    fun w e some y member => (wf.nonUndefs w e some y member).mono more⟩,
    .of_values rfl more fun _ used => used, fun _ absent => absent, fun y member => ?_, ?_,
    fun _ => ⟨(not_usesOwn own).2, s.repls x t q, Nat.le_refl _, fun ρ => ?_,
      .inl fun u member => List.mem_append_left _ member⟩⟩
  · unfold State.eval
    dsimp only
    rw [found]
    dsimp only
    rw [nonUndef]
    exact (if_neg own).trans (if_neg differ)
  · obtain ⟨i, below, rfl⟩ := wf.valUndefs w t' some y member
    exact ⟨i, Nat.lt_of_lt_of_le below more, rfl⟩
  · rcases List.mem_append.1 member with old | new
    · obtain ⟨i, below, rfl⟩ := wf.undefs y old
      exact ⟨i, Nat.lt_of_lt_of_le below more, rfl⟩
    · obtain ⟨i, _, below, rfl⟩ := mem_freshVars.1 new
      exact ⟨i, Nat.lt_of_lt_of_le below (Nat.add_le_add_left part _), rfl⟩
  · obtain ⟨y₀, old, rfl⟩ := x.vars_subst _ _ y (vars_simplify member)
    exact rename_below (wf.vals v t found y₀ old)
  · rw [undefVars]
    intro y member
    obtain ⟨i, low, _, rfl⟩ := mem_freshVars.1 member
    exact .inl ⟨i, low, rfl⟩
  · rw [eval_simplify, x.eval_subst]

end

theorem eval_recorded (eval : s.eval x v q = some (s', e)) : (∀ y ∈ s.undefVars, y ∈ s'.undefVars) ∧
      ∀ y ∈ (⟨s, v, q⟩ : Read E).undefVars x, y ∈ s'.undefVars := by
  unfold State.eval at eval
  cases found : s.values v with
  | none =>
    rw [found] at eval
    cases eval
  | some t =>
    rw [found] at eval
    dsimp only at eval
    cases nonUndef : s.analysis.nonUndef v with
    | some stripped =>
      rw [nonUndef] at eval
      cases eval
      have none : (⟨s, v, q⟩ : Read E).undefVars x = [] := by
        unfold Read.undefVars Read.forced
        dsimp only
        rw [found, nonUndef]
        rfl
      rw [none]
      exact ⟨fun _ member => member, List.forall_mem_nil _⟩
    | none =>
      rw [nonUndef] at eval
      rw [undefVars_unforced found nonUndef]
      dsimp only at eval
      by_cases own : s.usesOwn v t = true
      · rw [if_pos own] at eval
        cases eval
        rw [if_pos own]
        exact ⟨fun _ member => List.mem_append_left _ member,
          fun _ member => List.mem_append_right _ member⟩
      · rw [if_neg own] at eval
        rw [if_neg own]
        split at eval
        · rename_i same
          cases eval
          rw [if_pos same]
          exact ⟨fun _ member => member, List.forall_mem_nil _⟩
        · rename_i differ
          cases eval
          rw [if_neg differ]
          exact ⟨fun _ member => List.mem_append_left _ member,
            fun _ member => List.mem_append_right _ member⟩

theorem eval_reads (wf : Wf x s) (eval : s.eval x v q = some (s', e)) :
    ∃ t, Reads x ⟨s, v, q⟩ s' t e := by
  have same : ∀ {t s'' e'}, Reads x ⟨s, v, q⟩ s'' t e' → ∃ t, Reads x ⟨s, v, q⟩ s' t e := by
    intro t s'' e' reads
    cases reads.result.symm.trans eval
    exact ⟨t, reads⟩
  cases found : s.values v with
  | none =>
    unfold State.eval at eval
    rw [found] at eval
    cases eval
  | some t =>
    cases nonUndef : s.analysis.nonUndef v with
    | some stripped => exact same (reads_forced wf found nonUndef)
    | none =>
      by_cases own : s.usesOwn v t = true
      · exact same (reads_own wf found nonUndef own)
      · by_cases unchanged : x.subst t.val (rename s.nextFresh (s.repls x t q)) = t.val
        · exact same (reads_unchanged wf found nonUndef own unchanged)
        · exact same (reads_replaced wf found nonUndef own unchanged)

end

/-! ## Two reads -/

/-- The two reads can take every pair of the values that the undef variables allow, with the
variables from before as they are. -/
def AllPairs (x : Exprs E D) [DecidableEq E] (r₁ r₂ : Read E) : Prop :=
  ∃ t e₁ e₂, r₁.before.values r₁.v = some t ∧ r₁.result x = some e₁ ∧ r₂.result x = some e₂ ∧
    ∀ ρ₁ ρ₂ : Var → D, (∀ y ∈ x.vars t.val, y ∉ t.undefVars → ρ₁ y = ρ₂ y) →
      ∃ ρ, x.eval e₁ ρ = x.eval t.val ρ₁ ∧ x.eval e₂ ρ = x.eval t.val ρ₂ ∧
        ∀ y, y.Below r₁.before.nextFresh → ρ y = ρ₁ y

section

variable {x : Exprs E D} [DecidableEq E] {r₁ r₂ : Read E} {s₁ s₂ : State E} {t₁ t₂ : ValTy E}
  {e₁ e₂ : E}

section

variable (first : Reads x r₁ s₁ t₁ e₁)

include first

theorem Reads.recorded : ∀ y ∈ r₁.undefVars x, y ∈ s₁.undefVars :=
  (eval_recorded first.result).2

theorem Reads.keeps (follows : Follows x s₁ r₂.before)
    (second : Reads x r₂ s₂ t₂ e₂) (same : r₁.v = r₂.v) : Keeps x t₁ t₂ := by
  obtain ⟨t, found, keeps⟩ := (first.follows.trans follows).values _ _ first.found
  rw [same, second.found] at found
  cases found
  exact keeps

theorem Reads.used (unforced : r₁.forced = false)
    (follows : Follows x s₁ r₂.before) (same : r₁.v = r₂.v) : r₂.v ∉ r₂.before.analysis.unused := by
  obtain ⟨t, found, _⟩ := first.follows.values _ _ first.found
  exact same ▸ follows.used _ t found (first.unforced unforced).1

theorem Reads.disjoint (follows : Follows x s₁ r₂.before) (second : Reads x r₂ s₂ t₂ e₂)
    (same : r₁.v = r₂.v) : List.Disjoint (r₁.undefVars x) (r₂.undefVars x) := by
  intro y member member'
  cases forced : r₁.forced with
  | true =>
    unfold Read.undefVars at member
    rw [first.found] at member
    dsimp only at member
    rw [forced, if_pos rfl] at member
    exact absurd member List.not_mem_nil
  | false =>
    obtain ⟨i, below, rfl⟩ := first.wf.undefs y (first.recorded y member)
    rcases second.undefVars _ member' with ⟨j, fresh, same'⟩ | unused
    · cases same'
      exact absurd (Nat.lt_of_lt_of_le below follows.nextFresh) (Nat.not_lt.2 fresh)
    · exact first.used forced follows same unused

end

theorem Reads.allPairs (wf : Wf x r₁.before) (first : Reads x r₁ s₁ t₁ e₁)
    (follows : Follows x s₁ r₂.before) (second : Reads x r₂ s₂ t₂ e₂) (same : r₁.v = r₂.v)
    (unforced : r₁.forced = false) (unforced' : r₂.forced = false) : AllPairs x r₁ r₂ := by
  obtain ⟨val, undefs⟩ := first.keeps follows second same
  have used := first.used unforced follows same
  obtain ⟨_, repls₁, bound₁, eval₁, _⟩ := first.unforced unforced
  obtain ⟨_, repls₂, bound₂, eval₂, replaced⟩ := second.unforced unforced'
  have order := follows.nextFresh
  have below := wf.vals _ _ first.found
  refine ⟨t₁, e₁, e₂, first.found, by rw [Read.result, first.result]; rfl,
    by rw [Read.result, second.result]; rfl, fun ρ₁ ρ₂ agree => ?_⟩
  -- a variable that the second read does not replace has one value
  have agree' : ∀ y ∈ x.vars t₁.val, y ∉ repls₂ → ρ₁ y = ρ₂ y := by
    intro y member absent
    refine agree y member fun undef => ?_
    rcases undefs with kept | ⟨_, free⟩
    · rcases replaced with all | ⟨_, unused | free⟩
      · exact absent (all y (kept ▸ undef))
      · exact used unused
      · exact free y (kept ▸ undef) (val ▸ member)
    · exact free y undef member
  refine ⟨graft r₂.before.nextFresh repls₂ ρ₂ (graft r₁.before.nextFresh repls₁ ρ₁ ρ₁), ?_, ?_,
    fun y low => ?_⟩
  · rw [eval₁]
    refine x.eval_congr _ _ _ fun y member => ?_
    have early : (rename r₁.before.nextFresh repls₁ y).Below _ := rename_below (below y member)
    rw [graft_below (early.mono (by omega))]
    by_cases inside : y ∈ repls₁
    · exact graft_rename_mem inside
    · rw [rename_not_mem inside]
      exact graft_below (below y member)
  · rw [eval₂, val]
    refine x.eval_congr _ _ _ fun y member => ?_
    by_cases inside : y ∈ repls₂
    · exact graft_rename_mem inside
    · have old := below y member
      rw [rename_not_mem inside, graft_below (old.mono (by omega)), graft_below old]
      exact agree' y member inside
  · rw [graft_below (low.mono (by omega)), graft_below low]

end

/-! ## Runs of reads -/

def Chain (x : Exprs E D) [DecidableEq E] (s : State E) : List (Read E) → State E → Prop
  | [], s' => Follows x s s'
  | r :: rs, s' => Wf x r.before ∧ Follows x s r.before ∧
      ∃ after t e, Reads x r after t e ∧ Chain x after rs s'

section

variable {x : Exprs E D} [DecidableEq E] {s s' s'' : State E} {rs rs' : List (Read E)}

theorem Chain.follows (chain : Chain x s rs s') : Follows x s s' := by
  induction rs generalizing s with
  | nil => exact chain
  | cons r rs ih =>
    obtain ⟨_, follows, after, t, e, reads, rest⟩ := chain
    exact (follows.trans reads.follows).trans (ih rest)

theorem Chain.of_follows (follows : Follows x s s') (chain : Chain x s' rs s'') :
    Chain x s rs s'' := by
  cases rs with
  | nil => exact follows.trans chain
  | cons r rs =>
    obtain ⟨wf, follows', rest⟩ := chain
    exact ⟨wf, follows.trans follows', rest⟩

theorem Chain.append (first : Chain x s rs s') (second : Chain x s' rs' s'') :
    Chain x s (rs ++ rs') s'' := by
  induction rs generalizing s with
  | nil => exact second.of_follows first
  | cons r rs ih =>
    obtain ⟨wf, follows, after, t, e, reads, rest⟩ := first
    exact ⟨wf, follows, after, t, e, reads, ih rest⟩

theorem Chain.at (chain : Chain x s rs s') {k : Nat} {r : Read E} (found : rs[k]? = some r) :
    Wf x r.before ∧ Follows x s r.before ∧
      ∃ after t e, Reads x r after t e ∧ Chain x after (rs.drop (k + 1)) s' := by
  induction rs generalizing s k with
  | nil => cases found
  | cons r' rs ih =>
    obtain ⟨wf, follows, after, t, e, reads, rest⟩ := chain
    cases k with
    | zero =>
      cases found
      exact ⟨wf, follows, after, t, e, reads, rest⟩
    | succ k =>
      obtain ⟨wf', follows', more⟩ := ih rest found
      exact ⟨wf', (follows.trans reads.follows).trans follows', more⟩

end

/-! ## One instruction -/

/-- What holds in the middle of a `toSMT` that started in `s`. -/
structure Within (x : Exprs E D) [DecidableEq E] (s : State E) (p : Progress E) : Prop where
  wf : Wf x p.state
  chain : Chain x s p.reads p.state
  absent : ∀ w, s.values w = none → p.state.values w = none
  exprs : ∀ e ∈ p.exprs, ∀ y ∈ x.vars e, y.Below p.state.nextFresh
  introduced : ∀ y ∈ p.introduced, y.Below p.state.nextFresh

section

variable {x : Exprs E D} [DecidableEq E] {s s' : State E} {p p' : Progress E}

section

variable (h : Within x s p)

include h

theorem Within.read {v : Val} {q : Bool} {e : E} (read : p.read x v q = some (p', e)) :
    Within x s p' ∧ ∀ y ∈ x.vars e, y.Below p'.state.nextFresh := by
  obtain ⟨⟨after, e'⟩, eval, same⟩ := Option.map_eq_some_iff.1 read
  cases same
  obtain ⟨t, reads⟩ := eval_reads h.wf eval
  have more : p.state.nextFresh ≤ after.nextFresh := reads.follows.nextFresh
  refine ⟨⟨reads.wf, ?_, fun w absent => reads.absent w (h.absent w absent),
    fun e member y inside => (h.exprs e member y inside).mono more,
    fun y member => (h.introduced y member).mono more⟩, reads.below⟩
  exact h.chain.append ⟨h.wf, .refl, after, t, _, reads, .refl⟩

theorem Within.introduce {update : State E → Var → State E}
    (values : ∀ s var, (update s var).values = s.values)
    (nextFresh : ∀ s var, (update s var).nextFresh = s.nextFresh)
    (analysis : ∀ s var, (update s var).analysis = s.analysis)
    (undefVars : ∀ s var, ∀ y ∈ (update s var).undefVars, y ∈ s.undefVars ∨ y = var) :
    Within x s (p.introduce update) := by
  have next : (p.introduce update).state.nextFresh = p.state.nextFresh + 1 := nextFresh _ _
  have vals : (p.introduce update).state.values = p.state.values := values _ _
  have more : p.state.nextFresh ≤ (p.introduce update).state.nextFresh := next ▸ Nat.le_succ _
  have known : (p.introduce update).state.analysis = p.state.analysis := analysis _ _
  have last : p.state.nextFresh < (p.introduce update).state.nextFresh := next ▸ Nat.lt_succ_self _
  refine ⟨⟨fun v t found y member => ?_, fun v t found y member => ?_, fun y member => ?_,
    fun v e found y member => ?_⟩, ?_, fun w absent => vals ▸ h.absent w absent,
    fun e member y inside => (h.exprs e member y inside).mono more, fun y member => ?_⟩
  · exact (h.wf.vals v t (vals ▸ found) y member).mono more
  · obtain ⟨i, below, rfl⟩ := h.wf.valUndefs v t (vals ▸ found) y member
    exact ⟨i, Nat.lt_of_lt_of_le below more, rfl⟩
  · rcases undefVars _ _ y member with old | rfl
    · obtain ⟨i, below, rfl⟩ := h.wf.undefs y old
      exact ⟨i, Nat.lt_of_lt_of_le below more, rfl⟩
    · exact ⟨p.state.nextFresh, last, rfl⟩
  · exact (h.wf.nonUndefs v e (known ▸ found) y member).mono more
  · have follows : Follows x p.state (p.introduce update).state :=
      .of_values vals more fun v used => known ▸ used
    have last : Chain x p.state [] (p.introduce update).state := follows
    exact (List.append_nil p.reads) ▸ h.chain.append last
  · rcases List.mem_append.1 member with old | new
    · exact (h.introduced y old).mono more
    · rw [List.mem_singleton.1 new]
      exact last

theorem Within.update (reads : p'.reads = p.reads)
    (introduced : p'.introduced = p.introduced) (values : p'.state.values = p.state.values)
    (nextFresh : p'.state.nextFresh = p.state.nextFresh)
    (unused : p'.state.analysis.unused = p.state.analysis.unused)
    (undefVars : ∀ y ∈ p'.state.undefVars, y ∈ p.state.undefVars)
    (nonUndefs : ∀ v e, p'.state.analysis.nonUndef v = some e → ∀ y ∈ x.vars e,
      y.Below p.state.nextFresh)
    (exprs : ∀ e ∈ p'.exprs, ∀ y ∈ x.vars e, y.Below p.state.nextFresh) : Within x s p' := by
  refine ⟨⟨fun v t found => ?_, fun v t found => ?_, fun y member => ?_, fun v e found => ?_⟩, ?_,
    fun w absent => values ▸ h.absent w absent, ?_, ?_⟩
  · rw [nextFresh]
    exact h.wf.vals v t (values ▸ found)
  · rw [nextFresh]
    exact h.wf.valUndefs v t (values ▸ found)
  · rw [nextFresh]
    exact h.wf.undefs y (undefVars y member)
  · rw [nextFresh]
    exact nonUndefs v e found
  · have follows : Follows x p.state p'.state :=
      .of_values values (Nat.le_of_eq nextFresh.symm) fun v used => unused ▸ used
    have last : Chain x p.state [] p'.state := follows
    rw [reads, ← List.append_nil p.reads]
    exact h.chain.append last
  · rw [nextFresh]
    exact exprs
  · rw [nextFresh, introduced]
    exact h.introduced

theorem Within.addPoisonUB (v : Val) (undefUBToo : Bool) (marked : List Val)
    {sv : E} (below : ∀ y ∈ x.vars sv, y.Below p.state.nextFresh) :
    Within x s (p.addPoisonUB x v undefUBToo marked sv) := by
  unfold Progress.addPoisonUB
  dsimp only
  split
  · exact h.update rfl rfl rfl rfl rfl (fun _ member => member) h.wf.nonUndefs
      (forall_mem_snoc h.exprs below)
  · have stripped : ∀ y ∈ x.vars ((p.state.analysis.nonUndef v).getD
        (x.strip sv p.state.undefVars)), y.Below p.state.nextFresh := by
      intro y member
      cases known : p.state.analysis.nonUndef v with
      | some e =>
        rw [known] at member
        exact h.wf.nonUndefs v e known y member
      | none =>
        rw [known] at member
        rcases x.vars_strip sv _ y member with own | ⟨n, rfl⟩
        · exact below y own
        · trivial
    have value : ∀ y ∈ x.vars (if undefUBToo then (p.state.analysis.nonUndef v).getD
        (x.strip sv p.state.undefVars) else sv), y.Below p.state.nextFresh := by
      intro y member
      split at member
      · exact stripped y member
      · exact below y member
    refine h.update rfl rfl rfl rfl rfl (fun _ member => member) (fun w e found => ?_)
      (forall_mem_snoc h.exprs fun y member => ?_)
    · cases undefUBToo with
      | false => exact h.wf.nonUndefs w e found
      | true =>
        have updated : Function.update p.state.analysis.nonUndef v
          (some ((p.state.analysis.nonUndef v).getD (x.strip sv p.state.undefVars))) w =
            some e := found
        by_cases here : w = v
        · subst here
          rw [Function.update_self] at updated
          cases updated
          exact stripped
        · rw [Function.update_of_ne here] at updated
          exact h.wf.nonUndefs w e updated
    · rcases x.vars_withValue _ _ y (x.vars_asNonPoison _ y member) with own | other
      · exact below y own
      · exact value y other

theorem Within.step (a : Action) (step : p.step x a = some p') : Within x s p' := by
  cases a with
  | eval v quantifyNondet =>
    obtain ⟨⟨after, e⟩, read, same⟩ := Option.map_eq_some_iff.1 step
    cases same
    obtain ⟨within, below⟩ := h.read read
    exact within.update rfl rfl rfl rfl rfl (fun _ member => member) within.wf.nonUndefs
      (forall_mem_snoc within.exprs below)
  | getAndAddPoisonUB v undefUBToo marked =>
    obtain ⟨⟨after, e⟩, read, same⟩ := Option.map_eq_some_iff.1 step
    cases same
    obtain ⟨within, below⟩ := h.read read
    exact within.addPoisonUB v undefUBToo marked below
  | addUndefVar =>
    cases step
    refine h.introduce (fun _ _ => rfl) (fun _ _ => rfl) (fun _ _ => rfl) fun _ var y member => ?_
    exact (List.mem_append.1 member).imp_right List.mem_singleton.1
  | addNonDetVar =>
    cases step
    exact h.introduce (fun _ _ => rfl) (fun _ _ => rfl) (fun _ _ => rfl)
      fun _ _ _ member => .inl member
  | resetUndefVars =>
    cases step
    exact h.update rfl rfl rfl rfl rfl (List.forall_mem_nil _) h.wf.nonUndefs h.exprs

end

theorem Within.steps (actions : List Action) (h : Within x s p)
    (steps : actions.foldlM (Progress.step x) p = some p') : Within x s p' := by
  induction actions generalizing p with
  | nil =>
    cases steps
    exact h
  | cons a actions ih =>
    rw [List.foldlM_cons] at steps
    obtain ⟨next, step, rest⟩ := Option.bind_eq_some_iff.1 steps
    exact ih (h.step a step) rest

theorem Within.start (wf : Wf x s) : Within x s ⟨s, [], [], []⟩ :=
  ⟨wf, .refl, fun _ absent => absent, List.forall_mem_nil _, List.forall_mem_nil _⟩

theorem exec_chain {tgtIsAsm : Bool} {i : Instr x} {rs : List (Read E)} (wf : Wf x s)
    (run : exec tgtIsAsm s i = some (s', rs)) : Wf x s' ∧ Chain x s rs s' := by
  unfold exec at run
  split at run
  · cases run
  · rename_i new
    obtain ⟨p, steps, same⟩ := Option.map_eq_some_iff.1 run
    cases same
    have within := (Within.start wf).steps i.actions steps
    have absent : p.state.values i.v = none := within.absent i.v (by
      rw [not_or, Bool.not_eq_true, Option.isSome_eq_false_iff, Option.isNone_iff_eq_none] at new
      exact new.2)
    have other : ∀ {w t}, p.state.values w = some t → w ≠ i.v := by
      rintro w t found rfl
      cases absent.symm.trans found
    constructor
    · refine ⟨fun w t found y member => ?_, fun w t found y member => ?_,
        List.forall_mem_nil _, within.wf.nonUndefs⟩
      · dsimp only at found
        by_cases here : w = i.v
        · subst here
          rw [Function.update_self] at found
          cases found
          rcases i.vars_build _ _ y member with ⟨e, inside, own⟩ | new | ⟨n, rfl⟩
          · exact within.exprs e inside y own
          · exact within.introduced y new
          · trivial
        · rw [Function.update_of_ne here] at found
          exact within.wf.vals w t found y member
      · dsimp only at found
        by_cases here : w = i.v
        · subst here
          rw [Function.update_self] at found
          cases found
          exact within.wf.undefs y member
        · rw [Function.update_of_ne here] at found
          exact within.wf.valUndefs w t found y member
    · have follows : Follows x p.state
          { p.state with
            values := Function.update p.state.values i.v
              (some ⟨i.build p.exprs p.introduced, p.state.undefVars⟩)
            undefVars := []
            analysis := { p.state.analysis with
              unused := if tgtIsAsm then p.state.analysis.unused
                else i.v :: p.state.analysis.unused } } := by
        refine ⟨⟨Nat.le_refl _, fun w t found => ⟨t, ?_, .refl⟩⟩, fun w t found used => ?_⟩
        · exact (Function.update_of_ne (other found) _ _).trans found
        · dsimp only
          split
          · exact used
          · exact fun member => (List.mem_cons.1 member).elim (other found) used
      have last : Chain x p.state [] _ := follows
      rw [← List.append_nil p.reads]
      exact within.chain.append last

end

end AliveNext.IR.UndefReads
