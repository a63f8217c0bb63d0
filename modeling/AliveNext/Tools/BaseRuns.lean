import AliveNext.Tools.BasePointer

/-!
# Runs of a function and bases of pointers

In a run of a function in SSA form, with whatever loops it has, a value that the search for a
base passed through was computed from what its base reads as now: the base dominates the value,
so a value from before the base was computed again can no longer be used.
-/

namespace AliveNext.Tools.BasePointer.Fn

variable (f : Fn)

def Fixed (v : Nat) : Prop := ∀ b, v ∉ f.body b

/-- The value was computed before the instructions of a block that follow `done`. -/
def Available (b : Nat) (done : List Nat) (v : Nat) : Prop :=
  f.Fixed v ∨ v ∈ done ∨ ∃ d, d ≠ b ∧ v ∈ f.body d ∧ f.flow.Dominates d b

/-- What the verifier checks of a function. -/
structure Ssa : Prop where
  nodup : ∀ b, (f.body b).Nodup
  once : ∀ b d v, v ∈ f.body b → v ∈ f.body d → b = d
  entry : f.phis 0 = []
  fixed : ∀ v, f.Fixed v → (f.value v).sources = none
  phisFirst : ∀ b, f.phis b <+: f.body b
  use : ∀ b pre v post, f.body b = pre ++ v :: post → ∀ o ∈ (f.value v).operands,
    f.Available b pre o
  phiUse : ∀ b, ∀ v ∈ f.body b, ∀ values, f.value v = .phi values → ∀ o p, (o, p) ∈ values →
    f.Available p (f.body p) o
  phiEdge : ∀ b, ∀ v ∈ f.body b, ∀ values, f.value v = .phi values → ∀ p, b ∈ f.flow.succ p →
    ∃ o, (o, p) ∈ values

variable {f} {base b d p v : Nat} {vs done pre post rest todo : List Nat}

theorem mem_phis : v ∈ f.phis b ↔ v ∈ f.body b ∧ f.isPhi v = true := List.mem_filter

theorem sources_operands {value : Value} {ops : List Nat} (known : value.sources = some ops)
    (notPhi : value.isPhi = false) : ops ≠ [] ∧ ∀ o ∈ ops, o ∈ value.operands := by
  cases value with
  | gep inbounds nusw nuw ptr idxs =>
    cases known
    refine ⟨List.cons_ne_nil _ _, fun o member => ?_⟩
    rw [List.mem_singleton.1 member]
    exact List.mem_cons_self
  | noOp value =>
    cases known
    exact ⟨List.cons_ne_nil _ _, fun o member => member⟩
  | select onTrue onFalse =>
    cases known
    exact ⟨List.cons_ne_nil _ _, fun o member => member⟩
  | phi values => cases notPhi
  | nullPointer => cases known
  | alloc => cases known
  | fnCall attrs => cases known
  | intConst c => cases known
  | icmp cond x y => cases known
  | other => cases known

theorem isPhi_iff : f.isPhi v = true ↔ ∃ values, f.value v = .phi values := by
  unfold isPhi
  constructor
  · intro phi
    cases known : f.value v with
    | phi values => exact ⟨values, rfl⟩
    | _ =>
      rw [known] at phi
      cases phi
  · rintro ⟨values, known⟩
    rw [known]
    rfl

theorem Available.of_target (jump : b ∈ f.flow.succ p) (available : f.Available b (f.phis b) v)
    (notPhi : v ∉ f.phis b) : f.Available p (f.body p) v := by
  rcases available with fixed | phi | ⟨d, other, member, dominates⟩
  · exact .inl fixed
  · exact absurd phi notPhi
  · by_cases same : d = p
    · exact .inr (.inl (same ▸ member))
    · exact .inr (.inr ⟨d, same, member, dominates.source jump other⟩)

theorem base_before (ssa : f.Ssa) (rooted : f.Rooted base vs) (inside : v ∈ vs) (other : v ≠ base)
    (place : f.body d = pre ++ v :: post) (path : f.flow.Path (d :: rest)) :
    f.Fixed base ∨ base ∈ pre ∨ ∃ e ∈ rest, base ∈ f.body e := by
  induction hlength : rest.length using Nat.strong_induction_on generalizing rest d pre post v with
  | _ n shorter =>
    induction hposition : pre.length using Nat.strong_induction_on generalizing pre post v with
    | _ k nearer =>
      have member : v ∈ f.body d := place ▸ List.mem_append_right _ List.mem_cons_self
      obtain ⟨ops, known⟩ : ∃ ops, (f.value v).sources = some ops := by
        cases known : (f.value v).sources with
        | none => exact absurd (rooted.only v inside known) other
        | some ops => exact ⟨ops, rfl⟩
      -- an operand from a block on the path to an earlier end
      have before : ∀ o ∈ ops, ∀ e ∈ rest, o ∈ f.body e →
          f.Fixed base ∨ base ∈ pre ∨ ∃ e ∈ rest, base ∈ f.body e := by
        intro o source e passed computed
        by_cases same : o = base
        · exact .inr (.inr ⟨e, passed, same ▸ computed⟩)
        · obtain ⟨init, prior, suffix⟩ := path.earlier passed
          obtain ⟨first, last, split⟩ := List.append_of_mem computed
          have length := suffix.length_le
          rw [List.length_cons] at length
          rcases shorter init.length (by omega) (rooted.closed v inside ops known o source) same
            split prior rfl with fixed | here | ⟨e', passed', computed'⟩
          · exact .inl fixed
          · exact .inr (.inr ⟨e, passed, split ▸ List.mem_append_left _ here⟩)
          · exact .inr (.inr ⟨e', suffix.subset (List.mem_cons_of_mem e passed'), computed'⟩)
      have constant : ∀ o ∈ ops, f.Fixed o → f.Fixed base := by
        intro o source fixed
        rwa [← rooted.only o (rooted.closed v inside ops known o source) (ssa.fixed o fixed)]
      cases phi : f.isPhi v with
      | false =>
        obtain ⟨nonempty, operands⟩ := sources_operands known phi
        obtain ⟨o, source⟩ := List.exists_mem_of_ne_nil ops nonempty
        rcases ssa.use d pre v post place o (operands o source) with
          fixed | here | ⟨e, elsewhere, computed, dominates⟩
        · exact .inl (constant o source fixed)
        · by_cases same : o = base
          · exact .inr (.inl (same ▸ here))
          · obtain ⟨first, last, split⟩ := List.append_of_mem here
            have position : first.length < k := by
              rw [← hposition, split, List.length_append, List.length_cons]
              omega
            have place' : f.body d = first ++ o :: (last ++ v :: post) := by
              rw [place, split, List.append_assoc, List.cons_append]
            rcases nearer first.length position (rooted.closed v inside ops known o source) same
              place' rfl with fixed | there | found
            · exact .inl fixed
            · exact .inr (.inl (split ▸ List.mem_append_left _ there))
            · exact .inr (.inr found)
        · have passed := (List.mem_cons.1 (dominates rest path)).resolve_left elsewhere
          exact before o source e passed computed
      | true =>
        obtain ⟨values, shape⟩ := isPhi_iff.1 phi
        cases path with
        | entry =>
          have phis := mem_phis.2 ⟨member, phi⟩
          rw [ssa.entry] at phis
          cases phis
        | @jump p _ rest path jump =>
          obtain ⟨o, edge⟩ := ssa.phiEdge d v member values shape p jump
          have source : o ∈ ops := by
            rw [shape] at known
            cases known
            exact List.mem_map.2 ⟨(o, p), edge, rfl⟩
          rcases ssa.phiUse d v member values shape o p edge with
            fixed | here | ⟨e, -, computed, dominates⟩
          · exact .inl (constant o source fixed)
          · exact before o source p List.mem_cons_self here
          · exact before o source e (dominates rest path) computed

theorem not_available (ssa : f.Ssa) (rooted : f.Rooted base vs) (reachable : f.flow.Reachable b)
    (place : f.body b = done ++ base :: todo) (inside : v ∈ vs)
    (other : v ≠ base) : ¬ f.Available b (done ++ [base]) v := by
  have member : base ∈ f.body b := place ▸ List.mem_append_right _ List.mem_cons_self
  rintro (fixed | here | ⟨d, elsewhere, computed, dominates⟩)
  · exact other (rooted.only v inside (ssa.fixed v fixed))
  · have before : v ∈ done := (List.mem_append.1 here).resolve_right
      fun last => other (List.mem_singleton.1 last)
    obtain ⟨rest, path, new⟩ := reachable.first
    obtain ⟨first, last, split⟩ := List.append_of_mem before
    have place' : f.body b = first ++ v :: (last ++ base :: todo) := by
      rw [place, split, List.append_assoc, List.cons_append]
    rcases base_before ssa rooted inside other place' path with
      fixed | early | ⟨e, passed, computed⟩
    · exact fixed b member
    · have nodup := ssa.nodup b
      rw [place, List.nodup_append] at nodup
      exact nodup.2.2 base (split ▸ List.mem_append_left _ early) base List.mem_cons_self rfl
    · exact new (ssa.once b e base member computed ▸ passed)
  · obtain ⟨first, last, split⟩ := List.append_of_mem computed
    have back : f.flow.Dominates b d := by
      intro rest path
      rcases base_before ssa rooted inside other split path with fixed | early | ⟨e, passed, found⟩
      · exact absurd member (fixed b)
      · rw [ssa.once b d base member (split ▸ List.mem_append_left _ early)]
        exact List.mem_cons_self
      · rw [ssa.once b e base member found]
        exact List.mem_cons_of_mem d passed
    exact elsewhere (dominates.antisymm reachable back)

/-- What the lanes of the values can read as: nothing for poison, several things for what depends
on undef. A scalar reads the same in all lanes. -/
abbrev Env (R : Type) : Type := Nat → Nat → Set R

section

variable {R : Type}

structure Entered (f : Fn) (p b : Nat) (env env' : Env R) : Prop where
  phis : ∀ v ∈ f.phis b, ∃ values o, f.value v = .phi values ∧ (o, p) ∈ values ∧ env' v = env o
  others : ∀ v, v ∉ f.phis b → env' v = env v

/-- Runs up to an instruction, with the blocks they went through, the last one first, and its
instructions that are done and that are left. -/
inductive Run (f : Fn) (means : Value → Env R → (Nat → Set R) → Prop) :
    List Nat → List Nat → List Nat → Env R → Prop
  | entry {env : Env R} : (∀ v, f.Fixed v → means (f.value v) (fun _ _ => ∅) (env v)) →
      (∀ v, ¬ f.Fixed v → env v = fun _ => ∅) →
      Run f means [0] [] (f.body 0) env
  | instr {b v : Nat} {blocks done todo : List Nat} {env : Env R} {read : Nat → Set R} :
      Run f means (b :: blocks) done (v :: todo) env →
      f.isPhi v = false →
      means (f.value v) env read →
      Run f means (b :: blocks) (done ++ [v]) todo (Function.update env v read)
  | jump {p b : Nat} {blocks done : List Nat} {env env' : Env R} :
      Run f means (p :: blocks) done [] env →
      b ∈ f.flow.succ p →
      Entered f p b env env' →
      Run f means (b :: p :: blocks) (f.phis b) ((f.body b).drop (f.phis b).length) env'

variable {means : Value → Env R → (Nat → Set R) → Prop} {blocks : List Nat} {env : Env R}

theorem Run.place (ssa : f.Ssa) (run : Run f means blocks done todo env) :
    f.flow.Path blocks ∧ ∀ b rest, blocks = b :: rest → f.body b = done ++ todo := by
  induction run with
  | entry _ _ =>
    refine ⟨.entry, fun b rest same => ?_⟩
    cases same
    rfl
  | instr _ _ _ ih =>
    refine ⟨ih.1, fun b rest same => ?_⟩
    rw [ih.2 b rest same, List.append_assoc, List.singleton_append]
  | jump _ jump _ ih =>
    refine ⟨.jump ih.1 jump, fun b rest same => ?_⟩
    cases same
    exact (List.prefix_iff_eq_append.1 (ssa.phisFirst _)).symm

theorem Run.holds {P : Nat → R → Prop}
    (made : ∀ v env read, f.isPhi v = false → (∀ o lane, ∀ x ∈ env o lane, P o x) →
      means (f.value v) env read → ∀ lane, ∀ x ∈ read lane, P v x)
    (copied : ∀ v o x, f.isPhi v = true → P o x → P v x)
    (fixed : ∀ v, f.Fixed v → f.isPhi v = false)
    (run : Run f means blocks done todo env) : ∀ v lane, ∀ x ∈ env v lane, P v x := by
  induction run with
  | @entry env constants empty =>
    intro v lane x member
    by_cases constant : f.Fixed v
    · exact made v _ _ (fixed v constant) (fun _ _ _ impossible => impossible.elim)
        (constants v constant) lane x member
    · rw [empty v constant] at member
      exact member.elim
  | @instr b v' _ _ _ env read run notPhi means ih =>
    intro v lane x member
    by_cases same : v = v'
    · subst same
      rw [Function.update_self] at member
      exact made v env read notPhi ih means lane x member
    · rw [Function.update_of_ne same] at member
      exact ih v lane x member
  | @jump p b _ _ env env' run jump entered ih =>
    intro v lane x member
    by_cases phi : v ∈ f.phis b
    · obtain ⟨values, o, -, -, same⟩ := entered.phis v phi
      rw [same] at member
      exact copied v o x (mem_phis.1 phi).2 (ih o lane x member)
    · rw [entered.others v phi] at member
      exact ih v lane x member

theorem Run.rooted
    {Same : R → R → Prop} (refl : ∀ x, Same x x) (trans : ∀ x y z, Same x y → Same y z → Same x z)
    (follows : ∀ value env read ops, value.sources = some ops → value.isPhi = false →
      means value env read → ∀ lane, ∀ x ∈ read lane, ∃ o ∈ ops, ∃ y ∈ env o lane, Same x y)
    (ssa : f.Ssa) (rooted : f.Rooted base vs) (run : Run f means blocks done todo env) :
    ∀ b rest, blocks = b :: rest → ∀ v ∈ vs, f.Available b done v →
      ∀ lane, ∀ x ∈ env v lane, ∃ y ∈ env base lane, Same x y := by
  induction run with
  | @entry env constants empty =>
    rintro b rest same v inside available lane x member
    cases same
    by_cases fixed : f.Fixed v
    · rw [← rooted.only v inside (ssa.fixed v fixed)]
      exact ⟨x, member, refl x⟩
    · rw [empty v fixed] at member
      exact member.elim
  | @instr b v' rest done' todo' env read run notPhi step ih =>
    rintro _ _ same v inside available lane x member
    cases same
    obtain ⟨path, place⟩ := run.place ssa
    have place := place b rest rfl
    by_cases atBase : v' = base
    · -- the base is computed again: no other value of the search is available
      subst atBase
      by_cases isBase : v = v'
      · subst isBase
        exact ⟨x, member, refl x⟩
      · exact absurd available (not_available ssa rooted ⟨rest, path⟩ place inside isBase)
    · rw [Function.update_of_ne (Ne.symm atBase)]
      by_cases isNew : v = v'
      · subst isNew
        rw [Function.update_self] at member
        obtain ⟨ops, known⟩ : ∃ ops, (f.value v).sources = some ops := by
          cases known : (f.value v).sources with
          | none => exact absurd (rooted.only v inside known) atBase
          | some ops => exact ⟨ops, rfl⟩
        obtain ⟨o, source, y, reads, first⟩ := follows _ _ _ _ known notPhi step lane x member
        have operand := (sources_operands known notPhi).2 o source
        obtain ⟨z, atBase, second⟩ := ih b rest rfl o
          (rooted.closed v inside ops known o source) (ssa.use b _ v _ place o operand) lane y reads
        exact ⟨z, atBase, trans x y z first second⟩
      · rw [Function.update_of_ne isNew] at member
        refine ih b rest rfl v inside ?_ lane x member
        rcases available with fixed | here | elsewhere
        · exact .inl fixed
        · exact .inr (.inl ((List.mem_append.1 here).resolve_right
            fun last => isNew (List.mem_singleton.1 last)))
        · exact .inr (.inr elsewhere)
  | @jump p b blocks' done' env env' run jump entered ih =>
    rintro _ _ same v inside available lane x member
    cases same
    have place := (run.place ssa).2 p blocks' rfl
    rw [List.append_nil] at place
    have stops : base ∉ f.phis b := by
      intro phi
      obtain ⟨values, shape⟩ := isPhi_iff.1 (mem_phis.1 phi).2
      have stop := rooted.stop
      rw [shape] at stop
      cases stop
    rw [entered.others base stops]
    by_cases phi : v ∈ f.phis b
    · obtain ⟨values, o, shape, edge, read⟩ := entered.phis v phi
      rw [read] at member
      refine ih p blocks' rfl o (rooted.closed v inside (values.map Prod.fst) ?_ o ?_) ?_
        lane x member
      · rw [shape]
        rfl
      · exact List.mem_map.2 ⟨(o, p), edge, rfl⟩
      · exact place ▸ ssa.phiUse b v (mem_phis.1 phi).1 values shape o p edge
    · rw [entered.others v phi] at member
      exact ih p blocks' rfl v inside (place ▸ available.of_target jump phi) lane x member

end

end AliveNext.Tools.BasePointer.Fn
