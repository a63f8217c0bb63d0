import AliveNext.Smt.Extract

/-!
# A round of `concat` and of `sext`
-/

namespace AliveNext.Smt

namespace Expr

theorem isExtract_eq_some {e sub : Expr} {high low : Nat} :
    e.isExtract = some (sub, high, low) ↔ e = .app (.extract high low) [sub] := by
  unfold isExtract
  split
  · simp only [Option.some.injEq, Prod.mk.injEq, app.injEq, Op.extract.injEq, List.cons.injEq,
      and_true]
    tauto
  · next other =>
    constructor
    · intro known
      cases known
    · intro shape
      exact (other high low sub shape).elim

theorem isSignExt_eq_some {e val : Expr} :
    e.isSignExt = some val ↔ ∃ amount, e = .app (.signExt amount) [val] := by
  unfold isSignExt
  split
  · simp only [Option.some.injEq, app.injEq, Op.signExt.injEq, List.cons.injEq, and_true,
      exists_eq_left']
  · next other =>
    constructor
    · intro known
      cases known
    · intro shape
      obtain ⟨amount, shape⟩ := shape
      exact (other amount val shape).elim

variable {r : Calls} {k : Nat} (z : Z3) (good : r.Good k)

include good

section

variable {a b : Expr} {v w : Nat} (left : a.HasSort (.bv v)) (right : b.HasSort (.bv w))
  (enough : a.concatRank b ≤ k + 1)

include left right enough

theorem concatExtracts_builds :
    RuleBuilds (concatExtracts r a b) (.app .concat [a, b]) (a.size + b.size + 1) := by
  unfold concatExtracts
  split
  · next c high low d high2 low2 shape shape2 =>
    rw [isExtract_eq_some] at shape shape2
    subst shape shape2
    obtain ⟨width, ordered, u, inside, sortedC⟩ := hasSort_extract.1 left
    obtain ⟨width2, ordered2, u2, inside2, sortedD⟩ := hasSort_extract.1 right
    have sizeC : size (.app (.extract high low) [c]) = c.size + 1 := size_single (by simp)
    have sizeD : size (.app (.extract high2 low2) [d]) = d.size + 1 := size_single (by simp)
    have positive := d.size_pos
    unfold concatRank at enough
    by_cases adjacent : low = high2 + 1
    · rw [if_pos adjacent]
      by_cases same : c = d
      · subst same
        rw [if_pos rfl]
        have rank : c.extractRank ≤ k := by
          unfold extractRank
          omega
        apply ruleGives_fire
        exact (good.extract 3 sortedC (by omega) inside rank).via
          (concat_extracts sortedC ordered inside ordered2 adjacent).standsFor rfl (by omega)
      · rw [if_neg same]
        by_cases bottom : low2 = 0
        · rw [if_pos bottom]
          obtain ⟨o, known, parts⟩ := isConcat_spec good sortedC (by omega)
          rw [known]
          cases o with
          | none => exact ruleGives_skip
          | some pair =>
            obtain ⟨e, f⟩ := pair
            obtain ⟨-, -, -, x, y, total, sortedE, sortedF⟩ := parts e f rfl
            cases total
            simp only [Option.bind_eq_bind, Option.bind_some]
            -- the bits above the upper part are fewer than those of the lower
            have never : ¬(f = d ∧ high - e.bits = d.bits) := by
              rintro ⟨rfl, equal⟩
              have positive := sortedF.pos
              rw [sortedE.bits_eq, sortedF.bits_eq] at equal
              omega
            rw [if_neg never]
            exact ruleGives_skip
        · rw [if_neg bottom]
          exact ruleGives_skip
    · rw [if_neg adjacent]
      exact ruleGives_skip
  · exact ruleGives_skip

theorem concatExtractConcat_builds :
    RuleBuilds (concatExtractConcat r a b) (.app .concat [a, b]) (a.size + b.size + 1) := by
  unfold concatExtractConcat
  split
  · next c high low shape =>
    rw [isExtract_eq_some] at shape
    subst shape
    obtain ⟨width, ordered, u, inside, sortedC⟩ := hasSort_extract.1 left
    have sizeC : size (.app (.extract high low) [c]) = c.size + 1 := size_single (by simp)
    unfold concatRank at enough
    obtain ⟨o, known, parts⟩ := isConcat_spec good right (by omega)
    rw [known]
    cases o with
    | none => exact ruleGives_skip
    | some pair =>
      obtain ⟨d, f⟩ := pair
      obtain ⟨-, sizes, stands, x, y, total, sortedD, sortedF⟩ := parts d f rfl
      simp only [Option.bind_eq_bind, Option.bind_some]
      split
      · next c' high2 low2 shape2 =>
        rw [isExtract_eq_some] at shape2
        subst shape2
        by_cases adjacent : low = high2 + 1 ∧ c = c'
        · obtain ⟨next_to, rfl⟩ := adjacent
          rw [if_pos ⟨next_to, rfl⟩]
          obtain ⟨width2, ordered2, u2, inside2, -⟩ := hasSort_extract.1 sortedD
          have sizeD : size (.app (.extract high2 low2) [c]) = c.size + 1 :=
            size_single (by simp)
          have rank : c.extractRank ≤ k := by
            unfold extractRank
            omega
          obtain ⟨t, knownT, built⟩ :=
            good.extract 3 sortedC (show low2 ≤ high by omega) inside rank
          have sizeT := built.size_le
          have joined := concat_extracts sortedC ordered inside ordered2 next_to
          have sortedT := built.stands.sorted _ (sortedC.extract (show low2 ≤ high by omega) inside)
          have rankT : t.concatRank f ≤ k := by
            unfold concatRank
            omega
          apply ruleGives_fire
          rw [knownT, Option.bind_some]
          refine (good.concat sortedT sortedF rankT).via ?_ rfl (by omega)
          exact ((StandsFor.pair .concat (built.stands.trans joined.standsFor) (.refl f)).trans
            (concat_assoc left sortedD sortedF).standsFor).trans (.pair .concat (.refl _) stands)
        · rw [if_neg adjacent]
          exact ruleGives_skip
      · exact ruleGives_skip
  · exact ruleGives_skip

theorem concatConcatExtract_builds :
    RuleBuilds (concatConcatExtract r a b) (.app .concat [a, b]) (a.size + b.size + 1) := by
  unfold concatConcatExtract
  unfold concatRank at enough
  obtain ⟨o, known, parts⟩ := isConcat_spec good left (by omega)
  rw [known]
  cases o with
  | none => exact ruleGives_skip
  | some pair =>
    obtain ⟨d, f⟩ := pair
    obtain ⟨notConst, sizes, stands, x, y, total, sortedD, sortedF⟩ := parts d f rfl
    simp only [Option.bind_eq_bind, Option.bind_some]
    split
    · next c high low c' high2 low2 shape shape2 =>
      rw [isExtract_eq_some] at shape shape2
      subst shape shape2
      by_cases adjacent : low = high2 + 1 ∧ c = c'
      · obtain ⟨next_to, rfl⟩ := adjacent
        rw [if_pos ⟨next_to, rfl⟩]
        obtain ⟨width, ordered, u, inside, sortedC⟩ := hasSort_extract.1 sortedF
        obtain ⟨width2, ordered2, u2, inside2, -⟩ := hasSort_extract.1 right
        have sizeC : size (.app (.extract high low) [c]) = c.size + 1 := size_single (by simp)
        have sizeC2 : size (.app (.extract high2 low2) [c]) = c.size + 1 :=
          size_single (by simp)
        have rank : c.extractRank ≤ k := by
          unfold extractRank
          omega
        obtain ⟨t, knownT, built⟩ :=
          good.extract 3 sortedC (show low2 ≤ high by omega) inside rank
        have sizeT := built.size_le
        have joined := concat_extracts sortedC ordered inside ordered2 next_to
        have sortedT := built.stands.sorted _ (sortedC.extract (show low2 ≤ high by omega) inside)
        have rankT : d.concatRank t ≤ k := by
          unfold concatRank
          omega
        apply ruleGives_fire
        rw [knownT, Option.bind_some]
        refine (good.concat sortedD sortedT rankT).via ?_ (by simp [constArgs, notConst]) (by omega)
        exact ((StandsFor.pair .concat (.refl d) (built.stands.trans joined.standsFor)).trans
          (concat_assoc' sortedD sortedF right).standsFor).trans (.pair .concat stands (.refl _))
      · rw [if_neg adjacent]
        exact ruleGives_skip
    · exact ruleGives_skip

theorem concatConsts_builds :
    RuleBuilds (concatConsts r a b) (.app .concat [a, b]) (a.size + b.size + 1) := by
  unfold concatConsts
  by_cases const : a.isConst = true
  · rw [if_pos const]
    unfold concatRank at enough
    obtain ⟨o, known, parts⟩ := isConcat_spec good right (by omega)
    rw [known]
    cases o with
    | none => exact ruleGives_skip
    | some pair =>
      obtain ⟨d, f⟩ := pair
      obtain ⟨notConst, sizes, stands, x, y, total, sortedD, sortedF⟩ := parts d f rfl
      simp only [Option.bind_eq_bind, Option.bind_some]
      by_cases const2 : d.isConst = true
      · rw [if_pos const2]
        have oneA := size_of_isConst const
        have oneD := size_of_isConst const2
        have positive := f.size_pos
        have rank : a.concatRank d ≤ k := by
          unfold concatRank
          omega
        obtain ⟨t, knownT, built⟩ := good.concat left sortedD rank
        have oneT := size_of_isConst (built.const (by simp [constArgs, const, const2]))
        have sortedT := built.stands.sorted _ (left.concat sortedD)
        have rankT : t.concatRank f ≤ k := by
          unfold concatRank
          omega
        apply ruleGives_fire
        rw [knownT, Option.bind_some]
        refine (good.concat sortedT sortedF rankT).via ?_ (by simp [constArgs, notConst]) (by omega)
        exact ((StandsFor.pair .concat built.stands (.refl f)).trans
          (concat_assoc left sortedD sortedF).standsFor).trans (.pair .concat (.refl a) stands)
      · rw [if_neg const2]
        exact ruleGives_skip
  · rw [if_neg const]
    exact ruleGives_skip

theorem concatRound_builds :
    Builds (concatRound r z a b) (.app .concat [a, b]) (a.size + b.size + 1) := by
  have plain : (binopFold z .concat a b).Built (.app .concat [a, b]) (a.size + b.size + 1) :=
    built_plain z rfl (left.concat right) (size_pair (by simp)).le
  apply gives_first _ plain
  simp only [List.forall_mem_cons]
  refine ⟨concatExtracts_builds good left right enough,
    concatExtractConcat_builds good left right enough,
    concatConcatExtract_builds good left right enough,
    concatConsts_builds good left right enough,
    List.forall_mem_nil _⟩

end

theorem sextRound_builds
    {e : Expr} {w : Nat} (amount : Nat) (sorted : e.HasSort (.bv w)) (enough : e.sextRank ≤ k + 1) :
    Builds (sextRound r z e amount) (.app (.signExt amount) [e]) (e.size + 2) := by
  have whole := sorted.signExt amount
  have total : size (.app (.signExt amount) [e]) = e.size + 2 := by simp [size]
  unfold sextRound
  unfold sextRank at enough
  by_cases none_added : amount = 0
  · subst none_added
    rw [if_pos rfl]
    refine ⟨e, rfl, (signExt_zero sorted).standsFor, by omega, ?_⟩
    simp [constArgs]
  rw [if_neg none_added]
  split
  · next val shape =>
    obtain ⟨inner, rfl⟩ := isSignExt_eq_some.1 shape
    obtain ⟨v, width, sortedVal⟩ := hasSort_signExt.1 sorted
    cases width
    have sizeVal : size (.app (.signExt inner) [val]) = val.size + 2 := by simp [size]
    have rank : val.sextRank ≤ k := by
      unfold sextRank
      omega
    rw [sorted.bits_eq, sortedVal.bits_eq, Nat.add_sub_cancel_left]
    exact (good.sext _ sortedVal rank).via
      (signExt_signExt sortedVal inner amount).standsFor rfl (by omega)
  · obtain ⟨negative, known, decides⟩ := isNegative_spec good sorted (by omega)
    rw [known]
    simp only [Option.bind_eq_bind, Option.bind_some]
    by_cases unsigned : negative.isFalse = true
    · rw [if_pos unsigned]
      have positive : 0 < amount := Nat.pos_of_ne_zero none_added
      have zeros : (mkUInt 0 amount).HasSort (.bv amount) := hasSort_mkUInt positive
      have zeros_size : (mkUInt 0 amount).size = 1 := rfl
      have rank : (mkUInt 0 amount).concatRank e ≤ k := by
        unfold concatRank
        omega
      obtain ⟨t, knownT, built⟩ := good.concat zeros sorted rank
      rw [zextWith, if_neg none_added, knownT]
      refine ⟨t, rfl, built.stands.trans (zeros_signExt sorted positive ?_), ?_, ?_⟩
      · intro M safe
        exact Bool.eq_false_iff.2 (decides.of_isFalse unsigned (safe_single.2 safe))
      · have size_le := built.size_le
        omega
      · intro const
        apply built.const
        simpa [constArgs, mkUInt, isConst] using const
    · rw [if_neg unsigned]
      exact ⟨_, rfl, built_plain z rfl whole total.le⟩

end Expr

end AliveNext.Smt
