import AliveNext.Smt.Construct
import AliveNext.Smt.Slices
import AliveNext.Smt.Decides

/-!
# `extract`, `concat` and `sext` keep their meaning

A call of rank at most `k` is answered by rounds nested `k` deep, with a term
that stands for the plain application and is not larger (`Good`). Here is what
one round needs of the calls it makes, for `extract`, `concat` and `sext`.
-/

namespace AliveNext.Smt

namespace Expr

def constArgs : Expr → Bool
  | .app _ args => args.all isConst
  | _ => false

/-- A term built for the plain application `e`. -/
structure Built (t e : Expr) (bound : Nat) : Prop where
  stands : t.StandsFor e
  size_le : t.size ≤ bound
  const : e.constArgs = true → t.isConst = true

def Gives (o : Option Expr) (P : Expr → Prop) : Prop :=
  ∃ t, o = some t ∧ P t

def RuleGives (rule : Rule) (P : Expr → Prop) : Prop :=
  ∃ o, rule = some o ∧ ∀ t, o = some t → P t

def Builds (o : Option Expr) (e : Expr) (bound : Nat) : Prop :=
  Gives o fun t => t.Built e bound

def RuleBuilds (rule : Rule) (e : Expr) (bound : Nat) : Prop :=
  RuleGives rule fun t => t.Built e bound

section

variable {t u e plain : Expr} {bound bound' : Nat} {o : Option Expr} {rules : List Rule}
  {P : Expr → Prop}

theorem Built.via (built : t.Built u bound) (stands : u.StandsFor e)
    (notConst : e.constArgs = false) (le : bound ≤ bound') : t.Built e bound' where
  stands := built.stands.trans stands
  size_le := built.size_le.trans le
  const known := by
    rw [notConst] at known
    cases known

theorem Builds.via (builds : Builds o u bound) (stands : u.StandsFor e)
    (notConst : e.constArgs = false) (le : bound ≤ bound') : Builds o e bound' := by
  obtain ⟨t, known, built⟩ := builds
  exact ⟨t, known, built.via stands notConst le⟩

theorem ruleGives_fire (gives : Gives o P) : RuleGives (.fire o) P := by
  obtain ⟨t, rfl, holds⟩ := gives
  exact ⟨some t, rfl, fun u known => Option.some.inj known ▸ holds⟩

theorem ruleGives_skip : RuleGives .skip P :=
  ⟨none, rfl, fun t known => by cases known⟩

theorem gives_first (each : ∀ rule ∈ rules, RuleGives rule P) (rest : P plain) :
    Gives (Rule.first rules plain) P := by
  induction rules with
  | nil => exact ⟨plain, rfl, rest⟩
  | cons rule rules ih =>
    rw [List.forall_mem_cons] at each
    obtain ⟨o, rfl, fires⟩ := each.1
    cases o with
    | some t => exact ⟨t, rfl, fires t rfl⟩
    | none => exact ih each.2

theorem built_plain (z : Z3) {op : Op} {args : List Expr} {s : Srt} (folds : op.folds = true)
    (sorted : HasSort (.app op args) s) (le : size (.app op args) ≤ bound) :
    (simplifyConst z (.app op args) args).Built (.app op args) bound where
  stands := (simplifyConst_same z folds sorted).standsFor
  size_le := (size_simplifyConst z folds sorted).trans le
  const known := isConst_simplify z folds sorted (List.all_eq_true.1 known)

end

/-! ## Ranks -/

def extractRank (e : Expr) : Nat := 4 * e.size + 8

def concatRank (a b : Expr) : Nat := 4 * (a.size + b.size) + 4

def sextRank (e : Expr) : Nat := 4 * e.size + 11

/-- `cmp_eq` calls itself with the operands swapped. -/
def swaps (a b : Expr) : Bool :=
  a.isConst && !b.isConst || b.isIf.isSome && a.isIf.isNone

def cmpEqRank (a b : Expr) : Nat := 4 * (a.size + b.size) + (swaps a b).toNat

theorem cmpEqRank_le (a b : Expr) : cmpEqRank a b ≤ 4 * (a.size + b.size) + 1 :=
  Nat.add_le_add_left (Bool.toNat_le _) _

end Expr

/-- Calls of rank at most `k` are answered, and rightly. -/
structure Calls.Good (r : Calls) (k : Nat) : Prop where
  extract : ∀ {e : Expr} {w high low : Nat} depth, e.HasSort (.bv w) → low ≤ high →
    high < w → e.extractRank ≤ k →
    Expr.Builds (r.extract e high low depth) (.app (.extract high low) [e]) (e.size + 1)
  concat : ∀ {a b : Expr} {v w : Nat}, a.HasSort (.bv v) → b.HasSort (.bv w) → a.concatRank b ≤ k →
    Expr.Builds (r.concat a b) (.app .concat [a, b]) (a.size + b.size + 1)
  sext : ∀ {e : Expr} {w : Nat} amount, e.HasSort (.bv w) → e.sextRank ≤ k →
    Expr.Builds (r.sext e amount) (.app (.signExt amount) [e]) (e.size + 2)
  cmpEq : ∀ {a b : Expr} {s : Srt}, a.HasSort s → b.HasSort s → a.cmpEqRank b ≤ k →
    Expr.Gives (r.cmpEq a b) fun t => t.StandsFor (.app .eq [a, b])

namespace Expr

variable {r : Calls} {k : Nat} (z : Z3) (good : r.Good k)

include good

section

variable {s : Srt} {e : Expr} {w : Nat}

/-- The second half that `isConcat` puts together. -/
theorem foldlM_concat
    {a b : Expr} {rest : List Expr} (sorted : HasSort (.app .concat (a :: b :: rest)) s)
    (enough : 4 * (b.size + (rest.map size).sum + rest.length) ≤ k) :
    ∃ t, rest.foldlM r.concat b = some t ∧
      StandsFor (.app .concat [a, t]) (.app .concat (a :: b :: rest)) ∧
      t.size ≤ b.size + (rest.map size).sum + rest.length := by
  induction rest generalizing b with
  | nil => exact ⟨b, rfl, .refl _, by simp⟩
  | cons c rest ih =>
    obtain ⟨-, -, parts⟩ := hasSort_concat.1 sorted
    rw [List.map_cons, List.sum_cons, List.length_cons] at enough
    have first : concatRank b c ≤ k := by
      unfold concatRank
      omega
    obtain ⟨joined, known, built⟩ :=
      good.concat (parts b (by simp)) (parts c (by simp)) first
    have nested := concat_nested sorted
    have replaced : StandsFor (.app .concat (a :: joined :: rest))
        (.app .concat (a :: .app .concat [b, c] :: rest)) := by
      refine .app _ (.cons (.refl a) (.cons built.stands ?_))
      exact List.forall₂_same.2 fun e _ => .refl e
    have stands := replaced.trans nested.standsFor
    have smaller := built.size_le
    obtain ⟨t, rest_known, rest_stands, rest_size⟩ :=
      ih (stands.sorted _ sorted) (by omega)
    refine ⟨t, ?_, rest_stands.trans stands, ?_⟩
    · rw [List.foldlM_cons, known]
      exact rest_known
    · rw [List.map_cons, List.sum_cons, List.length_cons]
      omega

theorem isConcat_spec (sorted : e.HasSort s) (enough : 4 * e.size ≤ k) :
    ∃ o, isConcat r e = some o ∧ ∀ a b, o = some (a, b) →
      e.isConst = false ∧ a.size + b.size + 1 ≤ e.size ∧
      StandsFor (.app .concat [a, b]) e ∧
      ∃ v w, s = .bv (v + w) ∧ a.HasSort (.bv v) ∧ b.HasSort (.bv w) := by
  unfold isConcat
  split
  · next a b rest =>
    have total : size (.app .concat (a :: b :: rest)) =
        a.size + (b.size + (rest.map size).sum + rest.length) + 1 := by
      rw [size_app _ (by simp)]
      simp only [List.map_cons, List.sum_cons, List.length_cons]
      omega
    obtain ⟨t, known, stands, size_le⟩ := foldlM_concat good sorted (by omega)
    refine ⟨some (a, t), by rw [known]; rfl, ?_⟩
    intro a' b' same
    cases same
    refine ⟨rfl, by omega, stands, ?_⟩
    exact hasSort_concat_pair.1 (stands.sorted _ sorted)
  · exact ⟨none, rfl, fun a b known => by cases known⟩

omit good in
theorem toNat_extract_sign (sorted : e.HasSort (.bv w)) (M : Model) :
    toNat (.app (.extract (w - 1) (w - 1)) [e]) M = ((e.toNat M).testBit (w - 1)).toNat := by
  apply Nat.eq_of_testBit_eq
  intro i
  rw [testBit_extract M sorted]
  by_cases zero : i = 0
  · subst zero
    cases (e.toNat M).testBit (w - 1) <;> simp
  · have small : ((e.toNat M).testBit (w - 1)).toNat < 2 ^ i :=
      (Bool.toNat_lt _).trans_le (Nat.le_self_pow zero 2)
    rw [decide_eq_false (show ¬i < w - 1 - (w - 1) + 1 by omega), Bool.false_and,
      Nat.testBit_lt_two_pow small]

theorem sign_spec (sorted : e.HasSort (.bv w)) (enough : extractRank e ≤ k) :
    Gives (signWith r e) fun t => t.size ≤ e.size + 1 ∧
      t.Computes 1 [e] fun M => ((e.toNat M).testBit (w - 1)).toNat := by
  have positive := sorted.pos
  obtain ⟨t, known, built⟩ :=
    good.extract 3 sorted (le_refl (w - 1)) (show w - 1 < w by omega) enough
  have whole := sorted.extract (le_refl (w - 1)) (show w - 1 < w by omega)
  rw [Nat.sub_self, Nat.zero_add] at whole
  refine ⟨t, by rw [signWith, sorted.bits_eq, known], built.size_le, ?_⟩
  apply ((Computes.plain (by simp) whole).of_stands built.stands).congr
  intro M _
  exact toNat_extract_sign sorted M

theorem isNegative_spec (sorted : e.HasSort (.bv w)) (enough : 4 * e.size + 9 ≤ k) :
    Gives (isNegativeWith r e) fun t =>
      t.Decides [e] fun M => (e.toNat M).testBit (w - 1) = true := by
  obtain ⟨bit, known, size_le, computes⟩ :=
    sign_spec good sorted (by unfold extractRank; omega)
  have one : (mkUInt 1 1).HasSort (.bv 1) := hasSort_mkUInt Nat.one_pos
  have rank : cmpEqRank bit (mkUInt 1 1) ≤ k := by
    have noIf : (mkUInt 1 1).isIf = none := rfl
    have const : (mkUInt 1 1).isConst = true := rfl
    have one_size : (mkUInt 1 1).size = 1 := rfl
    simp only [cmpEqRank, swaps, noIf, const, one_size, Bool.not_true, Bool.and_false,
      Option.isSome_none, Bool.false_and, Bool.or_self, Bool.toNat_false]
    omega
  obtain ⟨t, compared, stands⟩ := good.cmpEq computes.sorted one rank
  refine ⟨t, ?_, ?_⟩
  · rw [isNegativeWith, known]
    simp only [Option.bind_eq_bind, Option.bind_some, computes.sorted.bits_eq, compared]
  · have plain : Decides (.app .eq [bit, mkUInt 1 1]) [e]
        fun M => (e.toNat M).testBit (w - 1) = true := by
      refine ⟨hasSort_eq_of computes.sorted one, fun M safe => ?_, fun M safe => ?_⟩
      · simp [computes.safe M safe, mkUInt]
      · rw [truth_eq_bv M computes.sorted one, computes.value M safe, toNat_mkUInt]
        cases (e.toNat M).testBit (w - 1) <;> simp
    exact plain.of_stands stands

end

section

variable {e : Expr} {w high low : Nat} (sorted : e.HasSort (.bv w)) (ordered : low ≤ high)
  (inside : high < w)
  (enough : e.extractRank ≤ k + 1)

include sorted ordered inside enough

theorem extractOfExtract_builds :
    RuleBuilds (extractOfExtract r e high low) (.app (.extract high low) [e]) (e.size + 1) := by
  unfold extractOfExtract isExtract
  split
  · next sub high2 low2 shape =>
    split at shape
    · next high' low' sub' =>
      cases shape
      obtain ⟨width, ordered2, v, inside2, sortedSub⟩ := hasSort_extract.1 sorted
      cases width
      have smaller : size (.app (.extract high2 low2) [sub]) = sub.size + 1 :=
        size_single (by simp)
      have rank : sub.extractRank ≤ k := by
        unfold extractRank at enough ⊢
        omega
      apply ruleGives_fire
      refine (good.extract 3 sortedSub (by omega) (by omega) rank).via
        (extract_extract sortedSub ordered2 inside2 ordered inside).standsFor rfl (by omega)
    · cases shape
  · exact ruleGives_skip

theorem extractOfSignExt_builds :
    RuleBuilds (extractOfSignExt r e high low) (.app (.extract high low) [e]) (e.size + 1) := by
  unfold extractOfSignExt isSignExt
  split
  · next val shape =>
    split at shape
    · next amount val' =>
      cases shape
      obtain ⟨v, width, sortedVal⟩ := hasSort_signExt.1 sorted
      cases width
      have smaller : size (.app (.signExt amount) [val]) = val.size + 2 := by simp [size]
      split
      · next zero =>
        subst zero
        rw [sortedVal.bits_eq]
        split
        · next narrow =>
          have rank : val.extractRank ≤ k := by
            unfold extractRank at enough ⊢
            omega
          apply ruleGives_fire
          exact (good.extract 3 sortedVal ordered narrow rank).via
            (extract_signExt_low sortedVal narrow).standsFor rfl (by omega)
        · next wide =>
          have rank : val.sextRank ≤ k := by
            unfold extractRank at enough
            unfold sextRank
            omega
          apply ruleGives_fire
          exact (good.sext _ sortedVal rank).via
            (extract_signExt_wide sortedVal (by omega) inside).standsFor rfl (by omega)
      · exact ruleGives_skip
    · cases shape
  · exact ruleGives_skip

omit inside in
theorem extractOfAShr_builds :
    RuleBuilds (extractOfAShr r e high low) (.app (.extract high low) [e]) (e.size + 1) := by
  unfold extractOfAShr
  split
  · next a b shape =>
    rw [isAShr, isBinOp_eq_some] at shape
    subst shape
    obtain ⟨left, right⟩ := hasSort_bv.1 sorted
    split
    · next shift known =>
      obtain ⟨rfl, small, -⟩ := isUInt_sorted right known
      rw [left.bits_eq]
      split
      · next fits =>
        have smaller : size (.app (.bv .ashr) [a, mkUInt shift w]) = a.size + 1 + 1 :=
          size_pair (by simp)
        have rank : a.extractRank ≤ k := by
          unfold extractRank at enough ⊢
          omega
        apply ruleGives_fire
        exact (good.extract 3 left (by omega) fits.2 rank).via
          (extract_ashr left small ordered fits.2).standsFor rfl (by omega)
      · exact ruleGives_skip
    · exact ruleGives_skip
  · exact ruleGives_skip

theorem extractOfConcat_builds :
    RuleBuilds (extractOfConcat r e high low) (.app (.extract high low) [e]) (e.size + 1) := by
  have rankE := enough
  unfold extractRank at rankE
  obtain ⟨o, known, parts⟩ := isConcat_spec good sorted (by omega)
  unfold extractOfConcat
  rw [known]
  cases o with
  | none => exact ruleGives_skip
  | some pair =>
    obtain ⟨a, b⟩ := pair
    obtain ⟨notConst, sizes, stands, u, v, width, left, right⟩ := parts a b rfl
    cases width
    have positive := And.intro a.size_pos b.size_pos
    have plain := StandsFor.single (.extract high low) stands
    have noConst : constArgs (.app (.extract high low) [e]) = false := by
      simp [constArgs, notConst]
    simp only [Option.bind_eq_bind, Option.bind_some, right.bits_eq]
    split
    · next low_half =>
      have rank : b.extractRank ≤ k := by
        unfold extractRank
        omega
      apply ruleGives_fire
      exact (good.extract 3 right ordered low_half rank).via
        ((extract_concat_low left right ordered low_half).standsFor.trans plain) noConst (by omega)
    split
    · next high_half =>
      have rank : a.extractRank ≤ k := by
        unfold extractRank
        omega
      apply ruleGives_fire
      exact (good.extract 3 left (by omega) (by omega) rank).via
        ((extract_concat_high left right ordered high_half inside).standsFor.trans plain)
        noConst (by omega)
    next not_low not_high =>
    have rankA : a.extractRank ≤ k := by
      unfold extractRank
      omega
    have rankB : b.extractRank ≤ k := by
      unfold extractRank
      omega
    have across := (extract_concat_across left right (show low < v by omega)
      (show v ≤ high by omega) inside).standsFor.trans plain
    obtain ⟨a', knownA, builtA⟩ :=
      good.extract 3 left (Nat.zero_le (high - v)) (show high - v < u by omega) rankA
    have sizeA := builtA.size_le
    have sortedA := builtA.stands.sorted _
      (left.extract (Nat.zero_le (high - v)) (show high - v < u by omega))
    split
    · next zero =>
      subst zero
      have rank : a'.concatRank b ≤ k := by
        unfold concatRank
        omega
      apply ruleGives_fire
      rw [knownA]
      refine (good.concat sortedA right rank).via ?_ noConst (by omega)
      exact (StandsFor.pair .concat builtA.stands (extract_full right).standsFor).trans across
    split
    · next const =>
      have low_bounds : low ≤ v - 1 ∧ v - 1 < v := by omega
      obtain ⟨b', knownB, builtB⟩ := good.extract 3 right low_bounds.1 low_bounds.2 rankB
      have sizeB := builtB.size_le
      have sortedB := builtB.stands.sorted _ (right.extract low_bounds.1 low_bounds.2)
      have sizes' : a'.size + b'.size ≤ a.size + b.size + 1 := by
        rcases const with constA | constB
        · have folded := builtA.const (by simpa [constArgs] using constA)
          have one := size_of_isConst folded
          omega
        · have folded := builtB.const (by simpa [constArgs] using constB)
          have one := size_of_isConst folded
          omega
      have rank : a'.concatRank b' ≤ k := by
        unfold concatRank
        omega
      apply ruleGives_fire
      rw [knownA, Option.bind_some, knownB]
      refine (good.concat sortedA sortedB rank).via ?_ noConst (by omega)
      exact (StandsFor.pair .concat builtA.stands builtB.stands).trans across
    · exact ruleGives_skip

theorem extractOfIf_builds (depth : Nat) :
    RuleBuilds (extractOfIf r z e high low depth) (.app (.extract high low) [e]) (e.size + 1) := by
  unfold extractOfIf
  split
  · next c t f shape =>
    rw [isIf_eq_some] at shape
    subst shape
    obtain ⟨cond, left, right⟩ := hasSort_ite.1 sorted
    have sizes : size (.app .ite [c, t, f]) = c.size + t.size + f.size + 2 :=
      size_triple (by simp)
    have positive := And.intro t.size_pos f.size_pos
    have rank : t.extractRank ≤ k ∧ f.extractRank ≤ k := by
      unfold extractRank at enough ⊢
      omega
    obtain ⟨t', knownT, builtT⟩ := good.extract depth left ordered inside rank.1
    obtain ⟨f', knownF, builtF⟩ := good.extract depth right ordered inside rank.2
    have pushed := (StandsFor.triple .ite (.refl c) builtT.stands builtF.stands).trans
      (extract_ite cond left right ordered inside).standsFor
    rw [knownT, knownF]
    simp only [Option.bind_eq_bind, Option.bind_some]
    split
    · next equal =>
      subst equal
      apply ruleGives_fire
      have sortedT := builtT.stands.sorted _ (left.extract ordered inside)
      have same : t'.Same (.app .ite [c, t', t']) := by
        apply Same.of_eval sortedT (hasSort_ite.2 ⟨cond, sortedT, sortedT⟩)
        · intro M
          simp
        · intro M
          rw [eval_ite, ite_self]
      have size_le := builtT.size_le
      exact ⟨t', rfl, ⟨same.standsFor.trans pushed, by omega, fun const => by cases const⟩⟩
    split
    · next const =>
      apply ruleGives_fire
      have sortedT := builtT.stands.sorted _ (left.extract ordered inside)
      have sortedF := builtF.stands.sorted _ (right.extract ordered inside)
      have spec := mkIf_spec z (hasSort_ite.2 ⟨cond, sortedT, sortedF⟩)
      have size_le := spec.size_le
      have oneT := size_of_isConst const.1
      have oneF := size_of_isConst const.2
      exact ⟨_, rfl, ⟨spec.same.standsFor.trans pushed, by omega, fun const => by cases const⟩⟩
    · exact ruleGives_skip
  · exact ruleGives_skip

end

section

variable {op : BvOp} {absorbs : Expr → Bool} {all : List Expr} {w high low : Nat} (depth : Nat)
  (bitwise : Bitwise op absorbs)
  (sorted : HasSort (.app (.bv op) all) (.bv w))
  (ordered : low ≤ high)
  (inside : high < w)
  (enough : extractRank (.app (.bv op) all) ≤ k + 1)

include sorted ordered inside

omit good in
theorem bitwise_built {t arg : Expr} (member : arg ∈ all)
    (built : t.Built (.app (.extract high low) [arg]) (arg.size + 1))
    (value : ∀ M, NonzeroDivisors (.app (.bv op) all) M →
      t.toNat M = toNat (.app (.extract high low) [.app (.bv op) all]) M) :
    t.Built (.app (.extract high low) [.app (.bv op) all]) (size (.app (.bv op) all) + 1) := by
  have sortedArg := hasSort_arg sorted member
  have sortedT := built.stands.sorted _ (sortedArg.extract ordered inside)
  have whole := sorted.extract ordered inside
  refine ⟨⟨?_, ?_, ?_⟩, ?_, fun const => by simp [constArgs, isConst] at const⟩
  · intro s other
    cases whole.unique other
    exact sortedT
  · intro M safe
    apply built.stands.safe
    simpa using (safe.arg List.mem_cons_self).arg member
  · intro M safe
    rw [sortedT.bv_congr whole]
    exact value M (safe.arg List.mem_cons_self)
  · have le : arg.size ≤ (all.map size).sum := List.le_sum_of_mem (List.mem_map_of_mem member)
    have size_le := built.size_le
    rw [size_app _ (by simp)]
    omega

omit good in
include bitwise in
theorem bitwise_absorbed {t arg : Expr} (member : arg ∈ all)
    (built : t.Built (.app (.extract high low) [arg]) (arg.size + 1))
    (absorbing : absorbs t = true) :
    t.Built (.app (.extract high low) [.app (.bv op) all]) (size (.app (.bv op) all) + 1) := by
  apply bitwise_built sorted ordered inside member built
  intro M safe
  apply bitwise.absorb sorted ordered inside M _ absorbing
  · refine ⟨arg, member, built.stands.toNat_eq ?_⟩
    simpa using safe.arg member
  · exact built.stands.sorted _ ((hasSort_arg sorted member).extract ordered inside)

omit good sorted ordered inside in
include enough in
theorem arg_extractRank {arg : Expr} (member : arg ∈ all) : arg.extractRank ≤ k := by
  have le : arg.size ≤ (all.map size).sum := List.le_sum_of_mem (List.mem_map_of_mem member)
  unfold extractRank at enough ⊢
  rw [size_app _ (by simp)] at enough
  omega

include bitwise enough

theorem simplBitwise_builds
    {args done : List Expr} {extracted : Option Expr} (split : all = done ++ args)
    (some_done : done ≠ []) (common : ∀ t, extracted = some t → ∀ e ∈ done,
      t.Built (.app (.extract high low) [e]) (e.size + 1)) :
    RuleBuilds (simplBitwise r absorbs high low depth extracted args)
      (.app (.extract high low) [.app (.bv op) all]) (size (.app (.bv op) all) + 1) := by
  induction args generalizing done extracted with
  | nil =>
    rw [List.append_nil] at split
    subst split
    refine ⟨extracted, rfl, fun t known => ?_⟩
    obtain ⟨arg, member⟩ := List.exists_mem_of_ne_nil _ some_done
    have each := common t known
    apply bitwise_built sorted ordered inside member (each arg member)
    intro M safe
    apply bitwise.equal sorted ordered inside M
    · exact (each arg member).stands.sorted _ ((hasSort_arg sorted member).extract ordered inside)
    · intro e inDone
      apply (each e inDone).stands.toNat_eq
      simpa using safe.arg inDone
  | cons arg rest ih =>
    have member : arg ∈ all := by simp [split]
    have sortedArg := hasSort_arg sorted member
    have rank : arg.extractRank ≤ k := arg_extractRank enough member
    obtain ⟨t, known, built⟩ := good.extract depth sortedArg ordered inside rank
    have next_split : all = (done ++ [arg]) ++ rest := by simp [split]
    have next_done : done ++ [arg] ≠ [] := by simp
    unfold simplBitwise
    rw [known]
    simp only [Option.bind_eq_bind, Option.bind_some]
    by_cases absorbing : absorbs t = true
    · rw [if_pos absorbing]
      apply ruleGives_fire
      exact ⟨t, rfl, bitwise_absorbed bitwise sorted ordered inside member built absorbing⟩
    · rw [if_neg absorbing]
      by_cases same : extracted = some t
      · rw [if_pos same]
        apply ih next_split next_done
        intro u equal e inDone
        rcases List.mem_append.1 inDone with old | new
        · exact common u equal e old
        · rw [List.mem_singleton.1 new, ← Option.some.inj (same.symm.trans equal)]
          exact built
      · rw [if_neg same]
        apply ih next_split next_done
        intro u equal
        cases equal

end

variable {e : Expr} {w high low : Nat}

theorem extractOfBitwise_builds {op : BvOp} {absorbs : Expr → Bool}
    (depth : Nat) (bitwise : Bitwise op absorbs) (sorted : e.HasSort (.bv w))
    (ordered : low ≤ high) (inside : high < w) (enough : e.extractRank ≤ k + 1) :
    RuleBuilds (extractOfBitwise r op absorbs e high low depth) (.app (.extract high low) [e])
      (e.size + 1) := by
  unfold extractOfBitwise
  split
  · next op' arg rest =>
    by_cases same : op' = op
    · subst same
      rw [if_pos rfl]
      have member : arg ∈ arg :: rest := List.mem_cons_self
      have sortedArg := hasSort_arg sorted member
      have rank : arg.extractRank ≤ k := arg_extractRank enough member
      obtain ⟨t, known, built⟩ := good.extract depth sortedArg ordered inside rank
      rw [known]
      simp only [Option.bind_eq_bind, Option.bind_some]
      by_cases absorbing : absorbs t = true
      · rw [if_pos absorbing]
        apply ruleGives_fire
        exact ⟨t, rfl, bitwise_absorbed bitwise sorted ordered inside member built absorbing⟩
      · rw [if_neg absorbing]
        apply simplBitwise_builds good depth bitwise sorted ordered inside enough
          (show arg :: rest = [arg] ++ rest from rfl)
        · exact List.cons_ne_nil arg []
        · intro u equal e inDone
          rw [List.mem_singleton.1 inDone, ← Option.some.inj equal]
          exact built
    · rw [if_neg same]
      exact ruleGives_skip
  · exact ruleGives_skip

theorem extractRound_builds (depth : Nat) (sorted : e.HasSort (.bv w)) (ordered : low ≤ high)
    (inside : high < w) (enough : e.extractRank ≤ k + 1) :
    Builds (extractRound r z e high low depth) (.app (.extract high low) [e]) (e.size + 1) := by
  have plain : (simplifyConst z (.app (.extract high low) [e]) [e]).Built
      (.app (.extract high low) [e]) (e.size + 1) :=
    built_plain z rfl (sorted.extract ordered inside) (size_single (by simp)).le
  unfold extractRound
  by_cases full : low = 0 ∧ high = e.bits - 1
  · rw [if_pos full]
    obtain ⟨rfl, rfl⟩ := full
    rw [sorted.bits_eq]
    refine ⟨e, rfl, (extract_full sorted).standsFor, Nat.le_succ _, ?_⟩
    simp [constArgs]
  · rw [if_neg full]
    cases depth with
    | zero => exact ⟨_, rfl, plain⟩
    | succ depth =>
      apply gives_first _ plain
      simp only [List.forall_mem_cons]
      refine ⟨extractOfExtract_builds good sorted ordered inside enough,
        extractOfSignExt_builds good sorted ordered inside enough,
        extractOfAShr_builds good sorted ordered enough,
        extractOfConcat_builds good sorted ordered inside enough,
        extractOfIf_builds z good sorted ordered inside enough depth,
        extractOfBitwise_builds good depth bitwise_and sorted ordered inside enough,
        extractOfBitwise_builds good depth bitwise_or sorted ordered inside enough,
        List.forall_mem_nil _⟩

end Expr

end AliveNext.Smt
