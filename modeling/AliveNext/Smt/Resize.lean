import AliveNext.Smt.Depth
import AliveNext.Smt.Reference

/-!
# Extraction, concatenation, extension, truncation and equality

The constructors as the source calls them. Each call is answered by rounds
nested as deep as the rank of its arguments, and deeper rounds give the same
answer, so the recursion terminates.
-/

namespace AliveNext.Smt

namespace Expr

variable (z : Z3)

def extract (e : Expr) (high low depth : Nat) : Expr :=
  ((calls z e.extractRank).extract e high low depth).getD (.app (.extract high low) [e])

def concat (a b : Expr) : Expr :=
  ((calls z (a.concatRank b)).concat a b).getD (.app .concat [a, b])

def sext (e : Expr) (amount : Nat) : Expr :=
  ((calls z e.sextRank).sext e amount).getD (.app (.signExt amount) [e])

/-- `operator==`, which is `cmp_eq` with simplification. -/
def cmpEq (a b : Expr) : Expr :=
  ((calls z (a.cmpEqRank b)).cmpEq a b).getD (.app .eq [a, b])

def zext (e : Expr) (amount : Nat) : Expr :=
  if amount = 0 then e else concat z (mkUInt 0 amount) e

def concatZeros (e : Expr) (bits : Nat) : Expr :=
  if bits = 0 then e else concat z e (mkUInt 0 bits)

def trunc (e : Expr) (tobw : Nat) : Expr := extract z e (tobw - 1) 0 3

def sextOrTrunc (e : Expr) (tobw : Nat) : Expr :=
  if e.bits < tobw then sext z e (tobw - e.bits) else trunc z e tobw

def zextOrTrunc (e : Expr) (tobw : Nat) : Expr :=
  if e.bits < tobw then zext z e (tobw - e.bits) else trunc z e tobw

def sign (e : Expr) : Expr := extract z e (e.bits - 1) (e.bits - 1) 3

def isNegative (e : Expr) : Expr := cmpEq z (sign z e) (mkUInt 1 (sign z e).bits)

section

variable {a b e : Expr} {s : Srt} {v w high low : Nat}

theorem extract_answer
    (depth : Nat) (sorted : e.HasSort (.bv w)) (ordered : low ≤ high) (inside : high < w) :
    (extract z e high low depth).Built (.app (.extract high low) [e]) (e.size + 1) ∧
      ∀ k, e.extractRank ≤ k →
        (calls z k).extract e high low depth = some (extract z e high low depth) := by
  obtain ⟨t, known, built⟩ := (calls_good z _).extract depth sorted ordered inside (le_refl _)
  rw [extract, known, Option.getD_some]
  exact ⟨built, fun k enough => (calls_upto z enough).extract e high low depth t known⟩

theorem concat_answer (left : a.HasSort (.bv v)) (right : b.HasSort (.bv w)) :
    (concat z a b).Built (.app .concat [a, b]) (a.size + b.size + 1) ∧
      ∀ k, a.concatRank b ≤ k → (calls z k).concat a b = some (concat z a b) := by
  obtain ⟨t, known, built⟩ := (calls_good z _).concat left right (le_refl _)
  rw [concat, known, Option.getD_some]
  exact ⟨built, fun k enough => (calls_upto z enough).concat a b t known⟩

theorem sext_answer (amount : Nat) (sorted : e.HasSort (.bv w)) :
    (sext z e amount).Built (.app (.signExt amount) [e]) (e.size + 2) ∧
      ∀ k, e.sextRank ≤ k → (calls z k).sext e amount = some (sext z e amount) := by
  obtain ⟨t, known, built⟩ := (calls_good z _).sext amount sorted (le_refl _)
  rw [sext, known, Option.getD_some]
  exact ⟨built, fun k enough => (calls_upto z enough).sext e amount t known⟩

theorem cmpEq_answer (left : a.HasSort s) (right : b.HasSort s) :
    (cmpEq z a b).StandsFor (.app .eq [a, b]) ∧
      ∀ k, a.cmpEqRank b ≤ k → (calls z k).cmpEq a b = some (cmpEq z a b) := by
  obtain ⟨t, known, stands⟩ := (calls_good z _).cmpEq left right (le_refl _)
  rw [cmpEq, known, Option.getD_some]
  exact ⟨stands, fun k enough => (calls_upto z enough).cmpEq a b t known⟩

end

section

variable {a b e : Expr} {s : Srt} {v w high low : Nat} {parts : List Expr} {f : Model → Nat}

theorem toNat_extract (sorted : e.HasSort (.bv w)) (M : Model) :
    toNat (.app (.extract high low) [e]) M = (e.toNat M / 2 ^ low) % 2 ^ (high - low + 1) := by
  apply Nat.eq_of_testBit_eq
  intro i
  rw [testBit_extract M sorted, Nat.testBit_mod_two_pow, Nat.testBit_div_two_pow,
    Nat.add_comm i low]

theorem toNat_concat_pair (left : a.HasSort (.bv v)) (right : b.HasSort (.bv w)) (M : Model) :
    toNat (.app .concat [a, b]) M = a.toNat M * 2 ^ w + b.toNat M := by
  apply Nat.eq_of_testBit_eq
  intro i
  rw [testBit_concat_pair M left right, Nat.mul_comm,
    Nat.testBit_two_pow_mul_add _ (right.toNat_lt M)]

theorem bv_signExt (sorted : e.HasSort (.bv w)) (amount : Nat) (M : Model) :
    bv (.app (.signExt amount) [e]) M (w + amount) = (e.bv M w).signExtend (w + amount) := by
  rw [bv, eval, evals, sorted.eval_bv M]
  exact BitVec.setWidth_eq _

theorem extract_computes
    (depth : Nat) (sorted : e.HasSort (.bv w)) (ordered : low ≤ high) (inside : high < w) :
    (extract z e high low depth).Computes (high - low + 1) [e]
      fun M => (e.toNat M / 2 ^ low) % 2 ^ (high - low + 1) := by
  have whole := sorted.extract ordered inside
  have stands := (extract_answer z depth sorted ordered inside).1.stands
  exact ((Computes.plain (by simp) whole).of_stands stands).congr fun M _ =>
    toNat_extract sorted M

theorem concat_computes (left : a.HasSort (.bv v)) (right : b.HasSort (.bv w)) :
    (concat z a b).Computes (v + w) [a, b] fun M => a.toNat M * 2 ^ w + b.toNat M := by
  have stands := (concat_answer z left right).1.stands
  exact ((Computes.plain (by simp) (left.concat right)).of_stands stands).congr fun M _ =>
    toNat_concat_pair left right M

theorem Computes.extract
    (computes : e.Computes w parts f) (depth : Nat) (ordered : low ≤ high) (inside : high < w) :
    (extract z e high low depth).Computes (high - low + 1) parts
      fun M => (f M / 2 ^ low) % 2 ^ (high - low + 1) := by
  apply (extract_computes z depth computes.sorted ordered inside).within
  · exact fun M safe => safe_single.2 (computes.safe M safe)
  · intro M safe
    rw [computes.value M safe]

theorem Computes.concat
    {g : Model → Nat} (first : a.Computes v parts f) (second : b.Computes w parts g) :
    (concat z a b).Computes (v + w) parts fun M => f M * 2 ^ w + g M := by
  apply (concat_computes z first.sorted second.sorted).within
  · exact fun M safe => safe_pair.2 ⟨first.safe M safe, second.safe M safe⟩
  · intro M safe
    rw [first.value M safe, second.value M safe]

theorem computes_mkUInt {n : Nat} (positive : 0 < w)
    (small : n < 2 ^ w) : (mkUInt n w).Computes w parts fun _ => n where
  sorted := hasSort_mkUInt positive
  safe _ _ := trivial
  value _ _ := by rw [toNat_mkUInt, Nat.mod_eq_of_lt small]

theorem sext_computes (sorted : e.HasSort (.bv w)) (amount : Nat) :
    (sext z e amount).Computes (w + amount) [e]
      fun M => ((e.bv M w).signExtend (w + amount)).toNat := by
  have whole := sorted.signExt amount
  have stands := (sext_answer z amount sorted).1.stands
  apply ((Computes.plain (by simp) whole).of_stands stands).congr
  intro M _
  rw [whole.toNat_eq M, bv_signExt sorted]

theorem Computes.zext (computes : e.Computes w parts f) (amount : Nat) :
    (zext z e amount).Computes (w + amount) parts f := by
  unfold Expr.zext
  by_cases none_added : amount = 0
  · subst none_added
    rw [if_pos rfl]
    exact computes
  · rw [if_neg none_added]
    have zeros : (mkUInt 0 amount).Computes amount parts fun _ => 0 :=
      computes_mkUInt (Nat.pos_of_ne_zero none_added) (Nat.two_pow_pos amount)
    have joined := zeros.concat z computes
    rw [Nat.add_comm] at joined
    apply joined.congr
    intro M _
    rw [Nat.zero_mul, Nat.zero_add]

theorem Computes.concatZeros (computes : e.Computes w parts f) (bits : Nat) :
    (concatZeros z e bits).Computes (w + bits) parts fun M => f M * 2 ^ bits := by
  unfold Expr.concatZeros
  by_cases none_added : bits = 0
  · subst none_added
    rw [if_pos rfl]
    exact computes.congr fun M _ => by rw [Nat.pow_zero, Nat.mul_one]
  · rw [if_neg none_added]
    have zeros : (mkUInt 0 bits).Computes bits parts fun _ => 0 :=
      computes_mkUInt (Nat.pos_of_ne_zero none_added) (Nat.two_pow_pos bits)
    exact computes.concat z zeros

section

variable (sorted : e.HasSort (.bv w))

include sorted

theorem zext_computes (amount : Nat) : (zext z e amount).Computes (w + amount) [e] (e.toNat ·) :=
  (Computes.refl sorted).zext z amount

theorem trunc_computes {tobw : Nat} (positive : 0 < tobw)
    (narrower : tobw ≤ w) : (trunc z e tobw).Computes tobw [e] fun M => e.toNat M % 2 ^ tobw := by
  have computes := extract_computes z 3 sorted (Nat.zero_le (tobw - 1)) (show tobw - 1 < w by omega)
  rw [show tobw - 1 - 0 + 1 = tobw by omega] at computes
  exact computes.congr fun M _ => by rw [Nat.pow_zero, Nat.div_one]

theorem sextOrTrunc_computes {tobw : Nat} (positive : 0 < tobw) :
    (sextOrTrunc z e tobw).Computes tobw [e] fun M => ((e.bv M w).signExtend tobw).toNat := by
  unfold sextOrTrunc
  rw [sorted.bits_eq]
  by_cases wider : w < tobw
  · rw [if_pos wider]
    have computes := sext_computes z sorted (tobw - w)
    rw [Nat.add_sub_cancel' wider.le] at computes
    exact computes
  · rw [if_neg wider]
    apply (trunc_computes z sorted positive (by omega)).congr
    intro M _
    rw [BitVec.signExtend_eq_setWidth_of_le _ (by omega), BitVec.toNat_setWidth, sorted.toNat_eq M]

theorem zextOrTrunc_computes {tobw : Nat} (positive : 0 < tobw) :
    (zextOrTrunc z e tobw).Computes tobw [e] fun M => e.toNat M % 2 ^ tobw := by
  unfold zextOrTrunc
  rw [sorted.bits_eq]
  by_cases wider : w < tobw
  · rw [if_pos wider]
    have computes := zext_computes z sorted (tobw - w)
    rw [Nat.add_sub_cancel' wider.le] at computes
    apply computes.congr
    intro M _
    have fits := (sorted.toNat_lt M).trans_le (Nat.pow_le_pow_right Nat.two_pos wider.le)
    rw [Nat.mod_eq_of_lt fits]
  · rw [if_neg wider]
    exact trunc_computes z sorted positive (by omega)

end

theorem cmpEq_decides (left : a.HasSort s) (right : b.HasSort s) :
    (cmpEq z a b).Decides [a, b] fun M => a.eval M = b.eval M :=
  (decides_eq left right).of_stands (cmpEq_answer z left right).1

theorem cmpEq_decides_bv (left : a.HasSort (.bv w)) (right : b.HasSort (.bv w)) :
    (cmpEq z a b).Decides [a, b] fun M => a.toNat M = b.toNat M :=
  (cmpEq_decides z left right).congr fun M _ => left.bv_congr right M

theorem sign_computes (sorted : e.HasSort (.bv w)) :
    (sign z e).Computes 1 [e] fun M => ((e.toNat M).testBit (w - 1)).toNat := by
  have positive := sorted.pos
  have computes := extract_computes z 3 sorted (le_refl (w - 1)) (show w - 1 < w by omega)
  rw [show w - 1 - (w - 1) + 1 = 1 by omega] at computes
  rw [sign, sorted.bits_eq]
  apply computes.congr
  intro M _
  rw [← toNat_extract_sign sorted M, toNat_extract sorted, Nat.sub_self]

theorem cmpEq_const_decides (computes : e.Computes w parts f) (n : Nat) :
    (cmpEq z e (mkUInt n w)).Decides parts fun M => f M = n % 2 ^ w := by
  have const : (mkUInt n w).HasSort (.bv w) := hasSort_mkUInt computes.sorted.pos
  have decides := cmpEq_decides_bv z computes.sorted const
  refine ⟨decides.sorted, fun M safe => ?_, fun M safe => ?_⟩
  · exact decides.safe M (safe_pair.2 ⟨computes.safe M safe, trivial⟩)
  · rw [decides.truth M (safe_pair.2 ⟨computes.safe M safe, trivial⟩), computes.value M safe,
      toNat_mkUInt]

theorem isNegative_decides (sorted : e.HasSort (.bv w)) :
    (isNegative z e).Decides [e] fun M => 2 ^ (w - 1) ≤ e.toNat M := by
  have computes := sign_computes z sorted
  rw [isNegative, computes.sorted.bits_eq]
  apply (cmpEq_const_decides z computes 1).congr
  intro M _
  rw [← testBit_last sorted.pos (sorted.toNat_lt M)]
  cases (e.toNat M).testBit (w - 1) <;> simp

end

/-- `==` decides equality in every model in which nothing is divided by zero,
and the rewrites come to an end. -/
theorem equality_construction {a b : Expr} {s : Srt} (left : a.HasSort s) (right : b.HasSort s) :
    (∀ k, a.cmpEqRank b ≤ k → (calls z k).cmpEq a b = some (cmpEq z a b)) ∧
      (cmpEq z a b).HasSort .bool ∧
      ∀ M, a.NonzeroDivisors M → b.NonzeroDivisors M →
        ((cmpEq z a b).truth M = true ↔ a.eval M = b.eval M) := by
  have decides := cmpEq_decides z left right
  refine ⟨(cmpEq_answer z left right).2, decides.sorted, fun M safe safe' => ?_⟩
  exact decides.truth M (safe_pair.2 ⟨safe, safe'⟩)

theorem equality_construction_concat :
    (cmpEq Z3.reference (.app .concat [.var "x" (.bv 4), .num 4 5]) (.num 8 0x35)).truth
        default = true ↔
      eval (.app .concat [.var "x" (.bv 4), .num 4 5]) default = eval (.num 8 0x35) default :=
  (@equality_construction Z3.reference _ _ (.bv 8) ⟨rfl, rfl⟩ ⟨rfl, rfl⟩).2.2 default
    (by simp [NonzeroDivisors, NonzeroDivisorsAll]) trivial

/-- The constructors that change widths, in every model in which nothing is
divided by zero, at every depth limit of `extract`. -/
theorem resize_construction {e : Expr} {w : Nat} (sorted : e.HasSort (.bv w)) :
    (∀ high low depth, low ≤ high → high < w →
      (∀ k, e.extractRank ≤ k →
        (calls z k).extract e high low depth = some (extract z e high low depth)) ∧
      (extract z e high low depth).Denotes (high - low + 1) [e]
        fun M => (e.bv M w).extractLsb high low) ∧
    (∀ f v, f.HasSort (.bv v) →
      (∀ k, e.concatRank f ≤ k → (calls z k).concat e f = some (concat z e f)) ∧
      (concat z e f).Denotes (w + v) [e, f] fun M => e.bv M w ++ f.bv M v) ∧
    (∀ amount,
      (∀ k, e.sextRank ≤ k → (calls z k).sext e amount = some (sext z e amount)) ∧
      (sext z e amount).Denotes (w + amount) [e]
        fun M => (e.bv M w).signExtend (w + amount)) ∧
    (∀ amount, (zext z e amount).Denotes (w + amount) [e]
        fun M => (e.bv M w).setWidth (w + amount)) ∧
    (∀ tobw, 0 < tobw → tobw ≤ w → (trunc z e tobw).Denotes tobw [e]
        fun M => (e.bv M w).setWidth tobw) ∧
    (∀ tobw, 0 < tobw → (sextOrTrunc z e tobw).Denotes tobw [e]
        fun M => (e.bv M w).signExtend tobw) ∧
    (∀ tobw, 0 < tobw → (zextOrTrunc z e tobw).Denotes tobw [e]
        fun M => (e.bv M w).setWidth tobw) := by
  refine ⟨?_, ?_, ?_, ?_, ?_, ?_, ?_⟩
  · intro high low depth ordered inside
    refine ⟨(extract_answer z depth sorted ordered inside).2, ?_⟩
    apply (extract_computes z depth sorted ordered inside).denotes
    intro M _
    rw [BitVec.extractLsb_toNat, sorted.toNat_eq M, Nat.shiftRight_eq_div_pow]
  · intro f v sorted'
    refine ⟨(concat_answer z sorted sorted').2, ?_⟩
    apply (concat_computes z sorted sorted').denotes
    intro M _
    rw [BitVec.toNat_append, sorted.toNat_eq M, sorted'.toNat_eq M, Nat.shiftLeft_eq,
      Nat.mul_comm, Nat.two_pow_add_eq_or_of_lt (f.bv M v).isLt, Nat.mul_comm]
  · intro amount
    refine ⟨(sext_answer z amount sorted).2, ?_⟩
    exact (sext_computes z sorted amount).denotes fun M _ => rfl
  · intro amount
    apply (zext_computes z sorted amount).denotes
    intro M _
    rw [BitVec.toNat_setWidth, ← sorted.toNat_eq M, Nat.mod_eq_of_lt]
    exact (sorted.toNat_lt M).trans_le (Nat.pow_le_pow_right Nat.two_pos (Nat.le_add_right w _))
  · intro tobw positive narrower
    apply (trunc_computes z sorted positive narrower).denotes
    intro M _
    rw [BitVec.toNat_setWidth, ← sorted.toNat_eq M]
  · intro tobw positive
    exact (sextOrTrunc_computes z sorted positive).denotes fun M _ => rfl
  · intro tobw positive
    apply (zextOrTrunc_computes z sorted positive).denotes
    intro M _
    rw [BitVec.toNat_setWidth, ← sorted.toNat_eq M]

theorem resize_construction_byte :
    (extract Z3.reference (.app (.signExt 8) [.var "x" (.bv 8)]) 11 4 3).Denotes 8
      [.app (.signExt 8) [.var "x" (.bv 8)]]
      fun M => (bv (.app (.signExt 8) [.var "x" (.bv 8)]) M 16).extractLsb 11 4 :=
  ((@resize_construction Z3.reference _ 16 ⟨rfl, rfl⟩).1 11 4 3 (by decide) (by decide)).2

def oneBitRemainder : Expr := .app (.bv .urem) [.var "a" (.bv 1), .var "b" (.bv 1)]

def divisionByZero : Model :=
  { (default : Model) with var := fun name s =>
      match s with
      | .bv w => if name = "a" then BitVec.allOnes w else BitVec.zero w
      | s => s.default }

/-- A divisor that is zero makes `sext` take a remainder for non-negative. -/
theorem sext_of_division_by_zero :
    ¬∀ (e : Expr) (w amount : Nat) (M : Model), e.HasSort (.bv w) →
      (sext Z3.reference e amount).bv M (w + amount) =
        (e.bv M w).signExtend (w + amount) := by
  intro claim
  have known : sext Z3.reference oneBitRemainder 1 =
      .app .concat [mkUInt 0 1, oneBitRemainder] := rfl
  have values := claim oneBitRemainder 1 1 divisionByZero ⟨rfl, rfl⟩
  rw [known] at values
  exact absurd values (by decide)

end Expr

end AliveNext.Smt
