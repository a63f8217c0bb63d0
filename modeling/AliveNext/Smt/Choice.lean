import AliveNext.Smt.Disjoint
import AliveNext.Smt.Arrays
import AliveNext.Smt.Division

/-!
# Nondeterministic choice

`ChoiceExpr` of `smt/exprs.h`: the values whose domain is true are the choices.
They are encoded with a fresh variable that numbers the entries from the last to
the first, one number being left over for the case that no domain is true.
-/

namespace AliveNext.Smt

/-! ## Logarithms of `util/compiler.cpp` -/

def ilog2 (n : Nat) : Nat := if n = 0 then 0 else bitWidth n - 1

/-- With `upPower2` the powers of two get one more. -/
def ilog2Ceil (n : Nat) (upPower2 : Bool) : Nat :=
  if !upPower2 && isPower2Nat n then ilog2 n else ilog2 n + 1

theorem le_two_pow_ilog2Ceil (n : Nat) (upPower2 : Bool) : n ≤ 2 ^ ilog2Ceil n upPower2 := by
  unfold ilog2Ceil
  split
  · next power =>
    rw [Bool.and_eq_true] at power
    obtain ⟨log, rfl⟩ := isPower2Nat_iff.1 power.2
    rw [ilog2, if_neg (Nat.two_pow_pos log).ne', bitWidth, if_neg (Nat.two_pow_pos log).ne',
      Nat.log2_two_pow, Nat.add_sub_cancel]
  · have bound := lt_two_pow_bitWidth n
    refine bound.le.trans (Nat.pow_le_pow_right (by decide) ?_)
    unfold ilog2
    split
    · next zero =>
      subst zero
      exact Nat.zero_le 1
    · omega

theorem ilog2Ceil_pos {n : Nat} (several : 2 ≤ n) (upPower2 : Bool) : 0 < ilog2Ceil n upPower2 := by
  have enough := le_two_pow_ilog2Ceil n upPower2
  apply Nat.pos_of_ne_zero
  intro zero
  rw [zero] at enough
  omega

/-! ## Models that differ in a variable -/

noncomputable def Model.withVar (M : Model) (name : String) (value : Value) : Model :=
  { M with var := fun n s => if n = name then value.get s else M.var n s }

theorem Model.withVar_push (M : Model) (name : String) (value : Value) {s : Srt} (index : s.Val) :
    (M.withVar name value).push s index = (M.push s index).withVar name value := rfl

namespace Expr

def Avoids (e : Expr) (name : String) : Prop := ∀ s, .var name s ∉ e.vars

theorem varsAll_eq (args : List Expr) : varsAll args = args.flatMap vars := by
  induction args with
  | nil => rfl
  | cons e es ih => rw [varsAll, ih, List.flatMap_cons]

variable {e : Expr} {name : String} {value : Value}

theorem eval_withVar (avoids : e.Avoids name)
    (M : Model) : e.eval (M.withVar name value) = e.eval M := by
  induction e using Expr.induction generalizing M with
  | num bits value => rfl
  | bool value => rfl
  | var other s =>
    have distinct : other ≠ name := by
      rintro rfl
      exact avoids s (by simp [vars])
    simp [eval, Model.withVar, distinct]
  | bound index s => rfl
  | app op args ih =>
    have values : args.map (eval · (M.withVar name value)) = args.map (eval · M) := by
      apply List.map_congr_left
      intro e member
      apply ih e member
      intro s inside
      apply avoids s
      rw [vars, if_neg (by simpa using List.ne_nil_of_mem member), varsAll_eq]
      exact List.mem_flatMap.2 ⟨e, member, inside⟩
    rw [eval, eval, evals_eq_map, evals_eq_map, values]
    cases op with
    | fn name range => rfl
    | _ => rfl
  | lambda domain binder body ih =>
    rw [eval, eval]
    congr 1
    funext index
    rw [Model.withVar_push, ih avoids]

theorem truth_withVar (avoids : e.Avoids name)
    (M : Model) : e.truth (M.withVar name value) = e.truth M := by
  rw [truth, truth, eval_withVar avoids]

noncomputable def meaning (z : Z3) (s : Srt) : Meaning (mkIf z) Value where
  value := eval
  Sorted e := e.HasSort s
  sorted_mkIf cond a b :=
    (mkIf_spec z (hasSort_ite.2 ⟨cond, a, b⟩)).same.sorted _ (hasSort_ite.2 ⟨cond, a, b⟩)
  value_mkIf M cond a b := by
    rw [(mkIf_spec z (hasSort_ite.2 ⟨cond, a, b⟩)).same.eval_eq M, eval_ite]

end Expr

/-! ## `ChoiceExpr` -/

structure ChoiceExpr (T : Type) where
  vals : DomainMap T := DomainMap.empty

structure Choice (T : Type) where
  data : T
  domain : Expr
  qvar : Option Expr
  pre : Expr

namespace ChoiceExpr

variable {T V : Type}

def add [DecidableEq T] (less : T → T → Bool) (self : ChoiceExpr T) (val : T)
    (domain : Expr) : ChoiceExpr T :=
  if domain.isFalse then self else ⟨self.vals.record less val domain⟩

/-- `add` for each pair. -/
def addEach [DecidableEq T] (less : T → T → Bool) (self : ChoiceExpr T)
    (pieces : List (T × Expr)) : ChoiceExpr T :=
  pieces.foldl (fun self piece => self.add less piece.1 piece.2) self

/-- `operator bool`. -/
def toBool (self : ChoiceExpr T) : Bool := !self.vals.entries.isEmpty

def domain (z : Z3) (self : ChoiceExpr T) : Expr := self.vals.domain z

/-- The loop of `operator()`, with the result and the precondition so far. -/
def encode (z : Z3) (mkIf : Expr → T → T → T) (qvar : Expr) :
    (i : Nat) → List (T × Expr) → (ret : Option T) → (pre : Expr) → Option T × Expr
  | _, [], ret, pre => (ret, pre)
  | i, (val, domain) :: rest, ret, pre =>
    let cmp := Expr.cmpEq z qvar (Expr.mkUInt (i - 1) qvar.bits)
    encode z mkIf qvar (i - 1) rest (some (joined mkIf cmp val ret)) (Expr.mkIf z cmp domain pre)

/-- `operator()`, with the name that the solver makes up for the variable. -/
def choose (z : Z3) (mkIf : Expr → T → T → T) (fresh : String) (self : ChoiceExpr T) :
    Option (Choice T) :=
  match self.vals.entries with
  | [(val, domain)] => some ⟨val, domain, none, .bool true⟩
  | entries =>
    let dom := self.domain z
    let bits := ilog2Ceil (entries.length + (!dom.isTrue).toNat) false
    let qvar := .var fresh (.bv bits)
    let (ret, pre) := encode z mkIf qvar entries.length entries none (Expr.not dom)
    ret.map fun data => ⟨data, dom, some qvar, pre⟩

section

variable [DecidableEq T] {less : T → T → Bool} {self : ChoiceExpr T} {pieces : List (T × Expr)}
  {val v : T} {condition : Expr} {M : Model}

theorem conditions_add (conditions : Conditions self.vals.entries)
    (sorted : condition.HasSort .bool) : Conditions (self.add less val condition).vals.entries := by
  unfold add
  split
  · exact conditions
  · exact DomainMap.conditions_record conditions sorted

theorem mem_add (member : v ∈ (self.add less val condition).vals.entries.map Prod.fst) :
    v = val ∨ v ∈ self.vals.entries.map Prod.fst := by
  unfold add at member
  split at member
  · exact .inr member
  · exact DomainMap.mem_record.1 member

theorem mem_picked_add
    (conditions : Conditions self.vals.entries) (sorted : condition.HasSort .bool) :
    v ∈ picked M (self.add less val condition).vals.entries ↔
      v ∈ picked M self.vals.entries ∨ v = val ∧ condition.truth M = true := by
  unfold add
  split
  · next fails => simp [Expr.truth_of_isFalse fails]
  · exact DomainMap.mem_picked_record conditions sorted

theorem conditions_addEach (conditions : Conditions self.vals.entries)
    (sorted : Conditions pieces) : Conditions (self.addEach less pieces).vals.entries := by
  induction pieces generalizing self with
  | nil => exact conditions
  | cons piece rest ih =>
    rw [conditions_cons] at sorted
    exact ih (conditions_add conditions sorted.1) sorted.2

theorem mem_addEach (member : v ∈ (self.addEach less pieces).vals.entries.map Prod.fst) :
    v ∈ pieces.map Prod.fst ∨ v ∈ self.vals.entries.map Prod.fst := by
  induction pieces generalizing self with
  | nil => exact .inr member
  | cons piece rest ih =>
    rw [List.map_cons, List.mem_cons]
    rcases ih member with inside | before
    · exact .inl (.inr inside)
    · exact (mem_add before).imp .inl id

theorem mem_picked_addEach
    (conditions : Conditions self.vals.entries) (sorted : Conditions pieces) :
    v ∈ picked M (self.addEach less pieces).vals.entries ↔
      v ∈ picked M pieces ∨ v ∈ picked M self.vals.entries := by
  induction pieces generalizing self with
  | nil => simp [addEach]
  | cons piece rest ih =>
    rw [conditions_cons] at sorted
    refine (ih (conditions_add conditions sorted.1) sorted.2).trans ?_
    rw [mem_picked_add conditions sorted.1, picked_cons]
    by_cases holds : piece.2.truth M = true
    · rw [if_pos holds, List.mem_cons]
      simp only [holds, and_true]
      tauto
    · rw [if_neg holds]
      simp [holds]

end

section

variable (z : Z3) (fresh : String) {mkIf : Expr → T → T → T} {meaning : Meaning mkIf V}
  {bits q : Nat} {entries : List (T × Expr)} {ret : Option T} {pre : Expr} {M : Model}

section

variable (positive : 0 < bits)

include positive

theorem cmp_decides {i : Nat} (fits : i < 2 ^ bits) :
    (Expr.cmpEq z (.var fresh (.bv bits)) (Expr.mkUInt i bits)).Decides []
      fun M => Expr.toNat (.var fresh (.bv bits)) M = i := by
  have sorted : Expr.HasSort (.var fresh (.bv bits)) (.bv bits) :=
    ⟨by simpa [Expr.wellSorted, Srt.wf] using positive, rfl⟩
  have number : (Expr.mkUInt i bits).HasSort (.bv bits) := Expr.hasSort_mkUInt positive
  have decides := Expr.cmpEq_decides_bv z sorted number
  have safe : ∀ M, Expr.Safe [.var fresh (.bv bits), Expr.mkUInt i bits] M := fun M =>
    Expr.safe_pair.2 ⟨trivial, trivial⟩
  refine ⟨decides.sorted, fun M _ => decides.safe M (safe M), fun M _ => ?_⟩
  rw [decides.truth M (safe M), Expr.toNat_mkUInt, Nat.mod_eq_of_lt fits]

theorem round_spec {condition : Expr} {i : Nat} (fits : i < 2 ^ bits)
    (sorted : condition.HasSort .bool) (sortedPre : pre.HasSort .bool) :
    let cmp := Expr.cmpEq z (.var fresh (.bv bits)) (Expr.mkUInt i bits)
    (Expr.mkIf z cmp condition pre).HasSort .bool ∧ ∀ M, (Expr.mkIf z cmp condition pre).truth M =
        if Expr.toNat (.var fresh (.bv bits)) M = i then condition.truth M else pre.truth M := by
  intro cmp
  have decides := cmp_decides z fresh positive fits
  have whole := Expr.hasSort_ite.2 ⟨decides.sorted, sorted, sortedPre⟩
  have same := (Expr.mkIf_spec z whole).same
  refine ⟨same.sorted _ whole, fun M => ?_⟩
  rw [same.truth_eq M, Expr.truth_ite]
  exact ite_congr (propext (decides.truth M (fun _ absent => nomatch absent))) (fun _ => rfl)
    fun _ => rfl

variable (fits : entries.length ≤ 2 ^ bits) (conditions : Conditions entries)

include fits conditions

theorem encode_sorted (sortedPre : pre.HasSort .bool) :
    (encode z mkIf (.var fresh (.bv bits)) entries.length entries ret pre).2.HasSort .bool ∧
      (entries ≠ [] ∨ ret ≠ none →
        ∃ r, (encode z mkIf (.var fresh (.bv bits)) entries.length entries ret pre).1 =
          some r) := by
  induction entries generalizing ret pre with
  | nil =>
    refine ⟨sortedPre, fun present => ?_⟩
    rcases present with absurdity | present
    · exact absurd rfl absurdity
    · exact Option.ne_none_iff_exists'.1 present
  | cons entry rest ih =>
    rw [conditions_cons] at conditions
    rw [List.length_cons] at fits
    have round := (round_spec z fresh positive fits conditions.1 sortedPre).1
    have fewer : rest.length ≤ 2 ^ bits := by omega
    rw [encode]
    exact ⟨(ih fewer conditions.2 round).1,
      fun _ => (ih fewer conditions.2 round).2 (.inr (by simp))⟩

theorem encode_above (sorts : ∀ v ∈ entries.map Prod.fst, meaning.Sorted v)
    (sorted : ∀ r, ret = some r → meaning.Sorted r) (sortedPre : pre.HasSort .bool)
    (above : entries.length ≤ Expr.toNat (.var fresh (.bv bits)) M) :
    (encode z mkIf (.var fresh (.bv bits)) entries.length entries ret pre).2.truth M = pre.truth M ∧
      ∀ other, ret = some other → ∃ r,
        (encode z mkIf (.var fresh (.bv bits)) entries.length entries ret pre).1 = some r ∧
          meaning.value r M = meaning.value other M := by
  induction entries generalizing ret pre with
  | nil => exact ⟨rfl, fun other known => ⟨other, known, rfl⟩⟩
  | cons entry rest ih =>
    rw [conditions_cons] at conditions
    rw [List.map_cons, List.forall_mem_cons] at sorts
    rw [List.length_cons] at fits above
    have round := round_spec z fresh positive fits conditions.1 sortedPre
    have decides := cmp_decides z fresh positive fits
    have missed : ¬(Expr.cmpEq z (.var fresh (.bv bits)) (Expr.mkUInt rest.length bits)).truth M =
        true := by
      rw [decides.truth M fun _ absent => nomatch absent]
      omega
    have before : ∀ r, some (joined mkIf (Expr.cmpEq z (.var fresh (.bv bits))
        (Expr.mkUInt rest.length bits)) entry.1 ret) = some r → meaning.Sorted r := by
      rintro r ⟨⟩
      exact meaning.sorted_joined decides.sorted sorts.1 sorted
    have next := ih (by omega) conditions.2 sorts.2 before round.1 (by omega)
    rw [round.2 M, if_neg (by omega)] at next
    refine ⟨next.1, fun other known => ?_⟩
    subst known
    obtain ⟨r, result, value⟩ := next.2 _ rfl
    refine ⟨r, result, value.trans ?_⟩
    exact meaning.value_joined_other decides.sorted sorts.1 (sorted other rfl) missed

theorem encode_below (sorts : ∀ v ∈ entries.map Prod.fst, meaning.Sorted v)
    (sorted : ∀ r, ret = some r → meaning.Sorted r) (sortedPre : pre.HasSort .bool)
    (index : Expr.toNat (.var fresh (.bv bits)) M = q) (below : q < entries.length) :
    ∃ val condition r, entries[entries.length - 1 - q]? = some (val, condition) ∧
      (encode z mkIf (.var fresh (.bv bits)) entries.length entries ret pre).1 = some r ∧
      meaning.value r M = meaning.value val M ∧
      (encode z mkIf (.var fresh (.bv bits)) entries.length entries ret pre).2.truth M =
        condition.truth M := by
  induction entries generalizing ret pre with
  | nil => exact absurd below (Nat.not_lt_zero q)
  | cons entry rest ih =>
    rw [conditions_cons] at conditions
    rw [List.map_cons, List.forall_mem_cons] at sorts
    rw [List.length_cons] at fits below
    have round := round_spec z fresh positive fits conditions.1 sortedPre
    have decides := cmp_decides z fresh positive fits
    have before : ∀ r, some (joined mkIf (Expr.cmpEq z (.var fresh (.bv bits))
        (Expr.mkUInt rest.length bits)) entry.1 ret) = some r → meaning.Sorted r := by
      rintro r ⟨⟩
      exact meaning.sorted_joined decides.sorted sorts.1 sorted
    by_cases last : q = rest.length
    · have taken : (Expr.cmpEq z (.var fresh (.bv bits)) (Expr.mkUInt rest.length bits)).truth M =
          true := (decides.truth M fun _ absent => nomatch absent).2 (index.trans last)
      have next := encode_above z fresh positive (by omega) conditions.2 sorts.2 before round.1
        (index.trans last).ge
      obtain ⟨r, result, value⟩ := next.2 _ rfl
      refine ⟨entry.1, entry.2, r, ?_, result, value.trans ?_, next.1.trans ?_⟩
      · rw [last, List.length_cons, Nat.add_sub_cancel, Nat.sub_self]
        rfl
      · exact meaning.value_joined decides.sorted sorts.1 sorted taken
      · rw [round.2 M, if_pos (index.trans last)]
    · obtain ⟨val, condition, r, place, result⟩ :=
        ih (by omega) conditions.2 sorts.2 before round.1 (by omega)
      refine ⟨val, condition, r, ?_, result⟩
      rw [List.length_cons, show rest.length + 1 - 1 - q = (rest.length - 1 - q) + 1 by omega]
      exact place

end

/-- With the variable at a number, the value and the precondition are those of an
entry, or the number is the one left over. -/
structure Encodes (choice : Choice T) (meaning : Meaning mkIf V) (entries : List (T × Expr)) :
    Prop where
  chosen : ∀ M, choice.pre.truth M = true → picked M entries ≠ [] →
    ∃ v ∈ picked M entries, meaning.value choice.data M = meaning.value v M
  reaches : ∀ M : Model, ∀ entry ∈ entries, ∃ x,
    meaning.value choice.data (M.withVar fresh x) = meaning.value entry.1 (M.withVar fresh x) ∧
      (entry.2.truth (M.withVar fresh x) = true → choice.pre.truth (M.withVar fresh x) = true)
  leftover : ∀ M : Model, ∃ x, picked (M.withVar fresh x) entries = [] →
    choice.pre.truth (M.withVar fresh x) = true

theorem toNat_withVar {n : Nat} (fits : n < 2 ^ bits) :
    Expr.toNat (.var fresh (.bv bits)) (M.withVar fresh (.bv bits (BitVec.ofNat bits n))) = n := by
  have value : (Value.bv bits (BitVec.ofNat bits n)).get (.bv bits) = BitVec.ofNat bits n :=
    Value.get_of (.bv bits) _
  simp [Expr.toNat, Expr.eval, Model.withVar, value, Value.of, Value.toNat, Nat.mod_eq_of_lt fits]

theorem encode_encodes {dom : Expr} {qvar : Option Expr} (positive : 0 < bits)
    (some_entry : entries ≠ []) (fits : entries.length + (!dom.isTrue).toNat ≤ 2 ^ bits)
    (conditions : Conditions entries) (sorts : ∀ v ∈ entries.map Prod.fst, meaning.Sorted v)
    (sorted : dom.HasSort .bool) (truth : ∀ M, dom.truth M = true ↔ picked M entries ≠ []) :
    ∃ data, (encode z mkIf (.var fresh (.bv bits)) entries.length entries none (Expr.not dom)).1 =
        some data ∧
      Encodes fresh ⟨data, dom, qvar,
        (encode z mkIf (.var fresh (.bv bits)) entries.length entries none (Expr.not dom)).2⟩
        meaning entries := by
  have unset : ∀ r : T, none = some r → meaning.Sorted r := fun r absent => by cases absent
  have sortedPre := Expr.hasSort_not_eq sorted
  have enough : entries.length ≤ 2 ^ bits := by omega
  obtain ⟨data, result⟩ := (encode_sorted z fresh positive enough
    conditions sortedPre).2 (.inl some_entry)
  refine ⟨data, result, fun M holds some_picked => ?_, fun M entry member => ?_, fun M => ?_⟩
  · by_cases below : Expr.toNat (.var fresh (.bv bits)) M < entries.length
    · obtain ⟨val, condition, r, place, result', value, pre⟩ := encode_below z fresh positive enough
        conditions sorts unset sortedPre rfl below
      rw [result] at result'
      cases result'
      refine ⟨val, mem_picked.2 ⟨condition, List.mem_of_getElem? place, ?_⟩, value⟩
      exact pre.symm.trans holds
    · have above := (encode_above z fresh positive enough conditions sorts unset
        sortedPre (not_lt.1 below)).1
      rw [holds, Expr.truth_not_eq sorted, eq_comm, Bool.not_eq_true', ← Bool.not_eq_true,
        truth M] at above
      exact absurd some_picked above
  · obtain ⟨j, inside, rfl⟩ := List.getElem_of_mem member
    refine ⟨.bv bits (BitVec.ofNat bits (entries.length - 1 - j)), ?_⟩
    have index := toNat_withVar fresh (M := M) (show entries.length - 1 - j < 2 ^ bits by omega)
    obtain ⟨val, condition, r, place, result', value, pre⟩ := encode_below z fresh positive enough
      conditions sorts unset sortedPre index (by omega)
    rw [result] at result'
    cases result'
    rw [show entries.length - 1 - (entries.length - 1 - j) = j by omega,
      List.getElem?_eq_getElem inside, Option.some.injEq] at place
    rw [place]
    exact ⟨value, fun holds => pre.trans holds⟩
  · by_cases known : dom.isTrue = true
    · refine ⟨.bool true, fun none_picked => ?_⟩
      exact absurd none_picked ((truth _).1 (Expr.truth_of_isTrue known _))
    · refine ⟨.bv bits (BitVec.ofNat bits entries.length), fun none_picked => ?_⟩
      rw [Bool.not_eq_true] at known
      rw [known] at fits
      have index := toNat_withVar fresh (M := M) (show entries.length < 2 ^ bits from fits)
      have above := (encode_above z fresh positive enough conditions sorts unset
        sortedPre index.ge).1
      refine above.trans ?_
      rw [Expr.truth_not_eq sorted, Bool.not_eq_true', ← Bool.not_eq_true, truth]
      exact not_not.2 none_picked

theorem choose_encodes {self : ChoiceExpr T} (conditions : Conditions self.vals.entries)
    (sorts : ∀ v ∈ self.vals.entries.map Prod.fst, meaning.Sorted v)
    (nonempty : self.toBool = true) :
    ∃ choice, self.choose z mkIf fresh = some choice ∧
      Encodes fresh choice meaning self.vals.entries := by
  obtain ⟨sortedDom, truthDom⟩ := DomainMap.domain_spec z conditions
  unfold choose
  split
  · next val condition shape =>
    refine ⟨_, rfl, fun M _ some_picked => ?_, fun M entry member => ?_, fun M => ?_⟩
    · rw [shape, picked_cons] at some_picked ⊢
      by_cases holds : condition.truth M = true
      · rw [if_pos holds]
        exact ⟨val, List.mem_cons_self, rfl⟩
      · rw [if_neg holds] at some_picked
        exact absurd rfl some_picked
    · rw [shape, List.mem_singleton] at member
      subst member
      exact ⟨.bool true, rfl, fun _ => rfl⟩
    · exact ⟨.bool true, fun _ => rfl⟩
  · next several =>
    have some_entry : self.vals.entries ≠ [] := by
      simpa [toBool] using nonempty
    have many : 2 ≤ self.vals.entries.length := by
      match shape : self.vals.entries with
      | [] => exact absurd shape some_entry
      | [entry] => exact absurd shape (several entry.1 entry.2)
      | first :: second :: rest => simp
    have bound := le_two_pow_ilog2Ceil
      (self.vals.entries.length + (!(self.domain z).isTrue).toNat) false
    obtain ⟨data, result, encodes⟩ := encode_encodes z fresh
      (ilog2Ceil_pos (many.trans (Nat.le_add_right _ _)) false) some_entry bound conditions sorts
      sortedDom truthDom
    refine ⟨_, ?_, encodes⟩
    dsimp only
    rw [result, Option.map_some]

end

/-- Over all values of the fresh variable that satisfy the precondition, the data
has the values that were added under a true domain, and no others. The precondition
can be satisfied in every model. -/
theorem choice_exact
    {T V : Type} [DecidableEq T]
    (z : Z3) (less : T → T → Bool) {mkIf : Expr → T → T → T} (meaning : Meaning mkIf V)
    (fresh : String) (pieces : List (T × Expr)) (conditions : Conditions pieces)
    (sorts : ∀ v ∈ pieces.map Prod.fst, meaning.Sorted v)
    (avoids : ∀ piece ∈ pieces, piece.2.Avoids fresh) (unaffected : ∀ piece ∈ pieces, ∀ M x,
      meaning.value piece.1 (Model.withVar M fresh x) = meaning.value piece.1 M)
    (nonempty : (addEach less {} pieces).toBool = true) :
    ∃ choice, (addEach less {} pieces).choose z mkIf fresh = some choice ∧
      ∀ M : Model,
        (picked M pieces ≠ [] →
          {y | ∃ x, choice.pre.truth (M.withVar fresh x) = true ∧
            y = meaning.value choice.data (M.withVar fresh x)} =
          {y | ∃ v ∈ picked M pieces, y = meaning.value v M}) ∧
        ∃ x, choice.pre.truth (M.withVar fresh x) = true := by
  have none_before : Conditions ({} : ChoiceExpr T).vals.entries :=
    fun entry member => absurd member List.not_mem_nil
  have same : ∀ (M : Model) x v, v ∈ picked (M.withVar fresh x)
      (addEach less {} pieces).vals.entries ↔ v ∈ picked M pieces := by
    intro M x v
    have domains : picked (M.withVar fresh x) pieces = picked M pieces := by
      unfold picked
      congr 1
      apply List.filter_congr
      intro piece member
      exact Expr.truth_withVar (avoids piece member) M
    rw [mem_picked_addEach none_before conditions, domains]
    simp
  have values : ∀ v ∈ pieces.map Prod.fst, ∀ (M : Model) x,
      meaning.value v (M.withVar fresh x) = meaning.value v M := by
    intro v member
    obtain ⟨piece, inside, rfl⟩ := List.mem_map.1 member
    exact unaffected piece inside
  have added : ∀ v ∈ (addEach less {} pieces).vals.entries.map Prod.fst, v ∈ pieces.map Prod.fst :=
    fun v member => (mem_addEach member).resolve_right List.not_mem_nil
  obtain ⟨choice, result, encodes⟩ := choose_encodes z fresh
    (conditions_addEach none_before conditions) (fun v member => sorts v (added v member)) nonempty
  have reach : ∀ (M : Model), ∀ v ∈ picked M pieces, ∃ x,
      choice.pre.truth (M.withVar fresh x) = true ∧
        meaning.value v M = meaning.value choice.data (M.withVar fresh x) := by
    intro M v chosen
    obtain ⟨d, member, -⟩ := mem_picked.1 ((same M (.bool true) v).2 chosen)
    obtain ⟨x, value, holds⟩ := encodes.reaches M _ member
    obtain ⟨d', member', truth⟩ := mem_picked.1 ((same M x v).2 chosen)
    have unique : (v, d') = (v, d) :=
      List.inj_on_of_nodup_map (addEach less {} pieces).vals.nodup member' member rfl
    cases unique
    refine ⟨x, holds truth, ?_⟩
    rw [value, values v (added v (List.mem_map.2 ⟨_, member, rfl⟩))]
  refine ⟨choice, result, fun M => ⟨fun some_picked => ?_, ?_⟩⟩
  · apply Set.ext
    intro y
    constructor
    · rintro ⟨x, holds, rfl⟩
      have some_entry : picked (M.withVar fresh x) (addEach less {} pieces).vals.entries ≠ [] := by
        obtain ⟨v, chosen⟩ := List.exists_mem_of_ne_nil _ some_picked
        exact List.ne_nil_of_mem ((same M x v).2 chosen)
      obtain ⟨v, chosen, value⟩ := encodes.chosen _ holds some_entry
      have before := (same M x v).1 chosen
      refine ⟨v, before, ?_⟩
      obtain ⟨d, inside, -⟩ := mem_picked.1 before
      rw [value, values v (List.mem_map.2 ⟨_, inside, rfl⟩)]
    · rintro ⟨v, chosen, rfl⟩
      exact reach M v chosen
  · by_cases none_picked : picked M pieces = []
    · obtain ⟨x, holds⟩ := encodes.leftover M
      refine ⟨x, holds ?_⟩
      apply List.eq_nil_iff_forall_not_mem.2
      intro v chosen
      have before := (same M x v).1 chosen
      rw [none_picked] at before
      exact absurd before List.not_mem_nil
    · obtain ⟨v, chosen⟩ := List.exists_mem_of_ne_nil _ none_picked
      obtain ⟨x, holds, -⟩ := reach M v chosen
      exact ⟨x, holds⟩

theorem choice_exact_two :
    ∃ choice, (addEach Z3.reference.less {}
        [(Expr.num 8 5, .var "a" .bool), (Expr.num 8 7, .var "b" .bool)]).choose
        Z3.reference (Expr.mkIf Z3.reference) "choice!0" = some choice ∧
      ∃ x, choice.pre.truth (Model.withVar default "choice!0" x) = true := by
  obtain ⟨choice, result, exact'⟩ := choice_exact Z3.reference Z3.reference.less
    (Expr.meaning Z3.reference (.bv 8)) "choice!0"
    [(Expr.num 8 5, .var "a" .bool), (Expr.num 8 7, .var "b" .bool)]
    (conditions_cons.2 ⟨⟨rfl, rfl⟩, conditions_cons.2 ⟨⟨rfl, rfl⟩, fun _ absent => nomatch absent⟩⟩)
    (List.forall_mem_cons.2 ⟨⟨rfl, rfl⟩, List.forall_mem_singleton.2 ⟨rfl, rfl⟩⟩)
    (by simp [Expr.Avoids, Expr.vars]) (by simp [Expr.meaning, Expr.eval]) (by decide)
  exact ⟨choice, result, (exact' default).2⟩

end ChoiceExpr

end AliveNext.Smt
