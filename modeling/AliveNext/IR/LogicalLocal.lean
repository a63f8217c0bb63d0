import AliveNext.IR.Pointer
import AliveNext.Smt.Disjoint
import AliveNext.Smt.Reference

/-!
# Logical pointers to local blocks

`Pointer::toLogicalLocal` (`ir/pointer.cpp`): a pointer that may be physical is looked up among
the local blocks whose addresses were observed.
-/

namespace AliveNext.IR.Pointer

open AliveNext.Smt

variable {l : Layout}

/-! ## Local blocks -/

def localBid (l : Layout) (i : Nat) : BitVec l.bitsForBid :=
  BitVec.ofNat l.bitsForBid (i + l.hasLocalBit.toNat * 2 ^ (l.bitsForBid - 1))

def localPointer (l : Layout) (i : Nat) : Pointer l := mkLogical (localBid l i) 0 0

/-- `operator+`. -/
def add {width : Nat} (p : Pointer l) (bytes : BitVec width) : Pointer l :=
  if physical : l.hasLogicalBit = true ∧ p.isLogical = false then
    mkPhysical physical.1 (p.getPhysicalAddress + bytes.setWidth l.bitsPtrAddress) p.getAttrs
  else mkLogical p.getBid (p.getOffset + bytes.setWidth l.bitsForOffset) p.getAttrs

structure Blocks (l : Layout) where
  base : BitVec l.bitsForBid → BitVec l.bitsPtrAddress
  sizeBits : Nat
  size : Nat → BitVec sizeBits

namespace Blocks

variable (blocks : Blocks l)

def intoBlock (i : Nat) (addr : BitVec l.bitsPtrAddress) : Pointer l :=
  (localPointer l i).add (addr - blocks.base (localBid l i))

/-- The condition of `findLogicalLocalPointer` for a local block. -/
def inBlock (i : Nat) (addr : BitVec l.bitsPtrAddress) : Bool :=
  ((localPointer l i).getLogAddress blocks.base).ule addr &&
    addr.ult (((localPointer l i).add (blocks.size i)).getLogAddress blocks.base)

def Inside (i : Nat) (addr : BitVec l.bitsPtrAddress) : Prop :=
  (blocks.base (localBid l i)).toNat ≤ addr.toNat ∧
    addr.toNat < (blocks.base (localBid l i)).toNat + (blocks.size i).toNat

def Fits (i : Nat) : Prop :=
  (blocks.base (localBid l i)).toNat + (blocks.size i).toNat < 2 ^ l.bitsPtrAddress

theorem add_localPointer {width : Nat} (i : Nat) (bytes : BitVec width) :
    (localPointer l i).add bytes = mkLogical (localBid l i) (bytes.setWidth l.bitsForOffset) 0 := by
  have logical : (localPointer l i).isLogical = true := isLogical_mkLogical _ _ _
  unfold add
  rw [dif_neg (by rw [logical]; exact fun both => nomatch both.2)]
  unfold localPointer
  rw [getBid_mkLogical, getOffset_mkLogical, getAttrs_mkLogical]
  congr 1
  exact BitVec.zero_add _

variable (widths : l.bitsPtrAddress ≤ l.bitsForOffset)

include widths

theorem getLogAddress_add {width : Nat} (i : Nat) (bytes : BitVec width) :
    ((localPointer l i).add bytes).getLogAddress blocks.base =
      blocks.base (localBid l i) + bytes.setWidth l.bitsPtrAddress := by
  rw [add_localPointer, getLogAddress, getBid_mkLogical, getOffset_mkLogical,
    BitVec.signExtend_eq_setWidth_of_le _ widths, BitVec.setWidth_setWidth_of_le _ widths]

theorem inBlock_iff {i : Nat} {addr : BitVec l.bitsPtrAddress}
    (fits : blocks.Fits i) : blocks.inBlock i addr = true ↔ blocks.Inside i addr := by
  unfold Fits at fits
  have start : (localPointer l i).getLogAddress blocks.base = blocks.base (localBid l i) := by
    unfold localPointer
    rw [getLogAddress, getBid_mkLogical, getOffset_mkLogical,
      BitVec.signExtend_eq_setWidth_of_le _ widths]
    simp
  have stop : (blocks.base (localBid l i) + (blocks.size i).setWidth l.bitsPtrAddress).toNat =
      (blocks.base (localBid l i)).toNat + (blocks.size i).toNat := by
    rw [BitVec.toNat_add, BitVec.toNat_setWidth, Nat.add_mod_mod, Nat.mod_eq_of_lt fits]
  unfold inBlock Inside
  rw [getLogAddress_add blocks widths, start, Bool.and_eq_true, BitVec.ule, BitVec.ult,
    decide_eq_true_eq, decide_eq_true_eq, stop]

theorem intoBlock_spec (i : Nat) (addr : BitVec l.bitsPtrAddress) :
    (blocks.intoBlock i addr).isLogical = true ∧ (blocks.intoBlock i addr).getBid = localBid l i ∧
      (blocks.intoBlock i addr).getAddress blocks.base = addr := by
  have address := getLogAddress_add blocks widths i (addr - blocks.base (localBid l i))
  unfold intoBlock getAddress
  rw [address, BitVec.setWidth_eq, add_localPointer]
  refine ⟨isLogical_mkLogical _ _ _, getBid_mkLogical _ _ _, ?_⟩
  rw [if_pos (isLogical_mkLogical _ _ _)]
  exact add_sub_cancel _ _

end Blocks

/-! ## Terms -/

/-- Terms for pointers, with the terms that `findLogicalLocalPointer` makes for the physical
address of a pointer and a local block. -/
structure Terms (l : Layout) (T : Type) where
  mkIf : Expr → T → T → T
  meaning : Meaning mkIf (Pointer l)
  blocks : Model → Blocks l
  isLogical : T → Expr
  intoBlock : T → Nat → T
  inBlock : T → Nat → Expr
  null : T
  isLogical_sort : ∀ {t}, meaning.Sorted t → (isLogical t).HasSort .bool
  isLogical_truth : ∀ {t}, meaning.Sorted t → ∀ M,
    (isLogical t).truth M = (meaning.value t M).isLogical
  intoBlock_sort : ∀ {t}, meaning.Sorted t → ∀ i, meaning.Sorted (intoBlock t i)
  intoBlock_value : ∀ {t}, meaning.Sorted t → ∀ i M, meaning.value (intoBlock t i) M =
      (blocks M).intoBlock i (meaning.value t M).getPhysicalAddress
  inBlock_sort : ∀ {t}, meaning.Sorted t → ∀ i, (inBlock t i).HasSort .bool
  inBlock_truth : ∀ {t}, meaning.Sorted t → ∀ i M,
    (inBlock t i).truth M = (blocks M).inBlock i (meaning.value t M).getPhysicalAddress
  null_sort : meaning.Sorted null

section

variable {T : Type} [DecidableEq T] (terms : Terms l T) (z : Z3) (less : T → T → Bool)
  (escaped : List Nat)

/-- `findLogicalLocalPointer` for the physical address of `t`; `escaped` has the local blocks
whose addresses were observed. -/
def findLogicalLocalPointer (t : T) : T × Expr :=
  let ret := ({ defaultVal := some terms.null } : DisjointExpr T).addEach less
    (escaped.map fun i => (terms.intoBlock t i, terms.inBlock t i))
  ((ret.toValue terms.mkIf).getD terms.null, ret.domain z)

/-- `toLogicalLocal`; `cases` are those that `DisjointExpr` makes of the pointer. -/
def toLogicalLocal (cases : List (T × Expr)) (p : T) : T × Expr :=
  if (terms.isLogical p).isTrue then (p, .bool true)
  else
    let leftover := (DisjointExpr.mk DomainMap.empty none).addEach less
      (cases.filter fun c => !(terms.isLogical c.1).isTrue)
    match leftover.toValue terms.mkIf with
    | none => (p, .bool true)
    | some t =>
      let (ptr, domain) := findLogicalLocalPointer terms z less escaped t
      (terms.mkIf (terms.isLogical p) p ptr, Expr.and (leftover.domain z) domain)

variable {terms} {t : T}

structure Separate (blocks : Blocks l) (escaped : List Nat) : Prop where
  fits : ∀ i ∈ escaped, blocks.Fits i
  disjoint : escaped.Pairwise fun i j => ∀ addr, ¬(blocks.Inside i addr ∧ blocks.Inside j addr)

theorem length_filter_of_disjoint {P : Nat → Bool} {items : List Nat}
    (disjoint : items.Pairwise fun i j => ¬(P i = true ∧ P j = true)) :
    (items.filter P).length ≤ 1 := by
  have apart := disjoint.filter P
  rcases shape : items.filter P with _ | ⟨i, _ | ⟨j, rest⟩⟩
  · exact Nat.zero_le _
  · exact le_refl _
  · rw [shape, List.pairwise_cons] at apart
    have first : i ∈ items.filter P := by simp [shape]
    have second : j ∈ items.filter P := by simp [shape]
    exact absurd ⟨(List.mem_filter.1 first).2, (List.mem_filter.1 second).2⟩
      (apart.1 j List.mem_cons_self)

theorem findLogicalLocalPointer_spec
    (widths : l.bitsPtrAddress ≤ l.bitsForOffset) (sorted : terms.meaning.Sorted t) :
    terms.meaning.Sorted (findLogicalLocalPointer terms z less escaped t).1 ∧
    (findLogicalLocalPointer terms z less escaped t).2.HasSort .bool ∧
    ∀ M, Separate (terms.blocks M) escaped →
      ((findLogicalLocalPointer terms z less escaped t).2.truth M = true ↔ ∃ i ∈ escaped,
          (terms.blocks M).Inside i (terms.meaning.value t M).getPhysicalAddress) ∧
      ∀ i ∈ escaped, (terms.blocks M).Inside i (terms.meaning.value t M).getPhysicalAddress →
        terms.meaning.value (findLogicalLocalPointer terms z less escaped t).1 M =
          (terms.blocks M).intoBlock i (terms.meaning.value t M).getPhysicalAddress := by
  unfold findLogicalLocalPointer
  dsimp only
  set pieces := escaped.map fun i => (terms.intoBlock t i, terms.inBlock t i) with pieces_eq
  set ret := ({ defaultVal := some terms.null } : DisjointExpr T).addEach less pieces with ret_eq
  have none_yet : Conditions (DomainMap.empty : DomainMap T).entries :=
    List.forall_mem_nil _
  have piece_conditions : Conditions pieces := by
    intro piece member
    obtain ⟨i, _, rfl⟩ := List.mem_map.1 member
    exact terms.inBlock_sort sorted i
  have conditions : Conditions ret.vals.entries :=
    DisjointExpr.conditions_addEach none_yet piece_conditions
  have sorts : ∀ v ∈ ret.vals.entries.map Prod.fst, terms.meaning.Sorted v := by
    intro v member
    rcases DisjointExpr.mem_addEach member with inside | before
    · rw [pieces_eq, List.map_map] at inside
      obtain ⟨i, _, rfl⟩ := List.mem_map.1 inside
      exact terms.intoBlock_sort sorted i
    · cases before
  have domain := DomainMap.domain_spec z conditions
  refine ⟨?_, domain.1, ?_⟩
  · by_cases empty : ret.vals.entries = []
    · rw [DisjointExpr.toValue_of_nil empty, DisjointExpr.defaultVal_addEach]
      exact terms.null_sort
    · obtain ⟨v, known, v_sorted⟩ := DisjointExpr.toValue_sorted conditions sorts empty
      rw [known]
      exact v_sorted
  · intro M separate
    set addr := (terms.meaning.value t M).getPhysicalAddress with addr_eq
    have holds : ∀ i ∈ escaped, ((terms.inBlock t i).truth M = true ↔
        (terms.blocks M).Inside i addr) := by
      intro i member
      rw [terms.inBlock_truth sorted, (terms.blocks M).inBlock_iff widths (separate.fits i member)]
    have chosen : picked M pieces =
        (escaped.filter fun i => (terms.inBlock t i).truth M).map (terms.intoBlock t) := by
      rw [picked, pieces_eq, List.filter_map, List.map_map]
      rfl
    have apart : escaped.Pairwise fun i j =>
        ¬((terms.inBlock t i).truth M = true ∧ (terms.inBlock t j).truth M = true) := by
      refine separate.disjoint.imp_of_mem fun {i j} i_mem j_mem disjoint both => ?_
      exact disjoint addr ⟨(holds i i_mem).1 both.1, (holds j j_mem).1 both.2⟩
    have single := length_filter_of_disjoint apart
    have entries : picked M ret.vals.entries = picked M pieces := by
      have few : (picked M (pieces ++ (DomainMap.empty : DomainMap T).entries)).length ≤ 1 := by
        rw [DomainMap.entries_empty, List.append_nil, chosen, List.length_map]
        exact single
      have added : picked M ret.vals.entries =
          picked M (pieces ++ (DomainMap.empty : DomainMap T).entries) :=
        DisjointExpr.picked_addEach none_yet piece_conditions few
      rwa [DomainMap.entries_empty, List.append_nil] at added
    constructor
    · refine (domain.2 M).trans ?_
      rw [entries, chosen, ne_eq, List.map_eq_nil_iff, List.filter_eq_nil_iff]
      push Not
      exact exists_congr fun i => and_congr_right (holds i)
    · intro i member inside
      have found : i ∈ escaped.filter fun i => (terms.inBlock t i).truth M :=
        List.mem_filter.2 ⟨member, (holds i member).2 inside⟩
      have only : (escaped.filter fun i => (terms.inBlock t i).truth M) = [i] := by
        obtain ⟨j, shape⟩ := List.length_eq_one_iff.1
          (le_antisymm single (List.length_pos_of_mem found))
        rw [shape] at found ⊢
        rw [List.mem_singleton.1 found]
      rw [only] at chosen
      obtain ⟨v, known, _, value⟩ := DisjointExpr.toValue_of_picked conditions sorts
        (entries.trans chosen)
      rw [known, Option.getD_some, value]
      exact terms.intoBlock_value sorted i M

end

section

variable {T : Type} {terms : Terms l T} {z : Z3} {less : T → T → Bool} {escaped : List Nat}
  {M : Model} {t p v : T} {cases : List (T × Expr)}

/-- What the conversion of a pointer should be in a model. -/
structure Faithful (terms : Terms l T) (escaped : List Nat) (M : Model) (p : T)
    (result : T × Expr) : Prop where
  logical : (terms.meaning.value p M).isLogical = true →
    result.2.truth M = true ∧ terms.meaning.value result.1 M = terms.meaning.value p M
  physical : (terms.meaning.value p M).isLogical = false →
    (result.2.truth M = true ↔ ∃ i ∈ escaped,
      (terms.blocks M).Inside i (terms.meaning.value p M).getPhysicalAddress)
  found : (terms.meaning.value p M).isLogical = false → result.2.truth M = true →
    ∃ i ∈ escaped, (terms.blocks M).Inside i (terms.meaning.value p M).getPhysicalAddress ∧
      (terms.meaning.value result.1 M).isLogical = true ∧
      (terms.meaning.value result.1 M).getBid = localBid l i ∧
      (terms.meaning.value result.1 M).getAddress (terms.blocks M).base =
        (terms.meaning.value p M).getPhysicalAddress

def mixed (terms : Terms l T) (cases : List (T × Expr)) : List (T × Expr) :=
  cases.filter fun c => !(terms.isLogical c.1).isTrue

/-- What `DisjointExpr` makes of a pointer: in the model one case is taken, and it has the
value of the pointer. -/
structure Split (terms : Terms l T) (cases : List (T × Expr)) (p v : T) (M : Model) : Prop where
  conditions : Conditions cases
  sorted : ∀ c ∈ cases, terms.meaning.Sorted c.1
  single : picked M cases = [v]
  value : terms.meaning.value v M = terms.meaning.value p M

theorem picked_mixed (split : Split terms cases p v M) :
    picked M (mixed terms cases) = if (terms.isLogical v).isTrue then [] else [v] := by
  have chosen : picked M (mixed terms cases) =
      (picked M cases).filter fun t => !(terms.isLogical t).isTrue := by
    unfold picked mixed
    rw [List.filter_filter, List.filter_map, List.filter_filter]
    congr 1
    refine List.filter_congr fun c _ => ?_
    rw [Bool.and_comm]
    rfl
  rw [chosen, split.single]
  cases known : (terms.isLogical v).isTrue <;> simp [known]

theorem Split.member (split : Split terms cases p v M) : ∃ d, (v, d) ∈ cases ∧ d.truth M = true :=
  mem_picked.1 (split.single ▸ List.mem_singleton_self v)

theorem isLogical_of_isTrue
    (sorted : terms.meaning.Sorted t) (known : (terms.isLogical t).isTrue = true) (M : Model) :
    (terms.meaning.value t M).isLogical = true := by
  rw [← terms.isLogical_truth sorted]
  exact Expr.truth_of_isTrue known M

theorem faithful_of_logical (logical : (terms.meaning.value p M).isLogical = true) {q : T}
    {d : Expr} (same : terms.meaning.value q M = terms.meaning.value p M) :
    Faithful terms escaped M p (q, d) ↔ d.truth M = true := by
  constructor
  · intro faithful
    exact (faithful.logical logical).1
  · intro holds
    refine ⟨fun _ => ⟨holds, same⟩, ?_, ?_⟩
    · rw [logical]
      intro absurdity
      cases absurdity
    · rw [logical]
      intro absurdity
      cases absurdity

/-- The conversion is right in a model unless the pointer is logical there, some case of it may
be physical, and the case that the model takes is known to be logical or has bits that are no
address in an escaped block. -/
theorem toLogicalLocal_faithful_iff
    [DecidableEq T] (widths : l.bitsPtrAddress ≤ l.bitsForOffset) (sorted : terms.meaning.Sorted p)
    (split : Split terms cases p v M) (separate : Separate (terms.blocks M) escaped) :
    Faithful terms escaped M p (toLogicalLocal terms z less escaped cases p) ↔
      (terms.isLogical p).isTrue = true ∨
      (∀ c ∈ cases, (terms.isLogical c.1).isTrue = true ∨ c.2.isFalse = true) ∨
      (terms.meaning.value p M).isLogical = false ∨
      (∃ c ∈ cases, c.2.truth M = true ∧ (terms.isLogical c.1).isTrue = false) ∧
        ∃ i ∈ escaped,
          (terms.blocks M).Inside i (terms.meaning.value p M).getPhysicalAddress := by
  have v_sorted : terms.meaning.Sorted v := by
    obtain ⟨d, member, _⟩ := split.member
    exact split.sorted (v, d) member
  have taken : (∃ c ∈ cases, c.2.truth M = true ∧ (terms.isLogical c.1).isTrue = false) ↔
      (terms.isLogical v).isTrue = false := by
    constructor
    · rintro ⟨c, member, holds, unknown⟩
      have chosen : c.1 ∈ picked M cases := mem_picked.2 ⟨c.2, member, holds⟩
      rw [split.single, List.mem_singleton] at chosen
      rwa [chosen] at unknown
    · intro unknown
      obtain ⟨d, member, holds⟩ := split.member
      exact ⟨(v, d), member, holds, unknown⟩
  rw [taken]
  unfold toLogicalLocal
  by_cases known : (terms.isLogical p).isTrue = true
  · rw [if_pos known, faithful_of_logical (isLogical_of_isTrue sorted known M) rfl]
    exact iff_of_true (Expr.truth_bool M true) (.inl known)
  rw [if_neg known]
  dsimp only
  rw [← mixed]
  set leftover := (DisjointExpr.mk DomainMap.empty none).addEach less (mixed terms cases)
    with leftover_eq
  have none_yet : Conditions (DomainMap.empty : DomainMap T).entries :=
    fun entry member => absurd member List.not_mem_nil
  have mixed_conditions : Conditions (mixed terms cases) :=
    fun c member => split.conditions c (List.mem_filter.1 member).1
  have conditions : Conditions leftover.vals.entries :=
    DisjointExpr.conditions_addEach none_yet mixed_conditions
  have sorts : ∀ t ∈ leftover.vals.entries.map Prod.fst, terms.meaning.Sorted t := by
    intro t member
    rcases DisjointExpr.mem_addEach member with inside | before
    · obtain ⟨c, in_mixed, rfl⟩ := List.mem_map.1 inside
      exact split.sorted c (List.mem_filter.1 in_mixed).1
    · cases before
  have entries : picked M leftover.vals.entries =
      if (terms.isLogical v).isTrue then [] else [v] := by
    have few : (picked M (mixed terms cases ++
        (DomainMap.empty : DomainMap T).entries)).length ≤ 1 := by
      rw [DomainMap.entries_empty, List.append_nil, picked_mixed split]
      split <;> simp
    have added : picked M leftover.vals.entries =
        picked M (mixed terms cases ++ (DomainMap.empty : DomainMap T).entries) :=
      DisjointExpr.picked_addEach none_yet mixed_conditions few
    rw [added, DomainMap.entries_empty, List.append_nil, picked_mixed split]
  by_cases empty : leftover.vals.entries = []
  · -- every case that may be taken is known to be logical
    have all_known : ∀ c ∈ cases, (terms.isLogical c.1).isTrue = true ∨ c.2.isFalse = true := by
      have nothing := (DisjointExpr.addEach_eq_nil.1 (leftover_eq ▸ empty)).2
      intro c member
      by_cases logical : (terms.isLogical c.1).isTrue = true
      · exact .inl logical
      · exact .inr (nothing c (List.mem_filter.2 ⟨member, by simpa using logical⟩))
    have v_known : (terms.isLogical v).isTrue = true := by
      by_contra unknown
      rw [empty, if_neg unknown] at entries
      cases entries
    have logical : (terms.meaning.value p M).isLogical = true := by
      rw [← split.value]
      exact isLogical_of_isTrue v_sorted v_known M
    rw [DisjointExpr.toValue_of_nil empty, leftover_eq, DisjointExpr.defaultVal_addEach]
    rw [faithful_of_logical logical rfl]
    exact iff_of_true (Expr.truth_bool M true) (.inr (.inl all_known))
  · have some_mixed : ¬∀ c ∈ cases, (terms.isLogical c.1).isTrue = true ∨ c.2.isFalse = true := by
      intro all_known
      refine empty (DisjointExpr.addEach_eq_nil.2 ⟨rfl, fun c member => ?_⟩)
      obtain ⟨in_cases, unknown⟩ := List.mem_filter.1 member
      exact (all_known c in_cases).resolve_left (by simpa using unknown)
    obtain ⟨t, t_known, t_sorted⟩ := DisjointExpr.toValue_sorted conditions sorts empty
    have t_value : (terms.isLogical v).isTrue = false →
        terms.meaning.value t M = terms.meaning.value p M := by
      intro unknown
      rw [unknown, if_neg Bool.false_ne_true] at entries
      obtain ⟨t', same, _, value⟩ := DisjointExpr.toValue_of_picked conditions sorts entries
      rw [t_known] at same
      cases same
      exact value.trans split.value
    obtain ⟨ptr_sorted, found_sort, lookup⟩ :=
      findLogicalLocalPointer_spec z less escaped widths t_sorted
    have lookup := lookup M separate
    have domain : (leftover.domain z).HasSort .bool ∧ ∀ M, (leftover.domain z).truth M = true ↔
        picked M leftover.vals.entries ≠ [] := DomainMap.domain_spec z conditions
    rw [t_known]
    dsimp only
    set found := findLogicalLocalPointer terms z less escaped t with found_eq
    have holds : (Expr.and (leftover.domain z) found.2).truth M = true ↔
        (terms.isLogical v).isTrue = false ∧ ∃ i ∈ escaped,
          (terms.blocks M).Inside i (terms.meaning.value p M).getPhysicalAddress := by
      rw [Expr.truth_and_eq domain.1 found_sort, Bool.and_eq_true, domain.2 M, entries, lookup.1]
      cases unknown : (terms.isLogical v).isTrue with
      | true => simp
      | false =>
        rw [t_value unknown]
        simp
    have condition := terms.isLogical_sort sorted
    cases logical : (terms.meaning.value p M).isLogical with
    | true =>
      have same : terms.meaning.value (terms.mkIf (terms.isLogical p) p found.1) M =
          terms.meaning.value p M := by
        rw [terms.meaning.value_mkIf M condition sorted ptr_sorted, terms.isLogical_truth sorted,
          logical, if_pos rfl]
      rw [faithful_of_logical logical same, holds, or_iff_right known, or_iff_right some_mixed,
        or_iff_right Bool.true_eq_false.mp]
    | false =>
      have unknown : (terms.isLogical v).isTrue = false := by
        by_contra v_known
        have v_logical := isLogical_of_isTrue v_sorted (Bool.not_eq_false _ ▸ v_known) M
        rw [split.value, logical] at v_logical
        cases v_logical
      have looked_up : terms.meaning.value (terms.mkIf (terms.isLogical p) p found.1) M =
          terms.meaning.value found.1 M := by
        rw [terms.meaning.value_mkIf M condition sorted ptr_sorted, terms.isLogical_truth sorted,
          logical, if_neg Bool.false_ne_true]
      refine iff_of_true ⟨?_, ?_, ?_⟩ (.inr (.inr (.inl rfl)))
      · rw [logical]
        intro absurdity
        cases absurdity
      · intro _
        rw [holds, and_iff_right unknown]
      · intro _ d_holds
        obtain ⟨i, member, inside⟩ := (holds.1 d_holds).2
        have value := lookup.2 i member (by rw [t_value unknown]; exact inside)
        rw [t_value unknown] at value
        have into := (terms.blocks M).intoBlock_spec widths i
          (terms.meaning.value p M).getPhysicalAddress
        refine ⟨i, member, inside, ?_⟩
        rw [looked_up, value]
        exact into

end

/-! ## A pointer that is logical or physical -/

inductive PtrTerm (l : Layout) where
  | const (p : Pointer l)
  | ite (cond : Expr) (thn els : PtrTerm l)
  deriving DecidableEq

namespace PtrTerm

variable {t : PtrTerm l}

noncomputable def value : PtrTerm l → Model → Pointer l
  | const p, _ => p
  | ite cond thn els, M => if cond.truth M then thn.value M else els.value M

def Sorted : PtrTerm l → Prop
  | const _ => True
  | ite cond thn els => cond.HasSort .bool ∧ thn.Sorted ∧ els.Sorted

def ask (property : Pointer l → Bool) : PtrTerm l → Expr
  | const p => .bool (property p)
  | ite cond thn els => .app .ite [cond, thn.ask property, els.ask property]

def map (f : Pointer l → Pointer l) : PtrTerm l → PtrTerm l
  | const p => const (f p)
  | ite cond thn els => ite cond (thn.map f) (els.map f)

theorem ask_spec (property : Pointer l → Bool) (sorted : t.Sorted) :
    (t.ask property).HasSort .bool ∧ ∀ M, (t.ask property).truth M = property (t.value M) := by
  induction t with
  | const p => exact ⟨Expr.hasSort_bool.2 rfl, fun M => Expr.truth_bool M _⟩
  | ite cond thn els thn_ih els_ih =>
    obtain ⟨condition, thn_sorted, els_sorted⟩ := sorted
    have first := thn_ih thn_sorted
    have second := els_ih els_sorted
    refine ⟨Expr.hasSort_ite.2 ⟨condition, first.1, second.1⟩, fun M => ?_⟩
    rw [ask, Expr.truth_ite, value, first.2, second.2]
    split <;> rfl

theorem map_spec (f : Pointer l → Pointer l)
    (sorted : t.Sorted) : (t.map f).Sorted ∧ ∀ M, (t.map f).value M = f (t.value M) := by
  induction t with
  | const p => exact ⟨trivial, fun _ => rfl⟩
  | ite cond thn els thn_ih els_ih =>
    obtain ⟨condition, thn_sorted, els_sorted⟩ := sorted
    have first := thn_ih thn_sorted
    have second := els_ih els_sorted
    refine ⟨⟨condition, first.1, second.1⟩, fun M => ?_⟩
    rw [map, value, value, first.2, second.2]
    split <;> rfl

noncomputable def terms (blocks : Blocks l) : Terms l (PtrTerm l) where
  mkIf := ite
  meaning :=
    { value := value
      Sorted := Sorted
      sorted_mkIf := fun condition first second => ⟨condition, first, second⟩
      value_mkIf := fun _ _ _ _ => rfl }
  blocks _ := blocks
  isLogical := ask isLogical
  intoBlock t i := t.map fun p => blocks.intoBlock i p.getPhysicalAddress
  inBlock t i := t.ask fun p => blocks.inBlock i p.getPhysicalAddress
  null := const (mkLogical 0 0 0)
  isLogical_sort sorted := (ask_spec _ sorted).1
  isLogical_truth sorted := (ask_spec _ sorted).2
  intoBlock_sort sorted _ := (map_spec _ sorted).1
  intoBlock_value sorted _ := (map_spec _ sorted).2
  inBlock_sort sorted _ := (ask_spec _ sorted).1
  inBlock_truth sorted _ := (ask_spec _ sorted).2
  null_sort := trivial

end PtrTerm

def oneBlock : Blocks smallLayout where
  base _ := 8
  sizeBits := 4
  size _ := 2

def mixedPointer : PtrTerm smallLayout :=
  .ite (.var "c" .bool) (.const (mkLogical 0 3 0)) (.const (mkPhysical rfl 9 0))

def mixedCases : List (PtrTerm smallLayout × Expr) :=
  [(.const (mkLogical 0 3 0), .var "c" .bool),
    (.const (mkPhysical rfl 9 0), .app .not [.var "c" .bool])]

/-- The model with the value of `c`. -/
def choosing (c : Bool) : Model :=
  { (default : Model) with
    var := fun _ s => match s with
      | .bool => c
      | s => s.default }

theorem mixedCases_split (c : Bool) : Split (PtrTerm.terms oneBlock) mixedCases mixedPointer
      (.const (if c then mkLogical 0 3 0 else mkPhysical rfl 9 0)) (choosing c) where
  conditions := by
    intro entry member
    rcases List.mem_pair.1 member with rfl | rfl
    · exact ⟨rfl, rfl⟩
    · exact ⟨rfl, rfl⟩
  sorted := by
    intro entry member
    rcases List.mem_pair.1 member with rfl | rfl
    · exact trivial
    · exact trivial
  single := by
    have chosen : (Expr.var "c" .bool).truth (choosing c) = c := rfl
    unfold mixedCases
    rw [picked_cons, picked_cons, picked_nil]
    simp only [Expr.truth_not, chosen]
    cases c <;> rfl
  value := by
    have chosen : (Expr.var "c" .bool).truth (choosing c) = c := rfl
    change _ = PtrTerm.value mixedPointer (choosing c)
    unfold mixedPointer
    rw [PtrTerm.value, chosen]
    cases c <;> rfl

theorem oneBlock_separate : Separate oneBlock [0] where
  fits i member := by
    rw [List.mem_singleton.1 member]
    unfold Blocks.Fits
    decide
  disjoint := List.pairwise_singleton _ _

theorem mixedPointer_sorted : mixedPointer.Sorted :=
  ⟨⟨rfl, rfl⟩, trivial, trivial⟩

theorem toLogicalLocal_faithful_physical :
    Faithful (PtrTerm.terms oneBlock) [0] (choosing false) mixedPointer
      (toLogicalLocal (PtrTerm.terms oneBlock) Z3.reference (fun _ _ => true) [0] mixedCases
        mixedPointer) :=
  (toLogicalLocal_faithful_iff (le_refl _) mixedPointer_sorted (mixedCases_split false)
    oneBlock_separate).2 (.inr (.inr (.inl rfl)))

/-- Where the pointer is logical, the result says that it is none to a local block. -/
theorem toLogicalLocal_of_mixed :
    ¬∀ (p v : PtrTerm smallLayout) (cases : List (PtrTerm smallLayout × Expr)) (M : Model),
      p.Sorted → Split (PtrTerm.terms oneBlock) cases p v M →
      Faithful (PtrTerm.terms oneBlock) [0] M p
        (toLogicalLocal (PtrTerm.terms oneBlock) Z3.reference (fun _ _ => true) [0] cases p) := by
  intro claim
  have faithful := claim mixedPointer _ mixedCases (choosing true) mixedPointer_sorted
    (mixedCases_split true)
  have logical := (faithful.logical rfl).1
  have known : (toLogicalLocal (PtrTerm.terms oneBlock) Z3.reference (fun _ _ => true) [0]
      mixedCases mixedPointer).2 = .app .not [.var "c" .bool] := by
    decide
  rw [known] at logical
  revert logical
  decide

end AliveNext.IR.Pointer
