import Mathlib

/-!
# Stored bytes of arguments

`Memory::record_store` keeps the set of the elements of non-local blocks that
were written to, and `Memory::hasStored` asks whether a range is in it
(`ir/memory.cpp`). The expressions are given by their values in one model.
-/

namespace AliveNext.IR.HasStored

section

variable (b w unit : Nat)

/-- `has_stored_arg`: the elements by short block id and short offset. -/
abbrev Elements := BitVec b → BitVec w → Bool

/-- A range of bytes behind a pointer. The flags are what the expression simplifier knows. -/
structure Range where
  bid : BitVec b
  offset : BitVec w
  bytes : Nat
  /-- `bytes.isUInt` -/
  isUInt : Bool

/-- A recorded write; `isLocal` is the value of `p.isLocal()`, and `isTrue` tells that it is the
constant true. -/
structure Write extends Range b w where
  isLocal : Bool
  isTrue : Bool
  local_of_isTrue : isTrue = true → isLocal = true

variable {b w}

namespace Range

variable (r : Range b w)

def count : Nat := r.bytes / unit

def enumerated : Bool := r.isUInt && r.count unit ≤ 8

def bytesDiv : BitVec w :=
  (BitVec.ofNat w r.bytes).smtUDiv (BitVec.ofNat w unit)

/-- The `i`-th element. -/
def element (i : Nat) : BitVec w := r.offset + BitVec.ofNat w i

def within (off : BitVec w) : Bool :=
  r.offset ≤ off && off < r.offset + r.bytesDiv unit

end Range

/-- `Memory::record_store`. -/
def recordStore (stored : Elements b w) (p : Write b w) : Elements b w :=
  if p.isTrue then stored
  else if p.enumerated unit then
    (List.range (p.count unit)).foldl
      (fun stored i bid off =>
        if p.isLocal then stored bid off
        else if bid = p.bid ∧ off = p.element i then true else stored bid off)
      stored
  else fun bid off =>
    if p.isLocal then stored bid off
    else (decide (p.bid = bid) && p.within unit off) || stored bid off

/-- `Memory::hasStored` through a non-local pointer; `var` is the quantified offset. -/
def hasStored (stored : Elements b w) (p : Range b w) (var : BitVec w) : Bool :=
  if p.enumerated unit then
    (List.range (p.count unit)).all fun i => stored p.bid (p.element i)
  else !p.within unit var || stored p.bid var

def atEntry : Elements b w := fun _ _ => false

def Write.Writes (p : Write b w) (bid : BitVec b) (off : BitVec w) : Prop :=
  p.isLocal = false ∧ p.bid = bid ∧ ∃ i < p.count unit, off = p.element i

/-- The quantified form is the range: `bytes` still has its value in the width of an offset, and
the end of the range is an offset. -/
def Range.Unwrapped (r : Range b w) : Prop :=
  (r.bytesDiv unit).toNat = r.count unit ∧
    (r.count unit = 0 ∨ r.offset.toNat + r.count unit < 2 ^ w)

def Range.Exact (r : Range b w) : Prop :=
  r.enumerated unit = false → r.Unwrapped unit

end

section

variable {b w unit : Nat} {r : Range b w} {p : Write b w} {stored : Elements b w}
  {bid : BitVec b} {off : BitVec w}

theorem within_iff (off : BitVec w) (unwrapped : r.Unwrapped unit) :
    r.within unit off = true ↔ ∃ i < r.count unit, off = r.element i := by
  obtain ⟨kept, fits⟩ := unwrapped
  unfold Range.within Range.element
  rw [Bool.and_eq_true, decide_eq_true_iff, decide_eq_true_iff, BitVec.le_def, BitVec.lt_def,
    BitVec.toNat_add, kept]
  have := r.offset.isLt
  rcases fits with none | fits
  · rw [none, Nat.add_zero, Nat.mod_eq_of_lt r.offset.isLt]
    constructor
    · omega
    · rintro ⟨i, inside, -⟩
      exact absurd inside (Nat.not_lt_zero i)
  · rw [Nat.mod_eq_of_lt fits]
    constructor
    · rintro ⟨lower, upper⟩
      have index : off.toNat - r.offset.toNat < 2 ^ w := by omega
      refine ⟨off.toNat - r.offset.toNat, by omega, BitVec.eq_of_toNat_eq ?_⟩
      rw [BitVec.toNat_add, BitVec.toNat_ofNat, Nat.mod_eq_of_lt index, Nat.add_sub_cancel' lower,
        Nat.mod_eq_of_lt off.isLt]
    · rintro ⟨i, inside, rfl⟩
      rw [BitVec.toNat_add, BitVec.toNat_ofNat, Nat.mod_eq_of_lt (by omega : i < 2 ^ w),
        Nat.mod_eq_of_lt (by omega)]
      omega

theorem foldl_elements (stored : Elements b w) (bid : BitVec b) (off : BitVec w)
    (nonLocal : p.isLocal = false) (n : Nat) :
    (List.range n).foldl
        (fun (stored : Elements b w) i bid off =>
          if p.isLocal then stored bid off
          else if bid = p.bid ∧ off = p.element i then true else stored bid off)
        stored bid off = true ↔
      (p.bid = bid ∧ ∃ i < n, off = p.element i) ∨ stored bid off = true := by
  induction n with
  | zero => simp
  | succ n ih =>
    rw [List.range_succ, List.foldl_append, List.foldl_cons, List.foldl_nil, nonLocal]
    rw [nonLocal] at ih
    simp only [Bool.false_eq_true, if_false] at ih ⊢
    split
    · next here => exact iff_of_true rfl (.inl ⟨here.1.symm, n, Nat.lt_succ_self n, here.2⟩)
    · next elsewhere =>
        rw [ih]
        refine or_congr_left (and_congr_right fun same => ?_)
        constructor
        · rintro ⟨i, inside, at_i⟩
          exact ⟨i, Nat.lt_succ_of_lt inside, at_i⟩
        · rintro ⟨i, inside, at_i⟩
          rcases Nat.lt_succ_iff_lt_or_eq.1 inside with earlier | rfl
          · exact ⟨i, earlier, at_i⟩
          · exact absurd ⟨same.symm, at_i⟩ elsewhere

theorem foldl_local (stored : Elements b w) (isLocal : p.isLocal = true) (n : Nat) :
    (List.range n).foldl
        (fun (stored : Elements b w) i bid off =>
          if p.isLocal then stored bid off
          else if bid = p.bid ∧ off = p.element i then true else stored bid off)
        stored = stored := by
  induction n with
  | zero => rfl
  | succ n ih =>
    rw [List.range_succ, List.foldl_append, ih]
    exact funext fun bid => funext fun off => if_pos isLocal

theorem recordStore_iff (recorded : p.isLocal = true ∨ p.Exact unit) :
    recordStore unit stored p bid off = true ↔ p.Writes unit bid off ∨ stored bid off = true := by
  unfold recordStore Write.Writes
  cases here : p.isLocal with
  | true =>
    have unchanged : ¬(true = false ∧ p.bid = bid ∧
        ∃ i < p.count unit, off = p.element i) := fun both => absurd both.1 (by decide)
    rw [or_iff_right unchanged]
    split
    · rfl
    · split
      · have same := foldl_local stored here (p.count unit)
        simp only [here, if_true] at same
        simp only [if_true, same]
      · simp
  | false =>
    have notTrue : p.isTrue ≠ true := fun isTrue => by
      rw [p.local_of_isTrue isTrue] at here
      cases here
    have formExact := recorded.resolve_left (by rw [here]; decide)
    rw [if_neg notTrue]
    split
    · next enumerated =>
        have elements := foldl_elements stored bid off here (p.count unit)
        simp only [here] at elements
        rw [elements]
        simp only [true_and]
    · next lambda =>
        have range := within_iff off (formExact (Bool.eq_false_of_not_eq_true lambda))
        simp only [Bool.false_eq_true, if_false, Bool.or_eq_true, Bool.and_eq_true,
          decide_eq_true_iff, range, true_and]

theorem run_iff (run : List (Write b w)) (recorded : ∀ p ∈ run, p.isLocal = true ∨ p.Exact unit) :
    run.foldl (recordStore unit) atEntry bid off = true ↔ ∃ p ∈ run, p.Writes unit bid off := by
  induction run using List.reverseRecOn with
  | nil => simp [atEntry]
  | append_singleton run p ih =>
    rw [List.foldl_append, List.foldl_cons, List.foldl_nil,
      recordStore_iff (recorded p (List.mem_append_right _ (List.mem_singleton_self p))),
      ih fun other member => recorded other (List.mem_append_left _ member)]
    constructor
    · rintro (here | ⟨other, member, writes⟩)
      · exact ⟨p, List.mem_append_right _ (List.mem_singleton_self p), here⟩
      · exact ⟨other, List.mem_append_left _ member, writes⟩
    · rintro ⟨other, member, writes⟩
      rcases List.mem_append.1 member with earlier | last
      · exact .inr ⟨other, earlier, writes⟩
      · cases List.mem_singleton.1 last
        exact .inl writes

theorem hasStored_iff (formExact : r.Exact unit) : (∀ var, hasStored unit stored r var = true) ↔
      ∀ i < r.count unit, stored r.bid (r.element i) = true := by
  unfold hasStored
  split
  · simp only [List.all_eq_true, List.mem_range, forall_const]
  · next lambda =>
      have range (off : BitVec w) := within_iff off
        (formExact (Bool.eq_false_of_not_eq_true lambda))
      simp only [Bool.or_eq_true, Bool.not_eq_true', ← Bool.not_eq_true, range]
      constructor
      · intro all i inside
        exact (all (r.element i)).resolve_left fun outside => outside ⟨i, inside, rfl⟩
      · intro all var
        by_cases inside : ∃ i < r.count unit, var = r.element i
        · obtain ⟨i, less, rfl⟩ := inside
          exact .inr (all i less)
        · exact .inl inside

/-- After a run of writes, `hasStored` is true if and only if every element of the range was
written to, if the writes and the query are enumerated or do not wrap. -/
theorem hasStored_iff_written
    (run : List (Write b w)) (r : Range b w) (recorded : ∀ p ∈ run, p.isLocal = true ∨ p.Exact unit)
    (asked : r.Exact unit) :
    (∀ var, hasStored unit (run.foldl (recordStore unit) atEntry) r var = true) ↔
      ∀ i < r.count unit, ∃ p ∈ run, p.Writes unit r.bid (r.element i) := by
  rw [hasStored_iff asked]
  exact forall₂_congr fun i _ => run_iff run recorded

end

def write (offset bytes : Nat) (isUInt : Bool) : Write 1 9 where
  bid := 0
  offset := BitVec.ofNat 9 offset
  bytes := bytes
  isUInt := isUInt
  isLocal := false
  isTrue := false
  local_of_isTrue := id

theorem hasStored_iff_written_adjacent :
    (⟨0, BitVec.ofNat 9 4, 64, true⟩ : Range 1 9).count 8 = 8 ∧
      ∀ var, hasStored 8 ([write 3 64 false, write 11 16 true].foldl (recordStore 8) atEntry)
        ⟨0, BitVec.ofNat 9 4, 64, true⟩ var = true := by
  refine ⟨by decide, ?_⟩
  refine (hasStored_iff_written [write 3 64 false, write 11 16 true] _ ?_ ?_).2 ?_
  · unfold Range.Exact Range.Unwrapped
    decide
  · unfold Range.Exact Range.Unwrapped
    decide
  · intro i inside
    by_cases first : i < 7
    · exact ⟨write 3 64 false, List.mem_cons_self, rfl, rfl, i + 1, by
        change i + 1 < 8
        omega, by
        interval_cases i <;> decide⟩
    · have inside : i < 8 := inside
      have last : i = 7 := by omega
      subst last
      exact ⟨write 11 16 true, List.mem_cons_of_mem _ List.mem_cons_self, rfl, rfl, 0, by decide,
        by decide⟩

/-- A write of 2040 bytes, 255 elements of 8 bytes: `bytes` is cut to 9 bits before the division,
and 63 elements are recorded. -/
theorem hasStored_cuts_length :
    ¬∀ (unit : Nat) (run : List (Write 1 9)) (r : Range 1 9),
      (∀ var, hasStored unit (run.foldl (recordStore unit) atEntry) r var = true) ↔
        ∀ i < r.count unit, ∃ p ∈ run, p.Writes unit r.bid (r.element i) := by
  intro claim
  have stored := (claim 8 [write 0 2040 true] ⟨0, BitVec.ofNat 9 100, 8, true⟩).2 fun i inside =>
    ⟨write 0 2040 true, List.mem_singleton_self _, rfl, rfl, 100 + i, by
      change i < 1 at inside
      change 100 + i < 255
      omega, by
      change i < 1 at inside
      interval_cases i
      decide⟩
  exact absurd (stored 0) (by decide)

end AliveNext.IR.HasStored
