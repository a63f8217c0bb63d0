import Mathlib

/-!
# Bit strings

Bit-vectors of any width, lowest bit first, with the operations of the SMT-LIB
theory that a memory layout needs: concatenation, extraction and constants.  A
layout is a concatenation of segments, and reading one is an extraction at the
sum of the widths below it.
-/

namespace AliveNext

universe u

abbrev Bits := List Bool

namespace Bits

/-- The bits of `high` above those of `low`. -/
def concat (high low : Bits) : Bits :=
  low ++ high

/-- The `width` bits from position `low` on. -/
def slice (x : Bits) (low width : Nat) : Bits :=
  (x.drop low).take width

def ofNat (n width : Nat) : Bits :=
  (List.range width).map n.testBit

/-- The constant `0`. -/
def zeros (width : Nat) : Bits :=
  List.replicate width false

/-- The constant `-1`. -/
def ones (width : Nat) : Bits :=
  List.replicate width true

/-- Whether the bit-vector is `-1`. -/
def isOnes (x : Bits) : Bool :=
  x.all id

def bit (x : Bits) (i : Nat) : Bool :=
  x[i]?.getD false

def and (x y : Bits) : Bits :=
  List.zipWith (· && ·) x y

@[simp]
theorem length_ofNat (n width : Nat) : (ofNat n width).length = width := by
  simp [ofNat]

@[simp]
theorem length_zeros (width : Nat) : (zeros width).length = width :=
  List.length_replicate

@[simp]
theorem length_ones (width : Nat) : (ones width).length = width :=
  List.length_replicate

@[simp]
theorem length_concat (high low : Bits) : (concat high low).length = low.length + high.length :=
  List.length_append

variable {x y segment : Bits} {low width i : Nat} {segments : List Bits}

theorem length_slice (fits : low + width ≤ x.length) : (slice x low width).length = width := by
  rw [slice, List.length_take, List.length_drop]
  omega

theorem slice_append_right (x y : Bits) (low width : Nat) :
    slice (x ++ y) (x.length + low) width = slice y low width := by
  rw [slice, slice, ← List.drop_drop, List.drop_left]

theorem slice_above (start : x.length = low) (width : Nat) :
    slice (x ++ y) low width = slice y 0 width := by
  rw [← start]
  exact slice_append_right x y 0 width

theorem slice_first (size : x.length = width) : slice (x ++ y) 0 width = x := by
  rw [slice, List.drop_zero, ← size, List.take_left]

theorem slice_whole (size : x.length = width) : slice x 0 width = x := by
  rw [slice, List.drop_zero, ← size, List.take_length]

theorem slice_slice {inner outer : Nat} (le : inner ≤ outer) :
    slice (slice x 0 outer) 0 inner = slice x 0 inner := by
  rw [slice, slice, slice, List.drop_zero, List.drop_zero, List.take_take, Nat.min_eq_left le]

theorem isOnes_replicate (positive : 0 < width) (b : Bool) :
    isOnes (List.replicate width b) = b := by
  cases b with
  | true => simp [isOnes]
  | false =>
    obtain ⟨n, rfl⟩ := Nat.exists_eq_succ_of_ne_zero (Nat.pos_iff_ne_zero.1 positive)
    simp [isOnes, List.replicate_succ]

theorem ones_and (size : x.length = width) : and (ones width) x = x := by
  subst size
  induction x with
  | nil => rfl
  | cons b x ih =>
    rw [List.length_cons, ones, List.replicate_succ, and, List.zipWith_cons_cons, Bool.true_and]
    exact congrArg (b :: ·) ih

theorem bit_eq_getElem (inside : i < x.length) : bit x i = x[i] := by
  rw [bit, List.getElem?_eq_getElem inside, Option.getD_some]

theorem ext_bit (size : x.length = width) (size' : y.length = width)
    (same : ∀ i < width, bit x i = bit y i) : x = y := by
  refine List.ext_getElem (size.trans size'.symm) fun i inside inside' => ?_
  rw [← bit_eq_getElem inside, ← bit_eq_getElem inside']
  exact same i (by omega)

theorem bit_slice (inside : i < width) : bit (slice x low width) i = bit x (low + i) := by
  rw [bit, bit, slice, List.getElem?_take_of_lt inside, List.getElem?_drop]

theorem bit_zeros (width i : Nat) : bit (zeros width) i = false := by
  unfold bit zeros
  rw [List.getElem?_replicate]
  split <;> rfl

theorem bit_replicate (b : Bool) (inside : i < width) : bit (List.replicate width b) i = b := by
  rw [bit, List.getElem?_replicate, if_pos inside, Option.getD_some]

theorem bit_and (size : x.length = width) (size' : y.length = width)
    (inside : i < width) : bit (and x y) i = (bit x i && bit y i) := by
  have first : i < x.length := by omega
  have second : i < y.length := by omega
  rw [bit_eq_getElem first, bit_eq_getElem second, bit, and,
    List.getElem?_eq_getElem (by rw [List.length_zipWith]; omega), Option.getD_some,
    List.getElem_zipWith]

theorem length_and (size : x.length = width) (size' : y.length = width) :
    (and x y).length = width := by
  rw [and, List.length_zipWith, size, size', Nat.min_self]

theorem isOnes_iff (size : x.length = width) : isOnes x = true ↔ ∀ i < width, bit x i = true := by
  unfold isOnes
  rw [List.all_eq_true]
  constructor
  · intro all i inside
    rw [bit_eq_getElem (by omega)]
    exact all _ (List.getElem_mem _)
  · intro all b member
    obtain ⟨i, inside, rfl⟩ := List.getElem_of_mem member
    rw [← bit_eq_getElem inside]
    exact all i (by omega)

theorem foldr_ofNat (n width : Nat) :
    (ofNat n width).foldr (fun bit n => 2 * n + bit.toNat) 0 = n % 2 ^ width := by
  induction width generalizing n with
  | zero => simp [ofNat, Nat.mod_one]
  | succ width ih =>
    have shifted : ofNat n (width + 1) = n.testBit 0 :: ofNat (n / 2) width := by
      rw [ofNat, ofNat, List.range_succ_eq_map, List.map_cons, List.map_map]
      congr 1
      refine List.map_congr_left fun i _ => ?_
      exact Nat.testBit_succ n i
    rw [shifted, List.foldr_cons, ih, Nat.pow_succ', Nat.mod_mul, Nat.testBit_zero]
    have low : (decide (n % 2 = 1)).toNat = n % 2 := by
      rcases Nat.mod_two_eq_zero_or_one n with bit | bit <;> rw [bit] <;> rfl
    rw [low, Nat.add_comm]

theorem ofNat_eq_iff {m n : Nat} :
    ofNat m width = ofNat n width ↔ m % 2 ^ width = n % 2 ^ width := by
  constructor
  · intro same
    rw [← foldr_ofNat m, ← foldr_ofNat n, same]
  · intro same
    refine List.map_congr_left fun i member => ?_
    have bit := congrArg (fun x => x.testBit i) same
    rwa [Nat.testBit_mod_two_pow, Nat.testBit_mod_two_pow,
      decide_eq_true (List.mem_range.1 member), Bool.true_and, Bool.true_and] at bit

theorem slice_flatten (found : segments[i]? = some segment) :
    slice segments.flatten ((segments.take i).map List.length).sum segment.length = segment := by
  induction segments generalizing i with
  | nil => cases found
  | cons first rest ih =>
    cases i with
    | zero =>
      cases found
      exact slice_first rfl
    | succ i =>
      rw [List.flatten_cons, List.take_succ_cons, List.map_cons, List.sum_cons, slice_append_right]
      exact ih found

theorem slice_flatten_uniform (uniform : ∀ x ∈ segments, x.length = width)
    (found : segments[i]? = some segment) : slice segments.flatten (i * width) width = segment := by
  have in_range := (List.getElem?_eq_some_iff.1 found).1
  have before : ((segments.take i).map List.length).sum = i * width := by
    have widths : (segments.take i).map List.length = List.replicate i width := by
      rw [List.eq_replicate_iff]
      refine ⟨by simp [Nat.min_eq_left (Nat.le_of_lt in_range)], ?_⟩
      intro x member
      obtain ⟨y, taken, rfl⟩ := List.mem_map.1 member
      exact uniform y (List.mem_of_mem_take taken)
    rw [widths]
    simp
  have here := slice_flatten found
  rwa [before, uniform segment (List.mem_of_getElem? found)] at here

theorem flatten_slices (x : Bits) (width count : Nat) :
    ((List.range count).map fun i => slice x (i * width) width).flatten =
      slice x 0 (count * width) := by
  induction count with
  | zero => simp [slice]
  | succ count ih =>
    rw [List.range_succ, List.map_append, List.flatten_append, ih, Nat.succ_mul]
    simp only [List.map_cons, List.map_nil, List.flatten_cons, List.flatten_nil, List.append_nil,
      slice, List.drop_zero]
    rw [List.take_add]

theorem flatten_slices_from (x : Bits) (width first count : Nat) :
    ((List.range count).map fun i => slice x ((first + i) * width) width).flatten =
      slice x (first * width) (count * width) := by
  have shifted : ∀ i, slice x ((first + i) * width) width =
      slice (x.drop (first * width)) (i * width) width := by
    intro i
    rw [slice, slice, List.drop_drop, ← Nat.add_mul]
  simp only [shifted]
  rw [flatten_slices, slice, slice, List.drop_zero]

theorem slice_replicate {count : Nat} (b : Bool) (fits : low + width ≤ count) :
    slice (List.replicate count b) low width = List.replicate width b := by
  rw [slice, List.drop_replicate, List.take_replicate, Nat.min_eq_left (by omega)]

end Bits

end AliveNext
