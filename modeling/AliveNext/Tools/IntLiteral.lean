import Mathlib

/-!
# Integer literals

A literal of a file goes through `strtoull` in the lexer (`tools/alive_lexer.re`), becomes a
number or stays a text, and ends as an `IntConst` (`tools/alive_parser.cpp`,
`ir/constant.cpp`).
-/

namespace AliveNext.Tools.IntLiteral

def digitValue (c : Char) : Nat :=
  if '0' ≤ c ∧ c ≤ '9' then c.toNat - 48
  else if 'a' ≤ c ∧ c ≤ 'z' then c.toNat - 87
  else if 'A' ≤ c ∧ c ≤ 'Z' then c.toNat - 55
  else 36

def ofDigits (base : Nat) (digits : List Char) : Nat :=
  digits.foldl (fun n c => base * n + digitValue c) 0

/-- What the rules for `NUM` match: a decimal literal with a sign, or a hexadecimal one. -/
structure Literal where
  hex : Bool
  negative : Bool
  digits : List Char
  some_digit : digits ≠ []
  valid : ∀ c ∈ digits, digitValue c < if hex then 16 else 10
  unsigned : hex = true → negative = false

namespace Literal

def base (l : Literal) : Nat := if l.hex then 16 else 10

def text (l : Literal) : List Char :=
  (if l.negative then ['-'] else []) ++ (if l.hex then ['0', 'x'] else []) ++ l.digits

def magnitude (l : Literal) : Nat := ofDigits l.base l.digits

def value (l : Literal) : Int := if l.negative then -l.magnitude else l.magnitude

end Literal

/-- `strtoull`, with `errno == ERANGE` before and after. The rules match no blanks and no
plus sign. -/
def strtoull (erange : Bool) (s : List Char) (base : Nat) : Nat × Bool :=
  let negative := s.head? = some '-'
  let s := if negative then s.tail else s
  let s := if base = 16 then match s with
    | '0' :: 'x' :: s => s
    | s => s
  else s
  let n := ofDigits base (s.takeWhile fun c => digitValue c < base)
  if 2 ^ 64 ≤ n then (2 ^ 64 - 1, true)
  else (if negative then (2 ^ 64 - n) % 2 ^ 64 else n, erange)

/-- The tokens `NUM` and `NUM_STR`. -/
inductive Token where
  | num (num : Nat)
  | numStr (str : List Char)

/-- The rules of the lexer, where the input goes on with `rest`. -/
def yylex (erange : Bool) (l : Literal) (rest : List Char) : Token × Bool :=
  let (num, erange) := strtoull erange (l.text ++ rest) l.base
  if num = 2 ^ 64 - 1 ∧ erange then (.numStr l.text, erange) else (.num num, erange)

inductive IntConst where
  | int (val : BitVec 64)
  | str (val : List Char)

/-- `get_constant` and `get_num_constant`. -/
def getConstant : Token → IntConst
  | .num n => .int (BitVec.ofNat 64 n)
  | .numStr s => .str s

structure IntType where
  width : Nat
  defined : Bool
  positive : 0 < width
  bounded : defined = false → width ≤ 64

/-- `IntType::sizeVar`, of `var_bw_bits` bits. -/
def IntType.sizeVar (ty : IntType) : Nat := ty.width % 2 ^ 11

/-- `std::countl_zero`. -/
def countlZero (n : BitVec 64) : Nat := 64 - n.toNat.size

def numSignBits (n : BitVec 64) : Nat := max (countlZero n) (countlZero (~~~n)) - 1

/-- `min_bits` of `IntConst::getTypeConstraints`. -/
def minBits : IntConst → Nat
  | .int v => (if v.msb then 64 else 63) - numSignBits v
  | .str _ => 0

/-- `IntConst::getTypeConstraints`. -/
def getTypeConstraints (c : IntConst) (ty : IntType) : Bool :=
  ty.sizeVar ≠ 0 && (ty.defined || ty.sizeVar ≤ 64) && minBits c ≤ ty.sizeVar

/-- `IntConst::toSMT`, where `numeral` is what Z3 reads in a text. -/
def toSMT (numeral : List Char → Option Int) (c : IntConst) (width : Nat) : Option (BitVec width) :=
  match c with
  | .int v => some (BitVec.ofInt width v.toInt)
  | .str s => (numeral s).map (BitVec.ofInt width)

structure Numerals (numeral : List Char → Option Int) : Prop where
  decimal : ∀ l : Literal, l.hex = false → numeral l.text = some l.value
  hexadecimal : ∀ l : Literal, l.hex = true → numeral l.text = none

def Representable (value : Int) (width : Nat) : Prop :=
  (0 ≤ value ∧ value < 2 ^ width) ∨ (-2 ^ (width - 1) ≤ value ∧ value < 2 ^ (width - 1))

/-- Where the constraint admits the type, the constant is the value of the literal; and it
admits the types in which the literal is representable. -/
structure Means (numeral : List Char → Option Int) (l : Literal) (c : IntConst) (ty : IntType) :
    Prop where
  value : getTypeConstraints c ty = true →
    toSMT numeral c ty.width = some (BitVec.ofInt ty.width l.value)
  admits : Representable l.value ty.width → getTypeConstraints c ty = true

def IsText (erange : Bool) (l : Literal) : Prop :=
  2 ^ 64 ≤ l.magnitude ∨ (erange = true ∧ (l.value = -1 ∨ l.value = 2 ^ 64 - 1))

def Fits (value : Int) (size : Nat) : Prop :=
  size ≠ 0 ∧ ((0 ≤ value ∧ value < 2 ^ size) ∨ (value < 0 ∧ -2 ^ (size - 1) ≤ value))

/-- When the literal means what it says. The width counts modulo `2 ^ 11`. -/
def Condition (erange : Bool) (l : Literal) (ty : IntType) : Prop :=
  (IsText erange l → if l.hex then ty.sizeVar = 0 ∧ ¬Representable l.value ty.width
    else Representable l.value ty.width → ty.sizeVar ≠ 0) ∧
  (¬IsText erange l → ty.width ≤ 64 ∨
    (-2 ^ 63 ≤ l.value ∧ l.value < 2 ^ 63 ∧ Fits l.value ty.sizeVar))

section

variable {l : Literal} {rest : List Char} {erange : Bool}

def Ends (l : Literal) (rest : List Char) : Prop :=
  ∀ c ∈ rest.head?, l.base ≤ digitValue c

theorem takeWhile_digits (ends : Ends l rest) :
    (l.digits ++ rest).takeWhile (fun c => digitValue c < l.base) = l.digits := by
  have digit : ∀ c ∈ l.digits, decide (digitValue c < l.base) = true := fun c member =>
    decide_eq_true (l.valid c member)
  rw [List.takeWhile_append_of_pos digit]
  cases rest with
  | nil => rw [List.takeWhile_nil, List.append_nil]
  | cons c rest =>
    have stop : ¬decide (digitValue c < l.base) = true := by
      rw [decide_eq_true_iff]
      exact not_lt.2 (ends c rfl)
    rw [List.takeWhile_cons_of_neg (p := fun c => decide (digitValue c < l.base)) stop,
      List.append_nil]

theorem head_ne_minus : (l.digits ++ rest).head? ≠ some '-' := by
  cases shape : l.digits with
  | nil => exact absurd shape l.some_digit
  | cons c digits =>
    intro minus
    have digit := l.valid c (by rw [shape]; exact List.mem_cons_self)
    cases minus
    have large : digitValue '-' = 36 := by decide
    rw [large] at digit
    split at digit <;> omega

theorem strtoull_text (ends : Ends l rest) : strtoull erange (l.text ++ rest) l.base =
      if 2 ^ 64 ≤ l.magnitude then (2 ^ 64 - 1, true)
      else (if l.negative then (2 ^ 64 - l.magnitude) % 2 ^ 64 else l.magnitude, erange) := by
  have digits := takeWhile_digits ends
  unfold strtoull Literal.text Literal.magnitude
  cases hex : l.hex with
  | true =>
    have base : l.base = 16 := by rw [Literal.base, hex]; rfl
    rw [base] at digits
    rw [l.unsigned hex, base]
    simp [digits]
  | false =>
    have base : l.base = 10 := by rw [Literal.base, hex]; rfl
    rw [base] at digits
    rw [base]
    cases negative : l.negative with
    | true => simp [digits]
    | false =>
      have plain : (l.digits ++ rest).head? ≠ some '-' := head_ne_minus
      simp only [Bool.false_eq_true, if_false, List.nil_append, if_neg plain]
      simp [digits]

theorem value_eq_neg_one : l.value = -1 ↔ l.negative = true ∧ l.magnitude = 1 := by
  unfold Literal.value
  cases l.negative <;> simp

theorem value_eq_max : l.value = 2 ^ 64 - 1 ↔ l.negative = false ∧ l.magnitude = 2 ^ 64 - 1 := by
  unfold Literal.value
  cases l.negative <;> simp <;> omega

def number (l : Literal) : Nat :=
  if l.negative then (2 ^ 64 - l.magnitude) % 2 ^ 64 else l.magnitude

theorem number_eq_max (small : l.magnitude < 2 ^ 64) :
    number l = 2 ^ 64 - 1 ↔ l.value = -1 ∨ l.value = 2 ^ 64 - 1 := by
  rw [value_eq_neg_one, value_eq_max, number]
  cases l.negative with
  | true =>
    rcases Nat.eq_zero_or_pos l.magnitude with zero | positive
    · simp [zero]
    · rw [if_pos rfl, Nat.mod_eq_of_lt (by omega)]
      simp
      omega
  | false => simp

theorem number_modEq (small : l.magnitude < 2 ^ 64) : (number l : Int) ≡ l.value [ZMOD 2 ^ 64] := by
  rw [number, Literal.value]
  cases l.negative with
  | true =>
    rw [if_pos rfl, if_pos rfl, Int.natCast_mod, Nat.cast_sub small.le]
    refine (Int.mod_modEq _ _).trans ?_
    push_cast
    exact Int.modEq_iff_dvd.2 ⟨-1, by ring⟩
  | false => exact Int.ModEq.refl _

theorem yylex_eq (erange : Bool) (ends : Ends l rest) :
    ((yylex erange l rest).1 = .numStr l.text ∧ IsText erange l) ∨
      ((yylex erange l rest).1 = .num (number l) ∧ l.magnitude < 2 ^ 64 ∧ ¬IsText erange l) := by
  unfold yylex IsText
  rw [strtoull_text ends]
  by_cases large : 2 ^ 64 ≤ l.magnitude
  · rw [if_pos large]
    exact .inl ⟨rfl, .inl large⟩
  · have small := not_le.1 large
    rw [if_neg large, ← number_eq_max small]
    change ((if number l = 2 ^ 64 - 1 ∧ erange = true then _ else _ : Token × Bool).1 = _ ∧ _) ∨
      ((if number l = 2 ^ 64 - 1 ∧ erange = true then _ else _ : Token × Bool).1 = _ ∧ _)
    by_cases text : number l = 2 ^ 64 - 1 ∧ erange = true
    · rw [if_pos text]
      exact .inl ⟨rfl, .inr ⟨text.2, text.1⟩⟩
    · rw [if_neg text]
      exact .inr ⟨rfl, small, fun either => either.elim large fun both => text ⟨both.2, both.1⟩⟩

end

section

variable {v : BitVec 64} {size : Nat}

theorem countlZero_eq_zero (top : v.msb = true) : countlZero v = 0 := by
  rw [BitVec.msb_eq_decide, decide_eq_true_iff] at top
  have size : 63 < v.toNat.size := Nat.lt_size.2 top
  unfold countlZero
  omega

/-- The width that `min_bits` asks for is the least one at which the number fits. -/
theorem minBits_le_iff (some : size ≠ 0) : minBits (.int v) ≤ size ↔ Fits v.toInt size := by
  have bits : minBits (.int v) = (if v.msb then 64 else 63) -
      (max (countlZero v) (countlZero (~~~v)) - 1) := rfl
  rw [bits]
  unfold Fits
  cases top : v.msb with
  | false =>
    have value := BitVec.toInt_eq_toNat_of_msb top
    have other : countlZero (~~~v) = 0 := countlZero_eq_zero (by rw [BitVec.msb_not, top]; rfl)
    rw [BitVec.msb_eq_decide, decide_eq_false_iff_not, not_le] at top
    have short : v.toNat.size ≤ 63 := Nat.size_le.2 top
    have least : 63 - (max (countlZero v) 0 - 1) = v.toNat.size := by
      unfold countlZero
      omega
    rw [other, if_neg Bool.false_ne_true, least, Nat.size_le, value]
    have bound : v.toNat < 2 ^ size ↔ (v.toNat : Int) < 2 ^ size := by
      exact_mod_cast Iff.rfl
    omega
  | true =>
    have value := BitVec.toInt_eq_toNat_cond v
    have zero := countlZero_eq_zero top
    rw [BitVec.msb_eq_decide, decide_eq_true_iff] at top
    have word := v.isLt
    have flipped : (~~~v).toNat = 2 ^ 64 - 1 - v.toNat := BitVec.toNat_not
    have short : (~~~v).toNat.size ≤ 63 := Nat.size_le.2 (by omega)
    have least : 64 - (max 0 (countlZero (~~~v)) - 1) = (~~~v).toNat.size + 1 := by
      unfold countlZero
      omega
    rw [if_neg (by omega)] at value
    rw [zero, if_pos rfl, least, Nat.add_one_le_iff, Nat.lt_iff_le_pred (Nat.pos_of_ne_zero some),
      Nat.size_le, flipped, value]
    have bound : 2 ^ 64 - 1 - v.toNat < 2 ^ (size - 1) ↔
        ((2 ^ 64 - 1 - v.toNat : Nat) : Int) < 2 ^ (size - 1) := by exact_mod_cast Iff.rfl
    rw [bound, Nat.cast_sub (by omega : v.toNat ≤ 2 ^ 64 - 1)]
    push_cast
    omega

theorem getTypeConstraints_iff {c : IntConst} {ty : IntType} :
    getTypeConstraints c ty = true ↔ ty.sizeVar ≠ 0 ∧ minBits c ≤ ty.sizeVar := by
  have small : ty.defined = true ∨ ty.sizeVar ≤ 64 := by
    cases given : ty.defined with
    | true => exact .inl rfl
    | false => exact .inr ((Nat.mod_le _ _).trans (ty.bounded given))
  unfold getTypeConstraints
  simp only [Bool.and_eq_true, Bool.or_eq_true, decide_eq_true_iff, small, and_true]

theorem sizeVar_of_le {ty : IntType} (short : ty.width ≤ 64) : ty.sizeVar = ty.width :=
  Nat.mod_eq_of_lt (by omega)

end

section

variable {l : Literal} {ty : IntType} {numeral : List Char → Option Int} {width : Nat}

theorem ofInt_eq_iff
    {a b : Int} : BitVec.ofInt width a = BitVec.ofInt width b ↔ a ≡ b [ZMOD 2 ^ width] := by
  have positive : (0 : Int) < 2 ^ width := by positivity
  rw [← BitVec.toNat_inj, BitVec.toNat_ofInt, BitVec.toNat_ofInt, Int.ModEq]
  push_cast
  have left := Int.emod_nonneg a positive.ne'
  have right := Int.emod_nonneg b positive.ne'
  omega

def word (l : Literal) : BitVec 64 := BitVec.ofNat 64 (number l)

variable (small : l.magnitude < 2 ^ 64)

include small

theorem word_modEq : (word l).toInt ≡ l.value [ZMOD 2 ^ 64] := by
  have value : (word l).toInt ≡ (number l : Int) [ZMOD 2 ^ 64] := by
    rw [word, BitVec.toInt_ofNat']
    exact Int.bmod_emod
  exact value.trans (number_modEq small)

theorem value_bounds : -2 ^ 64 < l.value ∧ l.value < 2 ^ 64 := by
  have cast : (l.magnitude : Int) < 2 ^ 64 := by exact_mod_cast small
  unfold Literal.value
  split <;> constructor <;> omega

theorem word_cases : (-2 ^ 63 ≤ l.value ∧ l.value < 2 ^ 63 ∧ (word l).toInt = l.value) ∨
      (2 ^ 63 ≤ l.value ∧ (word l).toInt = l.value - 2 ^ 64) ∨
      (l.value < -2 ^ 63 ∧ (word l).toInt = l.value + 2 ^ 64) := by
  have bounds := value_bounds small
  have low : -2 ^ 63 ≤ (word l).toInt := BitVec.le_toInt (word l)
  have high : (word l).toInt < 2 ^ 63 := BitVec.toInt_lt
  obtain ⟨k, same⟩ := Int.modEq_iff_dvd.1 (word_modEq small)
  have times : k = -1 ∨ k = 0 ∨ k = 1 := by omega
  rcases times with rfl | rfl | rfl <;> omega

theorem means_short (short : ty.width ≤ 64) : Means numeral l (.int (word l)) ty := by
  have cases := word_cases small
  refine ⟨fun _ => ?_, fun representable => getTypeConstraints_iff.2 ?_⟩
  · refine congrArg some (ofInt_eq_iff.2 ((word_modEq small).of_dvd ?_))
    exact pow_dvd_pow 2 short
  · have some : ty.width ≠ 0 := ty.positive.ne'
    rw [sizeVar_of_le short]
    refine ⟨some, (minBits_le_iff some).2 ⟨some, ?_⟩⟩
    rcases Nat.lt_or_eq_of_le short with less | equal
    · have half : (2 : Int) ^ ty.width ≤ 2 ^ 63 := pow_le_pow_right₀ (by decide) (by omega)
      have quarter : (2 : Int) ^ (ty.width - 1) ≤ 2 ^ ty.width :=
        pow_le_pow_right₀ (by decide) (by omega)
      unfold Representable at representable
      omega
    · rw [equal] at representable ⊢
      unfold Representable at representable
      omega

theorem means_long (long : 64 < ty.width) : Means numeral l (.int (word l)) ty ↔
      -2 ^ 63 ≤ l.value ∧ l.value < 2 ^ 63 ∧ Fits l.value ty.sizeVar := by
  have cases := word_cases small
  have bounds := value_bounds small
  have wide : (2 : Int) ^ 65 ≤ 2 ^ ty.width := pow_le_pow_right₀ (by decide) long
  have half : (2 : Int) ^ 64 ≤ 2 ^ (ty.width - 1) := pow_le_pow_right₀ (by decide) (by omega)
  constructor
  · intro means
    have representable : Representable l.value ty.width := by
      unfold Representable
      omega
    have admitted := means.admits representable
    obtain ⟨some, fits⟩ := getTypeConstraints_iff.1 admitted
    have fits := (minBits_le_iff some).1 fits
    have same := ofInt_eq_iff.1 (Option.some.inj (means.value admitted))
    have equal : (word l).toInt = l.value := by
      obtain ⟨k, same⟩ := Int.modEq_iff_dvd.1 same
      rcases lt_trichotomy k 0 with negative | rfl | positive
      · have far : (2 : Int) ^ ty.width * k ≤ -2 ^ ty.width := by nlinarith only [negative, wide]
        omega
      · omega
      · have far : (2 : Int) ^ ty.width ≤ 2 ^ ty.width * k := by nlinarith only [positive, wide]
        omega
    rw [equal] at fits
    exact ⟨by omega, by omega, fits⟩
  · rintro ⟨low, high, fits⟩
    have equal : (word l).toInt = l.value := by omega
    refine ⟨fun _ => ?_, fun _ => getTypeConstraints_iff.2 ⟨fits.1, ?_⟩⟩
    · rw [toSMT, equal]
    · rw [minBits_le_iff fits.1, equal]
      exact fits

end

section

variable {l : Literal} {rest : List Char} {erange : Bool} {ty : IntType}
  {numeral : List Char → Option Int}

/-- A literal means what it says exactly under the condition, after any literals before it. -/
theorem literal_means_iff (numerals : Numerals numeral) (ends : Ends l rest) :
    Means numeral l (getConstant (yylex erange l rest).1) ty ↔ Condition erange l ty := by
  unfold Condition
  rcases yylex_eq erange ends with ⟨token, text⟩ | ⟨token, small, number⟩
  · have admits : getTypeConstraints (.str l.text) ty = true ↔ ty.sizeVar ≠ 0 :=
      getTypeConstraints_iff.trans (and_iff_left (Nat.zero_le _))
    rw [token, and_iff_left (fun other => absurd text other)]
    rw [show (IsText erange l → _) ↔ _ from ⟨fun given => given text, fun given _ => given⟩]
    cases hex : l.hex with
    | true =>
      have none := numerals.hexadecimal l hex
      rw [if_pos rfl]
      constructor
      · intro means
        have rejected : ty.sizeVar = 0 := by
          by_contra some
          have value := means.value (admits.2 some)
          rw [getConstant, toSMT, none] at value
          cases value
        exact ⟨rejected, fun representable => admits.1 (means.admits representable) rejected⟩
      · rintro ⟨rejected, large⟩
        exact ⟨fun admitted => absurd rejected (admits.1 admitted),
          fun representable => absurd representable large⟩
    | false =>
      have value := numerals.decimal l hex
      rw [if_neg Bool.false_ne_true]
      constructor
      · exact fun means representable => admits.1 (means.admits representable)
      · intro admitted
        refine ⟨fun _ => ?_, fun representable => admits.2 (admitted representable)⟩
        rw [getConstant, toSMT, value]
        rfl
  · rw [token, and_iff_right (fun text => absurd text number)]
    rw [show (¬IsText erange l → _) ↔ _ from ⟨fun given => given number, fun given _ => given⟩]
    change Means numeral l (.int (word l)) ty ↔ _
    by_cases short : ty.width ≤ 64
    · exact ⟨fun _ => .inl short, fun _ => means_short small short⟩
    · rw [means_long small (not_le.1 short), or_iff_right short]

def decimalNumeral (s : List Char) : Option Int :=
  let digits := if s.head? = some '-' then s.tail else s
  if digits.all fun c => digitValue c < 10 then
    some (if s.head? = some '-' then -ofDigits 10 digits else ofDigits 10 digits)
  else none

theorem numerals_decimal : Numerals decimalNumeral where
  decimal l decimal := by
    have valid := l.valid
    have base : l.base = 10 := by rw [Literal.base, decimal]; rfl
    rw [decimal] at valid
    have digits : (l.digits.all fun c => decide (digitValue c < 10)) = true :=
      List.all_eq_true.2 fun c member => decide_eq_true (valid c member)
    have plain : (l.digits ++ []).head? ≠ some '-' := head_ne_minus
    rw [List.append_nil] at plain
    unfold decimalNumeral Literal.text Literal.value Literal.magnitude
    rw [decimal, base]
    cases l.negative <;> simp [plain, digits]
  hexadecimal l hexadecimal := by
    unfold decimalNumeral Literal.text
    rw [hexadecimal, l.unsigned hexadecimal]
    have letter : ¬digitValue 'x' < 10 := by decide
    simp [letter]

theorem valid_of_all {digits : List Char} {base : Nat}
    (all : (digits.all fun c => digitValue c < base) = true) : ∀ c ∈ digits, digitValue c < base :=
  fun c member => of_decide_eq_true (List.all_eq_true.1 all c member)

def minusOne : Literal where
  hex := false
  negative := true
  digits := ['1']
  some_digit := List.cons_ne_nil _ _
  valid := valid_of_all (by decide)
  unsigned := by decide

/-- The literal `2 ^ 63`. -/
def twoPow63 : Literal where
  hex := false
  negative := false
  digits := "9223372036854775808".toList
  some_digit := by decide
  valid := valid_of_all (by decide)
  unsigned := by decide

def bits (width : Nat) (positive : 0 < width) : IntType := ⟨width, true, positive, Bool.noConfusion⟩

theorem literal_means_iff_minusOne :
    Means decimalNumeral minusOne (getConstant (yylex true minusOne []).1) (bits 8 (by decide)) ↔
      Condition true minusOne (bits 8 (by decide)) :=
  literal_means_iff numerals_decimal fun c found => by cases found

/-- In 128 bits the literal is read as a negative number. -/
theorem twoPow63_in_128_bits :
    getTypeConstraints (getConstant (yylex false twoPow63 []).1) (bits 128 (by decide)) = true ∧
      toSMT decimalNumeral (getConstant (yylex false twoPow63 []).1) 128 =
        some (BitVec.ofInt 128 (-2 ^ 63)) ∧
      BitVec.ofInt 128 (-2 ^ 63) ≠ BitVec.ofInt 128 twoPow63.value := by
  refine ⟨by decide +kernel, by decide +kernel, by decide +kernel⟩

end

end AliveNext.Tools.IntLiteral
