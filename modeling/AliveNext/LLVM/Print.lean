import AliveNext.Lib.SelfDelimiting
import AliveNext.LLVM.Syntax

/-!
# The textual form of instructions

`llvm::Instruction::print`, for the integer fragment.  Every register is
printed as its identifier: the name of the value, in quotes when it holds
characters outside `[-._a-zA-Z0-9]` or starts with a digit, and the slot
number of the function for a value without a name.

The text of an operation determines the operation over identifiers
(`Op.text_injective`).
-/

namespace AliveNext.LLVM

open AliveNext.Lib

/-- What stands for a register in printed text. -/
inductive Ident where
  | named (name : Name)
  | slot (number : Nat)
  deriving DecidableEq, Repr

/-! ## Identifiers -/

def isBareByte (b : Byte) : Bool :=
  (48 ≤ b && b ≤ 57) || (65 ≤ b && b ≤ 90) || (97 ≤ b && b ≤ 122) || b == 45 || b == 46 || b == 95

def isDigitByte (b : Byte) : Bool :=
  48 ≤ b && b ≤ 57

def hexDigit (n : Nat) : Char :=
  if n < 10 then Char.ofNat (48 + n) else Char.ofNat (55 + n)

/-- `llvm::printEscapedString` on one byte. -/
def escapeByte (b : Byte) : Text :=
  if b == 92 then ['\\', '\\']
  else if 32 ≤ b && b ≤ 126 && b != 34 then [Char.ofNat b.val]
  else ['\\', hexDigit (b.val / 16), hexDigit (b.val % 16)]

def needsQuotes (name : Name) : Bool :=
  (name.head?.any isDigitByte) || !name.all isBareByte

/-- `llvm::printLLVMNameWithoutPrefix`. -/
def nameText (name : Name) : Text :=
  if needsQuotes name then
    '"' :: (name.flatMap escapeByte ++ ['"'])
  else
    name.map fun b => Char.ofNat b.val

/-- An identifier without its `%` sigil. -/
def Ident.text : Ident → Text
  | .named name => nameText name
  | .slot number => Nat.toDigits 10 number

def isStop (c : Char) : Prop :=
  c = ',' ∨ c = ' ' ∨ c = ')'

instance (c : Char) : Decidable (isStop c) :=
  inferInstanceAs (Decidable (_ ∨ _ ∨ _))

private theorem byte_facts (b : Byte) :
    '"' ∉ escapeByte b ∧ escapeByte b ≠ [] ∧
      (Char.ofNat b.val).toNat = b.val ∧
      (isBareByte b → ¬ isStop (Char.ofNat b.val) ∧ Char.ofNat b.val ≠ '"') ∧
      ((Char.ofNat b.val).isDigit → isDigitByte b) := by
  revert b
  decide +kernel

private theorem escapeByte_quote (b : Byte) : '"' ∉ escapeByte b :=
  (byte_facts b).1

private theorem escapeByte_ne_nil (b : Byte) : escapeByte b ≠ [] :=
  (byte_facts b).2.1

private theorem byteChar_injective (a b : Byte)
    (same : Char.ofNat a.val = Char.ofNat b.val) : a = b := by
  have codes := congrArg Char.toNat same
  rw [(byte_facts a).2.2.1, (byte_facts b).2.2.1] at codes
  exact Fin.ext codes

variable {m n w v v' w' : Nat} {rest rest' s t : Text} {a' : Operand Ident v'}
  {present present' : Bool}

private theorem hexDigit_injective (small : m < 16)
    (small' : n < 16) (same : hexDigit m = hexDigit n) : m = n := by
  have digits : ∀ a b : Fin 16, hexDigit a.val = hexDigit b.val → a = b := by
    decide +kernel
  exact congrArg Fin.val (digits ⟨m, small⟩ ⟨n, small'⟩ same)

private theorem escapeByte_shape (b : Byte) : (escapeByte b = ['\\', '\\'] ∧ b = 92) ∨
      (escapeByte b = [Char.ofNat b.val] ∧ Char.ofNat b.val ≠ '\\') ∨
      (escapeByte b = ['\\', hexDigit (b.val / 16), hexDigit (b.val % 16)] ∧
        hexDigit (b.val / 16) ≠ '\\') := by
  revert b
  decide +kernel

private theorem escapeByte_inj (a b : Byte) (s t : Text)
    (same : escapeByte a ++ s = escapeByte b ++ t) : a = b ∧ s = t := by
  have equal : a = b := by
    rcases escapeByte_shape a with ⟨shape, rfl⟩ | ⟨shape, plain⟩ | ⟨shape, plain⟩ <;>
      rcases escapeByte_shape b with ⟨shape', rfl⟩ | ⟨shape', plain'⟩ | ⟨shape', plain'⟩ <;>
      simp only [shape, shape', List.cons_append, List.nil_append, List.cons.injEq] at same
    · rfl
    · exact absurd same.1.symm plain'
    · exact absurd same.2.1.symm plain'
    · exact absurd same.1 plain
    · exact byteChar_injective a b same.1
    · exact absurd same.1 plain
    · exact absurd same.2.1 plain
    · exact absurd same.1.symm plain'
    · have high := hexDigit_injective (by omega) (by omega) same.2.1
      have low := hexDigit_injective (by omega) (by omega) same.2.2.1
      exact Fin.ext (by omega)
  subst equal
  exact ⟨rfl, List.append_cancel_left same⟩

private theorem escaped_injective : ∀ name name' : Name,
      name.flatMap escapeByte = name'.flatMap escapeByte → name = name'
  | [], [], _ => rfl
  | [], b :: rest, same => by
    have nonempty := escapeByte_ne_nil b
    simp only [List.flatMap_nil, List.flatMap_cons] at same
    exact absurd (List.append_eq_nil_iff.mp same.symm).1 nonempty
  | b :: rest, [], same => by
    have nonempty := escapeByte_ne_nil b
    simp only [List.flatMap_nil, List.flatMap_cons] at same
    exact absurd (List.append_eq_nil_iff.mp same).1 nonempty
  | a :: rest, b :: rest', same => by
    simp only [List.flatMap_cons] at same
    obtain ⟨rfl, tails⟩ := escapeByte_inj a b _ _ same
    rw [escaped_injective rest rest' tails]

private theorem bareByte_char (b : Byte) (bare : isBareByte b) :
    ¬ isStop (Char.ofNat b.val) ∧ Char.ofNat b.val ≠ '"' :=
  (byte_facts b).2.2.2.1 bare

private theorem digitByte_char (b : Byte) (digit : (Char.ofNat b.val).isDigit) : isDigitByte b :=
  (byte_facts b).2.2.2.2 digit

private theorem digits_clean (n : Nat) :
    ∀ c ∈ Nat.toDigits 10 n, ¬ isStop c ∧ c ≠ '"' ∧ c.isDigit := by
  intro c member
  have digit : c.isDigit := Nat.isDigit_of_mem_toDigits (by omega) (by omega) member
  refine ⟨?_, ?_, digit⟩
  · rintro (rfl | rfl | rfl) <;> revert digit <;> decide
  · rintro rfl
    revert digit
    decide

theorem digits_injective (same : Nat.toDigits 10 m = Nat.toDigits 10 n) : m = n := by
  have values := congrArg (fun digits => Nat.ofDigitChars 10 digits 0) same
  simpa [Nat.ofDigitChars_ten_toDigits] using values

theorem digits_selfDelimiting : SelfDelimiting isStop (Nat.toDigits 10) :=
  SelfDelimiting.of_clean (fun _ _ => digits_injective)
    fun n c member => (digits_clean n c member).1

private theorem quoted_or_clean (ident : Ident) :
    (∃ name, ident = .named name ∧
        ident.text = '"' :: (name.flatMap escapeByte ++ ['"'])) ∨
      ∀ c ∈ ident.text, ¬ isStop c ∧ c ≠ '"' := by
  cases ident with
  | slot number =>
    exact Or.inr fun c member =>
      ⟨(digits_clean number c member).1, (digits_clean number c member).2.1⟩
  | named name =>
    by_cases quotes : needsQuotes name
    · exact Or.inl ⟨name, rfl, by simp [Ident.text, nameText, quotes]⟩
    · refine Or.inr fun c member => ?_
      simp only [Ident.text, nameText, quotes, Bool.false_eq_true, if_false, List.mem_map] at member
      obtain ⟨b, present, rfl⟩ := member
      simp only [needsQuotes, Bool.or_eq_true, Bool.not_eq_true',
        not_or, Bool.not_eq_false, List.all_eq_true] at quotes
      exact bareByte_char b (quotes.2 b present)

private theorem named_text_ne_slot (name : Name) (number : Nat)
    (clean : ∀ c ∈ (Ident.named name).text, ¬ isStop c ∧ c ≠ '"') :
    (Ident.named name).text ≠ (Ident.slot number).text := by
  intro same
  simp only [Ident.text, nameText] at same clean
  by_cases quotes : needsQuotes name
  · simp only [quotes, if_true] at clean
    exact (clean '"' List.mem_cons_self).2 rfl
  · simp only [quotes, Bool.false_eq_true, if_false] at same
    cases name with
    | nil => exact Nat.toDigits_ne_nil same.symm
    | cons b rest =>
      simp only [needsQuotes, List.head?_cons, Option.any_some, Bool.or_eq_true, not_or] at quotes
      have first : Char.ofNat b.val ∈ Nat.toDigits 10 number := by
        rw [← same]
        exact List.mem_cons_self
      exact quotes.1 (digitByte_char b (digits_clean number _ first).2.2)

private theorem text_injective_of_clean {x y : Ident} (clean : ∀ c ∈ x.text, ¬ isStop c ∧ c ≠ '"')
    (clean' : ∀ c ∈ y.text, ¬ isStop c ∧ c ≠ '"') (same : x.text = y.text) : x = y := by
  cases x with
  | slot number =>
    cases y with
    | slot number' => rw [digits_injective same]
    | named name =>
      exact absurd same.symm (named_text_ne_slot name number clean')
  | named name =>
    cases y with
    | slot number =>
      exact absurd same (named_text_ne_slot name number clean)
    | named name' =>
      have bare : ∀ {n : Name},
          (∀ c ∈ (Ident.named n).text, ¬ isStop c ∧ c ≠ '"') →
            needsQuotes n = false := by
        intro n cleanText
        by_contra quotes
        rw [Bool.not_eq_false] at quotes
        exact (cleanText '"' (by simp [Ident.text, nameText, quotes])).2
          rfl
      simp only [Ident.text, nameText, bare clean, bare clean',
        Bool.false_eq_true, if_false] at same
      rw [(List.map_injective_iff.mpr byteChar_injective) same]

private theorem clean_ne_quoted {front : Text} (clean : ∀ c ∈ front, ¬ isStop c ∧ c ≠ '"')
    (stops : Stops isStop rest) : front ++ rest ≠ '"' :: rest' := by
  intro same
  cases front with
  | nil =>
    simp only [List.nil_append] at same
    rw [same] at stops
    revert stops
    simp [Stops, isStop]
  | cons c tail =>
    simp only [List.cons_append, List.cons.injEq] at same
    exact (clean c List.mem_cons_self).2 same.1

/-- Identifiers are self-delimiting, also when a quoted name holds commas and
blanks. -/
theorem ident_selfDelimiting : SelfDelimiting isStop Ident.text := by
  intro x y rest rest' stops stops' same
  rcases quoted_or_clean x with ⟨name, rfl, shape⟩ | clean <;>
    rcases quoted_or_clean y with ⟨name', rfl, shape'⟩ | clean'
  · rw [shape, shape'] at same
    simp only [List.cons_append, List.append_assoc, List.nil_append,
      List.cons.injEq, true_and] at same
    have unquoted : ∀ n : Name, ∀ c ∈ n.flatMap escapeByte, ¬ c = '"' := by
      rintro n c member rfl
      obtain ⟨b, -, present⟩ := List.mem_flatMap.mp member
      exact escapeByte_quote b present
    obtain ⟨escaped, restSame⟩ :=
      append_inj_of_stops (fun c => c = '"')
        (unquoted name) (unquoted name')
        (stops_cons.mpr rfl) (stops_cons.mpr rfl) same
    simp only [List.cons.injEq, true_and] at restSame
    exact ⟨by rw [escaped_injective name name' escaped], restSame⟩
  · rw [shape] at same
    exact absurd same.symm (clean_ne_quoted clean' stops')
  · rw [shape'] at same
    exact absurd same (clean_ne_quoted clean stops)
  · obtain ⟨texts, restSame⟩ :=
      append_inj_of_stops isStop (fun c member => (clean c member).1)
        (fun c member => (clean' c member).1) stops stops' same
    exact ⟨text_injective_of_clean clean clean' texts, restSame⟩

/-! ## Operands -/

def intText (z : Int) : Text :=
  if z < 0 then '-' :: Nat.toDigits 10 z.natAbs
  else Nat.toDigits 10 z.natAbs

/-- An integer constant: `true` and `false` at width one, else a signed
decimal number. -/
def constText {w : Nat} (value : BitVec w) : Text :=
  if w = 1 then
    if value.toNat = 1 then "true".toList else "false".toList
  else
    intText value.toInt

def Operand.text {w : Nat} : Operand Ident w → Text
  | .const value => constText value
  | .undef => "undef".toList
  | .poison => "poison".toList
  | .reg ident => '%' :: ident.text

private theorem intText_head (z : Int) :
    ∃ c rest, intText z = c :: rest ∧ (c = '-' ∨ c.isDigit) := by
  unfold intText
  split
  · exact ⟨'-', _, rfl, Or.inl rfl⟩
  · cases digits : Nat.toDigits 10 z.natAbs with
    | nil => exact absurd digits Nat.toDigits_ne_nil
    | cons c rest =>
      refine ⟨c, rest, rfl, Or.inr (digits_clean z.natAbs c ?_).2.2⟩
      rw [digits]
      exact List.mem_cons_self

private theorem intText_injective {x y : Int} (same : intText x = intText y) : x = y := by
  have notDigit : ∀ n : Nat, ∀ rest : Text, Nat.toDigits 10 n ≠ '-' :: rest := by
    intro n rest shape
    have digit := (digits_clean n '-' (by rw [shape]; exact List.mem_cons_self)).2.2
    revert digit
    decide
  unfold intText at same
  split at same <;> split at same
  · simp only [List.cons.injEq, true_and] at same
    have := digits_injective same
    omega
  · exact absurd same.symm (notDigit _ _)
  · exact absurd same (notDigit _ _)
  · have := digits_injective same
    omega

private theorem intText_clean (z : Int) : ∀ c ∈ intText z, ¬ isStop c ∧ c ≠ '%' := by
  intro c member
  have fromDigits : ∀ n : Nat, c ∈ Nat.toDigits 10 n → ¬ isStop c ∧ c ≠ '%' := by
    intro n present
    refine ⟨(digits_clean n c present).1, ?_⟩
    rintro rfl
    have digit := (digits_clean n _ present).2.2
    revert digit
    decide
  unfold intText at member
  split at member
  · rcases List.mem_cons.mp member with rfl | present
    · exact ⟨by simp [isStop], by decide⟩
    · exact fromDigits _ present
  · exact fromDigits _ member

private theorem forall_of_all {chars : Text} {P : Char → Prop} [DecidablePred P]
    (checked : (chars.all fun c => decide (P c)) = true) : ∀ c ∈ chars, P c := by
  intro c member
  exact of_decide_eq_true (List.all_eq_true.1 checked c member)

private theorem constText_clean (value : BitVec w) :
    ∀ c ∈ constText value, ¬ isStop c ∧ c ≠ '%' := by
  unfold constText
  split
  · split
    · exact forall_of_all (by decide)
    · exact forall_of_all (by decide)
  · exact intText_clean value.toInt

private theorem constText_injective {x y : BitVec w}
    (same : constText x = constText y) : x = y := by
  unfold constText at same
  split at same
  · rename_i one
    subst one
    apply BitVec.eq_of_toNat_eq
    have := x.isLt
    have := y.isLt
    split at same <;> split at same
    · omega
    · exact absurd same (by decide)
    · exact absurd same (by decide)
    · omega
  · exact BitVec.eq_of_toInt_eq (intText_injective same)

private theorem constText_ne_keyword (value : BitVec w) :
    constText value ≠ "undef".toList ∧ constText value ≠ "poison".toList := by
  unfold constText
  split
  · split <;> decide
  · obtain ⟨c, rest, shape, first⟩ := intText_head value.toInt
    have notLetter : ∀ d : Char, d = 'u' ∨ d = 'p' → c ≠ d := by
      rintro d (rfl | rfl) rfl <;> revert first <;> decide
    rw [shape]
    constructor
    · intro same
      exact notLetter 'u' (Or.inl rfl) (List.cons.inj same).1
    · intro same
      exact notLetter 'p' (Or.inr rfl) (List.cons.inj same).1

private theorem plain_text_clean (operand : Operand Ident w)
    (plain : ∀ ident, operand ≠ .reg ident) : ∀ c ∈ operand.text, ¬ isStop c ∧ c ≠ '%' := by
  cases operand with
  | const value => exact constText_clean value
  | undef =>
    show ∀ c ∈ "undef".toList, ¬ isStop c ∧ c ≠ '%'
    exact forall_of_all (by decide)
  | poison =>
    show ∀ c ∈ "poison".toList, ¬ isStop c ∧ c ≠ '%'
    exact forall_of_all (by decide)
  | reg ident => exact absurd rfl (plain ident)

private theorem plain_text_injective {x y : Operand Ident w} (plain : ∀ ident, x ≠ .reg ident)
    (plain' : ∀ ident, y ≠ .reg ident) (same : x.text = y.text) : x = y := by
  cases x with
  | reg ident => exact absurd rfl (plain ident)
  | const value =>
    cases y with
    | reg ident => exact absurd rfl (plain' ident)
    | const value' => rw [constText_injective same]
    | undef => exact absurd same (constText_ne_keyword value).1
    | poison => exact absurd same (constText_ne_keyword value).2
  | undef =>
    cases y with
    | reg ident => exact absurd rfl (plain' ident)
    | const value => exact absurd same.symm (constText_ne_keyword value).1
    | undef => rfl
    | poison => exact absurd same (by simp [Operand.text])
  | poison =>
    cases y with
    | reg ident => exact absurd rfl (plain' ident)
    | const value => exact absurd same.symm (constText_ne_keyword value).2
    | undef => exact absurd same (by simp [Operand.text])
    | poison => rfl

private theorem plain_ne_reg {operand : Operand Ident w} {ident : Ident}
    (plain : ∀ ident, operand ≠ .reg ident) (stops : Stops isStop rest) :
    operand.text ++ rest ≠ '%' :: ident.text ++ rest' := by
  intro same
  have clean := plain_text_clean operand plain
  cases shape : operand.text with
  | nil =>
    rw [shape] at same
    simp only [List.nil_append, List.cons_append] at same
    rw [same] at stops
    revert stops
    simp [Stops, isStop]
  | cons c tail =>
    rw [shape] at same clean
    simp only [List.cons_append, List.cons.injEq] at same
    exact (clean c List.mem_cons_self).2 same.1

theorem operand_selfDelimiting (w : Nat) :
    SelfDelimiting isStop (Operand.text : Operand Ident w → Text) := by
  intro x y rest rest' stops stops' same
  by_cases first : ∃ ident, x = .reg ident
  · obtain ⟨ident, rfl⟩ := first
    by_cases second : ∃ ident, y = .reg ident
    · obtain ⟨ident', rfl⟩ := second
      simp only [Operand.text, List.cons_append, List.cons.injEq, true_and] at same
      obtain ⟨rfl, restSame⟩ :=
        ident_selfDelimiting ident ident' rest rest' stops stops' same
      exact ⟨rfl, restSame⟩
    · exact absurd same.symm (plain_ne_reg (fun ident shape => second ⟨ident, shape⟩) stops')
  · have plain : ∀ ident, x ≠ .reg ident :=
      fun ident shape => first ⟨ident, shape⟩
    by_cases second : ∃ ident, y = .reg ident
    · obtain ⟨ident', rfl⟩ := second
      exact absurd same (plain_ne_reg plain stops)
    · have plain' : ∀ ident, y ≠ .reg ident :=
        fun ident shape => second ⟨ident, shape⟩
      obtain ⟨texts, restSame⟩ :=
        append_inj_of_stops isStop (fun c member => (plain_text_clean x plain c member).1)
          (fun c member => (plain_text_clean y plain' c member).1)
          stops stops' same
      exact ⟨plain_text_injective plain plain' texts, restSame⟩

/-! ## Operations -/

/-- `llvm::Instruction::getOpcode`. -/
inductive Opcode where
  | add | sub | mul | shl | udiv | sdiv | urem | srem | lshr | ashr
  | and | or | xor | icmp | select | freeze | zext | sext | trunc
  | extractvalue | call
  deriving DecidableEq, Repr

def Opcode.text : Opcode → Text
  | add => "add".toList
  | sub => "sub".toList
  | mul => "mul".toList
  | shl => "shl".toList
  | udiv => "udiv".toList
  | sdiv => "sdiv".toList
  | urem => "urem".toList
  | srem => "srem".toList
  | lshr => "lshr".toList
  | ashr => "ashr".toList
  | and => "and".toList
  | or => "or".toList
  | xor => "xor".toList
  | icmp => "icmp".toList
  | select => "select".toList
  | freeze => "freeze".toList
  | zext => "zext".toList
  | sext => "sext".toList
  | trunc => "trunc".toList
  | extractvalue => "extractvalue".toList
  | call => "call".toList

def Pred.text : Pred → Text
  | eq => "eq".toList
  | ne => "ne".toList
  | ugt => "ugt".toList
  | uge => "uge".toList
  | ult => "ult".toList
  | ule => "ule".toList
  | sgt => "sgt".toList
  | sge => "sge".toList
  | slt => "slt".toList
  | sle => "sle".toList

def OverflowOp.text : OverflowOp → Text
  | sadd => "@llvm.sadd.with.overflow".toList
  | uadd => "@llvm.uadd.with.overflow".toList
  | ssub => "@llvm.ssub.with.overflow".toList
  | usub => "@llvm.usub.with.overflow".toList
  | smul => "@llvm.smul.with.overflow".toList
  | umul => "@llvm.umul.with.overflow".toList

def BinOp.opcode : BinOp → Opcode
  | add _ _ => .add
  | sub _ _ => .sub
  | mul _ _ => .mul
  | shl _ _ => .shl
  | udiv _ => .udiv
  | sdiv _ => .sdiv
  | urem => .urem
  | srem => .srem
  | lshr _ => .lshr
  | ashr _ => .ashr
  | and => .and
  | or _ => .or
  | xor => .xor

def flagText (keyword : String) (present : Bool) : Text :=
  if present then keyword.toList ++ [' '] else []

def BinOp.flagsText : BinOp → Text
  | add nuw nsw | sub nuw nsw | mul nuw nsw | shl nuw nsw =>
    flagText "nuw" nuw ++ flagText "nsw" nsw
  | udiv exact | sdiv exact | lshr exact | ashr exact =>
    flagText "exact" exact
  | or disjoint => flagText "disjoint" disjoint
  | _ => []

/-- `iN` and the blank after it. -/
def typeText (w : Nat) : Text :=
  'i' :: (Nat.toDigits 10 w ++ [' '])

def pairText {v : Nat} (a b : Operand Ident v) : Text :=
  typeText v ++ (a.text ++ ',' :: ' ' :: b.text)

def castText {v : Nat} (w : Nat) (a : Operand Ident v) : Text :=
  typeText v ++ (a.text ++ ' ' :: 't' :: 'o' :: ' ' :: 'i' :: Nat.toDigits 10 w)

namespace Rhs

def opcode {R : Type} : {w : Nat} → Rhs R w → Opcode
  | _, .binop op _ _ => op.opcode
  | _, .icmp _ _ _ => .icmp
  | _, .select _ _ _ => .select
  | _, .freeze _ => .freeze
  | _, .zext _ _ _ => .zext
  | _, .sext _ _ => .sext
  | _, .trunc _ _ _ _ => .trunc
  | _, .withOverflow _ _ _ => .extractvalue

/-- What follows the opcode and a blank. -/
def tailText : {w : Nat} → Rhs Ident w → Text
  | _, .binop op a b => op.flagsText ++ pairText a b
  | _, .icmp pred a b => pred.text ++ ' ' :: pairText a b
  | w, .select cond a b =>
    'i' :: '1' :: ' ' :: (cond.text ++ ',' :: ' ' ::
      (typeText w ++ (a.text ++ ',' :: ' ' :: (typeText w ++ b.text))))
  | w, .freeze a => typeText w ++ a.text
  | w, .zext _ nneg a => flagText "nneg" nneg ++ castText w a
  | w, .sext _ a => castText w a
  | w, .trunc _ nuw nsw a =>
    flagText "nuw" nuw ++ (flagText "nsw" nsw ++ castText w a)
  | _, .withOverflow op a b => op.text ++ ' ' :: pairText a b

end Rhs

namespace Op

def opcode {R : Type} : Op R → Opcode
  | .value rhs => rhs.opcode
  | .assume _ => .call

def text : Op Ident → Text
  | .value rhs => rhs.opcode.text ++ ' ' :: rhs.tailText
  | .assume cond =>
    Opcode.call.text ++ ' ' ::
      ("void @llvm.assume(i1 ".toList ++ (cond.text ++ [')']))

end Op

private theorem keyword_injective {α : Type} (all : List α)
    (text : α → Text) (found : ∀ x, all.find? (fun y => text y == text x) = some x)
    (x y : α) (same : text x = text y) : x = y := by
  have first := found x
  rw [same, found y] at first
  exact (Option.some.inj first).symm

private theorem opcode_selfDelimiting : SelfDelimiting isStop Opcode.text :=
  SelfDelimiting.of_clean
    (keyword_injective
      [.add, .sub, .mul, .shl, .udiv, .sdiv, .urem, .srem, .lshr, .ashr,
        .and, .or, .xor, .icmp, .select, .freeze, .zext, .sext, .trunc,
        .extractvalue, .call] Opcode.text
      fun x => by cases x <;> decide +kernel)
    fun x => forall_of_all (by cases x <;> decide +kernel)

private theorem pred_selfDelimiting : SelfDelimiting isStop Pred.text :=
  SelfDelimiting.of_clean
    (keyword_injective [.eq, .ne, .ugt, .uge, .ult, .ule, .sgt, .sge, .slt, .sle] Pred.text
      fun x => by cases x <;> decide +kernel)
    fun x => forall_of_all (by cases x <;> decide +kernel)

private theorem overflowOp_selfDelimiting : SelfDelimiting isStop OverflowOp.text :=
  SelfDelimiting.of_clean
    (keyword_injective [.sadd, .uadd, .ssub, .usub, .smul, .umul]
      OverflowOp.text fun x => by cases x <;> decide +kernel)
    fun x => forall_of_all (by cases x <;> decide +kernel)

theorem typeText_inj (same : typeText v ++ s = typeText w ++ t) : v = w ∧ s = t := by
  simp only [typeText, List.cons_append, List.append_assoc,
    List.nil_append, List.cons.injEq, true_and] at same
  obtain ⟨widths, -, rest⟩ :=
    digits_selfDelimiting.cut (Or.inr (Or.inl rfl)) (Or.inr (Or.inl rfl)) same
  exact ⟨widths, rest⟩

private theorem pairText_inj {a b : Operand Ident v}
    {b' : Operand Ident v'} (same : pairText a b = pairText a' b') :
    (⟨v, a, b⟩ : Σ v, Operand Ident v × Operand Ident v) = ⟨v', a', b'⟩ := by
  obtain ⟨rfl, operands⟩ := typeText_inj same
  obtain ⟨rfl, -, rest⟩ :=
    (operand_selfDelimiting v).cut (Or.inl rfl) (Or.inl rfl) operands
  simp only [List.cons.injEq, true_and] at rest
  rw [(operand_selfDelimiting v).injective rest]

private theorem castText_inj {a : Operand Ident v} (same : castText w a = castText w' a') :
    w = w' ∧ (⟨v, a⟩ : Σ v, Operand Ident v) = ⟨v', a'⟩ := by
  obtain ⟨rfl, operands⟩ := typeText_inj same
  obtain ⟨rfl, -, rest⟩ :=
    (operand_selfDelimiting v).cut (Or.inr (Or.inl rfl)) (Or.inr (Or.inl rfl)) operands
  simp only [List.cons.injEq, true_and] at rest
  exact ⟨digits_injective rest, rfl⟩

private theorem flagText_inj (first : Char) {keyword : String}
    (starts : keyword.toList.head? = some first) (differs : first ≠ 'i')
    (same : flagText keyword present ++ 'i' :: s = flagText keyword present' ++ 'i' :: t) :
    present = present' ∧ s = t := by
  have contradiction : ∀ u v : Text, keyword.toList ++ u ≠ 'i' :: v := by
    intro u v shape
    cases letters : keyword.toList with
    | nil => simp [letters] at starts
    | cons c rest =>
      simp only [letters, List.head?_cons, Option.some.injEq] at starts
      simp only [letters, List.cons_append, List.cons.injEq] at shape
      exact differs (starts.symm.trans shape.1)
  cases present <;> cases present'
  · simpa [flagText] using same
  · simp only [flagText, if_true, Bool.false_eq_true, if_false,
      List.nil_append, List.append_assoc] at same
    exact absurd same.symm (contradiction _ _)
  · simp only [flagText, if_true, Bool.false_eq_true, if_false,
      List.nil_append, List.append_assoc] at same
    exact absurd same (contradiction _ _)
  · simpa [flagText] using same

private theorem wrapFlags_inj {nuw nsw nuw' nsw' : Bool}
    (same : flagText "nuw" nuw ++ (flagText "nsw" nsw ++ 'i' :: s) =
      flagText "nuw" nuw' ++ (flagText "nsw" nsw' ++ 'i' :: t)) :
    nuw = nuw' ∧ nsw = nsw' ∧ s = t := by
  cases nuw <;> cases nuw' <;> cases nsw <;> cases nsw' <;>
    simp_all [flagText]

private theorem exactFlag_inj
    (same : flagText "exact" present ++ 'i' :: s = flagText "exact" present' ++ 'i' :: t) :
    present = present' ∧ s = t :=
  flagText_inj 'e' (by decide) (by decide) same

private theorem disjointFlag_inj
    (same : flagText "disjoint" present ++ 'i' :: s =
      flagText "disjoint" present' ++ 'i' :: t) :
    present = present' ∧ s = t :=
  flagText_inj 'd' (by decide) (by decide) same

private theorem nnegFlag_inj
    (same : flagText "nneg" present ++ 'i' :: s = flagText "nneg" present' ++ 'i' :: t) :
    present = present' ∧ s = t :=
  flagText_inj 'n' (by decide) (by decide) same

private theorem flagsText_inj {op op' : BinOp} (opcodes : op.opcode = op'.opcode)
    (same : op.flagsText ++ 'i' :: s = op'.flagsText ++ 'i' :: t) : op = op' ∧ s = t := by
  cases op <;> cases op' <;> try (cases opcodes; done)
  all_goals simp only [BinOp.flagsText, List.append_assoc] at same
  all_goals first
    | (obtain ⟨rfl, rfl, rest⟩ := wrapFlags_inj same; exact ⟨rfl, rest⟩)
    | (obtain ⟨rfl, rest⟩ := exactFlag_inj same; exact ⟨rfl, rest⟩)
    | (obtain ⟨rfl, rest⟩ := disjointFlag_inj same; exact ⟨rfl, rest⟩)
    | (simp only [List.nil_append, List.cons.injEq, true_and] at same
       exact ⟨rfl, same⟩)

private theorem typeText_cons (w : Nat) (s : Text) :
    typeText w ++ s = 'i' :: (Nat.toDigits 10 w ++ ' ' :: s) := by
  simp [typeText]

private theorem tailText_inj {x : Rhs Ident w} {y : Rhs Ident w'} (opcodes : x.opcode = y.opcode)
    (same : x.tailText = y.tailText) : (⟨w, x⟩ : Σ w, Rhs Ident w) = ⟨w', y⟩ := by
  have blank : isStop ' ' := Or.inr (Or.inl rfl)
  cases x with
  | binop op a b =>
    cases y with
    | binop op' a' b' =>
      simp only [Rhs.tailText, pairText, typeText_cons] at same
      obtain ⟨rfl, rest⟩ := flagsText_inj opcodes same
      have pairs : pairText a b = pairText a' b' := by
        simp only [pairText, typeText_cons, rest]
      cases pairText_inj pairs
      rfl
    | _ => cases op <;> cases opcodes
  | icmp pred a b =>
    cases y with
    | icmp pred' a' b' =>
      obtain ⟨rfl, -, rest⟩ := pred_selfDelimiting.cut blank blank same
      cases pairText_inj rest
      rfl
    | binop op _ _ => cases op <;> cases opcodes
    | _ => cases opcodes
  | select cond a b =>
    cases y with
    | select cond' a' b' =>
      simp only [Rhs.tailText, List.cons.injEq, true_and] at same
      obtain ⟨rfl, -, rest⟩ :=
        (operand_selfDelimiting 1).cut (Or.inl rfl) (Or.inl rfl) same
      simp only [List.cons.injEq, true_and] at rest
      obtain ⟨rfl, rest⟩ := typeText_inj rest
      obtain ⟨rfl, -, rest⟩ :=
        (operand_selfDelimiting w).cut (Or.inl rfl) (Or.inl rfl) rest
      simp only [List.cons.injEq, true_and] at rest
      rw [(operand_selfDelimiting w).injective (typeText_inj rest).2]
    | binop op _ _ => cases op <;> cases opcodes
    | _ => cases opcodes
  | freeze a =>
    cases y with
    | freeze a' =>
      obtain ⟨rfl, rest⟩ := typeText_inj same
      rw [(operand_selfDelimiting w).injective rest]
    | binop op _ _ => cases op <;> cases opcodes
    | _ => cases opcodes
  | zext widens nneg a =>
    cases y with
    | zext widens' nneg' a' =>
      simp only [Rhs.tailText, castText, typeText_cons] at same
      obtain ⟨rfl, rest⟩ := nnegFlag_inj same
      have casts : castText w a = castText w' a' := by
        simp only [castText, typeText_cons, rest]
      obtain ⟨rfl, operands⟩ := castText_inj casts
      cases operands
      rfl
    | binop op _ _ => cases op <;> cases opcodes
    | _ => cases opcodes
  | sext widens a =>
    cases y with
    | sext widens' a' =>
      obtain ⟨rfl, operands⟩ := castText_inj same
      cases operands
      rfl
    | binop op _ _ => cases op <;> cases opcodes
    | _ => cases opcodes
  | trunc narrows nuw nsw a =>
    cases y with
    | trunc narrows' nuw' nsw' a' =>
      simp only [Rhs.tailText, castText, typeText_cons] at same
      obtain ⟨rfl, rfl, rest⟩ := wrapFlags_inj same
      have casts : castText w a = castText w' a' := by
        simp only [castText, typeText_cons, rest]
      obtain ⟨rfl, operands⟩ := castText_inj casts
      cases operands
      rfl
    | binop op _ _ => cases op <;> cases opcodes
    | _ => cases opcodes
  | withOverflow op a b =>
    cases y with
    | withOverflow op' a' b' =>
      obtain ⟨rfl, -, rest⟩ :=
        overflowOp_selfDelimiting.cut blank blank same
      cases pairText_inj rest
      rfl
    | binop op _ _ => cases op <;> cases opcodes
    | _ => cases opcodes

/-- The printed text of an operation determines its opcode, flags, types and
operands. -/
theorem Op.text_injective {x y : Op Ident} (same : x.text = y.text) : x = y := by
  have blank : isStop ' ' := Or.inr (Or.inl rfl)
  have notCall : ∀ {w : Nat} (rhs : Rhs Ident w), rhs.opcode ≠ .call := by
    intro w rhs
    cases rhs with
    | binop op _ _ => cases op <;> exact nofun
    | _ => exact nofun
  cases x with
  | value rhs =>
    cases y with
    | value rhs' =>
      obtain ⟨opcodes, -, tails⟩ :=
        opcode_selfDelimiting.cut blank blank same
      cases tailText_inj opcodes tails
      rfl
    | assume cond =>
      exact absurd (opcode_selfDelimiting.cut blank blank same).1 (notCall rhs)
  | assume cond =>
    cases y with
    | value rhs =>
      exact absurd (opcode_selfDelimiting.cut blank blank same).1.symm (notCall rhs)
    | assume cond' =>
      have tails :=
        (opcode_selfDelimiting.cut blank blank same).2.2
      have operands := List.append_cancel_left tails
      rw [((operand_selfDelimiting 1).cut (Or.inr (Or.inr rfl)) (Or.inr (Or.inr rfl)) operands).1]

end AliveNext.LLVM
