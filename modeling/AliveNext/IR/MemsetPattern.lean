import AliveNext.IR.BlockAccess

/-!
# Filling with a pattern

`Memory::memset_pattern` loads the whole pattern and stores its bytes again and again. A
constant number of bytes that is small is stored byte by byte; otherwise the destination
becomes a lambda that selects a byte of the pattern by the offset in the block.
-/

namespace AliveNext.IR.Stored

variable {Ω T V β : Type} {w : Nat} {cfg : Config}

/-- The blocks that `computeAliasing` looks at in each of the accesses. -/
structure PatternBlocks where
  load : List BlockId
  store : List BlockId
  storeLambda : List BlockId
  store_nodup : store.Nodup
  storeLambda_nodup : storeLambda.Nodup

def element (littleEndian : Bool) (count i : Nat) : Nat :=
  if littleEndian then i else count - i - 1

section

variable (ctx : Context Ω T V (Fin cfg.unit → β) w cfg)

/-- The elements of the vector that the load of the pattern returns. The order depends on the
byte order. -/
def Memory.patternByte (m : Memory Ω T (Fin cfg.unit → β) w) (littleEndian : Bool)
    (pattern : Ptr Ω T cfg.unit) (blocks : PatternBlocks) (patternLength i : Nat) :
    Ω → Fin cfg.unit → β :=
  m.load ctx pattern (pattern.offset ctx.terms) blocks.load patternLength
    (element littleEndian (patternLength / cfg.unit) i)

/-- The branch of `Memory::memset_pattern` that stores a lambda. -/
def Memory.memsetPatternLambda (m : Memory Ω T (Fin cfg.unit → β) w) (littleEndian : Bool)
    (ptr pattern : Ptr Ω T cfg.unit) (blocks : PatternBlocks) (bytes : Length ctx)
    (patternLength : Nat) : Option (Memory Ω T (Fin cfg.unit → β) w) :=
  let byte := m.patternByte ctx littleEndian pattern blocks patternLength
  match patternLength / cfg.unit with
  | 0 => none
  | last + 1 =>
    some (m.storeLambdaAt ctx ptr blocks.storeLambda bytes
      ((List.range last).map fun i => (i * cfg.unit * cfg.unit, fun ω _ => byte i ω))
      fun ω _ => byte last ω)

/-- `Memory::memset_pattern`, which fails where it reads past the end of a vector. -/
def Memory.memsetPattern [DecidableEq T] [DecidableEq V] (m : Memory Ω T (Fin cfg.unit → β) w)
    (littleEndian : Bool) (ptr pattern : Ptr Ω T cfg.unit) (blocks : PatternBlocks)
    (bytes : Length ctx) (patternLength : Nat) : Option (Memory Ω T (Fin cfg.unit → β) w) :=
  match bytes.known with
  | some n =>
    if n / cfg.unit ≤ 4 then
      let byte := m.patternByte ctx littleEndian pattern blocks patternLength
      -- `for (i = 0; i < n; i += bytesz)`
      let count := (n + cfg.unit - 1) / cfg.unit
      if count ≤ patternLength / cfg.unit then
        some (m.storeAt ctx ptr blocks.store
          ((List.range count).map fun i => (i * cfg.unit, ctx.quote i (byte i))))
      else none
    else m.memsetPatternLambda ctx littleEndian ptr pattern blocks bytes patternLength
  | none => m.memsetPatternLambda ctx littleEndian ptr pattern blocks bytes patternLength

def Memory.byteAt (m : Memory Ω T (Fin cfg.unit → β) w) (b : BlockId) (offset : Nat) (ω : Ω) : β :=
  m.val b ω (BitVec.ofNat w (offset / cfg.unit)) ⟨offset % cfg.unit, Nat.mod_lt _ cfg.unit_positive⟩

structure Filled (ω : Ω) (old new : Memory Ω T (Fin cfg.unit → β) w)
    (ptr pattern : Ptr Ω T cfg.unit) (n patternLength : Nat) : Prop where
  filled : ∀ k < n, new.byteAt (ptr.block ω) (ptr.byteOffset ctx.terms ω + k) ω =
    old.byteAt (pattern.block ω) (pattern.byteOffset ctx.terms ω + k % patternLength) ω
  kept : ∀ b o, o < ctx.size b ω →
    ¬(b = ptr.block ω ∧ ptr.byteOffset ctx.terms ω ≤ o ∧ o < ptr.byteOffset ctx.terms ω + n) →
    new.byteAt b o ω = old.byteAt b o ω

/-- The pointers are dereferenceable, the pattern for as many bytes as are used, and the blocks
that they denote are looked at. -/
structure FillDefined (ω : Ω) (ptr pattern : Ptr Ω T cfg.unit) (blocks : PatternBlocks)
    (n patternLength : Nat) : Prop where
  load : pattern.block ω ∈ blocks.load
  store : ptr.block ω ∈ blocks.store
  storeLambda : ptr.block ω ∈ blocks.storeLambda
  ptr_bounds : ptr.byteOffset ctx.terms ω + n ≤ ctx.size (ptr.block ω) ω
  pattern_bounds : pattern.byteOffset ctx.terms ω + min n patternLength ≤
    ctx.size (pattern.block ω) ω

end

def FillsAlways (cfg : Config) (w : Nat) (β : Type) (littleEndian const : Bool)
    (ptrOffset patternOffset n patternLength : Nat) : Prop :=
  ∀ (Ω T V : Type) [DecidableEq T] [DecidableEq V]
    (ctx : Context Ω T V (Fin cfg.unit → β) w cfg) (m : Memory Ω T (Fin cfg.unit → β) w)
    (ptr pattern : Ptr Ω T cfg.unit) (blocks : PatternBlocks) (bytes : Length ctx) (ω : Ω),
    ptr.byteOffset ctx.terms ω = ptrOffset → pattern.byteOffset ctx.terms ω = patternOffset →
    bytes.value ω = n → bytes.known.isSome = const →
    (0 < n → FillDefined ctx ω ptr pattern blocks n patternLength) →
    ∃ new, m.memsetPattern ctx littleEndian ptr pattern blocks bytes patternLength = some new ∧
      Filled ctx ω m new ptr pattern n patternLength

section

def pick (unit last : Nat) (mod offset : BitVec w) : Nat :=
  ((List.range last).find? fun i => urem offset mod = BitVec.ofNat w (i * unit * unit)).getD last

variable {offset : BitVec w} {last unit : Nat}

theorem lambdaByte_eq {Byte : Type} {mod : BitVec w} {key : Nat → Nat}
    {byte : Nat → Ω → Byte} {ω : Ω} (items : List Nat) :
    lambdaByte mod (items.map fun i => (key i, fun ω _ => byte i ω)) (fun ω _ => byte last ω)
        ω offset =
      byte ((items.find? fun i => urem offset mod = BitVec.ofNat w (key i)).getD last) ω := by
  induction items with
  | nil => rfl
  | cons i items ih =>
    rw [List.map_cons, lambdaByte, List.find?_cons]
    dsimp only
    by_cases here : urem offset mod = BitVec.ofNat w (key i)
    · rw [if_pos here, decide_eq_true here]
      rfl
    · rw [if_neg here, decide_eq_false here]
      exact ih

theorem toNat_urem {count : Nat} (positive : 0 < count) (small : count < 2 ^ w) :
    (urem offset (BitVec.ofNat w count)).toNat = offset.toNat % count := by
  have number : (BitVec.ofNat w count).toNat = count := by
    rw [BitVec.toNat_ofNat, Nat.mod_eq_of_lt small]
  unfold urem
  rw [number]
  split
  · next le =>
    obtain rfl : count = 1 := by omega
    rw [Nat.mod_one]
    exact BitVec.toNat_zero
  · rw [BitVec.toNat_umod, number]

theorem key_cases {r i : Nat} (power : ∃ z, unit = 2 ^ z)
    (key : r = i * unit * unit % 2 ^ w) : unit ^ 2 ∣ r ∧ r / unit ^ 2 ≤ i := by
  obtain ⟨z, rfl⟩ := power
  rw [Nat.mul_assoc, ← Nat.pow_two] at key
  have positive : 0 < (2 ^ z) ^ 2 := by positivity
  have divides : i * (2 ^ z) ^ 2 % 2 ^ w = 0 ∨ (2 ^ z) ^ 2 ∣ 2 ^ w := by
    rw [← Nat.pow_mul]
    rcases Nat.le_total (z * 2) w with le | le
    · exact .inr (Nat.pow_dvd_pow 2 le)
    · exact .inl (Nat.mod_eq_zero_of_dvd ((Nat.pow_dvd_pow 2 le).mul_left i))
  rcases divides with zero | divides
  · rw [key, zero]
    exact ⟨Nat.dvd_zero _, by rw [Nat.zero_div]; exact Nat.zero_le i⟩
  · constructor
    · rw [key, Nat.dvd_mod_iff divides]
      exact Nat.dvd_mul_left _ i
    · refine Nat.div_le_of_le_mul ?_
      rw [key, Nat.mul_comm]
      exact Nat.mod_le _ _

theorem pick_eq (power : ∃ z, unit = 2 ^ z) (small : last + 1 < 2 ^ w) :
    pick unit last (BitVec.ofNat w (last + 1)) offset =
      if unit ^ 2 ∣ offset.toNat % (last + 1) ∧ offset.toNat % (last + 1) / unit ^ 2 < last then
        offset.toNat % (last + 1) / unit ^ 2
      else last := by
  have remainder : (urem offset (BitVec.ofNat w (last + 1))).toNat = offset.toNat % (last + 1) :=
    toNat_urem (Nat.succ_pos last) small
  have below : offset.toNat % (last + 1) < 2 ^ w :=
    (Nat.mod_lt _ (Nat.succ_pos last)).trans small
  generalize offset.toNat % (last + 1) = r at remainder below ⊢
  have selected : ∀ i, (decide (urem offset (BitVec.ofNat w (last + 1)) =
      BitVec.ofNat w (i * unit * unit)) = true) ↔ r = i * unit * unit % 2 ^ w := by
    intro i
    rw [decide_eq_true_eq, ← BitVec.toNat_inj, remainder, BitVec.toNat_ofNat]
  have itself : unit ^ 2 ∣ r → r = r / unit ^ 2 * unit * unit % 2 ^ w := by
    intro divides
    rw [Nat.mul_assoc, ← Nat.pow_two, Nat.div_mul_cancel divides, Nat.mod_eq_of_lt below]
  unfold pick
  cases found : (List.range last).find? fun i => urem offset (BitVec.ofNat w (last + 1)) =
      BitVec.ofNat w (i * unit * unit) with
  | none =>
    rw [List.find?_eq_none] at found
    rw [if_neg]
    · rfl
    · rintro ⟨divides, inside⟩
      exact found _ (List.mem_range.2 inside) ((selected _).2 (itself divides))
  | some i =>
    rw [List.find?_range_eq_some] at found
    obtain ⟨here, inside, first⟩ := found
    have ⟨divides, le⟩ := key_cases power ((selected i).1 here)
    have same : r / unit ^ 2 = i := by
      refine Nat.le_antisymm le (not_lt.1 fun lt => ?_)
      have later := first _ lt
      rw [(selected _).2 (itself divides)] at later
      cases later
    rw [if_pos ⟨divides, same ▸ List.mem_range.1 inside⟩, same]
    rfl

end

section

def chosen (square count offset : Nat) : Nat :=
  if square ∣ offset % count ∧ offset % count / square < count - 1 then offset % count / square
  else count - 1

variable {square count offset : Nat}

theorem chosen_le : chosen square count offset ≤ count - 1 := by
  unfold chosen
  split
  · next inside => exact inside.2.le
  · exact le_rfl

theorem chosen_of_zero
    (large : 2 ≤ count) (zero : offset % count = 0) : chosen square count offset = 0 := by
  unfold chosen
  rw [zero, Nat.zero_div, if_pos ⟨Nat.dvd_zero _, by omega⟩]

theorem zero_of_chosen
    (large : 2 ≤ count) (first : chosen square count offset = 0) : offset % count = 0 := by
  unfold chosen at first
  split at first
  · next multiple =>
    rw [← Nat.div_mul_cancel multiple.1, first, Nat.zero_mul]
  · omega

theorem chosen_of_small (positive : 0 < count)
    (small : square = 1 ∨ count = 2) : chosen square count offset = offset % count := by
  have below := Nat.mod_lt offset positive
  unfold chosen
  split
  · next multiple =>
    rcases small with rfl | rfl
    · exact Nat.div_one _
    · have zero : offset % 2 / square = 0 := Nat.lt_one_iff.1 multiple.2
      have same := Nat.div_mul_cancel multiple.1
      rw [zero, Nat.zero_mul] at same
      rw [zero, same]
  · next other =>
    rcases small with rfl | rfl
    · rw [Nat.div_one] at other
      have last := not_lt.1 fun lt => other ⟨Nat.one_dvd _, lt⟩
      omega
    · by_contra different
      have zero : offset % 2 = 0 := by omega
      rw [zero, Nat.zero_div] at other
      exact other ⟨Nat.dvd_zero _, Nat.one_pos⟩

theorem chosen_of_one
    (large : 4 ≤ square) (one : offset % count = 1) : chosen square count offset = count - 1 := by
  unfold chosen
  rw [one, if_neg]
  rintro ⟨divides, _⟩
  have le := Nat.le_of_dvd Nat.one_pos divides
  omega

theorem chosen_last_iff : chosen square count offset = count - 1 ↔
      ¬(square ∣ offset % count ∧ offset % count / square < count - 1) := by
  unfold chosen
  constructor
  · intro last multiple
    rw [if_pos multiple] at last
    omega
  · intro other
    rw [if_neg other]

variable {count offset units : Nat}

/-- Little endian: the elements that are selected from an offset on are those of the pattern in
their order. -/
theorem inOrder_little_iff
    (squares : square = 1 ∨ 4 ≤ square) (large : 2 ≤ count) (positive : 0 < units) :
    (∀ j < units, chosen square count (offset + j) = j % count) ↔
      count ∣ offset ∧ (square = 1 ∨ count = 2 ∨ units = 1) := by
  constructor
  · intro order
    have first := order 0 positive
    rw [Nat.zero_mod, Nat.add_zero] at first
    have divides := Nat.dvd_of_mod_eq_zero (zero_of_chosen large first)
    refine ⟨divides, ?_⟩
    rcases squares with one | four
    · exact .inl one
    · by_cases single : units = 1
      · exact .inr (.inr single)
      · have second := order 1 (by omega)
        have remainder : (offset + 1) % count = 1 := by
          rw [Nat.add_mod, Nat.mod_eq_zero_of_dvd divides, Nat.zero_add, Nat.mod_mod,
            Nat.mod_eq_of_lt large]
        rw [chosen_of_one four remainder, Nat.mod_eq_of_lt large] at second
        exact .inr (.inl (by omega))
  · rintro ⟨divides, small⟩ j below
    have remainder : (offset + j) % count = j % count := by
      rw [Nat.add_mod, Nat.mod_eq_zero_of_dvd divides, Nat.zero_add, Nat.mod_mod]
    rw [← remainder]
    rcases small with one | two | single
    · exact chosen_of_small (by omega) (.inl one)
    · exact chosen_of_small (by omega) (.inr two)
    · have zero : (offset + j) % count = 0 := by
        rw [remainder, show j = 0 by omega, Nat.zero_mod]
      rw [chosen_of_zero large zero, zero]

theorem inOrder_big_iff
    (squares : square = 1 ∨ 4 ≤ square) (large : 2 ≤ count) (positive : 0 < units) :
    (∀ j < units, count - chosen square count (offset + j) - 1 = j % count) ↔
      (count = 2 ∧ ¬2 ∣ offset) ∨
        (units = 1 ∧ ¬(square ∣ offset % count ∧ offset % count / square < count - 1)) := by
  constructor
  · intro order
    have first := order 0 positive
    rw [Nat.zero_mod, Nat.add_zero] at first
    have last : chosen square count offset = count - 1 :=
      Nat.le_antisymm chosen_le (by omega)
    by_cases single : units = 1
    · exact .inr ⟨single, chosen_last_iff.1 last⟩
    · have second := order 1 (by omega)
      rw [Nat.mod_eq_of_lt large] at second
      left
      by_cases two : count = 2
      · refine ⟨two, fun even => ?_⟩
        subst two
        rw [chosen_of_zero large (Nat.mod_eq_zero_of_dvd even)] at last
        cases last
      · exfalso
        have next_lt := Nat.mod_lt (offset + 1) (Nat.zero_lt_of_lt large)
        rcases squares with rfl | four
        · -- the remainder after the last one is zero
          rw [chosen_of_small (by omega) (.inl rfl)] at last second
          rw [Nat.add_mod, last, Nat.mod_eq_of_lt large, Nat.sub_add_cancel (by omega),
            Nat.mod_self] at second
          omega
        · have multiple : ¬chosen square count (offset + 1) = count - 1 := by omega
          rw [chosen_last_iff, not_not] at multiple
          unfold chosen at second
          rw [if_pos multiple] at second
          have product := Nat.div_mul_cancel multiple.1
          have large_product := Nat.mul_le_mul_left ((offset + 1) % count / square) four
          omega
  · rintro (⟨rfl, odd⟩ | ⟨rfl, last⟩) j below
    · rw [chosen_of_small Nat.two_pos (.inr rfl)]
      omega
    · obtain rfl := Nat.lt_one_iff.1 below
      rw [Nat.add_zero, chosen_last_iff.2 last, Nat.zero_mod]
      omega

end

section

variable {ctx : Context Ω T V (Fin cfg.unit → β) w cfg} {ω : Ω} {ptr pattern : Ptr Ω T cfg.unit}
  {blocks : PatternBlocks} {bytes : Length ctx} {patternLength count units : Nat}

def selected (stored : Bool) (unit count : Nat) (start : BitVec w) (j : Nat) : Nat :=
  if stored then j
  else pick unit (count - 1) (BitVec.ofNat w count) (start + BitVec.ofNat w j)

variable (littleEndian : Bool) (m : Memory Ω T (Fin cfg.unit → β) w)
    (length : patternLength / cfg.unit = count) (nonempty : 0 < count)
    (value : bytes.value ω = units * cfg.unit)
    (defined : 0 < units → FillDefined ctx ω ptr pattern blocks (bytes.value ω) patternLength)

include littleEndian m length nonempty value defined

theorem memsetPatternLambda_written :
    ∃ new, m.memsetPatternLambda ctx littleEndian ptr pattern blocks bytes patternLength =
        some new ∧
      Written ctx ω m new (ptr.block ω) (ptr.offset ctx.terms ω) units fun j =>
        m.patternByte ctx littleEndian pattern blocks patternLength
          (selected false cfg.unit count (ptr.offset ctx.terms ω) j) ω := by
  obtain ⟨last, rfl⟩ := Nat.exists_eq_succ_of_ne_zero nonempty.ne'
  unfold Memory.memsetPatternLambda
  dsimp only
  rw [length]
  refine ⟨_, rfl, ?_⟩
  have same : (fun j => lambdaByte (BitVec.ofNat w (((List.range last).map fun i =>
        (i * cfg.unit * cfg.unit, fun (ω : Ω) (_ : BitVec w) =>
          m.patternByte ctx littleEndian pattern blocks patternLength i ω)).length + 1))
      ((List.range last).map fun i => (i * cfg.unit * cfg.unit, fun ω _ =>
        m.patternByte ctx littleEndian pattern blocks patternLength i ω))
      (fun ω _ => m.patternByte ctx littleEndian pattern blocks patternLength last ω) ω
      (ptr.offset ctx.terms ω + BitVec.ofNat w j)) = fun j =>
        m.patternByte ctx littleEndian pattern blocks patternLength
          (selected false cfg.unit (last + 1) (ptr.offset ctx.terms ω) j) ω := by
    funext j
    rw [lambdaByte_eq, List.length_map, List.length_range]
    rfl
  rw [← same]
  exact Memory.storeLambdaAt_written blocks.storeLambda_nodup value fun positive =>
    ⟨(defined positive).storeLambda, by
      rw [← value]
      exact (defined positive).ptr_bounds⟩

theorem memsetPattern_written [DecidableEq T] [DecidableEq V]
    (enough : bytes.known.isSome = true → units ≤ 4 → units ≤ count) :
    ∃ new, m.memsetPattern ctx littleEndian ptr pattern blocks bytes patternLength = some new ∧
      Written ctx ω m new (ptr.block ω) (ptr.offset ctx.terms ω) units fun j =>
        m.patternByte ctx littleEndian pattern blocks patternLength
          (selected (bytes.known.isSome && units ≤ 4) cfg.unit count (ptr.offset ctx.terms ω) j)
          ω := by
  have by_lambda := memsetPatternLambda_written littleEndian m length nonempty value defined
  unfold Memory.memsetPattern
  cases known : bytes.known with
  | none => exact by_lambda
  | some n =>
    obtain rfl : n = units * cfg.unit := (bytes.known_sound n known ω).symm.trans value
    rw [known] at enough
    dsimp only
    rw [Nat.mul_div_cancel _ cfg.unit_positive]
    split
    · next few =>
      have rounded : (units * cfg.unit + cfg.unit - 1) / cfg.unit = units := by
        have positive := cfg.unit_positive
        rw [Nat.add_sub_assoc positive, Nat.mul_comm, Nat.mul_add_div positive,
          Nat.div_eq_of_lt (by omega), Nat.add_zero]
      rw [rounded, length, if_pos (enough rfl few)]
      refine ⟨_, rfl, ?_⟩
      have same : (fun j => m.patternByte ctx littleEndian pattern blocks patternLength
          (selected ((some (units * cfg.unit)).isSome && decide (units ≤ 4)) cfg.unit count
            (ptr.offset ctx.terms ω) j) ω) = fun j => ctx.terms.byte (ctx.quote j
              (m.patternByte ctx littleEndian pattern blocks patternLength j)) ω := by
        funext j
        rw [ctx.byte_quote]
        simp only [Option.isSome_some, few, decide_true, Bool.and_true, selected, if_true]
      rw [same]
      exact Memory.storeAt_written blocks.store_nodup fun positive => ⟨(defined positive).store, by
        refine Nat.le_trans ?_ (defined positive).ptr_bounds
        rw [value, Nat.add_mul]
        exact Nat.add_le_add_right (Nat.le_add_right _ _) _⟩
    · next many =>
      simp only [many, decide_false, Bool.and_false]
      exact by_lambda

end

/-! ## When the fill is right -/

/-- The units of the pattern are selected in their order, for a destination that starts at a
unit. -/
def PatternInOrder (littleEndian const : Bool) (unit count units start : Nat) : Prop :=
  if const = true ∧ units ≤ 4 then units ≤ count ∧ (littleEndian = true ∨ count = 1)
  else count = 1 ∨
    if littleEndian then count ∣ start ∧ (unit = 1 ∨ count = 2 ∨ units = 1)
    else (count = 2 ∧ ¬2 ∣ start) ∨ (units = 1 ∧ ¬unit ^ 2 ∣ start % count)

def FillsWhen (unit : Nat) (littleEndian const : Bool)
    (ptrOffset patternOffset n patternLength : Nat) : Prop :=
  n = 0 ∨ (unit ∣ ptrOffset ∧ unit ∣ patternOffset ∧
    patternOffset / unit + patternLength ≤ patternOffset + n ∧
    PatternInOrder littleEndian const unit (patternLength / unit) (n / unit) (ptrOffset / unit))

section

variable {littleEndian const : Bool} {unit count units : Nat} {start : BitVec w}

theorem element_lt {i : Nat} (below : i < count) : element littleEndian count i < count := by
  unfold element
  split <;> omega

theorem square_cases
    (power : ∃ z, unit = 2 ^ z) : (unit = 1 ∧ unit ^ 2 = 1) ∨ (unit ≠ 1 ∧ 4 ≤ unit ^ 2) := by
  obtain ⟨z, rfl⟩ := power
  cases z with
  | zero => exact .inl ⟨rfl, rfl⟩
  | succ z =>
    have even : 2 ^ (z + 1) = 2 * 2 ^ z := by rw [Nat.pow_succ, Nat.mul_comm]
    have positive : 0 < 2 ^ z := by positivity
    refine .inr ⟨by omega, ?_⟩
    calc 4 = 2 ^ 2 := rfl
      _ ≤ (2 ^ (z + 1)) ^ 2 := Nat.pow_le_pow_left (by omega) 2

theorem selected_eq_chosen {j : Nat} (power : ∃ z, unit = 2 ^ z) (nonempty : 0 < count)
    (small : count < 2 ^ w) (no_wrap : start.toNat + j < 2 ^ w) :
    selected false unit count start j = chosen (unit ^ 2) count (start.toNat + j) := by
  obtain ⟨last, rfl⟩ := Nat.exists_eq_succ_of_ne_zero nonempty.ne'
  have place : (start + BitVec.ofNat w j).toNat = start.toNat + j := by
    rw [BitVec.toNat_add, BitVec.toNat_ofNat, Nat.mod_eq_of_lt (a := j) (by omega),
      Nat.mod_eq_of_lt no_wrap]
  unfold selected chosen
  rw [if_neg Bool.false_ne_true, Nat.succ_sub_one, pick_eq power small, place]

theorem le_of_fits {patternOffset : Nat}
    (fits : patternOffset / unit + unit * count ≤ patternOffset + units * unit)
    (single : unit = 1) : count ≤ units := by
  subst single
  omega

theorem selected_lt {stored : Bool} {j : Nat} (nonempty : 0 < count)
    (below : stored = true → j < count) : selected stored unit count start j < count := by
  unfold selected
  split
  · next is_stored => exact below is_stored
  · unfold pick
    cases found : (List.range (count - 1)).find? fun i =>
        urem (start + BitVec.ofNat w j) (BitVec.ofNat w count) =
          BitVec.ofNat w (i * unit * unit) with
    | none => exact Nat.sub_lt nonempty Nat.one_pos
    | some i =>
      have inside := List.mem_range.1 (List.mem_of_find?_eq_some found)
      exact Nat.lt_of_lt_of_le inside (Nat.sub_le _ _)

theorem inOrder_iff (power : ∃ z, unit = 2 ^ z) (nonempty : 0 < count) (positive : 0 < units)
    (small : count < 2 ^ w) (no_wrap : start.toNat + units < 2 ^ w)
    (enough : const = true → units ≤ 4 → units ≤ count) (single : unit = 1 → count ≤ units) :
    (∀ j < units, element littleEndian count
        (selected (const && units ≤ 4) unit count start j) = j % count) ↔
      PatternInOrder littleEndian const unit count units start.toNat := by
  unfold PatternInOrder
  by_cases stored : const = true ∧ units ≤ 4
  · have le := enough stored.1 stored.2
    rw [if_pos stored, and_iff_right le]
    simp only [stored.1, stored.2, decide_true, Bool.and_self, selected, if_true, element]
    cases littleEndian with
    | true =>
      simp only [if_true, true_or, iff_true]
      intro j below
      exact (Nat.mod_eq_of_lt (by omega)).symm
    | false =>
      simp only [Bool.false_eq_true, if_false, false_or]
      constructor
      · intro order
        have first := order 0 positive
        rw [Nat.zero_mod] at first
        omega
      · rintro rfl j below
        rw [Nat.mod_one]
        omega
  · have not_stored : (const && decide (units ≤ 4)) = false := by
      rw [← Bool.not_eq_true, Bool.and_eq_true, decide_eq_true_eq]
      exact stored
    have by_chosen : (∀ j < units, element littleEndian count
        (selected (const && units ≤ 4) unit count start j) = j % count) ↔
        ∀ j < units, element littleEndian count
          (chosen (unit ^ 2) count (start.toNat + j)) = j % count := by
      rw [not_stored]
      refine forall_congr' fun j => forall_congr' fun below => ?_
      rw [selected_eq_chosen power nonempty small (by omega)]
    rw [if_neg stored, by_chosen]
    by_cases one : count = 1
    · subst one
      simp only [true_or, iff_true]
      intro j _
      have le : chosen (unit ^ 2) 1 (start.toNat + j) ≤ 1 - 1 := chosen_le
      have lt : element littleEndian 1 (chosen (unit ^ 2) 1 (start.toNat + j)) < 1 :=
        element_lt (Nat.lt_succ_of_le le)
      rw [Nat.mod_one]
      exact Nat.lt_one_iff.1 lt
    · rw [or_iff_right one]
      have large : 2 ≤ count := by omega
      have squares : unit ^ 2 = 1 ∨ 4 ≤ unit ^ 2 :=
        (square_cases power).imp (fun both => both.2) fun both => both.2
      have same : unit ^ 2 = 1 ↔ unit = 1 := by
        rcases square_cases power with both | both
        · exact iff_of_true both.2 both.1
        · exact iff_of_false (by omega) both.1
      cases littleEndian with
      | true =>
        rw [if_pos rfl, ← same]
        exact inOrder_little_iff squares large positive
      | false =>
        rw [if_neg Bool.false_ne_true]
        refine (inOrder_big_iff squares large positive).trans (or_congr_right ?_)
        refine and_congr_right fun last => ?_
        have several : unit ≠ 1 := fun byte => by
          have le := single byte
          omega
        have four : 4 ≤ unit ^ 2 := squares.resolve_left fun one => several (same.1 one)
        have below := Nat.mod_lt start.toNat nonempty
        have early : start.toNat % count / unit ^ 2 < count - 1 :=
          Nat.lt_of_le_of_lt (Nat.div_le_div_left four (by decide)) (by omega)
        rw [and_iff_left early]

end

section

variable {ctx : Context Ω T V (Fin cfg.unit → β) w cfg} {ω : Ω}
  {m new : Memory Ω T (Fin cfg.unit → β) w} {ptr pattern : Ptr Ω T cfg.unit}
  {patternLength count units n : Nat}

variable {b : BlockId} {o : Nat}

theorem Memory.byteAt_eq {q r : Nat} (quotient : o / cfg.unit = q) (remainder : o % cfg.unit = r)
    (below : r < cfg.unit) : m.byteAt b o ω = m.val b ω (BitVec.ofNat w q) ⟨r, below⟩ := by
  subst quotient remainder
  rfl

theorem Memory.byteAt_ptr {k : Nat} (aligned : cfg.unit ∣ ptr.byteOffset ctx.terms ω) :
    m.byteAt b (ptr.byteOffset ctx.terms ω + k) ω =
      m.val b ω (ptr.offset ctx.terms ω + BitVec.ofNat w (k / cfg.unit))
        ⟨k % cfg.unit, Nat.mod_lt _ cfg.unit_positive⟩ := by
  rw [Memory.byteAt_eq (q := (ptr.offset ctx.terms ω).toNat + k / cfg.unit)
    (r := k % cfg.unit) _ _ (Nat.mod_lt _ cfg.unit_positive), BitVec.ofNat_add, BitVec.ofNat_toNat,
    BitVec.setWidth_eq]
  · rw [Nat.add_div_of_dvd_right aligned, Ptr.byteOffset_div]
  · rw [Nat.add_mod, Nat.mod_eq_zero_of_dvd aligned, Nat.zero_add, Nat.mod_mod]

theorem Memory.byteAt_unit (aligned : cfg.unit ∣ o) (j : Nat) : m.byteAt b (o + j * cfg.unit) ω =
      m.val b ω (BitVec.ofNat w (o / cfg.unit) + BitVec.ofNat w j) ⟨0, cfg.unit_positive⟩ := by
  rw [Memory.byteAt_eq (q := o / cfg.unit + j) (r := 0) _ _ cfg.unit_positive, BitVec.ofNat_add]
  · rw [Nat.add_mul_div_right _ _ cfg.unit_positive]
  · rw [Nat.add_mul_mod_self_right, Nat.mod_eq_zero_of_dvd aligned]

theorem Written.byte_kept {val : Nat → Fin cfg.unit → β}
    (written : Written ctx ω m new (ptr.block ω) (ptr.offset ctx.terms ω) units val)
    (aligned : 0 < units → cfg.unit ∣ ptr.byteOffset ctx.terms ω) (bounds : 0 < units →
      ptr.byteOffset ctx.terms ω + units * cfg.unit ≤ ctx.size (ptr.block ω) ω)
    (in_block : o < ctx.size b ω) (outside : ¬(b = ptr.block ω ∧ ptr.byteOffset ctx.terms ω ≤ o ∧
      o < ptr.byteOffset ctx.terms ω + units * cfg.unit)) :
    new.byteAt b o ω = m.byteAt b o ω := by
  have whole := Nat.div_add_mod' o cfg.unit
  have part := Nat.mod_lt o cfg.unit_positive
  have small : o / cfg.unit < 2 ^ w := by
    rw [Nat.div_lt_iff_lt_mul cfg.unit_positive]
    exact in_block.trans (ctx.addressed b ω)
  have number : (BitVec.ofNat w (o / cfg.unit)).toNat = o / cfg.unit := by
    rw [BitVec.toNat_ofNat, Nat.mod_eq_of_lt small]
  refine congrFun (written.kept b (BitVec.ofNat w (o / cfg.unit)) ?_ ?_) _
  · rw [number]
    omega
  · rintro rfl j below place
    have room := bounds (Nat.zero_lt_of_lt below)
    have start := Nat.div_mul_cancel (aligned (Nat.zero_lt_of_lt below))
    rw [Ptr.byteOffset_div] at start
    have no_wrap : (ptr.offset ctx.terms ω).toNat + units < 2 ^ w := by
      refine Nat.lt_of_mul_lt_mul_right (a := cfg.unit) ?_
      rw [Nat.add_mul, start]
      exact Nat.lt_of_le_of_lt room (ctx.addressed _ ω)
    rw [← BitVec.toNat_inj, number, BitVec.toNat_add, BitVec.toNat_ofNat,
      Nat.mod_eq_of_lt (a := j) (by omega), Nat.mod_eq_of_lt (by omega)] at place
    rw [← place, Nat.add_mul, start] at whole
    have end_le := Nat.mul_le_mul_right cfg.unit (Nat.succ_le_of_lt below)
    rw [Nat.succ_mul] at end_le
    exact outside ⟨rfl, by omega, by omega⟩

theorem Memory.patternByte_eq {littleEndian : Bool} {blocks : PatternBlocks} {i : Nat}
    (length : patternLength / cfg.unit = count) (resolved : pattern.block ω ∈ blocks.load)
    (inside : (pattern.offset ctx.terms ω).toNat + patternLength ≤
      (ctx.constSize (pattern.block ω)).getD (2 ^ 64 - 1))
    (below : i < count) :
    m.patternByte ctx littleEndian pattern blocks patternLength i ω = m.val (pattern.block ω) ω
        (pattern.offset ctx.terms ω + BitVec.ofNat w (element littleEndian count i)) := by
  unfold Memory.patternByte
  rw [length]
  refine Memory.load_eq resolved inside (Nat.lt_of_lt_of_le (element_lt below) ?_)
  rw [← length]
  exact Nat.div_le_self _ _

end

theorem fills_of_when {littleEndian const : Bool} {ptrOffset patternOffset n patternLength : Nat}
    (power : ∃ z, cfg.unit = 2 ^ z) (pattern_positive : 0 < patternLength)
    (pattern_units : cfg.unit ∣ patternLength) (n_units : cfg.unit ∣ n)
    (condition : FillsWhen cfg.unit littleEndian const ptrOffset patternOffset n patternLength) :
    FillsAlways cfg w β littleEndian const ptrOffset patternOffset n patternLength := by
  intro Ω T V _ _ ctx m ptr pattern blocks bytes ω ptr_eq pattern_eq value is_const defined
  subst ptr_eq pattern_eq value is_const
  obtain ⟨units, value⟩ := n_units
  obtain ⟨count, rfl⟩ := pattern_units
  rw [Nat.mul_comm] at value
  have unit_positive := cfg.unit_positive
  have length : cfg.unit * count / cfg.unit = count := Nat.mul_div_cancel_left _ unit_positive
  have nonempty : 0 < count := Nat.pos_of_mul_pos_left pattern_positive
  have some_bytes : 0 < units → 0 < bytes.value ω := fun some_units => by
    rw [value]
    exact Nat.mul_pos some_units unit_positive
  have call : 0 < units → FillDefined ctx ω ptr pattern blocks (bytes.value ω)
      (cfg.unit * count) := fun some_units => defined (some_bytes some_units)
  -- the condition for a fill that is not empty
  have needed : 0 < units → cfg.unit ∣ ptr.byteOffset ctx.terms ω ∧
      cfg.unit ∣ pattern.byteOffset ctx.terms ω ∧
      pattern.byteOffset ctx.terms ω / cfg.unit + cfg.unit * count ≤
        pattern.byteOffset ctx.terms ω + bytes.value ω ∧
      PatternInOrder littleEndian bytes.known.isSome cfg.unit count units
        (ptr.byteOffset ctx.terms ω / cfg.unit) := by
    intro some_units
    have right := condition.resolve_left (some_bytes some_units).ne'
    rwa [length, value, Nat.mul_div_cancel _ unit_positive, ← value] at right
  have enough : bytes.known.isSome = true → units ≤ 4 → units ≤ count := by
    intro known few
    rcases Nat.eq_zero_or_pos units with none | some_units
    · omega
    · have order := (needed some_units).2.2.2
      unfold PatternInOrder at order
      rw [if_pos ⟨known, few⟩] at order
      exact order.1
  obtain ⟨new, made, written⟩ :=
    memsetPattern_written littleEndian m length nonempty value call enough
  refine ⟨new, made, ?_, ?_⟩
  · intro k below
    rw [value] at below
    have index := (Nat.div_lt_iff_lt_mul unit_positive).2 below
    have some_units := Nat.zero_lt_of_lt index
    obtain ⟨ptr_aligned, pattern_aligned, fits, order⟩ := needed some_units
    have ptr_bounds := (call some_units).ptr_bounds
    have pattern_bounds := (call some_units).pattern_bounds
    have start := Nat.div_mul_cancel ptr_aligned
    rw [Ptr.byteOffset_div] at start order fits
    have no_wrap : (ptr.offset ctx.terms ω).toNat + units < 2 ^ w := by
      refine Nat.lt_of_mul_lt_mul_right (a := cfg.unit) ?_
      rw [Nat.add_mul, start, ← value]
      exact Nat.lt_of_le_of_lt ptr_bounds (ctx.addressed _ ω)
    have inside : (pattern.offset ctx.terms ω).toNat + cfg.unit * count ≤
        ctx.size (pattern.block ω) ω := by
      have floor := Nat.div_le_self (pattern.byteOffset ctx.terms ω) cfg.unit
      rw [Ptr.byteOffset_div] at floor
      omega
    have small : count < 2 ^ w := by
      refine Nat.lt_of_mul_lt_mul_left (a := cfg.unit) ?_
      rw [Nat.mul_comm cfg.unit (2 ^ w)]
      refine Nat.lt_of_le_of_lt ?_ (ctx.addressed (pattern.block ω) ω)
      omega
    have single : cfg.unit = 1 → count ≤ units := by
      rw [← Ptr.byteOffset_div, value] at fits
      exact le_of_fits fits
    have in_order := (inOrder_iff power nonempty some_units small no_wrap enough single).2 order _
      index
    have size_small := ctx.size_small (pattern.block ω) ω
    rw [Memory.byteAt_ptr ptr_aligned, Memory.byteAt_ptr pattern_aligned, written.given _ index,
      Memory.patternByte_eq length (call some_units).load
        (Context.constSize_le inside (by omega)) (selected_lt nonempty ?_), in_order]
    · have unit_index : k % (cfg.unit * count) / cfg.unit = k / cfg.unit % count := by
        rw [Nat.mul_comm, Nat.mod_mul_left_div_self]
      have part : k % (cfg.unit * count) % cfg.unit = k % cfg.unit :=
        Nat.mod_mod_of_dvd _ (Nat.dvd_mul_right _ _)
      rw [unit_index]
      refine congrArg _ (Fin.ext part.symm)
    · intro stored
      rw [Bool.and_eq_true, decide_eq_true_eq] at stored
      exact Nat.lt_of_lt_of_le index (enough stored.1 stored.2)
  · intro b o in_block outside
    rw [value] at outside
    refine written.byte_kept (fun some_units => (needed some_units).1) (fun some_units => ?_)
      in_block outside
    rw [← value]
    exact (call some_units).ptr_bounds

section

variable (w cfg)

def testContext (ptrSize patternSize : Nat) (sizeKnown : Bool) (stray : Fin cfg.unit → β)
    (small : ptrSize < 2 ^ 64 ∧ patternSize < 2 ^ 64)
    (addressed : ptrSize < 2 ^ w * cfg.unit ∧ patternSize < 2 ^ w * cfg.unit) :
    Context Unit (BitVec w) (Unit → Fin cfg.unit → β) (Fin cfg.unit → β) w cfg :=
  plainContext cfg (fun b => if b.bid = 1 then patternSize else ptrSize)
    (fun b => sizeKnown && b.bid = 1) stray stray
    (fun b => by
      split
      · exact small.2
      · exact small.1)
    fun b => by
      split
      · exact addressed.2
      · exact addressed.1

def testMemory (content : BitVec w → Fin cfg.unit → β) (base : β) :
    Memory Unit (BitVec w) (Fin cfg.unit → β) w where
  localBlockVal _ _ _ _ := base
  nonLocalBlockVal bid _ offset := if bid = 1 then content offset else fun _ => base
  storedPointers _ := ⟨∅, false⟩

def testBlocks : PatternBlocks where
  load := [⟨false, 1⟩]
  store := [⟨false, 0⟩]
  storeLambda := [⟨false, 0⟩]
  store_nodup := List.nodup_singleton _
  storeLambda_nodup := List.nodup_singleton _

variable {cfg w}

theorem plainPtr_byteOffset
    {Byte : Type} {bid offset : Nat} (addressed : offset < 2 ^ w * cfg.unit) :
    (plainPtr cfg.unit cfg.unit_positive bid offset).byteOffset (plainTerms Byte w) () =
      offset := by
  have unit : offset / cfg.unit < 2 ^ w := (Nat.div_lt_iff_lt_mul cfg.unit_positive).2 addressed
  change (BitVec.ofNat w (offset / cfg.unit)).toNat * cfg.unit + offset % cfg.unit = offset
  rw [BitVec.toNat_ofNat, Nat.mod_eq_of_lt unit, Nat.div_add_mod']

theorem eq_of_contents [Nontrivial β] {α ι : Type} {x y : α} {r s : ι}
    (same : ∀ content : α → ι → β, content x r = content y s) : x = y ∧ r = s := by
  classical
  obtain ⟨one, zero, different⟩ := exists_pair_ne β
  by_contra other
  have here := same fun a b => if a = y ∧ b = s then one else zero
  rw [if_neg other, if_pos ⟨rfl, rfl⟩] at here
  exact different here.symm

variable {littleEndian const : Bool} {count units ptrOffset patternOffset : Nat}

theorem enough_of_some
    [DecidableEq T] [DecidableEq V] {ctx : Context Ω T V (Fin cfg.unit → β) w cfg} {ω : Ω}
    {m new : Memory Ω T (Fin cfg.unit → β) w}
    {ptr pattern : Ptr Ω T cfg.unit} {blocks : PatternBlocks} {bytes : Length ctx}
    {patternLength : Nat}
    (made : m.memsetPattern ctx littleEndian ptr pattern blocks bytes patternLength = some new)
    (length : patternLength / cfg.unit = count) (value : bytes.value ω = units * cfg.unit)
    (const : bytes.known.isSome = true) (few : units ≤ 4) : units ≤ count := by
  obtain ⟨n, known⟩ := Option.isSome_iff_exists.1 const
  obtain rfl : n = units * cfg.unit := (bytes.known_sound n known ω).symm.trans value
  have positive := cfg.unit_positive
  have rounded : (units * cfg.unit + cfg.unit - 1) / cfg.unit = units := by
    rw [Nat.add_sub_assoc positive, Nat.mul_comm, Nat.mul_add_div positive,
      Nat.div_eq_of_lt (by omega), Nat.add_zero]
  unfold Memory.memsetPattern at made
  rw [known] at made
  dsimp only at made
  rw [Nat.mul_div_cancel _ positive, if_pos few, rounded, length] at made
  by_contra short
  rw [if_neg short] at made
  cases made

theorem test_fill (sizeKnown : Bool) (stray : Fin cfg.unit → β) (nonempty : 0 < count)
    (small : ptrOffset + units * cfg.unit < 2 ^ 64 ∧
      patternOffset + min (units * cfg.unit) (count * cfg.unit) < 2 ^ 64)
    (addressed : ptrOffset + units * cfg.unit < 2 ^ w * cfg.unit ∧
      patternOffset + min (units * cfg.unit) (count * cfg.unit) < 2 ^ w * cfg.unit)
    (always : FillsAlways cfg w β littleEndian const ptrOffset patternOffset (units * cfg.unit)
      (count * cfg.unit))
    (content : BitVec w → Fin cfg.unit → β) (base : β) :
    let ctx := testContext w cfg _ _ sizeKnown stray small addressed
    let pattern := plainPtr cfg.unit cfg.unit_positive 1 patternOffset
    let m := testMemory w cfg content base
    ∃ new, (∀ k < units * cfg.unit, new.byteAt ⟨false, 0⟩ (ptrOffset + k) () =
        m.byteAt ⟨false, 1⟩ (patternOffset + k % (count * cfg.unit)) ()) ∧
      (∀ o < ptrOffset, new.byteAt ⟨false, 0⟩ o () = m.byteAt ⟨false, 0⟩ o ()) ∧
      (const = true → units ≤ 4 → units ≤ count) ∧
      Written ctx () m new ⟨false, 0⟩ (BitVec.ofNat w (ptrOffset / cfg.unit)) units fun j =>
        m.patternByte ctx littleEndian pattern testBlocks (count * cfg.unit)
          (selected (const && units ≤ 4) cfg.unit count
            (BitVec.ofNat w (ptrOffset / cfg.unit)) j) () := by
  classical
  intro ctx pattern m
  let ptr : Ptr Unit (BitVec w) cfg.unit := plainPtr cfg.unit cfg.unit_positive 0 ptrOffset
  have ptr_at : ptr.byteOffset ctx.terms () = ptrOffset :=
    plainPtr_byteOffset (Nat.lt_of_le_of_lt (Nat.le_add_right _ _) addressed.1)
  have pattern_at : pattern.byteOffset ctx.terms () = patternOffset :=
    plainPtr_byteOffset (Nat.lt_of_le_of_lt (Nat.le_add_right _ _) addressed.2)
  have defined : FillDefined ctx () ptr pattern testBlocks (units * cfg.unit)
      (count * cfg.unit) := by
    refine ⟨List.mem_singleton_self _, List.mem_singleton_self _, List.mem_singleton_self _, ?_, ?_⟩
    · rw [ptr_at]
      exact le_rfl
    · rw [pattern_at]
      exact le_rfl
  have length : count * cfg.unit / cfg.unit = count := Nat.mul_div_cancel _ cfg.unit_positive
  have known : (plainLength ctx rfl (units * cfg.unit) const).known.isSome = const := by
    cases const <;> rfl
  obtain ⟨new, made, filled⟩ := always Unit (BitVec w) (Unit → Fin cfg.unit → β) ctx m ptr pattern
    testBlocks (plainLength ctx rfl (units * cfg.unit) const) () ptr_at pattern_at rfl known
    fun _ => defined
  have enough := enough_of_some (ω := ()) made length rfl
  obtain ⟨same, made_same, written⟩ :=
    memsetPattern_written littleEndian m length nonempty rfl (fun _ => defined) enough
  obtain rfl : new = same := Option.some.inj (made.symm.trans made_same)
  rw [known] at enough written
  refine ⟨new, ?_, ?_, enough, written⟩
  · intro k below
    have copied := filled.filled k below
    rwa [ptr_at, pattern_at] at copied
  · intro o before
    have kept := filled.kept ⟨false, 0⟩ o
    rw [ptr_at] at kept
    refine kept (Nat.lt_of_lt_of_le before (Nat.le_add_right _ _)) fun inside => ?_
    exact absurd inside.2.1 (not_le.2 before)

/-- A block of known size without the whole pattern after the pointer: the byte at the pointer
is not loaded. -/
theorem load_short {ptrSize patternSize bytes idx : Nat} (patternOffset : Nat) (one zero : β)
    (small : ptrSize < 2 ^ 64 ∧ patternSize < 2 ^ 64)
    (addressed : ptrSize < 2 ^ w * cfg.unit ∧ patternSize < 2 ^ w * cfg.unit)
    (bytes_small : bytes < 2 ^ 64) (below : idx < bytes) (inside : patternOffset ≤ patternSize)
    (short : patternSize < patternOffset / cfg.unit + bytes)
    (first : bytes ≤ patternSize → idx = 0) :
    (testMemory w cfg (fun x _ => if x = BitVec.ofNat w (patternOffset / cfg.unit) then one
        else zero) zero).load (testContext w cfg ptrSize patternSize true (fun _ => zero) small
          addressed)
      (plainPtr cfg.unit cfg.unit_positive 1 patternOffset)
      (fun _ => BitVec.ofNat w (patternOffset / cfg.unit)) [⟨false, 1⟩] bytes idx () =
      fun _ => zero := by
  have const : (testContext w cfg ptrSize patternSize true (fun _ => zero) small
      addressed).constSize ⟨false, 1⟩ = some patternSize := rfl
  have kept : (testContext w cfg ptrSize patternSize true (fun _ => zero) small
      addressed).mayalias (some bytes) ⟨false, 1⟩ = decide (bytes ≤ patternSize) := by
    unfold Context.mayalias
    rw [const]
    change decide (bytes % 2 ^ 64 ≤ patternSize) = _
    rw [Nat.mod_eq_of_lt bytes_small]
  unfold Memory.load Context.access
  dsimp only
  by_cases enough : bytes ≤ patternSize
  · rw [List.filter_cons_of_pos (by rw [kept]; exact decide_eq_true enough), List.filter_nil,
      List.map_singleton, List.map_singleton]
    obtain rfl := first enough
    have unit : patternOffset / cfg.unit < 2 ^ w := by
      rw [Nat.div_lt_iff_lt_mul cfg.unit_positive]
      omega
    have number : (BitVec.ofNat w (patternOffset / cfg.unit)).toNat = patternOffset / cfg.unit := by
      rw [BitVec.toNat_ofNat, Nat.mod_eq_of_lt unit]
    -- there is one block, so that its condition is known
    change (if ((if some patternSize = some bytes then fun _ => 0 else fun _ =>
        BitVec.ofNat w (patternOffset / cfg.unit)) () + BitVec.ofNat w 0).toNat ≤
          (BitVec.ofNat 64 patternSize - BitVec.ofNat 64 bytes + BitVec.ofNat 64 0).toNat then _
      else _) = _
    rw [maxIdx_eq enough small.2 below, BitVec.add_zero]
    by_cases single : patternSize = bytes
    · subst single
      have elsewhere : (0 : BitVec w) + BitVec.ofNat w 0 ≠
          BitVec.ofNat w (patternOffset / cfg.unit) := by
        intro same
        have value := congrArg BitVec.toNat same
        rw [number, BitVec.add_zero, BitVec.ofNat_eq_ofNat, BitVec.toNat_zero] at value
        omega
      rw [if_pos rfl]
      split
      · funext r
        exact if_neg elsewhere
      · rfl
    · rw [if_neg fun same => single (Option.some.inj same), number, if_neg (by omega)]
  · rw [List.filter_cons_of_neg (by rw [kept]; simpa using enough), List.filter_nil]
    rfl

theorem when_of_fills [Nontrivial β] (power : ∃ z, cfg.unit = 2 ^ z) (nonempty : 0 < count)
    (small : ptrOffset + units * cfg.unit < 2 ^ 64 ∧ patternOffset + count * cfg.unit < 2 ^ 64)
    (addressed : ptrOffset + units * cfg.unit < 2 ^ w * cfg.unit ∧
      patternOffset + min (units * cfg.unit) (count * cfg.unit) < 2 ^ w * cfg.unit)
    (always : FillsAlways cfg w β littleEndian const ptrOffset patternOffset (units * cfg.unit)
      (count * cfg.unit)) :
    FillsWhen cfg.unit littleEndian const ptrOffset patternOffset (units * cfg.unit)
      (count * cfg.unit) := by
  obtain ⟨one, zero, different⟩ := exists_pair_ne β
  have unit_positive := cfg.unit_positive
  have sizes : ptrOffset + units * cfg.unit < 2 ^ 64 ∧
      patternOffset + min (units * cfg.unit) (count * cfg.unit) < 2 ^ 64 := by omega
  rcases Nat.eq_zero_or_pos units with rfl | positive
  · exact .inl (Nat.zero_mul _)
  have some_bytes : 0 < units * cfg.unit := Nat.mul_pos positive unit_positive
  -- the bytes that are written, if the size of the pattern's block is not known
  have placed : ∀ (content : BitVec w → Fin cfg.unit → β) (base : β),
      ∃ new : Memory Unit (BitVec w) (Fin cfg.unit → β) w,
        (∀ k < units * cfg.unit, new.byteAt ⟨false, 0⟩ (ptrOffset + k) () =
          (testMemory w cfg content base).byteAt ⟨false, 1⟩
            (patternOffset + k % (count * cfg.unit)) ()) ∧
        (∀ o < ptrOffset, new.byteAt ⟨false, 0⟩ o () = base) ∧
        (const = true → units ≤ 4 → units ≤ count) ∧
        ∀ j < units, new.val ⟨false, 0⟩ () (BitVec.ofNat w (ptrOffset / cfg.unit) +
          BitVec.ofNat w j) = content (BitVec.ofNat w (patternOffset / cfg.unit) +
            BitVec.ofNat w (element littleEndian count (selected (const && units ≤ 4) cfg.unit
              count (BitVec.ofNat w (ptrOffset / cfg.unit)) j))) := by
    intro content base
    obtain ⟨new, filled, kept, enough, written⟩ := test_fill false
      (fun _ => zero) nonempty sizes addressed always content base
    refine ⟨new, filled, kept, enough, fun j below => ?_⟩
    rw [written.given j below, Memory.patternByte_eq
      (Nat.mul_div_cancel _ unit_positive) (List.mem_singleton_self _)]
    · rfl
    · have floor := Nat.div_le_self patternOffset cfg.unit
      have mod := Nat.mod_le (patternOffset / cfg.unit) (2 ^ w)
      change (BitVec.ofNat w (patternOffset / cfg.unit)).toNat + count * cfg.unit ≤ 2 ^ 64 - 1
      rw [BitVec.toNat_ofNat]
      omega
    · refine selected_lt nonempty fun stored => ?_
      rw [Bool.and_eq_true, decide_eq_true_eq] at stored
      exact Nat.lt_of_lt_of_le below (enough stored.1 stored.2)
  have at_start : BitVec.ofNat w (ptrOffset / cfg.unit) + BitVec.ofNat w 0 =
      BitVec.ofNat w (ptrOffset / cfg.unit) := BitVec.add_zero _
  -- the first byte
  have ⟨first_unit, part⟩ := eq_of_contents
    (x := BitVec.ofNat w (patternOffset / cfg.unit) + BitVec.ofNat w (element littleEndian count
      (selected (const && units ≤ 4) cfg.unit count (BitVec.ofNat w (ptrOffset / cfg.unit)) 0)))
    (y := BitVec.ofNat w (patternOffset / cfg.unit))
    (r := (⟨ptrOffset % cfg.unit, Nat.mod_lt _ unit_positive⟩ : Fin cfg.unit))
    (s := ⟨patternOffset % cfg.unit, Nat.mod_lt _ unit_positive⟩) fun content => by
      obtain ⟨new, filled, -, -, val⟩ := placed content zero
      have read := filled 0 some_bytes
      have write := val 0 positive
      rw [Nat.zero_mod, Nat.add_zero, Nat.add_zero] at read
      rw [at_start] at write
      exact (congrFun write _).symm.trans read
  -- the bytes before the first one
  have ptr_aligned : cfg.unit ∣ ptrOffset := by
    by_contra unaligned
    have before : ptrOffset / cfg.unit * cfg.unit < ptrOffset := by
      have whole := Nat.div_add_mod' ptrOffset cfg.unit
      have rest := Nat.emod_pos_of_not_dvd unaligned
      omega
    obtain ⟨new, -, kept, -, val⟩ := placed (fun _ _ => one) zero
    have read := kept _ before
    have write := val 0 positive
    rw [at_start] at write
    rw [Memory.byteAt_eq (Nat.mul_div_cancel _ unit_positive) (Nat.mul_mod_left _ _)
      unit_positive, write] at read
    exact different read
  have pattern_aligned : cfg.unit ∣ patternOffset := by
    refine Nat.dvd_of_mod_eq_zero ?_
    rw [← Fin.mk.inj part, Nat.mod_eq_zero_of_dvd ptr_aligned]
  have in_place : ∀ j < units, BitVec.ofNat w (element littleEndian count
      (selected (const && units ≤ 4) cfg.unit count (BitVec.ofNat w (ptrOffset / cfg.unit)) j)) =
      BitVec.ofNat w (j % count) := by
    intro j below
    have ⟨same, _⟩ := eq_of_contents
      (x := BitVec.ofNat w (patternOffset / cfg.unit) + BitVec.ofNat w (element littleEndian count
        (selected (const && units ≤ 4) cfg.unit count (BitVec.ofNat w (ptrOffset / cfg.unit)) j)))
      (y := BitVec.ofNat w (patternOffset / cfg.unit) + BitVec.ofNat w (j % count))
      (r := (⟨0, unit_positive⟩ : Fin cfg.unit)) (s := ⟨0, unit_positive⟩) fun content => by
        obtain ⟨new, filled, -, -, val⟩ := placed content zero
        have read := filled (j * cfg.unit) (Nat.mul_lt_mul_of_pos_right below unit_positive)
        rw [Nat.mul_mod_mul_right, Memory.byteAt_unit ptr_aligned,
          Memory.byteAt_unit pattern_aligned, val j below] at read
        exact read
    exact add_left_cancel same
  have fits : patternOffset / cfg.unit + count * cfg.unit ≤ patternOffset + units * cfg.unit := by
    by_contra short
    -- a pattern at the end of a block of known size is not loaded from there
    obtain ⟨new, filled, -, -, written⟩ := test_fill true
      (fun _ => zero) nonempty sizes addressed always
      (fun x _ => if x = BitVec.ofNat w (patternOffset / cfg.unit) then one else zero) zero
    have read := filled 0 some_bytes
    have write := written.given 0 positive
    rw [at_start] at write
    rw [Nat.zero_mod, Nat.add_zero, Nat.add_zero, Memory.byteAt_eq rfl (Nat.mod_eq_zero_of_dvd
      ptr_aligned) unit_positive, write, Memory.byteAt_eq rfl (Nat.mod_eq_zero_of_dvd
      pattern_aligned) unit_positive] at read
    have index : selected (const && decide (units ≤ 4)) cfg.unit count
        (BitVec.ofNat w (ptrOffset / cfg.unit)) 0 < count := selected_lt nonempty fun _ => nonempty
    have element_small : element littleEndian count _ < count := element_lt index
    have floor := Nat.div_le_self patternOffset cfg.unit
    have longer : units * cfg.unit < count * cfg.unit := by omega
    have missing := load_short patternOffset one zero sizes addressed (by omega)
      (Nat.lt_of_lt_of_le element_small (Nat.le_mul_of_pos_right _ unit_positive))
      (Nat.le_add_right _ _) (by omega) fun enough => by
        have small_count : count < 2 ^ w :=
          Nat.lt_of_mul_lt_mul_right (a := cfg.unit) (by omega)
        have same := congrArg BitVec.toNat (in_place 0 positive)
        rw [BitVec.toNat_ofNat, Nat.mod_eq_of_lt (element_small.trans small_count), Nat.zero_mod,
          BitVec.toNat_ofNat, Nat.zero_mod] at same
        exact same
    unfold Memory.patternByte at read
    rw [Nat.mul_div_cancel count unit_positive] at read
    exact different ((if_pos rfl).symm.trans (read.symm.trans (congrFun missing _)))
  have small_count : count < 2 ^ w := by
    have room := Nat.le_trans (Nat.le_add_left _ _) fits
    refine Nat.lt_of_mul_lt_mul_right (a := cfg.unit) ?_
    omega
  have start := Nat.div_mul_cancel ptr_aligned
  have no_wrap : ptrOffset / cfg.unit + units < 2 ^ w := by
    refine Nat.lt_of_mul_lt_mul_right (a := cfg.unit) ?_
    rw [Nat.add_mul, start]
    exact addressed.1
  have number : (BitVec.ofNat w (ptrOffset / cfg.unit)).toNat = ptrOffset / cfg.unit := by
    rw [BitVec.toNat_ofNat, Nat.mod_eq_of_lt (by omega)]
  obtain ⟨_, _, _, enough, _⟩ := placed (fun _ _ => zero) zero
  right
  rw [Nat.mul_div_cancel _ unit_positive, Nat.mul_div_cancel _ unit_positive, ← number]
  refine ⟨ptr_aligned, pattern_aligned, fits, ?_⟩
  refine (inOrder_iff power nonempty positive small_count (by rwa [number]) enough ?_).1 ?_
  · rw [Nat.mul_comm count] at fits
    exact le_of_fits fits
  · intro j below
    have same := congrArg BitVec.toNat (in_place j below)
    have mod_lt := Nat.mod_lt j nonempty
    rw [BitVec.toNat_ofNat, BitVec.toNat_ofNat, Nat.mod_eq_of_lt, Nat.mod_eq_of_lt (a := j % count)]
      at same
    · exact same
    · omega
    · refine Nat.lt_trans (element_lt (selected_lt nonempty fun stored => ?_)) small_count
      rw [Bool.and_eq_true, decide_eq_true_eq] at stored
      exact Nat.lt_of_lt_of_le below (enough stored.1 stored.2)

end

/-- `memset_pattern` fills the destination with the pattern in every memory exactly if the
lengths and the offsets meet the condition. -/
theorem memsetPattern_fills_iff
    [Nontrivial β] {littleEndian const : Bool} {ptrOffset patternOffset n patternLength : Nat}
    (power : ∃ z, cfg.unit = 2 ^ z) (pattern_positive : 0 < patternLength)
    (pattern_units : cfg.unit ∣ patternLength) (n_units : cfg.unit ∣ n)
    (small : ptrOffset + n < 2 ^ 64 ∧ patternOffset + patternLength < 2 ^ 64)
    (addressed : ptrOffset + n < 2 ^ w * cfg.unit ∧
      patternOffset + min n patternLength < 2 ^ w * cfg.unit) :
    FillsAlways cfg w β littleEndian const ptrOffset patternOffset n patternLength ↔
      FillsWhen cfg.unit littleEndian const ptrOffset patternOffset n patternLength := by
  refine ⟨fun always => ?_, fills_of_when power pattern_positive pattern_units n_units⟩
  obtain ⟨units, rfl⟩ := n_units
  obtain ⟨count, rfl⟩ := pattern_units
  rw [Nat.mul_comm cfg.unit units, Nat.mul_comm cfg.unit count] at *
  exact when_of_fills power (Nat.pos_of_mul_pos_right pattern_positive) small addressed always

theorem memsetPattern_fills_aligned :
    FillsAlways threeBlocks 8 Bool true true 4 0 5 4 :=
  (memsetPattern_fills_iff ⟨0, rfl⟩ (by decide) (by decide) (by decide) (by decide)
    (by decide)).2 (.inr (by
      unfold PatternInOrder
      decide))

/-- The same one byte later: the first byte that is written is the second one of the pattern. -/
theorem memsetPattern_by_block_offset :
    ¬∀ ptrOffset, FillsAlways threeBlocks 8 Bool true true ptrOffset 0 5 4 := by
  intro claim
  have always : FillsAlways threeBlocks 8 Bool true true 1 0 (5 * threeBlocks.unit)
      (4 * threeBlocks.unit) :=
    claim 1
  have condition : FillsWhen 1 true true 1 0 5 4 :=
    when_of_fills ⟨0, rfl⟩ (by decide) (by decide) (by decide) always
  unfold FillsWhen PatternInOrder at condition
  exact absurd condition (by decide)


end AliveNext.IR.Stored
