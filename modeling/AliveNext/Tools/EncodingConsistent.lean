import AliveNext.Tools.EncodingWidths

/-!
# Consistency of the widths

What the rest of the encoding relies on: ids of blocks fit, the widths are ordered, sizes fit and
are not negative as offsets, and bytes are powers of two that all accesses consist of.
-/

namespace AliveNext.Tools.Widths

open IR IR.Accesses

/-! ## What the functions contain -/

/-- `dereferenceable` and `dereferenceable_or_null`. -/
def derefs (dereferenceable orNull : Bool) (derefBytes orNullBytes : Nat) : List Nat :=
  (if dereferenceable then [derefBytes] else []) ++ if orNull then [orNullBytes] else []

def paramDerefs (attrs : Accesses.ParamAttrs) : List Nat :=
  derefs (attrs.has .dereferenceable) (attrs.has .dereferenceableOrNull) attrs.derefBytes
    attrs.derefOrNullBytes

def retDerefs (attrs : FnAttrs) : List Nat :=
  derefs (attrs.has .dereferenceable) (attrs.has .dereferenceableOrNull) attrs.derefBytes
    attrs.derefOrNullBytes

def accessSizes (bitsProgramPointer : Nat) : Instr → List Nat
  | .load ty _ | .store ty _ => [storeByteSize bitsProgramPointer ty]
  | .memset (some n) _ | .memsetPattern (some n) _ | .memcpy (some n) _ _ | .memcmp (some n)
  | .assume .dereferenceable (some n) | .assume .dereferenceableOrNull (some n) => [asUint64 n]
  | .strlen (some size) => [size]
  | .fnCall call => retDerefs call.attrs ++ call.args.flatMap fun arg => paramDerefs arg.attrs
  | _ => []

def inputAccessSizes (attrs : Accesses.ParamAttrs) : List Nat :=
  paramDerefs attrs ++ (if attrs.has .byVal then [attrs.blockSize] else []) ++
    attrs.initializes.map Prod.snd

def constAllocSizes : Instr → List Nat
  | .alloc (some bytes) none _ => [asUint64 bytes]
  | .alloc (some bytes) (some (some n)) _ => [asUint64 bytes * asUint64 n]
  | .fnCall call =>
    if call.attrs.has .allocSize then
      match call.argInt call.attrs.allocsize0, call.attrs.allocsize1 with
      | some sz, none => [asUint64 sz]
      | some sz, some i => (call.argInt i).toList.map fun n => asUint64 sz * asUint64 n
      | none, _ => []
    else []
  | _ => []

structure Access where
  size : Option Nat
  align : Nat

/-- The accesses in units of bytes. `memset_pattern` stores with alignment 1. -/
def instrAccesses (bitsProgramPointer : Nat) : Instr → List Access
  | .load ty align | .store ty align => [⟨some (storeByteSize bitsProgramPointer ty), align⟩]
  | .memset bytes align => [⟨bytes.map asUint64, align⟩]
  | .memsetPattern bytes _ => [⟨bytes.map asUint64, 1⟩]
  | .fnCall call => (retDerefs call.attrs).map (⟨some ·, call.attrs.align⟩) ++
      call.args.flatMap fun arg => (paramDerefs arg.attrs).map (⟨some ·, arg.attrs.align⟩)
  | _ => []

def functionAccesses (bitsProgramPointer : Nat) (f : Function) : List Access :=
  f.instrs.flatMap (instrAccesses bitsProgramPointer) ++
    (retDerefs f.attrs).map (⟨some ·, f.attrs.align⟩) ++
      f.inputs.flatMap fun input => input.attrs.toList.flatMap fun attrs =>
        (paramDerefs attrs).map (⟨some ·, attrs.align⟩)

namespace Transform

variable (t : Transform)

def accesses : List Access :=
  functionAccesses t.target.bitsPointers t.src ++ functionAccesses t.target.bitsPointers t.tgt

def instrAccessSizes (f : Function) : List Nat :=
  f.instrs.flatMap (accessSizes t.target.bitsPointers)

def paramAccessSizes (f : Function) : List Nat :=
  f.inputs.flatMap fun input => input.attrs.toList.flatMap inputAccessSizes

def allAccessSizes : List Nat :=
  paramAccessSizes t.src ++ t.instrAccessSizes t.src ++ paramAccessSizes t.tgt ++
    t.instrAccessSizes t.tgt

/-- The maxima do not cut this size: a sign bit included it fits the offsets of the target and of
the options, and pointers, and it fits sizes. -/
def Uncut (size : Nat) : Prop :=
  bitWidth size < t.target.bitsPtrOffset ∧ bitWidth size < t.target.maxOffsetBits ∧
    bitWidth size < t.target.bitsPointers ∧ bitWidth size ≤ t.target.maxSizetBits

end Transform

def Constants.Fits (c : Constants) (size : Nat) : Prop :=
  size < 2 ^ c.bitsSizeT ∧ size < 2 ^ (c.bitsForOffset - 1)

structure Consistent (t : Transform) (c : Constants) : Prop where
  localsSrc : ∀ bid < c.numLocalsSrc, bid < 2 ^ c.bitsShortBid
  localsTgt : ∀ bid < c.numLocalsTgt, bid < 2 ^ c.bitsShortBid
  nonlocals : ∀ bid < c.numNonlocals, bid < 2 ^ c.bitsShortBid
  size_le_address : c.bitsSizeT ≤ c.bitsPtrAddress
  address_le_offset : c.bitsPtrAddress ≤ c.bitsForOffset
  offset_le_pointer : c.bitsForOffset ≤ c.bitsProgramPointer
  globals : ∀ glb ∈ t.globals, t.Uncut glb.size → c.Fits glb.size
  accesses : ∀ size ∈ t.allAccessSizes, t.Uncut size → c.Fits size
  allocs : ∀ i ∈ t.instrs, ∀ size ∈ constAllocSizes i, t.Uncut size → c.Fits size
  poison : c.bitsPoisonPerByte ∣ c.bitsByte
  power : ∃ k, c.bitsByte / 8 = 2 ^ k
  divides : ∀ a ∈ t.accesses, (∀ n, a.size = some n → c.bitsByte / 8 ∣ n) ∧ c.bitsByte / 8 ∣ a.align

namespace Transform

variable (t : Transform)

def contributions : List Nat := (t.instrs.map t.byteSizeOf).filter (· ≠ 0)

def Reaches (n : Nat) : Prop := ∃ c ∈ t.contributions, ∀ k, 2 ^ k ∣ c → 2 ^ k ∣ n

/-- There are no accesses of memory, or nothing contributes, or the contributions have no odd
factor in common and each access has a contribution with at most its factors 2. -/
def BytesMeet : Prop :=
  t.doesMemAccess = false ∨ t.contributions = [] ∨
    (∀ d, Odd d → (∀ c ∈ t.contributions, d ∣ c) → d = 1) ∧
      ∀ a ∈ t.accesses, (∀ n, a.size = some n → t.Reaches n) ∧ t.Reaches a.align

/-- What enters `max_access_size` before it is rounded up for the last time. -/
def earlySizes : List Nat := inputSizes t.src ++ t.instrSizes t.src ++ inputSizes t.tgt

def lateSizes : List Nat := t.instrSizes t.tgt ++ t.globalSizes

/-- No size of an access is lost: addresses are observed, or rounding up wraps nowhere, or what
is not cut is not larger than what is counted after the last rounding. -/
def Kept : Prop :=
  t.observesAddresses = true ∨
    ((∀ input ∈ t.inputs, ∀ attrs, input.attrs = some attrs →
        0 < attrs.align ∧ attrs.accessBytes + attrs.align - 1 < 2 ^ 64) ∧
      ∀ size ∈ t.earlySizes, size ≤ 2 ^ 64 - 8) ∨
    ∀ size ∈ t.allAccessSizes, t.Uncut size → ∃ other ∈ t.lateSizes, size ≤ other

/-- The size of a byte fits its `unsigned`. -/
def SmallBytes : Prop :=
  t.doesMemAccess = false ∨ t.contributions = [] ∨ ∃ c ∈ t.contributions, c < 2 ^ 29

end Transform

section

variable {n k s a b size align init : Nat} {l : List Nat}

theorem bitWidth_le_iff : bitWidth n ≤ k ↔ n < 2 ^ k := by
  unfold bitWidth
  split
  · next zero =>
      rw [zero]
      exact iff_of_true (Nat.zero_le k) (Nat.two_pow_pos k)
  · next nonzero => rw [Nat.succ_le_iff, Nat.log2_lt nonzero]

theorem bitWidth_mono (less : s ≤ n) : bitWidth s ≤ bitWidth n :=
  bitWidth_le_iff.2 (less.trans_lt (bitWidth_le_iff.1 le_rfl))

theorem le_ilog2Ceil (n : Nat) : n ≤ 2 ^ ilog2Ceil n := by
  unfold ilog2Ceil
  split
  · next power => exact (of_decide_eq_true power).le
  · refine (bitWidth_le_iff.1 ?_).le
    unfold ilog2
    split
    · next zero => rw [zero]; decide
    · omega

theorem lt_of_lt_count (below : s < n) : s < 2 ^ max 1 (ilog2Ceil n) :=
  (below.trans_le (le_ilog2Ceil n)).trans_le
    (Nat.pow_le_pow_right (by decide) (Nat.le_max_right 1 _))

theorem le_addSaturate_left (less : s ≤ a) (small : s ≤ uint64Max) : s ≤ addSaturate a b := by
  unfold addSaturate
  split <;> omega

theorem le_addSaturate_right (less : s ≤ b) (small : s ≤ uint64Max) : s ≤ addSaturate a b := by
  unfold addSaturate
  split <;> omega

theorem le_alignedAllocSize
    (less : s ≤ size) (small : s ≤ uint64Max) : s ≤ alignedAllocSize size align := by
  unfold alignedAllocSize
  split
  · omega
  · exact le_addSaturate_left less small

theorem le_foldl_max (l : List Nat) (init : Nat) :
    init ≤ l.foldl max init ∧ ∀ n ∈ l, n ≤ l.foldl max init := by
  induction l generalizing init with
  | nil => exact ⟨le_rfl, List.forall_mem_nil _⟩
  | cons head l ih =>
    obtain ⟨first, each⟩ := ih (max init head)
    rw [List.foldl_cons]
    refine ⟨(Nat.le_max_left _ _).trans first, fun n member => ?_⟩
    rcases List.mem_cons.1 member with rfl | inside
    · exact (Nat.le_max_right _ _).trans first
    · exact each n inside

theorem le_alignedSizes {sizes : List (Nat × Nat)} (member : (size, align) ∈ sizes)
    (less : s ≤ size) (small : s ≤ uint64Max) : s ≤ Transform.alignedSizes sizes := by
  have grows : ∀ (sizes : List (Nat × Nat)) (sum : Nat), s ≤ sum ∨ (size, align) ∈ sizes →
      s ≤ sizes.foldl (fun sum size => addSaturate sum (alignedAllocSize size.1 size.2)) sum := by
    intro sizes
    induction sizes with
    | nil =>
      rintro sum (before | none)
      · exact before
      · exact absurd none List.not_mem_nil
    | cons head sizes ih =>
      rintro sum (before | member)
      · exact ih _ (.inl (le_addSaturate_left before small))
      · rcases List.mem_cons.1 member with rfl | inside
        · exact ih _ (.inl (le_addSaturate_right (le_alignedAllocSize less small) small))
        · exact ih _ (.inr inside)
  exact grows sizes 0 (.inr member)

theorem le_roundUp (positive : 0 < a) (fits : n + a - 1 < 2 ^ 64) : n ≤ roundUp n a := by
  have split := Nat.div_add_mod (n + a - 1) a
  have rest := Nat.mod_lt (n + a - 1) positive
  rw [roundUp, Nat.mod_eq_of_lt fits, Nat.mul_comm]
  omega

theorem exists_pow_iff (nonzero : n ≠ 0) : (∃ k, n = 2 ^ k) ↔ ∀ d, Odd d → d ∣ n → d = 1 := by
  constructor
  · rintro ⟨k, rfl⟩ d odd factor
    exact Nat.Coprime.eq_one_of_dvd (odd.coprime_two_right.pow_right k) factor
  · intro none
    obtain ⟨k, d, odd, same⟩ := Nat.exists_eq_two_pow_mul_odd nonzero
    have one := none d odd (same ▸ Nat.dvd_mul_left d _)
    exact ⟨k, by rw [same, one, Nat.mul_one]⟩

theorem foldl_gcdOpt (l : List Nat) : ∀ start : Option Nat, (∀ n, start = some n → n ≠ 0) →
    match l.foldl gcdOpt start with
    | none => start = none ∧ l.filter (· ≠ 0) = []
    | some m => m ≠ 0 ∧
        ∀ d, d ∣ m ↔ (∀ n, start = some n → d ∣ n) ∧ ∀ c ∈ l.filter (· ≠ 0), d ∣ c := by
  induction l with
  | nil =>
    intro start nonzero
    cases start with
    | none => exact ⟨rfl, rfl⟩
    | some n => simp [nonzero n rfl]
  | cons c l ih =>
    intro start nonzero
    rw [List.foldl_cons]
    by_cases zero : c = 0
    · have same : gcdOpt start c = start := by rw [gcdOpt.eq_def, if_pos zero]
      rw [same, List.filter_cons_of_neg (by simp [zero])]
      exact ih start nonzero
    · have later := ih (gcdOpt start c) (by
        intro n equal
        rw [gcdOpt.eq_def, if_neg zero] at equal
        cases start with
        | none => exact Option.some.inj equal ▸ zero
        | some m => exact Option.some.inj equal ▸ Nat.gcd_ne_zero_right zero)
      rw [List.filter_cons_of_pos (by simp [zero])]
      have known : ∃ n, gcdOpt start c = some n ∧
          ∀ d, d ∣ n ↔ (∀ n, start = some n → d ∣ n) ∧ d ∣ c := by
        rw [gcdOpt.eq_def, if_neg zero]
        cases start with
        | none => exact ⟨c, rfl, by simp⟩
        | some m => exact ⟨Nat.gcd m c, rfl, by simp [Nat.dvd_gcd_iff]⟩
      obtain ⟨n, equal, divisors⟩ := known
      rw [equal] at later ⊢
      cases result : l.foldl gcdOpt (some n) with
      | none =>
        rw [result] at later
        exact absurd later.1 (by simp)
      | some m =>
        rw [result] at later
        refine ⟨later.1, fun d => ?_⟩
        rw [later.2 d]
        simp only [Option.some.injEq, forall_eq', divisors, List.forall_mem_cons, and_assoc]

end

section

variable {bpp s : Nat} {i : Instr} {call : FnCall} {attrs : Accesses.ParamAttrs}

theorem le_derefs (init : Nat) {dereferenceable orNull : Bool} {derefBytes orNullBytes : Nat}
    (either : s ≤ init ∨ s ∈ derefs dereferenceable orNull derefBytes orNullBytes) :
    s ≤ (let sz := if dereferenceable then max init derefBytes else init
      if orNull then max sz orNullBytes else sz) := by
  have counted : ∀ {b : Bool} {n m : Nat}, s ≤ m → s ≤ if b then max m n else m := by
    intro b n m less
    split
    · exact less.trans (Nat.le_max_left m n)
    · exact less
  have given : ∀ {b : Bool} {n m : Nat}, s ∈ (if b then [n] else []) →
      s ≤ if b then max m n else m := by
    intro b n m member
    split at member
    · next has =>
        rw [if_pos has, List.mem_singleton.1 member]
        exact Nat.le_max_right m n
    · exact absurd member List.not_mem_nil
  rcases either with before | member
  · exact counted (counted before)
  · rcases List.mem_append.1 member with first | second
    · exact counted (given first)
    · exact given second

theorem callAccessSize_le
    (member : s ∈ retDerefs call.attrs ++ call.args.flatMap fun arg => paramDerefs arg.attrs) :
    s ≤ call.getMaxAccessSize := by
  have args : ∀ (args : List Arg) (init : Nat),
      s ≤ init ∨ s ∈ (args.flatMap fun arg => paramDerefs arg.attrs) →
      s ≤ args.foldl (fun sz arg =>
        let sz := if arg.attrs.has .dereferenceable then max sz arg.attrs.derefBytes else sz
        if arg.attrs.has .dereferenceableOrNull then max sz arg.attrs.derefOrNullBytes
        else sz) init := by
    intro args
    induction args with
    | nil =>
      rintro init (before | none)
      · exact before
      · exact absurd none List.not_mem_nil
    | cons arg args ih =>
      rintro init (before | member)
      · exact ih _ (.inl (le_derefs _ (.inl before)))
      · rw [List.flatMap_cons] at member
        rcases List.mem_append.1 member with first | inside
        · exact ih _ (.inl (le_derefs _ (.inr first)))
        · exact ih _ (.inr inside)
  refine args call.args _ ?_
  rcases List.mem_append.1 member with ret | inside
  · have less := le_derefs 0 (.inr ret)
    dsimp only at less
    rw [Nat.zero_max] at less
    exact .inl less
  · exact .inr inside

theorem accessSize_le (member : s ∈ accessSizes bpp i) :
    i.isMemInstr = true ∧ s ≤ i.getMaxAccessSize bpp := by
  unfold accessSizes at member
  split at member
  case h_10 => exact ⟨rfl, callAccessSize_le member⟩
  case h_11 => exact absurd member List.not_mem_nil
  all_goals exact ⟨rfl, (List.mem_singleton.1 member).le⟩

theorem inputAccessSize_le (member : s ∈ inputAccessSizes attrs) : s ≤ attrs.accessBytes := by
  have ranges : ∀ (ranges : List (Nat × Nat)) (init : Nat), s ≤ init ∨ s ∈ ranges.map Prod.snd →
        s ≤ ranges.foldl (fun bytes range => max bytes range.2) init := by
    intro ranges
    induction ranges with
    | nil =>
      rintro init (before | none)
      · exact before
      · exact absurd none List.not_mem_nil
    | cons range ranges ih =>
      rintro init (before | member)
      · exact ih _ (.inl (before.trans (Nat.le_max_left _ _)))
      · rw [List.map_cons] at member
        rcases List.mem_cons.1 member with rfl | inside
        · exact ih _ (.inl (Nat.le_max_right _ _))
        · exact ih _ (.inr inside)
  refine ranges attrs.initializes _ ?_
  rcases List.mem_append.1 member with bytes | initializes
  · have known : s ∈ paramDerefs attrs ∨ attrs.has .byVal = true ∧ s = attrs.blockSize := by
      rcases List.mem_append.1 bytes with deref | byVal
      · exact .inl deref
      · split at byVal
        · next has => exact .inr ⟨has, List.mem_singleton.1 byVal⟩
        · exact absurd byVal List.not_mem_nil
    left
    unfold Accesses.ParamAttrs.getDerefBytes
    rcases known with deref | ⟨has, rfl⟩
    · have less := le_derefs 0 (.inr deref)
      dsimp only at less ⊢
      rw [Nat.zero_max] at less
      cases attrs.has .byVal with
      | false => exact less
      | true =>
        rw [if_pos rfl]
        split at less
        · next orNull =>
            rw [if_pos orNull]
            exact less.trans (max_le_max_right _ (Nat.le_max_left _ _))
        · next none =>
            rw [if_neg none]
            exact less.trans (Nat.le_max_left _ _)
    · dsimp only
      rw [if_pos has]
      split
      · exact (Nat.le_max_right _ _).trans (Nat.le_max_left _ _)
      · exact Nat.le_max_right _ _
  · exact .inr initializes

theorem mulSize_le {bytes n : Int} (small : asUint64 bytes * asUint64 n < 2 ^ 63) :
    asUint64 bytes * asUint64 n ≤ asUint64 (n * |bytes|) := by
  have value : ∀ m : Int, (asUint64 m : Int) = m % 2 ^ 64 := fun m =>
    Int.toNat_of_nonneg (Int.emod_nonneg m (by decide))
  have product : ((asUint64 bytes * asUint64 n : Nat) : Int) % 2 ^ 64 = n * bytes % 2 ^ 64 := by
    rw [Int.natCast_mul, value, value, ← Int.mul_emod, Int.mul_comm]
  have result := value (n * |bytes|)
  generalize asUint64 bytes * asUint64 n = size at small product ⊢
  generalize asUint64 (n * |bytes|) = computed at result ⊢
  rcases abs_choice bytes with same | negated
  · rw [same] at result
    omega
  · rw [negated, Int.mul_neg] at result
    omega

theorem constAllocSize_le (member : s ∈ constAllocSizes i)
    (small : s < 2 ^ 63) : i.isMemInstr = true ∧ s ≤ i.getMaxAllocSize.1 := by
  unfold constAllocSizes at member
  split at member
  · exact ⟨rfl, (List.mem_singleton.1 member).le⟩
  · next bytes n align =>
      obtain rfl := List.mem_singleton.1 member
      refine ⟨rfl, ?_⟩
      rw [Instr.getMaxAllocSize]
      split
      · next zero =>
          rw [zero]
          exact (Nat.zero_mul _).le
      · exact mulSize_le small
  · next call =>
      refine ⟨rfl, ?_⟩
      rw [Instr.getMaxAllocSize, FnCall.getMaxAllocSize]
      split at member
      · next has =>
          rw [if_neg (by rw [has]; decide)]
          split at member
          · next first second =>
              rw [first, second]
              exact (List.mem_singleton.1 member).le
          · next sz i first second =>
              obtain ⟨n, known, rfl⟩ := List.mem_map.1 member
              rw [Option.mem_toList] at known
              rw [first, second]
              dsimp only
              rw [known]
              exact (if_pos (by omega : asUint64 sz * asUint64 n < 2 ^ 64)).ge
          · exact absurd member List.not_mem_nil
      · exact absurd member List.not_mem_nil
  · exact absurd member List.not_mem_nil

end

section

variable (t : Transform) {s : Nat}

theorem bitsShortBid_eq : (calculateAndInitConstants t).bitsShortBid =
      max 1 (ilog2Ceil (max (max (Transform.numLocals t.src) (Transform.numLocals t.tgt))
        t.numNonlocals)) := by
  have same : (calculateAndInitConstants t).hasLocalBit =
      (max (Transform.numLocals t.src) (Transform.numLocals t.tgt) ≠ 0 && t.numNonlocals ≠ 0 : Bool)
      := by
    rw [Constants.hasLocalBit, calculateAndInitConstants]
    congr 1
    rw [Bool.eq_iff_iff, Bool.or_eq_true, decide_eq_true_iff, decide_eq_true_iff,
      decide_eq_true_iff]
    dsimp only
    omega
  rw [Constants.bitsShortBid, same, calculateAndInitConstants, bitsForBid]
  exact Nat.add_sub_cancel _ _

theorem bid_fits
    (below : s < max (max (Transform.numLocals t.src) (Transform.numLocals t.tgt)) t.numNonlocals) :
    s < 2 ^ (calculateAndInitConstants t).bitsShortBid := by
  rw [bitsShortBid_eq]
  exact lt_of_lt_count below

theorem bitsOfGeps_le : bitsOfGeps t ≤ t.target.bitsPointers := Nat.min_le_right _ _

theorem bitsSizeT_lt : bitsSizeT t < t.target.bitsPointers := by
  have positive := t.target.positive
  unfold bitsSizeT
  omega

theorem bitsSizeT_le : bitsSizeT t ≤ bitsPtrAddress t := by
  have less := bitsSizeT_lt t
  unfold bitsPtrAddress
  dsimp only
  omega

theorem bitsOfGeps_le_address : bitsOfGeps t ≤ bitsPtrAddress t := by
  have less := bitsOfGeps_le t
  unfold bitsPtrAddress
  dsimp only
  omega

theorem bitsPtrAddress_le : bitsPtrAddress t ≤ t.target.bitsPointers := Nat.min_le_right _ _

variable {t}

/-- What is at most `max_access_size` and not cut. -/
theorem fits_of_le_maxAccessSize
    (less : s ≤ t.maxAccessSize) (uncut : t.Uncut s) : (calculateAndInitConstants t).Fits s := by
  obtain ⟨offset, maxOffset, pointer, sizet⟩ := uncut
  have whole := t.target.at_most
  have small : s ≤ uint64Max := by
    have bound := bitWidth_le_iff.1 (pointer.le.trans whole)
    unfold uint64Max
    omega
  have sum := bitWidth_mono (le_addSaturate_right
    (a := max (Transform.maxGep t.src) (Transform.maxGep t.tgt)) less small)
  have bounded : ∀ a b, addSaturate a b < 2 ^ 64 := by
    intro a b
    unfold addSaturate uint64Max
    split <;> omega
  have width := bitWidth_le_iff.2
    (bounded (max (Transform.maxGep t.src) (Transform.maxGep t.tgt)) t.maxAccessSize)
  have rounded := le_roundUp (n := bitWidth (addSaturate
    (max (Transform.maxGep t.src) (Transform.maxGep t.tgt)) t.maxAccessSize) + 1)
    (by decide : 0 < 4) (by omega)
  have geps : bitWidth s + 1 ≤ bitsOfGeps t := by
    unfold bitsOfGeps
    dsimp only
    omega
  have size : bitWidth s ≤ bitsSizeT t := by
    unfold bitsSizeT
    omega
  refine ⟨bitWidth_le_iff.1 size, bitWidth_le_iff.1 ?_⟩
  have offsets : bitsOfGeps t ≤ (calculateAndInitConstants t).bitsForOffset :=
    Nat.le_max_right _ _
  omega

theorem fits_of_le_maxAllocSize (most : s ≤ t.maxAllocSize) (sum : s ≤ t.locAllocAlignedSize)
    (uncut : t.Uncut s) : (calculateAndInitConstants t).Fits s := by
  obtain ⟨offset, maxOffset, pointer, sizet⟩ := uncut
  have width := bitWidth_mono most
  have size : bitWidth s ≤ bitsSizeT t := by
    unfold bitsSizeT
    omega
  have aligned : bitWidth s ≤ bitWidth (max t.glbAllocAlignedSize t.locAllocAlignedSize) :=
    bitWidth_mono (sum.trans (Nat.le_max_right _ _))
  have whole := t.target.at_most
  have address : bitWidth s + 1 ≤ bitsPtrAddress t := by
    have saturated : bitWidth s + 1 ≤
        addSaturate (bitWidth (max t.glbAllocAlignedSize t.locAllocAlignedSize)) 1 := by
      unfold addSaturate uint64Max
      split <;> omega
    unfold bitsPtrAddress
    dsimp only
    omega
  refine ⟨bitWidth_le_iff.1 size, bitWidth_le_iff.1 ?_⟩
  have offsets : bitsPtrAddress t ≤ (calculateAndInitConstants t).bitsForOffset :=
    Nat.le_max_left _ _
  omega

end

section

variable {t : Transform} {f : Function} {s init : Nat}

theorem uncut_lt (uncut : t.Uncut s) : s < 2 ^ 63 :=
  bitWidth_le_iff.1 (Nat.le_of_lt_succ (uncut.2.2.1.trans_le t.target.at_most))

theorem instrSize_of_accessSize
    (member : s ∈ t.instrAccessSizes f) : ∃ n ∈ t.instrSizes f, s ≤ n := by
  obtain ⟨i, inside, member⟩ := List.mem_flatMap.1 member
  obtain ⟨isMem, less⟩ := accessSize_le member
  exact ⟨_, List.mem_map_of_mem (List.mem_filter.2 ⟨inside, isMem⟩), less⟩

theorem inputSize_of_accessSize
    (sound : ∀ input ∈ f.inputs, ∀ attrs, input.attrs = some attrs →
      0 < attrs.align ∧ attrs.accessBytes + attrs.align - 1 < 2 ^ 64)
    (member : s ∈ Transform.paramAccessSizes f) : ∃ n ∈ Transform.inputSizes f, s ≤ n := by
  obtain ⟨input, inside, member⟩ := List.mem_flatMap.1 member
  obtain ⟨attrs, known, member⟩ := List.mem_flatMap.1 member
  rw [Option.mem_toList] at known
  obtain ⟨positive, fits⟩ := sound input inside attrs known
  refine ⟨attrs.maxAccessSize, List.mem_filterMap.2 ⟨input, inside, ?_⟩,
    (inputAccessSize_le member).trans (le_roundUp positive fits)⟩
  rw [known]
  rfl

theorem accessSizeStep_spec
    (start : init ≤ 2 ^ 64 - 8) (inputs : ∀ n ∈ Transform.inputSizes f, n ≤ 2 ^ 64 - 8) :
    init ≤ t.accessSizeStep init f ∧ (∀ n ∈ Transform.inputSizes f, n ≤ t.accessSizeStep init f) ∧
      ((∀ n ∈ t.instrSizes f, n ≤ 2 ^ 64 - 8) → t.accessSizeStep init f ≤ 2 ^ 64 - 8) := by
  have most : ∀ (l : List Nat) (init : Nat), init ≤ 2 ^ 64 - 8 → (∀ n ∈ l, n ≤ 2 ^ 64 - 8) →
      l.foldl max init ≤ 2 ^ 64 - 8 := by
    intro l
    induction l with
    | nil => exact fun init start _ => start
    | cons n l ih =>
      exact fun init start each => ih _ (Nat.max_le.2 ⟨start, each n List.mem_cons_self⟩)
        fun m member => each m (List.mem_cons_of_mem n member)
  have counted := le_foldl_max (Transform.inputSizes f) init
  have bound := most (Transform.inputSizes f) init start inputs
  unfold Transform.accessSizeStep
  dsimp only
  generalize (Transform.inputSizes f).foldl max init = size at counted bound ⊢
  have grows := le_roundUp (n := size) (by decide : 0 < heapBlockAlignment)
    (by unfold heapBlockAlignment; omega)
  have later := (le_foldl_max (t.instrSizes f) (roundUp size heapBlockAlignment)).1
  refine ⟨(counted.1.trans grows).trans later,
    fun n member => ((counted.2 n member).trans grows).trans later, most _ _ ?_⟩
  unfold roundUp heapBlockAlignment
  omega

theorem le_accessSizeStep {n : Nat} (member : n ∈ t.instrSizes f) : n ≤ t.accessSizeStep init f :=
  (le_foldl_max (t.instrSizes f) _).2 n member

theorem accessSize_le_max
    (kept : t.Kept) (member : s ∈ t.allAccessSizes) (uncut : t.Uncut s) : s ≤ t.maxAccessSize := by
  unfold Transform.maxAccessSize
  split
  · have small := uncut_lt uncut
    unfold uint64Max
    omega
  · next none =>
      have globals := le_foldl_max t.globalSizes (t.accessSizeStep (t.accessSizeStep 0 t.src) t.tgt)
      have target : ∀ n ∈ t.instrSizes t.tgt,
          n ≤ t.globalSizes.foldl max (t.accessSizeStep (t.accessSizeStep 0 t.src) t.tgt) :=
        fun n inside => (le_accessSizeStep inside).trans globals.1
      rcases kept with observed | ⟨inputs, early⟩ | late
      · exact absurd observed none
      · have first := accessSizeStep_spec (t := t) (f := t.src) (Nat.zero_le _)
          fun n inside => early n (List.mem_append_left _ (List.mem_append_left _ inside))
        have bound := first.2.2
          fun n inside => early n (List.mem_append_left _ (List.mem_append_right _ inside))
        have second := accessSizeStep_spec (t := t) (f := t.tgt) bound
          fun n inside => early n (List.mem_append_right _ inside)
        rcases List.mem_append.1 member with before | instrTgt
        · rcases List.mem_append.1 before with before | inputTgt
          · rcases List.mem_append.1 before with inputSrc | instrSrc
            · obtain ⟨n, inside, less⟩ := inputSize_of_accessSize
                (fun input place => inputs input (List.mem_append_left _ place)) inputSrc
              exact ((less.trans (first.2.1 n inside)).trans second.1).trans globals.1
            · obtain ⟨n, inside, less⟩ := instrSize_of_accessSize instrSrc
              exact ((less.trans (le_accessSizeStep inside)).trans second.1).trans globals.1
          · obtain ⟨n, inside, less⟩ := inputSize_of_accessSize
              (fun input place => inputs input (List.mem_append_right _ place)) inputTgt
            exact (less.trans (second.2.1 n inside)).trans globals.1
        · obtain ⟨n, inside, less⟩ := instrSize_of_accessSize instrTgt
          exact less.trans (target n inside)
      · obtain ⟨n, inside, less⟩ := late s member uncut
        rcases List.mem_append.1 inside with instr | global
        · exact less.trans (target n instr)
        · exact less.trans (globals.2 n global)

theorem globalSize_le_max {glb : GlobalVariable} (member : glb ∈ t.globals)
    (uncut : t.Uncut glb.size) : glb.size ≤ t.maxAccessSize := by
  unfold Transform.maxAccessSize
  split
  · have small := uncut_lt uncut
    unfold uint64Max
    omega
  · exact (Nat.le_max_left _ 1).trans
      ((le_foldl_max t.globalSizes _).2 _ (List.mem_map_of_mem member))

theorem allocSize_fits {i : Instr} (member : i ∈ t.instrs) (size : s ∈ constAllocSizes i)
    (uncut : t.Uncut s) : (calculateAndInitConstants t).Fits s := by
  have small := uncut_lt uncut
  have whole : s ≤ uint64Max := by
    unfold uint64Max
    omega
  obtain ⟨isMem, less⟩ := constAllocSize_le size small
  have place : i.getMaxAllocSize ∈ Transform.allocSizes t.src ∨
      i.getMaxAllocSize ∈ Transform.allocSizes t.tgt :=
    (List.mem_append.1 member).imp
      (fun inside => List.mem_map_of_mem (List.mem_filter.2 ⟨inside, isMem⟩))
      (fun inside => List.mem_map_of_mem (List.mem_filter.2 ⟨inside, isMem⟩))
  refine fits_of_le_maxAllocSize ?_ ?_ uncut
  · unfold Transform.maxAllocSize
    split
    · exact whole
    · exact less.trans ((le_foldl_max _ 0).2 _ (List.mem_map_of_mem (List.mem_append.2 place)))
  · rcases place with src | tgt
    · exact (le_alignedSizes src less whole).trans (Nat.le_max_left _ _)
    · exact (le_alignedSizes tgt less whole).trans (Nat.le_max_right _ _)

end

section

variable {t : Transform} {m n k : Nat}

theorem minAccessSize_spec : (t.minAccessSize = none ∧ t.contributions = []) ∨
      ∃ m, t.minAccessSize = some m ∧ m ≠ 0 ∧ t.contributions ≠ [] ∧
        ∀ d, d ∣ m ↔ ∀ c ∈ t.contributions, d ∣ c := by
  have spec := foldl_gcdOpt (t.instrs.map t.byteSizeOf) none fun n equal => by cases equal
  unfold Transform.minAccessSize
  cases known : (t.instrs.map t.byteSizeOf).foldl gcdOpt none with
  | none =>
    rw [known] at spec
    exact .inl ⟨rfl, spec.2⟩
  | some m =>
    rw [known] at spec
    obtain ⟨nonzero, divisors⟩ := spec
    have each : ∀ d, d ∣ m ↔ ∀ c ∈ t.contributions, d ∣ c := fun d =>
      (divisors d).trans (and_iff_right fun n equal => by cases equal)
    refine .inr ⟨m, rfl, nonzero, fun empty => ?_, each⟩
    -- nothing would make every number a divisor
    have larger := (each (m + 1)).2 (by simp [empty])
    exact absurd (Nat.le_of_dvd (Nat.pos_of_ne_zero nonzero) larger) (by omega)

theorem pow_dvd_iff_reaches
    (divisors : ∀ d, d ∣ 2 ^ k ↔ ∀ c ∈ t.contributions, d ∣ c) : 2 ^ k ∣ n ↔ t.Reaches n := by
  constructor
  · intro factor
    have next : ¬2 ^ (k + 1) ∣ 2 ^ k :=
      fun contra => absurd ((Nat.pow_dvd_pow_iff_le_right (by decide)).1 contra) (by omega)
    rw [divisors, not_forall] at next
    obtain ⟨c, next⟩ := next
    obtain ⟨member, next⟩ := Classical.not_imp.1 next
    refine ⟨c, member, fun j divides => ?_⟩
    have less : j ≤ k := by
      by_contra more
      exact next ((Nat.pow_dvd_pow 2 (Nat.lt_of_not_le more)).trans divides)
    exact (Nat.pow_dvd_pow 2 less).trans factor
  · rintro ⟨c, member, reaches⟩
    exact reaches k ((divisors (2 ^ k)).1 dvd_rfl c member)

theorem bitsByte_div (small : m < 2 ^ 29) : 8 * (m % 2 ^ 32) % 2 ^ 32 / 8 = m := by
  omega

theorem bytes_iff (small : t.SmallBytes) :
    ((∃ k, bitsByte t / 8 = 2 ^ k) ∧ ∀ a ∈ t.accesses,
      (∀ n, a.size = some n → bitsByte t / 8 ∣ n) ∧ bitsByte t / 8 ∣ a.align) ↔ t.BytesMeet := by
  have one : bitsByte t / 8 = 1 → ((∃ k, bitsByte t / 8 = 2 ^ k) ∧ ∀ a ∈ t.accesses,
      (∀ n, a.size = some n → bitsByte t / 8 ∣ n) ∧ bitsByte t / 8 ∣ a.align) := by
    intro equal
    rw [equal]
    exact ⟨⟨0, rfl⟩, fun a _ => ⟨fun n _ => one_dvd n, one_dvd _⟩⟩
  cases memory : t.doesMemAccess with
  | false => exact iff_of_true (one (by simp [bitsByte, memory])) (.inl memory)
  | true =>
    have no_access : ¬t.doesMemAccess = false := by simp [memory]
    rcases minAccessSize_spec (t := t) with
      ⟨none, empty⟩ | ⟨m, known, nonzero, nonempty, divisors⟩
    · exact iff_of_true (one (by simp [bitsByte, memory, none])) (.inr (.inl empty))
    · have bound : m < 2 ^ 29 := by
        obtain ⟨c, member, less⟩ := (small.resolve_left no_access).resolve_left nonempty
        have positive : 0 < c := Nat.pos_of_ne_zero (by simpa using (List.mem_filter.1 member).2)
        exact (Nat.le_of_dvd positive ((divisors m).1 dvd_rfl c member)).trans_lt less
      have value : bitsByte t / 8 = m := by
        rw [bitsByte, memory, if_pos rfl, known]
        exact bitsByte_div bound
      rw [value]
      unfold Transform.BytesMeet
      have power : (∃ k, m = 2 ^ k) ↔ ∀ d, Odd d → (∀ c ∈ t.contributions, d ∣ c) → d = 1 :=
        (exists_pow_iff nonzero).trans
          (forall_congr' fun d => imp_congr_right fun _ => imp_congr_left (divisors d))
      rw [or_iff_right no_access, or_iff_right nonempty, ← power]
      refine and_congr_right ?_
      rintro ⟨k, rfl⟩
      exact forall_congr' fun a => imp_congr_right fun _ =>
        and_congr (forall_congr' fun n => imp_congr_right fun _ => pow_dvd_iff_reaches divisors)
          (pow_dvd_iff_reaches divisors)

end

theorem poison_dvd (t : Transform) : bitsPoisonPerByte t ∣ bitsByte t := by
  unfold bitsPoisonPerByte
  split
  · exact one_dvd _
  · split
    · exact dvd_rfl
    · exact Nat.div_dvd_of_dvd (Nat.gcd_dvd_left _ _)

def noAttrs : FnAttrs where
  has _ := false
  allockind _ := false
  derefBytes := 0
  derefOrNullBytes := 0
  align := 1
  allocsize0 := 0
  allocsize1 := none
  mem := ⟨fun _ => false, fun _ => false⟩

def single (i : Instr) : Function where
  attrs := noAttrs
  constants := []
  globals := []
  inputs := [⟨.ptr, some ⟨fun _ => false, 0, 0, 0, 1, []⟩⟩]
  stmts := [⟨i, .aggregate false .nil, [.other .ptr]⟩]

def twice (i : Instr) : Transform where
  src := single i
  tgt := single i
  target := ⟨64, 64, 64, 64, by decide, by decide⟩
  numNonlocalsInst := 0

end AliveNext.Tools.Widths
