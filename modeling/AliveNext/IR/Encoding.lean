import AliveNext.IR.RoundTrip

/-!
# When the chosen encoding keeps a value

`calculateAndInitConstants` chooses the encoding from what the program accesses.
An access to an aggregate that holds a pointer counts as a pointer access only,
so the integers in it have no bytes of their own unless some other access needs
them; and the number of a byte in a pointer has as many bits as the number of
bytes has trailing zeros.  These are the two ways in which a value does not come
back from memory.
-/

namespace AliveNext.IR

variable {p : Params}

mutual

def Ty.hasInt : Ty → Bool
  | .int _ => true
  | .ptr => false
  | .vector _ _ => true
  | .aggregate _ children => children.hasInt

def Children.hasInt : Children → Bool
  | .nil => false
  | .field ty rest => ty.hasInt || rest.hasInt
  | .padding _ rest => rest.hasInt

end

def Keeps (p : Params) (hasInt hasPtr : Bool) : Prop :=
  (hasInt = true → p.doesIntMemAccess = true) ∧ (hasPtr = true → numbersFit p = true)

theorem Keeps.or {ints ints' ptrs ptrs' : Bool} :
    Keeps p (ints || ints') (ptrs || ptrs') ↔ Keeps p ints ptrs ∧ Keeps p ints' ptrs' := by
  unfold Keeps
  rw [Bool.or_eq_true, Bool.or_eq_true, or_imp, or_imp]
  exact and_and_and_comm

/-! ## Enough -/

theorem agreesScalar_refl (v : StateValue) : AgreesScalar v v :=
  ⟨rfl, fun _ => rfl⟩

mutual

theorem agrees_of_reads : ∀ {ty : Ty} {stored loaded : StateValue} {pre : Bool},
    Reads p ty stored loaded pre → Keeps p ty.hasInt ty.hasPtr →
    Agrees p ty stored loaded ∧ pre = true
  | .int width, stored, loaded, pre, reads, keeps => by
    rw [Reads, if_pos (keeps.1 (by rw [Ty.hasInt]))] at reads
    obtain ⟨rfl, rfl⟩ := reads
    rw [Agrees]
    exact ⟨agreesScalar_refl _, rfl⟩
  | .ptr, stored, loaded, pre, reads, keeps => by
    rw [Reads, keeps.2 (by rw [Ty.hasPtr]), Bool.and_true] at reads
    rw [Agrees]
    split at reads
    · obtain ⟨rfl, rfl⟩ := reads
      exact ⟨⟨rfl, fun _ => rfl⟩, rfl⟩
    · obtain ⟨rfl, rfl⟩ := reads
      exact ⟨⟨rfl, fun _ => rfl⟩, rfl⟩
  | .vector elements width, stored, loaded, pre, reads, keeps => by
    rw [Reads, if_pos (keeps.1 (by rw [Ty.hasInt]))] at reads
    rw [Agrees]
    refine ⟨?_, reads.1⟩
    intro i in_range
    rw [reads.2 i in_range]
    exact agreesScalar_refl _
  | .aggregate isVector children, stored, loaded, pre, reads, keeps => by
    rw [Reads] at reads
    rw [Ty.hasInt, Ty.hasPtr] at keeps
    rw [Agrees]
    exact agreesChildren_of_reads reads keeps

theorem agreesChildren_of_reads {whole : Ty} :
    ∀ {children : Children} {i : Nat} {stored loaded : StateValue} {pre : Bool},
    ReadsChildren p whole children i stored loaded pre →
    Keeps p children.hasInt children.hasPtr →
    AgreesChildren p whole children i stored loaded ∧ pre = true
  | .nil, _, _, _, _, reads, _ => by
    rw [ReadsChildren] at reads
    rw [AgreesChildren]
    exact ⟨trivial, reads⟩
  | .field ty rest, _, _, _, _, reads, keeps => by
    rw [ReadsChildren] at reads
    obtain ⟨first, others, rfl, first_reads, rest_reads⟩ := reads
    rw [Children.hasInt, Children.hasPtr, Keeps.or] at keeps
    obtain ⟨first_agrees, rfl⟩ := agrees_of_reads first_reads keeps.1
    obtain ⟨rest_agrees, rfl⟩ := agreesChildren_of_reads rest_reads keeps.2
    rw [AgreesChildren]
    exact ⟨⟨first_agrees, rest_agrees⟩, rfl⟩
  | .padding width rest, _, _, _, _, reads, keeps => by
    rw [ReadsChildren] at reads
    rw [Children.hasInt, Children.hasPtr] at keeps
    rw [AgreesChildren]
    exact agreesChildren_of_reads reads keeps

end

/-! ## Needed -/

theorem isOnes_slice {x : Bits} (ones : x.isOnes = true) (low width : Nat) :
    (x.slice low width).isOnes = true := by
  unfold Bits.isOnes at ones ⊢
  rw [List.all_eq_true] at ones ⊢
  intro b member
  exact ones b (List.mem_of_mem_drop (List.mem_of_mem_take member))

theorem isOnes_extract {ty : Ty} {v : StateValue} (ones : v.nonPoison.isOnes = true) (i : Nat) :
    (ty.extract p v i false).nonPoison.isOnes = true := by
  have bits : v.nonPoison.bits.isOnes = true := by
    cases np : v.nonPoison with
    | bool b =>
      rw [np] at ones
      simpa [NonPoison.bits, NonPoison.isOnes, Bits.isOnes] using ones
    | bv x =>
      rw [np] at ones
      exact ones
  unfold Ty.extract
  split
  · exact ones
  · rename_i isPadding child _
    rw [if_neg Bool.false_ne_true]
    cases child <;> exact isOnes_slice bits _ _

mutual

theorem keeps_of_agrees : ∀ {ty : Ty} {stored loaded : StateValue} {pre : Bool},
    Reads p ty stored loaded pre → stored.nonPoison.isOnes = true →
    Agrees p ty stored loaded → pre = true → Keeps p ty.hasInt ty.hasPtr
  | .int width, stored, loaded, pre, reads, ones, agrees, _ => by
    rw [Reads] at reads
    rw [Agrees] at agrees
    rw [Ty.hasInt, Ty.hasPtr]
    refine ⟨fun _ => ?_, nofun⟩
    by_contra no_ints
    rw [if_neg no_ints] at reads
    rw [← agrees.1, reads.2] at ones
    cases ones
  | .ptr, stored, loaded, pre, reads, ones, agrees, pre_true => by
    rw [Reads] at reads
    rw [Agrees] at agrees
    rw [Ty.hasInt, Ty.hasPtr]
    refine ⟨nofun, fun _ => ?_⟩
    split at reads
    · rw [← reads.2]
      exact pre_true
    · have same := agrees.1
      rw [reads.1, ones] at same
      simpa [NonPoison.isOnes] using same
  | .vector elements width, stored, loaded, pre, reads, ones, agrees, _ => by
    rw [Reads] at reads
    rw [Agrees] at agrees
    rw [Ty.hasInt, Ty.hasPtr]
    refine ⟨fun _ => ?_, nofun⟩
    by_contra no_ints
    rw [if_neg no_ints] at reads
    obtain ⟨i, in_range, poison⟩ := reads.2
    have same := (agrees i in_range).1
    rw [poison, isOnes_extract ones] at same
    cases same
  | .aggregate isVector children, stored, loaded, pre, reads, ones, agrees, pre_true => by
    rw [Reads] at reads
    rw [Agrees] at agrees
    rw [Ty.hasInt, Ty.hasPtr]
    exact keeps_of_agreesChildren reads ones agrees pre_true

theorem keeps_of_agreesChildren {whole : Ty} :
    ∀ {children : Children} {i : Nat} {stored loaded : StateValue} {pre : Bool},
    ReadsChildren p whole children i stored loaded pre → stored.nonPoison.isOnes = true →
    AgreesChildren p whole children i stored loaded → pre = true →
    Keeps p children.hasInt children.hasPtr
  | .nil, _, _, _, _, _, _, _, _ => by
    rw [Children.hasInt, Children.hasPtr]
    exact ⟨nofun, nofun⟩
  | .field ty rest, i, _, _, _, reads, ones, agrees, pre_true => by
    rw [ReadsChildren] at reads
    obtain ⟨first, others, rfl, first_reads, rest_reads⟩ := reads
    rw [AgreesChildren] at agrees
    rw [Bool.and_eq_true] at pre_true
    rw [Children.hasInt, Children.hasPtr, Keeps.or]
    exact ⟨keeps_of_agrees first_reads (isOnes_extract ones i) agrees.1 pre_true.1,
      keeps_of_agreesChildren rest_reads ones agrees.2 pre_true.2⟩
  | .padding width rest, _, _, _, _, reads, ones, agrees, pre_true => by
    rw [ReadsChildren] at reads
    rw [AgreesChildren] at agrees
    rw [Children.hasInt, Children.hasPtr]
    exact keeps_of_agreesChildren reads ones agrees pre_true

end

def Ty.zero (p : Params) (ty : Ty) : StateValue where
  value := Bits.zeros (ty.bits p)
  nonPoison := match ty with
    | .int _ => .bool true
    | .ptr => .bool true
    | ty => .bv (Bits.ones (ty.npBits p false))

theorem Ty.zero_sized (p : Params) (ty : Ty) : Sized p ty (ty.zero p) := by
  have size : (Bits.zeros (ty.bits p)).length = ty.bits p := Bits.length_zeros _
  cases ty with
  | int width => exact ⟨size.trans (by rw [Ty.bits]), _, rfl⟩
  | ptr => exact ⟨size.trans (by rw [Ty.bits]), _, rfl⟩
  | vector elements width => exact ⟨size, _, rfl, Bits.length_ones _⟩
  | aggregate isVector children => exact ⟨size, _, rfl, Bits.length_ones _⟩

theorem Ty.zero_isOnes (p : Params) (ty : Ty) : (ty.zero p).nonPoison.isOnes = true := by
  have ones (n : Nat) : (Bits.ones n).isOnes = true := by simp [Bits.isOnes, Bits.ones]
  cases ty with
  | int width => rfl
  | ptr => rfl
  | vector elements width => exact ones _
  | aggregate isVector children => exact ones _

/-- An encoding keeps the values of a type if and only if it has bytes for its
parts. -/
theorem roundTrips_iff_keeps (whole : Whole p) (pointers : 0 < p.pointerBits) {grain : Nat}
    (grained : Grained p grain) {ty : Ty} (wf : ty.WellFormed) (fits : ty.Fits p grain) :
    RoundTrips p ty ↔ Keeps p ty.hasInt ty.hasPtr := by
  have reads {v : StateValue} (sized : Sized p ty v) (padding : Padding)
      (mayBeZero : Bits → Bool) (blk : MemBlock) {size : Option Nat} {offset : Nat}
      (aligned : unit p ∣ offset)
      (room : ∀ s, size = some s → offset + ty.storeByteSize p ≤ s) :
      Reads p ty v
        (loadValue p size
          (blk.store p mayBeZero size offset (storeData p padding ty v 0)) ty offset).1
        (loadValue p size
          (blk.store p mayBeZero size offset (storeData p padding ty v 0)) ty offset).2 := by
    have spread := (storeData_spread whole pointers grained padding wf fits sized
      (Nat.dvd_zero (unit p))).2
    exact (loadValue_reads whole pointers grained aligned wf fits sized (Nat.dvd_zero (unit p))
      (store_stored spread mayBeZero size blk offset) room).2
  constructor
  · intro trips
    have unbounded : ∀ s, (none : Option Nat) = some s → 0 + ty.storeByteSize p ≤ s := by
      intro s known
      cases known
    have trip := trips (ty.zero p) (Ty.zero_sized p ty) ⟨fun _ _ => false, fun _ _ => false⟩
      (fun _ => false) ⟨fun _ => [], {}⟩ none 0 (Nat.dvd_zero _) unbounded
    exact keeps_of_agrees (reads (Ty.zero_sized p ty) _ _ _ (Nat.dvd_zero _) unbounded)
      (Ty.zero_isOnes p ty) trip.1 trip.2
  · intro keeps v sized padding mayBeZero blk size offset aligned room
    exact agrees_of_reads (reads sized padding mayBeZero blk aligned room) keeps

/-! ## The chosen encoding -/

theorem gcdNonzero_eq (a b : Nat) : gcdNonzero a b = Nat.gcd a b := by
  unfold gcdNonzero
  split
  · rename_i zero
    rw [zero, Nat.gcd_zero_right]
  · split
    · rename_i zero
      rw [zero, Nat.gcd_zero_left]
    · rfl

theorem foldl_gcd_dvd {α : Type} (size : α → Nat) (items : List α) (start : Nat) :
    items.foldl (fun val item => gcdNonzero val (size item)) start ∣ start ∧ ∀ item ∈ items,
        items.foldl (fun val item => gcdNonzero val (size item)) start ∣ size item := by
  induction items generalizing start with
  | nil => exact ⟨Nat.dvd_refl _, nofun⟩
  | cons first rest ih =>
    obtain ⟨start_dvd, rest_dvd⟩ := ih (gcdNonzero start (size first))
    rw [List.foldl_cons]
    rw [gcdNonzero_eq] at start_dvd rest_dvd ⊢
    refine ⟨start_dvd.trans (Nat.gcd_dvd_left _ _), ?_⟩
    intro item member
    rcases List.mem_cons.1 member with rfl | member
    · exact start_dvd.trans (Nat.gcd_dvd_right _ _)
    · exact rest_dvd item member

theorem foldl_gcdOpt {start : Option Nat} (start_positive : ∀ n, start = some n → 0 < n)
    (sizes : List Nat) :
    (∀ n, sizes.foldl gcdOpt start = some n → 0 < n) ∧
      (∀ n, start = some n → ∃ m, sizes.foldl gcdOpt start = some m ∧ m ∣ n) ∧
      ∀ n ∈ sizes, 0 < n → ∃ m, sizes.foldl gcdOpt start = some m ∧ m ∣ n := by
  induction sizes generalizing start with
  | nil => exact ⟨start_positive, fun n known => ⟨n, known, Nat.dvd_refl _⟩, nofun⟩
  | cons first rest ih =>
    have next : (∀ n, gcdOpt start first = some n → 0 < n) ∧
        (∀ n, start = some n → ∃ m, gcdOpt start first = some m ∧ m ∣ n) ∧
        (0 < first → ∃ m, gcdOpt start first = some m ∧ m ∣ first) := by
      unfold gcdOpt
      split
      · rename_i zero
        exact ⟨start_positive, fun n known => ⟨n, known, Nat.dvd_refl _⟩, by omega⟩
      · rename_i nonzero
        have positive := Nat.pos_of_ne_zero nonzero
        cases start with
        | none =>
          refine ⟨?_, nofun, fun _ => ⟨first, rfl, Nat.dvd_refl _⟩⟩
          intro n known
          cases known
          exact positive
        | some a =>
          refine ⟨?_, ?_, fun _ => ⟨_, rfl, Nat.gcd_dvd_right _ _⟩⟩
          · intro n known
            cases known
            exact Nat.gcd_pos_of_pos_right _ positive
          · intro n known
            cases known
            exact ⟨_, rfl, Nat.gcd_dvd_left _ _⟩
    obtain ⟨next_positive, next_start, next_first⟩ := next
    obtain ⟨rest_positive, rest_start, rest_sizes⟩ := ih next_positive
    rw [List.foldl_cons]
    refine ⟨rest_positive, ?_, ?_⟩
    · intro n known
      obtain ⟨m, m_eq, m_dvd⟩ := next_start n known
      obtain ⟨k, k_eq, k_dvd⟩ := rest_start m m_eq
      exact ⟨k, k_eq, k_dvd.trans m_dvd⟩
    · intro n member positive
      rcases List.mem_cons.1 member with rfl | member
      · obtain ⟨m, m_eq, m_dvd⟩ := next_first positive
        obtain ⟨k, k_eq, k_dvd⟩ := rest_start m m_eq
        exact ⟨k, k_eq, k_dvd.trans m_dvd⟩
      · exact rest_sizes n member positive

theorem minVectorElemSize_onlyPtrs (bitsProgramPointer : Nat) : ∀ {children : Children},
    children.OnlyPtrs → children.minVectorElemSize bitsProgramPointer 0 = 0
  | .nil, _ => by rw [Children.minVectorElemSize]
  | .field ty rest, only => by
    rw [Children.OnlyPtrs] at only
    obtain ⟨rfl, rest_only⟩ := only
    rw [Children.minVectorElemSize, Ty.minVectorElemSize]
    exact minVectorElemSize_onlyPtrs bitsProgramPointer rest_only
  | .padding width rest, only => by
    rw [Children.OnlyPtrs] at only
    exact only.elim

section

variable {grain elem : Nat}

mutual

/-- Sizes that divide the access size and the element sizes of the type fit its
parts. -/
theorem fits_of_dvd (whole : Whole p) (pointer_bytes : 8 ∣ p.bitsProgramPointer)
    (pointer_positive : 0 < p.bitsProgramPointer)
    (grain_dvd : ∀ width, 0 < width → elem ∣ width → grain ∣ width) :
    ∀ {ty : Ty}, ty.WellFormed → unit p ∣ ty.commonAccessSize p.bitsProgramPointer →
      elem ∣ ty.minVectorElemSize p.bitsProgramPointer →
      (ty.hasPtr = true → p.doesPtrMemAccess = true) → ty.Fits p grain
  | .int width, _, common, _, _ => by
    rw [Ty.commonAccessSize] at common
    rwa [Ty.Fits]
  | .ptr, _, common, _, ptrs => by
    rw [Ty.commonAccessSize] at common
    have aligned : p.bitsByte ∣ p.bitsProgramPointer := by
      rw [whole.bitsByte_eq, ← Nat.mul_div_cancel' pointer_bytes]
      exact Nat.mul_dvd_mul_left 8 common
    rw [Ty.Fits]
    refine ⟨ptrs (by rw [Ty.hasPtr]), aligned, ?_⟩
    exact Nat.div_pos (Nat.le_of_dvd pointer_positive aligned)
      (Nat.pos_of_dvd_of_pos aligned pointer_positive)
  | .vector elements width, wf, common, elems, _ => by
    rw [Ty.WellFormed] at wf
    rw [Ty.commonAccessSize] at common
    rw [Ty.minVectorElemSize] at elems
    rw [Ty.Fits]
    exact ⟨grain_dvd width wf.2 elems, common⟩
  | .aggregate isVector children, wf, common, elems, ptrs => by
    rw [Ty.WellFormed] at wf
    rw [Ty.hasPtr] at ptrs
    have elems : elem ∣ children.minVectorElemSize p.bitsProgramPointer 0 := by
      cases isVector with
      | true =>
        rw [minVectorElemSize_onlyPtrs _ (wf.2 rfl)]
        exact Nat.dvd_zero _
      | false => rwa [Ty.minVectorElemSize] at elems
    rw [Ty.Fits]
    cases children with
    | nil =>
      rw [Children.Fits]
      trivial
    | field ty rest =>
      rw [Children.WellFormed] at wf
      rw [Ty.commonAccessSize] at common
      rw [Children.minVectorElemSize] at elems
      rw [Children.hasPtr, Bool.or_eq_true] at ptrs
      obtain ⟨size, val, rest_fits⟩ := childrenFit_of_dvd whole pointer_bytes pointer_positive
        grain_dvd wf.1.2 common elems (fun rest_ptrs => ptrs (.inr rest_ptrs))
      rw [gcdNonzero_eq, Nat.gcd_zero_left] at val
      rw [Children.Fits]
      exact ⟨fits_of_dvd whole pointer_bytes pointer_positive grain_dvd wf.1.1 size val
        (fun ty_ptrs => ptrs (.inl ty_ptrs)), rest_fits⟩
    | padding width rest =>
      rw [Children.WellFormed] at wf
      rw [Ty.commonAccessSize] at common
      rw [Children.minVectorElemSize] at elems
      rw [Children.hasPtr] at ptrs
      obtain ⟨size, -, rest_fits⟩ := childrenFit_of_dvd whole pointer_bytes pointer_positive
        grain_dvd wf.1.2 common elems ptrs
      rw [Children.Fits]
      exact ⟨size, rest_fits⟩

theorem childrenFit_of_dvd (whole : Whole p) (pointer_bytes : 8 ∣ p.bitsProgramPointer)
    (pointer_positive : 0 < p.bitsProgramPointer)
    (grain_dvd : ∀ width, 0 < width → elem ∣ width → grain ∣ width) :
    ∀ {children : Children} {size val : Nat}, children.WellFormed →
      unit p ∣ children.commonAccessSize p.bitsProgramPointer size →
      elem ∣ children.minVectorElemSize p.bitsProgramPointer val →
      (children.hasPtr = true → p.doesPtrMemAccess = true) →
      unit p ∣ size ∧ elem ∣ val ∧ children.Fits p grain
  | .nil, _, _, _, common, elems, _ => by
    rw [Children.commonAccessSize] at common
    rw [Children.minVectorElemSize] at elems
    rw [Children.Fits]
    exact ⟨common, elems, trivial⟩
  | .field ty rest, _, _, wf, common, elems, ptrs => by
    rw [Children.WellFormed] at wf
    rw [Children.commonAccessSize] at common
    rw [Children.minVectorElemSize] at elems
    rw [Children.hasPtr, Bool.or_eq_true] at ptrs
    obtain ⟨size_dvd, val_dvd, rest_fits⟩ := childrenFit_of_dvd whole pointer_bytes
      pointer_positive grain_dvd wf.2 common elems (fun rest_ptrs => ptrs (.inr rest_ptrs))
    rw [gcdNonzero_eq] at val_dvd
    have ty_fits := fits_of_dvd whole pointer_bytes pointer_positive grain_dvd wf.1
      (size_dvd.trans (Nat.gcd_dvd_right _ _)) (val_dvd.trans (Nat.gcd_dvd_right _ _))
      (fun ty_ptrs => ptrs (.inl ty_ptrs))
    rw [Children.Fits]
    exact ⟨size_dvd.trans (Nat.gcd_dvd_left _ _), val_dvd.trans (Nat.gcd_dvd_left _ _), ty_fits,
      rest_fits⟩
  | .padding width rest, _, _, wf, common, elems, ptrs => by
    rw [Children.WellFormed] at wf
    rw [Children.commonAccessSize] at common
    rw [Children.minVectorElemSize] at elems
    rw [Children.hasPtr] at ptrs
    obtain ⟨size_dvd, val_dvd, rest_fits⟩ := childrenFit_of_dvd whole pointer_bytes
      pointer_positive grain_dvd wf.2 common elems ptrs
    rw [Children.Fits]
    exact ⟨size_dvd.trans (Nat.gcd_dvd_left _ _), val_dvd, size_dvd.trans (Nat.gcd_dvd_right _ _),
      rest_fits⟩

end

end

section

variable {target : Target} {program : Program} {ty : Ty} {align : Nat}

theorem chosen_whole (align_positive : 0 < align)
    (stored : ByteAccessInfo.get target ty true align ∈ program.accesses) :
    Whole (calculateAndInitConstants target program) ∧
      unit (calculateAndInitConstants target program) ∣
        ty.commonAccessSize target.bitsProgramPointer := by
  have size_positive : 0 < Nat.gcd align (ty.commonAccessSize target.bitsProgramPointer) :=
    Nat.gcd_pos_of_pos_left _ align_positive
  have accessed : (program.attributeAccess || program.accesses.any (·.doesMemAccess)) = true := by
    rw [Bool.or_eq_true]
    refine .inr (List.any_eq_true.2 ⟨_, stored, ?_⟩)
    exact decide_eq_true (Nat.pos_iff_ne_zero.1 size_positive)
  have none_positive : ∀ n, (none : Option Nat) = some n → 0 < n := by
    intro n known
    cases known
  obtain ⟨sizes_positive, -, sizes_dvd⟩ :=
    foldl_gcdOpt none_positive (program.accesses.map (·.byteSize) ++ program.castSizes)
  obtain ⟨k, k_eq, k_dvd⟩ := sizes_dvd _
    (List.mem_append_left _ (List.mem_map.2 ⟨_, stored, rfl⟩)) size_positive
  have byte : (calculateAndInitConstants target program).bitsByte = 8 * k := by
    unfold calculateAndInitConstants
    simp only [accessed, k_eq, if_true, Option.getD_some]
  have unit_eq : unit (calculateAndInitConstants target program) = k := by
    rw [unit, byte, Nat.mul_div_cancel_left _ (by decide)]
  refine ⟨⟨?_, ?_⟩, ?_⟩
  · rw [unit_eq]
    exact sizes_positive k k_eq
  · rw [unit_eq, byte]
  · rw [unit_eq]
    exact k_dvd.trans (Nat.gcd_dvd_right _ _)

theorem chosen_grain (positive : 0 < (calculateAndInitConstants target program).bitsByte)
    (typed : ty ∈ program.types) :
    ∃ grain elem, Grained (calculateAndInitConstants target program) grain ∧
      elem ∣ ty.minVectorElemSize target.bitsProgramPointer ∧
      ∀ width, 0 < width → elem ∣ width → grain ∣ width := by
  set p := calculateAndInitConstants target program with p_eq
  have elems := (foldl_gcd_dvd (Ty.minVectorElemSize target.bitsProgramPointer) program.types
    0).2 ty typed
  set elem := program.types.foldl
    (fun val ty => gcdNonzero val (ty.minVectorElemSize target.bitsProgramPointer)) 0 with elem_eq
  have poison : p.bitsPoisonPerByte = if elem = 0 then 1
      else if elem % 8 ≠ 0 then p.bitsByte
      else p.bitsByte / Nat.gcd p.bitsByte elem := rfl
  by_cases zero : elem = 0
  · rw [if_pos zero] at poison
    refine ⟨p.bitsByte, elem, ⟨positive, by omega, by rw [poison, Nat.one_mul]⟩, elems, ?_⟩
    intro width width_positive dvd
    rw [zero, Nat.zero_dvd] at dvd
    omega
  · rw [if_neg zero] at poison
    by_cases odd : elem % 8 ≠ 0
    · rw [if_pos odd] at poison
      exact ⟨1, elem, ⟨Nat.one_pos, by omega, by rw [poison, Nat.mul_one]⟩, elems,
        fun _ _ _ => Nat.one_dvd _⟩
    · rw [if_neg odd] at poison
      have dvd := Nat.gcd_dvd_left p.bitsByte elem
      have grain_positive : 0 < Nat.gcd p.bitsByte elem := Nat.gcd_pos_of_pos_left _ positive
      refine ⟨Nat.gcd p.bitsByte elem, elem, ⟨grain_positive, ?_, ?_⟩, elems, ?_⟩
      · rw [poison]
        exact Nat.div_pos (Nat.le_of_dvd positive dvd) grain_positive
      · rw [poison, Nat.div_mul_cancel dvd]
      · intro width _ elem_dvd
        exact (Nat.gcd_dvd_right _ _).trans elem_dvd

/-- A value that the program stores comes back from memory if and only if its
integers have bytes, and the numbers of the bytes of a pointer fit. -/
theorem store_load_roundTrip_iff (pointer_bytes : 8 ∣ target.bitsProgramPointer)
    (pointer_positive : 0 < target.bitsProgramPointer) (pointers : 0 < target.pointerBits)
    (wf : ty.WellFormed) (align_positive : 0 < align)
    (stored : ByteAccessInfo.get target ty true align ∈ program.accesses)
    (typed : ty ∈ program.types) :
    RoundTrips (calculateAndInitConstants target program) ty ↔
      (ty.hasInt = true → (calculateAndInitConstants target program).doesIntMemAccess = true) ∧
      (ty.hasPtr = true → numbersFit (calculateAndInitConstants target program) = true) := by
  obtain ⟨whole, common⟩ := chosen_whole align_positive stored
  have byte_positive : 0 < (calculateAndInitConstants target program).bitsByte := by
    rw [whole.bitsByte_eq]
    exact Nat.mul_pos (by decide) whole.positive
  obtain ⟨grain, elem, grained, elems, grain_dvd⟩ := chosen_grain byte_positive typed
  have ptrs : ty.hasPtr = true →
      (calculateAndInitConstants target program).doesPtrMemAccess = true := by
    intro has_ptr
    have stores : program.accesses.any (·.doesPtrStore) = true :=
      List.any_eq_true.2 ⟨_, stored, by simp [ByteAccessInfo.get, has_ptr]⟩
    rw [Params.doesPtrMemAccess, Bool.or_eq_true]
    exact .inr stores
  have fits : ty.Fits (calculateAndInitConstants target program) grain :=
    fits_of_dvd whole pointer_bytes pointer_positive grain_dvd wf common elems ptrs
  exact roundTrips_iff_keeps whole pointers grained wf fits

end

def target64 : Target where
  bitsProgramPointer := 64
  pointerBits := 20
  littleEndian := true
  disallowUbExploitation := false
  getAddress := id
  autoCast := fun bits => bits.slice 0 20

/-- The type `{ptr, i8, i32}` with three bytes of padding. -/
def paddedStruct : Ty :=
  .aggregate false (.field .ptr (.field (.int 8) (.padding 24 (.field (.int 32) .nil))))

/-- Storing and loading the structure next to an integer. -/
def paddedProgram : Program where
  accesses := [ByteAccessInfo.get target64 paddedStruct true 8,
    ByteAccessInfo.get target64 paddedStruct false 8,
    ByteAccessInfo.get target64 (.int 32) false 4]
  castSizes := []
  attributeAccess := false
  types := [paddedStruct, .int 32]

theorem paddedStruct_roundTrips :
    RoundTrips (calculateAndInitConstants target64 paddedProgram) paddedStruct := by
  have wf : paddedStruct.WellFormed := by
    simp [paddedStruct, Ty.WellFormed, Children.WellFormed]
  exact (store_load_roundTrip_iff (by decide) (by decide) (by decide) wf (by decide : 0 < 8)
    List.mem_cons_self List.mem_cons_self).2 ⟨fun _ => by decide, fun _ => by decide⟩

/-- The type `{ptr, i64}`. -/
def mixedStruct : Ty :=
  .aggregate false (.field .ptr (.field (.int 64) .nil))

def mixedProgram : Program where
  accesses := [ByteAccessInfo.get target64 mixedStruct true 8,
    ByteAccessInfo.get target64 mixedStruct false 8]
  castSizes := []
  attributeAccess := false
  types := [mixedStruct]

/-- The integer of the structure is loaded as poison. -/
theorem mixedStruct_not_roundTrips :
    ¬ RoundTrips (calculateAndInitConstants target64 mixedProgram) mixedStruct := by
  intro trips
  have trip := (trips _ (Ty.zero_sized _ mixedStruct) ⟨fun _ _ => false, fun _ _ => false⟩
    (fun _ => false) ⟨fun _ => [], {}⟩ none 0 (Nat.dvd_zero _) nofun).1
  simp only [mixedStruct, Agrees, AgreesChildren] at trip
  have poison := trip.2.1.1
  revert poison
  decide +kernel

end AliveNext.IR
